import Mathlib.Data.Nat.Digits.Lemmas
import Mathlib.Tactic.LinearCombination

/-! # Positional arithmetic

Numbers written in digits, the least significant first, and an operation carried through them one
digit at a time. The digits of the operands are columns of any type; a step takes one column and
what the column before it handed on. When every step is exact, so is the whole chain: the digits
it writes, with the carry at the weight of the next place, are worth what its columns are.
-/

namespace Positional
set_option autoImplicit false

variable {δ ρ κ R : Type}

/-- Carry a step through the columns: the digits it writes and what it hands on last. -/
def thread (step : δ → κ → ρ × κ) : List δ → κ → List ρ × κ
  | [], k => ([], k)
  | d :: ds, k =>
    let (r, k) := step d k
    let (rs, k) := thread step ds k
    (r :: rs, k)

/-- What digits are worth when each weighs `base` times the one before. -/
def worth [Semiring R] (base : R) (weigh : δ → R) : List δ → R
  | [] => 0
  | d :: ds => weigh d + base * worth base weigh ds

theorem worth_add [CommRing R] (base : R) (f g : δ → R) (ds : List δ) :
    worth base (fun d => f d + g d) ds = worth base f ds + worth base g ds := by
  induction ds with
  | nil => simp [worth]
  | cons d ds ih =>
    rw [worth, worth, worth, ih]
    ring

theorem worth_sub [CommRing R] (base : R) (f g : δ → R) (ds : List δ) :
    worth base (fun d => f d - g d) ds = worth base f ds - worth base g ds := by
  induction ds with
  | nil => simp [worth]
  | cons d ds ih =>
    rw [worth, worth, worth, ih]
    ring

theorem worth_ofDigits (base : ℕ) (f : δ → ℕ) (ds : List δ) :
    worth (base : ℤ) (fun d => (f d : ℤ)) ds = (Nat.ofDigits base (ds.map f) : ℕ) := by
  induction ds with
  | nil => simp [worth]
  | cons d ds ih =>
    rw [worth, ih, List.map_cons, Nat.ofDigits_cons]
    push_cast
    rfl

section Thread
variable (step : δ → κ → ρ × κ)

theorem thread_length (ds : List δ) (k : κ) : (thread step ds k).1.length = ds.length := by
  induction ds generalizing k with
  | nil => rfl
  | cons d ds ih => simp [thread, ih]

theorem thread_forall {P : ρ → Prop} {ds : List δ} (h : ∀ d ∈ ds, ∀ k, P (step d k).1) (k : κ) :
    ∀ r ∈ (thread step ds k).1, P r := by
  induction ds generalizing k with
  | nil => simp [thread]
  | cons d ds ih =>
    intro r hr
    obtain rfl | hr := List.mem_cons.mp hr
    · exact h d List.mem_cons_self k
    · exact ih (fun d hd => h d (List.mem_cons_of_mem _ hd)) _ r hr

theorem thread_worth [CommRing R] (base : R) (digit : ρ → R) (carry : κ → R) (amount : δ → R)
    {ds : List δ}
    (h : ∀ d ∈ ds, ∀ k, digit (step d k).1 + base * carry (step d k).2 = amount d + carry k)
    (k : κ) :
    worth base digit (thread step ds k).1 + base ^ ds.length * carry (thread step ds k).2 =
      worth base amount ds + carry k := by
  induction ds generalizing k with
  | nil => simp [thread, worth]
  | cons d ds ih =>
    have hd := h d List.mem_cons_self k
    have hds := ih (fun d hd => h d (List.mem_cons_of_mem _ hd)) (step d k).2
    calc worth base digit (thread step (d :: ds) k).1 +
          base ^ (d :: ds).length * carry (thread step (d :: ds) k).2
        = digit (step d k).1 + base * (worth base digit (thread step ds (step d k).2).1 +
            base ^ ds.length * carry (thread step ds (step d k).2).2) := by
          rw [thread, worth, List.length_cons, pow_succ]
          ring
      _ = (digit (step d k).1 + base * carry (step d k).2) + base * worth base amount ds := by
          rw [hds]
          ring
      _ = worth base amount (d :: ds) + carry k := by
          rw [hd, worth]
          ring

theorem worth_concat [CommRing R] (base : R) (f : δ → R) (ds : List δ) (d : δ) :
    worth base f (ds ++ [d]) = worth base f ds + base ^ ds.length * f d := by
  induction ds with
  | nil => simp [worth]
  | cons e ds ih =>
    rw [List.cons_append, worth, worth, ih, List.length_cons, pow_succ]
    ring

/-- The same of a step carried down from the most significant digit, which hands on what is left
of a digit at the weight of the place below. -/
theorem thread_worth_down [CommRing R] (base m : R) (digit : ρ → R) (carry : κ → R)
    (amount : δ → R) {ds : List δ}
    (h : ∀ d ∈ ds, ∀ k, m * digit (step d k).1 + carry (step d k).2 = amount d + base * carry k)
    (k : κ) :
    m * worth base digit (thread step ds k).1.reverse + carry (thread step ds k).2 =
      worth base amount ds.reverse + base ^ ds.length * carry k := by
  induction ds generalizing k with
  | nil => simp [thread, worth]
  | cons d ds ih =>
    have hd := h d List.mem_cons_self k
    have hds := ih (fun d hd => h d (List.mem_cons_of_mem _ hd)) (step d k).2
    rw [thread, List.reverse_cons, List.reverse_cons, worth_concat, worth_concat,
      List.length_reverse, List.length_reverse, thread_length, List.length_cons, pow_succ]
    linear_combination hds + base ^ ds.length * hd

end Thread

/-! ## Two's complement -/

/-- The digit below a two's complement number is worth the same in both readings. -/
theorem bmod_digit {base low m : ℕ} (hlow : low < base) (high : ℤ) (hm : m % 2 = 0) :
    Int.bmod (low + base * high) (base * m) = low + base * Int.bmod high m := by
  obtain rfl | hpos := Nat.eq_zero_or_pos m
  · simp
  have hbase : 0 < base := by omega
  have hle : -((m : ℤ) / 2) ≤ Int.bmod high m := Int.le_bmod hpos
  have hlt : Int.bmod high m < ((m : ℤ) + 1) / 2 := Int.bmod_lt hpos
  obtain ⟨half, rfl⟩ : ∃ half, m = 2 * half := ⟨m / 2, by omega⟩
  have hhalf : ((base * (2 * half) : ℕ) : ℤ) = 2 * (base * half) := by
    push_cast
    ring
  rw [Int.bmod_eq_iff (Nat.mul_pos hbase hpos), hhalf]
  have hlow' : (low : ℤ) + 1 ≤ base := by omega
  have hdown : (base : ℤ) * -half ≤ base * Int.bmod high (2 * half) :=
    Int.mul_le_mul_of_nonneg_left (by omega) (by omega)
  have hup : (base : ℤ) * (Int.bmod high (2 * half) + 1) ≤ base * half :=
    Int.mul_le_mul_of_nonneg_left (by omega) (by omega)
  rw [mul_neg] at hdown
  rw [mul_add, mul_one] at hup
  refine ⟨by omega, by omega, ?_⟩
  obtain ⟨q, hq⟩ : ((2 * half : ℕ) : ℤ) ∣ Int.bmod high (2 * half) - high := Int.dvd_bmod_sub_self
  refine ⟨q, ?_⟩
  push_cast at hq
  linear_combination (base : ℤ) * hq

/-- What digits are worth when the most significant one is read as signed. -/
def signedWorth (base : ℤ) (weigh top : δ → ℤ) : List δ → ℤ
  | [] => 0
  | [d] => top d
  | d :: ds => weigh d + base * signedWorth base weigh top ds

theorem signedWorth_cons (base : ℤ) (weigh top : δ → ℤ) (d : δ) {ds : List δ} (h : ds ≠ []) :
    signedWorth base weigh top (d :: ds) = weigh d + base * signedWorth base weigh top ds := by
  cases ds with
  | nil => exact absurd rfl h
  | cons e es => rfl

theorem signedWorth_add (base : ℤ) (f g top top' : δ → ℤ) (ds : List δ) :
    signedWorth base (fun d => f d + g d) (fun d => top d + top' d) ds =
      signedWorth base f top ds + signedWorth base g top' ds := by
  induction ds with
  | nil => simp [signedWorth]
  | cons d ds ih =>
    by_cases h : ds = []
    · subst h
      rfl
    · rw [signedWorth_cons _ _ _ _ h, signedWorth_cons _ _ _ _ h, signedWorth_cons _ _ _ _ h, ih]
      ring

theorem signedWorth_neg (base : ℤ) (f top : δ → ℤ) (ds : List δ) :
    signedWorth base (fun d => -f d) (fun d => -top d) ds = -signedWorth base f top ds := by
  induction ds with
  | nil => simp [signedWorth]
  | cons d ds ih =>
    by_cases h : ds = []
    · subst h
      rfl
    · rw [signedWorth_cons _ _ _ _ h, signedWorth_cons _ _ _ _ h, ih]
      ring

theorem even_pow {base : ℕ} (hbase : base % 2 = 0) {n : ℕ} (hn : n ≠ 0) : base ^ n % 2 = 0 := by
  rw [Nat.pow_mod, hbase, Nat.zero_pow (Nat.pos_of_ne_zero hn), Nat.zero_mod]

/-- Digits with a signed top digit are the two's complement of what they are worth unsigned. -/
theorem signedWorth_bmod (base : ℕ) (hbase : base % 2 = 0) {f : δ → ℕ} {ds : List δ}
    (h : ∀ d ∈ ds, f d < base) :
    signedWorth base (fun d => (f d : ℤ)) (fun d => Int.bmod (f d) base) ds =
      Int.bmod (Nat.ofDigits base (ds.map f) : ℕ) (base ^ ds.length) := by
  induction ds with
  | nil => simp [signedWorth]
  | cons d ds ih =>
    have hd := h d List.mem_cons_self
    by_cases hds : ds = []
    · subst hds
      simp [signedWorth]
    · rw [signedWorth_cons _ _ _ _ hds, ih fun e he => h e (List.mem_cons_of_mem _ he),
        ← bmod_digit hd _ (even_pow hbase (mt List.length_eq_zero_iff.mp hds)), List.map_cons,
        Nat.ofDigits_cons, List.length_cons, pow_succ']
      push_cast
      rfl

section Sign
variable (step : δ → κ → ρ × κ) (base : ℕ) (digit : ρ → ℕ)

/-- What the last step says of its digit's sign, the chain says of the sign of them all. -/
theorem thread_negative (Negative : κ → Prop) (hbase : base % 2 = 0) {ds : List δ} (hne : ds ≠ [])
    (hdigit : ∀ d ∈ ds, ∀ k, digit (step d k).1 < base)
    (h : ∀ d ∈ ds, ∀ k, Negative (step d k).2 ↔ Int.bmod (digit (step d k).1) base < 0) (k : κ) :
    Negative (thread step ds k).2 ↔
      Int.bmod (Nat.ofDigits base ((thread step ds k).1.map digit) : ℕ) (base ^ ds.length) < 0 := by
  induction ds generalizing k with
  | nil => exact absurd rfl hne
  | cons d ds ih =>
    by_cases hds : ds = []
    · subst hds
      simpa [thread] using h d List.mem_cons_self k
    · have hlow := hdigit d List.mem_cons_self k
      have hrest := ih hds (fun e he => hdigit e (List.mem_cons_of_mem _ he))
        (fun e he => h e (List.mem_cons_of_mem _ he)) (step d k).2
      have hsplit := bmod_digit hlow
        (Nat.ofDigits base ((thread step ds (step d k).2).1.map digit) : ℕ)
        (even_pow hbase (mt List.length_eq_zero_iff.mp hds))
      rw [thread, List.map_cons, Nat.ofDigits_cons, List.length_cons, pow_succ']
      push_cast at hsplit ⊢
      rw [hrest, hsplit]
      push_cast
      constructor
      · intro hneg
        nlinarith
      · intro hneg
        by_contra hpos
        have := Int.mul_nonneg (Int.natCast_nonneg base) (not_lt.mp hpos)
        omega

/-- What the last step says of its own overflow, the chain says of the whole sum's. -/
theorem thread_overflow (carry : κ → ℤ) (Overflow : κ → Prop) (amount top : δ → ℤ) (hbase : base % 2 = 0)
    {ds : List δ} (hne : ds ≠ [])
    (hdigit : ∀ d ∈ ds, ∀ k, digit (step d k).1 < base)
    (hexact : ∀ d ∈ ds, ∀ k,
      (digit (step d k).1 : ℤ) + base * carry (step d k).2 = amount d + carry k)
    (h : ∀ d ∈ ds, ∀ k,
      Overflow (step d k).2 ↔ Int.bmod (top d + carry k) base ≠ top d + carry k) (k : κ) :
    Overflow (thread step ds k).2 ↔
      Int.bmod (signedWorth base amount top ds + carry k) (base ^ ds.length) ≠
        signedWorth base amount top ds + carry k := by
  induction ds generalizing k with
  | nil => exact absurd rfl hne
  | cons d ds ih =>
    by_cases hds : ds = []
    · subst hds
      simpa [thread, signedWorth] using h d List.mem_cons_self k
    · have hlow := hdigit d List.mem_cons_self k
      have hrest := ih hds (fun e he => hdigit e (List.mem_cons_of_mem _ he))
        (fun e he => hexact e (List.mem_cons_of_mem _ he))
        (fun e he => h e (List.mem_cons_of_mem _ he)) (step d k).2
      have hsum : signedWorth base amount top (d :: ds) + carry k = digit (step d k).1 +
          base * (signedWorth base amount top ds + carry (step d k).2) := by
        rw [signedWorth_cons _ _ _ _ hds]
        linear_combination -(hexact d List.mem_cons_self k)
      have hsplit := bmod_digit hlow (signedWorth base amount top ds + carry (step d k).2)
        (even_pow hbase (mt List.length_eq_zero_iff.mp hds))
      have hpos : (base : ℤ) ≠ 0 := by omega
      rw [thread, hsum, List.length_cons, pow_succ', hsplit, hrest, not_iff_not]
      constructor
      · intro heq
        rw [heq]
      · intro heq
        exact mul_left_cancel₀ hpos (add_left_cancel heq)

end Sign

end Positional
