import SixFiveOhTwo.Arithmetic.Positional
import SixFiveOhTwo.Processor.Alu

/-! # One byte of a sum or a difference

What one call of `add` or `subtract` computes from two bytes and the C bit: the byte it returns and
the C it sets are exactly the sum with the carry in, or the difference with the borrow, and N and V
are the sign and the overflow of the signed result. With the decimal adjust and packed operands the
same holds of the decimal values.
-/

namespace SixFiveOhTwo
open Bits
set_option autoImplicit false

/-! ## Bits of P -/

theorem and_flagC (p : ℕ) : p &&& flagC = (p.testBit 0).toNat := by
  simpa using Nat.and_two_pow p 0

theorem and_flagC_le (p : ℕ) : p &&& flagC ≤ 1 := by
  rw [and_flagC]
  exact Bool.toNat_le _

/-- The C bit of P as a number. -/
def carryBit (p : ℕ) : ℤ := (p &&& flagC : ℕ)

theorem testBit_ite_or (c : Prop) [Decidable c] (p m i : ℕ) :
    (if c then p ||| m else p).testBit i = (p.testBit i || (decide c && m.testBit i)) := by
  by_cases h : c <;> simp [h]

theorem testBit_flagN (i : ℕ) : flagN.testBit i = decide (7 = i) :=
  Nat.testBit_two_pow (n := 7)

theorem testBit_flagV (i : ℕ) : flagV.testBit i = decide (6 = i) :=
  Nat.testBit_two_pow (n := 6)

theorem testBit_flagZ (i : ℕ) : flagZ.testBit i = decide (1 = i) :=
  Nat.testBit_two_pow (n := 1)

theorem testBit_flagC (i : ℕ) : flagC.testBit i = decide (0 = i) :=
  Nat.testBit_two_pow (n := 0)

theorem testBit_seven {a : ℕ} (ha : a < 256) : a.testBit 7 = decide (128 ≤ a) := by
  rw [Nat.testBit_eq_decide_div_mod_eq]
  exact decide_eq_decide.mpr (by omega)

theorem and_flagN_ne (x : ℕ) : (x &&& flagN ≠ 0) = (x.testBit 7 = true) := by
  rw [show flagN = 2 ^ 7 from rfl, Nat.and_two_pow]
  cases x.testBit 7 <;> simp

theorem bmod_byte {a : ℕ} (ha : a < 256) :
    Int.bmod a 256 = if 128 ≤ a then (a : ℤ) - 256 else a := by
  rw [Int.bmod_def]
  split_ifs <;> omega

theorem bmod_byte_ne {x : ℤ} : Int.bmod x 256 ≠ x ↔ x < -128 ∨ 128 ≤ x := by
  rw [Int.bmod_def]
  split_ifs <;> omega

theorem testBit_nz (value i : ℕ) : (nz value).testBit i =
    (value.testBit i && decide (7 = i) || decide (value = 0) && decide (1 = i)) := by
  rw [nz, Nat.testBit_or, Nat.testBit_and, testBit_flagN]
  by_cases h : value = 0 <;> simp [h, testBit_flagZ]

/-! ## Binary -/

section Binary
variable (a b p : ℕ)

attribute [local simp] testBit_flagN testBit_flagV testBit_flagZ testBit_flagC

theorem add_binary : (add a b p 0).1 = (a + b + (p &&& flagC)) % 256 := by
  simp only [add, ne_eq, not_true_eq_false, if_false, and_ff]

theorem add_binary_carry :
    (add a b p 0).2.testBit 0 = decide (255 < a + b + (p &&& flagC)) := by
  simp only [add, ne_eq, not_true_eq_false, if_false]
  simp only [testBit_ite_or, Nat.testBit_or, Nat.testBit_and, testBit_without]
  simp

theorem add_binary_sign : (add a b p 0).2.testBit 7 = (add a b p 0).1.testBit 7 := by
  simp only [add, ne_eq, not_true_eq_false, if_false]
  simp only [testBit_ite_or, Nat.testBit_or, Nat.testBit_and, testBit_without]
  simp

theorem add_binary_overflow : (add a b p 0).2.testBit 6 = true ↔
    a.testBit 7 ≠ (add a b p 0).1.testBit 7 ∧ a.testBit 7 = b.testBit 7 := by
  simp only [add, and_flagN_ne, ne_self_iff_false, if_false]
  simp only [testBit_ite_or, Nat.testBit_or, Nat.testBit_and, testBit_without]
  simp

theorem subtract_binary :
    ((subtract a b p 0).1 : ℤ) = ((a : ℤ) - b - (1 - (p &&& flagC : ℕ))) % 256 := by
  simp only [subtract, if_true, masked]
  omega

theorem subtract_carry (decimal : ℕ) : (subtract a b p decimal).2.testBit 0 =
    decide ((0 : ℤ) ≤ (a : ℤ) - b - (1 - (p &&& flagC : ℕ))) := by
  have h : (subtract a b p decimal).2 = (subtract a b p 0).2 := by
    unfold subtract
    by_cases h : decimal = 0 <;> simp [h]
  rw [h]
  simp only [subtract, if_true]
  simp only [testBit_ite_or, Nat.testBit_or, testBit_without, testBit_nz]
  simp

theorem subtract_sign : (subtract a b p 0).2.testBit 7 = (subtract a b p 0).1.testBit 7 := by
  simp only [subtract, if_true]
  simp only [testBit_ite_or, Nat.testBit_or, testBit_without, testBit_nz]
  simp

theorem subtract_overflow : (subtract a b p 0).2.testBit 6 = true ↔
    a.testBit 7 ≠ (subtract a b p 0).1.testBit 7 ∧ a.testBit 7 ≠ b.testBit 7 := by
  simp only [subtract, if_true, and_flagN_ne]
  simp only [testBit_ite_or, Nat.testBit_or, Nat.testBit_and, testBit_without, testBit_nz]
  simp

end Binary

section Bytes
variable {a b : ℕ} (ha : a < 256) (hb : b < 256) (p : ℕ)
include ha hb

theorem add_exact : ((add a b p 0).1 : ℤ) + 256 * carryBit (add a b p 0).2 =
    a + b + carryBit p := by
  have hp := and_flagC_le p
  rw [carryBit, carryBit, and_flagC (add a b p 0).2, add_binary, add_binary_carry]
  by_cases h : 255 < a + b + (p &&& flagC)
  · rw [decide_eq_true h, Bool.toNat_true]
    omega
  · rw [decide_eq_false h, Bool.toNat_false]
    omega

theorem add_overflow : (add a b p 0).2.testBit 6 = true ↔
    Int.bmod (Int.bmod a 256 + Int.bmod b 256 + carryBit p) 256 ≠
      Int.bmod a 256 + Int.bmod b 256 + carryBit p := by
  have hp := and_flagC_le p
  have hr := add_binary a b p
  have hlt : (add a b p 0).1 < 256 := by omega
  rw [add_binary_overflow, testBit_seven ha, testBit_seven hb, testBit_seven hlt, bmod_byte_ne,
    bmod_byte ha, bmod_byte hb, carryBit, ne_eq, decide_eq_decide, decide_eq_decide]
  split_ifs <;> omega

theorem subtract_exact : ((subtract a b p 0).1 : ℤ) -
      256 * (1 - carryBit (subtract a b p 0).2) = a - b - (1 - carryBit p) := by
  have hp := and_flagC_le p
  rw [carryBit, carryBit, and_flagC (subtract a b p 0).2, subtract_binary, subtract_carry]
  by_cases h : (0 : ℤ) ≤ a - b - (1 - (p &&& flagC : ℕ))
  · rw [decide_eq_true h, Bool.toNat_true]
    omega
  · rw [decide_eq_false h, Bool.toNat_false]
    omega

theorem subtract_signed_overflow : (subtract a b p 0).2.testBit 6 = true ↔
    Int.bmod (Int.bmod a 256 - Int.bmod b 256 - (1 - carryBit p)) 256 ≠
      Int.bmod a 256 - Int.bmod b 256 - (1 - carryBit p) := by
  have hp := and_flagC_le p
  have hr := subtract_binary a b p
  have hlt : (subtract a b p 0).1 < 256 := by omega
  rw [subtract_overflow, testBit_seven ha, testBit_seven hb, testBit_seven hlt, bmod_byte_ne,
    bmod_byte ha, bmod_byte hb, carryBit, ne_eq, ne_eq, decide_eq_decide, decide_eq_decide]
  split_ifs <;> omega

end Bytes

theorem add_byte (a b p : ℕ) : (add a b p 0).1 < 256 := by
  rw [add_binary]
  exact Nat.mod_lt _ (by decide)

theorem subtract_byte (a b p : ℕ) : (subtract a b p 0).1 < 256 := by
  have h := subtract_binary a b p
  omega

/-- The sign flag is the sign of a byte read in two's complement. -/
theorem sign_byte {r q : ℕ} (hr : r < 256) (h : q.testBit 7 = r.testBit 7) :
    q.testBit 7 = true ↔ Int.bmod r 256 < 0 := by
  rw [h, testBit_seven hr, bmod_byte hr, decide_eq_true_eq]
  split_ifs <;> omega

/-! ## Packed decimal -/

/-- A byte of two decimal digits. -/
def IsPacked (a : ℕ) : Prop := a / 16 ≤ 9 ∧ a % 16 ≤ 9

instance : DecidablePred IsPacked := fun a => inferInstanceAs (Decidable (a / 16 ≤ 9 ∧ a % 16 ≤ 9))

/-- What it stands for. -/
def packedValue (a : ℕ) : ℕ := 10 * (a / 16) + a % 16

theorem IsPacked.lt {a : ℕ} (h : IsPacked a) : a < 256 := by
  unfold IsPacked at h
  omega

theorem IsPacked.value_lt {a : ℕ} (h : IsPacked a) : packedValue a < 100 := by
  unfold IsPacked at h
  unfold packedValue
  omega

theorem IsPacked.repacked {a : ℕ} (h : IsPacked a) :
    16 * (packedValue a / 10) + packedValue a % 10 = a := by
  unfold IsPacked at h
  unfold packedValue
  omega

theorem map_packedValue_inj {r a : List ℕ} (hr : ∀ x ∈ r, IsPacked x) (ha : ∀ x ∈ a, IsPacked x)
    (h : r.map packedValue = a.map packedValue) : r = a := by
  have hback : ∀ l : List ℕ, (∀ x ∈ l, IsPacked x) →
      (l.map packedValue).map (fun v => 16 * (v / 10) + v % 10) = l := by
    intro l hl
    rw [List.map_map]
    exact (List.map_congr_left fun x hx => (hl x hx).repacked).trans (List.map_id l)
  rw [← hback r hr, h, hback a ha]

theorem and_0f (x : ℕ) : x &&& 0x0F = x % 16 := Nat.and_two_pow_sub_one_eq_mod x 4

theorem and_f0 : ∀ x < 256, x &&& 0xF0 = 16 * (x / 16) := by decide +kernel

/-- The low digits' sum, adjusted: ten and more becomes a digit and a carry. -/
def adjusted (low : ℕ) : ℕ := if 10 ≤ low then (low + 6) % 16 + 16 else low

section Packed
variable {a b decimal : ℕ} (ha : IsPacked a) (hb : IsPacked b) (hd : decimal ≠ 0) (p : ℕ)

attribute [local simp] testBit_flagN testBit_flagV testBit_flagZ testBit_flagC

include hd

/-- The carry out of the binary difference is the decimal one's. -/
theorem subtract_decimal :
    let borrow : ℤ := 1 - (p &&& flagC : ℕ)
    let low : ℤ := (a % 16 : ℕ) - (b % 16 : ℕ) - borrow
    let high : ℤ := (a / 16 : ℕ) - (b / 16 : ℕ)
    let low' := if low < 0 then low - 6 else low
    let high' := if low < 0 then high - 1 else high
    let high'' := if high' < 0 then high' - 6 else high'
    ((subtract a b p decimal).1 : ℤ) = (high'' * 16 + low' % 16) % 256 ∧
      (subtract a b p decimal).2 &&& flagC = if 0 ≤ (a : ℤ) - b - borrow then 1 else 0 := by
  rw [and_flagC (subtract a b p decimal).2, subtract_carry]
  refine ⟨?_, by simp [Bool.toNat, Bool.cond_decide]⟩
  simp only [subtract, hd, if_false, and_0f, Nat.shiftRight_eq_div_pow, masked]
  split_ifs <;> simp only [] <;> omega

include ha hb

theorem add_decimal :
    let high := 16 * (a / 16) + 16 * (b / 16) + adjusted (a % 16 + b % 16 + (p &&& flagC))
    let total := if 160 ≤ high then high + 96 else high
    (add a b p decimal).1 = total % 256 ∧
      (add a b p decimal).2 &&& flagC = if 256 ≤ total then 1 else 0 := by
  rw [and_flagC (add a b p decimal).2]
  simp only [add, hd, ne_eq, not_false_eq_true, if_true, and_0f, and_f0 a ha.lt, and_f0 b hb.lt,
    and_ff, adjusted]
  refine ⟨rfl, ?_⟩
  simp only [testBit_ite_or, Nat.testBit_or, Nat.testBit_and, testBit_without]
  simp [Bool.toNat, Bool.cond_decide]

theorem add_packed : IsPacked (add a b p decimal).1 := by
  obtain ⟨hr, -⟩ := add_decimal ha hb hd p
  have hp := and_flagC_le p
  unfold IsPacked at ha hb ⊢
  rw [hr, adjusted]
  split_ifs <;> omega

theorem add_packed_exact : (packedValue (add a b p decimal).1 : ℤ) +
      100 * carryBit (add a b p decimal).2 =
    packedValue a + packedValue b + carryBit p := by
  obtain ⟨hr, hc⟩ := add_decimal ha hb hd p
  have hp := and_flagC_le p
  unfold IsPacked at ha hb
  rw [carryBit, carryBit, hc, hr, adjusted]
  unfold packedValue
  split_ifs <;> omega

theorem subtract_packed : IsPacked (subtract a b p decimal).1 := by
  obtain ⟨hr, -⟩ := subtract_decimal (a := a) (b := b) hd p
  have hp := and_flagC_le p
  unfold IsPacked at ha hb ⊢
  split_ifs at hr <;> omega

theorem subtract_packed_exact : (packedValue (subtract a b p decimal).1 : ℤ) -
      100 * (1 - carryBit (subtract a b p decimal).2) =
    packedValue a - packedValue b - (1 - carryBit p) := by
  obtain ⟨hr, hc⟩ := subtract_decimal (a := a) (b := b) hd p
  have hp := and_flagC_le p
  unfold IsPacked at ha hb
  rw [carryBit, carryBit, hc]
  unfold packedValue
  split_ifs at hr ⊢ <;> omega

end Packed

end SixFiveOhTwo
