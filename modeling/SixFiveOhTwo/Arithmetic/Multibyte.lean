import SixFiveOhTwo.Arithmetic.Bytes

/-! # Multi-byte sums and differences

A program adds numbers of any length a byte at a time: the C bit of P links the calls, and between
two of them the rest of P may change. The chain computes the sum or the difference of the whole
numbers, in binary and in packed decimal, and subtracting undoes adding.
-/

namespace SixFiveOhTwo
open Bits Positional
set_option autoImplicit false

/-- One call of a chain: its two bytes, and the P it finds but for the C bit. -/
structure Column where
  a : ℕ
  b : ℕ
  p : ℕ := 0

/-- The call, with the C bit that the call before it left in P. -/
def Column.call (operation : ℕ → ℕ → ℕ → ℕ × ℕ) (column : Column) (carry : ℕ) : ℕ × ℕ :=
  operation column.a column.b (without column.p flagC ||| (carry &&& flagC))

/-- The bytes that a chain of calls returns, the least significant first, and the P of the last. -/
def multibyte (operation : ℕ → ℕ → ℕ → ℕ × ℕ) (columns : List Column) (p : ℕ) : List ℕ × ℕ :=
  thread (Column.call operation) columns p

/-- Addition with the D bit as the adder sees it. -/
def adding (decimal a b p : ℕ) : ℕ × ℕ := add a b p decimal

/-- And subtraction. -/
def subtracting (decimal a b p : ℕ) : ℕ × ℕ := subtract a b p decimal

/-- The number that little-endian bytes stand for, each worth what `weigh` says of it. -/
def value (base : ℕ) (weigh : ℕ → ℕ) (bytes : List ℕ) : ℕ := Nat.ofDigits base (bytes.map weigh)

/-- Bytes read in two's complement. -/
def signed (bytes : List ℕ) : ℤ := Int.bmod (value 256 id bytes) (256 ^ bytes.length)

/-! ## Chains of calls -/

theorem linked_carry (p carry : ℕ) :
    carryBit (without p flagC ||| (carry &&& flagC)) = carryBit carry := by
  rw [carryBit, Nat.and_or_distrib_right, without_and_self, Nat.and_assoc, Nat.and_self,
    Nat.zero_or, carryBit]

/-- What an operation does with any P, a call in a chain does with the carry handed to it. -/
theorem Column.call_linked {operation : ℕ → ℕ → ℕ → ℕ × ℕ} {P : ℤ → ℕ × ℕ → Prop}
    (column : Column) (h : ∀ p, P (carryBit p) (operation column.a column.b p)) (carry : ℕ) :
    P (carryBit carry) (column.call operation carry) := by
  have hcall := h (without column.p flagC ||| (carry &&& flagC))
  rwa [linked_carry] at hcall

/-- The bytes written with their carry are the sum of the columns. -/
def Sums (base : ℕ) (weigh : ℕ → ℕ) (columns : List Column) (p : ℕ) (result : List ℕ × ℕ) : Prop :=
  (value base weigh result.1 : ℤ) + (base : ℤ) ^ columns.length * carryBit result.2 =
    value base weigh (columns.map Column.a) + value base weigh (columns.map Column.b) + carryBit p

/-- The bytes written with their borrow are the difference of the columns. -/
def Differs (base : ℕ) (weigh : ℕ → ℕ) (columns : List Column) (p : ℕ) (result : List ℕ × ℕ) :
    Prop :=
  (value base weigh result.1 : ℤ) - (base : ℤ) ^ columns.length * (1 - carryBit result.2) =
    value base weigh (columns.map Column.a) - value base weigh (columns.map Column.b) -
      (1 - carryBit p)

section Chains
variable {operation : ℕ → ℕ → ℕ → ℕ × ℕ} (base : ℕ) (weigh : ℕ → ℕ) {columns : List Column} (p : ℕ)

theorem multibyte_length : (multibyte operation columns p).1.length = columns.length :=
  thread_length _ columns p

theorem multibyte_forall {P : ℕ → Prop} (h : ∀ c ∈ columns, ∀ p, P (operation c.a c.b p).1) :
    ∀ r ∈ (multibyte operation columns p).1, P r :=
  thread_forall _ (fun c hc _ => h c hc _) p

theorem worth_columns (byte : Column → ℕ) :
    worth (base : ℤ) (fun c => (weigh (byte c) : ℤ)) columns =
      value base weigh (columns.map byte) := by
  rw [value, List.map_map]
  exact worth_ofDigits base (weigh ∘ byte) columns

theorem multibyte_sums
    (h : ∀ c ∈ columns, ∀ p, (weigh (operation c.a c.b p).1 : ℤ) +
      base * carryBit (operation c.a c.b p).2 = weigh c.a + weigh c.b + carryBit p) :
    Sums base weigh columns p (multibyte operation columns p) := by
  have hexact := thread_worth (Column.call operation) (base : ℤ) (fun r => (weigh r : ℤ)) carryBit
    (fun c => (weigh c.a : ℤ) + weigh c.b)
    (fun c (hc : c ∈ columns) k => c.call_linked
      (P := fun k r => (weigh r.1 : ℤ) + base * carryBit r.2 = weigh c.a + weigh c.b + k)
      (h c hc) k) p
  rwa [worth_add, worth_columns, worth_columns, worth_ofDigits] at hexact

theorem multibyte_differs
    (h : ∀ c ∈ columns, ∀ p, (weigh (operation c.a c.b p).1 : ℤ) -
      base * (1 - carryBit (operation c.a c.b p).2) = weigh c.a - weigh c.b - (1 - carryBit p)) :
    Differs base weigh columns p (multibyte operation columns p) := by
  have hexact := thread_worth (Column.call operation) (base : ℤ) (fun r => (weigh r : ℤ))
    (fun k => carryBit k - 1) (fun c => (weigh c.a : ℤ) - weigh c.b)
    (fun c (hc : c ∈ columns) k => c.call_linked
      (P := fun k r => (weigh r.1 : ℤ) + base * (carryBit r.2 - 1) = weigh c.a - weigh c.b + (k - 1))
      (fun q => by linear_combination h c hc q) k) p
  rw [worth_sub, worth_columns, worth_columns, worth_ofDigits] at hexact
  rw [Differs, multibyte, value]
  linear_combination hexact

end Chains

/-! ## Signs -/

section Signs
variable {operation : ℕ → ℕ → ℕ → ℕ × ℕ} {columns : List Column} (p : ℕ)

theorem signedWorth_columns (byte : Column → ℕ) (hbyte : ∀ c ∈ columns, byte c < 256) :
    signedWorth ((256 : ℕ) : ℤ) (fun c => (byte c : ℤ)) (fun c => Int.bmod (byte c) 256) columns =
      signed (columns.map byte) := by
  rw [signed, value, List.map_id, List.length_map]
  exact signedWorth_bmod 256 rfl hbyte

/-- The sign of the last byte is the sign of them all. -/
theorem multibyte_sign (hne : columns ≠ []) (hbyte : ∀ a b p, (operation a b p).1 < 256)
    (hsign : ∀ a b p, (operation a b p).2.testBit 7 = (operation a b p).1.testBit 7) :
    (multibyte operation columns p).2.testBit 7 = true ↔
      signed (multibyte operation columns p).1 < 0 := by
  have hneg := thread_negative (Column.call operation) 256 id (fun q => q.testBit 7 = true) rfl hne (fun c _ k => hbyte c.a c.b _)
    (fun c _ k => sign_byte (hbyte c.a c.b _) (hsign _ _ _)) p
  rwa [signed, multibyte_length]

variable (h : ∀ c ∈ columns, c.a < 256 ∧ c.b < 256)
include h

theorem add_overflows (hne : columns ≠ []) :
    (multibyte (adding 0) columns p).2.testBit 6 = true ↔
      Int.bmod (signed (columns.map Column.a) + signed (columns.map Column.b) + carryBit p)
          (256 ^ columns.length) ≠
        signed (columns.map Column.a) + signed (columns.map Column.b) + carryBit p := by
  have hover := thread_overflow (Column.call (adding 0)) 256 id carryBit (fun q => q.testBit 6 = true)
    (fun c => (c.a : ℤ) + c.b) (fun c => Int.bmod c.a 256 + Int.bmod c.b 256)
    rfl hne (fun c hc k => add_byte _ _ _)
    (fun c hc k => c.call_linked
      (P := fun k r => (r.1 : ℤ) + 256 * carryBit r.2 = c.a + c.b + k)
      (add_exact (h c hc).1 (h c hc).2) k)
    (fun c hc k => c.call_linked
      (P := fun k r => r.2.testBit 6 = true ↔
        Int.bmod (Int.bmod c.a 256 + Int.bmod c.b 256 + k) 256 ≠
          Int.bmod c.a 256 + Int.bmod c.b 256 + k)
      (fun q => by simpa only [adding] using add_overflow (h c hc).1 (h c hc).2 q) k) p
  rwa [signedWorth_add, signedWorth_columns _ fun c hc => (h c hc).1,
    signedWorth_columns _ fun c hc => (h c hc).2] at hover

theorem subtract_overflows (hne : columns ≠ []) :
    (multibyte (subtracting 0) columns p).2.testBit 6 = true ↔
      Int.bmod (signed (columns.map Column.a) - signed (columns.map Column.b) - (1 - carryBit p))
          (256 ^ columns.length) ≠
        signed (columns.map Column.a) - signed (columns.map Column.b) - (1 - carryBit p) := by
  have hover := thread_overflow (Column.call (subtracting 0)) 256 id (fun q => carryBit q - 1)
    (fun q => q.testBit 6 = true) (fun c => (c.a : ℤ) + -c.b)
    (fun c => Int.bmod c.a 256 + -Int.bmod c.b 256)
    rfl hne (fun c hc k => subtract_byte _ _ _)
    (fun c hc k => c.call_linked
      (P := fun k r => (r.1 : ℤ) + 256 * (carryBit r.2 - 1) = c.a + -c.b + (k - 1))
      (fun q => by
        rw [subtracting]
        linear_combination subtract_exact (h c hc).1 (h c hc).2 q) k)
    (fun c hc k => c.call_linked
      (P := fun k r => r.2.testBit 6 = true ↔
        Int.bmod (Int.bmod c.a 256 + -Int.bmod c.b 256 + (k - 1)) 256 ≠
          Int.bmod c.a 256 + -Int.bmod c.b 256 + (k - 1))
      (fun q => by
        have hq := subtract_signed_overflow (h c hc).1 (h c hc).2 q
        rwa [show Int.bmod c.a 256 - Int.bmod c.b 256 - (1 - carryBit q) =
          Int.bmod c.a 256 + -Int.bmod c.b 256 + (carryBit q - 1) by ring] at hq) k) p
  rw [signedWorth_add, signedWorth_neg, signedWorth_columns _ fun c hc => (h c hc).1,
    signedWorth_columns _ fun c hc => (h c hc).2] at hover
  rwa [show signed (columns.map Column.a) - signed (columns.map Column.b) - (1 - carryBit p) =
    signed (columns.map Column.a) + -signed (columns.map Column.b) + (carryBit p - 1) by ring]

end Signs

/-- N and V are the sign and the overflow of a sum of `n` bytes in two's complement. -/
def SignedFlags (n : ℕ) (sum : ℤ) (p : ℕ) : Prop :=
  (p &&& flagN ≠ 0 ↔ Int.bmod sum (256 ^ n) < 0) ∧ (p &&& flagV ≠ 0 ↔ Int.bmod sum (256 ^ n) ≠ sum)

theorem and_flagV_ne (x : ℕ) : (x &&& flagV ≠ 0) = (x.testBit 6 = true) := by
  rw [show flagV = 2 ^ 6 from rfl, Nat.and_two_pow]
  cases x.testBit 6 <;> simp

/-- What is off by a multiple of `256 ^ n` has the same `n` bytes. -/
theorem signed_of_exact {r a b : List ℕ} {n : ℕ} {m d : ℤ} (hr : r.length = n) (ha : a.length = n)
    (hb : b.length = n) (s : ℤ)
    (h : (value 256 id r : ℤ) + (256 : ℤ) ^ n * m = value 256 id a + s * value 256 id b + d) :
    signed r = Int.bmod (signed a + s * signed b + d) (256 ^ n) := by
  obtain ⟨x, hx⟩ : ((256 ^ n : ℕ) : ℤ) ∣ value 256 id a - Int.bmod (value 256 id a) (256 ^ n) :=
    Int.dvd_self_sub_bmod
  obtain ⟨y, hy⟩ : ((256 ^ n : ℕ) : ℤ) ∣ value 256 id b - Int.bmod (value 256 id b) (256 ^ n) :=
    Int.dvd_self_sub_bmod
  rw [signed, signed, signed, hr, ha, hb, Int.bmod_eq_bmod_iff_bmod_sub_eq_zero,
    ← Int.dvd_iff_bmod_eq_zero]
  refine ⟨x + s * y - m, ?_⟩
  push_cast at hx hy ⊢
  linear_combination h + hx + s * hy

section Flags
variable {columns : List Column} (hne : columns ≠ []) (h : ∀ c ∈ columns, c.a < 256 ∧ c.b < 256)
  (p : ℕ)

include h

theorem add_sums : Sums 256 id columns p (multibyte (adding 0) columns p) :=
  multibyte_sums 256 id p fun c hc => add_exact (h c hc).1 (h c hc).2

theorem subtract_differs : Differs 256 id columns p (multibyte (subtracting 0) columns p) :=
  multibyte_differs 256 id p fun c hc => subtract_exact (h c hc).1 (h c hc).2

include hne

theorem add_flags : SignedFlags columns.length
    (signed (columns.map Column.a) + signed (columns.map Column.b) + carryBit p)
    (multibyte (adding 0) columns p).2 := by
  have hsums := add_sums h p
  rw [Sums] at hsums
  have hsigned := signed_of_exact (multibyte_length p) (List.length_map _) (List.length_map _) 1
    (by rw [one_mul]; exact hsums)
  rw [one_mul] at hsigned
  rw [SignedFlags, and_flagN_ne, and_flagV_ne, ← hsigned]
  refine ⟨multibyte_sign p hne add_byte add_binary_sign, ?_⟩
  rw [hsigned]
  exact add_overflows p h hne

theorem subtract_flags : SignedFlags columns.length
    (signed (columns.map Column.a) - signed (columns.map Column.b) - (1 - carryBit p))
    (multibyte (subtracting 0) columns p).2 := by
  have hdiffers := subtract_differs h p
  rw [Differs] at hdiffers
  have hsigned := signed_of_exact (multibyte_length p) (List.length_map _) (List.length_map _) (-1)
    (a := columns.map Column.a) (b := columns.map Column.b) (m := carryBit (multibyte (subtracting 0) columns p).2 - 1) (d := carryBit p - 1)
    (by linear_combination hdiffers)
  rw [show signed (columns.map Column.a) + -1 * signed (columns.map Column.b) + (carryBit p - 1) =
    signed (columns.map Column.a) - signed (columns.map Column.b) - (1 - carryBit p) by ring]
    at hsigned
  rw [SignedFlags, and_flagN_ne, and_flagV_ne, ← hsigned]
  refine ⟨multibyte_sign p hne subtract_byte subtract_sign, ?_⟩
  rw [hsigned]
  exact subtract_overflows p h hne

end Flags

/-! ## Subtracting undoes adding -/

theorem value_lt {base : ℕ} (hbase : 1 < base) {weigh : ℕ → ℕ} {bytes : List ℕ}
    (h : ∀ d ∈ bytes, weigh d < base) : value base weigh bytes < base ^ bytes.length := by
  have hlt := Nat.ofDigits_lt_base_pow_length hbase (l := bytes.map weigh) (by simpa using h)
  rwa [List.length_map] at hlt

/-- Digits below the base are found again from a number of their length. -/
theorem digits_of_value {base : ℕ} (hbase : 1 < base) {weigh : ℕ → ℕ} {r a : List ℕ}
    (hr : ∀ d ∈ r, weigh d < base) (ha : ∀ d ∈ a, weigh d < base) (hlen : r.length = a.length)
    (x : ℤ) (h : (value base weigh r : ℤ) = value base weigh a + (base : ℤ) ^ a.length * x) :
    r.map weigh = a.map weigh := by
  have hmod : value base weigh r % base ^ a.length = value base weigh a % base ^ a.length := by
    have hcast := congrArg (· % ((base ^ a.length : ℕ) : ℤ)) h
    push_cast at hcast
    rw [Int.add_mul_emod_self_left] at hcast
    exact_mod_cast hcast
  rw [Nat.mod_eq_of_lt (hlen ▸ value_lt hbase hr), Nat.mod_eq_of_lt (value_lt hbase ha)] at hmod
  exact Nat.ofDigits_inj_of_len_eq hbase (by simpa using hlen) (by simpa using hr)
    (by simpa using ha) hmod

theorem undone_of_exact {base : ℕ} (hbase : 1 < base) {weigh : ℕ → ℕ} {columns back : List Column}
    {p q : ℕ} {result found : List ℕ × ℕ} (hlen : found.1.length = back.length)
    (hsum : Sums base weigh columns p result) (hdiff : Differs base weigh back q found)
    (ha : back.map Column.a = result.1) (hb : back.map Column.b = columns.map Column.b)
    (hq : carryBit q = 1 - carryBit p) (hfound : ∀ d ∈ found.1, weigh d < base)
    (hcolumns : ∀ c ∈ columns, weigh c.a < base) :
    found.1.map weigh = (columns.map Column.a).map weigh := by
  have hn : back.length = columns.length := by simpa using congrArg List.length hb
  rw [Sums] at hsum
  rw [Differs, ha, hb, hn, hq] at hdiff
  refine digits_of_value hbase hfound (by simpa using hcolumns) (by simpa [hlen] using hn)
    (1 - carryBit found.2 - carryBit result.2) ?_
  rw [List.length_map]
  linear_combination hdiff + hsum

/-- The columns of the subtraction have the sum's bytes and the addition's second operand. -/
theorem back_columns {P : ℕ → Prop} {back columns : List Column} {result : List ℕ}
    (ha : back.map Column.a = result) (hb : back.map Column.b = columns.map Column.b)
    (hresult : ∀ r ∈ result, P r) (hcolumns : ∀ c ∈ columns, P c.a ∧ P c.b) :
    ∀ c ∈ back, P c.a ∧ P c.b := by
  intro c hc
  have hmem : c.b ∈ columns.map Column.b := hb ▸ List.mem_map_of_mem hc
  obtain ⟨d, hd, hdb⟩ := List.mem_map.mp hmem
  exact ⟨hresult c.a (ha ▸ List.mem_map_of_mem hc), hdb ▸ (hcolumns d hd).2⟩

/-- Subtracting the second operand from `result`, with the carry of the addition inverted, gives
back the first. -/
def Undone (decimal : ℕ) (columns : List Column) (p : ℕ) (result : List ℕ × ℕ) : Prop :=
  ∀ back : List Column, ∀ q, back.map Column.a = result.1 → back.map Column.b = columns.map Column.b →
    carryBit q = 1 - carryBit p →
      (multibyte (subtracting decimal) back q).1 = columns.map Column.a

theorem binary_undone {columns : List Column} (h : ∀ c ∈ columns, c.a < 256 ∧ c.b < 256) (p : ℕ) :
    Undone 0 columns p (multibyte (adding 0) columns p) := by
  intro back q ha hb hq
  have hback := back_columns ha hb (multibyte_forall (P := (· < 256)) p fun c _ => add_byte c.a c.b) h
  have hfound := undone_of_exact (by decide) (multibyte_length q) (add_sums h p)
    (subtract_differs hback q) ha hb hq
    (multibyte_forall (P := (· < 256)) q fun c _ => subtract_byte c.a c.b) fun c hc => (h c hc).1
  simpa using hfound

section Packed
variable {decimal : ℕ} (hd : decimal ≠ 0) {columns : List Column}
  (h : ∀ c ∈ columns, IsPacked c.a ∧ IsPacked c.b) (p : ℕ)
include hd h

theorem decimal_sums : Sums 100 packedValue columns p (multibyte (adding decimal) columns p) :=
  multibyte_sums 100 packedValue p fun c hc => add_packed_exact (h c hc).1 (h c hc).2 hd

theorem decimal_differs :
    Differs 100 packedValue columns p (multibyte (subtracting decimal) columns p) :=
  multibyte_differs 100 packedValue p fun c hc => subtract_packed_exact (h c hc).1 (h c hc).2 hd

theorem decimal_sum_packed : ∀ r ∈ (multibyte (adding decimal) columns p).1, IsPacked r :=
  multibyte_forall p fun c hc => add_packed (h c hc).1 (h c hc).2 hd

theorem decimal_difference_packed : ∀ r ∈ (multibyte (subtracting decimal) columns p).1, IsPacked r :=
  multibyte_forall p fun c hc => subtract_packed (h c hc).1 (h c hc).2 hd

theorem decimal_undone : Undone decimal columns p (multibyte (adding decimal) columns p) := by
  intro back q ha hb hq
  have hback := back_columns ha hb (decimal_sum_packed hd h p) h
  have hpacked := decimal_difference_packed hd hback q
  have hfound := undone_of_exact (by decide) (multibyte_length q) (decimal_sums hd h p)
    (decimal_differs hd hback q) ha hb hq (fun r hr => (hpacked r hr).value_lt)
    fun c hc => (h c hc).1.value_lt
  exact map_packedValue_inj hpacked (by simpa using fun c hc => (h c hc).1) hfound

end Packed

/-! ## Whole operands -/

/-- What a chain of additions and one of subtractions compute from binary operands. -/
structure BinaryChains (columns : List Column) (p : ℕ) : Prop where
  sum : Sums 256 id columns p (multibyte (adding 0) columns p)
  sumBytes : (multibyte (adding 0) columns p).1.length = columns.length ∧
    ∀ r ∈ (multibyte (adding 0) columns p).1, r < 256
  sumFlags : SignedFlags columns.length
    (signed (columns.map Column.a) + signed (columns.map Column.b) + carryBit p)
    (multibyte (adding 0) columns p).2
  difference : Differs 256 id columns p (multibyte (subtracting 0) columns p)
  differenceBytes : (multibyte (subtracting 0) columns p).1.length = columns.length ∧
    ∀ r ∈ (multibyte (subtracting 0) columns p).1, r < 256
  differenceFlags : SignedFlags columns.length
    (signed (columns.map Column.a) - signed (columns.map Column.b) - (1 - carryBit p))
    (multibyte (subtracting 0) columns p).2
  undone : Undone 0 columns p (multibyte (adding 0) columns p)

/-- And from packed decimal ones, with the decimal adjust connected and D set. -/
structure DecimalChains (decimal : ℕ) (columns : List Column) (p : ℕ) : Prop where
  sum : Sums 100 packedValue columns p (multibyte (adding decimal) columns p)
  sumBytes : (multibyte (adding decimal) columns p).1.length = columns.length ∧
    ∀ r ∈ (multibyte (adding decimal) columns p).1, IsPacked r
  difference : Differs 100 packedValue columns p (multibyte (subtracting decimal) columns p)
  differenceBytes : (multibyte (subtracting decimal) columns p).1.length = columns.length ∧
    ∀ r ∈ (multibyte (subtracting decimal) columns p).1, IsPacked r
  undone : Undone decimal columns p (multibyte (adding decimal) columns p)

/-- Multi-byte addition and subtraction are exact in both modes, with the sign and the overflow of
the whole signed result in the last call's N and V in binary mode. -/
theorem multibyte_arithmetic (columns : List Column) (hne : columns ≠ []) (p : ℕ) :
    ((∀ c ∈ columns, c.a < 256 ∧ c.b < 256) → BinaryChains columns p) ∧
      ∀ decimal, decimal ≠ 0 → (∀ c ∈ columns, IsPacked c.a ∧ IsPacked c.b) →
        DecimalChains decimal columns p := by
  refine ⟨fun h => ?_, fun decimal hd h => ?_⟩
  · exact {
      sum := add_sums h p
      sumBytes := ⟨multibyte_length p, multibyte_forall p fun c _ => add_byte c.a c.b⟩
      sumFlags := add_flags hne h p
      difference := subtract_differs h p
      differenceBytes := ⟨multibyte_length p, multibyte_forall p fun c _ => subtract_byte c.a c.b⟩
      differenceFlags := subtract_flags hne h p
      undone := binary_undone h p }
  · exact {
      sum := decimal_sums hd h p
      sumBytes := ⟨multibyte_length p, decimal_sum_packed hd h p⟩
      difference := decimal_differs hd h p
      differenceBytes := ⟨multibyte_length p, decimal_difference_packed hd h p⟩
      undone := decimal_undone hd h p }

/-- $9099 and $0901, with a carry out of the low byte in both modes. -/
def carried : List Column := [{ a := 0x99, b := 0x01 }, { a := 0x90, b := 0x09 }]

theorem multibyte_arithmetic_carried :
    (carried ≠ [] ∧ (∀ c ∈ carried, IsPacked c.a ∧ IsPacked c.b)) ∧
      BinaryChains carried flagC ∧ DecimalChains flagD carried flagC :=
  ⟨by decide, (multibyte_arithmetic carried (by decide) flagC).1 (by decide),
    (multibyte_arithmetic carried (by decide) flagC).2 flagD (by decide) (by decide)⟩

end SixFiveOhTwo
