import SixFiveOhTwo.Arithmetic.Multibyte
import SixFiveOhTwo.Processor.Shifts

/-! # Multi-byte shifts

A program shifts a number of any length a byte at a time: to the left from its least significant
byte, by ASL and then ROL, and to the right from its most significant byte, by LSR and then ROR. The
C bit of P links the calls as it links those of a sum. The chains double and halve the whole number,
each undoes the other, and doubling is what adding the number to itself computes.
-/

namespace SixFiveOhTwo
open Bits Positional
set_option autoImplicit false

/-- A shift as a call of a chain. It has one operand: the second byte of its column is not read. -/
def shifting (shift : ℕ → ℕ → ℕ × ℕ) (a _b p : ℕ) : ℕ × ℕ := shift a p

/-! ## One byte -/

theorem carryBit_zero : carryBit 0 = 0 := by
  rw [carryBit, Nat.zero_and, Nat.cast_zero]

theorem and_shift_flagC (p x : ℕ) (c : ℕ) :
    (without p (flagN ||| flagZ ||| flagC) ||| nz x ||| c) &&& flagC = c &&& flagC := by
  have hp : without p (flagN ||| flagZ ||| flagC) &&& flagC = 0 := by
    rw [and_flagC, testBit_without]
    simp
  have hnz : nz x &&& flagC = 0 := by
    rw [and_flagC, testBit_nz]
    simp
  rw [Nat.and_or_distrib_right, Nat.and_or_distrib_right, hp, hnz, Nat.zero_or, Nat.zero_or]

theorem rol_value (v p : ℕ) : (rol v p).1 = (2 * v + (p &&& flagC)) % 256 := by
  have hc := and_flagC_le p
  show ((v <<< 1) ||| (p &&& flagC)) &&& 0xFF = _
  rw [and_ff, ← Nat.shiftLeft_add_eq_or_of_lt (by omega), Nat.shiftLeft_eq]
  omega

theorem rol_carry {v : ℕ} (hv : v < 256) (p : ℕ) : (rol v p).2 &&& flagC = v / 128 := by
  show (without p (flagN ||| flagZ ||| flagC) ||| nz _ ||| (v >>> 7)) &&& flagC = _
  rw [and_shift_flagC, show flagC = 1 from rfl, Nat.and_one_is_mod, Nat.shiftRight_eq_div_pow]
  omega

theorem rol_exact {v : ℕ} (hv : v < 256) (p : ℕ) :
    ((rol v p).1 : ℤ) + 256 * carryBit (rol v p).2 = 2 * v + carryBit p := by
  have hc := and_flagC_le p
  rw [carryBit, carryBit, rol_value, rol_carry hv]
  omega

theorem rol_lt (v p : ℕ) : (rol v p).1 < 256 := by
  rw [rol_value]
  exact Nat.mod_lt _ (by decide)

theorem rol_sign {v : ℕ} (hv : v < 256) (p : ℕ) : (rol v p).2.testBit 7 = (rol v p).1.testBit 7 := by
  have hout : (v >>> 7).testBit 7 = false := by
    rw [Nat.testBit_shiftRight]
    exact Nat.testBit_lt_two_pow (hv.trans (by decide))
  show (without p (flagN ||| flagZ ||| flagC) ||| nz (rol v p).1 ||| (v >>> 7)).testBit 7 = _
  rw [Nat.testBit_or, Nat.testBit_or, testBit_without, testBit_nz, hout]
  simp [testBit_flagN]

theorem ror_value {v : ℕ} (hv : v < 256) (p : ℕ) : (ror v p).1 = v / 2 + 128 * (p &&& flagC) := by
  have hc := and_flagC_le p
  show (v >>> 1) ||| ((p &&& flagC) <<< 7) = _
  rw [Nat.or_comm, Nat.shiftRight_eq_div_pow, ← Nat.shiftLeft_add_eq_or_of_lt (by omega),
    Nat.shiftLeft_eq]
  omega

theorem ror_carry (v p : ℕ) : (ror v p).2 &&& flagC = v % 2 := by
  show (without p (flagN ||| flagZ ||| flagC) ||| nz _ ||| (v &&& flagC)) &&& flagC = _
  rw [and_shift_flagC, Nat.and_assoc, Nat.and_self, show flagC = 1 from rfl, Nat.and_one_is_mod]

theorem ror_exact {v : ℕ} (hv : v < 256) (p : ℕ) :
    2 * ((ror v p).1 : ℤ) + carryBit (ror v p).2 = v + 256 * carryBit p := by
  rw [carryBit, carryBit, ror_value hv, ror_carry]
  omega

theorem ror_lt {v : ℕ} (hv : v < 256) (p : ℕ) : (ror v p).1 < 256 := by
  have hc := and_flagC_le p
  rw [ror_value hv]
  omega

theorem without_carry (p : ℕ) : without (without p flagC) (flagN ||| flagZ ||| flagC) =
    without p (flagN ||| flagZ ||| flagC) := by
  apply Nat.eq_of_testBit_eq
  intro i
  rw [testBit_without, testBit_without, testBit_without, Nat.testBit_or]
  cases flagC.testBit i <;> simp

theorem asl_eq (v p : ℕ) : asl v p = rol v (without p flagC) := by
  rw [asl, rol, without_and_self, Nat.or_zero, without_carry]

theorem lsr_eq (v p : ℕ) : lsr v p = ror v (without p flagC) := by
  rw [lsr, ror, without_and_self, Nat.zero_shiftLeft, Nat.or_zero, without_carry]

/-! ## Chains of shifts -/

/-- A chain to the left. -/
def rotatedLeft (columns : List Column) (p : ℕ) : List ℕ × ℕ := multibyte (shifting rol) columns p

/-- A chain to the right, which begins at the last column; the bytes are put back in their places. -/
def rotatedRight (columns : List Column) (p : ℕ) : List ℕ × ℕ :=
  let (bytes, p) := multibyte (shifting ror) columns.reverse p
  (bytes.reverse, p)

/-- A chain whose first call is another shift than the rest. -/
def started (first rest : ℕ → ℕ → ℕ × ℕ) : List Column → ℕ → List ℕ × ℕ
  | [], p => ([], p)
  | column :: columns, p =>
    let (byte, p) := column.call (shifting first) p
    let (bytes, p) := multibyte (shifting rest) columns p
    (byte :: bytes, p)

/-- ASL of the least significant byte, then ROL of the others. -/
def shiftedLeft (columns : List Column) (p : ℕ) : List ℕ × ℕ := started asl rol columns p

/-- LSR of the most significant byte, then ROR of the others. -/
def shiftedRight (columns : List Column) (p : ℕ) : List ℕ × ℕ :=
  let (bytes, p) := started lsr ror columns.reverse p
  (bytes.reverse, p)

theorem started_eq {first rest : ℕ → ℕ → ℕ × ℕ} (h : ∀ v p, first v p = rest v (without p flagC))
    {columns : List Column} (hne : columns ≠ []) (p : ℕ) :
    started first rest columns p = multibyte (shifting rest) columns 0 := by
  cases columns with
  | nil => exact absurd rfl hne
  | cons column columns =>
    have hcall : column.call (shifting first) p = column.call (shifting rest) 0 := by
      have hp : without (without column.p flagC ||| (p &&& flagC)) flagC =
          without column.p flagC ||| (0 &&& flagC) := by
        apply Nat.eq_of_testBit_eq
        intro i
        rw [Nat.zero_and, Nat.or_zero, testBit_without, testBit_without, Nat.testBit_or,
          testBit_without, Nat.testBit_and]
        cases flagC.testBit i <;> simp
      rw [Column.call, Column.call, shifting, shifting, h, hp]
    rw [started, hcall]
    rfl

theorem shiftedLeft_eq {columns : List Column} (hne : columns ≠ []) (p : ℕ) :
    shiftedLeft columns p = rotatedLeft columns 0 := started_eq asl_eq hne p

theorem shiftedRight_eq {columns : List Column} (hne : columns ≠ []) (p : ℕ) :
    shiftedRight columns p = rotatedRight columns 0 := by
  rw [shiftedRight, started_eq lsr_eq (mt List.reverse_eq_nil_iff.mp hne)]
  rfl

section Chains
variable {columns : List Column} (h : ∀ c ∈ columns, c.a < 256) (p : ℕ)

theorem rotatedLeft_length : (rotatedLeft columns p).1.length = columns.length := multibyte_length p

theorem rotatedRight_length : (rotatedRight columns p).1.length = columns.length := by
  rw [rotatedRight, List.length_reverse, multibyte_length, List.length_reverse]

theorem rotatedLeft_byte : ∀ r ∈ (rotatedLeft columns p).1, r < 256 :=
  multibyte_forall p fun c _ q => rol_lt c.a q

include h

theorem rotatedRight_byte : ∀ r ∈ (rotatedRight columns p).1, r < 256 := by
  intro r hr
  exact multibyte_forall (P := (· < 256)) p (fun c hc q => ror_lt (h c (List.mem_reverse.mp hc)) q) r
    (List.mem_reverse.mp hr)

/-- The bytes written to the left with the bit shifted out are twice the number. -/
theorem rotatedLeft_exact :
    (value 256 id (rotatedLeft columns p).1 : ℤ) +
        256 ^ columns.length * carryBit (rotatedLeft columns p).2 =
      2 * value 256 id (columns.map Column.a) + carryBit p := by
  have hexact := thread_worth (Column.call (shifting rol)) ((256 : ℕ) : ℤ) (fun r => ((id r : ℕ) : ℤ))
    carryBit (fun c => (c.a : ℤ) + c.a)
    (fun c (hc : c ∈ columns) k => c.call_linked
      (P := fun k r => (r.1 : ℤ) + (256 : ℕ) * carryBit r.2 = c.a + c.a + k)
      (fun q => by
        have hq := rol_exact (h c hc) q
        rw [shifting]
        push_cast
        linear_combination hq) k) p
  rw [worth_add, worth_ofDigits 256 Column.a, worth_ofDigits 256 id] at hexact
  rw [rotatedLeft, multibyte, value, value, List.map_id (columns.map _)]
  linear_combination hexact

theorem rotatedRight_exact :
    2 * (value 256 id (rotatedRight columns p).1 : ℤ) + carryBit (rotatedRight columns p).2 =
      value 256 id (columns.map Column.a) + 256 ^ columns.length * carryBit p := by
  have hexact := thread_worth_down (Column.call (shifting ror)) ((256 : ℕ) : ℤ) 2
    (fun r => ((id r : ℕ) : ℤ)) carryBit (fun c => (c.a : ℤ))
    (fun c (hc : c ∈ columns.reverse) k => c.call_linked
      (P := fun k r => 2 * (r.1 : ℤ) + carryBit r.2 = c.a + (256 : ℕ) * k)
      (ror_exact (h c (List.mem_reverse.mp hc))) k) p
  rw [worth_ofDigits 256 id, worth_ofDigits 256 Column.a, List.reverse_reverse,
    List.length_reverse] at hexact
  rw [rotatedRight, value, value, List.map_id (columns.map _)]
  exact hexact

theorem rotatedLeft_sign (hne : columns ≠ []) :
    (rotatedLeft columns p).2 &&& flagN ≠ 0 ↔ signed (rotatedLeft columns p).1 < 0 := by
  have hneg := thread_negative (Column.call (shifting rol)) 256 id (fun q => q.testBit 7 = true)
    rfl hne (fun c _ k => rol_lt c.a _)
    (fun c hc k => sign_byte (rol_lt c.a _) (rol_sign (h c hc) _)) p
  rw [and_flagN_ne, signed, rotatedLeft_length]
  exact hneg

end Chains

/-! ## There and back -/

theorem carried_inj {r a : List ℕ} {n : ℕ} {p q : ℕ} (hr : ∀ d ∈ r, d < 256) (ha : ∀ d ∈ a, d < 256)
    (hrn : r.length = n) (han : a.length = n)
    (h : (value 256 id r : ℤ) + 256 ^ n * carryBit p = value 256 id a + 256 ^ n * carryBit q) :
    r = a ∧ carryBit p = carryBit q := by
  subst han
  have hbytes : r.map id = a.map id := digits_of_value (show 1 < 256 by decide) hr ha hrn
    (carryBit q - carryBit p) (by push_cast; linear_combination h)
  rw [List.map_id, List.map_id] at hbytes
  rw [hbytes] at h
  have hpow : (256 : ℤ) ^ a.length ≠ 0 := pow_ne_zero _ (by decide)
  exact ⟨hbytes, mul_left_cancel₀ hpow (add_left_cancel h)⟩

theorem doubled_inj {r a : List ℕ} {p q : ℕ} (hr : ∀ d ∈ r, d < 256) (ha : ∀ d ∈ a, d < 256)
    (hlen : r.length = a.length)
    (h : 2 * (value 256 id r : ℤ) + carryBit p = 2 * value 256 id a + carryBit q) :
    r = a ∧ carryBit p = carryBit q := by
  have hp := and_flagC_le p
  have hq := and_flagC_le q
  rw [carryBit, carryBit] at h ⊢
  have hvalue : (value 256 id r : ℤ) = value 256 id a := by omega
  have hbytes : r.map id = a.map id :=
    digits_of_value (show 1 < 256 by decide) hr ha hlen 0 (by simpa using hvalue)
  rw [List.map_id, List.map_id] at hbytes
  exact ⟨hbytes, by omega⟩

/-- As many bytes as there are columns. -/
def BytesOf (columns : List Column) (bytes : List ℕ) : Prop :=
  bytes.length = columns.length ∧ ∀ r ∈ bytes, r < 256

/-- What shifting the number in `columns` by one place computes, to the left and to the right: with
the C bit that was there going in, and with none. -/
structure ShiftChains (columns : List Column) (p : ℕ) : Prop where
  doubled : (value 256 id (shiftedLeft columns p).1 : ℤ) +
    256 ^ columns.length * carryBit (shiftedLeft columns p).2 = 2 * value 256 id (columns.map Column.a)
  doubledBytes : BytesOf columns (shiftedLeft columns p).1
  doubledSign : (shiftedLeft columns p).2 &&& flagN ≠ 0 ↔ signed (shiftedLeft columns p).1 < 0
  halved : 2 * (value 256 id (shiftedRight columns p).1 : ℤ) + carryBit (shiftedRight columns p).2 =
    value 256 id (columns.map Column.a)
  halvedBytes : BytesOf columns (shiftedRight columns p).1
  left : (value 256 id (rotatedLeft columns p).1 : ℤ) +
      256 ^ columns.length * carryBit (rotatedLeft columns p).2 =
    2 * value 256 id (columns.map Column.a) + carryBit p
  leftBytes : BytesOf columns (rotatedLeft columns p).1
  leftSign : (rotatedLeft columns p).2 &&& flagN ≠ 0 ↔ signed (rotatedLeft columns p).1 < 0
  right : 2 * (value 256 id (rotatedRight columns p).1 : ℤ) + carryBit (rotatedRight columns p).2 =
    value 256 id (columns.map Column.a) + 256 ^ columns.length * carryBit p
  rightBytes : BytesOf columns (rotatedRight columns p).1
  leftUndone : ∀ back q, back.map Column.a = (rotatedLeft columns p).1 →
    carryBit q = carryBit (rotatedLeft columns p).2 →
      (rotatedRight back q).1 = columns.map Column.a ∧ carryBit (rotatedRight back q).2 = carryBit p
  rightUndone : ∀ back q, back.map Column.a = (rotatedRight columns p).1 →
    carryBit q = carryBit (rotatedRight columns p).2 →
      (rotatedLeft back q).1 = columns.map Column.a ∧ carryBit (rotatedLeft back q).2 = carryBit p
  summed : ∀ twice : List Column, twice.map Column.a = columns.map Column.a →
    twice.map Column.b = columns.map Column.a →
      (multibyte (adding 0) twice p).1 = (rotatedLeft columns p).1 ∧
        carryBit (multibyte (adding 0) twice p).2 = carryBit (rotatedLeft columns p).2

section Back
variable {columns : List Column} (h : ∀ c ∈ columns, c.a < 256) (p : ℕ)

theorem rotatedLeft_bytes : BytesOf columns (rotatedLeft columns p).1 :=
  ⟨rotatedLeft_length p, rotatedLeft_byte p⟩

include h

theorem rotatedRight_bytes : BytesOf columns (rotatedRight columns p).1 :=
  ⟨rotatedRight_length p, rotatedRight_byte h p⟩

theorem left_undone {back : List Column} {q : ℕ} (hback : back.map Column.a = (rotatedLeft columns p).1)
    (hq : carryBit q = carryBit (rotatedLeft columns p).2) :
    (rotatedRight back q).1 = columns.map Column.a ∧ carryBit (rotatedRight back q).2 = carryBit p := by
  have hlen : back.length = columns.length := by
    rw [← List.length_map Column.a, hback, rotatedLeft_length]
  have hbytes : ∀ c ∈ back, c.a < 256 := fun c hc =>
    rotatedLeft_byte p c.a (hback ▸ List.mem_map_of_mem hc)
  have hthere := rotatedLeft_exact h p
  have hexact := rotatedRight_exact hbytes q
  rw [hback, hq, hlen, hthere] at hexact
  exact doubled_inj (rotatedRight_byte hbytes q) (by simpa using h)
    (by rw [rotatedRight_length, hlen, List.length_map]) hexact

theorem right_undone {back : List Column} {q : ℕ} (hback : back.map Column.a = (rotatedRight columns p).1)
    (hq : carryBit q = carryBit (rotatedRight columns p).2) :
    (rotatedLeft back q).1 = columns.map Column.a ∧ carryBit (rotatedLeft back q).2 = carryBit p := by
  have hlen : back.length = columns.length := by
    rw [← List.length_map Column.a, hback, rotatedRight_length]
  have hbytes : ∀ c ∈ back, c.a < 256 := fun c hc =>
    rotatedRight_byte h p c.a (hback ▸ List.mem_map_of_mem hc)
  have hthere := rotatedRight_exact h p
  have hexact := rotatedLeft_exact hbytes q
  rw [hback, hq, hlen, hthere] at hexact
  exact carried_inj (rotatedLeft_byte q) (by simpa using h) (by rw [rotatedLeft_length, hlen])
    (List.length_map _) hexact

theorem left_summed {twice : List Column} (ha : twice.map Column.a = columns.map Column.a)
    (hb : twice.map Column.b = columns.map Column.a) :
    (multibyte (adding 0) twice p).1 = (rotatedLeft columns p).1 ∧
      carryBit (multibyte (adding 0) twice p).2 = carryBit (rotatedLeft columns p).2 := by
  have hlen : twice.length = columns.length := by simpa using congrArg List.length ha
  have hbytes : ∀ c ∈ twice, c.a < 256 ∧ c.b < 256 := by
    intro c hc
    have hmem : ∀ byte ∈ columns.map Column.a, byte < 256 := by simpa using h
    exact ⟨hmem _ (ha ▸ List.mem_map_of_mem hc), hmem _ (hb ▸ List.mem_map_of_mem hc)⟩
  have hsum := add_sums hbytes p
  have hleft := rotatedLeft_exact h p
  rw [Sums, ha, hb, hlen] at hsum
  exact carried_inj (multibyte_forall (P := (· < 256)) p fun c _ => add_byte c.a c.b)
    (rotatedLeft_byte p) (by rw [multibyte_length, hlen]) (rotatedLeft_length p)
    (by push_cast at hsum; linear_combination hsum - hleft)

end Back

/-- Multi-byte shifts are exact both ways, undo each other and agree with addition. -/
theorem multibyte_shifts (columns : List Column) (hne : columns ≠ []) (p : ℕ)
    (h : ∀ c ∈ columns, c.a < 256) : ShiftChains columns p where
  doubled := by
    have hexact := rotatedLeft_exact h 0
    rwa [carryBit_zero, add_zero, ← shiftedLeft_eq hne p] at hexact
  doubledBytes := by
    rw [shiftedLeft_eq hne]
    exact rotatedLeft_bytes 0
  doubledSign := by
    rw [shiftedLeft_eq hne]
    exact rotatedLeft_sign h 0 hne
  halved := by
    have hexact := rotatedRight_exact h 0
    rwa [carryBit_zero, mul_zero, add_zero, ← shiftedRight_eq hne p] at hexact
  halvedBytes := by
    rw [shiftedRight_eq hne]
    exact rotatedRight_bytes h 0
  left := rotatedLeft_exact h p
  leftBytes := rotatedLeft_bytes p
  leftSign := rotatedLeft_sign h p hne
  right := rotatedRight_exact h p
  rightBytes := rotatedRight_bytes h p
  leftUndone _ _ := left_undone h p
  rightUndone _ _ := right_undone h p
  summed _ := left_summed h p

theorem multibyte_shifts_carried :
    (carried ≠ [] ∧ ∀ c ∈ carried, c.a < 256) ∧ ShiftChains carried flagC :=
  ⟨by decide, multibyte_shifts carried (by decide) flagC (by decide)⟩

end SixFiveOhTwo
