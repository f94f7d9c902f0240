import SixFiveOhTwo.Processor.Shifts

/-! # The values the processor computes fit their registers

P is held with bit 5 set and bit 4 clear (`ValidP`), and every flag an operation adds to it lies
outside both (`FlagBits`). What the arithmetic returns for bytes is a byte and a valid P.
-/

namespace SixFiveOhTwo
open Bits
set_option autoImplicit false
set_option maxRecDepth 10000

/-- P as a snapshot accepts it. -/
def ValidP (p : ℕ) : Prop := p ≤ 0xFF ∧ p &&& 0x30 = 0x20

/-- Bits that may be added to P. -/
def FlagBits (q : ℕ) : Prop := q ≤ 0xFF ∧ q &&& 0x30 = 0

instance (p : ℕ) : Decidable (ValidP p) := inferInstanceAs (Decidable (_ ∧ _))

instance (q : ℕ) : Decidable (FlagBits q) := inferInstanceAs (Decidable (_ ∧ _))

theorem Core.valid_iff (c : Core) : c.Valid ↔
    c.a ≤ 0xFF ∧ c.x ≤ 0xFF ∧ c.y ≤ 0xFF ∧ c.s ≤ 0xFF ∧ c.pc ≤ 0xFFFF ∧ ValidP c.p := by
  simp only [Core.Valid, ValidP]
  tauto

/-! ## Bytes and words -/

theorem byte_le (v : Byte) : v.val ≤ 0xFF := Nat.le_of_lt_succ v.isLt

theorem byte_le_word (v : Byte) : v.val ≤ 0xFFFF := (byte_le v).trans (by decide)

theorem flag_le : flagB ≤ 0xFF ∧ flagU ≤ 0xFF := by decide

theorem vector_le : (vectorNmi ≤ 0xFFFF ∧ vectorReset ≤ 0xFFFF ∧ vectorIrq ≤ 0xFFFF) ∧
    vectorNmi ≤ 0xFFFE ∧ vectorReset ≤ 0xFFFE ∧ vectorIrq ≤ 0xFFFE := by decide

theorem vector_lt : vectorNmi < 0xFFFF ∧ vectorReset < 0xFFFF ∧ vectorIrq < 0xFFFF := by decide

theorem or_le_ff {a b : ℕ} (ha : a ≤ 0xFF) (hb : b ≤ 0xFF) : a ||| b ≤ 0xFF := by
  have h : a ||| b < 2 ^ 8 := Nat.or_lt_two_pow (by omega) (by omega)
  omega

theorem xor_le_ff {a b : ℕ} (ha : a ≤ 0xFF) (hb : b ≤ 0xFF) : a ^^^ b ≤ 0xFF := by
  have h : a ^^^ b < 2 ^ 8 := Nat.xor_lt_two_pow (by omega) (by omega)
  omega

theorem and_le_of_left {a m : ℕ} (ha : a ≤ m) (b : ℕ) : a &&& b ≤ m := Nat.and_le_left.trans ha

theorem and_le_of_right {b m : ℕ} (hb : b ≤ m) (a : ℕ) : a &&& b ≤ m := Nat.and_le_right.trans hb

theorem ite_le (c : Prop) [Decidable c] {a b m : ℕ} :
    (if c then a else b) ≤ m ↔ if c then a ≤ m else b ≤ m := by
  split <;> rfl

theorem ite_lt (c : Prop) [Decidable c] {a b m : ℕ} :
    (if c then a else b) < m ↔ if c then a < m else b < m := by
  split <;> rfl

theorem masked_8_le (x : ℤ) : masked 8 x ≤ 0xFF := Nat.le_of_lt_succ (masked_lt 8 x)

theorem masked_16_le (x : ℤ) : masked 16 x ≤ 0xFFFF := Nat.le_of_lt_succ (masked_lt 16 x)

theorem high_le {pc : ℕ} (h : pc ≤ 0xFFFF) : pc >>> 8 ≤ 0xFF := by
  rw [Nat.shiftRight_eq_div_pow]
  omega

theorem word_le {high low : ℕ} (hh : high ≤ 0xFF) (hl : low ≤ 0xFF) : high <<< 8 ||| low ≤ 0xFFFF := by
  have h₁ : high <<< 8 < 2 ^ 16 := by
    rw [Nat.shiftLeft_eq]
    omega
  have h : high <<< 8 ||| low < 2 ^ 16 := Nat.or_lt_two_pow h₁ (by omega)
  omega

theorem page_le {a b : ℕ} (hb : b ≤ 0xFF) : (a &&& 0xFF00) ||| b ≤ 0xFFFF := by
  have h₁ : a &&& 0xFF00 < 2 ^ 16 := Nat.lt_of_le_of_lt Nat.and_le_right (by decide)
  have h : (a &&& 0xFF00) ||| b < 2 ^ 16 := Nat.or_lt_two_pow h₁ (by omega)
  omega

theorem stack_le {s : ℕ} (hs : s ≤ 0xFF) : stack ||| s ≤ 0xFFFF := by
  have h : stack ||| s < 2 ^ 16 := Nat.or_lt_two_pow (by decide) (by omega)
  omega

theorem carry_le (p : ℕ) : (p % 2) <<< 7 ≤ 0xFF := by
  rw [Nat.shiftLeft_eq]
  omega

theorem land_byte_le (m : ℤ) (v : Byte) : m.land (v.val : ℤ) ≤ 0xFF := by
  have hv := byte_le v
  cases m with
  | ofNat n =>
    have h : n &&& v.val ≤ 0xFF := and_le_of_right hv n
    exact Int.ofNat_le.mpr h
  | negSucc n =>
    have h : Nat.ldiff v.val n < 2 ^ 8 := by
      refine Nat.lt_pow_two_of_testBit _ fun i hi => ?_
      have hbit : v.val.testBit i = false :=
        Nat.testBit_lt_two_pow (lt_of_lt_of_le v.isLt (Nat.pow_le_pow_right Nat.two_pos hi))
      rw [Nat.testBit_ldiff, hbit, Bool.false_and]
    have hle : Nat.ldiff v.val n ≤ 0xFF := by omega
    exact Int.ofNat_le.mpr hle

/-! ## P -/

theorem or_le_ff_iff {a b : ℕ} : a ||| b ≤ 0xFF ↔ a ≤ 0xFF ∧ b ≤ 0xFF :=
  ⟨fun h => ⟨Nat.left_le_or.trans h, Nat.right_le_or.trans h⟩, fun h => or_le_ff h.1 h.2⟩

theorem flagBits_or {q r : ℕ} : FlagBits (q ||| r) ↔ FlagBits q ∧ FlagBits r := by
  simp only [FlagBits, or_le_ff_iff, Nat.and_or_distrib_right, Nat.or_eq_zero_iff]
  tauto

theorem flagBits_and {m : ℕ} (hm : FlagBits m) (q : ℕ) : FlagBits (q &&& m) :=
  ⟨and_le_of_right hm.1 q, by rw [Nat.and_assoc, hm.2, Nat.and_zero]⟩

theorem flagBits_ite (c : Prop) [Decidable c] {q r : ℕ} :
    FlagBits (if c then q else r) ↔ if c then FlagBits q else FlagBits r := by
  split <;> rfl

theorem flagBits_zero : FlagBits 0 := by decide

theorem flagBits_flags : FlagBits flagN ∧ FlagBits flagV ∧ FlagBits flagD ∧ FlagBits flagI ∧ FlagBits flagZ ∧
    FlagBits flagC := by decide

theorem flagBits_carry (q : ℕ) : FlagBits (q % 2) := by
  rcases Nat.mod_two_eq_zero_or_one q with h | h <;> rw [h] <;> decide

theorem flagBits_nz (v : ℕ) : FlagBits (nz v) := by
  rw [nz, flagBits_or, flagBits_ite]
  refine ⟨flagBits_and flagBits_flags.1 v, ?_⟩
  split
  · exact flagBits_flags.2.2.2.2.1
  · exact flagBits_zero

theorem flagBits_bit7 {v : ℕ} (hv : v ≤ 0xFF) : FlagBits (v >>> 7) := by
  have h : v >>> 7 ≤ 1 := by
    rw [Nat.shiftRight_eq_div_pow]
    omega
  generalize v >>> 7 = b at h
  have hb : b = 0 ∨ b = 1 := by omega
  rcases hb with rfl | rfl <;> decide

theorem flagBits_bit7_and (a : ℕ) (v : Byte) : FlagBits ((a &&& v.val) >>> 7) :=
  flagBits_bit7 (and_le_of_right (byte_le v) a)

theorem validP_or {p q : ℕ} (hq : FlagBits q) : ValidP (p ||| q) ↔ ValidP p := by
  simp only [ValidP, or_le_ff_iff, Nat.and_or_distrib_right, hq.2, Nat.or_zero, hq.1, and_true]

theorem validP_without {p m : ℕ} (hp : ValidP p) (hm : FlagBits m) : ValidP (without p m) := by
  have hlt : p < 2 ^ 8 := Nat.lt_succ_of_le hp.1
  exact ⟨Nat.le_of_lt_succ (without_lt hlt), by rw [without_and_of_disjoint hm.2, hp.2]⟩

theorem validP_ite (c : Prop) [Decidable c] {p q : ℕ} :
    ValidP (if c then p else q) ↔ if c then ValidP p else ValidP q := by
  split <;> rfl

theorem validP_choice {c : Prop} [Decidable c] {p q : ℕ} (hp : ValidP p) (hq : ValidP q) :
    ValidP (if c then p else q) := by
  split
  · exact hp
  · exact hq

theorem validP_pulled : ∀ v : Byte, ValidP (without (v.val ||| flagU) flagB) := by decide

theorem ValidP.le {p : ℕ} (hp : ValidP p) : p ≤ 0xFF := hp.1

theorem entryP_le {p : ℕ} (hp : ValidP p) : without (p ||| flagU) flagB ≤ 0xFF := by
  have h : p ||| flagU < 2 ^ 8 := Nat.lt_succ_of_le (or_le_ff hp.1 (by decide))
  exact Nat.le_of_lt_succ (without_lt h)

/-! ## Arithmetic -/

section
attribute [local simp] validP_or validP_without validP_ite flagBits_or flagBits_and flagBits_ite flagBits_nz
  flagBits_flags flagBits_zero flagBits_carry masked_8_le Nat.and_le_right and_le_of_right or_le_ff_iff carry_le

theorem add_range {p : ℕ} (hp : ValidP p) (a value decimal : ℕ) :
    (add a value p decimal).1 ≤ 0xFF ∧ ValidP (add a value p decimal).2 := by
  have hclear : ValidP (without p (flagN ||| flagV ||| flagZ ||| flagC)) := validP_without hp (by decide)
  unfold add
  dsimp only
  split <;> simp [hclear]

theorem subtract_range {p : ℕ} (hp : ValidP p) (a value decimal : ℕ) :
    (subtract a value p decimal).1 ≤ 0xFF ∧ ValidP (subtract a value p decimal).2 := by
  have hclear : ValidP (without p (flagN ||| flagV ||| flagZ ||| flagC)) := validP_without hp (by decide)
  unfold subtract
  dsimp only
  split <;> simp [hclear]

variable {value p : ℕ} (hv : value ≤ 0xFF) (hp : ValidP p)
include hv hp

theorem asl_range : (asl value p).1 ≤ 0xFF ∧ ValidP (asl value p).2 := by
  simp [asl, validP_without hp, flagBits_bit7 hv]

theorem lsr_range : (lsr value p).1 ≤ 0xFF ∧ ValidP (lsr value p).2 := by
  simp [lsr, validP_without hp, (Nat.shiftRight_le value 1).trans hv]

theorem rol_range : (rol value p).1 ≤ 0xFF ∧ ValidP (rol value p).2 := by
  simp [rol, validP_without hp, flagBits_bit7 hv]

theorem ror_range : (ror value p).1 ≤ 0xFF ∧ ValidP (ror value p).2 := by
  simp [ror, validP_without hp, (Nat.shiftRight_le value 1).trans hv]

theorem arr_range (chip : Chip) :
    (Code.arr chip value p).1 ≤ 0xFF ∧ ValidP (Code.arr chip value p).2 := by
  have hclear : ValidP (without p (flagN ||| flagV ||| flagZ ||| flagC)) := validP_without hp (by decide)
  have hhalf : value >>> 1 ≤ 0xFF := (Nat.shiftRight_le value 1).trans hv
  unfold Code.arr
  dsimp only
  split
  · split <;> split <;> simp [hclear, hhalf]
  · split <;> simp [hclear, hhalf]

end

end SixFiveOhTwo
