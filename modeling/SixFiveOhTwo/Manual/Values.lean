import SixFiveOhTwo.Effects.Registers
import SixFiveOhTwo.Manual.Model

/-! # The programming model in the processor's attributes

The registers are numbers and the flags bits of P. What the handlers compute with these is what the
programming model says of bytes and flags.
-/

namespace SixFiveOhTwo
open Bits Manual
set_option autoImplicit false

/-- The flags in P. -/
def Manual.Flags.of (p : ℕ) : Flags where
  n := p.testBit 7
  v := p.testBit 6
  d := p.testBit 3
  i := p.testBit 2
  z := p.testBit 1
  c := p.testBit 0

/-- What a program is told of these registers and this memory. -/
def Manual.State.of (c : Core) (memory : ℕ → Byte) : State where
  a := .ofNat 8 c.a
  x := .ofNat 8 c.x
  y := .ofNat 8 c.y
  s := .ofNat 8 c.s
  pc := .ofNat 16 c.pc
  flags := .of c.p
  memory address := .ofNat 8 (memory address.toNat).val

section State
variable (c : Core) (memory : ℕ → Byte)

@[simp] theorem state_a : (State.of c memory).a = .ofNat 8 c.a := rfl
@[simp] theorem state_x : (State.of c memory).x = .ofNat 8 c.x := rfl
@[simp] theorem state_y : (State.of c memory).y = .ofNat 8 c.y := rfl
@[simp] theorem state_s : (State.of c memory).s = .ofNat 8 c.s := rfl
@[simp] theorem state_pc : (State.of c memory).pc = .ofNat 16 c.pc := rfl
@[simp] theorem state_flags : (State.of c memory).flags = .of c.p := rfl

end State

/-! ## Bytes -/

theorem toNat_byte {r : ℕ} (hr : r ≤ 0xFF) : (BitVec.ofNat 8 r).toNat = r := by
  rw [BitVec.toNat_ofNat]
  exact Nat.mod_eq_of_lt (Nat.lt_succ_of_le hr)

theorem toNat_word {r : ℕ} (hr : r ≤ 0xFFFF) : (BitVec.ofNat 16 r).toNat = r := by
  rw [BitVec.toNat_ofNat]
  exact Nat.mod_eq_of_lt (Nat.lt_succ_of_le hr)

theorem getLsbD_byte {r i : ℕ} (hi : i < 8) : (BitVec.ofNat 8 r).getLsbD i = r.testBit i := by
  rw [BitVec.getLsbD_ofNat, decide_eq_true hi, Bool.true_and]

theorem msb_byte (r : ℕ) : (BitVec.ofNat 8 r).msb = r.testBit 7 := by
  rw [BitVec.msb_eq_getLsbD_last, getLsbD_byte (by decide)]

theorem zero_byte {r : ℕ} (hr : r ≤ 0xFF) : (BitVec.ofNat 8 r == 0#8) = decide (r = 0) := by
  rw [Bool.eq_iff_iff, beq_iff_eq, decide_eq_true_eq, ← BitVec.toNat_inj, toNat_byte hr]
  rfl

theorem and_ff_byte (r : ℕ) : BitVec.ofNat 8 (r &&& 0xFF) = BitVec.ofNat 8 r := by
  rw [and_ff, ← BitVec.toNat_inj, BitVec.toNat_ofNat, BitVec.toNat_ofNat, Nat.mod_mod_of_dvd _ (dvd_refl 256)]

theorem and_ffff_word (r : ℕ) : BitVec.ofNat 16 (r &&& 0xFFFF) = BitVec.ofNat 16 r := by
  rw [and_ffff, ← BitVec.toNat_inj, BitVec.toNat_ofNat, BitVec.toNat_ofNat,
    Nat.mod_mod_of_dvd _ (dvd_refl 65536)]

theorem masked_byte (z : ℤ) : BitVec.ofNat 8 (masked 8 z) = BitVec.ofInt 8 z := by
  rw [← BitVec.toNat_inj, BitVec.toNat_ofNat, BitVec.toNat_ofInt, masked]
  omega

theorem masked_sub {a b : ℕ} : BitVec.ofNat 8 (masked 8 ((a : ℤ) - b)) = BitVec.ofNat 8 a - BitVec.ofNat 8 b := by
  rw [masked_byte, ← BitVec.toNat_inj, BitVec.toNat_ofInt, BitVec.toNat_sub, BitVec.toNat_ofNat,
    BitVec.toNat_ofNat]
  omega

/-! ## Flags -/

theorem flags_nz (p : ℕ) {r : ℕ} (hr : r ≤ 0xFF) :
    Flags.of (without p (flagN ||| flagZ) ||| nz r) = (Flags.of p).nz (.ofNat 8 r) := by
  simp [-Nat.testBit_zero, Flags.of, Flags.nz, testBit_nz, testBit_flagN, testBit_flagZ, msb_byte, zero_byte hr]

theorem flags_nzc (p : ℕ) {r k : ℕ} (hr : r ≤ 0xFF) (hk : k ≤ 1) :
    Flags.of (without p (flagN ||| flagZ ||| flagC) ||| nz r ||| k) =
      { (Flags.of p).nz (.ofNat 8 r) with c := k.testBit 0 } := by
  have hbit : ∀ i, i ≠ 0 → k.testBit i = false := by
    intro i hi
    exact Nat.testBit_lt_two_pow (Nat.lt_of_le_of_lt hk (Nat.one_lt_two_pow hi))
  simp [-Nat.testBit_zero, Flags.of, Flags.nz, testBit_nz, testBit_flagN, testBit_flagZ, testBit_flagC, msb_byte, zero_byte hr, hbit]

theorem flags_compare (p : ℕ) {register value : ℕ} (hr : register ≤ 0xFF) (hv : value ≤ 0xFF) :
    Flags.of (if value ≤ register then
        without p (flagN ||| flagZ ||| flagC) ||| nz (masked 8 ((register : ℤ) - value)) ||| flagC
      else without p (flagN ||| flagZ ||| flagC) ||| nz (masked 8 ((register : ℤ) - value))) =
      { (Flags.of p).nz (.ofNat 8 register - .ofNat 8 value) with
        c := decide (BitVec.ofNat 8 value ≤ BitVec.ofNat 8 register) } := by
  have hmasked : masked 8 ((register : ℤ) - value) ≤ 0xFF := Nat.le_of_lt_succ (masked_lt 8 _)
  have hle : BitVec.ofNat 8 value ≤ BitVec.ofNat 8 register ↔ value ≤ register := by
    rw [BitVec.le_def, toNat_byte hr, toNat_byte hv]
  simp only [hle, ← masked_sub]
  split
  · next h => rw [flags_nzc p hmasked (le_refl 1), decide_eq_true h]; rfl
  · next h =>
    have hzero := flags_nzc p hmasked (Nat.zero_le 1)
    rw [Nat.or_zero] at hzero
    rw [hzero, decide_eq_false h]; rfl

theorem flags_bit (p : ℕ) {a value : ℕ} (ha : a ≤ 0xFF) :
    Flags.of (if a &&& value = 0 then
        without p (flagN ||| flagV ||| flagZ) ||| value &&& (flagN ||| flagV) ||| flagZ
      else without p (flagN ||| flagV ||| flagZ) ||| value &&& (flagN ||| flagV)) =
      { Flags.of p with
        n := (BitVec.ofNat 8 value).getLsbD 7
        v := (BitVec.ofNat 8 value).getLsbD 6
        z := BitVec.ofNat 8 a &&& BitVec.ofNat 8 value == 0 } := by
  have hand : a &&& value ≤ 0xFF := Nat.le_trans Nat.and_le_left ha
  simp only [← BitVec.ofNat_and, BitVec.ofNat_eq_ofNat, zero_byte hand]
  split
  · next h => simp [-Nat.testBit_zero, -BitVec.getLsbD_eq_getElem, Flags.of, testBit_flagN, testBit_flagZ, testBit_flagV,
      getLsbD_byte, h]
  · next h => simp [-Nat.testBit_zero, -BitVec.getLsbD_eq_getElem, Flags.of, testBit_flagN, testBit_flagZ, testBit_flagV,
      getLsbD_byte, h]

section
attribute [local simp] Flags.of
attribute [-simp] Nat.testBit_zero

theorem flags_clearC (p : ℕ) : Flags.of (without p flagC) = { Flags.of p with c := false } := by simp +decide

theorem flags_setC (p : ℕ) : Flags.of (p ||| flagC) = { Flags.of p with c := true } := by simp +decide

theorem flags_clearD (p : ℕ) : Flags.of (without p flagD) = { Flags.of p with d := false } := by simp +decide

theorem flags_setD (p : ℕ) : Flags.of (p ||| flagD) = { Flags.of p with d := true } := by simp +decide

theorem flags_clearI (p : ℕ) : Flags.of (without p flagI) = { Flags.of p with i := false } := by simp +decide

theorem flags_setI (p : ℕ) : Flags.of (p ||| flagI) = { Flags.of p with i := true } := by simp +decide

theorem flags_clearV (p : ℕ) : Flags.of (without p flagV) = { Flags.of p with v := false } := by simp +decide

end

theorem flags_pulled : ∀ value : Byte,
    Flags.of (without (value.val ||| flagU) flagB) = .pulled (.ofNat 8 value.val) := by
  decide +kernel

/-- PHP and BRK push B set, IRQ and NMI clear. -/
theorem flags_byte {p : ℕ} (hp : ValidP p) :
    BitVec.ofNat 8 (p ||| flagB ||| flagU) = (Flags.of p).byte true ∧
      BitVec.ofNat 8 (without (p ||| flagU) flagB) = (Flags.of p).byte false := by
  have hall : ∀ p : Byte, ValidP p.val →
      BitVec.ofNat 8 (p.val ||| flagB ||| flagU) = (Flags.of p.val).byte true ∧
        BitVec.ofNat 8 (without (p.val ||| flagU) flagB) = (Flags.of p.val).byte false := by
    decide +kernel
  exact hall ⟨p, Nat.lt_succ_of_le hp.1⟩ hp

/-! ## Sums and differences -/

theorem carry_of (p : ℕ) : (Flags.of p).c.toNat = p &&& flagC := (and_flagC p).symm

theorem toInt_byte {r : ℕ} (hr : r ≤ 0xFF) : (BitVec.ofNat 8 r).toInt = Int.bmod r 256 := by
  rw [BitVec.toInt_eq_toNat_bmod, toNat_byte hr]

theorem overflows_iff (x : ℤ) : Overflows x ↔ Int.bmod x 256 ≠ x := by
  rw [bmod_byte_ne, Overflows]
  omega

section Binary
variable (a b p : ℕ)

attribute [local simp] testBit_flagN testBit_flagV testBit_flagZ testBit_flagC
attribute [-simp] Nat.testBit_zero

theorem add_binary_zero : (add a b p 0).2.testBit 1 = decide ((add a b p 0).1 = 0) := by
  simp only [add, ne_eq, not_true_eq_false, if_false]
  split_ifs <;> simp_all

theorem subtract_zero : (subtract a b p 0).2.testBit 1 = decide ((subtract a b p 0).1 = 0) := by
  simp only [subtract, if_true]
  simp only [testBit_ite_or, Nat.testBit_or, testBit_without, testBit_nz]
  simp

theorem subtract_flags_decimal (decimal : ℕ) : (subtract a b p decimal).2 = (subtract a b p 0).2 := by
  unfold subtract
  by_cases h : decimal = 0 <;> simp [h]

variable {a b}

theorem signed_carry (p : ℕ) : ((Flags.of p).c.toNat : ℤ) = carryBit p := by
  rw [carry_of, carryBit]

theorem signed_borrow (p : ℕ) : ((!(Flags.of p).c).toNat : ℤ) = 1 - carryBit p := by
  rw [← signed_carry]
  cases (Flags.of p).c <;> rfl

theorem flags_add (ha : a ≤ 0xFF) (hb : b ≤ 0xFF) : Flags.of (add a b p 0).2 =
    { (Flags.of p).nz (.ofNat 8 (add a b p 0).1) with
      v := Overflows ((BitVec.ofNat 8 a).toInt + (BitVec.ofNat 8 b).toInt + (Flags.of p).c.toNat)
      c := 256 ≤ a + b + (Flags.of p).c.toNat } := by
  have hout := outside_iff.mp (add_outside a b p 0)
  have hover := add_overflow (Nat.lt_succ_of_le ha) (Nat.lt_succ_of_le hb) p
  have hr := Nat.le_of_lt_succ (add_byte a b p)
  have hv : (add a b p 0).2.testBit 6 =
      decide (Overflows ((BitVec.ofNat 8 a).toInt + (BitVec.ofNat 8 b).toInt + (Flags.of p).c.toNat)) := by
    rw [Bool.eq_iff_iff, hover, decide_eq_true_eq, overflows_iff, toInt_byte ha, toInt_byte hb, signed_carry]
  have hc : (add a b p 0).2.testBit 0 = decide (256 ≤ a + b + (Flags.of p).c.toNat) := by
    rw [add_binary_carry, carry_of]
    rfl
  rw [← hv, ← hc, Flags.nz, msb_byte, ← add_binary_sign, BitVec.ofNat_eq_ofNat, zero_byte hr, ← add_binary_zero]
  rw [Flags.of, Flags.of, hout 3 (by decide), hout 2 (by decide)]

theorem flags_subtract (ha : a ≤ 0xFF) (hb : b ≤ 0xFF) (decimal : ℕ) : Flags.of (subtract a b p decimal).2 =
    { (Flags.of p).nz (.ofInt 8 (a - b - (!(Flags.of p).c).toNat)) with
      v := Overflows ((BitVec.ofNat 8 a).toInt - (BitVec.ofNat 8 b).toInt - (!(Flags.of p).c).toNat)
      c := (0 : ℤ) ≤ a - b - (!(Flags.of p).c).toNat } := by
  have hout := outside_iff.mp (subtract_outside a b p 0)
  have hover := subtract_signed_overflow (Nat.lt_succ_of_le ha) (Nat.lt_succ_of_le hb) p
  have hr := Nat.le_of_lt_succ (subtract_byte a b p)
  have hbinary : BitVec.ofInt 8 (a - b - (!(Flags.of p).c).toNat) = .ofNat 8 (subtract a b p 0).1 := by
    rw [signed_borrow, carryBit, ← masked_byte]
    rfl
  have hv : (subtract a b p 0).2.testBit 6 =
      decide (Overflows ((BitVec.ofNat 8 a).toInt - (BitVec.ofNat 8 b).toInt - (!(Flags.of p).c).toNat)) := by
    rw [Bool.eq_iff_iff, hover, decide_eq_true_eq, overflows_iff, toInt_byte ha, toInt_byte hb, signed_borrow]
  have hc : (subtract a b p 0).2.testBit 0 = decide ((0 : ℤ) ≤ a - b - (!(Flags.of p).c).toNat) := by
    rw [subtract_carry, signed_borrow, carryBit]
  rw [subtract_flags_decimal, hbinary, ← hv, ← hc, Flags.nz, msb_byte, ← subtract_sign, BitVec.ofNat_eq_ofNat,
    zero_byte hr, ← subtract_zero]
  rw [Flags.of, Flags.of, hout 3 (by decide), hout 2 (by decide)]

end Binary

/-! ## Shifts -/

/-- A byte and P as a shift leaves them. -/
structure Shifts (p : ℕ) (shifted : BitVec 8) (c : Bool) (result : ℕ × ℕ) : Prop where
  byte : BitVec.ofNat 8 result.1 = shifted
  flags : Flags.of result.2 = { (Flags.of p).nz shifted with c }

theorem shiftLeft_byte (r n : ℕ) : BitVec.ofNat 8 (r <<< n) = BitVec.ofNat 8 r <<< n := by
  apply BitVec.eq_of_toNat_eq
  rw [BitVec.toNat_shiftLeft, BitVec.toNat_ofNat, BitVec.toNat_ofNat, Nat.shiftLeft_eq, Nat.shiftLeft_eq,
    Nat.mod_mul_mod]

theorem shiftRight_byte {r : ℕ} (hr : r ≤ 0xFF) (n : ℕ) : BitVec.ofNat 8 (r >>> n) = BitVec.ofNat 8 r >>> n := by
  apply BitVec.eq_of_toNat_eq
  rw [BitVec.toNat_ushiftRight, toNat_byte hr, toNat_byte ((Nat.shiftRight_le r n).trans hr)]

theorem carry_byte (p : ℕ) : BitVec.ofNat 8 (p &&& flagC) = BitVec.ofNat 8 (Flags.of p).c.toNat := by
  rw [carry_of]

section Shifts
variable {v : ℕ} (hv : v ≤ 0xFF) (p : ℕ)
include hv

theorem high_bit : v >>> 7 ≤ 1 ∧ (v >>> 7).testBit 0 = (BitVec.ofNat 8 v).msb := by
  rw [msb_byte, Nat.testBit_shiftRight, Nat.shiftRight_eq_div_pow]
  exact ⟨by omega, rfl⟩

omit hv in
theorem low_bit : v &&& flagC ≤ 1 ∧ (v &&& flagC).testBit 0 = (BitVec.ofNat 8 v).getLsbD 0 := by
  rw [getLsbD_byte (by decide), Nat.testBit_and, testBit_flagC, decide_eq_true rfl, Bool.and_true]
  exact ⟨and_flagC_le v, rfl⟩

theorem asl_shifts : Shifts p (BitVec.ofNat 8 v <<< 1) (BitVec.ofNat 8 v).msb (asl v p) := by
  have hbyte : BitVec.ofNat 8 ((v <<< 1) &&& 0xFF) = BitVec.ofNat 8 v <<< 1 := by
    rw [and_ff_byte, shiftLeft_byte]
  refine ⟨hbyte, ?_⟩
  rw [← (high_bit hv).2, ← hbyte]
  exact flags_nzc p Nat.and_le_right (high_bit hv).1

theorem rol_shifts : Shifts p (BitVec.ofNat 8 v <<< 1 ||| .ofNat 8 (Flags.of p).c.toNat) (BitVec.ofNat 8 v).msb
    (rol v p) := by
  have hbyte : BitVec.ofNat 8 (((v <<< 1) ||| (p &&& flagC)) &&& 0xFF) =
      BitVec.ofNat 8 v <<< 1 ||| .ofNat 8 (Flags.of p).c.toNat := by
    rw [and_ff_byte, BitVec.ofNat_or, shiftLeft_byte, carry_byte]
  refine ⟨hbyte, ?_⟩
  rw [← (high_bit hv).2, ← hbyte]
  exact flags_nzc p Nat.and_le_right (high_bit hv).1

theorem lsr_shifts : Shifts p (BitVec.ofNat 8 v >>> 1) ((BitVec.ofNat 8 v).getLsbD 0) (lsr v p) := by
  have hle : v >>> 1 ≤ 0xFF := (Nat.shiftRight_le v 1).trans hv
  refine ⟨shiftRight_byte hv 1, ?_⟩
  rw [← (low_bit (v := v)).2, ← shiftRight_byte hv 1]
  exact flags_nzc p hle low_bit.1

theorem ror_shifts : Shifts p (BitVec.ofNat 8 v >>> 1 ||| BitVec.ofNat 8 (Flags.of p).c.toNat <<< 7)
    ((BitVec.ofNat 8 v).getLsbD 0) (ror v p) := by
  have hle : (v >>> 1) ||| ((p &&& flagC) <<< 7) ≤ 0xFF := by
    refine or_le_ff ((Nat.shiftRight_le v 1).trans hv) ?_
    rw [Nat.and_one_is_mod]
    exact carry_le p
  have hbyte : BitVec.ofNat 8 ((v >>> 1) ||| ((p &&& flagC) <<< 7)) =
      BitVec.ofNat 8 v >>> 1 ||| BitVec.ofNat 8 (Flags.of p).c.toNat <<< 7 := by
    rw [BitVec.ofNat_or, shiftRight_byte hv, shiftLeft_byte, carry_byte]
  refine ⟨hbyte, ?_⟩
  rw [← (low_bit (v := v)).2, ← hbyte]
  exact flags_nzc p hle low_bit.1

end Shifts

end SixFiveOhTwo
