import SixFiveOhTwo.Ranges.Values

/-! # The D bit of P

`setD` is P with D as given. Every mask that leaves D out commutes with it, and so does the binary
arithmetic: what an operation computes and every other flag it sets are the same whatever D is.
-/

namespace SixFiveOhTwo
open Bits
set_option autoImplicit false

/-- P with D as given. -/
def setD (d : Bool) (p : ℕ) : ℕ := without p flagD ||| if d then flagD else 0

/-- Bits of which D is none. -/
def NoD (q : ℕ) : Prop := q &&& flagD = 0

instance (q : ℕ) : Decidable (NoD q) := inferInstanceAs (Decidable (_ = _))

theorem testBit_flagD (i : ℕ) : flagD.testBit i = decide (i = 3) := by
  have h : flagD = 2 ^ 3 := rfl
  rw [h, Nat.testBit_two_pow]
  exact decide_eq_decide.mpr eq_comm

theorem noD_iff {q : ℕ} : NoD q ↔ q.testBit 3 = false := by
  have hb : (q &&& flagD).testBit 3 = q.testBit 3 := by
    rw [Nat.testBit_and, testBit_flagD, decide_eq_true rfl, Bool.and_true]
  constructor
  · intro h
    rw [← hb, h, Nat.zero_testBit]
  · intro h
    refine Nat.eq_of_testBit_eq fun i => ?_
    rw [Nat.testBit_and, testBit_flagD, Nat.zero_testBit]
    by_cases hi : i = 3
    · rw [hi, h, Bool.false_and]
    · rw [decide_eq_false hi, Bool.and_false]

theorem testBit_setD (d : Bool) (p i : ℕ) :
    (setD d p).testBit i = if i = 3 then d else p.testBit i := by
  have hd : (if d then flagD else 0).testBit i = (decide (i = 3) && d) := by
    cases d with
    | false => simp
    | true => simp [testBit_flagD]
  rw [setD, Nat.testBit_or, testBit_without, hd, testBit_flagD]
  by_cases hi : i = 3 <;> simp [hi]

/-! ## D beside the other bits -/

section
variable (d : Bool) (p : ℕ) {m q : ℕ}

theorem setD_and (hm : NoD m) : setD d p &&& m = p &&& m := by
  refine Nat.eq_of_testBit_eq fun i => ?_
  rw [Nat.testBit_and, Nat.testBit_and, testBit_setD]
  split
  · next hi => rw [hi, noD_iff.mp hm, Bool.and_false, Bool.and_false]
  · rfl

theorem setD_or (hq : NoD q) : setD d p ||| q = setD d (p ||| q) := by
  refine Nat.eq_of_testBit_eq fun i => ?_
  rw [Nat.testBit_or, testBit_setD, testBit_setD, Nat.testBit_or]
  split
  · next hi => rw [hi, noD_iff.mp hq, Bool.or_false]
  · rfl

theorem setD_without (hm : NoD m) : without (setD d p) m = setD d (without p m) := by
  refine Nat.eq_of_testBit_eq fun i => ?_
  rw [testBit_without, testBit_setD, testBit_setD, testBit_without]
  split
  · next hi => rw [hi, noD_iff.mp hm, Bool.not_false, Bool.and_true]
  · rfl

theorem setD_ite (c : Prop) [Decidable c] : (if c then setD d p else setD d q) = setD d (if c then p else q) := by
  split <;> rfl

theorem setD_mod_two : setD d p % 2 = p % 2 := by
  rw [← Nat.and_one_is_mod, ← Nat.and_one_is_mod]
  exact setD_and d p (by decide)

theorem setD_self : setD (p.testBit 3) p = p := by
  refine Nat.eq_of_testBit_eq fun i => ?_
  rw [testBit_setD]
  split
  · next hi => rw [hi]
  · rfl

theorem setD_setD (d' : Bool) : setD d (setD d' p) = setD d p := by
  refine Nat.eq_of_testBit_eq fun i => ?_
  rw [testBit_setD, testBit_setD, testBit_setD]
  split <;> rfl

theorem setD_and_flagD : setD d p &&& flagD = if d then flagD else 0 := by
  refine Nat.eq_of_testBit_eq fun i => ?_
  rw [Nat.testBit_and, testBit_setD, testBit_flagD]
  by_cases hi : i = 3 <;> cases d <;> simp [hi, testBit_flagD]

theorem setD_without_flagD : without (setD d p) flagD = without p flagD := by
  refine Nat.eq_of_testBit_eq fun i => ?_
  rw [testBit_without, testBit_without, testBit_setD, testBit_flagD]
  split <;> simp [*]

theorem setD_or_flagD : setD d p ||| flagD = p ||| flagD := by
  refine Nat.eq_of_testBit_eq fun i => ?_
  rw [Nat.testBit_or, Nat.testBit_or, testBit_setD, testBit_flagD]
  split <;> simp [*]

theorem setD_false : setD false p = without p flagD := Nat.or_zero _

theorem noD_setD_false : NoD (setD false p) := setD_and_flagD false p

end

/-! ## Bits of which D is none -/

theorem noD_and {m : ℕ} (hm : NoD m) (q : ℕ) : NoD (q &&& m) := by
  rw [noD_iff, Nat.testBit_and, noD_iff.mp hm, Bool.and_false]

theorem noD_or {q r : ℕ} : NoD (q ||| r) ↔ NoD q ∧ NoD r := by
  rw [noD_iff, noD_iff, noD_iff, Nat.testBit_or, Bool.or_eq_false_iff]

theorem noD_ite (c : Prop) [Decidable c] {q r : ℕ} :
    NoD (if c then q else r) ↔ if c then NoD q else NoD r := by
  split <;> rfl

theorem noD_mod_two (q : ℕ) : NoD (q % 2) := by
  rw [← Nat.and_one_is_mod]
  exact noD_and (by decide) q

theorem noD_nz (v : ℕ) : NoD (nz v) := by
  rw [nz, noD_or, noD_ite]
  refine ⟨noD_and (by decide) v, ?_⟩
  split <;> decide

theorem noD_bit7 {v : ℕ} (hv : v ≤ 0xFF) : NoD (v >>> 7) := by
  have h : v >>> 7 < 2 := by
    rw [Nat.shiftRight_eq_div_pow]
    omega
  rw [← Nat.mod_eq_of_lt h]
  exact noD_mod_two _

theorem noD_bit7_and (a : ℕ) (v : Byte) : NoD ((a &&& v.val) >>> 7) := noD_bit7 (and_le_of_right (byte_le v) a)

theorem noD_flags : (NoD flagN ∧ NoD flagV ∧ NoD flagU ∧ NoD flagB) ∧ NoD flagI ∧ NoD flagZ ∧ NoD flagC ∧ NoD 0 := by
  decide

/-! ## The binary arithmetic -/

section
attribute [local simp] setD_and setD_or setD_without setD_ite setD_mod_two noD_and noD_or noD_ite noD_mod_two noD_nz
  noD_bit7 noD_flags
variable (d : Bool) (p : ℕ)

theorem add_setD (a value : ℕ) :
    add a value (setD d p) 0 = ((add a value p 0).1, setD d (add a value p 0).2) := by
  simp [add]

theorem subtract_setD (a value : ℕ) :
    subtract a value (setD d p) 0 = ((subtract a value p 0).1, setD d (subtract a value p 0).2) := by
  simp [subtract]

theorem lsr_setD (value : ℕ) : lsr value (setD d p) = ((lsr value p).1, setD d (lsr value p).2) := by
  simp [lsr]

theorem ror_setD (value : ℕ) : ror value (setD d p) = ((ror value p).1, setD d (ror value p).2) := by
  simp [ror]

theorem arr_setD {chip : Chip} (hchip : chip.decimalMode = 0) (value : ℕ) :
    Code.arr chip value (setD d p) = ((Code.arr chip value p).1, setD d (Code.arr chip value p).2) := by
  simp only [Code.arr, hchip, Nat.and_zero, ne_eq, not_true_eq_false, if_false]
  have hresult : (value >>> 1) ||| ((setD d p &&& flagC) <<< 7) = (value >>> 1) ||| ((p &&& flagC) <<< 7) := by simp
  rw [hresult]
  split <;> simp

variable {value : ℕ} (hv : value ≤ 0xFF)
include hv

theorem asl_setD : asl value (setD d p) = ((asl value p).1, setD d (asl value p).2) := by
  simp [asl, hv]

theorem rol_setD : rol value (setD d p) = ((rol value p).1, setD d (rol value p).2) := by
  simp [rol, hv]

end

end SixFiveOhTwo
