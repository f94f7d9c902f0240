import Mathlib.Data.Nat.Bitwise
import Mathlib.Data.Int.Bitwise
import Mathlib.Tactic.Positivity

/-! # Masks on unbounded integers

The integers of the source never wrap: a byte or a word is what is left after an explicit mask.
This file has the masks and what they leave.

* `without p m` is `p & ~m` for a natural number `p`.
* `masked w x` is `x & (2 ^ w - 1)` for any integer `x`, negative ones included.
-/

namespace Bits
set_option autoImplicit false

/-- `p & ~m`. -/
def without (p m : ℕ) : ℕ := p ^^^ (p &&& m)

/-- `x & (2 ^ w - 1)`: the `w` low bits of an integer, in two's complement when it is negative. -/
def masked (w : ℕ) (x : ℤ) : ℕ := (x % 2 ^ w).toNat

@[simp] theorem testBit_without (p m i : ℕ) :
    (without p m).testBit i = (p.testBit i && !m.testBit i) := by
  rw [without, Nat.testBit_xor, Nat.testBit_and]
  cases p.testBit i <;> cases m.testBit i <;> rfl

theorem without_lt {p m w : ℕ} (hp : p < 2 ^ w) : without p m < 2 ^ w :=
  Nat.xor_lt_two_pow hp (Nat.and_le_left.trans_lt hp)

theorem without_and_self (p m : ℕ) : without p m &&& m = 0 := by
  refine Nat.eq_of_testBit_eq fun i => ?_
  rw [Nat.testBit_and, testBit_without, Nat.zero_testBit]
  cases p.testBit i <;> cases m.testBit i <;> rfl

theorem without_and_of_disjoint {p m k : ℕ} (h : m &&& k = 0) : without p m &&& k = p &&& k := by
  refine Nat.eq_of_testBit_eq fun i => ?_
  have hi : (m.testBit i && k.testBit i) = false := by
    rw [← Nat.testBit_and, h, Nat.zero_testBit]
  rw [Nat.testBit_and, Nat.testBit_and, testBit_without]
  cases hm : m.testBit i <;> cases hk : k.testBit i <;> simp_all

theorem masked_lt (w : ℕ) (x : ℤ) : masked w x < 2 ^ w := by
  have hpos : (0 : ℤ) < 2 ^ w := by positivity
  have hlt := Int.emod_lt_of_pos x hpos
  have hnn := Int.emod_nonneg x hpos.ne'
  rw [masked, Int.toNat_lt hnn]
  exact_mod_cast hlt

theorem and_ff (x : ℕ) : x &&& 0xFF = x % 256 := Nat.and_two_pow_sub_one_eq_mod x 8

theorem and_ffff (x : ℕ) : x &&& 0xFFFF = x % 65536 := Nat.and_two_pow_sub_one_eq_mod x 16

end Bits
