import SixFiveOhTwo.Bits.Masks

/-! # What an update of some bits leaves alone

* `Within m q`: `q` has no bit outside the mask `m`.
* `Outside m p p'`: `p` and `p'` are equal outside `m`. Clearing and setting bits within `m` decides nothing
  about it, which is how the simp lemmas peel an update off.
-/

namespace Bits
set_option autoImplicit false

/-- No bit of `q` lies outside the mask. -/
def Within (m q : ℕ) : Prop := q &&& m = q

/-- Two numbers agree outside a mask. -/
def Outside (m p p' : ℕ) : Prop := without p' m = without p m

instance (m q : ℕ) : Decidable (Within m q) := inferInstanceAs (Decidable (_ = _))

variable {m p p' q r : ℕ}

theorem within_or (hq : Within m q) (hr : Within m r) : Within m (q ||| r) := by
  rw [Within, Nat.and_or_distrib_right, hq, hr]

theorem within_and (hr : Within m r) : Within m (q &&& r) := by
  rw [Within, Nat.and_assoc, hr]

theorem within_ite (c : Prop) [Decidable c] (hq : Within m q) (hr : Within m r) : Within m (if c then q else r) := by
  split
  · exact hq
  · exact hr

theorem Within.testBit (hq : Within m q) {i : ℕ} (hm : m.testBit i = false) : q.testBit i = false := by
  rw [← hq, Nat.testBit_and, hm, Bool.and_false]

theorem outside_iff : Outside m p p' ↔ ∀ i, m.testBit i = false → p'.testBit i = p.testBit i := by
  constructor
  · intro h i hm
    have hi := congrArg (Nat.testBit · i) h
    simpa only [testBit_without, hm, Bool.not_false, Bool.and_true] using hi
  · intro h
    refine Nat.eq_of_testBit_eq fun i => ?_
    rw [testBit_without, testBit_without]
    cases hm : m.testBit i with
    | true => rw [Bool.not_true, Bool.and_false, Bool.and_false]
    | false => rw [h i hm]

@[simp] theorem outside_refl : Outside m p p := rfl

theorem Outside.trans (h : Outside m p q) (h' : Outside m q r) : Outside m p r := Eq.trans h' h

theorem Outside.mono {m' : ℕ} (h : Outside m p p') (hm : Within m' m) : Outside m' p p' := by
  rw [outside_iff] at h ⊢
  exact fun i hi => h i (hm.testBit hi)

theorem outside_or (hq : Within m q) : Outside m p (p' ||| q) ↔ Outside m p p' := by
  simp only [outside_iff, Nat.testBit_or]
  refine forall_congr' fun i => forall_congr' fun hm => ?_
  rw [hq.testBit hm, Bool.or_false]

theorem outside_without (hq : Within m q) : Outside m p (without p' q) ↔ Outside m p p' := by
  simp only [outside_iff, testBit_without]
  refine forall_congr' fun i => forall_congr' fun hm => ?_
  rw [hq.testBit hm, Bool.not_false, Bool.and_true]

theorem outside_ite (c : Prop) [Decidable c] :
    Outside m p (if c then q else r) ↔ if c then Outside m p q else Outside m p r := by
  split <;> rfl

end Bits
