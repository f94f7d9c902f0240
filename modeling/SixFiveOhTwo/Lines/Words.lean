import SixFiveOhTwo.Snapshots.Restore

/-! # Requests but for the IRQ line

The requests and what a poll saw of them are words of two lines and one mark. `offLine` is such a word
but for the IRQ line: a call on that line does not move it, and what any other call makes of it depends
on it alone.
-/

namespace SixFiveOhTwo
open Bits Interaction
set_option autoImplicit false

/-- A call on the IRQ line. -/
def Call.OnLine : Call → Bool
  | requestMaskableInterrupt | clearMaskableInterrupt => true
  | _ => false

/-- The word but for the IRQ line. -/
def offLine (word : ℕ) : ℕ := without word irqLine

theorem offLine_or (v bits : ℕ) : offLine (v ||| bits) = offLine v ||| offLine bits := by
  refine Nat.eq_of_testBit_eq fun i => ?_
  simp only [offLine, testBit_without, Nat.testBit_or]
  rw [Bool.and_or_distrib_right]

theorem offLine_without (v bits : ℕ) : offLine (without v bits) = without (offLine v) bits := by
  refine Nat.eq_of_testBit_eq fun i => ?_
  simp only [offLine, testBit_without]
  rw [Bool.and_right_comm]

theorem offLine_offLine (v : ℕ) : offLine (offLine v) = offLine v := by
  refine Nat.eq_of_testBit_eq fun i => ?_
  simp only [offLine, testBit_without, Bool.and_assoc, Bool.and_self]

theorem offLine_and {bits : ℕ} (h : irqLine &&& bits = 0) (v : ℕ) : offLine v &&& bits = v &&& bits :=
  without_and_of_disjoint h

section
variable {v w : ℕ} (h : offLine v = offLine w)
include h

theorem offLine_and_congr {bits : ℕ} (hbits : irqLine &&& bits = 0) : v &&& bits = w &&& bits := by
  rw [← offLine_and hbits v, h, offLine_and hbits]

theorem eq_of_offLine (hline : v &&& irqLine = w &&& irqLine) : v = w := by
  refine Nat.eq_of_testBit_eq fun i => ?_
  have hoff := congrArg (Nat.testBit · i) h
  have hon := congrArg (Nat.testBit · i) hline
  simp only [offLine, testBit_without] at hoff
  simp only [Nat.testBit_and] at hon
  cases hi : irqLine.testBit i
  · simpa [hi] using hoff
  · simpa [hi] using hon

theorem offLine_onRequests (call : Call) : offLine (call.onRequests v) = offLine (call.onRequests w) := by
  cases call <;> simp only [Call.onRequests, offLine_or, offLine_without, h]

end

theorem offLine_of_onLine {call : Call} (hcall : call.OnLine = true) (v : ℕ) :
    offLine (call.onRequests v) = offLine v := by
  have hoff : offLine irqLine = 0 := by decide
  cases call with
  | requestMaskableInterrupt => rw [Call.onRequests, offLine_or, hoff, Nat.or_zero]
  | clearMaskableInterrupt =>
    rw [Call.onRequests, offLine_without]
    exact offLine_offLine v
  | _ => cases hcall

/-- What is alike through `f` is alike through what `f` decides. -/
theorem map_of_map {α β γ : Type} {f : α → β} {g g' : α → γ} (hg : ∀ v w, f v = f w → g v = g' w)
    {x y : Option α} (h : x.map f = y.map f) : x.map g = y.map g' := by
  cases x with
  | none =>
    rw [Option.map_eq_none_iff.mp h.symm]
    rfl
  | some v =>
    obtain ⟨w, rfl, hw⟩ := Option.map_eq_some_iff.mp h.symm
    rw [Option.map_some, Option.map_some, hg v w hw.symm]

/-- Two lists of calls that are the same off the IRQ line. -/
def SameOffLine (calls calls' : List Call) : Prop := calls.filter (!·.OnLine) = calls'.filter (!·.OnLine)

theorem offLine_requestsAfter {v w : ℕ} (h : offLine v = offLine w) (calls : List Call) :
    offLine (requestsAfter v calls) = offLine (requestsAfter w calls) := by
  induction calls generalizing v w with
  | nil => exact h
  | cons call calls ih => exact ih (offLine_onRequests h call)

/-! ## What a boundary decides on -/

namespace Poll
variable {p p' : Poll}

theorem deciding_of_known {seen : ℕ} (h : p.known = some seen) : p.deciding = seen := by
  rw [known] at h
  split at h
  · cases h
  · exact Option.some.inj h

theorem known_applyCalls (hs : p.Sound) (calls : List Call) :
    (p.applyCalls calls).known = p.known.map (requestsAfter · calls) := by
  induction calls generalizing p with
  | nil => exact Option.map_id'.symm
  | cons call calls ih =>
    have htail := ih (hs.onPoll call)
    rw [known_call hs, Option.map_map] at htail
    exact htail

/-- Off the line, a poll that is sound decides on what it knows. -/
theorem offLine_deciding (hs : p.Sound) (hs' : p'.Sound) :
    offLine p.deciding = offLine p'.deciding ↔ p.known.map offLine = p'.known.map offLine := by
  have hmark : ∀ {r : Poll}, r.Sound → offLine r.deciding = offLine noPoll → r.deciding = noPoll := by
    intro r hr hoff
    refine hr.deciding_noPoll ?_
    rw [offLine_and_congr hoff (by decide)]
    decide
  rw [hs.known_eq, hs'.known_eq]
  by_cases hno : p.deciding = noPoll <;> by_cases hno' : p'.deciding = noPoll
  · rw [hno, hno']
    simp
  · simp only [hno, if_pos, if_neg hno', Option.map_none, Option.map_some, reduceCtorEq, iff_false]
    exact fun hoff => hno' (hmark hs' hoff.symm)
  · simp only [hno', if_pos, if_neg hno, Option.map_none, Option.map_some, reduceCtorEq, iff_false]
    exact fun hoff => hno (hmark hs hoff)
  · rw [if_neg hno, if_neg hno']
    simp

end Poll

theorem boundary_offLine {c : Core} {p p' : Poll} (hreset : p.resetPending = p'.resetPending)
    (hoff : offLine p.deciding = offLine p'.deciding) (hdeaf : c.halted = true ∨ c.masking ≠ 0) :
    boundary c p = boundary c p' := by
  have hnmi : p.deciding &&& nmiLatch = p'.deciding &&& nmiLatch := offLine_and_congr hoff (by decide)
  rw [boundary, boundary, ← hreset, ← hnmi]
  rcases hdeaf with hhalted | hmasked
  · rw [if_pos hhalted, if_pos hhalted]
  · have hnot : ∀ word, ¬(word &&& irqLine ≠ 0 ∧ c.masking = 0) := fun word hirq => hmasked hirq.2
    rw [if_neg (hnot p.deciding), if_neg (hnot p'.deciding)]

end SixFiveOhTwo
