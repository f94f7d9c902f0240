import SixFiveOhTwo.Frames.Entries
import SixFiveOhTwo.Machine.Flat
import SixFiveOhTwo.Parts.Disconnected

/-! # P on its way to memory

PHP, BRK and the interrupts push P, D included. On a flat memory nothing that the step still does looks at
the byte pushed, so that with another P the step is the same but for that byte.
-/

namespace SixFiveOhTwo
open Bits Interaction Code
set_option autoImplicit false

theorem modify_append_left {α : Type} (f : α → α) {l : List α} {i : ℕ} (hi : i < l.length) (l' : List α) :
    (l ++ l').modify i f = l.modify i f ++ l' := by
  induction l generalizing i with
  | nil => cases hi
  | cons a l ih =>
    cases i with
    | zero => rfl
    | succ i => simp [ih (Nat.lt_of_succ_lt_succ hi)]

theorem modify_concat {α : Type} (f : α → α) (l : List α) (a : α) : (l ++ [a]).modify l.length f = l ++ [f a] := by
  induction l with
  | nil => rfl
  | cons b l ih => simp [ih]

theorem stack_top {s : ℕ} (hs : s ≤ 0xFF) : stack ||| s ≤ 0x1FF := by
  have h : stack ||| s < 2 ^ 9 := Nat.or_lt_two_pow (by decide) (by omega)
  omega

namespace Code

/-- The frame after its pushes of PC: P is pushed, and the vector read. -/
def vectoring (v status : ℕ) : Code Unit := do
  push status
  update fun c => { c with p := c.p ||| flagI }
  let low ← read v
  let high ← read (v + 1)
  update ({ · with pc := (high <<< 8) ||| low })
  updatePoll ({ · with deferred := some noPoll })

/-- An interrupt entry after its two reads. -/
def entering (vector : ℕ) : Code ℕ := do
  interrupt vector (without ((← core).p ||| flagU) flagB)
  updatePoll ({ · with polled := some noPoll, deferred := none })
  return 7

end Code

namespace Plain

/-- The machine if its `i`-th access had written `value` to `address`. -/
def rewritten (i address value : ℕ) (q : Plain (ℕ → Byte)) : Plain (ℕ → Byte) :=
  { q with
    host := Function.update q.host address (Fin.ofNat 256 value)
    trace := q.trace.modify i fun call => { call with access := .w address value } }

variable {i address value : ℕ} (q : Plain (ℕ → Byte))

theorem afterWrite_rewritten (address value value' : ℕ) :
    q.afterWrite .flat address value' = (q.afterWrite .flat address value).rewritten q.trace.length address value' := by
  simp [afterWrite, called, rewritten, Host.flat, Poll.record, modify_concat]

theorem afterRead_rewritten (hi : i < q.trace.length) {other : ℕ} (hne : other ≠ address) :
    (q.rewritten i address value).afterRead .flat other = (q.afterRead .flat other).rewritten i address value := by
  simp [afterRead, readAnswer, called, rewritten, Host.flat, Poll.record, hne, modify_append_left _ hi]

theorem readAnswer_rewritten {other : ℕ} (hne : other ≠ address) :
    ((q.rewritten i address value).readAnswer .flat other).1 = (q.readAnswer .flat other).1 := by
  simp [readAnswer, rewritten, Host.flat, hne]

theorem afterWrite_trace_length (address value : ℕ) :
    (q.afterWrite .flat address value).trace.length = q.trace.length + 1 := List.length_append

theorem afterRead_trace_length (address : ℕ) :
    (q.afterRead .flat address).trace.length = q.trace.length + 1 := List.length_append

theorem exec_vectoring (d : Bool) {v : ℕ} (status status' : ℕ) (hv : stack ||| q.core.s < v) :
    exec .flat (vectoring v status') (q.withD d) =
      ((), ((exec .flat (vectoring v status) q).2.withD d).rewritten q.trace.length (stack ||| q.core.s) status') := by
  have hlow : v ≠ stack ||| q.core.s := hv.ne'
  have hhigh : v + 1 ≠ stack ||| q.core.s := (hv.trans (Nat.lt_succ_self v)).ne'
  have hwritten := afterWrite_trace_length q (stack ||| q.core.s) status
  have hread := afterRead_trace_length (q.afterWrite .flat (stack ||| q.core.s) status) v
  simp only [vectoring, push, exec_bind, exec_core, exec_update, exec_write, exec_read, exec_updatePoll, withD,
    Core.withD, withCore_core, withCore_withCore, withPoll_withCore, readAnswer_withCore, afterRead_withCore,
    afterWrite_withCore, afterWrite_core, setD_or d _ noD_flags.2.1]
  rw [afterWrite_rewritten q (stack ||| q.core.s) status status', readAnswer_rewritten _ hlow,
    afterRead_rewritten _ (by omega) hlow, readAnswer_rewritten _ hhigh, afterRead_rewritten _ (by omega) hhigh]
  rfl

/-- The machine when the return address has been pushed. -/
def returning : Plain (ℕ → Byte) :=
  (exec .flat (push (q.core.pc &&& 0xFF)) (exec .flat (push (q.core.pc >>> 8)) q).2).2

/-- The vector has been chosen: a latched NMI diverts any other. -/
def diverted (vector : ℕ) : ℕ × Plain (ℕ → Byte) :=
  if vector ≠ vectorNmi ∧ q.poll.requests &&& nmiLatch ≠ 0 then (vectorNmi, q.withPoll q.poll.unlatched)
  else (vector, q)

theorem exec_interrupt (vector status : ℕ) :
    exec .flat (Code.interrupt vector status) q =
      exec .flat (vectoring (q.returning.diverted vector).1 status) (q.returning.diverted vector).2 := by
  rw [Code.interrupt, exec_bind, exec_core, exec_bind, exec_bind]
  change exec .flat _ q.returning = _
  rw [exec_bind, exec_poll, diverted]
  split <;> rfl

theorem exec_interrupt_withD (d : Bool) {vector : ℕ} (status status' : ℕ) (hv : 0x1FF < vector) :
    exec .flat (Code.interrupt vector status') (q.withD d) =
      ((), ((exec .flat (Code.interrupt vector status) q).2.withD d).rewritten (q.trace.length + 2)
        (stack ||| stackDown q.core.s 2) status') := by
  have hdiverted : (q.withD d).returning.diverted vector =
      ((q.returning.diverted vector).1, (q.returning.diverted vector).2.withD d) := by
    change (if vector ≠ vectorNmi ∧ q.returning.poll.requests &&& nmiLatch ≠ 0 then _ else _) = _
    rw [diverted]
    split <;> rfl
  have hstate : (q.returning.diverted vector).2.core.s = stackDown q.core.s 2 ∧
      (q.returning.diverted vector).2.trace.length = q.trace.length + 2 ∧ 0x1FF < (q.returning.diverted vector).1 := by
    have hlength : q.returning.trace.length = q.trace.length + 2 :=
      (afterWrite_trace_length _ _ _).trans (congrArg (· + 1) (afterWrite_trace_length _ _ _))
    rw [diverted]
    split
    · exact ⟨rfl, hlength, (by decide : 0x1FF < vectorNmi)⟩
    · exact ⟨rfl, hlength, hv⟩
  obtain ⟨hs, hlength, hvector⟩ := hstate
  have hstack : stack ||| stackDown q.core.s 2 ≤ 0x1FF := stack_top (masked_8_le _)
  have hlt : stack ||| (q.returning.diverted vector).2.core.s < (q.returning.diverted vector).1 := by
    rw [hs]
    exact hstack.trans_lt hvector
  rw [exec_interrupt, exec_interrupt, hdiverted, exec_vectoring _ d status status' hlt, hs, hlength]

/-! ## The three pushes of P -/

theorem exec_opPhp_withD (d : Bool) :
    exec .flat opPhp (q.withD d) =
      ((), ((exec .flat opPhp q).2.withD d).rewritten (q.trace.length + 1) (stack ||| q.core.s)
        (setD d q.core.p ||| flagB ||| flagU)) := by
  have hlength := afterRead_trace_length q q.core.pc
  simp only [opPhp, readPc, push, exec_bind, exec_core, exec_update, exec_write, exec_read, withD, Core.withD,
    withCore_core, withCore_withCore, afterRead_withCore, afterWrite_withCore, afterRead_core, afterWrite_core,
    exec_pure]
  rw [afterWrite_rewritten _ _ (q.core.p ||| flagB ||| flagU), hlength]
  rfl

theorem exec_opBrk_withD (d : Bool) :
    exec .flat opBrk (q.withD d) =
      ((), ((exec .flat opBrk q).2.withD d).rewritten (q.trace.length + 3) (stack ||| stackDown q.core.s 2)
        (setD d q.core.p ||| flagB ||| flagU)) := by
  have hlength : (exec .flat fetch q).2.trace.length = q.trace.length + 1 := afterRead_trace_length _ _
  have h := exec_interrupt_withD (exec .flat fetch q).2 d (q.core.p ||| flagB ||| flagU)
    (setD d q.core.p ||| flagB ||| flagU) (by decide : 0x1FF < vectorIrq)
  rw [hlength] at h
  exact h

theorem exec_entering (vector : ℕ) :
    exec .flat (entering vector) q =
      (7, (exec .flat (Code.interrupt vector (without (q.core.p ||| flagU) flagB)) q).2.withPoll
        (exec .flat (Code.interrupt vector (without (q.core.p ||| flagU) flagB)) q).2.poll.skipped) := by
  rw [entering, exec_bind, exec_core, exec_bind]
  rfl

theorem exec_entering_withD (d : Bool) {vector : ℕ} (hv : 0x1FF < vector) :
    exec .flat (entering vector) (q.withD d) =
      (7, ((exec .flat (entering vector) q).2.withD d).rewritten (q.trace.length + 2)
        (stack ||| stackDown q.core.s 2) (without (setD d q.core.p ||| flagU) flagB)) := by
  have hp : (q.withD d).core.p = setD d q.core.p := rfl
  rw [exec_entering, exec_entering, hp, exec_interrupt_withD q d (without (q.core.p ||| flagU) flagB) _ hv]
  generalize (exec .flat (Code.interrupt vector (without (q.core.p ||| flagU) flagB)) q).2 = done
  rfl

/-- An interrupt entry when it has read PC twice, and taken the latch if it is the NMI's. -/
def reading (kind : ℕ) : Plain (ℕ → Byte) :=
  let read := ((q.afterRead .flat q.core.pc).afterRead .flat q.core.pc).withCore { q.core with polledI := none }
  if kind = nmiLatch then read.withPoll read.poll.unlatched else read

theorem exec_enterInterrupt (kind : ℕ) :
    exec .flat (enterInterrupt kind) q =
      exec .flat (entering (if kind = nmiLatch then vectorNmi else vectorIrq)) (q.reading kind) := by
  by_cases hkind : kind = nmiLatch
  · simp only [enterInterrupt, reading, hkind, if_true, exec_bind, exec_update, exec_core, exec_read, exec_updatePoll]
    rfl
  · have hvector : ¬vectorIrq = vectorNmi := by decide
    simp only [enterInterrupt, entering, reading, hkind, hvector, if_false, exec_bind, exec_update, exec_core,
      exec_read, withCore_core, afterRead_withCore]

theorem exec_enterInterrupt_withD (d : Bool) (kind : ℕ) :
    exec .flat (enterInterrupt kind) (q.withD d) =
      (7, ((exec .flat (enterInterrupt kind) q).2.withD d).rewritten (q.trace.length + 4)
        (stack ||| stackDown q.core.s 2) (without (setD d q.core.p ||| flagU) flagB)) := by
  have hreading : (q.withD d).reading kind = (q.reading kind).withD d := by
    unfold reading
    split <;> rfl
  have hstate : (q.reading kind).core.p = q.core.p ∧ (q.reading kind).core.s = q.core.s ∧
      (q.reading kind).trace.length = q.trace.length + 2 := by
    have hlength : ((q.afterRead .flat q.core.pc).afterRead .flat q.core.pc).trace.length = q.trace.length + 2 :=
      (afterRead_trace_length _ _).trans (congrArg (· + 1) (afterRead_trace_length _ _))
    unfold reading
    split <;> exact ⟨rfl, rfl, hlength⟩
  have hvector : 0x1FF < if kind = nmiLatch then vectorNmi else vectorIrq := by split <;> decide
  rw [exec_enterInterrupt, exec_enterInterrupt, hreading, exec_entering_withD _ d hvector, hstate.1, hstate.2.1,
    hstate.2.2]

end Plain

end SixFiveOhTwo
