import SixFiveOhTwo.Interaction.Sampling
import SixFiveOhTwo.Processor.Frame

/-! # What the host's calls do to the poll

The calls move `Poll` alone, whatever the rest of the processor: `Call.onPoll`. Seen so, the requests
are a lazily sampled cell (`Poll.cell`): a request or a release is a change, `_confirm` and
`note_stall` are samples, and `Poll.seen` is what the requests were at the last of them.
-/

namespace SixFiveOhTwo
open Bits Interaction
set_option autoImplicit false

/-- The effect of one call on the poll. -/
def Call.onPoll : Call → Poll → Poll
  | requestMaskableInterrupt, poll => (poll.request (poll.requests ||| irqLine)).see irqLine
  | clearMaskableInterrupt, poll => (poll.request (without poll.requests irqLine)).unsee irqLine
  | requestNonMaskableInterrupt, poll => (poll.request (poll.requests ||| nmiLatch)).see nmiLatch
  | clearNonMaskableInterrupt, poll => (poll.request (without poll.requests nmiLatch)).unsee nmiLatch
  | requestReset, poll => { poll with resetPending := true }
  | clearReset, poll => { poll with resetPending := false }
  | noteStall, poll => poll.noteStall
  | setDmaStalled _, poll => poll

theorem Call.apply_poll (call : Call) (cpu : CPU) : (call.apply cpu).poll = call.onPoll cpu.poll := by
  cases call <;> rfl

@[simp] theorem Call.apply_core (call : Call) (cpu : CPU) : (call.apply cpu).core = cpu.core := by
  cases call <;> rfl

namespace Poll

/-- A callback's calls, in order. -/
def applyCalls (poll : Poll) (calls : List Call) : Poll :=
  calls.foldl (fun poll call => call.onPoll poll) poll

/-- The requests that the `note_stall` calls among `calls` find, in order. -/
def stallsSeen : Poll → List Call → List ℕ
  | _, [] => []
  | poll, call :: calls =>
    (if call = .noteStall then [poll.requests] else []) ++ (call.onPoll poll).stallsSeen calls

/-- One bus access: it confirms, and its callback makes its calls. -/
def access (poll : Poll) (calls : List Call) : Poll := poll.confirm.applyCalls calls

/-- The requests as a lazily sampled cell. -/
def cell (poll : Poll) : Cell ℕ := { now := poll.requests, kept := poll.deferred }

/-- The requests as they stood at the end of the last access, or at a stall noted since. -/
def seen (poll : Poll) : ℕ := poll.deferred.getD poll.requests

end Poll

theorem CPU.applyCalls_poll (cpu : CPU) (calls : List Call) :
    (cpu.applyCalls calls).poll = cpu.poll.applyCalls calls := by
  induction calls generalizing cpu with
  | nil => rfl
  | cons call calls ih =>
    rw [Poll.applyCalls, List.foldl_cons, ← Call.apply_poll]
    exact ih (call.apply cpu)

@[simp] theorem CPU.applyCalls_core (cpu : CPU) (calls : List Call) :
    (cpu.applyCalls calls).core = cpu.core := by
  induction calls generalizing cpu with
  | nil => rfl
  | cons call calls ih => exact (ih (call.apply cpu)).trans (Call.apply_core call cpu)

theorem CPU.stallsSeen_eq (cpu : CPU) (calls : List Call) :
    cpu.stallsSeen calls = cpu.poll.stallsSeen calls := by
  induction calls generalizing cpu with
  | nil => rfl
  | cons call calls ih => rw [CPU.stallsSeen, Poll.stallsSeen, ih, Call.apply_poll]

/-! ## The requests are lazily sampled -/

/-- What a call does to the requests as a sampled cell. -/
def Call.onCell : Call → Cell.Move ℕ
  | requestMaskableInterrupt => .change (· ||| irqLine)
  | clearMaskableInterrupt => .change (without · irqLine)
  | requestNonMaskableInterrupt => .change (· ||| nmiLatch)
  | clearNonMaskableInterrupt => .change (without · nmiLatch)
  | noteStall => .sample
  | requestReset | clearReset | setDmaStalled _ => .none

namespace Poll

@[simp] theorem see_requests (poll : Poll) (bit : ℕ) : (poll.see bit).requests = poll.requests := by
  unfold see; split <;> [split <;> rfl; rfl]

@[simp] theorem see_deferred (poll : Poll) (bit : ℕ) : (poll.see bit).deferred = poll.deferred := by
  unfold see; split <;> [split <;> rfl; rfl]

@[simp] theorem see_resetPending (poll : Poll) (bit : ℕ) :
    (poll.see bit).resetPending = poll.resetPending := by
  unfold see; split <;> [split <;> rfl; rfl]

theorem see_stalled (poll : Poll) (bit : ℕ) :
    (poll.see bit).stalled = poll.stalled ∧ (poll.see bit).stalledBefore = poll.stalledBefore := by
  unfold see; split <;> [split <;> exact ⟨rfl, rfl⟩; exact ⟨rfl, rfl⟩]

theorem onPoll_cell (call : Call) (poll : Poll) :
    (call.onPoll poll).cell = Cell.move call.onCell poll.cell := by
  cases call <;> simp only [Call.onPoll, cell, see_requests, see_deferred] <;> rfl

theorem applyCalls_cell (poll : Poll) (calls : List Call) :
    (poll.applyCalls calls).cell =
      (calls.map Call.onCell).foldl (fun c m => Cell.move m c) poll.cell := by
  induction calls generalizing poll with
  | nil => rfl
  | cons call calls ih => exact (ih _).trans (by rw [onPoll_cell]; rfl)

theorem stallsSeen_eq_found (poll : Poll) (calls : List Call) :
    poll.stallsSeen calls = poll.cell.found (calls.map Call.onCell) := by
  induction calls generalizing poll with
  | nil => rfl
  | cons call calls ih => cases call <;> simp [stallsSeen, Cell.found, ih, onPoll_cell, Call.onCell] <;> rfl

/-- After a callback's calls the poll has seen the last stall noted among them, or what it had seen
before. -/
theorem seen_applyCalls (poll : Poll) (calls : List Call) :
    (poll.applyCalls calls).seen = (poll.stallsSeen calls).getLast?.getD poll.seen := by
  have h := Cell.seen_moves poll.cell (calls.map Call.onCell)
  rw [← applyCalls_cell, ← stallsSeen_eq_found] at h
  exact h

/-- After an access the poll has seen the last stall noted in it, or the requests from before it. -/
theorem seen_access (poll : Poll) (calls : List Call) :
    (poll.access calls).seen = (poll.confirm.stallsSeen calls).getLast?.getD poll.requests :=
  seen_applyCalls poll.confirm calls

end Poll

end SixFiveOhTwo
