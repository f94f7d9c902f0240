import SixFiveOhTwo.Processor.Dispatch

/-! # The step (`CPUFrame.step`) -/

namespace SixFiveOhTwo
set_option autoImplicit false

/-- Kind of work performed by one `step()` call. -/
inductive BoundaryKind
  | instruction | jamIdle | reset | nmi | irq
  deriving DecidableEq, Repr

namespace Code
variable (chip : Chip)

/-- `_halted`: JAM has stopped the processor, which reads $FFFF every cycle until reset. -/
def haltedCycle : Code ℕ := do
  let _ ← read 0xFFFF
  return 1

/-- The interrupt this boundary takes: the NMI latch, the IRQ line, or 0 for none. -/
def boundaryInterrupt : Code ℕ := do
  let polled ← do
    let poll ← poll
    match poll.polled with
    | none => pure poll.requests
    | some polled =>
      setPoll { poll with polled := none }
      pure polled
  if polled &&& nmiLatch ≠ 0 then return nmiLatch
  else
    let c ← core
    match c.polledI with
    | none => return if polled &&& irqLine ≠ 0 ∧ c.p &&& flagI = 0 then irqLine else 0
    | some polledI =>
      setCore { c with polledI := none }
      return if polled &&& irqLine ≠ 0 ∧ polledI = 0 then irqLine else 0

/-- `_execute`, and what `step` does with a request that changed in the last cycle. -/
def instruction : Code ℕ := do
  let cycles ← execute chip
  let poll ← poll
  match poll.deferred with
  | some deferred => setPoll { poll with polled := some deferred, deferred := none }
  | none => pure ()
  return cycles

/-- `step`: a pending reset, a halted processor, the interrupt the boundary takes, or one
instruction. Beside the cycles the source returns, the result names which of these it was. -/
def step : Code (BoundaryKind × ℕ) := do
  if (← poll).resetPending then return (.reset, ← acceptReset)
  else if (← core).halted then return (.jamIdle, ← haltedCycle)
  else
    let poll ← poll
    let c ← core
    let taken ←
      if poll.requests ≠ 0 ∨ poll.polled.isSome ∨ c.polledI.isSome then boundaryInterrupt
      else pure 0
    if taken ≠ 0 then
      return (if taken = nmiLatch then .nmi else .irq, ← enterInterrupt taken)
    else return (.instruction, ← instruction chip)

end Code

end SixFiveOhTwo
