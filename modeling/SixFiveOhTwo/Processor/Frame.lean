import SixFiveOhTwo.Processor.State

/-! # The frame's request inputs

What the host's calls do to a processor (`frame.py`): the requests, the stall notes, the bus
callables, and restoring a snapshot. A call may come between two steps or from inside a bus
callback; `Call` names those that may.
-/

namespace SixFiveOhTwo
open Bits
set_option autoImplicit false

/-! ## The requests and their poll -/

namespace Poll

/-- `_request`: the first change since the last access keeps the requests from before it. -/
def request (poll : Poll) (requests : ℕ) : Poll :=
  { poll with deferred := some (poll.deferred.getD poll.requests), requests }

/-- `_confirm`. -/
def confirm (poll : Poll) : Poll := { poll with deferred := none }

/-- `note_stall`. -/
def noteStall (poll : Poll) : Poll :=
  { poll with stalledBefore := poll.stalled, stalled := some poll.requests, deferred := none }

/-- Add a request to what the last poll saw, unless the last sequence did not poll. -/
def see (poll : Poll) (bit : ℕ) : Poll :=
  match poll.polled with
  | some polled => if polled &&& noPoll = 0 then { poll with polled := some (polled ||| bit) } else poll
  | none => poll

/-- Remove a request from what the last poll saw. -/
def unsee (poll : Poll) (bit : ℕ) : Poll := { poll with polled := poll.polled.map (without · bit) }

end Poll

namespace Bus

/-- The next access goes through the confirming wrapper. -/
def confirming (bus : Bus) : Bus := { bus with read := .confirming, write := .confirming }

/-- Accesses go straight to the callables. -/
def confirmed (bus : Bus) : Bus :=
  { bus with read := .direct bus.readByte, write := .direct bus.writeByte }

end Bus

namespace CPU

/-- `_confirm`. -/
def confirm (cpu : CPU) : CPU := { cpu with poll := cpu.poll.confirm, bus := cpu.bus.confirmed }

/-- `_request`. -/
def request (cpu : CPU) (requests : ℕ) : CPU :=
  { cpu with
    poll := cpu.poll.request requests
    bus := if cpu.poll.deferred.isNone then cpu.bus.confirming else cpu.bus }

/-- `request_maskable_interrupt` and `request_non_maskable_interrupt`, by their bit. -/
def raise (cpu : CPU) (bit : ℕ) : CPU :=
  let cpu := cpu.request (cpu.poll.requests ||| bit)
  { cpu with poll := cpu.poll.see bit }

/-- `clear_maskable_interrupt` and `clear_non_maskable_interrupt`, by their bit. -/
def lower (cpu : CPU) (bit : ℕ) : CPU :=
  let cpu := cpu.request (without cpu.poll.requests bit)
  { cpu with poll := cpu.poll.unsee bit }

def requestMaskableInterrupt (cpu : CPU) : CPU := cpu.raise irqLine

def clearMaskableInterrupt (cpu : CPU) : CPU := cpu.lower irqLine

def requestNonMaskableInterrupt (cpu : CPU) : CPU := cpu.raise nmiLatch

def clearNonMaskableInterrupt (cpu : CPU) : CPU := cpu.lower nmiLatch

def requestReset (cpu : CPU) : CPU := { cpu with poll := { cpu.poll with resetPending := true } }

def clearReset (cpu : CPU) : CPU := { cpu with poll := { cpu.poll with resetPending := false } }

/-- `note_stall`: an unconfirmed request is confirmed. -/
def noteStall (cpu : CPU) : CPU :=
  { cpu with
    poll := cpu.poll.noteStall
    bus := if cpu.poll.deferred.isSome then cpu.bus.confirmed else cpu.bus }

/-- The `read_byte` setter. -/
def setReadByte (cpu : CPU) (readByte : Callable) : CPU :=
  { cpu with
    bus := { cpu.bus with
      readByte
      read := if cpu.poll.deferred.isNone then .direct readByte else cpu.bus.read } }

/-- The `write_byte` setter. -/
def setWriteByte (cpu : CPU) (writeByte : Callable) : CPU :=
  { cpu with
    bus := { cpu.bus with
      writeByte
      write := if cpu.poll.deferred.isNone then .direct writeByte else cpu.bus.write } }

/-- One bit of what `_restore_poll` puts together: as polled where the snapshot says so. -/
def mergePolled (polled bit : ℕ) : Option Bool → ℕ
  | none => polled
  | some true => polled ||| bit
  | some false => without polled bit

/-- `restore_state`, with `_restore_poll`. -/
def restoreState (cpu : CPU) (state : CPUState) : CPU :=
  let requests := (if state.maskableInterruptPending then irqLine else 0) |||
    (if state.nonMaskableInterruptPending then nmiLatch else 0)
  let polled := mergePolled requests irqLine state.polledMaskableInterrupt
  let polled := mergePolled polled nmiLatch state.polledNonMaskableInterrupt
  let polled := if state.skippedPoll then polled ||| noPoll else polled
  let restored : CPU := { cpu with
    core := {
      a := state.a, x := state.x, y := state.y, s := state.s, pc := state.pc, p := state.p
      halted := state.halted
      polledI := state.polledI.map fun seen => if seen then flagI else 0
      extra := 0 }
    poll := { cpu.poll with
      resetPending := state.resetPending
      requests
      polled := if polled = requests then none else some polled } }
  restored.confirm

end CPU

/-! ## Calls -/

/-- What a host may call on the processor, between steps or from inside a bus callback. -/
inductive Call
  | requestMaskableInterrupt
  | clearMaskableInterrupt
  | requestNonMaskableInterrupt
  | clearNonMaskableInterrupt
  | requestReset
  | clearReset
  | noteStall
  | setDmaStalled (stalled : Bool)
  deriving DecidableEq, Repr

/-- The effect of one call. -/
def Call.apply : Call → CPU → CPU
  | requestMaskableInterrupt, cpu => cpu.requestMaskableInterrupt
  | clearMaskableInterrupt, cpu => cpu.clearMaskableInterrupt
  | requestNonMaskableInterrupt, cpu => cpu.requestNonMaskableInterrupt
  | clearNonMaskableInterrupt, cpu => cpu.clearNonMaskableInterrupt
  | requestReset, cpu => cpu.requestReset
  | clearReset, cpu => cpu.clearReset
  | noteStall, cpu => cpu.noteStall
  | setDmaStalled stalled, cpu => { cpu with dmaStalled := stalled }

/-- The calls one callback makes, in order. -/
def CPU.applyCalls (cpu : CPU) (calls : List Call) : CPU := calls.foldl (fun cpu call => call.apply cpu) cpu

/-- The requests that the `note_stall` calls among `calls` find, in order. -/
def CPU.stallsSeen : CPU → List Call → List ℕ
  | _, [] => []
  | cpu, call :: calls =>
    (if call = .noteStall then [cpu.poll.requests] else []) ++ (call.apply cpu).stallsSeen calls

end SixFiveOhTwo
