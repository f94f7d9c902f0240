import SixFiveOhTwo.Processor.Shifts

/-! # Branches, jumps, the stack, flags, interrupts and reset (`_control.py`) -/

namespace SixFiveOhTwo
open Bits
set_option autoImplicit false

namespace Code

/-! ## Branches -/

/-- The taken part of `_branch`, with what the branch has polled so far: it takes requests raised by
the start of the last halted cycle of a stall of its next-opcode read, and polls again at the end of
its third cycle only when it crosses a page. -/
def branchTaken (offset early : ℕ) : Code Unit := do
  let pc := (← core).pc
  let _ ← read pc
  let early ← do
    match (← poll).stalledBefore with
    | some stalledBefore =>
      updatePoll ({ · with stalled := none, stalledBefore := none })
      pure (early ||| stalledBefore)
    | none => pure early
  let target := masked 16 ((pc : ℤ) + offset - ((offset &&& 0x80) <<< 1 : ℕ))
  if (target ^^^ pc) &&& 0xFF00 != 0 then
    let _ ← read ((pc &&& 0xFF00) ||| (target &&& 0xFF))
    update ({ · with extra := 2 })
    updatePoll fun poll => { poll with deferred := some (early ||| poll.deferred.getD poll.requests) }
  else
    update ({ · with extra := 1 })
    updatePoll ({ · with deferred := some early })
  update ({ · with pc := target })

/-- A branch, with the interrupt poll of its own: `early` is what it polls at the end of its first
cycle, or of a stall of its operand fetch. -/
def branch (taken : Bool) : Code Unit := do
  let early := (← poll).requests
  updatePoll ({ · with stalled := none, stalledBefore := none })
  let offset ← fetch
  let early ← do
    match (← poll).stalled with
    | some stalled =>
      updatePoll ({ · with stalled := none, stalledBefore := none })
      pure stalled
    | none => pure early
  if taken then branchTaken offset early

def opBpl : Code Unit := do branch ((← core).p &&& flagN == 0)

def opBmi : Code Unit := do branch ((← core).p &&& flagN != 0)

def opBvc : Code Unit := do branch ((← core).p &&& flagV == 0)

def opBvs : Code Unit := do branch ((← core).p &&& flagV != 0)

def opBcc : Code Unit := do branch ((← core).p &&& flagC == 0)

def opBcs : Code Unit := do branch ((← core).p &&& flagC != 0)

def opBne : Code Unit := do branch ((← core).p &&& flagZ == 0)

def opBeq : Code Unit := do branch ((← core).p &&& flagZ != 0)

/-! ## Jumps and subroutines -/

def opJmp : Code Unit := do
  let pc ← fetchWord
  update ({ · with pc })

/-- The pointer's high byte never carries into the next page. -/
def opJmpInd : Code Unit := do
  let pointer ← fetchWord
  let low ← read pointer
  let high ← read ((pointer &&& 0xFF00) ||| ((pointer + 1) &&& 0xFF))
  update ({ · with pc := (high <<< 8) ||| low })

/-- The high target byte is read last, from the operand's own address, after both pushes. -/
def opJsr : Code Unit := do
  let low ← fetch
  readStack
  let pc := (← core).pc
  push (pc >>> 8)
  push (pc &&& 0xFF)
  let high ← read pc
  update ({ · with pc := (high <<< 8) ||| low })

def opRts : Code Unit := do
  readPc
  readStack
  let low ← pull
  let pc := ((← pull) <<< 8) ||| low
  let _ ← read pc
  update ({ · with pc := (pc + 1) &&& 0xFFFF })

/-! ## The stack -/

def opPha : Code Unit := do
  readPc
  push (← core).a

def opPhp : Code Unit := do
  readPc
  push ((← core).p ||| flagB ||| flagU)

def opPla : Code Unit := do
  readPc
  readStack
  let a ← pull
  update fun c => { c with
    a
    p := without c.p (flagN ||| flagZ) ||| (a &&& flagN) ||| (if a = 0 then flagZ else 0) }

/-- The interrupt poll has already happened, on the old I. -/
def opPlp : Code Unit := do
  readPc
  readStack
  update fun c => { c with polledI := some (c.p &&& flagI) }
  let p := without ((← pull) ||| flagU) flagB
  update ({ · with p })

/-! ## Flags -/

def opClc : Code Unit := do
  readPc
  update fun c => { c with p := without c.p flagC }

def opSec : Code Unit := do
  readPc
  update fun c => { c with p := c.p ||| flagC }

def opCld : Code Unit := do
  readPc
  update fun c => { c with p := without c.p flagD }

def opSed : Code Unit := do
  readPc
  update fun c => { c with p := c.p ||| flagD }

def opClv : Code Unit := do
  readPc
  update fun c => { c with p := without c.p flagV }

def opCli : Code Unit := do
  readPc
  update fun c => { c with polledI := some (c.p &&& flagI) }
  update fun c => { c with p := without c.p flagI }

def opSei : Code Unit := do
  readPc
  update fun c => { c with polledI := some (c.p &&& flagI) }
  update fun c => { c with p := c.p ||| flagI }

def opNop : Code Unit := readPc

/-! ## Software and hardware interrupts -/

/-- Shared by BRK, IRQ and NMI after their first two cycles: the frame pushed, I set, then the
vector, chosen after the push of PCL. The sequence does not poll. -/
def interrupt (vector pushedP : ℕ) : Code Unit := do
  let pc := (← core).pc
  push (pc >>> 8)
  push (pc &&& 0xFF)
  let vector ← do
    if vector ≠ vectorNmi ∧ (← poll).requests &&& nmiLatch ≠ 0 then
      updatePoll fun poll => { poll with requests := without poll.requests nmiLatch }
      pure vectorNmi
    else pure vector
  push pushedP
  update fun c => { c with p := c.p ||| flagI }
  let low ← read vector
  let high ← read (vector + 1)
  update ({ · with pc := (high <<< 8) ||| low })
  updatePoll ({ · with deferred := some noPoll })

/-- The byte after BRK is skipped: the return address is PC + 2. -/
def opBrk : Code Unit := do
  let _ ← fetch
  interrupt vectorIrq ((← core).p ||| flagB ||| flagU)

/-- Unlike PLP, the restored I decides the very next poll. -/
def opRti : Code Unit := do
  readPc
  readStack
  let p := without ((← pull) ||| flagU) flagB
  update ({ · with p })
  let low ← pull
  let high ← pull
  update ({ · with pc := (high <<< 8) ||| low })

/-- Take IRQ or NMI at an instruction boundary: PC is read twice and not advanced. -/
def enterInterrupt (kind : ℕ) : Code ℕ := do
  let vector := if kind = nmiLatch then vectorNmi else vectorIrq
  update ({ · with polledI := none })
  let pc := (← core).pc
  let _ ← read pc
  let _ ← read pc
  if vector = vectorNmi then
    updatePoll fun poll => { poll with requests := without poll.requests nmiLatch }
  interrupt vector (without ((← core).p ||| flagU) flagB)
  updatePoll ({ · with polled := some noPoll, deferred := none })
  return 7

/-- One of the three stack cycles of the start sequence, with R/W held at read. -/
def resetStackCycle : Code Unit := do
  let s := (← core).s
  let _ ← read (stack ||| s)
  update ({ · with s := masked 8 ((s : ℤ) - 1) })

/-- The seven-cycle start sequence: I set, PC from its vector. -/
def acceptReset : Code ℕ := do
  updatePoll ({ · with resetPending := false })
  update ({ · with halted := false, polledI := none })
  let pc := (← core).pc
  let _ ← read pc
  let _ ← read pc
  resetStackCycle
  resetStackCycle
  resetStackCycle
  update fun c => { c with p := c.p ||| flagI }
  let low ← read vectorReset
  let high ← read (vectorReset + 1)
  update ({ · with pc := (high <<< 8) ||| low })
  updatePoll ({ · with polled := some noPoll, deferred := none })
  return 7

end Code

end SixFiveOhTwo
