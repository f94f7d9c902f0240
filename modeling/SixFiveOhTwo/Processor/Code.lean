import SixFiveOhTwo.Interaction.Tree
import SixFiveOhTwo.Processor.State

/-! # The processor's code: operations, fetch, effective addresses and the stack (`_core.py`)

A method of the processor is a program over `Op`: bus reads and writes, and the attributes it looks
at and assigns. Between two operations nothing but the processor's own code runs; inside a read or a
write the host's callback does, and may change `Poll`, but never `Core`.
-/

namespace SixFiveOhTwo
open Bits Interaction
set_option autoImplicit false

/-- What the processor's code asks of its surroundings. -/
inductive Op
  | read (address : ℕ)
  | write (address value : ℕ)
  | core
  | setCore (core : Core)
  | dmaStalled
  | poll
  | setPoll (poll : Poll)

/-- What an operation is answered. -/
abbrev Op.Ans : Op → Type
  | read _ => Byte
  | write _ _ => Unit
  | core => Core
  | setCore _ => Unit
  | dmaStalled => Bool
  | poll => Poll
  | setPoll _ => Unit

/-- The processor's code. -/
abbrev Code (α : Type) : Type := Tree Op.Ans α

namespace Code

def ask (op : Op) : Code op.Ans := Tree.perform op

/-- `self._read(address)`. -/
def read (address : ℕ) : Code ℕ := do
  let value ← ask (.read address)
  return value.val

/-- `self._write(address, value)`. -/
def write (address value : ℕ) : Code Unit := ask (.write address value)

def core : Code Core := ask .core

def setCore (core : Core) : Code Unit := ask (.setCore core)

/-- Assign registers. -/
def update (f : Core → Core) : Code Unit := do setCore (f (← core))

def dmaStalled : Code Bool := ask .dmaStalled

def poll : Code Poll := ask .poll

def setPoll (poll : Poll) : Code Unit := ask (.setPoll poll)

/-- Assign attributes of the poll. -/
def updatePoll (f : Poll → Poll) : Code Unit := do setPoll (f (← poll))

/-! ## Fetch -/

def fetch : Code ℕ := do
  let pc := (← core).pc
  update ({ · with pc := (pc + 1) &&& 0xFFFF })
  read pc

def fetchWord : Code ℕ := do
  let low ← fetch
  return ((← fetch) <<< 8) ||| low

/-- The dummy read of every one-byte instruction's second cycle. -/
def readPc : Code Unit := do
  let _ ← read (← core).pc

/-! ## Effective addresses, cycle by cycle -/

def eaImm : Code ℕ := do
  let pc := (← core).pc
  update ({ · with pc := (pc + 1) &&& 0xFFFF })
  return pc

def eaZp : Code ℕ := fetch

def eaZpx : Code ℕ := do
  let base ← fetch
  let _ ← read base
  return (base + (← core).x) &&& 0xFF

def eaZpy : Code ℕ := do
  let base ← fetch
  let _ ← read base
  return (base + (← core).y) &&& 0xFF

def eaAbs : Code ℕ := fetchWord

/-- A read ends on the base page's address unless a page was crossed; writes and
read-modify-writes always spend that cycle. -/
def indexed (base index : ℕ) (write : Bool) : Code ℕ := do
  let address := (base + index) &&& 0xFFFF
  if write || (address ^^^ base) &&& 0xFF00 != 0 then
    let _ ← read ((base &&& 0xFF00) ||| (address &&& 0xFF))
    if !write then
      update ({ · with extra := 1 })
  return address

def eaAbx : Code ℕ := do indexed (← fetchWord) (← core).x false

def eaAby : Code ℕ := do indexed (← fetchWord) (← core).y false

def eaAbxW : Code ℕ := do indexed (← fetchWord) (← core).x true

def eaAbyW : Code ℕ := do indexed (← fetchWord) (← core).y true

/-- The pointer lives in page zero at zp+X, both bytes wrapping within page zero. -/
def eaIzx : Code ℕ := do
  let base ← fetch
  let _ ← read base
  let pointer := (base + (← core).x) &&& 0xFF
  let low ← read pointer
  return ((← read ((pointer + 1) &&& 0xFF)) <<< 8) ||| low

def izyBase : Code ℕ := do
  let pointer ← fetch
  let low ← read pointer
  return ((← read ((pointer + 1) &&& 0xFF)) <<< 8) ||| low

def eaIzy : Code ℕ := do indexed (← izyBase) (← core).y false

def eaIzyW : Code ℕ := do indexed (← izyBase) (← core).y true

/-! ## The stack -/

def push (value : ℕ) : Code Unit := do
  let s := (← core).s
  write (stack ||| s) value
  update ({ · with s := masked 8 ((s : ℤ) - 1) })

def pull : Code ℕ := do
  let s := ((← core).s + 1) &&& 0xFF
  update ({ · with s })
  read (stack ||| s)

/-- The dummy read of the stack before a pull, or during JSR. -/
def readStack : Code Unit := do
  let _ ← read (stack ||| (← core).s)

end Code

end SixFiveOhTwo
