import SixFiveOhTwo.Bits.Masks

/-! # The state of a processor

`Core` is what only the processor's own code assigns, `Poll` what the host's calls assign as well,
and `Bus` the two host callables with the route an access takes to them. `CPU` is the three, with
the `dma_stalled` flag a host sets. `CPUState` is the snapshot `capture_state` returns: its fields
carry the checks of `CPUState.__post_init__`, so an invalid snapshot cannot be built.
-/

namespace SixFiveOhTwo
open Bits
set_option autoImplicit false

/-- What a bus read returns. -/
abbrev Byte : Type := Fin 256

instance Byte.size_ne_zero : NeZero 256 := ⟨by decide⟩

/-! ## Constants of `_core.py` and `_control.py` -/

abbrev flagN : ℕ := 0x80
abbrev flagV : ℕ := 0x40
abbrev flagU : ℕ := 0x20
abbrev flagB : ℕ := 0x10
abbrev flagD : ℕ := 0x08
abbrev flagI : ℕ := 0x04
abbrev flagZ : ℕ := 0x02
abbrev flagC : ℕ := 0x01

/-- The stack is page one. -/
abbrev stack : ℕ := 0x0100

/-- The IRQ line, a level. -/
def irqLine : ℕ := 0x01
/-- The NMI latch, an edge remembered until it is taken. -/
def nmiLatch : ℕ := 0x02
/-- In `polled` only: the last sequence did not poll. -/
def noPoll : ℕ := 0x04

abbrev vectorNmi : ℕ := 0xFFFA
abbrev vectorReset : ℕ := 0xFFFC
abbrev vectorIrq : ℕ := 0xFFFE

/-- N and Z of an 8-bit result, the source's table `NZ`. -/
def nz (value : ℕ) : ℕ := (value &&& flagN) ||| (if value = 0 then flagZ else 0)

/-! ## The parts of a processor -/

/-- What distinguishes the parts and the instances: the D bit as the adder sees it, and the two
constants of the unstable opcodes, which a host may set to any integer. -/
structure Chip where
  decimalMode : ℕ := flagD
  aneConstant : ℤ := 0xEE
  lxaConstant : ℤ := 0xEE

/-- `MOS6502` as constructed. -/
def mos6502 : Chip := {}

/-- `RP2A03` as constructed: the decimal adjust is disconnected. -/
def rp2a03 : Chip := { decimalMode := 0 }

/-- The attributes that only the processor's own code assigns. -/
structure Core where
  a : ℕ := 0
  x : ℕ := 0
  y : ℕ := 0
  s : ℕ := 0
  pc : ℕ := 0
  p : ℕ := flagU ||| flagI
  /-- Cycles a step adds to its opcode's base count. -/
  extra : ℕ := 0
  halted : Bool := false
  /-- The I flag the last poll saw, after CLI, SEI and PLP. -/
  polledI : Option ℕ := none
  deriving DecidableEq, Repr

/-- The interrupt requests and their poll, which the host's calls change too. -/
structure Poll where
  resetPending : Bool := false
  requests : ℕ := 0
  polled : Option ℕ := none
  deferred : Option ℕ := none
  stalled : Option ℕ := none
  stalledBefore : Option ℕ := none
  deriving DecidableEq, Repr

/-- A bus callable: one of the host's own, or the wrapper a debug session put around another. -/
inductive Callable
  | host (id : ℕ)
  | tracked (session : ℕ) (inner : Callable)
  deriving DecidableEq, Repr

/-- Where `self._read` or `self._write` leads: to a callable, or to the confirming wrapper. -/
inductive Route
  | direct (callable : Callable)
  | confirming
  deriving DecidableEq, Repr

/-- The bus callables as last assigned, and the route an access takes. -/
structure Bus where
  readByte : Callable
  writeByte : Callable
  read : Route
  write : Route
  deriving DecidableEq, Repr

/-- A processor. -/
structure CPU where
  core : Core
  poll : Poll
  bus : Bus
  dmaStalled : Bool := false
  deriving DecidableEq, Repr

/-- `MOS6502(read_byte, write_byte)`. -/
def CPU.init (readByte writeByte : Callable) : CPU where
  core := {}
  poll := {}
  bus := { readByte, writeByte, read := .direct readByte, write := .direct writeByte }

/-! ## Snapshots -/

/-- A snapshot of a processor at an instruction boundary, with the checks its constructor makes. -/
structure CPUState where
  a : ℕ := 0
  x : ℕ := 0
  y : ℕ := 0
  s : ℕ := 0
  pc : ℕ := 0
  p : ℕ := 0x24
  halted : Bool := false
  resetPending : Bool := false
  maskableInterruptPending : Bool := false
  nonMaskableInterruptPending : Bool := false
  polledI : Option Bool := none
  polledMaskableInterrupt : Option Bool := none
  polledNonMaskableInterrupt : Option Bool := none
  skippedPoll : Bool := false
  a_le : a ≤ 0xFF := by decide
  x_le : x ≤ 0xFF := by decide
  y_le : y ≤ 0xFF := by decide
  s_le : s ≤ 0xFF := by decide
  p_le : p ≤ 0xFF := by decide
  pc_le : pc ≤ 0xFFFF := by decide
  p_bits : p &&& 0x30 = 0x20 := by decide
  deriving DecidableEq

/-- A state at an address, with all flags but I clear. -/
def CPUState.poised (pc : ℕ) (x y s : Byte) (masked : Bool) : CPUState where
  x := x
  y := y
  s := s
  pc := pc &&& 0xFFFF
  p := if masked then 0x24 else 0x20
  x_le := Nat.le_of_lt_succ x.isLt
  y_le := Nat.le_of_lt_succ y.isLt
  s_le := Nat.le_of_lt_succ s.isLt
  p_le := by cases masked <;> decide
  pc_le := Nat.and_le_right
  p_bits := by cases masked <;> decide

/-- The registers a snapshot accepts. -/
def Core.Valid (c : Core) : Prop :=
  (c.a ≤ 0xFF ∧ c.x ≤ 0xFF ∧ c.y ≤ 0xFF ∧ c.s ≤ 0xFF ∧ c.p ≤ 0xFF) ∧ c.pc ≤ 0xFFFF ∧
    c.p &&& 0x30 = 0x20

instance (c : Core) : Decidable c.Valid := inferInstanceAs (Decidable (_ ∧ _))

/-- What the poll saw of `bit` when that is not what the host has requested. -/
def differs (polled requests bit : ℕ) : Option Bool :=
  let seen := polled &&& bit != 0
  if seen = (requests &&& bit != 0) then none else some seen

/-- `capture_state`: `none` where a field fails the snapshot's own check and `ValueError` is
raised. -/
def CPU.captureState (cpu : CPU) : Option CPUState :=
  let core := cpu.core
  let requests := cpu.poll.requests
  let polled := cpu.poll.polled.getD requests
  if h : core.Valid then
    some {
      a := core.a, x := core.x, y := core.y, s := core.s, pc := core.pc, p := core.p
      halted := core.halted
      resetPending := cpu.poll.resetPending
      maskableInterruptPending := requests &&& irqLine != 0
      nonMaskableInterruptPending := requests &&& nmiLatch != 0
      polledI := core.polledI.map (· != 0)
      polledMaskableInterrupt := differs polled requests irqLine
      polledNonMaskableInterrupt := differs polled requests nmiLatch
      skippedPoll := polled &&& noPoll != 0
      a_le := h.1.1, x_le := h.1.2.1, y_le := h.1.2.2.1, s_le := h.1.2.2.2.1
      p_le := h.1.2.2.2.2, pc_le := h.2.1, p_bits := h.2.2 }
  else none

end SixFiveOhTwo
