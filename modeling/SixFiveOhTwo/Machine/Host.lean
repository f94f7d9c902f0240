import SixFiveOhTwo.Interaction.Rules
import SixFiveOhTwo.Processor.Frame
import SixFiveOhTwo.Processor.Step

/-! # A processor on its host's bus

A host answers each bus access with a value and the calls its callback made on the processor before
it returned; its own state (memory, devices, a script) is any type. `Machine` is a processor with its
host, the host calls made since the step began, and the access logs of the debug sessions attached.
-/

namespace SixFiveOhTwo
open Interaction
set_option autoImplicit false

/-- The host's bus callables, by number: what each returns, the calls it makes on the processor
while it runs, and how it moves the host. -/
structure Host (σ : Type) where
  readByte : (callable address : ℕ) → σ → Byte × List Call × σ
  writeByte : (callable address value : ℕ) → σ → List Call × σ

/-- A flat memory, which calls nothing. -/
def Host.flat : Host (ℕ → Byte) where
  readByte _ address memory := (memory address, [], memory)
  writeByte _ address value memory := ([], Function.update memory address (Fin.ofNat 256 value))

/-- A bus access with its value, as a session records it. -/
inductive Access
  | r (address value : ℕ)
  | w (address value : ℕ)
  deriving DecidableEq, Repr

def Access.address : Access → ℕ
  | r address _ => address
  | w address _ => address

def Access.value : Access → ℕ
  | r _ value => value
  | w _ value => value

/-- An access of a 16-bit address and a byte. -/
def Access.InRange (access : Access) : Prop := access.address ≤ 0xFFFF ∧ access.value ≤ 0xFF

instance (access : Access) : Decidable access.InRange := inferInstanceAs (Decidable (_ ∧ _))

/-- One call of a host callable: which, the access, the calls its callback made, the requests each
`note_stall` among them found, and the requests when it returned. -/
structure HostCall where
  callable : ℕ
  access : Access
  calls : List Call
  stalls : List ℕ
  requests : ℕ
  deriving DecidableEq, Repr

/-- A processor with its host. `trace` holds the host calls since the step began, `logs` each
session's list of accesses. -/
structure Machine (σ : Type) where
  cpu : CPU
  host : σ
  trace : List HostCall := []
  logs : ℕ → List Access := fun _ => []

namespace Machine
variable {σ : Type} (H : Host σ)

/-- A host callable ran: its callback's calls take effect, and the call is on record. -/
def called (m : Machine σ) (callable : ℕ) (access : Access) (calls : List Call) (host : σ) :
    Machine σ :=
  { m with
    cpu := m.cpu.applyCalls calls
    host
    trace := m.trace ++ [{
      callable, access, calls
      stalls := m.cpu.stallsSeen calls
      requests := (m.cpu.applyCalls calls).poll.requests }] }

/-- A session's wrapper appends an access to its list. -/
def log (m : Machine σ) (session : ℕ) (access : Access) : Machine σ :=
  { m with logs := Function.update m.logs session (m.logs session ++ [access]) }

/-- Calling a read callable; a wrapper logs what the callable inside it returned. -/
def callRead (address : ℕ) : Callable → Machine σ → Byte × Machine σ
  | .host id, m =>
    let answer := H.readByte id address m.host
    (answer.1, m.called id (.r address answer.1) answer.2.1 answer.2.2)
  | .tracked session inner, m =>
    let inside := callRead address inner m
    (inside.1, inside.2.log session (.r address inside.1))

/-- Calling a write callable; a wrapper logs the access before it calls the callable inside it. -/
def callWrite (address value : ℕ) : Callable → Machine σ → Machine σ
  | .host id, m =>
    let answer := H.writeByte id address value m.host
    m.called id (.w address value) answer.1 answer.2
  | .tracked session inner, m => callWrite address value inner (m.log session (.w address value))

/-- `self._read(address)`, along the route it has. -/
def busRead (address : ℕ) (m : Machine σ) : Byte × Machine σ :=
  match m.cpu.bus.read with
  | .direct callable => m.callRead H address callable
  | .confirming =>
    let confirmed := { m with cpu := m.cpu.confirm }
    confirmed.callRead H address confirmed.cpu.bus.readByte

/-- `self._write(address, value)`, along the route it has. -/
def busWrite (address value : ℕ) (m : Machine σ) : Machine σ :=
  match m.cpu.bus.write with
  | .direct callable => m.callWrite H address value callable
  | .confirming =>
    let confirmed := { m with cpu := m.cpu.confirm }
    confirmed.callWrite H address value confirmed.cpu.bus.writeByte

/-- What the processor's code asks, answered by the machine. -/
def handle : (op : Op) → Machine σ → op.Ans × Machine σ
  | .read address, m => m.busRead H address
  | .write address value, m => ((), m.busWrite H address value)
  | .core, m => (m.cpu.core, m)
  | .setCore core, m => ((), { m with cpu := { m.cpu with core } })
  | .dmaStalled, m => (m.cpu.dmaStalled, m)
  | .poll, m => (m.cpu.poll, m)
  | .setPoll poll, m => ((), { m with cpu := { m.cpu with poll } })

/-- A run of the processor's code. -/
abbrev exec {α : Type} (code : Code α) (m : Machine σ) : α × Machine σ := code.run (handle H) m

/-- What one `step()` did. -/
structure StepLog where
  kind : BoundaryKind
  cycles : ℕ
  trace : List HostCall
  before : CPU
  after : CPU

/-- `step()`: the trace starts afresh. -/
def step (chip : Chip) (m : Machine σ) : StepLog × Machine σ :=
  let done := exec H (Code.step chip) { m with trace := [] }
  ({ kind := done.1.1, cycles := done.1.2, trace := done.2.trace, before := m.cpu, after := done.2.cpu },
    done.2)

end Machine

end SixFiveOhTwo
