import SixFiveOhTwo.Interaction.Runs
import SixFiveOhTwo.Machine.Boundary

/-! # Runs: what a host does with a processor

Between two steps a host makes calls, or moves its own state; `Action` is that. `HostAction` adds what
may assign more of the processor: the bus callables, a snapshot to restore, and the `set` command of
the command debugger (`console.py`). A run is a sequence of actions; each shows an event.
-/

namespace SixFiveOhTwo
open Bits Interaction
set_option autoImplicit false

/-! ## The `set` command -/

/-- The registers `set` accepts. -/
inductive Register
  | a | x | y | s | pc | p
  deriving DecidableEq, Repr

/-- The largest value of a register (`_REGISTERS`). -/
def Register.maximum : Register → ℕ
  | pc => 0xFFFF
  | _ => 0xFF

/-- `_number`: `parsed` is what `int` makes of the text, `none` where it raises `ValueError`; the
result is `none` where `CommandError` is raised. -/
def number (parsed : Option ℤ) (maximum : ℕ) : Option ℕ :=
  parsed.bind fun value => if value < 0 ∨ maximum < value then none else some value.toNat

/-- `set_register`: bit 5 of P reads as 1, and B is not a flip-flop. -/
def CPU.setRegister (cpu : CPU) (value : ℕ) : Register → CPU
  | .a => { cpu with core := { cpu.core with a := value } }
  | .x => { cpu with core := { cpu.core with x := value } }
  | .y => { cpu with core := { cpu.core with y := value } }
  | .s => { cpu with core := { cpu.core with s := value } }
  | .pc => { cpu with core := { cpu.core with pc := value } }
  | .p => { cpu with core := { cpu.core with p := without (value ||| 0x20) 0x10 } }

/-- `_set`: a command that fails changes nothing. -/
def CPU.set (cpu : CPU) (register : Register) (parsed : Option ℤ) : CPU :=
  ((number parsed register.maximum).map (cpu.setRegister · register)).getD cpu

/-! ## Actions -/

/-- What a host does: a call on the processor, a move of its own, or a step. -/
inductive Action (σ : Type)
  | call (call : Call)
  | host (move : σ → σ)
  | step

/-- What a host or its debugger does. -/
inductive HostAction (σ : Type)
  | act (action : Action σ)
  | readByte (callable : Callable)
  | writeByte (callable : Callable)
  | restore (state : CPUState)
  | set (register : Register) (parsed : Option ℤ)

/-- What an action shows. -/
inductive Event
  | called (call : Call)
  | moved
  | stepped (log : Machine.StepLog)

/-- What a host that captures before and after it can tell of a step. -/
structure Observed where
  kind : BoundaryKind
  cycles : ℕ
  trace : List HostCall
  before : Option CPUState
  after : Option CPUState

def Machine.StepLog.observed (log : StepLog) : Observed where
  kind := log.kind
  cycles := log.cycles
  trace := log.trace
  before := log.before.captureState
  after := log.after.captureState

/-- What a host can tell of an event: of the steps alone. -/
def Event.observed : Event → Option Observed
  | stepped log => some log.observed
  | _ => none

namespace Machine
variable {σ : Type} (H : Host σ) (chip : Chip)

/-- A constructed processor with its host. -/
def start (readByte writeByte : Callable) (host : σ) : Machine σ where
  cpu := .init readByte writeByte
  host

/-- A processor on which a snapshot was restored, with its host. -/
def restored (readByte writeByte : Callable) (state : CPUState) (host : σ) : Machine σ where
  cpu := (CPU.init readByte writeByte).restoreState state
  host

/-- The effect of an action. -/
def act : System (Action σ) (Machine σ) Event
  | .call call, m => (.called call, { m with cpu := call.apply m.cpu })
  | .host move, m => (.moved, { m with host := move m.host })
  | .step, m => (.stepped (m.step H chip).1, (m.step H chip).2)

/-- The effect of a host's or its debugger's action. -/
def hostAct : System (HostAction σ) (Machine σ) Event
  | .act action, m => act H chip action m
  | .readByte callable, m => (.moved, { m with cpu := m.cpu.setReadByte callable })
  | .writeByte callable, m => (.moved, { m with cpu := m.cpu.setWriteByte callable })
  | .restore state, m => (.moved, { m with cpu := m.cpu.restoreState state })
  | .set register parsed, m => (.moved, { m with cpu := m.cpu.set register parsed })

end Machine

/-! ## Every action keeps the routing -/

namespace CPU

theorem Routed.init (readByte writeByte : Callable) : (CPU.init readByte writeByte).Routed :=
  ⟨⟨.inr rfl, .inr rfl⟩, fun hne => absurd rfl hne⟩

theorem Routed.setReadByte {cpu : CPU} (h : cpu.Routed) (callable : Callable) :
    (cpu.setReadByte callable).Routed := by
  cases hd : cpu.poll.deferred with
  | none => exact ⟨⟨by simp [CPU.setReadByte, hd], h.agrees.write⟩, fun hne => absurd hd hne⟩
  | some d =>
    have hc := h.unconfirmed (by simp [hd])
    refine ⟨⟨.inl ?_, h.agrees.write⟩, fun _ => ⟨?_, hc.2⟩⟩ <;> simpa [CPU.setReadByte, hd] using hc.1

theorem Routed.setWriteByte {cpu : CPU} (h : cpu.Routed) (callable : Callable) :
    (cpu.setWriteByte callable).Routed := by
  cases hd : cpu.poll.deferred with
  | none => exact ⟨⟨h.agrees.read, by simp [CPU.setWriteByte, hd]⟩, fun hne => absurd hd hne⟩
  | some d =>
    have hc := h.unconfirmed (by simp [hd])
    refine ⟨⟨h.agrees.read, .inl ?_⟩, fun _ => ⟨hc.1, ?_⟩⟩ <;> simpa [CPU.setWriteByte, hd] using hc.2

theorem Routed.restoreState (cpu : CPU) (state : CPUState) : (cpu.restoreState state).Routed :=
  .confirm _

theorem Routed.set {cpu : CPU} (h : cpu.Routed) (register : Register) (parsed : Option ℤ) :
    (cpu.set register parsed).Routed := by
  unfold CPU.set
  cases number parsed register.maximum with
  | none => exact h
  | some value => cases register <;> exact ⟨h.agrees, h.unconfirmed⟩

end CPU

namespace Machine
variable {σ : Type} (H : Host σ) (chip : Chip)

/-- The plain machine before its step begins. -/
def opened (m : Machine σ) : Plain σ := { m.plain with trace := [] }

theorem opened_call (call : Call) (m : Machine σ) :
    (act H chip (.call call) m).2.opened =
      { m.opened with poll := call.onPoll m.cpu.poll, dmaStalled := call.onStalled m.cpu.dmaStalled } := by
  obtain ⟨hread, hwrite⟩ := Call.apply_callables call m.cpu
  have hstalled : (call.apply m.cpu).dmaStalled = call.onStalled m.cpu.dmaStalled := by cases call <;> rfl
  simp only [act, opened, plain, Call.apply_core, Call.apply_poll, hread, hwrite, hstalled]

/-- The run of a step on the plain machine. -/
abbrev stepRun (m : Machine σ) : (BoundaryKind × ℕ) × Plain σ :=
  Plain.exec H (Code.step chip) m.opened

theorem step_plain {m : Machine σ} (hr : m.cpu.Routed) :
    (m.step H chip).1.kind = (stepRun H chip m).1.1 ∧ (m.step H chip).1.cycles = (stepRun H chip m).1.2 ∧
      (m.step H chip).1.trace = (stepRun H chip m).2.trace ∧
      (m.step H chip).2.plain = (stepRun H chip m).2 ∧ (m.step H chip).2.cpu.Routed := by
  obtain ⟨hans, hrouted, hplain⟩ := wired_step (H := H) chip { m with trace := [] } m.opened ⟨hr, rfl⟩
  refine ⟨congrArg Prod.fst hans, congrArg Prod.snd hans, ?_, hplain, hrouted⟩
  exact congrArg Plain.trace hplain

theorem act_routed (action : Action σ) {m : Machine σ} (hr : m.cpu.Routed) :
    (act H chip action m).2.cpu.Routed := by
  cases action with
  | call call => exact hr.apply call
  | host move => exact hr
  | step => exact (step_plain H chip hr).2.2.2.2

theorem hostAct_routed (action : HostAction σ) {m : Machine σ} (hr : m.cpu.Routed) :
    (hostAct H chip action m).2.cpu.Routed := by
  cases action with
  | act action => exact act_routed H chip action hr
  | readByte callable => exact hr.setReadByte callable
  | writeByte callable => exact hr.setWriteByte callable
  | restore state => exact .restoreState _ _
  | set register parsed => exact hr.set register parsed

end Machine

end SixFiveOhTwo
