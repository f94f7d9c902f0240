import SixFiveOhTwo.Accounting.Bus
import SixFiveOhTwo.Interaction.Faults

/-! # Bus callbacks that raise

A host's callback may raise an exception, which leaves `step()` at that access: the calls it made and the
moves of its state stay, and so does all that the processor's code has assigned by then.
-/

namespace SixFiveOhTwo
open Interaction
set_option autoImplicit false

/-- The host's bus callables, where each may raise: `none` for a read, `false` for a write. -/
structure RaisingHost (σ : Type) where
  readByte : (callable address : ℕ) → σ → Option Byte × List Call × σ
  writeByte : (callable address value : ℕ) → σ → Bool × List Call × σ

namespace Machine
variable {σ : Type} (H : RaisingHost σ)

/-- What a callback did that raised. -/
def raised (m : Machine σ) (calls : List Call) (host : σ) : Machine σ :=
  { m with cpu := m.cpu.applyCalls calls, host }

/-- Calling a read callable; a wrapper logs what the callable inside it returned. -/
def callRaisingRead (address : ℕ) : Callable → Machine σ → Option Byte × Machine σ
  | .host id, m =>
    let answer := H.readByte id address m.host
    match answer.1 with
    | some value => (some value, m.called id (.r address value) answer.2.1 answer.2.2)
    | none => (none, m.raised answer.2.1 answer.2.2)
  | .tracked session inner, m =>
    match callRaisingRead address inner m with
    | (some value, m) => (some value, m.log session (.r address value))
    | (none, m) => (none, m)

/-- Calling a write callable; a wrapper logs the access before it calls the callable inside it. -/
def callRaisingWrite (address value : ℕ) : Callable → Machine σ → Option Unit × Machine σ
  | .host id, m =>
    let answer := H.writeByte id address value m.host
    if answer.1 then (some (), m.called id (.w address value) answer.2.1 answer.2.2)
    else (none, m.raised answer.2.1 answer.2.2)
  | .tracked session inner, m => callRaisingWrite address value inner (m.log session (.w address value))

/-- `self._read(address)`, along the route it has. -/
def busRaisingRead (address : ℕ) (m : Machine σ) : Option Byte × Machine σ :=
  match m.cpu.bus.read with
  | .direct callable => m.callRaisingRead H address callable
  | .confirming =>
    let confirmed := { m with cpu := m.cpu.confirm }
    confirmed.callRaisingRead H address confirmed.cpu.bus.readByte

/-- `self._write(address, value)`, along the route it has. -/
def busRaisingWrite (address value : ℕ) (m : Machine σ) : Option Unit × Machine σ :=
  match m.cpu.bus.write with
  | .direct callable => m.callRaisingWrite H address value callable
  | .confirming =>
    let confirmed := { m with cpu := m.cpu.confirm }
    confirmed.callRaisingWrite H address value confirmed.cpu.bus.writeByte

/-- What the processor's code asks, answered by the machine, or not where the host raises. -/
def handleRaising : (op : Op) → Machine σ → Option op.Ans × Machine σ
  | .read address, m => m.busRaisingRead H address
  | .write address value, m => m.busRaisingWrite H address value
  | .core, m => (some m.cpu.core, m)
  | .setCore core, m => (some (), { m with cpu := { m.cpu with core } })
  | .dmaStalled, m => (some m.cpu.dmaStalled, m)
  | .poll, m => (some m.cpu.poll, m)
  | .setPoll poll, m => (some (), { m with cpu := { m.cpu with poll } })

/-- What a `step()` did that an exception left. -/
structure AbortLog where
  before : CPU
  trace : List HostCall
  after : CPU

/-- What a `step()` did, whether it returned or an exception left it. -/
inductive Attempt
  | stepped (log : StepLog)
  | aborted (log : AbortLog)

/-- `step()`, of which a callback may raise. -/
def attemptStep (chip : Chip) (m : Machine σ) : Attempt × Machine σ :=
  match (Code.step chip).attempt (handleRaising H) { m with trace := [] } with
  | (some (kind, cycles), done) =>
    (.stepped { kind, cycles, trace := done.trace, before := m.cpu, after := done.cpu }, done)
  | (none, done) => (.aborted { before := m.cpu, trace := done.trace, after := done.cpu }, done)

/-! ## Runs -/

/-- What an action of a run shows. -/
inductive RaisingEvent
  | moved
  | attempted (attempt : Attempt)

/-- The effect of a host's or its debugger's action, where its callbacks may raise in a step. -/
def raisingAct (chip : Chip) : System (HostAction σ) (Machine σ) RaisingEvent
  | .act .step, m => (.attempted (m.attemptStep H chip).1, (m.attemptStep H chip).2)
  | .act (.call call), m => (.moved, { m with cpu := call.apply m.cpu })
  | .act (.host move), m => (.moved, { m with host := move m.host })
  | .readByte callable, m => (.moved, { m with cpu := m.cpu.setReadByte callable })
  | .writeByte callable, m => (.moved, { m with cpu := m.cpu.setWriteByte callable })
  | .restore state, m => (.moved, { m with cpu := m.cpu.restoreState state })
  | .set register parsed, m => (.moved, { m with cpu := m.cpu.set register parsed })

end Machine

/-! ## What is seen of a step -/

namespace Machine
variable {σ : Type} (H : RaisingHost σ)

/-- What is seen of a machine. -/
def seen (m : Machine σ) : Sight := { core := m.cpu.core, trace := m.trace.map HostCall.access }

theorem seen_called (m : Machine σ) (callable : ℕ) (access : Access) (calls : List Call) (host : σ) :
    (m.called callable access calls host).seen = m.seen.saw access := by
  simp [seen, called, Sight.saw]

theorem seen_raised (m : Machine σ) (calls : List Call) (host : σ) : (m.raised calls host).seen = m.seen := by
  simp [seen, raised]

theorem callRaisingRead_seen (address : ℕ) (callable : Callable) (m : Machine σ) :
    (∀ value m', callRaisingRead H address callable m = (some value, m') → m'.seen = m.seen.saw (.r address value.val)) ∧
      ∀ m', callRaisingRead H address callable m = (none, m') → m'.seen = m.seen := by
  induction callable with
  | host id =>
    rw [callRaisingRead]
    cases hanswer : (H.readByte id address m.host).1 with
    | none =>
      refine ⟨fun _ _ h => (nomatch congrArg Prod.fst h), fun m' h => ?_⟩
      cases h
      exact m.seen_raised _ _
    | some value =>
      refine ⟨fun value' m' h => ?_, fun _ h => nomatch congrArg Prod.fst h⟩
      cases h
      exact m.seen_called _ _ _ _
  | tracked session inner ih =>
    rw [callRaisingRead]
    cases hinner : callRaisingRead H address inner m with
    | mk answer m₁ =>
      cases answer with
      | none =>
        refine ⟨fun _ _ h => (nomatch congrArg Prod.fst h), fun m' h => ?_⟩
        cases h
        exact ih.2 _ hinner
      | some value =>
        refine ⟨fun value' m' h => ?_, fun _ h => nomatch congrArg Prod.fst h⟩
        cases h
        exact ih.1 value m₁ hinner

theorem callRaisingWrite_seen (address value : ℕ) (callable : Callable) (m : Machine σ) :
    (∀ answer m', callRaisingWrite H address value callable m = (some answer, m') →
        m'.seen = m.seen.saw (.w address value)) ∧
      ∀ m', callRaisingWrite H address value callable m = (none, m') → m'.seen = m.seen := by
  induction callable generalizing m with
  | host id =>
    rw [callRaisingWrite]
    cases hanswer : (H.writeByte id address value m.host).1 with
    | false =>
      refine ⟨fun _ _ h => (nomatch congrArg Prod.fst h), fun m' h => ?_⟩
      cases h
      exact m.seen_raised _ _
    | true =>
      refine ⟨fun answer m' h => ?_, fun _ h => nomatch congrArg Prod.fst h⟩
      cases h
      exact m.seen_called _ _ _ _
  | tracked session inner ih => exact ih (m.log session (.w address value))

/-- What the processor's own registers and accesses do, a raising host does not change. -/
theorem handleRaising_within : Tree.AnswersWithin (handleRaising H) seen sight := by
  intro op m
  cases op with
  | read address =>
    change (∀ value m', busRaisingRead H address m = _ → _) ∧ ∀ m', busRaisingRead H address m = _ → _
    rw [busRaisingRead]
    cases m.cpu.bus.read with
    | direct callable => exact callRaisingRead_seen H address callable m
    | confirming => exact callRaisingRead_seen H address m.cpu.bus.readByte { m with cpu := m.cpu.confirm }
  | write address value =>
    change (∀ answer m', busRaisingWrite H address value m = _ → _) ∧ ∀ m', busRaisingWrite H address value m = _ → _
    rw [busRaisingWrite]
    cases m.cpu.bus.write with
    | direct callable => exact callRaisingWrite_seen H address value callable m
    | confirming => exact callRaisingWrite_seen H address value m.cpu.bus.writeByte { m with cpu := m.cpu.confirm }
  | core | setCore core | dmaStalled | poll | setPoll poll =>
    refine ⟨fun answer m' h => ?_, fun _ h => nomatch congrArg Prod.fst h⟩
    cases h
    first | rfl | exact ⟨rfl, rfl⟩

end Machine

end SixFiveOhTwo
