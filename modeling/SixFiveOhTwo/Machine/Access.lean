import SixFiveOhTwo.Machine.Host
import SixFiveOhTwo.Processor.Polls

/-! # Where a bus access leads

A direct route must lead to the callable last assigned (`Bus.Agrees`), and a change of the requests
must be on its way to the confirming wrapper (`CPU.Routed`): the calls keep both. Whatever the route
and however many wrappers are around it, an access calls one host callable, once.
-/

namespace SixFiveOhTwo
open Interaction
set_option autoImplicit false

/-- A direct route leads to the callable last assigned. -/
structure Bus.Agrees (bus : Bus) : Prop where
  read : bus.read = .confirming ∨ bus.read = .direct bus.readByte
  write : bus.write = .confirming ∨ bus.write = .direct bus.writeByte

/-- The routes agree with the callables, and an unconfirmed change is routed through the confirming
wrappers. -/
structure CPU.Routed (cpu : CPU) : Prop where
  agrees : cpu.bus.Agrees
  unconfirmed : cpu.poll.deferred ≠ none → cpu.bus.read = .confirming ∧ cpu.bus.write = .confirming

/-- The host callable at the bottom of a chain of wrappers. -/
def Callable.base : Callable → ℕ
  | host id => id
  | tracked _ inner => inner.base

theorem Bus.Agrees.confirming (bus : Bus) : bus.confirming.Agrees := ⟨.inl rfl, .inl rfl⟩

theorem Bus.Agrees.confirmed (bus : Bus) : bus.confirmed.Agrees := ⟨.inr rfl, .inr rfl⟩

namespace CPU

theorem Routed.confirm (cpu : CPU) : cpu.confirm.Routed :=
  ⟨.confirmed cpu.bus, fun h => absurd rfl h⟩

theorem Routed.request {cpu : CPU} (h : cpu.Routed) (requests : ℕ) : (cpu.request requests).Routed := by
  cases hd : cpu.poll.deferred with
  | none => exact ⟨by simp [CPU.request, hd, Bus.Agrees.confirming], by simp [CPU.request, hd, Bus.confirming]⟩
  | some d =>
    have hc := h.unconfirmed (by simp [hd])
    exact ⟨by simpa [CPU.request, hd] using h.agrees, fun _ => by simpa [CPU.request, hd] using hc⟩

theorem Routed.withPoll {cpu : CPU} (h : cpu.Routed) {poll : Poll}
    (hd : poll.deferred = cpu.poll.deferred) : CPU.Routed { cpu with poll } :=
  ⟨h.agrees, fun hne => h.unconfirmed (hd ▸ hne)⟩

theorem Routed.raise {cpu : CPU} (h : cpu.Routed) (bit : ℕ) : (cpu.raise bit).Routed :=
  (h.request _).withPoll (Poll.see_deferred _ _)

theorem Routed.lower {cpu : CPU} (h : cpu.Routed) (bit : ℕ) : (cpu.lower bit).Routed :=
  (h.request _).withPoll rfl

theorem Routed.noteStall {cpu : CPU} (h : cpu.Routed) : cpu.noteStall.Routed := by
  refine ⟨?_, fun hne => absurd rfl hne⟩
  change (if cpu.poll.deferred.isSome then cpu.bus.confirmed else cpu.bus).Agrees
  split
  · exact .confirmed _
  · exact h.agrees

theorem Routed.apply {cpu : CPU} (h : cpu.Routed) (call : Call) : (call.apply cpu).Routed := by
  cases call with
  | requestMaskableInterrupt => exact h.raise irqLine
  | clearMaskableInterrupt => exact h.lower irqLine
  | requestNonMaskableInterrupt => exact h.raise nmiLatch
  | clearNonMaskableInterrupt => exact h.lower nmiLatch
  | requestReset => exact h.withPoll rfl
  | clearReset => exact h.withPoll rfl
  | noteStall => exact h.noteStall
  | setDmaStalled stalled => exact ⟨h.agrees, h.unconfirmed⟩

theorem Routed.applyCalls {cpu : CPU} (h : cpu.Routed) (calls : List Call) :
    (cpu.applyCalls calls).Routed := by
  induction calls generalizing cpu with
  | nil => exact h
  | cons call calls ih => exact ih (h.apply call)

end CPU

/-! ## Routes -/

/-- The callable a route leads to. -/
def Route.callable (assigned : Callable) : Route → Callable
  | direct callable => callable
  | confirming => assigned

/-- The processor as the callable finds it. -/
def Route.reach (cpu : CPU) : Route → CPU
  | direct _ => cpu
  | confirming => cpu.confirm

@[simp] theorem Route.reach_core (cpu : CPU) (route : Route) : (route.reach cpu).core = cpu.core := by
  cases route <;> rfl

theorem Call.apply_callables (call : Call) (cpu : CPU) :
    (call.apply cpu).bus.readByte = cpu.bus.readByte ∧
      (call.apply cpu).bus.writeByte = cpu.bus.writeByte := by
  have h : ∀ (p : Prop) [Decidable p] (b b' : Bus), b.readByte = b'.readByte → b.writeByte = b'.writeByte →
      (if p then b else b').readByte = b'.readByte ∧ (if p then b else b').writeByte = b'.writeByte := by
    intro p _ b b' hr hw
    split <;> simp [hr, hw]
  cases call <;> first | exact ⟨rfl, rfl⟩ | exact h _ _ _ rfl rfl

theorem CPU.applyCalls_callables (cpu : CPU) (calls : List Call) :
    (cpu.applyCalls calls).bus.readByte = cpu.bus.readByte ∧
      (cpu.applyCalls calls).bus.writeByte = cpu.bus.writeByte := by
  induction calls generalizing cpu with
  | nil => exact ⟨rfl, rfl⟩
  | cons call calls ih =>
    obtain ⟨hr, hw⟩ := Call.apply_callables call cpu
    obtain ⟨hr', hw'⟩ := ih (call.apply cpu)
    exact ⟨hr'.trans hr, hw'.trans hw⟩

namespace Machine
variable {σ : Type} (H : Host σ)

/-- A wrapper around a callable changes nothing but the logs. -/
theorem callRead_eq (address : ℕ) (callable : Callable) (m : Machine σ) :
    ∃ value calls host logs, H.readByte callable.base address m.host = (value, calls, host) ∧
      callRead H address callable m =
        (value, { m.called callable.base (.r address value) calls host with logs }) := by
  induction callable with
  | host id => exact ⟨_, _, _, m.logs, rfl, rfl⟩
  | tracked session inner ih =>
    obtain ⟨value, calls, host, logs, hans, h⟩ := ih
    exact ⟨value, calls, host, _, hans, by rw [callRead, h]; rfl⟩

theorem callWrite_eq (address value : ℕ) (callable : Callable) (m : Machine σ) :
    ∃ calls host logs, H.writeByte callable.base address value m.host = (calls, host) ∧
      callWrite H address value callable m =
        { m.called callable.base (.w address value) calls host with logs } := by
  induction callable generalizing m with
  | host id => exact ⟨_, _, m.logs, rfl, rfl⟩
  | tracked session inner ih => exact ih (m.log session (.w address value))

/-- A read calls one host callable, once, and returns what it returned. -/
theorem busRead_eq (address : ℕ) (m : Machine σ) :
    ∃ callable value calls host logs, callable = m.cpu.bus.read.callable m.cpu.bus.readByte ∧
      H.readByte callable.base address m.host = (value, calls, host) ∧
      m.busRead H address =
        (value, { ({ m with cpu := m.cpu.bus.read.reach m.cpu } : Machine σ).called callable.base
            (.r address value) calls host with logs }) := by
  unfold busRead
  cases m.cpu.bus.read with
  | direct callable =>
    obtain ⟨value, calls, host, logs, hans, h⟩ := callRead_eq H address callable m
    exact ⟨callable, value, calls, host, logs, rfl, hans, h⟩
  | confirming =>
    obtain ⟨value, calls, host, logs, hans, h⟩ :=
      callRead_eq H address m.cpu.bus.readByte { m with cpu := m.cpu.confirm }
    exact ⟨m.cpu.bus.readByte, value, calls, host, logs, rfl, hans, h⟩

theorem busWrite_eq (address value : ℕ) (m : Machine σ) :
    ∃ callable calls host logs, callable = m.cpu.bus.write.callable m.cpu.bus.writeByte ∧
      H.writeByte callable.base address value m.host = (calls, host) ∧
      m.busWrite H address value =
        { ({ m with cpu := m.cpu.bus.write.reach m.cpu } : Machine σ).called callable.base
            (.w address value) calls host with logs } := by
  unfold busWrite
  cases m.cpu.bus.write with
  | direct callable =>
    obtain ⟨calls, host, logs, hans, h⟩ := callWrite_eq H address value callable m
    exact ⟨callable, calls, host, logs, rfl, hans, h⟩
  | confirming =>
    obtain ⟨calls, host, logs, hans, h⟩ :=
      callWrite_eq H address value m.cpu.bus.writeByte { m with cpu := m.cpu.confirm }
    exact ⟨m.cpu.bus.writeByte, calls, host, logs, rfl, hans, h⟩

end Machine

end SixFiveOhTwo
