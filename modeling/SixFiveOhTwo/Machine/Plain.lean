import SixFiveOhTwo.Machine.Access

/-! # The machine without its wiring

The routes, the wrappers of debug sessions and their logs decide nothing: a machine behaves as one
whose every access confirms and goes straight to the host's callable. `Plain` is that machine, and
`wired_step` the simulation: a step of a routed processor is the step of its plain machine, and
leaves the processor routed.
-/

namespace SixFiveOhTwo
open Bits Interaction
set_option autoImplicit false

/-- A processor with its host, every access confirmed. -/
structure Plain (σ : Type) where
  core : Core
  poll : Poll
  dmaStalled : Bool
  host : σ
  trace : List HostCall
  readByte : ℕ
  writeByte : ℕ

/-- The effect of a call on `dma_stalled`. -/
def Call.onStalled : Call → Bool → Bool
  | setDmaStalled stalled, _ => stalled
  | _, stalled => stalled

theorem CPU.applyCalls_dmaStalled (cpu : CPU) (calls : List Call) :
    (cpu.applyCalls calls).dmaStalled =
      calls.foldl (fun stalled call => call.onStalled stalled) cpu.dmaStalled := by
  induction calls generalizing cpu with
  | nil => rfl
  | cons call calls ih => exact (ih (call.apply cpu)).trans (by cases call <;> rfl)

/-- The record of a host call that begins on this poll. -/
def Poll.record (p : Poll) (callable : ℕ) (access : Access) (calls : List Call) : HostCall where
  callable
  access
  calls
  stalls := p.confirm.stallsSeen calls
  requests := (p.access calls).requests

namespace Plain
variable {σ : Type} (H : Host σ)

/-- One access: it confirms, the callback makes its calls, and the host call is on record. -/
def called (q : Plain σ) (callable : ℕ) (access : Access) (calls : List Call) (host : σ) : Plain σ :=
  { q with
    poll := q.poll.access calls
    dmaStalled := calls.foldl (fun stalled call => call.onStalled stalled) q.dmaStalled
    host
    trace := q.trace ++ [q.poll.record callable access calls] }

/-- What the processor's code asks, answered without routes. -/
def handle : (op : Op) → Plain σ → op.Ans × Plain σ
  | .read address, q =>
    let answer := H.readByte q.readByte address q.host
    (answer.1, q.called q.readByte (.r address answer.1) answer.2.1 answer.2.2)
  | .write address value, q =>
    let answer := H.writeByte q.writeByte address value q.host
    ((), q.called q.writeByte (.w address value) answer.1 answer.2)
  | .core, q => (q.core, q)
  | .setCore core, q => ((), { q with core })
  | .dmaStalled, q => (q.dmaStalled, q)
  | .poll, q => (q.poll, q)
  | .setPoll poll, q => ((), { q with poll })

/-- A run of the processor's code. -/
abbrev exec {α : Type} (code : Code α) (q : Plain σ) : α × Plain σ := code.run (handle H) q

end Plain

/-! ## A machine behaves as its plain machine -/

namespace Machine
variable {σ : Type} (H : Host σ)

/-- A machine without its wiring. -/
def plain (m : Machine σ) : Plain σ where
  core := m.cpu.core
  poll := m.cpu.poll
  dmaStalled := m.cpu.dmaStalled
  host := m.host
  trace := m.trace
  readByte := m.cpu.bus.readByte.base
  writeByte := m.cpu.bus.writeByte.base

/-- A routed machine, and what is left of it. -/
def Wired (m : Machine σ) (q : Plain σ) : Prop := m.cpu.Routed ∧ m.plain = q

/-- A machine whose step makes no further access before it settles. -/
def Settling (m : Machine σ) (q : Plain σ) : Prop := m.cpu.bus.Agrees ∧ m.plain = q

theorem Wired.settling {m : Machine σ} {q : Plain σ} (h : Wired m q) : Settling m q :=
  ⟨h.1.agrees, h.2⟩

/-- A route of a routed processor leads to the callable assigned, with nothing unconfirmed left. -/
theorem wired_called {m : Machine σ} (hr : m.cpu.Routed) {route : Route} {assigned : Callable}
    (hroute : route = .confirming ∨ route = .direct assigned ∧ m.cpu.poll.deferred = none)
    (access : Access) (calls : List Call) (host : σ) (logs : ℕ → List Access) :
    Wired { ({ m with cpu := route.reach m.cpu } : Machine σ).called (route.callable assigned).base access
        calls host with logs } (m.plain.called assigned.base access calls host) := by
  have hreach : (route.reach m.cpu).Routed ∧ (route.reach m.cpu).poll = m.cpu.poll.confirm ∧
      (route.reach m.cpu).bus.readByte = m.cpu.bus.readByte ∧
      (route.reach m.cpu).bus.writeByte = m.cpu.bus.writeByte ∧
      (route.reach m.cpu).dmaStalled = m.cpu.dmaStalled ∧ route.callable assigned = assigned := by
    rcases hroute with rfl | ⟨rfl, hd⟩
    · exact ⟨.confirm _, rfl, rfl, rfl, rfl, rfl⟩
    · exact ⟨hr, by rw [Poll.confirm, ← hd]; rfl, rfl, rfl, rfl, rfl⟩
  obtain ⟨hrouted, hpoll, hread, hwrite, hstalled, hcallable⟩ := hreach
  have happly : ((route.reach m.cpu).applyCalls calls).poll = m.cpu.poll.access calls := by
    rw [CPU.applyCalls_poll, hpoll, Poll.access]
  obtain ⟨hcr, hcw⟩ := CPU.applyCalls_callables (route.reach m.cpu) calls
  refine ⟨hrouted.applyCalls calls, ?_⟩
  simp only [plain, called, Plain.called, happly, hcr, hcw, hread, hwrite, hcallable, CPU.applyCalls_core,
    Route.reach_core, CPU.applyCalls_dmaStalled, hstalled, CPU.stallsSeen_eq, hpoll, Poll.record]

/-- Operations that leave what is unconfirmed alone. -/
def Calm : Op → Prop
  | .setPoll _ => False
  | _ => True

/-- A routed machine simulates its plain machine. -/
theorem wired_simulates : Tree.Simulates Calm (handle H) (Plain.handle H) Wired := by
  rintro op m _ hop ⟨hr, rfl⟩
  cases op with
  | read address =>
    obtain ⟨_, value, calls, host, logs, rfl, hans, h⟩ := busRead_eq H address m
    have hroute : m.cpu.bus.read = .confirming ∨
        m.cpu.bus.read = .direct m.cpu.bus.readByte ∧ m.cpu.poll.deferred = none := by
      refine hr.agrees.read.imp_right fun hc => ⟨hc, ?_⟩
      by_contra hne
      exact absurd ((hr.unconfirmed hne).1.symm.trans hc) (by simp)
    have hbase : (m.cpu.bus.read.callable m.cpu.bus.readByte).base = m.cpu.bus.readByte.base := by
      rcases hroute with hc | ⟨hc, -⟩ <;> rw [hc] <;> rfl
    rw [hbase] at hans
    simp only [handle, Plain.handle, plain, h, hans]
    exact ⟨trivial, wired_called hr hroute _ _ _ _⟩
  | write address value =>
    obtain ⟨_, calls, host, logs, rfl, hans, h⟩ := busWrite_eq H address value m
    have hroute : m.cpu.bus.write = .confirming ∨
        m.cpu.bus.write = .direct m.cpu.bus.writeByte ∧ m.cpu.poll.deferred = none := by
      refine hr.agrees.write.imp_right fun hc => ⟨hc, ?_⟩
      by_contra hne
      exact absurd ((hr.unconfirmed hne).2.symm.trans hc) (by simp)
    have hbase : (m.cpu.bus.write.callable m.cpu.bus.writeByte).base = m.cpu.bus.writeByte.base := by
      rcases hroute with hc | ⟨hc, -⟩ <;> rw [hc] <;> rfl
    rw [hbase] at hans
    simp only [handle, Plain.handle, plain, h, hans]
    exact ⟨trivial, wired_called hr hroute _ _ _ _⟩
  | core => exact ⟨rfl, hr, rfl⟩
  | setCore core => exact ⟨rfl, ⟨hr.agrees, hr.unconfirmed⟩, rfl⟩
  | dmaStalled => exact ⟨rfl, hr, rfl⟩
  | poll => exact ⟨rfl, hr, rfl⟩
  | setPoll poll => exact hop.elim

end Machine

end SixFiveOhTwo
