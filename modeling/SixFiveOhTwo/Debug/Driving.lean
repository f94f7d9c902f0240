import SixFiveOhTwo.Debug.Evidence
import SixFiveOhTwo.Debug.Wrapping

/-! # Driving a session

What a session does with a processor is what is done on a bare one, step for step, and it has a record of each
step (`Driving`). A session's step keeps that (`Driving.step`), and so does every command of a session
(`Driving.perform`), a run of any length included.
-/

namespace SixFiveOhTwo
open Bits Interaction
set_option autoImplicit false

variable {σ τ : Type}

/-! ## What a command leaves of the wiring -/

theorem SameWiring.refl (session : DebugSession τ) : SameWiring session session := ⟨rfl, rfl⟩

theorem SameWiring.trans {session session' session'' : DebugSession τ} (h : SameWiring session session')
    (h' : SameWiring session' session'') : SameWiring session session'' :=
  ⟨h'.id.trans h.id, h'.originals.trans h.originals⟩

theorem SameWiring.recorded (session : DebugSession τ) (record : StepRecord) :
    SameWiring session (session.recorded record) := ⟨rfl, rfl⟩

theorem SameWiring.addBreakpoint (session : DebugSession τ) (address : ℤ) :
    SameWiring session (session.addBreakpoint address) := by
  unfold DebugSession.addBreakpoint
  split <;> exact ⟨rfl, rfl⟩

theorem SameWiring.removeBreakpoint (session : DebugSession τ) (address : ℤ) :
    SameWiring session (session.removeBreakpoint address) := by
  unfold DebugSession.removeBreakpoint
  split <;> exact ⟨rfl, rfl⟩

theorem SameWiring.addWatchpoint (session : DebugSession τ) (address : ℤ) (kind : Watch) :
    SameWiring session (session.addWatchpoint address kind) := by
  unfold DebugSession.addWatchpoint
  split <;> exact ⟨rfl, rfl⟩

theorem SameWiring.removeWatchpoint (session : DebugSession τ) (address : ℤ) :
    SameWiring session (session.removeWatchpoint address) := by
  unfold DebugSession.removeWatchpoint
  split <;> exact ⟨rfl, rfl⟩

/-! ## A session and a bare machine -/

/-- A session that began as `begun` has done on its machine what was done on a bare one that began as `c`, and
its records are of the steps among that. -/
structure Driving (H : Host σ) (chip : Chip) (begun : DebugSession (Driven σ)) (c : Machine σ)
    (readByte writeByte : Callable) (session : DebugSession (Driven σ)) (d : Driven σ) (records : List StepRecord) :
    Prop where
  wiring : SameWiring begun session
  settled : d.machine.Settled
  fit : d.machine.Fit
  reads : d.machine.cpu.bus.readByte = readByte
  writes : d.machine.cpu.bus.writeByte = writeByte
  bare : d.machine.Bare ((Machine.act H chip).final c d.done)
  shown : d.shown.map Event.observed = ((Machine.act H chip).shown c d.done).map Event.observed
  steps : d.done = List.replicate records.length .step
  records : List.Forall₂ (fun event record => ∃ log, event = .stepped log ∧ record.Evidence begun.tracking log)
    d.shown records

namespace Driving
variable {H : Host σ} {chip : Chip} {begun session : DebugSession (Driven σ)} {c : Machine σ}
  {readByte writeByte : Callable} {d : Driven σ} {records : List StepRecord}

theorem capture (h : Driving H chip begun c readByte writeByte session d records) :
    ∃ state, (Driven.target H chip).captureState d = .ok state := by
  obtain ⟨state, hstate⟩ := Option.isSome_iff_exists.mp (CPU.captureState_isSome h.fit.2)
  exact ⟨state, by simp only [Driven.target, Driven.captureState, hstate]⟩

section
variable (hcount : begun.tracking = true → readByte.count begun.id = 1 ∧ writeByte.count begun.id = 1)
include hcount

theorem step (h : Driving H chip begun c readByte writeByte session d records) :
    ∃ record d', session.step (Driven.target H chip) d = (.ok record, session.recorded record, d') ∧
      Driving H chip begun c readByte writeByte (session.recorded record) d' (records ++ [record]) := by
  have htracking : session.tracking = begun.tracking := h.wiring.tracking
  obtain ⟨record, hstep, hevidence⟩ := Driven.session_step H chip session d h.settled h.fit (by
    rw [htracking, h.reads, h.writes, h.wiring.id]
    exact hcount)
  obtain ⟨hdone, hshown⟩ := d.ready_done session
  have hcpu := d.ready_cpu session
  have hsettled : (d.ready session).machine.Settled := by
    rw [Machine.Settled, hcpu]
    exact h.settled
  have hfit : (d.ready session).machine.Fit := by
    rw [Machine.Fit, hcpu]
    exact h.fit
  have hbare : (d.ready session).machine.Bare ((Machine.act H chip).final c d.done) :=
    ⟨hsettled.1, h.bare.routed', (d.ready_opened session).trans h.bare.opened⟩
  obtain ⟨hobserved, hnext⟩ := hbare.act H chip .step
  obtain ⟨hreads, hwrites⟩ := Machine.act_callables H chip .step hsettled.1
  rw [hcpu] at hreads hwrites
  refine ⟨record, _, hstep, h.wiring.trans (.recorded session record), Machine.act_settled H chip .step _ hsettled,
    Machine.act_fit H chip .step _ hfit, hreads.trans h.reads, hwrites.trans h.writes, ?_, ?_, ?_, ?_⟩
  · rw [Driven.act, hdone, System.final_append]
    exact hnext
  · rw [Driven.act, hdone, hshown, System.shown_append, List.map_append, List.map_append, h.shown]
    exact congrArg (_ ++ [·]) hobserved
  · rw [Driven.act, hdone, h.steps, List.length_append, List.length_singleton, List.replicate_succ']
  · rw [Driven.act, hshown]
    rw [htracking] at hevidence
    exact List.rel_append h.records (.cons ⟨_, rfl, hevidence⟩ .nil)

theorem perform (h : Driving H chip begun c readByte writeByte session d []) (command : SessionCommand) :
    Driving H chip begun c readByte writeByte (command.perform (Driven.target H chip) session d).2.1
      (command.perform (Driven.target H chip) session d).2.2
      (command.perform (Driven.target H chip) session d).1 := by
  cases command with
  | step =>
    obtain ⟨record, d', hstep, hnext⟩ := h.step hcount
    rw [SessionCommand.perform, hstep]
    exact hnext
  | run maxSteps maxCycles stopOnHalt =>
    have hran := DebugSession.run_keeps (J := Driving H chip begun c readByte writeByte) (fun _ _ _ h => h.capture)
      (fun _ _ _ h => h.step hcount) maxSteps maxCycles stopOnHalt h
    exact hran
  | addBreakpoint address => exact { h with wiring := h.wiring.trans (.addBreakpoint session address) }
  | removeBreakpoint address => exact { h with wiring := h.wiring.trans (.removeBreakpoint session address) }
  | addWatchpoint address kind => exact { h with wiring := h.wiring.trans (.addWatchpoint session address kind) }
  | removeWatchpoint address => exact { h with wiring := h.wiring.trans (.removeWatchpoint session address) }
  | clearHistory => exact { h with wiring := h.wiring.trans ⟨rfl, rfl⟩ }

end

end Driving

end SixFiveOhTwo
