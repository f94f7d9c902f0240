import SixFiveOhTwo.Debug.Bench
import SixFiveOhTwo.Debug.Tracking
import SixFiveOhTwo.Ranges.Runs

/-! # A session's record and the step it is of

A session's step of a processor that fits raises nothing: it is the processor's own step, and its record is
evidence of it (`Driving.step`). `Driving` ties a session, the machine under it and its records to a bare
machine on which the same was done; a run keeps it.
-/

namespace SixFiveOhTwo
open Bits Interaction
set_option autoImplicit false

/-! ## A machine and a bare one -/

namespace Machine
variable {σ : Type} (H : Host σ) (chip : Chip)

/-- Two machines equal but for their wiring. -/
structure Bare (m c : Machine σ) : Prop where
  routed : m.cpu.Routed
  routed' : c.cpu.Routed
  opened : m.opened = c.opened

variable {m c : Machine σ}

theorem Bare.refl (h : m.cpu.Routed) : m.Bare m := ⟨h, h, rfl⟩

theorem Bare.captureState (h : m.Bare c) : m.cpu.captureState = c.cpu.captureState := by
  have hcore : m.cpu.core = c.cpu.core := congrArg Plain.core h.opened
  have hpoll : m.cpu.poll = c.cpu.poll := congrArg Plain.poll h.opened
  simp only [CPU.captureState, hcore, hpoll]

theorem opened_step (hr : m.cpu.Routed) :
    (act H chip .step m).2.opened = { (stepRun H chip m).2 with trace := [] } := by
  obtain ⟨-, -, -, hplain, -⟩ := step_plain H chip hr
  exact congrArg (fun q : Plain σ => { q with trace := [] }) hplain

/-- What is done on both shows the same, and leaves them so. -/
theorem Bare.act (h : m.Bare c) (action : Action σ) :
    (Machine.act H chip action m).1.observed = (Machine.act H chip action c).1.observed ∧
      (Machine.act H chip action m).2.Bare (Machine.act H chip action c).2 := by
  have hr := act_routed H chip action h.routed
  have hr' := act_routed H chip action h.routed'
  cases action with
  | call call =>
    refine ⟨rfl, hr, hr', ?_⟩
    have hpoll : m.cpu.poll = c.cpu.poll := congrArg Plain.poll h.opened
    have hstalled : m.cpu.dmaStalled = c.cpu.dmaStalled := congrArg Plain.dmaStalled h.opened
    rw [opened_call, opened_call, h.opened, hpoll, hstalled]
  | host move => exact ⟨rfl, hr, hr', congrArg (fun q : Plain σ => { q with host := move q.host }) h.opened⟩
  | step =>
    have hend : (m.step H chip).2.Bare (c.step H chip).2 := by
      refine ⟨hr, hr', ?_⟩
      have hopened := (opened_step H chip h.routed).trans (?_ : _ = _) |>.trans (opened_step H chip h.routed').symm
      · exact hopened
      · rw [stepRun, stepRun, h.opened]
    obtain ⟨hkind, hcycles, htrace, -, -⟩ := step_plain H chip h.routed
    obtain ⟨hkind', hcycles', htrace', -, -⟩ := step_plain H chip h.routed'
    have hbefore : (m.step H chip).1.before.captureState = (c.step H chip).1.before.captureState := h.captureState
    have hafter : (m.step H chip).1.after.captureState = (c.step H chip).1.after.captureState := hend.captureState
    refine ⟨congrArg some ?_, hend⟩
    rw [StepLog.observed, StepLog.observed, hbefore, hafter, hkind, hkind', hcycles, hcycles', htrace, htrace',
      stepRun, stepRun, h.opened]

end Machine

/-! ## Evidence -/

/-- A record is of a step: what was captured around it, its cycles, and its host calls if it was tracked. -/
structure StepRecord.Evidence (tracked : Bool) (record : StepRecord) (log : Machine.StepLog) : Prop where
  before : log.before.captureState = some record.before
  after : log.after.captureState = some record.after
  kind : record.kind = nextBoundary record.before
  cycles : record.cycles = log.cycles
  accesses : record.accesses = if tracked then some (log.trace.map HostCall.access) else none
  counted : log.cycles = log.trace.length
  work : log.kind.Work log.before.core (log.trace.map HostCall.access)

theorem BoundaryKind.Work.ne_nil {kind : BoundaryKind} {c : Core} {t : List Access} (h : kind.Work c t) : t ≠ [] := by
  rintro rfl
  cases kind with
  | instruction =>
    obtain ⟨opcode, t', ht, -⟩ := h
    cases ht
  | irq => rcases h with h | h <;> cases h
  | reset | jamIdle | nmi => cases h

namespace Driven
variable {σ : Type} (H : Host σ) (chip : Chip)

/-- The target as a session's step finds it, its list empty if it tracks. -/
def ready (session : DebugSession (Driven σ)) (d : Driven σ) : Driven σ :=
  if session.tracking then d.clear session.id else d

theorem ready_cpu (session : DebugSession (Driven σ)) (d : Driven σ) :
    (d.ready session).machine.cpu = d.machine.cpu := by
  unfold ready
  split <;> rfl

theorem ready_opened (session : DebugSession (Driven σ)) (d : Driven σ) :
    (d.ready session).machine.opened = d.machine.opened := by
  unfold ready
  split <;> rfl

theorem ready_done (session : DebugSession (Driven σ)) (d : Driven σ) :
    (d.ready session).done = d.done ∧ (d.ready session).shown = d.shown := by
  unfold ready
  split <;> exact ⟨rfl, rfl⟩

end Driven

namespace Driven
variable {σ : Type} (H : Host σ) (chip : Chip) (session : DebugSession (Driven σ)) (d : Driven σ)
  (hsettled : d.machine.Settled) (hfit : d.machine.Fit)
include hsettled hfit

/-- A session's step of a processor that fits is the processor's step, and raises nothing. -/
theorem session_returns :
    ∃ record, session.step (target H chip) d =
        (.ok record, session.recorded record, (d.ready session).act H chip .step) ∧
      ((d.ready session).machine.step H chip).1.before.captureState = some record.before ∧
      ((d.ready session).machine.step H chip).1.after.captureState = some record.after ∧
      record.kind = nextBoundary record.before ∧
      record.cycles = ((d.ready session).machine.step H chip).1.cycles ∧
      record.accesses = if session.tracking then some (((d.ready session).machine.step H chip).2.logs session.id)
        else none := by
  have hcpu := d.ready_cpu session
  have hsettled' : (d.ready session).machine.Settled := by
    rw [Machine.Settled, hcpu]
    exact hsettled
  have hfit' : (d.ready session).machine.Fit := by
    rw [Machine.Fit, hcpu]
    exact hfit
  obtain ⟨hend, hrange⟩ := Machine.step_fit H chip hfit'
  obtain ⟨before, hbefore⟩ := Option.isSome_iff_exists.mp (CPU.captureState_isSome hfit.2)
  obtain ⟨after, hafter⟩ := Option.isSome_iff_exists.mp (CPU.captureState_isSome hend.2)
  obtain ⟨instruction, hdecode, hlifecycle⟩ := session.decode_ok d before
  have hpos : 0 < ((d.ready session).machine.step H chip).1.cycles := by
    have hne := (Machine.step_kind H chip hsettled'.1 hsettled'.2).2.ne_nil
    rw [Machine.step_counted H chip hsettled', List.length_pos_iff]
    exact fun hnil => hne (by rw [hnil]; rfl)
  have hvalid : ∀ access ∈ (if session.tracking then
      some (((d.ready session).machine.step H chip).2.logs session.id) else none).getD [], access.InRange := by
    cases htracking : session.tracking with
    | false => exact fun access hmem => by cases hmem
    | true =>
      have hempty : (d.ready session).machine.logs session.id = [] := by
        rw [ready, if_pos htracking]
        exact Function.update_self ..
      intro access hmem
      have hlogged := Machine.step_logged H chip session.id (d.ready session).machine access hmem
      rw [hempty] at hlogged
      obtain ⟨call, hcall, rfl⟩ := List.mem_map.mp (hlogged.resolve_left (List.not_mem_nil))
      exact hrange call hcall
  have hcapture : (target H chip).captureState d = .ok before := by
    simp only [target, captureState, hbefore]
  have hcapture' : (target H chip).captureState ((d.ready session).act H chip .step) = .ok after := by
    have h : ((d.ready session).act H chip .step).machine.cpu.captureState = some after := hafter
    simp only [target, captureState, h]
  refine ⟨_, DebugSession.step_ok (target H chip) hcapture hdecode hlifecycle rfl hpos hcapture' rfl hvalid, ?_,
    hafter, rfl, rfl, rfl⟩
  change (d.ready session).machine.cpu.captureState = some before
  rw [hcpu]
  exact hbefore

/-- Its record is evidence of it, if the session is in each callable once when it tracks. -/
theorem session_step (hcount : session.tracking = true → d.machine.cpu.bus.readByte.count session.id = 1 ∧
      d.machine.cpu.bus.writeByte.count session.id = 1) :
    ∃ record, session.step (target H chip) d =
        (.ok record, session.recorded record, (d.ready session).act H chip .step) ∧
      record.Evidence session.tracking ((d.ready session).machine.step H chip).1 := by
  have hcpu := d.ready_cpu session
  have hsettled' : (d.ready session).machine.Settled := by
    rw [Machine.Settled, hcpu]
    exact hsettled
  obtain ⟨record, hstep, hbefore, hafter, hkind, hcycles, haccesses⟩ := session_returns H chip session d hsettled hfit
  refine ⟨record, hstep, hbefore, hafter, hkind, hcycles, haccesses.trans ?_, Machine.step_counted H chip hsettled',
    (Machine.step_kind H chip hsettled'.1 hsettled'.2).2⟩
  cases htracking : session.tracking with
  | false => rfl
  | true =>
    have hempty : (d.ready session).machine.logs session.id = [] := by
      rw [ready, if_pos htracking]
      exact Function.update_self ..
    have htracks := Machine.step_tracks H chip hsettled'.1 session.id
    rw [hcpu, hempty] at htracks
    exact congrArg some (htracks.log (hcount htracking).1 (hcount htracking).2)

end Driven

end SixFiveOhTwo
