import Mathlib.Data.List.Forall2
import SixFiveOhTwo.Debug.Transparent

/-! # Live processors do what their snapshots predict

On a processor that is only run and called, no snapshot of unknown origin restored, every poll is sound, so
that `next_boundary` of a snapshot names what the next step does; and what a session records of a step is what
the step did.
-/

namespace SixFiveOhTwo
open Bits Interaction
set_option autoImplicit false

variable {σ : Type} (H : Host σ) (chip : Chip)

namespace Machine
variable {m : Machine σ}

theorem step_predicted (h : m.Settled) (hs : m.cpu.poll.Sound) {state : CPUState}
    (hstate : m.cpu.captureState = some state) : (m.step H chip).1.kind = nextBoundary state :=
  (step_kind H chip h.1 h.2).1.trans (captured_boundary hs hstate)

/-- Every step that a run shows is of the kind predicted before it. -/
theorem shown_predicted (h : m.Polled) (actions : List (Action σ)) :
    ∀ event ∈ (act H chip).shown m actions, ∀ log, event = .stepped log →
      ∀ state, log.before.captureState = some state → log.kind = nextBoundary state := by
  refine System.shown_forall (act_polled H chip) ?_ h actions
  intro action m hm log hlog state hstate
  cases action with
  | step =>
    cases hlog
    exact step_predicted H chip hm.settled hm.sound hstate
  | call call => cases hlog
  | host move => cases hlog

end Machine

namespace Bench

/-- **Boundary prediction.** Under every schedule on a constructed processor: it can be captured, and the next
step does the work of the kind that its snapshot names; and every kind that a session records is the kind, and
the work, of its step. -/
theorem live_prediction (readByte writeByte : ℕ) (host : σ) (schedule : List (Command σ)) :
    let start : Bench σ := { machine := .start (.host readByte) (.host writeByte) host }
    let m := ((act H chip).final start schedule).machine
    (∃ state, m.cpu.captureState = some state ∧ (m.step H chip).1.kind = nextBoundary state ∧
      (nextBoundary state).Work m.cpu.core ((m.step H chip).1.trace.map HostCall.access)) ∧
    ∀ tracked steps events records,
      .drove tracked steps events records ∈ (act H chip).shown start schedule →
        List.Forall₂ (fun event record => ∃ log, event = .stepped log ∧ record.kind = log.kind ∧
          record.kind.Work log.before.core (log.trace.map HostCall.access)) events records := by
  intro start m
  have hempty : start = bare readByte writeByte {} host := rfl
  have hstart : start.Sound readByte writeByte := hempty ▸ bare_sound readByte writeByte {} host
  have hb := System.final_preserves (act_sound H chip) hstart schedule
  obtain ⟨hobserved, hbare⟩ := schedule_bare H chip schedule hstart (.refl hstart.settled.1)
  have hpolled : start.machine.Polled := Machine.start_polled _ _ host
  constructor
  · have hc : Machine.Polled _ := System.final_preserves (Machine.act_polled H chip) hpolled
      (((act H chip).shown start schedule).flatMap Shown.actions)
    have hsame : m.cpu.poll = _ := congrArg Plain.poll hbare.opened
    have hpoll : m.cpu.poll.Sound := by
      rw [hsame]
      exact hc.sound
    obtain ⟨state, hstate⟩ := Option.isSome_iff_exists.mp (CPU.captureState_isSome hb.fit.2)
    have hkind := Machine.step_predicted H chip hb.settled hpoll hstate
    exact ⟨state, hstate, hkind, hkind ▸ (Machine.step_kind H chip hb.settled.1 hb.settled.2).2⟩
  · intro tracked steps events records hmem
    have hrecorded := (System.shown_forall (act_sound H chip) (act_recorded H chip) hstart schedule _ hmem).2
    have hevents : ∀ event ∈ events, event ∈ ((act H chip).shown start schedule).flatMap Shown.events :=
      fun event he => List.mem_flatMap.mpr ⟨_, hmem, he⟩
    refine ((List.forall₂_and_left _ _).mpr ⟨hevents, hrecorded⟩).imp ?_
    rintro _ record ⟨hevent, log, rfl, hevidence⟩
    have hkind : record.kind = log.kind := by
      have hseen := List.mem_map_of_mem (f := Event.observed) hevent
      rw [hobserved] at hseen
      obtain ⟨event, hshown, hsame⟩ := List.mem_map.mp hseen
      cases event with
      | stepped log' =>
        have hpredicted := Machine.shown_predicted H chip hpolled _ _ hshown log' rfl
        have hlogs : log'.observed = log.observed := Option.some.inj hsame
        have hbefore : log'.before.captureState = log.before.captureState := congrArg Observed.before hlogs
        have hkinds : log'.kind = log.kind := congrArg Observed.kind hlogs
        rw [hevidence.kind, ← hkinds]
        exact (hpredicted record.before (hbefore.trans hevidence.before)).symm
      | called call => cases hsame
      | moved => cases hsame
    exact ⟨log, rfl, hkind, hkind ▸ hevidence.work⟩

end Bench

end SixFiveOhTwo
