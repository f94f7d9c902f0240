import SixFiveOhTwo.Debug.Evidence
import SixFiveOhTwo.Debug.Console

/-! # Sessions on a target that does not fail

A target is `Reliable` where it is good if it can be captured there, and if every session can step it there and
finds it good again. On such a target no bounded run raises, nor do `over` and `continue`. A settled processor
whose registers fit is one, whatever callables it has and whatever session steps it.
-/

namespace SixFiveOhTwo
open Bits Interaction
set_option autoImplicit false

/-- Where `good` holds, the target can be captured, and a session's step raises nothing. -/
structure Target.Reliable {τ : Type} (T : Target τ) (good : τ → Prop) : Prop where
  captures : ∀ t, good t → ∃ state, T.captureState t = .ok state
  steps : ∀ (session : DebugSession τ) t, good t → ∃ record t',
    session.step T t = (.ok record, session.recorded record, t') ∧ good t'

/-- A command returned, and left its target good. -/
def Executed.Returned {τ : Type} (good : τ → Prop) (executed : Executed τ) : Prop :=
  (∃ lines, executed.lines = .ok lines) ∧ good executed.target

namespace Target.Reliable
variable {τ : Type} {T : Target τ} {good : τ → Prop} (h : T.Reliable good)
include h

theorem runLoop (maxCycles : Option ℕ) (stopOnHalt : Bool) (budget : ℕ) (tally : DebugSession.Tally)
    (session : DebugSession τ) {t : τ} (ht : good t) :
    (∃ result, (DebugSession.runLoop T maxCycles stopOnHalt budget tally session t).result = .ok result) ∧
      good (DebugSession.runLoop T maxCycles stopOnHalt budget tally session t).target := by
  induction budget generalizing tally session t with
  | zero =>
    obtain ⟨state, hstate⟩ := h.captures t ht
    rw [DebugSession.runLoop]
    split
    · exact ⟨⟨_, rfl⟩, ht⟩
    · rw [hstate]
      exact ⟨⟨_, rfl⟩, ht⟩
  | succ budget ih =>
    obtain ⟨state, hstate⟩ := h.captures t ht
    obtain ⟨record, t', hstep, ht'⟩ := h.steps session t ht
    rw [DebugSession.runLoop, hstate, hstep]
    dsimp only
    split
    · exact ⟨⟨_, rfl⟩, ht⟩
    · split
      · exact ⟨⟨_, rfl⟩, ht⟩
      · split
        · exact ⟨⟨_, rfl⟩, ht'⟩
        · split
          · exact ⟨⟨_, rfl⟩, ht'⟩
          · exact ih (tally.add record) (session.recorded record) ht'

theorem run {maxSteps : ℤ} (hsteps : 0 < maxSteps) {maxCycles : Option ℤ} (hcycles : ∀ cycles ∈ maxCycles, 0 < cycles)
    (stopOnHalt : Bool) (session : DebugSession τ) {t : τ} (ht : good t) :
    (∃ result, (session.run T maxSteps maxCycles stopOnHalt t).result = .ok result) ∧
      good (session.run T maxSteps maxCycles stopOnHalt t).target := by
  rw [DebugSession.run_eq T session t stopOnHalt hsteps hcycles]
  exact h.runLoop _ stopOnHalt _ {} session ht

theorem continueRun {maxSteps : ℤ} (hsteps : 0 < maxSteps) (lines : List Line) (records : List StepRecord)
    (session : DebugSession τ) {t : τ} (ht : good t) :
    (session.continueRun T maxSteps lines records t).Returned good := by
  obtain ⟨⟨result, hresult⟩, hgood⟩ := h.run hsteps DebugSession.unbounded true session ht
  refine ⟨⟨lines ++ [.run result], ?_⟩, hgood⟩
  rw [DebugSession.continueRun, hresult]
  rfl

theorem continueCommand (session : DebugSession τ) {t : τ} (ht : good t) :
    (session.continueCommand T t).Returned good := by
  obtain ⟨state, hstate⟩ := h.captures t ht
  obtain ⟨record, t', hstep, ht'⟩ := h.steps session t ht
  rw [DebugSession.continueCommand, hstate]
  dsimp only
  split
  · rw [hstep]
    exact h.continueRun (by decide) _ _ _ ht'
  · exact h.continueRun (by decide) _ _ _ ht

theorem stepCommand (session : DebugSession τ) {t : τ} (ht : good t) : (session.stepCommand T t).Returned good := by
  obtain ⟨record, t', hstep, ht'⟩ := h.steps session t ht
  rw [DebugSession.stepCommand, hstep]
  exact ⟨⟨_, rfl⟩, ht'⟩

theorem overLoop (nextAddress s budget : ℕ) (lines : List Line) (records : List StepRecord)
    (session : DebugSession τ) {t : τ} (ht : good t) :
    (DebugSession.overLoop T nextAddress s budget lines records session t).Returned good := by
  induction budget generalizing records session t with
  | zero => exact ⟨⟨_, rfl⟩, ht⟩
  | succ budget ih =>
    obtain ⟨now, hnow⟩ := h.captures t ht
    obtain ⟨⟨result, hresult⟩, hgood⟩ := h.run Int.one_pos DebugSession.unbounded false session ht
    rw [DebugSession.overLoop, hnow]
    dsimp only
    rw [hresult]
    dsimp only
    split
    · exact ⟨⟨_, rfl⟩, ht⟩
    · split
      · exact ⟨⟨_, rfl⟩, ht⟩
      · split
        · exact ⟨⟨_, rfl⟩, hgood⟩
        · exact ih _ _ hgood

theorem withState {executed : Executed τ} (hexecuted : executed.Returned good) :
    (executed.withState T).Returned good := by
  obtain ⟨⟨lines, hlines⟩, hgood⟩ := hexecuted
  obtain ⟨state, hstate⟩ := h.captures _ hgood
  refine ⟨⟨lines ++ (Line.formatState state).map .state, ?_⟩, hgood⟩
  rw [Executed.withState]
  dsimp only
  rw [hlines, hstate]
  rfl

theorem overCommand (session : DebugSession τ) {peek : τ → ℕ → Byte} (hpeek : session.peekByte = some peek) {t : τ}
    (ht : good t) : (session.overCommand T t).Returned good := by
  obtain ⟨state, hstate⟩ := h.captures t ht
  obtain ⟨record, t', hstep, ht'⟩ := h.steps session t ht
  rw [DebugSession.overCommand, hstate]
  dsimp only
  rw [hpeek]
  dsimp only
  rw [disassemble_eq (peek t) state.pc_le]
  dsimp only
  split
  · exact h.stepCommand session ht
  · rw [hstep]
    exact h.withState (h.overLoop _ _ _ _ _ _ ht')

theorem perform (session : DebugSession τ) (command : SessionCommand) {t : τ} (ht : good t) :
    good (command.perform T session t).2.2 := by
  cases command with
  | step =>
    obtain ⟨record, t', hstep, ht'⟩ := h.steps session t ht
    rw [SessionCommand.perform, hstep]
    exact ht'
  | run maxSteps maxCycles stopOnHalt =>
    refine DebugSession.run_keeps (J := fun _ t _ => good t) (fun _ t _ ht => h.captures t ht)
      (fun session t _ ht => h.steps session t ht) maxSteps maxCycles stopOnHalt ht
  | _ => exact ht

end Target.Reliable

/-! ## A processor -/

namespace Driven
variable {σ : Type} (H : Host σ) (chip : Chip)

/-- A settled processor whose registers fit. -/
def Good (d : Driven σ) : Prop := d.machine.Settled ∧ d.machine.Fit

theorem target_reliable : (target H chip).Reliable Good where
  captures d h := by
    obtain ⟨state, hstate⟩ := Option.isSome_iff_exists.mp (CPU.captureState_isSome h.2.2)
    exact ⟨state, by simp only [target, captureState, hstate]⟩
  steps session d h := by
    have hcpu := d.ready_cpu session
    obtain ⟨record, hstep, -⟩ := session_returns H chip session d h.1 h.2
    refine ⟨record, _, hstep, Machine.act_settled H chip .step _ ?_, Machine.act_fit H chip .step _ ?_⟩
    · rw [Machine.Settled, hcpu]
      exact h.1
    · rw [Machine.Fit, hcpu]
      exact h.2

end Driven

end SixFiveOhTwo
