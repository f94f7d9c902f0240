import Mathlib.Data.Fintype.Option
import SixFiveOhTwo.Ranges.Runs

/-! # The states that are snapshots

A snapshot has what a poll saw only where it is not what is requested. A state that repeats there what is requested is
restored as the one that does not, and the states that do not are exactly the snapshots.
-/

namespace SixFiveOhTwo
open CPU
set_option autoImplicit false

/-- What a poll saw of a line, where that is not what is requested. -/
def unseen (polled : Option Bool) (pending : Bool) : Option Bool := if polled = some pending then none else polled

/-- The snapshot that is restored as this state is. -/
def CPUState.canonical (state : CPUState) : CPUState :=
  { state with
    polledMaskableInterrupt := unseen state.polledMaskableInterrupt state.maskableInterruptPending
    polledNonMaskableInterrupt := unseen state.polledNonMaskableInterrupt state.nonMaskableInterruptPending }

/-- The requests that `_restore_poll` puts together. -/
def restoredRequests (irq nmi : Bool) : ℕ := (if irq then irqLine else 0) ||| if nmi then nmiLatch else 0

/-- What it has the poll see. -/
def restoredPolled (irq nmi : Bool) (polledIrq polledNmi : Option Bool) (skipped : Bool) : ℕ :=
  let polled := mergePolled (mergePolled (restoredRequests irq nmi) irqLine polledIrq) nmiLatch polledNmi
  if skipped then polled ||| noPoll else polled

/-- The poll's fields of a snapshot are those of the state, what the poll saw only where it was not requested. -/
theorem restored_fields : ∀ (irq nmi : Bool) (polledIrq polledNmi : Option Bool) (skipped : Bool),
    let requests := restoredRequests irq nmi
    let polled := restoredPolled irq nmi polledIrq polledNmi skipped
    let kept := (if polled = requests then none else some polled).getD requests
    ((requests &&& irqLine != 0) = irq ∧ (requests &&& nmiLatch != 0) = nmi) ∧
      differs kept requests irqLine = unseen polledIrq irq ∧ differs kept requests nmiLatch = unseen polledNmi nmi ∧
      (kept &&& noPoll != 0) = skipped := by
  decide

theorem restoredPolled_unseen : ∀ (irq nmi : Bool) (polledIrq polledNmi : Option Bool) (skipped : Bool),
    restoredPolled irq nmi (unseen polledIrq irq) (unseen polledNmi nmi) skipped =
      restoredPolled irq nmi polledIrq polledNmi skipped := by
  decide

theorem unseen_differs (polled requests bit : ℕ) :
    unseen (differs polled requests bit) (requests &&& bit != 0) = differs polled requests bit := by
  rw [differs]
  by_cases h : (polled &&& bit != 0) = (requests &&& bit != 0)
  · rw [if_pos h]
    rfl
  · rw [if_neg h, unseen, if_neg]
    rwa [Option.some.injEq]

namespace CPU

/-- The registers that `restore_state` assigns. -/
def restoredCore (state : CPUState) : Core where
  a := state.a
  x := state.x
  y := state.y
  s := state.s
  pc := state.pc
  p := state.p
  halted := state.halted
  polledI := state.polledI.map fun seen => if seen then flagI else 0

theorem restoreState_eq (cpu : CPU) (state : CPUState) :
    let requests := restoredRequests state.maskableInterruptPending state.nonMaskableInterruptPending
    let polled := restoredPolled state.maskableInterruptPending state.nonMaskableInterruptPending
      state.polledMaskableInterrupt state.polledNonMaskableInterrupt state.skippedPoll
    cpu.restoreState state = confirm { cpu with
      core := restoredCore state
      poll := { cpu.poll with
        resetPending := state.resetPending, requests
        polled := if polled = requests then none else some polled } } := rfl

theorem restoreState_canonical (cpu : CPU) (state : CPUState) : cpu.restoreState state.canonical = cpu.restoreState state := by
  rw [restoreState_eq, restoreState_eq]
  simp only [CPUState.canonical, restoredPolled_unseen]
  rfl

theorem captureState_restoreState (cpu : CPU) (state : CPUState) :
    (cpu.restoreState state).captureState = some state.canonical := by
  obtain ⟨⟨hirq, hnmi⟩, hpolledIrq, hpolledNmi, hskipped⟩ := restored_fields state.maskableInterruptPending
    state.nonMaskableInterruptPending state.polledMaskableInterrupt state.polledNonMaskableInterrupt state.skippedPoll
  have hpolledI : (restoredCore state).polledI.map (· != 0) = state.polledI := by
    rw [restoredCore]
    rcases state.polledI with _ | _ | _ <;> rfl
  have hvalid := cpu.restoreState_valid state
  generalize hrestored : cpu.restoreState state = restored at hvalid ⊢
  rw [restoreState_eq] at hrestored
  unfold captureState
  extract_lets core requests polled
  rw [dif_pos hvalid]
  congr 1
  subst hrestored
  simp only [CPUState.canonical, CPUState.mk.injEq]
  exact ⟨rfl, rfl, rfl, rfl, rfl, rfl, rfl, rfl, hirq, hnmi, hpolledI, hpolledIrq, hpolledNmi, hskipped⟩

theorem canonical_captured {cpu : CPU} {state : CPUState} (h : cpu.captureState = some state) : state.canonical = state := by
  unfold captureState at h
  extract_lets core requests polled at h
  split at h
  · obtain rfl := Option.some.inj h
    simp only [CPUState.canonical, unseen_differs]
  · cases h

/-- **Restoring and capturing.** On any processor, whatever it was in the middle of: the capture of a restored state is
its canonical form, two states are restored as the same processor exactly when they have the same one, and the states
that are captures of some processor are exactly those that are their own. -/
theorem snapshots_canonical :
    (∀ (cpu : CPU) (state : CPUState), (cpu.restoreState state).captureState = some state.canonical) ∧
    (∀ (cpu : CPU) (state state' : CPUState),
      cpu.restoreState state = cpu.restoreState state' ↔ state.canonical = state'.canonical) ∧
    ∀ state : CPUState, (∃ cpu : CPU, cpu.captureState = some state) ↔ state.canonical = state := by
  refine ⟨captureState_restoreState, fun cpu state state' => ⟨fun h => ?_, fun h => ?_⟩, fun state => ⟨?_, fun h => ?_⟩⟩
  · have hcaptured := captureState_restoreState cpu state
    rw [h, captureState_restoreState] at hcaptured
    exact (Option.some.inj hcaptured).symm
  · rw [← restoreState_canonical cpu state, h, restoreState_canonical]
  · rintro ⟨cpu, h⟩
    exact canonical_captured h
  · have hcaptured := captureState_restoreState (.init (.host 0) (.host 0)) state
    rw [h] at hcaptured
    exact ⟨_, hcaptured⟩

end CPU

end SixFiveOhTwo
