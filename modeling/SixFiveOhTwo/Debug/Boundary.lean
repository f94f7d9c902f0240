import SixFiveOhTwo.Machine.Work
import SixFiveOhTwo.Polling.Sound

/-! # What a snapshot predicts (`next_boundary` of `debug.py`)

`next_boundary` decides from the fields of a snapshot what the next step does. On a restored snapshot
the step decides from the poll that `restore_state` put together, where a set `skipped_poll` is one bit
beside the two request bits: the two decisions differ exactly when an interrupt is due there as well.
-/

namespace SixFiveOhTwo
open Bits Interaction
set_option autoImplicit false

namespace CPUState

/-- Whether the snapshot's poll saw an NMI. -/
def nmiSeen (state : CPUState) : Bool :=
  state.polledNonMaskableInterrupt.getD state.nonMaskableInterruptPending

/-- Whether the snapshot's poll saw an IRQ. -/
def irqSeen (state : CPUState) : Bool :=
  state.polledMaskableInterrupt.getD state.maskableInterruptPending

/-- Whether the I flag of the snapshot's poll is set. -/
def masked (state : CPUState) : Bool := state.polledI.getD (state.p &&& flagI != 0)

end CPUState

/-- `next_boundary`. -/
def nextBoundary (state : CPUState) : BoundaryKind :=
  if state.resetPending then .reset
  else if state.halted then .jamIdle
  else if state.skippedPoll then .instruction
  else if state.nmiSeen then .nmi
  else if state.irqSeen && !state.masked then .irq
  else .instruction

/-- A processor decides what a snapshot with its bits predicts, when that did not skip its poll. -/
theorem boundary_eq {c : Core} {p : Poll} {state : CPUState} (hreset : p.resetPending = state.resetPending)
    (hhalted : c.halted = state.halted) (hskipped : state.skippedPoll = false)
    (hnmi : (p.deciding &&& nmiLatch != 0) = state.nmiSeen)
    (hirq : (p.deciding &&& irqLine != 0) = state.irqSeen) (hmasked : c.masking = 0 ↔ state.masked = false) :
    boundary c p = nextBoundary state := by
  rw [boundary, nextBoundary, hreset, hhalted, hskipped, ← hnmi, ← hirq]
  simp only [hmasked, bne_iff_ne, Bool.and_eq_true, Bool.not_eq_true', Bool.false_eq_true, if_false]

/-! ## Restored snapshots -/

/-- The condition under which a restored snapshot does what it predicts: if the last sequence did not
poll, no interrupt is due beside it. -/
def CPUState.Predicts (state : CPUState) : Prop :=
  state.resetPending = true ∨ state.halted = true ∨ state.skippedPoll = false ∨
    (state.nmiSeen = false ∧ (state.irqSeen = false ∨ state.masked = true))

theorem mergePolled_bit (polled bit : ℕ) (hbit : bit ≠ 0) (seen : Option Bool) :
    (CPU.mergePolled polled bit seen &&& bit != 0) = seen.getD (polled &&& bit != 0) := by
  cases seen with
  | none => rfl
  | some seen =>
    cases seen with
    | false => simp [CPU.mergePolled, without_and_self]
    | true => simp [CPU.mergePolled, Nat.and_or_distrib_right, hbit]

theorem mergePolled_other {bit other : ℕ} (h : bit &&& other = 0) (polled : ℕ) (seen : Option Bool) :
    CPU.mergePolled polled bit seen &&& other = polled &&& other := by
  cases seen with
  | none => rfl
  | some seen =>
    cases seen with
    | false => exact without_and_of_disjoint h
    | true => rw [CPU.mergePolled, Nat.and_or_distrib_right, h, Nat.or_zero]

theorem deciding_ite {p : Poll} {polled : ℕ} (h : p.polled = if polled = p.requests then none else some polled) :
    p.deciding = polled := by
  rw [Poll.deciding, h]
  split
  case isTrue he => exact he.symm
  case isFalse => rfl

theorem restored_deciding (cpu : CPU) (state : CPUState) :
    ((cpu.restoreState state).poll.deciding &&& nmiLatch != 0) = state.nmiSeen ∧
      ((cpu.restoreState state).poll.deciding &&& irqLine != 0) = state.irqSeen := by
  rw [deciding_ite (p := (cpu.restoreState state).poll) rfl]
  have hdisjoint : irqLine &&& nmiLatch = 0 := by decide
  have hskipped : ∀ polled bit : ℕ, noPoll &&& bit = 0 →
      (if state.skippedPoll then polled ||| noPoll else polled) &&& bit = polled &&& bit := by
    intro polled bit hbit
    split
    · rw [Nat.and_or_distrib_right, hbit, Nat.or_zero]
    · rfl
  rw [hskipped _ nmiLatch (by decide), hskipped _ irqLine (by decide)]
  constructor
  · rw [mergePolled_bit _ _ (by decide), mergePolled_other hdisjoint, CPUState.nmiSeen]
    cases state.maskableInterruptPending <;> cases state.nonMaskableInterruptPending <;> rfl
  · rw [mergePolled_other (by decide), mergePolled_bit _ _ (by decide), CPUState.irqSeen]
    cases state.maskableInterruptPending <;> cases state.nonMaskableInterruptPending <;> rfl

theorem restored_masking (cpu : CPU) (state : CPUState) :
    ((cpu.restoreState state).core.masking = 0) ↔ state.masked = false := by
  change (state.polledI.map fun seen => if seen then flagI else 0).getD (state.p &&& flagI) = 0 ↔ _
  rw [CPUState.masked]
  cases state.polledI with
  | none => simp
  | some seen => cases seen <;> simp

/-- What a restored snapshot decides: what it predicts, but for a skipped poll. -/
theorem restored_boundary (cpu : CPU) (state : CPUState) :
    boundary (cpu.restoreState state).core (cpu.restoreState state).poll =
      nextBoundary { state with skippedPoll := false } := by
  obtain ⟨hnmi, hirq⟩ := restored_deciding cpu state
  exact boundary_eq rfl rfl rfl hnmi hirq (restored_masking cpu state)

/-- A snapshot predicts as it would without its skipped poll exactly when it takes no interrupt then. -/
theorem nextBoundary_polled_iff (state : CPUState) :
    nextBoundary { state with skippedPoll := false } = nextBoundary state ↔ state.Predicts := by
  simp only [nextBoundary, CPUState.Predicts, CPUState.nmiSeen, CPUState.irqSeen, CPUState.masked]
  cases state.resetPending with
  | true => simp
  | false =>
    cases state.halted with
    | true => simp
    | false =>
      cases state.skippedPoll with
      | false => simp
      | true => grind

/-! ## Captured snapshots -/

theorem differs_getD (polled requests bit : ℕ) :
    (differs polled requests bit).getD (requests &&& bit != 0) = (polled &&& bit != 0) := by
  unfold differs
  extract_lets seen
  split
  case isTrue h => exact h.symm
  case isFalse => rfl

theorem Poll.Sound.deciding_noPoll {p : Poll} (h : p.Sound) (hno : p.deciding &&& noPoll ≠ 0) :
    p.deciding = noPoll := by
  cases hp : p.polled with
  | none =>
    rw [deciding, hp, Option.getD_none] at hno
    exact absurd h.requests.and_noPoll hno
  | some polled =>
    rw [deciding, hp, Option.getD_some] at hno ⊢
    exact (h.polled polled hp).resolve_left fun hreq => hno hreq.and_noPoll

/-- A captured snapshot predicts what its processor decides. -/
theorem captured_boundary {cpu : CPU} {state : CPUState} (hs : cpu.poll.Sound)
    (h : cpu.captureState = some state) : boundary cpu.core cpu.poll = nextBoundary state := by
  unfold CPU.captureState at h
  extract_lets core requests polled at h
  split at h
  case isFalse => cases h
  case isTrue hvalid =>
    obtain rfl := Option.some.inj h
    by_cases hskipped : polled &&& noPoll = 0
    · refine boundary_eq rfl rfl (by simp [hskipped]) (differs_getD _ _ _).symm (differs_getD _ _ _).symm ?_
      rw [CPUState.masked, Core.masking]
      cases cpu.core.polledI <;> simp [core]
    · have hdeciding : cpu.poll.deciding = noPoll := hs.deciding_noPoll hskipped
      have hnmi : noPoll &&& nmiLatch = 0 := by decide
      have hirq : noPoll &&& irqLine = 0 := by decide
      simp [boundary, nextBoundary, hdeciding, hnmi, hirq, hskipped, core]

namespace Machine
variable {σ : Type} (H : Host σ) (chip : Chip)

/-- **A restored snapshot does what it predicts exactly when no interrupt is due beside a skipped
poll.** The step does the work of the kind it reports; that kind is the predicted one if and only if
the snapshot meets the condition. -/
theorem restored_prediction (m : Machine σ) (state : CPUState) :
    let restored := { m with cpu := m.cpu.restoreState state }
    let log := (restored.step H chip).1
    log.kind.Work restored.cpu.core (log.trace.map HostCall.access) ∧
      (log.kind = nextBoundary state ↔ state.Predicts) := by
  intro restored log
  obtain ⟨hkind, hwork⟩ := step_kind H chip (m := restored) (.restoreState m.cpu state) rfl
  refine ⟨hwork, ?_⟩
  rw [hkind, ← nextBoundary_polled_iff state, ← restored_boundary m.cpu state]

/-- A snapshot whose last sequence did not poll, with an NMI pending, predicts an instruction and takes
the NMI. -/
theorem skippedPoll_taken :
    let state : CPUState := { skippedPoll := true, nonMaskableInterruptPending := true }
    let m : Machine (ℕ → Byte) := restored (.host 0) (.host 0) state fun _ => 0
    nextBoundary state = .instruction ∧ (m.step .flat mos6502).1.kind = .nmi ∧
      (m.step .flat mos6502).2.cpu.core.pc = 0 ∧ (m.step .flat mos6502).2.cpu.poll.requests = 0 := by
  decide

end Machine

end SixFiveOhTwo
