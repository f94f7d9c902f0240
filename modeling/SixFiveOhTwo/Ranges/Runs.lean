import SixFiveOhTwo.Accounting.Bus
import SixFiveOhTwo.Ranges.Handlers

/-! # The registers fit at every boundary of every run

A step keeps the registers and its accesses in range; so do the host's calls, a restored snapshot and
the `set` command, which are the only other things that assign registers. So `capture_state` never
raises.
-/

namespace SixFiveOhTwo
open Bits Interaction Code
set_option autoImplicit false

/-! ## A step -/

theorem execute_keepsRange (chip : Chip) : (execute chip).KeepsRange fun _ => True := by
  intro g hg
  simp only [execute, ensures_bind, ensures_core]
  refine (ensures_readByte _ _).mpr fun opcode => ?_
  rw [ensures_bind, ensures_update, ensures_bind]
  have hfetched : Sight.InRange { g.saw (.r g.core.pc opcode.val) with
      core := { g.core with pc := (g.core.pc + 1) &&& 0xFFFF } } := by
    obtain ⟨hcore, htrace⟩ := hg
    rw [Core.valid_iff] at hcore
    obtain ⟨ha, hx, hy, hs, hpc, hp⟩ := hcore
    refine ⟨(Core.valid_iff _).mpr ⟨ha, hx, hy, hs, Nat.and_le_right, hp⟩, ?_⟩
    exact (traceInRange_append _ _).mpr ⟨htrace,
      (traceInRange_cons _ _).mpr ⟨⟨hpc, byte_le opcode⟩, traceInRange_nil⟩⟩
  have hdispatch : (dispatch chip (opcodes opcode)).KeepsRange fun _ => True := by
    intro g' hg'
    cases opcodes opcode with
    | implied handler cycles => exact handler.keepsRange g' hg'
    | addressed handler mode cycles =>
      rw [dispatch, ensures_bind]
      refine (mode.keepsRange g' hg').mono ?_
      rintro address g₁ ⟨haddress, hg₁⟩
      exact handler.keepsRange chip address haddress g₁ hg₁
  refine (hdispatch _ hfetched).mono ?_
  rintro _ g₁ ⟨-, hg₁⟩
  simp only [ensures_bind, ensures_core, ensures_ite]
  split
  · simp only [ensures_update, ensures_pure]
    exact ⟨trivial, hg₁⟩
  · exact ⟨trivial, hg₁⟩

theorem BoundaryKind.keepsRange (chip : Chip) (kind : BoundaryKind) :
    (kind.code chip).KeepsRange fun _ => True := by
  cases kind with
  | reset => exact acceptReset_keepsRange
  | jamIdle =>
    intro g hg
    simp only [code, haltedCycle, ensures_bind, ensures_read, ensures_pure]
    intro value
    refine ⟨trivial, hg.1, (traceInRange_append _ _).mpr ⟨hg.2, (traceInRange_cons _ _).mpr ⟨?_, traceInRange_nil⟩⟩⟩
    exact ⟨Nat.le_refl _, byte_le value⟩
  | nmi => exact enterInterrupt_keepsRange nmiLatch
  | irq => exact enterInterrupt_keepsRange irqLine
  | instruction =>
    exact fun g hg => ensures_instruction (execute_keepsRange chip g hg)

theorem Plain.step_keepsRange {σ : Type} (H : Host σ) (chip : Chip) {q : Plain σ} (hq : q.sighted.InRange) :
    (exec H (Code.step chip) q).2.sighted.InRange := by
  rw [exec_step]
  have hdecided : q.decided.sighted.InRange := by
    refine ⟨?_, hq.2⟩
    change (q.core.decided q.boundary).Valid
    cases q.boundary <;> exact hq.1
  exact (exec_ensures H (q.boundary.keepsRange chip q.decided.sighted hdecided)).2

/-! ## Runs -/

theorem CPU.restoreState_valid (cpu : CPU) (state : CPUState) : (cpu.restoreState state).core.Valid :=
  ⟨⟨state.a_le, state.x_le, state.y_le, state.s_le, state.p_le⟩, state.pc_le, state.p_bits⟩

theorem number_le {parsed : Option ℤ} {maximum value : ℕ} (h : number parsed maximum = some value) :
    value ≤ maximum := by
  obtain ⟨x, -, hx⟩ := Option.bind_eq_some_iff.mp h
  split at hx
  · cases hx
  · cases hx
    omega

theorem validP_set : ∀ v : Byte, ValidP (without (v.val ||| 0x20) 0x10) := validP_pulled

theorem CPU.setRegister_valid {cpu : CPU} (h : cpu.core.Valid) {register : Register} {value : ℕ}
    (hle : value ≤ register.maximum) : (cpu.setRegister value register).core.Valid := by
  rw [Core.valid_iff] at h ⊢
  obtain ⟨ha, hx, hy, hs, hpc, hp⟩ := h
  cases register with
  | a => exact ⟨hle, hx, hy, hs, hpc, hp⟩
  | x => exact ⟨ha, hle, hy, hs, hpc, hp⟩
  | y => exact ⟨ha, hx, hle, hs, hpc, hp⟩
  | s => exact ⟨ha, hx, hy, hle, hpc, hp⟩
  | pc => exact ⟨ha, hx, hy, hs, hle, hp⟩
  | p => exact ⟨ha, hx, hy, hs, hpc, validP_set ⟨value, Nat.lt_succ_of_le hle⟩⟩

/-- The `set` command accepts only values that fit, and fixes two bits of P. -/
theorem CPU.set_valid {cpu : CPU} (h : cpu.core.Valid) (register : Register) (parsed : Option ℤ) :
    (cpu.set register parsed).core.Valid := by
  rw [CPU.set]
  cases hn : number parsed register.maximum with
  | none => exact h
  | some value => exact CPU.setRegister_valid h (number_le hn)

theorem CPU.captureState_isSome {cpu : CPU} (h : cpu.core.Valid) : cpu.captureState.isSome := by
  simp [CPU.captureState, h]

namespace Machine
variable {σ : Type} (H : Host σ) (chip : Chip)

/-- What every boundary of every run finds, registers included. -/
def Fit (m : Machine σ) : Prop := m.cpu.Routed ∧ m.cpu.core.Valid

theorem step_fit {m : Machine σ} (h : m.Fit) :
    (m.step H chip).2.Fit ∧ ∀ call ∈ (m.step H chip).1.trace, call.access.InRange := by
  obtain ⟨-, -, htrace, hplain, hrouted⟩ := step_plain H chip h.1
  have hopened : m.opened.sighted.InRange := ⟨h.2, fun _ ha => nomatch ha⟩
  obtain ⟨hcore, haccesses⟩ := Plain.step_keepsRange H chip hopened
  refine ⟨⟨hrouted, ?_⟩, fun call hcall => ?_⟩
  · have hc : (m.step H chip).2.cpu.core = (stepRun H chip m).2.core := congrArg Plain.core hplain
    rw [hc]
    exact hcore
  · rw [htrace] at hcall
    exact haccesses _ (List.mem_map_of_mem hcall)

theorem act_fit (action : Action σ) (m : Machine σ) (h : m.Fit) : (act H chip action m).2.Fit := by
  cases action with
  | call call => exact ⟨h.1.apply call, (Call.apply_core call m.cpu).symm ▸ h.2⟩
  | host move => exact h
  | step => exact (step_fit H chip h).1

theorem hostAct_fit (action : HostAction σ) (m : Machine σ) (h : m.Fit) :
    (hostAct H chip action m).2.Fit := by
  refine ⟨hostAct_routed H chip action h.1, ?_⟩
  cases action with
  | act action => exact (act_fit H chip action m h).2
  | readByte callable => exact h.2
  | writeByte callable => exact h.2
  | restore state => exact m.cpu.restoreState_valid state
  | set register parsed => exact CPU.set_valid h.2 register parsed

theorem start_fit (readByte writeByte : Callable) (host : σ) : (start readByte writeByte host).Fit :=
  ⟨.init readByte writeByte, (by decide : Core.Valid {})⟩

/-- **Range safety.** Whatever a host and its debugger do with a constructed processor, snapshots
restored included: the registers fit, `capture_state` raises nothing, and every access of every step
has a 16-bit address and a byte. -/
theorem range_safety (readByte writeByte : Callable) (host : σ) (actions : List (HostAction σ)) :
    let m := (hostAct H chip).final (start readByte writeByte host) actions
    (m.cpu.core.a ≤ 0xFF ∧ m.cpu.core.x ≤ 0xFF ∧ m.cpu.core.y ≤ 0xFF ∧ m.cpu.core.s ≤ 0xFF ∧
      m.cpu.core.pc ≤ 0xFFFF ∧ m.cpu.core.p ≤ 0xFF ∧ m.cpu.core.p &&& 0x30 = 0x20) ∧
    m.cpu.captureState.isSome ∧
    ∀ log, .stepped log ∈ (hostAct H chip).shown (start readByte writeByte host) actions →
      ∀ call ∈ log.trace, call.access.address ≤ 0xFFFF ∧ call.access.value ≤ 0xFF := by
  intro m
  have hm : m.Fit := System.final_preserves (hostAct_fit H chip) (start_fit readByte writeByte host) actions
  refine ⟨?_, CPU.captureState_isSome hm.2, ?_⟩
  · have hcore := (Core.valid_iff m.cpu.core).mp hm.2
    exact ⟨hcore.1, hcore.2.1, hcore.2.2.1, hcore.2.2.2.1, hcore.2.2.2.2.1, hcore.2.2.2.2.2⟩
  · have hshown := System.shown_forall (Q := fun event : Event => ∀ log, event = .stepped log →
      ∀ call ∈ log.trace, call.access.InRange) (hostAct_fit H chip) ?_ (start_fit readByte writeByte host) actions
    · exact fun log hlog => hshown _ hlog log rfl
    · intro action m h log hlog call hcall
      cases action with
      | act action =>
        cases action with
        | step =>
          cases hlog
          exact (step_fit H chip h).2 call hcall
        | call call => cases hlog
        | host move => cases hlog
      | _ => cases hlog

end Machine

end SixFiveOhTwo
