import SixFiveOhTwo.Snapshots.Restore

/-! # A restored run goes on as the captured one

Two machines that no step tells apart (`Machine.Same`) stay so under the same actions, and a processor
restored from the snapshot of a run is the same as the run's.
-/

namespace SixFiveOhTwo
open Bits Interaction
set_option autoImplicit false

theorem and_flagI (p : ℕ) : p &&& flagI = 0 ∨ p &&& flagI = flagI := by
  have h : p &&& flagI = (p.testBit 2).toNat * 2 ^ 2 := Nat.and_two_pow p 2
  rw [h]
  cases p.testBit 2
  · exact .inl rfl
  · exact .inr rfl

theorem Entry.oldI_flag {entry : Entry} {p i : ℕ} (h : entry.oldI p = some i) : i = 0 ∨ i = flagI := by
  unfold Entry.oldI at h
  split at h
  case h_4 => cases h
  all_goals
    obtain rfl := Option.some.inj h
    exact and_flagI p

namespace Machine
variable {σ : Type} (H : Host σ) (chip : Chip)

theorem act_polledFlag (action : Action σ) (m : Machine σ) (h : m.cpu.Routed ∧ m.cpu.core.PolledFlag) :
    (act H chip action m).2.cpu.Routed ∧ (act H chip action m).2.cpu.core.PolledFlag := by
  refine ⟨act_routed H chip action h.1, ?_⟩
  cases action with
  | call call => exact (Call.apply_core call m.cpu).symm ▸ h.2
  | host move => exact h.2
  | step =>
    intro i hi
    have hleaves := step_leaves H chip h.1
    change (m.step H chip).2.cpu.core.polledI = some i at hi
    cases hk : (m.step H chip).1.kind with
    | jamIdle =>
      rw [hk] at hleaves
      rw [BoundaryKind.Leaves] at hleaves
      rw [hleaves] at hi
      exact h.2 i hi
    | instruction =>
      rw [hk] at hleaves
      obtain ⟨opcode, t, -, hpolled, -⟩ := hleaves
      rw [hpolled] at hi
      exact Entry.oldI_flag hi
    | reset | nmi | irq =>
      rw [hk, BoundaryKind.Leaves, hi] at hleaves
      · cases hleaves
      all_goals simp

/-- Two machines of sound runs that no later action tells apart. -/
structure Same (m m' : Machine σ) : Prop where
  polled : m.Polled
  polled' : m'.Polled
  opened : m.opened.Same m'.opened

variable {m m' : Machine σ}

theorem Same.captureState (h : m.Same m') : m.cpu.captureState = m'.cpu.captureState :=
  CPU.captureState_congr h.opened.core h.opened.poll h.polled.sound h.polled'.sound

theorem Same.call (h : m.Same m') (call : Call) :
    (act H chip (.call call) m).2.opened.Same (act H chip (.call call) m').2.opened := by
  rw [opened_call, opened_call]
  exact { h.opened with
    poll := h.opened.poll.onPoll h.polled.sound h.polled'.sound call
    dmaStalled := congrArg call.onStalled h.opened.dmaStalled }

theorem act_same (action : Action σ) (m m' : Machine σ) (h : m.Same m') :
    (act H chip action m).1.observed = (act H chip action m').1.observed ∧
      (act H chip action m).2.Same (act H chip action m').2 := by
  have hp := act_polled H chip action m h.polled
  have hp' := act_polled H chip action m' h.polled'
  cases action with
  | call call => exact ⟨rfl, hp, hp', h.call H chip call⟩
  | host move =>
    refine ⟨rfl, hp, hp', h.opened.core, h.opened.poll, h.opened.dmaStalled, ?_, rfl, h.opened.readByte,
      h.opened.writeByte⟩
    exact congrArg move h.opened.host
  | step =>
    obtain ⟨hkind, hcycles, htrace, hplain, -⟩ := step_plain H chip h.polled.settled.1
    obtain ⟨hkind', hcycles', htrace', hplain', -⟩ := step_plain H chip h.polled'.settled.1
    obtain ⟨hresult, hsame⟩ := Plain.step_same H chip h.opened h.polled.sound h.polled'.sound
    have hend : (m.step H chip).2.Same (m'.step H chip).2 := by
      refine ⟨hp, hp', ?_⟩
      rw [opened, opened, hplain, hplain']
      exact { hsame with trace := rfl }
    refine ⟨congrArg some ?_, hend⟩
    have hk : (m.step H chip).1.kind = (m'.step H chip).1.kind := by rw [hkind, hkind', stepRun, stepRun, hresult]
    have hc : (m.step H chip).1.cycles = (m'.step H chip).1.cycles := by
      rw [hcycles, hcycles', stepRun, stepRun, hresult]
    have ht : (m.step H chip).1.trace = (m'.step H chip).1.trace := by
      rw [htrace, htrace']
      exact hsame.trace
    have hbefore : (m.step H chip).1.before.captureState = (m'.step H chip).1.before.captureState := h.captureState
    have hafter : (m.step H chip).1.after.captureState = (m'.step H chip).1.after.captureState := hend.captureState
    change (m.step H chip).1.observed = (m'.step H chip).1.observed
    rw [StepLog.observed, StepLog.observed, hk, hc, ht, hbefore, hafter]

/-- Restoring what a run captured, on any processor with the same callables, DMA flag and host. -/
theorem restored_same {c d : Machine σ} {state : CPUState} (hc : c.Polled) (hi : c.cpu.core.PolledFlag)
    (h : c.cpu.captureState = some state) (hdma : d.cpu.dmaStalled = c.cpu.dmaStalled) (hhost : d.host = c.host)
    (hread : d.cpu.bus.readByte.base = c.cpu.bus.readByte.base)
    (hwrite : d.cpu.bus.writeByte.base = c.cpu.bus.writeByte.base) :
    ({ d with cpu := d.cpu.restoreState state } : Machine σ).Same c := by
  obtain ⟨hcore, hsound, hpoll⟩ := CPU.restored_same hc.sound hc.settled.2 hi h d.cpu
  refine ⟨⟨⟨.restoreState d.cpu state, ?_⟩, hsound⟩, hc, hcore, hpoll, hdma, hhost, rfl, hread, hwrite⟩
  exact (congrArg Core.extra hcore).trans hc.settled.2

/-- What a snapshot of `c` makes of `d`: restoring it calls nothing, captures the same, and goes on as
`c` does, whatever comes. -/
structure Resumes (c d : Machine σ) (state : CPUState) : Prop where
  captured : c.cpu.captureState = some state
  silent : (hostAct H chip (.restore state) d).2.host = d.host ∧
    (hostAct H chip (.restore state) d).2.trace = d.trace ∧ (hostAct H chip (.restore state) d).2.logs = d.logs
  recaptured : (hostAct H chip (.restore state) d).2.cpu.captureState = some state
  observed : ∀ later : List (Action σ),
    ((act H chip).shown (hostAct H chip (.restore state) d).2 later).map Event.observed =
      ((act H chip).shown c later).map Event.observed
  captures : ∀ later : List (Action σ),
    ((act H chip).final (hostAct H chip (.restore state) d).2 later).cpu.captureState =
      ((act H chip).final c later).cpu.captureState

/-- **A snapshot is complete.** For every run `c` from construction and every machine `d`, in whatever
state, with the same callables, DMA flag and host: `c` is captured, and `d` restored from that goes on
as `c` does. -/
theorem snapshot_complete (readByte writeByte : Callable) (host : σ) (actions : List (Action σ)) (d : Machine σ) :
    let c := (act H chip).final (start readByte writeByte host) actions
    d.cpu.dmaStalled = c.cpu.dmaStalled → d.host = c.host →
    d.cpu.bus.readByte.base = c.cpu.bus.readByte.base → d.cpu.bus.writeByte.base = c.cpu.bus.writeByte.base →
    ∃ state, Resumes H chip c d state := by
  intro c hdma hhost hread hwrite
  have hc : c.Polled := System.final_preserves (act_polled H chip) (start_polled readByte writeByte host) actions
  have hi : c.cpu.Routed ∧ c.cpu.core.PolledFlag := by
    refine System.final_preserves (act_polledFlag H chip) ⟨.init readByte writeByte, ?_⟩ actions
    exact fun i hi => nomatch hi
  have hfit : c.Fit := System.final_preserves (act_fit H chip) (start_fit readByte writeByte host) actions
  obtain ⟨state, hstate⟩ := Option.isSome_iff_exists.mp (CPU.captureState_isSome hfit.2)
  have hsame := restored_same hc hi.2 hstate hdma hhost hread hwrite
  refine ⟨state, hstate, ⟨rfl, rfl, rfl⟩, hsame.captureState.trans hstate, ?_, ?_⟩
  · exact fun later => (System.shown_related (act_same H chip) hsame later).1
  · exact fun later => (System.shown_related (act_same H chip) hsame later).2.captureState

/-- A processor left halted in the middle of an access by a step that a callback aborted, given the
snapshot of a run with an interrupt asked for. -/
theorem snapshot_complete_aborted :
    let c := nops [.step, .call .requestMaskableInterrupt]
    let cpu : CPU := { (CPU.init (.host 0) (.host 0)) with
      core := { extra := 1, halted := true, polledI := some flagI }
      poll := { requests := nmiLatch, polled := some noPoll, deferred := some 0, stalled := some nmiLatch }
      bus := Bus.confirming (CPU.init (.host 0) (.host 0)).bus }
    ∃ state, Resumes .flat mos6502 c { cpu, host := c.host } state := by
  intro c cpu
  refine snapshot_complete .flat mos6502 (.host 0) (.host 0) (fun _ => 0xEA) [.step, .call .requestMaskableInterrupt]
    { cpu, host := c.host } ?_ rfl ?_ ?_
  · decide +kernel
  · decide +kernel
  · decide +kernel

end Machine

end SixFiveOhTwo
