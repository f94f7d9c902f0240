import SixFiveOhTwo.Machine.Flat
import SixFiveOhTwo.Polling.Cancel

/-! # A jammed processor, and reset

A halted processor reads $FFFF until a reset is requested: requests gather in the poll, and no step looks at
them. The start sequence then clears `halted` and leaves a poll that has seen nothing, so that one
instruction runs before anything requested is taken.
-/

namespace SixFiveOhTwo
open Bits Interaction Code
set_option autoImplicit false

/-! ## The start sequence -/

/-- The accesses of the start sequence, with what they read. -/
def startSequence (c : Core) (first second : Byte) (stacked : Byte × Byte × Byte) (low high : Byte) : List Access := [
  .r c.pc first, .r c.pc second,
  .r (stack ||| c.s) stacked.1, .r (stack ||| stackDown c.s 1) stacked.2.1, .r (stack ||| stackDown c.s 2) stacked.2.2,
  .r 0xFFFC low, .r 0xFFFD high]

/-- The registers the start sequence leaves. -/
def Core.restarted (c : Core) (low high : Byte) : Core :=
  { c with
    s := stackDown c.s 3
    p := c.p ||| flagI
    pc := (high.val <<< 8) ||| low.val
    halted := false
    polledI := none }

theorem acceptReset_restarts (g : Sight) :
    acceptReset.Ensures (fun _ g' => ∃ first second stacked low high,
      g'.trace = g.trace ++ startSequence g.core first second stacked low high ∧
        g'.core = g.core.restarted low high) g := by
  simp only [acceptReset, resetStackCycle, ensures_bind, ensures_updatePoll, ensures_update, ensures_core, ensures_read,
    ensures_pure]
  intro first second a b c low high
  exact ⟨first, second, (a, b, c), low, high, by simp [startSequence, stackDown], rfl⟩

/-! ## Calls on a poll -/

namespace Poll

theorem onPoll_noReset {call : Call} (hcall : call ≠ .requestReset) {p : Poll} (hp : p.resetPending = false) :
    (call.onPoll p).resetPending = false := by
  cases call with
  | requestReset => exact absurd rfl hcall
  | requestMaskableInterrupt | requestNonMaskableInterrupt => exact (see_resetPending _ _).trans hp
  | clearReset => rfl
  | _ => exact hp

theorem onPoll_reset {call : Call} (hcall : call ≠ .clearReset) {p : Poll} (hp : p.resetPending = true) :
    (call.onPoll p).resetPending = true := by
  cases call with
  | clearReset => exact absurd rfl hcall
  | requestMaskableInterrupt | requestNonMaskableInterrupt => exact (see_resetPending _ _).trans hp
  | requestReset => rfl
  | _ => exact hp

/-- What the host requests after a sequence that did not poll has not been seen. -/
theorem onPoll_skipped (call : Call) {p : Poll} (hp : p.polled = some noPoll) :
    (call.onPoll p).polled = some noPoll := by
  have hsee (q : Poll) (hq : q.polled = some noPoll) (bit : ℕ) : (q.see bit).polled = some noPoll := by
    rw [see, hq]
    exact hq
  cases call with
  | requestMaskableInterrupt => exact hsee (p.request _) hp irqLine
  | requestNonMaskableInterrupt => exact hsee (p.request _) hp nmiLatch
  | clearMaskableInterrupt | clearNonMaskableInterrupt => exact congrArg (Option.map _) hp
  | _ => exact hp

theorem applyCalls_noReset {calls : List Call} (hcalls : .requestReset ∉ calls) {p : Poll} (hp : p.resetPending = false) :
    (p.applyCalls calls).resetPending = false := by
  induction calls generalizing p with
  | nil => exact hp
  | cons call calls ih =>
    rw [List.mem_cons, not_or] at hcalls
    exact ih hcalls.2 (onPoll_noReset (Ne.symm hcalls.1) hp)

theorem applyCalls_reset {calls : List Call} (hcalls : .clearReset ∉ calls) {p : Poll} (hp : p.resetPending = true) :
    (p.applyCalls calls).resetPending = true := by
  induction calls generalizing p with
  | nil => exact hp
  | cons call calls ih =>
    rw [List.mem_cons, not_or] at hcalls
    exact ih hcalls.2 (onPoll_reset (Ne.symm hcalls.1) hp)

end Poll

/-! ## An idle cycle -/

namespace Plain
variable {σ : Type} (H : Host σ) (chip : Chip)

theorem boundary_jamIdle {q : Plain σ} (hh : q.core.halted = true) (hr : q.poll.resetPending = false) :
    q.boundary = .jamIdle := by
  simp [SixFiveOhTwo.boundary, hh, hr]

/-- A halted processor reads $FFFF, and that is all. -/
theorem step_jamIdle {q : Plain σ} (hh : q.core.halted = true) (hr : q.poll.resetPending = false) :
    exec H (Code.step chip) q = ((.jamIdle, 1), q.afterRead H 0xFFFF) := by
  have hb := boundary_jamIdle hh hr
  have hdecided : q.decided = q := by rw [decided, hb]; rfl
  rw [exec_step, ran, hb, hdecided]
  rfl

end Plain

namespace Machine
variable {σ : Type} (H : Host σ) (chip : Chip)

/-- A processor that has jammed, with no reset pending. -/
structure Jammed (c : Core) (m : Machine σ) : Prop where
  routed : m.cpu.Routed
  core : m.cpu.core = c
  halted : c.halted = true
  noReset : m.cpu.poll.resetPending = false

/-- An event in which no reset is requested. -/
def NoReset : Event → Prop
  | .called call => call ≠ .requestReset
  | .moved => True
  | .stepped log => ∀ call ∈ log.trace, .requestReset ∉ call.calls

/-- What a step of a jammed processor is. -/
structure IdleStep (before : Machine σ) (step : StepLog × Machine σ) : Prop where
  kind : step.1.kind = .jamIdle
  cycles : step.1.cycles = 1
  reads : ∃ value, step.1.trace.map HostCall.access = [.r 0xFFFF value]
  core : step.2.cpu.core = before.cpu.core
  /-- The host is as its one callback left it. -/
  host : step.2.host = (H.readByte before.cpu.bus.readByte.base 0xFFFF before.host).2.2

theorem Jammed.idleStep {c : Core} {m : Machine σ} (h : Jammed c m) : IdleStep H m (m.step H chip) := by
  obtain ⟨hkind, hcycles, htrace, hplain, -⟩ := step_plain H chip h.routed
  have hhalted : m.opened.core.halted = true := (congrArg Core.halted h.core).trans h.halted
  have hstep := Plain.step_jamIdle H chip hhalted h.noReset
  rw [stepRun, hstep] at hkind hcycles htrace hplain
  refine ⟨hkind, hcycles, ?_, congrArg Plain.core hplain, congrArg Plain.host hplain⟩
  exact ⟨_, congrArg (List.map HostCall.access) htrace⟩

/-- Nothing but a reset changes a jammed processor. -/
theorem Jammed.act {c : Core} {m : Machine σ} (h : Jammed c m) (action : Action σ)
    (hevent : NoReset (act H chip action m).1) : Jammed c (act H chip action m).2 := by
  refine ⟨act_routed H chip action h.routed, ?_, h.halted, ?_⟩
  · cases action with
    | call call => exact (Call.apply_core call m.cpu).trans h.core
    | host move => exact h.core
    | step => exact (h.idleStep H chip).core.trans h.core
  · cases action with
    | call call => exact (congrArg Poll.resetPending (Call.apply_poll call m.cpu)).trans (Poll.onPoll_noReset hevent h.noReset)
    | host move => exact h.noReset
    | step =>
      obtain ⟨-, -, htrace, hplain, -⟩ := step_plain H chip h.routed
      have hhalted : m.opened.core.halted = true := (congrArg Core.halted h.core).trans h.halted
      rw [stepRun, Plain.step_jamIdle H chip hhalted h.noReset] at htrace hplain
      have hcalls : .requestReset ∉ (m.opened.readAnswer H 0xFFFF).2.1 := by
        refine hevent (m.opened.poll.record m.opened.readByte (.r 0xFFFF (m.opened.readAnswer H 0xFFFF).1)
          (m.opened.readAnswer H 0xFFFF).2.1) ?_
        rw [htrace]
        exact List.mem_singleton_self _
      have hpoll : (m.step H chip).2.cpu.poll = m.cpu.poll.access _ := congrArg Plain.poll hplain
      exact (congrArg Poll.resetPending hpoll).trans (Poll.applyCalls_noReset hcalls h.noReset)

/-! ## The start sequence, and the step after it -/

theorem step_reset {m : Machine σ} (hr : m.cpu.Routed) (hpending : m.cpu.poll.resetPending = true) :
    (m.step H chip).1.kind = .reset ∧ (∃ first second stacked low high,
      (m.step H chip).1.trace.map HostCall.access = startSequence m.cpu.core first second stacked low high ∧
        (m.step H chip).2.cpu.core = m.cpu.core.restarted low high) ∧
      (m.step H chip).2.cpu.poll.polled = some noPoll := by
  obtain ⟨hkind, -, htrace, hplain, -⟩ := step_plain H chip hr
  have hb : m.opened.boundary = .reset := by simp [SixFiveOhTwo.boundary, opened, plain, hpending]
  have hdecided : m.opened.decided = m.opened := by rw [Plain.decided, hb]; rfl
  rw [stepRun, Plain.exec_step, Plain.ran, hb, hdecided] at hkind htrace hplain
  obtain ⟨first, second, stacked, low, high, hsequence, hcore⟩ :=
    Plain.exec_ensures H (acceptReset_restarts m.opened.sighted)
  obtain ⟨_, -, -, -, hpoll, -⟩ := Plain.exec_reaches H (reset_reaches m.opened.scenery)
  refine ⟨hkind, ⟨first, second, stacked, low, high, ?_, ?_⟩, ?_⟩
  · rw [htrace]
    exact hsequence
  · exact (congrArg Plain.core hplain).trans hcore
  · have hend : (m.step H chip).2.cpu.poll = (Plain.exec H acceptReset m.opened).2.poll := congrArg Plain.poll hplain
    rw [hend]
    exact congrArg Poll.polled hpoll

/-- A machine that has seen no request since it was restarted. -/
structure Restarted (m : Machine σ) : Prop where
  routed : m.cpu.Routed
  running : m.cpu.core.halted = false
  skipped : m.cpu.poll.polled = some noPoll

theorem Restarted.acted {m : Machine σ} (h : Restarted m) {action : Action σ} (hstep : action ≠ .step) :
    Restarted (act H chip action m).2 := by
  refine ⟨act_routed H chip action h.routed, ?_, ?_⟩
  · cases action with
    | call call => exact (congrArg Core.halted (Call.apply_core call m.cpu)).trans h.running
    | host move => exact h.running
    | step => exact absurd rfl hstep
  · cases action with
    | call call => exact (congrArg Poll.polled (Call.apply_poll call m.cpu)).trans (Poll.onPoll_skipped call h.skipped)
    | host move => exact h.skipped
    | step => exact absurd rfl hstep

theorem Restarted.waited {m : Machine σ} (h : Restarted m) {actions : List (Action σ)} (hsteps : .step ∉ actions) :
    Restarted ((act H chip).final m actions) := by
  induction actions generalizing m with
  | nil => exact h
  | cons action actions ih =>
    rw [List.mem_cons, not_or] at hsteps
    exact ih (h.acted H chip (Ne.symm hsteps.1)) hsteps.2

/-- With no other reset, the next step of a restarted machine is an instruction. -/
theorem Restarted.kind {m : Machine σ} (h : Restarted m) (hpending : m.cpu.poll.resetPending = false) :
    (m.step H chip).1.kind = .instruction := by
  obtain ⟨hkind, -⟩ := step_plain H chip h.routed
  rw [hkind, stepRun, Plain.exec_step]
  change SixFiveOhTwo.boundary m.cpu.core m.cpu.poll = .instruction
  simp [SixFiveOhTwo.boundary, hpending, h.running, Poll.deciding, h.skipped, noPoll, nmiLatch, irqLine]

/-- S after pulls from the stack that were not writes. -/
theorem stackDown_eq (s n : ℕ) : stackDown s (n + 1) = masked 8 ((s : ℤ) - (n + 1 : ℕ)) := by
  induction n with
  | zero => rfl
  | succ n ih =>
    rw [stackDown, ih]
    simp only [masked]
    omega

/-- **JAM is absorbing, and only reset leaves it.** Whatever a host does with a constructed processor:
until a reset is requested, each step of a jammed processor is one read of $FFFF; a pending reset makes the
next step the start sequence; and the step after that, unless a further reset is pending, is an
instruction. -/
theorem jam_absorbing (readByte writeByte : Callable) (host : σ) (actions : List (HostAction σ)) :
    let m := (hostAct H chip).final (start readByte writeByte host) actions
    let c := m.cpu.core
    (c.halted = true → m.cpu.poll.resetPending = false → ∀ waited : List (Action σ),
      (∀ event ∈ (act H chip).shown m waited, NoReset event) →
      let idle := (act H chip).final m waited
      let step := idle.step H chip
      (idle.cpu.core = c ∧ step.2.cpu.core = c) ∧ step.1.kind = .jamIdle ∧ step.1.cycles = 1 ∧
        (∃ value, step.1.trace.map HostCall.access = [.r 0xFFFF value]) ∧
        step.2.host = (H.readByte idle.cpu.bus.readByte.base 0xFFFF idle.host).2.2) ∧
    (∀ calls : List Call, .clearReset ∉ calls → (m.cpu.requestReset.applyCalls calls).poll.resetPending = true) ∧
    (m.cpu.poll.resetPending = true →
      let step := m.step H chip
      step.1.kind = .reset ∧
      (∃ (a b d e f low high : Byte), step.1.trace.map HostCall.access = [
          .r c.pc a, .r c.pc b, .r (0x100 ||| c.s) d, .r (0x100 ||| masked 8 ((c.s : ℤ) - 1)) e,
          .r (0x100 ||| masked 8 ((c.s : ℤ) - 2)) f, .r 0xFFFC low, .r 0xFFFD high] ∧
        step.2.cpu.core.pc = (high.val <<< 8) ||| low.val) ∧
      (step.2.cpu.core.a = c.a ∧ step.2.cpu.core.x = c.x ∧ step.2.cpu.core.y = c.y ∧
        step.2.cpu.core.p = c.p ||| flagI ∧ step.2.cpu.core.s = masked 8 ((c.s : ℤ) - 3) ∧
        step.2.cpu.core.halted = false) ∧
      ∀ waited : List (Action σ), .step ∉ waited →
        let next := (act H chip).final step.2 waited
        next.cpu.poll.resetPending = false → (next.step H chip).1.kind = .instruction) := by
  intro m c
  have hr : m.cpu.Routed := (System.final_preserves (hostAct_settled H chip) ⟨.init readByte writeByte, rfl⟩ actions).1
  refine ⟨?_, ?_, ?_⟩
  · intro hh hpending waited hquiet idle step
    have hjam : Jammed c idle := System.final_preserves_of_shown
      (fun action _ h hevent => h.act H chip action hevent) ⟨hr, rfl, hh, hpending⟩ hquiet
    have hstep := hjam.idleStep H chip
    exact ⟨⟨hjam.core, hstep.core.trans hjam.core⟩, hstep.kind, hstep.cycles, hstep.reads, hstep.host⟩
  · intro calls hcalls
    rw [CPU.applyCalls_poll]
    exact Poll.applyCalls_reset hcalls rfl
  · intro hpending step
    obtain ⟨hkind, ⟨first, second, stacked, low, high, htrace, hcore⟩, hskipped⟩ := step_reset H chip hr hpending
    have hdown : ∀ n, stackDown c.s (n + 1) = masked 8 ((c.s : ℤ) - (n + 1 : ℕ)) := stackDown_eq c.s
    refine ⟨hkind, ⟨first, second, stacked.1, stacked.2.1, stacked.2.2, low, high, ?_, ?_⟩, ?_, ?_⟩
    · rw [htrace, startSequence, hdown 0, hdown 1]
      rfl
    · rw [hcore]
      rfl
    · rw [hcore]
      exact ⟨rfl, rfl, rfl, rfl, hdown 2, rfl⟩
    · intro waited hsteps next hnext
      have hrestarted : Restarted step.2 :=
        ⟨(step_plain H chip hr).2.2.2.2, by rw [hcore]; rfl, hskipped⟩
      exact (hrestarted.waited H chip hsteps).kind H chip hnext

/-- JAM at the first address, an interrupt requested, and a reset. -/
theorem jam_absorbing_first :
    (((act .flat mos6502).final ((hostAct .flat mos6502).final (start (.host 0) (.host 1) (holding 0 [0x02])) [.act .step])
      [.call .requestNonMaskableInterrupt, .step]).step .flat mos6502).1.kind = .jamIdle ∧
    (((hostAct .flat mos6502).final (start (.host 0) (.host 1) (holding 0 [0x02]))
      [.act .step, .act (.call .requestReset)]).step .flat mos6502).1.kind = .reset ∧
    ((((hostAct .flat mos6502).final (start (.host 0) (.host 1) (holding 0 [0x02]))
      [.act .step, .act (.call .requestReset)]).step .flat mos6502).2.step .flat mos6502).1.kind = .instruction := by
  have hjam := jam_absorbing .flat mos6502 (.host 0) (.host 1) (holding 0 [0x02]) [.act .step]
  have hreset := jam_absorbing .flat mos6502 (.host 0) (.host 1) (holding 0 [0x02]) [.act .step, .act (.call .requestReset)]
  refine ⟨?_, (hreset.2.2 (by decide +kernel)).1, (hreset.2.2 (by decide +kernel)).2.2.2 [] List.not_mem_nil (by decide +kernel)⟩
  refine (hjam.1 (by decide +kernel) (by decide +kernel) [.call .requestNonMaskableInterrupt, .step] ?_).2.1
  intro event hevent
  rcases List.mem_cons.mp hevent with rfl | h
  · exact (by decide : Call.requestNonMaskableInterrupt ≠ .requestReset)
  · cases List.mem_singleton.mp h
    intro call hcall
    revert call
    decide +kernel

end Machine

end SixFiveOhTwo
