import SixFiveOhTwo.Aborts.Residue

/-! # Cycle accounting after an aborted step

A step that an exception leaves at the operand read of a page-crossing read leaves `extra` set, and the
next instruction that adds no cycles of its own returns one too many. No other abort miscounts a later step.
-/

namespace SixFiveOhTwo
open Bits Interaction Code
set_option autoImplicit false

namespace Machine
variable {σ : Type} (H : RaisingHost σ) (chip : Chip)

/-! ## A step, as its decision and the sequence decided on -/

/-- A machine with a plain machine's registers, poll and accesses. -/
structure Deciding {τ : Type} (m : Machine σ) (q : Plain τ) : Prop where
  core : m.cpu.core = q.core
  poll : m.cpu.poll = q.poll
  dmaStalled : m.cpu.dmaStalled = q.dmaStalled
  trace : m.trace = q.trace

theorem handleRaising_quiet {τ : Type} (H₀ : Host τ) {op : Op} {m : Machine σ} {q : Plain τ} (hop : op.Quiet)
    (h : Deciding m q) :
    ∃ m', handleRaising H op m = (some (Plain.handle H₀ op q).1, m') ∧ Deciding m' (Plain.handle H₀ op q).2 := by
  cases op with
  | read | write => exact hop.elim
  | core => exact ⟨m, congrArg (fun core => (some core, m)) h.core, h⟩
  | dmaStalled => exact ⟨m, congrArg (fun stalled => (some stalled, m)) h.dmaStalled, h⟩
  | poll => exact ⟨m, congrArg (fun poll => (some poll, m)) h.poll, h⟩
  | setCore core => exact ⟨_, rfl, rfl, h.poll, h.dmaStalled, h.trace⟩
  | setPoll poll => exact ⟨_, rfl, h.core, rfl, h.dmaStalled, h.trace⟩

/-- What an attempt does: no host raises before the first access, so the boundary is decided, and its sequence
returns or is left at an access. -/
theorem attemptStep_cases (m : Machine σ) :
    let kind := boundary m.cpu.core m.cpu.poll
    ∃ m' : Machine σ, m'.seen = { core := m.cpu.core.decided kind, trace := [] } ∧
      ((∃ cycles done, (kind.code chip).attempt (handleRaising H) m' = (some cycles, done) ∧ m.attemptStep H chip =
          (.stepped { kind, cycles, trace := done.trace, before := m.cpu, after := done.cpu }, done)) ∨
        ∃ done, (kind.code chip).attempt (handleRaising H) m' = (none, done) ∧ m.attemptStep H chip =
          (.aborted { before := m.cpu, trace := done.trace, after := done.cpu }, done)) := by
  intro kind
  let H₀ : Host σ := { readByte := fun _ _ host => (0, [], host), writeByte := fun _ _ _ host => ([], host) }
  obtain ⟨m', hrun, h⟩ := Tree.attempt_related (handleRaising H) (fun _ _ _ => handleRaising_quiet H H₀)
    Code.decision_quiet (⟨rfl, rfl, rfl, rfl⟩ : Deciding { m with trace := [] } m.opened)
  have hdecision : Code.decision.run (Plain.handle H₀) m.opened = (kind, m.opened.decided) :=
    Plain.exec_decision H₀ m.opened
  rw [hdecision] at hrun h
  have hstep : (Code.step chip).attempt (handleRaising H) { m with trace := [] } =
      (((kind.code chip).attempt (handleRaising H) m').1.map (Prod.mk kind),
        ((kind.code chip).attempt (handleRaising H) m').2) := by
    rw [Code.step_eq_decision, Tree.attempt_bind_some _ hrun, Tree.attempt_map]
  refine ⟨m', ?_, ?_⟩
  · rw [seen, h.core, h.trace]
    rfl
  · rw [attemptStep, hstep]
    cases (kind.code chip).attempt (handleRaising H) m' with
    | mk answer done =>
      cases answer with
      | some cycles => exact .inl ⟨cycles, done, rfl, rfl⟩
      | none => exact .inr ⟨done, rfl, rfl⟩

/-! ## One attempt -/

/-- An instruction was left at the operand read that follows its page-crossing cycle. -/
def AbortLog.Stranded (log : AbortLog) : Prop :=
  boundary log.before.core log.before.poll = .instruction ∧
    stranded log.before.core (log.trace.map HostCall.access) = true

instance (log : AbortLog) : Decidable log.Stranded := inferInstanceAs (Decidable (_ ∧ _))

theorem stranded_decided (c : Core) (kind : BoundaryKind) (t : List Access) :
    stranded (c.decided kind) t = stranded c t := by
  have h : ∀ polledI, stranded { c with polledI } t = stranded c t := by
    intro polledI
    cases t with
    | nil => rfl
    | cons access t =>
      cases access with
      | w => rfl
      | r address opcode =>
        simp only [stranded]
        cases opcodes (Fin.ofNat 256 opcode) with
        | implied => rfl
        | addressed handler mode cycles => cases mode <;> rfl
  cases kind with
  | irq | instruction => exact h none
  | _ => rfl

theorem Core.decided_extra (c : Core) (kind : BoundaryKind) : (c.decided kind).extra = c.extra := by
  cases kind <;> rfl

/-- A step that returns from a machine whose `extra` is zero returns its accesses, and leaves it zero. -/
theorem attemptStep_stepped {m : Machine σ} (hx : m.cpu.core.extra = 0) {log : StepLog}
    (hstep : (m.attemptStep H chip).1 = .stepped log) :
    log.cycles = log.trace.length ∧ (m.attemptStep H chip).2.cpu.core.extra = 0 := by
  obtain ⟨m', hseen, ⟨cycles, done, hrun, h⟩ | ⟨done, -, h⟩⟩ := attemptStep_cases H chip m
  · have hx' : m'.seen.core.extra = 0 := by
      rw [hseen]
      exact (Core.decided_extra ..).trans hx
    obtain ⟨⟨t, htrace, hlen, -⟩, hextra⟩ :=
      Tree.wp_attempt (handleRaising_within H) (BoundaryKind.code_counts chip _ m'.seen hx') hrun
    rw [hseen, List.nil_append] at htrace
    rw [h] at hstep ⊢
    cases hstep
    refine ⟨?_, hextra⟩
    rw [hlen, ← htrace]
    exact List.length_map ..
  · rw [h] at hstep
    cases hstep

/-- An aborted step leaves `extra` alone, unless it strands. -/
theorem attemptStep_aborted {m : Machine σ} {log : AbortLog} (hstep : (m.attemptStep H chip).1 = .aborted log) :
    (m.attemptStep H chip).2.cpu.core.extra = m.cpu.core.extra ∨ log.Stranded := by
  obtain ⟨m', hseen, ⟨cycles, done, -, h⟩ | ⟨done, hrun, h⟩⟩ := attemptStep_cases H chip m
  · rw [h] at hstep
    cases hstep
  · obtain ⟨op, s₀, hop, hkept⟩ :=
      Tree.throughout_attempt (handleRaising_within H) (BoundaryKind.code_residue chip _ m'.seen) hrun
    have haccess : op.IsAccess := by
      cases op with
      | read | write => trivial
      | core | setCore | dmaStalled | poll | setPoll => exact nomatch congrArg Prod.fst hop
    rw [h] at hstep ⊢
    cases hstep
    rcases hkept haccess with hextra | ⟨t, htrace, hkind, hstranded⟩
    · rw [hseen] at hextra
      exact .inl (hextra.trans (Core.decided_extra ..))
    · rw [hseen] at htrace hstranded
      rw [List.nil_append] at htrace
      rw [stranded_decided, ← htrace] at hstranded
      exact .inr ⟨hkind, hstranded⟩

/-! ## Runs -/

/-- An exception left the step at the operand read after a page crossing. -/
def RaisingEvent.Strands : RaisingEvent → Prop
  | .attempted (.aborted log) => log.Stranded
  | _ => False

/-- A step that returned returned the number of accesses it made. -/
def RaisingEvent.Counted : RaisingEvent → Prop
  | .attempted (.stepped log) => log.cycles = log.trace.length
  | _ => True

instance : DecidablePred RaisingEvent.Strands
  | .attempted (.aborted log) => inferInstanceAs (Decidable log.Stranded)
  | .attempted (.stepped _) | .moved => inferInstanceAs (Decidable False)

instance : DecidablePred RaisingEvent.Counted
  | .attempted (.stepped log) => inferInstanceAs (Decidable (log.cycles = log.trace.length))
  | .attempted (.aborted _) | .moved => inferInstanceAs (Decidable True)

/-- Every step of a run that returned returned the number of accesses it made. -/
def Accounted (events : List RaisingEvent) : Prop := ∀ event ∈ events, event.Counted

instance (events : List RaisingEvent) : Decidable (Accounted events) :=
  inferInstanceAs (Decidable (∀ event ∈ events, event.Counted))

/-- An action of a machine whose `extra` is zero leaves it zero, unless it strands a step. -/
theorem raisingAct_extra (action : HostAction σ) {m : Machine σ} (hx : m.cpu.core.extra = 0)
    (h : ¬(raisingAct H chip action m).1.Strands) : (raisingAct H chip action m).2.cpu.core.extra = 0 := by
  cases action with
  | act action =>
    cases action with
    | call call => exact (congrArg Core.extra (Call.apply_core call m.cpu)).trans hx
    | host move => exact hx
    | step =>
      change (m.attemptStep H chip).2.cpu.core.extra = 0
      cases hstep : (m.attemptStep H chip).1 with
      | stepped log => exact (attemptStep_stepped H chip hx hstep).2
      | aborted log =>
        rcases attemptStep_aborted H chip hstep with hextra | hstranded
        · exact hextra.trans hx
        · rw [raisingAct, hstep] at h
          exact absurd hstranded h
  | readByte callable => exact hx
  | writeByte callable => exact hx
  | restore state => rfl
  | set register parsed => exact (set_extra m.cpu register parsed).trans hx

theorem raisingAct_counted (action : HostAction σ) {m : Machine σ} (hx : m.cpu.core.extra = 0) :
    (raisingAct H chip action m).1.Counted := by
  cases action with
  | act action =>
    cases action with
    | call call => trivial
    | host move => trivial
    | step =>
      rw [raisingAct]
      cases hstep : (m.attemptStep H chip).1 with
      | stepped log => exact (attemptStep_stepped H chip hx hstep).1
      | aborted log => trivial
  | readByte | writeByte | restore | set => trivial

/-- **Accounting after aborted steps.** In every run in which no exception leaves a step at the operand read
after a page crossing, every step that returns returns the number of accesses it made. -/
theorem abort_accounting (readByte writeByte : Callable) (host : σ) (actions : List (HostAction σ))
    (h : ∀ event ∈ (raisingAct H chip).shown (start readByte writeByte host) actions, ¬event.Strands) :
    Accounted ((raisingAct H chip).shown (start readByte writeByte host) actions) :=
  System.shown_forall_of_shown (fun action _ hx => raisingAct_extra H chip action hx)
    (fun action _ => raisingAct_counted H chip action) rfl h

/-- LDX #1; LDA $10FF,X; NOP, on a bus whose first read of `address` raises. -/
def fragile (address : ℕ) : RaisingHost Bool where
  readByte _ read armed :=
    if read = address ∧ armed then (none, [], false)
    else (some ([0xA2, 0x01, 0xBD, 0xFF, 0x10].getD read 0xEA), [], armed)
  writeByte _ _ _ armed := (true, [], armed)

theorem abort_accounting_fetch :
    Accounted ((raisingAct (fragile 3) {}).shown (start (.host 0) (.host 1) true) (List.replicate 4 (.act .step))) :=
  abort_accounting (fragile 3) {} (.host 0) (.host 1) true (List.replicate 4 (.act .step)) (by decide +kernel)

/-- The exception leaves LDA at its operand read; the NOP after it returns three cycles for two accesses. -/
theorem abort_miscounts :
    ¬Accounted ((raisingAct (fragile 0x1100) {}).shown (start (.host 0) (.host 1) true)
      (List.replicate 3 (.act .step))) := by
  decide +kernel

end Machine

end SixFiveOhTwo
