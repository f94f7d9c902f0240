import SixFiveOhTwo.Lines.Words
import SixFiveOhTwo.Snapshots.Complete

/-! # Redundant calls on the IRQ line

IRQ is a level, but the calls write the remembered poll as well as the line. Asserting an asserted line,
or releasing a released one, is seen only where the last poll saw the line otherwise than it is now and
the next boundary looks at it (`Machine.Stale`): there the boundary takes the line as it is.
-/

namespace SixFiveOhTwo
open Bits Interaction
set_option autoImplicit false

/-- A call that asserts the line while it is asserted, or releases it while it is released. -/
def Call.Redundant (requests : ℕ) : Call → Prop
  | requestMaskableInterrupt => requests &&& irqLine ≠ 0
  | clearMaskableInterrupt => requests &&& irqLine = 0
  | _ => False

instance (requests : ℕ) (call : Call) : Decidable (call.Redundant requests) := by
  unfold Call.Redundant
  split <;> infer_instance

theorem and_irqLine (v : ℕ) : v &&& irqLine = 0 ∨ v &&& irqLine = irqLine := by
  have h : v &&& irqLine = (v.testBit 0).toNat * 2 ^ 0 := Nat.and_two_pow v 0
  rw [h]
  cases v.testBit 0
  · exact .inl rfl
  · exact .inr rfl

theorem Call.Redundant.onLine {call : Call} {requests : ℕ} (h : call.Redundant requests) : call.OnLine = true := by
  cases call <;> first | rfl | exact h.elim

/-- A redundant call leaves the line as it is, whatever word it is called on. -/
theorem Call.Redundant.line {call : Call} {requests : ℕ} (h : call.Redundant requests) (v : ℕ) :
    call.onRequests v &&& irqLine = requests &&& irqLine := by
  cases call with
  | requestMaskableInterrupt =>
    have hline : requests &&& irqLine = irqLine := (and_irqLine requests).resolve_left h
    rw [onRequests, Nat.and_or_distrib_right, Nat.and_self, hline]
    rcases and_irqLine v with hv | hv <;> rw [hv] <;> rfl
  | clearMaskableInterrupt =>
    have hline : requests &&& irqLine = 0 := h
    rw [onRequests, without_and_self, hline]
  | _ => exact h.elim

theorem Call.Redundant.requests {call : Call} {requests : ℕ} (h : call.Redundant requests) :
    call.onRequests requests = requests :=
  eq_of_offLine (offLine_of_onLine h.onLine requests) (h.line requests)

theorem Call.Redundant.resetPending {call : Call} {requests : ℕ} (h : call.Redundant requests) (cpu : CPU) :
    (call.apply cpu).poll.resetPending = cpu.poll.resetPending := by
  cases call with
  | requestMaskableInterrupt => exact Poll.see_resetPending _ _
  | clearMaskableInterrupt => rfl
  | _ => exact h.elim

/-! ## Machines told apart by the line alone -/

namespace Machine
variable {σ : Type} (H : Host σ) (chip : Chip)

/-- What a step does, as its host sees it, with the registers it leaves. -/
structure Performed where
  kind : BoundaryKind
  cycles : ℕ
  trace : List HostCall
  core : Core

def StepLog.performed (log : StepLog) : Performed where
  kind := log.kind
  cycles := log.cycles
  trace := log.trace
  core := log.after.core

/-- Two machines that differ at most in the line their polls saw, and then where the next boundary does
not look at it. -/
structure Indistinct (m m' : Machine σ) : Prop where
  polled : m.Polled
  polled' : m'.Polled
  alike : Plain.Alike (fun p => p.confirm.unpolled) m.opened m'.opened
  known : m.cpu.poll.known.map offLine = m'.cpu.poll.known.map offLine
  deaf : m.cpu.poll.known = m'.cpu.poll.known ∨ m.cpu.core.halted = true ∨ m.cpu.core.masking ≠ 0

end Machine

/-- What a host can tell of an event, with the registers: of the steps alone. -/
def Event.performed : Event → Option Machine.Performed
  | stepped log => some log.performed
  | _ => none

namespace Machine
variable {σ : Type} (H : Host σ) (chip : Chip) {m m' : Machine σ}

theorem Indistinct.requests (h : m.Indistinct m') : m.cpu.poll.requests = m'.cpu.poll.requests := by
  have hrequests := congrArg Poll.requests h.alike.poll
  exact hrequests

theorem Indistinct.resetPending (h : m.Indistinct m') : m.cpu.poll.resetPending = m'.cpu.poll.resetPending := by
  have hreset := congrArg Poll.resetPending h.alike.poll
  exact hreset

theorem Indistinct.boundary (h : m.Indistinct m') : m.opened.boundary = m'.opened.boundary := by
  have hcore : m.cpu.core = m'.cpu.core := h.alike.core
  change SixFiveOhTwo.boundary m.cpu.core m.cpu.poll = SixFiveOhTwo.boundary m'.cpu.core m'.cpu.poll
  rw [← hcore]
  rcases h.deaf with hknown | hdeaf
  · have hsame : m.cpu.poll.Same m'.cpu.poll := ⟨h.requests, h.resetPending, hknown⟩
    rw [SixFiveOhTwo.boundary, SixFiveOhTwo.boundary, h.resetPending,
      hsame.deciding h.polled.sound h.polled'.sound]
  · exact boundary_offLine h.resetPending
      ((Poll.offLine_deciding h.polled.sound h.polled'.sound).mpr h.known) hdeaf

theorem Indistinct.of_same (hp : m.Polled) (hp' : m'.Polled) (h : m.opened.Same m'.opened) : m.Indistinct m' :=
  ⟨hp, hp', h.alike, congrArg (Option.map offLine) h.poll.known, .inl h.poll.known⟩

theorem Polled.known_called (h : m.Polled) (call : Call) :
    (act H chip (.call call) m).2.cpu.poll.known = m.cpu.poll.known.map call.onRequests := by
  rw [← Poll.known_call h.sound, ← Call.apply_poll]
  rfl

theorem Indistinct.call (h : m.Indistinct m') (call : Call) :
    (act H chip (.call call) m).2.Indistinct (act H chip (.call call) m').2 := by
  have hknown := h.polled.known_called H chip call
  have hknown' := h.polled'.known_called H chip call
  refine ⟨act_polled H chip (.call call) m h.polled, act_polled H chip (.call call) m' h.polled', ?_, ?_, ?_⟩
  · rw [opened_call, opened_call]
    refine { h.alike with poll := ?_, dmaStalled := congrArg call.onStalled h.alike.dmaStalled }
    refine Poll.unpolled_congr ?_ (Poll.onPoll_resetPending h.resetPending call)
    rw [Call.onPoll_requests, Call.onPoll_requests]
    exact congrArg call.onRequests h.requests
  · rw [hknown, hknown', Option.map_map, Option.map_map]
    exact map_of_map (fun v w hvw => offLine_onRequests hvw call) h.known
  · rcases h.deaf with heq | hdeaf
    · exact .inl (by rw [hknown, hknown', heq])
    · refine .inr ?_
      have hcore : (act H chip (.call call) m).2.cpu.core = m.cpu.core := Call.apply_core call m.cpu
      rw [hcore]
      exact hdeaf

/-- An idle cycle leaves apart what was, and the processor halted. -/
theorem Indistinct.idle (h : m.Indistinct m') (hidle : m.opened.boundary = .jamIdle) :
    (Plain.ran H chip m.opened).1 = (Plain.ran H chip m'.opened).1 ∧
      Plain.Alike (fun p => p.confirm.unpolled) (Plain.ran H chip m.opened).2 (Plain.ran H chip m'.opened).2 ∧
      (Plain.ran H chip m.opened).2.poll.known.map offLine = (Plain.ran H chip m'.opened).2.poll.known.map offLine ∧
      (Plain.ran H chip m.opened).2.core.halted = true := by
  have hdecided : m.opened.decided = m.opened ∧ m'.opened.decided = m'.opened := by
    rw [Plain.decided, Plain.decided, ← h.boundary, hidle]
    exact ⟨rfl, rfl⟩
  rw [Plain.ran, Plain.ran, ← h.boundary, hidle, hdecided.1, hdecided.2]
  obtain ⟨-, hread⟩ := Plain.alike_read (H := H) Poll.blind_unpolled h.alike 0xFFFF
  refine ⟨rfl, hread.confirm Poll.blind_unpolled, ?_, halted_of_jamIdle hidle⟩
  have hpoll : ∀ c : Machine σ, c.Polled → (Plain.exec H Code.haltedCycle c.opened).2.poll.known =
      c.cpu.poll.known.map (requestsAfter · (c.opened.readAnswer H 0xFFFF).2.1) :=
    fun c hc => Poll.known_applyCalls hc.sound.confirm _
  have hcalls : (m.opened.readAnswer H 0xFFFF).2.1 = (m'.opened.readAnswer H 0xFFFF).2.1 := by
    rw [Plain.readAnswer, Plain.readAnswer, h.alike.readByte, h.alike.host]
  change (Plain.exec H Code.haltedCycle m.opened).2.poll.known.map offLine =
    (Plain.exec H Code.haltedCycle m'.opened).2.poll.known.map offLine
  rw [hpoll m h.polled, hpoll m' h.polled', hcalls, Option.map_map, Option.map_map]
  exact map_of_map (fun v w hvw => offLine_requestsAfter hvw _) h.known

theorem Indistinct.step (h : m.Indistinct m') :
    (m.step H chip).1.performed = (m'.step H chip).1.performed ∧
      (m.step H chip).2.Indistinct (m'.step H chip).2 := by
  obtain ⟨hkind, hcycles, htrace, hplain, -⟩ := step_plain H chip h.polled.settled.1
  obtain ⟨hkind', hcycles', htrace', hplain', -⟩ := step_plain H chip h.polled'.settled.1
  have hp : (m.step H chip).2.Polled := act_polled H chip .step m h.polled
  have hp' : (m'.step H chip).2.Polled := act_polled H chip .step m' h.polled'
  rw [stepRun, Plain.exec_step] at hkind hcycles htrace hplain hkind' hcycles' htrace' hplain'
  have hperformed : (Plain.ran H chip m.opened).1 = (Plain.ran H chip m'.opened).1 →
      (Plain.ran H chip m.opened).2.trace = (Plain.ran H chip m'.opened).2.trace →
      (Plain.ran H chip m.opened).2.core = (Plain.ran H chip m'.opened).2.core →
      (m.step H chip).1.performed = (m'.step H chip).1.performed := by
    intro hc ht hcore
    have hafter : (m.step H chip).1.after.core = (m'.step H chip).1.after.core :=
      (congrArg Plain.core hplain).trans (hcore.trans (congrArg Plain.core hplain').symm)
    rw [StepLog.performed, StepLog.performed, hkind, hkind', hcycles, hcycles', htrace, htrace', hafter,
      h.boundary, hc, ht]
  by_cases hidle : m.opened.boundary = .jamIdle
  · obtain ⟨hran, halike, hknown, hhalted⟩ := h.idle H chip hidle
    refine ⟨hperformed hran halike.trace halike.core, hp, hp', ?_, ?_, .inr (.inl ?_)⟩
    · rw [opened, opened, hplain, hplain']
      exact { halike with trace := rfl }
    · exact (congrArg (Option.map offLine ·.poll.known) hplain).trans
        (hknown.trans (congrArg (Option.map offLine ·.poll.known) hplain').symm)
    · exact (congrArg (·.core.halted) hplain).trans hhalted
  · obtain ⟨hran, hsame⟩ := Plain.ran_same H chip h.boundary hidle h.alike
    refine ⟨hperformed hran hsame.trace hsame.core, .of_same hp hp' ?_⟩
    rw [opened, opened, hplain, hplain']
    exact { hsame with trace := rfl }

theorem act_indistinct (action : Action σ) (m m' : Machine σ) (h : m.Indistinct m') :
    (act H chip action m).1.performed = (act H chip action m').1.performed ∧
      (act H chip action m).2.Indistinct (act H chip action m').2 := by
  cases action with
  | call call => exact ⟨rfl, h.call H chip call⟩
  | host move =>
    exact ⟨rfl, ⟨h.polled.settled, h.polled.sound⟩, ⟨h.polled'.settled, h.polled'.sound⟩,
      { h.alike with host := congrArg move h.alike.host }, h.known, h.deaf⟩
  | step =>
    obtain ⟨hperformed, hend⟩ := h.step H chip
    exact ⟨congrArg some hperformed, hend⟩

/-! ## Where the line is stale -/

/-- The last poll saw the line otherwise than it is, and a boundary that neither a reset nor an NMI
takes decides on what it saw. -/
def Stale (m : Machine σ) : Prop :=
  m.cpu.core.halted = false ∧ m.cpu.core.masking = 0 ∧
    ∃ seen ∈ m.cpu.poll.polled, seen &&& noPoll = 0 ∧ seen &&& irqLine ≠ m.cpu.poll.requests &&& irqLine

theorem Polled.stale_iff (h : m.Polled) : m.Stale ↔ m.cpu.core.halted = false ∧ m.cpu.core.masking = 0 ∧
    ∃ seen, m.cpu.poll.known = some seen ∧ seen &&& irqLine ≠ m.cpu.poll.requests &&& irqLine := by
  refine and_congr_right fun _ => and_congr_right fun _ => exists_congr fun seen => ?_
  constructor
  · rintro ⟨hpolled, hno, hline⟩
    have hskipped : m.cpu.poll.polled ≠ some noPoll := by
      rintro he
      obtain rfl := Option.some.inj (hpolled.symm.trans he)
      exact absurd hno (by decide)
    refine ⟨?_, hline⟩
    rw [Poll.known, if_neg hskipped, Poll.deciding, hpolled, Option.getD_some]
  · rintro ⟨hknown, hline⟩
    cases hpolled : m.cpu.poll.polled with
    | none =>
      rw [Poll.known, hpolled, if_neg (by simp), Poll.deciding, hpolled, Option.getD_none] at hknown
      exact absurd (congrArg (· &&& irqLine) (Option.some.inj hknown)).symm hline
    | some polled =>
      rcases h.sound.polled polled hpolled with hrequests | rfl
      · have hne : m.cpu.poll.polled ≠ some noPoll := by
          rintro he
          obtain rfl := Option.some.inj (hpolled.symm.trans he)
          exact absurd hrequests (by decide)
        rw [Poll.known, if_neg hne, Poll.deciding, hpolled, Option.getD_some] at hknown
        obtain rfl := Option.some.inj hknown
        exact ⟨rfl, hrequests.and_noPoll, hline⟩
      · rw [Poll.known, if_pos hpolled] at hknown
        cases hknown

/-- A boundary that neither a reset nor an NMI takes, with I clear, takes the line as it was polled. -/
theorem Polled.kind_line (h : m.Polled) (hreset : m.cpu.poll.resetPending = false)
    (hhalted : m.cpu.core.halted = false) (hmasking : m.cpu.core.masking = 0) {seen : ℕ}
    (hknown : m.cpu.poll.known = some seen) (hnmi : seen &&& nmiLatch = 0) :
    (m.step H chip).1.kind = if seen &&& irqLine ≠ 0 then .irq else .instruction := by
  have hdeciding : m.cpu.poll.deciding = seen := Poll.deciding_of_known hknown
  obtain ⟨hkind, -⟩ := step_plain H chip h.settled.1
  rw [hkind, stepRun, Plain.exec_step]
  change boundary m.cpu.core m.cpu.poll = _
  rw [boundary, hreset, hhalted, hdeciding, hmasking, hnmi]
  simp only [Bool.false_eq_true, if_false, ne_eq, not_true_eq_false, and_true]

/-- Where the line is not stale, a redundant call is seen by no step. -/
theorem Polled.indistinct_called (hp : m.Polled) {call : Call} (hcall : call.Redundant m.cpu.poll.requests)
    (hstale : ¬m.Stale) : (act H chip (.call call) m).2.Indistinct m := by
  have hknown := hp.known_called H chip call
  refine ⟨act_polled H chip (.call call) m hp, hp, ?_, ?_, ?_⟩
  · rw [opened_call]
    refine ⟨rfl, Poll.unpolled_congr ?_ ?_, ?_, rfl, rfl, rfl, rfl⟩
    · exact (Call.onPoll_requests call m.cpu.poll).trans hcall.requests
    · exact (congrArg Poll.resetPending (Call.apply_poll call m.cpu)).symm.trans (hcall.resetPending m.cpu)
    · cases call <;> first | rfl | exact hcall.elim
  · rw [hknown, Option.map_map]
    exact Option.map_congr fun v _ => offLine_of_onLine hcall.onLine v
  · have hcore : (act H chip (.call call) m).2.cpu.core = m.cpu.core := Call.apply_core call m.cpu
    rw [hcore]
    by_cases hdeaf : m.cpu.core.halted = true ∨ m.cpu.core.masking ≠ 0
    · exact .inr hdeaf
    · rw [not_or, Bool.not_eq_true, ne_eq, not_not] at hdeaf
      refine .inl (hknown.trans ?_)
      cases hseen : m.cpu.poll.known with
      | none => rfl
      | some seen =>
        have hline : seen &&& irqLine = m.cpu.poll.requests &&& irqLine := by
          by_contra hne
          exact hstale (hp.stale_iff.mpr ⟨hdeaf.1, hdeaf.2, seen, hseen, hne⟩)
        have hsame : call.onRequests seen = seen :=
          eq_of_offLine (offLine_of_onLine hcall.onLine seen) ((hcall.line seen).trans hline.symm)
        rw [Option.map_some, hsame]

/-- When a pending reset and a latched NMI are called off, the boundary takes the line as it was polled. -/
theorem Polled.kind_cleared (hp : m.Polled) (hhalted : m.cpu.core.halted = false)
    (hmasking : m.cpu.core.masking = 0) {seen : ℕ} (hknown : m.cpu.poll.known = some seen) :
    (((act H chip).final m [.call .clearReset, .call .clearNonMaskableInterrupt]).step H chip).1.kind =
      if seen &&& irqLine ≠ 0 then .irq else .instruction := by
  have hreset : (act H chip (.call .clearReset) m).2.Polled := act_polled H chip (.call .clearReset) m hp
  have hcleared : ((act H chip).final m [.call .clearReset, .call .clearNonMaskableInterrupt]).Polled :=
    act_polled H chip (.call .clearNonMaskableInterrupt) _ hreset
  have hseen : ((act H chip).final m [.call .clearReset, .call .clearNonMaskableInterrupt]).cpu.poll.known =
      some (without seen nmiLatch) := by
    refine (hreset.known_called H chip .clearNonMaskableInterrupt).trans ?_
    exact congrArg (Option.map (without · nmiLatch)) hknown
  have hkind := hcleared.kind_line H chip rfl hhalted hmasking hseen (without_and_self seen nmiLatch)
  rw [hkind, without_and_of_disjoint (by decide)]

/-- **A redundant call on the IRQ line is seen by no later step, unless the line is stale.** There the
next boundary, unless a reset or an NMI takes it, takes the line as it is, and without the call it takes
the line as it was polled. -/
theorem redundant_calls (readByte writeByte : Callable) (host : σ) (actions : List (Action σ)) (call : Call) :
    let m := (act H chip).final (start readByte writeByte host) actions
    let called := (act H chip (.call call) m).2
    call.Redundant m.cpu.poll.requests →
    ((∀ later : List (Action σ), ((act H chip).shown called later).map Event.performed =
      ((act H chip).shown m later).map Event.performed) ↔ ¬m.Stale) ∧
    (m.Stale → m.cpu.poll.resetPending = false → m.cpu.poll.deciding &&& nmiLatch = 0 →
      (called.step H chip).1.kind = (if m.cpu.poll.requests &&& irqLine ≠ 0 then .irq else .instruction) ∧
      (m.step H chip).1.kind = if m.cpu.poll.requests &&& irqLine ≠ 0 then .instruction else .irq) := by
  intro m called hcall
  have hp : m.Polled := System.final_preserves (act_polled H chip) (start_polled readByte writeByte host) actions
  have hcalled : called.Polled := act_polled H chip (.call call) m hp
  have hcore : called.cpu.core = m.cpu.core := Call.apply_core call m.cpu
  refine ⟨⟨fun hlater hstale => ?_, fun hstale later => ?_⟩, fun hstale hreset hnmi => ?_⟩
  · obtain ⟨hhalted, hmasking, seen, hknown, hline⟩ := hp.stale_iff.mp hstale
    have hcalledKnown : called.cpu.poll.known = some (call.onRequests seen) :=
      (hp.known_called H chip call).trans (congrArg (Option.map call.onRequests) hknown)
    have hkind := hp.kind_cleared H chip hhalted hmasking hknown
    have hcalledKind := hcalled.kind_cleared H chip (hcore ▸ hhalted) (hcore ▸ hmasking) hcalledKnown
    have hthree := hlater [.call .clearReset, .call .clearNonMaskableInterrupt, .step]
    simp only [System.shown_cons, System.shown_nil, List.map_cons, List.map_nil, List.cons.injEq,
      and_true] at hthree
    have hsame := congrArg (Option.map Performed.kind) hthree.2.2
    have hkinds := Option.some.inj hsame
    change (((act H chip).final called [.call .clearReset, .call .clearNonMaskableInterrupt]).step H chip).1.kind =
      (((act H chip).final m [.call .clearReset, .call .clearNonMaskableInterrupt]).step H chip).1.kind at hkinds
    rw [hkind, hcalledKind, hcall.line seen] at hkinds
    rcases and_irqLine seen with hs | hs <;> rcases and_irqLine m.cpu.poll.requests with hr | hr <;>
      rw [hs, hr] at hkinds hline
    · exact hline rfl
    · cases hkinds
    · cases hkinds
    · exact hline rfl
  · exact (System.shown_related (act_indistinct H chip) (hp.indistinct_called H chip hcall hstale) later).1
  · obtain ⟨hhalted, hmasking, seen, hknown, hline⟩ := hp.stale_iff.mp hstale
    have hcalledKnown : called.cpu.poll.known = some (call.onRequests seen) :=
      (hp.known_called H chip call).trans (congrArg (Option.map call.onRequests) hknown)
    have hcalledReset : called.cpu.poll.resetPending = false :=
      (hcall.resetPending m.cpu).trans hreset
    rw [Poll.deciding_of_known hknown] at hnmi
    have hcalledNmi : call.onRequests seen &&& nmiLatch = 0 :=
      (offLine_and_congr (offLine_of_onLine hcall.onLine seen) (by decide)).trans hnmi
    rw [hp.kind_line H chip hreset hhalted hmasking hknown hnmi,
      hcalled.kind_line H chip hcalledReset (hcore ▸ hhalted) (hcore ▸ hmasking) hcalledKnown hcalledNmi,
      hcall.line seen]
    refine ⟨rfl, ?_⟩
    rcases and_irqLine seen with hs | hs <;> rcases and_irqLine m.cpu.poll.requests with hr | hr <;>
      rw [hs, hr] at hline ⊢
    · exact absurd rfl hline
    · rfl
    · rfl
    · exact absurd rfl hline

/-- An IRQ asserted twice while it is masked. -/
theorem redundant_calls_masked :
    let m := nops [.call .requestMaskableInterrupt]
    let called := (act .flat mos6502 (.call .requestMaskableInterrupt) m).2
    ¬m.Stale ∧ ∀ later : List (Action (ℕ → Byte)), ((act .flat mos6502).shown called later).map Event.performed =
      ((act .flat mos6502).shown m later).map Event.performed := by
  intro m called
  have hstale : ¬m.Stale := by
    rintro ⟨-, hmasking, -⟩
    exact absurd hmasking (by decide +kernel)
  refine ⟨hstale, ?_⟩
  exact (redundant_calls .flat mos6502 (.host 0) (.host 0) (fun _ => 0xEA) [.call .requestMaskableInterrupt]
    .requestMaskableInterrupt (by decide +kernel)).1.mpr hstale

/-- A host that answers each access from a script, and NOP when it is at its end. -/
def answering : Host (List (Byte × List Call)) where
  readByte _ _ script := ((script.headD (0xEA, [])).1, (script.headD (0xEA, [])).2, script.tail)
  writeByte _ _ _ script := ((script.headD (0xEA, [])).2, script.tail)

/-- `CLI`, and a NOP whose accesses make these calls. -/
def lastCycle (first last : List Call) : Machine (List (Byte × List Call)) :=
  (act answering mos6502).final
    (start (.host 0) (.host 0) [(0x58, []), (0xEA, []), (0xEA, first), (0xEA, last)]) [.step, .step]

/-- IRQ asserted in a last cycle, and asserted again: it is taken one instruction earlier. IRQ polled and
released in a last cycle, and released again: it is not taken. -/
theorem redundant_calls_taken :
    let late := lastCycle [] [.requestMaskableInterrupt]
    let gone := lastCycle [.requestMaskableInterrupt] [.clearMaskableInterrupt]
    (Call.Redundant late.cpu.poll.requests .requestMaskableInterrupt ∧
      (late.step answering mos6502).1.kind = .instruction ∧
      ((act answering mos6502 (.call .requestMaskableInterrupt) late).2.step answering mos6502).1.kind = .irq) ∧
    Call.Redundant gone.cpu.poll.requests .clearMaskableInterrupt ∧
      (gone.step answering mos6502).1.kind = .irq ∧
      ((act answering mos6502 (.call .clearMaskableInterrupt) gone).2.step answering mos6502).1.kind =
        .instruction := by
  decide +kernel

end Machine

end SixFiveOhTwo
