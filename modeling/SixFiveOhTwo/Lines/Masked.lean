import SixFiveOhTwo.Lines.Muted
import SixFiveOhTwo.Polling.Cancel
import SixFiveOhTwo.Snapshots.Complete

/-! # Masked IRQ activity is invisible

Two runs from one processor, on hosts that differ in what they do to the IRQ line alone, in both of which
I masks every boundary: the steps are the same, and so are the snapshots but for what they say of the
line.
-/

namespace SixFiveOhTwo
open Bits Interaction
set_option autoImplicit false

/-! ## Captured states without the line -/

/-- A snapshot but for what it says of the IRQ line. -/
def CPUState.offLine (state : CPUState) : CPUState :=
  { state with maskableInterruptPending := false, polledMaskableInterrupt := none }

theorem differs_congr {polled polled' requests requests' bit : ℕ} (hp : polled &&& bit = polled' &&& bit)
    (hr : requests &&& bit = requests' &&& bit) : differs polled requests bit = differs polled' requests' bit := by
  rw [differs, differs, hp, hr]

theorem CPU.captureState_offLine {cpu cpu' : CPU} (hcore : cpu.core = cpu'.core)
    (hreset : cpu.poll.resetPending = cpu'.poll.resetPending)
    (hrequests : offLine cpu.poll.requests = offLine cpu'.poll.requests)
    (hdeciding : offLine cpu.poll.deciding = offLine cpu'.poll.deciding) :
    cpu.captureState.map CPUState.offLine = cpu'.captureState.map CPUState.offLine := by
  have hlatch : cpu.poll.requests &&& nmiLatch = cpu'.poll.requests &&& nmiLatch :=
    offLine_and_congr hrequests (by decide)
  have hnmi : cpu.poll.deciding &&& nmiLatch = cpu'.poll.deciding &&& nmiLatch :=
    offLine_and_congr hdeciding (by decide)
  have hskipped : cpu.poll.deciding &&& noPoll = cpu'.poll.deciding &&& noPoll :=
    offLine_and_congr hdeciding (by decide)
  rw [Poll.deciding, Poll.deciding] at hnmi hskipped
  simp only [CPU.captureState, hcore]
  split
  · simp only [Option.map_some, CPUState.offLine, hreset, hlatch, hskipped, differs_congr hnmi hlatch]
  · rfl

/-- What is the same of two steps. -/
structure Machine.Hushed where
  kind : BoundaryKind
  cycles : ℕ
  accesses : List (ℕ × Access)
  before : Option CPUState
  after : Option CPUState

def Machine.StepLog.hushed (log : StepLog) : Hushed where
  kind := log.kind
  cycles := log.cycles
  accesses := log.trace.map HostCall.plainly
  before := log.before.captureState.map CPUState.offLine
  after := log.after.captureState.map CPUState.offLine

/-- What is the same of two events: of the steps alone. -/
def Event.hushed : Event → Option Machine.Hushed
  | stepped log => some log.hushed
  | _ => none

/-- I masks the boundary that an event decides. -/
def Event.Masked : Event → Prop
  | stepped log => log.before.core.masking ≠ 0
  | _ => True

instance (event : Event) : Decidable event.Masked := by
  unfold Event.Masked
  split <;> infer_instance

/-! ## The requests, and what a call makes of a decision -/

theorem IsRequests.onRequests {requests : ℕ} (h : IsRequests requests) (call : Call) :
    IsRequests (call.onRequests requests) := by
  cases call with
  | requestMaskableInterrupt | requestNonMaskableInterrupt => exact h.or (by decide)
  | clearMaskableInterrupt | clearNonMaskableInterrupt => exact without_lt h
  | _ => exact h

/-- What a call makes, off the line, of what decides a boundary. -/
def Call.onDeciding : Call → ℕ → ℕ
  | requestNonMaskableInterrupt, seen => if seen &&& noPoll = 0 then seen ||| nmiLatch else seen
  | clearNonMaskableInterrupt, seen => without seen nmiLatch
  | _, seen => seen

namespace Poll
variable {p : Poll}

theorem isRequests_onPoll (h : IsRequests p.requests) (call : Call) : IsRequests (call.onPoll p).requests := by
  rw [Call.onPoll_requests]
  exact h.onRequests call

theorem isRequests_accesses (h : IsRequests p.requests) (t : List HostCall) : IsRequests (p.accesses t).requests :=
  accesses_keeps (I := fun p => IsRequests p.requests) (fun _ h => h) (fun _ _ call _ _ h => isRequests_onPoll h call) h

theorem isRequests_access (h : IsRequests p.requests) (calls : List Call) : IsRequests (p.access calls).requests :=
  access_keeps (I := fun p => IsRequests p.requests) (fun _ h => h) (fun call _ _ h => isRequests_onPoll h call) h

theorem isRequests_vectored (h : IsRequests p.requests) : IsRequests p.vectored.requests := by
  rw [vectored]
  split
  · exact without_lt h
  · exact h

theorem isRequests_relieved (h : IsRequests p.requests) : IsRequests p.relieved.requests := by
  rw [relieved]
  split <;> exact h

theorem isRequests_settled (h : IsRequests p.requests) : IsRequests p.settled.requests := by
  rw [settled]
  split <;> exact h

/-- Every step keeps the requests to the bits of requests, whatever was polled before it. -/
theorem Step.isRequests {c : Core} {kind : BoundaryKind} {t : List HostCall} {p' : Poll}
    (hstep : Step c p kind t p') (h : IsRequests p.requests) : IsRequests p'.requests := by
  cases hstep with
  | reset t hlen ht => exact isRequests_accesses (p := { p with resetPending := false }) h t
  | jamIdle d hd => exact isRequests_access h d.calls
  | nmi t u hlen hlen' ht hu => exact isRequests_accesses (without_lt (isRequests_accesses (p := p.forget) h t)) u
  | irq t u hlen ht hvec hu => exact isRequests_accesses (isRequests_vectored (isRequests_accesses (p := p.forget) h t)) u
  | brk opcode cycles hop t u hlen hopcode ht hvec hu =>
    exact isRequests_accesses (isRequests_vectored (isRequests_accesses (p := p.forget) h t)) u
  | branch opcode handler cycles hop hb d e u hopcode hd he p'' hu =>
    have hfetched := isRequests_access (p := p.forget) h d.calls
    have hoffset := isRequests_access (p := (p.forget.access d.calls).unstalled) hfetched e.calls
    refine isRequests_settled ?_
    cases hu with
    | untaken => exact hoffset
    | samePage c hc => exact isRequests_relieved (isRequests_access (p := Poll.unstalled _) hoffset c.calls)
    | otherPage c d hc hd =>
      exact isRequests_access (isRequests_relieved (isRequests_access (p := Poll.unstalled _) hoffset c.calls)) d.calls
  | other opcode hbrk hb t hlen hopcode ht => exact isRequests_settled (isRequests_accesses (p := p.forget) h t)

theorem offLine_deciding_onPoll (h : IsRequests p.requests) (call : Call) :
    offLine (call.onPoll p).deciding = call.onDeciding (offLine p.deciding) := by
  have hirq : offLine irqLine = 0 := by decide
  have hnmi : offLine nmiLatch = nmiLatch := by decide
  have hmark : ∀ v, offLine v &&& noPoll = v &&& noPoll := offLine_and (by decide)
  have hsee : ∀ (requests bit : ℕ), ((p.request requests).see bit).deciding =
      p.polled.elim requests fun polled => if polled &&& noPoll = 0 then polled ||| bit else polled := by
    intro requests bit
    rw [deciding, see_requests, see]
    cases hp : p.polled with
    | none => simp [request, hp]
    | some polled =>
      simp only [request, hp, Option.elim_some]
      by_cases hmarked : polled &&& noPoll = 0 <;> simp [hmarked]
  have hunsee : ∀ (requests bit : ℕ), ((p.request requests).unsee bit).deciding =
      p.polled.elim requests fun polled => without polled bit := by
    intro requests bit
    simp only [deciding, unsee, request]
    cases p.polled <;> rfl
  cases call with
  | requestMaskableInterrupt =>
    rw [Call.onPoll, hsee, deciding]
    change _ = offLine (p.polled.getD p.requests)
    cases p.polled with
    | none => simp only [Option.elim_none, Option.getD_none, offLine_or, hirq, Nat.or_zero]
    | some polled =>
      simp only [Option.elim_some, Option.getD_some]
      split
      · rw [offLine_or, hirq, Nat.or_zero]
      · rfl
  | clearMaskableInterrupt =>
    rw [Call.onPoll, hunsee, deciding]
    cases p.polled <;> exact offLine_offLine _
  | requestNonMaskableInterrupt =>
    rw [Call.onPoll, hsee, Call.onDeciding, deciding, hmark]
    cases p.polled with
    | none => simp only [Option.elim_none, Option.getD_none, offLine_or, hnmi, h.and_noPoll, if_true]
    | some polled =>
      simp only [Option.elim_some, Option.getD_some]
      split
      · rw [offLine_or, hnmi]
      · rfl
  | clearNonMaskableInterrupt =>
    rw [Call.onPoll, hunsee, Call.onDeciding, deciding]
    cases p.polled <;> exact offLine_without _ _
  | _ => rfl

theorem offLine_deciding_applyCalls (h : IsRequests p.requests) (calls : List Call) :
    offLine (p.applyCalls calls).deciding =
      (calls.filter (!·.OnLine)).foldl (fun seen call => call.onDeciding seen) (offLine p.deciding) := by
  induction calls generalizing p with
  | nil => rfl
  | cons call calls ih =>
    refine (ih (isRequests_onPoll h call)).trans ?_
    rw [offLine_deciding_onPoll h]
    cases call <;> rfl

end Poll

/-! ## A step -/

namespace Plain
variable {σ σ' : Type} {H : Host σ} {H' : Host σ'} {R : σ → σ' → Prop} {q : Plain σ} {q' : Plain σ'}

theorem Resting.decided (h : Resting R q q') (hboundary : q.boundary = q'.boundary) (used : Prop)
    (hused : used → ∀ p : Poll, (p.decided q.boundary).polled = none) :
    Hushed R used Poll.heard q.decided q'.decided := by
  have hheard : ∀ (p : Poll) (kind : BoundaryKind), (p.decided kind).heard = p.heard := by
    intro p kind
    cases kind <;> rfl
  refine { h.hushed with core := ?_, poll := ?_, unpolled := fun hu => ⟨hused hu _, ?_⟩ }
  · rw [Plain.decided, Plain.decided, ← hboundary, h.hushed.core]
  · exact (hheard _ _).trans (h.hushed.heard.poll.trans (hheard _ _).symm)
  · rw [Plain.decided, ← hboundary]
    exact hused hu _

theorem ran_rests (hR : H.OffLine H' R) (chip : Chip) (h : Resting R q q') (hboundary : q.boundary = q'.boundary)
    (hs : IsRequests q.poll.requests) (hs' : IsRequests q'.poll.requests) :
    (ran H chip q).1 = (ran H' chip q').1 ∧ Resting R (ran H chip q).2 (ran H' chip q').2 := by
  rw [ran, ran, ← hboundary]
  cases hb : q.boundary with
  | reset => exact rests_acceptReset hR _ _ (h.decided hboundary False False.elim)
  | nmi => exact rests_enterInterrupt hR nmiLatch _ _ (h.decided hboundary False False.elim)
  | irq => exact rests_enterInterrupt hR irqLine _ _ (h.decided hboundary False False.elim)
  | instruction =>
    refine rests_instruction hR chip _ _ (h.decided hboundary True fun _ p => ?_)
    rw [hb]
    rfl
  | jamIdle =>
    have hdecided : q.decided = q ∧ q'.decided = q' := by
      rw [decided, decided, ← hboundary, hb]
      exact ⟨rfl, rfl⟩
    rw [hdecided.1, hdecided.2]
    obtain ⟨-, hread⟩ := hushed_read hR h.hushed.heard 0xFFFF
    obtain ⟨-, hcalls, -⟩ := hR.read q.readByte 0xFFFF q.host q'.host h.hushed.host
    refine ⟨rfl, hread, ?_⟩
    have hend := Poll.offLine_deciding_applyCalls (p := q.poll.confirm) hs (H.readByte q.readByte 0xFFFF q.host).2.1
    have hend' := Poll.offLine_deciding_applyCalls (p := q'.poll.confirm) hs' (H'.readByte q.readByte 0xFFFF q'.host).2.1
    change offLine (q.poll.access (H.readByte q.readByte 0xFFFF q.host).2.1).deciding =
      offLine (q'.poll.access (H'.readByte q'.readByte 0xFFFF q'.host).2.1).deciding
    rw [← h.hushed.readByte]
    refine hend.trans (Eq.trans ?_ hend'.symm)
    rw [hcalls]
    exact congrArg (List.foldl (fun seen call => Call.onDeciding call seen) · _) h.deciding

end Plain

namespace Machine
variable {σ σ' : Type} {H : Host σ} {H' : Host σ'} {R : σ → σ' → Prop} (chip : Chip) {m : Machine σ}
  {m' : Machine σ'}

/-- What every boundary of any run finds, with snapshots restored in it. -/
structure Kept {τ : Type} (r : Machine τ) : Prop where
  settled : r.Settled
  requests : IsRequests r.cpu.poll.requests

theorem act_kept {τ : Type} (G : Host τ) (action : Action τ) (r : Machine τ) (h : r.Kept) :
    (act G chip action r).2.Kept := by
  refine ⟨act_settled G chip action r h.settled, ?_⟩
  cases action with
  | call call =>
    have hpoll : (act G chip (.call call) r).2.cpu.poll = call.onPoll r.cpu.poll := Call.apply_poll call r.cpu
    rw [hpoll]
    exact Poll.isRequests_onPoll h.requests call
  | host move => exact h.requests
  | step => exact (step_cases G chip h.settled).isRequests h.requests

theorem hostAct_kept {τ : Type} (G : Host τ) (action : HostAction τ) (r : Machine τ) (h : r.Kept) :
    (hostAct G chip action r).2.Kept := by
  refine ⟨hostAct_settled G chip action r h.settled, ?_⟩
  cases action with
  | act action => exact (act_kept chip G action r h).requests
  | readByte callable => exact h.requests
  | writeByte callable => exact h.requests
  | restore state =>
    have hbit : ∀ (pending : Bool) (bit : ℕ), IsRequests bit → IsRequests (if pending then bit else 0) := by
      intro pending bit hbit
      split
      · exact hbit
      · decide
    exact (hbit state.maskableInterruptPending irqLine (by decide)).or
      (hbit state.nonMaskableInterruptPending nmiLatch (by decide))
  | set register parsed =>
    change IsRequests (r.cpu.set register parsed).poll.requests
    rw [CPU.set]
    cases number parsed register.maximum with
    | none => exact h.requests
    | some value => cases register <;> exact h.requests

/-- Two machines of runs that differ in what was done to the IRQ line. -/
structure Muffled (R : σ → σ' → Prop) (m : Machine σ) (m' : Machine σ') : Prop where
  kept : m.Kept
  kept' : m'.Kept
  resting : Plain.Resting R m.opened m'.opened

theorem Muffled.captureState (h : Muffled R m m') :
    m.cpu.captureState.map CPUState.offLine = m'.cpu.captureState.map CPUState.offLine := by
  have hpoll : m.cpu.poll.muted = m'.cpu.poll.muted := h.resting.hushed.poll
  exact CPU.captureState_offLine h.resting.hushed.core (congrArg MutedPoll.resetPending hpoll)
    (congrArg MutedPoll.requests hpoll) h.resting.deciding

theorem Muffled.step (hR : H.OffLine H' R) (h : Muffled R m m') (hmasked : m.cpu.core.masking ≠ 0) :
    (m.step H chip).1.hushed = (m'.step H' chip).1.hushed ∧ Muffled R (m.step H chip).2 (m'.step H' chip).2 := by
  obtain ⟨hkind, hcycles, htrace, hplain, -⟩ := step_plain H chip h.kept.settled.1
  obtain ⟨hkind', hcycles', htrace', hplain', -⟩ := step_plain H' chip h.kept'.settled.1
  rw [stepRun, Plain.exec_step] at hkind hcycles htrace hplain hkind' hcycles' htrace' hplain'
  have hcore : m.cpu.core = m'.cpu.core := h.resting.hushed.core
  have hboundary : m.opened.boundary = m'.opened.boundary := by
    change boundary m.cpu.core m.cpu.poll = boundary m'.cpu.core m'.cpu.poll
    rw [← hcore]
    exact boundary_offLine (congrArg MutedPoll.resetPending h.resting.hushed.poll) h.resting.deciding (.inr hmasked)
  obtain ⟨hran, hrests⟩ := Plain.ran_rests hR chip h.resting hboundary h.kept.requests h.kept'.requests
  have hend : Muffled R (m.step H chip).2 (m'.step H' chip).2 := by
    refine ⟨act_kept chip H .step m h.kept, act_kept chip H' .step m' h.kept', ?_⟩
    rw [opened, opened, hplain, hplain']
    exact { hrests with hushed := { hrests.hushed with trace := rfl } }
  refine ⟨?_, hend⟩
  have hbefore : (m.step H chip).1.before.captureState.map CPUState.offLine =
      (m'.step H' chip).1.before.captureState.map CPUState.offLine := h.captureState
  have hafter : (m.step H chip).1.after.captureState.map CPUState.offLine =
      (m'.step H' chip).1.after.captureState.map CPUState.offLine := hend.captureState
  rw [StepLog.hushed, StepLog.hushed, hkind, hkind', hcycles, hcycles', htrace, htrace', hbefore, hafter,
    hboundary, hran, hrests.hushed.trace]

/-! ## Runs -/

/-- The calls a host makes between two steps. -/
abbrev calling {τ : Type} (calls : List Call) : List (Action τ) := calls.map .call

theorem opened_calls {τ : Type} (G : Host τ) (calls : List Call) (r : Machine τ) :
    ((act G chip).final r (calling calls)).opened = { r.opened with
      poll := r.cpu.poll.applyCalls calls
      dmaStalled := calls.foldl (fun stalled call => call.onStalled stalled) r.cpu.dmaStalled } := by
  induction calls generalizing r with
  | nil => rfl
  | cons call calls ih =>
    refine (ih (act G chip (.call call) r).2).trans ?_
    have hcalled := opened_call G chip call r
    have hpoll : (act G chip (.call call) r).2.cpu.poll = call.onPoll r.cpu.poll := congrArg Plain.poll hcalled
    have hdma : (act G chip (.call call) r).2.cpu.dmaStalled = call.onStalled r.cpu.dmaStalled :=
      congrArg Plain.dmaStalled hcalled
    rw [hcalled, hpoll, hdma]
    rfl

theorem Muffled.calls (h : Muffled R m m') {calls calls' : List Call} (hcalls : SameOffLine calls calls') :
    Muffled R ((act H chip).final m (calling calls)) ((act H' chip).final m' (calling calls')) := by
  have hopened := opened_calls chip H calls m
  have hopened' := opened_calls chip H' calls' m'
  have hpoll : m.cpu.poll.muted = m'.cpu.poll.muted := h.resting.hushed.poll
  refine ⟨System.final_preserves (act_kept chip H) h.kept _, System.final_preserves (act_kept chip H') h.kept' _, ?_⟩
  rw [hopened, hopened']
  refine ⟨{ h.resting.hushed with poll := ?_, unpolled := False.elim, dmaStalled := ?_ }, ?_⟩
  · change (m.cpu.poll.applyCalls calls).muted = (m'.cpu.poll.applyCalls calls').muted
    rw [Poll.muted_applyCalls, Poll.muted_applyCalls, hcalls, hpoll]
  · have hdma : m.cpu.dmaStalled = m'.cpu.dmaStalled := h.resting.hushed.dmaStalled
    change calls.foldl _ m.cpu.dmaStalled = calls'.foldl _ m'.cpu.dmaStalled
    rw [Plain.foldl_onStalled, Plain.foldl_onStalled calls', hcalls, hdma]
  · refine (Poll.offLine_deciding_applyCalls h.kept.requests calls).trans ?_
    rw [hcalls]
    refine Eq.trans ?_ (Poll.offLine_deciding_applyCalls h.kept'.requests calls').symm
    exact congrArg (List.foldl (fun seen call => Call.onDeciding call seen) · _) h.resting.deciding

/-- What two hosts do: the same, but for calls on the IRQ line. -/
inductive Aligned (R : σ → σ' → Prop) : List (Action σ) → List (Action σ') → Prop
  | nil : Aligned R [] []
  | calls {calls calls' : List Call} {actions : List (Action σ)} {actions' : List (Action σ')}
      (hcalls : SameOffLine calls calls') (hrest : Aligned R actions actions') :
      Aligned R (calling calls ++ actions) (calling calls' ++ actions')
  | host {move : σ → σ} {move' : σ' → σ'} {actions : List (Action σ)} {actions' : List (Action σ')}
      (hmove : ∀ s s', R s s' → R (move s) (move' s')) (hrest : Aligned R actions actions') :
      Aligned R (.host move :: actions) (.host move' :: actions')
  | step {actions : List (Action σ)} {actions' : List (Action σ')} (hrest : Aligned R actions actions') :
      Aligned R (.step :: actions) (.step :: actions')

theorem shown_calling {τ : Type} (G : Host τ) (calls : List Call) (r : Machine τ) :
    ((act G chip).shown r (calling calls)).filterMap Event.hushed = [] := by
  induction calls generalizing r with
  | nil => rfl
  | cons call calls ih => exact ih (act G chip (.call call) r).2

theorem Aligned.invisible (hR : H.OffLine H' R) {actions : List (Action σ)} {actions' : List (Action σ')}
    (hactions : Aligned R actions actions') (h : Muffled R m m')
    (hmasked : ∀ event ∈ (act H chip).shown m actions, event.Masked) :
    ((act H chip).shown m actions).filterMap Event.hushed = ((act H' chip).shown m' actions').filterMap Event.hushed ∧
      Muffled R ((act H chip).final m actions) ((act H' chip).final m' actions') := by
  induction hactions generalizing m m' with
  | nil => exact ⟨rfl, h⟩
  | calls hcalls hrest ih =>
    rw [System.shown_append, List.forall_mem_append] at hmasked
    obtain ⟨hshown, hend⟩ := ih (h.calls chip hcalls) hmasked.2
    rw [System.shown_append, System.shown_append, System.final_append, System.final_append, List.filterMap_append,
      List.filterMap_append, shown_calling, shown_calling, hshown]
    exact ⟨rfl, hend⟩
  | @host move move' actions actions' hmove hrest ih =>
    rw [System.shown_cons, List.forall_mem_cons] at hmasked
    have hmoved : Muffled R (act H chip (.host move) m).2 (act H' chip (.host move') m').2 :=
      ⟨⟨h.kept.settled, h.kept.requests⟩, ⟨h.kept'.settled, h.kept'.requests⟩,
        { h.resting with hushed := { h.resting.hushed with host := hmove _ _ h.resting.hushed.host } }⟩
    exact ih hmoved hmasked.2
  | step hrest ih =>
    rw [System.shown_cons, List.forall_mem_cons] at hmasked
    obtain ⟨hstep, hnext⟩ := h.step chip hR hmasked.1
    obtain ⟨hshown, hend⟩ := ih hnext hmasked.2
    refine ⟨?_, hend⟩
    rw [System.shown_cons, System.shown_cons]
    exact congrArg₂ List.cons hstep hshown

/-- **Masked IRQ activity is invisible.** Two hosts that differ in their calls on the IRQ line alone, from a
reachable processor, while I masks every boundary: the steps are of the same kinds and cycles, make the same
accesses, and begin and end in states captured the same but for the line. -/
theorem masked_irq_invisible (hR : H.OffLine H' R) (readByte writeByte : Callable) (host : σ)
    (earlier : List (HostAction σ)) (host' : σ') (actions : List (Action σ)) (actions' : List (Action σ')) :
    let m := (hostAct H chip).final (start readByte writeByte host) earlier
    let m' : Machine σ' := { cpu := m.cpu, host := host' }
    R m.host host' → Aligned R actions actions' →
    (∀ event ∈ (act H chip).shown m actions, event.Masked) →
    ((act H chip).shown m actions).filterMap Event.hushed =
        ((act H' chip).shown m' actions').filterMap Event.hushed ∧
      ((act H chip).final m actions).cpu.captureState.map CPUState.offLine =
        ((act H' chip).final m' actions').cpu.captureState.map CPUState.offLine := by
  intro m m' hhost hactions hmasked
  have hm : m.Kept :=
    System.final_preserves (hostAct_kept chip H) ⟨⟨.init readByte writeByte, rfl⟩, Poll.Sound.init.requests⟩ earlier
  have hmuffled : Muffled R m m' :=
    ⟨hm, ⟨⟨hm.settled.1, hm.settled.2⟩, hm.requests⟩, ⟨⟨rfl, rfl, False.elim, rfl, hhost, rfl, rfl, rfl⟩, rfl⟩⟩
  obtain ⟨hshown, hend⟩ := hactions.invisible chip hR hmuffled hmasked
  exact ⟨hshown, hend.captureState⟩

/-- Scripts that differ in their calls on the IRQ line alone. -/
abbrev Scripts : List (List Call) → List (List Call) → Prop := List.Forall₂ SameOffLine

theorem scripted_offLine : scripted.OffLine scripted Scripts := by
  have hscript : ∀ {s s' : List (List Call)}, Scripts s s' →
      SameOffLine (s.headD []) (s'.headD []) ∧ Scripts s.tail s'.tail := by
    rintro s s' (_ | ⟨hhead, htail⟩)
    · exact ⟨rfl, .nil⟩
    · exact ⟨hhead, htail⟩
  exact ⟨fun _ _ s s' h => ⟨rfl, hscript h⟩, fun _ _ _ s s' h => hscript h⟩

/-- An IRQ line that is asserted when an NMI is requested, between two steps and in the last cycle of the
NMI's entry. -/
theorem masked_irq_invisible_scripted :
    let quiet := start (.host 0) (.host 0) [[], [], [], [.requestNonMaskableInterrupt], [], [], [], []]
    let noisy := start (.host 0) (.host 0)
      [[.requestMaskableInterrupt], [], [], [.requestNonMaskableInterrupt, .clearMaskableInterrupt],
        [.requestMaskableInterrupt], [], [], [.clearMaskableInterrupt]]
    ((act scripted mos6502).shown quiet [.step, .step, .step, .step]).filterMap Event.hushed =
        ((act scripted mos6502).shown noisy
          [.step, .call .requestMaskableInterrupt, .step, .step, .step]).filterMap Event.hushed ∧
      ((act scripted mos6502).final quiet [.step, .step, .step, .step]).cpu.captureState.map CPUState.offLine =
        ((act scripted mos6502).final noisy
          [.step, .call .requestMaskableInterrupt, .step, .step, .step]).cpu.captureState.map CPUState.offLine := by
  refine masked_irq_invisible mos6502 scripted_offLine (.host 0) (.host 0) _ [] _ _ _ ?_ ?_ ?_
  · exact .cons rfl (.cons rfl (.cons rfl (.cons rfl (.cons rfl (.cons rfl (.cons rfl (.cons rfl .nil)))))))
  · have hcalls : SameOffLine [] [.requestMaskableInterrupt] := rfl
    exact .step (.calls hcalls (.step (.step (.step .nil))))
  · decide +kernel

end Machine

end SixFiveOhTwo
