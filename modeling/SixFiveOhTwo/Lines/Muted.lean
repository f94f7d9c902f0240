import SixFiveOhTwo.Lines.Words

/-! # What a step does not see of the IRQ line

`MutedPoll` is a poll without the IRQ line: a call on that line does nothing to it, and every other call
does to it what it does to a poll. `Hushed` relates two machines, on two hosts, whose polls are the same
without the line; the sequences that a boundary runs keep it.
-/

namespace SixFiveOhTwo
open Bits Interaction
set_option autoImplicit false

/-! ## The poll without the line -/

/-- A poll without the IRQ line and without what was polled. -/
structure MutedPoll where
  resetPending : Bool
  requests : ℕ
  seen : ℕ
  stalled : Option ℕ
  stalledBefore : Option ℕ

namespace MutedPoll

def confirm (p : MutedPoll) : MutedPoll := { p with seen := p.requests }

end MutedPoll

/-- The effect of a call on a poll without the line. -/
def Call.onMuted : Call → MutedPoll → MutedPoll
  | requestNonMaskableInterrupt, p => { p with requests := p.requests ||| nmiLatch }
  | clearNonMaskableInterrupt, p => { p with requests := without p.requests nmiLatch }
  | requestReset, p => { p with resetPending := true }
  | clearReset, p => { p with resetPending := false }
  | noteStall, p => { p with stalledBefore := p.stalled, stalled := some p.requests, seen := p.requests }
  | _, p => p

namespace Poll

def muted (p : Poll) : MutedPoll where
  resetPending := p.resetPending
  requests := offLine p.requests
  seen := offLine p.seen
  stalled := p.stalled.map offLine
  stalledBefore := p.stalledBefore.map offLine

theorem see_seen (p : Poll) (bit : ℕ) : (p.see bit).seen = p.seen := by
  rw [seen, seen, see_requests, see_deferred]

theorem muted_see (p : Poll) (bit : ℕ) : (p.see bit).muted = p.muted := by
  obtain ⟨hstalled, hstalledBefore⟩ := see_stalled p bit
  rw [muted, muted, see_resetPending, see_requests, see_seen, hstalled, hstalledBefore]

theorem muted_request (p : Poll) (requests : ℕ) :
    (p.request requests).muted = { p.muted with requests := offLine requests } := rfl

theorem muted_unsee (p : Poll) (bit : ℕ) : (p.unsee bit).muted = p.muted := rfl

/-- What the access to come makes of a poll. -/
def heard (p : Poll) : MutedPoll := p.confirm.muted

theorem heard_unlatched (p : Poll) : p.unlatched.heard =
    { p.heard with requests := without p.heard.requests nmiLatch, seen := without p.heard.requests nmiLatch } := by
  change ({ p.heard with requests := offLine (without p.requests nmiLatch), seen := offLine (without p.requests nmiLatch) }
    : MutedPoll) = _
  rw [offLine_without]
  rfl

/-- The calls move the poll without the line as they move the poll. -/
theorem muted_onPoll (p : Poll) (call : Call) : (call.onPoll p).muted = call.onMuted p.muted := by
  have hirq : offLine irqLine = 0 := by decide
  have hnmi : offLine nmiLatch = nmiLatch := by decide
  cases call with
  | requestMaskableInterrupt =>
    rw [Call.onPoll, muted_see, muted_request, offLine_or, hirq, Nat.or_zero]
    rfl
  | clearMaskableInterrupt =>
    have hoff : offLine (without p.requests irqLine) = offLine p.requests := offLine_offLine p.requests
    rw [Call.onPoll, muted_unsee, muted_request, hoff]
    rfl
  | requestNonMaskableInterrupt =>
    rw [Call.onPoll, muted_see, muted_request, offLine_or, hnmi]
    rfl
  | clearNonMaskableInterrupt =>
    rw [Call.onPoll, muted_unsee, muted_request, offLine_without]
    rfl
  | _ => rfl

theorem muted_applyCalls (p : Poll) (calls : List Call) :
    (p.applyCalls calls).muted = (calls.filter (!·.OnLine)).foldl (fun q call => call.onMuted q) p.muted := by
  induction calls generalizing p with
  | nil => rfl
  | cons call calls ih =>
    refine (ih (call.onPoll p)).trans ?_
    rw [muted_onPoll]
    cases call <;> rfl

theorem muted_access (p : Poll) (calls : List Call) :
    (p.access calls).muted = (calls.filter (!·.OnLine)).foldl (fun q call => call.onMuted q) p.heard :=
  muted_applyCalls p.confirm calls

end Poll

/-! ## Hosts that differ on the line -/

/-- Two hosts whose states stay related, and which answer the same but for calls on the IRQ line. -/
structure Host.OffLine {σ σ' : Type} (H : Host σ) (H' : Host σ') (R : σ → σ' → Prop) : Prop where
  read : ∀ callable address s s', R s s' →
    (H.readByte callable address s).1 = (H'.readByte callable address s').1 ∧
      SameOffLine (H.readByte callable address s).2.1 (H'.readByte callable address s').2.1 ∧
      R (H.readByte callable address s).2.2 (H'.readByte callable address s').2.2
  write : ∀ callable address value s s', R s s' →
    SameOffLine (H.writeByte callable address value s).1 (H'.writeByte callable address value s').1 ∧
      R (H.writeByte callable address value s).2 (H'.writeByte callable address value s').2

/-- What is the same of two host calls. -/
def HostCall.plainly (c : HostCall) : ℕ × Access := (c.callable, c.access)

namespace Plain
variable {σ σ' α : Type} {H : Host σ} {H' : Host σ'} {R : σ → σ' → Prop}

/-- Two machines whose polls look the same through `view`, and which, where `used`, have used up what was
polled. -/
structure Hushed (R : σ → σ' → Prop) (used : Prop) (view : Poll → MutedPoll) (q : Plain σ) (q' : Plain σ') :
    Prop where
  core : q.core = q'.core
  poll : view q.poll = view q'.poll
  unpolled : used → q.poll.polled = none ∧ q'.poll.polled = none
  dmaStalled : q.dmaStalled = q'.dmaStalled
  host : R q.host q'.host
  trace : q.trace.map HostCall.plainly = q'.trace.map HostCall.plainly
  readByte : q.readByte = q'.readByte
  writeByte : q.writeByte = q'.writeByte

variable {used : Prop} {view : Poll → MutedPoll} {q : Plain σ} {q' : Plain σ'}

theorem Hushed.heard (h : Hushed R used Poll.muted q q') : Hushed R used Poll.heard q q' :=
  { h with poll := congrArg MutedPoll.confirm h.poll }

theorem foldl_onStalled (calls : List Call) (stalled : Bool) :
    calls.foldl (fun stalled call => call.onStalled stalled) stalled =
      (calls.filter (!·.OnLine)).foldl (fun stalled call => call.onStalled stalled) stalled := by
  induction calls generalizing stalled with
  | nil => rfl
  | cons call calls ih => exact (ih (call.onStalled stalled)).trans (by cases call <;> rfl)

theorem Hushed.called (h : Hushed R used Poll.heard q q') {callable callable' : ℕ} (hc : callable = callable')
    (access : Access) {calls calls' : List Call} (hcalls : SameOffLine calls calls') {s : σ} {s' : σ'}
    (hs : R s s') : Hushed R used Poll.muted (q.called callable access calls s) (q'.called callable' access calls' s') := by
  refine ⟨h.core, ?_, ?_, ?_, hs, ?_, h.readByte, h.writeByte⟩
  · change (q.poll.access calls).muted = (q'.poll.access calls').muted
    rw [Poll.muted_access, Poll.muted_access, hcalls, h.poll]
  · exact fun hused => ⟨Poll.polled_access (h.unpolled hused).1 calls, Poll.polled_access (h.unpolled hused).2 calls'⟩
  · change calls.foldl _ q.dmaStalled = calls'.foldl _ q'.dmaStalled
    rw [foldl_onStalled, foldl_onStalled calls', hcalls, h.dmaStalled]
  · subst hc
    change (q.trace ++ [_]).map HostCall.plainly = (q'.trace ++ [_]).map HostCall.plainly
    rw [List.map_append, List.map_append, h.trace]
    rfl

section
variable (hR : H.OffLine H' R)
include hR

theorem hushed_read (h : Hushed R used Poll.heard q q') (address : ℕ) :
    (handle H (.read address) q).1 = (handle H' (.read address) q').1 ∧
      Hushed R used Poll.muted (handle H (.read address) q).2 (handle H' (.read address) q').2 := by
  obtain ⟨hvalue, hcalls, hnext⟩ := hR.read q.readByte address q.host q'.host h.host
  simp only [handle]
  rw [← h.readByte, ← hvalue]
  exact ⟨rfl, h.called rfl _ hcalls hnext⟩

theorem hushed_write (h : Hushed R used Poll.heard q q') (address value : ℕ) :
    Hushed R used Poll.muted (handle H (.write address value) q).2 (handle H' (.write address value) q').2 := by
  obtain ⟨hcalls, hnext⟩ := hR.write q.writeByte address value q.host q'.host h.host
  simp only [handle]
  rw [← h.writeByte]
  exact h.called rfl _ hcalls hnext

/-- A program run on both machines. -/
abbrev Hushes (H : Host σ) (H' : Host σ') (R : σ → σ' → Prop) (used : Prop) (view : Poll → MutedPoll)
    (code : Code α) : Prop :=
  Tree.Coupled (handle H) (handle H') (Hushed R used view) code (Hushed R used Poll.muted)

theorem hushes_pollFree {code : Code α} (hcode : code.PollFree) : Hushes H H' R used Poll.muted code := by
  refine .of_uses ?_ hcode
  intro op q q' hop h
  cases op with
  | read address => exact hushed_read hR h.heard address
  | write address value => exact ⟨rfl, hushed_write hR h.heard address value⟩
  | core => exact ⟨h.core, h⟩
  | setCore core => exact ⟨rfl, { h with core := rfl }⟩
  | dmaStalled => exact ⟨h.dmaStalled, h⟩
  | poll => exact hop.elim
  | setPoll poll => exact hop.elim

/-! ## The operations before an access, and on the poll -/

omit hR in
theorem hushed_core : Tree.Coupled (handle H) (handle H') (Hushed R used view) Code.core (Hushed R used view) :=
  fun _ _ h => ⟨h.core, h⟩

omit hR in
theorem hushed_update (f : Core → Core) :
    Tree.Coupled (handle H) (handle H') (Hushed R used view) (Code.update f) (Hushed R used view) :=
  fun _ _ h => ⟨rfl, { h with core := congrArg f h.core }⟩

theorem hushes_askRead (address : ℕ) : Hushes H H' R used Poll.heard (Code.ask (.read address)) :=
  fun _ _ h => hushed_read hR h address

theorem hushes_read (address : ℕ) : Hushes H H' R used Poll.heard (Code.read address) :=
  .bind (hushes_askRead hR address) fun _ => .ret _

/-- Values that are the same, and machines hushed. -/
abbrev Silent (R : σ → σ' → Prop) (used : Prop) (view : Poll → MutedPoll) : α → α → Plain σ → Plain σ' → Prop :=
  fun a b q q' => a = b ∧ Hushed R used view q q'

omit hR in
/-- Assignments to the polls that leave alone what was polled. -/
theorem paired_updatePoll {view view' : Poll → MutedPoll} {f f' : Poll → Poll}
    (hpolled : ∀ p, (f p).polled = p.polled) (hpolled' : ∀ p, (f' p).polled = p.polled)
    (hf : ∀ p p', view p = view p' → view' (f p) = view' (f' p')) :
    Tree.Paired (handle H) (handle H') (Hushed R used view) (Code.updatePoll f) (Code.updatePoll f')
      (Silent R used view') := by
  intro q q' h
  refine ⟨rfl, { h with poll := hf _ _ h.poll, unpolled := fun hused => ?_ }⟩
  exact ⟨(hpolled q.poll).trans (h.unpolled hused).1, (hpolled' q'.poll).trans (h.unpolled hused).2⟩

omit hR in
theorem hushed_updatePoll {view : Poll → MutedPoll} (view' : Poll → MutedPoll) {f : Poll → Poll}
    (hpolled : ∀ p, (f p).polled = p.polled) (hf : ∀ p p', view p = view p' → view' (f p) = view' (f p')) :
    Tree.Coupled (handle H) (handle H') (Hushed R used view) (Code.updatePoll f) (Hushed R used view') :=
  (Tree.paired_self _).mp (paired_updatePoll hpolled hpolled hf)

omit hR in
/-- What follows a look at the poll goes on from two polls that look the same. -/
theorem paired_poll {β : Type} {f : Poll → Code α} {f' : Poll → Code β} {Q : α → β → Plain σ → Plain σ' → Prop}
    (hrest : ∀ p p', view p = view p' → (used → p.polled = none ∧ p'.polled = none) →
      Tree.Paired (handle H) (handle H') (Hushed R used view) (f p) (f' p') Q) :
    Tree.Paired (handle H) (handle H') (Hushed R used view) (Code.poll >>= f) (Code.poll >>= f') Q :=
  fun q q' h => hrest q.poll q'.poll h.poll h.unpolled q q' h

/-! ## The sequences -/

omit hR in
theorem hushes_forget : Hushes H H' R used Poll.muted
    (Code.updatePoll ({ · with stalled := none, stalledBefore := none })) :=
  hushed_updatePoll Poll.muted (fun _ => rfl) fun _ _ h =>
    congrArg (fun m : MutedPoll => { m with stalled := none, stalledBefore := none }) h

theorem paired_branchTaken (offset : ℕ) {early early' : ℕ} (hearly : offLine early = offLine early') :
    Tree.Paired (handle H) (handle H') (Hushed R used Poll.muted) (Code.branchTaken offset early)
      (Code.branchTaken offset early') (Silent R used Poll.muted) := by
  refine hushed_core.bind_paired fun c => (hushes_pollFree hR (by simp)).bind_paired fun _ => ?_
  refine paired_poll fun p p' hp _ => ?_
  extract_lets target finish goOn
  have hfinish : ∀ f f' : Poll → Poll, (∀ p, (f p).polled = p.polled) → (∀ p, (f' p).polled = p.polled) →
      (∀ p p', p.muted = p'.muted → (f p).muted = (f' p').muted) →
      Tree.Paired (handle H) (handle H') (Hushed R used Poll.muted)
        (Code.updatePoll f >>= finish) (Code.updatePoll f' >>= finish) (Silent R used Poll.muted) := by
    intro f f' hpolled hpolled' hf
    refine .bind (paired_updatePoll hpolled hpolled' hf) fun _ _ => .of_fact fun _ => ?_
    exact (Tree.paired_self _).mpr (hushed_update _)
  have hgoOn : ∀ e e', offLine e = offLine e' → Tree.Paired (handle H) (handle H') (Hushed R used Poll.muted)
      (goOn e) (goOn e') (Silent R used Poll.muted) := by
    intro e e' he
    by_cases hcross : ((target ^^^ c.pc) &&& 0xFF00 != 0) = true
    · simp only [goOn, if_pos hcross]
      refine (hushes_pollFree hR (by simp)).bind_paired fun _ => (hushed_update _).bind_paired fun _ => ?_
      refine hfinish _ _ (fun _ => rfl) (fun _ => rfl) fun p p' h => ?_
      have hseen : offLine (e ||| p.seen) = offLine (e' ||| p'.seen) := by
        have hpolls : offLine p.seen = offLine p'.seen := congrArg MutedPoll.seen h
        rw [offLine_or, offLine_or, he, hpolls]
      exact congrArg₂ (fun (m : MutedPoll) seen => { m with seen }) h hseen
    · simp only [goOn, if_neg hcross]
      refine (hushed_update _).bind_paired fun _ => hfinish _ _ (fun _ => rfl) (fun _ => rfl) fun p p' h => ?_
      exact congrArg₂ (fun (m : MutedPoll) seen => { m with seen }) h he
  have hstalled : p.stalledBefore.map offLine = p'.stalledBefore.map offLine := congrArg MutedPoll.stalledBefore hp
  cases hb : p.stalledBefore with
  | none =>
    rw [hb] at hstalled
    rw [Option.map_eq_none_iff.mp hstalled.symm]
    exact hgoOn _ _ hearly
  | some stalled =>
    rw [hb] at hstalled
    obtain ⟨stalled', hb', hoff⟩ := Option.map_eq_some_iff.mp hstalled.symm
    rw [hb']
    refine hushes_forget.bind_paired fun _ => hgoOn _ _ ?_
    rw [offLine_or, offLine_or, hearly, hoff]

theorem hushes_branch (taken : Bool) : Hushes H H' R used Poll.muted (Code.branch taken) := by
  refine (Tree.paired_self _).mp (paired_poll fun p p' hp _ => ?_)
  have hearly : offLine p.requests = offLine p'.requests := congrArg MutedPoll.requests hp
  extract_lets early early'
  refine hushes_forget.bind_paired fun _ => ?_
  refine (hushes_pollFree hR (by simp [Code.fetch])).bind_paired fun offset => paired_poll fun r r' hr _ => ?_
  extract_lets goOn
  have hgoOn : ∀ e e', offLine e = offLine e' → Tree.Paired (handle H) (handle H') (Hushed R used Poll.muted)
      (goOn e) (goOn e') (Silent R used Poll.muted) := by
    intro e e' he
    cases taken with
    | true => exact paired_branchTaken hR offset he
    | false => exact .ret fun _ _ h => ⟨rfl, h⟩
  have hstalled : r.stalled.map offLine = r'.stalled.map offLine := congrArg MutedPoll.stalled hr
  cases hs : r.stalled with
  | none =>
    rw [hs] at hstalled
    rw [Option.map_eq_none_iff.mp hstalled.symm]
    exact hgoOn _ _ hearly
  | some stalled =>
    rw [hs] at hstalled
    obtain ⟨stalled', hs', hoff⟩ := Option.map_eq_some_iff.mp hstalled.symm
    rw [hs']
    exact hushes_forget.bind_paired fun _ => hgoOn _ _ hoff.symm

theorem hushes_push (value : ℕ) : Hushes H H' R used Poll.heard (Code.push value) := by
  refine .bind hushed_core fun c => .bind ?_ fun _ => hushed_update _
  exact fun q q' h => ⟨rfl, hushed_write hR h _ _⟩

omit hR in
theorem hushed_heard {code : Code α} (h : Hushes H H' R used Poll.heard code) :
    Hushes H H' R used Poll.muted code := h.mono (fun _ _ hq => hq.heard) fun _ _ hq => hq

omit hR in
theorem hushed_unlatched : Tree.Coupled (handle H) (handle H') (Hushed R used Poll.muted)
    (Code.updatePoll fun poll => { poll with requests := without poll.requests nmiLatch })
    (Hushed R used Poll.heard) := by
  refine hushed_updatePoll Poll.heard (fun _ => rfl) fun p p' h => ?_
  have hheard : p.heard = p'.heard := congrArg MutedPoll.confirm h
  change p.unlatched.heard = p'.unlatched.heard
  rw [Poll.heard_unlatched, Poll.heard_unlatched, hheard]

/-- What is unconfirmed when an NMI is taken is confirmed by the next access. -/
theorem hushes_interrupt (vector pushedP : ℕ) :
    Hushes H H' R used Poll.heard (Code.interrupt vector pushedP) := by
  refine .bind hushed_core fun c => .bind (hushes_push hR _) fun _ => ?_
  refine .bind (hushes_pollFree hR (by simp [Code.push])) fun _ => ?_
  extract_lets enter
  have henter : ∀ vector, Hushes H H' R used Poll.heard (enter vector) := by
    intro vector
    refine .bind (hushes_push hR _) fun _ => .bind (hushed_update _) fun _ => ?_
    refine .bind (hushes_pollFree hR (by simp)) fun low => .bind (hushes_pollFree hR (by simp)) fun high => ?_
    refine .bind (hushed_update _) fun _ => hushed_updatePoll Poll.muted (fun _ => rfl) fun p p' h => ?_
    exact congrArg (fun m : MutedPoll => { m with seen := offLine noPoll }) h
  refine (Tree.paired_self _).mp (paired_poll fun p p' hp _ => ?_)
  have hoff : offLine p.requests = offLine p'.requests := congrArg MutedPoll.requests hp
  have hlatch : p.requests &&& nmiLatch = p'.requests &&& nmiLatch := offLine_and_congr hoff (by decide)
  rw [hlatch]
  refine (Tree.paired_self _).mpr ?_
  split
  · exact .bind hushed_unlatched fun _ => henter _
  · exact hushed_heard (henter _)

theorem hushes_dispatch (chip : Chip) (entry : Entry) : Hushes H H' R used Poll.muted (Code.dispatch chip entry) := by
  cases entry with
  | addressed handler mode cycles =>
    exact .bind (hushes_pollFree hR mode.pollFree) fun _ => hushes_pollFree hR (handler.pollFree chip _)
  | implied handler cycles =>
    by_cases hb : (handler.taken 0).isSome
    · rw [Code.dispatch, Implied.op_branch hb]
      exact .bind hushed_core fun c => hushes_branch hR _
    · by_cases hbrk : handler = .brk
      · subst hbrk
        refine .bind (hushes_pollFree hR (by simp [Code.fetch])) fun _ => .bind hushed_core fun c => ?_
        exact hushed_heard (hushes_interrupt hR _ _)
      · exact hushes_pollFree hR (Implied.pollFree (Option.not_isSome_iff_eq_none.mp hb) hbrk)

theorem hushes_execute (chip : Chip) : Hushes H H' R used Poll.heard (Code.execute chip) := by
  refine .bind hushed_core fun c => .bind (hushes_askRead hR _) fun opcode => ?_
  refine .bind (hushed_update _) fun _ => .bind (hushes_dispatch hR chip _) fun _ => .bind hushed_core fun c => ?_
  dsimp only
  split
  · exact .bind (hushed_update _) fun _ => .ret _
  · exact .ret _

end

/-- Two machines between their steps. -/
structure Resting (R : σ → σ' → Prop) (q : Plain σ) (q' : Plain σ') : Prop where
  hushed : Hushed R False Poll.muted q q'
  deciding : offLine q.poll.deciding = offLine q'.poll.deciding

/-- A sequence that ends between steps. -/
abbrev Rests (H : Host σ) (H' : Host σ') (R : σ → σ' → Prop) (used : Prop) (code : Code α) : Prop :=
  Tree.Coupled (handle H) (handle H') (Hushed R used Poll.heard) code (Resting R)

theorem resting_skip : Tree.Coupled (handle H) (handle H') (Hushed R used Poll.muted)
    (Code.updatePoll ({ · with polled := some noPoll, deferred := none })) (Resting R) :=
  fun _ _ h => ⟨rfl, { h with poll := congrArg MutedPoll.confirm h.poll, unpolled := False.elim }, rfl⟩

section
variable (hR : H.OffLine H' R)
include hR

theorem rests_enterInterrupt (kind : ℕ) : Rests H H' R used (Code.enterInterrupt kind) := by
  refine .bind (hushed_update _) fun _ => .bind hushed_core fun c => .bind (hushes_read hR _) fun _ => ?_
  refine .bind (hushes_pollFree hR (by simp)) fun _ => ?_
  dsimp only
  generalize (if kind = nmiLatch then vectorNmi else vectorIrq) = vector
  have hrest : Rests H H' R used (do
      let c ← Code.core
      Code.interrupt vector (without (c.p ||| flagU) flagB)
      Code.updatePoll ({ · with polled := some noPoll, deferred := none })
      return 7) := by
    refine .bind hushed_core fun c => .bind (hushes_interrupt hR _ _) fun _ => ?_
    exact .bind resting_skip fun _ => .ret _
  split
  · exact .bind hushed_unlatched fun _ => hrest
  · exact hrest.mono (fun _ _ h => h.heard) fun _ _ h => h

theorem rests_acceptReset : Rests H H' R used Code.acceptReset := by
  refine .bind (hushed_updatePoll Poll.heard (fun _ => rfl) fun p p' h => ?_) fun _ => ?_
  · exact congrArg (fun m : MutedPoll => { m with resetPending := false }) h
  refine .bind (hushed_update _) fun _ => .bind hushed_core fun c => .bind (hushes_read hR _) fun _ => ?_
  refine .bind (hushes_pollFree hR (by simp)) fun _ => ?_
  refine .bind (hushes_pollFree hR (by simp [Code.resetStackCycle])) fun _ => ?_
  refine .bind (hushes_pollFree hR (by simp [Code.resetStackCycle])) fun _ => ?_
  refine .bind (hushes_pollFree hR (by simp [Code.resetStackCycle])) fun _ => ?_
  refine .bind (hushed_update _) fun _ => .bind (hushes_pollFree hR (by simp)) fun low => ?_
  refine .bind (hushes_pollFree hR (by simp)) fun high => .bind (hushed_update _) fun _ => ?_
  exact .bind resting_skip fun _ => .ret _

/-- An instruction leaves what it has seen for the next decision. -/
theorem rests_instruction (chip : Chip) : Rests H H' R True (Code.instruction chip) := by
  intro q q' h
  obtain ⟨hcycles, hend⟩ := hushes_execute hR chip q q' h
  change (exec H (Code.instruction chip) q).1 = (exec H' (Code.instruction chip) q').1 ∧
    Resting R (exec H (Code.instruction chip) q).2 (exec H' (Code.instruction chip) q').2
  rw [exec_instruction, exec_instruction]
  obtain ⟨hpolled, hpolled'⟩ := hend.unpolled trivial
  have hsettled : ∀ p : Poll, p.settled.muted = p.heard := by
    intro p
    rw [Poll.settled, Poll.heard]
    split
    · rfl
    · next hd => rw [Poll.muted, Poll.muted, Poll.seen, Poll.seen, hd]; rfl
  refine ⟨hcycles, { hend with poll := ?_, unpolled := False.elim }, ?_⟩
  · exact (hsettled _).trans ((congrArg MutedPoll.confirm hend.poll).trans (hsettled _).symm)
  · refine (congrArg offLine (Poll.deciding_settled hpolled)).trans ?_
    exact (congrArg MutedPoll.seen hend.poll).trans (congrArg offLine (Poll.deciding_settled hpolled')).symm

end

end Plain

end SixFiveOhTwo
