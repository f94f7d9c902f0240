import SixFiveOhTwo.Polling.Edges

/-! # What a step does not see of the poll

A step begun on two polls that differ in what a snapshot drops makes the same accesses and ends on
polls that differ in less. `Alike n` relates two machines equal up to a part of the poll that `n`
forgets:

* the stalls, and what is unconfirmed, before the first access of an instruction or an entry;
* the stalls alone after it, until a branch forgets them itself.
-/

namespace SixFiveOhTwo
open Bits Interaction
set_option autoImplicit false

/-! ## Parts of the poll that the calls do not look at -/

namespace Poll

/-- `n` forgets a part of the poll that no call needs for the rest of it. -/
structure Blind (n : Poll → Poll) : Prop where
  requests : ∀ p, (n p).requests = p.requests
  confirm : ∀ p, n p.confirm = n (n p).confirm
  onPoll : ∀ p (call : Call), n (call.onPoll p) = n (call.onPoll (n p))

theorem Blind.applyCalls {n : Poll → Poll} (hn : Blind n) {p p' : Poll} (h : n p = n p') (calls : List Call) :
    n (p.applyCalls calls) = n (p'.applyCalls calls) := by
  induction calls generalizing p p' with
  | nil => exact h
  | cons call calls ih => exact ih (by rw [hn.onPoll p, hn.onPoll p', h])

/-- An access forgets what was unconfirmed before it. -/
theorem Blind.access {n : Poll → Poll} (hn : Blind n) {p p' : Poll} (h : n p.confirm = n p'.confirm)
    (calls : List Call) : n (p.access calls) = n (p'.access calls) := hn.applyCalls h calls

theorem see_unstalled (p : Poll) (bit : ℕ) : (p.see bit).unstalled = p.unstalled.see bit := by
  have hpolled : p.unstalled.polled = p.polled := rfl
  rw [see, see, hpolled]
  cases p.polled with
  | none => rfl
  | some polled => exact apply_ite unstalled _ _ _

theorem blind_unstalled : Blind unstalled := by
  refine ⟨fun p => rfl, fun p => rfl, fun p call => ?_⟩
  cases call with
  | requestMaskableInterrupt | requestNonMaskableInterrupt =>
    simp only [Call.onPoll, see_unstalled]
    rfl
  | _ => rfl

/-- The poll without the stalls and without what was polled. -/
def unpolled (p : Poll) : Poll := p.unstalled.forget

theorem see_unpolled (p : Poll) (bit : ℕ) : (p.see bit).unpolled = p.unpolled := by
  unfold see
  split
  · split <;> rfl
  · rfl

theorem blind_unpolled : Blind unpolled := by
  refine ⟨fun p => rfl, fun p => rfl, fun p call => ?_⟩
  cases call with
  | requestMaskableInterrupt | requestNonMaskableInterrupt =>
    simp only [Call.onPoll, see_unpolled]
    rfl
  | _ => rfl

end Poll

/-! ## Machines alike -/

namespace Plain
variable {σ α : Type} (H : Host σ)

/-- Two machines equal up to what `n` forgets of their polls. -/
structure Alike (n : Poll → Poll) (q q' : Plain σ) : Prop where
  core : q.core = q'.core
  poll : n q.poll = n q'.poll
  dmaStalled : q.dmaStalled = q'.dmaStalled
  host : q.host = q'.host
  trace : q.trace = q'.trace
  readByte : q.readByte = q'.readByte
  writeByte : q.writeByte = q'.writeByte

/-- A program run on two machines. -/
abbrev Twins (R : Plain σ → Plain σ → Prop) (code : Code α) (Q : Plain σ → Plain σ → Prop) : Prop :=
  Tree.Coupled (handle H) (handle H) R code Q

variable {H} {n : Poll → Poll}

theorem Alike.called (hn : Poll.Blind n) {q q' : Plain σ} (h : Alike (fun p => n p.confirm) q q')
    {callable callable' : ℕ} (hc : callable = callable') (access : Access) (calls : List Call) (host : σ) :
    Alike n (q.called callable access calls host) (q'.called callable' access calls host) := by
  subst hc
  have hrequests : q.poll.requests = q'.poll.requests := by
    have hforgot := congrArg Poll.requests h.poll
    rw [hn.requests, hn.requests] at hforgot
    exact hforgot
  have hrecord : q.poll.record callable access calls = q'.poll.record callable access calls := by
    have hstalls : q.poll.confirm.stallsSeen calls = q'.poll.confirm.stallsSeen calls := by
      rw [Poll.stallsSeen_requests, Poll.stallsSeen_requests]
      exact congrArg (stallsFrom · calls) hrequests
    have hafter : (q.poll.access calls).requests = (q'.poll.access calls).requests := by
      rw [Poll.access, Poll.access, Poll.applyCalls_requests, Poll.applyCalls_requests]
      exact congrArg (requestsAfter · calls) hrequests
    rw [Poll.record, Poll.record, hstalls, hafter]
  exact {
    core := h.core
    poll := hn.access h.poll calls
    dmaStalled := by simp only [Plain.called, h.dmaStalled]
    host := rfl
    trace := by simp only [Plain.called, h.trace, hrecord]
    readByte := h.readByte
    writeByte := h.writeByte }

theorem alike_read (hn : Poll.Blind n) {q q' : Plain σ} (h : Alike (fun p => n p.confirm) q q') (address : ℕ) :
    (handle H (.read address) q).1 = (handle H (.read address) q').1 ∧
      Alike n (handle H (.read address) q).2 (handle H (.read address) q').2 := by
  simp only [handle]
  rw [h.readByte, h.host]
  exact ⟨rfl, h.called hn rfl _ _ _⟩

theorem alike_write (hn : Poll.Blind n) {q q' : Plain σ} (h : Alike (fun p => n p.confirm) q q')
    (address value : ℕ) : Alike n (handle H (.write address value) q).2 (handle H (.write address value) q').2 := by
  simp only [handle]
  rw [h.writeByte, h.host]
  exact h.called hn rfl _ _ _

/-- An access confirms no more than before. -/
theorem Alike.confirm (hn : Poll.Blind n) {q q' : Plain σ} (h : Alike n q q') :
    Alike (fun p => n p.confirm) q q' :=
  { h with poll := by rw [hn.confirm, hn.confirm q'.poll, h.poll] }

/-- A program that leaves the poll to its accesses keeps machines alike. -/
theorem twins_pollFree (hn : Poll.Blind n) {code : Code α} (hcode : code.PollFree) :
    Twins H (Alike n) code (Alike n) := by
  refine .of_uses ?_ hcode
  intro op q q' hop h
  cases op with
  | read address => exact alike_read hn (h.confirm hn) address
  | write address value => exact ⟨rfl, alike_write hn (h.confirm hn) address value⟩
  | core => exact ⟨h.core, h⟩
  | setCore core => exact ⟨rfl, { h with core := rfl }⟩
  | dmaStalled => exact ⟨h.dmaStalled, h⟩
  | poll => exact hop.elim
  | setPoll poll => exact hop.elim

/-! ## The operations before an access, and on the poll -/

theorem twins_core : Twins H (Alike n) Code.core (Alike n) := fun _ _ h => ⟨h.core, h⟩

theorem twins_update (f : Core → Core) : Twins H (Alike n) (Code.update f) (Alike n) :=
  fun _ _ h => ⟨rfl, { h with core := congrArg f h.core }⟩

theorem twins_askRead (hn : Poll.Blind n) (address : ℕ) :
    Twins H (Alike fun p => n p.confirm) (Code.ask (.read address)) (Alike n) := fun _ _ h => alike_read hn h address

theorem twins_read (hn : Poll.Blind n) (address : ℕ) :
    Twins H (Alike fun p => n p.confirm) (Code.read address) (Alike n) :=
  .bind (twins_askRead hn address) fun _ => .ret _

theorem twins_updatePoll (n' : Poll → Poll) {f : Poll → Poll} (hf : ∀ p p', n p = n p' → n' (f p) = n' (f p')) :
    Twins H (Alike n) (Code.updatePoll f) (Alike n') :=
  fun _ _ h => ⟨rfl, { h with poll := hf _ _ h.poll }⟩

theorem twins_poll (hn : Poll.Blind n) {f : Poll → Code α} {Q : Plain σ → Plain σ → Prop}
    (hf : ∀ p p', p.requests = p'.requests → f p = f p') (hrest : ∀ p, Twins H (Alike n) (f p) Q) :
    Twins H (Alike n) (Code.poll >>= f) Q := by
  intro q q' h
  have hrequests : q.poll.requests = q'.poll.requests := by
    have hforgot := congrArg Poll.requests h.poll
    rw [hn.requests, hn.requests] at hforgot
    exact hforgot
  have hrun : ∀ q : Plain σ, (Code.poll >>= f).run (handle H) q = (f q.poll).run (handle H) q := fun _ => rfl
  rw [hrun, hrun, hf _ _ hrequests]
  exact hrest _ q q' h

theorem twins_eq (code : Code α) : Twins H Eq code Eq := by
  rintro q _ rfl
  exact ⟨rfl, rfl⟩

/-! ## The sequences -/

/-- Once a branch has forgotten the stalls, nothing differs. -/
theorem twins_branch (taken : Bool) :
    Twins H (Alike Poll.unstalled) (Code.branch taken) (Alike Poll.unstalled) := by
  have hforget : Twins H (Alike Poll.unstalled)
      (Code.updatePoll ({ · with stalled := none, stalledBefore := none })) Eq := by
    rintro ⟨c, p, dma, host, trace, rd, wr⟩ ⟨c', p', dma', host', trace', rd', wr'⟩ ⟨h₁, h₂, h₃, h₄, h₅, h₆, h₇⟩
    simp only at h₁ h₂ h₃ h₄ h₅ h₆ h₇
    subst h₁ h₃ h₄ h₅ h₆ h₇
    exact ⟨rfl, congrArg (Plain.mk c · dma host trace rd wr) h₂⟩
  have hend : ∀ q q' : Plain σ, q = q' → Alike Poll.unstalled q q' := by
    rintro q _ rfl
    exact ⟨rfl, rfl, rfl, rfl, rfl, rfl, rfl⟩
  refine twins_poll Poll.blind_unstalled (fun p p' h => by simp only [h]) fun p => ?_
  exact .bind hforget fun _ => .mono (twins_eq _) (fun _ _ h => h) hend

theorem twins_interrupt (vector pushedP : ℕ) :
    Twins H (Alike Poll.unstalled) (Code.interrupt vector pushedP) (Alike Poll.unstalled) := by
  have hn := Poll.blind_unstalled
  refine .bind twins_core fun c => .bind (twins_pollFree hn (by simp [Code.push])) fun _ => ?_
  refine .bind (twins_pollFree hn (by simp [Code.push])) fun _ => ?_
  extract_lets enter
  have henter : ∀ vector, Twins H (Alike Poll.unstalled) (enter vector) (Alike Poll.unstalled) := by
    intro vector
    refine .bind (twins_pollFree hn (by simp [Code.push])) fun _ => .bind (twins_update _) fun _ => ?_
    refine .bind (twins_pollFree hn (by simp)) fun low => .bind (twins_pollFree hn (by simp)) fun high => ?_
    exact .bind (twins_update _) fun _ => twins_updatePoll Poll.unstalled fun p p' h => congrArg (Poll.deferring · noPoll) h
  refine twins_poll hn (fun p p' h => by simp only [h]) fun p => ?_
  split
  · refine .bind (twins_updatePoll Poll.unstalled fun p p' h => congrArg Poll.unlatched h) fun _ => .bind (.ret _) henter
  · exact .bind (.ret _) henter

theorem twins_dispatch (chip : Chip) (entry : Entry) :
    Twins H (Alike Poll.unstalled) (Code.dispatch chip entry) (Alike Poll.unstalled) := by
  have hn := Poll.blind_unstalled
  cases entry with
  | addressed handler mode cycles =>
    exact .bind (twins_pollFree hn mode.pollFree) fun _ => twins_pollFree hn (handler.pollFree chip _)
  | implied handler cycles =>
    by_cases hb : (handler.taken 0).isSome
    · rw [Code.dispatch, Implied.op_branch hb]
      exact .bind twins_core fun c => twins_branch _
    · by_cases hbrk : handler = .brk
      · subst hbrk
        exact .bind (twins_pollFree hn (by simp [Code.fetch])) fun _ => .bind twins_core fun c => twins_interrupt _ _
      · exact twins_pollFree hn (Implied.pollFree (Option.not_isSome_iff_eq_none.mp hb) hbrk)

/-- An instruction's step does not see the stalls, nor what was unconfirmed before it. -/
theorem twins_instruction (chip : Chip) :
    Twins H (Alike fun p => p.confirm.unstalled) (Code.instruction chip) (Alike Poll.unstalled) := by
  have hn := Poll.blind_unstalled
  have hexecute : Twins H (Alike fun p => p.confirm.unstalled) (Code.execute chip) (Alike Poll.unstalled) := by
    refine .bind twins_core fun c => .bind (twins_askRead hn _) fun opcode => ?_
    refine .bind (twins_update _) fun _ => .bind (twins_dispatch chip _) fun _ => .bind twins_core fun c => ?_
    dsimp only
    split
    · exact .bind (twins_update _) fun _ => .ret _
    · exact .ret _
  refine .bind hexecute fun cycles => ?_
  intro q q' h
  have hdeferred : q.poll.unstalled.deferred = q'.poll.unstalled.deferred := congrArg Poll.deferred h.poll
  have hrun : ∀ q : Plain σ, Code.poll.run (handle H) q = (q.poll, q) := fun _ => rfl
  rw [Tree.run_bind, Tree.run_bind, hrun, hrun]
  change q.poll.deferred = q'.poll.deferred at hdeferred
  dsimp only
  rw [← hdeferred]
  cases q.poll.deferred with
  | none => exact ⟨rfl, h⟩
  | some deferred =>
    refine ⟨rfl, { h with poll := ?_ }⟩
    exact congrArg (fun p => { p with polled := some deferred, deferred := none }) h.poll

theorem twins_enterInterrupt (kind : ℕ) :
    Twins H (Alike fun p => p.confirm.unstalled) (Code.enterInterrupt kind) (Alike Poll.unstalled) := by
  have hn := Poll.blind_unstalled
  refine .bind (twins_update _) fun _ => .bind twins_core fun c => .bind (twins_read hn _) fun _ => ?_
  refine .bind (twins_pollFree hn (by simp)) fun _ => ?_
  dsimp only
  generalize (if kind = nmiLatch then vectorNmi else vectorIrq) = vector
  have hrest : Twins H (Alike Poll.unstalled) (do
      let c ← Code.core
      Code.interrupt vector (without (c.p ||| flagU) flagB)
      Code.updatePoll ({ · with polled := some noPoll, deferred := none })
      return 7) (Alike Poll.unstalled) := by
    refine .bind twins_core fun c => .bind (twins_interrupt _ _) fun _ => ?_
    exact .bind (twins_updatePoll Poll.unstalled fun p p' h => congrArg Poll.skipped h) fun _ => .ret _
  split
  · exact .bind (twins_updatePoll Poll.unstalled fun p p' h => congrArg Poll.unlatched h) fun _ => hrest
  · exact hrest

/-- A reset's step does not see what was polled either. -/
theorem twins_acceptReset :
    Twins H (Alike fun p => p.confirm.unpolled) Code.acceptReset (Alike Poll.unstalled) := by
  have hn := Poll.blind_unpolled
  have hreset : ∀ p p' : Poll, p.confirm.unpolled = p'.confirm.unpolled →
      ({ p with resetPending := false } : Poll).confirm.unpolled =
        ({ p' with resetPending := false } : Poll).confirm.unpolled :=
    fun p p' h => congrArg (fun p => { p with resetPending := false }) h
  refine .bind (twins_updatePoll (fun p => p.confirm.unpolled) hreset) fun _ => .bind (twins_update _) fun _ => ?_
  refine .bind twins_core fun c => .bind (twins_read hn _) fun _ => ?_
  refine .bind (twins_pollFree hn (by simp)) fun _ => ?_
  refine .bind (twins_pollFree hn (by simp [Code.resetStackCycle])) fun _ => ?_
  refine .bind (twins_pollFree hn (by simp [Code.resetStackCycle])) fun _ => ?_
  refine .bind (twins_pollFree hn (by simp [Code.resetStackCycle])) fun _ => ?_
  refine .bind (twins_update _) fun _ => .bind (twins_pollFree hn (by simp)) fun low => ?_
  refine .bind (twins_pollFree hn (by simp)) fun high => .bind (twins_update _) fun _ => ?_
  exact .bind (twins_updatePoll Poll.unstalled fun p p' h => congrArg Poll.skipped h) fun _ => .ret _

end Plain

end SixFiveOhTwo
