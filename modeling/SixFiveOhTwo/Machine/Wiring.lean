import SixFiveOhTwo.Machine.Plain
import SixFiveOhTwo.Processor.Handlers

/-! # A step does not see the wiring

`wired_step`: from a routed processor, a step runs as on its plain machine and leaves the processor
routed. Only a branch and an interrupt sequence assign what is unconfirmed, after their last access.
-/

namespace SixFiveOhTwo
open Bits Interaction
set_option autoImplicit false

namespace Machine
variable {σ α : Type} (H : Host σ) (chip : Chip)

/-- A program run on a machine and on its plain machine. -/
abbrev Follows (R : Machine σ → Plain σ → Prop) (code : Code α) (Q : Machine σ → Plain σ → Prop) : Prop :=
  Tree.Coupled (handle H) (Plain.handle H) R code Q

variable {H}

theorem follows_calm {code : Code α} (h : code.Uses Calm) : Follows H Wired code Wired :=
  .of_uses (wired_simulates H) h

theorem follows_pollFree {code : Code α} (h : code.PollFree) : Follows H Wired code Wired :=
  follows_calm (h.mono (fun op hop => by cases op <;> trivial) fun _ _ => trivial)

theorem follows_poll : Follows H Wired Code.poll Wired := follows_calm ⟨trivial, fun _ => trivial⟩

/-- What a program finds the poll to be is what it is. -/
theorem follows_poll_known {f : Poll → Code α} {Q : Machine σ → Plain σ → Prop}
    (h : ∀ poll, Follows H (fun m q => Wired m q ∧ m.cpu.poll = poll) (f poll) Q) :
    Follows H Wired (Code.poll >>= f) Q := by
  rintro m _ ⟨hr, rfl⟩
  exact h m.cpu.poll m m.plain ⟨⟨hr, rfl⟩, rfl⟩

theorem follows_setPoll {poll poll' : Poll} (hd : poll'.deferred = poll.deferred) :
    Follows H (fun m q => Wired m q ∧ m.cpu.poll = poll) (Code.setPoll poll') Wired := by
  rintro m _ ⟨⟨hr, rfl⟩, rfl⟩
  exact ⟨rfl, ⟨hr.agrees, fun hne => hr.unconfirmed (hd ▸ hne)⟩, rfl⟩

/-- Assigning the poll keeps the routing when what is unconfirmed stays or goes. -/
theorem follows_updatePoll {f : Poll → Poll}
    (hf : ∀ poll, (f poll).deferred = poll.deferred ∨ (f poll).deferred = none) :
    Follows H Wired (Code.updatePoll f) Wired := by
  rintro m _ ⟨hr, rfl⟩
  refine ⟨rfl, ⟨hr.agrees, fun hne => ?_⟩, rfl⟩
  exact hr.unconfirmed ((hf m.cpu.poll).elim (fun h => h ▸ hne) fun h => absurd h hne)

theorem follows_settle (f : Poll → Poll) : Follows H Wired (Code.updatePoll f) Settling := by
  rintro m _ ⟨hr, rfl⟩
  exact ⟨rfl, hr.agrees, rfl⟩

theorem follows_settled_update (f : Core → Core) : Follows H Settling (Code.update f) Settling := by
  rintro m _ ⟨hr, rfl⟩
  exact ⟨rfl, hr, rfl⟩

theorem follows_confirm {f : Poll → Poll} (hf : ∀ poll, (f poll).deferred = none) :
    Follows H Settling (Code.updatePoll f) Wired := by
  rintro m _ ⟨hr, rfl⟩
  exact ⟨rfl, ⟨hr, fun hne => absurd (hf _) hne⟩, rfl⟩

theorem follows_settling {R : Machine σ → Plain σ → Prop} {code : Code α} (h : Follows H R code Wired) :
    Follows H R code Settling := h.mono (fun _ _ hr => hr) fun _ _ => Wired.settling

/-! ## The sequences -/

theorem follows_unstall :
    Follows H Wired (Code.updatePoll ({ · with stalled := none, stalledBefore := none })) Wired :=
  follows_updatePoll fun _ => .inl rfl

theorem follows_branchTaken (offset early : ℕ) :
    Follows H Wired (Code.branchTaken offset early) Settling := by
  refine .bind (follows_pollFree (by simp)) fun c => .bind (follows_pollFree (by simp)) fun _ => ?_
  refine .bind follows_poll fun polled => ?_
  extract_lets target jump afterRead
  have hafterRead : ∀ early, Follows H Wired (afterRead early) Settling := by
    intro early
    simp only [afterRead]
    split
    · refine .bind (follows_pollFree (by simp)) fun _ => .bind (follows_pollFree (by simp)) fun _ => ?_
      exact .bind (follows_settle _) fun _ => follows_settled_update _
    · refine .bind (follows_pollFree (by simp)) fun _ => ?_
      exact .bind (follows_settle _) fun _ => follows_settled_update _
  cases polled.stalledBefore with
  | none => exact .bind (.ret _) hafterRead
  | some stalledBefore => exact .bind follows_unstall fun _ => .bind (.ret _) hafterRead

theorem follows_branch (taken : Bool) : Follows H Wired (Code.branch taken) Settling := by
  refine .bind follows_poll fun poll => .bind follows_unstall fun _ => ?_
  refine .bind (follows_pollFree (by simp [Code.fetch])) fun offset => .bind follows_poll fun polled => ?_
  extract_lets afterFetch
  have hafterFetch : ∀ early, Follows H Wired (afterFetch early) Settling := by
    intro early
    simp only [afterFetch]
    split
    · exact follows_branchTaken _ _
    · exact follows_settling (.ret ())
  cases polled.stalled with
  | none => exact .bind (.ret _) hafterFetch
  | some stalled => exact .bind follows_unstall fun _ => .bind (.ret _) hafterFetch

theorem follows_interrupt (vector pushedP : ℕ) :
    Follows H Wired (Code.interrupt vector pushedP) Settling := by
  refine .bind (follows_pollFree (by simp)) fun c => .bind (follows_pollFree (by simp [Code.push])) fun _ => ?_
  refine .bind (follows_pollFree (by simp [Code.push])) fun _ => ?_
  extract_lets enter
  have henter : ∀ vector, Follows H Wired (enter vector) Settling := by
    intro vector
    refine .bind (follows_pollFree (by simp [Code.push])) fun _ => .bind (follows_pollFree (by simp)) fun _ => ?_
    refine .bind (follows_pollFree (by simp)) fun low => .bind (follows_pollFree (by simp)) fun high => ?_
    exact .bind (follows_pollFree (by simp)) fun _ => follows_settle _
  refine .bind follows_poll fun poll => ?_
  split
  · exact .bind (follows_updatePoll fun _ => .inl rfl) fun _ => .bind (.ret _) henter
  · exact .bind (.ret _) henter

theorem follows_dispatch (entry : Entry) : Follows H Wired (Code.dispatch chip entry) Settling := by
  cases entry with
  | addressed handler mode cycles =>
    exact follows_settling (.bind (follows_pollFree mode.pollFree) fun _ => follows_pollFree (handler.pollFree chip _))
  | implied handler cycles =>
    by_cases hb : (handler.taken 0).isSome
    · rw [Code.dispatch, Implied.op_branch hb]
      exact .bind (follows_pollFree (by simp)) fun c => follows_branch _
    · by_cases hbrk : handler = .brk
      · subst hbrk
        exact .bind (follows_pollFree (by simp [Code.fetch])) fun _ =>
          .bind (follows_pollFree (by simp)) fun c => follows_interrupt _ _
      · exact follows_settling (follows_pollFree (Implied.pollFree (Option.not_isSome_iff_eq_none.mp hb) hbrk))

theorem follows_execute : Follows H Wired (Code.execute chip) Settling := by
  refine .bind (follows_pollFree (by simp)) fun c => .bind (follows_pollFree ⟨trivial, fun _ => trivial⟩) fun opcode => ?_
  refine .bind (follows_pollFree (by simp)) fun _ => .bind (follows_dispatch chip _) fun _ => ?_
  have hcore : Follows H Settling Code.core Settling := by
    rintro m _ ⟨hr, rfl⟩
    exact ⟨rfl, hr, rfl⟩
  refine .bind hcore fun c => ?_
  dsimp only
  split
  · exact .bind (follows_settled_update _) fun _ => .ret _
  · exact .ret _

/-- An instruction's step uses up what its last cycle left unconfirmed. -/
theorem follows_instruction : Follows H Wired (Code.instruction chip) Wired := by
  refine .bind (follows_execute chip) fun cycles => ?_
  rintro m _ ⟨hr, rfl⟩
  have hpoll : Code.poll.run (handle H) m = (m.cpu.poll, m) := rfl
  have hplain : Code.poll.run (Plain.handle H) m.plain = (m.cpu.poll, m.plain) := rfl
  rw [Tree.run_bind, Tree.run_bind, hpoll, hplain]
  cases hd : m.cpu.poll.deferred with
  | none =>
    exact ⟨rfl, ⟨hr, fun hne => absurd hd hne⟩, rfl⟩
  | some deferred =>
    exact ⟨rfl, ⟨hr, fun hne => absurd rfl hne⟩, rfl⟩

theorem follows_enterInterrupt (kind : ℕ) : Follows H Wired (Code.enterInterrupt kind) Wired := by
  refine .bind (follows_pollFree (by simp)) fun _ => .bind (follows_pollFree (by simp)) fun c => ?_
  refine .bind (follows_pollFree (by simp)) fun _ => .bind (follows_pollFree (by simp)) fun _ => ?_
  dsimp only
  generalize (if kind = nmiLatch then vectorNmi else vectorIrq) = vector
  have hrest : Follows H Wired (do
      let c ← Code.core
      Code.interrupt vector (without (c.p ||| flagU) flagB)
      Code.updatePoll ({ · with polled := some noPoll, deferred := none })
      return 7) Wired := by
    refine .bind (follows_pollFree (by simp)) fun c => .bind (follows_interrupt _ _) fun _ => ?_
    exact .bind (follows_confirm fun _ => rfl) fun _ => .ret _
  split
  · exact .bind (follows_updatePoll fun _ => .inl rfl) fun _ => hrest
  · exact hrest

theorem follows_acceptReset : Follows H Wired Code.acceptReset Wired := by
  refine .bind (follows_updatePoll fun _ => .inl rfl) fun _ => .bind (follows_pollFree (by simp)) fun _ => ?_
  refine .bind (follows_pollFree (by simp)) fun c => .bind (follows_pollFree (by simp)) fun _ => ?_
  refine .bind (follows_pollFree (by simp)) fun _ => ?_
  refine .bind (follows_pollFree (by simp [Code.resetStackCycle])) fun _ => ?_
  refine .bind (follows_pollFree (by simp [Code.resetStackCycle])) fun _ => ?_
  refine .bind (follows_pollFree (by simp [Code.resetStackCycle])) fun _ => ?_
  refine .bind (follows_pollFree (by simp)) fun _ => .bind (follows_pollFree (by simp)) fun low => ?_
  refine .bind (follows_pollFree (by simp)) fun high => .bind (follows_pollFree (by simp)) fun _ => ?_
  exact .bind (follows_updatePoll fun _ => .inr rfl) fun _ => .ret _

theorem follows_boundaryInterrupt : Follows H Wired Code.boundaryInterrupt Wired := by
  rw [Code.boundaryInterrupt]
  extract_lets decide
  have hdecide : ∀ polled, Follows H Wired (decide polled) Wired := by
    intro polled
    simp only [decide]
    split
    · exact .ret _
    · refine .bind (follows_pollFree (by simp)) fun c => ?_
      cases c.polledI with
      | none => exact .ret _
      | some polledI => exact .bind (follows_pollFree (by simp)) fun _ => .ret _
  refine follows_poll_known fun poll => ?_
  cases poll.polled with
  | none => exact .bind (.mono (.ret _) (fun _ _ h => h.1) fun _ _ h => h) hdecide
  | some polled => exact .bind (follows_setPoll rfl) fun _ => .bind (.ret _) hdecide

/-- **A step of a routed processor is its plain machine's, and leaves it routed.** -/
theorem wired_step : Follows H Wired (Code.step chip) Wired := by
  refine .bind follows_poll fun poll => ?_
  split
  · exact .bind follows_acceptReset fun _ => .ret _
  · refine .bind (follows_pollFree (by simp)) fun c => ?_
    split
    · exact .bind (follows_pollFree (by simp [Code.haltedCycle])) fun _ => .ret _
    · refine .bind follows_poll fun poll => .bind (follows_pollFree (by simp)) fun c => ?_
      extract_lets afterBoundary
      have hafterBoundary : ∀ taken, Follows H Wired (afterBoundary taken) Wired := by
        intro taken
        simp only [afterBoundary]
        split
        · exact .bind (follows_enterInterrupt _) fun _ => .ret _
        · exact .bind (follows_instruction chip) fun _ => .ret _
      split
      · exact .bind follows_boundaryInterrupt hafterBoundary
      · exact .bind (.ret _) hafterBoundary

end Machine

end SixFiveOhTwo
