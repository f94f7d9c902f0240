import SixFiveOhTwo.Polling.Records

/-! # What the sequences that look at the poll do to it

`Scene` shows the registers, the poll and the record of accesses, and `scene` how an operation moves
them, whatever the host answers and calls. It is `sight` with the poll in it: what an access does to
the poll is told by the record of the access.
-/

namespace SixFiveOhTwo
open Interaction
set_option autoImplicit false

structure Scene where
  core : Core
  poll : Poll
  trace : List HostCall

namespace Scene

/-- One more access. -/
def saw (g : Scene) (call : HostCall) : Scene :=
  { g with poll := g.poll.access call.calls, trace := g.trace ++ [call] }

@[simp] theorem saw_core (g : Scene) (call : HostCall) : (g.saw call).core = g.core := rfl

@[simp] theorem saw_poll (g : Scene) (call : HostCall) : (g.saw call).poll = g.poll.access call.calls := rfl

@[simp] theorem saw_trace (g : Scene) (call : HostCall) : (g.saw call).trace = g.trace ++ [call] := rfl

end Scene

/-- What an operation may answer, and how it moves the scene. -/
def scene : Tree.View Op.Ans Scene
  | .read address, g, value, g' =>
    ∃ call : HostCall, call.access = .r address value.val ∧ g.poll.Records [call] ∧ g' = g.saw call
  | .write address value, g, _, g' =>
    ∃ call : HostCall, call.access = .w address value ∧ g.poll.Records [call] ∧ g' = g.saw call
  | .core, g, core, g' => core = g.core ∧ g' = g
  | .setCore core, g, _, g' => g' = { g with core }
  | .dmaStalled, g, _, g' => g' = g
  | .poll, g, poll, g' => poll = g.poll ∧ g' = g
  | .setPoll poll, g, _, g' => g' = { g with poll }

namespace Code
variable {α : Type}

/-- On every host, `code` returns into `post`, which may look at the poll. -/
def Reaches (code : Code α) (post : α → Scene → Prop) (g : Scene) : Prop := Tree.wp scene post code g

variable {post : α → Scene → Prop} {g : Scene}

@[simp] theorem reaches_pure (a : α) : (pure a : Code α).Reaches post g ↔ post a g := Iff.rfl

@[simp] theorem reaches_bind {β : Type} {post : β → Scene → Prop} (code : Code α) (f : α → Code β) :
    (code >>= f).Reaches post g ↔ code.Reaches (fun a => (f a).Reaches post) g := Tree.wp_bind ..

@[simp] theorem reaches_map {β : Type} {post : β → Scene → Prop} (f : α → β) (code : Code α) :
    (f <$> code).Reaches post g ↔ code.Reaches (fun a => post (f a)) g := Tree.wp_map ..

@[simp] theorem reaches_ite (p : Prop) [Decidable p] (yes no : Code α) :
    (if p then yes else no).Reaches post g ↔ if p then yes.Reaches post g else no.Reaches post g := by
  split <;> rfl

@[simp] theorem reaches_read {post : ℕ → Scene → Prop} (address : ℕ) :
    (read address).Reaches post g ↔ ∀ (value : Byte) (call : HostCall),
      call.access = .r address value.val → g.poll.Records [call] → post value.val (g.saw call) := by
  constructor
  · intro h value call hcall hrec
    exact h value _ ⟨call, hcall, hrec, rfl⟩
  · rintro h value g' ⟨call, hcall, hrec, rfl⟩
    exact h value call hcall hrec

@[simp] theorem reaches_write {post : Unit → Scene → Prop} (address value : ℕ) :
    (write address value).Reaches post g ↔ ∀ call : HostCall,
      call.access = .w address value → g.poll.Records [call] → post () (g.saw call) := by
  constructor
  · intro h call hcall hrec
    exact h () _ ⟨call, hcall, hrec, rfl⟩
  · rintro h ⟨⟩ g' ⟨call, hcall, hrec, rfl⟩
    exact h call hcall hrec

@[simp] theorem reaches_core {post : Core → Scene → Prop} : core.Reaches post g ↔ post g.core g :=
  ⟨fun h => h _ _ ⟨rfl, rfl⟩, fun h _ _ ⟨hc, hg⟩ => hc ▸ hg ▸ h⟩

@[simp] theorem reaches_setCore {post : Unit → Scene → Prop} (c : Core) :
    (setCore c).Reaches post g ↔ post () { g with core := c } :=
  ⟨fun h => h () _ rfl, fun h _ _ hg => hg ▸ h⟩

@[simp] theorem reaches_update {post : Unit → Scene → Prop} (f : Core → Core) :
    (update f).Reaches post g ↔ post () { g with core := f g.core } := by
  simp only [update, reaches_bind, reaches_core, reaches_setCore]

@[simp] theorem reaches_poll {post : Poll → Scene → Prop} : poll.Reaches post g ↔ post g.poll g :=
  ⟨fun h => h _ _ ⟨rfl, rfl⟩, fun h _ _ ⟨hc, hg⟩ => hc ▸ hg ▸ h⟩

@[simp] theorem reaches_setPoll {post : Unit → Scene → Prop} (p : Poll) :
    (setPoll p).Reaches post g ↔ post () { g with poll := p } :=
  ⟨fun h => h () _ rfl, fun h _ _ hg => hg ▸ h⟩

@[simp] theorem reaches_updatePoll {post : Unit → Scene → Prop} (f : Poll → Poll) :
    (updatePoll f).Reaches post g ↔ post () { g with poll := f g.poll } := by
  simp only [updatePoll, reaches_bind, reaches_poll, reaches_setPoll]

theorem Reaches.mono {code : Code α} {post' : α → Scene → Prop} (h : code.Reaches post g)
    (hpost : ∀ a g, post a g → post' a g) : code.Reaches post' g := Tree.wp_mono h hpost

/-- Accesses, recorded, are all that happens to the poll during a program that leaves it alone. -/
theorem reaches_pollFree {code : Code α} (hcode : code.PollFree) (g : Scene) :
    code.Reaches (fun _ g' => ∃ t, g'.trace = g.trace ++ t ∧ g.poll.Records t ∧
      g'.poll = g.poll.accesses t) g := by
  refine Tree.wp_of_uses ?_ hcode ⟨[], (List.append_nil _).symm, trivial, rfl⟩
  have hsaw : ∀ (g' : Scene) (call : HostCall), g'.poll.Records [call] →
      (∃ t, g'.trace = g.trace ++ t ∧ g.poll.Records t ∧ g'.poll = g.poll.accesses t) →
      ∃ t, (g'.saw call).trace = g.trace ++ t ∧ g.poll.Records t ∧ (g'.saw call).poll = g.poll.accesses t := by
    rintro g' call hrec ⟨t, ht, hrecs, hpoll⟩
    refine ⟨t ++ [call], ?_, ?_, ?_⟩
    · rw [Scene.saw_trace, ht, List.append_assoc]
    · exact (Poll.records_append _ _ _).mpr ⟨hrecs, hpoll ▸ hrec⟩
    · rw [Scene.saw_poll, hpoll, Poll.accesses_append]
      rfl
  intro op g' x g'' hop hg' hstep
  cases op with
  | read address =>
    obtain ⟨call, -, hrec, rfl⟩ := hstep
    exact hsaw g' call hrec hg'
  | write address value =>
    obtain ⟨call, -, hrec, rfl⟩ := hstep
    exact hsaw g' call hrec hg'
  | core =>
    obtain ⟨-, rfl⟩ := hstep
    exact hg'
  | setCore core =>
    subst hstep
    exact hg'
  | dmaStalled =>
    subst hstep
    exact hg'
  | poll => exact hop.elim
  | setPoll poll => exact hop.elim

end Code

namespace Plain
variable {σ : Type} (H : Host σ)

/-- The scene of a machine. -/
def scenery (q : Plain σ) : Scene := { core := q.core, poll := q.poll, trace := q.trace }

theorem handle_scene : Tree.Respects (handle H) scenery scene := by
  intro op q
  cases op with
  | read address => exact ⟨q.poll.record _ _ _, rfl, ⟨⟨rfl, rfl⟩, trivial⟩, rfl⟩
  | write address value => exact ⟨q.poll.record _ _ _, rfl, ⟨⟨rfl, rfl⟩, trivial⟩, rfl⟩
  | core => exact ⟨rfl, rfl⟩
  | poll => exact ⟨rfl, rfl⟩
  | _ => rfl

theorem exec_reaches {α : Type} {code : Code α} {post : α → Scene → Prop} {q : Plain σ}
    (h : code.Reaches post q.scenery) : post (exec H code q).1 (exec H code q).2.scenery :=
  Tree.wp_run (handle_scene H) h

end Plain

end SixFiveOhTwo
