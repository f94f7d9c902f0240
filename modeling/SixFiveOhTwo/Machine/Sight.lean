import SixFiveOhTwo.Machine.Plain

/-! # What the processor's own registers do, whatever the host does

`Sight` shows the registers and the accesses made. `sight` is how an operation moves them when the
host may answer a read with any byte and call what it likes: the weakest preconditions against it are
what holds for every host.
-/

namespace SixFiveOhTwo
open Interaction
set_option autoImplicit false

/-- The registers, and the accesses since the step began. -/
structure Sight where
  core : Core
  trace : List Access

/-- One more access. -/
def Sight.saw (g : Sight) (access : Access) : Sight := { g with trace := g.trace ++ [access] }

@[simp] theorem Sight.saw_core (g : Sight) (access : Access) : (g.saw access).core = g.core := rfl

@[simp] theorem Sight.saw_trace (g : Sight) (access : Access) :
    (g.saw access).trace = g.trace ++ [access] := rfl

/-- What an operation may answer, and how it moves the registers and the trace. -/
def sight : Tree.View Op.Ans Sight
  | .read address, g, value, g' => g' = g.saw (.r address value.val)
  | .write address value, g, _, g' => g' = g.saw (.w address value)
  | .core, g, core, g' => core = g.core ∧ g' = g
  | .setCore core, g, _, g' => g' = { g with core }
  | .dmaStalled, g, _, g' => g' = g
  | .poll, g, _, g' => g' = g
  | .setPoll _, g, _, g' => g' = g

namespace Code
variable {α : Type}

/-- On every host, `code` returns into `post`. -/
def Ensures (code : Code α) (post : α → Sight → Prop) (g : Sight) : Prop := Tree.wp sight post code g

variable {post : α → Sight → Prop} {g : Sight}

@[simp] theorem ensures_pure (a : α) : (pure a : Code α).Ensures post g ↔ post a g := Iff.rfl

@[simp] theorem ensures_bind {β : Type} {post : β → Sight → Prop} (code : Code α) (f : α → Code β) :
    (code >>= f).Ensures post g ↔ code.Ensures (fun a => (f a).Ensures post) g := Tree.wp_bind ..

@[simp] theorem ensures_map {β : Type} {post : β → Sight → Prop} (f : α → β) (code : Code α) :
    (f <$> code).Ensures post g ↔ code.Ensures (fun a => post (f a)) g := Tree.wp_map ..

@[simp] theorem ensures_ite (p : Prop) [Decidable p] (yes no : Code α) :
    (if p then yes else no).Ensures post g ↔ if p then yes.Ensures post g else no.Ensures post g := by
  split <;> rfl

@[simp] theorem ensures_read {post : ℕ → Sight → Prop} (address : ℕ) :
    (read address).Ensures post g ↔ ∀ value : Byte, post value.val (g.saw (.r address value.val)) :=
  ⟨fun h value => h value _ rfl, fun h value _ hg => hg ▸ h value⟩

@[simp] theorem ensures_write {post : Unit → Sight → Prop} (address value : ℕ) :
    (write address value).Ensures post g ↔ post () (g.saw (.w address value)) :=
  ⟨fun h => h () _ rfl, fun h _ _ hg => hg ▸ h⟩

@[simp] theorem ensures_core {post : Core → Sight → Prop} : core.Ensures post g ↔ post g.core g :=
  ⟨fun h => h _ _ ⟨rfl, rfl⟩, fun h _ _ ⟨hc, hg⟩ => hc ▸ hg ▸ h⟩

@[simp] theorem ensures_setCore {post : Unit → Sight → Prop} (c : Core) :
    (setCore c).Ensures post g ↔ post () { g with core := c } :=
  ⟨fun h => h () _ rfl, fun h _ _ hg => hg ▸ h⟩

@[simp] theorem ensures_update {post : Unit → Sight → Prop} (f : Core → Core) :
    (update f).Ensures post g ↔ post () { g with core := f g.core } := by
  simp only [update, ensures_bind, ensures_core, ensures_setCore]

@[simp] theorem ensures_dmaStalled {post : Bool → Sight → Prop} :
    dmaStalled.Ensures post g ↔ ∀ stalled, post stalled g :=
  ⟨fun h stalled => h stalled _ rfl, fun h stalled _ hg => hg ▸ h stalled⟩

@[simp] theorem ensures_poll {post : Poll → Sight → Prop} :
    poll.Ensures post g ↔ ∀ poll, post poll g :=
  ⟨fun h poll => h poll _ rfl, fun h poll _ hg => hg ▸ h poll⟩

@[simp] theorem ensures_setPoll {post : Unit → Sight → Prop} (p : Poll) :
    (setPoll p).Ensures post g ↔ post () g :=
  ⟨fun h => h () _ rfl, fun h _ _ hg => hg ▸ h⟩

@[simp] theorem ensures_updatePoll {post : Unit → Sight → Prop} (f : Poll → Poll) :
    (updatePoll f).Ensures post g ↔ post () g := by
  simp only [updatePoll, ensures_bind, ensures_poll, ensures_setPoll]
  exact ⟨fun h => h {}, fun h _ => h⟩

theorem Ensures.mono {code : Code α} {post' : α → Sight → Prop} (h : code.Ensures post g)
    (hpost : ∀ a g, post a g → post' a g) : code.Ensures post' g := Tree.wp_mono h hpost

theorem Ensures.and {code : Code α} {post' : α → Sight → Prop} (h : code.Ensures post g)
    (h' : code.Ensures post' g) : code.Ensures (fun a g' => post a g' ∧ post' a g') g := Tree.wp_and h h'

theorem ensures_trace (code : Code α) (g : Sight) :
    code.Ensures (fun _ g' => ∃ t, g'.trace = g.trace ++ t) g := by
  refine Tree.wp_of_uses ?_ (Tree.uses_any code) ⟨[], (List.append_nil _).symm⟩
  rintro op g₁ x g₂ - ⟨t, ht⟩ hstep
  cases op with
  | read address =>
    subst hstep
    exact ⟨t ++ [.r address x.val], by rw [Sight.saw_trace, ht, List.append_assoc]⟩
  | write address value =>
    subst hstep
    exact ⟨t ++ [.w address value], by rw [Sight.saw_trace, ht, List.append_assoc]⟩
  | core =>
    obtain ⟨-, rfl⟩ := hstep
    exact ⟨t, ht⟩
  | setCore core | dmaStalled | poll | setPoll poll =>
    subst hstep
    exact ⟨t, ht⟩

/-- What an instruction leaves in the poll is not seen. -/
theorem ensures_instruction {chip : Chip} {post : ℕ → Sight → Prop} (h : (execute chip).Ensures post g) :
    (instruction chip).Ensures post g := by
  rw [instruction, ensures_bind]
  refine h.mono ?_
  intro cycles g' hpost
  rw [ensures_bind, ensures_poll]
  intro poll
  cases poll.deferred with
  | none => exact hpost
  | some deferred => simpa only [ensures_bind, ensures_setPoll, ensures_pure] using hpost

end Code

namespace Plain
variable {σ : Type} (H : Host σ)

/-- What is seen of a machine. -/
def sighted (q : Plain σ) : Sight := { core := q.core, trace := q.trace.map HostCall.access }

theorem handle_respects : Tree.Respects (handle H) sighted sight := by
  intro op q
  cases op with
  | read address => exact congrArg (Sight.mk q.core) (by simp [handle, called, sighted, Poll.record])
  | write address value => exact congrArg (Sight.mk q.core) (by simp [handle, called, sighted, Poll.record])
  | core => exact ⟨rfl, rfl⟩
  | setCore core => rfl
  | dmaStalled => rfl
  | poll => rfl
  | setPoll poll => rfl

theorem exec_ensures {α : Type} {code : Code α} {post : α → Sight → Prop} {q : Plain σ}
    (h : code.Ensures post q.sighted) : post (exec H code q).1 (exec H code q).2.sighted :=
  Tree.wp_run (handle_respects H) h

end Plain

end SixFiveOhTwo
