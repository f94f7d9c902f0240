import Mathlib.Init

/-! # Programs as trees of operations

A program over an effect signature is a tree: it has returned, or it asks its environment for one
operation and goes on with the answer. What an operation does is decided by whoever runs the
tree, so one program can be run against several environments and the runs compared.

* `Tree Ans α`: programs whose operation `op` is answered by an `Ans op`, returning an `α`.
* `Tree.run h`: the run of a program against `h`, which answers an operation and moves a state.
* `Tree.Uses P`: every operation the program can come to ask satisfies `P`; `Tree.UsesThen P post`
  says also what it returns.
-/

namespace Interaction
set_option autoImplicit false

/-- A program: a value, or an operation and what to do with each of its answers. -/
inductive Tree {Op : Type} (Ans : Op → Type) (α : Type) : Type
  | ret (a : α)
  | ask (op : Op) (k : Ans op → Tree Ans α)

namespace Tree
variable {Op : Type} {Ans : Op → Type} {α β γ S : Type}

/-- Sequencing: every leaf goes on with `f`. -/
def bind : Tree Ans α → (α → Tree Ans β) → Tree Ans β
  | ret a, f => f a
  | ask op k, f => ask op fun x => bind (k x) f

/-- The program that asks one operation and returns the answer. -/
def perform (op : Op) : Tree Ans (Ans op) := ask op ret

instance : Monad (Tree Ans) where
  pure := ret
  bind := bind

theorem ask_bind (op : Op) (k : Ans op → Tree Ans α) (f : α → Tree Ans β) :
    ask op k >>= f = ask op fun x => k x >>= f := rfl

private theorem bind_ret (t : Tree Ans α) : bind t ret = t := by
  induction t with
  | ret a => rfl
  | ask op k ih => exact congrArg (ask op) (funext ih)

private theorem bind_assoc (t : Tree Ans α) (f : α → Tree Ans β) (g : β → Tree Ans γ) :
    bind (bind t f) g = bind t fun a => bind (f a) g := by
  induction t with
  | ret a => rfl
  | ask op k ih => exact congrArg (ask op) (funext ih)

instance : LawfulMonad (Tree Ans) :=
  LawfulMonad.mk' _ (fun t => bind_ret t) (fun _ _ => rfl) fun t f g => bind_assoc t f g

/-! ## Running -/

/-- The run of a program: `h` answers each operation and moves the state. -/
def run (h : (op : Op) → S → Ans op × S) : Tree Ans α → S → α × S
  | ret a, s => (a, s)
  | ask op k, s => run h (k (h op s).1) (h op s).2

variable (h : (op : Op) → S → Ans op × S)

@[simp] theorem run_ret (a : α) (s : S) : (ret a : Tree Ans α).run h s = (a, s) := rfl

@[simp] theorem run_pure (a : α) (s : S) : (pure a : Tree Ans α).run h s = (a, s) := rfl

@[simp] theorem run_perform (op : Op) (s : S) : (perform op : Tree Ans _).run h s = h op s := rfl

theorem run_ask (op : Op) (k : Ans op → Tree Ans α) (s : S) :
    (ask op k).run h s = (k (h op s).1).run h (h op s).2 := rfl

@[simp] theorem run_bind (t : Tree Ans α) (f : α → Tree Ans β) (s : S) :
    (t >>= f).run h s = (f (t.run h s).1).run h (t.run h s).2 := by
  induction t generalizing s with
  | ret a => rfl
  | ask op k ih => exact ih (h op s).1 (h op s).2

@[simp] theorem run_map (g : α → β) (t : Tree Ans α) (s : S) :
    (g <$> t).run h s = (g (t.run h s).1, (t.run h s).2) := by
  rw [map_eq_pure_bind, run_bind, run_pure]

/-! ## The operations a program can ask -/

/-- Whatever it is answered, the program asks only operations satisfying `P`, and returns a value
satisfying `post`. -/
def UsesThen (P : Op → Prop) (post : α → Prop) : Tree Ans α → Prop
  | ret a => post a
  | ask op k => P op ∧ ∀ x, UsesThen P post (k x)

/-- Every operation the program can come to ask satisfies `P`. -/
abbrev Uses (P : Op → Prop) (t : Tree Ans α) : Prop := t.UsesThen P fun _ => True

variable {P Q : Op → Prop} {post : α → Prop}

@[simp] theorem usesThen_pure (a : α) : (pure a : Tree Ans α).UsesThen P post ↔ post a := Iff.rfl

@[simp] theorem usesThen_bind {post : β → Prop} (t : Tree Ans α) (f : α → Tree Ans β) :
    (t >>= f).UsesThen P post ↔ t.UsesThen P fun a => (f a).UsesThen P post := by
  induction t with
  | ret a => rfl
  | ask op k ih => exact and_congr_right fun _ => forall_congr' ih

@[simp] theorem usesThen_map {post : β → Prop} (g : α → β) (t : Tree Ans α) :
    (g <$> t).UsesThen P post ↔ t.UsesThen P fun a => post (g a) := by
  rw [map_eq_pure_bind, usesThen_bind]
  rfl

@[simp] theorem usesThen_ite (p : Prop) [Decidable p] (yes no : Tree Ans α) :
    (if p then yes else no).UsesThen P post ↔
      if p then yes.UsesThen P post else no.UsesThen P post := by
  split <;> rfl

theorem uses_any (t : Tree Ans α) : t.Uses fun _ => True := by
  induction t with
  | ret a => trivial
  | ask op k ih => exact ⟨trivial, ih⟩

/-- What a program goes on with matters on the values it returns only. -/
theorem UsesThen.bind_congr {t : Tree Ans α} (ht : t.UsesThen P post) {f g : α → Tree Ans β}
    (hfg : ∀ a, post a → f a = g a) : t >>= f = t >>= g := by
  induction t with
  | ret a => exact hfg a ht
  | ask op k ih =>
    rw [ask_bind, ask_bind]
    exact congrArg (ask op) (funext fun x => ih x (ht.2 x))

theorem UsesThen.mono {post' : α → Prop} {t : Tree Ans α} (ht : t.UsesThen P post)
    (hPQ : ∀ op, P op → Q op) (hpost : ∀ a, post a → post' a) : t.UsesThen Q post' := by
  induction t with
  | ret a => exact hpost a ht
  | ask op k ih => exact ⟨hPQ op ht.1, fun x => ih x (ht.2 x)⟩

end Tree

end Interaction
