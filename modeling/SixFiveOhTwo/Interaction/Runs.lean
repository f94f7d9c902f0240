import Mathlib.Init

/-! # Runs of a deterministic system

A system moves by actions, each of which shows something. `final` is where a sequence of actions
leads, `shown` what it shows on the way. The rules are the inductions over a run: an invariant, a
relation between two systems, and an invariant that ties the state to a summary of what was shown.
-/

namespace Interaction
set_option autoImplicit false

/-- A deterministic system: each action moves the state and shows something. -/
abbrev System (A S O : Type) : Type := A → S → O × S

namespace System
variable {A B S T O G : Type}

def final (act : System A S O) : S → List A → S
  | s, [] => s
  | s, a :: as => final act (act a s).2 as

def shown (act : System A S O) : S → List A → List O
  | _, [] => []
  | s, a :: as => (act a s).1 :: shown act (act a s).2 as

variable {act : System A S O}

@[simp] theorem final_nil (s : S) : act.final s [] = s := rfl

@[simp] theorem final_cons (s : S) (a : A) (as : List A) :
    act.final s (a :: as) = act.final (act a s).2 as := rfl

@[simp] theorem shown_nil (s : S) : act.shown s [] = [] := rfl

@[simp] theorem shown_cons (s : S) (a : A) (as : List A) :
    act.shown s (a :: as) = (act a s).1 :: act.shown (act a s).2 as := rfl

theorem final_append (s : S) (as bs : List A) :
    act.final s (as ++ bs) = act.final (act.final s as) bs := by
  induction as generalizing s with
  | nil => rfl
  | cons a as ih => exact ih (act a s).2

theorem shown_append (s : S) (as bs : List A) :
    act.shown s (as ++ bs) = act.shown s as ++ act.shown (act.final s as) bs := by
  induction as generalizing s with
  | nil => rfl
  | cons a as ih => exact congrArg _ (ih (act a s).2)

theorem final_preserves {I : S → Prop} (hI : ∀ a s, I s → I (act a s).2) {s : S} (hs : I s)
    (as : List A) : I (act.final s as) := by
  induction as generalizing s with
  | nil => exact hs
  | cons a as ih => exact ih (hI a s hs)

/-- What every action keeps that shows nothing but `E`, a run keeps that shows nothing but `E`. -/
theorem final_preserves_of_shown {I : S → Prop} {E : O → Prop}
    (hI : ∀ a s, I s → E (act a s).1 → I (act a s).2) {s : S} (hs : I s) {as : List A}
    (hE : ∀ o ∈ act.shown s as, E o) : I (act.final s as) := by
  induction as generalizing s with
  | nil => exact hs
  | cons a as ih =>
    rw [shown_cons, List.forall_mem_cons] at hE
    exact ih (hI a s hs hE.1) hE.2

/-- What every action keeps that shows nothing but `E`, and shows while it is kept, a run shows throughout
that shows nothing but `E`. -/
theorem shown_forall_of_shown {I : S → Prop} {E Q : O → Prop} (hI : ∀ a s, I s → E (act a s).1 → I (act a s).2)
    (hQ : ∀ a s, I s → Q (act a s).1) {s : S} (hs : I s) {as : List A} (hE : ∀ o ∈ act.shown s as, E o) :
    ∀ o ∈ act.shown s as, Q o := by
  induction as generalizing s with
  | nil => intro o ho; cases ho
  | cons a as ih =>
    rw [shown_cons, List.forall_mem_cons] at hE ⊢
    exact ⟨hQ a s hs, ih (hI a s hs hE.1) hE.2⟩

theorem shown_forall {I : S → Prop} {Q : O → Prop} (hI : ∀ a s, I s → I (act a s).2)
    (hQ : ∀ a s, I s → Q (act a s).1) {s : S} (hs : I s) (as : List A) :
    ∀ o ∈ act.shown s as, Q o :=
  shown_forall_of_shown (E := fun _ => True) (fun a s h _ => hI a s h) hQ hs fun _ _ => trivial

/-- Two systems that act the same wherever the first shows nothing but `E` have one run where it does. -/
theorem run_congr {act' : System A S O} {E : O → Prop} (h : ∀ a s, E (act a s).1 → act a s = act' a s) {s : S}
    {as : List A} (hE : ∀ o ∈ act.shown s as, E o) :
    act.shown s as = act'.shown s as ∧ act.final s as = act'.final s as := by
  induction as generalizing s with
  | nil => exact ⟨rfl, rfl⟩
  | cons a as ih =>
    rw [shown_cons, List.forall_mem_cons] at hE
    obtain ⟨hshown, hfinal⟩ := ih hE.2
    rw [shown_cons, shown_cons, final_cons, final_cons, hshown, hfinal, h a s hE.1]
    exact ⟨rfl, rfl⟩

/-- Two systems that keep a relation under the same actions, and whose shows look the same, look the same
throughout. -/
theorem shown_related {V : Type} {act' : System A T O} {view : O → V} {R : S → T → Prop}
    (hR : ∀ a s t, R s t → view (act a s).1 = view (act' a t).1 ∧ R (act a s).2 (act' a t).2) {s : S} {t : T}
    (hst : R s t) (as : List A) :
    (act.shown s as).map view = (act'.shown t as).map view ∧ R (act.final s as) (act'.final t as) := by
  induction as generalizing s t with
  | nil => exact ⟨rfl, hst⟩
  | cons a as ih =>
    obtain ⟨ho, hnext⟩ := hR a s t hst
    obtain ⟨hos, hend⟩ := ih hnext
    refine ⟨?_, hend⟩
    rw [shown_cons, shown_cons, List.map_cons, List.map_cons, ho, hos]

/-- An invariant that ties the state to a summary, kept by folding what each action shows. -/
theorem final_summary {J : S → G → Prop} {summary : G → O → G}
    (hJ : ∀ a s g, J s g → J (act a s).2 (summary g (act a s).1)) {s : S} {g : G} (hs : J s g)
    (as : List A) : J (act.final s as) ((act.shown s as).foldl summary g) := by
  induction as generalizing s g with
  | nil => exact hs
  | cons a as ih => exact ih (hJ a s g hs)

end System

end Interaction
