import SixFiveOhTwo.Interaction.Rules

/-! # Environments that may fail

An environment may refuse to answer an operation: there the program ends, and what it did before stays.

* `Tree.attempt`: the run of a program against such an environment.
* `Tree.Throughout`: what holds of the view at every operation the program comes to ask. With the weakest
  preconditions it says where a failed run may have stopped.
-/

namespace Interaction.Tree
set_option autoImplicit false

variable {Op : Type} {Ans : Op → Type} {α β S G : Type}

/-- The run of a program against an environment that may refuse to answer. -/
def attempt (h : (op : Op) → S → Option (Ans op) × S) : Tree Ans α → S → Option α × S
  | ret a, s => (some a, s)
  | ask op k, s =>
    match h op s with
    | (some x, s') => attempt h (k x) s'
    | (none, s') => (none, s')

section
variable (h : (op : Op) → S → Option (Ans op) × S)

@[simp] theorem attempt_pure (a : α) (s : S) : (pure a : Tree Ans α).attempt h s = (some a, s) := rfl

theorem attempt_ask (op : Op) (k : Ans op → Tree Ans α) (s : S) :
    (ask op k).attempt h s = match h op s with
      | (some x, s') => (k x).attempt h s'
      | (none, s') => (none, s') := by
  rw [attempt]

theorem attempt_bind (t : Tree Ans α) (f : α → Tree Ans β) (s : S) :
    (t >>= f).attempt h s = match t.attempt h s with
      | (some a, s') => (f a).attempt h s'
      | (none, s') => (none, s') := by
  induction t generalizing s with
  | ret a => rfl
  | ask op k ih =>
    rw [ask_bind, attempt_ask, attempt_ask]
    cases hop : h op s with
    | mk answer s' =>
      cases answer with
      | none => rfl
      | some x => exact ih x s'

theorem attempt_bind_some {t : Tree Ans α} {f : α → Tree Ans β} {s s' : S} {a : α}
    (ht : t.attempt h s = (some a, s')) : (t >>= f).attempt h s = (f a).attempt h s' := by
  rw [attempt_bind, ht]

theorem attempt_map (g : α → β) (t : Tree Ans α) (s : S) :
    (g <$> t).attempt h s = ((t.attempt h s).1.map g, (t.attempt h s).2) := by
  rw [map_eq_pure_bind, attempt_bind]
  cases t.attempt h s with
  | mk answer s' => cases answer <;> rfl

/-- An environment that answers a program's operations, as another does to which it is related, runs it as
that one. -/
theorem attempt_related {T : Type} {P : Op → Prop} {run : (op : Op) → T → Ans op × T} {R : S → T → Prop}
    (hR : ∀ op s t, P op → R s t → ∃ s', h op s = (some (run op t).1, s') ∧ R s' (run op t).2) {p : Tree Ans α}
    (hp : p.Uses P) {s : S} {t : T} (hst : R s t) :
    ∃ s', p.attempt h s = (some (p.run run t).1, s') ∧ R s' (p.run run t).2 := by
  induction p generalizing s t with
  | ret a => exact ⟨s, rfl, hst⟩
  | ask op k ih =>
    obtain ⟨s₁, hanswer, hnext⟩ := hR op s t hp.1 hst
    obtain ⟨s₂, hrun, hend⟩ := ih _ (hp.2 _) hnext
    refine ⟨s₂, ?_, hend⟩
    rw [attempt_ask, hanswer]
    exact hrun

end

/-! ## What an operation is asked on -/

/-- At every operation the program comes to ask, `F` holds of it and of what the view shows. -/
def Throughout (V : View Ans G) (F : Op → G → Prop) : Tree Ans α → G → Prop
  | ret _, _ => True
  | ask op k, g => F op g ∧ ∀ x g', V op g x g' → Throughout V F (k x) g'

variable {V : View Ans G} {F F' : Op → G → Prop} {post : α → G → Prop}

@[simp] theorem throughout_pure (a : α) (g : G) : (pure a : Tree Ans α).Throughout V F g := trivial

@[simp] theorem throughout_perform (op : Op) (g : G) : (perform op : Tree Ans _).Throughout V F g ↔ F op g :=
  ⟨And.left, fun h => ⟨h, fun _ _ _ => trivial⟩⟩

theorem throughout_bind (t : Tree Ans α) (f : α → Tree Ans β) (g : G) :
    (t >>= f).Throughout V F g ↔ t.Throughout V F g ∧ t.wp V (fun a => (f a).Throughout V F) g := by
  induction t generalizing g with
  | ret a => exact (iff_of_eq (true_and _)).symm
  | ask op k ih =>
    constructor
    · rintro ⟨hop, hk⟩
      exact ⟨⟨hop, fun x g' hV => ((ih x g').mp (hk x g' hV)).1⟩, fun x g' hV => ((ih x g').mp (hk x g' hV)).2⟩
    · rintro ⟨⟨hop, hk⟩, hf⟩
      exact ⟨hop, fun x g' hV => (ih x g').mpr ⟨hk x g' hV, hf x g' hV⟩⟩

theorem Throughout.mono {t : Tree Ans α} {g : G} (ht : t.Throughout V F g) (hF : ∀ op g, F op g → F' op g) :
    t.Throughout V F' g := by
  induction t generalizing g with
  | ret a => trivial
  | ask op k ih => exact ⟨hF op g ht.1, fun x g' hV => ih x (ht.2 x g' hV)⟩

/-- An environment respects a view with its answers, and leaves it alone where it refuses one. -/
def AnswersWithin (h : (op : Op) → S → Option (Ans op) × S) (view : S → G) (V : View Ans G) : Prop :=
  ∀ op s, (∀ x s', h op s = (some x, s') → V op (view s) x (view s')) ∧ ∀ s', h op s = (none, s') → view s' = view s

section
variable {h : (op : Op) → S → Option (Ans op) × S} {view : S → G}

theorem wp_attempt (hV : AnswersWithin h view V) {t : Tree Ans α} {s s' : S} {a : α} (ht : t.wp V post (view s))
    (hrun : t.attempt h s = (some a, s')) : post a (view s') := by
  induction t generalizing s with
  | ret b =>
    cases hrun
    exact ht
  | ask op k ih =>
    rw [attempt_ask] at hrun
    cases hop : h op s with
    | mk answer s₁ =>
      rw [hop] at hrun
      cases answer with
      | none => cases hrun
      | some x => exact ih x (ht x _ ((hV op s).1 x s₁ hop)) hrun

/-- A run that fails ends at an operation it asked, on what held there. -/
theorem throughout_attempt (hV : AnswersWithin h view V) {t : Tree Ans α} {s s' : S} (ht : t.Throughout V F (view s))
    (hrun : t.attempt h s = (none, s')) : ∃ op s₀, h op s₀ = (none, s') ∧ F op (view s') := by
  induction t generalizing s with
  | ret b => cases hrun
  | ask op k ih =>
    rw [attempt_ask] at hrun
    cases hop : h op s with
    | mk answer s₁ =>
      rw [hop] at hrun
      cases answer with
      | none =>
        cases hrun
        exact ⟨op, s, hop, (hV op s).2 _ hop ▸ ht.1⟩
      | some x => exact ih x (ht.2 x _ ((hV op s).1 x s₁ hop)) hrun

end

end Interaction.Tree
