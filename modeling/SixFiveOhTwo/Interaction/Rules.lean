import SixFiveOhTwo.Interaction.Tree

/-! # Reasoning about runs of programs

Rules for `Tree.run`, none of which looks at a particular program:

* `Tree.run_preserves`: a property of states kept by every operation is kept by every run.
* `Tree.run_related`: two environments whose answers agree and whose states stay related run every
  program to the same value and to related states.
* `Tree.Coupled`: a program run against two environments, from related states to related states; the
  relation may change on the way.
* `Tree.Paired`: two programs run against two environments, with what both return and where both end
  related.
* `Tree.wp`: the weakest precondition of a program against an environment of which only a *view*
  is known: which answers it may give and how the view may move. `Tree.wp_run` transfers it to
  every environment that respects the view.
-/

namespace Interaction.Tree
set_option autoImplicit false

variable {Op : Type} {Ans : Op → Type} {α β S T G : Type} {P : Op → Prop}

/-! ## Invariants -/

theorem run_preserves {h : (op : Op) → S → Ans op × S} {I : S → Prop}
    (hI : ∀ op s, P op → I s → I (h op s).2) {t : Tree Ans α} (ht : t.Uses P) {s : S} (hs : I s) :
    I (t.run h s).2 := by
  induction t generalizing s with
  | ret a => exact hs
  | ask op k ih => exact ih (h op s).1 (ht.2 _) (hI op s ht.1 hs)

/-! ## Simulation -/

/-- Two environments are related along `R` on the operations satisfying `P`: from related states
they give one answer and move to related states. -/
def Simulates (P : Op → Prop) (h : (op : Op) → S → Ans op × S) (g : (op : Op) → T → Ans op × T)
    (R : S → T → Prop) : Prop :=
  ∀ op s t, P op → R s t → (h op s).1 = (g op t).1 ∧ R (h op s).2 (g op t).2

/-- Related environments run a program to one value and to related states. -/
theorem run_related {h : (op : Op) → S → Ans op × S} {g : (op : Op) → T → Ans op × T}
    {R : S → T → Prop} (hR : Simulates P h g R) {p : Tree Ans α} (hp : p.Uses P) {s : S} {t : T}
    (hst : R s t) : (p.run h s).1 = (p.run g t).1 ∧ R (p.run h s).2 (p.run g t).2 := by
  induction p generalizing s t with
  | ret a => exact ⟨rfl, hst⟩
  | ask op k ih =>
    obtain ⟨hans, hnext⟩ := hR op s t hp.1 hst
    rw [run_ask, run_ask, ← hans]
    exact ih _ (hp.2 _) hnext

/-- From states related by `R`, two environments run a program to one value and to states related
by `Q`. -/
def Coupled (h : (op : Op) → S → Ans op × S) (g : (op : Op) → T → Ans op × T) (R : S → T → Prop)
    (p : Tree Ans α) (Q : S → T → Prop) : Prop :=
  ∀ s t, R s t → (p.run h s).1 = (p.run g t).1 ∧ Q (p.run h s).2 (p.run g t).2

section
variable {h : (op : Op) → S → Ans op × S} {g : (op : Op) → T → Ans op × T} {R R' Q Q' : S → T → Prop}

theorem Coupled.of_uses {p : Tree Ans α} (hR : Simulates P h g R) (hp : p.Uses P) :
    Coupled h g R p R := fun _ _ hst => run_related hR hp hst

theorem Coupled.ret (a : α) : Coupled h g R (Pure.pure a : Tree Ans α) R := fun _ _ hst => ⟨rfl, hst⟩

theorem Coupled.bind {p : Tree Ans α} {f : α → Tree Ans β} (hp : Coupled h g R p R')
    (hf : ∀ a, Coupled h g R' (f a) Q) : Coupled h g R (p >>= f) Q := by
  intro s t hst
  obtain ⟨hans, hnext⟩ := hp s t hst
  rw [run_bind, run_bind, ← hans]
  exact hf _ _ _ hnext

theorem Coupled.mono {p : Tree Ans α} (hp : Coupled h g R p Q) (hpre : ∀ s t, R' s t → R s t)
    (hpost : ∀ s t, Q s t → Q' s t) : Coupled h g R' p Q' := by
  intro s t hst
  obtain ⟨hans, hend⟩ := hp s t (hpre s t hst)
  exact ⟨hans, hpost _ _ hend⟩

/-- From states related by `R`, two programs return values and reach states related by `Q`. -/
def Paired (h : (op : Op) → S → Ans op × S) (g : (op : Op) → T → Ans op × T) (R : S → T → Prop)
    (p : Tree Ans α) (p' : Tree Ans β) (Q : α → β → S → T → Prop) : Prop :=
  ∀ s t, R s t → Q (p.run h s).1 (p'.run g t).1 (p.run h s).2 (p'.run g t).2

theorem Paired.ret {Q : α → β → S → T → Prop} {a : α} {b : β} (hQ : ∀ s t, R s t → Q a b s t) :
    Paired h g R (Pure.pure a : Tree Ans α) (Pure.pure b : Tree Ans β) Q := fun s t hst => hQ s t hst

theorem Paired.bind {γ δ : Type} {p : Tree Ans α} {p' : Tree Ans β} {f : α → Tree Ans γ} {f' : β → Tree Ans δ}
    {M : α → β → S → T → Prop} {Q : γ → δ → S → T → Prop} (hp : Paired h g R p p' M)
    (hf : ∀ a b, Paired h g (M a b) (f a) (f' b) Q) : Paired h g R (p >>= f) (p' >>= f') Q := by
  intro s t hst
  rw [run_bind, run_bind]
  exact hf _ _ _ _ (hp s t hst)

theorem Paired.of_fact {P : Prop} {p : Tree Ans α} {p' : Tree Ans β} {M : α → β → S → T → Prop}
    (hp : P → Paired h g R p p' M) : Paired h g (fun s t => P ∧ R s t) p p' M := fun s t hst => hp hst.1 s t hst.2

theorem paired_self (p : Tree Ans α) :
    Paired h g R p p (fun a b s t => a = b ∧ Q s t) ↔ Coupled h g R p Q := Iff.rfl

/-- A coupled program goes on in a pair. -/
theorem Coupled.bind_paired {γ δ : Type} {p : Tree Ans α} {f : α → Tree Ans γ} {f' : α → Tree Ans δ}
    {M : γ → δ → S → T → Prop} (hp : Coupled h g R p R') (hf : ∀ a, Paired h g R' (f a) (f' a) M) :
    Paired h g R (p >>= f) (p >>= f') M := by
  intro s t hst
  obtain ⟨hans, hnext⟩ := hp s t hst
  rw [run_bind, run_bind, ← hans]
  exact hf _ _ _ hnext

end

/-! ## Weakest preconditions against a view -/

/-- A view of an environment: which answer it may give to an operation, and how that may move
what the view shows. -/
abbrev View (Ans : Op → Type) (G : Type) : Type := (op : Op) → G → Ans op → G → Prop

/-- Whatever the view allows, the program returns into `post`. -/
def wp (V : View Ans G) (post : α → G → Prop) : Tree Ans α → G → Prop
  | ret a, g => post a g
  | ask op k, g => ∀ x g', V op g x g' → wp V post (k x) g'

variable {V : View Ans G} {post post' : α → G → Prop}

@[simp] theorem wp_ret (a : α) (g : G) : (ret a : Tree Ans α).wp V post g ↔ post a g := Iff.rfl

@[simp] theorem wp_pure (a : α) (g : G) : (pure a : Tree Ans α).wp V post g ↔ post a g := Iff.rfl

@[simp] theorem wp_perform (op : Op) (post : Ans op → G → Prop) (g : G) :
    (perform op : Tree Ans _).wp V post g ↔ ∀ x g', V op g x g' → post x g' := Iff.rfl

@[simp] theorem wp_bind (t : Tree Ans α) (f : α → Tree Ans β) (post : β → G → Prop) (g : G) :
    (t >>= f).wp V post g ↔ t.wp V (fun a => (f a).wp V post) g := by
  induction t generalizing g with
  | ret a => rfl
  | ask op k ih => exact forall_congr' fun x => forall_congr' fun g' => imp_congr_right fun _ => ih x g'

@[simp] theorem wp_map (f : α → β) (t : Tree Ans α) (post : β → G → Prop) (g : G) :
    (f <$> t).wp V post g ↔ t.wp V (fun a => post (f a)) g := by
  rw [map_eq_pure_bind, wp_bind]
  rfl

theorem wp_mono {t : Tree Ans α} {g : G} (ht : t.wp V post g) (hpost : ∀ a g, post a g → post' a g) :
    t.wp V post' g := by
  induction t generalizing g with
  | ret a => exact hpost a g ht
  | ask op k ih => exact fun x g' hV => ih x (ht x g' hV)

theorem wp_and {t : Tree Ans α} {g : G} (ht : t.wp V post g) (ht' : t.wp V post' g) :
    t.wp V (fun a g' => post a g' ∧ post' a g') g := by
  induction t generalizing g with
  | ret a => exact ⟨ht, ht'⟩
  | ask op k ih => exact fun x g' hV => ih x (ht x g' hV) (ht' x g' hV)

theorem wp_of_uses {I : G → Prop} (hI : ∀ op g x g', P op → I g → V op g x g' → I g') {t : Tree Ans α}
    (ht : t.Uses P) {g : G} (hg : I g) : t.wp V (fun _ g' => I g') g := by
  induction t generalizing g with
  | ret a => exact hg
  | ask op k ih => exact fun x g' hV => ih x (ht.2 x) (hI op g x g' ht.1 hg hV)

/-- What holds against a view holds against one that shows more. -/
theorem wp_of_finer {G' : Type} {W : View Ans G'} {see : G' → G}
    (hW : ∀ op g x g', W op g x g' → V op (see g) x (see g')) {t : Tree Ans α} {g : G'} (ht : t.wp V post (see g)) :
    t.wp W (fun a g' => post a (see g')) g := by
  induction t generalizing g with
  | ret a => exact ht
  | ask op k ih => exact fun x g' hstep => ih x (ht x _ (hW op g x g' hstep))

/-- An environment respects a view of its states. -/
def Respects (h : (op : Op) → S → Ans op × S) (view : S → G) (V : View Ans G) : Prop :=
  ∀ op s, V op (view s) (h op s).1 (view (h op s).2)

/-- What holds against the view holds of every run against an environment that respects it. -/
theorem wp_run {h : (op : Op) → S → Ans op × S} {view : S → G} (hV : Respects h view V)
    {t : Tree Ans α} {s : S} (ht : t.wp V post (view s)) :
    post (t.run h s).1 (view (t.run h s).2) := by
  induction t generalizing s with
  | ret a => exact ht
  | ask op k ih => exact ih _ (ht _ _ (hV op s))

end Interaction.Tree
