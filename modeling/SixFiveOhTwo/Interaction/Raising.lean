/-! # Computations that raise

A computation on a state returns a value or raises an error, and what it did to the state stays in both
cases. It is `Atomic` if what it raises is expected and it then did nothing. Checks, which do nothing to the
state, compose with anything atomic after them; what comes after something that is no check must raise nothing.
-/

namespace Interaction
set_option autoImplicit false

/-- A computation on a state that returns or raises. -/
abbrev Raising (ε S : Type) : Type → Type := ExceptT ε (StateM S)

namespace Raising
variable {ε ε' S α β : Type}

def of (f : S → Except ε α × S) : Raising ε S α := f

/-- What a computation makes of a state. -/
def on (c : Raising ε S α) (s : S) : Except ε α × S := c s

/-- A computation whose errors are converted. -/
def raisedAs (convert : ε → ε') (c : Raising ε S α) : Raising ε' S α :=
  of fun s => ((c.on s).1.mapError convert, (c.on s).2)

variable {s : S}

@[simp] theorem on_of (f : S → Except ε α × S) : (of f).on s = f s := rfl

theorem on_bind (c : Raising ε S α) (f : α → Raising ε S β) :
    (c >>= f).on s = match c.on s with
      | (.ok a, s') => (f a).on s'
      | (.error e, s') => (.error e, s') := by
  change (match c s with | (r, s') => ExceptT.bindCont f r s' : Except ε β × S) = _
  rw [on]
  rcases c s with ⟨r, s'⟩
  cases r <;> rfl

/-! ## What a computation leaves -/

/-- Started at `s`, `c` returns into `returned`, or raises into `raised`. -/
def Leaves (returned : α → S → Prop) (raised : ε → S → Prop) (c : Raising ε S α) (s : S) : Prop :=
  (∃ a s', c.on s = (.ok a, s') ∧ returned a s') ∨ ∃ e s', c.on s = (.error e, s') ∧ raised e s'

/-- Started at `s`, `c` raises nothing, and returns into `post`. -/
def Returns (post : α → S → Prop) (c : Raising ε S α) (s : S) : Prop := c.Leaves post (fun _ _ => False) s

section
variable (expected : ε → Prop)

/-- Started at `s`, `c` returns into `post`, or it raises what is expected and leaves `s`. -/
def Atomic (post : α → S → Prop) (c : Raising ε S α) (s : S) : Prop :=
  c.Leaves post (fun e s' => s' = s ∧ expected e) s

/-- Started at `s`, `c` leaves `s`: it returns into `post`, or it raises what is expected. -/
def Checks (post : α → Prop) (c : Raising ε S α) (s : S) : Prop :=
  c.Atomic expected (fun a s' => s' = s ∧ post a) s

end

variable {returned : α → S → Prop} {raised : ε → S → Prop} {expected : ε → Prop} {c : Raising ε S α}
  {f : α → Raising ε S β}

theorem Leaves.mono {returned' : α → S → Prop} {raised' : ε → S → Prop} (h : c.Leaves returned raised s)
    (hreturned : ∀ a s', returned a s' → returned' a s') (hraised : ∀ e s', raised e s' → raised' e s') :
    c.Leaves returned' raised' s := by
  rcases h with ⟨a, s', hon, ha⟩ | ⟨e, s', hon, he⟩
  · exact .inl ⟨a, s', hon, hreturned a s' ha⟩
  · exact .inr ⟨e, s', hon, hraised e s' he⟩

theorem Leaves.bind {returned' : β → S → Prop} (h : c.Leaves returned raised s)
    (hf : ∀ a s', returned a s' → (f a).Leaves returned' raised s') : (c >>= f).Leaves returned' raised s := by
  rcases h with ⟨a, s', hon, ha⟩ | ⟨e, s', hon, he⟩
  · have hbind : (c >>= f).on s = (f a).on s' := by rw [on_bind, hon]
    simpa only [Leaves, hbind] using hf a s' ha
  · refine .inr ⟨e, s', ?_, he⟩
    rw [on_bind, hon]

section
variable {post : β → S → Prop}

theorem Returns.bind (h : c.Returns returned s) (hf : ∀ a s', returned a s' → (f a).Returns post s') :
    (c >>= f).Returns post s := Leaves.bind h hf

/-- What cannot raise after what is atomic. -/
theorem Atomic.bind (h : c.Atomic expected returned s) (hf : ∀ a s', returned a s' → (f a).Returns post s') :
    (c >>= f).Atomic expected post s :=
  Leaves.bind h fun a s' ha => (hf a s' ha).mono (fun _ _ h => h) fun _ _ h => h.elim

/-- What is atomic after a check. -/
theorem Checks.bind {holds : α → Prop} (h : c.Checks expected holds s)
    (hf : ∀ a, holds a → (f a).Atomic expected post s) : (c >>= f).Atomic expected post s := by
  refine Leaves.bind h fun a s' ⟨hs, ha⟩ => ?_
  subst hs
  exact hf a ha

end

theorem Returns.atomic (h : c.Returns returned s) : c.Atomic expected returned s :=
  h.mono (fun _ _ h => h) fun _ _ h => h.elim

theorem returns_pure {a : α} (h : returned a s) : (pure a : Raising ε S α).Returns returned s :=
  .inl ⟨a, s, rfl, h⟩

theorem returns_of {g : S → Except ε α × S} {a : α} (hok : (g s).1 = .ok a) (h : returned a (g s).2) :
    (of g).Returns returned s := .inl ⟨a, (g s).2, Prod.ext hok rfl, h⟩

theorem returns_modify {post : PUnit → S → Prop} {f : S → S} (h : post ⟨⟩ (f s)) :
    (modify f : Raising ε S PUnit).Returns post s := .inl ⟨⟨⟩, f s, rfl, h⟩

theorem atomic_pure {a : α} (h : returned a s) : (pure a : Raising ε S α).Atomic expected returned s :=
  (returns_pure h).atomic

theorem atomic_throw {e : ε} (h : expected e) : (throw e : Raising ε S α).Atomic expected returned s :=
  .inr ⟨e, s, rfl, rfl, h⟩

theorem checks_pure {holds : α → Prop} {a : α} (h : holds a) : (pure a : Raising ε S α).Checks expected holds s :=
  atomic_pure ⟨rfl, h⟩

theorem returns_get : (get : Raising ε S S).Returns (fun a s' => s' = s ∧ a = s) s := .inl ⟨s, s, rfl, rfl, rfl⟩

theorem checks_get : (get : Raising ε S S).Checks expected (· = s) s := returns_get.atomic

theorem Checks.map {holds : α → Prop} {holds' : β → Prop} {g : α → β} (h : c.Checks expected holds s)
    (hg : ∀ a, holds a → holds' (g a)) : (g <$> c).Checks expected holds' s := by
  rw [map_eq_pure_bind]
  exact Checks.bind h fun a ha => checks_pure (hg a ha)

theorem Atomic.raisedAs {expected' : ε' → Prop} {convert : ε → ε'} (h : c.Atomic expected returned s)
    (hconvert : ∀ e, expected e → expected' (convert e)) : (c.raisedAs convert).Atomic expected' returned s := by
  rcases h with ⟨a, s', hon, ha⟩ | ⟨e, s', hon, hs, he⟩
  · refine .inl ⟨a, s', ?_, ha⟩
    rw [Raising.raisedAs, on_of, hon]
    rfl
  · refine .inr ⟨convert e, s', ?_, hs, hconvert e he⟩
    rw [Raising.raisedAs, on_of, hon]
    rfl

theorem returns_mapM {good : S → Prop} {g : α → Raising ε S β}
    (hg : ∀ a s, good s → (g a).Returns (fun _ s' => good s') s) (as : List α) {s : S} (hs : good s) :
    (as.mapM g).Returns (fun _ s' => good s') s := by
  induction as generalizing s with
  | nil =>
    rw [List.mapM_nil]
    exact returns_pure hs
  | cons a as ih =>
    rw [List.mapM_cons]
    exact (hg a s hs).bind fun _ _ hs₁ => (ih hs₁).bind fun _ _ hs₂ => returns_pure hs₂

/-! ## What a computation moves -/

/-- Wherever `c` starts, `R` relates that to where it ends, whether it returns or raises. -/
def Moves (R : S → S → Prop) (c : Raising ε S α) : Prop := ∀ s, R s (c.on s).2

/-- Whatever `c` returns is in `holds`. -/
def Yields (holds : α → Prop) (c : Raising ε S α) : Prop := ∀ s a s', c.on s = (.ok a, s') → holds a

variable {R : S → S → Prop} {holds : α → Prop}

theorem Checks.yields (h : ∀ s, c.Checks expected holds s) : c.Yields holds := by
  intro s a s' hon
  rcases h s with ⟨a', s₁, hon', -, ha⟩ | ⟨e, s₁, hon', -, -⟩
  · rw [hon] at hon'
    cases hon'
    exact ha
  · rw [hon] at hon'
    cases hon'

theorem moves_modify {f : S → S} (h : ∀ s, R s (f s)) : (modify f : Raising ε S PUnit).Moves R := h

theorem moves_of {g : S → Except ε α × S} (h : ∀ s, R s (g s).2) : (of g).Moves R := h

theorem Moves.raisedAs {convert : ε → ε'} (h : c.Moves R) : (c.raisedAs convert).Moves R := h

section
variable [Std.Refl R]

theorem moves_pure (a : α) : (pure a : Raising ε S α).Moves R := fun s => Std.Refl.refl s

theorem moves_throw (e : ε) : (throw e : Raising ε S α).Moves R := fun s => Std.Refl.refl s

theorem moves_get : (get : Raising ε S S).Moves R := fun s => Std.Refl.refl s

/-- A check moves nothing. -/
theorem Checks.moves (h : ∀ s, c.Checks expected holds s) : c.Moves R := by
  intro s
  rcases h s with ⟨a, s', hon, rfl, -⟩ | ⟨e, s', hon, rfl, -⟩
  all_goals
    rw [hon]
    exact Std.Refl.refl _

end

section
variable [Trans R R R]

theorem Moves.bind_of (h : c.Moves R) (hyields : c.Yields holds) (hf : ∀ a, holds a → (f a).Moves R) :
    (c >>= f).Moves R := by
  intro s
  have hs : R s (c.on s).2 := h s
  rw [on_bind]
  rcases hon : c.on s with ⟨a | a, s'⟩
  · rw [hon] at hs
    exact hs
  · rw [hon] at hs
    exact Trans.trans hs (hf _ (hyields s _ s' hon) s')

theorem Moves.bind (h : c.Moves R) (hf : ∀ a, (f a).Moves R) : (c >>= f).Moves R :=
  have hany : c.Yields fun _ => True := fun _ _ _ _ => trivial
  h.bind_of hany fun a _ => hf a

variable [Std.Refl R]

theorem Moves.map {g : α → β} (h : c.Moves R) : (g <$> c).Moves R := by
  rw [map_eq_pure_bind]
  exact h.bind fun a => moves_pure (g a)

theorem moves_mapM {g : α → Raising ε S β} (hg : ∀ a, (g a).Moves R) (as : List α) : (as.mapM g).Moves R := by
  induction as with
  | nil =>
    rw [List.mapM_nil]
    exact moves_pure []
  | cons a as ih =>
    rw [List.mapM_cons]
    exact (hg a).bind fun b => ih.bind fun bs => moves_pure (b :: bs)

end

end Raising

end Interaction
