import Mathlib.Data.Finset.Lattice.Lemmas
import Mathlib.Data.List.Forall2

/-! # JSON values and readers of them

A reader takes a value apart and raises where it is not as expected. `Exactly` says of a reader which
results it returns, and what it raises but a `ValueError`; its rules follow the reader's own text.

* `Same`: two values are equal but for the order of the entries of their objects.
-/

namespace Json
set_option autoImplicit false

/-- A JSON value. Of the entries of an object for one key the last one counts. -/
inductive Value
  | null
  | bool (value : Bool)
  | int (value : ℤ)
  | float (text : String)
  | str (value : String)
  | arr (items : List Value)
  | obj (entries : List (String × Value))

/-- `entries.get(key)`. -/
def get (key : String) : List (String × Value) → Option Value
  | [] => none
  | (k, value) :: rest => (get key rest).or (if k = key then some value else none)

/-- `set(entries)`. -/
def keys (entries : List (String × Value)) : Finset String := (entries.map Prod.fst).toFinset

theorem get_isSome {key : String} {entries : List (String × Value)} :
    (get key entries).isSome ↔ key ∈ keys entries := by
  induction entries with
  | nil => simp [get, keys]
  | cons entry rest ih =>
    obtain ⟨k, value⟩ := entry
    have hkeys : keys ((k, value) :: rest) = insert k (keys rest) := List.toFinset_cons
    rw [get, Option.isSome_or, Bool.or_eq_true, ih, hkeys, Finset.mem_insert, or_comm]
    refine or_congr_left ?_
    split
    case isTrue h => simp [h]
    case isFalse h => simpa using fun hk => h hk.symm

theorem get_eq_none {key : String} {entries : List (String × Value)} :
    get key entries = none ↔ key ∉ keys entries := by
  rw [← get_isSome, Bool.not_eq_true, Option.isSome_eq_false_iff, Option.isNone_iff_eq_none]

theorem exists_get {key : String} {entries : List (String × Value)} (h : key ∈ keys entries) :
    ∃ value, get key entries = some value :=
  Option.isSome_iff_exists.mp (get_isSome.mpr h)

/-! ## Equality of values -/

/-- Equality but for the order of entries. -/
inductive Same : Value → Value → Prop
  | null : Same .null .null
  | bool (value : Bool) : Same (.bool value) (.bool value)
  | int (value : ℤ) : Same (.int value) (.int value)
  | float (text : String) : Same (.float text) (.float text)
  | str (value : String) : Same (.str value) (.str value)
  | arr {items items' : List Value} (h : List.Forall₂ Same items items') : Same (.arr items) (.arr items')
  | obj {entries entries' : List (String × Value)} (hkeys : keys entries = keys entries')
      (h : ∀ key value value', get key entries = some value → get key entries' = some value' → Same value value') :
      Same (.obj entries) (.obj entries')

theorem mem_of_get {key : String} {value : Value} {entries : List (String × Value)} (h : get key entries = some value) :
    (key, value) ∈ entries := by
  induction entries with
  | nil => cases h
  | cons entry rest ih =>
    obtain ⟨k, v⟩ := entry
    rw [get, Option.or_eq_some_iff] at h
    rcases h with h | ⟨_, h⟩
    · exact List.mem_cons_of_mem _ (ih h)
    · split at h
      case isTrue hk =>
        cases h
        rw [hk]
        exact List.mem_cons_self
      case isFalse => cases h

theorem Same.refl : ∀ value : Value, Same value value
  | .null => .null
  | .bool b => .bool b
  | .int n => .int n
  | .float text => .float text
  | .str s => .str s
  | .arr items => .arr (List.forall₂_same.mpr fun item _ => Same.refl item)
  | .obj entries => .obj rfl fun key v v' hv hv' => by
    have hsame : v = v' := Option.some.inj (hv.symm.trans hv')
    have hmem : (key, v) ∈ entries := mem_of_get hv
    exact hsame ▸ Same.refl v
termination_by value => sizeOf value
decreasing_by
  · rename_i hitem
    have hlt := List.sizeOf_lt_of_mem hitem
    simp only [Value.arr.sizeOf_spec]
    omega
  · have hlt := List.sizeOf_lt_of_mem hmem
    simp only [Prod.mk.sizeOf_spec, Value.obj.sizeOf_spec] at hlt ⊢
    omega

/-- Only the value itself is equal to it. -/
def Rigid (value : Value) : Prop := ∀ v, Same v value → v = value

theorem rigid_null : Rigid .null := fun _ h => by cases h; rfl

theorem rigid_bool (b : Bool) : Rigid (.bool b) := fun _ h => by cases h; rfl

theorem rigid_int (n : ℤ) : Rigid (.int n) := fun _ h => by cases h; rfl

theorem rigid_str (s : String) : Rigid (.str s) := fun _ h => by cases h; rfl

theorem rigid_arr {items : List Value} (h : ∀ item ∈ items, Rigid item) : Rigid (.arr items) := by
  intro v hv
  obtain ⟨items', rfl, hitems⟩ : ∃ items', v = .arr items' ∧ List.Forall₂ Same items' items := by
    cases hv with
    | arr hitems => exact ⟨_, rfl, hitems⟩
  clear hv
  congr 1
  induction items generalizing items' with
  | nil => exact List.forall₂_nil_right_iff.mp hitems
  | cons item items ih =>
    obtain ⟨v, rest, hv, hrest, rfl⟩ := List.forall₂_cons_right_iff.mp hitems
    obtain ⟨hitem, htail⟩ := List.forall_mem_cons.mp h
    rw [hitem v hv, ih htail rest hrest]

theorem Same.get_some {value : Value} {entries : List (String × Value)} (h : Same value (.obj entries)) :
    ∃ entries', value = .obj entries' ∧ keys entries' = keys entries ∧
      ∀ key v, get key entries = some v → ∃ v', get key entries' = some v' ∧ Same v' v := by
  cases h with
  | obj hkeys h =>
    refine ⟨_, rfl, hkeys, fun key v hv => ?_⟩
    obtain ⟨v', hv'⟩ := exists_get (hkeys ▸ get_isSome.mp (Option.isSome_of_eq_some hv))
    exact ⟨v', hv', h key v' v hv' hv⟩

/-! ## Readers -/

/-- What a reader may raise. -/
inductive Raised
  | valueError (text : String)
  | typeError (text : String)
  | keyError (key : String)
  | indexError
  | recursionError
  deriving DecidableEq

/-- `entries[key]`. -/
def item (entries : List (String × Value)) (key : String) : Except Raised Value :=
  match get key entries with
  | some value => .ok value
  | none => .error (.keyError key)

/-- `items[index]`. -/
def entry (items : List Value) (index : ℕ) : Except Raised Value :=
  match items[index]? with
  | some value => .ok value
  | none => .error .indexError

/-- Nothing is raised but a `ValueError`, or what is in `Other`. -/
def Raises {α : Type} (Other : Raised → Prop) (x : Except Raised α) : Prop :=
  ∀ raised, x = .error raised → (∃ text, raised = .valueError text) ∨ Other raised

/-- A reader returns exactly the results in `R`, and raises nothing but a `ValueError` or what is in `Other`. -/
structure Exactly {α : Type} (Other : Raised → Prop) (x : Except Raised α) (R : α → Prop) : Prop where
  returns : ∀ a, x = .ok a ↔ R a
  raises : Raises Other x

namespace Exactly
variable {α β : Type} {Other : Raised → Prop} {x y : Except Raised α} {R S : α → Prop}

theorem pure (a : α) : Exactly Other (.ok a) (a = ·) :=
  ⟨fun _ => by rw [Except.ok.injEq], nofun⟩

theorem error {raised : Raised} (hraised : (∃ text, raised = .valueError text) ∨ Other raised) (h : ∀ a, ¬R a) :
    Exactly Other (.error raised) R :=
  ⟨fun a => ⟨nofun, fun ha => (h a ha).elim⟩, fun _ h => by cases h; exact hraised⟩

theorem raise {text : String} (h : ∀ a, ¬R a) : Exactly Other (.error (.valueError text)) R :=
  error (.inl ⟨text, rfl⟩) h

theorem bind {f : α → Except Raised β} {T : α → β → Prop} (hx : Exactly Other x R)
    (hf : ∀ a, R a → Exactly Other (f a) (T a)) : Exactly Other (x >>= f) fun b => ∃ a, R a ∧ T a b := by
  cases x with
  | error raised =>
    refine ⟨fun b => ⟨nofun, fun ⟨a, ha, _⟩ => ?_⟩, fun r h => hx.raises r (by cases h; rfl)⟩
    cases (hx.returns a).mpr ha
  | ok a =>
    have ha := (hx.returns a).mp rfl
    refine ⟨fun b => ?_, (hf a ha).raises⟩
    rw [show (Except.ok a >>= f) = f a from rfl, (hf a ha).returns]
    refine ⟨fun hb => ⟨a, ha, hb⟩, fun ⟨a', ha', hb⟩ => ?_⟩
    cases (hx.returns a').mpr ha'
    exact hb

/-- A text of an error that is shown may fail to be shown. -/
theorem showing {f : β → Except Raised α} {shown : Except Raised β} (hshown : Raises Other shown)
    (hf : ∀ b, Exactly Other (f b) R) (h : ∀ a, ¬R a) : Exactly Other (shown >>= f) R := by
  cases shown with
  | error raised => exact error (hshown raised rfl) h
  | ok b => exact hf b

theorem map {f : α → β} (hx : Exactly Other x R) : Exactly Other (f <$> x) fun b => ∃ a, R a ∧ f a = b :=
  hx.bind fun a _ => pure (f a)

theorem congr (hx : Exactly Other x R) (h : ∀ a, R a ↔ S a) : Exactly Other x S :=
  ⟨fun a => (hx.returns a).trans (h a), hx.raises⟩

theorem dite {p : Prop} [Decidable p] {f : p → Except Raised α} {T : p → α → Prop}
    {text : String}
    (hf : ∀ h, Exactly Other (f h) (T h)) :
    Exactly Other (if h : p then f h else .error (.valueError text)) fun a => ∃ h : p, T h a := by
  split
  case isTrue h => exact (hf h).congr fun a => ⟨fun ht => ⟨h, ht⟩, fun ⟨_, ht⟩ => ht⟩
  case isFalse h => exact raise fun a ⟨hp, _⟩ => h hp

theorem item {entries : List (String × Value)} {key : String} (h : key ∈ keys entries) :
    Exactly Other (Json.item entries key) fun value => get key entries = some value := by
  obtain ⟨value, hvalue⟩ := exists_get h
  rw [Json.item, hvalue]
  exact (pure value).congr fun _ => by rw [Option.some.injEq]

end Exactly

end Json
