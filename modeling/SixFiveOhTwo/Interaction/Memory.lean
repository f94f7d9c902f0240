import Mathlib.Data.Set.Function
import SixFiveOhTwo.Interaction.Rules

/-! # Logs of a memory

A log lists loads and stores, each with its value. Over any addresses and values:

* `Log.applied`: what a memory has become after a log.
* `Log.Explains`: every load is of what the memory holds when it is made.
* `Log.Within known`: every load is of an address that is `known`, or that was stored to before.
* `Tree.run_within`: environments that answer loads of known addresses alike run every program alike, as long
  as what the program touches is within the known addresses.
-/

namespace Interaction
set_option autoImplicit false

/-- A load or a store, with its value. -/
inductive Touch (A V : Type)
  | load (a : A) (v : V)
  | store (a : A) (v : V)

namespace Log
variable {A V : Type} {known : Set A} {memory memory' : A → V} {log log' : List (Touch A V)}

/-- The addresses stored to. -/
def stored (log : List (Touch A V)) : Set A := {a | ∃ v, .store a v ∈ log}

/-- Every load is of a known address, or of one stored to before. -/
def Within : Set A → List (Touch A V) → Prop
  | _, [] => True
  | known, .load a _ :: log => a ∈ known ∧ Within known log
  | known, .store a _ :: log => Within (insert a known) log

instance decidableWithin [DecidableEq A] (known : Set A) [DecidablePred (· ∈ known)] :
    (log : List (Touch A V)) → Decidable (Within known log)
  | [] => .isTrue trivial
  | .load a _ :: log =>
    have : Decidable (Within known log) := decidableWithin known log
    inferInstanceAs (Decidable (a ∈ known ∧ Within known log))
  | .store a _ :: log =>
    have : DecidablePred (· ∈ insert a known) := fun b => decidable_of_iff (b = a ∨ b ∈ known) Set.mem_insert_iff.symm
    decidableWithin (insert a known) log

@[simp] theorem stored_nil : stored ([] : List (Touch A V)) = ∅ := by
  ext a
  simp [stored]

@[simp] theorem stored_load (a : A) (v : V) (log : List (Touch A V)) : stored (.load a v :: log) = stored log := by
  ext b
  simp [stored]

@[simp] theorem stored_store (a : A) (v : V) (log : List (Touch A V)) :
    stored (.store a v :: log) = insert a (stored log) := by
  ext b
  simp only [stored, List.mem_cons, Touch.store.injEq, Set.mem_ofPred_eq, Set.mem_insert_iff]
  constructor
  · rintro ⟨w, ⟨rfl, -⟩ | hw⟩
    · exact .inl rfl
    · exact .inr ⟨w, hw⟩
  · rintro (rfl | ⟨w, hw⟩)
    · exact ⟨v, .inl ⟨rfl, rfl⟩⟩
    · exact ⟨w, .inr hw⟩

theorem stored_append (log log' : List (Touch A V)) : stored (log ++ log') = stored log ∪ stored log' := by
  ext a
  simp [stored, exists_or]

theorem within_append : Within known (log ++ log') ↔ Within known log ∧ Within (known ∪ stored log) log' := by
  induction log generalizing known with
  | nil => simp [Within]
  | cons touch log ih =>
    cases touch with
    | load a v =>
      rw [List.cons_append, Within, Within, ih, stored_load, and_assoc]
    | store a v =>
      rw [List.cons_append, Within, Within, ih, stored_store, Set.insert_union, Set.union_insert]

section
variable [DecidableEq A]

/-- A memory after a log. -/
def applied : (A → V) → List (Touch A V) → A → V
  | memory, [] => memory
  | memory, .load _ _ :: log => applied memory log
  | memory, .store a v :: log => applied (Function.update memory a v) log

/-- Every load is of what the memory holds then. -/
def Explains : (A → V) → List (Touch A V) → Prop
  | _, [] => True
  | memory, .load a v :: log => memory a = v ∧ Explains memory log
  | memory, .store a v :: log => Explains (Function.update memory a v) log

theorem applied_append : applied memory (log ++ log') = applied (applied memory log) log' := by
  induction log generalizing memory with
  | nil => rfl
  | cons touch log ih => cases touch <;> exact ih

theorem explains_append : Explains memory (log ++ log') ↔ Explains memory log ∧ Explains (applied memory log) log' := by
  induction log generalizing memory with
  | nil => simp [Explains, applied]
  | cons touch log ih =>
    cases touch with
    | load a v => rw [List.cons_append, Explains, Explains, ih, applied, and_assoc]
    | store a v => exact ih

theorem applied_of_not_stored {a : A} (h : a ∉ stored log) : applied memory log a = memory a := by
  induction log generalizing memory with
  | nil => rfl
  | cons touch log ih =>
    cases touch with
    | load b v => exact ih (by simpa using h)
    | store b v =>
      rw [stored_store, Set.mem_insert_iff, not_or] at h
      rw [applied, ih h.2, Function.update_of_ne h.1]

/-- What a log changes, it stores to, and leaves as it last stored it. -/
theorem exists_store_of_applied_ne {a : A} (h : applied memory log a ≠ memory a) :
    .store a (applied memory log a) ∈ log := by
  induction log generalizing memory with
  | nil => exact absurd rfl h
  | cons touch log ih =>
    cases touch with
    | load b v => exact List.mem_cons_of_mem _ (ih h)
    | store b v =>
      rw [applied] at h ⊢
      by_cases hrest : applied (Function.update memory b v) log a = Function.update memory b v a
      · by_cases hb : a = b
        · subst hb
          rw [hrest, Function.update_self]
          exact List.mem_cons_self
        · rw [hrest, Function.update_of_ne hb] at h
          exact absurd rfl h
      · exact List.mem_cons_of_mem _ (ih hrest)

/-- Memories that agree on the known addresses agree on those and on what was stored to. -/
theorem applied_eqOn (h : Set.EqOn memory memory' known) (log : List (Touch A V)) :
    Set.EqOn (applied memory log) (applied memory' log) (known ∪ stored log) := by
  induction log generalizing memory memory' known with
  | nil =>
    rw [stored_nil, Set.union_empty]
    exact h
  | cons touch log ih =>
    cases touch with
    | load a v =>
      rw [stored_load]
      exact ih h
    | store a v =>
      have hupdate : Set.EqOn (Function.update memory a v) (Function.update memory' a v) (insert a known) := by
        intro b hb
        by_cases hba : b = a
        · rw [hba, Function.update_self, Function.update_self]
        · rw [Function.update_of_ne hba, Function.update_of_ne hba]
          exact h (hb.resolve_left hba)
      have hrest := ih hupdate
      rw [stored_store, Set.union_insert, ← Set.insert_union]
      exact hrest

/-- A log explains a memory just when each load returns what the stores before it have left. -/
theorem explains_iff : Explains memory log ↔
    ∀ i a v, log[i]? = some (.load a v) → v = applied memory (log.take i) a := by
  induction log generalizing memory with
  | nil => simp [Explains]
  | cons touch log ih =>
    have hsucc : (∀ i a v, (touch :: log)[i]? = some (.load a v) → v = applied memory ((touch :: log).take i) a) ↔
        (∀ a v, touch = .load a v → v = memory a) ∧
          ∀ i a v, log[i]? = some (.load a v) → v = applied memory (touch :: log.take i) a := by
      constructor
      · exact fun h => ⟨fun a v htouch => h 0 a v (by rw [htouch]; rfl), fun i a v hi => h (i + 1) a v hi⟩
      · rintro ⟨hzero, hrest⟩ i a v hi
        cases i with
        | zero => exact hzero a v (Option.some.inj hi)
        | succ i => exact hrest i a v hi
    rw [hsucc]
    cases touch with
    | load a v =>
      rw [Explains, ih]
      refine and_congr_left fun _ => ⟨?_, fun h => (h a v rfl).symm⟩
      rintro rfl b w heq
      obtain ⟨rfl, rfl⟩ := Touch.load.inj heq
      rfl
    | store a v =>
      rw [Explains, ih]
      constructor
      · exact fun h => ⟨by simp, h⟩
      · exact And.right

end

end Log

namespace Tree
variable {Op A V S T α : Type} {Ans : Op → Type} {h : (op : Op) → S → Ans op × S} {g : (op : Op) → T → Ans op × T}
  {log : S → List (Touch A V)} {R : Set A → S → T → Prop}

theorem run_logs (hlog : ∀ op s, ∃ touches, log (h op s).2 = log s ++ touches) (p : Tree Ans α) (s : S) :
    ∃ touches, log (p.run h s).2 = log s ++ touches := by
  induction p generalizing s with
  | ret a => exact ⟨[], (List.append_nil _).symm⟩
  | ask op k ih =>
    obtain ⟨first, hfirst⟩ := hlog op s
    obtain ⟨rest, hrest⟩ := ih (h op s).1 (h op s).2
    exact ⟨first ++ rest, by rw [run_ask, hrest, hfirst, List.append_assoc]⟩

/-- Environments that answer alike what is within the known addresses run a program alike that keeps within
them, and know then what was stored to as well. -/
theorem run_within (hlog : ∀ op s, ∃ touches, log (h op s).2 = log s ++ touches)
    (hR : ∀ op s t known touches, R known s t → log (h op s).2 = log s ++ touches → Log.Within known touches →
      (h op s).1 = (g op t).1 ∧ R (known ∪ Log.stored touches) (h op s).2 (g op t).2)
    (p : Tree Ans α) {s : S} {t : T} {known : Set A} {touches : List (Touch A V)} (hst : R known s t)
    (hrun : log (p.run h s).2 = log s ++ touches) (hwithin : Log.Within known touches) :
    (p.run h s).1 = (p.run g t).1 ∧ R (known ∪ Log.stored touches) (p.run h s).2 (p.run g t).2 := by
  induction p generalizing s t known touches with
  | ret a =>
    obtain rfl : touches = [] := by simpa using hrun
    rw [Log.stored_nil, Set.union_empty]
    exact ⟨rfl, hst⟩
  | ask op k ih =>
    obtain ⟨first, hfirst⟩ := hlog op s
    obtain ⟨rest, hrest⟩ := run_logs hlog (k (h op s).1) (h op s).2
    have htouches : touches = first ++ rest := by
      rw [run_ask, hrest, hfirst, List.append_assoc, List.append_cancel_left_eq] at hrun
      exact hrun.symm
    subst htouches
    rw [Log.within_append] at hwithin
    obtain ⟨hans, hnext⟩ := hR op s t known first hst hfirst hwithin.1
    rw [run_ask, run_ask, ← hans, Log.stored_append, ← Set.union_assoc]
    exact ih _ hnext hrest hwithin.2

end Tree

end Interaction
