import SixFiveOhTwo.Interaction.Runs
import SixFiveOhTwo.Interaction.Tree

/-! # Runs against a script

What an environment answered in a run can be put on record, and a second environment can go by that record in place
of what decided the answers.

* `Tree.recorded`: what a run puts on record. `Tree.run_follows`: an environment that goes by the record of a run
  runs the program as it ran, and leaves the rest of its script.
* `System.final_follows`: the same for a sequence of actions.
-/

namespace Interaction
set_option autoImplicit false

namespace Tree
variable {Op E : Type} {Ans : Op → Type} {α S T : Type}

/-- What a run puts on record: what is seen of each operation with its answer. -/
def recorded (h : (op : Op) → S → Ans op × S) (seen : (op : Op) → Ans op → List E) : Tree Ans α → S → List E
  | ret _, _ => []
  | ask op k, s => seen op (h op s).1 ++ recorded h seen (k (h op s).1) (h op s).2

/-- An environment goes by a script that begins with what is seen of the next operation: it gives the answer that was
given, and the rest of the script is left. -/
def Follows (h : (op : Op) → S → Ans op × S) (g : (op : Op) → T → Ans op × T) (seen : (op : Op) → Ans op → List E)
    (R : List E → S → T → Prop) : Prop :=
  ∀ op s t rest, R (seen op (h op s).1 ++ rest) s t → (g op t).1 = (h op s).1 ∧ R rest (h op s).2 (g op t).2

variable {h : (op : Op) → S → Ans op × S} {g : (op : Op) → T → Ans op × T} {seen : (op : Op) → Ans op → List E}
  {R : List E → S → T → Prop}

theorem run_follows (hR : Follows h g seen R) (p : Tree Ans α) {s : S} {t : T} {rest : List E}
    (hst : R (p.recorded h seen s ++ rest) s t) :
    (p.run g t).1 = (p.run h s).1 ∧ R rest (p.run h s).2 (p.run g t).2 := by
  induction p generalizing s t with
  | ret a => exact ⟨rfl, hst⟩
  | ask op k ih =>
    rw [recorded, List.append_assoc] at hst
    obtain ⟨hans, hnext⟩ := hR op s t _ hst
    rw [run_ask, run_ask, hans]
    exact ih _ hnext

/-- An environment that keeps its own record has there what is seen. -/
theorem run_record {L : S → List E} (hseen : ∀ op s, L (h op s).2 = L s ++ seen op (h op s).1) (p : Tree Ans α) (s : S) :
    L (p.run h s).2 = L s ++ p.recorded h seen s := by
  induction p generalizing s with
  | ret a => exact (List.append_nil _).symm
  | ask op k ih => rw [run_ask, ih, hseen, recorded, List.append_assoc]

end Tree

namespace System
variable {A B E S T O O' V : Type}

/-- A system that goes by what another has shown looks the same, and leaves the rest of its script; what the other
did is done in its own way. -/
theorem final_follows {act : System A S O} {act' : System B T O'} {own : A → B} {P : A → Prop} {seen : O → List E}
    {view : O → V} {view' : O' → V} {R : List E → S → T → Prop}
    (hR : ∀ a s t rest, P a → R (seen (act a s).1 ++ rest) s t →
      view' (act' (own a) t).1 = view (act a s).1 ∧ R rest (act a s).2 (act' (own a) t).2)
    {s : S} {t : T} {rest : List E} {as : List A} (hP : ∀ a ∈ as, P a)
    (hst : R ((act.shown s as).flatMap seen ++ rest) s t) :
    (act'.shown t (as.map own)).map view' = (act.shown s as).map view ∧
      R rest (act.final s as) (act'.final t (as.map own)) := by
  induction as generalizing s t with
  | nil => exact ⟨rfl, hst⟩
  | cons a as ih =>
    rw [shown_cons, List.flatMap_cons, List.append_assoc] at hst
    rw [List.forall_mem_cons] at hP
    obtain ⟨hview, hnext⟩ := hR a s t _ hP.1 hst
    obtain ⟨hviews, hend⟩ := ih hP.2 hnext
    refine ⟨?_, hend⟩
    rw [List.map_cons, shown_cons, shown_cons, List.map_cons, List.map_cons, hview, hviews]

end System

end Interaction
