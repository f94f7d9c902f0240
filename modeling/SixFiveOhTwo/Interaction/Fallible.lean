import Mathlib.Data.List.Basic
import Mathlib.Data.Nat.Notation

/-! # Computations that may fail

What a bind of such computations, and a loop over the first numbers, returns or fails with: a loop fails where the
first of its rounds does.
-/

namespace Interaction
set_option autoImplicit false

variable {α β ε : Type}

theorem bind_eq_ok {x : Except ε α} {f : α → Except ε β} {b : β} :
    x >>= f = .ok b ↔ ∃ a, x = .ok a ∧ f a = .ok b := by
  cases x with
  | error e => exact iff_of_false (fun h => by cases h) (fun ⟨_, h, _⟩ => by cases h)
  | ok a => exact ⟨fun h => ⟨a, rfl, h⟩, fun ⟨_, ha, h⟩ => by cases ha; exact h⟩

theorem bind_eq_error {x : Except ε α} {f : α → Except ε β} {e : ε} :
    x >>= f = .error e ↔ x = .error e ∨ ∃ a, x = .ok a ∧ f a = .error e := by
  cases x with
  | error e' =>
    constructor
    · intro h
      cases h
      exact .inl rfl
    · rintro (h | ⟨_, ha, _⟩)
      · cases h
        rfl
      · cases ha
  | ok a =>
    constructor
    · intro h
      exact .inr ⟨a, rfl, h⟩
    · rintro (h | ⟨a', ha, h⟩)
      · cases h
      · cases ha
        exact h

variable {f : ℕ → Except ε α}

theorem mapM_range_succ (n : ℕ) :
    (List.range (n + 1)).mapM f = (List.range n).mapM f >>= fun data => f n >>= fun a => pure (data ++ [a]) := by
  rw [List.range_succ, List.mapM_append]
  refine bind_congr fun data => ?_
  rw [List.mapM_cons]
  cases f n <;> rfl

theorem mapM_range_ok {n : ℕ} {data : List α} (h : (List.range n).mapM f = .ok data) :
    data.length = n ∧ ∀ i a, data[i]? = some a → f i = .ok a := by
  induction n generalizing data with
  | zero =>
    cases h
    exact ⟨rfl, by simp⟩
  | succ n ih =>
    rw [mapM_range_succ, bind_eq_ok] at h
    obtain ⟨init, hinit, h⟩ := h
    obtain ⟨last, hlast, h⟩ := bind_eq_ok.mp h
    cases h
    obtain ⟨hlength, hget⟩ := ih hinit
    refine ⟨by rw [List.length_append, hlength]; rfl, fun i a hi => ?_⟩
    rw [List.getElem?_append] at hi
    split at hi
    · exact hget i a hi
    · next hge =>
      have hlt := (List.getElem?_eq_some_iff.mp hi).1
      rw [List.length_singleton] at hlt
      obtain rfl : i = n := by omega
      rw [show i - init.length = 0 by omega] at hi
      cases hi
      exact hlast

/-- A loop fails as the first of its rounds does that fails. -/
theorem mapM_range_error {n : ℕ} {e : ε} (h : (List.range n).mapM f = .error e) :
    ∃ i < n, f i = .error e ∧ ∀ j < i, ∃ a, f j = .ok a := by
  induction n generalizing e with
  | zero => cases h
  | succ n ih =>
    rw [mapM_range_succ, bind_eq_error] at h
    rcases h with h | ⟨init, hinit, h⟩
    · obtain ⟨i, hi, hfails, hearlier⟩ := ih h
      exact ⟨i, Nat.lt_succ_of_lt hi, hfails, hearlier⟩
    · rcases bind_eq_error.mp h with h | ⟨_, _, h⟩
      · obtain ⟨hlength, hget⟩ := mapM_range_ok hinit
        refine ⟨n, Nat.lt_succ_self n, h, fun j hj => ?_⟩
        have hlt : j < init.length := hlength ▸ hj
        exact ⟨init[j], hget j _ (List.getElem?_eq_getElem hlt)⟩
      · cases h

end Interaction
