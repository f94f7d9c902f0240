import Mathlib.Init

/-! # Lazy sampling

A value changes at any time, and something must later know what it was when it was last sampled.
Instead of copying it at every sample, `Cell` keeps a copy from the first change after a sample on.
`Cell.seen_moves` says that nothing is lost: after any sequence of changes and samples, what the cell
has seen is what the last sample of the sequence found, or what it had seen before if there was none.
-/

namespace Interaction
set_option autoImplicit false

/-- The value now, and its value at the last sample if it may have changed since. -/
structure Cell (V : Type) where
  now : V
  kept : Option V

namespace Cell
variable {V : Type}

/-- The value at the last sample. -/
def seen (c : Cell V) : V := c.kept.getD c.now

/-- What happens to a sampled value. -/
inductive Move (V : Type)
  | change (f : V → V)
  | sample
  | none

def move : Move V → Cell V → Cell V
  | .change f, c => { now := f c.now, kept := some c.seen }
  | .sample, c => { c with kept := Option.none }
  | .none, c => c

/-- What the samples of a sequence find, in order. -/
def found : Cell V → List (Move V) → List V
  | _, [] => []
  | c, .sample :: ms => c.now :: found (move .sample c) ms
  | c, .change f :: ms => found (move (.change f) c) ms
  | c, .none :: ms => found c ms

/-- What a cell has seen is what the last sample found. -/
theorem seen_moves (c : Cell V) (ms : List (Move V)) :
    (ms.foldl (fun c m => move m c) c).seen = (c.found ms).getLast?.getD c.seen := by
  induction ms generalizing c with
  | nil => rfl
  | cons m ms ih =>
    cases m with
    | change f => exact ih _
    | none => exact ih _
    | sample =>
      rw [List.foldl_cons, ih, found, List.getLast?_cons]
      rfl

end Cell

end Interaction
