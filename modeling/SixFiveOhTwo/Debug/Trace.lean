import SixFiveOhTwo.Debug.Bounded
import SixFiveOhTwo.Debug.Hex

/-! # Comparing traces (`trace.py`)

Two traces are compared position by position, two sessions in lockstep. Where the trace of one side has
ended, or a compared field differs, there is a divergence with every difference of that position.
-/

namespace SixFiveOhTwo
set_option autoImplicit false

/-! ## Values and their texts -/

/-- `BoundaryKind`'s values. -/
def BoundaryKind.value : BoundaryKind → String
  | instruction => "instruction"
  | jamIdle => "jam_idle"
  | reset => "reset"
  | nmi => "nmi"
  | irq => "irq"

/-- An access as text, `w 0010=55`. -/
def Access.text : Access → String
  | .r address value => "r " ++ hex 4 address ++ "=" ++ hex 2 value
  | .w address value => "w " ++ hex 4 address ++ "=" ++ hex 2 value

/-- A compared value. -/
inductive TraceValue
  | none
  | int (value : ℕ)
  | bool (value : Bool)
  | str (value : String)
  | strs (values : List String)
  deriving DecidableEq

/-- A field that may be absent. -/
def TraceValue.ofOption : Option Bool → TraceValue
  | Option.none => none
  | some value => bool value

/-- One unequal observation within an aligned trace position. -/
structure TraceDifference where
  path : String
  left : TraceValue
  right : TraceValue
  path_ne : path ≠ ""
  unequal : left ≠ right
  deriving DecidableEq

/-- `TraceDifference.__post_init__`. -/
def TraceDifference.make (path : String) (left right : TraceValue) : Except String TraceDifference :=
  if hpath : path = "" then .error "path must be a non-empty string"
  else if hequal : left = right then .error "a trace difference must contain unequal values"
  else .ok ⟨path, left, right, hpath, hequal⟩

/-- All differences at one aligned processor-boundary position. -/
structure TraceDivergence where
  position : ℕ
  left : Option StepRecord
  right : Option StepRecord
  differences : List TraceDifference
  differences_ne : differences ≠ []
  deriving DecidableEq

/-- `TraceDivergence.__post_init__`. -/
def TraceDivergence.make (position : ℕ) (left right : Option StepRecord) (differences : List TraceDifference) :
    Except String TraceDivergence :=
  if hnone : differences = [] then .error "differences must not be empty"
  else .ok ⟨position, left, right, differences, hnone⟩

/-! ## Comparing two records -/

/-- `_append`. -/
def append (differences : List TraceDifference) (path : String) (left right : TraceValue) :
    Except String (List TraceDifference) := do
  if left ≠ right then
    let difference ← TraceDifference.make path left right
    pure (differences ++ [difference])
  else pure differences

/-- The fields of a snapshot by name, in the order of `_state_fields`. -/
def CPUState.fields (state : CPUState) : List (String × TraceValue) := [
  ("a", .int state.a), ("x", .int state.x), ("y", .int state.y), ("s", .int state.s), ("pc", .int state.pc),
  ("p", .int state.p), ("halted", .bool state.halted), ("reset_pending", .bool state.resetPending),
  ("maskable_interrupt_pending", .bool state.maskableInterruptPending),
  ("non_maskable_interrupt_pending", .bool state.nonMaskableInterruptPending),
  ("polled_i", .ofOption state.polledI),
  ("polled_maskable_interrupt", .ofOption state.polledMaskableInterrupt),
  ("polled_non_maskable_interrupt", .ofOption state.polledNonMaskableInterrupt),
  ("skipped_poll", .bool state.skippedPoll)]

/-- `_compare_state`. -/
def compareState (differences : List TraceDifference) (side : String) (left right : CPUState) :
    Except String (List TraceDifference) :=
  -- one comparison of the whole state where nothing differs
  if left = right then pure differences
  else (left.fields.zip right.fields).foldlM
    (fun differences (l, r) => append differences (side ++ "." ++ l.1) l.2 r.2) differences

/-- `data.hex()`. -/
def Instruction.hexData (instruction : Instruction) : String := String.ofList (Hexadecimal.digits instruction.data)

/-- `_compare_instruction`. -/
def compareInstruction (differences : List TraceDifference) :
    (left right : Option Instruction) → Except String (List TraceDifference)
  | some left, some right => do
    let differences ← append differences "instruction.address" (.int left.address) (.int right.address)
    let differences ← append differences "instruction.data" (.str left.hexData) (.str right.hexData)
    let differences ← append differences "instruction.mnemonic" (.str left.mnemonic) (.str right.mnemonic)
    append differences "instruction.operands" (.strs left.operands) (.strs right.operands)
  | left, right =>
    let present (instruction : Option Instruction) : TraceValue :=
      if instruction.isNone then .none else .str "present"
    append differences "instruction" (present left) (present right)

/-- `compare_step_records`. -/
def compareStepRecords (left right : StepRecord) : Except String (List TraceDifference) := do
  let differences ← append [] "kind" (.str left.kind.value) (.str right.kind.value)
  let differences ← compareInstruction differences left.instruction right.instruction
  let differences ← append differences "cycles" (.int left.cycles) (.int right.cycles)
  let differences ← compareState differences "before" left.before right.before
  let differences ← compareState differences "after" left.after right.after
  match left.accesses, right.accesses with
  | some left, some right =>
    append differences "accesses" (.strs (left.map Access.text)) (.strs (right.map Access.text))
  | _, _ => pure differences

/-! ## Comparing two traces -/

/-- `zip_longest`, with `none` for `_MISSING`. -/
def zipLongest {α β : Type} : List α → List β → List (Option α × Option β)
  | [], rights => rights.map fun right => (none, some right)
  | left :: lefts, [] => (some left, none) :: zipLongest lefts []
  | left :: lefts, right :: rights => (some left, some right) :: zipLongest lefts rights

/-- The body of the loop of `iter_trace_divergences`: what it yields for a pair. -/
def divergence (position : ℕ) : Option StepRecord × Option StepRecord → Except String (Option TraceDivergence)
  | (none, none) => pure none
  | (none, some right) => do
    let difference ← TraceDifference.make "record" .none (.str "present")
    some <$> TraceDivergence.make position none (some right) [difference]
  | (some left, none) => do
    let difference ← TraceDifference.make "record" (.str "present") .none
    some <$> TraceDivergence.make position (some left) none [difference]
  | (some left, some right) => do
    let differences ← compareStepRecords left right
    if differences = [] then pure none
    else some <$> TraceDivergence.make position (some left) (some right) differences

/-- The loop, from a position on. -/
def iterFrom (position : ℕ) : List (Option StepRecord × Option StepRecord) → Except String (List TraceDivergence)
  | [] => pure []
  | pair :: pairs => do
    let found ← divergence position pair
    let rest ← iterFrom (position + 1) pairs
    pure (found.toList ++ rest)

/-- `iter_trace_divergences`, read to its end. -/
def iterTraceDivergences (left right : List StepRecord) : Except String (List TraceDivergence) :=
  iterFrom 0 (zipLongest left right)

/-! ## The first divergence

`next` on `iter_trace_divergences` takes from its two iterators only what it needs.
-/

/-- What `next` gives on an iterator in a state, or raises, and the state it leaves: `none` at the end. -/
abbrev Pull (σ α : Type) : Type := σ → Except String (Option α) × σ

/-- The iterator of a list. -/
def pullList {α : Type} : Pull (List α) α
  | [] => (.ok none, [])
  | value :: values => (.ok (some value), values)

/-- `zip_longest` of two iterators, of which the left one is asked first. -/
def pullPair {σ ρ α β : Type} (left : Pull σ α) (right : Pull ρ β) : Pull (σ × ρ) (Option α × Option β) :=
  fun (s, r) =>
    match left s with
    | (.error text, s) => (.error text, s, r)
    | (.ok first, s) =>
      match right r with
      | (.error text, r) => (.error text, s, r)
      | (.ok second, r) =>
        (.ok (if first.isNone ∧ second.isNone then none else some (first, second)), s, r)

/-- `next` on `iter_trace_divergences`, from a position on, which asks for `rounds` pairs at most. -/
def nextDivergence {σ : Type} (pairs : Pull σ (Option StepRecord × Option StepRecord)) :
    (rounds position : ℕ) → σ → Except String (Option TraceDivergence) × σ
  | 0, _, s => (.ok none, s)
  | rounds + 1, position, s =>
    match pairs s with
    | (.error text, s) => (.error text, s)
    | (.ok none, s) => (.ok none, s)
    | (.ok (some pair), s) =>
      match divergence position pair with
      | .error text => (.error text, s)
      | .ok (some found) => (.ok (some found), s)
      | .ok none => nextDivergence pairs rounds (position + 1) s

/-- `first_trace_divergence`: after the longer list there is one round that finds both at their ends. -/
def firstTraceDivergence (left right : List StepRecord) : Except String (Option TraceDivergence) :=
  (nextDivergence (pullPair pullList pullList) (max left.length right.length + 1) 0 (left, right)).1

/-- A session and its target. -/
abbrev Live (τ : Type) : Type := DebugSession τ × τ

/-- `iter_session_steps`, with the steps it still may make. -/
def iterSessionSteps {τ : Type} (T : Target τ) : Pull (ℕ × Live τ) StepRecord
  | (0, live) => (.ok none, 0, live)
  | (steps + 1, session, t) =>
    match session.step T t with
    | (.ok record, live) => (.ok (some record), steps, live)
    -- a generator that has raised is at its end
    | (.error text, live) => (.error text, 0, live)

/-- `first_session_divergence`. -/
def firstSessionDivergence {τ σ : Type} (T : Target τ) (U : Target σ) (maxSteps : ℤ) (left : Live τ)
    (right : Live σ) : Except String (Option TraceDivergence) × Live τ × Live σ :=
  -- the left generator checks its budget when it is first asked, before it makes a step
  if maxSteps ≤ 0 then (.error "max_steps must be a positive integer", left, right)
  else
    let budget := maxSteps.toNat
    let (found, (_, left), _, right) :=
      nextDivergence (pullPair (iterSessionSteps T) (iterSessionSteps U)) (budget + 1) 0
        ((budget, left), budget, right)
    (found, left, right)

end SixFiveOhTwo
