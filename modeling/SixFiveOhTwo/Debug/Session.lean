import Mathlib.Data.Finset.Insert
import SixFiveOhTwo.Debug.Boundary
import SixFiveOhTwo.Debug.Disasm

/-! # Debug sessions (`debug.py`)

A `DebugSession` drives a `Target` one boundary at a time and keeps records. `StepRecord` and `RunResult`
carry the checks of their constructors; where a check fails, what is raised is the text of a `ValueError`,
and what was done before it stays done.

* `DebugSession.step`: one boundary.
* `DebugSession.run`: boundaries until a stop condition, or until its budget is spent.
-/

namespace SixFiveOhTwo
set_option autoImplicit false

/-- Why a bounded run returned control. -/
inductive StopReason
  | breakpoint | watchpoint | halted | stepLimit | cycleLimit
  deriving DecidableEq, Repr

/-- The direction a watchpoint watches. -/
inductive Watch
  | r | w | rw
  deriving DecidableEq, Repr

/-- `access[0][0] in kind`. -/
def Watch.has : Watch → Access → Bool
  | r, .w .. | w, .r .. => false
  | _, _ => true

/-! ## Records -/

/-- Before/after evidence for one boundary. -/
structure StepRecord where
  sequence : ℕ
  kind : BoundaryKind
  before : CPUState
  after : CPUState
  cycles : ℕ
  instruction : Option Instruction
  accesses : Option (List Access) := none
  cycles_pos : 0 < cycles
  lifecycle : kind ≠ .instruction → instruction = none
  accesses_valid : ∀ access ∈ accesses.getD [], access.InRange
  deriving DecidableEq

/-- `StepRecord.__post_init__`, for fields of the right types. -/
def StepRecord.make (sequence : ℕ) (kind : BoundaryKind) (before after : CPUState) (cycles : ℕ)
    (instruction : Option Instruction) (accesses : Option (List Access)) : Except String StepRecord :=
  if hcycles : 0 < cycles then
    if hkind : kind ≠ .instruction → instruction = none then
      if haccesses : ∀ access ∈ accesses.getD [], access.InRange then
        .ok {
          sequence, kind, before, after, cycles, instruction, accesses
          cycles_pos := hcycles, lifecycle := hkind, accesses_valid := haccesses }
      else .error "accesses must be a tuple of (kind, address, value) or None"
    else .error "lifecycle boundaries cannot contain an instruction"
  else .error "cycles must be a positive integer"

/-- Summary of one bounded run. -/
structure RunResult where
  reason : StopReason
  steps : ℕ
  instructions : ℕ
  cycles : ℕ
  state : CPUState
  lastRecord : Option StepRecord
  hits : List Access := []
  instructions_le : instructions ≤ steps
  deriving DecidableEq

/-! ## Targets and sessions -/

/-- What a session drives: its step and its snapshots (`DebugTarget`), and the list that a session's
wrappers append to, which the session empties. -/
structure Target (τ : Type) where
  step : τ → ℕ × τ
  captureState : τ → Except String CPUState
  accesses : (session : ℕ) → τ → List Access
  clear : (session : ℕ) → τ → τ

/-- A session: `id` says whose list its wrappers append to, `originals` are the callables they wrapped
while it tracks. -/
structure DebugSession (τ : Type) where
  id : ℕ
  peekByte : Option (τ → ℕ → Byte) := none
  historyLimit : ℕ := 256
  breakpoints : Finset ℕ := ∅
  watchpoints : List (ℕ × Watch) := []
  totalSteps : ℕ := 0
  totalInstructions : ℕ := 0
  totalCycles : ℕ := 0
  history : List StepRecord := []
  originals : Option (Callable × Callable) := none

namespace DebugSession
variable {τ : Type}

/-- `tracking`. -/
def tracking (session : DebugSession τ) : Bool := session.originals.isSome

/-- `_validate_address`: `none` where it raises. -/
def validateAddress (address : ℤ) : Option ℕ :=
  if 0 ≤ address ∧ address ≤ 0xFFFF then some address.toNat else none

/-- `add_breakpoint`, and `remove_breakpoint`. -/
def addBreakpoint (session : DebugSession τ) (address : ℤ) : DebugSession τ :=
  match validateAddress address with
  | some address => { session with breakpoints := insert address session.breakpoints }
  | none => session

def removeBreakpoint (session : DebugSession τ) (address : ℤ) : DebugSession τ :=
  match validateAddress address with
  | some address => { session with breakpoints := session.breakpoints.erase address }
  | none => session

/-- Assigning a key of a dictionary: a key that is there keeps its place. -/
def assign (address : ℕ) (kind : Watch) : List (ℕ × Watch) → List (ℕ × Watch)
  | [] => [(address, kind)]
  | entry :: entries =>
    if entry.1 = address then (address, kind) :: entries else entry :: assign address kind entries

/-- `add_watchpoint`: it raises on a session that does not track. -/
def addWatchpoint (session : DebugSession τ) (address : ℤ) (kind : Watch) : DebugSession τ :=
  match session.tracking, validateAddress address with
  | true, some address =>
    { session with watchpoints := assign address kind session.watchpoints }
  | _, _ => session

/-- `remove_watchpoint`. -/
def removeWatchpoint (session : DebugSession τ) (address : ℤ) : DebugSession τ :=
  match validateAddress address with
  | some address => { session with watchpoints := session.watchpoints.filter (·.1 ≠ address) }
  | none => session

/-- `clear_history`. -/
def clearHistory (session : DebugSession τ) : DebugSession τ := { session with history := [] }

/-- `_watch_hits`. -/
def watchHits (session : DebugSession τ) (record : StepRecord) : List Access :=
  (record.accesses.getD []).filter fun access =>
    ((session.watchpoints.lookup access.address).map fun kind => kind.has access).getD false

/-- Appending to a `deque` of length `limit`. -/
def retain (limit : ℕ) (history : List StepRecord) (record : StepRecord) : List StepRecord :=
  if limit = 0 then history
  else (history ++ [record]).drop (history.length + 1 - limit)

/-- A session that has made a record. -/
def recorded (session : DebugSession τ) (record : StepRecord) : DebugSession τ :=
  { session with
    totalSteps := session.totalSteps + 1
    totalCycles := session.totalCycles + record.cycles
    totalInstructions := session.totalInstructions + (if record.kind = .instruction then 1 else 0)
    history := retain session.historyLimit session.history record }

variable (T : Target τ)

/-- The instruction about to run, where there is a `peek_byte` to decode it. -/
def decode (session : DebugSession τ) (t : τ) (before : CPUState) : Except String (Option Instruction) :=
  match session.peekByte with
  | some peek =>
    if nextBoundary before = .instruction then
      (disassemble (fun address => .ok (peek t address)) before.pc).map some
    else .ok none
  | none => .ok none

theorem decode_ok (session : DebugSession τ) (t : τ) (before : CPUState) :
    ∃ instruction, session.decode t before = .ok instruction ∧
      (nextBoundary before ≠ .instruction → instruction = none) := by
  unfold decode
  cases session.peekByte with
  | none => exact ⟨none, rfl, fun _ => rfl⟩
  | some peek =>
    dsimp only
    split
    case isTrue h =>
      rw [disassemble_eq (peek t) before.pc_le]
      exact ⟨_, rfl, fun hne => absurd h hne⟩
    case isFalse => exact ⟨none, rfl, fun _ => rfl⟩

/-- `step`: what it returns or raises, the session and the target after it. -/
def step (session : DebugSession τ) (t : τ) : Except String StepRecord × DebugSession τ × τ :=
  match T.captureState t with
  | .error text => (.error text, session, t)
  | .ok before =>
    match session.decode t before with
    | .error text => (.error text, session, t)
    | .ok instruction =>
      let (cycles, t) := T.step (if session.tracking then T.clear session.id t else t)
      if cycles = 0 then
        (.error "target step() must return a positive integer cycle count", session, t)
      else
        match T.captureState t with
        | .error text => (.error text, session, t)
        | .ok after =>
          let accesses := if session.tracking then some (T.accesses session.id t) else none
          match StepRecord.make session.totalSteps (nextBoundary before) before after cycles instruction
            accesses with
          | .error text => (.error text, session, t)
          | .ok record => (.ok record, session.recorded record, t)

/-- A session's step on a target that can be captured around it, with accesses a record allows. -/
theorem step_ok {session : DebugSession τ} {t t' : τ} {before after : CPUState} {instruction : Option Instruction}
    {accesses : Option (List Access)} (hcapture : T.captureState t = .ok before)
    (hdecode : session.decode t before = .ok instruction)
    (hlifecycle : nextBoundary before ≠ .instruction → instruction = none)
    (hready : t' = if session.tracking then T.clear session.id t else t) (hpos : 0 < (T.step t').1)
    (hcapture' : T.captureState (T.step t').2 = .ok after)
    (haccesses : (if session.tracking then some (T.accesses session.id (T.step t').2) else none) = accesses)
    (hvalid : ∀ access ∈ accesses.getD [], access.InRange) :
    session.step T t = (.ok ⟨session.totalSteps, nextBoundary before, before, after, (T.step t').1, instruction,
        accesses, hpos, hlifecycle, hvalid⟩,
      session.recorded ⟨session.totalSteps, nextBoundary before, before, after, (T.step t').1, instruction,
        accesses, hpos, hlifecycle, hvalid⟩, (T.step t').2) := by
  subst hready haccesses
  rw [step, hcapture]
  dsimp only
  rw [hdecode]
  dsimp only
  rw [if_neg hpos.ne', hcapture']
  dsimp only
  rw [StepRecord.make, dif_pos hpos, dif_pos hlifecycle, dif_pos hvalid]

/-! ## Runs -/

/-- The counts of a run so far, and its records, of which the source keeps the last. -/
structure Tally where
  steps : ℕ := 0
  instructions : ℕ := 0
  cycles : ℕ := 0
  records : List StepRecord := []
  instructions_le : instructions ≤ steps := by omega

/-- One more record. -/
def Tally.add (tally : Tally) (record : StepRecord) : Tally where
  steps := tally.steps + 1
  instructions := tally.instructions + (if record.kind = .instruction then 1 else 0)
  cycles := tally.cycles + record.cycles
  records := tally.records ++ [record]
  instructions_le := by
    have h := tally.instructions_le
    split <;> omega

/-- The result of a run that stops here. -/
def Tally.result (tally : Tally) (reason : StopReason) (state : CPUState) (hits : List Access) : RunResult where
  reason
  steps := tally.steps
  instructions := tally.instructions
  cycles := tally.cycles
  state
  lastRecord := tally.records.getLast?
  hits
  instructions_le := tally.instructions_le

/-- What a run leaves: what it returned or raised, its records, the session and the target. -/
structure Ran (τ : Type) where
  result : Except String RunResult
  records : List StepRecord
  session : DebugSession τ
  target : τ

/-- The loop of `run`, with the steps its budget still has. -/
def runLoop (maxCycles : Option ℕ) (stopOnHalt : Bool) : ℕ → Tally → DebugSession τ → τ → Ran τ
  | 0, tally, session, t =>
    match tally.records.getLast? with
    | some record => ⟨.ok (tally.result .stepLimit record.after []), tally.records, session, t⟩
    | none => ⟨(T.captureState t).map (tally.result .stepLimit · []), tally.records, session, t⟩
  | budget + 1, tally, session, t =>
    match T.captureState t with
    | .error text => ⟨.error text, tally.records, session, t⟩
    | .ok state =>
      if nextBoundary state = .instruction ∧ state.pc ∈ session.breakpoints then
        ⟨.ok (tally.result .breakpoint state []), tally.records, session, t⟩
      else if stopOnHalt ∧ nextBoundary state = .jamIdle then
        ⟨.ok (tally.result .halted state []), tally.records, session, t⟩
      else
        match session.step T t with
        | (.error text, session, t) => ⟨.error text, tally.records, session, t⟩
        | (.ok record, session, t) =>
          let tally := tally.add record
          let hits := session.watchHits record
          if hits ≠ [] then
            ⟨.ok (tally.result .watchpoint record.after hits), tally.records, session, t⟩
          else if maxCycles.any (· ≤ tally.cycles) then
            ⟨.ok (tally.result .cycleLimit record.after []), tally.records, session, t⟩
          else runLoop maxCycles stopOnHalt budget tally session t

/-- `run`. -/
def run (maxSteps : ℤ) (maxCycles : Option ℤ) (stopOnHalt : Bool) (session : DebugSession τ) (t : τ) : Ran τ :=
  if maxSteps ≤ 0 then ⟨.error "max_steps must be a positive integer", [], session, t⟩
  else if maxCycles.any (· ≤ 0) then
    ⟨.error "max_cycles must be a positive integer or None", [], session, t⟩
  else runLoop T (maxCycles.map Int.toNat) stopOnHalt maxSteps.toNat {} session t

/-! ## What steps keep, runs keep -/

section
variable {T} {J : DebugSession τ → τ → List StepRecord → Prop}
  (hcapture : ∀ session t records, J session t records → ∃ state, T.captureState t = .ok state)
  (hstep : ∀ session t records, J session t records → ∃ record t',
    session.step T t = (.ok record, session.recorded record, t') ∧
      J (session.recorded record) t' (records ++ [record]))
include hcapture hstep

theorem runLoop_keeps (maxCycles : Option ℕ) (stopOnHalt : Bool) (budget : ℕ) (tally : Tally)
    (session : DebugSession τ) (t : τ) (h : J session t tally.records) :
    J (runLoop T maxCycles stopOnHalt budget tally session t).session
      (runLoop T maxCycles stopOnHalt budget tally session t).target
      (runLoop T maxCycles stopOnHalt budget tally session t).records := by
  induction budget generalizing tally session t with
  | zero =>
    rw [runLoop]
    split <;> exact h
  | succ budget ih =>
    obtain ⟨state, hstate⟩ := hcapture session t _ h
    obtain ⟨record, t', hrecord, hnext⟩ := hstep session t _ h
    rw [runLoop, hstate]
    dsimp only
    split
    · exact h
    · split
      · exact h
      · rw [hrecord]
        dsimp only
        split
        · exact hnext
        · split
          · exact hnext
          · exact ih (tally.add record) _ t' hnext

theorem run_keeps (maxSteps : ℤ) (maxCycles : Option ℤ) (stopOnHalt : Bool) {session : DebugSession τ} {t : τ}
    (h : J session t []) :
    J (session.run T maxSteps maxCycles stopOnHalt t).session (session.run T maxSteps maxCycles stopOnHalt t).target
      (session.run T maxSteps maxCycles stopOnHalt t).records := by
  rw [run]
  split
  · exact h
  · split
    · exact h
    · exact runLoop_keeps hcapture hstep _ stopOnHalt _ {} session t h

end

end DebugSession

end SixFiveOhTwo
