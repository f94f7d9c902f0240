import SixFiveOhTwo.Debug.Bench
import SixFiveOhTwo.Debug.Trace
import SixFiveOhTwo.Machine.Flat

/-! # The commands of the debugger (`console.py`)

`continue` and `over` mix single steps of the session, which look at no watchpoint, with runs of it,
which do. A step of theirs that touches a watched byte is their last and is reported, unless it is the
single step they begin with.
-/

namespace SixFiveOhTwo
set_option autoImplicit false

/-! ## Lines -/

/-- `Instruction.text`. -/
def Instruction.text (instruction : Instruction) : String :=
  if instruction.operands = [] then instruction.mnemonic
  else instruction.mnemonic ++ " " ++ ",".intercalate instruction.operands

/-- `StopReason`'s values. -/
def StopReason.value : StopReason → String
  | breakpoint => "breakpoint"
  | watchpoint => "watchpoint"
  | halted => "halted"
  | stepLimit => "step_limit"
  | cycleLimit => "cycle_limit"

/-- `_flags`. -/
def flagsText (value : ℕ) : String :=
  String.ofList ("NV-BDIZC".toList.mapIdx fun index label =>
    if value &&& (0x80 >>> index) ≠ 0 then label else '-')

namespace Line

def digit (seen : Bool) : String := if seen then "1" else "0"

/-- `_format_state`. -/
def formatState (state : CPUState) : List String :=
  let polled := (state.polledI.map digit).getD "-"
  let seen (name : String) (polled : Option Bool) : String :=
    (polled.map fun seen => " POLLED_" ++ name ++ "=" ++ digit seen).getD ""
  [ "PC=" ++ hex 4 state.pc ++ " A=" ++ hex 2 state.a ++ " X=" ++ hex 2 state.x ++ " Y=" ++ hex 2 state.y ++
      " S=" ++ hex 2 state.s ++ " P=" ++ hex 2 state.p ++ " " ++ flagsText state.p,
    "JAM=" ++ digit state.halted ++ " RESET=" ++ digit state.resetPending ++
      " NMI=" ++ digit state.nonMaskableInterruptPending ++ " IRQ=" ++ digit state.maskableInterruptPending ++
      " POLLED_I=" ++ polled ++ seen "NMI" state.polledNonMaskableInterrupt ++
      seen "IRQ" state.polledMaskableInterrupt ++ (if state.skippedPoll then " NO_POLL" else "") ]

/-- `format_instruction`. -/
def formatInstruction (instruction : Instruction) : String :=
  let encoded := " ".intercalate (instruction.data.map fun byte => hex 2 byte)
  hex 4 instruction.address ++ "  " ++ String.ofList (encoded.toList.rightpad 11 ' ') ++ "  " ++ instruction.text

/-- `format_record`. -/
def formatRecord (record : StepRecord) : String :=
  let work := match record.instruction with
    | some instruction => formatInstruction instruction
    | none => hex 4 record.before.pc ++ "  " ++ record.kind.value
  "#" ++ toString record.sequence ++ " " ++ work ++ " -> PC=" ++ hex 4 record.after.pc ++
    " +" ++ toString record.cycles

/-- `format_run`. -/
def formatRun (result : RunResult) : String :=
  "stopped=" ++ result.reason.value ++ " steps=" ++ toString result.steps ++
    " instructions=" ++ toString result.instructions ++ " cycles=" ++ toString result.cycles ++
    " PC=" ++ hex 4 result.state.pc ++
    (if result.reason = .watchpoint then " " ++ " ".intercalate (result.hits.map Access.text) else "")

end Line

/-- A line of a command's output, with what it is the text of. -/
inductive Line
  | record (record : StepRecord)
  | run (result : RunResult)
  | breakpoint (address : ℕ)
  | gaveUp
  | state (text : String)
  deriving DecidableEq

/-- The line as it is printed. -/
def Line.text : Line → String
  | record made => formatRecord made
  | run result => formatRun result
  | breakpoint address => "breakpoint at " ++ hex 4 address
  | gaveUp => "gave up after 1,000,000 steps"
  | state text => text

/-! ## Commands -/

/-- What a command leaves: its lines or what it raised, the records of the steps it executed, the session
and the target. -/
structure Executed (τ : Type) where
  lines : Except String (List Line)
  records : List StepRecord
  session : DebugSession τ
  target : τ

/-- The state's lines after a command's own. -/
def Executed.withState {τ : Type} (T : Target τ) (executed : Executed τ) : Executed τ :=
  { executed with
    lines := do
      let lines ← executed.lines
      let state ← T.captureState executed.target
      pure (lines ++ (Line.formatState state).map .state) }

namespace DebugSession
variable {τ : Type} (T : Target τ)

/-- Mnemonics `over` runs through to their return. -/
def callMnemonics : List String := ["JSR"]

/-- `_step([])`. -/
def stepCommand (session : DebugSession τ) (t : τ) : Executed τ :=
  match session.step T t with
  | (.error text, session, t) => ⟨.error text, [], session, t⟩
  | (.ok record, session, t) => ⟨.ok [.record record], [record], session, t⟩

/-- The loop of `_over`, with the iterations it still has. -/
def overLoop (nextAddress s : ℕ) : ℕ → List Line → List StepRecord → DebugSession τ → τ → Executed τ
  | 0, lines, records, session, t => ⟨.ok (lines ++ [.gaveUp]), records, session, t⟩
  | budget + 1, lines, records, session, t =>
    match T.captureState t with
    | .error text => ⟨.error text, records, session, t⟩
    | .ok now =>
      if now.pc = nextAddress ∧ now.s = s then ⟨.ok lines, records, session, t⟩
      else if now.pc ∈ session.breakpoints then ⟨.ok (lines ++ [.breakpoint now.pc]), records, session, t⟩
      else
        let ran := session.run T 1 none false t
        match ran.result with
        | .error text => ⟨.error text, records ++ ran.records, ran.session, ran.target⟩
        | .ok result =>
          if result.reason ≠ .stepLimit then
            ⟨.ok (lines ++ [.run result]), records ++ ran.records, ran.session, ran.target⟩
          else overLoop nextAddress s budget lines (records ++ ran.records) ran.session ran.target

/-- `_over`. -/
def overCommand (session : DebugSession τ) (t : τ) : Executed τ :=
  match T.captureState t with
  | .error text => ⟨.error text, [], session, t⟩
  | .ok state =>
    match session.peekByte with
    | none => ⟨.error "this session has no side-effect-free peek capability", [], session, t⟩
    | some peek =>
      match disassemble (fun address => .ok (peek t address)) state.pc with
      | .error text => ⟨.error text, [], session, t⟩
      | .ok instruction =>
        if instruction.mnemonic ∉ callMnemonics then session.stepCommand T t
        else
          match session.step T t with
          | (.error text, session, t) => ⟨.error text, [], session, t⟩
          | (.ok record, session, t) =>
            Executed.withState T
              (overLoop T instruction.nextAddress state.s 1000000 [.record record] [record] session t)

/-- The run that ends `_continue`, after the lines and the records before it. -/
def continueRun (maxSteps : ℤ) (lines : List Line) (records : List StepRecord) (session : DebugSession τ)
    (t : τ) : Executed τ :=
  let ran := session.run T maxSteps none true t
  ⟨ran.result.map fun result => lines ++ [.run result], records ++ ran.records, ran.session, ran.target⟩

/-- `_continue`. -/
def continueCommand (session : DebugSession τ) (t : τ) : Executed τ :=
  match T.captureState t with
  | .error text => ⟨.error text, [], session, t⟩
  | .ok state =>
    if state.pc ∈ session.breakpoints then
      match session.step T t with
      | (.error text, session, t) => ⟨.error text, [], session, t⟩
      | (.ok record, session, t) => continueRun T 999999 [.record record] [record] session t
    else continueRun T 1000000 [] [] session t

/-! ## Watchpoints -/

/-- A line that reports the hits of a record. -/
def Reports (session : DebugSession τ) (record : StepRecord) (lines : List Line) : Prop :=
  ∃ result, .run result ∈ lines ∧ result.reason = .watchpoint ∧ result.hits = session.watchHits record

/-- A step of the command that touches a watched byte is its last, and its output reports the hit. -/
def Honors (session : DebugSession τ) (executed : Executed τ) : Prop :=
  ∀ init record rest, executed.records = init ++ record :: rest → session.watchHits record ≠ [] →
    rest = [] ∧ ∃ lines, executed.lines = .ok lines ∧ session.Reports record lines

section Runs
variable {T} {session session' : DebugSession τ} {t t' : τ} {records : List StepRecord}

theorem Steps.sets (h : Steps T session t records session' t') :
    session'.watchpoints = session.watchpoints ∧ session'.breakpoints = session.breakpoints := by
  induction h with
  | done => exact ⟨rfl, rfl⟩
  | step hstep _ ih =>
    obtain ⟨-, -, rfl, -⟩ := step_inv hstep
    exact ih

theorem Steps.captured {init : List StepRecord} {last : StepRecord}
    (h : Steps T session t (init ++ [last]) session' t') : T.captureState t' = .ok last.after := by
  induction init generalizing session t with
  | nil =>
    rw [List.nil_append] at h
    cases h with
    | step hstep hrest =>
      cases hrest
      exact (step_inv hstep).2.2.2.1
  | cons first init ih =>
    rw [List.cons_append] at h
    cases h with
    | step _ hrest => exact ih hrest

theorem watchHits_congr (h : session'.watchpoints = session.watchpoints) (record : StepRecord) :
    session'.watchHits record = session.watchHits record := by
  rw [watchHits, watchHits, h]

/-- In what a bounded run executed, only a last step can have hits, and then they are its result's. -/
theorem run_hits {maxSteps : ℤ} (hsteps : 0 < maxSteps) (stopOnHalt : Bool) {init rest : List StepRecord}
    {record : StepRecord}
    (h : (session.run T maxSteps none stopOnHalt t).records = init ++ record :: rest)
    (hhits : session.watchHits record ≠ []) :
    rest = [] ∧ ∃ result, (session.run T maxSteps none stopOnHalt t).result = .ok result ∧
      (result.reason = .watchpoint ∧ result.hits = session.watchHits record) ∧
      T.captureState (session.run T maxSteps none stopOnHalt t).target = .ok record.after := by
  obtain ⟨records, hrecords, hstop⟩ := run_stops T session t stopOnHalt hsteps unbounded
  rw [hrecords, List.nil_append] at h
  have hmem : record ∈ records := h ▸ List.mem_append_right init List.mem_cons_self
  rcases hstop with ⟨stop, hresult, hstop⟩ | ⟨text, -, hraised⟩
  · have hrest : rest = [] := by
      rcases List.eq_nil_or_concat rest with hnil | ⟨rest', last, rfl⟩
      · exact hnil
      · have hquiet := (hstop.passed (init ++ record :: rest') last (by rw [h]; simp)).quiet record (by simp)
        exact absurd hquiet hhits
    refine ⟨hrest, _, hresult, ?_⟩
    subst hrest
    refine ⟨?_, (h ▸ hstop.steps).captured⟩
    cases hstop.ends with
    | breakpoint hon => exact absurd (hon.quiet record hmem) hhits
    | halted hon => exact absurd (hon.quiet record hmem) hhits
    | watchpoint _ hlast =>
      obtain ⟨-, rfl⟩ := List.append_singleton_inj.mp (h.symm.trans hlast)
      exact ⟨rfl, rfl⟩
    | cycleLimit _ hlast hquiet =>
      obtain ⟨-, rfl⟩ := List.append_singleton_inj.mp (h.symm.trans hlast)
      exact absurd hquiet hhits
    | stepLimit _ hlast hquiet =>
      obtain ⟨-, rfl⟩ := List.append_singleton_inj.mp (h.symm.trans hlast)
      exact absurd hquiet hhits
  · exact absurd (hraised.passed.quiet record hmem) hhits

theorem run_idle {maxSteps : ℤ} (hsteps : 0 < maxSteps) {stopOnHalt : Bool} {result : RunResult}
    (h : (session.run T maxSteps none stopOnHalt t).records = [])
    (hresult : (session.run T maxSteps none stopOnHalt t).result = .ok result) :
    result.reason ≠ .watchpoint ∧ result.reason ≠ .stepLimit := by
  obtain ⟨records, hrecords, hstop⟩ := run_stops T session t stopOnHalt hsteps unbounded
  rw [hrecords, List.nil_append] at h
  subst h
  rcases hstop with ⟨stop, hok, hstop⟩ | ⟨text, herror, -⟩
  · obtain rfl := Except.ok.inj (hok.symm.trans hresult)
    cases hstop.ends with
    | breakpoint | halted => exact ⟨nofun, nofun⟩
    | watchpoint _ hlast | cycleLimit _ hlast | stepLimit _ hlast => simp at hlast
  · rw [herror] at hresult
    cases hresult

theorem step_error {text : String} (h : session.step T t = (.error text, session', t')) :
    session' = session := by
  unfold step at h
  generalize T.step (if session.tracking then T.clear session.id t else t) = stepped at h
  dsimp only at h
  generalize (if session.tracking then some (T.accesses session.id stepped.2) else none) = accesses at h
  by_cases hzero : stepped.1 = 0
  all_goals
    simp only [hzero, if_true, if_false] at h
    repeat' split at h
    all_goals first | exact (Prod.mk.inj (Prod.mk.inj h).2).1.symm | cases h

theorem run_sets {maxSteps : ℤ} (hsteps : 0 < maxSteps) (stopOnHalt : Bool) :
    (session.run T maxSteps none stopOnHalt t).session.watchpoints = session.watchpoints := by
  obtain ⟨records, -, hstop⟩ := run_stops T session t stopOnHalt hsteps unbounded
  rcases hstop with ⟨stop, -, hstop⟩ | ⟨text, -, hraised⟩
  · exact hstop.steps.sets.1
  · obtain ⟨midway, t₁, hmidway, hraised⟩ := hraised.raised
    rcases hraised with ⟨-, hsession, -⟩ | ⟨state, -, -, hstep⟩
    · exact hsession ▸ hmidway.sets.1
    · exact step_error hstep ▸ hmidway.sets.1

end Runs

section Commands
variable {T} {session session' : DebugSession τ} {t t' : τ} {maxSteps : ℤ} (hsteps : 0 < maxSteps)
  (hsets : session'.watchpoints = session.watchpoints) {before : List StepRecord}
  (hquiet : ∀ record ∈ before, session.watchHits record = [])
include hsteps hsets hquiet

theorem run_after {stopOnHalt : Bool} {init rest : List StepRecord} {record : StepRecord}
    (h : before ++ (session'.run T maxSteps none stopOnHalt t').records = init ++ record :: rest)
    (hhits : session.watchHits record ≠ []) :
    rest = [] ∧ ∃ result, (session'.run T maxSteps none stopOnHalt t').result = .ok result ∧
      (result.reason = .watchpoint ∧ result.hits = session.watchHits record) ∧
      T.captureState (session'.run T maxSteps none stopOnHalt t').target = .ok record.after := by
  rw [← watchHits_congr hsets] at hhits ⊢
  rcases List.append_eq_append_iff.mp h with ⟨middle, rfl, hrun⟩ | ⟨middle, rfl, hrun⟩
  · exact run_hits hsteps stopOnHalt hrun hhits
  · cases middle with
    | nil => exact run_hits hsteps stopOnHalt (hrun.symm.trans (List.nil_append _).symm) hhits
    | cons first middle =>
      rw [List.cons_append, List.cons.injEq] at hrun
      rw [watchHits_congr hsets] at hhits
      exact absurd (hquiet record (by simp [hrun.1])) hhits

theorem continueRun_honors (lines : List Line) :
    session.Honors (session'.continueRun T maxSteps lines before t') := by
  intro init record rest h hhits
  obtain ⟨hrest, result, hresult, hreports, -⟩ := run_after hsteps hsets hquiet h hhits
  refine ⟨hrest, lines ++ [.run result], ?_, result, by simp, hreports⟩
  rw [continueRun, hresult]
  rfl

end Commands

section Over
variable {T} {session : DebugSession τ} (nextAddress s : ℕ)

/-- What the loop of `over` executes after steps that had no hits honors the watchpoints, and the state it
leaves can be captured after a hit. -/
theorem overLoop_hits (budget : ℕ) (lines : List Line) {before : List StepRecord}
    {session' : DebugSession τ} {t' : τ} (hsets : session'.watchpoints = session.watchpoints)
    (hquiet : ∀ record ∈ before, session.watchHits record = []) {init rest : List StepRecord}
    {record : StepRecord}
    (h : (overLoop T nextAddress s budget lines before session' t').records = init ++ record :: rest)
    (hhits : session.watchHits record ≠ []) :
    rest = [] ∧ ∃ lines', (overLoop T nextAddress s budget lines before session' t').lines = .ok lines' ∧
      session.Reports record lines' ∧
      T.captureState (overLoop T nextAddress s budget lines before session' t').target =
        .ok record.after := by
  have habsurd {before : List StepRecord} (hquiet : ∀ record ∈ before, session.watchHits record = [])
      (heq : before = init ++ record :: rest) : False :=
    hhits (hquiet record (heq ▸ List.mem_append_right init List.mem_cons_self))
  induction budget generalizing before session' t' with
  | zero => exact (habsurd hquiet h).elim
  | succ budget ih =>
    rw [overLoop] at h ⊢
    cases hnow : T.captureState t' with
    | error text =>
      rw [hnow] at h
      exact (habsurd hquiet h).elim
    | ok now =>
      rw [hnow] at h
      dsimp only at h ⊢
      by_cases hback : now.pc = nextAddress ∧ now.s = s
      · rw [if_pos hback] at h
        exact (habsurd hquiet h).elim
      · rw [if_neg hback] at h ⊢
        by_cases hbreak : now.pc ∈ session'.breakpoints
        · rw [if_pos hbreak] at h
          exact (habsurd hquiet h).elim
        · rw [if_neg hbreak] at h ⊢
          cases hresult : (session'.run T 1 none false t').result with
          | error text =>
            rw [hresult] at h
            obtain ⟨-, result, hok, -⟩ := run_after Int.one_pos hsets hquiet h hhits
            rw [hresult] at hok
            cases hok
          | ok result =>
            rw [hresult] at h
            dsimp only at h ⊢
            by_cases hlimit : result.reason ≠ .stepLimit
            · rw [if_pos hlimit] at h ⊢
              obtain ⟨hrest, result', hok, hreports, hcaptured⟩ :=
                run_after Int.one_pos hsets hquiet h hhits
              obtain rfl := Except.ok.inj (hresult.symm.trans hok)
              exact ⟨hrest, _, rfl, ⟨result, by simp, hreports⟩, hcaptured⟩
            · rw [if_neg hlimit] at h ⊢
              refine ih ((run_sets Int.one_pos false).trans hsets) (fun other hother => ?_) h
              by_contra hhit
              obtain ⟨init', rest', hsplit⟩ := List.append_of_mem hother
              obtain ⟨-, result', hok, ⟨hreason, -⟩, -⟩ := run_after Int.one_pos hsets hquiet hsplit hhit
              obtain rfl := Except.ok.inj (hresult.symm.trans hok)
              exact hlimit (by rw [hreason]; decide)

theorem overLoop_records (budget : ℕ) (lines : List Line) (before : List StepRecord)
    (session : DebugSession τ) (t : τ) :
    before <+: (overLoop T nextAddress s budget lines before session t).records := by
  induction budget generalizing before session t with
  | zero => exact List.prefix_rfl
  | succ budget ih =>
    rw [overLoop]
    cases T.captureState t with
    | error text => exact List.prefix_rfl
    | ok now =>
      dsimp only
      by_cases hback : now.pc = nextAddress ∧ now.s = s
      · rw [if_pos hback]
      · rw [if_neg hback]
        by_cases hbreak : now.pc ∈ session.breakpoints
        · rw [if_pos hbreak]
        · rw [if_neg hbreak]
          cases (session.run T 1 none false t).result with
          | error text => exact List.prefix_append _ _
          | ok result =>
            dsimp only
            by_cases hlimit : result.reason ≠ .stepLimit
            · rw [if_pos hlimit]
              exact List.prefix_append _ _
            · rw [if_neg hlimit]
              exact (List.prefix_append _ _).trans (ih _ _ _)

/-- A loop that executes no step reports no hit. -/
theorem overLoop_idle (budget : ℕ) {lines lines' : List Line} {before : List StepRecord}
    {session : DebugSession τ} {t : τ} (hlines : ∀ result, .run result ∉ lines)
    (h : (overLoop T nextAddress s budget lines before session t).records = before)
    (hok : (overLoop T nextAddress s budget lines before session t).lines = .ok lines')
    (result : RunResult) (hmem : .run result ∈ lines') : result.reason ≠ .watchpoint := by
  have hnone (line : Line) (hline : ∀ result, line ≠ .run result) (heq : lines' = lines ++ [line]) :
      result.reason ≠ .watchpoint := by
    rw [heq, List.mem_append, List.mem_singleton] at hmem
    exact hmem.elim (absurd · (hlines result)) fun hrun => absurd hrun.symm (hline result)
  cases budget with
  | zero =>
    rw [overLoop, Except.ok.injEq] at hok
    exact hnone .gaveUp (fun _ heq => by cases heq) hok.symm
  | succ budget =>
    rw [overLoop] at h hok
    cases hnow : T.captureState t with
    | error text =>
      rw [hnow] at hok
      cases hok
    | ok now =>
      rw [hnow] at h hok
      dsimp only at h hok
      by_cases hback : now.pc = nextAddress ∧ now.s = s
      · rw [if_pos hback] at hok
        exact absurd ((Except.ok.inj hok) ▸ hmem) (hlines result)
      · rw [if_neg hback] at h hok
        by_cases hbreak : now.pc ∈ session.breakpoints
        · rw [if_pos hbreak] at hok
          exact hnone (.breakpoint now.pc) (fun _ heq => by cases heq) (Except.ok.inj hok).symm
        · rw [if_neg hbreak] at h hok
          cases hresult : (session.run T 1 none false t).result with
          | error text =>
            rw [hresult] at hok
            cases hok
          | ok stopped =>
            rw [hresult] at h hok
            dsimp only at h hok
            by_cases hlimit : stopped.reason ≠ .stepLimit
            · rw [if_pos hlimit] at h hok
              obtain ⟨hreason, -⟩ := run_idle Int.one_pos (by simpa using h) hresult
              rw [← Except.ok.inj hok, List.mem_append, List.mem_singleton] at hmem
              rcases hmem with hmem | hmem
              · exact absurd hmem (hlines result)
              · cases hmem
                exact hreason
            · rw [if_neg hlimit] at h
              have hprefix := overLoop_records (T := T) nextAddress s budget lines
                (before ++ (session.run T 1 none false t).records) (session.run T 1 none false t).session
                (session.run T 1 none false t).target
              rw [h] at hprefix
              have hnil : (session.run T 1 none false t).records = [] := by
                have hle := hprefix.length_le
                rw [List.length_append] at hle
                exact List.eq_nil_of_length_eq_zero (by omega)
              exact absurd (not_not.mp hlimit) (run_idle Int.one_pos hnil hresult).2

end Over

/-! ## The single steps -/

/-- Whether an access is to a watched byte in a watched direction. -/
def watched (session : DebugSession τ) (access : Access) : Bool :=
  ((session.watchpoints.lookup access.address).map fun kind => kind.has access).getD false

/-- The boundary about to run completes, and its accesses include a watched one. -/
def Touches (session : DebugSession τ) (t : τ) : Prop :=
  (∃ record, (session.step T t).1 = .ok record) ∧
    ∃ access ∈ T.accesses session.id (T.step (T.clear session.id t)).2, session.watched access = true

/-- The address about to run is a breakpoint. -/
def AtBreakpoint (session : DebugSession τ) (t : τ) : Prop :=
  ∃ state, T.captureState t = .ok state ∧ state.pc ∈ session.breakpoints

/-- `over` is about to run a subroutine call. -/
def OnCall (session : DebugSession τ) (t : τ) : Prop :=
  ∃ state peek instruction, T.captureState t = .ok state ∧ session.peekByte = some peek ∧
    disassemble (fun address => .ok (peek t address)) state.pc = .ok instruction ∧
      instruction.mnemonic ∈ callMnemonics

section Single
variable {T} {session session' : DebugSession τ} {t t' : τ} {record : StepRecord}

theorem touches_iff (htracking : session.tracking = true)
    (h : session.step T t = (.ok record, session', t')) :
    session.Touches T t ↔ session.watchHits record ≠ [] := by
  obtain ⟨-, -, -, -, haccesses⟩ := step_inv h
  rw [if_pos htracking] at haccesses
  rw [watchHits, haccesses, Option.getD_some, ne_eq, List.filter_eq_nil_iff]
  refine ⟨fun ⟨_, access, hmem, hwatched⟩ hnone => hnone access hmem hwatched, fun hsome => ?_⟩
  rw [not_forall] at hsome
  obtain ⟨access, hsome⟩ := hsome
  rw [Classical.not_imp, not_not] at hsome
  exact ⟨⟨record, by rw [h]⟩, access, hsome⟩

/-- A command that begins with a single step honors the watchpoints just when that step touches none. -/
theorem honors_single {executed : Executed τ} (htracking : session.tracking = true)
    (h : session.step T t = (.ok record, session', t'))
    (hrecords : [record] <+: executed.records)
    (hquiet : session.watchHits record = [] → session.Honors executed)
    (hidle : executed.records = [record] → ∀ lines, executed.lines = .ok lines →
      ∀ result, .run result ∈ lines → result.reason ≠ .watchpoint) :
    session.Honors executed ↔ ¬session.Touches T t := by
  rw [touches_iff htracking h, not_not]
  refine ⟨fun honors => ?_, hquiet⟩
  by_contra hhits
  obtain ⟨rest, hrest⟩ := hrecords
  obtain ⟨hnil, lines, hlines, result, hmem, hreason, -⟩ := honors [] record rest hrest.symm hhits
  subst hnil
  exact hidle hrest.symm lines hlines result hmem hreason

theorem continue_honors (htracking : session.tracking = true) :
    session.Honors (session.continueCommand T t) ↔ ¬(session.AtBreakpoint T t ∧ session.Touches T t) := by
  rw [continueCommand]
  cases hstate : T.captureState t with
  | error text =>
    have hnot : ¬session.AtBreakpoint T t := by
      rintro ⟨state, hcapture, -⟩
      rw [hstate] at hcapture
      cases hcapture
    refine iff_of_true (fun init record rest h => ?_) fun h => hnot h.1
    simp at h
  | ok state =>
    dsimp only
    have hat : session.AtBreakpoint T t ↔ state.pc ∈ session.breakpoints :=
      ⟨fun ⟨other, hcapture, hpc⟩ => by rwa [Except.ok.inj (hstate.symm.trans hcapture)],
        fun hpc => ⟨state, hstate, hpc⟩⟩
    by_cases hbreak : state.pc ∈ session.breakpoints
    · rw [if_pos hbreak, hat, and_iff_right hbreak]
      rcases hstep : session.step T t with ⟨text | record, session', t'⟩
      · refine iff_of_true (fun init record rest h => ?_) fun ⟨⟨record, hok⟩, _⟩ => ?_
        · simp at h
        · rw [hstep] at hok
          cases hok
      · obtain ⟨-, -, rfl, -⟩ := step_inv hstep
        dsimp only
        refine honors_single htracking hstep (List.prefix_append _ _) (fun hquiet => ?_) fun hrecords => ?_
        · have hbefore : ∀ other ∈ [record], session.watchHits other = [] := by simpa using hquiet
          have hsets : (session.recorded record).watchpoints = session.watchpoints := rfl
          exact continueRun_honors (by decide : (0 : ℤ) < 999999) hsets hbefore _
        · intro lines hlines result hmem
          rw [continueRun] at hrecords hlines
          have hnil : ((session.recorded record).run T 999999 none true t').records = [] := by
            simpa using hrecords
          cases hresult : ((session.recorded record).run T 999999 none true t').result with
          | error text =>
            rw [hresult] at hlines
            cases hlines
          | ok stopped =>
            rw [hresult] at hlines
            cases hlines
            have hlast : result = stopped := by simpa using hmem
            exact hlast ▸ (run_idle (by decide) hnil hresult).1
    · rw [if_neg hbreak, hat]
      exact iff_of_true (continueRun_honors (by decide) rfl (by simp) _) fun h => hbreak h.1

theorem withState_honors {executed : Executed τ}
    (h : ∀ init record rest, executed.records = init ++ record :: rest → session.watchHits record ≠ [] →
      rest = [] ∧ ∃ lines, executed.lines = .ok lines ∧ session.Reports record lines ∧
        T.captureState executed.target = .ok record.after) :
    session.Honors (executed.withState T) := by
  intro init record rest hrecords hhits
  obtain ⟨hrest, lines, hlines, ⟨result, hmem, hreports⟩, hcaptured⟩ := h init record rest hrecords hhits
  refine ⟨hrest, lines ++ (Line.formatState record.after).map .state, ?_, result,
    List.mem_append_left _ hmem, hreports⟩
  rw [Executed.withState]
  dsimp only
  rw [hlines, hcaptured]
  rfl

theorem withState_run {executed : Executed τ} {lines : List Line} {result : RunResult}
    (h : (executed.withState T).lines = .ok lines) (hmem : .run result ∈ lines) :
    ∃ own, executed.lines = .ok own ∧ .run result ∈ own := by
  rw [Executed.withState] at h
  dsimp only at h
  cases hown : executed.lines with
  | error text =>
    rw [hown] at h
    cases h
  | ok own =>
    rw [hown] at h
    cases hstate : T.captureState executed.target with
    | error text =>
      rw [hstate] at h
      cases h
    | ok state =>
      rw [hstate] at h
      cases h
      refine ⟨own, rfl, ?_⟩
      rcases List.mem_append.mp hmem with hmem | hmem
      · exact hmem
      · obtain ⟨text, -, heq⟩ := List.mem_map.mp hmem
        cases heq

theorem over_honors (htracking : session.tracking = true) (hcall : session.OnCall T t) :
    session.Honors (session.overCommand T t) ↔ ¬session.Touches T t := by
  obtain ⟨state, peek, instruction, hstate, hpeek, hinstruction, hmnemonic⟩ := hcall
  rw [overCommand, hstate]
  dsimp only
  rw [hpeek]
  dsimp only
  rw [hinstruction]
  dsimp only
  rw [if_neg (not_not.mpr hmnemonic)]
  rcases hstep : session.step T t with ⟨text | record, session', t'⟩
  · refine iff_of_true (fun init record rest h => ?_) fun ⟨⟨record, hok⟩, _⟩ => ?_
    · simp at h
    · rw [hstep] at hok
      cases hok
  · obtain ⟨-, -, rfl, -⟩ := step_inv hstep
    dsimp only
    refine honors_single htracking hstep (overLoop_records _ _ _ _ _ _ _) (fun hquiet => ?_) fun hrecords => ?_
    · have hbefore : ∀ other ∈ [record], session.watchHits other = [] := by simpa using hquiet
      have hsets : (session.recorded record).watchpoints = session.watchpoints := rfl
      exact withState_honors fun init other rest h hhits =>
        overLoop_hits instruction.nextAddress state.s 1000000 _ hsets hbefore h hhits
    · intro lines hlines result hmem
      obtain ⟨own, hown, hmem⟩ := withState_run hlines hmem
      exact overLoop_idle instruction.nextAddress state.s 1000000 (by simp) hrecords hown result hmem

/-- Watchpoints stop the commands `continue` and `over` at every step but the single one that gets off a
breakpoint, or that executes the call: exactly when that one touches a watched byte they do not. -/
theorem commands_honor_watchpoints (T : Target τ) (session : DebugSession τ) (t : τ)
    (htracking : session.tracking = true) :
    (session.Honors (session.continueCommand T t) ↔
        ¬(session.AtBreakpoint T t ∧ session.Touches T t)) ∧
      (session.OnCall T t → (session.Honors (session.overCommand T t) ↔ ¬session.Touches T t)) :=
  ⟨continue_honors htracking, over_honors htracking⟩

end Single

theorem not_honors {session : DebugSession τ} {executed : Executed τ}
    (hhits : executed.records.head?.any (fun record => session.watchHits record != []) = true)
    (hmore : 1 < executed.records.length) : ¬session.Honors executed := by
  intro honors
  cases hrecords : executed.records with
  | nil =>
    rw [hrecords] at hmore
    cases hmore
  | cons record rest =>
    rw [hrecords] at hhits hmore
    obtain ⟨rfl, -⟩ := honors [] record rest hrecords (by simpa using hhits)
    exact absurd hmore (lt_irrefl 1)

end DebugSession

/-! ## What the single steps miss -/

/-- A tracking session on a processor at $0200 of a flat memory, with a breakpoint there. -/
def attached (bytes : List Byte) (address : ℤ) (kind : Watch) : Bench (ℕ → Byte) :=
  let bench : Bench (ℕ → Byte) :=
    { machine := .restored (.host 0) (.host 0) (.poised 0x200 0 0 0xFF true) (Machine.holding 0x200 bytes) }
  let bench := bench.attach { peekByte := some fun memory => memory, trackAccesses := true }
  { bench with
    sessions := bench.sessions.map fun session => (session.addBreakpoint 0x200).addWatchpoint address kind }

/-- `LDA $10` and `JAM`, watching reads of $0010. -/
def loading : Bench (ℕ → Byte) := attached [0xA5, 0x10, 0x02] 0x10 .r

/-- `JSR $0204`, `JAM` and `RTS`, watching writes of $01FF. -/
def calling : Bench (ℕ → Byte) := attached [0x20, 0x04, 0x02, 0x02, 0x60] 0x1FF .w

theorem calling_onCall (session : DebugSession (Driven (ℕ → Byte))) (h : session ∈ calling.sessions) :
    session.tracking = true ∧
      session.OnCall (Driven.target .flat mos6502) { machine := calling.machine } := by
  obtain rfl := List.mem_singleton.mp h
  exact ⟨rfl, _, _, _, rfl, rfl, disassemble_eq calling.machine.host (by decide +kernel), by decide +kernel⟩

/-- Both commands go on after the watched byte was touched. -/
theorem watch_missed :
    (∃ session ∈ loading.sessions, session.tracking = true ∧
      ¬session.Honors (session.continueCommand (Driven.target .flat mos6502) { machine := loading.machine })) ∧
    ∃ session ∈ calling.sessions, session.tracking = true ∧
      session.OnCall (Driven.target .flat mos6502) { machine := calling.machine } ∧
      ¬session.Honors (session.overCommand (Driven.target .flat mos6502) { machine := calling.machine }) := by
  refine ⟨⟨_, List.mem_singleton_self _, rfl, DebugSession.not_honors ?_ ?_⟩, _,
    List.mem_singleton_self _, rfl, (calling_onCall _ (List.mem_singleton_self _)).2,
    DebugSession.not_honors ?_ ?_⟩
  · decide +kernel
  · decide +kernel
  · decide +kernel
  · decide +kernel

theorem commands_honor_watchpoints_calling :
    calling.sessions.length = 1 ∧ ∀ session ∈ calling.sessions,
      (session.Honors (session.overCommand (Driven.target .flat mos6502) { machine := calling.machine }) ↔
        ¬session.Touches (Driven.target .flat mos6502) { machine := calling.machine }) :=
  ⟨rfl, fun session h => (DebugSession.commands_honor_watchpoints (Driven.target .flat mos6502) session _
    (calling_onCall session h).1).2 (calling_onCall session h).2⟩

end SixFiveOhTwo
