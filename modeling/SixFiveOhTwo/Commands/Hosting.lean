import SixFiveOhTwo.Commands.Over
import SixFiveOhTwo.Debug.Ledger

/-! # A console is a host

Whatever line is typed at a console, all it does to the processor is what a host could have done to it, wrapped or
not: step it, call it, set its registers. The records it makes tell of those steps, and it books them in its
session (`Console.Drove`).
-/

namespace SixFiveOhTwo
open Bits Interaction Raising
set_option autoImplicit false

variable {σ : Type}

/-- What can be typed: it makes no move of the host's, changes no callable and restores no snapshot. -/
def HostAction.Typed : HostAction σ → Prop
  | .act .step | .act (.call _) | .set _ _ => True
  | _ => False

/-- A record tells what a host could tell of the step. -/
structure StepRecord.Tells (record : StepRecord) (observed : Observed) : Prop where
  before : observed.before = some record.before
  after : observed.after = some record.after
  cycles : observed.cycles = record.cycles

/-- From one console to another a host did `actions` on the processor, the steps among them are those of `records`,
and the session has booked these. -/
structure Console.Drove (H : Host σ) (chip : Chip) (console console' : Console σ) (actions : List (HostAction σ))
    (records : List StepRecord) : Prop where
  good : console'.Good
  typed : ∀ action ∈ actions, action.Typed
  bare : ∀ c, console.cpu.machine.Bare c →
    console'.cpu.machine.Bare ((Machine.hostAct H chip).final c actions) ∧
      List.Forall₂ StepRecord.Tells records (((Machine.hostAct H chip).shown c actions).filterMap Event.observed)
  id : console'.session.id = console.session.id
  originals : console'.session.originals = console.session.originals
  peekByte : console'.session.peekByte = console.session.peekByte
  historyLimit : console'.session.historyLimit = console.session.historyLimit
  books : ∀ ledger, console.session.Balanced ledger →
    console'.session.Balanced ⟨ledger.made ++ records, ledger.since ++ records⟩

/-- What a console on a good processor does. -/
def Console.Drives (H : Host σ) (chip : Chip) (console console' : Console σ) : Prop :=
  console.Good → ∃ actions records, console.Drove H chip console' actions records

namespace Console
variable {H : Host σ} {chip : Chip} {console console' console'' : Console σ} {actions actions' : List (HostAction σ)}
  {records records' : List StepRecord}

theorem Drove.refl (h : console.Good) : console.Drove H chip console [] [] where
  good := h
  typed := by simp
  bare _ hc := ⟨hc, .nil⟩
  id := rfl
  originals := rfl
  peekByte := rfl
  historyLimit := rfl
  books _ hledger := hledger.unchanged

theorem Drove.trans (h : console.Drove H chip console' actions records)
    (h' : console'.Drove H chip console'' actions' records') :
    console.Drove H chip console'' (actions ++ actions') (records ++ records') where
  good := h'.good
  typed action hmem := (List.mem_append.mp hmem).elim (h.typed action) (h'.typed action)
  bare c hc := by
    obtain ⟨hmid, htells⟩ := h.bare c hc
    obtain ⟨hend, htells'⟩ := h'.bare _ hmid
    rw [System.final_append, System.shown_append, List.filterMap_append]
    exact ⟨hend, List.rel_append htells htells'⟩
  id := h'.id.trans h.id
  originals := h'.originals.trans h.originals
  peekByte := h'.peekByte.trans h.peekByte
  historyLimit := h'.historyLimit.trans h.historyLimit
  books ledger hledger := by
    rw [← List.append_assoc, ← List.append_assoc]
    exact h'.books _ (h.books ledger hledger)

instance : Std.Refl (Drives H chip : Console σ → Console σ → Prop) := ⟨fun _ h => ⟨[], [], .refl h⟩⟩

instance : Trans (Drives H chip : Console σ → Console σ → Prop) (Drives H chip) (Drives H chip) where
  trans h h' hgood := by
    obtain ⟨actions, records, hdrove⟩ := h hgood
    obtain ⟨actions', records', hdrove'⟩ := h' hdrove.good
    exact ⟨_, _, hdrove.trans hdrove'⟩

/-- A session that changes in its sets alone does nothing to the processor. -/
theorem Drove.sets {session : DebugSession (Driven σ)} (h : console.Good)
    (hsets : session = { console.session with breakpoints := session.breakpoints, watchpoints := session.watchpoints }) :
    console.Drove H chip { console with session } [] [] := by
  have hrefl : console.Drove H chip console [] [] := .refl h
  rw [hsets]
  exact { hrefl with books := fun ledger hledger => { hrefl.books ledger hledger with } }

variable (H chip)

theorem Drove.step (h : console.Good) : ∃ record d',
    console.session.step (Driven.target H chip) console.cpu = (.ok record, console.session.recorded record, d') ∧
      console.Drove H chip ⟨console.session.recorded record, d'⟩ [.act .step] [record] := by
  obtain ⟨hsettled, hfit⟩ := h
  have hcpu := console.cpu.ready_cpu console.session
  obtain ⟨record, hstep, hbefore, hafter, -, hcycles, -⟩ :=
    Driven.session_returns H chip console.session console.cpu hsettled hfit
  refine ⟨record, _, hstep, ⟨?_, ?_⟩, by simp [HostAction.Typed], fun c hc => ?_, rfl, rfl, rfl, rfl, fun ledger hledger => ?_⟩
  · refine Machine.act_settled H chip .step _ ?_
    rw [Machine.Settled, hcpu]
    exact hsettled
  · refine Machine.act_fit H chip .step _ ?_
    rw [Machine.Fit, hcpu]
    exact hfit
  · have hready : (console.cpu.ready console.session).machine.Bare c :=
      ⟨hcpu ▸ hc.routed, hc.routed', (console.cpu.ready_opened console.session).trans hc.opened⟩
    obtain ⟨hobserved, hnext⟩ := hready.act H chip .step
    refine ⟨hnext, .cons ?_ .nil⟩
    have hsame := Option.some.inj hobserved
    rw [← hsame]
    exact ⟨hbefore, hafter, hcycles.symm⟩
  · exact hledger.recorded (DebugSession.step_sequence hstep)

theorem Drove.steps {session session' : DebugSession (Driven σ)} {d d' : Driven σ}
    (hsteps : DebugSession.Steps (Driven.target H chip) session d records session' d')
    (h : Good ⟨session, d⟩) : ∃ actions, Drove H chip ⟨session, d⟩ ⟨session', d'⟩ actions records := by
  induction hsteps with
  | done => exact ⟨[], .refl h⟩
  | step hstep _ ih =>
    obtain ⟨record, d₁, hmade, hdrove⟩ := Drove.step H chip h
    rw [hstep] at hmade
    cases hmade
    obtain ⟨actions, hrest⟩ := ih hdrove.good
    exact ⟨_, hdrove.trans hrest⟩

theorem Drove.run (h : console.Good) (maxSteps : ℤ) (maxCycles : Option ℤ) (stopOnHalt : Bool) :
    let ran := console.session.run (Driven.target H chip) maxSteps maxCycles stopOnHalt console.cpu
    ∃ actions, console.Drove H chip ⟨ran.session, ran.target⟩ actions ran.records := by
  refine DebugSession.run_keeps (T := Driven.target H chip) (J := fun session d records => ∃ actions,
    console.Drove H chip ⟨session, d⟩ actions records) ?_ ?_ maxSteps maxCycles stopOnHalt ⟨[], .refl h⟩
  · rintro session d records ⟨actions, hdrove⟩
    exact (Driven.target_reliable H chip).captures d hdrove.good
  · rintro session d records ⟨actions, hdrove⟩
    obtain ⟨record, d', hstep, hnext⟩ := Drove.step H chip hdrove.good
    exact ⟨record, d', hstep, _, hdrove.trans hnext⟩

theorem Drove.call (h : console.Good) (call : Call) :
    console.Drove H chip { console with cpu := console.cpu.act H chip (.call call) } [.act (.call call)] [] where
  good := ⟨Machine.act_settled H chip (.call call) _ h.1, Machine.act_fit H chip (.call call) _ h.2⟩
  typed := by simp [HostAction.Typed]
  bare _ hc := ⟨(hc.act H chip (.call call)).2, .nil⟩
  id := rfl
  originals := rfl
  peekByte := rfl
  historyLimit := rfl
  books _ hledger := hledger.unchanged

theorem number_natCast {value maximum : ℕ} (hle : value ≤ maximum) : number (some (value : ℤ)) maximum = some value := by
  have hrange : ¬((value : ℤ) < 0 ∨ (maximum : ℤ) < value) := by omega
  rw [number, Option.bind_some, if_neg hrange, Int.toNat_natCast]

theorem Drove.setRegister (h : console.Good) {register : Register} {value : ℕ} (hle : value ≤ register.maximum) :
    let machine := console.cpu.machine
    console.Drove H chip
      { console with cpu := { console.cpu with
        machine := { machine with cpu := machine.cpu.setRegister value register } } }
      [.set register (some value)] [] := by
  intro machine
  have hset (cpu : CPU) : cpu.set register (some value) = cpu.setRegister value register := by
    rw [CPU.set, number_natCast hle]
    rfl
  have hact (m : Machine σ) : (Machine.hostAct H chip (.set register (some value)) m).2 =
      { m with cpu := m.cpu.setRegister value register } := by
    rw [← hset]
    rfl
  refine ⟨?_, by simp [HostAction.Typed], fun c hc => ?_, rfl, rfl, rfl, rfl, fun _ hledger => hledger.unchanged⟩
  · have hsettled := Machine.hostAct_settled H chip (.set register (some value)) _ h.1
    have hfit := Machine.hostAct_fit H chip (.set register (some value)) _ h.2
    rw [hact] at hsettled hfit
    exact ⟨hsettled, hfit⟩
  · rw [System.final_cons, System.final_nil, hact]
    have hcore : machine.cpu.core = c.cpu.core := congrArg Plain.core hc.opened
    have hopened (m : Machine σ) : ({ m with cpu := m.cpu.setRegister value register } : Machine σ).opened =
        { m.opened with core := (m.cpu.setRegister value register).core } := by
      cases register <;> rfl
    refine ⟨⟨?_, ?_, ?_⟩, .nil⟩
    · exact hset machine.cpu ▸ hc.routed.set register (some value)
    · exact hset c.cpu ▸ hc.routed'.set register (some value)
    · have hopened' : machine.opened = c.opened := hc.opened
      have hset' : (machine.cpu.setRegister value register).core = (c.cpu.setRegister value register).core := by
        cases register <;> simp only [CPU.setRegister, hcore]
      rw [hopened, hopened, hopened', hset']

end Console

/-! ## Commands -/

namespace CommandDebugger
open Console
variable (H : Host σ) (chip : Chip) (lang : Language) (arguments : List String)

theorem argument_drives (n : ℕ) : (argument arguments n : Executing σ _).Moves (Drives H chip) := by
  rw [argument]
  split
  · exact moves_pure _
  · exact moves_throw _

theorem address_drives : (address lang arguments : Executing σ _).Moves (Drives H chip) :=
  (argument_drives H chip arguments 0).bind fun _ => Checks.moves fun _ => number_checks lang _ _ _

theorem captureState_drives : (captureState : Executing σ _).Moves (Drives H chip) := by
  refine moves_get.bind fun console => ?_
  cases console.cpu.captureState with
  | ok state => exact moves_pure state
  | error text => exact moves_throw _

theorem requirePeek_drives : (requirePeek : Executing σ _).Moves (Drives H chip) := by
  refine moves_get.bind fun console => ?_
  split
  · exact moves_pure _
  · exact moves_throw _

theorem stateLines_drives : (stateLines : Executing σ _).Moves (Drives H chip) :=
  (captureState_drives H chip).bind fun _ => moves_pure _

theorem update_drives (address : ℕ) {change : DebugSession (Driven σ) → DebugSession (Driven σ)}
    (hchange : ∀ session, change session = { session with
      breakpoints := (change session).breakpoints, watchpoints := (change session).watchpoints }) :
    (update address change).Moves (Drives H chip) := by
  rw [update]
  split
  · exact moves_modify fun console hgood => ⟨[], [], .sets hgood (hchange console.session)⟩
  · exact moves_throw _

theorem addBreakpoint_sets (session : DebugSession (Driven σ)) (address : ℤ) : session.addBreakpoint address =
    { session with
      breakpoints := (session.addBreakpoint address).breakpoints
      watchpoints := (session.addBreakpoint address).watchpoints } := by
  unfold DebugSession.addBreakpoint
  split <;> rfl

theorem removeBreakpoint_sets (session : DebugSession (Driven σ)) (address : ℤ) : session.removeBreakpoint address =
    { session with
      breakpoints := (session.removeBreakpoint address).breakpoints
      watchpoints := (session.removeBreakpoint address).watchpoints } := by
  unfold DebugSession.removeBreakpoint
  split <;> rfl

theorem addWatchpoint_sets (session : DebugSession (Driven σ)) (address : ℤ) (kind : Watch) :
    session.addWatchpoint address kind =
      { session with
        breakpoints := (session.addWatchpoint address kind).breakpoints
        watchpoints := (session.addWatchpoint address kind).watchpoints } := by
  unfold DebugSession.addWatchpoint
  split <;> rfl

theorem removeWatchpoint_sets (session : DebugSession (Driven σ)) (address : ℤ) : session.removeWatchpoint address =
    { session with
      breakpoints := (session.removeWatchpoint address).breakpoints
      watchpoints := (session.removeWatchpoint address).watchpoints } := by
  unfold DebugSession.removeWatchpoint
  split <;> rfl

theorem step_drives : (step H chip).Moves (Drives H chip) := by
  refine moves_of fun console hgood => ?_
  obtain ⟨record, d', hstep, hdrove⟩ := Drove.step H chip hgood
  dsimp only
  rw [hstep]
  exact ⟨_, _, hdrove⟩

theorem run_drives (maxSteps : ℕ) (maxCycles : Option ℕ) : (run H chip maxSteps maxCycles).Moves (Drives H chip) := by
  refine moves_of fun console hgood => ?_
  obtain ⟨actions, hdrove⟩ := Drove.run H chip hgood maxSteps (maxCycles.map Int.ofNat) true
  exact ⟨_, _, hdrove⟩

theorem call_drives (call : Call) : (CommandDebugger.call H chip call).Moves (Drives H chip) :=
  moves_modify fun _ hgood => ⟨_, _, .call H chip hgood call⟩

theorem atAddress_drives (name done : String) {change : ℕ → DebugSession (Driven σ) → DebugSession (Driven σ)}
    (hchange : ∀ address session, change address session = { session with
      breakpoints := (change address session).breakpoints, watchpoints := (change address session).watchpoints }) :
    (atAddress lang name done change arguments).Moves (Drives H chip) := by
  refine (Checks.moves fun _ => arity_checks name arguments 1 1).bind fun _ => ?_
  refine (address_drives H chip lang arguments).bind fun address => ?_
  exact (update_drives H chip address (hchange address)).bind fun _ => moves_pure _

theorem watchCommand_drives : (watchCommand lang arguments : Executing σ _).Moves (Drives H chip) := by
  refine (Checks.moves fun _ => arity_checks "watch" arguments 1 2).bind fun _ => ?_
  refine (address_drives H chip lang arguments).bind fun address => ?_
  refine (Checks.moves fun _ => direction_checks lang arguments).bind fun kind => ?_
  refine (Moves.raisedAs ?_).bind fun _ => moves_pure _
  refine moves_get.bind fun console => ?_
  split
  · split
    · exact update_drives H chip address fun session => addWatchpoint_sets session address _
    · exact moves_throw _
  · exact moves_throw _

theorem setCommand_drives : (setCommand lang arguments : Executing σ _).Moves (Drives H chip) := by
  refine (Checks.moves fun _ => arity_checks "set" arguments 2 2).bind fun _ => ?_
  refine (argument_drives H chip arguments 0).map.bind fun name => ?_
  split
  · exact moves_throw _
  · next register _ =>
    refine (argument_drives H chip arguments 1).bind fun text => ?_
    have hnumber (console : Console σ) :
        (number lang text name (some register.maximum)).Checks Complaint.IsCommandError _ console :=
      number_checks lang text name (some register.maximum)
    refine (Checks.moves hnumber).bind_of (Checks.yields hnumber) fun value hle => ?_
    refine (moves_modify fun console hgood => ⟨_, _, .setRegister H chip hgood (hle _ rfl)⟩ : Moves _ _).bind fun _ => ?_
    exact (stateLines_drives H chip).bind fun _ => moves_pure _

theorem disassembleCommand_drives : (disassembleCommand lang arguments : Executing σ _).Moves (Drives H chip) := by
  refine (Checks.moves fun _ => arity_checks "disassemble" arguments 0 2).bind fun _ => ?_
  refine (requirePeek_drives H chip).bind fun peek => ?_
  refine (captureState_drives H chip).bind fun state => ?_
  refine (Checks.moves fun _ => startingAt_checks lang state arguments).bind fun address => ?_
  refine (Checks.moves fun _ => positiveOr_checks lang arguments 1 "count" (some 256) 8).bind fun count => ?_
  cases instructions peek count address with
  | ok decoded => exact moves_pure _
  | error text => exact moves_throw _

theorem memoryCommand_drives : (memoryCommand lang arguments : Executing σ _).Moves (Drives H chip) := by
  refine (Checks.moves fun _ => arity_checks "memory" arguments 1 2).bind fun _ => ?_
  refine (requirePeek_drives H chip).bind fun peek => ?_
  refine (address_drives H chip lang arguments).bind fun address => ?_
  refine (Checks.moves fun _ => positiveOr_checks lang arguments 1 "length" (some 256) 16).bind fun length => ?_
  exact moves_pure _

theorem historyCommand_drives : (historyCommand lang arguments : Executing σ _).Moves (Drives H chip) := by
  refine (Checks.moves fun _ => arity_checks "history" arguments 0 1).bind fun _ => ?_
  refine (Checks.moves fun _ => positiveOr_checks lang arguments 0 "count" (some 10000) 16).bind fun count => ?_
  exact moves_get.bind fun _ => moves_pure _

theorem breakpointsCommand_drives : (breakpointsCommand arguments : Executing σ _).Moves (Drives H chip) := by
  refine (Checks.moves fun _ => arity_checks "breakpoints" arguments 0 0).bind fun _ => ?_
  exact moves_get.bind fun _ => moves_pure _

theorem stepCommand_drives : (stepCommand lang H chip arguments).Moves (Drives H chip) := by
  refine (Checks.moves fun _ => arity_checks "step" arguments 0 1).bind fun _ => ?_
  refine (Checks.moves fun _ => positiveOr_checks lang arguments 0 "count" (some 10000) 1).bind fun count => ?_
  exact (moves_mapM (fun _ => step_drives H chip) _).bind fun _ => moves_pure _

theorem runCommand_drives : (runCommand lang H chip arguments).Moves (Drives H chip) := by
  refine (Checks.moves fun _ => arity_checks "run" arguments 1 2).bind fun _ => ?_
  refine (argument_drives H chip arguments 0).bind fun text => ?_
  refine (Checks.moves fun _ => positive_checks lang text "steps" none).bind fun steps => ?_
  refine (Checks.moves fun _ => cycleLimit_checks lang arguments).bind fun cycles => ?_
  exact (run_drives H chip steps cycles).bind fun _ => moves_pure _

theorem interruptCommand_drives : (interruptCommand lang H chip arguments).Moves (Drives H chip) := by
  refine (Checks.moves fun _ => arity_checks "irq" arguments 1 1).bind fun _ => ?_
  refine (argument_drives H chip arguments 0).map.bind fun level => ?_
  split
  · exact (call_drives H chip _).bind fun _ => moves_pure _
  · split
    · exact moves_throw _
    · exact (call_drives H chip _).bind fun _ => moves_pure _

theorem nmiCommand_drives : (nmiCommand H chip arguments).Moves (Drives H chip) := by
  refine (Checks.moves fun _ => arity_checks "nmi" arguments 0 0).bind fun _ => ?_
  exact (call_drives H chip _).bind fun _ => moves_pure _

theorem resetCommand_drives : (resetCommand H chip arguments).Moves (Drives H chip) := by
  refine (Checks.moves fun _ => arity_checks "reset" arguments 0 0).bind fun _ => ?_
  refine (call_drives H chip _).bind fun _ => ?_
  refine (step_drives H chip).bind fun record => ?_
  exact (stateLines_drives H chip).bind fun _ => moves_pure _

/-! ## The commands that step as they go -/

section
variable {console : Console σ} (hgood : console.Good)
include hgood

theorem continueRun_drove (maxSteps : ℤ) (lines : List Line) (records : List StepRecord) :
    let done := console.session.continueRun (Driven.target H chip) maxSteps lines records console.cpu
    ∃ actions rest, console.Drove H chip ⟨done.session, done.target⟩ actions rest := by
  obtain ⟨actions, hdrove⟩ := Drove.run H chip hgood maxSteps none true
  exact ⟨_, _, hdrove⟩

theorem continue_drove :
    let done := console.session.continueCommand (Driven.target H chip) console.cpu
    ∃ actions records, console.Drove H chip ⟨done.session, done.target⟩ actions records := by
  intro done
  obtain ⟨state, hstate⟩ := (Driven.target_reliable H chip).captures _ hgood
  obtain ⟨record, d', hstep, hdrove⟩ := Drove.step H chip hgood
  have hdone : done = console.session.continueCommand (Driven.target H chip) console.cpu := rfl
  rw [DebugSession.continueCommand, hstate] at hdone
  dsimp only at hdone
  by_cases hbreak : state.pc ∈ console.session.breakpoints
  · rw [if_pos hbreak, hstep] at hdone
    obtain ⟨actions, rest, hrest⟩ := continueRun_drove H chip hdrove.good 999999 [.record record] [record]
    rw [hdone]
    exact ⟨_, _, hdrove.trans hrest⟩
  · rw [if_neg hbreak] at hdone
    rw [hdone]
    exact continueRun_drove H chip hgood 1000000 [] []

theorem over_drove :
    let done := console.session.overCommand (Driven.target H chip) console.cpu
    ∃ actions records, console.Drove H chip ⟨done.session, done.target⟩ actions records := by
  intro done
  obtain ⟨state, hstate⟩ := (Driven.target_reliable H chip).captures _ hgood
  obtain ⟨record, d', hstep, hdrove⟩ := Drove.step H chip hgood
  have hdone : done = console.session.overCommand (Driven.target H chip) console.cpu := rfl
  rw [DebugSession.overCommand, hstate] at hdone
  dsimp only at hdone
  cases hpeek : console.session.peekByte with
  | none =>
    rw [hpeek] at hdone
    rw [hdone]
    exact ⟨[], [], .refl hgood⟩
  | some peek =>
    rw [hpeek] at hdone
    dsimp only at hdone
    rw [disassemble_eq (peek console.cpu) state.pc_le] at hdone
    dsimp only at hdone
    split at hdone
    · rw [DebugSession.stepCommand, hstep] at hdone
      rw [hdone]
      exact ⟨_, _, hdrove⟩
    · rw [hstep] at hdone
      obtain ⟨⟨lines, hlines⟩, -⟩ := (Driven.target_reliable H chip).overLoop
        (decoded (peek console.cpu) state.pc_le).nextAddress state.s 1000000 [.record record] [record]
        (console.session.recorded record) hdrove.good
      obtain ⟨rest, said, -, -, hstops⟩ := DebugSession.overLoop_stops _ _ _ _ _ _ hlines
      obtain ⟨actions, hrest⟩ := Drove.steps H chip hstops.steps hdrove.good
      rw [hdone]
      exact ⟨_, _, hdrove.trans hrest⟩

end

theorem executed_drives {command : Target (Driven σ) → DebugSession (Driven σ) → Driven σ → Executed (Driven σ)}
    (hcommand : ∀ console : Console σ, console.Good → ∃ actions records, console.Drove H chip
      ⟨(command (Driven.target H chip) console.session console.cpu).session,
        (command (Driven.target H chip) console.session console.cpu).target⟩ actions records) :
    (executed H chip command).Moves (Drives H chip) := moves_of hcommand

theorem overCommand_drives : (overCommand H chip arguments).Moves (Drives H chip) := by
  refine (Checks.moves fun _ => arity_checks "over" arguments 0 0).bind fun _ => ?_
  refine (captureState_drives H chip).bind fun _ => ?_
  refine (requirePeek_drives H chip).bind fun _ => ?_
  exact executed_drives H chip fun console hgood => over_drove H chip hgood

theorem continueCommand_drives : (continueCommand H chip arguments).Moves (Drives H chip) := by
  refine (Checks.moves fun _ => arity_checks "continue" arguments 0 0).bind fun _ => ?_
  exact executed_drives H chip fun console hgood => continue_drove H chip hgood

theorem command_drives (name : String) : (command lang H chip name arguments).Moves (Drives H chip) := by
  unfold command
  split
  case h_1 | h_2 | h_3 => exact (Checks.moves fun _ => arity_checks _ arguments 0 0).bind fun _ => moves_pure _
  case h_4 | h_5 =>
    refine (Checks.moves fun _ => arity_checks _ arguments 0 0).bind fun _ => ?_
    exact (stateLines_drives H chip).bind fun _ => moves_pure _
  case h_6 => exact stepCommand_drives H chip lang arguments
  case h_7 => exact overCommand_drives H chip arguments
  case h_8 => exact runCommand_drives H chip lang arguments
  case h_9 => exact continueCommand_drives H chip arguments
  case h_10 => exact watchCommand_drives H chip lang arguments
  case h_11 =>
    exact atAddress_drives H chip lang arguments _ _ fun address session => removeWatchpoint_sets session address
  case h_12 => exact setCommand_drives H chip lang arguments
  case h_13 => exact interruptCommand_drives H chip lang arguments
  case h_14 => exact nmiCommand_drives H chip arguments
  case h_15 => exact resetCommand_drives H chip arguments
  case h_16 =>
    exact atAddress_drives H chip lang arguments _ _ fun address session => addBreakpoint_sets session address
  case h_17 =>
    exact atAddress_drives H chip lang arguments _ _ fun address session => removeBreakpoint_sets session address
  case h_18 => exact breakpointsCommand_drives H chip arguments
  case h_19 | h_20 => exact disassembleCommand_drives H chip lang arguments
  case h_21 => exact memoryCommand_drives H chip lang arguments
  case h_22 => exact historyCommand_drives H chip lang arguments
  case h_23 => exact moves_throw _

theorem execute_drives (line : String) : (execute lang H chip line).Moves (Drives H chip) := by
  rw [execute]
  split
  · exact moves_throw _
  · exact moves_pure _
  · exact command_drives H chip lang _ _

end CommandDebugger

end SixFiveOhTwo
