import SixFiveOhTwo.Commands.Execute
import SixFiveOhTwo.Commands.Reliable

/-! # Commands fail atomically

Every command checks all it can complain of before it acts, and what it does then raises nothing on a good
processor. So `execute` returns, or raises a `CommandError` and has changed nothing.
-/

namespace SixFiveOhTwo
open Bits Interaction Raising
set_option autoImplicit false

def Complaint.IsCommandError (raised : Complaint) : Prop := ∃ text, raised = .commandError text

def Complaint.IsValueError (raised : Complaint) : Prop := ∃ text, raised = .valueError text

theorem Complaint.IsValueError.asCommandError {raised : Complaint} (h : raised.IsValueError) :
    raised.asCommandError.IsCommandError := by
  obtain ⟨text, rfl⟩ := h
  exact ⟨text, rfl⟩

/-- The processor under a console is good. -/
def Console.Good {σ : Type} (console : Console σ) : Prop := console.cpu.Good

/-- A command that starts on a good processor returns and leaves it good, or raises a `CommandError` and leaves
everything. -/
def FailsAtomically {σ α : Type} (command : Executing σ α) : Prop :=
  ∀ console : Console σ, console.Good →
    command.Atomic Complaint.IsCommandError (fun _ console' => console'.Good) console

namespace CommandDebugger
variable {σ : Type} {console : Console σ}

/-! ## Checks -/

theorem argument_checks {arguments : List String} {n : ℕ} (h : n < arguments.length) :
    (argument arguments n).Checks Complaint.IsCommandError (fun _ => True) console := by
  rw [argument, List.getElem?_eq_getElem h]
  exact checks_pure trivial

theorem argument_map_checks (f : String → String) {arguments : List String} {n : ℕ} (h : n < arguments.length) :
    (f <$> argument arguments n).Checks Complaint.IsCommandError (fun _ => True) console :=
  (argument_checks h).map fun _ _ => trivial

theorem arity_checks (name : String) (arguments : List String) (minimum maximum : ℕ) :
    (arity name arguments minimum maximum).Checks Complaint.IsCommandError
      (fun _ => minimum ≤ arguments.length ∧ arguments.length ≤ maximum) console := by
  rw [arity]
  split
  case isTrue h => exact checks_pure h
  case isFalse => exact atomic_throw ⟨_, rfl⟩

variable (lang : Language)

theorem number_checks (text name : String) (maximum : Option ℕ) :
    (number lang text name maximum).Checks Complaint.IsCommandError (fun value => ∀ bound ∈ maximum, value ≤ bound)
      console := by
  rw [number]
  cases hparsed : parseNumber lang text name maximum with
  | ok value => exact checks_pure (parseNumber_le hparsed)
  | error complaint => exact atomic_throw ⟨_, rfl⟩

theorem positive_checks (text name : String) (maximum : Option ℕ) :
    (positive lang text name maximum).Checks Complaint.IsCommandError (fun value => 0 < value) console := by
  refine (number_checks lang text name maximum).bind fun value _ => ?_
  split
  case isTrue => exact atomic_throw ⟨_, rfl⟩
  case isFalse h => exact checks_pure (Nat.pos_of_ne_zero h)

theorem positiveOr_checks (arguments : List String) (n : ℕ) (name : String) (maximum : Option ℕ) (default : ℕ) :
    (positiveOr lang arguments n name maximum default).Checks Complaint.IsCommandError (fun _ => True) console := by
  rw [positiveOr]
  split
  case isTrue h =>
    refine (argument_checks h).bind fun text _ => ?_
    exact (positive_checks lang text name maximum).mono (fun _ _ h => ⟨h.1, trivial⟩) fun _ _ h => h
  case isFalse => exact checks_pure trivial

theorem address_checks {arguments : List String} (h : 0 < arguments.length) :
    (address lang arguments).Checks Complaint.IsCommandError (fun value => value ≤ 0xFFFF) console := by
  refine (argument_checks h).bind fun text _ => ?_
  exact (number_checks lang text "address" (some 0xFFFF)).mono (fun _ _ h => ⟨h.1, h.2 _ rfl⟩) fun _ _ h => h

theorem direction_checks (arguments : List String) :
    (direction lang arguments).Checks Complaint.IsCommandError (fun _ => True) console := by
  rw [direction]
  split
  case isTrue h => exact argument_map_checks lang.lower (by omega)
  case isFalse => exact checks_pure trivial

theorem cycleLimit_checks (arguments : List String) :
    (cycleLimit lang arguments).Checks Complaint.IsCommandError (fun limit => ∀ cycles ∈ limit, 0 < cycles) console := by
  rw [cycleLimit]
  split
  case isTrue h =>
    refine (argument_checks (by omega)).bind fun text _ => ?_
    refine (positive_checks lang text "cycles" none).map fun value hpos cycles hcycles => ?_
    exact Option.mem_some.mp hcycles ▸ hpos
  case isFalse => exact checks_pure fun _ hnone => by cases hnone

theorem startingAt_checks (state : CPUState) (arguments : List String) :
    (startingAt lang state arguments).Checks Complaint.IsCommandError (fun value => value ≤ 0xFFFF) console := by
  rw [startingAt]
  split
  case isTrue => exact checks_pure state.pc_le
  case isFalse h => exact address_checks lang (List.length_pos_iff.mpr h)

theorem requirePeek_checks :
    (requirePeek : Executing σ _).Checks Complaint.IsCommandError (fun _ => console.session.peekByte.isSome) console := by
  refine checks_get.bind fun found hfound => ?_
  subst hfound
  split
  case h_1 peek hpeek => exact checks_pure (by rw [hpeek]; rfl)
  case h_2 => exact atomic_throw ⟨_, rfl⟩

/-! ## On a good processor -/

theorem captureState_returns (h : console.Good) :
    (captureState : Executing σ _).Returns (fun _ console' => console' = console ∧ True) console := by
  refine returns_get.bind fun found console' ⟨hsame, hfound⟩ => ?_
  subst hsame hfound
  obtain ⟨state, hstate⟩ := Option.isSome_iff_exists.mp (CPU.captureState_isSome h.2.2)
  rw [Driven.captureState, hstate]
  exact returns_pure ⟨rfl, trivial⟩

theorem captureState_checks (h : console.Good) :
    (captureState : Executing σ _).Checks Complaint.IsCommandError (fun _ => True) console :=
  (captureState_returns h).atomic

theorem stateLines_returns (h : console.Good) :
    (stateLines : Executing σ _).Returns (fun _ console' => console'.Good) console := by
  refine (captureState_returns h).bind fun _ console' ⟨hsame, _⟩ => ?_
  subst hsame
  exact returns_pure h

theorem update_returns (h : console.Good) {address : ℕ} (hle : address ≤ 0xFFFF)
    (change : DebugSession (Driven σ) → DebugSession (Driven σ)) :
    (update address change).Returns (fun _ console' => console'.Good) console := by
  have hvalid : DebugSession.validateAddress address = some address := by
    rw [DebugSession.validateAddress, if_pos ⟨Int.natCast_nonneg address, by omega⟩, Int.toNat_natCast]
  rw [update, hvalid]
  exact returns_modify h

theorem addWatchpoint_atomic (h : console.Good) {address : ℕ} (hle : address ≤ 0xFFFF) (kind : String) :
    (addWatchpoint address kind).Atomic Complaint.IsValueError (fun _ console' => console'.Good) console := by
  refine checks_get.bind fun found hfound => ?_
  subst hfound
  split
  · split
    · exact (update_returns h hle _).atomic
    · exact atomic_throw ⟨_, rfl⟩
  · exact atomic_throw ⟨_, rfl⟩

section
variable (H : Host σ) (chip : Chip) (h : console.Good)
include h

theorem step_returns : (step H chip).Returns (fun _ console' => console'.Good) console := by
  obtain ⟨record, d', hstep, hd'⟩ := (Driven.target_reliable H chip).steps console.session console.cpu h
  rw [step]
  refine returns_of (a := record) ?_ ?_
  · rw [hstep]
    rfl
  · rw [hstep]
    exact hd'

theorem run_returns {maxSteps : ℕ} (hsteps : 0 < maxSteps) {maxCycles : Option ℕ}
    (hcycles : ∀ cycles ∈ maxCycles, 0 < cycles) :
    (run H chip maxSteps maxCycles).Returns (fun _ console' => console'.Good) console := by
  have hpositive : ∀ cycles ∈ maxCycles.map Int.ofNat, 0 < cycles := by
    intro cycles hmem
    obtain ⟨limit, hlimit, rfl⟩ := Option.mem_map.mp hmem
    exact Int.natCast_pos.mpr (hcycles limit hlimit)
  obtain ⟨⟨result, hresult⟩, hgood⟩ := (Driven.target_reliable H chip).run (Int.natCast_pos.mpr hsteps) hpositive true
    console.session h
  rw [run]
  refine returns_of (a := result) ?_ hgood
  dsimp only
  rw [hresult]
  rfl

omit h in
theorem executed_returns
    {command : Target (Driven σ) → DebugSession (Driven σ) → Driven σ → Executed (Driven σ)}
    (hreturned : (command (Driven.target H chip) console.session console.cpu).Returned Driven.Good) :
    (executed H chip command).Returns (fun _ console' => console'.Good) console := by
  obtain ⟨⟨lines, hlines⟩, hgood⟩ := hreturned
  rw [executed]
  refine returns_of (a := { lines := lines.map Line.text }) ?_ hgood
  dsimp only
  rw [hlines]
  rfl

theorem call_returns (call : Call) :
    (CommandDebugger.call H chip call).Returns (fun _ console' => console'.Good) console :=
  returns_modify ⟨Machine.act_settled H chip (.call call) _ h.1, Machine.act_fit H chip (.call call) _ h.2⟩

end

theorem setRegister_returns (h : console.Good) {register : Register} {value : ℕ} (hle : value ≤ register.maximum) :
    (setRegister register value).Returns (fun _ console' => console'.Good) console := by
  obtain ⟨⟨hrouted, hextra⟩, -, hvalid⟩ := h
  have hset : (console.cpu.machine.cpu.setRegister value register).Routed ∧
      (console.cpu.machine.cpu.setRegister value register).core.extra = 0 := by
    cases register <;> exact ⟨⟨hrouted.agrees, hrouted.unconfirmed⟩, hextra⟩
  exact returns_modify ⟨hset, hset.1, CPU.setRegister_valid hvalid hle⟩

theorem instructions_ok (memory : ℕ → Byte) (count : ℕ) {address : ℕ} (hle : address ≤ 0xFFFF) :
    ∃ decoded, instructions memory count address = .ok decoded := by
  induction count generalizing address with
  | zero => exact ⟨[], rfl⟩
  | succ count ih =>
    have hnext : (decoded memory hle).nextAddress ≤ 0xFFFF := Nat.and_le_right
    obtain ⟨rest, hrest⟩ := ih hnext
    refine ⟨decoded memory hle :: rest, ?_⟩
    rw [instructions, disassemble_eq memory hle]
    simp only [bind, Except.bind, hrest]
    rfl

/-! ## The commands -/

section
variable (arguments : List String)

theorem atAddress_atomic (name done : String) (change : ℕ → DebugSession (Driven σ) → DebugSession (Driven σ)) :
    FailsAtomically (atAddress lang name done change arguments) := by
  intro console h
  refine (arity_checks name arguments 1 1).bind fun _ harity => ?_
  refine (address_checks lang harity.1).bind fun address hle => ?_
  exact ((update_returns h hle _).bind fun _ _ h => returns_pure h).atomic

theorem watchCommand_atomic : FailsAtomically (watchCommand lang arguments : Executing σ _) := by
  intro console h
  refine (arity_checks "watch" arguments 1 2).bind fun _ harity => ?_
  refine (address_checks lang harity.1).bind fun address hle => ?_
  refine (direction_checks lang arguments).bind fun kind _ => ?_
  have hadded := (addWatchpoint_atomic h hle kind).raisedAs fun _ => Complaint.IsValueError.asCommandError
  exact hadded.bind fun _ _ h => returns_pure h

theorem setCommand_atomic : FailsAtomically (setCommand lang arguments : Executing σ _) := by
  intro console h
  refine (arity_checks "set" arguments 2 2).bind fun _ harity => ?_
  refine (argument_map_checks lang.upper (by omega)).bind fun name _ => ?_
  split
  case h_1 => exact atomic_throw ⟨_, rfl⟩
  case h_2 register _ =>
    refine (argument_checks (by omega)).bind fun text _ => ?_
    refine (number_checks lang text name (some register.maximum)).bind fun value hle => ?_
    refine ((setRegister_returns h (hle _ rfl)).bind fun _ _ h => ?_).atomic
    exact (stateLines_returns h).bind fun _ _ h => returns_pure h

theorem disassembleCommand_atomic : FailsAtomically (disassembleCommand lang arguments : Executing σ _) := by
  intro console h
  refine (arity_checks "disassemble" arguments 0 2).bind fun _ _ => ?_
  refine requirePeek_checks.bind fun peek _ => ?_
  refine (captureState_checks h).bind fun state _ => ?_
  refine (startingAt_checks lang state arguments).bind fun address hle => ?_
  refine (positiveOr_checks lang arguments 1 "count" (some 256) 8).bind fun count _ => ?_
  obtain ⟨decoded, hdecoded⟩ := instructions_ok peek count hle
  rw [hdecoded]
  exact Atomic.bind (atomic_pure h) fun _ _ h => returns_pure h

theorem memoryCommand_atomic : FailsAtomically (memoryCommand lang arguments : Executing σ _) := by
  intro console h
  refine (arity_checks "memory" arguments 1 2).bind fun _ harity => ?_
  refine requirePeek_checks.bind fun peek _ => ?_
  refine (address_checks lang harity.1).bind fun address _ => ?_
  refine (positiveOr_checks lang arguments 1 "length" (some 256) 16).bind fun length _ => ?_
  exact atomic_pure h

theorem historyCommand_atomic : FailsAtomically (historyCommand lang arguments : Executing σ _) := by
  intro console h
  refine (arity_checks "history" arguments 0 1).bind fun _ _ => ?_
  refine (positiveOr_checks lang arguments 0 "count" (some 10000) 16).bind fun count _ => ?_
  exact checks_get.bind fun _ _ => atomic_pure h

theorem breakpointsCommand_atomic : FailsAtomically (breakpointsCommand arguments : Executing σ _) := by
  intro console h
  refine (arity_checks "breakpoints" arguments 0 0).bind fun _ _ => ?_
  exact checks_get.bind fun _ _ => atomic_pure h

variable (H : Host σ) (chip : Chip)

theorem stepCommand_atomic : FailsAtomically (stepCommand lang H chip arguments) := by
  intro console h
  refine (arity_checks "step" arguments 0 1).bind fun _ _ => ?_
  refine (positiveOr_checks lang arguments 0 "count" (some 10000) 1).bind fun count _ => ?_
  have hsteps : ((List.range count).mapM fun _ => step H chip).Returns (fun _ console' => console'.Good) console :=
    returns_mapM (fun _ _ h => step_returns H chip h) _ h
  exact (hsteps.bind fun _ _ h => returns_pure h).atomic

theorem overCommand_atomic : FailsAtomically (overCommand H chip arguments) := by
  intro console h
  refine (arity_checks "over" arguments 0 0).bind fun _ _ => ?_
  refine (captureState_checks h).bind fun _ _ => ?_
  refine requirePeek_checks.bind fun _ hpeek => ?_
  obtain ⟨peek, hpeek⟩ := Option.isSome_iff_exists.mp hpeek
  exact (executed_returns H chip ((Driven.target_reliable H chip).overCommand console.session hpeek h)).atomic

theorem continueCommand_atomic : FailsAtomically (continueCommand H chip arguments) := by
  intro console h
  refine (arity_checks "continue" arguments 0 0).bind fun _ _ => ?_
  exact (executed_returns H chip ((Driven.target_reliable H chip).continueCommand console.session h)).atomic

theorem runCommand_atomic : FailsAtomically (runCommand lang H chip arguments) := by
  intro console h
  refine (arity_checks "run" arguments 1 2).bind fun _ harity => ?_
  refine (argument_checks harity.1).bind fun text _ => ?_
  refine (positive_checks lang text "steps" none).bind fun steps hsteps => ?_
  refine (cycleLimit_checks lang arguments).bind fun cycles hcycles => ?_
  exact ((run_returns H chip h hsteps hcycles).bind fun _ _ h => returns_pure h).atomic

theorem interruptCommand_atomic : FailsAtomically (interruptCommand lang H chip arguments) := by
  intro console h
  refine (arity_checks "irq" arguments 1 1).bind fun _ harity => ?_
  refine (argument_map_checks lang.lower harity.1).bind fun level _ => ?_
  split
  · exact ((call_returns H chip h _).bind fun _ _ h => returns_pure h).atomic
  · split
    · exact atomic_throw ⟨_, rfl⟩
    · exact ((call_returns H chip h _).bind fun _ _ h => returns_pure h).atomic

theorem nmiCommand_atomic : FailsAtomically (nmiCommand H chip arguments) := by
  intro console h
  refine (arity_checks "nmi" arguments 0 0).bind fun _ _ => ?_
  exact ((call_returns H chip h _).bind fun _ _ h => returns_pure h).atomic

theorem resetCommand_atomic : FailsAtomically (resetCommand H chip arguments) := by
  intro console h
  refine (arity_checks "reset" arguments 0 0).bind fun _ _ => ?_
  refine ((call_returns H chip h _).bind fun _ _ h => ?_).atomic
  refine (step_returns H chip h).bind fun _ _ h => ?_
  exact (stateLines_returns h).bind fun _ _ h => returns_pure h

theorem command_atomic (name : String) : FailsAtomically (command lang H chip name arguments) := by
  intro console h
  unfold command
  split
  case h_1 | h_2 | h_3 => exact (arity_checks _ arguments 0 0).bind fun _ _ => atomic_pure h
  case h_4 | h_5 =>
    refine (arity_checks _ arguments 0 0).bind fun _ _ => ?_
    exact ((stateLines_returns h).bind fun _ _ h => returns_pure h).atomic
  case h_6 => exact stepCommand_atomic lang arguments H chip console h
  case h_7 => exact overCommand_atomic arguments H chip console h
  case h_8 => exact runCommand_atomic lang arguments H chip console h
  case h_9 => exact continueCommand_atomic arguments H chip console h
  case h_10 => exact watchCommand_atomic lang arguments console h
  case h_11 => exact atAddress_atomic lang arguments _ _ _ console h
  case h_12 => exact setCommand_atomic lang arguments console h
  case h_13 => exact interruptCommand_atomic lang arguments H chip console h
  case h_14 => exact nmiCommand_atomic arguments H chip console h
  case h_15 => exact resetCommand_atomic arguments H chip console h
  case h_16 | h_17 => exact atAddress_atomic lang arguments _ _ _ console h
  case h_18 => exact breakpointsCommand_atomic arguments console h
  case h_19 | h_20 => exact disassembleCommand_atomic lang arguments console h
  case h_21 => exact memoryCommand_atomic lang arguments console h
  case h_22 => exact historyCommand_atomic lang arguments console h
  case h_23 => exact atomic_throw ⟨_, rfl⟩

end

/-- Whatever the line: `execute` returns, or raises a `CommandError` and leaves everything. -/
theorem execute_atomic (H : Host σ) (chip : Chip) (line : String) : FailsAtomically (execute lang H chip line) := by
  intro console h
  rw [execute]
  split
  · exact atomic_throw ⟨_, rfl⟩
  · exact atomic_pure h
  · exact command_atomic lang _ H chip _ console h

end CommandDebugger

/-! ## At every prompt -/

/-- What is done with a processor and its sessions: what a schedule does, what a host does, or a line for the
session at this place. -/
inductive Usage (σ : Type)
  | bench (command : Command σ)
  | host (action : HostAction σ)
  | line (place : ℕ) (text : String)

namespace Usage
variable {σ : Type} (lang : Language) (H : Host σ) (chip : Chip)

/-- The effect of a use, and what a line came to. -/
def act : System (Usage σ) (Bench σ) (Option (Except Complaint CommandResult))
  | .bench command, b => (none, (Bench.act H chip command b).2)
  | .host action, b => (none, { b with machine := (Machine.hostAct H chip action b.machine).2 })
  | .line place text, b =>
    match b.sessions[place]? with
    | none => (none, b)
    | some session =>
      let done := (CommandDebugger.execute lang H chip text).on ⟨session, { machine := b.machine }⟩
      (some done.1, { b with
        machine := done.2.cpu.machine
        sessions := b.sessions.set place done.2.session })

theorem bench_good (command : Command σ) (b : Bench σ) (h : Driven.Good { machine := b.machine }) :
    Driven.Good { machine := (Bench.act H chip command b).2.machine } := by
  have hcallables {m : Machine σ} (readByte writeByte : Callable) (h : Driven.Good { machine := m }) :
      Driven.Good { machine := { m with cpu := (m.cpu.setReadByte readByte).setWriteByte writeByte } } := by
    have hrouted := (h.1.1.setReadByte readByte).setWriteByte writeByte
    exact ⟨⟨hrouted, h.1.2⟩, hrouted, h.2.2⟩
  cases command with
  | act action => exact ⟨Machine.act_settled H chip action _ h.1, Machine.act_fit H chip action _ h.2⟩
  | attach options =>
    rw [Bench.act, Bench.attach]
    dsimp only
    split
    · exact hcallables _ _ h
    · exact h
  | close =>
    rw [Bench.act, Bench.close]
    split
    · exact hcallables _ _ h
    · exact h
  | session place command =>
    rw [Bench.act]
    split
    · exact h
    · exact (Driven.target_reliable H chip).perform _ command h

theorem act_good (use : Usage σ) (b : Bench σ) (h : Driven.Good { machine := b.machine }) :
    Driven.Good { machine := (act lang H chip use b).2.machine } := by
  cases use with
  | bench command => exact bench_good H chip command b h
  | host action => exact ⟨Machine.hostAct_settled H chip action _ h.1, Machine.hostAct_fit H chip action _ h.2⟩
  | line place text =>
    rw [act]
    split
    · exact h
    · next session _ =>
      rcases CommandDebugger.execute_atomic lang H chip text ⟨session, { machine := b.machine }⟩ h with
        ⟨result, console, hon, hgood⟩ | ⟨raised, console, hon, hsame, -⟩
      · rw [hon]
        exact hgood
      · rw [hon, hsame]
        exact h

end Usage

/-- A line returned; or it raised a `CommandError`, and the session and the processor are what they were. -/
def Console.Atomic {σ : Type} (console : Console σ) (done : Except Complaint CommandResult × Console σ) : Prop :=
  (∃ result, done.1 = .ok result) ∨ ∃ text, done = (.error (.commandError text), console)

namespace CommandDebugger
variable {σ : Type}

/-- **Commands fail atomically.** Whatever was done with a constructed processor and its sessions, and whatever
the line, on any host, for any session, with a memory to peek at or none: `execute` returns, or it raises a
`CommandError` and has changed nothing. -/
theorem execute_fails_atomically (lang : Language) (H : Host σ) (chip : Chip) (readByte writeByte : Callable)
    (host : σ) (uses : List (Usage σ)) (session : DebugSession (Driven σ)) (line : String) :
    let b := (Usage.act lang H chip).final { machine := .start readByte writeByte host } uses
    Console.Atomic ⟨session, { machine := b.machine }⟩
      ((execute lang H chip line).on ⟨session, { machine := b.machine }⟩) := by
  intro b
  have hstart : Driven.Good { machine := Machine.start readByte writeByte host } :=
    ⟨⟨.init readByte writeByte, rfl⟩, Machine.start_fit readByte writeByte host⟩
  have hgood : Driven.Good { machine := b.machine } :=
    System.final_preserves (I := fun b : Bench σ => Driven.Good { machine := b.machine })
      (fun use b h => Usage.act_good lang H chip use b h) hstart uses
  rcases execute_atomic lang H chip line ⟨session, { machine := b.machine }⟩ hgood with
    ⟨result, console, hon, -⟩ | ⟨raised, console, hon, hsame, text, htext⟩
  · exact .inl ⟨result, congrArg Prod.fst hon⟩
  · exact .inr ⟨text, by rw [hon, hsame, htext]⟩

/-- Words apart at blanks, in ASCII, with decimal numbers. -/
def blanks : Language where
  split line := .ok (((line.toList.splitOn ' ').filter (· ≠ [])).map String.ofList)
  lower text := String.ofList (text.toList.map Char.toLower)
  upper text := String.ofList (text.toList.map Char.toUpper)
  int text base :=
    if base = 0 ∧ text.toList ≠ [] ∧ text.toList.all Char.isDigit then
      some (text.toList.foldl (fun value digit => 10 * value + (digit.toNat - '0'.toNat)) 0 : ℕ)
    else none

/-- A session on a constructed processor in a memory of zeros. -/
def prompt : Console (ℕ → Byte) where
  session := { id := 0, peekByte := some fun d => d.machine.host }
  cpu := { machine := .start (.host 0) (.host 0) fun _ => 0 }

example : ((execute blanks .flat mos6502 "s 0").on prompt).1 = .error (.commandError "count must be positive") := rfl

end CommandDebugger

end SixFiveOhTwo
