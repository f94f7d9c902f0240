import Mathlib.Data.Finset.Sort
import SixFiveOhTwo.Debug.Console
import SixFiveOhTwo.Interaction.Raising

/-! # The command debugger (`console.py`)

`CommandDebugger.execute` splits a line, looks its first word up, and lets that command check its arguments
and act on the session and the processor. What a command has done stays done when it raises, so where its
checks stand is part of the model.
-/

namespace SixFiveOhTwo
open Bits Interaction
set_option autoImplicit false

/-- What the commands use of their language: `shlex.split`, which splits a line or raises a `ValueError`;
`str.lower`; `str.upper`; and `int(text, base)`, `none` where it raises a `ValueError`. -/
structure Language where
  split : String → Except String (List String)
  lower : String → String
  upper : String → String
  int : String → ℕ → Option ℤ

/-- What `int` makes of a number: `$` begins a hexadecimal one. -/
def Language.number (lang : Language) (text : String) : Option ℤ :=
  match text.toList with
  | '$' :: digits => lang.int (String.ofList digits) 16
  | _ => lang.int text 0

/-- `parse_number`: the number, or the text of the `CommandError`. -/
def parseNumber (lang : Language) (text name : String) (maximum : Option ℕ) : Except String ℕ :=
  match lang.number text with
  | none => .error (name ++ " must be an integer")
  | some value =>
    if value < 0 ∨ maximum.any (fun (bound : ℕ) => (bound : ℤ) < value) then
      let suffix := (maximum.map fun bound => " in range 0.." ++ toString bound).getD " non-negative"
      .error (name ++ " must be" ++ suffix)
    else .ok value.toNat

theorem parseNumber_le {lang : Language} {text name : String} {maximum : Option ℕ} {value : ℕ}
    (h : parseNumber lang text name maximum = .ok value) : ∀ bound ∈ maximum, value ≤ bound := by
  intro bound hbound
  unfold parseNumber at h
  split at h
  · cases h
  · next parsed _ =>
    split at h
    · cases h
    · next hrange =>
      cases h
      have hle : ¬((bound : ℤ) < parsed) := by simpa [Option.mem_def.mp hbound] using (not_or.mp hrange).2
      omega

/-- What is raised: a `CommandError`, another `ValueError`, or an `IndexError`. -/
inductive Complaint
  | commandError (text : String)
  | valueError (text : String)
  | indexError
  deriving DecidableEq, Repr

/-- A `CommandError` of the text of any `ValueError`. -/
def Complaint.asCommandError : Complaint → Complaint
  | commandError text | valueError text => commandError text
  | indexError => indexError

/-- `CommandResult`. -/
structure CommandResult where
  lines : List String := []
  quit : Bool := false
  deriving DecidableEq, Repr

/-- A session and the processor it drives. -/
structure Console (σ : Type) where
  session : DebugSession (Driven σ)
  cpu : Driven σ

/-- What a command does to them. -/
abbrev Executing (σ : Type) : Type → Type := Raising Complaint (Console σ)

/-- The directions as their texts. -/
def Watch.value : Watch → String
  | r => "r"
  | w => "w"
  | rw => "rw"

namespace CommandDebugger
variable {σ : Type}

/-! ## Checks -/

def ofExcept {α : Type} : Except String α → Executing σ α
  | .ok a => pure a
  | .error text => throw (.valueError text)

/-- `arguments[n]`. -/
def argument (arguments : List String) (n : ℕ) : Executing σ String :=
  match arguments[n]? with
  | some text => pure text
  | none => throw .indexError

/-- `_arity`. -/
def arity (name : String) (arguments : List String) (minimum maximum : ℕ) : Executing σ Unit :=
  if minimum ≤ arguments.length ∧ arguments.length ≤ maximum then pure ()
  else
    let expected := if minimum = maximum then toString minimum else toString minimum ++ ".." ++ toString maximum
    throw (.commandError (name ++ " expects " ++ expected ++ " argument(s)"))

/-- `_number`. -/
def number (lang : Language) (text name : String) (maximum : Option ℕ) : Executing σ ℕ :=
  match parseNumber lang text name maximum with
  | .ok value => pure value
  | .error complaint => throw (.commandError complaint)

/-- `_positive`. -/
def positive (lang : Language) (text name : String) (maximum : Option ℕ) : Executing σ ℕ := do
  let value ← number lang text name maximum
  if value = 0 then throw (.commandError (name ++ " must be positive")) else pure value

/-- A positive number where there is an argument for it. -/
def positiveOr (lang : Language) (arguments : List String) (n : ℕ) (name : String) (maximum : Option ℕ)
    (default : ℕ) : Executing σ ℕ :=
  if n < arguments.length then do
    let text ← argument arguments n
    positive lang text name maximum
  else pure default

/-- An address argument. -/
def address (lang : Language) (arguments : List String) : Executing σ ℕ := do
  let text ← argument arguments 0
  number lang text "address" (some 0xFFFF)

/-- `_require_peek`. -/
def requirePeek : Executing σ (ℕ → Byte) := do
  let console ← get
  match console.session.peekByte with
  | some peek => pure (peek console.cpu)
  | none => throw (.commandError "this session has no side-effect-free peek capability")

/-! ## The session and the processor -/

/-- The session's sets, changed at an address that it validates. -/
def update (address : ℕ) (change : DebugSession (Driven σ) → DebugSession (Driven σ)) : Executing σ PUnit :=
  match DebugSession.validateAddress address with
  | some _ => modify fun console => { console with session := change console.session }
  | none => throw (.valueError "address must be an integer in range 0x0000..0xFFFF")

/-- `session.add_watchpoint`, given a text. -/
def addWatchpoint (address : ℕ) (kind : String) : Executing σ PUnit := do
  let console ← get
  if console.session.tracking then
    match [Watch.r, .w, .rw].find? fun watch => watch.value == kind with
    | some watch => update address fun session => session.addWatchpoint address watch
    | none => throw (.valueError "kind must be \"r\", \"w\" or \"rw\"")
  else throw (.valueError "watchpoints need a session created with track_accesses=True")

/-- `session.target.capture_state()`. -/
def captureState : Executing σ CPUState := do
  let console ← get
  ofExcept console.cpu.captureState

/-- `format_state` of what is captured. -/
def stateLines : Executing σ (List String) := do
  let state ← captureState
  pure (Line.formatState state)

section
variable (H : Host σ) (chip : Chip)

/-- `session.step()`. -/
def step : Executing σ StepRecord := .of fun console =>
  let stepped := console.session.step (Driven.target H chip) console.cpu
  (stepped.1.mapError .valueError, ⟨stepped.2.1, stepped.2.2⟩)

/-- `session.run(max_steps=..., max_cycles=...)`. -/
def run (maxSteps : ℕ) (maxCycles : Option ℕ) : Executing σ RunResult := .of fun console =>
  let ran := console.session.run (Driven.target H chip) maxSteps (maxCycles.map Int.ofNat) true console.cpu
  (ran.result.mapError .valueError, ⟨ran.session, ran.target⟩)

/-- A command that steps as it goes. -/
def executed (command : Target (Driven σ) → DebugSession (Driven σ) → Driven σ → Executed (Driven σ)) :
    Executing σ CommandResult := .of fun console =>
  let done := command (Driven.target H chip) console.session console.cpu
  ((done.lines.map fun lines => { lines := lines.map Line.text }).mapError .valueError,
    ⟨done.session, done.target⟩)

/-- A call on the processor. -/
def call (call : Call) : Executing σ PUnit :=
  modify fun console => { console with cpu := console.cpu.act H chip (.call call) }

end

/-- `set_register`. -/
def setRegister (register : Register) (value : ℕ) : Executing σ PUnit := modify fun console =>
  let machine := console.cpu.machine
  { console with cpu := { console.cpu with machine := { machine with cpu := machine.cpu.setRegister value register } } }

/-! ## The commands -/

/-- `_ALIASES`. -/
def aliases : List (String × String) := [
  ("?", "help"), ("r", "registers"), ("s", "step"), ("o", "over"), ("c", "continue"), ("b", "break"),
  ("d", "disassemble"), ("m", "memory"), ("q", "quit")]

/-- `_REGISTERS`, whose widths are `Register.maximum`. -/
def registers : List (String × Register) := [
  ("A", .a), ("X", .x), ("Y", .y), ("S", .s), ("P", .p), ("PC", .pc)]

/-- `_HELP`. -/
def helpLines : List String := [
  "help | ?                     Show this command summary",
  "registers | regs | r         Show CPU registers and lifecycle state",
  "step [COUNT] | s             Execute one or more boundaries (ignores breakpoints)",
  "over | o                     Step, running a JSR through to its return",
  "run STEPS [CYCLES]           Run with finite step and optional cycle limits",
  "continue | c                 Run up to 1,000,000 steps, off a breakpoint if on one",
  "break ADDRESS | b            Add an execute breakpoint",
  "delete ADDRESS               Remove an execute breakpoint",
  "breakpoints                  List breakpoints and watchpoints",
  "watch ADDRESS [r|w|rw]       Stop after a step that touches the byte at ADDRESS",
  "unwatch ADDRESS              Remove a watchpoint",
  "disassemble [ADDRESS] [COUNT] | d  Decode instructions without side effects",
  "memory ADDRESS [LENGTH] | m  Display up to 256 bytes",
  "history [COUNT]              Show retained step records",
  "set REGISTER VALUE           Set A X Y S P PC",
  "irq on | irq off             Assert or release the IRQ line (a level)",
  "nmi | reset                  Latch an NMI edge, or run the reset sequence",
  "quit | exit | q              Leave the command loop",
  "Numbers are decimal; 0x1234 or $1234 is hexadecimal."]

section
variable (lang : Language)

/-- The commands that change one of the session's sets at an address. -/
def atAddress (name done : String) (change : ℕ → DebugSession (Driven σ) → DebugSession (Driven σ))
    (arguments : List String) : Executing σ CommandResult := do
  arity name arguments 1 1
  let address ← address lang arguments
  update address (change address)
  pure { lines := [done ++ hex 4 address] }

def breakCommand : List String → Executing σ CommandResult :=
  atAddress lang "break" "breakpoint added at " fun address session => session.addBreakpoint address

def deleteCommand : List String → Executing σ CommandResult :=
  atAddress lang "delete" "breakpoint removed from " fun address session => session.removeBreakpoint address

def unwatchCommand : List String → Executing σ CommandResult :=
  atAddress lang "unwatch" "watchpoint removed from " fun address session => session.removeWatchpoint address

/-- The direction `watch` is given. -/
def direction (arguments : List String) : Executing σ String :=
  if arguments.length = 2 then lang.lower <$> argument arguments 1 else pure "rw"

/-- `watch`: the session's own complaints become the console's. -/
def watchCommand (arguments : List String) : Executing σ CommandResult := do
  arity "watch" arguments 1 2
  let address ← address lang arguments
  let kind ← direction lang arguments
  (addWatchpoint address kind).raisedAs Complaint.asCommandError
  pure { lines := ["watchpoint added at " ++ hex 4 address ++ " (" ++ kind ++ ")"] }

/-- `_set`. -/
def setCommand (arguments : List String) : Executing σ CommandResult := do
  arity "set" arguments 2 2
  let name ← lang.upper <$> argument arguments 0
  match registers.lookup name with
  | none =>
    throw (.commandError ("no register " ++ name ++ "; set takes " ++ " ".intercalate (registers.map Prod.fst)))
  | some register => do
    let text ← argument arguments 1
    let value ← number lang text name (some register.maximum)
    setRegister register value
    let lines ← stateLines
    pure { lines }

/-- The instructions from an address on. -/
def instructions (memory : ℕ → Byte) : (count address : ℕ) → Except String (List Instruction)
  | 0, _ => .ok []
  | count + 1, address => do
    let instruction ← disassemble (fun a => .ok (memory a)) address
    let rest ← instructions memory count instruction.nextAddress
    pure (instruction :: rest)

/-- Where `disassemble` begins: at the program counter, unless it is told. -/
def startingAt (state : CPUState) (arguments : List String) : Executing σ ℕ :=
  if arguments = [] then pure state.pc else address lang arguments

/-- `_disassemble`. -/
def disassembleCommand (arguments : List String) : Executing σ CommandResult := do
  arity "disassemble" arguments 0 2
  let peek ← requirePeek
  let state ← captureState
  let address ← startingAt lang state arguments
  let count ← positiveOr lang arguments 1 "count" (some 256) 8
  let decoded ← ofExcept (instructions peek count address)
  pure { lines := decoded.map Line.formatInstruction }

/-- A row of `memory`: the bytes from an address on. -/
def row (memory : ℕ → Byte) (address length : ℕ) : String :=
  hex 4 address ++ "  " ++
    " ".intercalate ((List.range length).map fun column => hex 2 (memory ((address + column) &&& 0xFFFF)))

/-- `_memory`. -/
def memoryCommand (arguments : List String) : Executing σ CommandResult := do
  arity "memory" arguments 1 2
  let peek ← requirePeek
  let address ← address lang arguments
  let length ← positiveOr lang arguments 1 "length" (some 256) 16
  let rows := (List.range ((length + 15) / 16)).map fun index =>
    row peek ((address + 16 * index) &&& 0xFFFF) (min 16 (length - 16 * index))
  pure { lines := rows }

/-- `_history`. -/
def historyCommand (arguments : List String) : Executing σ CommandResult := do
  arity "history" arguments 0 1
  let count ← positiveOr lang arguments 0 "count" (some 10000) 16
  let console ← get
  let records := console.session.history
  let lines := (records.drop (records.length - count)).map Line.formatRecord
  pure { lines := if lines = [] then ["history empty"] else lines }

/-- `breakpoints`. -/
def breakpointsCommand (arguments : List String) : Executing σ CommandResult := do
  arity "breakpoints" arguments 0 0
  let console ← get
  let lines := (console.session.breakpoints.sort (· ≤ ·)).map (hex 4) ++
    (console.session.watchpoints.mergeSort fun entry other => entry.1 ≤ other.1).map fun entry =>
      "watch " ++ hex 4 entry.1 ++ " " ++ entry.2.value
  pure { lines := if lines = [] then ["no breakpoints"] else lines }

section
variable (H : Host σ) (chip : Chip)

/-- `_step`. -/
def stepCommand (arguments : List String) : Executing σ CommandResult := do
  arity "step" arguments 0 1
  let count ← positiveOr lang arguments 0 "count" (some 10000) 1
  let records ← (List.range count).mapM fun _ => step H chip
  pure { lines := records.map Line.formatRecord }

/-- `_over`. -/
def overCommand (arguments : List String) : Executing σ CommandResult := do
  arity "over" arguments 0 0
  let _ ← captureState
  let _ ← requirePeek
  executed H chip DebugSession.overCommand

/-- `_continue`. -/
def continueCommand (arguments : List String) : Executing σ CommandResult := do
  arity "continue" arguments 0 0
  executed H chip DebugSession.continueCommand

/-- The cycle limit of `run`, where it is given. -/
def cycleLimit (arguments : List String) : Executing σ (Option ℕ) :=
  if arguments.length = 2 then do
    let text ← argument arguments 1
    some <$> positive lang text "cycles" none
  else pure none

/-- `_run`. -/
def runCommand (arguments : List String) : Executing σ CommandResult := do
  arity "run" arguments 1 2
  let text ← argument arguments 0
  let steps ← positive lang text "steps" none
  let cycles ← cycleLimit lang arguments
  let result ← run H chip steps cycles
  pure { lines := [Line.formatRun result] }

/-- `_interrupt`. -/
def interruptCommand (arguments : List String) : Executing σ CommandResult := do
  arity "irq" arguments 1 1
  let level ← lang.lower <$> argument arguments 0
  if level = "off" then do
    call H chip .clearMaskableInterrupt
    pure { lines := ["IRQ released"] }
  else if level ≠ "on" then throw (.commandError "irq takes on or off")
  else do
    call H chip .requestMaskableInterrupt
    pure { lines := ["IRQ asserted; it stays asserted until irq off"] }

/-- `nmi`. -/
def nmiCommand (arguments : List String) : Executing σ CommandResult := do
  arity "nmi" arguments 0 0
  call H chip .requestNonMaskableInterrupt
  pure { lines := ["NMI latched; taken at the next step"] }

/-- `reset`. -/
def resetCommand (arguments : List String) : Executing σ CommandResult := do
  arity "reset" arguments 0 0
  call H chip .requestReset
  let record ← step H chip
  let lines ← stateLines
  pure { lines := Line.formatRecord record :: lines }

/-- The command of a name. -/
def command (name : String) (arguments : List String) : Executing σ CommandResult :=
  match name with
  | "quit" | "exit" => do
    arity name arguments 0 0
    pure { quit := true }
  | "help" => do
    arity name arguments 0 0
    pure { lines := helpLines }
  | "registers" | "regs" => do
    arity name arguments 0 0
    let lines ← stateLines
    pure { lines }
  | "step" => stepCommand lang H chip arguments
  | "over" => overCommand H chip arguments
  | "run" => runCommand lang H chip arguments
  | "continue" => continueCommand H chip arguments
  | "watch" => watchCommand lang arguments
  | "unwatch" => unwatchCommand lang arguments
  | "set" => setCommand lang arguments
  | "irq" => interruptCommand lang H chip arguments
  | "nmi" => nmiCommand H chip arguments
  | "reset" => resetCommand H chip arguments
  | "break" => breakCommand lang arguments
  | "delete" => deleteCommand lang arguments
  | "breakpoints" => breakpointsCommand arguments
  | "disassemble" | "disasm" => disassembleCommand lang arguments
  | "memory" => memoryCommand lang arguments
  | "history" => historyCommand lang arguments
  | name => throw (.commandError ("unknown command: " ++ name))

/-- `execute`. -/
def execute (line : String) : Executing σ CommandResult :=
  match lang.split line with
  | .error text => throw (.commandError text)
  | .ok [] => pure {}
  | .ok (word :: arguments) =>
    let name := lang.lower word
    command lang H chip ((aliases.lookup name).getD name) arguments

end

end

end CommandDebugger

end SixFiveOhTwo
