import Mathlib.Data.Finset.Sort
import Mathlib.Data.String.Basic
import SixFiveOhTwo.Debug.Trace
import SixFiveOhTwo.Traces.Bytes
import SixFiveOhTwo.Traces.Json

/-! # Records as JSON (`trace.py`)

A record is written as an object of a versioned schema, one to a line, and read back through the checks of
the reader and of the constructors it calls. `repr` is Python's; it shows values in the texts of errors only.
It may raise something of its own: a `ValueError` on an integer of too many digits, a `RecursionError` on a
value nested too deeply.
-/

namespace SixFiveOhTwo
open Json
set_option autoImplicit false

/-- `TRACE_SCHEMA_VERSION`. -/
def traceSchemaVersion : ℤ := 1

/-! ## Writing -/

/-- A compared value as JSON. -/
def TraceValue.json : TraceValue → Value
  | none => .null
  | int value => .int value
  | bool value => .bool value
  | str value => .str value
  | strs values => .arr (values.map .str)

/-- `_state_to_dict`. -/
def stateToDict (state : CPUState) : Value := .obj (state.fields.map fun (name, value) => (name, value.json))

/-- `list(access)`. -/
def Access.json : Access → Value
  | .r address value => .arr [.str "r", .int address, .int value]
  | .w address value => .arr [.str "w", .int address, .int value]

/-- An instruction, as `step_record_to_dict` writes it. -/
def Instruction.json (instruction : Instruction) : Value := .obj [
  ("address", .int instruction.address),
  ("data", .str instruction.hexData),
  ("mnemonic", .str instruction.mnemonic),
  ("operands", .arr (instruction.operands.map .str))]

/-- `step_record_to_dict`. -/
def stepRecordToDict (record : StepRecord) : Value :=
  let encoded := [
    ("version", .int traceSchemaVersion),
    ("sequence", .int record.sequence),
    ("kind", .str record.kind.value),
    ("cycles", .int record.cycles),
    ("instruction", (record.instruction.map Instruction.json).getD .null),
    ("before", stateToDict record.before),
    ("after", stateToDict record.after)]
  match record.accesses with
  | none => .obj encoded
  | some accesses => .obj (encoded ++ [("accesses", .arr (accesses.map Access.json))])

/-- `write_trace`: the text written, and the count. -/
def writeTrace (dumps : Value → List Char) (records : List StepRecord) : List Char × ℕ :=
  records.foldl (fun (text, count) record => (text ++ (dumps (stepRecordToDict record) ++ ['\n']), count + 1)) ([], 0)

/-! ## The constructors, on values of any type -/

/-- `_require_int`. -/
def requireInt (name : String) (value : Value) (maximum : ℕ) : Except Raised {n : ℕ // n ≤ maximum} :=
  let width := if maximum = 0xFF then 2 else 4
  let raised := Raised.valueError (name ++ " must be an integer in range 0x" ++ hex width 0 ++ "..0x" ++ hex width maximum)
  match value with
  | .int n => if h : 0 ≤ n ∧ n ≤ maximum then .ok ⟨n.toNat, Int.toNat_le.mpr h.2⟩ else .error raised
  | _ => .error raised

/-- `_require_bool`. -/
def requireBool (name : String) : Value → Except Raised Bool
  | .bool value => .ok value
  | _ => .error (.valueError (name ++ " must be a bool"))

/-- `_require_bool` of a value that is not `None`. -/
def requireOptional (name : String) : Value → Except Raised (Option Bool)
  | .null => .ok none
  | value => some <$> requireBool name value

/-- `_state_fields`. -/
def stateFields : List String := [
  "a", "x", "y", "s", "pc", "p", "halted", "reset_pending", "maskable_interrupt_pending",
  "non_maskable_interrupt_pending", "polled_i", "polled_maskable_interrupt", "polled_non_maskable_interrupt",
  "skipped_poll"]

/-- `CPUState(**encoded)`, with its defaults and the checks of `__post_init__`. -/
def CPUState.construct (encoded : List (String × Value)) : Except Raised CPUState :=
  match encoded.find? fun field => field.1 ∉ stateFields with
  | some (key, _) =>
    .error (.typeError ("CPUState.__init__() got an unexpected keyword argument '" ++ key ++ "'"))
  | none => do
    let argument (name : String) (default : Value) := (get name encoded).getD default
    let a ← requireInt "a" (argument "a" (.int 0)) 0xFF
    let x ← requireInt "x" (argument "x" (.int 0)) 0xFF
    let y ← requireInt "y" (argument "y" (.int 0)) 0xFF
    let s ← requireInt "s" (argument "s" (.int 0)) 0xFF
    let p ← requireInt "p" (argument "p" (.int 0x24)) 0xFF
    let pc ← requireInt "pc" (argument "pc" (.int 0)) 0xFFFF
    let halted ← requireBool "halted" (argument "halted" (.bool false))
    let resetPending ← requireBool "reset_pending" (argument "reset_pending" (.bool false))
    let maskable ← requireBool "maskable_interrupt_pending" (argument "maskable_interrupt_pending" (.bool false))
    let nonMaskable ←
      requireBool "non_maskable_interrupt_pending" (argument "non_maskable_interrupt_pending" (.bool false))
    let skippedPoll ← requireBool "skipped_poll" (argument "skipped_poll" (.bool false))
    let polledI ← requireOptional "polled_i" (argument "polled_i" .null)
    let polledMaskable ← requireOptional "polled_maskable_interrupt" (argument "polled_maskable_interrupt" .null)
    let polledNonMaskable ←
      requireOptional "polled_non_maskable_interrupt" (argument "polled_non_maskable_interrupt" .null)
    if h : p.val &&& 0x30 = 0x20 then
      .ok {
        a := a.val, x := x.val, y := y.val, s := s.val, pc := pc.val, p := p.val, halted, resetPending
        maskableInterruptPending := maskable, nonMaskableInterruptPending := nonMaskable, polledI
        polledMaskableInterrupt := polledMaskable, polledNonMaskableInterrupt := polledNonMaskable, skippedPoll
        a_le := a.property, x_le := x.property, y_le := y.property, s_le := s.property, pc_le := pc.property
        p_le := p.property, p_bits := h }
    else .error (.valueError "p must have bit 5 set and B (bit 4) clear")

/-- An access of a record. -/
abbrev ValidAccess : Type := {access : Access // access.InRange}

/-- The access of a 16-bit address and a byte. -/
def ValidAccess.ofInts (write : Bool) (address value : ℤ)
    (h : (0 ≤ address ∧ address ≤ 0xFFFF) ∧ 0 ≤ value ∧ value ≤ 0xFF) : ValidAccess :=
  ⟨if write then .w address.toNat value.toNat else .r address.toNat value.toNat, by
    cases write <;> exact ⟨Int.toNat_le.mpr h.1.2, Int.toNat_le.mpr h.2.2⟩⟩

/-- `kind in access_kinds`, and whether it is `"w"`: only a hashable value can be looked for. -/
def accessKind : Value → Except Raised (Option Bool)
  | .arr _ => .error (.typeError "unhashable type: 'list'")
  | .obj _ => .error (.typeError "unhashable type: 'dict'")
  | .str kind => .ok (if kind = "r" then some false else if kind = "w" then some true else none)
  | _ => .ok none

/-- `valid_access`: the access, if it is valid. -/
def validAccess : Value × Value × Value → Except Raised (Option ValidAccess)
  | (kind, address, value) => do
    match ← accessKind kind, address, value with
    | some write, .int address, .int value =>
      if h : (0 ≤ address ∧ address ≤ 0xFFFF) ∧ 0 ≤ value ∧ value ≤ 0xFF then .ok (some (.ofInts write address value h))
      else .ok none
    | _, _, _ => .ok none

/-- `all(valid_access(access) for access in accesses)`. -/
def validAccesses : List (Value × Value × Value) → Except Raised (Option (List ValidAccess))
  | [] => .ok (some [])
  | access :: rest => do
    match ← validAccess access with
    | none => .ok none
    | some access =>
      match ← validAccesses rest with
      | none => .ok none
      | some rest => .ok (some (access :: rest))

/-- `StepRecord(...)`, with the checks of `__post_init__`. -/
def StepRecord.construct (sequence : ℤ) (kind : BoundaryKind) (before after : CPUState) (cycles : ℤ)
    (instruction : Option Instruction) (accesses : Option (List (Value × Value × Value))) : Except Raised StepRecord :=
  if sequence < 0 then .error (.valueError "sequence must be a non-negative integer")
  else if hcycles : cycles ≤ 0 then .error (.valueError "cycles must be a positive integer")
  else if hkind : kind ≠ .instruction ∧ instruction ≠ none then
    .error (.valueError "lifecycle boundaries cannot contain an instruction")
  else do
    let record (accesses : Option (List ValidAccess)) : StepRecord := {
      sequence := sequence.toNat, kind, before, after, cycles := cycles.toNat, instruction
      accesses := accesses.map (List.map Subtype.val)
      cycles_pos := by omega
      lifecycle := fun hne => not_not.mp fun hsome => hkind ⟨hne, hsome⟩
      accesses_valid := by
        cases accesses with
        | none => simp
        | some accesses =>
          intro access haccess
          obtain ⟨valid, _, rfl⟩ := List.mem_map.mp haccess
          exact valid.property }
    match accesses with
    | none => .ok (record none)
    | some accesses =>
      match ← validAccesses accesses with
      | some accesses => .ok (record (some accesses))
      | none => .error (.valueError "accesses must be a tuple of (kind, address, value) or None")

/-- `replace(instruction, mnemonic=mnemonic, operands=operands)`, with the checks of `__post_init__`. -/
def Instruction.replaceText (instruction : Instruction) (mnemonic : Value) (operands : List String) :
    Except String Instruction :=
  match mnemonic with
  | .str mnemonic =>
    Instruction.make instruction.address instruction.data mnemonic operands instruction.mode instruction.target
      instruction.documented
  | _ => .error "mnemonic must not be empty"

/-! ## Reading -/

/-- `_require_object`: the keys of a JSON object are strings. -/
def requireObject (value : Value) (name : String) : Except Raised (List (String × Value)) :=
  match value with
  | .obj entries => .ok entries
  | _ => .error (.valueError (name ++ " must be an object with string keys"))

section
variable (repr : Value → Except Raised String)

/-- `raise ValueError(f"{before}{value!r}{after}")`: what `repr` raises, if it raises. -/
def raiseShowing {α : Type} (before : String) (value : Value) (after : String) : Except Raised α := do
  .error (.valueError (before ++ (← repr value) ++ after))

/-- `f"{label}={names}"`, if there are names. -/
def namesShown (label : String) (names : List String) : Except Raised (List String) :=
  if names = [] then .ok [] else do return [label ++ "=" ++ (← repr (.arr (names.map .str)))]

/-- `_require_keys`. -/
def requireKeys (value : List (String × Value)) (name : String) (expected : Finset String) : Except Raised Unit :=
  let actual := keys value
  if actual = expected then .ok ()
  else do
    let missing ← namesShown repr "missing" ((expected \ actual).sort (· ≤ ·))
    let unknown ← namesShown repr "unknown" ((actual \ expected).sort (· ≤ ·))
    .error (.valueError (name ++ " fields do not match schema (" ++ ", ".intercalate (missing ++ unknown) ++ ")"))

/-- `_state_from_dict`. -/
def stateFromDict (value : Value) (name : String) : Except Raised CPUState := do
  let encoded ← requireObject value name
  requireKeys repr encoded name stateFields.toFinset
  match CPUState.construct encoded with
  | .error (.valueError text) | .error (.typeError text) =>
    .error (.valueError ("invalid " ++ name ++ " CPU state: " ++ text))
  | state => state

/-- Whether an item of `accesses` is a list of three values, of which the first is a string. -/
def isAccessEntry : Value → Except Raised Bool
  | .arr fields => do
    if fields.length = 3 then
      match ← entry fields 0 with
      | .str _ => .ok true
      | _ => .ok false
    else .ok false
  | _ => .ok false

/-- `(kind, address, data)`, of an item. -/
def unpackAccess : Value → Except Raised (Value × Value × Value)
  | .arr [kind, address, data] => .ok (kind, address, data)
  | .arr _ => .error (.valueError "wrong number of values to unpack")
  | _ => .error (.typeError "cannot unpack non-iterable object")

/-- `_accesses_from_list`. -/
def accessesFromList : Value → Except Raised (List (Value × Value × Value))
  | .arr items => do
    if ← items.allM isAccessEntry then items.mapM unpackAccess
    else .error (.valueError "accesses must be a list of [kind, address, value] entries")
  | _ => .error (.valueError "accesses must be a list of [kind, address, value] entries")

/-- The strings of a list, if it has nothing else. -/
def strings? : List Value → Option (List String)
  | [] => some []
  | .str value :: rest => (value :: ·) <$> strings? rest
  | _ :: _ => none

/-- `_INSTRUCTION_REQUIRED`. -/
def instructionRequired : Finset String := {"address", "data"}

/-- `_INSTRUCTION_TEXT`. -/
def instructionText : Finset String := {"mnemonic", "operands"}

/-- The instruction of `_instruction_from_dict` as its bytes give it. -/
def derivedFromDict (encoded : List (String × Value)) : Except Raised Instruction := do
  let .str data ← item encoded "data" | .error (.valueError "instruction.data must be a hexadecimal string")
  let some bytes := Hexadecimal.fromHex data.toList
    | .error (.valueError "instruction.data must be a hexadecimal string")
  let range := Raised.valueError "instruction.address must be an integer in range 0x0000..0xFFFF"
  let .int address ← item encoded "address" | .error range
  if ¬(0 ≤ address ∧ address ≤ 0xFFFF) then .error range
  else
    match disassembleBytes bytes address.toNat with
    | .error text => .error (.valueError ("instruction.data is not a decodable encoding: " ++ text))
    | .ok derived =>
      if derived.data ≠ bytes then
        raiseShowing repr "instruction.data " (.str data)
          (" is not exactly one instruction (decoded '" ++ derived.hexData ++ "')")
      else .ok derived

/-- The text that an object gives to the instruction of its bytes. -/
def textFromDict (encoded : List (String × Value)) (derived : Instruction) : Except Raised Instruction := do
  let listed := Raised.valueError "instruction.operands must be a list of strings"
  let .arr operands ← item encoded "operands" | .error listed
  let some operands := strings? operands | .error listed
  match derived.replaceText (← item encoded "mnemonic") operands with
  | .ok instruction => .ok instruction
  | .error text => .error (.valueError ("invalid instruction: " ++ text))

/-- `_instruction_from_dict`. -/
def instructionFromDict (value : Value) : Except Raised (Option Instruction) :=
  match value with
  | .null => .ok none
  | value => do
    let encoded ← requireObject value "instruction"
    let keys := keys encoded
    if keys ≠ instructionRequired ∧ keys ≠ instructionRequired ∪ instructionText then
      requireKeys repr encoded "instruction" (instructionRequired ∪ instructionText)
    let derived ← derivedFromDict repr encoded
    if "mnemonic" ∉ keys then .ok (some derived)
    else some <$> textFromDict encoded derived

/-- `BoundaryKind(value)`. -/
def BoundaryKind.ofValue (value : String) : Option BoundaryKind :=
  [instruction, jamIdle, reset, nmi, irq].find? fun kind => kind.value = value

/-- The keys of a record. -/
def recordRequired : Finset String := {"version", "sequence", "kind", "cycles", "instruction", "before", "after"}

/-- The check of `version`. -/
def requireVersion (version : Value) : Except Raised Unit :=
  match version with
  | .int n =>
    if n = traceSchemaVersion then .ok () else raiseShowing repr "unsupported trace schema version: " version ""
  | _ => raiseShowing repr "unsupported trace schema version: " version ""

/-- The check of `sequence`, and of `cycles`: an integer no less than `minimum`. -/
def requireCount (minimum : ℤ) (text : String) : Value → Except Raised ℤ
  | .int n => if n < minimum then .error (.valueError text) else .ok n
  | _ => .error (.valueError text)

/-- The check of `kind`. -/
def kindFromValue : Value → Except Raised BoundaryKind
  | .str value =>
    match BoundaryKind.ofValue value with
    | some kind => .ok kind
    | none => raiseShowing repr "unsupported boundary kind: " (.str value) ""
  | _ => .error (.valueError "kind must be a string")

/-- `_accesses_from_list(root["accesses"]) if "accesses" in root else None`. -/
def accessesFromRecord (root : List (String × Value)) : Except Raised (Option (List (Value × Value × Value))) :=
  if "accesses" ∈ keys root then some <$> (item root "accesses" >>= accessesFromList) else .ok none

/-- `step_record_from_dict`. -/
def stepRecordFromDict (value : Value) : Except Raised StepRecord := do
  let root ← requireObject value "record"
  requireKeys repr root "record" (recordRequired ∪ ({"accesses"} ∩ keys root))
  requireVersion repr (← item root "version")
  let sequence ← requireCount 0 "sequence must be a non-negative integer" (← item root "sequence")
  let cycles ← requireCount 1 "cycles must be a positive integer" (← item root "cycles")
  let kind ← kindFromValue repr (← item root "kind")
  let before ← stateFromDict repr (← item root "before") "before"
  let after ← stateFromDict repr (← item root "after") "after"
  let instruction ← instructionFromDict repr (← item root "instruction")
  let accesses ← accessesFromRecord root
  StepRecord.construct sequence kind before after cycles instruction accesses

/-! ## A trace of many lines -/

/-- The lines of a text stream, each with the newline that ends it. -/
def lines : List Char → List (List Char)
  | [] => []
  | c :: rest =>
    if c = '\n' then [c] :: lines rest
    else
      match lines rest with
      | [] => [[c]]
      | line :: rest => (c :: line) :: rest

/-- `str.isspace`, of a character. -/
def isSpace (c : Char) : Bool :=
  (9 ≤ c.toNat ∧ c.toNat ≤ 13) ∨ (0x1C ≤ c.toNat ∧ c.toNat ≤ 0x20) ∨ (0x2000 ≤ c.toNat ∧ c.toNat ≤ 0x200A) ∨
    c.toNat ∈ [0x85, 0xA0, 0x1680, 0x2028, 0x2029, 0x202F, 0x205F, 0x3000]

/-- What `read_trace` raises for what a line raised. -/
def atLine (lineNumber : ℕ) : Raised → Raised
  | .valueError text | .typeError text =>
    .valueError ("invalid trace record at line " ++ toString lineNumber ++ ": " ++ text)
  | raised => raised

/-- The loop of `read_trace`, from a line on: the records it yields, and what it raises after them. -/
def readLines (loads : List Char → Except Raised Value) (lineNumber : ℕ) :
    List (List Char) → List StepRecord × Option Raised
  | [] => ([], none)
  | line :: rest =>
    -- a blank line is skipped, and counted
    if line.all isSpace then readLines loads (lineNumber + 1) rest
    else
      match loads line >>= stepRecordFromDict repr with
      | .error raised => ([], some (atLine lineNumber raised))
      | .ok record =>
        let (records, raised) := readLines loads (lineNumber + 1) rest
        (record :: records, raised)

/-- `read_trace`, read to its end. -/
def readTrace (loads : List Char → Except Raised Value) (text : List Char) : List StepRecord × Option Raised :=
  readLines repr loads 1 (lines text)

end

end SixFiveOhTwo
