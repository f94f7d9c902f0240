import SixFiveOhTwo.Machine.Flat
import SixFiveOhTwo.Traces.Accepts

/-! # The trace round trip

A record's JSON has the place and the bytes of its instruction, and the text: mode, target and documented
flag come back by decoding the bytes.

* `trace_round_trip`: a written trace is read back as it was; an accepted value's record is written as a
  value that is accepted again, as the same record.
-/

namespace SixFiveOhTwo
open Json
set_option autoImplicit false

/-! ## Instructions that decoding gives back -/

/-- An instruction whose mode, target and documented flag are those its bytes give. -/
def Instruction.Faithful (instruction : Instruction) : Prop :=
  ∃ derived : Instruction, derived.Derived ∧
    instruction = derived.retext instruction.mnemonic instruction.operands instruction.mnemonic_ne

theorem Instruction.Derived.faithful {instruction : Instruction} (h : instruction.Derived) : instruction.Faithful :=
  ⟨instruction, h, rfl⟩

theorem derived_of_disassemble {memory : ℕ → Byte} {address : ℕ} {instruction : Instruction}
    (h : disassemble (fun a => .ok (memory a)) address = .ok instruction) : instruction.Derived := by
  have haddress : address ≤ 0xFFFF := by
    by_contra hgt
    rw [disassemble, if_pos (Nat.lt_of_not_le hgt)] at h
    cases h
  rw [disassemble_eq memory haddress, Except.ok.injEq] at h
  subst h
  have hfirst : memory ((address + 0) &&& 0xFFFF) = memory address := by
    rw [Nat.add_zero, Bits.and_ffff, Nat.mod_eq_of_lt (Nat.lt_succ_of_le haddress)]
  obtain ⟨n, hn⟩ : ∃ n, lengthOf (memory address) = n + 1 := Nat.exists_eq_succ_of_ne_zero (lengthOf_pos _).ne'
  have hbytes : (decoded memory haddress).data = memory address ::
      (List.range n).map fun i => memory ((address + (i + 1)) &&& 0xFFFF) := by
    change (List.range (lengthOf (memory address))).map _ = _
    rw [hn, List.range_succ_eq_map, List.map_cons, hfirst, List.map_map]
    rfl
  refine ((disassembleBytes_whole haddress).mpr ⟨_, _, hbytes, ?_, ?_⟩).1
  · rw [hbytes, hn, List.length_cons, List.length_map, List.length_range]
  · simp only [← hbytes]
    rfl

theorem instructionOf_json {instruction : Instruction} (h : instruction.Faithful) : InstructionOf instruction.json instruction := by
  obtain ⟨derived, hderived, htext⟩ := h
  have hdata : derived.data = instruction.data := (congrArg Instruction.data htext).symm
  have haddress : derived.address = instruction.address := (congrArg Instruction.address htext).symm
  refine ⟨_, derived, rfl, ⟨⟨instruction.hexData, rfl, ?_⟩, ?_⟩, hderived, .inr ⟨?_, rfl, rfl, htext⟩⟩
  · rw [Instruction.hexData, String.toList_ofList, Hexadecimal.fromHex_digits, hdata]
  · rw [haddress]
    rfl
  · simp only [keys, List.map_cons, List.map_nil]
    decide

/-! ## Records -/

/-- The instruction of a record, if it has one, is one that decoding gives back. -/
def StepRecord.Faithful (record : StepRecord) : Prop :=
  ∀ instruction, record.instruction = some instruction → instruction.Faithful

theorem recordOf_dict {record : StepRecord} (h : record.Faithful) :
    ∃ root, stepRecordToDict record = .obj root ∧ RecordOf root record := by
  have hinstruction : OptionalInstructionOf ((record.instruction.map Instruction.json).getD .null) record.instruction := by
    cases hrecord : record.instruction with
    | none => rfl
    | some instruction => exact instructionOf_json (h instruction hrecord)
  rw [stepRecordToDict]
  cases haccesses : record.accesses with
  | none =>
    refine ⟨_, rfl, ?_, rfl, rfl, rfl, rfl, ⟨_, rfl, stateOf_dict _⟩, ⟨_, rfl, stateOf_dict _⟩, ⟨_, rfl, hinstruction⟩, ?_⟩
    · simp only [keys, List.map_cons, List.map_nil]
      decide
    · rw [haccesses]
      rfl
  | some accesses =>
    refine ⟨_, rfl, ?_, rfl, rfl, rfl, rfl, ⟨_, rfl, stateOf_dict _⟩, ⟨_, rfl, stateOf_dict _⟩, ⟨_, rfl, hinstruction⟩, ?_⟩
    · simp only [keys, List.cons_append, List.nil_append, List.map_cons, List.map_nil]
      decide
    · rw [haccesses]
      rfl

/-! ## Up to the order of entries -/

theorem TraceValue.rigid (value : TraceValue) : Rigid value.json := by
  cases value with
  | none => exact rigid_null
  | int n => exact rigid_int n
  | bool b => exact rigid_bool b
  | str text => exact rigid_str text
  | strs texts => exact rigid_arr (List.forall_mem_map.mpr fun text _ => rigid_str text)

theorem Access.rigid (access : Access) : Rigid access.json := by
  cases access <;> exact rigid_arr (List.forall_mem_cons.mpr ⟨rigid_str _, List.forall_mem_cons.mpr ⟨rigid_int _,
    List.forall_mem_singleton.mpr (rigid_int _)⟩⟩)

theorem StateOf.same {value value' : Value} {state : CPUState} (h : StateOf value state) (hsame : Same value' value) :
    StateOf value' state := by
  obtain ⟨entries, rfl, hkeys, hfields⟩ := h
  obtain ⟨entries', rfl, hkeys', hget⟩ := hsame.get_some
  refine ⟨entries', rfl, hkeys'.trans hkeys, fun field hfield => ?_⟩
  obtain ⟨v, hv, hsame⟩ := hget _ _ (hfields field hfield)
  rw [hv, field.2.rigid v hsame]

theorem OptionalInstructionOf.same {value value' : Value} {instruction : Option Instruction}
    (h : OptionalInstructionOf value instruction) (hsame : Same value' value) : OptionalInstructionOf value' instruction := by
  cases instruction with
  | none =>
    cases h
    exact rigid_null _ hsame
  | some instruction =>
    obtain ⟨entries, derived, rfl, ⟨⟨data, hdata, hbytes⟩, haddress⟩, hderived, htext⟩ := h
    obtain ⟨entries', rfl, hkeys, hget⟩ := hsame.get_some
    have hsome (key : String) (v : Value) (hrigid : Rigid v) (h : get key entries = some v) : get key entries' = some v := by
      obtain ⟨v', hv', hsame⟩ := hget key v h
      rw [hv', hrigid v' hsame]
    refine ⟨entries', derived, rfl, ⟨⟨data, hsome _ _ (rigid_str _) hdata, hbytes⟩, hsome _ _ (rigid_int _) haddress⟩,
      hderived, ?_⟩
    rw [hkeys]
    refine htext.imp_right fun ⟨hfour, hmnemonic, hoperands, hretext⟩ => ⟨hfour, hsome _ _ (rigid_str _) hmnemonic,
      hsome _ _ (rigid_arr (List.forall_mem_map.mpr fun text _ => rigid_str text)) hoperands, hretext⟩

/-- Only the entries count, not their order. -/
theorem RecordOf.same {root : List (String × Value)} {value : Value} {record : StepRecord} (h : RecordOf root record)
    (hsame : Same value (.obj root)) : ∃ root', value = .obj root' ∧ RecordOf root' record := by
  obtain ⟨root', rfl, hkeys, hget⟩ := hsame.get_some
  have hsome (key : String) (v : Value) (hrigid : Rigid v) (h : get key root = some v) : get key root' = some v := by
    obtain ⟨v', hv', hsame⟩ := hget key v h
    rw [hv', hrigid v' hsame]
  obtain ⟨hkeysEq, hversion, hsequence, hcycles, hkind, ⟨_, hbefore, hbeforeOf⟩, ⟨_, hafter, hafterOf⟩,
    ⟨_, hinstruction, hinstructionOf⟩, haccesses⟩ := h
  obtain ⟨_, hbefore', hsameBefore⟩ := hget _ _ hbefore
  obtain ⟨_, hafter', hsameAfter⟩ := hget _ _ hafter
  obtain ⟨_, hinstruction', hsameInstruction⟩ := hget _ _ hinstruction
  refine ⟨root', rfl, hkeys ▸ hkeysEq, hsome _ _ (rigid_int _) hversion, hsome _ _ (rigid_int _) hsequence,
    hsome _ _ (rigid_int _) hcycles, hsome _ _ (rigid_str _) hkind, ⟨_, hbefore', hbeforeOf.same hsameBefore⟩,
    ⟨_, hafter', hafterOf.same hsameAfter⟩, ⟨_, hinstruction', hinstructionOf.same hsameInstruction⟩, ?_⟩
  cases hrecord : record.accesses with
  | none =>
    rw [hrecord] at haccesses
    exact get_eq_none.mpr (hkeys ▸ get_eq_none.mp haccesses)
  | some accesses =>
    rw [hrecord] at haccesses
    exact hsome _ _ (rigid_arr (List.forall_mem_map.mpr fun access _ => access.rigid)) haccesses

variable (repr : Value → Except Raised String)

theorem stepRecordFromDict_eq_ok {value : Value} {record : StepRecord} :
    stepRecordFromDict repr value = .ok record ↔ ∃ root, value = .obj root ∧ RecordOf root record := by
  have hversion (version : Value) (_ : Misversioned value version) := raises_any (repr version)
  exact (stepRecordFromDict_exactly (showsTexts_any repr) hversion).returns record

/-- A record's JSON is read as the record, in any order of its entries. -/
theorem stepRecordFromDict_same {record : StepRecord} (h : record.Faithful) {value : Value}
    (hsame : Same value (stepRecordToDict record)) : stepRecordFromDict repr value = .ok record := by
  obtain ⟨root, hroot, hrecord⟩ := recordOf_dict h
  rw [hroot] at hsame
  exact (stepRecordFromDict_eq_ok repr).mpr (hrecord.same hsame)

/-- What is read of an accepted value is a record that its JSON gives back. -/
theorem faithful_of_read {value : Value} {record : StepRecord} (h : stepRecordFromDict repr value = .ok record) :
    record.Faithful := by
  obtain ⟨root, rfl, hrecord⟩ := (stepRecordFromDict_eq_ok repr).mp h
  obtain ⟨_, _, hof⟩ := hrecord.instruction
  intro instruction hinstruction
  rw [hinstruction] at hof
  obtain ⟨_, derived, _, _, hderived, ⟨_, rfl⟩ | ⟨_, _, _, htext⟩⟩ := hof
  · exact hderived.faithful
  · exact ⟨derived, hderived, htext⟩

/-! ## Lines -/

theorem lines_append {line : List Char} (h : '\n' ∉ line) (rest : List Char) :
    lines (line ++ ['\n'] ++ rest) = (line ++ ['\n']) :: lines rest := by
  induction line with
  | nil => rw [List.nil_append, List.singleton_append, lines, if_pos rfl]
  | cons c line ih =>
    rw [List.mem_cons, not_or] at h
    obtain ⟨hc, hline⟩ := h
    rw [List.cons_append, List.cons_append, lines, if_neg (Ne.symm hc), ih hline]

theorem writeTrace_eq (dumps : Value → List Char) (records : List StepRecord) :
    writeTrace dumps records = (records.flatMap fun record => dumps (stepRecordToDict record) ++ ['\n'], records.length) := by
  suffices ∀ start : List Char × ℕ, records.foldl (fun written record =>
      (written.1 ++ (dumps (stepRecordToDict record) ++ ['\n']), written.2 + 1)) start =
      (start.1 ++ records.flatMap fun record => dumps (stepRecordToDict record) ++ ['\n'], start.2 + records.length) from
    (this ([], 0)).trans (by rw [List.nil_append, Nat.zero_add])
  induction records with
  | nil => simp
  | cons record records ih =>
    intro start
    rw [List.foldl_cons, ih, List.flatMap_cons, List.append_assoc, List.length_cons]
    congr 1
    omega

theorem readLines_written {dumps : Value → List Char} {loads : List Char → Except Raised Value}
    (hblank : ∀ line, line.all isSpace = true → ∃ raised, loads line = .error raised) :
    ∀ (records : List StepRecord) (lineNumber : ℕ), (∀ record ∈ records, record.Faithful) →
      (∀ record ∈ records, '\n' ∉ dumps (stepRecordToDict record) ∧
        ∃ value, loads (dumps (stepRecordToDict record) ++ ['\n']) = .ok value ∧ Same value (stepRecordToDict record)) →
      readLines repr loads lineNumber (lines (records.flatMap fun record => dumps (stepRecordToDict record) ++ ['\n'])) =
        (records, none)
  | [], _, _, _ => rfl
  | record :: records, lineNumber, hfaithful, hjson => by
    obtain ⟨hrecord, hrest⟩ := List.forall_mem_cons.mp hfaithful
    obtain ⟨⟨hline, value, hloads, hsame⟩, hjson⟩ := List.forall_mem_cons.mp hjson
    have hspace : (dumps (stepRecordToDict record) ++ ['\n']).all isSpace = false := by
      by_contra hall
      obtain ⟨raised, hraised⟩ := hblank _ (Bool.not_eq_false _ ▸ hall)
      rw [hloads] at hraised
      cases hraised
    have hread : (loads (dumps (stepRecordToDict record) ++ ['\n']) >>= stepRecordFromDict repr) = .ok record := by
      rw [hloads]
      exact stepRecordFromDict_same repr hrecord hsame
    rw [List.flatMap_cons, lines_append hline, readLines, hspace, if_neg Bool.false_ne_true, hread]
    simp only [readLines_written hblank records (lineNumber + 1) hrest hjson]

/-- **The trace round trip.** What `write_trace` writes of records whose instructions were disassembled is
read by `read_trace` as the same records; and what is read of any accepted value is written as a value
that is accepted again, as the same record. -/
theorem trace_round_trip :
    (∀ (dumps : Value → List Char) (loads : List Char → Except Raised Value) (records : List StepRecord),
      (∀ record ∈ records, ∀ instruction, record.instruction = some instruction →
        ∃ (memory : ℕ → Byte) (address : ℕ), disassemble (fun a => .ok (memory a)) address = .ok instruction) →
      (∀ line, line.all isSpace = true → ∃ raised, loads line = .error raised) →
      (∀ record ∈ records, '\n' ∉ dumps (stepRecordToDict record) ∧
        ∃ value, loads (dumps (stepRecordToDict record) ++ ['\n']) = .ok value ∧ Same value (stepRecordToDict record)) →
      readTrace repr loads (writeTrace dumps records).1 = (records, none) ∧
        (writeTrace dumps records).2 = records.length) ∧
    ∀ value record, stepRecordFromDict repr value = .ok record →
      stepRecordFromDict repr (stepRecordToDict record) = .ok record := by
  constructor
  · intro dumps loads records hinstruction hblank hjson
    rw [writeTrace_eq, readTrace]
    refine ⟨readLines_written repr hblank records 1 ?_ hjson, rfl⟩
    intro record hrecord instruction h
    obtain ⟨memory, address, hdisassemble⟩ := hinstruction record hrecord instruction h
    exact (derived_of_disassemble hdisassemble).faithful
  · intro value record h
    exact stepRecordFromDict_same repr (faithful_of_read repr h) (.refl _)

/-- JMP $FFFE at $0000, and at $FFFE a JSR whose operand wraps past $FFFF, as its pushes do in page one. -/
def wrapping : ℕ → Byte := Machine.holding 0xFFFE [0x20, 0x34, 0x4C, 0xFE, 0xFF]

/-- The record of the jump. -/
def jumped : StepRecord where
  sequence := 0
  kind := .instruction
  before := .poised 0 0 0 0 true
  after := .poised 0xFFFE 0 0 0 true
  cycles := 3
  instruction := some (decoded wrapping (Nat.zero_le 0xFFFF))
  accesses := some [.r 0 0x4C, .r 1 0xFE, .r 2 0xFF]
  cycles_pos := by decide
  lifecycle := fun h => absurd rfl h
  accesses_valid := by decide

/-- The record of the call. -/
def called : StepRecord where
  sequence := 1
  kind := .instruction
  before := .poised 0xFFFE 0 0 0 true
  after := .poised 0x4C34 0 0 0xFE true
  cycles := 6
  instruction := some (decoded wrapping (by decide : 0xFFFE ≤ 0xFFFF))
  accesses := some [.r 0xFFFE 0x20, .r 0xFFFF 0x34, .r 0x100 0, .w 0x100 0, .w 0x1FF 0, .r 0 0x4C]
  cycles_pos := by decide
  lifecycle := fun h => absurd rfl h
  accesses_valid := by decide

/-- The text of their states. -/
def stateText (pc s : String) : List String :=
  ["\x7b\"a\":0,\"halted\":false,\"maskable_interrupt_pending\":false,\"non_maskable_interrupt_pending\":false,",
    "\"p\":36,\"pc\":", pc, ",\"polled_i\":null,\"polled_maskable_interrupt\":null,",
    "\"polled_non_maskable_interrupt\":null,\"reset_pending\":false,\"s\":", s,
    ",\"skipped_poll\":false,\"x\":0,\"y\":0\x7d"]

def jumpedLine : List Char :=
  (["\x7b\"accesses\":[[\"r\",0,76],[\"r\",1,254],[\"r\",2,255]],\"after\":"] ++ stateText "65534" "0" ++
    [",\"before\":"] ++ stateText "0" "0" ++
    [",\"cycles\":3,\"instruction\":\x7b\"address\":0,\"data\":\"4cfeff\",\"mnemonic\":\"JMP\",\"operands\":",
      "[\"$FFFE\"]\x7d,\"kind\":\"instruction\",\"sequence\":0,\"version\":1\x7d"]).flatMap String.toList

def calledLine : List Char :=
  (["\x7b\"accesses\":[[\"r\",65534,32],[\"r\",65535,52],[\"r\",256,0],[\"w\",256,0],[\"w\",511,0],[\"r\",0,76]],",
      "\"after\":"] ++ stateText "19508" "254" ++ [",\"before\":"] ++ stateText "65534" "0" ++
    [",\"cycles\":6,\"instruction\":\x7b\"address\":65534,\"data\":\"20344c\",\"mnemonic\":\"JSR\",\"operands\":",
      "[\"$4C34\"]\x7d,\"kind\":\"instruction\",\"sequence\":1,\"version\":1\x7d"]).flatMap String.toList

/-- `json.dumps` of the two. -/
def dumpsWrapping : Value → List Char
  | .obj entries =>
    match get "sequence" entries with
    | some (.int 0) => jumpedLine
    | _ => calledLine
  | _ => []

/-- `json.loads` of their lines, with or without the newline. -/
def loadsWrapping (line : List Char) : Except Raised Value :=
  if line = jumpedLine ∨ line = jumpedLine ++ ['\n'] then .ok (stepRecordToDict jumped)
  else if line = calledLine ∨ line = calledLine ++ ['\n'] then .ok (stepRecordToDict called)
  else .error (.valueError "Expecting value")

theorem dumpsWrapping_jumped : dumpsWrapping (stepRecordToDict jumped) = jumpedLine := rfl

theorem dumpsWrapping_called : dumpsWrapping (stepRecordToDict called) = calledLine := rfl

section
set_option maxRecDepth 10000

theorem line_wrapping : '\n' ∉ jumpedLine ∧ '\n' ∉ calledLine := by decide +kernel

theorem loadsWrapping_jumped {ending : List Char} (h : ending ∈ [[], ['\n']]) :
    loadsWrapping (jumpedLine ++ ending) = .ok (stepRecordToDict jumped) := by
  refine if_pos ?_
  rcases List.mem_cons.mp h with rfl | h
  · exact .inl (List.append_nil _)
  · exact .inr (congrArg (jumpedLine ++ ·) (List.mem_singleton.mp h))

theorem loadsWrapping_called {ending : List Char} (h : ending ∈ [[], ['\n']]) :
    loadsWrapping (calledLine ++ ending) = .ok (stepRecordToDict called) := by
  have hother : ∀ ending ∈ [[], ['\n']], ¬(calledLine ++ ending = jumpedLine ∨
      calledLine ++ ending = jumpedLine ++ ['\n']) := by decide +kernel
  rw [loadsWrapping, if_neg (hother ending h)]
  refine if_pos ?_
  rcases List.mem_cons.mp h with rfl | h
  · exact .inl (List.append_nil _)
  · exact .inr (congrArg (calledLine ++ ·) (List.mem_singleton.mp h))

theorem loadsWrapping_blank (line : List Char) (h : line.all isSpace = true) :
    ∃ raised, loadsWrapping line = .error raised := by
  have hjumped : jumpedLine.all isSpace = false ∧ (jumpedLine ++ ['\n']).all isSpace = false := by decide +kernel
  have hcalled : calledLine.all isSpace = false ∧ (calledLine ++ ['\n']).all isSpace = false := by decide +kernel
  refine ⟨.valueError "Expecting value", ?_⟩
  rw [loadsWrapping, if_neg, if_neg]
  · rintro (rfl | rfl)
    · exact Bool.false_ne_true (hcalled.1.symm.trans h)
    · exact Bool.false_ne_true (hcalled.2.symm.trans h)
  · rintro (rfl | rfl)
    · exact Bool.false_ne_true (hjumped.1.symm.trans h)
    · exact Bool.false_ne_true (hjumped.2.symm.trans h)

end

theorem decoded_wrapping (record : StepRecord) (h : record ∈ [jumped, called]) :
    ∃ address, ∃ haddress : address ≤ 0xFFFF, record.instruction = some (decoded wrapping haddress) := by
  rcases List.mem_cons.mp h with rfl | h
  · exact ⟨0, by decide, rfl⟩
  · rw [List.mem_singleton.mp h]
    exact ⟨0xFFFE, by decide, rfl⟩

theorem json_wrapping (record : StepRecord) (h : record ∈ [jumped, called]) :
    '\n' ∉ dumpsWrapping (stepRecordToDict record) ∧ ∃ value,
      loadsWrapping (dumpsWrapping (stepRecordToDict record) ++ ['\n']) = .ok value ∧
        Same value (stepRecordToDict record) := by
  rcases List.mem_cons.mp h with rfl | h
  · rw [dumpsWrapping_jumped]
    exact ⟨line_wrapping.1, _, loadsWrapping_jumped (by simp), .refl _⟩
  · rw [List.mem_singleton.mp h, dumpsWrapping_called]
    exact ⟨line_wrapping.2, _, loadsWrapping_called (by simp), .refl _⟩

/-- The trace of the two steps. -/
theorem trace_round_trip_wrapping :
    readTrace (fun _ => .ok "") loadsWrapping (writeTrace dumpsWrapping [jumped, called]).1 = ([jumped, called], none) ∧
      (writeTrace dumpsWrapping [jumped, called]).2 = 2 := by
  refine (trace_round_trip fun _ => .ok "").1 dumpsWrapping loadsWrapping [jumped, called] ?_ loadsWrapping_blank
    json_wrapping
  intro record hrecord instruction h
  obtain ⟨address, haddress, hinstruction⟩ := decoded_wrapping record hrecord
  rw [hinstruction, Option.some.injEq] at h
  exact ⟨wrapping, address, h ▸ disassemble_eq wrapping haddress⟩

end SixFiveOhTwo
