import SixFiveOhTwo.Processor.Dispatch

/-! # The disassembler (`disasm.py`)

The decode table comes from the opcode map and from the names of its handlers. An `Instruction` carries
the checks its constructor makes; a `ValueError` is its text.

* `disassemble_eq`: on bytes that are all there, `disassemble` returns, and this is the instruction.
-/

namespace SixFiveOhTwo
open Bits
set_option autoImplicit false
set_option maxRecDepth 10000

/-- Addressing modes, as `Instruction.mode` reports them (`MODES`). -/
inductive OperandMode
  | implied | accumulator | immediate | zeroPage | zeroPageX | zeroPageY | absolute | absoluteX
  | absoluteY | indirect | indexedIndirect | indirectIndexed | relative
  deriving DecidableEq, Repr

/-- `_MODE_NAMES`. -/
def Mode.operandMode : Mode → OperandMode
  | imm => .immediate
  | zp => .zeroPage
  | zpx => .zeroPageX
  | zpy => .zeroPageY
  | abs => .absolute
  | abx | abxW => .absoluteX
  | aby | abyW => .absoluteY
  | izx => .indexedIndirect
  | izy | izyW => .indirectIndexed

/-- `_LENGTHS`. -/
def OperandMode.length : OperandMode → ℕ
  | implied | accumulator => 1
  | immediate | zeroPage | zeroPageX | zeroPageY | indexedIndirect | indirectIndexed | relative => 2
  | absolute | absoluteX | absoluteY | indirect => 3

/-! ## The names of the handlers -/

def Implied.name : Implied → String
  | brk => "brk"
  | jam => "jam"
  | php => "php"
  | aslA => "asl_a"
  | bpl => "bpl"
  | clc => "clc"
  | nop => "nop"
  | jsr => "jsr"
  | plp => "plp"
  | rolA => "rol_a"
  | bmi => "bmi"
  | sec => "sec"
  | rti => "rti"
  | pha => "pha"
  | lsrA => "lsr_a"
  | jmp => "jmp"
  | bvc => "bvc"
  | cli => "cli"
  | rts => "rts"
  | pla => "pla"
  | rorA => "ror_a"
  | jmpInd => "jmp_ind"
  | bvs => "bvs"
  | sei => "sei"
  | dey => "dey"
  | txa => "txa"
  | bcc => "bcc"
  | tya => "tya"
  | txs => "txs"
  | tay => "tay"
  | tax => "tax"
  | bcs => "bcs"
  | clv => "clv"
  | tsx => "tsx"
  | iny => "iny"
  | dex => "dex"
  | bne => "bne"
  | cld => "cld"
  | inx => "inx"
  | beq => "beq"
  | sed => "sed"

def Addressed.name : Addressed → String
  | ora => "ora"
  | slo => "slo"
  | nopRead => "nop_read"
  | asl => "asl"
  | anc => "anc"
  | and => "and"
  | rla => "rla"
  | bit => "bit"
  | rol => "rol"
  | eor => "eor"
  | sre => "sre"
  | lsr => "lsr"
  | alr => "alr"
  | adc => "adc"
  | rra => "rra"
  | ror => "ror"
  | arr => "arr"
  | sta => "sta"
  | sax => "sax"
  | sty => "sty"
  | stx => "stx"
  | ane => "ane"
  | sha => "sha"
  | tas => "tas"
  | shy => "shy"
  | shx => "shx"
  | ldy => "ldy"
  | lda => "lda"
  | ldx => "ldx"
  | lax => "lax"
  | lxa => "lxa"
  | las => "las"
  | cpy => "cpy"
  | cmp => "cmp"
  | dcp => "dcp"
  | dec => "dec"
  | sbx => "sbx"
  | cpx => "cpx"
  | sbc => "sbc"
  | isc => "isc"
  | inc => "inc"
  | usbc => "usbc"

/-- The handler and the mode of a row, as the opcode map names them. -/
def Entry.handler : Entry → String
  | implied handler _ => handler.name
  | addressed handler _ _ => handler.name

def Entry.mode : Entry → Option Mode
  | implied _ _ => none
  | addressed _ mode _ => some mode

/-- `_BRANCHES`. -/
def branches : List String := ["bpl", "bmi", "bvc", "bvs", "bcc", "bcs", "bne", "beq"]

/-- `_UNDOCUMENTED_HANDLERS`. -/
def undocumentedHandlers : List String := [
  "slo", "rla", "sre", "rra", "sax", "lax", "dcp", "isc", "anc", "alr", "arr",
  "sbx", "usbc", "las", "jam", "sha", "shx", "shy", "tas", "ane", "lxa"]

/-- Whether an opcode is in `DOCUMENTED`. -/
def documented (opcode : Byte) : Bool :=
  (opcodes opcode).handler ∉ undocumentedHandlers ∧ (opcodes opcode).handler ≠ "nop_read" ∧
    opcode.val ∉ [0x1A, 0x3A, 0x5A, 0x7A, 0xDA, 0xFA]

/-- `handler.endswith("_a")`. -/
def endsWithA (handler : String) : Bool := "_a".toList.isSuffixOf handler.toList

/-- `_form`: the mnemonic and the mode of a row. -/
def Entry.form (entry : Entry) : String × OperandMode :=
  let handler := entry.handler
  let mode := (entry.mode.map Mode.operandMode).getD .implied
  if handler ∈ branches then (handler.toUpper, .relative)
  else if endsWithA handler then ((handler.dropEnd 2).copy.toUpper, .accumulator)
  else if handler = "jmp_ind" then ("JMP", .indirect)
  else if handler = "jmp" ∨ handler = "jsr" then (handler.toUpper, .absolute)
  else if handler = "nop_read" then ("NOP", mode)
  else (handler.toUpper, mode)

/-! ## Instructions -/

/-- A decoded instruction and the bytes it occupies. -/
@[ext] structure Instruction where
  address : ℕ
  data : List Byte
  mnemonic : String
  operands : List String := []
  mode : OperandMode := .implied
  /-- The zero-page, absolute, pointer or branch address the operand names, before any indexing. -/
  target : Option ℕ := none
  documented : Bool := true
  address_le : address ≤ 0xFFFF
  data_ne : data ≠ []
  mnemonic_ne : mnemonic ≠ ""
  deriving Repr

instance : DecidableEq Instruction := fun _ _ => decidable_of_iff' _ Instruction.ext_iff

namespace Instruction

/-- `Instruction.__post_init__`: each check in its order, with the text of its `ValueError`. -/
def make (address : ℕ) (data : List Byte) (mnemonic : String) (operands : List String)
    (mode : OperandMode) (target : Option ℕ) (documented : Bool) : Except String Instruction :=
  if haddress : address ≤ 0xFFFF then
    if hdata : data = [] then .error "data must contain at least one byte"
    else if hmnemonic : mnemonic = "" then .error "mnemonic must not be empty"
    else .ok {
      address, data, mnemonic, operands, mode, target, documented
      address_le := haddress, data_ne := hdata, mnemonic_ne := hmnemonic }
  else .error "address must be an integer in range 0x0000..0xFFFF"

def size (instruction : Instruction) : ℕ := instruction.data.length

def nextAddress (instruction : Instruction) : ℕ := (instruction.address + instruction.size) &&& 0xFFFF

end Instruction

/-! ## Decoding -/

/-- `f"{value:0{width}X}"`. -/
def hex (width value : ℕ) : String :=
  String.ofList (((Nat.toDigits 16 value).map Char.toUpper).leftpad width '0')

/-- The byte `n` of an instruction's data. -/
def dataAt (data : List Byte) (n : ℕ) : ℕ := (data.map Fin.val).getD n 0

/-- The operands and the target of an instruction at `address` with these bytes. -/
def OperandMode.operand (address : ℕ) (data : List Byte) : OperandMode → List String × Option ℕ
  | implied => ([], none)
  | accumulator => (["A"], none)
  | immediate => (["#$" ++ hex 2 (dataAt data 1)], none)
  | relative =>
    let byte := dataAt data 1
    let offset : ℤ := if byte &&& 0x80 ≠ 0 then (byte : ℤ) - 0x100 else byte
    let target := masked 16 ((address : ℤ) + 2 + offset)
    (["$" ++ hex 4 target], some target)
  | zeroPage => (["$" ++ hex 2 (dataAt data 1)], some (dataAt data 1))
  | zeroPageX => (["$" ++ hex 2 (dataAt data 1), "X"], some (dataAt data 1))
  | zeroPageY => (["$" ++ hex 2 (dataAt data 1), "Y"], some (dataAt data 1))
  | indexedIndirect => (["($" ++ hex 2 (dataAt data 1), "X)"], some (dataAt data 1))
  | indirectIndexed => (["($" ++ hex 2 (dataAt data 1) ++ ")", "Y"], some (dataAt data 1))
  | absolute => (["$" ++ hex 4 (word data)], some (word data))
  | absoluteX => (["$" ++ hex 4 (word data), "X"], some (word data))
  | absoluteY => (["$" ++ hex 4 (word data), "Y"], some (word data))
  | indirect => (["($" ++ hex 4 (word data) ++ ")"], some (word data))
where
  word (data : List Byte) : ℕ := dataAt data 1 ||| (dataAt data 2 <<< 8)

/-- `_byte`: a reader may raise, and what it returns need not be a byte. -/
def byte (reader : ℕ → Except String ℤ) (address : ℕ) : Except String Byte := do
  let value ← reader address
  if h : 0 ≤ value ∧ value ≤ 0xFF then .ok ⟨value.toNat, by omega⟩
  else .error ("byte reader returned a non-byte value at 0x" ++ hex 4 address)

/-- `disassemble`: the reader is called with 16-bit addresses. -/
def disassemble (reader : ℕ → Except String ℤ) (address : ℕ) : Except String Instruction := do
  if 0xFFFF < address then .error "address must be an integer in range 0x0000..0xFFFF"
  else
    let opcode ← byte reader address
    let (mnemonic, mode) := (opcodes opcode).form
    let data ← (List.range mode.length).mapM fun n => byte reader ((address + n) &&& 0xFFFF)
    let (operands, target) := mode.operand address data
    Instruction.make address data mnemonic operands mode target (documented opcode)

/-- What `_byte` returns is what the reader did. -/
theorem byte_eq_ok {reader : ℕ → Except String ℤ} {address : ℕ} {value : Byte} :
    byte reader address = .ok value ↔ reader address = .ok value := by
  rw [byte]
  cases reader address with
  | error text => exact iff_of_false (fun h => by cases h) (fun h => by cases h)
  | ok found =>
    show (if h : 0 ≤ found ∧ found ≤ 0xFF then _ else _) = _ ↔ _
    rw [Except.ok.injEq]
    have hvalue := value.isLt
    split
    · next hfound =>
      rw [Except.ok.injEq, Fin.ext_iff]
      show found.toNat = value.val ↔ _
      omega
    · next hfound =>
      refine iff_of_false (fun h => by cases h) fun h => hfound ?_
      omega

theorem byte_ok (memory : ℕ → Byte) (address : ℕ) : byte (fun a => .ok (memory a)) address = .ok (memory address) :=
  byte_eq_ok.mpr rfl

/-! ## On bytes that are all there -/

theorem toUpper_ne {s : String} (h : s ≠ "") : s.toUpper ≠ "" := fun hs => h (String.map_eq_empty.mp hs)

theorem Implied.name_ne (handler : Implied) : handler.name ≠ "" := by
  cases handler <;> decide

theorem Addressed.name_ne (handler : Addressed) : handler.name ≠ "" := by
  cases handler <;> decide

theorem Entry.handler_ne : ∀ entry : Entry, entry.handler ≠ ""
  | .implied handler _ => handler.name_ne
  | .addressed handler _ _ => handler.name_ne

theorem Implied.stem_ne {handler : Implied} (h : endsWithA handler.name = true) :
    (handler.name.dropEnd 2).copy ≠ "" := by
  cases handler <;> first | (cases h; done) | decide +kernel

theorem Addressed.not_endsWithA (handler : Addressed) : endsWithA handler.name = false := by
  cases handler <;> rfl

theorem Entry.stem_ne {entry : Entry} (h : endsWithA entry.handler = true) :
    (entry.handler.dropEnd 2).copy ≠ "" := by
  cases entry with
  | implied handler _ => exact Implied.stem_ne h
  | addressed handler _ _ =>
    rw [Entry.handler, handler.not_endsWithA] at h
    cases h

theorem Entry.mnemonic_ne (entry : Entry) : entry.form.1 ≠ "" := by
  unfold form
  extract_lets handler mode
  split
  · exact toUpper_ne entry.handler_ne
  · split
    case isTrue h => exact toUpper_ne (stem_ne h)
    case isFalse =>
      split
      · exact (by decide : "JMP" ≠ "")
      · split
        · exact toUpper_ne entry.handler_ne
        · split
          · exact (by decide : "NOP" ≠ "")
          · exact toUpper_ne entry.handler_ne

theorem OperandMode.length_pos (mode : OperandMode) : 0 < mode.length := by
  cases mode <;> decide

/-- The bytes of an instruction of this mode. -/
def OperandMode.bytes (memory : ℕ → Byte) (address : ℕ) (mode : OperandMode) : List Byte :=
  (List.range mode.length).map fun n => memory ((address + n) &&& 0xFFFF)

/-- The instruction in memory at an address. -/
def decoded (memory : ℕ → Byte) {address : ℕ} (h : address ≤ 0xFFFF) : Instruction :=
  let opcode := memory address
  let mode := (opcodes opcode).form.2
  let data := mode.bytes memory address
  { address, data, mnemonic := (opcodes opcode).form.1, operands := (mode.operand address data).1, mode
    target := (mode.operand address data).2, documented := documented opcode, address_le := h
    data_ne := by
      have hlen := mode.length_pos
      simp only [data, OperandMode.bytes, ne_eq, List.map_eq_nil_iff, List.range_eq_nil]
      omega
    mnemonic_ne := Entry.mnemonic_ne (opcodes opcode) }

theorem disassemble_eq (memory : ℕ → Byte) {address : ℕ} (h : address ≤ 0xFFFF) :
    disassemble (fun a => .ok (memory a)) address = .ok (decoded memory h) := by
  have hdata : (List.range (opcodes (memory address)).form.2.length).mapM
      (fun n => (.ok (memory ((address + n) &&& 0xFFFF)) : Except String Byte)) =
        .ok ((opcodes (memory address)).form.2.bytes memory address) := List.mapM_pure
  have hne := (decoded memory h).data_ne
  change OperandMode.bytes memory address (opcodes (memory address)).form.2 ≠ [] at hne
  rw [disassemble, if_neg (Nat.not_lt.mpr h)]
  simp only [byte_ok, bind, Except.bind, hdata]
  rw [Instruction.make, dif_pos h, dif_neg hne, dif_neg (Entry.mnemonic_ne _)]
  rfl

end SixFiveOhTwo
