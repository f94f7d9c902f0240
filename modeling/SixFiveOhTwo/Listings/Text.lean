import SixFiveOhTwo.Debug.Agreement
import SixFiveOhTwo.Debug.Console
import SixFiveOhTwo.Debug.Divergence

/-! # The text of an instruction

The text of an instruction, at the address it is at, tells its bytes: the mnemonic ends at the blank, the layout of
the operand tells the mode, but that a branch looks like an absolute operand, and its digits tell the operand. Of two
documented opcodes no two have the same mnemonic and mode.
-/

namespace SixFiveOhTwo
open Bits Hexadecimal
set_option autoImplicit false

/-! ## Hexadecimal digits in a text -/

/-- Whether a character is a hexadecimal digit. -/
def isDigit (c : Char) : Bool := (digitValue c).isSome

/-- A character, or `0` for any digit. -/
def blurred (c : Char) : Char := if isDigit c then '0' else c

theorem hex_toList (width value : ℕ) :
    (hex width value).toList = ((Nat.toDigits 16 value).map Char.toUpper).leftpad width '0' := by
  rw [hex, String.toList_ofList]

theorem isDigit_toDigits (value : ℕ) : ∀ c ∈ (Nat.toDigits 16 value).map Char.toUpper, isDigit c = true := by
  have hdigit : ∀ d < 16, isDigit (Nat.digitChar d).toUpper = true := by decide
  induction value using Nat.strongRecOn with
  | ind value ih =>
    rw [Nat.toDigits_eq_if (by decide)]
    by_cases h : value < 16
    · rw [if_pos h]
      simpa using hdigit value h
    · rw [if_neg h, List.map_append]
      intro c hc
      rcases List.mem_append.mp hc with hc | hc
      · exact ih (value / 16) (by omega) c hc
      · obtain rfl := List.mem_singleton.mp hc
        exact hdigit (value % 16) (Nat.mod_lt value (by decide))

theorem isDigit_hex (width value : ℕ) : ∀ c ∈ (hex width value).toList, isDigit c = true := by
  intro c hc
  rw [hex_toList, List.leftpad] at hc
  rcases List.mem_append.mp hc with hc | hc
  · obtain rfl := List.eq_of_mem_replicate hc
    rfl
  · exact isDigit_toDigits value c hc

theorem hex_filter (width value : ℕ) : (hex width value).toList.filter isDigit = (hex width value).toList :=
  List.filter_eq_self.mpr (isDigit_hex width value)

theorem hex_blurred {width value : ℕ} (hpos : 0 < width) (h : value < 16 ^ width) :
    (hex width value).toList.map blurred = List.replicate width '0' := by
  have hlength : (hex width value).toList.length = width := length_hex hpos h
  have hblurred : ∀ c ∈ (hex width value).toList, blurred c = '0' := by
    intro c hc
    rw [blurred, isDigit_hex width value c hc]
    rfl
  rw [List.map_congr_left hblurred, List.map_const', hlength]

/-! ## The operand -/

/-- The layout of an operand, with zeros for its digits. -/
def OperandMode.layout : OperandMode → String
  | implied => ""
  | accumulator => "0"
  | immediate => "#$00"
  | zeroPage => "$00"
  | zeroPageX => "$00,X"
  | zeroPageY => "$00,Y"
  | indexedIndirect => "($00,X)"
  | indirectIndexed => "($00),Y"
  | absolute | relative => "$0000"
  | absoluteX => "$0000,X"
  | absoluteY => "$0000,Y"
  | indirect => "($0000)"

/-- What the digits of an operand stand for. -/
def OperandMode.digits (address : ℕ) (data : List Byte) (mode : OperandMode) : ℕ :=
  match mode with
  | implied | accumulator => 0
  | immediate => dataAt data 1
  | mode => ((mode.operand address data).2).getD 0

/-- The operands as the text has them. -/
def OperandMode.written (address : ℕ) (data : List Byte) (mode : OperandMode) : List Char :=
  (",".intercalate (mode.operand address data).1).toList

theorem written_one (first : String) : (",".intercalate [first]).toList = first.toList := rfl

theorem written_two (first second : String) :
    (",".intercalate [first, second]).toList = first.toList ++ ',' :: second.toList := by
  show (first ++ "," ++ second).toList = _
  simp

theorem word_lt (data : List Byte) : OperandMode.operand.word data < 16 ^ 4 := by
  have hword : OperandMode.operand.word data ≤ 0xFFFF := by
    rw [OperandMode.operand.word, Nat.or_comm]
    exact word_le (dataAt_le data 2) (dataAt_le data 1)
  omega

theorem marks : blurred '#' = '#' ∧ blurred '$' = '$' ∧ blurred '(' = '(' ∧ blurred ')' = ')' ∧ blurred ',' = ',' ∧
    blurred 'X' = 'X' ∧ blurred 'Y' = 'Y' := by
  decide

theorem OperandMode.written_layout (address : ℕ) (data : List Byte) (mode : OperandMode) :
    (mode.written address data).map blurred = mode.layout.toList := by
  have hbyte : (hex 2 (dataAt data 1)).toList.map blurred = ['0', '0'] :=
    hex_blurred (by decide) (Nat.lt_succ_of_le (dataAt_le data 1))
  have hword : (hex 4 (operand.word data)).toList.map blurred = ['0', '0', '0', '0'] :=
    hex_blurred (by decide) (word_lt data)
  have htarget (x : ℤ) : (hex 4 (masked 16 x)).toList.map blurred = ['0', '0', '0', '0'] :=
    hex_blurred (by decide) (masked_lt 16 x)
  cases mode with
  | implied => rfl
  | accumulator =>
    show "A".toList.map blurred = "0".toList
    decide
  | immediate | zeroPage | absolute | indirect | relative =>
    rw [written, operand, written_one]
    simp [layout, marks, hbyte, hword, htarget]
  | zeroPageX | zeroPageY | indexedIndirect | indirectIndexed | absoluteX | absoluteY =>
    rw [written, operand, written_two]
    simp [layout, marks, hbyte, hword]

theorem OperandMode.written_digits (address : ℕ) (data : List Byte) {mode : OperandMode} (h : mode ≠ .accumulator) :
    Hexadecimal.number ((mode.written address data).filter isDigit) = mode.digits address data := by
  have hmarks : isDigit '#' = false ∧ isDigit '$' = false ∧ isDigit '(' = false ∧ isDigit ')' = false ∧
    isDigit ',' = false ∧ isDigit 'X' = false ∧ isDigit 'Y' = false := by decide
  cases mode with
  | implied => rfl
  | accumulator => exact absurd rfl h
  | immediate | zeroPage | absolute | indirect | relative =>
    rw [written, operand, written_one]
    simp [digits, operand, hmarks, hex_filter, number_hex]
  | zeroPageX | zeroPageY | indexedIndirect | indirectIndexed | absoluteX | absoluteY =>
    rw [written, operand, written_two]
    simp [digits, operand, hmarks, hex_filter, number_hex]

/-! ## The bytes of an operand -/

theorem word_inj {a a' b b' : Byte} (h : a.val ||| (b.val <<< 8) = a'.val ||| (b'.val <<< 8)) : a = a' ∧ b = b' := by
  have hsum (low high : Byte) : low.val ||| (high.val <<< 8) = high.val * 256 + low.val := by
    have hlt : low.val < 2 ^ 8 := low.isLt
    rw [Nat.or_comm, ← Nat.shiftLeft_add_eq_or_of_lt hlt, Nat.shiftLeft_eq]
  rw [hsum, hsum] at h
  exact ⟨Fin.ext (by omega), Fin.ext (by omega)⟩

theorem target_inj {address : ℕ} {a a' : Byte}
    (h : masked 16 ((address : ℤ) + 2 + if a.val &&& 0x80 ≠ 0 then (a.val : ℤ) - 0x100 else a.val) =
      masked 16 ((address : ℤ) + 2 + if a'.val &&& 0x80 ≠ 0 then (a'.val : ℤ) - 0x100 else a'.val)) : a = a' := by
  have hlow (v : Byte) : masked 16 ((address : ℤ) + 2 + if v.val &&& 0x80 ≠ 0 then (v.val : ℤ) - 0x100 else v.val) % 256 =
      (address + 2 + v.val) % 256 := by
    rw [masked]
    split <;> omega
  have hsame : (address + 2 + a.val) % 256 = (address + 2 + a'.val) % 256 := by rw [← hlow a, h, hlow a']
  exact Fin.ext (by omega)

/-- The digits of an operand tell its bytes. -/
theorem OperandMode.digits_inj {memory memory' : ℕ → Byte} {address : ℕ} {mode : OperandMode}
    (h : mode.digits address (mode.bytes memory address) = mode.digits address (mode.bytes memory' address)) :
    ∀ n < mode.length, 0 < n → memory ((address + n) &&& 0xFFFF) = memory' ((address + n) &&& 0xFFFF) := by
  intro n hn hpos
  cases mode with
  | implied | accumulator => exact absurd hn (by rw [length]; omega)
  | immediate | zeroPage | zeroPageX | zeroPageY | indexedIndirect | indirectIndexed =>
    obtain rfl : n = 1 := Nat.le_antisymm (Nat.le_of_lt_succ hn) hpos
    exact Fin.ext h
  | relative =>
    obtain rfl : n = 1 := Nat.le_antisymm (Nat.le_of_lt_succ hn) hpos
    exact target_inj h
  | absolute | absoluteX | absoluteY | indirect =>
    obtain ⟨hlow, hhigh⟩ := word_inj h
    obtain rfl | rfl : n = 1 ∨ n = 2 := by rw [length] at hn; omega
    · exact hlow
    · exact hhigh

/-! ## The opcode of a text -/

/-- A number for a mnemonic and a mode. -/
def formCode (form : String × OperandMode) : ℕ :=
  let mode := match form.2 with
    | .implied => 0
    | .accumulator => 1
    | .immediate => 2
    | .zeroPage => 3
    | .zeroPageX => 4
    | .zeroPageY => 5
    | .absolute => 6
    | .absoluteX => 7
    | .absoluteY => 8
    | .indirect => 9
    | .indexedIndirect => 10
    | .indirectIndexed => 11
    | .relative => 12
  form.1.toList.foldl (fun n c => 256 * n + c.toNat) mode

theorem opcodes_coded : (((List.finRange 256).filter documented).map fun opcode => formCode (opcodes opcode).form).Nodup := by
  decide +kernel

theorem Entry.form_named {entry : Entry} (hbranch : entry.handler ∉ branches) (ha : endsWithA entry.handler = false)
    (hind : entry.handler ≠ "jmp_ind") (hjmp : entry.handler ≠ "jmp") (hjsr : entry.handler ≠ "jsr") :
    entry.form = (if entry.handler = "nop_read" then "NOP" else entry.handler.toUpper,
      (entry.mode.map Mode.operandMode).getD .implied) := by
  simp only [form, hbranch, ha, hind, hjmp, hjsr, or_self, if_false, Bool.false_eq_true]
  split <;> rfl

/-- A mnemonic has no blank, and tells whether the instruction branches. -/
theorem Entry.form_plainly (entry : Entry) : ' ' ∉ entry.form.1.toList ∧
    (entry.form.2 = .relative ↔ entry.form.1 ∈ branches.map String.toUpper) := by
  cases entry with
  | implied handler cycles =>
    have hform : (implied handler cycles).form = (implied handler 0).form := rfl
    rw [hform]
    cases handler <;> decide +kernel
  | addressed handler mode cycles =>
    have hmode : mode.operandMode ≠ .relative := by cases mode <;> decide
    have hname : ' ' ∉ (if handler.name = "nop_read" then "NOP" else handler.name.toUpper).toList ∧
        (if handler.name = "nop_read" then "NOP" else handler.name.toUpper) ∉ branches.map String.toUpper := by
      cases handler <;> decide +kernel
    obtain ⟨hbranch, hind, hjmp, hjsr⟩ := handler.name_plain
    have hform : (addressed handler mode cycles).form =
        (if handler.name = "nop_read" then "NOP" else handler.name.toUpper, mode.operandMode) :=
      form_named hbranch handler.not_endsWithA hind hjmp hjsr
    rw [hform]
    exact ⟨hname.1, iff_of_false hmode hname.2⟩

theorem documented_inj {opcode opcode' : Byte} (h : documented opcode = true) (h' : documented opcode' = true)
    (hform : (opcodes opcode).form = (opcodes opcode').form) : opcode = opcode' :=
  List.inj_on_of_nodup_map opcodes_coded (List.mem_filter.mpr ⟨List.mem_finRange opcode, h⟩)
    (List.mem_filter.mpr ⟨List.mem_finRange opcode', h'⟩) (congrArg formCode hform)

/-! ## What a text tells -/

/-- Words without a blank are told from what follows them, if that begins with a blank. -/
theorem blank_inj {name name' rest rest' : List Char} (hname : ' ' ∉ name) (hname' : ' ' ∉ name')
    (hrest : ∀ c ∈ rest.head?, c = ' ') (hrest' : ∀ c ∈ rest'.head?, c = ' ')
    (h : name ++ rest = name' ++ rest') : name = name' ∧ rest = rest' := by
  have htake {name rest : List Char} (hname : ' ' ∉ name) (hrest : ∀ c ∈ rest.head?, c = ' ') :
      (name ++ rest).takeWhile (· ≠ ' ') = name := by
    have hnone : rest.takeWhile (· ≠ ' ') = [] := by
      cases rest with
      | nil => rfl
      | cons c rest =>
        obtain rfl := hrest c rfl
        rfl
    have hall : ∀ c ∈ name, decide (c ≠ ' ') = true := by
      intro c hc
      exact decide_eq_true fun he => hname (he ▸ hc)
    rw [List.takeWhile_append_of_pos hall, hnone, List.append_nil]
  have hsame : name = name' := by rw [← htake hname hrest, h, htake hname' hrest']
  subst hsame
  exact ⟨rfl, List.append_cancel_left h⟩

/-- What follows the mnemonic of an instruction. -/
def OperandMode.rest (address : ℕ) (data : List Byte) (mode : OperandMode) : List Char :=
  if mode = .implied then [] else ' ' :: mode.written address data

theorem OperandMode.operand_eq_nil (address : ℕ) (data : List Byte) (mode : OperandMode) :
    (mode.operand address data).1 = [] ↔ mode = .implied := by
  cases mode <;> simp [operand]

theorem OperandMode.rest_head (address : ℕ) (data : List Byte) (mode : OperandMode) :
    ∀ c ∈ (mode.rest address data).head?, c = ' ' := by
  intro c hc
  rw [rest] at hc
  split at hc
  · cases hc
  · exact (Option.some.inj hc).symm

theorem OperandMode.layout_inj {mode mode' : OperandMode} (h : mode.layout.toList = mode'.layout.toList)
    (hrelative : mode = .relative ↔ mode' = .relative) : mode = mode' := by
  cases mode <;> cases mode' <;> first | rfl | (simp at hrelative; done) | simp [layout] at h

theorem OperandMode.rest_inj {address : ℕ} {data data' : List Byte} {mode mode' : OperandMode}
    (h : mode.rest address data = mode'.rest address data') (hrelative : mode = .relative ↔ mode' = .relative) :
    mode = mode' ∧ mode.digits address data = mode'.digits address data' := by
  have hwritten : mode.written address data = mode'.written address data' := by
    rw [rest, rest] at h
    split at h
    case isTrue hmode =>
      subst hmode
      split at h
      · next hmode' =>
        subst hmode'
        rfl
      · cases h
    case isFalse =>
      split at h
      · cases h
      · exact (List.cons.inj h).2
  have hlayout : mode.layout.toList = mode'.layout.toList := by
    rw [← mode.written_layout address data, ← mode'.written_layout address data', hwritten]
  obtain rfl := layout_inj hlayout hrelative
  refine ⟨rfl, ?_⟩
  by_cases ha : mode = .accumulator
  · rw [ha]
    rfl
  · rw [← written_digits address data ha, ← written_digits address data' ha, hwritten]

section
variable {memory memory' : ℕ → Byte} {address : ℕ} (h : address ≤ 0xFFFF)

theorem decoded_text : (decoded memory h).text.toList = (opcodes (memory address)).form.1.toList ++
    (opcodes (memory address)).form.2.rest address ((opcodes (memory address)).form.2.bytes memory address) := by
  show (if ((opcodes (memory address)).form.2.operand address _).1 = [] then _ else _ : String).toList = _
  rw [OperandMode.rest]
  simp only [OperandMode.operand_eq_nil]
  split
  · rw [List.append_nil]
    rfl
  · simp only [String.toList_append, List.append_assoc]
    rfl

/-- A text tells the mnemonic, the mode and the operand. -/
theorem text_form (htext : (decoded memory h).text = (decoded memory' h).text) :
    (opcodes (memory address)).form = (opcodes (memory' address)).form ∧ ∀ n < (decoded memory h).data.length, 0 < n →
      memory ((address + n) &&& 0xFFFF) = memory' ((address + n) &&& 0xFFFF) := by
  obtain ⟨hblank, hrelative⟩ := (opcodes (memory address)).form_plainly
  obtain ⟨hblank', hrelative'⟩ := (opcodes (memory' address)).form_plainly
  have hchars := congrArg String.toList htext
  rw [decoded_text, decoded_text] at hchars
  obtain ⟨hname, hrest⟩ := blank_inj hblank hblank' (OperandMode.rest_head _ _ _) (OperandMode.rest_head _ _ _) hchars
  have hmnemonic : (opcodes (memory address)).form.1 = (opcodes (memory' address)).form.1 := String.toList_inj.mp hname
  obtain ⟨hmode, hdigits⟩ := OperandMode.rest_inj hrest (by rw [hrelative, hrelative', hmnemonic])
  refine ⟨Prod.ext hmnemonic hmode, fun n hn hpos => ?_⟩
  have hlength : (decoded memory h).data.length = (opcodes (memory address)).form.2.length := by
    simp [decoded, OperandMode.bytes]
  rw [← hmode] at hdigits
  exact OperandMode.digits_inj hdigits n (hlength ▸ hn) hpos

/-- The text of a documented instruction tells its bytes. -/
theorem text_bytes (htext : (decoded memory h).text = (decoded memory' h).text)
    (hdocumented : (decoded memory h).documented = true) (hdocumented' : (decoded memory' h).documented = true) :
    ∀ n < (decoded memory h).data.length, memory ((address + n) &&& 0xFFFF) = memory' ((address + n) &&& 0xFFFF) := by
  obtain ⟨hform, hrest⟩ := text_form h htext
  intro n hn
  rcases n.eq_zero_or_pos with rfl | hpos
  · rw [Nat.add_zero, and_ffff, Nat.mod_eq_of_lt (Nat.lt_succ_of_le h)]
    exact documented_inj hdocumented hdocumented' hform
  · exact hrest n hn hpos

end

end SixFiveOhTwo
