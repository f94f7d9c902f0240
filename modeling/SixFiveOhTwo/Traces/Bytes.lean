import SixFiveOhTwo.Debug.Disasm

/-! # Disassembling bytes (`disassemble_bytes`)

The bytes at hand may be fewer than the instruction needs, or more; what is decoded occupies the bytes
its opcode asks for.
-/

namespace SixFiveOhTwo
open Bits
set_option autoImplicit false

/-- The `reader` of `disassemble_bytes`. -/
def suppliedReader (data : List Byte) (address place : ℕ) : Except String ℤ :=
  match data[masked 16 ((place : ℤ) - address)]? with
  | some value => .ok value
  | none => .error ("instruction at 0x" ++ hex 4 address ++ " runs past the supplied bytes")

/-- `disassemble_bytes`. -/
def disassembleBytes (data : List Byte) (address : ℕ) : Except String Instruction :=
  if data = [] then .error "data must not be empty"
  else disassemble (suppliedReader data address) address

/-- The bytes that the instruction of an opcode occupies. -/
def lengthOf (opcode : Byte) : ℕ := (opcodes opcode).form.2.length

/-- The instruction of an opcode in the bytes at an address. -/
def Instruction.ofBytes (opcode : Byte) (data : List Byte) (hdata : data ≠ []) {address : ℕ} (h : address ≤ 0xFFFF) :
    Instruction :=
  let mode := (opcodes opcode).form.2
  { address, data, mnemonic := (opcodes opcode).form.1, operands := (mode.operand address data).1, mode
    target := (mode.operand address data).2, documented := SixFiveOhTwo.documented opcode, address_le := h
    data_ne := hdata, mnemonic_ne := Entry.mnemonic_ne (opcodes opcode) }

theorem OperandMode.length_le (mode : OperandMode) : mode.length ≤ 3 := by cases mode <;> decide

/-- The byte `n` after an address is the byte `n` of what sits there. -/
theorem byte_suppliedReader (data : List Byte) (address : ℕ) {n : ℕ} (hn : n ≤ 0xFF) :
    byte (suppliedReader data address) ((address + n) &&& 0xFFFF) = (data[n]?).elim
      (.error ("instruction at 0x" ++ hex 4 address ++ " runs past the supplied bytes")) .ok := by
  have hoffset : masked 16 ((((address + n) &&& 0xFFFF : ℕ) : ℤ) - address) = n := by
    rw [masked, and_ffff]
    omega
  cases h : data[n]? with
  | none =>
    rw [byte, suppliedReader, hoffset, h]
    rfl
  | some value =>
    refine byte_eq_ok.mpr ?_
    rw [suppliedReader, hoffset, h]

theorem mapM_take {α ε : Type} {f : ℕ → Except ε α} (data : List α) (raised : ε) :
    ∀ n, (∀ i < n, f i = (data[i]?).elim (.error raised) .ok) →
      (List.range n).mapM f = if n ≤ data.length then .ok (data.take n) else .error raised
  | 0, _ => by simp; rfl
  | n + 1, hf => by
    have ih := mapM_take data raised n fun i hi => hf i (Nat.lt_succ_of_lt hi)
    have hlast := hf n (Nat.lt_succ_self n)
    rw [List.range_succ, List.mapM_append, ih]
    simp only [List.mapM_cons, List.mapM_nil]
    by_cases hlt : n < data.length
    · rw [List.getElem?_eq_getElem hlt] at hlast
      rw [if_pos hlt.le, if_pos (Nat.succ_le_of_lt hlt), hlast, List.take_succ_eq_append_getElem hlt]
      rfl
    · rw [List.getElem?_eq_none (Nat.le_of_not_lt hlt)] at hlast
      rw [if_neg (Nat.not_le.mpr (Nat.lt_succ_of_le (Nat.le_of_not_lt hlt))), hlast]
      split <;> rfl

theorem lengthOf_pos (opcode : Byte) : 0 < lengthOf opcode := OperandMode.length_pos _

theorem disassembleBytes_cons (opcode : Byte) (rest : List Byte) {address : ℕ} (h : address ≤ 0xFFFF) :
    disassembleBytes (opcode :: rest) address =
      if lengthOf opcode ≤ (opcode :: rest).length then
        .ok (.ofBytes opcode (opcode :: rest.take (lengthOf opcode - 1)) (List.cons_ne_nil _ _) h)
      else .error ("instruction at 0x" ++ hex 4 address ++ " runs past the supplied bytes") := by
  have hfirst : byte (suppliedReader (opcode :: rest) address) address = .ok opcode := by
    refine byte_eq_ok.mpr ?_
    rw [suppliedReader, Int.sub_self]
    rfl
  have hdata := mapM_take (opcode :: rest) ("instruction at 0x" ++ hex 4 address ++ " runs past the supplied bytes")
    (lengthOf opcode) fun i hi => byte_suppliedReader (opcode :: rest) address
      (hi.le.trans ((opcodes opcode).form.2.length_le.trans (by decide)))
  have htake : (opcode :: rest).take (lengthOf opcode) = opcode :: rest.take (lengthOf opcode - 1) :=
    List.take_cons (lengthOf_pos opcode)
  rw [disassembleBytes, if_neg (List.cons_ne_nil _ _), disassemble, if_neg (Nat.not_lt.mpr h)]
  simp only [hfirst, bind, Except.bind]
  rw [← lengthOf, hdata]
  by_cases hle : lengthOf opcode ≤ (opcode :: rest).length
  · rw [if_pos hle, if_pos hle, htake]
    change Instruction.make _ _ _ _ _ _ _ = _
    rw [Instruction.make, dif_pos h, dif_neg (List.cons_ne_nil _ _), dif_neg (Entry.mnemonic_ne _)]
    rfl
  · rw [if_neg hle, if_neg hle]

/-- Bytes are an instruction that occupies them all if they are as many as their opcode asks for. -/
theorem disassembleBytes_whole {data : List Byte} {address : ℕ} (h : address ≤ 0xFFFF) {instruction : Instruction} :
    disassembleBytes data address = .ok instruction ∧ instruction.data = data ↔
      ∃ opcode rest, data = opcode :: rest ∧ data.length = lengthOf opcode ∧
        instruction = .ofBytes opcode (opcode :: rest) (List.cons_ne_nil _ _) h := by
  cases data with
  | nil => exact iff_of_false (fun ⟨hok, _⟩ => by cases hok) (fun ⟨_, _, hnil, _⟩ => by cases hnil)
  | cons opcode rest =>
    have hpos := lengthOf_pos opcode
    rw [disassembleBytes_cons opcode rest h]
    constructor
    · rintro ⟨hok, hdata⟩
      split at hok
      case isFalse => cases hok
      case isTrue hle =>
        cases hok
        have htake : rest.take (lengthOf opcode - 1) = rest := List.tail_eq_of_cons_eq hdata
        have hlen := List.take_eq_self_iff rest |>.mp htake
        rw [List.length_cons] at hle
        refine ⟨opcode, rest, rfl, ?_, ?_⟩
        · rw [List.length_cons]
          omega
        · congr 1
    · rintro ⟨_, _, heq, hlen, rfl⟩
      cases heq
      have htake : rest.take (lengthOf opcode - 1) = rest :=
        List.take_of_length_le (by rw [← hlen, List.length_cons]; exact Nat.le_of_eq rfl)
      rw [if_pos hlen.ge]
      simp only [htake, true_and]
      rfl

end SixFiveOhTwo
