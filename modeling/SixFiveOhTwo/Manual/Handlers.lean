import SixFiveOhTwo.Manual.Operands
import SixFiveOhTwo.Parts.Connected

/-! # The handlers perform the programming model

Each handler of a documented opcode, on a flat memory, does what the programming model says of its
instruction.
-/

namespace SixFiveOhTwo
open Bits Interaction Code Manual
set_option autoImplicit false
set_option maxRecDepth 10000

/-- A chip with the decimal adjust connected or not. -/
def Chip.part (chip : Chip) (adjusts : Bool) : Chip := if adjusts then chip.connected else chip.disconnected

/-! ## Results -/

section Results
variable (c : Core) (memory : ℕ → Byte) {r : ℕ} (hr : r ≤ 0xFF)
include hr

theorem state_setNz : State.of { c with p := without c.p (flagN ||| flagZ) ||| nz r } memory =
    (State.of c memory).setNz (.ofNat 8 r) := by
  rw [State.of, flags_nz c.p hr]
  rfl

theorem state_loadA : State.of { c with a := r, p := without c.p (flagN ||| flagZ) ||| nz r } memory =
    (State.of c memory).loadA (.ofNat 8 r) := by
  rw [State.of, flags_nz c.p hr]
  rfl

theorem state_loadX : State.of { c with x := r, p := without c.p (flagN ||| flagZ) ||| nz r } memory =
    (State.of c memory).loadX (.ofNat 8 r) := by
  rw [State.of, flags_nz c.p hr]
  rfl

theorem state_loadY : State.of { c with y := r, p := without c.p (flagN ||| flagZ) ||| nz r } memory =
    (State.of c memory).loadY (.ofNat 8 r) := by
  rw [State.of, flags_nz c.p hr]
  rfl

end Results

theorem state_compare (c : Core) (memory : ℕ → Byte) {register value : ℕ} (hr : register ≤ 0xFF) (hv : value ≤ 0xFF) :
    State.of { c with
        p := (if value ≤ register then
            without c.p (flagN ||| flagZ ||| flagC) ||| nz (masked 8 ((register : ℤ) - value)) ||| flagC
          else without c.p (flagN ||| flagZ ||| flagC) ||| nz (masked 8 ((register : ℤ) - value))) } memory =
      (State.of c memory).compare (.ofNat 8 register) (.ofNat 8 value) := by
  rw [State.of, flags_compare c.p hr hv]
  rfl

theorem state_bit (c : Core) (memory : ℕ → Byte) (ha : c.a ≤ 0xFF) (value : ℕ) :
    State.of { c with
        p := (if c.a &&& value = 0 then
            without c.p (flagN ||| flagV ||| flagZ) ||| value &&& (flagN ||| flagV) ||| flagZ
          else without c.p (flagN ||| flagV ||| flagZ) ||| value &&& (flagN ||| flagV)) } memory =
      { State.of c memory with flags := { Flags.of c.p with
        n := (BitVec.ofNat 8 value).getLsbD 7
        v := (BitVec.ofNat 8 value).getLsbD 6
        z := BitVec.ofNat 8 c.a &&& BitVec.ofNat 8 value == 0 } } := by
  rw [State.of, flags_bit c.p ha]
  rfl

theorem state_modify (c : Core) (memory : ℕ → Byte) {address value : ℕ} (haddress : address ≤ 0xFFFF)
    (hvalue : value ≤ 0xFF) {byte : BitVec 8} (hbyte : BitVec.ofNat 8 value = byte) :
    State.of { c with p := without c.p (flagN ||| flagZ) ||| nz value }
        (Function.update memory address (Fin.ofNat 256 value)) =
      ((State.of c memory).store (.ofNat 16 address) byte).setNz byte := by
  rw [state_setNz c _ hvalue, state_store c memory haddress, hbyte]

/-- The decimal adjust is at work when it is connected and D is set. -/
theorem part_decimal (chip : Chip) (adjusts : Bool) (c : Core) (memory : ℕ → Byte) :
    decide (c.p &&& (chip.part adjusts).decimalMode ≠ 0) = (adjusts && (State.of c memory).flags.d) := by
  have hbit : decide (c.p &&& flagD ≠ 0) = c.p.testBit 3 := by
    rw [show flagD = 2 ^ 3 from rfl, Nat.and_two_pow]
    cases c.p.testBit 3 <;> rfl
  cases adjusts with
  | true => exact hbit
  | false =>
    show decide (c.p &&& 0 ≠ 0) = false
    rw [Nat.and_zero]
    rfl

section Sums
variable (c : Core) (memory : ℕ → Byte) {b : ℕ} (ha : c.a ≤ 0xFF) (hb : b ≤ 0xFF) (decimal : ℕ)
include ha hb

theorem state_adds : Adds (decide (decimal ≠ 0)) (State.of c memory) (.ofNat 8 b)
    (State.of { c with a := (add c.a b c.p decimal).1, p := (add c.a b c.p decimal).2 } memory) := by
  have hle := toNat_byte ha
  have hle' := toNat_byte hb
  by_cases hd : decimal = 0
  · subst hd
    have hsum : (State.of c memory).sum (.ofNat 8 b) = c.a + b + (Flags.of c.p).c.toNat := by
      rw [State.sum, state_a, state_flags, hle, hle']
    have hbyte : BitVec.ofNat 8 (c.a + b + (Flags.of c.p).c.toNat) = .ofNat 8 (add c.a b c.p 0).1 := by
      rw [add_binary, carry_of, ← and_ff, and_ff_byte]
    rw [Adds, if_neg (by decide), hsum, hbyte]
    rw [State.of, flags_add c.p ha hb]
    rfl
  · rw [Adds, if_pos (decide_eq_true hd)]
    have hout := outside_iff.mp (add_outside c.a b c.p decimal)
    let flags := Flags.of (add c.a b c.p decimal).2
    refine ⟨.ofNat 8 (add c.a b c.p decimal).1, flags.n, flags.v, flags.z, flags.c, ?_, ?_⟩
    · have hflags : Flags.of (add c.a b c.p decimal).2 = { Flags.of (add c.a b c.p decimal).2 with
          d := (Flags.of c.p).d, i := (Flags.of c.p).i } := by
        rw [Flags.of, Flags.of, hout 3 (by decide), hout 2 (by decide)]
      rw [State.of, hflags]
      rfl
    · rw [state_a, state_flags, hle, hle']
      intro hpa hpb
      have hpacked := add_packed hpa hpb hd c.p
      have hexact := add_packed_exact hpa hpb hd c.p
      rw [toNat_byte (Nat.le_of_lt_succ hpacked.lt)]
      rw [← signed_carry, ← signed_carry] at hexact
      exact ⟨hpacked, by exact_mod_cast hexact⟩

theorem state_subtracts : Subtracts (decide (decimal ≠ 0)) (State.of c memory) (.ofNat 8 b)
    (State.of { c with a := (subtract c.a b c.p decimal).1, p := (subtract c.a b c.p decimal).2 } memory) := by
  have hle := toNat_byte ha
  have hle' := toNat_byte hb
  have hdifference : (State.of c memory).difference (.ofNat 8 b) =
      (c.a : ℤ) - b - (!(Flags.of c.p).c).toNat := by
    rw [State.difference, state_a, state_flags, hle, hle']
  refine ⟨.ofNat 8 (subtract c.a b c.p decimal).1, ?_, ?_⟩
  · rw [State.of, flags_subtract c.p ha hb, hdifference]
    rfl
  · by_cases hd : decimal = 0
    · subst hd
      rw [if_neg (by decide), hdifference, signed_borrow, carryBit, ← masked_byte]
      rfl
    · rw [if_pos (decide_eq_true hd), state_a, state_flags, hle, hle', hdifference]
      intro hpa hpb
      have hpacked := subtract_packed hpa hpb hd c.p
      have hexact := subtract_packed_exact hpa hpb hd c.p
      have hcarry : decide ((0 : ℤ) ≤ (c.a : ℤ) - b - (!(Flags.of c.p).c).toNat) =
          (Flags.of (subtract c.a b c.p decimal).2).c := by
        rw [flags_subtract c.p ha hb]
      rw [toNat_byte (Nat.le_of_lt_succ hpacked.lt), hcarry, signed_borrow, signed_borrow]
      exact ⟨hpacked, hexact⟩

end Sums

/-! ## Handlers with an address -/

section Shifts
variable {shift : ℕ → ℕ → ℕ × ℕ} {g : Flat}

theorem shiftMemory_performs {address : ℕ} (haddress : address ≤ 0xFFFF) {shifted : BitVec 8} {carry : Bool}
    (h : Shifts g.core.p shifted carry (shift (g.memory address).val g.core.p)) :
    (shiftMemory shift address).OnFlat (fun _ g' => State.of g'.core g'.memory =
      (((State.of g.core g.memory).store (.ofNat 16 address) shifted).setNz shifted).setC carry) g := by
  simp only [shiftMemory, Code.modify, onFlat_bind, onFlat_read, onFlat_write, onFlat_core, onFlat_pure,
    onFlat_update, Flat.read_core, Flat.read_memory, Flat.write_core, Flat.write_memory]
  rw [Function.update_idem, state_store _ _ haddress, h.byte, State.of, h.flags]
  rfl

theorem shiftA_performs {shifted : BitVec 8} {carry : Bool} (h : Shifts g.core.p shifted carry (shift g.core.a g.core.p)) :
    (shiftA shift).OnFlat (fun _ g' => State.of g'.core g'.memory =
      ((State.of g.core g.memory).loadA shifted).setC carry) g := by
  simp only [shiftA, readPc, onFlat_bind, onFlat_read, onFlat_core, onFlat_pure, onFlat_update, Flat.read_core,
    Flat.read_memory]
  rw [State.of, h.byte, h.flags]
  rfl

end Shifts

section
attribute [local simp] opOra opAnd opEor opAdc opSbc opCmp opCpx opCpy opBit opInc opDec opAsl opLsr opRol opRor opLda opLdx opLdy
  opSta opStx opSty Code.modify Code.compare setNz

/-- **A handler with an address performs its instruction.** -/
theorem Addressed.op_performs (chip : Chip) (adjusts : Bool) (handler : Addressed) {address : ℕ}
    (haddress : address ≤ 0xFFFF) (g : Flat) (hvalid : g.core.Valid) :
    (handler.op (chip.part adjusts) address).OnFlat (fun _ g' => handler.Performs adjusts (.ofNat 16 address)
      (State.of g.core g.memory) (State.of g'.core g'.memory)) g := by
  obtain ⟨ha, hx, hy, hs, hpc, hp⟩ := (Core.valid_iff g.core).mp hvalid
  have hv := byte_le (g.memory address)
  have hmemory := state_memory g.core g.memory haddress
  cases handler with
  | lda =>
    simp [Addressed.op]
    simp only [Addressed.Performs, hmemory]
    exact state_loadA g.core g.memory hv
  | ldx =>
    simp [Addressed.op]
    simp only [Addressed.Performs, hmemory]
    exact state_loadX g.core g.memory hv
  | ldy =>
    simp [Addressed.op]
    simp only [Addressed.Performs, hmemory]
    exact state_loadY g.core g.memory hv
  | sta | stx | sty =>
    simp [Addressed.op]
    exact state_store g.core g.memory haddress _
  | ora =>
    simp [Addressed.op]
    simp only [Addressed.Performs, hmemory, state_a, ← BitVec.ofNat_or]
    exact state_loadA g.core g.memory (or_le_ff ha hv)
  | and =>
    simp [Addressed.op]
    simp only [Addressed.Performs, hmemory, state_a, ← BitVec.ofNat_and]
    exact state_loadA g.core g.memory (and_le_of_right hv _)
  | eor =>
    simp [Addressed.op]
    simp only [Addressed.Performs, hmemory, state_a, ← BitVec.ofNat_xor]
    exact state_loadA g.core g.memory (xor_le_ff ha hv)
  | adc =>
    simp [Addressed.op]
    simp only [Addressed.Performs, hmemory, ← part_decimal chip adjusts]
    exact state_adds g.core g.memory ha hv _
  | sbc =>
    simp [Addressed.op]
    simp only [Addressed.Performs, hmemory, ← part_decimal chip adjusts]
    exact state_subtracts g.core g.memory ha hv _
  | cmp =>
    simp [Addressed.op]
    simp only [Addressed.Performs, hmemory]
    exact state_compare g.core g.memory ha hv
  | cpx =>
    simp [Addressed.op]
    simp only [Addressed.Performs, hmemory]
    exact state_compare g.core g.memory hx hv
  | cpy =>
    simp [Addressed.op]
    simp only [Addressed.Performs, hmemory]
    exact state_compare g.core g.memory hy hv
  | bit =>
    simp [Addressed.op]
    simp only [Addressed.Performs, hmemory]
    exact state_bit g.core g.memory ha _
  | inc =>
    simp [Addressed.op]
    simp only [Addressed.Performs, hmemory]
    exact state_modify g.core g.memory haddress Nat.and_le_right (by rw [and_ff_byte, BitVec.ofNat_add]; rfl)
  | dec =>
    simp [Addressed.op]
    simp only [Addressed.Performs, hmemory]
    exact state_modify g.core g.memory haddress (Nat.le_of_lt_succ (masked_lt 8 _)) masked_sub
  | asl =>
    simp only [Addressed.Performs, hmemory]
    exact shiftMemory_performs haddress (asl_shifts hv g.core.p)
  | lsr =>
    simp only [Addressed.Performs, hmemory]
    exact shiftMemory_performs haddress (lsr_shifts hv g.core.p)
  | rol =>
    simp only [Addressed.Performs, hmemory]
    exact shiftMemory_performs haddress (rol_shifts hv g.core.p)
  | ror =>
    simp only [Addressed.Performs, hmemory]
    exact shiftMemory_performs haddress (ror_shifts hv g.core.p)
  | _ => exact Tree.wp_of_uses (I := fun _ => True) (fun _ _ _ _ _ _ _ => trivial) (Tree.uses_any _) trivial

end

/-! ## The stack and jumps -/

theorem state_returned {c c' : Core} {s p pc : ℕ} (h : Returned c c' s p pc) (memory : ℕ → Byte) :
    State.of c' memory = { State.of c memory with s := .ofNat 8 s, flags := .of p, pc := .ofNat 16 pc } := by
  rw [State.of, h.a, h.x, h.y, h.s, h.p, h.pc]
  rfl

section Stack
variable (g : Flat) {pc : ℕ}

theorem opPla_performs :
    opPla.OnFlat (fun _ g' => State.of g'.core g'.memory =
      { State.of g.core g.memory with s := (State.of g.core g.memory).s + 1 }.loadA
        ((State.of g.core g.memory).pulled 1)) g := by
  have hpulled : (State.of g.core g.memory).pulled 1 = _ := state_pulled g.core g.memory 1
  simp only [opPla, readPc, readStack, pull, onFlat_bind, onFlat_core, onFlat_read, onFlat_update, onFlat_pure,
    Flat.read_core, Flat.read_memory, Nat.or_assoc, hpulled]
  refine (state_loadA { g.core with s := (g.core.s + 1) &&& 0xFF } g.memory (byte_le _)).trans ?_
  rw [State.of, ← add_byte_wrap]
  rfl

theorem opPlp_performs :
    opPlp.OnFlat (fun _ g' => State.of g'.core g'.memory =
      { State.of g.core g.memory with
        s := (State.of g.core g.memory).s + 1
        flags := .pulled ((State.of g.core g.memory).pulled 1) }) g := by
  have hpulled : (State.of g.core g.memory).pulled 1 = _ := state_pulled g.core g.memory 1
  simp only [opPlp, readPc, readStack, pull, onFlat_bind, onFlat_core, onFlat_read, onFlat_update, onFlat_pure,
    Flat.read_core, Flat.read_memory, hpulled]
  rw [State.of, flags_pulled, ← add_byte_wrap]
  rfl

theorem opRts_performs :
    opRts.OnFlat (fun _ g' => State.of g'.core g'.memory =
      { State.of g.core g.memory with
        s := (State.of g.core g.memory).s + 2
        pc := ((State.of g.core g.memory).pulled 2 ++ (State.of g.core g.memory).pulled 1) + 1 }) g := by
  refine (opRts_pulls g).mono ?_
  rintro _ g' ⟨hmemory, h⟩
  have hfirst : (State.of g.core g.memory).pulled 1 = _ := state_pulled g.core g.memory 1
  have hsecond : (State.of g.core g.memory).pulled 2 = _ := state_pulled g.core g.memory 2
  rw [up_up] at h
  rw [hmemory, state_returned h, hfirst, hsecond, append_byte (byte_le _), ← add_byte_wrap, ← add_word_wrap]
  rfl

theorem opRti_performs :
    opRti.OnFlat (fun _ g' => State.of g'.core g'.memory =
      { State.of g.core g.memory with
        s := (State.of g.core g.memory).s + 3
        flags := .pulled ((State.of g.core g.memory).pulled 1)
        pc := (State.of g.core g.memory).pulled 3 ++ (State.of g.core g.memory).pulled 2 }) g := by
  refine (opRti_pulls g).mono ?_
  rintro _ g' ⟨hmemory, h⟩
  have hfirst : (State.of g.core g.memory).pulled 1 = _ := state_pulled g.core g.memory 1
  have hsecond : (State.of g.core g.memory).pulled 2 = _ := state_pulled g.core g.memory 2
  have hthird : (State.of g.core g.memory).pulled 3 = _ := state_pulled g.core g.memory 3
  rw [up_up_up, up_up] at h
  rw [hmemory, state_returned h, hfirst, hsecond, hthird, append_byte (byte_le _), ← add_byte_wrap, flags_pulled]
  rfl

variable (hpc : g.core.pc = (pc + 1) &&& 0xFFFF)
include hpc

theorem opJmp_performs :
    opJmp.OnFlat (fun _ g' => State.of g'.core g'.memory =
      { State.of g.core g.memory with pc := (State.of { g.core with pc } g.memory).operands }) g := by
  simp only [opJmp, fetchWord, fetch, onFlat_bind, onFlat_core, onFlat_read, onFlat_update, onFlat_pure,
    Flat.read_core, Flat.read_memory, state_operands]
  rw [hpc, next_next]
  rfl

theorem opJmpInd_performs :
    opJmpInd.OnFlat (fun _ g' => State.of g'.core g'.memory =
      let m := State.of { g.core with pc } g.memory
      { State.of g.core g.memory with
        pc := m.word m.operands (page m.operands ++ (m.operands.setWidth 8 + 1)) }) g := by
  simp only [opJmpInd, fetchWord, fetch, onFlat_bind, onFlat_core, onFlat_read, onFlat_update, onFlat_pure,
    Flat.read_core, Flat.read_memory, state_operands]
  have hword : operandWord { g.core with pc } g.memory ≤ 0xFFFF := word_le (byte_le _) (byte_le _)
  have hpointer : (g.memory ((g.core.pc + 1) &&& 0xFFFF)).val <<< 8 ||| (g.memory g.core.pc).val =
      operandWord { g.core with pc } g.memory := by
    rw [hpc, next_next]
    rfl
  rw [next_on_page hword, State.word, state_memory _ _ hword, state_memory _ _ (page_le Nat.and_le_right),
    append_byte (byte_le _), hpointer]
  rfl

theorem opJsr_performs (hs : g.core.s ≤ 0xFF) :
    opJsr.OnFlat (fun _ g' => State.of g'.core g'.memory =
      let m := State.of { g.core with pc } g.memory
      let pushed := m.pushWord (m.pc + 2)
      { pushed with pc := pushed.memory (m.pc + 2) ++ m.operand }) g := by
  simp only [opJsr, fetch, readStack, push, onFlat_bind, onFlat_core, onFlat_read, onFlat_update, onFlat_write,
    onFlat_pure, Flat.read_core, Flat.read_memory, Flat.write_core, Flat.write_memory, state_operand]
  rw [hpc, next_next]
  have htarget : (State.of { g.core with pc } g.memory).pc + 2 = .ofNat 16 ((pc + 2) &&& 0xFFFF) := add_word_wrap pc 2
  have hword : (pc + 2) &&& 0xFFFF ≤ 0xFFFF := Nat.and_le_right
  have hpushed := state_pushWord (c := { g.core with pc }) hs g.memory hword
  have hlow : operandByte { g.core with pc } g.memory 1 ≤ 0xFF := byte_le _
  rw [htarget, ← hpushed, state_memory _ _ Nat.and_le_right, append_byte hlow]
  rfl

end Stack

/-! ## Handlers without an address -/

section
attribute [local simp] opPhp opAslA opClc opNop opPlp opRolA opSec opPha opLsrA opCli opPla opRorA opSei opDey opTxa opTya
  opTxs opTay opTax opClv opTsx opIny opDex opCld opInx opSed readPc readStack push pull setNz

/-- **A handler without an address performs its instruction.** -/
theorem Implied.op_performs (latched : Bool) {handler : Implied} (hb : handler.taken 0 = none) (hbrk : handler ≠ .brk)
    {pc : ℕ} (g : Flat) (hpc : g.core.pc = (pc + 1) &&& 0xFFFF) (hvalid : g.core.Valid) :
    handler.op.OnFlat (fun _ g' => handler.Performs latched (State.of { g.core with pc } g.memory)
      (State.of g'.core g'.memory)) g := by
  obtain ⟨ha, hx, hy, hs, -, hp⟩ := (Core.valid_iff g.core).mp hvalid
  have hnext : (State.of { g.core with pc } g.memory).next 1 = State.of g.core g.memory := by
    refine (state_next { g.core with pc } g.memory 1).trans ?_
    rw [← hpc]
  cases handler with
  | nop =>
    simp [Implied.op]
    exact hnext.symm
  | tax =>
    simp [Implied.op]
    simp only [Implied.Performs, hnext]
    exact state_loadX g.core g.memory ha
  | tay =>
    simp [Implied.op]
    simp only [Implied.Performs, hnext]
    exact state_loadY g.core g.memory ha
  | txa =>
    simp [Implied.op]
    simp only [Implied.Performs, hnext]
    exact state_loadA g.core g.memory hx
  | tya =>
    simp [Implied.op]
    simp only [Implied.Performs, hnext]
    exact state_loadA g.core g.memory hy
  | tsx =>
    simp [Implied.op]
    simp only [Implied.Performs, hnext]
    exact state_loadX g.core g.memory hs
  | txs =>
    simp [Implied.op]
    simp only [Implied.Performs, hnext]
    rfl
  | inx =>
    simp [Implied.op]
    simp only [Implied.Performs, hnext]
    refine (state_loadX g.core g.memory Nat.and_le_right).trans (congrArg _ ?_)
    exact (add_byte_wrap g.core.x 1).symm
  | iny =>
    simp [Implied.op]
    simp only [Implied.Performs, hnext]
    refine (state_loadY g.core g.memory Nat.and_le_right).trans (congrArg _ ?_)
    exact (add_byte_wrap g.core.y 1).symm
  | dex =>
    simp [Implied.op]
    simp only [Implied.Performs, hnext]
    exact (state_loadX g.core g.memory (Nat.le_of_lt_succ (masked_lt 8 _))).trans (congrArg _ masked_sub)
  | dey =>
    simp [Implied.op]
    simp only [Implied.Performs, hnext]
    exact (state_loadY g.core g.memory (Nat.le_of_lt_succ (masked_lt 8 _))).trans (congrArg _ masked_sub)
  | aslA =>
    simp only [Implied.Performs, hnext]
    exact shiftA_performs (asl_shifts ha g.core.p)
  | lsrA =>
    simp only [Implied.Performs, hnext]
    exact shiftA_performs (lsr_shifts ha g.core.p)
  | rolA =>
    simp only [Implied.Performs, hnext]
    exact shiftA_performs (rol_shifts ha g.core.p)
  | rorA =>
    simp only [Implied.Performs, hnext]
    exact shiftA_performs (ror_shifts ha g.core.p)
  | clc =>
    simp [Implied.op]
    simp only [Implied.Performs, hnext]
    rw [State.of, flags_clearC]
    rfl
  | sec =>
    simp [Implied.op]
    simp only [Implied.Performs, hnext]
    rw [State.of, flags_setC]
    rfl
  | cld =>
    simp [Implied.op]
    simp only [Implied.Performs, hnext]
    rw [State.of, flags_clearD]
    rfl
  | sed =>
    simp [Implied.op]
    simp only [Implied.Performs, hnext]
    rw [State.of, flags_setD]
    rfl
  | cli =>
    simp [Implied.op]
    simp only [Implied.Performs, hnext]
    rw [State.of, flags_clearI]
    rfl
  | sei =>
    simp [Implied.op]
    simp only [Implied.Performs, hnext]
    rw [State.of, flags_setI]
    rfl
  | clv =>
    simp [Implied.op]
    simp only [Implied.Performs, hnext]
    rw [State.of, flags_clearV]
    rfl
  | pha =>
    simp [Implied.op]
    simp only [Implied.Performs, hnext]
    exact state_push hs g.memory _
  | php =>
    simp [Implied.op]
    simp only [Implied.Performs, hnext]
    exact (state_push hs g.memory _).trans (congrArg _ (flags_byte hp).1)
  | pla =>
    simp only [Implied.Performs, hnext]
    exact opPla_performs g
  | plp =>
    simp only [Implied.Performs, hnext]
    exact opPlp_performs g
  | jmp => exact opJmp_performs g hpc
  | jmpInd => exact opJmpInd_performs g hpc
  | jsr => exact opJsr_performs g hpc hs
  | rts => exact opRts_performs g
  | rti => exact opRti_performs g
  | brk => exact absurd rfl hbrk
  | jam => exact Tree.wp_of_uses (I := fun _ => True) (fun _ _ _ _ _ _ _ => trivial) (Tree.uses_any _) trivial
  | bpl | bmi | bvc | bvs | bcc | bcs | bne | beq => cases hb

end

/-! ## Branches -/

theorem offset_value : ∀ offset : Byte,
    (offset.val : ℤ) - ((offset.val &&& 0x80) <<< 1 : ℕ) = (BitVec.ofNat 8 offset.val).toInt := by
  decide

theorem branch_target (next : ℕ) (offset : Byte) : BitVec.ofNat 16 (branchTarget next offset.val) =
    .ofNat 16 next + (BitVec.ofNat 8 offset.val).signExtend 16 := by
  have hmasked : ∀ z : ℤ, BitVec.ofNat 16 (masked 16 z) = BitVec.ofInt 16 z := by
    intro z
    rw [← BitVec.toNat_inj, BitVec.toNat_ofNat, BitVec.toNat_ofInt, masked]
    omega
  rw [branchTarget, hmasked, add_sub_assoc, offset_value, BitVec.ofInt_add]
  rfl

theorem branchTaken_flat (offset early : ℕ) (g : Flat) :
    (branchTaken offset early).OnFlat (fun _ g' => g'.memory = g.memory ∧ g'.core = { g.core with
      pc := branchTarget g.core.pc offset, extra := branchExtra g.core.pc offset }) g := by
  simp only [branchTaken, onFlat_bind, onFlat_core, onFlat_read, onFlat_poll, branchExtra, otherPage, branchTarget]
  intro polled
  cases polled.stalledBefore <;> simp

theorem branch_flat (taken : Bool) (g : Flat) :
    (branch taken).OnFlat (fun _ g' =>
      let next := (g.core.pc + 1) &&& 0xFFFF
      let offset := (g.memory g.core.pc).val
      g'.memory = g.memory ∧ g'.core = { g.core with
        pc := if taken then branchTarget next offset else next
        extra := if taken then branchExtra next offset else g.core.extra }) g := by
  simp only [branch, fetch, onFlat_bind, onFlat_poll, onFlat_updatePoll, onFlat_core, onFlat_update, onFlat_read]
  intro _ polled
  cases polled.stalled <;> cases taken <;> simp
  all_goals exact branchTaken_flat _ _ _

/-- A branch performs its instruction and counts its cycles. -/
theorem branch_performs (taken : Bool) {pc : ℕ} (g : Flat) (hpc : g.core.pc = (pc + 1) &&& 0xFFFF)
    (hextra : g.core.extra = 0) :
    (branch taken).OnFlat (fun _ g' =>
      let m := State.of { g.core with pc } g.memory
      State.of g'.core g'.memory = m.branch taken ∧
        g'.core.extra = if taken then if page (m.branch true).pc = page (m.pc + 2) then 1 else 2 else 0) g := by
  refine (branch_flat taken g).mono ?_
  rintro _ g' ⟨hmemory, hcore⟩
  have hnext : (State.of { g.core with pc } g.memory).pc + 2 = .ofNat 16 ((pc + 2) &&& 0xFFFF) := add_word_wrap pc 2
  have hoffset : (State.of { g.core with pc } g.memory).operand = .ofNat 8 (g.memory g.core.pc).val := by
    rw [state_operand, operandByte, hpc]
  have htarget : ∀ taken, ((State.of { g.core with pc } g.memory).branch taken).pc = .ofNat 16
      (if taken then branchTarget ((pc + 2) &&& 0xFFFF) (g.memory g.core.pc).val else (pc + 2) &&& 0xFFFF) := by
    intro taken
    cases taken with
    | false => exact (congrArg _ (BitVec.add_zero _)).trans hnext
    | true =>
      rw [if_pos rfl, branch_target, ← hnext, ← hoffset, BitVec.add_assoc]
      rfl
  have hbranch : (State.of { g.core with pc } g.memory).branch taken = { State.of { g.core with pc } g.memory with
      pc := ((State.of { g.core with pc } g.memory).branch taken).pc } := rfl
  rw [hpc, next_next, ← hpc] at hcore
  refine ⟨?_, ?_⟩
  · rw [hbranch, htarget taken, hmemory, hcore]
    rfl
  · cases taken with
    | false => simpa [hcore] using hextra
    | true =>
      have hle : branchTarget ((pc + 2) &&& 0xFFFF) (g.memory g.core.pc).val ≤ 0xFFFF :=
        Nat.le_of_lt_succ (masked_lt 16 _)
      have hpage := otherPage_word hle (Nat.and_le_right (n := pc + 2) (m := 0xFFFF))
      rw [htarget true, hnext, hcore, if_pos rfl, if_pos rfl, if_pos rfl, branchExtra, hpage]
      simp

end SixFiveOhTwo
