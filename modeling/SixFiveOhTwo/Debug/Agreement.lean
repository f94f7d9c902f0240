import SixFiveOhTwo.Debug.Operands
import SixFiveOhTwo.Ranges.Runs

/-! # The disassembler and the core agree

`Agrees` says what the instruction that `disassemble` finds at PC tells of the step that executes it: the
bytes it occupies, where PC goes, and where its operand is.

* `Machine.disassembly_agrees`: in every state of every run on a flat memory, and for every instruction but
  a JSR that overwrites its own third byte.
* `Machine.shx_strays`: SHX indexed across a page writes elsewhere.
-/

namespace SixFiveOhTwo
open Bits Interaction Code
set_option autoImplicit false
set_option maxRecDepth 10000

/-! ## What is agreed on -/

/-- A JSR whose pushes hit its third byte before it is read. -/
def OverwritesItself (c : Core) (memory : ℕ → Byte) : Prop :=
  (opcodes (memory c.pc)).handler = "jsr" ∧
    ((c.pc + 2) &&& 0xFFFF = stack ||| c.s ∨ (c.pc + 2) &&& 0xFFFF = stack ||| stackDown c.s 1)

instance (c : Core) (memory : ℕ → Byte) : Decidable (OverwritesItself c memory) :=
  inferInstanceAs (Decidable (_ ∧ _))

/-- Where a handler without an addressing mode leaves PC. -/
def Implied.Continues (c : Core) (memory : ℕ → Byte) (i : Instruction) (pc : ℕ) : Implied → Prop
  | rts | rti | brk => True
  | jmp | jsr => i.target = some pc
  | jmpInd => ∃ pointer, i.target = some pointer ∧
      pc = ((memory ((pointer &&& 0xFF00) ||| ((pointer + 1) &&& 0xFF))).val <<< 8) ||| (memory pointer).val
  | handler => if (handler.taken c.p).getD false then i.target = some pc else pc = i.nextAddress

/-- Where a row leaves PC. -/
def Entry.Continues (c : Core) (memory : ℕ → Byte) (i : Instruction) (pc : ℕ) : Entry → Prop
  | implied handler _ => handler.Continues c memory i pc
  | addressed _ _ _ => pc = i.nextAddress

/-- What an instruction tells of the step that executes it on these registers and this memory: the step's
accesses, and the PC it leaves. -/
structure Agrees (c : Core) (memory : ℕ → Byte) (i : Instruction) (t : List Access) (pc : ℕ) : Prop where
  stream : (fetches c.pc i.data).Sublist t
  next : (opcodes (memory c.pc)).Continues c memory i pc
  operand : ∀ handler mode cycles, opcodes (memory c.pc) = .addressed handler mode cycles → mode ≠ .imm →
    ∃ target address before operand, i.target = some target ∧
      i.mode.effective c memory target = some address ∧
      t = before ++ operand ∧ (∀ access ∈ before, access.isWrite = false) ∧
      handler.use.Accesses memory (handler.reached c (i.mode.base memory target) address) operand

/-! ## The names of the handlers and the modes they stand for -/

/-- The mode the disassembler reports for a handler without an addressing mode. -/
def Implied.operandMode : Implied → OperandMode
  | bpl | bmi | bvc | bvs | bcc | bcs | bne | beq => .relative
  | aslA | lsrA | rolA | rorA => .accumulator
  | jmpInd => .indirect
  | jmp | jsr => .absolute
  | _ => .implied

theorem Entry.form_implied (handler : Implied) (cycles : ℕ) :
    (implied handler cycles).form.2 = handler.operandMode := by
  have hform : (implied handler cycles).form = (implied handler 0).form := rfl
  rw [hform]
  cases handler <;> decide +kernel

theorem Addressed.name_plain (handler : Addressed) : handler.name ∉ branches ∧ handler.name ≠ "jmp_ind" ∧
    handler.name ≠ "jmp" ∧ handler.name ≠ "jsr" := by
  cases handler <;> decide +kernel

/-- A handler whose name says nothing has the mode of its row. -/
theorem Entry.form_plain {entry : Entry} (hbranch : entry.handler ∉ branches)
    (ha : endsWithA entry.handler = false) (hind : entry.handler ≠ "jmp_ind") (hjmp : entry.handler ≠ "jmp")
    (hjsr : entry.handler ≠ "jsr") : entry.form.2 = (entry.mode.map Mode.operandMode).getD .implied := by
  simp only [form, hbranch, ha, hind, hjmp, hjsr, or_self, if_false, Bool.false_eq_true]
  split <;> rfl

theorem Entry.form_addressed (handler : Addressed) (mode : Mode) (cycles : ℕ) :
    (addressed handler mode cycles).form.2 = mode.operandMode := by
  obtain ⟨hbranch, hind, hjmp, hjsr⟩ := handler.name_plain
  exact form_plain hbranch handler.not_endsWithA hind hjmp hjsr

theorem decoded_mode {memory : ℕ → Byte} {pc : ℕ} (h : pc ≤ 0xFFFF) {entry : Entry} {mode : OperandMode}
    (he : opcodes (memory pc) = entry) (hform : entry.form.2 = mode) :
    (decoded memory h).mode = mode ∧ (decoded memory h).data = mode.bytes memory pc ∧
      (decoded memory h).target = (mode.operand pc (mode.bytes memory pc)).2 ∧
      (decoded memory h).nextAddress = (pc + mode.length) &&& 0xFFFF := by
  subst he hform
  refine ⟨rfl, rfl, rfl, ?_⟩
  simp [Instruction.nextAddress, Instruction.size, decoded, OperandMode.bytes]

/-! ## Rows with an addressing mode -/

/-- How a row pairs a mode with a handler: an immediate operand is only loaded, and the four stores that
stray are indexed by the register they take back off. -/
def Entry.Paired : Entry → Prop
  | implied _ _ => True
  | addressed handler mode _ => (mode = .imm → handler.use = .load) ∧
      (handler ∈ [.sha, .tas, .shx] → mode ∈ [.abyW, .izyW]) ∧ (handler = .shy → mode = .abxW)

instance (entry : Entry) : Decidable entry.Paired := by
  cases entry <;> unfold Entry.Paired <;> infer_instance

theorem opcodes_paired : ∀ opcode, (opcodes opcode).Paired := by
  decide

theorem fetches_bytes (memory : ℕ → Byte) {pc : ℕ} (h : pc ≤ 0xFFFF) (mode : OperandMode) :
    fetches pc (mode.bytes memory pc) = [
      .r pc (memory pc).val, .r ((pc + 1) &&& 0xFFFF) (memory ((pc + 1) &&& 0xFFFF)).val,
      .r ((pc + 2) &&& 0xFFFF) (memory ((pc + 2) &&& 0xFFFF)).val].take mode.length := by
  have hpc : pc &&& 0xFFFF = pc := by
    rw [and_ffff]
    omega
  cases mode <;> simp [fetches, OperandMode.bytes, OperandMode.length, List.range_succ, hpc]

theorem fetches_cons (memory : ℕ → Byte) {pc : ℕ} (h : pc ≤ 0xFFFF) (mode : OperandMode) :
    fetches pc (mode.bytes memory pc) =
      .r pc (memory pc).val :: (fetches pc (mode.bytes memory pc)).tail := by
  rw [fetches_bytes memory h]
  cases mode <;> rfl

theorem fetches_read {pc : ℕ} {data : List Byte} {access : Access} (h : access ∈ fetches pc data) :
    access.isWrite = false := by
  obtain ⟨n, hn, rfl⟩ := List.mem_mapIdx.mp h
  rfl

theorem dataAt_le (data : List Byte) (n : ℕ) : dataAt data n ≤ 0xFF := by
  rw [dataAt, List.getD_eq_getElem?_getD, List.getElem?_map]
  cases data[n]? with
  | none => exact Nat.zero_le _
  | some value => exact byte_le value

theorem base_le (memory : ℕ → Byte) {pc target : ℕ} {mode : OperandMode} {data : List Byte}
    (h : (mode.operand pc data).2 = some target) : mode.base memory target ≤ 0xFFFF := by
  have hword : dataAt data 1 ||| (dataAt data 2 <<< 8) ≤ 0xFFFF := by
    rw [Nat.or_comm]
    exact word_le (dataAt_le data 2) (dataAt_le data 1)
  have hbyte : dataAt data 1 ≤ 0xFFFF := (dataAt_le data 1).trans (by decide)
  cases mode with
  | implied | accumulator | immediate => cases h
  | indirectIndexed => exact word_le (byte_le _) (byte_le _)
  | relative =>
    cases h
    exact masked_16_le _
  | zeroPage | zeroPageX | zeroPageY | indexedIndirect =>
    cases h
    exact hbyte
  | absolute | absoluteX | absoluteY | indirect =>
    cases h
    exact hword

/-- The four stores that stray take back off the index of their mode. -/
theorem stored_mode {opcode : Byte} {handler : Addressed} {mode : Mode} {cycles : ℕ}
    (he : opcodes opcode = .addressed handler mode cycles) {c : Core} (hs : handler.stored c ≠ none) :
    (mode = .abyW ∨ mode = .izyW) ∧ handler.index c = c.y ∨ mode = .abxW ∧ handler.index c = c.x := by
  have hpaired := opcodes_paired opcode
  rw [he] at hpaired
  obtain ⟨-, hy, hx⟩ := hpaired
  cases handler with
  | sha | tas | shx => exact .inl ⟨List.mem_pair.mp (hy (by decide)), rfl⟩
  | shy => exact .inr ⟨hx rfl, rfl⟩
  | _ => exact absurd rfl hs

theorem stored_indexed {opcode : Byte} {handler : Addressed} {mode : Mode} {cycles : ℕ}
    (he : opcodes opcode = .addressed handler mode cycles) {c : Core} {memory : ℕ → Byte} {target address : ℕ}
    (ha : mode.operandMode.effective c memory target = some address) (hs : handler.stored c ≠ none) :
    address = (mode.operandMode.base memory target + handler.index c) &&& 0xFFFF := by
  rcases stored_mode he hs with ⟨rfl | rfl, hindex⟩ | ⟨rfl, hindex⟩
  all_goals
    rw [hindex]
    exact (Option.some.inj ha).symm

theorem addressed_agrees (chip : Chip) (g : Flat) (h : g.core.pc ≤ 0xFFFF) (ht : g.trace = [])
    {handler : Addressed} {mode : Mode} {cycles : ℕ}
    (he : opcodes (g.memory g.core.pc) = .addressed handler mode cycles) :
    (dispatch chip (.addressed handler mode cycles)).OnFlat (fun _ g' =>
      Agrees g.core g.memory (decoded g.memory h) g'.trace g'.core.pc) g.fetched := by
  obtain ⟨hmode, hdata, htarget, hnext⟩ := decoded_mode h he (Entry.form_addressed handler mode cycles)
  have hbytes := fetches_cons g.memory h mode.operandMode
  have hfetched : g.fetched.trace = [.r g.core.pc (g.memory g.core.pc).val] := by
    simp [Flat.fetched, ht]
  rw [dispatch, onFlat_bind]
  by_cases hm : mode = .imm
  · subst hm
    have hload : handler.use = .load := by
      have hpaired := opcodes_paired (g.memory g.core.pc)
      rw [he] at hpaired
      exact hpaired.1 rfl
    have hs : ∀ c, handler.stored c = none := by
      cases handler <;> first | exact fun _ => rfl | cases hload
    simp only [Mode.ea, eaImm, onFlat_bind, onFlat_core, onFlat_update, onFlat_pure]
    apply (Addressed.op_onFlat chip _ _ (hs _)).mono
    rintro _ g₁ ⟨hpc, t, htrace, huse⟩
    rw [hload] at huse
    have hstream : fetches g.core.pc (decoded g.memory h).data = g₁.trace := by
      rw [hdata, hbytes, htrace, huse]
      exact congrArg (· ++ _) hfetched.symm
    refine ⟨hstream ▸ List.Sublist.refl _, ?_, ?_⟩
    · rw [he, Entry.Continues, hpc, hnext]
      exact next_next g.core.pc
    · intro handler' mode' cycles' he' hm'
      rw [he] at he'
      cases he'
      exact absurd rfl hm'
  · apply (Mode.ea_onFlat hm g.fetched rfl).mono
    rintro address g₁ ⟨target, hoperand, heffective, hcore, hmemory, rest, htrace, hreads⟩
    have hstored : handler.stored g₁.core = handler.stored g.core := by
      rw [hcore]
      cases handler <;> rfl
    have hindex : handler.index g₁.core = handler.index g.core := by
      rw [hcore]
      cases handler <;> rfl
    have heffective' : mode.operandMode.effective g.core g.memory target = some address := by
      rw [← heffective]
      cases mode <;> rfl
    apply (Addressed.op_reached chip handler (mode.operandMode.base g.memory target) address g₁ ?_).mono
    · rintro _ g₂ ⟨hpc, t, htrace₂, huse⟩
      have hreached : ∀ base, handler.reached g₁.core base address = handler.reached g.core base address := by
        intro base
        rw [Addressed.reached, Addressed.reached, hstored]
      have hsplit : g₂.trace = fetches g.core.pc (decoded g.memory h).data ++ rest ++ t := by
        rw [htrace₂, htrace, hdata, hbytes, hfetched]
        rfl
      rw [hmemory, hreached] at huse
      refine ⟨?_, ?_, ?_⟩
      · rw [hsplit, List.append_assoc]
        exact List.sublist_append_left _ _
      · rw [he, Entry.Continues, hpc, hcore, hnext]
      · intro handler' mode' cycles' he' _
        rw [he] at he'
        cases he'
        refine ⟨target, address, _, t, htarget.trans hoperand, ?_, hsplit, ?_, ?_⟩
        · rw [hmode, heffective']
        · intro access haccess
          rcases List.mem_append.mp haccess with hmem | hmem
          · exact fetches_read hmem
          · exact hreads access hmem
        · rw [hmode]
          exact huse
    · intro hs
      rw [hstored] at hs
      rw [hindex]
      exact ⟨base_le g.memory hoperand, stored_indexed he heffective' hs⟩

/-! ## Rows without one -/

theorem branch_onFlat (taken : Bool) (g : Flat) :
    (branch taken).OnFlat (fun _ g' =>
      let next := (g.core.pc + 1) &&& 0xFFFF
      let offset := (g.memory g.core.pc).val
      (∃ t, g'.trace = g.trace ++ .r g.core.pc offset :: t) ∧
        g'.core.pc = if taken then branchTarget next offset else next) g := by
  simp only [branch, branchTaken, fetch, onFlat_bind, onFlat_poll, onFlat_updatePoll, onFlat_core,
    onFlat_update, onFlat_read]
  intro _ polled
  cases taken with
  | false => cases polled.stalled <;> simp
  | true =>
    cases polled.stalled <;>
      simp only [onFlat_bind, onFlat_updatePoll, onFlat_pure, onFlat_core, onFlat_read, onFlat_poll, if_true]
    all_goals
      intro polled
      cases polled.stalledBefore <;> simp [branchTarget]

theorem branchTarget_eq (pc : ℕ) (offset : Byte) :
    branchTarget ((pc + 2) &&& 0xFFFF) offset.val = masked 16 ((pc : ℤ) + 2 +
      if offset.val &&& 0x80 ≠ 0 then (offset.val : ℤ) - 0x100 else offset.val) := by
  have hsign : ∀ v : Byte, (v.val &&& 0x80) <<< 1 = if v.val &&& 0x80 ≠ 0 then 0x100 else 0 := by decide
  rw [branchTarget, hsign, masked, masked, and_ffff]
  split <;> omega

section
attribute [local simp] opBrk opJam opPhp opAslA opClc opNop opJsr opPlp opRolA opSec opRti opPha opLsrA opJmp
  opCli opRts opPla opRorA opJmpInd opSei opDey opTxa opTya opTxs opTay opTax opClv opTsx opIny opDex opCld
  opInx opSed readPc readStack push pull fetch fetchWord Code.interrupt shiftA setNz jamReads

/-- A handler of one byte only adds accesses, and leaves PC alone unless it returns or is BRK. -/
theorem Implied.op_onFlat {handler : Implied} (hb : handler.taken 0 = none)
    (hl : handler.operandMode.length = 1) (g : Flat) :
    handler.op.OnFlat (fun _ g' => (∃ t, g'.trace = g.trace ++ t) ∧
      (handler ∉ [.rts, .rti, .brk] → g'.core.pc = g.core.pc)) g := by
  cases handler <;> first | (cases hb; done) | (cases hl; done) | simp [Implied.op]

theorem opJmp_onFlat (g : Flat) :
    opJmp.OnFlat (fun _ g' =>
      let next := (g.core.pc + 1) &&& 0xFFFF
      g'.trace = g.trace ++ [.r g.core.pc (g.memory g.core.pc).val, .r next (g.memory next).val] ∧
        g'.core.pc = ((g.memory next).val <<< 8) ||| (g.memory g.core.pc).val) g := by
  simp

theorem opJmpInd_onFlat (g : Flat) :
    opJmpInd.OnFlat (fun _ g' =>
      let next := (g.core.pc + 1) &&& 0xFFFF
      let pointer := ((g.memory next).val <<< 8) ||| (g.memory g.core.pc).val
      (∃ t, g'.trace =
        g.trace ++ .r g.core.pc (g.memory g.core.pc).val :: .r next (g.memory next).val :: t) ∧
        g'.core.pc = ((g.memory ((pointer &&& 0xFF00) ||| ((pointer + 1) &&& 0xFF))).val <<< 8) |||
          (g.memory pointer).val) g := by
  simp

/-- JSR reads its third byte after both pushes. -/
theorem opJsr_onFlat (g : Flat)
    (h₁ : (g.core.pc + 1) &&& 0xFFFF ≠ stack ||| g.core.s)
    (h₂ : (g.core.pc + 1) &&& 0xFFFF ≠ stack ||| stackDown g.core.s 1) :
    opJsr.OnFlat (fun _ g' =>
      let next := (g.core.pc + 1) &&& 0xFFFF
      (∃ t, g'.trace =
        g.trace ++ .r g.core.pc (g.memory g.core.pc).val :: t ++ [.r next (g.memory next).val]) ∧
        g'.core.pc = ((g.memory next).val <<< 8) ||| (g.memory g.core.pc).val) g := by
  simp only [stackDown] at h₂
  simp [Function.update_of_ne h₁, Function.update_of_ne h₂]
  exact ⟨[_, _, _], rfl⟩

end

section
variable {g : Flat} {h : g.core.pc ≤ 0xFFFF} {handler : Implied} {cycles : ℕ}
  (he : opcodes (g.memory g.core.pc) = .implied handler cycles)
include he

theorem agrees_of_implied {t : List Access} {pc : ℕ}
    (hstream : (fetches g.core.pc (handler.operandMode.bytes g.memory g.core.pc)).Sublist t)
    (hnext : handler.Continues g.core g.memory (decoded g.memory h) pc) :
    Agrees g.core g.memory (decoded g.memory h) t pc := by
  obtain ⟨-, hdata, -, -⟩ := decoded_mode h he (Entry.form_implied handler cycles)
  refine ⟨hdata ▸ hstream, ?_, ?_⟩
  · rw [he]
    exact hnext
  · intro handler' mode' cycles' he'
    rw [he] at he'
    cases he'

theorem branch_agrees (ht : g.trace = []) (hb : (handler.taken 0).isSome) :
    handler.op.OnFlat (fun _ g' => Agrees g.core g.memory (decoded g.memory h) g'.trace g'.core.pc)
      g.fetched := by
  have hrel : handler.operandMode = .relative := by
    cases handler <;> first | rfl | cases hb
  have hcontinues : ∀ i pc, handler.Continues g.core g.memory i pc ↔
      if (handler.taken g.core.p).getD false then i.target = some pc else pc = i.nextAddress := by
    intro i pc
    cases handler <;> first | exact Iff.rfl | cases hb
  obtain ⟨-, -, htarget, hnext⟩ := decoded_mode h he (Entry.form_implied handler cycles)
  rw [Implied.op_branch hb, onFlat_bind, onFlat_core]
  apply (branch_onFlat _ g.fetched).mono
  rintro _ g' ⟨⟨t, htrace⟩, hpc⟩
  apply agrees_of_implied he
  · have hstream : g'.trace =
        fetches g.core.pc (handler.operandMode.bytes g.memory g.core.pc) ++ t := by
      rw [htrace, hrel, fetches_bytes g.memory h]
      simp [Flat.fetched, ht, OperandMode.length]
    rw [hstream]
    exact List.sublist_append_left _ _
  · rw [hcontinues, htarget, hnext, hrel, hpc]
    simp only [Flat.fetched, next_next]
    split
    · rw [branchTarget_eq]
      rfl
    · rfl

theorem short_agrees (ht : g.trace = []) (hb : handler.taken 0 = none)
    (hl : handler.operandMode.length = 1) :
    handler.op.OnFlat (fun _ g' => Agrees g.core g.memory (decoded g.memory h) g'.trace g'.core.pc)
      g.fetched := by
  have hcontinues : ∀ i pc, (handler ∉ [.rts, .rti, .brk] → pc = i.nextAddress) →
      handler.Continues g.core g.memory i pc := by
    intro i pc hnext
    cases handler <;> first | trivial | exact hnext (by decide)
  obtain ⟨-, -, -, hnext⟩ := decoded_mode h he (Entry.form_implied handler cycles)
  apply (Implied.op_onFlat hb hl g.fetched).mono
  rintro _ g' ⟨⟨t, htrace⟩, hpc⟩
  apply agrees_of_implied he
  · have hstream : g'.trace =
        fetches g.core.pc (handler.operandMode.bytes g.memory g.core.pc) ++ t := by
      rw [htrace, fetches_bytes g.memory h, hl]
      simp [Flat.fetched, ht]
    rw [hstream]
    exact List.sublist_append_left _ _
  · apply hcontinues
    intro hplain
    rw [hpc hplain, hnext, hl]
    rfl

end

theorem operand_word (memory : ℕ → Byte) (pc : ℕ) :
    OperandMode.operand.word (OperandMode.absolute.bytes memory pc) =
      ((memory ((pc + 2) &&& 0xFFFF)).val <<< 8) ||| (memory ((pc + 1) &&& 0xFFFF)).val := Nat.or_comm _ _

section
variable {g : Flat} {h : g.core.pc ≤ 0xFFFF} {cycles : ℕ}

theorem jmp_agrees (ht : g.trace = []) (he : opcodes (g.memory g.core.pc) = .implied .jmp cycles) :
    opJmp.OnFlat (fun _ g' => Agrees g.core g.memory (decoded g.memory h) g'.trace g'.core.pc) g.fetched := by
  obtain ⟨-, -, htarget, -⟩ := decoded_mode h he (Entry.form_implied .jmp cycles)
  apply (opJmp_onFlat g.fetched).mono
  rintro _ g' ⟨htrace, hpc⟩
  apply agrees_of_implied he
  · rw [htrace, fetches_bytes g.memory h]
    simp [Flat.fetched, ht, next_next, Implied.operandMode, OperandMode.length]
  · rw [Implied.Continues, htarget, hpc]
    simp only [Flat.fetched, next_next]
    exact congrArg some (operand_word g.memory g.core.pc)

theorem jmpInd_agrees (ht : g.trace = []) (he : opcodes (g.memory g.core.pc) = .implied .jmpInd cycles) :
    opJmpInd.OnFlat (fun _ g' => Agrees g.core g.memory (decoded g.memory h) g'.trace g'.core.pc)
      g.fetched := by
  obtain ⟨-, -, htarget, -⟩ := decoded_mode h he (Entry.form_implied .jmpInd cycles)
  apply (opJmpInd_onFlat g.fetched).mono
  rintro _ g' ⟨⟨t, htrace⟩, hpc⟩
  apply agrees_of_implied he
  · rw [htrace, fetches_bytes g.memory h]
    simp [Flat.fetched, ht, next_next, Implied.operandMode, OperandMode.length]
  · rw [Implied.Continues, htarget, hpc]
    simp only [Flat.fetched, next_next]
    exact ⟨_, congrArg some (operand_word g.memory g.core.pc), rfl⟩

theorem jsr_agrees (ht : g.trace = []) (he : opcodes (g.memory g.core.pc) = .implied .jsr cycles)
    (ho : ¬ OverwritesItself g.core g.memory) :
    opJsr.OnFlat (fun _ g' => Agrees g.core g.memory (decoded g.memory h) g'.trace g'.core.pc) g.fetched := by
  obtain ⟨-, -, htarget, -⟩ := decoded_mode h he (Entry.form_implied .jsr cycles)
  have hpushed : (g.core.pc + 2) &&& 0xFFFF ≠ stack ||| g.core.s ∧
      (g.core.pc + 2) &&& 0xFFFF ≠ stack ||| stackDown g.core.s 1 :=
    not_or.mp fun hhit => ho ⟨by rw [he]; rfl, hhit⟩
  apply (opJsr_onFlat g.fetched (next_next g.core.pc ▸ hpushed.1) (next_next g.core.pc ▸ hpushed.2)).mono
  rintro _ g' ⟨⟨t, htrace⟩, hpc⟩
  apply agrees_of_implied he
  · rw [htrace, fetches_bytes g.memory h]
    simp [Flat.fetched, ht, next_next, Implied.operandMode, OperandMode.length]
  · rw [Implied.Continues, htarget, hpc]
    simp only [Flat.fetched, next_next]
    exact congrArg some (operand_word g.memory g.core.pc)

theorem implied_agrees (ht : g.trace = []) {handler : Implied}
    (he : opcodes (g.memory g.core.pc) = .implied handler cycles) (ho : ¬ OverwritesItself g.core g.memory) :
    handler.op.OnFlat (fun _ g' => Agrees g.core g.memory (decoded g.memory h) g'.trace g'.core.pc)
      g.fetched := by
  cases hb : handler.taken 0 with
  | some taken => exact branch_agrees he ht (by rw [hb]; rfl)
  | none =>
    by_cases hl : handler.operandMode.length = 1
    · exact short_agrees he ht hb hl
    · cases handler with
      | jmp => exact jmp_agrees ht he
      | jmpInd => exact jmpInd_agrees ht he
      | jsr => exact jsr_agrees ht he ho
      | bpl | bmi | bvc | bvs | bcc | bcs | bne | beq => cases hb
      | _ => exact absurd rfl hl

/-! ## Steps and runs -/

theorem execute_agrees (chip : Chip) (ht : g.trace = []) (ho : ¬ OverwritesItself g.core g.memory) :
    (execute chip).OnFlat (fun _ g' =>
      Agrees g.core g.memory (decoded g.memory h) g'.trace g'.core.pc) g := by
  have hdispatch : (dispatch chip (opcodes (g.memory g.core.pc))).OnFlat (fun _ g' =>
      Agrees g.core g.memory (decoded g.memory h) g'.trace g'.core.pc) g.fetched := by
    cases he : opcodes (g.memory g.core.pc) with
    | implied handler cycles => exact implied_agrees ht he ho
    | addressed handler mode cycles => exact addressed_agrees chip g h ht he
  simp only [execute, onFlat_bind, onFlat_core]
  apply (onFlat_ask _).mpr
  rw [onFlat_bind, onFlat_update, onFlat_bind]
  apply hdispatch.mono
  intro _ g' hagrees
  simp only [onFlat_bind, onFlat_core, onFlat_ite, onFlat_update, onFlat_pure]
  split <;> exact hagrees

end

/-- The polled I says nothing of an instruction. -/
theorem Agrees.of_decided {c : Core} {memory : ℕ → Byte} {i : Instruction} {t : List Access} {pc : ℕ}
    (h : Agrees { c with polledI := none } memory i t pc) : Agrees c memory i t pc := by
  refine ⟨h.stream, ?_, ?_⟩
  · have hnext := h.next
    cases he : opcodes (memory c.pc) with
    | implied handler cycles =>
      rw [he] at hnext
      cases handler <;> exact hnext
    | addressed handler mode cycles =>
      rw [he] at hnext
      exact hnext
  · intro handler mode cycles he hm
    obtain ⟨target, address, before, operand, htarget, heffective, ht, hreads, huse⟩ :=
      h.operand handler mode cycles he hm
    refine ⟨target, address, before, operand, htarget, ?_, ht, hreads, ?_⟩
    · rw [← heffective]
      cases i.mode <;> rfl
    · cases handler <;> exact huse

namespace Machine

theorem step_agrees (chip : Chip) {m : Machine (ℕ → Byte)} (hm : m.Fit)
    (hk : (m.step .flat chip).1.kind = .instruction) (ho : ¬ OverwritesItself m.cpu.core m.host) :
    ∃ i, disassemble (fun address => .ok (m.host address)) m.cpu.core.pc = .ok i ∧
      Agrees m.cpu.core m.host i ((m.step .flat chip).1.trace.map HostCall.access)
        (m.step .flat chip).2.cpu.core.pc := by
  have hpc : m.cpu.core.pc ≤ 0xFFFF := hm.2.2.1
  obtain ⟨hkind, -, htrace, hplain, -⟩ := step_plain .flat chip hm.1
  have hcore : (m.step .flat chip).2.cpu.core = (stepRun .flat chip m).2.core := congrArg Plain.core hplain
  refine ⟨decoded m.host hpc, disassemble_eq m.host hpc, ?_⟩
  rw [hkind, stepRun, Plain.exec_step] at hk
  have hb : m.opened.boundary = .instruction := hk
  rw [htrace, hcore, stepRun, Plain.exec_step, Plain.ran, hb]
  have hdecided : m.opened.decided.flat =
      { core := { m.cpu.core with polledI := none }, memory := m.host, trace := [] } := by
    rw [Plain.decided, hb]
    rfl
  have hrun : (execute chip).OnFlat (fun _ g' => Agrees { m.cpu.core with polledI := none } m.host
      (decoded m.host hpc) g'.trace g'.core.pc) m.opened.decided.flat := by
    rw [hdecided]
    exact execute_agrees chip rfl ho
  exact (Plain.exec_onFlat (onFlat_instruction hrun)).of_decided

/-- **The disassembler and the core agree.** Whatever a host and its debugger have done with a processor on
a flat memory: when the next step is an instruction, `disassemble` returns one at PC, and the step reads its
bytes, leaves PC and uses the operand as it says, unless a JSR overwrites its own third byte. -/
theorem disassembly_agrees (chip : Chip) (readByte writeByte : Callable) (memory : ℕ → Byte)
    (actions : List (HostAction (ℕ → Byte))) :
    let m := (hostAct .flat chip).final (start readByte writeByte memory) actions
    let stepped := m.step .flat chip
    stepped.1.kind = .instruction → ¬ OverwritesItself m.cpu.core m.host →
    ∃ i, disassemble (fun address => .ok (m.host address)) m.cpu.core.pc = .ok i ∧
      Agrees m.cpu.core m.host i (stepped.1.trace.map HostCall.access) stepped.2.cpu.core.pc := by
  intro m stepped hk ho
  have hm : m.Fit :=
    System.final_preserves (hostAct_fit .flat chip) (start_fit readByte writeByte memory) actions
  exact step_agrees chip hm hk ho

/-- `LDA $1280,X` at $FFFE, with its last byte at $0000. -/
def wrappedLda : List (HostAction (ℕ → Byte)) :=
  [.act (.host fun _ => holding 0xFFFE [0xBD, 0x80, 0x12]), .restore (.poised 0xFFFE 0xFF 0 0 true)]

theorem disassembly_agrees_wrapped :
    let m := (hostAct .flat mos6502).final (start (.host 0) (.host 0) fun _ => 0) wrappedLda
    let stepped := m.step .flat mos6502
    ∃ i, disassemble (fun address => .ok (m.host address)) m.cpu.core.pc = .ok i ∧
      Agrees m.cpu.core m.host i (stepped.1.trace.map HostCall.access) stepped.2.cpu.core.pc :=
  disassembly_agrees mos6502 (.host 0) (.host 0) (fun _ => 0) wrappedLda (by decide +kernel) (by decide +kernel)

/-- `SHX $02FF,Y` with 1 in X and in Y. -/
def strayShx : List (HostAction (ℕ → Byte)) :=
  [.act (.host fun _ => holding 0x0200 [0x9E, 0xFF, 0x02]), .restore (.poised 0x0200 1 1 0 true)]

/-- It names $0300, and does not get there. -/
theorem shx_strays :
    let m := (hostAct .flat mos6502).final (start (.host 0) (.host 0) fun _ => 0) strayShx
    let stepped := m.step .flat mos6502
    stepped.1.kind = .instruction ∧ ¬ OverwritesItself m.cpu.core m.host ∧
      (∃ i, disassemble (fun address => .ok (m.host address)) m.cpu.core.pc = .ok i ∧
        i.target = some 0x02FF ∧ i.mode.effective m.cpu.core m.host 0x02FF = some 0x0300) ∧
      ∀ access ∈ stepped.1.trace.map HostCall.access, access.address ≠ 0x0300 := by
  intro m stepped
  refine ⟨by decide +kernel, by decide +kernel, ⟨decoded m.host ?_, disassemble_eq m.host _, ?_⟩, ?_⟩
  · decide +kernel
  · exact ⟨by decide +kernel, by decide +kernel⟩
  · decide +kernel

end Machine

end SixFiveOhTwo
