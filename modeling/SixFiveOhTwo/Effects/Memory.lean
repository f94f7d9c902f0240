import SixFiveOhTwo.Debug.Agreement
import SixFiveOhTwo.Effects.Registers

/-! # Memory an instruction leaves alone

On a flat memory an addressing mode computes `Mode.address` and writes nothing; the handler writes at most the
byte it reaches, and a read-modify-write leaves its result there.
-/

namespace SixFiveOhTwo
open Bits Interaction Code
set_option autoImplicit false
set_option maxRecDepth 10000

/-! ## Addresses -/

section
attribute [local simp] eaImm eaZp eaZpx eaZpy eaAbs eaAbx eaAby eaAbxW eaAbyW eaIzx eaIzy eaIzyW izyBase fetch
  fetchWord

theorem Mode.ea_address (mode : Mode) {pc : ℕ} (g : Flat) (hpc : g.core.pc = (pc + 1) &&& 0xFFFF) :
    mode.ea.OnFlat (fun address g' => address = mode.address { g.core with pc } g.memory ∧ g'.memory = g.memory ∧
      g'.core = { g.core with pc := g'.core.pc, extra := g'.core.extra }) g := by
  cases mode with
  | imm | zp | zpx | zpy | abs | izx =>
    simp [Mode.ea, Mode.address, Mode.base, operandByte, operandWord, zeroPageWord, hpc, next_next]
  | abx | aby | abxW | abyW | izy | izyW =>
    simp only [Mode.ea, eaAbx, eaAby, eaAbxW, eaAbyW, eaIzy, eaIzyW, izyBase, fetchWord, fetch, onFlat_bind,
      onFlat_core, onFlat_update, onFlat_read, onFlat_pure]
    apply indexed_onFlat
    intro extra rest hrest
    simp [Mode.address, Mode.base, operandByte, operandWord, zeroPageWord, hpc, next_next]

end

/-! ## Handlers -/

/-- The accesses of an operand write nothing but its byte, and a load not that. -/
theorem Use.Accesses.unwritten {memory : ℕ → Byte} {address : ℕ} {t : List Access} {use : Use}
    (h : use.Accesses memory address t) {a : ℕ} (ha : a ∉ if use = .load then [] else [address]) :
    written memory t a = memory a := by
  cases use with
  | load =>
    rw [h]
    rfl
  | store =>
    obtain ⟨value, rfl⟩ := h
    exact Function.update_of_ne (List.ne_of_not_mem_cons ha) _ _
  | modify =>
    obtain ⟨value, rfl⟩ := h
    have hne := List.ne_of_not_mem_cons ha
    exact (Function.update_of_ne hne _ _).trans (Function.update_of_ne hne _ _)

theorem Addressed.op_writes (chip : Chip) (handler : Addressed) (base address : ℕ) (g : Flat)
    (hi : handler.stored g.core ≠ none → base ≤ 0xFFFF ∧ address = (base + handler.index g.core) &&& 0xFFFF) :
    (handler.op chip address).OnFlat (fun _ g' =>
      ∀ a ∉ if handler.use = .load then [] else [handler.reached g.core base address], g'.memory a = g.memory a) g := by
  refine Tree.wp_mono (Tree.wp_and (handler.op_reached chip base address g hi) (onFlat_written _ g)) ?_
  rintro _ g' ⟨⟨-, t, ht, huse⟩, t', ht', hmemory⟩ a ha
  obtain rfl := List.append_cancel_left (ht.symm.trans ht')
  rw [hmemory]
  exact huse.unwritten ha

/-! ## Results -/

theorem asl_result (v p : ℕ) : (asl v p).1 = 2 * v % 256 := by
  rw [asl, and_ff, Nat.shiftLeft_eq]
  omega

theorem lsr_result (v p : ℕ) : (lsr v p).1 = v / 2 := by
  rw [lsr, Nat.shiftRight_eq_div_pow]

theorem rol_result (v p : ℕ) : (rol v p).1 = (2 * v + p % 2) % 256 := by
  have hcarry : p % 2 < 2 ^ 1 := Nat.mod_lt p Nat.two_pos
  rw [rol, and_ff, Nat.and_one_is_mod, ← Nat.shiftLeft_add_eq_or_of_lt hcarry, Nat.shiftLeft_eq]
  omega

theorem ror_result (v : Byte) (p : ℕ) : (ror v.val p).1 = v.val / 2 + 128 * (p % 2) := by
  have hhalf : v.val / 2 < 2 ^ 7 := by
    have hv := v.isLt
    omega
  rw [ror, Nat.and_one_is_mod, Nat.or_comm, Nat.shiftRight_eq_div_pow, ← Nat.shiftLeft_add_eq_or_of_lt hhalf,
    Nat.shiftLeft_eq]
  omega

theorem dec_result (v : ℕ) : masked 8 ((v : ℤ) - 1) = (v + 255) % 256 := by
  rw [masked]
  omega

section
attribute [local simp] opSlo opAsl opRla opRol opSre opLsr opRra opRor opDcp opDec opIsc opInc shiftCombine shiftMemory
  Code.modify Code.compare setNz

/-- A read-modify-write leaves its result at its address, whatever byte it found there. -/
theorem Addressed.op_result (chip : Chip) {handler : Addressed} (hu : handler.use = .modify) (address : ℕ) (g : Flat) :
    (handler.op chip address).OnFlat (fun _ g' =>
      (g'.memory address).val = handler.result g.core.p (g.memory address).val) g := by
  have hv := (g.memory address).isLt
  cases handler <;> first | (cases hu; done) | simp [Addressed.op, Addressed.result, asl_result, lsr_result, rol_result,
    ror_result, dec_result, and_ff]
  all_goals omega

end

/-! ## Rows -/

theorem Mode.base_le (mode : Mode) (c : Core) (memory : ℕ → Byte) : mode.base c memory ≤ 0xFFFF := by
  have hword : operandWord c memory ≤ 0xFFFF := word_le (byte_le _) (byte_le _)
  have hbyte : operandByte c memory 1 ≤ 0xFFFF := byte_le_word _
  cases mode with
  | imm => exact Nat.and_le_right
  | zp | zpx | zpy | izx => exact hbyte
  | abs | abx | abxW | aby | abyW => exact hword
  | izy | izyW => exact word_le (byte_le _) (byte_le _)

theorem address_indexed {opcode : Byte} {handler : Addressed} {mode : Mode} {cycles : ℕ}
    (he : opcodes opcode = .addressed handler mode cycles) (c : Core) (memory : ℕ → Byte)
    (hs : handler.stored c ≠ none) :
    mode.address c memory = (mode.base c memory + handler.index c) &&& 0xFFFF := by
  rcases stored_mode he hs with ⟨rfl | rfl, hindex⟩ | ⟨rfl, hindex⟩
  all_goals
    rw [hindex]
    rfl

theorem branchTaken_memory (offset early : ℕ) (g : Flat) :
    (branchTaken offset early).OnFlat (fun _ g' => g'.memory = g.memory) g := by
  simp only [branchTaken, onFlat_bind, onFlat_core, onFlat_read, onFlat_poll]
  intro polled
  cases polled.stalledBefore <;> simp

theorem branch_memory (taken : Bool) (g : Flat) :
    (branch taken).OnFlat (fun _ g' => g'.memory = g.memory) g := by
  simp only [branch, fetch, onFlat_bind, onFlat_poll, onFlat_updatePoll, onFlat_core, onFlat_update, onFlat_read]
  intro _ polled
  cases polled.stalled <;> cases taken <;> simp
  all_goals exact branchTaken_memory _ _ _

theorem written_outside {memory : ℕ → Byte} {t : List Access} {addresses : List ℕ} {a : ℕ}
    (h : ∀ access ∈ t, access.isWrite = true → access.address ∈ addresses) (ha : a ∉ addresses) :
    written memory t a = memory a := by
  refine written_of_unwritten fun access haccess hshape => ha ?_
  have hwrite : access.isWrite = true := congrArg Prod.fst hshape
  have haddress : access.address = a := congrArg Prod.snd hshape
  exact haddress ▸ h access haccess hwrite

theorem mem_stackBytes (c : Core) {i n : ℕ} (h : i < n) : stack ||| stackDown c.s i ∈ stackBytes c n :=
  List.mem_map_of_mem (List.mem_range.mpr h)

theorem frame_writes (c : Core) (returns pushedP : ℕ) (before : List Access) {after : List Access}
    (hbefore : ∀ access ∈ before, access.isWrite = false) (hafter : ∀ access ∈ after, access.isWrite = false) :
    ∀ access ∈ before ++ (frame c.s returns pushedP ++ after), access.isWrite = true →
      access.address ∈ stackBytes c 3 := by
  intro access haccess hwrite
  rcases List.mem_append.mp haccess with hmem | hmem
  · exact absurd hwrite (by simp [hbefore access hmem])
  rcases List.mem_append.mp hmem with hmem | hmem
  · simp only [frame, List.mem_cons, List.not_mem_nil, or_false] at hmem
    rcases hmem with rfl | rfl | rfl
    · exact mem_stackBytes c (i := 0) (by decide)
    · exact mem_stackBytes c (i := 1) (by decide)
    · exact mem_stackBytes c (i := 2) (by decide)
  · exact absurd hwrite (by simp [hafter access hmem])

section
attribute [local simp] opJam opPhp opAslA opClc opNop opPlp opRolA opSec opRti opPha opLsrA opJmp
  opCli opRts opPla opRorA opJmpInd opSei opDey opTxa opTya opTxs opTay opTax opClv opTsx opIny opDex opCld
  opInx opSed readPc readStack push pull fetch fetchWord shiftA setNz jamReads

theorem Implied.op_writes {h : Implied} (hb : h.taken 0 = none) (g : Flat) :
    h.op.OnFlat (fun _ g' => ∀ a ∉ h.writes g.core, g'.memory a = g.memory a) g := by
  cases h with
  | brk =>
    refine Tree.wp_mono (Tree.wp_and (brk_ensures g.sight).onFlat (onFlat_written _ g)) ?_
    rintro _ g' ⟨⟨e, v, low, high, ht, -⟩, t, ht', hmemory⟩ a ha
    obtain rfl := List.append_cancel_left (ht.symm.trans ht')
    rw [hmemory]
    exact written_outside (frame_writes g.core _ _ [.r g.core.pc e.val] (by simp [Access.isWrite])
      (by simp [Access.isWrite])) ha
  | jsr =>
    refine (opJsr_pushes g).mono ?_
    rintro _ g' ⟨-, hmemory⟩ a ha
    rw [hmemory]
    refine written_outside (fun access haccess _ => ?_) ha
    simp only [List.mem_cons, List.not_mem_nil, or_false] at haccess
    rcases haccess with rfl | rfl
    · exact mem_stackBytes g.core (i := 0) (by decide)
    · exact mem_stackBytes g.core (i := 1) (by decide)
  | pha | php =>
    simp only [Implied.op, opPha, opPhp, readPc, push, onFlat_bind, onFlat_core, onFlat_read, onFlat_write,
      onFlat_update, onFlat_pure, Flat.read_core, Flat.read_memory, Flat.write_memory]
    intro a ha
    exact Function.update_of_ne (List.ne_of_not_mem_cons ha) _ _
  | bpl | bmi | bvc | bvs | bcc | bcs | bne | beq => cases hb
  | _ => simp [Implied.op, Implied.writes]

end

theorem dispatch_writes (chip : Chip) {opcode : Byte} {entry : Entry} (he : opcodes opcode = entry) (pc : ℕ) (g : Flat)
    (hpc : g.core.pc = (pc + 1) &&& 0xFFFF) :
    (dispatch chip entry).OnFlat (fun _ g' =>
      (∀ a ∉ entry.writes { g.core with pc } g.memory, g'.memory a = g.memory a) ∧
        ∀ left ∈ entry.leaves { g.core with pc } g.memory, (g'.memory left.1).val = left.2) g := by
  cases entry with
  | addressed handler mode cycles =>
    rw [dispatch, onFlat_bind]
    refine (mode.ea_address g hpc).mono ?_
    rintro address g₁ ⟨rfl, hmemory, hcore⟩
    have hs : handler.stored g₁.core = handler.stored { g.core with pc } := by
      rw [hcore]
      cases handler <;> rfl
    have hi : handler.index g₁.core = handler.index { g.core with pc } := by
      rw [hcore]
      cases handler <;> rfl
    have hreached : ∀ base address, handler.reached g₁.core base address = handler.reached { g.core with pc } base address := by
      intro base address
      rw [Addressed.reached, Addressed.reached, hs]
    have hwrites := handler.op_writes chip (mode.base { g.core with pc } g.memory)
      (mode.address { g.core with pc } g.memory) g₁ (by
        rw [hs, hi]
        exact fun hne => ⟨mode.base_le _ _, address_indexed he _ _ hne⟩)
    rw [hreached, hmemory] at hwrites
    cases hu : handler.use with
    | modify =>
      refine Tree.wp_mono (Tree.wp_and hwrites (handler.op_result chip hu _ g₁)) ?_
      rintro _ g₂ ⟨hunwritten, hresult⟩
      rw [hcore, hmemory] at hresult
      refine ⟨hunwritten, fun left hleft => ?_⟩
      rw [Entry.leaves, if_pos hu, Option.mem_some] at hleft
      subst hleft
      exact hresult
    | load | store =>
      refine Tree.wp_mono hwrites fun _ g₂ hunwritten => ⟨hunwritten, fun left hleft => ?_⟩
      rw [Entry.leaves, hu] at hleft
      cases hleft
  | implied handler cycles =>
    have hnone : ∀ {g' : Flat}, ∀ left ∈ (Entry.implied handler cycles).leaves { g.core with pc } g.memory,
        (g'.memory left.1).val = left.2 := fun left hleft => by cases hleft
    cases hb : handler.taken 0 with
    | none => exact Tree.wp_mono (Implied.op_writes hb g) fun _ g' hunwritten => ⟨hunwritten, hnone⟩
    | some taken =>
      rw [dispatch, Implied.op_branch (by rw [hb]; rfl), onFlat_bind, onFlat_core]
      refine Tree.wp_mono (branch_memory _ g) fun _ g' hmemory => ⟨fun a _ => ?_, hnone⟩
      rw [hmemory]

end SixFiveOhTwo
