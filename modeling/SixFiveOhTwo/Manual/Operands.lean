import SixFiveOhTwo.Effects.Memory
import SixFiveOhTwo.Manual.Values

/-! # Addresses of the programming model

Addresses, words and the stack as the programming model has them, and what the addressing modes
compute on a flat memory: the address, PC after the instruction, and the cycle for leaving the page.
-/

namespace SixFiveOhTwo
open Bits Interaction Code Manual
set_option autoImplicit false

/-! ## Memory -/

theorem state_memory (c : Core) (memory : ℕ → Byte) {address : ℕ} (h : address ≤ 0xFFFF) :
    (State.of c memory).memory (.ofNat 16 address) = .ofNat 8 (memory address).val := by
  show BitVec.ofNat 8 (memory (BitVec.ofNat 16 address).toNat).val = _
  rw [toNat_word h]

theorem state_store (c : Core) (memory : ℕ → Byte) {address : ℕ} (h : address ≤ 0xFFFF) (value : ℕ) :
    (State.of c (Function.update memory address (Fin.ofNat 256 value))) =
      (State.of c memory).store (.ofNat 16 address) (.ofNat 8 value) := by
  have hmemory : (State.of c (Function.update memory address (Fin.ofNat 256 value))).memory =
      Function.update (State.of c memory).memory (.ofNat 16 address) (.ofNat 8 value) := by
    funext a
    by_cases ha : a = .ofNat 16 address
    · subst ha
      rw [state_memory _ _ h, Function.update_self, Function.update_self]
      apply BitVec.eq_of_toNat_eq
      simp
    · have hne : a.toNat ≠ address := by
        intro heq
        exact ha (BitVec.eq_of_toNat_eq (by rw [toNat_word h, heq]))
      rw [Function.update_of_ne ha]
      show BitVec.ofNat 8 (Function.update memory address _ a.toNat).val = _
      rw [Function.update_of_ne hne]
      rfl
  rw [State.store, ← hmemory]
  rfl

/-! ## Addresses -/

theorem append_byte {high low : ℕ} (hl : low ≤ 0xFF) :
    BitVec.ofNat 8 high ++ BitVec.ofNat 8 low = BitVec.ofNat 16 (high <<< 8 ||| low) := by
  apply BitVec.eq_of_toNat_eq
  rw [BitVec.toNat_append, toNat_byte hl, BitVec.toNat_ofNat, BitVec.toNat_ofNat,
    ← Nat.shiftLeft_add_eq_or_of_lt (Nat.lt_succ_of_le hl), ← Nat.shiftLeft_add_eq_or_of_lt (Nat.lt_succ_of_le hl),
    Nat.shiftLeft_eq, Nat.shiftLeft_eq]
  omega

theorem zeroPage_byte {r : ℕ} (hr : r ≤ 0xFF) : zeroPage (.ofNat 8 r) = .ofNat 16 r := by
  rw [zeroPage, append_byte hr, Nat.zero_shiftLeft, Nat.zero_or]

theorem stackPage_byte {r : ℕ} (hr : r ≤ 0xFF) : stackPage (.ofNat 8 r) = .ofNat 16 (stack ||| r) := by
  rw [stackPage, append_byte hr]
  rfl

theorem page_word {r : ℕ} (hr : r ≤ 0xFFFF) : page (.ofNat 16 r) = .ofNat 8 (r >>> 8) := by
  apply BitVec.eq_of_toNat_eq
  rw [page, BitVec.extractLsb'_toNat, toNat_word hr, BitVec.toNat_ofNat]

theorem low_word (r : ℕ) : (BitVec.ofNat 16 r).setWidth 8 = .ofNat 8 (r &&& 0xFF) := by
  rw [and_ff_byte]
  apply BitVec.eq_of_toNat_eq
  rw [BitVec.toNat_setWidth, BitVec.toNat_ofNat, BitVec.toNat_ofNat]
  omega

theorem high_mask (i : ℕ) : (0xFF00 : ℕ).testBit i = (decide (8 ≤ i) && decide (i - 8 < 8)) := by
  have h : 0xFF00 = (2 ^ 8 - 1) <<< 8 := by decide
  rw [h, Nat.testBit_shiftLeft, Nat.testBit_two_pow_sub_one]

theorem next_on_page {r : ℕ} (hr : r ≤ 0xFFFF) :
    page (.ofNat 16 r) ++ ((BitVec.ofNat 16 r).setWidth 8 + 1) =
      BitVec.ofNat 16 ((r &&& 0xFF00) ||| ((r + 1) &&& 0xFF)) := by
  have hlow : (BitVec.ofNat 16 r).setWidth 8 + 1 = BitVec.ofNat 8 ((r + 1) &&& 0xFF) := by
    rw [low_word, and_ff_byte, and_ff_byte, BitVec.ofNat_add]
    rfl
  have hhigh : (r >>> 8) <<< 8 = r &&& 0xFF00 := by
    apply Nat.eq_of_testBit_eq
    intro i
    rw [Nat.testBit_shiftLeft, Nat.testBit_and, high_mask, Nat.testBit_shiftRight]
    by_cases hi : 8 ≤ i
    · rw [decide_eq_true hi, Nat.add_sub_cancel' hi, Bool.true_and, Bool.true_and]
      by_cases htop : i < 16
      · rw [decide_eq_true (show i - 8 < 8 by omega), Bool.and_true]
      · have hpow : 2 ^ 16 ≤ 2 ^ i := Nat.pow_le_pow_right (by decide) (by omega)
        rw [Nat.testBit_lt_two_pow (by omega), Bool.false_and]
    · rw [decide_eq_false hi, Bool.false_and, Bool.false_and, Bool.and_false]
  rw [hlow, page_word hr, append_byte Nat.and_le_right, hhigh]

theorem add_byte_wrap (r n : ℕ) : BitVec.ofNat 8 r + BitVec.ofNat 8 n = .ofNat 8 ((r + n) &&& 0xFF) := by
  rw [and_ff_byte, BitVec.ofNat_add]

theorem add_word_wrap (r n : ℕ) : BitVec.ofNat 16 r + BitVec.ofNat 16 n = .ofNat 16 ((r + n) &&& 0xFFFF) := by
  rw [and_ffff_word, BitVec.ofNat_add]

/-- The test for another page compares the high bytes. -/
theorem otherPage_word {a b : ℕ} (ha : a ≤ 0xFFFF) (hb : b ≤ 0xFFFF) :
    otherPage a b = (page (.ofNat 16 a) != page (.ofNat 16 b)) := by
  have hbits : (a ^^^ b) &&& 0xFF00 = 0 ↔ a >>> 8 = b >>> 8 := by
    constructor
    · intro h
      apply Nat.eq_of_testBit_eq
      intro i
      rw [Nat.testBit_shiftRight, Nat.testBit_shiftRight]
      by_cases hi : i < 8
      · have hbit := congrArg (Nat.testBit · (8 + i)) h
        simpa [high_mask, hi] using hbit
      · have hpow : 2 ^ 16 ≤ 2 ^ (8 + i) := Nat.pow_le_pow_right (by decide) (by omega)
        rw [Nat.testBit_lt_two_pow (by omega), Nat.testBit_lt_two_pow (by omega)]
    · intro h
      apply Nat.eq_of_testBit_eq
      intro i
      rw [Nat.testBit_and, high_mask, Nat.testBit_xor, Nat.zero_testBit]
      by_cases hi : 8 ≤ i
      · have hbit := congrArg (Nat.testBit · (i - 8)) h
        simp only [Nat.testBit_shiftRight, Nat.add_sub_cancel' hi] at hbit
        rw [hbit, Bool.xor_self, Bool.false_and]
      · rw [decide_eq_false hi, Bool.false_and, Bool.and_false]
  have hle : ∀ {r : ℕ}, r ≤ 0xFFFF → r >>> 8 ≤ 0xFF := by
    intro r hr
    rw [Nat.shiftRight_eq_div_pow]
    omega
  rw [otherPage, page_word ha, page_word hb, Bool.eq_iff_iff, bne_iff_ne, bne_iff_ne, ne_eq, ne_eq, not_iff_not,
    hbits, ← BitVec.toNat_inj, toNat_byte (hle ha), toNat_byte (hle hb)]

/-! ## Operands -/

section Operands
variable (c : Core) (memory : ℕ → Byte)

theorem state_ahead {n : ℕ} : (State.of c memory).memory ((State.of c memory).pc + BitVec.ofNat 16 n) =
    .ofNat 8 (operandByte c memory n) := by
  rw [state_pc, add_word_wrap, state_memory c memory Nat.and_le_right]
  rfl

theorem state_operand : (State.of c memory).operand = .ofNat 8 (operandByte c memory 1) := state_ahead c memory

theorem state_operands : (State.of c memory).operands = .ofNat 16 (operandWord c memory) := by
  rw [State.operands, State.word]
  exact (congrArg₂ _ (state_ahead c memory (n := 2)) (state_ahead c memory (n := 1))).trans (append_byte (byte_le _))

theorem state_pointer {r : ℕ} (hr : r ≤ 0xFF) :
    (State.of c memory).pointer (.ofNat 8 r) = .ofNat 16 (zeroPageWord memory r) := by
  have hnext : zeroPage (BitVec.ofNat 8 r + 1) = .ofNat 16 ((r + 1) &&& 0xFF) := by
    rw [show (1 : BitVec 8) = .ofNat 8 1 from rfl, add_byte_wrap, zeroPage_byte Nat.and_le_right]
  rw [State.pointer, State.word, hnext, zeroPage_byte hr, state_memory c memory (Nat.and_le_right.trans (by decide)),
    state_memory c memory (hr.trans (by decide)), append_byte (byte_le _)]
  rfl

theorem state_indexed (base index : ℕ) (hindex : index ≤ 0xFF) :
    BitVec.ofNat 16 base + (BitVec.ofNat 8 index).setWidth 16 = .ofNat 16 ((base + index) &&& 0xFFFF) := by
  have hwide : (BitVec.ofNat 8 index).setWidth 16 = .ofNat 16 index := by
    apply BitVec.eq_of_toNat_eq
    rw [BitVec.toNat_setWidth, toNat_byte hindex, BitVec.toNat_ofNat]
  rw [hwide, add_word_wrap]

theorem state_crosses {base index : ℕ} (hbase : base ≤ 0xFFFF) (hindex : index ≤ 0xFF) :
    crosses (.ofNat 16 base) (.ofNat 8 index) = pageCrossed base index := by
  rw [crosses, state_indexed base index hindex, pageCrossed, otherPage_word Nat.and_le_right hbase]

variable {c} (hx : c.x ≤ 0xFF) (hy : c.y ≤ 0xFF)
include hx hy

theorem mode_reaches (mode : Mode) : mode.reaches (State.of c memory) = .ofNat 16 (mode.address c memory) := by
  have hbyte : operandByte c memory 1 ≤ 0xFF := byte_le _
  cases mode with
  | imm => exact add_word_wrap c.pc 1
  | zp => exact (congrArg zeroPage (state_operand c memory)).trans (zeroPage_byte hbyte)
  | zpx =>
    rw [Mode.reaches, state_operand, state_x, add_byte_wrap, zeroPage_byte Nat.and_le_right]
    rfl
  | zpy =>
    rw [Mode.reaches, state_operand, state_y, add_byte_wrap, zeroPage_byte Nat.and_le_right]
    rfl
  | abs => exact state_operands c memory
  | abx | abxW =>
    rw [Mode.reaches, state_operands, state_x, state_indexed _ _ hx]
    rfl
  | aby | abyW =>
    rw [Mode.reaches, state_operands, state_y, state_indexed _ _ hy]
    rfl
  | izx =>
    rw [Mode.reaches, state_operand, state_x, add_byte_wrap, state_pointer c memory Nat.and_le_right]
    rfl
  | izy | izyW =>
    rw [Mode.reaches, state_operand, state_y, state_pointer c memory hbyte, state_indexed _ _ hy]
    rfl

theorem mode_penalty : Mode.abx.penalty (State.of c memory) = (pageCrossed (operandWord c memory) c.x).toNat ∧
    Mode.aby.penalty (State.of c memory) = (pageCrossed (operandWord c memory) c.y).toNat ∧
    Mode.izy.penalty (State.of c memory) =
      (pageCrossed (zeroPageWord memory (operandByte c memory 1)) c.y).toNat := by
  have hword : operandWord c memory ≤ 0xFFFF := word_le (byte_le _) (byte_le _)
  have hpointer : zeroPageWord memory (operandByte c memory 1) ≤ 0xFFFF := word_le (byte_le _) (byte_le _)
  have hbyte : operandByte c memory 1 ≤ 0xFF := byte_le _
  rw [Mode.penalty, Mode.penalty, Mode.penalty, state_operands, state_operand, state_pointer c memory hbyte,
    state_x, state_y, state_crosses hword hx, state_crosses hword hy, state_crosses hpointer hy]
  exact ⟨rfl, rfl, rfl⟩

omit hx hy in
theorem Mode.address_le (mode : Mode) : mode.address c memory ≤ 0xFFFF := by
  cases mode with
  | imm => exact Mode.base_le .imm c memory
  | zp => exact Mode.base_le .zp c memory
  | abs => exact Mode.base_le .abs c memory
  | zpx | zpy => exact Nat.and_le_right.trans (by decide)
  | abx | abxW | aby | abyW | izy | izyW => exact Nat.and_le_right
  | izx => exact word_le (byte_le _) (byte_le _)

end Operands

/-! ## The stack -/

theorem state_push {c : Core} (hs : c.s ≤ 0xFF) (memory : ℕ → Byte) (value : ℕ) :
    State.of { c with s := masked 8 ((c.s : ℤ) - 1) } (Function.update memory (stack ||| c.s) (Fin.ofNat 256 value)) =
      (State.of c memory).push (.ofNat 8 value) := by
  have hdown : BitVec.ofNat 8 (masked 8 ((c.s : ℤ) - 1)) = .ofNat 8 c.s - 1 := masked_sub
  have hstore := state_store c memory (stack_le hs) value
  rw [← stackPage_byte hs] at hstore
  rw [State.push, state_s, ← hstore, ← hdown]
  rfl

theorem state_pulled (c : Core) (memory : ℕ → Byte) (n : ℕ) :
    (State.of c memory).pulled (.ofNat 8 n) = .ofNat 8 (memory (stack ||| ((c.s + n) &&& 0xFF))).val := by
  rw [State.pulled, state_s, add_byte_wrap, stackPage_byte Nat.and_le_right,
    state_memory c memory (stack_le Nat.and_le_right)]

theorem up_up (s : ℕ) : (((s + 1) &&& 0xFF) + 1) &&& 0xFF = (s + 2) &&& 0xFF := by
  simp only [and_ff]
  omega

theorem up_up_up (s : ℕ) : (((((s + 1) &&& 0xFF) + 1) &&& 0xFF) + 1) &&& 0xFF = (s + 3) &&& 0xFF := by
  simp only [and_ff]
  omega

theorem state_pushWord {c : Core} (hs : c.s ≤ 0xFF) (memory : ℕ → Byte) {word : ℕ} (hword : word ≤ 0xFFFF) :
    State.of { c with s := masked 8 ((masked 8 ((c.s : ℤ) - 1) : ℤ) - 1) }
        (Function.update (Function.update memory (stack ||| c.s) (Fin.ofNat 256 (word >>> 8)))
          (stack ||| masked 8 ((c.s : ℤ) - 1)) (Fin.ofNat 256 (word &&& 0xFF))) =
      (State.of c memory).pushWord (.ofNat 16 word) := by
  have hs' : masked 8 ((c.s : ℤ) - 1) ≤ 0xFF := Nat.le_of_lt_succ (masked_lt 8 _)
  have hlow := state_push (c := { c with s := masked 8 ((c.s : ℤ) - 1) }) hs'
    (Function.update memory (stack ||| c.s) (Fin.ofNat 256 (word >>> 8))) (word &&& 0xFF)
  rw [State.pushWord, page_word hword, low_word, ← state_push hs]
  exact hlow

/-! ## Addressing modes on a flat memory -/

theorem indexed_counts {post : ℕ → Flat → Prop} (base index : ℕ) (write : Bool) (g : Flat)
    (h : ∀ rest, post ((base + index) &&& 0xFFFF) { g with
      core := { g.core with extra := if !write && pageCrossed base index then 1 else g.core.extra }
      trace := g.trace ++ rest }) :
    (indexed base index write).OnFlat post g := by
  have hnone := h []
  have hone := fun address value => h [.r address value]
  rw [List.append_nil] at hnone
  rw [pageCrossed, otherPage] at hnone hone
  simp only [indexed]
  cases write <;> split <;> simp_all [Flat.read]

theorem state_next (c : Core) (memory : ℕ → Byte) (n : ℕ) :
    (State.of c memory).next (.ofNat 16 n) = State.of { c with pc := (c.pc + n) &&& 0xFFFF } memory :=
  congrArg (fun pc => { State.of c memory with pc }) (add_word_wrap c.pc n)

theorem mode_next (mode : Mode) (c : Core) (memory : ℕ → Byte) :
    (State.of c memory).next mode.bytes =
      State.of { c with pc := (c.pc + mode.bytes.toNat) &&& 0xFFFF } memory := by
  cases mode <;> exact state_next c memory _

section
attribute [local simp] eaImm eaZp eaZpx eaZpy eaAbs eaAbx eaAby eaAbxW eaAbyW eaIzx eaIzy eaIzyW izyBase fetch
  fetchWord

theorem Mode.ea_counts_flat (mode : Mode) {pc : ℕ} (g : Flat) (hpc : g.core.pc = (pc + 1) &&& 0xFFFF)
    (hextra : g.core.extra = 0) (hx : g.core.x ≤ 0xFF) (hy : g.core.y ≤ 0xFF) :
    mode.ea.OnFlat (fun _ g' => g'.core.pc = (pc + mode.bytes.toNat) &&& 0xFFFF ∧
      g'.core.extra = mode.penalty (State.of { g.core with pc } g.memory)) g := by
  cases mode with
  | imm | zp | zpx | zpy | abs | izx =>
    simp [Mode.ea, Mode.bytes, Mode.penalty, hpc, hextra, next_next]
  | abxW | abyW | izyW =>
    simp only [Mode.ea, eaAbxW, eaAbyW, eaIzyW, izyBase, fetchWord, fetch, onFlat_bind,
      onFlat_core, onFlat_update, onFlat_read, onFlat_pure]
    apply indexed_counts
    intro rest
    simp [Mode.bytes, Mode.penalty, hpc, hextra, next_next]
  | abx =>
    simp only [Mode.ea, eaAbx, fetchWord, fetch, onFlat_bind, onFlat_core, onFlat_update, onFlat_read, onFlat_pure]
    apply indexed_counts
    intro rest
    have hpenalty := (mode_penalty (c := { g.core with pc }) g.memory hx hy).1
    rw [hpenalty]
    simp [Mode.bytes, hpc, hextra, next_next, operandWord, operandByte, Bool.toNat, Bool.cond_eq_ite]
  | aby =>
    simp only [Mode.ea, eaAby, fetchWord, fetch, onFlat_bind, onFlat_core, onFlat_update, onFlat_read, onFlat_pure]
    apply indexed_counts
    intro rest
    have hpenalty := (mode_penalty (c := { g.core with pc }) g.memory hx hy).2.1
    rw [hpenalty]
    simp [Mode.bytes, hpc, hextra, next_next, operandWord, operandByte, Bool.toNat, Bool.cond_eq_ite]
  | izy =>
    simp only [Mode.ea, eaIzy, izyBase, fetch, onFlat_bind, onFlat_core, onFlat_update, onFlat_read, onFlat_pure]
    apply indexed_counts
    intro rest
    have hpenalty := (mode_penalty (c := { g.core with pc }) g.memory hx hy).2.2
    rw [hpenalty]
    simp [Mode.bytes, hpc, hextra, next_next, zeroPageWord, operandByte, Bool.toNat, Bool.cond_eq_ite]

end

end SixFiveOhTwo
