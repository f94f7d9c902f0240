import SixFiveOhTwo.Accounting.Counts
import SixFiveOhTwo.Debug.Disasm
import SixFiveOhTwo.Machine.Flat
import SixFiveOhTwo.Machine.Work
import SixFiveOhTwo.Ranges.Values

/-! # Where an operand is, and what a handler does there

The disassembler's side is `OperandMode.effective`: the address an operand names, from the target of the
instruction, the index registers and the memory. The processor's side is `Mode.ea` and the handler.

* `Mode.ea_onFlat`: an addressing mode fetches the operand's bytes in order and returns that address.
* `Addressed.op_onFlat`: a handler loads, stores or modifies the byte there; four stores go astray.
-/

namespace SixFiveOhTwo
open Bits Interaction Code
set_option autoImplicit false
set_option maxRecDepth 10000

/-! ## The disassembler's side -/

/-- The word at a pointer in page zero, which does not leave the page. -/
def zeroPageWord (memory : ℕ → Byte) (pointer : ℕ) : ℕ :=
  ((memory ((pointer + 1) &&& 0xFF)).val <<< 8) ||| (memory pointer).val

/-- The address an operand names before the last index is added to it. -/
def OperandMode.base (memory : ℕ → Byte) (target : ℕ) : OperandMode → ℕ
  | indirectIndexed => zeroPageWord memory target
  | _ => target

/-- The address an operand names, for the modes whose operand is in memory. -/
def OperandMode.effective (c : Core) (memory : ℕ → Byte) (target : ℕ) : OperandMode → Option ℕ
  | zeroPage => some target
  | zeroPageX => some ((target + c.x) &&& 0xFF)
  | zeroPageY => some ((target + c.y) &&& 0xFF)
  | absolute => some target
  | absoluteX => some ((target + c.x) &&& 0xFFFF)
  | absoluteY => some ((target + c.y) &&& 0xFFFF)
  | indexedIndirect => some (zeroPageWord memory ((target + c.x) &&& 0xFF))
  | indirectIndexed => some ((zeroPageWord memory target + c.y) &&& 0xFFFF)
  | implied | accumulator | immediate | indirect | relative => none

/-- The reads of the bytes of an instruction, each with the byte. -/
def fetches (pc : ℕ) (data : List Byte) : List Access :=
  data.mapIdx fun n byte => .r ((pc + n) &&& 0xFFFF) byte.val

/-! ## What a handler does with its operand -/

/-- The three ways to use an operand. -/
inductive Use
  | load | store | modify
  deriving DecidableEq, Repr

def Addressed.use : Addressed → Use
  | sta | sax | sty | stx | sha | tas | shy | shx => .store
  | slo | asl | rla | rol | sre | lsr | rra | ror | dcp | dec | isc | inc => .modify
  | _ => .load

/-- The accesses of an operand: a load reads it, a store writes it, and a read-modify-write reads it,
writes back what it read, and then writes its result. -/
def Use.Accesses (memory : ℕ → Byte) (address : ℕ) (t : List Access) : Use → Prop
  | load => t = [.r address (memory address).val]
  | store => ∃ value, t = [.w address value]
  | modify => ∃ value, t =
      [.r address (memory address).val, .w address (memory address).val, .w address value]

/-- What SHA, SHX, SHY and TAS AND with the base address's high byte plus one. -/
def Addressed.stored (c : Core) : Addressed → Option ℕ
  | sha | tas => some (c.a &&& c.x)
  | shx => some c.x
  | shy => some c.y
  | _ => none

/-- The address a handler uses: the operand's, but when indexing crosses a page the ANDed value of those
four replaces its high byte. -/
def Addressed.reached (handler : Addressed) (c : Core) (base address : ℕ) : ℕ :=
  match handler.stored c with
  | none => address
  | some value =>
    if otherPage address base then ((value &&& ((base >>> 8) + 1) &&& 0xFF) <<< 8) ||| (address &&& 0xFF)
    else address

section
attribute [local simp] opOra opSlo opNopRead opAsl opAnc opAnd opRla opBit opRol opEor opSre opLsr opAlr
  opAdc opRra opRor opArr opSta opSax opSty opStx opAne opLdy opLda opLdx opLax opLxa opLas opCpy opCmp opDcp
  opDec opSbx opCpx opSbc opIsc opInc opUsbc shiftCombine shiftMemory Code.modify Code.compare setNz

/-- A handler uses the operand it is given, and leaves PC alone. -/
theorem Addressed.op_onFlat (chip : Chip) {handler : Addressed} (address : ℕ) (g : Flat)
    (hs : handler.stored g.core = none) :
    (handler.op chip address).OnFlat (fun _ g' => g'.core.pc = g.core.pc ∧
      ∃ t, g'.trace = g.trace ++ t ∧ handler.use.Accesses g.memory address t) g := by
  cases handler <;> first | (cases hs; done) | simp [Addressed.op, Addressed.use, Use.Accesses]

end

/-- The index SHA, SHX, SHY and TAS take back off their address. -/
def Addressed.index (c : Core) : Addressed → ℕ
  | shy => c.x
  | _ => c.y

/-- The store of the four, on a base address and an index. -/
theorem storeAndHigh_onFlat {base : ℕ} (hb : base ≤ 0xFFFF) (index value : ℕ) (g : Flat) :
    let address := (base + index) &&& 0xFFFF
    (storeAndHigh address index value).OnFlat (fun _ g' => g'.core = g.core ∧ ∃ stored,
      g'.trace = g.trace ++ [.w (if otherPage address base
        then ((value &&& ((base >>> 8) + 1) &&& 0xFF) <<< 8) ||| (address &&& 0xFF) else address) stored]) g := by
  intro address
  have hbase : masked 16 ((address : ℤ) - index) = base := by
    simp only [address, masked, and_ffff]
    omega
  simp [storeAndHigh, hbase, otherPage]

/-- Every handler uses the address it reaches, and leaves PC alone. -/
theorem Addressed.op_reached (chip : Chip) (handler : Addressed) (base address : ℕ) (g : Flat)
    (hi : handler.stored g.core ≠ none →
      base ≤ 0xFFFF ∧ address = (base + handler.index g.core) &&& 0xFFFF) :
    (handler.op chip address).OnFlat (fun _ g' => g'.core.pc = g.core.pc ∧ ∃ t, g'.trace = g.trace ++ t ∧
      handler.use.Accesses g.memory (handler.reached g.core base address) t) g := by
  cases hs : handler.stored g.core with
  | none =>
    have hreached : handler.reached g.core base address = address := by rw [reached, hs]
    rw [hreached]
    exact op_onFlat chip address g hs
  | some value =>
    obtain ⟨hb, rfl⟩ := hi (by simp [hs])
    have hstore : ∀ index (g₁ : Flat), index = handler.index g.core → g₁.memory = g.memory →
        g₁.trace = g.trace → g₁.core.pc = g.core.pc → handler.use = .store →
        (storeAndHigh ((base + handler.index g.core) &&& 0xFFFF) index value).OnFlat (fun _ g' =>
          g'.core.pc = g.core.pc ∧ ∃ t, g'.trace = g.trace ++ t ∧ handler.use.Accesses g.memory
            (handler.reached g.core base ((base + handler.index g.core) &&& 0xFFFF)) t) g₁ := by
      rintro _ g₁ rfl hmemory htrace hpc huse
      apply (storeAndHigh_onFlat hb _ value g₁).mono
      rintro _ g' ⟨hcore, stored, hwrite⟩
      rw [reached, hs, huse, hcore, hwrite, htrace]
      exact ⟨hpc, _, rfl, stored, rfl⟩
    cases handler <;> first | (cases hs; done) | skip
    all_goals
      cases hs
      simp only [Addressed.op, opSha, opTas, opShy, opShx, onFlat_bind, onFlat_core, onFlat_update]
      exact hstore _ _ rfl rfl rfl rfl rfl

/-! ## The addressing modes -/

/-- Indexing adds the index; it may read on the way. -/
theorem indexed_onFlat {post : ℕ → Flat → Prop} (base index : ℕ) (write : Bool) (g : Flat)
    (h : ∀ extra rest, (∀ access ∈ rest, access.isWrite = false) →
      post ((base + index) &&& 0xFFFF) { g with core := { g.core with extra }, trace := g.trace ++ rest }) :
    (indexed base index write).OnFlat post g := by
  have hnone := h g.core.extra [] (by simp)
  rw [List.append_nil] at hnone
  have hone := fun extra address value => h extra [.r address value] (by simp [Access.isWrite])
  simp only [indexed]
  cases write <;> split <;> simp only [onFlat_bind, onFlat_read, onFlat_pure, onFlat_ite, onFlat_update]
  · exact hone 1 _ _
  · exact hnone
  · exact hone g.core.extra _ _
  · exact hnone

section
attribute [local simp] eaZp eaZpx eaZpy eaAbs eaAbx eaAby eaAbxW eaAbyW eaIzx eaIzy eaIzyW izyBase fetch
  fetchWord OperandMode.bytes OperandMode.length OperandMode.effective OperandMode.operand
  OperandMode.operand.word dataAt fetches zeroPageWord Access.isWrite

/-- An addressing mode fetches the operand's bytes in order, then only reads, and returns the address
the operand names. -/
theorem Mode.ea_onFlat {mode : Mode} (hm : mode ≠ .imm) {pc : ℕ} (g : Flat)
    (hpc : g.core.pc = (pc + 1) &&& 0xFFFF) :
    mode.ea.OnFlat (fun address g' => ∃ target,
      (mode.operandMode.operand pc (mode.operandMode.bytes g.memory pc)).2 = some target ∧
      mode.operandMode.effective g.core g.memory target = some address ∧
      g'.core = { g.core with pc := (pc + mode.operandMode.length) &&& 0xFFFF, extra := g'.core.extra } ∧
      g'.memory = g.memory ∧ ∃ rest,
        g'.trace = g.trace ++ (fetches pc (mode.operandMode.bytes g.memory pc)).tail ++ rest ∧
        ∀ access ∈ rest, access.isWrite = false) g := by
  have hrange : List.range 2 = [0, 1] ∧ List.range 3 = [0, 1, 2] := ⟨rfl, rfl⟩
  cases mode with
  | imm => exact absurd rfl hm
  | zp | zpx | zpy | abs | izx => simp [Mode.ea, Mode.operandMode, hpc, next_next, hrange, Nat.or_comm]
  | abx | aby | abxW | abyW | izy | izyW =>
    simp only [Mode.ea, eaAbx, eaAby, eaAbxW, eaAbyW, eaIzy, eaIzyW, izyBase, fetchWord, fetch, onFlat_bind,
      onFlat_core, onFlat_update, onFlat_read, onFlat_pure]
    apply indexed_onFlat
    intro extra rest hrest
    simp [Mode.operandMode, hpc, next_next, hrange, Nat.or_comm]
    exact hrest

end

end SixFiveOhTwo
