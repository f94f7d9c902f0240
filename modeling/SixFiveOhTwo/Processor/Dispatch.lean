import SixFiveOhTwo.Processor.Control

/-! # The opcode map (`_dispatch.py`) and one instruction (`MOS6502._execute`)

A handler either makes its own bus cycles (implied, accumulator, relative, the stack, JMP, JSR and
BRK: the rows whose mode is `None`) or takes the address its addressing mode computed. The two kinds
are two types, so a row pairs a mode with exactly the handlers that take an address.
-/

namespace SixFiveOhTwo
set_option autoImplicit false
set_option maxRecDepth 10000

/-- The handlers of the rows without an addressing mode. -/
inductive Implied
  | brk | jam | php | aslA | bpl | clc | nop | jsr | plp | rolA | bmi | sec | rti | pha | lsrA
  | jmp | bvc | cli | rts | pla | rorA | jmpInd | bvs | sei | dey | txa | bcc | tya | txs | tay
  | tax | bcs | clv | tsx | iny | dex | bne | cld | inx | beq | sed
  deriving DecidableEq, Repr

/-- The handlers of the rows with an addressing mode. -/
inductive Addressed
  | ora | slo | nopRead | asl | anc | and | rla | bit | rol | eor | sre | lsr | alr | adc | rra
  | ror | arr | sta | sax | sty | stx | ane | sha | tas | shy | shx | ldy | lda | ldx | lax | lxa
  | las | cpy | cmp | dcp | dec | sbx | cpx | sbc | isc | inc | usbc
  deriving DecidableEq, Repr

/-- The addressing modes. -/
inductive Mode
  | izx | zp | imm | abs | izy | izyW | zpx | aby | abyW | abx | abxW | zpy
  deriving DecidableEq, Repr

/-- A row of the opcode map: handler, addressing mode, base cycles. -/
inductive Entry
  | implied (handler : Implied) (cycles : ℕ)
  | addressed (handler : Addressed) (mode : Mode) (cycles : ℕ)
  deriving DecidableEq, Repr

/-- The base cycle count of a row. -/
def Entry.cycles : Entry → ℕ
  | implied _ cycles => cycles
  | addressed _ _ cycles => cycles

/-! ## `getattr(cls, f"_op_{handler}")` and `getattr(cls, f"_ea_{mode}")` -/

open Code in
def Implied.op : Implied → Code Unit
  | brk => opBrk
  | jam => opJam
  | php => opPhp
  | aslA => opAslA
  | bpl => opBpl
  | clc => opClc
  | nop => opNop
  | jsr => opJsr
  | plp => opPlp
  | rolA => opRolA
  | bmi => opBmi
  | sec => opSec
  | rti => opRti
  | pha => opPha
  | lsrA => opLsrA
  | jmp => opJmp
  | bvc => opBvc
  | cli => opCli
  | rts => opRts
  | pla => opPla
  | rorA => opRorA
  | jmpInd => opJmpInd
  | bvs => opBvs
  | sei => opSei
  | dey => opDey
  | txa => opTxa
  | bcc => opBcc
  | tya => opTya
  | txs => opTxs
  | tay => opTay
  | tax => opTax
  | bcs => opBcs
  | clv => opClv
  | tsx => opTsx
  | iny => opIny
  | dex => opDex
  | bne => opBne
  | cld => opCld
  | inx => opInx
  | beq => opBeq
  | sed => opSed

open Code in
def Addressed.op (chip : Chip) : Addressed → ℕ → Code Unit
  | ora => opOra
  | slo => opSlo
  | nopRead => opNopRead
  | asl => opAsl
  | anc => opAnc
  | and => opAnd
  | rla => opRla
  | bit => opBit
  | rol => opRol
  | eor => opEor
  | sre => opSre
  | lsr => opLsr
  | alr => opAlr
  | adc => opAdc chip
  | rra => opRra chip
  | ror => opRor
  | arr => opArr chip
  | sta => opSta
  | sax => opSax
  | sty => opSty
  | stx => opStx
  | ane => opAne chip
  | sha => opSha
  | tas => opTas
  | shy => opShy
  | shx => opShx
  | ldy => opLdy
  | lda => opLda
  | ldx => opLdx
  | lax => opLax
  | lxa => opLxa chip
  | las => opLas
  | cpy => opCpy
  | cmp => opCmp
  | dcp => opDcp
  | dec => opDec
  | sbx => opSbx
  | cpx => opCpx
  | sbc => opSbc chip
  | isc => opIsc chip
  | inc => opInc
  | usbc => opUsbc chip

open Code in
def Mode.ea : Mode → Code ℕ
  | izx => eaIzx
  | zp => eaZp
  | imm => eaImm
  | abs => eaAbs
  | izy => eaIzy
  | izyW => eaIzyW
  | zpx => eaZpx
  | aby => eaAby
  | abyW => eaAbyW
  | abx => eaAbx
  | abxW => eaAbxW
  | zpy => eaZpy

/-! ## The map -/

/-- `OPCODES`, in opcode order. -/
def opcodeRows : List Entry := [
  .implied .brk 7, .addressed .ora .izx 6,
  .implied .jam 11, .addressed .slo .izx 8,
  .addressed .nopRead .zp 3, .addressed .ora .zp 3,
  .addressed .asl .zp 5, .addressed .slo .zp 5,
  .implied .php 3, .addressed .ora .imm 2,
  .implied .aslA 2, .addressed .anc .imm 2,
  .addressed .nopRead .abs 4, .addressed .ora .abs 4,
  .addressed .asl .abs 6, .addressed .slo .abs 6,
  .implied .bpl 2, .addressed .ora .izy 5,
  .implied .jam 11, .addressed .slo .izyW 8,
  .addressed .nopRead .zpx 4, .addressed .ora .zpx 4,
  .addressed .asl .zpx 6, .addressed .slo .zpx 6,
  .implied .clc 2, .addressed .ora .aby 4,
  .implied .nop 2, .addressed .slo .abyW 7,
  .addressed .nopRead .abx 4, .addressed .ora .abx 4,
  .addressed .asl .abxW 7, .addressed .slo .abxW 7,
  .implied .jsr 6, .addressed .and .izx 6,
  .implied .jam 11, .addressed .rla .izx 8,
  .addressed .bit .zp 3, .addressed .and .zp 3,
  .addressed .rol .zp 5, .addressed .rla .zp 5,
  .implied .plp 4, .addressed .and .imm 2,
  .implied .rolA 2, .addressed .anc .imm 2,
  .addressed .bit .abs 4, .addressed .and .abs 4,
  .addressed .rol .abs 6, .addressed .rla .abs 6,
  .implied .bmi 2, .addressed .and .izy 5,
  .implied .jam 11, .addressed .rla .izyW 8,
  .addressed .nopRead .zpx 4, .addressed .and .zpx 4,
  .addressed .rol .zpx 6, .addressed .rla .zpx 6,
  .implied .sec 2, .addressed .and .aby 4,
  .implied .nop 2, .addressed .rla .abyW 7,
  .addressed .nopRead .abx 4, .addressed .and .abx 4,
  .addressed .rol .abxW 7, .addressed .rla .abxW 7,
  .implied .rti 6, .addressed .eor .izx 6,
  .implied .jam 11, .addressed .sre .izx 8,
  .addressed .nopRead .zp 3, .addressed .eor .zp 3,
  .addressed .lsr .zp 5, .addressed .sre .zp 5,
  .implied .pha 3, .addressed .eor .imm 2,
  .implied .lsrA 2, .addressed .alr .imm 2,
  .implied .jmp 3, .addressed .eor .abs 4,
  .addressed .lsr .abs 6, .addressed .sre .abs 6,
  .implied .bvc 2, .addressed .eor .izy 5,
  .implied .jam 11, .addressed .sre .izyW 8,
  .addressed .nopRead .zpx 4, .addressed .eor .zpx 4,
  .addressed .lsr .zpx 6, .addressed .sre .zpx 6,
  .implied .cli 2, .addressed .eor .aby 4,
  .implied .nop 2, .addressed .sre .abyW 7,
  .addressed .nopRead .abx 4, .addressed .eor .abx 4,
  .addressed .lsr .abxW 7, .addressed .sre .abxW 7,
  .implied .rts 6, .addressed .adc .izx 6,
  .implied .jam 11, .addressed .rra .izx 8,
  .addressed .nopRead .zp 3, .addressed .adc .zp 3,
  .addressed .ror .zp 5, .addressed .rra .zp 5,
  .implied .pla 4, .addressed .adc .imm 2,
  .implied .rorA 2, .addressed .arr .imm 2,
  .implied .jmpInd 5, .addressed .adc .abs 4,
  .addressed .ror .abs 6, .addressed .rra .abs 6,
  .implied .bvs 2, .addressed .adc .izy 5,
  .implied .jam 11, .addressed .rra .izyW 8,
  .addressed .nopRead .zpx 4, .addressed .adc .zpx 4,
  .addressed .ror .zpx 6, .addressed .rra .zpx 6,
  .implied .sei 2, .addressed .adc .aby 4,
  .implied .nop 2, .addressed .rra .abyW 7,
  .addressed .nopRead .abx 4, .addressed .adc .abx 4,
  .addressed .ror .abxW 7, .addressed .rra .abxW 7,
  .addressed .nopRead .imm 2, .addressed .sta .izx 6,
  .addressed .nopRead .imm 2, .addressed .sax .izx 6,
  .addressed .sty .zp 3, .addressed .sta .zp 3,
  .addressed .stx .zp 3, .addressed .sax .zp 3,
  .implied .dey 2, .addressed .nopRead .imm 2,
  .implied .txa 2, .addressed .ane .imm 2,
  .addressed .sty .abs 4, .addressed .sta .abs 4,
  .addressed .stx .abs 4, .addressed .sax .abs 4,
  .implied .bcc 2, .addressed .sta .izyW 6,
  .implied .jam 11, .addressed .sha .izyW 6,
  .addressed .sty .zpx 4, .addressed .sta .zpx 4,
  .addressed .stx .zpy 4, .addressed .sax .zpy 4,
  .implied .tya 2, .addressed .sta .abyW 5,
  .implied .txs 2, .addressed .tas .abyW 5,
  .addressed .shy .abxW 5, .addressed .sta .abxW 5,
  .addressed .shx .abyW 5, .addressed .sha .abyW 5,
  .addressed .ldy .imm 2, .addressed .lda .izx 6,
  .addressed .ldx .imm 2, .addressed .lax .izx 6,
  .addressed .ldy .zp 3, .addressed .lda .zp 3,
  .addressed .ldx .zp 3, .addressed .lax .zp 3,
  .implied .tay 2, .addressed .lda .imm 2,
  .implied .tax 2, .addressed .lxa .imm 2,
  .addressed .ldy .abs 4, .addressed .lda .abs 4,
  .addressed .ldx .abs 4, .addressed .lax .abs 4,
  .implied .bcs 2, .addressed .lda .izy 5,
  .implied .jam 11, .addressed .lax .izy 5,
  .addressed .ldy .zpx 4, .addressed .lda .zpx 4,
  .addressed .ldx .zpy 4, .addressed .lax .zpy 4,
  .implied .clv 2, .addressed .lda .aby 4,
  .implied .tsx 2, .addressed .las .aby 4,
  .addressed .ldy .abx 4, .addressed .lda .abx 4,
  .addressed .ldx .aby 4, .addressed .lax .aby 4,
  .addressed .cpy .imm 2, .addressed .cmp .izx 6,
  .addressed .nopRead .imm 2, .addressed .dcp .izx 8,
  .addressed .cpy .zp 3, .addressed .cmp .zp 3,
  .addressed .dec .zp 5, .addressed .dcp .zp 5,
  .implied .iny 2, .addressed .cmp .imm 2,
  .implied .dex 2, .addressed .sbx .imm 2,
  .addressed .cpy .abs 4, .addressed .cmp .abs 4,
  .addressed .dec .abs 6, .addressed .dcp .abs 6,
  .implied .bne 2, .addressed .cmp .izy 5,
  .implied .jam 11, .addressed .dcp .izyW 8,
  .addressed .nopRead .zpx 4, .addressed .cmp .zpx 4,
  .addressed .dec .zpx 6, .addressed .dcp .zpx 6,
  .implied .cld 2, .addressed .cmp .aby 4,
  .implied .nop 2, .addressed .dcp .abyW 7,
  .addressed .nopRead .abx 4, .addressed .cmp .abx 4,
  .addressed .dec .abxW 7, .addressed .dcp .abxW 7,
  .addressed .cpx .imm 2, .addressed .sbc .izx 6,
  .addressed .nopRead .imm 2, .addressed .isc .izx 8,
  .addressed .cpx .zp 3, .addressed .sbc .zp 3,
  .addressed .inc .zp 5, .addressed .isc .zp 5,
  .implied .inx 2, .addressed .sbc .imm 2,
  .implied .nop 2, .addressed .usbc .imm 2,
  .addressed .cpx .abs 4, .addressed .sbc .abs 4,
  .addressed .inc .abs 6, .addressed .isc .abs 6,
  .implied .beq 2, .addressed .sbc .izy 5,
  .implied .jam 11, .addressed .isc .izyW 8,
  .addressed .nopRead .zpx 4, .addressed .sbc .zpx 4,
  .addressed .inc .zpx 6, .addressed .isc .zpx 6,
  .implied .sed 2, .addressed .sbc .aby 4,
  .implied .nop 2, .addressed .isc .abyW 7,
  .addressed .nopRead .abx 4, .addressed .sbc .abx 4,
  .addressed .inc .abxW 7, .addressed .isc .abxW 7]

theorem opcodeRows_length : opcodeRows.length = 256 := rfl

/-- `OPCODES[opcode]`. -/
def opcodes (opcode : Byte) : Entry := opcodeRows.get (opcode.cast opcodeRows_length.symm)

/-! ## One instruction -/

namespace Code

/-- What a row of the table runs: its handler, on the address of its mode when it has one. -/
def dispatch (chip : Chip) : Entry → Code Unit
  | .implied handler _ => handler.op
  | .addressed handler mode _ => do handler.op chip (← mode.ea)

/-- `_execute`: fetch, dispatch, and the cycles the opcode took. -/
def execute (chip : Chip) : Code ℕ := do
  let pc := (← core).pc
  let opcode ← ask (.read pc)
  update ({ · with pc := (pc + 1) &&& 0xFFFF })
  let entry := opcodes opcode
  dispatch chip entry
  let extra := (← core).extra
  if extra ≠ 0 then
    update ({ · with extra := 0 })
    return entry.cycles + extra
  else return entry.cycles

end Code

end SixFiveOhTwo
