import SixFiveOhTwo.Bits.Outside
import SixFiveOhTwo.Debug.Operands
import SixFiveOhTwo.Frames.Brackets

/-! # What an instruction may change

For each handler the registers and the flags its rule names, the addresses it writes, and what a
read-modify-write leaves at its own.
-/

namespace SixFiveOhTwo
open Bits
set_option autoImplicit false

/-- The registers, PC apart, and the flags that an instruction may change. -/
structure Effect where
  a : Bool := false
  x : Bool := false
  y : Bool := false
  s : Bool := false
  flags : ℕ := 0

/-- Registers and flags that no effect names are as they were. -/
structure Keeps (effect : Effect) (c c' : Core) : Prop where
  a : effect.a = false → c'.a = c.a
  x : effect.x = false → c'.x = c.x
  y : effect.y = false → c'.y = c.y
  s : effect.s = false → c'.s = c.s
  p : without c'.p effect.flags = without c.p effect.flags

/-! ## Registers and flags -/

def Addressed.effect : Addressed → Effect
  | ora | and | eor | lda | ane => { a := true, flags := flagN ||| flagZ }
  | adc | sbc | usbc | rra | isc | arr => { a := true, flags := flagN ||| flagV ||| flagZ ||| flagC }
  | slo | rla | sre | anc | alr => { a := true, flags := flagN ||| flagZ ||| flagC }
  | bit => { flags := flagN ||| flagV ||| flagZ }
  | asl | lsr | rol | ror | cmp | cpx | cpy | dcp => { flags := flagN ||| flagZ ||| flagC }
  | inc | dec => { flags := flagN ||| flagZ }
  | ldx => { x := true, flags := flagN ||| flagZ }
  | ldy => { y := true, flags := flagN ||| flagZ }
  | lax | lxa => { a := true, x := true, flags := flagN ||| flagZ }
  | las => { a := true, x := true, s := true, flags := flagN ||| flagZ }
  | sbx => { x := true, flags := flagN ||| flagZ ||| flagC }
  | tas => { s := true }
  | sta | stx | sty | sax | sha | shx | shy | nopRead => {}

def Implied.effect : Implied → Effect
  | aslA | lsrA | rolA | rorA => { a := true, flags := flagN ||| flagZ ||| flagC }
  | txa | tya => { a := true, flags := flagN ||| flagZ }
  | tax | tsx | inx | dex => { x := true, flags := flagN ||| flagZ }
  | tay | iny | dey => { y := true, flags := flagN ||| flagZ }
  | pla => { a := true, s := true, flags := flagN ||| flagZ }
  | plp | rti => { s := true, flags := flagN ||| flagV ||| flagD ||| flagI ||| flagZ ||| flagC }
  | pha | php | jsr | rts | txs => { s := true }
  | brk => { s := true, flags := flagI }
  | clc | sec => { flags := flagC }
  | cld | sed => { flags := flagD }
  | cli | sei => { flags := flagI }
  | clv => { flags := flagV }
  | bpl | bmi | bvc | bvs | bcc | bcs | bne | beq | jmp | jmpInd | nop | jam => {}

def Entry.effect : Entry → Effect
  | implied handler _ => handler.effect
  | addressed handler _ _ => handler.effect

/-- What the work of a boundary may change, on these registers and this memory. -/
def BoundaryKind.effect (c : Core) (memory : ℕ → Byte) : BoundaryKind → Effect
  | nmi | irq | reset => { s := true, flags := flagI }
  | jamIdle => {}
  | instruction => (opcodes (memory c.pc)).effect

/-! ## Addresses -/

/-- A byte of the instruction at PC. -/
def operandByte (c : Core) (memory : ℕ → Byte) (n : ℕ) : ℕ := (memory ((c.pc + n) &&& 0xFFFF)).val

/-- The word after the opcode. -/
def operandWord (c : Core) (memory : ℕ → Byte) : ℕ := (operandByte c memory 2 <<< 8) ||| operandByte c memory 1

/-- The address the last index is added to. -/
def Mode.base (c : Core) (memory : ℕ → Byte) : Mode → ℕ
  | imm => (c.pc + 1) &&& 0xFFFF
  | zp | zpx | zpy | izx => operandByte c memory 1
  | abs | abx | abxW | aby | abyW => operandWord c memory
  | izy | izyW => zeroPageWord memory (operandByte c memory 1)

/-- The address an instruction's mode computes. -/
def Mode.address (c : Core) (memory : ℕ → Byte) (mode : Mode) : ℕ :=
  match mode with
  | imm | zp | abs => mode.base c memory
  | zpx => (mode.base c memory + c.x) &&& 0xFF
  | zpy => (mode.base c memory + c.y) &&& 0xFF
  | abx | abxW => (mode.base c memory + c.x) &&& 0xFFFF
  | aby | abyW | izy | izyW => (mode.base c memory + c.y) &&& 0xFFFF
  | izx => zeroPageWord memory ((mode.base c memory + c.x) &&& 0xFF)

/-- The bytes `n` pushes write. -/
def stackBytes (c : Core) (n : ℕ) : List ℕ := (List.range n).map fun i => stack ||| stackDown c.s i

def Implied.writes (c : Core) : Implied → List ℕ
  | pha | php => stackBytes c 1
  | jsr => stackBytes c 2
  | brk => stackBytes c 3
  | _ => []

/-- A load writes nothing, a store the byte it reaches and a read-modify-write the byte at its address, which
is the one it reaches. -/
def Entry.writes (c : Core) (memory : ℕ → Byte) : Entry → List ℕ
  | implied handler _ => handler.writes c
  | addressed handler mode _ =>
    if handler.use = .load then [] else [handler.reached c (mode.base c memory) (mode.address c memory)]

/-- The addresses the work of a boundary may write, on these registers and this memory. -/
def BoundaryKind.writes (c : Core) (memory : ℕ → Byte) : BoundaryKind → List ℕ
  | nmi | irq => stackBytes c 3
  | reset | jamIdle => []
  | instruction => (opcodes (memory c.pc)).writes c memory

/-! ## Results -/

/-- The byte a read-modify-write leaves, from the byte it found and P. -/
def Addressed.result (p v : ℕ) : Addressed → ℕ
  | asl | slo => 2 * v % 256
  | lsr | sre => v / 2
  | rol | rla => (2 * v + p % 2) % 256
  | ror | rra => v / 2 + 128 * (p % 2)
  | inc | isc => (v + 1) % 256
  | dec | dcp => (v + 255) % 256
  | _ => v

/-- The address of an instruction that is a read-modify-write, and the byte it leaves there. -/
def Entry.leaves (c : Core) (memory : ℕ → Byte) : Entry → Option (ℕ × ℕ)
  | implied _ _ => none
  | addressed handler mode _ =>
    if handler.use = .modify then
      some (mode.address c memory, handler.result c.p (memory (mode.address c memory)).val)
    else none

def BoundaryKind.leaves (c : Core) (memory : ℕ → Byte) : BoundaryKind → Option (ℕ × ℕ)
  | instruction => (opcodes (memory c.pc)).leaves c memory
  | _ => none

end SixFiveOhTwo
