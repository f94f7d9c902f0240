import SixFiveOhTwo.Arithmetic.Bytes
import SixFiveOhTwo.Processor.Step

/-! # The programming model

What a program is told of the processor, one instruction at a time: four registers of a byte, PC, six
flags and the memory. An instruction is a change of these; how it is spread over bus cycles, and
that the flags share a register, is not part of it. Nothing is promised of the undocumented opcodes,
nor of the digits of a decimal result when an operand is not packed decimal.
-/

namespace SixFiveOhTwo
set_option autoImplicit false

namespace Manual

structure Flags where
  n : Bool
  v : Bool
  d : Bool
  i : Bool
  z : Bool
  c : Bool
  deriving DecidableEq, Repr

structure State where
  a : BitVec 8
  x : BitVec 8
  y : BitVec 8
  s : BitVec 8
  pc : BitVec 16
  flags : Flags
  memory : BitVec 16 → BitVec 8

/-- The flags as they are pushed, with B. -/
def Flags.byte (flags : Flags) (b : Bool) : BitVec 8 :=
  .ofNat 8 (128 * flags.n.toNat + 64 * flags.v.toNat + 32 + 16 * b.toNat + 8 * flags.d.toNat +
    4 * flags.i.toNat + 2 * flags.z.toNat + flags.c.toNat)

/-- The flags in a byte pulled. -/
def Flags.pulled (byte : BitVec 8) : Flags where
  n := byte.getLsbD 7
  v := byte.getLsbD 6
  d := byte.getLsbD 3
  i := byte.getLsbD 2
  z := byte.getLsbD 1
  c := byte.getLsbD 0

def Flags.nz (flags : Flags) (value : BitVec 8) : Flags :=
  { flags with n := value.msb, z := value == 0 }

/-- The address of a byte of page zero. -/
def zeroPage (byte : BitVec 8) : BitVec 16 := 0#8 ++ byte

/-- The address of a byte of the stack, page one. -/
def stackPage (byte : BitVec 8) : BitVec 16 := 1#8 ++ byte

def page (address : BitVec 16) : BitVec 8 := address.extractLsb' 8 8

namespace State
variable (m : State)

def word (low high : BitVec 16) : BitVec 16 := m.memory high ++ m.memory low

/-- The byte after the opcode, and the word. -/
def operand : BitVec 8 := m.memory (m.pc + 1)

def operands : BitVec 16 := m.word (m.pc + 1) (m.pc + 2)

/-- A pointer in page zero wraps within it. -/
def pointer (byte : BitVec 8) : BitVec 16 := m.word (zeroPage byte) (zeroPage (byte + 1))

def next (bytes : BitVec 16) : State := { m with pc := m.pc + bytes }

def setNz (value : BitVec 8) : State := { m with flags := m.flags.nz value }

def setC (c : Bool) : State := { m with flags := { m.flags with c } }

def loadA (value : BitVec 8) : State := { m with a := value }.setNz value

def loadX (value : BitVec 8) : State := { m with x := value }.setNz value

def loadY (value : BitVec 8) : State := { m with y := value }.setNz value

def store (address : BitVec 16) (value : BitVec 8) : State :=
  { m with memory := Function.update m.memory address value }

def compare (register value : BitVec 8) : State :=
  (m.setNz (register - value)).setC (value ≤ register)

def push (value : BitVec 8) : State := { m.store (stackPage m.s) value with s := m.s - 1 }

def pushWord (word : BitVec 16) : State := (m.push (page word)).push (word.setWidth 8)

/-- The byte that `n` pulls reach last. -/
def pulled (n : BitVec 8) : BitVec 8 := m.memory (stackPage (m.s + n))

/-- A branch is relative to the instruction after it. -/
def branch (taken : Bool) : State :=
  m.next (2 + if taken then m.operand.signExtend 16 else 0)

/-- An interrupt sequence: where it returns to and the flags with B are pushed. -/
def enter (returns : BitVec 16) (b : Bool) (vector : BitVec 16) : State :=
  let pushed := (m.pushWord returns).push (m.flags.byte b)
  { pushed with flags := { m.flags with i := true }, pc := pushed.word vector (vector + 1) }

/-! ## Sums and differences -/

/-- The sum with C, as a number and as signed bytes. -/
def sum (value : BitVec 8) : ℕ := m.a.toNat + value.toNat + m.flags.c.toNat

def signedSum (value : BitVec 8) : ℤ := m.a.toInt + value.toInt + m.flags.c.toNat

/-- The difference with the borrow, which is C inverted. -/
def difference (value : BitVec 8) : ℤ := m.a.toNat - value.toNat - (!m.flags.c).toNat

def signedDifference (value : BitVec 8) : ℤ := m.a.toInt - value.toInt - (!m.flags.c).toNat

end State

/-- A number that a signed byte does not hold. -/
def Overflows (number : ℤ) : Prop := number < -128 ∨ 127 < number

instance (number : ℤ) : Decidable (Overflows number) := inferInstanceAs (Decidable (_ ∨ _))

/-- ADC. In decimal mode A and C are the decimal sum of packed operands, and N, V and Z are open. -/
def Adds (decimal : Bool) (m : State) (value : BitVec 8) (m' : State) : Prop :=
  if decimal then ∃ a n v z c,
    m' = { m with a, flags := { m.flags with n, v, z, c } } ∧
      (IsPacked m.a.toNat → IsPacked value.toNat → IsPacked a.toNat ∧
        packedValue a.toNat + 100 * c.toNat =
          packedValue m.a.toNat + packedValue value.toNat + m.flags.c.toNat)
  else
    let a := BitVec.ofNat 8 (m.sum value)
    m' = { m with
      a
      flags := { m.flags.nz a with v := Overflows (m.signedSum value), c := 256 ≤ m.sum value } }

/-- SBC. The flags are those of the binary difference in both modes. -/
def Subtracts (decimal : Bool) (m : State) (value : BitVec 8) (m' : State) : Prop :=
  let binary := BitVec.ofInt 8 (m.difference value)
  let c : Bool := 0 ≤ m.difference value
  ∃ a, m' = { m with
      a
      flags := { m.flags.nz binary with v := Overflows (m.signedDifference value), c } } ∧
    if decimal then IsPacked m.a.toNat → IsPacked value.toNat → IsPacked a.toNat ∧
      (packedValue a.toNat : ℤ) - 100 * (!c).toNat =
        packedValue m.a.toNat - packedValue value.toNat - (!m.flags.c).toNat
    else a = binary

end Manual
open Manual

/-! ## Addressing modes -/

/-- The bytes of an instruction. -/
def Mode.bytes : Mode → BitVec 16
  | imm | zp | zpx | zpy | izx | izy | izyW => 2
  | abs | abx | abxW | aby | abyW => 3

/-- The address an instruction reaches. -/
def Mode.reaches (m : State) : Mode → BitVec 16
  | imm => m.pc + 1
  | zp => zeroPage m.operand
  | zpx => zeroPage (m.operand + m.x)
  | zpy => zeroPage (m.operand + m.y)
  | abs => m.operands
  | abx | abxW => m.operands + m.x.setWidth 16
  | aby | abyW => m.operands + m.y.setWidth 16
  | izx => m.pointer (m.operand + m.x)
  | izy | izyW => m.pointer m.operand + m.y.setWidth 16

/-- Indexing leaves the page. -/
def crosses (base : BitVec 16) (index : BitVec 8) : Bool := page (base + index.setWidth 16) != page base

/-- The cycle that a read spends when indexing leaves the page. -/
def Mode.penalty (m : State) : Mode → ℕ
  | abx => (crosses m.operands m.x).toNat
  | aby => (crosses m.operands m.y).toNat
  | izy => (crosses (m.pointer m.operand) m.y).toNat
  | _ => 0

/-! ## Instructions -/

/-- What an instruction does with the byte at its address. -/
def Addressed.Performs (adjusts : Bool) (address : BitVec 16) (m m' : State) (handler : Addressed) : Prop :=
  let value := m.memory address
  match handler with
  | lda => m' = m.loadA value
  | ldx => m' = m.loadX value
  | ldy => m' = m.loadY value
  | sta => m' = m.store address m.a
  | stx => m' = m.store address m.x
  | sty => m' = m.store address m.y
  | ora => m' = m.loadA (m.a ||| value)
  | and => m' = m.loadA (m.a &&& value)
  | eor => m' = m.loadA (m.a ^^^ value)
  | adc => Adds (adjusts && m.flags.d) m value m'
  | sbc => Subtracts (adjusts && m.flags.d) m value m'
  | cmp => m' = m.compare m.a value
  | cpx => m' = m.compare m.x value
  | cpy => m' = m.compare m.y value
  | bit => m' = { m with flags := { m.flags with
      n := value.getLsbD 7, v := value.getLsbD 6, z := m.a &&& value == 0 } }
  | inc => m' = (m.store address (value + 1)).setNz (value + 1)
  | dec => m' = (m.store address (value - 1)).setNz (value - 1)
  | asl =>
    let shifted := value <<< 1
    m' = ((m.store address shifted).setNz shifted).setC value.msb
  | lsr =>
    let shifted := value >>> 1
    m' = ((m.store address shifted).setNz shifted).setC (value.getLsbD 0)
  | rol =>
    let shifted := value <<< 1 ||| BitVec.ofNat 8 m.flags.c.toNat
    m' = ((m.store address shifted).setNz shifted).setC value.msb
  | ror =>
    let shifted := value >>> 1 ||| BitVec.ofNat 8 m.flags.c.toNat <<< 7
    m' = ((m.store address shifted).setNz shifted).setC (value.getLsbD 0)
  | _ => True

/-- The condition of a branch. -/
def Implied.condition (flags : Flags) : Implied → Option Bool
  | bpl => some !flags.n
  | bmi => some flags.n
  | bvc => some !flags.v
  | bvs => some flags.v
  | bcc => some !flags.c
  | bcs => some flags.c
  | bne => some !flags.z
  | beq => some flags.z
  | _ => none

/-- What the other instructions do. `latched` says whether an NMI is there to take BRK over. -/
def Implied.Performs (latched : Bool) (m m' : State) (handler : Implied) : Prop :=
  let next := m.next 1
  match handler with
  | nop => m' = next
  | tax => m' = next.loadX m.a
  | tay => m' = next.loadY m.a
  | txa => m' = next.loadA m.x
  | tya => m' = next.loadA m.y
  | tsx => m' = next.loadX m.s
  | txs => m' = { next with s := m.x }
  | inx => m' = next.loadX (m.x + 1)
  | iny => m' = next.loadY (m.y + 1)
  | dex => m' = next.loadX (m.x - 1)
  | dey => m' = next.loadY (m.y - 1)
  | aslA => m' = (next.loadA (m.a <<< 1)).setC m.a.msb
  | lsrA => m' = (next.loadA (m.a >>> 1)).setC (m.a.getLsbD 0)
  | rolA => m' = (next.loadA (m.a <<< 1 ||| BitVec.ofNat 8 m.flags.c.toNat)).setC m.a.msb
  | rorA => m' = (next.loadA (m.a >>> 1 ||| BitVec.ofNat 8 m.flags.c.toNat <<< 7)).setC (m.a.getLsbD 0)
  | clc => m' = next.setC false
  | sec => m' = next.setC true
  | cld => m' = { next with flags := { m.flags with d := false } }
  | sed => m' = { next with flags := { m.flags with d := true } }
  | cli => m' = { next with flags := { m.flags with i := false } }
  | sei => m' = { next with flags := { m.flags with i := true } }
  | clv => m' = { next with flags := { m.flags with v := false } }
  | pha => m' = next.push m.a
  | php => m' = next.push (m.flags.byte true)
  | pla => m' = { next with s := m.s + 1 }.loadA (m.pulled 1)
  | plp => m' = { next with s := m.s + 1, flags := .pulled (m.pulled 1) }
  | jmp => m' = { m with pc := m.operands }
  | jmpInd =>
    -- the pointer's high byte is on the page of its low byte
    m' = { m with pc := m.word m.operands (page m.operands ++ (m.operands.setWidth 8 + 1)) }
  | jsr =>
    -- the high byte of the target is read after the pushes
    let pushed := m.pushWord (m.pc + 2)
    m' = { pushed with pc := pushed.memory (m.pc + 2) ++ m.operand }
  | rts => m' = { m with s := m.s + 2, pc := (m.pulled 2 ++ m.pulled 1) + 1 }
  | rti => m' = { m with s := m.s + 3, flags := .pulled (m.pulled 1), pc := m.pulled 3 ++ m.pulled 2 }
  | brk => m' = m.enter (m.pc + 2) true (if latched then 0xFFFA else 0xFFFE)
  | jam => True
  | bpl | bmi | bvc | bvs | bcc | bcs | bne | beq =>
    m' = m.branch ((handler.condition m.flags).getD false)

/-- A taken branch spends a cycle, and another when it leaves the page. -/
def Implied.penalty (m : State) (handler : Implied) : ℕ :=
  if (handler.condition m.flags).getD false then
    if page (m.branch true).pc = page (m.pc + 2) then 1 else 2
  else 0

def Entry.Performs (adjusts latched : Bool) (m m' : State) : Entry → Prop
  | implied handler _ => handler.Performs latched m m'
  | addressed handler mode _ => handler.Performs adjusts (mode.reaches m) (m.next mode.bytes) m'

/-- The cycles of an instruction. -/
def Entry.timing (m : State) : Entry → ℕ
  | implied handler cycles => cycles + handler.penalty m
  | addressed _ mode cycles => cycles + mode.penalty m

/-- The instruction at PC. -/
def Manual.State.instruction (m : State) : Entry := opcodes (m.memory m.pc).toFin

/-- What the work of a boundary does. -/
def BoundaryKind.Performs (adjusts latched : Bool) (m m' : State) : BoundaryKind → Prop
  | instruction => m.instruction.Performs adjusts latched m m'
  | nmi => m' = m.enter m.pc false 0xFFFA
  | irq => m' = m.enter m.pc false (if latched then 0xFFFA else 0xFFFE)
  | reset => m' = { m with
      s := m.s - 3, flags := { m.flags with i := true }, pc := m.word 0xFFFC 0xFFFD }
  | jamIdle => m' = m

def BoundaryKind.timing (m : State) : BoundaryKind → ℕ
  | instruction => m.instruction.timing m
  | nmi | irq | reset => 7
  | jamIdle => 1

end SixFiveOhTwo
