import SixFiveOhTwo.Processor.Code

/-! # Arithmetic, logic, compare and bit-test (`_alu.py`), loads and transfers (`_loads.py`) -/

namespace SixFiveOhTwo
open Bits
set_option autoImplicit false

/-- A + M + C, binary or NMOS decimal; the result and P. -/
def add (a value p decimal : ℕ) : ℕ × ℕ :=
  let carry := p &&& flagC
  let total := a + value + carry
  let p := without p (flagN ||| flagV ||| flagZ ||| flagC)
  let p := if total &&& 0xFF = 0 then p ||| flagZ else p
  if decimal ≠ 0 then
    let low := (a &&& 0x0F) + (value &&& 0x0F) + carry
    let low := if 0x0A ≤ low then ((low + 0x06) &&& 0x0F) + 0x10 else low
    let total := (a &&& 0xF0) + (value &&& 0xF0) + low
    let p := p ||| (total &&& flagN)
    let p := if without (a ^^^ total) (a ^^^ value) &&& 0x80 ≠ 0 then p ||| flagV else p
    let total := if 0xA0 ≤ total then total + 0x60 else total
    let p := if 0x100 ≤ total then p ||| flagC else p
    (total &&& 0xFF, p)
  else
    let result := total &&& 0xFF
    let p := p ||| (result &&& flagN)
    let p := if without (a ^^^ result) (a ^^^ value) &&& 0x80 ≠ 0 then p ||| flagV else p
    let p := if 0xFF < total then p ||| flagC else p
    (result, p)

/-- A - M - (1 - C), binary or NMOS decimal; the result and P. -/
def subtract (a value p decimal : ℕ) : ℕ × ℕ :=
  let borrow : ℤ := 1 - (p &&& flagC : ℕ)
  let difference : ℤ := a - value - borrow
  let binary := masked 8 difference
  let p := without p (flagN ||| flagV ||| flagZ ||| flagC) ||| nz binary
  let p := if (a ^^^ binary) &&& (a ^^^ value) &&& 0x80 ≠ 0 then p ||| flagV else p
  let p := if 0 ≤ difference then p ||| flagC else p
  if decimal = 0 then (binary, p)
  else
    let low : ℤ := (a &&& 0x0F : ℕ) - (value &&& 0x0F : ℕ) - borrow
    let high : ℤ := (a >>> 4 : ℕ) - (value >>> 4 : ℕ)
    let (low, high) := if low < 0 then (low - 6, high - 1) else (low, high)
    let high := if high < 0 then high - 6 else high
    -- high << 4 has its four low bits clear, so the source's or is a sum
    (masked 8 (high * 16 + masked 4 low), p)

namespace Code
variable (chip : Chip)

/-! ## `ALUMixin` -/

def opAdc (address : ℕ) : Code Unit := do
  let c ← core
  let (a, p) := add c.a (← read address) c.p (c.p &&& chip.decimalMode)
  update ({ · with a, p })

def opSbc (address : ℕ) : Code Unit := do
  let c ← core
  let (a, p) := subtract c.a (← read address) c.p (c.p &&& chip.decimalMode)
  update ({ · with a, p })

/-- Assign a result to the registers `assign` names, and N and Z to P. -/
def setNz (value : ℕ) (assign : Core → Core) : Code Unit :=
  update fun c => { assign c with p := without c.p (flagN ||| flagZ) ||| nz value }

def opAnd (address : ℕ) : Code Unit := do
  let a := (← core).a &&& (← read address)
  setNz a ({ · with a })

def opOra (address : ℕ) : Code Unit := do
  let a := (← core).a ||| (← read address)
  setNz a ({ · with a })

def opEor (address : ℕ) : Code Unit := do
  let a := (← core).a ^^^ (← read address)
  setNz a ({ · with a })

/-- C is "no borrow"; N and Z are the difference's, which is not kept. -/
def compare (register value : ℕ) : Code Unit := do
  let p := without (← core).p (flagN ||| flagZ ||| flagC) ||| nz (masked 8 ((register : ℤ) - value))
  let p := if value ≤ register then p ||| flagC else p
  update ({ · with p })

def opCmp (address : ℕ) : Code Unit := do compare (← core).a (← read address)

def opCpx (address : ℕ) : Code Unit := do compare (← core).x (← read address)

def opCpy (address : ℕ) : Code Unit := do compare (← core).y (← read address)

def opBit (address : ℕ) : Code Unit := do
  let value ← read address
  let c ← core
  let p := without c.p (flagN ||| flagV ||| flagZ) ||| (value &&& (flagN ||| flagV))
  let p := if c.a &&& value = 0 then p ||| flagZ else p
  update ({ · with p })

/-! ## `LoadMixin` -/

def opLda (address : ℕ) : Code Unit := do
  let a ← read address
  setNz a ({ · with a })

def opLdx (address : ℕ) : Code Unit := do
  let x ← read address
  setNz x ({ · with x })

def opLdy (address : ℕ) : Code Unit := do
  let y ← read address
  setNz y ({ · with y })

def opSta (address : ℕ) : Code Unit := do write address (← core).a

def opStx (address : ℕ) : Code Unit := do write address (← core).x

def opSty (address : ℕ) : Code Unit := do write address (← core).y

def opTax : Code Unit := do
  readPc
  let x := (← core).a
  setNz x ({ · with x })

def opTay : Code Unit := do
  readPc
  let y := (← core).a
  setNz y ({ · with y })

def opTxa : Code Unit := do
  readPc
  let a := (← core).x
  setNz a ({ · with a })

def opTya : Code Unit := do
  readPc
  let a := (← core).y
  setNz a ({ · with a })

def opTsx : Code Unit := do
  readPc
  let x := (← core).s
  setNz x ({ · with x })

def opTxs : Code Unit := do
  readPc
  update fun c => { c with s := c.x }

def opInx : Code Unit := do
  readPc
  let x := ((← core).x + 1) &&& 0xFF
  setNz x ({ · with x })

def opIny : Code Unit := do
  readPc
  let y := ((← core).y + 1) &&& 0xFF
  setNz y ({ · with y })

def opDex : Code Unit := do
  readPc
  let x := masked 8 (((← core).x : ℤ) - 1)
  setNz x ({ · with x })

def opDey : Code Unit := do
  readPc
  let y := masked 8 (((← core).y : ℤ) - 1)
  setNz y ({ · with y })

end Code

end SixFiveOhTwo
