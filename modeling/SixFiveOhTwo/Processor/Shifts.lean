import SixFiveOhTwo.Processor.Alu

/-! # Read-modify-writes (`_shifts.py`) and the undocumented opcodes (`_undocumented.py`) -/

namespace SixFiveOhTwo
open Bits
set_option autoImplicit false

def asl (value p : ℕ) : ℕ × ℕ :=
  let result := (value <<< 1) &&& 0xFF
  (result, without p (flagN ||| flagZ ||| flagC) ||| nz result ||| (value >>> 7))

def lsr (value p : ℕ) : ℕ × ℕ :=
  let result := value >>> 1
  (result, without p (flagN ||| flagZ ||| flagC) ||| nz result ||| (value &&& flagC))

def rol (value p : ℕ) : ℕ × ℕ :=
  let result := ((value <<< 1) ||| (p &&& flagC)) &&& 0xFF
  (result, without p (flagN ||| flagZ ||| flagC) ||| nz result ||| (value >>> 7))

def ror (value p : ℕ) : ℕ × ℕ :=
  let result := (value >>> 1) ||| ((p &&& flagC) <<< 7)
  (result, without p (flagN ||| flagZ ||| flagC) ||| nz result ||| (value &&& flagC))

/-- What a JAMmed CPU puts on the address bus after its second cycle. -/
def jamReads : List ℕ :=
  [0xFFFF, 0xFFFE, 0xFFFE, 0xFFFF, 0xFFFF, 0xFFFF, 0xFFFF, 0xFFFF, 0xFFFF]

namespace Code
variable (chip : Chip)

/-! ## `ShiftMixin` -/

/-- The first write is the unmodified byte. -/
def modify (address value : ℕ) : Code ℕ := do
  write address value
  return value

/-- The read-modify-write shifts: read, write back, shift, write the result. -/
def shiftMemory (shift : ℕ → ℕ → ℕ × ℕ) (address : ℕ) : Code Unit := do
  let (value, p) := shift (← modify address (← read address)) (← core).p
  update ({ · with p })
  write address value

def opAsl (address : ℕ) : Code Unit := shiftMemory asl address

def opLsr (address : ℕ) : Code Unit := shiftMemory lsr address

def opRol (address : ℕ) : Code Unit := shiftMemory rol address

def opRor (address : ℕ) : Code Unit := shiftMemory ror address

def opInc (address : ℕ) : Code Unit := do
  let value := ((← modify address (← read address)) + 1) &&& 0xFF
  setNz value id
  write address value

def opDec (address : ℕ) : Code Unit := do
  let value := masked 8 (((← modify address (← read address)) : ℤ) - 1)
  setNz value id
  write address value

/-- The accumulator shifts. -/
def shiftA (shift : ℕ → ℕ → ℕ × ℕ) : Code Unit := do
  readPc
  let c ← core
  let (a, p) := shift c.a c.p
  update ({ · with a, p })

def opAslA : Code Unit := shiftA asl

def opLsrA : Code Unit := shiftA lsr

def opRolA : Code Unit := shiftA rol

def opRorA : Code Unit := shiftA ror

/-! ## `UndocumentedMixin`: a read-modify-write, then an ALU operation with the result -/

/-- SLO, RLA and SRE: shift memory, then combine the result into A. -/
def shiftCombine (shift : ℕ → ℕ → ℕ × ℕ) (combine : ℕ → ℕ → ℕ) (address : ℕ) : Code Unit := do
  let (value, p) := shift (← modify address (← read address)) (← core).p
  write address value
  let a := combine (← core).a value
  update ({ · with a, p := without p (flagN ||| flagZ) ||| nz a })

def opSlo (address : ℕ) : Code Unit := shiftCombine asl (· ||| ·) address

def opRla (address : ℕ) : Code Unit := shiftCombine rol (· &&& ·) address

def opSre (address : ℕ) : Code Unit := shiftCombine lsr (· ^^^ ·) address

def opRra (address : ℕ) : Code Unit := do
  let (value, p) := ror (← modify address (← read address)) (← core).p
  write address value
  let (a, p) := add (← core).a value p (p &&& chip.decimalMode)
  update ({ · with a, p })

def opDcp (address : ℕ) : Code Unit := do
  let value := masked 8 (((← modify address (← read address)) : ℤ) - 1)
  write address value
  compare (← core).a value

def opIsc (address : ℕ) : Code Unit := do
  let value := ((← modify address (← read address)) + 1) &&& 0xFF
  write address value
  let c ← core
  let (a, p) := subtract c.a value c.p (c.p &&& chip.decimalMode)
  update ({ · with a, p })

/-! ### Loads and stores of two registers -/

def opSax (address : ℕ) : Code Unit := do
  let c ← core
  write address (c.a &&& c.x)

def opLax (address : ℕ) : Code Unit := do
  let value ← read address
  setNz value ({ · with a := value, x := value })

def opLas (address : ℕ) : Code Unit := do
  let value := (← read address) &&& (← core).s
  setNz value ({ · with a := value, x := value, s := value })

/-! ### Immediate combinations -/

def opAnc (address : ℕ) : Code Unit := do
  let a := (← core).a &&& (← read address)
  update fun c => { c with a, p := without c.p (flagN ||| flagZ ||| flagC) ||| nz a ||| (a >>> 7) }

def opAlr (address : ℕ) : Code Unit := do
  let c ← core
  let (a, p) := lsr (c.a &&& (← read address)) c.p
  update ({ · with a, p })

/-- ARR's result and P for the ANDed value: the rotated value, with its own C and V, and in decimal
mode a fix-up of each digit decided by the digits before rotating. -/
def arr (value p : ℕ) : ℕ × ℕ :=
  let result := (value >>> 1) ||| ((p &&& flagC) <<< 7)
  let p := without p (flagN ||| flagV ||| flagZ ||| flagC) ||| nz result |||
    ((result ^^^ (result <<< 1)) &&& flagV)
  if p &&& chip.decimalMode ≠ 0 then
    let result :=
      if 0x05 ≤ value &&& 0x0F then (result &&& 0xF0) ||| ((result + 0x06) &&& 0x0F) else result
    if 0x50 ≤ value &&& 0xF0 then ((result + 0x60) &&& 0xFF, p ||| flagC) else (result, p)
  else if result &&& 0x40 ≠ 0 then (result, p ||| flagC)
  else (result, p)

def opArr (address : ℕ) : Code Unit := do
  let value := (← core).a &&& (← read address)
  let (a, p) := arr chip value (← core).p
  update ({ · with a, p })

def opSbx (address : ℕ) : Code Unit := do
  let c ← core
  let difference : ℤ := (c.a &&& c.x : ℕ) - (← read address : ℕ)
  let x := masked 8 difference
  update fun c => { c with
    x
    p := without c.p (flagN ||| flagZ ||| flagC) ||| nz x ||| (if 0 ≤ difference then flagC else 0) }

def opUsbc (address : ℕ) : Code Unit := do
  let c ← core
  let (a, p) := subtract c.a (← read address) c.p (c.p &&& chip.decimalMode)
  update ({ · with a, p })

/-! ### Unstable: magic constant -/

def opAne (address : ℕ) : Code Unit := do
  let c ← core
  let a := (((Int.lor c.a chip.aneConstant).land c.x).land (← read address : ℕ)).toNat
  setNz a ({ · with a })

def opLxa (address : ℕ) : Code Unit := do
  let c ← core
  let a := ((Int.lor c.a chip.lxaConstant).land (← read address : ℕ)).toNat
  setNz a ({ · with a, x := a })

/-! ### Unstable: address high byte -/

/-- The stored value is ANDed with the base address's high byte plus one; when indexing crossed a
page, that ANDed value replaces the high byte of the address written. After a stretched cycle the
AND drops out of the stored value. -/
def storeAndHigh (address index value : ℕ) : Code Unit := do
  let base := masked 16 ((address : ℤ) - index)
  let anded := value &&& ((base >>> 8) + 1) &&& 0xFF
  let address :=
    if (address ^^^ base) &&& 0xFF00 ≠ 0 then (anded <<< 8) ||| (address &&& 0xFF) else address
  write address (if ← dmaStalled then value else anded)

def opSha (address : ℕ) : Code Unit := do
  let c ← core
  storeAndHigh address c.y (c.a &&& c.x)

def opShx (address : ℕ) : Code Unit := do
  let c ← core
  storeAndHigh address c.y c.x

def opShy (address : ℕ) : Code Unit := do
  let c ← core
  storeAndHigh address c.x c.y

def opTas (address : ℕ) : Code Unit := do
  update fun c => { c with s := c.a &&& c.x }
  let c ← core
  storeAndHigh address c.y c.s

/-! ### No effect, and no return -/

def opNopRead (address : ℕ) : Code Unit := do
  let _ ← read address

def opJam : Code Unit := do
  readPc
  jamReads.forM fun address => do
    let _ ← read address
  update ({ · with halted := true })

end Code

end SixFiveOhTwo
