import SixFiveOhTwo.Machine.Flat
import SixFiveOhTwo.Ranges.Values

/-! # The combined opcodes

Nine undocumented handlers do what two documented ones do in sequence, with code of their own: a
read-modify-write and the ALU operation that uses its result, or two operations on one operand. On a flat
memory the registers and the memory they leave are those of the sequence.
-/

namespace SixFiveOhTwo
open Bits Interaction Code
set_option autoImplicit false

/-- The handlers that combine documented ones. -/
inductive Combined
  | slo | rla | sre | rra | dcp | isc | lax | alr | usbc
  deriving DecidableEq, Repr

namespace Combined

def handler : Combined → Addressed
  | slo => .slo
  | rla => .rla
  | sre => .sre
  | rra => .rra
  | dcp => .dcp
  | isc => .isc
  | lax => .lax
  | alr => .alr
  | usbc => .usbc

/-- The documented handlers, at the same address. -/
def sequence (chip : Chip) (address : ℕ) : Combined → Code Unit
  | slo => do
    opAsl address
    opOra address
  | rla => do
    opRol address
    opAnd address
  | sre => do
    opLsr address
    opEor address
  | rra => do
    opRor address
    opAdc chip address
  | dcp => do
    opDec address
    opCmp address
  | isc => do
    opInc address
    opSbc chip address
  | lax => do
    opLda address
    opLdx address
  | alr => do
    opAnd address
    opLsrA
  | usbc => opSbc chip address

end Combined

/-! ## Flags set twice -/

theorem nz_and_flags (v : ℕ) : nz v &&& (flagN ||| flagZ) = nz v := by
  rw [nz, Nat.and_or_distrib_right, Nat.and_assoc]
  split <;> rfl

theorem without_nz (p v : ℕ) {m : ℕ} (hm : (flagN ||| flagZ) &&& m = flagN ||| flagZ) :
    without (without p (flagN ||| flagZ) ||| nz v) m = without p m := by
  refine Nat.eq_of_testBit_eq fun i => ?_
  have hmi := congrArg (Nat.testBit · i) hm
  have hnzi := congrArg (Nat.testBit · i) (nz_and_flags v)
  simp only [Nat.testBit_and] at hmi hnzi
  rw [testBit_without, testBit_without, Nat.testBit_or, testBit_without]
  cases hb : m.testBit i with
  | true => simp
  | false =>
    rw [hb, Bool.and_false] at hmi
    rw [← hmi, Bool.and_false] at hnzi
    rw [← hmi, ← hnzi]
    simp

theorem nz_and (p v : ℕ) {m : ℕ} (hm : (flagN ||| flagZ) &&& m = 0) :
    (without p (flagN ||| flagZ) ||| nz v) &&& m = p &&& m := by
  have hnz : nz v &&& m = 0 := by rw [← nz_and_flags, Nat.and_assoc, hm, Nat.and_zero]
  rw [Nat.and_or_distrib_right, without_and_of_disjoint hm, hnz, Nat.or_zero]

/-- What reads C alone and sets N, V, Z and C does not see them. -/
theorem subtract_nz (a value p v decimal : ℕ) :
    subtract a value (without p (flagN ||| flagZ) ||| nz v) decimal = subtract a value p decimal := by
  simp only [subtract, nz_and p v (show (flagN ||| flagZ) &&& flagC = 0 by decide),
    without_nz p v (show (flagN ||| flagZ) &&& (flagN ||| flagV ||| flagZ ||| flagC) = flagN ||| flagZ by decide)]

theorem lsr_nz (value p v : ℕ) : lsr value (without p (flagN ||| flagZ) ||| nz v) = lsr value p := by
  simp only [lsr, without_nz p v (show (flagN ||| flagZ) &&& (flagN ||| flagZ ||| flagC) = flagN ||| flagZ by decide)]

/-! ## Bytes written and read back -/

theorem mod_byte {x : ℕ} (hx : x ≤ 0xFF) : x % 256 = x := Nat.mod_eq_of_lt (Nat.lt_succ_of_le hx)

theorem asl_byte (value p : ℕ) : (asl value p).1 % 256 = (asl value p).1 := mod_byte Nat.and_le_right

theorem rol_byte (value p : ℕ) : (rol value p).1 % 256 = (rol value p).1 := mod_byte Nat.and_le_right

theorem lsr_byte (v : Byte) (p : ℕ) : (lsr v.val p).1 % 256 = (lsr v.val p).1 :=
  mod_byte ((Nat.shiftRight_le v.val 1).trans (byte_le v))

theorem ror_byte (v : Byte) (p : ℕ) : (ror v.val p).1 % 256 = (ror v.val p).1 := by
  have hcarry : (p &&& flagC) <<< 7 ≤ 0xFF := by
    rw [Nat.and_one_is_mod]
    exact carry_le p
  exact mod_byte (or_le_ff ((Nat.shiftRight_le v.val 1).trans (byte_le v)) hcarry)

/-! ## The nine -/

section
attribute [local simp] opAsl opOra opRol opAnd opLsr opEor opRor opAdc opDec opCmp opInc opSbc opLda opLdx opLsrA
  opSlo opRla opSre opRra opDcp opIsc opLax opAlr opUsbc shiftCombine shiftMemory shiftA readPc Code.modify Code.compare
  setNz asl_byte rol_byte lsr_byte ror_byte without_nz nz_and subtract_nz lsr_nz

/-- Where the sequence ends, the combined handler ends. -/
theorem Combined.sequence_handler (k : Combined) {chip : Chip} (hmode : (flagN ||| flagZ) &&& chip.decimalMode = 0)
    (address : ℕ) (g : Flat) :
    (k.sequence chip address).OnFlat (fun _ g' =>
      (k.handler.op chip address).OnFlat (fun _ g'' => g''.core = g'.core ∧ g''.memory = g'.memory) g) g := by
  have hmasked (x : ℤ) : masked 8 x % 256 = masked 8 x := mod_byte (masked_8_le x)
  have hinc (x : ℕ) : (x &&& 255) % 256 = x &&& 255 := mod_byte Nat.and_le_right
  have hcompare (p v : ℕ) := without_nz p v (show (flagN ||| flagZ) &&& (flagN ||| flagZ ||| flagC) = flagN ||| flagZ by decide)
  cases k <;> simp [sequence, handler, Addressed.op, hmasked, hinc, hcompare, hmode]
  case dcp => split <;> simp [*]

end

namespace Machine

/-- **The combined opcodes decompose.** On a flat memory, at any address and from any registers, each combined
handler of either part leaves the registers and the memory that the documented handlers in sequence leave. -/
theorem combined_decomposes (k : Combined) (rp : Bool) (aneConstant lxaConstant : ℤ) (address : ℕ)
    (q : Plain (ℕ → Byte)) :
    let chip : Chip := { if rp then rp2a03 else mos6502 with aneConstant, lxaConstant }
    let combined := (Plain.exec .flat (k.handler.op chip address) q).2
    let sequence := (Plain.exec .flat (k.sequence chip address) q).2
    combined.core.a = sequence.core.a ∧ combined.core.x = sequence.core.x ∧ combined.core.y = sequence.core.y ∧
      combined.core.s = sequence.core.s ∧ combined.core.p = sequence.core.p ∧ combined.host = sequence.host := by
  intro chip combined sequence
  have hmode : (flagN ||| flagZ) &&& chip.decimalMode = 0 := by
    cases rp with
    | true => exact (by decide : (flagN ||| flagZ) &&& 0 = 0)
    | false => exact (by decide : (flagN ||| flagZ) &&& flagD = 0)
  have hsequence := Plain.exec_onFlat (q := q) (k.sequence_handler hmode address q.flat)
  obtain ⟨hcore, hhost⟩ := Plain.exec_onFlat (q := q) hsequence
  exact ⟨congrArg Core.a hcore, congrArg Core.x hcore, congrArg Core.y hcore, congrArg Core.s hcore,
    congrArg Core.p hcore, hhost⟩

end Machine

end SixFiveOhTwo
