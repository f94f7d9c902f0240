import SixFiveOhTwo.Accounting.Counts
import SixFiveOhTwo.Ranges.Values

/-! # Every handler keeps the registers in range

`Sight.InRange` says that the registers fit and that every access made so far had an address below
65536 and a byte for its value. Every addressing mode, handler and sequence keeps it, whatever bytes the
host answers with.
-/

namespace SixFiveOhTwo
open Bits Interaction Code
set_option autoImplicit false

theorem Access.inRange_r (address value : ℕ) :
    (Access.r address value).InRange ↔ address ≤ 0xFFFF ∧ value ≤ 0xFF := Iff.rfl

theorem Access.inRange_w (address value : ℕ) :
    (Access.w address value).InRange ↔ address ≤ 0xFFFF ∧ value ≤ 0xFF := Iff.rfl

def TraceInRange (trace : List Access) : Prop := ∀ access ∈ trace, access.InRange

theorem traceInRange_nil : TraceInRange [] := fun _ h => nomatch h

theorem traceInRange_cons (access : Access) (trace : List Access) :
    TraceInRange (access :: trace) ↔ access.InRange ∧ TraceInRange trace := List.forall_mem_cons

theorem traceInRange_append (trace trace' : List Access) :
    TraceInRange (trace ++ trace') ↔ TraceInRange trace ∧ TraceInRange trace' := List.forall_mem_append

/-- The registers fit, and so do the accesses. -/
def Sight.InRange (g : Sight) : Prop := g.core.Valid ∧ TraceInRange g.trace

/-- A program that keeps the registers and the accesses in range. -/
def Code.KeepsRange {α : Type} (code : Code α) (returns : α → Prop) : Prop :=
  ∀ g : Sight, g.InRange → code.Ensures (fun a g' => returns a ∧ g'.InRange) g

section
attribute [local simp] flag_le vector_le vector_lt masked_16_le ValidP.le entryP_le byte_le_word validP_pulled Sight.InRange Core.valid_iff Access.inRange_r Access.inRange_w traceInRange_nil traceInRange_cons
  traceInRange_append forall_and
  byte_le add_range subtract_range asl_range lsr_range rol_range ror_range arr_range flagBits_bit7 flagBits_bit7_and ite_le ite_lt high_le word_le page_le
  stack_le
  validP_or validP_without validP_ite flagBits_or flagBits_and flagBits_ite flagBits_nz flagBits_flags
  flagBits_zero flagBits_carry masked_8_le and_le_of_left and_le_of_right or_le_ff_iff xor_le_ff land_byte_le

section
attribute [local simp] opOra opSlo opNopRead opAsl opAnc opAnd opRla opBit opRol opEor opSre opLsr opAlr
  opAdc opRra opRor opArr opSta opSax opSty opStx opAne opSha opTas opShy opShx opLdy opLda opLdx opLax
  opLxa opLas opCpy opCmp opDcp opDec opSbx opCpx opSbc opIsc opInc opUsbc shiftCombine shiftMemory
  Code.modify Code.compare setNz storeAndHigh

theorem Addressed.keepsRange (chip : Chip) (h : Addressed) (address : ℕ) (ha : address ≤ 0xFFFF) :
    (h.op chip address).KeepsRange fun _ => True := by
  intro g hg
  simp only [Sight.InRange, Core.valid_iff] at hg
  obtain ⟨⟨h1, h2, h3, h4, h5, h6⟩, h7⟩ := hg
  cases h <;> simp [Addressed.op, *]
  -- BIT and DCP, whose P is a choice on what was read
  all_goals
    intro value
    exact validP_choice (by simp [*]) (by simp [*])

end

section
attribute [local simp] eaImm eaZp eaZpx eaZpy eaAbs eaAbx eaAby eaAbxW eaAbyW eaIzx eaIzy eaIzyW izyBase fetch
  fetchWord ensures_indexed

theorem Mode.keepsRange (mode : Mode) : mode.ea.KeepsRange (· ≤ 0xFFFF) := by
  intro g hg
  simp only [Sight.InRange, Core.valid_iff] at hg
  obtain ⟨⟨h1, h2, h3, h4, h5, h6⟩, h7⟩ := hg
  cases mode <;> simp [Mode.ea, *]

end

section
attribute [local simp] branchTaken fetch

theorem branch_keepsRange (taken : Bool) : (branch taken).KeepsRange fun _ => True := by
  intro g hg
  simp only [Sight.InRange, Core.valid_iff] at hg
  obtain ⟨⟨h1, h2, h3, h4, h5, h6⟩, h7⟩ := hg
  simp only [branch, fetch, ensures_bind, ensures_poll, ensures_updatePoll, ensures_core, ensures_update,
    ensures_read]
  intro _ offset polled
  cases taken with
  | false => cases polled.stalled <;> simp [*]
  | true =>
    cases polled.stalled <;> simp only [ensures_bind, ensures_updatePoll, ensures_pure, if_true]
    all_goals
      simp only [branchTaken, ensures_bind, ensures_core, ensures_read, ensures_poll]
      intro value polled
      cases polled.stalledBefore <;> simp [*]

end

section
attribute [local simp] opBrk opJam opPhp opAslA opClc opNop opJsr opPlp opRolA opSec opRti opPha opLsrA opJmp
  opCli opRts opPla opRorA opJmpInd opSei opDey opTxa opTya opTxs opTay opTax opClv opTsx opIny opDex opCld
  opInx opSed readPc readStack push pull fetch fetchWord Code.interrupt resetStackCycle shiftA setNz jamReads

theorem Implied.keepsRange (h : Implied) : h.op.KeepsRange fun _ => True := by
  by_cases hb : (h.taken 0).isSome
  · intro g hg
    rw [Implied.op_branch hb, ensures_bind, ensures_core]
    exact branch_keepsRange _ g hg
  · intro g hg
    simp only [Sight.InRange, Core.valid_iff] at hg
    obtain ⟨⟨h1, h2, h3, h4, h5, h6⟩, h7⟩ := hg
    cases h <;> first | exact absurd rfl hb | simp [Implied.op, *]

theorem enterInterrupt_keepsRange (kind : ℕ) : (enterInterrupt kind).KeepsRange fun _ => True := by
  intro g hg
  simp only [Sight.InRange, Core.valid_iff] at hg
  obtain ⟨⟨h1, h2, h3, h4, h5, h6⟩, h7⟩ := hg
  simp [enterInterrupt, *]

theorem acceptReset_keepsRange : acceptReset.KeepsRange fun _ => True := by
  intro g hg
  simp only [Sight.InRange, Core.valid_iff] at hg
  obtain ⟨⟨h1, h2, h3, h4, h5, h6⟩, h7⟩ := hg
  simp [acceptReset, *]

end

end

end SixFiveOhTwo
