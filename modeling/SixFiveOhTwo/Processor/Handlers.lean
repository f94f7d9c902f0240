import SixFiveOhTwo.Processor.Step

/-! # The families of handlers

The branches are one handler on eight conditions. Every handler but the branches and BRK leaves the
poll alone: `PollFree` says so of a program, and what the poll does during such a handler is then
what its bus accesses do to it.
-/

namespace SixFiveOhTwo
open Interaction Code
set_option autoImplicit false

/-- Whether a branch handler branches on this P; `none` for the other handlers. -/
def Implied.taken : Implied → ℕ → Option Bool
  | bpl, p => some (p &&& flagN == 0)
  | bmi, p => some (p &&& flagN != 0)
  | bvc, p => some (p &&& flagV == 0)
  | bvs, p => some (p &&& flagV != 0)
  | bcc, p => some (p &&& flagC == 0)
  | bcs, p => some (p &&& flagC != 0)
  | bne, p => some (p &&& flagZ == 0)
  | beq, p => some (p &&& flagZ != 0)
  | _, _ => none

/-- A branch handler is `branch` on its condition. -/
theorem Implied.op_branch {h : Implied} (hb : (h.taken 0).isSome) :
    h.op = core >>= fun c => branch ((h.taken c.p).getD false) := by
  cases h <;> first | rfl | cases hb

/-! ## Handlers that leave the poll alone -/

/-- Operations that neither look at the poll nor assign it. -/
def Op.PollFree : Op → Prop
  | .poll | .setPoll _ => False
  | _ => True

namespace Code
variable {post : ℕ → Prop} {done : Unit → Prop}

/-- A program that leaves the poll to its bus accesses. -/
abbrev PollFree {α : Type} (code : Code α) : Prop := code.Uses Op.PollFree

@[simp] theorem pollFree_read (address : ℕ) :
    (read address).UsesThen Op.PollFree post ↔ ∀ value : Byte, post value.val :=
  ⟨fun h => h.2, fun h => ⟨trivial, h⟩⟩

@[simp] theorem pollFree_write (address value : ℕ) :
    (write address value).UsesThen Op.PollFree done ↔ done () :=
  ⟨fun h => h.2 (), fun h => ⟨trivial, fun _ => h⟩⟩

@[simp] theorem pollFree_core {post : Core → Prop} :
    core.UsesThen Op.PollFree post ↔ ∀ c, post c :=
  ⟨fun h => h.2, fun h => ⟨trivial, h⟩⟩

@[simp] theorem pollFree_setCore (c : Core) : (setCore c).UsesThen Op.PollFree done ↔ done () :=
  ⟨fun h => h.2 (), fun h => ⟨trivial, fun _ => h⟩⟩

@[simp] theorem pollFree_update (f : Core → Core) : (update f).UsesThen Op.PollFree done ↔ done () := by
  simp only [update, Tree.usesThen_bind, pollFree_core, pollFree_setCore]
  exact ⟨fun h => h {}, fun h _ => h⟩

@[simp] theorem pollFree_dmaStalled {post : Bool → Prop} :
    dmaStalled.UsesThen Op.PollFree post ↔ ∀ stalled, post stalled :=
  ⟨fun h => h.2, fun h => ⟨trivial, h⟩⟩

end Code

section
attribute [local simp] eaImm eaZp eaZpx eaZpy eaAbs eaAbx eaAby eaAbxW eaAbyW eaIzx eaIzy eaIzyW izyBase fetch
  fetchWord indexed

theorem Mode.pollFree (mode : Mode) : mode.ea.PollFree := by
  cases mode <;> simp [Mode.ea]

end

section
attribute [local simp] opOra opSlo opNopRead opAsl opAnc opAnd opRla opBit opRol opEor opSre opLsr opAlr
  opAdc opRra opRor opArr opSta opSax opSty opStx opAne opSha opTas opShy opShx opLdy opLda opLdx opLax
  opLxa opLas opCpy opCmp opDcp opDec opSbx opCpx opSbc opIsc opInc opUsbc shiftCombine shiftMemory
  Code.modify Code.compare setNz storeAndHigh

theorem Addressed.pollFree (chip : Chip) (h : Addressed) (address : ℕ) : (h.op chip address).PollFree := by
  cases h <;> simp [Addressed.op]

end

section
attribute [local simp] opJam opPhp opAslA opClc opNop opJsr opPlp opRolA opSec opRti opPha opLsrA opJmp
  opCli opRts opPla opRorA opJmpInd opSei opDey opTxa opTya opTxs opTay opTax opClv opTsx opIny opDex opCld
  opInx opSed readPc readStack push pull fetch fetchWord shiftA setNz jamReads

/-- The handlers that look at the poll are the branches and BRK. -/
theorem Implied.pollFree {h : Implied} (hb : h.taken 0 = none) (hbrk : h ≠ brk) : h.op.PollFree := by
  cases h <;> first | (cases hb; done) | exact absurd rfl hbrk | simp [Implied.op]

end

end SixFiveOhTwo
