import SixFiveOhTwo.Aborts.Host

/-! # What an aborted step leaves in `extra`

A read that indexes sets `extra` in its page-crossing cycle, one access before its operand is read. A step
that an exception leaves at that operand read leaves it set; no other aborted step does.
-/

namespace SixFiveOhTwo
open Bits Interaction Code
set_option autoImplicit false
set_option maxRecDepth 10000

/-- An operation that calls the host. -/
def Op.IsAccess : Op → Prop
  | .read _ | .write _ _ => True
  | _ => False

namespace Code
variable {α β : Type}

/-- Whenever `code` makes a bus access, `F` holds of what is seen before it. -/
def AtAccesses (F : Sight → Prop) (code : Code α) (g : Sight) : Prop :=
  Tree.Throughout sight (fun op g => op.IsAccess → F g) code g

variable {F F' : Sight → Prop} {g : Sight}

@[simp] theorem atAccesses_pure (a : α) : (pure a : Code α).AtAccesses F g := trivial

@[simp] theorem atAccesses_bind (code : Code α) (f : α → Code β) :
    (code >>= f).AtAccesses F g ↔ code.AtAccesses F g ∧ code.Ensures (fun a => (f a).AtAccesses F) g :=
  Tree.throughout_bind ..

@[simp] theorem atAccesses_map (f : α → β) (code : Code α) : (f <$> code).AtAccesses F g ↔ code.AtAccesses F g := by
  rw [map_eq_pure_bind, atAccesses_bind]
  exact and_iff_left ((ensures_trace code g).mono fun _ _ _ => trivial)

@[simp] theorem atAccesses_ite (p : Prop) [Decidable p] (yes no : Code α) :
    (if p then yes else no).AtAccesses F g ↔ if p then yes.AtAccesses F g else no.AtAccesses F g := by
  split <;> rfl

@[simp] theorem atAccesses_read (address : ℕ) : (read address).AtAccesses F g ↔ F g :=
  ⟨fun h => h.1 trivial, fun h => ⟨fun _ => h, fun _ _ _ => trivial⟩⟩

@[simp] theorem atAccesses_write (address value : ℕ) : (write address value).AtAccesses F g ↔ F g :=
  ⟨fun h => h.1 trivial, fun h => ⟨fun _ => h, fun _ _ _ => trivial⟩⟩

@[simp] theorem atAccesses_core : core.AtAccesses F g := ⟨False.elim, fun _ _ _ => trivial⟩

@[simp] theorem atAccesses_setCore (c : Core) : (setCore c).AtAccesses F g := ⟨False.elim, fun _ _ _ => trivial⟩

@[simp] theorem atAccesses_update (f : Core → Core) : (update f).AtAccesses F g := by
  simp only [update, atAccesses_bind, atAccesses_core, atAccesses_setCore, ensures_core, and_self]

@[simp] theorem atAccesses_dmaStalled : dmaStalled.AtAccesses F g := ⟨False.elim, fun _ _ _ => trivial⟩

@[simp] theorem atAccesses_poll : poll.AtAccesses F g := ⟨False.elim, fun _ _ _ => trivial⟩

@[simp] theorem atAccesses_setPoll (p : Poll) : (setPoll p).AtAccesses F g := ⟨False.elim, fun _ _ _ => trivial⟩

@[simp] theorem atAccesses_updatePoll (f : Poll → Poll) : (updatePoll f).AtAccesses F g := by
  simp only [updatePoll, atAccesses_bind, atAccesses_poll, atAccesses_setPoll, ensures_poll, implies_true, and_self]

theorem AtAccesses.mono {code : Code α} (h : code.AtAccesses F g) (hF : ∀ g, F g → F' g) : code.AtAccesses F' g :=
  Tree.Throughout.mono h fun _ g hop haccess => hF g (hop haccess)

end Code

/-! ## The parts of an instruction -/

section
attribute [local simp] opOra opSlo opNopRead opAsl opAnc opAnd opRla opBit opRol opEor opSre opLsr opAlr
  opAdc opRra opRor opArr opSta opSax opSty opStx opAne opSha opTas opShy opShx opLdy opLda opLdx opLax
  opLxa opLas opCpy opCmp opDcp opDec opSbx opCpx opSbc opIsc opInc opUsbc shiftCombine shiftMemory
  Code.modify Code.compare setNz storeAndHigh

/-- A handler leaves `extra` alone; one that makes one access makes it first. -/
theorem Addressed.op_residue (chip : Chip) (h : Addressed) (address : ℕ) (g : Sight) :
    (h.op chip address).AtAccesses (fun g' =>
      g'.core.extra = g.core.extra ∧ (h.accesses = 1 → g'.trace = g.trace)) g := by
  cases h <;> simp [Addressed.op, Addressed.accesses]

end

section
attribute [local simp] opBrk opJam opPhp opAslA opClc opNop opJsr opPlp opRolA opSec opRti opPha opLsrA opJmp
  opCli opRts opPla opRorA opJmpInd opSei opDey opTxa opTya opTxs opTay opTax opClv opTsx opIny opDex opCld
  opInx opSed readPc readStack push pull fetch fetchWord Code.interrupt shiftA setNz jamReads

theorem Implied.op_residue {h : Implied} (hb : h.taken 0 = none) (g : Sight) :
    h.op.AtAccesses (fun g' => g'.core.extra = g.core.extra) g := by
  cases h <;> first | (cases hb; done) | simp [Implied.op]

end

theorem branchTaken_residue (offset early : ℕ) (g : Sight) :
    (branchTaken offset early).AtAccesses (fun g' => g'.core.extra = g.core.extra) g := by
  simp only [branchTaken, atAccesses_bind, atAccesses_core, ensures_core, atAccesses_read, ensures_read,
    atAccesses_poll, ensures_poll, true_and]
  intro value polled
  cases polled.stalledBefore <;> simp

/-- A branch sets `extra` after its last access. -/
theorem branch_residue (taken : Bool) (g : Sight) :
    (branch taken).AtAccesses (fun g' => g'.core.extra = g.core.extra) g := by
  simp only [branch, fetch, atAccesses_bind, ensures_bind, ensures_poll, ensures_updatePoll, ensures_core,
    ensures_update, ensures_read, atAccesses_poll, atAccesses_updatePoll, atAccesses_core, atAccesses_update,
    atAccesses_read, true_and]
  intro _ offset polled
  cases polled.stalled <;> cases taken <;> simp
  all_goals exact branchTaken_residue _ _ _

/-- A read that indexes sets `extra` after its access. -/
theorem atAccesses_indexed {F : Sight → Prop} (base index : ℕ) (write : Bool) (g : Sight) :
    (indexed base index write).AtAccesses F g ↔ (write || pageCrossed base index) → F g := by
  cases write <;> simp [indexed, pageCrossed, otherPage]

section
attribute [local simp] eaImm eaZp eaZpx eaZpy eaAbs eaAbx eaAby eaAbxW eaAbyW eaIzx eaIzy eaIzyW izyBase fetch
  fetchWord atAccesses_indexed

/-- An addressing mode sets `extra` after its last access. -/
theorem Mode.ea_residue (mode : Mode) (g : Sight) :
    mode.ea.AtAccesses (fun g' => g'.core.extra = g.core.extra) g := by
  cases mode <;> simp [Mode.ea]

end

/-! ## The parts of a step -/

/-- A row's accesses so far end in the page-crossing cycle of its read. -/
def Entry.stranded (c : Core) (trace : List Access) : Entry → Bool
  | addressed _ mode _ => mode.crosses c trace && trace.length == mode.accesses + 1
  | implied .. => false

/-- An instruction's accesses so far end in the page-crossing cycle of its read. -/
def stranded (c : Core) : List Access → Bool
  | .r _ opcode :: trace => (opcodes (Fin.ofNat 256 opcode)).stranded c trace
  | _ => false

/-- The modes that spend a cycle, and count it in `extra`, when they cross a page. -/
def Mode.mayCross : Mode → Bool
  | abx | aby | izy => true
  | _ => false

theorem Mode.mayCross_of_crosses {mode : Mode} {c : Core} {trace : List Access} (h : mode.crosses c trace) :
    mode.mayCross := by
  cases mode <;> first | rfl | cases h

/-- A row whose mode may cross a page makes one access after it. -/
def Entry.operandLast : Entry → Bool
  | addressed handler mode _ => !mode.mayCross || handler.accesses == 1
  | implied .. => true

theorem opcodes_operandLast : ∀ opcode, (opcodes opcode).operandLast := by
  decide

/-- What `extra` holds at an access of a program begun on `g`: what it held then, unless `stray` says of the
accesses since that the program set it. -/
def Kept (g : Sight) (stray : List Access → Prop) (g' : Sight) : Prop :=
  g'.core.extra = g.core.extra ∨ ∃ t, g'.trace = g.trace ++ t ∧ stray t

theorem dispatch_residue (chip : Chip) (opcode : Byte) (pc : ℕ) (g : Sight) :
    (dispatch chip (opcodes opcode)).AtAccesses
      (Kept g fun t => (opcodes opcode).stranded { g.core with pc } t = true) g := by
  have hrow := opcodes_operandLast opcode
  cases hentry : opcodes opcode with
  | addressed handler mode cycles =>
    rw [hentry, Entry.operandLast] at hrow
    rw [dispatch, atAccesses_bind]
    refine ⟨(mode.ea_residue g).mono fun _ => .inl, (mode.ea_counts g).mono ?_⟩
    rintro address g₁ ⟨t, ht, hlen, hcore⟩
    refine (handler.op_residue chip address g₁).mono ?_
    rintro g₂ ⟨hextra, htrace⟩
    cases hcross : mode.crosses g.core t with
    | false => exact .inl (hextra.trans (by rw [hcore, hcross]; rfl))
    | true =>
      have hone : handler.accesses = 1 := by simpa [Mode.mayCross_of_crosses hcross] using hrow
      have hcross' : mode.crosses { g.core with pc } t = true := by
        rw [← hcross]
        cases mode <;> rfl
      refine .inr ⟨t, (htrace hone).trans ht, ?_⟩
      simp only [Entry.stranded, hcross', hlen, hcross, Bool.toNat_true, beq_self_eq_true, Bool.and_self]
  | implied handler cycles =>
    cases hb : handler.taken 0 with
    | none => exact (Implied.op_residue hb g).mono fun _ => .inl
    | some taken =>
      rw [dispatch, Implied.op_branch (by rw [hb]; rfl), atAccesses_bind]
      exact ⟨atAccesses_core, ensures_core.mpr ((branch_residue _ g).mono fun _ => .inl)⟩

theorem execute_residue (chip : Chip) (g : Sight) :
    (execute chip).AtAccesses (Kept g fun t => stranded g.core t = true) g := by
  rw [execute, atAccesses_bind]
  refine ⟨atAccesses_core, ensures_core.mpr ?_⟩
  rw [atAccesses_bind]
  refine ⟨⟨fun _ => .inl rfl, fun _ _ _ => trivial⟩, (ensures_readByte _ _).mpr fun opcode => ?_⟩
  rw [atAccesses_bind, ensures_update]
  refine ⟨atAccesses_update _, ?_⟩
  rw [atAccesses_bind]
  constructor
  · refine (dispatch_residue chip opcode g.core.pc _).mono fun g' hkept => ?_
    rcases hkept with hextra | ⟨t, ht, hstranded⟩
    · exact .inl hextra
    · refine .inr ⟨.r g.core.pc opcode.val :: t, ?_, ?_⟩
      · rw [ht]
        simp
      · simp only [stranded, Fin.ofNat_val_eq_self]
        exact hstranded
  · refine (ensures_trace _ _).mono fun _ g' _ => ?_
    simp

section
attribute [local simp] Code.interrupt push resetStackCycle

/-- At an access of a boundary's sequence `extra` is what it was, unless an instruction set it. -/
theorem BoundaryKind.code_residue (chip : Chip) (kind : BoundaryKind) (g : Sight) :
    (kind.code chip).AtAccesses (Kept g fun t => kind = .instruction ∧ stranded g.core t = true) g := by
  cases kind with
  | instruction =>
    rw [code, Code.instruction, atAccesses_bind]
    constructor
    · refine (execute_residue chip g).mono fun g' hkept => hkept.imp_right ?_
      rintro ⟨t, ht, hstranded⟩
      exact ⟨t, ht, rfl, hstranded⟩
    refine (ensures_trace _ _).mono fun _ g' _ => ?_
    rw [atAccesses_bind, ensures_poll]
    refine ⟨atAccesses_poll, fun poll => ?_⟩
    cases poll.deferred with
    | none => exact atAccesses_pure _
    | some deferred => simp
  | reset => simp [code, acceptReset, Kept]
  | nmi | irq => simp [code, enterInterrupt, Kept]
  | jamIdle => simp [code, haltedCycle, Kept]

end

end SixFiveOhTwo
