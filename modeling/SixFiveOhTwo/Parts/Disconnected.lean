import SixFiveOhTwo.Parts.Decimal
import SixFiveOhTwo.Polling.Steps

/-! # A processor whose decimal adjust is disconnected ignores D

With no D bit for the adder to see, a program does the same whatever D is, and leaves D as it found it:
D may be given before the run or after it (`IgnoresD`). CLD, SED, PLP, RTI, which assign D, and PHP and
BRK, which push it, are the handlers this is not true of.
-/

namespace SixFiveOhTwo
open Bits Interaction Code
set_option autoImplicit false
set_option maxRecDepth 10000

/-- The registers with D as given. -/
def Core.withD (d : Bool) (c : Core) : Core := { c with p := setD d c.p }

namespace Plain
variable {σ : Type} (H : Host σ) (q : Plain σ) (c : Core) (p : Poll)

/-- A machine with D as given. -/
def withD (d : Bool) (q : Plain σ) : Plain σ := q.withCore (q.core.withD d)

/-! ## The registers decide nothing of an access -/

theorem readAnswer_withCore (address : ℕ) : (q.withCore c).readAnswer H address = q.readAnswer H address := rfl

theorem afterRead_withCore (address : ℕ) :
    (q.withCore c).afterRead H address = (q.afterRead H address).withCore c := rfl

theorem afterWrite_withCore (address value : ℕ) :
    (q.withCore c).afterWrite H address value = (q.afterWrite H address value).withCore c := rfl

theorem withCore_withCore (c' : Core) : (q.withCore c).withCore c' = q.withCore c' := rfl

theorem withPoll_withCore : (q.withCore c).withPoll p = (q.withPoll p).withCore c := rfl

theorem withCore_dmaStalled : (q.withCore c).dmaStalled = q.dmaStalled := rfl

theorem afterRead_core (address : ℕ) : (q.afterRead H address).core = q.core := rfl

theorem afterWrite_core (address value : ℕ) : (q.afterWrite H address value).core = q.core := rfl

end Plain

/-- The handlers that assign D. -/
def Implied.assignsD : Implied → Bool
  | sed | cld | plp | rti => true
  | _ => false

/-- The handlers that push P. -/
def Implied.pushesP : Implied → Bool
  | php | brk => true
  | _ => false

def Entry.assignsD : Entry → Bool
  | implied handler _ => handler.assignsD
  | addressed .. => false

def Entry.pushesP : Entry → Bool
  | implied handler _ => handler.pushesP
  | addressed .. => false

/-- A program that does the same whatever D is, and leaves D alone. -/
def Code.IgnoresD {α : Type} (code : Code α) : Prop :=
  ∀ (σ : Type) (H : Host σ) (d : Bool) (q : Plain σ),
    Plain.exec H code (q.withD d) = ((Plain.exec H code q).1, (Plain.exec H code q).2.withD d)

namespace Code.IgnoresD
variable {α β : Type}

theorem pure (a : α) : IgnoresD (Pure.pure a) := fun _ _ _ _ => rfl

theorem bind {code : Code α} {f : α → Code β} (hcode : code.IgnoresD) (hf : ∀ a, (f a).IgnoresD) :
    (code >>= f).IgnoresD := by
  intro σ H d q
  rw [Plain.exec_bind, Plain.exec_bind, hcode σ H d q]
  exact hf _ σ H d _

theorem read (address : ℕ) : (Code.read address).IgnoresD := fun _ _ _ _ => rfl

theorem poll : Code.poll.IgnoresD := fun _ _ _ _ => rfl

theorem updatePoll (f : Poll → Poll) : (Code.updatePoll f).IgnoresD := fun _ _ _ _ => rfl

/-- What goes on from the registers without looking at D. -/
theorem core {k : Core → Code α} (hk : ∀ c, (k c).IgnoresD) (hd : ∀ d c, k (c.withD d) = k c) :
    (Code.core >>= k).IgnoresD := by
  intro σ H d q
  rw [Plain.exec_bind, Plain.exec_bind]
  exact (congrArg (fun code => Plain.exec H code (q.withD d)) (hd d q.core)).trans (hk q.core σ H d q)

theorem update {f : Core → Core} (hf : ∀ d c, f (c.withD d) = (f c).withD d) : (Code.update f).IgnoresD := by
  intro σ H d q
  exact congrArg (fun c => ((), q.withCore c)) (hf d q.core)

end Code.IgnoresD

section
open Plain
attribute [local simp] setD_and setD_or setD_without setD_ite setD_mod_two noD_and noD_or noD_ite noD_mod_two noD_nz
  noD_bit7 noD_bit7_and noD_flags add_setD subtract_setD lsr_setD ror_setD asl_setD rol_setD arr_setD byte_le
  readAnswer_withCore afterRead_withCore afterWrite_withCore withCore_withCore withPoll_withCore withCore_dmaStalled
  afterRead_core afterWrite_core Plain.withD Core.withD

section
attribute [local simp] opOra opSlo opNopRead opAsl opAnc opAnd opRla opBit opRol opEor opSre opLsr opAlr
  opAdc opRra opRor opArr opSta opSax opSty opStx opAne opSha opTas opShy opShx opLdy opLda opLdx opLax
  opLxa opLas opCpy opCmp opDcp opDec opSbx opCpx opSbc opIsc opInc opUsbc shiftCombine shiftMemory
  Code.modify Code.compare setNz storeAndHigh

theorem Addressed.ignoresD {chip : Chip} (hchip : chip.decimalMode = 0) (h : Addressed) (address : ℕ) :
    (h.op chip address).IgnoresD := by
  intro σ H d q
  cases h <;> simp [Addressed.op, *]
  case sbx =>
    have hcarry : NoD (if (q.readAnswer H address).1.val ≤ q.core.a &&& q.core.x then flagC else 0) := by simp
    exact congrArg (fun p => (q.afterRead H address).withCore { q.core with p, x := _ }) (setD_or d _ hcarry)
  all_goals rfl

end

section
attribute [local simp] eaImm eaZp eaZpx eaZpy eaAbs eaAbx eaAby eaAbxW eaAbyW eaIzx eaIzy eaIzyW izyBase fetch
  fetchWord

theorem exec_indexed {σ : Type} (H : Host σ) (base index : ℕ) (write : Bool) (q : Plain σ) (c : Core) :
    exec H (indexed base index write) (q.withCore c) =
      if write || pageCrossed base index then
        ((base + index) &&& 0xFFFF,
          (q.afterRead H ((base &&& 0xFF00) ||| (((base + index) &&& 0xFFFF) &&& 0xFF))).withCore
            (if write then c else { c with extra := 1 }))
      else ((base + index) &&& 0xFFFF, q.withCore c) := by
  cases write with
  | true => simp [indexed]
  | false =>
    by_cases h : pageCrossed base index <;> simp [indexed, pageCrossed, otherPage] at h ⊢ <;> simp [h]

theorem Mode.ignoresD (mode : Mode) : mode.ea.IgnoresD := by
  intro σ H d q
  cases mode <;> simp [Mode.ea, exec_indexed]
  all_goals split <;> rfl

end

theorem branchTaken_ignoresD (offset early : ℕ) : (branchTaken offset early).IgnoresD := by
  refine .core (fun c => .bind (.read _) fun _ => .bind .poll fun poll => ?_) fun _ _ => rfl
  extract_lets target finish goOn
  have hfinish : ∀ u, (finish u).IgnoresD := fun _ => .update fun _ _ => rfl
  have hgoOn : ∀ early, (goOn early).IgnoresD := by
    intro early
    simp only [goOn]
    split
    · exact .bind (.read _) fun _ => .bind (.update fun _ _ => rfl) fun _ => .bind (.updatePoll _) hfinish
    · exact .bind (.update fun _ _ => rfl) fun _ => .bind (.updatePoll _) hfinish
  cases poll.stalledBefore with
  | none => exact hgoOn _
  | some stalledBefore => exact .bind (.updatePoll _) fun _ => hgoOn _

theorem fetch_ignoresD : fetch.IgnoresD :=
  .core (fun _ => .bind (.update fun _ _ => rfl) fun _ => .read _) fun _ _ => rfl

theorem branch_ignoresD (taken : Bool) : (branch taken).IgnoresD := by
  refine .bind .poll fun poll => ?_
  extract_lets early
  refine .bind (.updatePoll _) fun _ => .bind fetch_ignoresD fun offset => .bind .poll fun poll => ?_
  extract_lets goOn
  have hgoOn : ∀ early, (goOn early).IgnoresD := by
    intro early
    cases taken with
    | true => exact branchTaken_ignoresD offset early
    | false => exact .pure ()
  cases poll.stalled with
  | none => exact hgoOn _
  | some stalled => exact .bind (.updatePoll _) fun _ => hgoOn _

section
attribute [local simp] opJam opAslA opClc opNop opJsr opRolA opSec opPha opLsrA opJmp
  opCli opRts opPla opRorA opJmpInd opSei opDey opTxa opTya opTxs opTay opTax opClv opTsx opIny opDex
  opInx readPc readStack push pull fetch fetchWord shiftA setNz jamReads

theorem Implied.exec_withD {h : Implied} (hb : h.taken 0 = none) (hassign : h.assignsD = false)
    (hpush : h.pushesP = false) {σ : Type} (H : Host σ) (d : Bool) {q : Plain σ} (ha : q.core.a ≤ 0xFF) :
    exec H h.op (q.withD d) = ((), (exec H h.op q).2.withD d) := by
  cases h <;> first | (cases hb; done) | (cases hassign; done) | (cases hpush; done) | simp [Implied.op, *]

/-- A handler that assigns D does so whatever it was. -/
theorem Implied.exec_assignsD {h : Implied} (hassign : h.assignsD) {σ : Type} (H : Host σ) (d : Bool) (q : Plain σ) :
    exec H h.op (q.withD d) = exec H h.op q := by
  cases h <;> first | (cases hassign; done) | simp [Implied.op, opSed, opCld, opPlp, opRti, setD_without_flagD, setD_or_flagD]

end

theorem haltedCycle_ignoresD : haltedCycle.IgnoresD := .bind (.read _) fun _ => .pure _

theorem acceptReset_ignoresD : acceptReset.IgnoresD := by
  have hcycle : resetStackCycle.IgnoresD :=
    .core (fun _ => .bind (.read _) fun _ => .update fun _ _ => rfl) fun _ _ => rfl
  refine .bind (.updatePoll _) fun _ => .bind (.update fun _ _ => rfl) fun _ => .core (fun c => ?_) fun _ _ => rfl
  refine .bind (.read _) fun _ => .bind (.read _) fun _ => .bind hcycle fun _ => .bind hcycle fun _ => ?_
  refine .bind hcycle fun _ => .bind (.update fun d c => ?_) fun _ => .bind (.read _) fun low => ?_
  · simp
  · exact .bind (.read _) fun high => .bind (.update fun _ _ => rfl) fun _ => .bind (.updatePoll _) fun _ => .pure _

end

/-! ## One instruction -/

namespace Plain
variable {σ : Type} (H : Host σ) (chip : Chip) (q : Plain σ)

/-- The row the next instruction runs. -/
def entry : Entry := opcodes (q.readAnswer H q.core.pc).1

/-- The machine when its opcode has been fetched. -/
def fetched : Plain σ :=
  (q.afterRead H q.core.pc).withCore { q.core with pc := (q.core.pc + 1) &&& 0xFFFF }

/-- The machine when the row has run. -/
def dispatched : Plain σ := (exec H (dispatch chip (q.entry H)) (q.fetched H)).2

/-- The end of an instruction: the extra cycles are counted, and what was polled decides next. -/
def retired : Plain σ := (q.withCore { q.core with extra := 0 }).withPoll q.poll.settled

/-- An instruction is its row, run on the machine that has fetched its opcode. -/
theorem exec_row :
    exec H (instruction chip) q =
      ((q.entry H).cycles + (q.dispatched H chip).core.extra, (q.dispatched H chip).retired) := by
  have hexecute : exec H (execute chip) q = ((q.entry H).cycles + (q.dispatched H chip).core.extra,
      (q.dispatched H chip).withCore { (q.dispatched H chip).core with extra := 0 }) := by
    rw [execute, exec_bind, exec_core, exec_bind]
    change exec H (dispatch chip (q.entry H) >>= _) (q.fetched H) = _
    rw [exec_bind, exec_bind, exec_core]
    change exec H (if (q.dispatched H chip).core.extra ≠ 0 then (do
        update ({ · with extra := 0 })
        return (q.entry H).cycles + (q.dispatched H chip).core.extra)
      else return (q.entry H).cycles) (q.dispatched H chip) = _
    generalize q.dispatched H chip = done
    split
    · rfl
    · next hx =>
      -- nothing to count, so that counting it changes nothing
      have hzero : done.core.extra = 0 := not_not.mp hx
      have hsame : done.withCore { done.core with extra := 0 } = done := by rw [← hzero]; rfl
      rw [hzero, hsame]
      rfl
  rw [exec_instruction, hexecute]
  rfl

theorem exec_dispatch_withD {chip : Chip} (hchip : chip.decimalMode = 0) {entry : Entry}
    (hassign : entry.assignsD = false) (hpush : entry.pushesP = false) (d : Bool) {q : Plain σ} (ha : q.core.a ≤ 0xFF) :
    exec H (dispatch chip entry) (q.withD d) = ((), (exec H (dispatch chip entry) q).2.withD d) := by
  cases entry with
  | addressed handler mode cycles => exact mode.ignoresD.bind (handler.ignoresD hchip) σ H d q
  | implied handler cycles =>
    cases hb : handler.taken 0 with
    | none => exact Implied.exec_withD hb hassign hpush H d ha
    | some taken =>
      have hbranch : handler.op.IgnoresD := by
        rw [Implied.op_branch (by rw [hb]; rfl)]
        refine .core (fun c => branch_ignoresD _) fun d c => ?_
        have hp : handler.taken (c.withD d).p = handler.taken c.p := by
          cases handler <;> simp [Implied.taken, Core.withD, setD_and, noD_flags, setD_mod_two]
        rw [hp]
      exact hbranch σ H d q

end Plain

end SixFiveOhTwo
