import SixFiveOhTwo.Accounting.Bus

/-! # What a step leaves for the next decision beside the poll

CLI, SEI and PLP change I after their poll, and leave the old flag in `polledI` for the next boundary;
every other sequence leaves nothing there, so that the next boundary decides on P. JAM alone halts.
-/

namespace SixFiveOhTwo
open Bits Interaction Code
set_option autoImplicit false
set_option maxRecDepth 10000

/-- The I flag that the poll of a row saw, when its handler changes I afterwards. -/
def Entry.oldI (p : ℕ) : Entry → Option ℕ
  | implied .cli _ | implied .sei _ | implied .plp _ => some (p &&& flagI)
  | _ => none

def Entry.jams : Entry → Bool
  | implied .jam _ => true
  | _ => false

section
attribute [local simp] opOra opSlo opNopRead opAsl opAnc opAnd opRla opBit opRol opEor opSre opLsr opAlr
  opAdc opRra opRor opArr opSta opSax opSty opStx opAne opSha opTas opShy opShx opLdy opLda opLdx opLax
  opLxa opLas opCpy opCmp opDcp opDec opSbx opCpx opSbc opIsc opInc opUsbc shiftCombine shiftMemory
  Code.modify Code.compare setNz storeAndHigh

theorem Addressed.op_leaves (chip : Chip) (h : Addressed) (address : ℕ) (g : Sight) :
    (h.op chip address).Ensures (fun _ g' =>
      g'.core.polledI = g.core.polledI ∧ g'.core.halted = g.core.halted) g := by
  cases h <;> simp [Addressed.op]

end

section
attribute [local simp] opBrk opJam opPhp opAslA opClc opNop opJsr opPlp opRolA opSec opRti opPha opLsrA opJmp
  opCli opRts opPla opRorA opJmpInd opSei opDey opTxa opTya opTxs opTay opTax opClv opTsx opIny opDex opCld
  opInx opSed readPc readStack push pull fetch fetchWord Code.interrupt shiftA setNz jamReads

theorem Implied.op_leaves {h : Implied} (hb : h.taken 0 = none) (cycles : ℕ) (g : Sight) :
    h.op.Ensures (fun _ g' =>
      g'.core.polledI = ((Entry.implied h cycles).oldI g.core.p).or g.core.polledI ∧
        g'.core.halted = ((Entry.implied h cycles).jams || g.core.halted)) g := by
  cases h <;> first | (cases hb; done) | simp [Implied.op, Entry.oldI, Entry.jams]

end

theorem dispatch_leaves (chip : Chip) (entry : Entry) (g : Sight) :
    (dispatch chip entry).Ensures (fun _ g' =>
      g'.core.polledI = (entry.oldI g.core.p).or g.core.polledI ∧
        g'.core.halted = (entry.jams || g.core.halted)) g := by
  cases entry with
  | addressed handler mode cycles =>
    rw [dispatch, ensures_bind]
    refine (mode.ea_counts g).mono ?_
    rintro address g₁ ⟨t, -, -, hcore⟩
    refine (handler.op_leaves chip address g₁).mono ?_
    rintro _ g₂ ⟨hpolled, hhalted⟩
    rw [hpolled, hhalted, hcore]
    exact ⟨rfl, rfl⟩
  | implied handler cycles =>
    cases hb : handler.taken 0 with
    | none => exact Implied.op_leaves hb cycles g
    | some taken =>
      have hold : (Entry.implied handler cycles).oldI g.core.p = none ∧
          (Entry.implied handler cycles).jams = false := by
        cases handler <;> first | exact ⟨rfl, rfl⟩ | cases hb
      rw [dispatch, Implied.op_branch (by rw [hb]; rfl), ensures_bind, ensures_core]
      refine (branch_counts _ g).mono ?_
      rintro _ g₁ ⟨offset, t, -, -, hcore⟩
      rw [hcore, hold.1, hold.2]
      exact ⟨rfl, rfl⟩

/-- What an instruction leaves is its opcode's. -/
theorem instruction_leaves (chip : Chip) (g : Sight) (hi : g.core.polledI = none) :
    (Code.instruction chip).Ensures (fun _ g' => ∃ opcode : Byte, ∃ t,
      g'.trace = g.trace ++ .r g.core.pc opcode.val :: t ∧
        g'.core.polledI = (opcodes opcode).oldI g.core.p ∧
        g'.core.halted = ((opcodes opcode).jams || g.core.halted)) g := by
  refine ensures_instruction ?_
  simp only [execute, ensures_bind, ensures_core]
  refine (ensures_readByte _ _).mpr fun opcode => ?_
  rw [ensures_bind, ensures_update, ensures_bind]
  refine ((dispatch_leaves chip (opcodes opcode) _).and (ensures_trace _ _)).mono ?_
  rintro _ g₁ ⟨⟨hpolled, hhalted⟩, t, ht⟩
  have hend : ∃ opcode : Byte, ∃ t, g₁.trace = g.trace ++ .r g.core.pc opcode.val :: t ∧
      g₁.core.polledI = (opcodes opcode).oldI g.core.p ∧
      g₁.core.halted = ((opcodes opcode).jams || g.core.halted) :=
    ⟨opcode, t, by rw [ht]; simp, by rw [hpolled, Sight.saw_core, hi, Option.or_none], hhalted⟩
  rw [ensures_bind, ensures_core, ensures_ite]
  split
  · simpa only [ensures_bind, ensures_update, ensures_pure] using hend
  · exact hend

section
attribute [local simp] Code.interrupt push resetStackCycle

theorem enterInterrupt_leaves (kind : ℕ) (g : Sight) :
    (enterInterrupt kind).Ensures (fun _ g' => g'.core.polledI = none) g := by
  simp [enterInterrupt]

theorem acceptReset_leaves (g : Sight) :
    acceptReset.Ensures (fun _ g' => g'.core.polledI = none) g := by
  simp [acceptReset]

end

/-- What a kind of boundary leaves in the registers the next decision looks at: an idle cycle changes
no register. -/
def BoundaryKind.Leaves (c c' : Core) (t : List Access) : BoundaryKind → Prop
  | jamIdle => c' = c
  | instruction => ∃ opcode : Byte, ∃ t', t = .r c.pc opcode.val :: t' ∧
      c'.polledI = (opcodes opcode).oldI c.p ∧ c'.halted = ((opcodes opcode).jams || c.halted)
  | _ => c'.polledI = none

namespace Plain
variable {σ : Type} (H : Host σ) (chip : Chip)

theorem step_leaves {q : Plain σ} (ht : q.trace = []) :
    q.boundary.Leaves q.core (exec H (Code.step chip) q).2.core
      ((exec H (Code.step chip) q).2.trace.map HostCall.access) := by
  simp only [exec_step]
  have hempty : q.decided.sighted.trace = [] := by rw [sighted, decided, ht]; rfl
  cases hb : q.boundary with
  | reset =>
    have h := exec_ensures H (acceptReset_leaves q.decided.sighted)
    simp only [ran, hb]
    exact h
  | jamIdle =>
    have hcore : q.decided.core = q.core := by simp [decided, hb, Core.decided]
    have h : haltedCycle.Ensures (fun _ g' => g'.core = q.decided.sighted.core) q.decided.sighted := by
      simp [haltedCycle]
    simp only [ran, hb]
    exact (exec_ensures H h).trans hcore
  | nmi =>
    have h := exec_ensures H (enterInterrupt_leaves nmiLatch q.decided.sighted)
    simp only [ran, hb]
    exact h
  | irq =>
    have h := exec_ensures H (enterInterrupt_leaves irqLine q.decided.sighted)
    simp only [ran, hb]
    exact h
  | instruction =>
    have hcore : q.decided.sighted.core = { q.core with polledI := none } := by
      simp [sighted, decided, hb, Core.decided]
    obtain ⟨opcode, t, htrace, hpolled, hhalted⟩ :=
      exec_ensures H (instruction_leaves chip q.decided.sighted (by rw [hcore]))
    rw [hempty, List.nil_append, hcore] at htrace
    rw [hcore] at hpolled hhalted
    simp only [ran, hb]
    exact ⟨opcode, t, htrace, hpolled, hhalted⟩

end Plain

namespace Machine
variable {σ : Type} (H : Host σ) (chip : Chip)

theorem step_leaves {m : Machine σ} (hr : m.cpu.Routed) :
    (m.step H chip).1.kind.Leaves m.cpu.core (m.step H chip).2.cpu.core
      ((m.step H chip).1.trace.map HostCall.access) := by
  obtain ⟨hkind, -, htrace, hplain, -⟩ := step_plain H chip hr
  have hcore : (m.step H chip).2.cpu.core = (stepRun H chip m).2.core := congrArg Plain.core hplain
  rw [hkind, htrace, hcore, stepRun, Plain.exec_step]
  have h := Plain.step_leaves H chip (q := m.opened) rfl
  rw [Plain.exec_step] at h
  exact h

end Machine

end SixFiveOhTwo
