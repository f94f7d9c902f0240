import SixFiveOhTwo.Accounting.Bus

/-! # The work of each kind of boundary

What the bus sees of the kind a step reports: an idle cycle reads $FFFF, a reset reads the stack three
times and its vector, an entry reads PC twice, pushes three bytes and reads its vector, and an
instruction fetches its opcode.
-/

namespace SixFiveOhTwo
open Bits Interaction Code
set_option autoImplicit false

def Access.isWrite : Access → Bool
  | r _ _ => false
  | w _ _ => true

/-- The shape of an access: whether it is a write, and its address. -/
def Access.shape (access : Access) : Bool × ℕ := (access.isWrite, access.address)

/-- The stack pointer after `n` pushes. -/
def stackDown (s : ℕ) : ℕ → ℕ
  | 0 => s
  | n + 1 => masked 8 ((stackDown s n : ℤ) - 1)

/-- The accesses of the frame of an interrupt. -/
def frameShape (c : Core) (vector : ℕ) : List (Bool × ℕ) :=
  [(true, stack ||| c.s), (true, stack ||| stackDown c.s 1), (true, stack ||| stackDown c.s 2),
    (false, vector), (false, vector + 1)]

/-- What a step of this kind does on the bus, from the registers before it. -/
def BoundaryKind.Work (c : Core) (t : List Access) : BoundaryKind → Prop
  | reset => t.map Access.shape =
      [(false, c.pc), (false, c.pc), (false, stack ||| c.s), (false, stack ||| stackDown c.s 1),
        (false, stack ||| stackDown c.s 2), (false, vectorReset), (false, vectorReset + 1)]
  | jamIdle => t.map Access.shape = [(false, 0xFFFF)]
  | nmi => t.map Access.shape = (false, c.pc) :: (false, c.pc) :: frameShape c vectorNmi
  | irq => t.map Access.shape = (false, c.pc) :: (false, c.pc) :: frameShape c vectorIrq ∨
      t.map Access.shape = (false, c.pc) :: (false, c.pc) :: frameShape c vectorNmi
  | instruction => ∃ opcode : Byte, ∃ t', t = .r c.pc opcode.val :: t' ∧
      t.length = (opcodes opcode).cycles + (opcodes opcode).extraCycles c t'

section
attribute [local simp] Access.shape Access.isWrite Access.address stackDown Code.interrupt push resetStackCycle
  frameShape

theorem acceptReset_work (g : Sight) :
    acceptReset.Ensures (fun _ g' => ∃ t, g'.trace = g.trace ++ t ∧ BoundaryKind.reset.Work g.core t) g := by
  simp [acceptReset, BoundaryKind.Work]

theorem nmi_work (g : Sight) :
    (enterInterrupt nmiLatch).Ensures (fun _ g' =>
      ∃ t, g'.trace = g.trace ++ t ∧ BoundaryKind.nmi.Work g.core t) g := by
  simp [enterInterrupt, BoundaryKind.Work]

theorem irq_work (g : Sight) :
    (enterInterrupt irqLine).Ensures (fun _ g' =>
      ∃ t, g'.trace = g.trace ++ t ∧ BoundaryKind.irq.Work g.core t) g := by
  have hkind : irqLine ≠ nmiLatch := by decide
  simp [enterInterrupt, BoundaryKind.Work, hkind]

end

namespace Plain
variable {σ : Type} (H : Host σ) (chip : Chip)

/-- A step does the work of the kind it reports. -/
theorem step_work {q : Plain σ} (ht : q.trace = []) (hx : q.core.extra = 0) :
    (exec H (Code.step chip) q).1.1.Work q.core ((exec H (Code.step chip) q).2.trace.map HostCall.access) := by
  obtain ⟨hcycles, hinstr, -⟩ := step_counts H chip ht hx
  simp only [exec_step] at *
  have hempty : q.decided.sighted.trace = [] := by rw [sighted, decided, ht]; rfl
  cases hb : q.boundary with
  | instruction =>
    obtain ⟨opcode, t, htrace, hcount⟩ := hinstr hb
    refine ⟨opcode, t, htrace, ?_⟩
    rw [List.length_map, ← hcycles, hcount]
  | reset =>
    have hcore : q.decided.sighted.core = q.core := by simp [sighted, decided, hb, Core.decided]
    obtain ⟨t, htrace, hwork⟩ := exec_ensures H (acceptReset_work q.decided.sighted)
    rw [hempty, List.nil_append] at htrace
    rw [hcore, ← htrace] at hwork
    simp only [ran, hb]
    exact hwork
  | jamIdle =>
    have hidle : haltedCycle.Ensures (fun _ g' => ∃ t, g'.trace = q.decided.sighted.trace ++ t ∧
        BoundaryKind.jamIdle.Work q.core t) q.decided.sighted := by
      simp [haltedCycle, BoundaryKind.Work, Access.shape, Access.isWrite, Access.address]
    obtain ⟨t, htrace, hwork⟩ := exec_ensures H hidle
    rw [hempty, List.nil_append] at htrace
    rw [← htrace] at hwork
    simp only [ran, hb]
    exact hwork
  | nmi =>
    have hcore : q.decided.sighted.core = q.core := by simp [sighted, decided, hb, Core.decided]
    obtain ⟨t, htrace, hwork⟩ := exec_ensures H (nmi_work q.decided.sighted)
    rw [hempty, List.nil_append] at htrace
    rw [hcore, ← htrace] at hwork
    simp only [ran, hb]
    exact hwork
  | irq =>
    have hcore : q.decided.sighted.core = { q.core with polledI := none } := by
      simp [sighted, decided, hb, Core.decided]
    obtain ⟨t, htrace, hwork⟩ := exec_ensures H (irq_work q.decided.sighted)
    rw [hempty, List.nil_append] at htrace
    rw [hcore, ← htrace] at hwork
    simp only [ran, hb]
    exact hwork

end Plain

namespace Machine
variable {σ : Type} (H : Host σ) (chip : Chip)

theorem step_boundary {m : Machine σ} (hr : m.cpu.Routed) :
    (m.step H chip).1.kind = boundary m.cpu.core m.cpu.poll := by
  rw [(step_plain H chip hr).1, stepRun, Plain.exec_step]
  rfl

theorem step_kind {m : Machine σ} (hr : m.cpu.Routed) (hx : m.cpu.core.extra = 0) :
    (m.step H chip).1.kind = boundary m.cpu.core m.cpu.poll ∧
      (m.step H chip).1.kind.Work m.cpu.core ((m.step H chip).1.trace.map HostCall.access) := by
  obtain ⟨hkind, -, htrace, -, -⟩ := step_plain H chip hr
  have hwork := Plain.step_work H chip (q := m.opened) rfl hx
  refine ⟨step_boundary H chip hr, ?_⟩
  rw [hkind, htrace]
  exact hwork

end Machine

end SixFiveOhTwo
