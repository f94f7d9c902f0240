import SixFiveOhTwo.Accounting.Counts
import SixFiveOhTwo.Machine.Run

/-! # Every cycle is one bus access

What a step returns is the number of host calls it made: an instruction returns its opcode's base
count and the cycles its handler added, an interrupt entry and a reset return seven, and an idle cycle
one. The counts are of the processor's own reads and writes, so they hold on every host.
-/

namespace SixFiveOhTwo
open Bits Interaction Code
set_option autoImplicit false

/-! ## The four sequences -/

theorem ensures_readByte {post : Byte → Sight → Prop} (address : ℕ) (g : Sight) :
    Ensures (ask (.read address)) post g ↔
      ∀ value : Byte, post value (g.saw (.r address value.val)) :=
  ⟨fun h value => h value _ rfl, fun h value _ hg => hg ▸ h value⟩

/-- An instruction makes its opcode's base count of accesses, with one more for a page crossing and one
or two for a taken branch, and returns the base count with what `extra` holds then. -/
theorem execute_counts (chip : Chip) (g : Sight) :
    (execute chip).Ensures (fun cycles g' => ∃ opcode : Byte, ∃ t,
      g'.trace = g.trace ++ .r g.core.pc opcode.val :: t ∧
        let extra := (opcodes opcode).extraCycles g.core t
        1 + t.length = (opcodes opcode).cycles + extra ∧
          cycles = (opcodes opcode).cycles + counted g.core.extra extra ∧ g'.core.extra = 0) g := by
  simp only [execute, ensures_bind, ensures_core]
  refine (ensures_readByte _ _).mpr fun opcode => ?_
  rw [ensures_bind, ensures_update, ensures_bind]
  refine (dispatch_counts chip (opcodes opcode) g.core.pc _ rfl).mono ?_
  rintro _ g' ⟨t, ht, hlen, hextra⟩
  have htrace : g'.trace = g.trace ++ .r g.core.pc opcode.val :: t := by rw [ht]; simp
  have hcycles := opcodes_cycles opcode
  change t.length = _ + (opcodes opcode).extraCycles g.core t at hlen
  change g'.core.extra = counted g.core.extra ((opcodes opcode).extraCycles g.core t) at hextra
  simp only [ensures_bind, ensures_core, ensures_ite]
  split
  · simp only [ensures_update, ensures_pure]
    exact ⟨opcode, t, htrace, by omega, by rw [hextra], trivial⟩
  · have hzero : g'.core.extra = 0 := by omega
    exact ⟨opcode, t, htrace, by omega, by rw [← hextra]; omega, hzero⟩

section
attribute [local simp] Code.interrupt push resetStackCycle

theorem enterInterrupt_counts (kind : ℕ) (g : Sight) :
    (enterInterrupt kind).Ensures (fun cycles g' =>
      (∃ t, g'.trace = g.trace ++ t ∧ cycles = t.length) ∧ g'.core.extra = g.core.extra) g := by
  simp [enterInterrupt]

theorem acceptReset_counts (g : Sight) :
    acceptReset.Ensures (fun cycles g' =>
      (∃ t, g'.trace = g.trace ++ t ∧ cycles = t.length) ∧ g'.core.extra = g.core.extra) g := by
  simp [acceptReset]

end

/-- The accesses a boundary's sequence makes are the cycles it returns, and it leaves `extra` zero. -/
theorem BoundaryKind.code_counts (chip : Chip) (kind : BoundaryKind) (g : Sight) (hx : g.core.extra = 0) :
    (kind.code chip).Ensures (fun cycles g' =>
      (∃ t, g'.trace = g.trace ++ t ∧ cycles = t.length ∧
        (kind = .instruction → ∃ opcode : Byte, ∃ t', t = .r g.core.pc opcode.val :: t' ∧
          cycles = (opcodes opcode).cycles + (opcodes opcode).extraCycles g.core t')) ∧
        g'.core.extra = 0) g := by
  cases kind with
  | reset =>
    refine (acceptReset_counts g).mono ?_
    rintro cycles g' ⟨⟨t, ht, hlen⟩, hextra⟩
    exact ⟨⟨t, ht, hlen, fun h => by cases h⟩, hextra.trans hx⟩
  | jamIdle => simp [code, haltedCycle, hx]
  | nmi =>
    refine (enterInterrupt_counts nmiLatch g).mono ?_
    rintro cycles g' ⟨⟨t, ht, hlen⟩, hextra⟩
    exact ⟨⟨t, ht, hlen, fun h => by cases h⟩, hextra.trans hx⟩
  | irq =>
    refine (enterInterrupt_counts irqLine g).mono ?_
    rintro cycles g' ⟨⟨t, ht, hlen⟩, hextra⟩
    exact ⟨⟨t, ht, hlen, fun h => by cases h⟩, hextra.trans hx⟩
  | instruction =>
    refine ensures_instruction ((execute_counts chip g).mono ?_)
    rintro cycles g' ⟨opcode, t, ht, hlen, hcycles, hextra⟩
    rw [hx, counted_zero] at hcycles
    exact ⟨⟨_, ht, by rw [List.length_cons]; omega, fun _ => ⟨opcode, t, rfl, hcycles⟩⟩, hextra⟩

/-! ## A step on a plain machine -/

theorem Entry.extraCycles_decided (entry : Entry) (c : Core) (kind : BoundaryKind) (t : List Access) :
    entry.extraCycles (c.decided kind) t = entry.extraCycles c t := by
  have h : ∀ polledI, entry.extraCycles { c with polledI } t = entry.extraCycles c t := by
    intro polledI
    cases entry with
    | implied handler cycles => rfl
    | addressed handler mode cycles => cases mode <;> rfl
  cases kind with
  | irq | instruction => exact h none
  | _ => rfl

namespace Plain
variable {σ : Type} (H : Host σ) (chip : Chip)

theorem step_counts {q : Plain σ} (ht : q.trace = []) (hx : q.core.extra = 0) :
    (exec H (Code.step chip) q).1.2 = (exec H (Code.step chip) q).2.trace.length ∧
      ((exec H (Code.step chip) q).1.1 = .instruction → ∃ opcode : Byte, ∃ t,
        (exec H (Code.step chip) q).2.trace.map HostCall.access = .r q.core.pc opcode.val :: t ∧
          (exec H (Code.step chip) q).1.2 =
            (opcodes opcode).cycles + (opcodes opcode).extraCycles q.core t) ∧
      (exec H (Code.step chip) q).2.core.extra = 0 := by
  simp only [exec_step]
  have hdecided : q.decided.core.extra = 0 := by
    rw [decided]
    cases q.boundary <;> exact hx
  have hpc : q.decided.core.pc = q.core.pc := by
    rw [decided]
    cases q.boundary <;> rfl
  obtain ⟨⟨t, htrace, hlen, hinstr⟩, hextra⟩ :=
    exec_ensures H (q.boundary.code_counts chip q.decided.sighted hdecided)
  have hempty : q.decided.sighted.trace = [] := by rw [sighted, decided, ht]; rfl
  rw [hempty, List.nil_append] at htrace
  refine ⟨?_, fun hkind => ?_, hextra⟩
  · rw [hlen, ← htrace]
    exact List.length_map ..
  · obtain ⟨opcode, t', ht', hcycles⟩ := hinstr hkind
    refine ⟨opcode, t', ?_, ?_⟩
    · rw [← hpc]
      exact htrace.trans ht'
    · rw [hcycles, ← Entry.extraCycles_decided (opcodes opcode) q.core q.boundary]
      rfl

/-- Each host call of a run is of the callable assigned for its kind of access. -/
def CallsAssigned (readByte writeByte : ℕ) (q : Plain σ) : Prop :=
  q.readByte = readByte ∧ q.writeByte = writeByte ∧ ∀ call ∈ q.trace,
    call.callable = match call.access with
      | .r .. => readByte
      | .w .. => writeByte

theorem callsAssigned_handle {readByte writeByte : ℕ} (op : Op) (q : Plain σ)
    (h : CallsAssigned readByte writeByte q) : CallsAssigned readByte writeByte (handle H op q).2 := by
  obtain ⟨hr, hw, hcalls⟩ := h
  cases op with
  | read address =>
    refine ⟨hr, hw, fun call hcall => ?_⟩
    rcases List.mem_append.mp hcall with hold | hnew
    · exact hcalls call hold
    · rw [List.mem_singleton.mp hnew]
      exact hr
  | write address value =>
    refine ⟨hr, hw, fun call hcall => ?_⟩
    rcases List.mem_append.mp hcall with hold | hnew
    · exact hcalls call hold
    · rw [List.mem_singleton.mp hnew]
      exact hw
  | _ => exact ⟨hr, hw, hcalls⟩

end Plain

/-! ## Runs -/

namespace Machine
variable {σ : Type} (H : Host σ) (chip : Chip)

/-- What every boundary of every run finds. -/
def Settled (m : Machine σ) : Prop := m.cpu.Routed ∧ m.cpu.core.extra = 0

theorem act_settled (action : Action σ) (m : Machine σ) (h : m.Settled) :
    (act H chip action m).2.Settled := by
  refine ⟨act_routed H chip action h.1, ?_⟩
  cases action with
  | call call => exact (congrArg Core.extra (Call.apply_core call m.cpu)).trans h.2
  | host move => exact h.2
  | step =>
    obtain ⟨-, -, -, hplain, -⟩ := step_plain H chip h.1
    have hcounts := (Plain.step_counts H chip (q := m.opened) rfl h.2).2.2
    exact (congrArg (Core.extra ∘ Plain.core) hplain).trans hcounts

theorem set_extra (cpu : CPU) (register : Register) (parsed : Option ℤ) :
    (cpu.set register parsed).core.extra = cpu.core.extra := by
  rw [CPU.set]
  cases number parsed register.maximum with
  | none => rfl
  | some value => cases register <;> rfl

theorem hostAct_settled (action : HostAction σ) (m : Machine σ) (h : m.Settled) :
    (hostAct H chip action m).2.Settled := by
  refine ⟨hostAct_routed H chip action h.1, ?_⟩
  cases action with
  | act action => exact (act_settled H chip action m h).2
  | readByte callable => exact h.2
  | writeByte callable => exact h.2
  | restore state => rfl
  | set register parsed => exact (set_extra m.cpu register parsed).trans h.2

/-- A step returns the number of host calls it makes. -/
theorem step_counted {m : Machine σ} (h : m.Settled) :
    (m.step H chip).1.cycles = (m.step H chip).1.trace.length := by
  obtain ⟨-, hcycles, htrace, -, -⟩ := step_plain H chip h.1
  rw [hcycles, htrace]
  exact (Plain.step_counts H chip (q := m.opened) rfl h.2).1

/-- **Bus accounting.** In every state a host and its debugger can bring a constructed processor to,
the next step returns the number of host calls it makes, each of the callable assigned; an instruction
returns its opcode's base count and its extra cycles. -/
theorem bus_accounting (readByte writeByte : Callable) (host : σ) (actions : List (HostAction σ)) :
    let m := (hostAct H chip).final (start readByte writeByte host) actions
    let log := (m.step H chip).1
    log.cycles = log.trace.length ∧
      (∀ call ∈ log.trace, call.callable = match call.access with
        | .r .. => m.cpu.bus.readByte.base
        | .w .. => m.cpu.bus.writeByte.base) ∧
      (log.kind = .instruction → ∃ opcode : Byte, ∃ t,
        log.trace.map HostCall.access = .r m.cpu.core.pc opcode.val :: t ∧
          log.cycles = (opcodes opcode).cycles + (opcodes opcode).extraCycles m.cpu.core t) := by
  intro m log
  have hm : m.Settled :=
    System.final_preserves (hostAct_settled H chip) ⟨.init readByte writeByte, rfl⟩ actions
  obtain ⟨hkind, hcycles, htrace, -, -⟩ := step_plain H chip hm.1
  obtain ⟨-, hinstr, -⟩ := Plain.step_counts H chip (q := m.opened) rfl hm.2
  have hcalls : Plain.CallsAssigned m.cpu.bus.readByte.base m.cpu.bus.writeByte.base (stepRun H chip m).2 :=
    Tree.run_preserves (fun op q _ => Plain.callsAssigned_handle H op q) (Tree.uses_any _)
      ⟨rfl, rfl, fun _ hc => nomatch hc⟩
  refine ⟨step_counted H chip hm, ?_, ?_⟩
  · rw [htrace]
    exact hcalls.2.2
  · rw [hkind, htrace, hcycles]
    exact hinstr

end Machine

end SixFiveOhTwo
