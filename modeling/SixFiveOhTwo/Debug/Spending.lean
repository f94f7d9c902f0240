import SixFiveOhTwo.Commands.Over
import SixFiveOhTwo.Polling.Masking

/-! # What a run spends

A boundary takes at most eight cycles, or eleven where it is a JAM. So a run exceeds its cycle limit by less than
that, and its cycles and its steps bound each other.
-/

namespace SixFiveOhTwo
open Bits Interaction
set_option autoImplicit false

/-! ## A boundary -/

/-- The cycles a row can take beyond its base count. -/
def Entry.mostExtra : Entry → ℕ
  | implied handler _ => if (handler.taken 0).isSome then 2 else 0
  | addressed _ mode _ =>
    match mode with
    | .abx | .aby | .izy => 1
    | _ => 0

theorem Entry.extraCycles_le (entry : Entry) (c : Core) (t : List Access) : entry.extraCycles c t ≤ entry.mostExtra := by
  cases entry with
  | addressed handler mode cycles =>
    cases mode with
    | abx | aby | izy => exact Bool.toNat_le _
    | _ => exact le_rfl
  | implied handler cycles =>
    have hbranch (next offset : ℕ) : branchExtra next offset ≤ 2 := by
      rw [branchExtra]
      split <;> decide
    show (if (handler.taken c.p).getD false then _ else 0) ≤ if (handler.taken 0).isSome then 2 else 0
    cases hb : handler.taken 0 with
    | none => simp [Implied.taken_none hb]
    | some taken =>
      rw [Option.isSome_some, if_pos rfl]
      split
      · exact hbranch _ _
      · exact Nat.zero_le 2

/-- No row but that of JAM takes more than eight cycles. -/
theorem opcodes_most : ∀ opcode, (opcodes opcode).cycles + (opcodes opcode).mostExtra ≤
    if (opcodes opcode).jams then 11 else 8 := by
  decide +kernel

/-- A step that jams takes eleven cycles at most, and every other one eight. -/
def Spent (cycles : ℕ) (jams : Prop) : Prop := 0 < cycles ∧ (cycles ≤ 8 ∨ jams ∧ cycles ≤ 11)

namespace Machine
variable {σ : Type} (H : Host σ) (chip : Chip)

theorem step_spent {m : Machine σ} (h : m.Settled) :
    Spent (m.step H chip).1.cycles (m.cpu.core.halted = false ∧ (m.step H chip).2.cpu.core.halted = true) := by
  obtain ⟨hboundary, hwork⟩ := step_kind H chip h.1 h.2
  have hcounted : (m.step H chip).1.cycles = ((m.step H chip).1.trace.map HostCall.access).length := by
    rw [List.length_map]
    exact step_counted H chip h
  have hleaves := step_leaves H chip h.1
  rw [hcounted]
  generalize (m.step H chip).1.trace.map HostCall.access = t at hwork hleaves
  have hshape {n : ℕ} {shapes : List (Bool × ℕ)} (ht : t.map Access.shape = shapes) (hn : shapes.length = n)
      (hle : 0 < n ∧ n ≤ 8) : Spent t.length (m.cpu.core.halted = false ∧ (m.step H chip).2.cpu.core.halted = true) := by
    have hlength : t.length = n := by rw [← hn, ← ht, List.length_map]
    exact ⟨by omega, .inl (by omega)⟩
  cases hkind : (m.step H chip).1.kind with
  | reset | nmi =>
    rw [hkind] at hwork
    exact hshape (n := 7) hwork rfl (by decide)
  | jamIdle =>
    rw [hkind] at hwork
    exact hshape (n := 1) hwork rfl (by decide)
  | irq =>
    rw [hkind] at hwork
    rcases hwork with hwork | hwork
    · exact hshape (n := 7) hwork rfl (by decide)
    · exact hshape (n := 7) hwork rfl (by decide)
  | instruction =>
    rw [hkind] at hwork hleaves hboundary
    obtain ⟨opcode, t', ht, hlength⟩ := hwork
    obtain ⟨opcode', t'', ht', -, hhalted⟩ := hleaves
    obtain ⟨⟨-, hsame⟩, rfl⟩ := List.cons_eq_cons.mp (ht.symm.trans ht') |>.imp Access.r.inj id
    obtain rfl := Fin.ext hsame
    have hextra := (opcodes opcode).extraCycles_le m.cpu.core t'
    have hbase := opcodes_cycles_le opcode
    refine ⟨by omega, ?_⟩
    have hmost := opcodes_most opcode
    cases hjams : (opcodes opcode).jams with
    | false =>
      rw [hjams, if_neg Bool.false_ne_true] at hmost
      exact .inl (by omega)
    | true =>
      rw [hjams, if_pos rfl] at hmost
      rw [hjams, Bool.true_or] at hhalted
      exact .inr ⟨⟨running_of_instruction hboundary.symm, hhalted⟩, by omega⟩

end Machine

/-! ## A session's step, and a run of them -/

theorem CPU.captureState_halted {cpu : CPU} {state : CPUState} (h : cpu.captureState = some state) :
    state.halted = cpu.core.halted := by
  unfold captureState at h
  dsimp only at h
  split at h
  · cases h
    rfl
  · cases h

/-- The step of a record stopped a processor that ran. -/
def StepRecord.Jams (record : StepRecord) : Prop := record.before.halted = false ∧ record.after.halted = true

namespace Driven
variable {σ : Type} (H : Host σ) (chip : Chip)

theorem step_spent {session session' : DebugSession (Driven σ)} {d d' : Driven σ} {record : StepRecord} (hgood : d.Good)
    (h : session.step (target H chip) d = (.ok record, session', d')) :
    Spent record.cycles record.Jams ∧ d'.Good := by
  obtain ⟨hsettled, hfit⟩ := hgood
  have hcpu := d.ready_cpu session
  obtain ⟨made, hstep, hbefore, hafter, -, hcycles, -⟩ := session_returns H chip session d hsettled hfit
  rw [hstep] at h
  cases h
  have hsettled' : (d.ready session).machine.Settled := by
    rw [Machine.Settled, hcpu]
    exact hsettled
  have hfit' : (d.ready session).machine.Fit := by
    rw [Machine.Fit, hcpu]
    exact hfit
  refine ⟨?_, Machine.act_settled H chip .step _ hsettled', Machine.act_fit H chip .step _ hfit'⟩
  rw [hcycles, StepRecord.Jams, CPU.captureState_halted hbefore, CPU.captureState_halted hafter]
  exact Machine.step_spent H chip hsettled'

theorem steps_spent {session session' : DebugSession (Driven σ)} {d d' : Driven σ} {records : List StepRecord}
    (hsteps : DebugSession.Steps (target H chip) session d records session' d') (hgood : d.Good) :
    ∀ record ∈ records, Spent record.cycles record.Jams := by
  induction hsteps with
  | done => simp
  | step hstep _ ih =>
    obtain ⟨hspent, hgood'⟩ := step_spent H chip hgood hstep
    exact List.forall_mem_cons.mpr ⟨hspent, ih hgood'⟩

end Driven

namespace DebugSession

theorem spent_bounds {records : List StepRecord} (h : ∀ record ∈ records, Spent record.cycles record.Jams) :
    records.length ≤ spent records ∧ spent records ≤ 11 * records.length := by
  induction records with
  | nil => exact ⟨le_rfl, le_rfl⟩
  | cons record records ih =>
    rw [List.forall_mem_cons] at h
    obtain ⟨⟨hpos, hmost⟩, hrest⟩ := h
    obtain ⟨hlow, hhigh⟩ := ih hrest
    have hle : record.cycles ≤ 11 := by omega
    rw [spent_cons, List.length_cons]
    omega

/-- A run that returned would have gone on but for the target's state, or went on up to its last step. -/
theorem FirstStop.last {τ : Type} {T : Target τ} {session session' : DebugSession τ} {t t' : τ} {maxCycles : Option ℕ}
    {stopOnHalt : Bool} {budget used : ℕ} {records : List StepRecord} {stop : Stop}
    (h : session.FirstStop T t maxCycles stopOnHalt budget used records session' t' stop) :
    (session.GoesOn maxCycles budget used records ∧ stop.reason ≠ .cycleLimit) ∨
      ∃ init last, records = init ++ [last] ∧ session.GoesOn maxCycles budget used init ∧ stop.state = last.after ∧
        (stop.reason = .cycleLimit → ∀ limit ∈ maxCycles, limit ≤ used + spent records) := by
  cases h.ends with
  | breakpoint hon => exact .inl ⟨hon, by simp⟩
  | halted hon => exact .inl ⟨hon, by simp⟩
  | watchpoint init hlast =>
    exact .inr ⟨init, _, hlast, h.passed init _ hlast, rfl, fun hreason => absurd hreason (by simp)⟩
  | stepLimit init hlast =>
    exact .inr ⟨init, _, hlast, h.passed init _ hlast, rfl, fun hreason => absurd hreason (by simp)⟩
  | cycleLimit init hlast hquiet hmax hspent =>
    refine .inr ⟨init, _, hlast, h.passed init _ hlast, rfl, fun _ limit hlimit => ?_⟩
    obtain rfl := Option.some.inj (hmax.symm.trans hlimit)
    exact hspent

theorem spent_append (records : List StepRecord) (last : StepRecord) :
    spent (records ++ [last]) = spent records + last.cycles := by
  simp [spent]

/-- **A run keeps to its budget.** Whatever was done with a constructed processor and its sessions, and whatever the
session: a run that returns has spent at least a cycle a step and at most eleven; with a cycle limit it has spent
less than that and eight more, or, where its last step jammed the processor, eleven more; and if it stopped for the
limit, no less than that. -/
theorem run_spends {σ : Type} (lang : Language) (H : Host σ) (chip : Chip) (readByte writeByte : Callable) (host : σ)
    (uses : List (Usage σ)) (session : DebugSession (Driven σ)) (maxSteps : ℤ) (maxCycles : Option ℤ)
    (stopOnHalt : Bool) (result : RunResult) :
    let b := (Usage.act lang H chip).final { machine := .start readByte writeByte host } uses
    let ran := session.run (Driven.target H chip) maxSteps maxCycles stopOnHalt { machine := b.machine }
    ran.result = .ok result → result.steps ≤ maxSteps ∧ result.steps ≤ result.cycles ∧ result.cycles ≤ 11 * result.steps ∧
      ∀ limit, maxCycles = some limit →
        (result.cycles < limit + 8 ∨ result.cycles < limit + 11 ∧
          ∃ last, ran.records.getLast? = some last ∧ last.Jams ∧ result.state = last.after) ∧
        (result.reason = .cycleLimit → limit ≤ result.cycles) := by
  intro b ran hresult
  have hran : ran = session.run (Driven.target H chip) maxSteps maxCycles stopOnHalt { machine := b.machine } := rfl
  have hgood : Driven.Good { machine := b.machine } := Usage.final_good lang H chip readByte writeByte host uses
  have hsteps : 0 < maxSteps := by
    by_contra hle
    rw [hran, run, if_pos (not_lt.mp hle)] at hresult
    cases hresult
  have hcycles : ∀ cycles ∈ maxCycles, 0 < cycles := by
    intro cycles hmem
    by_contra hle
    have hany : maxCycles.any (· ≤ 0) = true := (Option.any_eq_true _ _).mpr ⟨cycles, hmem, by simpa using hle⟩
    rw [hran, run, if_neg (not_le.mpr hsteps), if_pos hany] at hresult
    cases hresult
  obtain ⟨records, hrecords, hstops⟩ :=
    run_stops (Driven.target H chip) session { machine := b.machine } stopOnHalt hsteps hcycles
  rcases hstops with ⟨stop, hresult', hstop⟩ | ⟨text, herror, -⟩
  · obtain rfl := Except.ok.inj (hresult'.symm.trans hresult)
    obtain ⟨hcount, -, hspent⟩ := foldl_add_counts {} records
    have hrecord := Driven.steps_spent H chip hstop.steps hgood
    obtain ⟨hlow, hhigh⟩ := spent_bounds hrecord
    rw [Tally.result]
    dsimp only
    rw [hcount, hspent, Nat.zero_add, Nat.zero_add]
    rcases hstop.last with ⟨hon, hreason⟩ | ⟨init, last, rfl, hon, hstate, hreason⟩
    · have hwithin := hon.within
      refine ⟨by omega, hlow, hhigh, fun limit hlimit => ?_⟩
      have haffordable := hon.affordable limit.toNat (Option.mem_def.mpr (by rw [hlimit, Option.map_some]))
      exact ⟨.inl (by omega), fun h => absurd h hreason⟩
    · have hwithin := hon.within
      rw [List.length_append, List.length_singleton] at hlow hhigh ⊢
      refine ⟨by omega, hlow, hhigh, fun limit hlimit => ?_⟩
      have hmem : limit.toNat ∈ maxCycles.map Int.toNat := Option.mem_def.mpr (by rw [hlimit, Option.map_some])
      have haffordable := hon.affordable _ hmem
      have hpos := hcycles limit (Option.mem_def.mpr hlimit)
      obtain ⟨-, hmost⟩ := hrecord last (List.mem_append_right init (List.mem_singleton_self last))
      refine ⟨?_, fun h => ?_⟩
      · rw [spent_append]
        rcases hmost with hmost | ⟨hjams, hmost⟩
        · exact .inl (by omega)
        · refine .inr ⟨by omega, last, ?_, hjams, hstate⟩
          have hlast : ran.records = init ++ [last] := hrecords
          rw [hlast, List.getLast?_concat]
      · have hle : limit.toNat ≤ 0 + spent (init ++ [last]) := hreason h _ hmem
        omega
  · rw [herror] at hresult
    cases hresult

/-- A processor made over a NOP and a JAM. -/
def jamming : Driven (ℕ → Byte) :=
  { machine := ((Usage.act CommandDebugger.blanks .flat mos6502).final
      { machine := .start (.host 0) (.host 0) (Machine.holding 0 [0xEA, 0x02]) } []).machine }

/-- Run for three cycles, it takes thirteen. -/
theorem run_spends_jamming :
    let ran := ({ id := 0 } : DebugSession (Driven (ℕ → Byte))).run (Driven.target .flat mos6502) 100 (some 3) true jamming
    ∃ result last, ran.result = .ok result ∧ result.cycles = 13 ∧ ran.records.getLast? = some last ∧ last.Jams := by
  intro ran
  have hcycles : ran.result.toOption.map RunResult.cycles = some 13 := by decide +kernel
  cases hresult : ran.result with
  | error text =>
    rw [hresult] at hcycles
    cases hcycles
  | ok result =>
    rw [hresult] at hcycles
    have hthirteen : result.cycles = 13 := Option.some.inj hcycles
    obtain ⟨-, -, -, hlimit⟩ := run_spends CommandDebugger.blanks .flat mos6502 (.host 0) (.host 0)
      (Machine.holding 0 [0xEA, 0x02]) [] { id := 0 } 100 (some 3) true result hresult
    rcases (hlimit 3 rfl).1 with hless | ⟨-, last, hlast, hjams, -⟩
    · rw [hthirteen] at hless
      exact absurd hless (by decide)
    · exact ⟨result, last, rfl, hthirteen, hlast, hjams⟩

end DebugSession

end SixFiveOhTwo
