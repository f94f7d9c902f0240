import Mathlib.Data.List.DropRight
import SixFiveOhTwo.Debug.Console

/-! # The books a session keeps

A session's totals count the records it has made, it numbers them as it makes them, and its history is the newest
of those since it was last cleared. An audit keeps the records themselves beside the sessions of a bench, and finds
every session `Balanced` against them, whatever the schedule does.
-/

namespace SixFiveOhTwo
open Interaction
set_option autoImplicit false

/-- What a command made a session record. -/
def Shown.records {σ : Type} : Shown σ → List StepRecord
  | .drove _ _ _ records => records
  | _ => []

/-- The records a session has made, and those since its history was cleared. -/
structure Ledger where
  made : List StepRecord := []
  since : List StepRecord := []

/-- More records, made by this command. -/
def Ledger.book (ledger : Ledger) (records : List StepRecord) : SessionCommand → Ledger
  | .clearHistory => { ledger with since := [] }
  | _ => ⟨ledger.made ++ records, ledger.since ++ records⟩

namespace DebugSession
variable {τ : Type} {T : Target τ}

/-- A session's totals, numbers and history are those of the records in a ledger. -/
structure Balanced (session : DebugSession τ) (ledger : Ledger) : Prop where
  steps : session.totalSteps = ledger.made.length
  instructions : session.totalInstructions = instructions ledger.made
  cycles : session.totalCycles = spent ledger.made
  numbered : ledger.made.map StepRecord.sequence = List.range ledger.made.length
  history : session.history = ledger.since.rtake session.historyLimit
  since : ledger.since <:+ ledger.made

theorem step_sequence {session session' : DebugSession τ} {t t' : τ} {record : StepRecord}
    (h : session.step T t = (.ok record, session', t')) : record.sequence = session.totalSteps := by
  unfold step at h
  split at h
  · cases h
  · split at h
    · cases h
    · generalize T.step (if session.tracking then T.clear session.id t else t) = stepped at h
      dsimp only at h
      generalize (if session.tracking then some (T.accesses session.id stepped.2) else none) = accesses at h
      by_cases hzero : stepped.1 = 0
      · rw [if_pos hzero] at h
        cases h
      · rw [if_neg hzero] at h
        split at h
        · cases h
        · split at h
          · cases h
          · rename_i made hmade
            cases h
            exact (StepRecord.make_inv hmade).1

/-- A history that holds the newest of some records holds the newest of them and one more. -/
theorem retain_rtake (limit : ℕ) (since : List StepRecord) (record : StepRecord) :
    retain limit (since.rtake limit) record = (since ++ [record]).rtake limit := by
  unfold retain
  cases limit with
  | zero => simp
  | succ limit =>
    rw [if_neg (Nat.succ_ne_zero limit), List.rtake_concat_succ]
    have hlength : (since.rtake (limit + 1)).length = min (limit + 1) since.length := by
      rw [List.rtake, List.length_drop]
      omega
    rw [hlength, List.drop_append_of_le_length (by omega)]
    have hdrop : (since.rtake (limit + 1)).drop (min (limit + 1) since.length + 1 - (limit + 1)) = since.rtake limit := by
      rw [List.rtake, List.rtake, List.drop_drop]
      congr 1
      omega
    rw [hdrop]

/-! ## What every record keeps -/

section
variable {J : DebugSession τ → List StepRecord → Prop}
  (hrecord : ∀ session records record, J session records → record.sequence = session.totalSteps →
    J (session.recorded record) (records ++ [record]))
include hrecord

theorem Steps.recorded {session session' : DebugSession τ} {t t' : τ} {records : List StepRecord}
    (h : Steps T session t records session' t') {before : List StepRecord} (hbefore : J session before) :
    J session' (before ++ records) := by
  induction h generalizing before with
  | done =>
    rw [List.append_nil]
    exact hbefore
  | step hstep _ ih =>
    obtain ⟨-, -, rfl, -⟩ := step_inv hstep
    have hnext := ih (hrecord _ _ _ hbefore (step_sequence hstep))
    rw [List.append_assoc] at hnext
    exact hnext

/-- What every record keeps, a run keeps, also one that raises. -/
theorem run_recorded {session : DebugSession τ} {t : τ} (maxSteps : ℤ) (maxCycles : Option ℤ) (stopOnHalt : Bool)
    (h : J session []) :
    J (session.run T maxSteps maxCycles stopOnHalt t).session (session.run T maxSteps maxCycles stopOnHalt t).records := by
  by_cases hsteps : maxSteps ≤ 0
  · rw [run, if_pos hsteps]
    exact h
  · by_cases hcycles : maxCycles.any (· ≤ 0) = true
    · rw [run, if_neg hsteps, if_pos hcycles]
      exact h
    · have hpos : ∀ cycles ∈ maxCycles, 0 < cycles := by
        intro cycles hmem
        by_contra hle
        exact hcycles ((Option.any_eq_true _ _).mpr ⟨cycles, hmem, by simpa using hle⟩)
      obtain ⟨records, hrecords, hstops⟩ := run_stops T session t stopOnHalt (not_le.mp hsteps) hpos
      rw [hrecords]
      rcases hstops with ⟨stop, -, hstop⟩ | ⟨text, -, hraises⟩
      · exact hstop.steps.recorded hrecord h
      · obtain ⟨midway, t₁, hmidway, hraised⟩ := hraises.raised
        have hkept := hmidway.recorded hrecord h
        rcases hraised with ⟨-, hsession, -⟩ | ⟨state, -, -, hstep⟩
        · exact hsession ▸ hkept
        · exact step_error hstep ▸ hkept

end

namespace Balanced
variable {session : DebugSession τ} {ledger : Ledger} {t : τ}

theorem recorded (h : session.Balanced ledger) {record : StepRecord} (hsequence : record.sequence = session.totalSteps) :
    (session.recorded record).Balanced ⟨ledger.made ++ [record], ledger.since ++ [record]⟩ where
  steps := by
    rw [List.length_append, List.length_singleton, ← h.steps]
    rfl
  instructions := by
    have hone : DebugSession.instructions [record] = if record.kind = .instruction then 1 else 0 := by
      rw [instructions_cons, DebugSession.instructions, List.countP_nil, Nat.add_zero]
    rw [DebugSession.instructions, List.countP_append, ← DebugSession.instructions, ← h.instructions]
    exact congrArg (session.totalInstructions + ·) hone.symm
  cycles := by
    have hone : spent [record] = record.cycles := by simp [spent]
    rw [spent, List.map_append, List.sum_append, ← spent, ← spent, ← h.cycles, hone]
    rfl
  numbered := by
    rw [List.map_append, h.numbered, List.length_append, List.length_singleton, List.range_succ, List.map_singleton,
      hsequence, h.steps]
  history := by
    show retain session.historyLimit session.history record = _
    rw [h.history, retain_rtake]
    rfl
  since := by
    obtain ⟨before, hbefore⟩ := h.since
    exact ⟨before, by rw [← List.append_assoc, hbefore]⟩

theorem unchanged (h : session.Balanced ledger) : session.Balanced ⟨ledger.made ++ [], ledger.since ++ []⟩ := by
  rw [List.append_nil, List.append_nil]
  exact h

/-- What is asked of a session leaves it balanced, and its number. -/
theorem perform (h : session.Balanced ledger) (command : SessionCommand) :
    (command.perform T session t).2.1.id = session.id ∧
      (command.perform T session t).2.1.Balanced (ledger.book (command.perform T session t).1 command) := by
  cases command with
  | step =>
    rw [SessionCommand.perform]
    rcases hstep : session.step T t with ⟨text | record, session', t'⟩
    · obtain rfl := step_error hstep
      exact ⟨rfl, h.unchanged⟩
    · obtain ⟨-, -, rfl, -⟩ := step_inv hstep
      exact ⟨rfl, h.recorded (step_sequence hstep)⟩
  | run maxSteps maxCycles stopOnHalt =>
    have hran := run_recorded (T := T) (t := t)
      (J := fun session' records => session'.id = session.id ∧
        session'.Balanced ⟨ledger.made ++ records, ledger.since ++ records⟩) ?_ maxSteps maxCycles stopOnHalt
      ⟨rfl, h.unchanged⟩
    · exact hran
    · intro session' records record ⟨hid, hbalanced⟩ hsequence
      have hnext := hbalanced.recorded hsequence
      rw [List.append_assoc, List.append_assoc] at hnext
      exact ⟨hid, hnext⟩
  | addBreakpoint address =>
    show (session.addBreakpoint address).id = session.id ∧ (session.addBreakpoint address).Balanced _
    unfold addBreakpoint
    split
    · exact ⟨rfl, { h.unchanged with }⟩
    · exact ⟨rfl, h.unchanged⟩
  | removeBreakpoint address =>
    show (session.removeBreakpoint address).id = session.id ∧ (session.removeBreakpoint address).Balanced _
    unfold removeBreakpoint
    split
    · exact ⟨rfl, { h.unchanged with }⟩
    · exact ⟨rfl, h.unchanged⟩
  | addWatchpoint address kind =>
    show (session.addWatchpoint address kind).id = session.id ∧ (session.addWatchpoint address kind).Balanced _
    unfold addWatchpoint
    split
    · exact ⟨rfl, { h.unchanged with }⟩
    · exact ⟨rfl, h.unchanged⟩
  | removeWatchpoint address =>
    show (session.removeWatchpoint address).id = session.id ∧ (session.removeWatchpoint address).Balanced _
    unfold removeWatchpoint
    split
    · exact ⟨rfl, { h.unchanged with }⟩
    · exact ⟨rfl, h.unchanged⟩
  | clearHistory => exact ⟨rfl, { h with history := List.rtake_nil _ |>.symm, since := List.nil_suffix }⟩

end Balanced

end DebugSession

/-! ## Audits -/

namespace Bench
variable {σ : Type} (H : Host σ) (chip : Chip)

/-- A command on a bench, with the ledgers of its sessions, by their numbers. -/
def audited : System (Command σ) (Bench σ × (ℕ → Ledger)) (Shown σ)
  | command, (b, ledgers) =>
    let done := act H chip command b
    (done.1, done.2, match command with
      | .session place asked =>
        match b.sessions[place]? with
        | some session => Function.update ledgers session.id ((ledgers session.id).book done.1.records asked)
        | none => ledgers
      | _ => ledgers)

theorem audited_final (b : Bench σ) (ledgers : ℕ → Ledger) (schedule : List (Command σ)) :
    ((audited H chip).final (b, ledgers) schedule).1 = (act H chip).final b schedule := by
  induction schedule generalizing b ledgers with
  | nil => rfl
  | cons command schedule ih => exact ih _ _

/-- Sessions of different numbers, every one balanced, and empty books for the numbers to come. -/
structure Audited (b : Bench σ) (ledgers : ℕ → Ledger) : Prop where
  distinct : (b.sessions.map DebugSession.id).Nodup
  numbered : ∀ session ∈ b.sessions, session.id < b.next
  unused : ∀ id, b.next ≤ id → ledgers id = {}
  balanced : ∀ session ∈ b.sessions, session.Balanced (ledgers session.id)

theorem untracked_books {τ : Type} {sessions sessions' : List (DebugSession τ)} {originals : Callable × Callable}
    (h : untracked sessions = some (originals, sessions')) :
    sessions'.map DebugSession.id = sessions.map DebugSession.id ∧ ∀ session' ∈ sessions', ∃ session ∈ sessions,
      session' = { session with originals := session'.originals } := by
  induction sessions generalizing sessions' with
  | nil => cases h
  | cons newest sessions ih =>
    rw [untracked] at h
    split at h
    · cases h
      refine ⟨rfl, fun session' hmem => ?_⟩
      rcases List.mem_cons.mp hmem with rfl | hmem
      · exact ⟨newest, List.mem_cons_self, rfl⟩
      · exact ⟨session', List.mem_cons_of_mem _ hmem, rfl⟩
    · obtain ⟨⟨originals', rest⟩, hrest, heq⟩ := Option.map_eq_some_iff.mp h
      cases heq
      obtain ⟨hids, hbooks⟩ := ih hrest
      refine ⟨by rw [List.map_cons, List.map_cons, hids], fun session' hmem => ?_⟩
      rcases List.mem_cons.mp hmem with rfl | hmem
      · exact ⟨session', List.mem_cons_self, rfl⟩
      · obtain ⟨session, hsession, heq⟩ := hbooks session' hmem
        exact ⟨session, List.mem_cons_of_mem _ hsession, heq⟩

/-- Where one of several sessions of different numbers was replaced, the others have other numbers than it. -/
theorem mem_set_distinct {τ : Type} {sessions : List (DebugSession τ)} {place : ℕ} {session session' other : DebugSession τ}
    (hat : sessions[place]? = some session) (hdistinct : (sessions.map DebugSession.id).Nodup)
    (hmem : other ∈ sessions.set place session') : other = session' ∨ other ∈ sessions ∧ other.id ≠ session.id := by
  induction sessions generalizing place with
  | nil => cases hat
  | cons newest sessions ih =>
    rw [List.map_cons, List.nodup_cons] at hdistinct
    cases place with
    | zero =>
      obtain rfl : newest = session := Option.some.inj hat
      rcases List.mem_cons.mp hmem with rfl | hmem
      · exact .inl rfl
      · exact .inr ⟨List.mem_cons_of_mem _ hmem, fun heq => hdistinct.1 (heq ▸ List.mem_map_of_mem hmem)⟩
    | succ place =>
      have hat' : sessions[place]? = some session := hat
      rcases List.mem_cons.mp hmem with rfl | hmem
      · refine .inr ⟨List.mem_cons_self, fun heq => hdistinct.1 ?_⟩
        exact heq ▸ List.mem_map_of_mem (List.mem_of_getElem? hat')
      · rcases ih hat' hdistinct.2 hmem with rfl | ⟨hmem, hne⟩
        · exact .inl rfl
        · exact .inr ⟨List.mem_cons_of_mem _ hmem, hne⟩

theorem audited_step (command : Command σ) {b : Bench σ} {ledgers : ℕ → Ledger} (h : Audited b ledgers) :
    Audited (audited H chip command (b, ledgers)).2.1 (audited H chip command (b, ledgers)).2.2 := by
  cases command with
  | act action => exact ⟨h.distinct, h.numbered, h.unused, h.balanced⟩
  | attach options =>
    have hnext : b.next ∉ b.sessions.map DebugSession.id := by
      intro hmem
      obtain ⟨session, hsession, hid⟩ := List.mem_map.mp hmem
      exact absurd (h.numbered session hsession) (by omega)
    refine ⟨List.nodup_cons.mpr ⟨hnext, h.distinct⟩, ?_, fun id hid => h.unused id (Nat.le_of_succ_le hid), ?_⟩
    · intro session hmem
      rcases List.mem_cons.mp hmem with rfl | hmem
      · exact Nat.lt_succ_self b.next
      · exact Nat.lt_succ_of_lt (h.numbered session hmem)
    · intro session hmem
      rcases List.mem_cons.mp hmem with rfl | hmem
      · show DebugSession.Balanced _ (ledgers b.next)
        rw [h.unused b.next le_rfl]
        exact ⟨rfl, rfl, rfl, rfl, (List.rtake_nil _).symm, List.nil_suffix⟩
      · exact h.balanced session hmem
  | close =>
    show Audited b.close ledgers
    unfold close
    split
    case h_2 => exact h
    case h_1 originals sessions huntracked =>
      obtain ⟨hids, hbooks⟩ := untracked_books huntracked
      refine ⟨hids ▸ h.distinct, fun session' hmem => ?_, h.unused, fun session' hmem => ?_⟩
      · obtain ⟨session, hsession, heq⟩ := hbooks session' hmem
        rw [heq]
        exact h.numbered session hsession
      · obtain ⟨session, hsession, heq⟩ := hbooks session' hmem
        rw [heq]
        exact { h.balanced session hsession with }
  | session place asked =>
    rw [audited, act]
    dsimp only
    cases hat : b.sessions[place]? with
    | none => exact h
    | some session =>
      dsimp only [Shown.records]
      have hsession : session ∈ b.sessions := List.mem_of_getElem? hat
      obtain ⟨hid, hbalanced⟩ := (h.balanced session hsession).perform (T := Driven.target H chip)
        (t := { machine := b.machine }) asked
      refine ⟨?_, fun other hmem => ?_, fun id hle => ?_, fun other hmem => ?_⟩
      · obtain ⟨hplace, hget⟩ := List.getElem?_eq_some_iff.mp hat
        have hplace' : place < (b.sessions.map DebugSession.id).length := by rwa [List.length_map]
        have hself : (b.sessions.map DebugSession.id)[place] = session.id := by rw [List.getElem_map, hget]
        rw [List.map_set, hid, ← hself, List.set_getElem_self]
        exact h.distinct
      · rcases mem_set_distinct hat h.distinct hmem with rfl | ⟨hmem, -⟩
        · exact hid ▸ h.numbered session hsession
        · exact h.numbered other hmem
      · have hne : id ≠ session.id := by
          have hlt := h.numbered session hsession
          dsimp only at hlt hle
          omega
        exact (Function.update_of_ne hne ..).trans (h.unused id hle)
      · rcases mem_set_distinct hat h.distinct hmem with rfl | ⟨hmem, hne⟩
        · rw [hid, Function.update_self]
          exact hbalanced
        · rw [Function.update_of_ne hne]
          exact h.balanced other hmem

/-- **A session's books balance.** Whatever a schedule does with a machine and its sessions, a session's totals count
the records it has made, which it numbered from zero on, and its history holds the newest of them since it was last
cleared, as many as it retains. -/
theorem books_balance (m : Machine σ) (schedule : List (Command σ)) :
    let books := (audited H chip).final ({ machine := m }, fun _ => {}) schedule
    books.1 = (act H chip).final { machine := m } schedule ∧
      ∀ session ∈ books.1.sessions, session.Balanced (books.2 session.id) := by
  intro books
  have hstart : Audited ({ machine := m } : Bench σ) fun _ => {} := ⟨List.nodup_nil, by simp, by simp, by simp⟩
  have hend : Audited books.1 books.2 :=
    System.final_preserves (I := fun books : Bench σ × (ℕ → Ledger) => Audited books.1 books.2)
      (fun command books h => audited_step H chip command h) hstart schedule
  exact ⟨audited_final H chip _ _ schedule, hend.balanced⟩

end Bench

end SixFiveOhTwo
