import SixFiveOhTwo.Commands.Reliable
import SixFiveOhTwo.Debug.Ledger
import SixFiveOhTwo.Debug.Transparent
import SixFiveOhTwo.Memories.Locality

/-! # Records are a log of the memory

On a flat memory whose every step a tracking session makes, the accesses of the records, one record after
another, tell what the memory was at each of them and what it has become (`Bench.records_log`). So a watched
byte is never changed behind a run's back: a run that does not stop on a write to it has left it as it was
(`Bench.watched_kept`).
-/

namespace SixFiveOhTwo
open Bits Interaction
set_option autoImplicit false

namespace Shown
variable {σ : Type}

/-- Whatever steps there were, a tracking session made them, and nobody moved the host. -/
def Tracked : Shown σ → Prop
  | acted (.call _) _ => True
  | acted _ _ => False
  | drove tracked _ _ _ => tracked = true
  | wired => True

instance : DecidablePred (Tracked (σ := σ))
  | acted (.call _) _ => .isTrue trivial
  | acted (.host _) _ => .isFalse id
  | acted .step _ => .isFalse id
  | drove tracked _ _ _ => inferInstanceAs (Decidable (tracked = true))
  | wired => .isTrue trivial

end Shown

/-- The accesses of some records. -/
def StepRecord.log (records : List StepRecord) : List Access := records.flatMap fun record => record.accesses.getD []

theorem Event.accesses_congr {event event' : Event} (h : event.observed = event'.observed) :
    event.accesses = event'.accesses := by
  cases event with
  | stepped log =>
    cases event' with
    | stepped log' =>
      have htrace : log.observed.trace = log'.observed.trace := congrArg Observed.trace (Option.some.inj h)
      exact congrArg (List.map HostCall.access) htrace
    | _ => cases h
  | called call | moved =>
    cases event' with
    | stepped log' => cases h
    | _ => rfl

theorem accesses_congr {events events' : List Event} (h : events.map Event.observed = events'.map Event.observed) :
    events.flatMap Event.accesses = events'.flatMap Event.accesses := by
  induction events generalizing events' with
  | nil =>
    rw [List.map_eq_nil_iff.mp h.symm]
  | cons event events ih =>
    cases events' with
    | nil => cases h
    | cons event' events' =>
      rw [List.map_cons, List.map_cons, List.cons.injEq] at h
      rw [List.flatMap_cons, List.flatMap_cons, Event.accesses_congr h.1, ih h.2]

/-- Evidence of tracked steps has their accesses. -/
theorem log_of_evidence {events : List Event} {records : List StepRecord}
    (h : List.Forall₂ (fun event record => ∃ log, event = .stepped log ∧ record.Evidence true log) events records) :
    StepRecord.log records = events.flatMap Event.accesses := by
  induction h with
  | nil => rfl
  | cons hfirst _ ih =>
    obtain ⟨log, rfl, hevidence⟩ := hfirst
    rw [StepRecord.log, List.flatMap_cons, List.flatMap_cons, hevidence.accesses]
    exact congrArg _ ih

theorem log_inRange (records : List StepRecord) : ∀ access ∈ StepRecord.log records, access.InRange := by
  intro access hmem
  obtain ⟨record, -, hrecord⟩ := List.mem_flatMap.mp hmem
  exact record.accesses_valid access hrecord

namespace Bench
variable (chip : Chip) {readByte writeByte : ℕ} {b : Bench (ℕ → Byte)}

/-- What a tracked command does is calls and steps, and its records have the accesses. -/
theorem act_tracked (command : Command (ℕ → Byte)) (h : b.Sound readByte writeByte)
    (htracked : (act .flat chip command b).1.Tracked) :
    (∀ action ∈ (act .flat chip command b).1.actions, action.Still) ∧
      StepRecord.log (act .flat chip command b).1.records =
        (act .flat chip command b).1.events.flatMap Event.accesses := by
  have hrecorded := act_recorded .flat chip command b h
  revert htracked hrecorded
  cases command with
  | act action =>
    rintro htracked -
    cases action with
    | call call => exact ⟨by simp [act, Shown.actions, Action.Still], rfl⟩
    | host move => exact htracked.elim
    | step => exact htracked.elim
  | attach options => exact fun _ _ => ⟨by simp [act, Shown.actions], rfl⟩
  | close => exact fun _ _ => ⟨by simp [act, Shown.actions], rfl⟩
  | session place command =>
    rw [act]
    split
    case h_1 => exact fun _ _ => ⟨by simp [Shown.actions], rfl⟩
    case h_2 session hat =>
      rintro htracked ⟨hsteps, hrecords⟩
      have htracking : session.tracking = true := htracked
      rw [htracking] at hrecords
      refine ⟨fun action hmem => ?_, log_of_evidence hrecords⟩
      rw [Shown.actions, hsteps] at hmem
      rw [List.eq_of_mem_replicate hmem]
      exact trivial

theorem schedule_tracked (schedule : List (Command (ℕ → Byte))) (h : b.Sound readByte writeByte)
    (htracked : ∀ shown ∈ (act .flat chip).shown b schedule, shown.Tracked) :
    (∀ action ∈ ((act .flat chip).shown b schedule).flatMap Shown.actions, action.Still) ∧
      StepRecord.log (((act .flat chip).shown b schedule).flatMap Shown.records) =
        (((act .flat chip).shown b schedule).flatMap Shown.events).flatMap Event.accesses := by
  induction schedule generalizing b with
  | nil => exact ⟨by simp, rfl⟩
  | cons command schedule ih =>
    rw [System.shown_cons, List.forall_mem_cons] at htracked
    obtain ⟨hstill, hlog⟩ := act_tracked chip command h htracked.1
    obtain ⟨hrest, hlogs⟩ := ih (act_sound .flat chip command b h) htracked.2
    rw [System.shown_cons, List.flatMap_cons, List.flatMap_cons, List.flatMap_cons, StepRecord.log,
      List.flatMap_append, List.flatMap_append]
    refine ⟨fun action hmem => ?_, congrArg₂ _ hlog hlogs⟩
    exact (List.mem_append.mp hmem).elim (hstill action) (hrest action)

/-- The accesses of the records are a log of the memory. -/
theorem schedule_log (schedule : List (Command (ℕ → Byte))) (h : b.Sound readByte writeByte)
    (htracked : ∀ shown ∈ (act .flat chip).shown b schedule, shown.Tracked) :
    let t := StepRecord.log (((act .flat chip).shown b schedule).flatMap Shown.records)
    ((act .flat chip).final b schedule).machine.host = written b.machine.host t ∧
      Log.Explains b.machine.host (t.map Access.touch) := by
  intro t
  obtain ⟨hstill, hlog⟩ := schedule_tracked chip schedule h htracked
  obtain ⟨hobserved, hbare⟩ := schedule_bare .flat chip schedule h (.refl h.settled.1)
  have hstill' : ∀ action ∈ (((act .flat chip).shown b schedule).flatMap Shown.actions).map HostAction.act,
      action.Still := by
    intro action hmem
    obtain ⟨action, haction, rfl⟩ := List.mem_map.mp hmem
    exact hstill action haction
  obtain ⟨hmemory, hexplains⟩ := Machine.run_logs chip hstill' b.machine
  obtain ⟨hshown, hfinal⟩ := Machine.shown_act chip b.machine (((act .flat chip).shown b schedule).flatMap Shown.actions)
  have ht : t.map Access.touch = touches ((Machine.act .flat chip).shown b.machine
      (((act .flat chip).shown b schedule).flatMap Shown.actions)) :=
    congrArg (List.map Access.touch) (hlog.trans (accesses_congr hobserved))
  rw [hshown, hfinal, ← ht] at hmemory
  rw [hshown, ← ht] at hexplains
  refine ⟨?_, hexplains⟩
  rw [written_eq_applied, ← hmemory]
  exact congrArg Plain.host hbare.opened

/-- **Records are a log of the memory.** Whatever has been done before: if from then on tracking sessions make
every step, then in the accesses of their records, in order, every read is of what the writes before it have left
in the memory, and all the writes together have made the memory what it is at the end. -/
theorem records_log (readByte writeByte : ℕ) (state : CPUState) (memory : ℕ → Byte)
    (before schedule : List (Command (ℕ → Byte))) :
    let b := (act .flat chip).final (bare readByte writeByte state memory) before
    let shown := (act .flat chip).shown b schedule
    let t := StepRecord.log (shown.flatMap Shown.records)
    (∀ command ∈ shown, command.Tracked) →
    (∀ i address value, t[i]? = some (.r address value) →
        value = (written b.machine.host (t.take i) address).val) ∧
      ((act .flat chip).final b schedule).machine.host = written b.machine.host t := by
  intro b shown t htracked
  have hb : b.Sound readByte writeByte :=
    System.final_preserves (act_sound .flat chip) (bare_sound readByte writeByte state memory) before
  obtain ⟨hmemory, hexplains⟩ := schedule_log chip schedule hb htracked
  refine ⟨fun i address value hi => ?_, hmemory⟩
  have hload : (t.map Access.touch)[i]? = some (.load address (Fin.ofNat 256 value)) := by
    rw [List.getElem?_map, hi]
    rfl
  have hvalue := Log.explains_iff.mp hexplains i address _ hload
  have hrange : value ≤ 0xFF := (log_inRange _ _ (List.mem_of_getElem? hi)).2
  rw [← List.map_take, ← written_eq_applied] at hvalue
  rw [← hvalue]
  exact (Nat.mod_eq_of_lt (Nat.lt_succ_of_le hrange)).symm

/-- A session that watches the writes of $0011, on LDA $10 and STA $11. -/
def copyWatched : List (Command (ℕ → Byte)) := [.attach { trackAccesses := true }, .session 0 (.addWatchpoint 0x11 .w)]

theorem records_log_copying :
    let b := (act .flat mos6502).final (bare 0 0 (.poised 0x0200 0 0 0xFF true) Machine.copying) copyWatched
    let shown := (act .flat mos6502).shown b [.session 0 (.run 2 none true)]
    let t := StepRecord.log (shown.flatMap Shown.records)
    (∀ i address value, t[i]? = some (.r address value) →
        value = (written b.machine.host (t.take i) address).val) ∧
      ((act .flat mos6502).final b [.session 0 (.run 2 none true)]).machine.host = written b.machine.host t :=
  records_log mos6502 0 0 (.poised 0x0200 0 0 0xFF true) Machine.copying copyWatched
    [.session 0 (.run 2 none true)] (by decide +kernel)

/-! ## Watched bytes -/

theorem written_store {memory : ℕ → Byte} {t : List Access} {address : ℕ} (h : written memory t address ≠ memory address) :
    ∃ value, .w address value ∈ t ∧ written memory t address = Fin.ofNat 256 value := by
  rw [written_eq_applied] at h ⊢
  obtain ⟨access, hmem, htouch⟩ := List.mem_map.mp (Log.exists_store_of_applied_ne h)
  cases access with
  | r address' value => cases htouch
  | w address' value =>
    obtain ⟨rfl, hvalue⟩ := Touch.store.inj htouch
    exact ⟨value, hmem, hvalue.symm⟩

theorem watchHits_write {τ : Type} {session : DebugSession τ} {record : StepRecord} {address value : ℕ} {kind : Watch}
    (hwatched : session.watchpoints.lookup address = some kind) (hkind : kind ≠ .r)
    (hmem : .w address value ∈ record.accesses.getD []) : .w address value ∈ session.watchHits record := by
  rw [DebugSession.watchHits, List.mem_filter]
  refine ⟨hmem, ?_⟩
  have hlookup : session.watchpoints.lookup (Access.w address value).address = some kind := hwatched
  rw [hlookup, Option.map_some, Option.getD_some]
  cases kind with
  | r => exact absurd rfl hkind
  | w | rw => rfl

/-- Records without hits leave a byte that is watched for writes as it was. -/
theorem written_of_quiet {τ : Type} {session : DebugSession τ} {records : List StepRecord} {address : ℕ} {kind : Watch}
    (hwatched : session.watchpoints.lookup address = some kind) (hkind : kind ≠ .r)
    (hquiet : ∀ record ∈ records, session.watchHits record = []) (memory : ℕ → Byte) :
    written memory (StepRecord.log records) address = memory address := by
  by_contra hchanged
  obtain ⟨value, hmem, -⟩ := written_store hchanged
  obtain ⟨record, hrecord, haccess⟩ := List.mem_flatMap.mp hmem
  have hhit := watchHits_write hwatched hkind haccess
  rw [hquiet record hrecord] at hhit
  cases hhit

theorem ends_of_hit {τ : Type} {T : Target τ} {session : DebugSession τ} {maxCycles : Option ℕ} {stopOnHalt : Bool}
    {budget used : ℕ} {init : List StepRecord} {last : StepRecord} {t : τ} {stop : DebugSession.Stop}
    (h : session.Ends T maxCycles stopOnHalt budget used (init ++ [last]) t stop) (hhit : session.watchHits last ≠ []) :
    stop = ⟨.watchpoint, last.after, session.watchHits last⟩ := by
  have hsame {init' : List StepRecord} {last' : StepRecord} (heq : init ++ [last] = init' ++ [last']) : last = last' := by
    simpa using congrArg List.getLast? heq
  cases h with
  | breakpoint hon | halted hon => exact absurd (hon.quiet last (List.mem_append_right _ List.mem_cons_self)) hhit
  | watchpoint init' heq hhits => rw [hsame heq]
  | cycleLimit init' heq hquiet | stepLimit init' heq hquiet => exact absurd (hsame heq ▸ hquiet) hhit

/-- The memory a tracking session's run leaves is written by its records. -/
theorem run_written (h : b.Sound readByte writeByte) {place : ℕ} {session : DebugSession (Driven (ℕ → Byte))}
    (hat : b.sessions[place]? = some session) (htracking : session.tracking = true) (maxSteps : ℤ)
    (maxCycles : Option ℤ) (stopOnHalt : Bool) :
    let ran := session.run (Driven.target .flat chip) maxSteps maxCycles stopOnHalt { machine := b.machine }
    ran.target.machine.host = written b.machine.host (StepRecord.log ran.records) := by
  intro ran
  let command : Command (ℕ → Byte) := .session place (.run maxSteps maxCycles stopOnHalt)
  have hact : act .flat chip command b = (.drove session.tracking ran.target.done ran.target.shown ran.records,
      { b with machine := ran.target.machine, sessions := b.sessions.set place ran.session }) := by
    simp only [act, command, hat]
    rfl
  have htracked : ∀ shown ∈ (act .flat chip).shown b [command], shown.Tracked := by
    rw [System.shown_cons, System.shown_nil, hact]
    simpa [Shown.Tracked] using htracking
  obtain ⟨hmemory, -⟩ := schedule_log chip [command] h htracked
  rw [System.final_cons, System.final_nil, System.shown_cons, System.shown_nil, hact] at hmemory
  simpa [Shown.records] using hmemory

/-- **A watched byte is not changed behind a run's back.** A run of a tracking session returns, and if a byte that
is watched for writes is not what it was, then the run stopped at a watchpoint, its hits have a write of the byte
with its new value, and before every boundary that it executed the byte was still as it had been. -/
theorem watched_kept (readByte writeByte : ℕ) (state : CPUState) (memory : ℕ → Byte) (before : List (Command (ℕ → Byte)))
    (place : ℕ) (session : DebugSession (Driven (ℕ → Byte))) (maxSteps : ℤ) (maxCycles : Option ℤ) (stopOnHalt : Bool) :
    let b := (act .flat chip).final (bare readByte writeByte state memory) before
    let ran := session.run (Driven.target .flat chip) maxSteps maxCycles stopOnHalt { machine := b.machine }
    b.sessions[place]? = some session → session.tracking = true → 0 < maxSteps → (∀ cycles ∈ maxCycles, 0 < cycles) →
    ∃ result, ran.result = .ok result ∧ ∀ address kind, session.watchpoints.lookup address = some kind → kind ≠ .r →
      ran.target.machine.host address ≠ b.machine.host address →
        result.reason = .watchpoint ∧
        (∃ value, .w address value ∈ result.hits ∧ ran.target.machine.host address = Fin.ofNat 256 value) ∧
        ∀ i < ran.records.length,
          written b.machine.host (StepRecord.log (ran.records.take i)) address = b.machine.host address := by
  intro b ran hat htracking hsteps hcycles
  have hb : b.Sound readByte writeByte :=
    System.final_preserves (act_sound .flat chip) (bare_sound readByte writeByte state memory) before
  obtain ⟨⟨result, hresult⟩, -⟩ := (Driven.target_reliable .flat chip).run hsteps hcycles stopOnHalt session
    (t := { machine := b.machine }) ⟨hb.settled, hb.fit⟩
  obtain ⟨records, hrecords, ⟨stop, hok, hstop⟩ | ⟨text, herror, -⟩⟩ := DebugSession.run_stops
    (Driven.target .flat chip) session { machine := b.machine } stopOnHalt hsteps hcycles
  case inr => cases hresult.symm.trans herror
  obtain rfl := Except.ok.inj (hok.symm.trans hresult)
  have hran : ran.records = records := hrecords
  refine ⟨_, hok, fun address kind hwatched hkind hchanged => ?_⟩
  have hwritten := run_written chip hb hat htracking maxSteps maxCycles stopOnHalt
  have hchanged' : written b.machine.host (StepRecord.log records) address ≠ b.machine.host address := by
    rw [← hran, ← congrFun hwritten address]
    exact hchanged
  have hkept (quiet : List StepRecord) (h : ∀ record ∈ quiet, session.watchHits record = []) :
      written b.machine.host (StepRecord.log quiet) address = b.machine.host address :=
    written_of_quiet hwatched hkind h b.machine.host
  rcases List.eq_nil_or_concat records with rfl | ⟨init, last, hlast⟩
  · exact absurd rfl hchanged'
  · rw [List.concat_eq_append] at hlast
    have hquiet := (hstop.passed init last hlast).quiet
    have hinit := hkept init hquiet
    have hlog : StepRecord.log records = StepRecord.log init ++ last.accesses.getD [] := by
      rw [hlast, StepRecord.log, StepRecord.log, List.flatMap_append]
      simp
    have hend : written b.machine.host (StepRecord.log records) =
        written (written b.machine.host (StepRecord.log init)) (last.accesses.getD []) := by rw [hlog, written_append]
    rw [hend, ← hinit] at hchanged'
    obtain ⟨value, hmem, hvalue⟩ := written_store hchanged'
    have hhit := watchHits_write hwatched hkind hmem
    have hstop' := ends_of_hit (hlast ▸ hstop.ends) (List.ne_nil_of_mem hhit)
    refine ⟨congrArg DebugSession.Stop.reason hstop', ⟨value, ?_, ?_⟩, fun i hi => hkept _ fun record hrecord => ?_⟩
    · exact (congrArg DebugSession.Stop.hits hstop').symm ▸ hhit
    · rw [congrFun hwritten address, ← hvalue, ← hend, ← hran]
    · rw [hran, hlast, List.length_append, List.length_singleton] at hi
      rw [hran, hlast, List.take_append_of_le_length (by omega)] at hrecord
      exact hquiet record (List.mem_of_mem_take hrecord)

theorem watched_kept_copying :
    let b := (act .flat mos6502).final (bare 0 0 (.poised 0x0200 0 0 0xFF true) fun address =>
      if address = 0x11 then 0xFF else Machine.copying address) copyWatched
    let session : DebugSession (Driven (ℕ → Byte)) :=
      { id := 0, watchpoints := [(0x11, .w)], originals := some (.host 0, .host 0) }
    let ran := session.run (Driven.target .flat mos6502) 9 none true { machine := b.machine }
    ∃ result, ran.result = .ok result ∧ result.reason = .watchpoint := by
  intro b session ran
  have hat : b.sessions[0]? = some session := rfl
  have hchanged : ran.target.machine.host 0x11 ≠ b.machine.host 0x11 := by decide +kernel
  obtain ⟨result, hresult, hkept⟩ := watched_kept mos6502 0 0 (.poised 0x0200 0 0 0xFF true)
    (fun address => if address = 0x11 then 0xFF else Machine.copying address) copyWatched 0 session 9 none true
    hat rfl (by decide) (by simp)
  exact ⟨result, hresult, (hkept 0x11 .w rfl (by decide) hchanged).1⟩

end Bench

end SixFiveOhTwo
