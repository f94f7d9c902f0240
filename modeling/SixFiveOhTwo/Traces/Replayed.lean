import SixFiveOhTwo.Debug.Prediction
import SixFiveOhTwo.Interaction.Replay
import SixFiveOhTwo.Memories.Recorded
import SixFiveOhTwo.Traces.Resumed

/-! # A tracked trace is replayed from itself

A record that tracks has what the bus answered, so the run can be had again without the host: on a bus that answers
what the records say, from the state before the first of them.
-/

namespace SixFiveOhTwo
open Bits Interaction
set_option autoImplicit false

/-- A host that goes by a list of accesses: it answers a read with the value of the next access, if that is a read of
this address, and takes it off; and it takes off a write. -/
def Host.replay : Host (List Access) where
  readByte _ address script :=
    match script with
    | .r next value :: rest => if next = address then (Fin.ofNat 256 value, [], rest) else (0, [], script)
    | _ => (0, [], script)
  writeByte _ address value script :=
    match script with
    | next :: rest => if next = .w address value then ([], rest) else ([], script)
    | [] => ([], script)

/-- A host whose callables make no calls on the processor. -/
def Host.Quiet {σ : Type} (H : Host σ) : Prop :=
  ∀ callable address s, (H.readByte callable address s).2.1 = [] ∧
    ∀ value, (H.writeByte callable address value s).1 = []

/-- What is seen of an operation: the access, if it is one. -/
def Op.seen : (op : Op) → op.Ans → List Access
  | .read address, value => [.r address value.val]
  | .write address value, _ => [.w address value]
  | .core, _ | .setCore _, _ | .dmaStalled, _ | .poll, _ | .setPoll _, _ => []

namespace Plain
variable {σ : Type} {H : Host σ}

/-- The processor with a script in place of its host. -/
def onScript (q : Plain σ) (script : List Access) : Plain (List Access) where
  core := q.core
  poll := q.poll
  dmaStalled := q.dmaStalled
  host := script
  trace := q.trace
  readByte := q.readByte
  writeByte := q.writeByte

theorem handle_seen (op : Op) (q : Plain σ) :
    (handle H op q).2.trace.map HostCall.access = q.trace.map HostCall.access ++ op.seen (handle H op q).1 := by
  cases op with
  | read address | write address value =>
    simp only [handle, called, Op.seen, List.map_append, List.map_cons, List.map_nil, Poll.record]
  | core | setCore | dmaStalled | poll | setPoll => exact (List.append_nil _).symm

theorem handle_follows (hquiet : H.Quiet) :
    Tree.Follows (handle H) (handle Host.replay) Op.seen fun script q q' => q' = q.onScript script := by
  rintro op q _ rest rfl
  cases op with
  | read address =>
    obtain ⟨hcalls, -⟩ := hquiet q.readByte address q.host
    rcases hanswer : H.readByte q.readByte address q.host with ⟨value, calls, host⟩
    rw [hanswer] at hcalls
    obtain rfl : calls = [] := hcalls
    simp [handle, hanswer, Op.seen, onScript, called, Host.replay]
  | write address value =>
    obtain ⟨-, hcalls⟩ := hquiet q.writeByte address q.host
    rcases hanswer : H.writeByte q.writeByte address value q.host with ⟨calls, host⟩
    have hcalls := hcalls value
    rw [hanswer] at hcalls
    obtain rfl : calls = [] := hcalls
    simp [handle, hanswer, Op.seen, onScript, called, Host.replay]
  | core | setCore | dmaStalled | poll | setPoll => exact ⟨rfl, rfl⟩

end Plain

/-! ## Machines on a script -/

namespace Machine
variable {σ : Type} {H : Host σ} (chip : Chip)

/-- A machine whose host is a script, as another with its own. -/
structure OnScript (script : List Access) (m : Machine σ) (m' : Machine (List Access)) : Prop where
  routed : m.cpu.Routed
  routed' : m'.cpu.Routed
  opened : m'.opened = m.opened.onScript script

theorem OnScript.captureState {script : List Access} {m : Machine σ} {m' : Machine (List Access)}
    (h : m.OnScript script m') : m'.cpu.captureState = m.cpu.captureState := by
  have hcore : m'.cpu.core = m.cpu.core := congrArg Plain.core h.opened
  have hpoll : m'.cpu.poll = m.cpu.poll := congrArg Plain.poll h.opened
  simp only [CPU.captureState, hcore, hpoll]

theorem step_recorded {m : Machine σ} (hr : m.cpu.Routed) :
    (m.step H chip).1.trace.map HostCall.access = (Code.step chip).recorded (Plain.handle H) Op.seen m.opened := by
  obtain ⟨-, -, htrace, -, -⟩ := step_plain H chip hr
  have hrecord := Tree.run_record (h := Plain.handle H) (L := fun q : Plain σ => q.trace.map HostCall.access)
    Plain.handle_seen (Code.step chip) m.opened
  rw [htrace]
  exact hrecord

/-- A step goes by the script as it went by the host, and takes its accesses off. -/
theorem OnScript.step (hquiet : H.Quiet) {m : Machine σ} {m' : Machine (List Access)} {rest : List Access}
    (h : m.OnScript ((m.step H chip).1.trace.map HostCall.access ++ rest) m') :
    (m'.step .replay chip).1.observed = (m.step H chip).1.observed ∧
      (m.step H chip).2.OnScript rest (m'.step .replay chip).2 := by
  have hopened := h.opened
  rw [step_recorded chip h.routed] at hopened
  obtain ⟨hans, hrest⟩ := Tree.run_follows (Plain.handle_follows hquiet) (Code.step chip) hopened
  obtain ⟨hkind, hcycles, htrace, -, hrouted⟩ := step_plain H chip h.routed
  obtain ⟨hkind', hcycles', htrace', -, hrouted'⟩ := step_plain .replay chip h.routed'
  have hend : (m.step H chip).2.OnScript rest (m'.step .replay chip).2 := by
    refine ⟨hrouted, hrouted', ?_⟩
    have hstep := opened_step H chip h.routed
    have hstep' := opened_step .replay chip h.routed'
    rw [stepRun, hrest] at hstep'
    exact hstep'.trans (congrArg (Plain.onScript · rest) hstep).symm
  have hbefore : (m'.step .replay chip).1.before.captureState = (m.step H chip).1.before.captureState := h.captureState
  have hafter : (m'.step .replay chip).1.after.captureState = (m.step H chip).1.after.captureState := hend.captureState
  refine ⟨?_, hend⟩
  rw [StepLog.observed, StepLog.observed, hbefore, hafter, hkind, hkind', hcycles, hcycles', htrace, htrace', stepRun,
    stepRun, hans, hrest]
  rfl

theorem OnScript.steps (hquiet : H.Quiet) {m : Machine σ} {m' : Machine (List Access)} {n : ℕ}
    (h : m.OnScript (((act H chip).shown m (List.replicate n .step)).flatMap Event.accesses) m') :
    ((act .replay chip).shown m' (List.replicate n .step)).map Event.observed =
        ((act H chip).shown m (List.replicate n .step)).map Event.observed ∧
      ((act .replay chip).final m' (List.replicate n .step)).host = [] := by
  have hstep (a : Action σ) (m : Machine σ) (m' : Machine (List Access)) (rest : List Access) (ha : a = .step)
      (h : m.OnScript ((act H chip a m).1.accesses ++ rest) m') :
      (act .replay chip .step m').1.observed = (act H chip a m).1.observed ∧
        (act H chip a m).2.OnScript rest (act .replay chip .step m').2 := by
    rw [ha] at h ⊢
    obtain ⟨hobserved, hnext⟩ := h.step chip hquiet
    exact ⟨congrArg some hobserved, hnext⟩
  rw [← List.append_nil (List.flatMap _ _)] at h
  obtain ⟨hshown, hend⟩ := System.final_follows hstep (fun _ => List.eq_of_mem_replicate) h
  rw [List.map_replicate] at hshown hend
  exact ⟨hshown, congrArg Plain.host hend.opened⟩

end Machine

/-! ## Records -/

/-- A record retells what a step did. -/
structure StepRecord.Retells (record : StepRecord) (log : Machine.StepLog) : Prop where
  kind : record.kind = log.kind
  cycles : record.cycles = log.cycles
  before : log.before.captureState = some record.before
  after : log.after.captureState = some record.after
  accesses : record.accesses = some (log.trace.map HostCall.access)

/-- Evidence of steps retells steps that look the same and are of the kinds predicted. -/
theorem retells_of_evidence {events events' : List Event} {records : List StepRecord}
    (h : List.Forall₂ (fun event record => ∃ log, event = .stepped log ∧ record.Evidence true log) events records)
    (hobserved : events'.map Event.observed = events.map Event.observed)
    (hpredicted : ∀ event ∈ events', ∀ log, event = .stepped log →
      ∀ state, log.before.captureState = some state → log.kind = nextBoundary state) :
    List.Forall₂ (fun event record => ∃ log, event = .stepped log ∧ record.Retells log) events' records := by
  induction h generalizing events' with
  | nil =>
    rw [List.map_eq_nil_iff.mp hobserved]
    exact .nil
  | cons hfirst _ ih =>
    cases events' with
    | nil => cases hobserved
    | cons event' events' =>
      rw [List.map_cons, List.map_cons, List.cons.injEq] at hobserved
      rw [List.forall_mem_cons] at hpredicted
      refine .cons ?_ (ih hobserved.2 hpredicted.2)
      obtain ⟨log, rfl, hevidence⟩ := hfirst
      cases event' with
      | stepped log' =>
        have hlogs : log'.observed = log.observed := Option.some.inj hobserved.1
        have hbefore : log'.before.captureState = some _ := (congrArg Observed.before hlogs).trans hevidence.before
        have htrace : log'.trace = log.trace := congrArg Observed.trace hlogs
        refine ⟨log', rfl, ?_, hevidence.cycles.trans (congrArg Observed.cycles hlogs).symm, hbefore, ?_, ?_⟩
        · rw [hevidence.kind]
          exact (hpredicted.1 log' rfl _ hbefore).symm
        · exact (congrArg Observed.after hlogs).trans hevidence.after
        · rw [htrace]
          exact hevidence.accesses
      | called call => cases hobserved.1
      | moved => cases hobserved.1

theorem captured_of_evidence {σ : Type} {H : Host σ} (chip : Chip) {m : Machine σ} {events : List Event}
    {records : List StepRecord} {first : StepRecord}
    (h : List.Forall₂ (fun event record => ∃ log, event = .stepped log ∧ record.Evidence true log) events records)
    (hfirst : first ∈ records.head?)
    (hshown : events.map Event.observed =
      ((Machine.act H chip).shown m (List.replicate records.length .step)).map Event.observed) :
    m.cpu.captureState = some first.before := by
  cases h with
  | nil => cases hfirst
  | cons hevent _ =>
    obtain rfl := Option.some.inj hfirst
    obtain ⟨log, rfl, hevidence⟩ := hevent
    rw [List.length_cons, List.replicate_succ, System.shown_cons, List.map_cons, List.map_cons, List.cons.injEq] at hshown
    have hobserved : log.observed = (m.step H chip).1.observed := Option.some.inj hshown.1
    have hbefore : log.before.captureState = m.cpu.captureState := congrArg Observed.before hobserved
    rw [← hbefore]
    exact hevidence.before

namespace Bench
variable {σ : Type} (H : Host σ) (chip : Chip)

/-- **A tracked trace is replayed from itself.** A tracking session has run, on a processor whose host makes no calls
during an access. On any processor that the state before the first record is restored to, with the DMA flag as it was,
and with a bus that answers what the records have and nothing else, as many steps do what the records tell, and use up
what they have. -/
theorem trace_replays (readByte writeByte : ℕ) (host : σ) (schedule : List (Command σ)) (place : ℕ)
    (session : DebugSession (Driven σ)) (maxSteps : ℤ) (maxCycles : Option ℤ) (stopOnHalt : Bool)
    (d : Machine (List Access)) :
    let b := (act H chip).final { machine := .start (.host readByte) (.host writeByte) host } schedule
    let ran := session.run (Driven.target H chip) maxSteps maxCycles stopOnHalt { machine := b.machine }
    H.Quiet → b.sessions[place]? = some session → session.tracking = true →
    d.host = StepRecord.log ran.records → d.cpu.dmaStalled = b.machine.cpu.dmaStalled →
    d.cpu.bus.readByte = .host readByte → d.cpu.bus.writeByte = .host writeByte →
    ∀ first ∈ ran.records.head?,
      let again := { d with cpu := d.cpu.restoreState first.before }
      let steps := List.replicate ran.records.length .step
      List.Forall₂ (fun event record => ∃ log, event = .stepped log ∧ record.Retells log)
          ((Machine.act .replay chip).shown again steps) ran.records ∧
        ((Machine.act .replay chip).final again steps).host = [] := by
  intro b ran hquiet hat htracking hhost hdma hread hwrite first hfirst again steps
  have hresumable := resumable H chip readByte writeByte host schedule hat
  have hstart : (bare readByte writeByte {} host).Sound readByte writeByte := bare_sound readByte writeByte {} host
  have hb : b.Sound readByte writeByte := System.final_preserves (act_sound H chip) hstart schedule
  have hdriving : Driving H chip session b.machine (chain readByte b.sessions) (chain writeByte b.sessions)
      ran.session ran.target ran.records :=
    hb.driving H chip hat (.refl hb.settled.1) (.run maxSteps maxCycles stopOnHalt)
  have hrecords := hdriving.records
  rw [htracking] at hrecords
  have hshown := hdriving.shown
  rw [hdriving.steps] at hshown
  have hscript : StepRecord.log ran.records =
      ((Machine.act H chip).shown b.machine (List.replicate ran.records.length .step)).flatMap Event.accesses :=
    (log_of_evidence hrecords).trans (accesses_congr hshown)
  let onScript : Machine (List Access) := { cpu := b.machine.cpu, host := StepRecord.log ran.records }
  have hopened : b.machine.OnScript (StepRecord.log ran.records) onScript := ⟨hb.settled.1, hb.settled.1, rfl⟩
  rw [hscript] at hopened
  obtain ⟨hfollows, hused⟩ := hopened.steps chip hquiet
  have hcaptured : b.machine.cpu.captureState = some first.before := captured_of_evidence chip hrecords hfirst hshown
  have hpolled : onScript.Polled := ⟨hresumable.polled.settled, hresumable.polled.sound⟩
  have hsame : again.Same onScript := by
    apply Machine.restored_same hpolled hresumable.polledFlag hcaptured hdma hhost
    · show d.cpu.bus.readByte.base = b.machine.cpu.bus.readByte.base
      rw [hread, hb.reads, base_chain]
      rfl
    · show d.cpu.bus.writeByte.base = b.machine.cpu.bus.writeByte.base
      rw [hwrite, hb.writes, base_chain]
      rfl
  obtain ⟨hagain, hend⟩ := System.shown_related (Machine.act_same .replay chip) hsame steps
  constructor
  · apply retells_of_evidence hrecords
    · rw [hagain, hfollows, hshown]
    · exact Machine.shown_predicted .replay chip hsame.polled steps
  · have hleft : ((Machine.act .replay chip).final again steps).host =
        ((Machine.act .replay chip).final onScript steps).host := hend.opened.host
    exact hleft.trans hused

theorem flat_quiet : Host.flat.Quiet := fun _ _ _ => ⟨rfl, fun _ => rfl⟩

/-- The two steps again, on a bus that has their accesses. -/
theorem trace_replays_wrapping :
    let ran := wrappingSession.run (Driven.target .flat mos6502) 2 none true { machine := wrappingBench.machine }
    let d : Machine (List Access) := {
      cpu := .init (.host 0) (.host 0)
      host := [.r 0 0x4C, .r 1 0xFE, .r 2 0xFF,
        .r 0xFFFE 0x20, .r 0xFFFF 0x34, .r 0x100 0, .w 0x100 0, .w 0x1FF 0, .r 0 0x4C] }
    let again := { d with cpu := d.cpu.restoreState jumped.before }
    let steps := List.replicate ran.records.length .step
    List.Forall₂ (fun event record => ∃ log, event = .stepped log ∧ record.Retells log)
        ((Machine.act .replay mos6502).shown again steps) ran.records ∧
      ((Machine.act .replay mos6502).final again steps).host = [] := by
  intro ran d
  have hrecords : ran.records = [jumped, called] := by decide +kernel
  have hscript : d.host = StepRecord.log ran.records := by rw [hrecords]; rfl
  have hfirst : jumped ∈ ran.records.head? := by rw [hrecords]; rfl
  exact trace_replays .flat mos6502 0 0 wrapping
    [.attach { peekByte := some fun memory => memory, trackAccesses := true }] 0 wrappingSession 2 none true d
    flat_quiet rfl rfl hscript rfl rfl rfl jumped hfirst

end Bench

end SixFiveOhTwo
