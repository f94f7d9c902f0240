import SixFiveOhTwo.Debug.Divergence
import SixFiveOhTwo.Debug.Transparent
import SixFiveOhTwo.Snapshots.Complete
import SixFiveOhTwo.Traces.RoundTrip

/-! # A trace is resumed where it ends

The records of a session's run survive the file, and the last of them has the state to go on from: a session on
another processor that this state is restored to makes the records that the first session goes on to make.
-/

namespace SixFiveOhTwo
open Bits Interaction Json
set_option autoImplicit false

/-! ## Records of a session's own -/

namespace DebugSession
variable {τ : Type} {T : Target τ}

theorem step_decodes {session session' : DebugSession τ} {t t' : τ} {record : StepRecord}
    (h : session.step T t = (.ok record, session', t')) :
    session.decode t record.before = .ok record.instruction := by
  unfold step at h
  split at h
  · cases h
  · split at h
    · cases h
    · next instruction hdecode =>
      generalize T.step (if session.tracking then T.clear session.id t else t) = stepped at h
      dsimp only at h
      generalize (if session.tracking then some (T.accesses session.id stepped.2) else none) = accesses at h
      by_cases hzero : stepped.1 = 0
      · rw [if_pos hzero] at h
        cases h
      · rw [if_neg hzero] at h
        split at h
        · cases h
        · split at h
          · cases h
          · next made hmade =>
            cases h
            obtain ⟨-, -, rfl, -, -, rfl, -⟩ := StepRecord.make_inv hmade
            exact hdecode

theorem decode_faithful {session : DebugSession τ} {t : τ} {before : CPUState} {instruction : Instruction}
    (h : session.decode t before = .ok (some instruction)) : instruction.Faithful := by
  unfold decode at h
  split at h
  · split at h
    · next peek _ _ =>
      rw [disassemble_eq (peek t) before.pc_le] at h
      cases h
      exact (derived_of_disassemble (disassemble_eq (peek t) before.pc_le)).faithful
    · cases h
  · cases h

theorem step_faithful {session session' : DebugSession τ} {t t' : τ} {record : StepRecord}
    (h : session.step T t = (.ok record, session', t')) : record.Faithful := by
  intro instruction hinstruction
  have hdecodes := step_decodes h
  rw [hinstruction] at hdecodes
  exact decode_faithful hdecodes

end DebugSession

/-! ## Two sessions that no step tells apart -/

namespace Driven
variable {σ : Type} (H : Host σ) (chip : Chip)

/-- A session in good order on its processor: it is wrapped once if it tracks. -/
structure Recording (live : Live (Driven σ)) : Prop where
  fit : live.2.machine.Fit
  count : live.1.tracking = true → live.2.machine.cpu.bus.readByte.count live.1.id = 1 ∧
    live.2.machine.cpu.bus.writeByte.count live.1.id = 1

/-- Two sessions that peek alike, on processors that no step tells apart. -/
structure Twins (peek : Option (σ → ℕ → Byte)) (left right : Live (Driven σ)) : Prop where
  first : Recording left
  second : Recording right
  same : left.2.machine.Same right.2.machine
  leftPeek : left.1.peekByte = peek.map fun peek d => peek d.machine.host
  rightPeek : right.1.peekByte = peek.map fun peek d => peek d.machine.host

theorem decode_twins {peek : Option (σ → ℕ → Byte)} {session session' : DebugSession (Driven σ)} {d d' : Driven σ}
    (h : session.peekByte = peek.map fun peek d => peek d.machine.host)
    (h' : session'.peekByte = peek.map fun peek d => peek d.machine.host) (hhost : d.machine.host = d'.machine.host)
    (before : CPUState) : session.decode d before = session'.decode d' before := by
  rw [DebugSession.decode, DebugSession.decode, h, h']
  cases peek with
  | none => rfl
  | some peek =>
    dsimp only [Option.map_some]
    rw [hhost]

theorem ready_same {d d' : Driven σ} (h : d.machine.Same d'.machine) (session session' : DebugSession (Driven σ)) :
    (d.ready session).machine.Same (d'.ready session').machine := by
  have hpolled {d : Driven σ} (session : DebugSession (Driven σ)) (h : d.machine.Polled) : (d.ready session).machine.Polled := by
    have hcpu := d.ready_cpu session
    constructor
    · rw [Machine.Settled, hcpu]
      exact h.settled
    · rw [hcpu]
      exact h.sound
  refine ⟨hpolled session h.polled, hpolled session' h.polled', ?_⟩
  rw [ready_opened, ready_opened]
  exact h.opened

theorem Recording.step {session : DebugSession (Driven σ)} {d : Driven σ} (h : Recording ⟨session, d⟩)
    (hsettled : d.machine.Settled) :
    ∃ record, session.step (target H chip) d =
        (.ok record, session.recorded record, (d.ready session).act H chip .step) ∧
      record.Evidence session.tracking ((d.ready session).machine.step H chip).1 ∧
      Recording ⟨session.recorded record, (d.ready session).act H chip .step⟩ := by
  obtain ⟨record, hstep, hevidence⟩ := session_step H chip session d hsettled h.fit h.count
  have hcpu := d.ready_cpu session
  have hsettled' : (d.ready session).machine.Settled := by
    rw [Machine.Settled, hcpu]
    exact hsettled
  have hfit' : (d.ready session).machine.Fit := by
    rw [Machine.Fit, hcpu]
    exact h.fit
  obtain ⟨hreads, hwrites⟩ := Machine.act_callables H chip .step hsettled'.1
  rw [hcpu] at hreads hwrites
  refine ⟨record, hstep, hevidence, Machine.act_fit H chip .step _ hfit', fun htracking => ?_⟩
  show (Machine.act H chip .step (d.ready session).machine).2.cpu.bus.readByte.count session.id = 1 ∧
    (Machine.act H chip .step (d.ready session).machine).2.cpu.bus.writeByte.count session.id = 1
  rw [hreads, hwrites]
  exact h.count htracking

variable {peek : Option (σ → ℕ → Byte)} {left right : Live (Driven σ)}

theorem Twins.step (h : Twins peek left right) : ∃ l r left' right',
    left.1.step (target H chip) left.2 = (.ok l, left') ∧ right.1.step (target H chip) right.2 = (.ok r, right') ∧
      l.Agree r ∧ Twins peek left' right' := by
  obtain ⟨session, d⟩ := left
  obtain ⟨session', d'⟩ := right
  obtain ⟨l, hl, hleft, hrecording⟩ := h.first.step H chip h.same.polled.settled
  obtain ⟨r, hr, hright, hrecording'⟩ := h.second.step H chip h.same.polled'.settled
  obtain ⟨hobserved, hnext⟩ := Machine.act_same H chip .step _ _ (ready_same h.same session session')
  have hobserved : ((d.ready session).machine.step H chip).1.observed = ((d'.ready session').machine.step H chip).1.observed :=
    Option.some.inj hobserved
  have hbefore : l.before = r.before := by
    have hsame := congrArg Observed.before hobserved
    exact Option.some.inj (hleft.before.symm.trans (hsame.trans hright.before))
  have hafter : l.after = r.after := by
    have hsame := congrArg Observed.after hobserved
    exact Option.some.inj (hleft.after.symm.trans (hsame.trans hright.after))
  have hinstruction : l.instruction = r.instruction := by
    have hdecode := decode_twins h.leftPeek h.rightPeek h.same.opened.host r.before
    have hdecodes := DebugSession.step_decodes hl
    rw [hbefore, hdecode, DebugSession.step_decodes hr] at hdecodes
    exact (Except.ok.inj hdecodes).symm
  refine ⟨l, r, _, _, hl, hr, ?_, hrecording, hrecording', hnext, h.leftPeek, h.rightPeek⟩
  refine ⟨?_, ?_, by rw [hinstruction], fun i hi j hj => ?_, hbefore, hafter, fun a ha b hb => ?_⟩
  · rw [hleft.kind, hright.kind, hbefore]
  · rw [hleft.cycles, hright.cycles]
    exact congrArg Observed.cycles hobserved
  · rw [hinstruction] at hi
    obtain rfl := Option.some.inj (hi.symm.trans hj)
    exact ⟨rfl, rfl, rfl, rfl⟩
  · have haccesses {accesses calls : List Access} {tracked : Bool}
        (h : some accesses = if tracked then some calls else none) : accesses = calls := by
      cases tracked with
      | false => cases h
      | true => exact Option.some.inj h
    rw [haccesses (ha.symm.trans hleft.accesses), haccesses (hb.symm.trans hright.accesses)]
    exact congrArg (List.map HostCall.access) (congrArg Observed.trace hobserved)

theorem Twins.alongside (h : Twins peek left right) {lefts rights : List StepRecord} {left' right' : Live (Driven σ)}
    (halong : Alongside (target H chip) (target H chip) left right lefts rights left' right') :
    List.Forall₂ StepRecord.Agree lefts rights ∧ Twins peek left' right' := by
  obtain ⟨hleft, hright, hlength⟩ := halong
  induction lefts generalizing left right rights with
  | nil =>
    obtain rfl := List.length_eq_zero_iff.mp hlength.symm
    obtain ⟨session, d⟩ := left
    obtain ⟨session', d'⟩ := right
    cases hleft
    cases hright
    exact ⟨.nil, h⟩
  | cons l lefts ih =>
    cases rights with
    | nil => cases hlength
    | cons r rights =>
      obtain ⟨l', r', next, next', hl, hr, hagree, hnext⟩ := h.step H chip
      cases hleft with
      | step hstep hrest =>
        cases hright with
        | step hstep' hrest' =>
          rw [hl] at hstep
          rw [hr] at hstep'
          cases hstep
          cases hstep'
          obtain ⟨hrecords, hend⟩ := ih hnext hrest hrest' (Nat.succ.inj hlength)
          exact ⟨.cons hagree hrecords, hend⟩

theorem Twins.never_diverge (h : Twins peek left right) {maxSteps : ℤ} (hpos : 0 < maxSteps) :
    (firstSessionDivergence (target H chip) (target H chip) maxSteps left right).1 = .ok none := by
  have hlockstep := firstSessionDivergence_lockstep (target H chip) (target H chip) hpos left right
  generalize firstSessionDivergence (target H chip) (target H chip) maxSteps left right = result at hlockstep ⊢
  cases hlockstep with
  | agreed halong hfirst hall => rfl
  | diverged halong hfirst hlast hwithin =>
    have hnone := (firstTraceDivergence_none_iff _ _).mpr (h.alongside H chip halong).1
    rw [firstTraceDivergence_eq] at hnone
    exact absurd (hfirst.symm.trans hnone) (by simp)
  | leftRaised halong hfirst hwithin hraised =>
    obtain ⟨_, _, _, _, hstep, -⟩ := (h.alongside H chip halong).2.step H chip
    rw [hstep] at hraised
    cases hraised
  | rightRaised halong hfirst hwithin hstep hraised =>
    obtain ⟨_, _, _, _, -, hstep', -⟩ := (h.alongside H chip halong).2.step H chip
    rw [hstep'] at hraised
    cases hraised

end Driven

/-! ## A run's records, and its end -/

namespace Machine
variable {σ : Type} {m c : Machine σ}

theorem Bare.polled (h : m.Bare c) (hsettled : m.Settled) (hc : c.Polled) : m.Polled := by
  have hpoll : m.cpu.poll = c.cpu.poll := congrArg Plain.poll h.opened
  exact ⟨hsettled, hpoll ▸ hc.sound⟩

theorem Bare.polledFlag (h : m.Bare c) (hc : c.cpu.core.PolledFlag) : m.cpu.core.PolledFlag := by
  have hcore : m.cpu.core = c.cpu.core := congrArg Plain.core h.opened
  exact hcore ▸ hc

end Machine

namespace Driven
variable {σ : Type} (H : Host σ) (chip : Chip)

/-- A session's records that its trace gives back, the last of them with what its processor is captured as. -/
structure Resumable (begun : DebugSession (Driven σ)) (readByte writeByte : Callable)
    (session : DebugSession (Driven σ)) (d : Driven σ) (records : List StepRecord) : Prop where
  recording : Recording ⟨session, d⟩
  polled : d.machine.Polled
  polledFlag : d.machine.cpu.core.PolledFlag
  reads : d.machine.cpu.bus.readByte = readByte
  writes : d.machine.cpu.bus.writeByte = writeByte
  peek : session.peekByte = begun.peekByte
  faithful : ∀ record ∈ records, record.Faithful
  last : ∀ record ∈ records.getLast?, d.machine.cpu.captureState = some record.after

theorem Resumable.step {begun session : DebugSession (Driven σ)} {readByte writeByte : Callable} {d : Driven σ}
    {records : List StepRecord} (h : Resumable begun readByte writeByte session d records) :
    ∃ record d', session.step (target H chip) d = (.ok record, session.recorded record, d') ∧
      Resumable begun readByte writeByte (session.recorded record) d' (records ++ [record]) := by
  obtain ⟨record, hstep, hevidence, hrecording⟩ := h.recording.step H chip h.polled.settled
  have hcpu := d.ready_cpu session
  have hpolled : (d.ready session).machine.Polled := by
    constructor
    · rw [Machine.Settled, hcpu]
      exact h.polled.settled
    · rw [hcpu]
      exact h.polled.sound
  have hpolledFlag : (d.ready session).machine.cpu.Routed ∧ (d.ready session).machine.cpu.core.PolledFlag := by
    rw [hcpu]
    exact ⟨h.polled.settled.1, h.polledFlag⟩
  obtain ⟨hreads, hwrites⟩ := Machine.act_callables H chip .step hpolled.settled.1
  rw [hcpu] at hreads hwrites
  refine ⟨record, _, hstep, hrecording, Machine.act_polled H chip .step _ hpolled,
    (Machine.act_polledFlag H chip .step _ hpolledFlag).2, hreads.trans h.reads, hwrites.trans h.writes, h.peek, ?_, ?_⟩
  · intro other hmem
    rcases List.mem_append.mp hmem with hmem | hmem
    · exact h.faithful other hmem
    · rw [List.mem_singleton.mp hmem]
      exact DebugSession.step_faithful hstep
  · intro last hlast
    rw [List.getLast?_concat, Option.mem_some_iff] at hlast
    rw [← hlast]
    exact hevidence.after

theorem Resumable.run {session : DebugSession (Driven σ)} {readByte writeByte : Callable} {d : Driven σ}
    (h : Resumable session readByte writeByte session d []) (maxSteps : ℤ) (maxCycles : Option ℤ) (stopOnHalt : Bool) :
    let ran := session.run (target H chip) maxSteps maxCycles stopOnHalt d
    Resumable session readByte writeByte ran.session ran.target ran.records := by
  apply DebugSession.run_keeps (J := Resumable session readByte writeByte) _ _ maxSteps maxCycles stopOnHalt h
  · intro session' d' records h'
    obtain ⟨record, d'', hstep, -⟩ := h'.step H chip
    exact ⟨record.before, (DebugSession.step_inv hstep).1⟩
  · intro session' d' records h'
    exact h'.step H chip

end Driven

/-! ## Resuming -/

namespace Bench
variable {σ : Type} (H : Host σ) (chip : Chip)

theorem resumable (readByte writeByte : ℕ) (host : σ) (schedule : List (Command σ)) {place : ℕ}
    {session : DebugSession (Driven σ)} :
    let b := (act H chip).final { machine := .start (.host readByte) (.host writeByte) host } schedule
    b.sessions[place]? = some session →
      Driven.Resumable session (chain readByte b.sessions) (chain writeByte b.sessions) session
        { machine := b.machine } [] := by
  intro b hat
  have hstart : (bare readByte writeByte {} host).Sound readByte writeByte := bare_sound readByte writeByte {} host
  have hb : b.Sound readByte writeByte := System.final_preserves (act_sound H chip) hstart schedule
  obtain ⟨-, hbare⟩ := schedule_bare H chip schedule hstart (.refl hstart.settled.1)
  have hcount (h : session.tracking = true) (callable : ℕ) : (chain callable b.sessions).count session.id = 1 :=
    hb.stacked.count (List.mem_of_getElem? hat) h
  have hpolled := System.final_preserves (Machine.act_polled H chip)
    (Machine.start_polled (.host readByte) (.host writeByte) host)
    (((act H chip).shown (bare readByte writeByte {} host) schedule).flatMap Shown.actions)
  have hflag := System.final_preserves (Machine.act_polledFlag H chip)
    (⟨.init (.host readByte) (.host writeByte), by intro i hi; cases hi⟩ :
      (Machine.start (.host readByte) (.host writeByte) host).cpu.Routed ∧
        (Machine.start (.host readByte) (.host writeByte) host).cpu.core.PolledFlag)
    (((act H chip).shown (bare readByte writeByte {} host) schedule).flatMap Shown.actions)
  refine ⟨⟨hb.fit, fun h => ?_⟩, hbare.polled hb.settled hpolled, hbare.polledFlag hflag.2, hb.reads, hb.writes, rfl, ?_, ?_⟩
  · show b.machine.cpu.bus.readByte.count session.id = 1 ∧ b.machine.cpu.bus.writeByte.count session.id = 1
    rw [hb.reads, hb.writes]
    exact ⟨hcount h readByte, hcount h writeByte⟩
  · exact List.forall_mem_nil _
  · intro last hlast
    cases hlast

/-- Another processor, restored to a state, with a session of its own. -/
def resumed (d : Machine σ) (state : CPUState) (options : Options σ) : Bench σ :=
  attach options { machine := { d with cpu := d.cpu.restoreState state } }

theorem resumed_sound {readByte writeByte : ℕ} {d : Machine σ} (hread : d.cpu.bus.readByte = .host readByte)
    (hwrite : d.cpu.bus.writeByte = .host writeByte) (state : CPUState) (options : Options σ) :
    (resumed d state options).Sound readByte writeByte := by
  apply Sound.attach
  have hrouted : (d.cpu.restoreState state).Routed := .restoreState _ _
  refine ⟨⟨hrouted, rfl⟩, ⟨hrouted, CPU.restoreState_valid _ _⟩, hread, hwrite, trivial, ?_⟩
  intro session hmem
  cases hmem

/-- The processor that the state after the last record is restored to is as the one that made it. -/
theorem resumed_same {begun session : DebugSession (Driven σ)} {readByte writeByte : ℕ}
    {sessions : List (DebugSession (Driven σ))} {c : Driven σ} {records : List StepRecord} {last : StepRecord}
    (h : Driven.Resumable begun (chain readByte sessions) (chain writeByte sessions) session c records)
    (hlast : last ∈ records.getLast?) {d : Machine σ} (hhost : d.host = c.machine.host)
    (hdma : d.cpu.dmaStalled = c.machine.cpu.dmaStalled) (hread : d.cpu.bus.readByte = .host readByte)
    (hwrite : d.cpu.bus.writeByte = .host writeByte) (options : Options σ) :
    (resumed d last.after options).machine.Same c.machine := by
  have hsame : ({ d with cpu := d.cpu.restoreState last.after } : Machine σ).Same c.machine := by
    apply Machine.restored_same h.polled h.polledFlag (h.last last hlast) hdma hhost
    · rw [hread, h.reads, base_chain]
      rfl
    · rw [hwrite, h.writes, base_chain]
      rfl
  have hbare : (resumed d last.after options).machine.Bare { d with cpu := d.cpu.restoreState last.after } :=
    attach_bare options (.refl hsame.polled.settled.1)
  refine ⟨hbare.polled (resumed_sound hread hwrite last.after options).settled hsame.polled, hsame.polled', ?_⟩
  rw [hbare.opened]
  exact hsame.opened

/-- **A trace is resumed where it ends.** A session's run is written and read back as its records, and from the
last of them another processor over the same host goes on: a session on it that peeks alike makes the records that
the first session goes on to make, however many. -/
theorem trace_resumes (repr : Json.Value → Except Json.Raised String) (dumps : Json.Value → List Char)
    (loads : List Char → Except Raised Json.Value) (readByte writeByte : ℕ) (host : σ) (schedule : List (Command σ))
    (place : ℕ) (session : DebugSession (Driven σ)) (maxSteps : ℤ) (maxCycles : Option ℤ) (stopOnHalt : Bool)
    (options : Options σ) (d : Machine σ) :
    let b := (act H chip).final { machine := .start (.host readByte) (.host writeByte) host } schedule
    let ran := session.run (Driven.target H chip) maxSteps maxCycles stopOnHalt { machine := b.machine }
    b.sessions[place]? = some session →
    (∀ line, line.all isSpace = true → ∃ raised, loads line = .error raised) →
    (∀ record ∈ ran.records, '\n' ∉ dumps (stepRecordToDict record) ∧
      ∃ value, loads (dumps (stepRecordToDict record) ++ ['\n']) = .ok value ∧
        Json.Same value (stepRecordToDict record)) →
    session.peekByte = options.peekByte.map (fun peek d => peek d.machine.host) →
    d.host = ran.target.machine.host → d.cpu.dmaStalled = ran.target.machine.cpu.dmaStalled →
    d.cpu.bus.readByte = .host readByte → d.cpu.bus.writeByte = .host writeByte →
    let read := readTrace repr loads (writeTrace dumps ran.records).1
    read = (ran.records, none) ∧
      ∀ last ∈ read.1.getLast?, ∀ again ∈ (resumed d last.after options).sessions, ∀ budget : ℤ, 0 < budget →
        (firstSessionDivergence (Driven.target H chip) (Driven.target H chip) budget
          (again, { machine := (resumed d last.after options).machine }) (ran.session, ran.target)).1 = .ok none := by
  intro b ran hat hblank hjson hpeek hhost hdma hread hwrite read
  have hran : Driven.Resumable session (chain readByte b.sessions) (chain writeByte b.sessions)
      ran.session ran.target ran.records :=
    (resumable H chip readByte writeByte host schedule hat).run H chip maxSteps maxCycles stopOnHalt
  have hrecords : read = (ran.records, none) := by
    show readTrace repr loads (writeTrace dumps ran.records).1 = (ran.records, none)
    rw [writeTrace_eq, readTrace]
    exact readLines_written repr hblank ran.records 1 hran.faithful hjson
  refine ⟨hrecords, fun last hlast again hagain budget hbudget => ?_⟩
  rw [hrecords] at hlast
  have hsound := resumed_sound hread hwrite last.after options
  have hrecording : Driven.Recording (again, { machine := (resumed d last.after options).machine }) := by
    refine ⟨hsound.fit, fun htracking => ?_⟩
    show (resumed d last.after options).machine.cpu.bus.readByte.count again.id = 1 ∧
      (resumed d last.after options).machine.cpu.bus.writeByte.count again.id = 1
    rw [hsound.reads, hsound.writes]
    exact ⟨hsound.stacked.count hagain htracking, hsound.stacked.count hagain htracking⟩
  have htwins : Driven.Twins options.peekByte (again, { machine := (resumed d last.after options).machine })
      (ran.session, ran.target) := by
    refine ⟨hrecording, hran.recording, resumed_same hran hlast hhost hdma hread hwrite options, ?_, hran.peek.trans hpeek⟩
    rw [List.mem_singleton.mp hagain]
  exact htwins.never_diverge H chip hbudget

/-- A processor made over those two instructions, with a session that tracks. -/
def wrappingBench : Bench (ℕ → Byte) :=
  (act .flat mos6502).final { machine := .start (.host 0) (.host 0) wrapping }
    [.attach { peekByte := some fun memory => memory, trackAccesses := true }]

/-- Its session. -/
def wrappingSession : DebugSession (Driven (ℕ → Byte)) where
  id := 0
  peekByte := some fun d => d.machine.host
  originals := some (.host 0, .host 0)

set_option maxRecDepth 10000 in
theorem trace_resumes_wrapping :
    let ran := wrappingSession.run (Driven.target .flat mos6502) 2 none true { machine := wrappingBench.machine }
    let read := readTrace (fun _ => .ok "") loadsWrapping (writeTrace dumpsWrapping ran.records).1
    let d : Machine (ℕ → Byte) := { cpu := .init (.host 0) (.host 0), host := ran.target.machine.host }
    read = ([jumped, called], none) ∧
      ∀ again ∈ (resumed d called.after { peekByte := some fun memory => memory }).sessions, ∀ budget : ℤ,
        0 < budget → (firstSessionDivergence (Driven.target .flat mos6502) (Driven.target .flat mos6502) budget
          (again, { machine := (resumed d called.after { peekByte := some fun memory => memory }).machine })
          (ran.session, ran.target)).1 = .ok none := by
  intro ran read d
  have hrecords : ran.records = [jumped, called] := by decide +kernel
  have hdma : ran.target.machine.cpu.dmaStalled = false := by decide +kernel
  have hjson (record : StepRecord) (hmem : record ∈ ran.records) := json_wrapping record (hrecords ▸ hmem)
  obtain ⟨hread, hresumes⟩ := trace_resumes .flat mos6502 (fun _ => .ok "") dumpsWrapping loadsWrapping 0 0 wrapping
    [.attach { peekByte := some fun memory => memory, trackAccesses := true }] 0 wrappingSession 2 none true
    { peekByte := some fun memory => memory } d rfl loadsWrapping_blank hjson rfl rfl hdma.symm rfl rfl
  have hread : read = ([jumped, called], none) := hread.trans (congrArg (·, none) hrecords)
  have hlast : read.1.getLast? = some called := by rw [hread]; rfl
  exact ⟨hread, hresumes called hlast⟩

end Bench

end SixFiveOhTwo
