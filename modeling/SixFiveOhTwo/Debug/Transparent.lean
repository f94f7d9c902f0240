import SixFiveOhTwo.Debug.Driving

/-! # Debugging is transparent

A bench whose sessions are wired as they say (`Bench.Sound`) shows, under every schedule, what the bare
processor shows under the actions of the schedule; each record is evidence of its step; and the callables are
those of the sessions that track.
-/

namespace SixFiveOhTwo
open Bits Interaction
set_option autoImplicit false

variable {σ : Type}

/-- A bench whose callables are its host's within the wrappers of the sessions that track. -/
structure Bench.Sound (readByte writeByte : ℕ) (b : Bench σ) : Prop where
  settled : b.machine.Settled
  fit : b.machine.Fit
  reads : b.machine.cpu.bus.readByte = chain readByte b.sessions
  writes : b.machine.cpu.bus.writeByte = chain writeByte b.sessions
  stacked : Stacked readByte writeByte b.sessions
  fresh : ∀ session ∈ b.sessions, session.id < b.next

/-- A session does nothing but steps, and its records are evidence of them. -/
def Shown.Recorded : Shown σ → Prop
  | drove tracked actions events records => actions = List.replicate records.length .step ∧
    List.Forall₂ (fun event record => ∃ log, event = .stepped log ∧ record.Evidence tracked log) events records
  | _ => True

/-! ## Attaching and closing -/

namespace Machine

theorem Bare.wrapBus {m c : Machine σ} (h : m.Bare c) (session : ℕ) : (m.wrapBus session).Bare c :=
  ⟨(h.routed.setReadByte _).setWriteByte _, h.routed', h.opened⟩

/-- Callables around the same host's are the same for a bare machine. -/
theorem Bare.unwrapBus {m c : Machine σ} (h : m.Bare c) {originals : Callable × Callable}
    (hread : originals.1.base = m.cpu.bus.readByte.base) (hwrite : originals.2.base = m.cpu.bus.writeByte.base) :
    (m.unwrapBus originals).Bare c := by
  refine ⟨(h.routed.setReadByte _).setWriteByte _, h.routed', ?_⟩
  rw [← h.opened]
  exact congrArg₂ (fun r w => { m.opened with readByte := r, writeByte := w }) hread hwrite

end Machine

theorem base_chain {τ : Type} (host : ℕ) (sessions : List (DebugSession τ)) : (chain host sessions).base = host := by
  induction sessions with
  | nil => rfl
  | cons session sessions ih =>
    rw [chain]
    split
    · exact ih
    · exact ih

namespace Bench
variable {readByte writeByte : ℕ} {b : Bench σ}

theorem Sound.attach (h : b.Sound readByte writeByte) (options : Options σ) :
    (b.attach options).Sound readByte writeByte := by
  have hnew : b.next ∉ b.sessions.map DebugSession.id := by
    intro hmem
    obtain ⟨session, hsession, hid⟩ := List.mem_map.mp hmem
    exact absurd (h.fresh session hsession) (by rw [hid]; exact lt_irrefl _)
  have hfresh : ∀ session ∈ (b.attach options).sessions, session.id < b.next + 1 := by
    intro session hmem
    rcases List.mem_cons.mp hmem with rfl | hmem
    · exact Nat.lt_succ_self _
    · exact Nat.lt_succ_of_lt (h.fresh session hmem)
  cases htrack : options.trackAccesses with
  | false =>
    have hmachine : (b.attach options).machine = b.machine := by rw [Bench.attach, htrack]; rfl
    refine ⟨hmachine ▸ h.settled, hmachine ▸ h.fit, ?_, ?_, ⟨?_, hnew, h.stacked⟩, hfresh⟩
    · rw [hmachine, h.reads, Bench.attach, htrack]
      rfl
    · rw [hmachine, h.writes, Bench.attach, htrack]
      rfl
    · intro originals horiginals
      rw [htrack] at horiginals
      cases horiginals
  | true =>
    have hmachine : (b.attach options).machine = b.machine.wrapBus b.next := by rw [Bench.attach, htrack]; rfl
    have hrouted := (h.settled.1.setReadByte (.tracked b.next b.machine.cpu.bus.readByte)).setWriteByte
      (.tracked b.next b.machine.cpu.bus.writeByte)
    refine ⟨hmachine ▸ ⟨hrouted, h.settled.2⟩, hmachine ▸ ⟨hrouted, h.fit.2⟩, ?_, ?_, ⟨?_, hnew, h.stacked⟩, hfresh⟩
    · rw [hmachine, Bench.attach, htrack]
      exact congrArg (Callable.tracked b.next) h.reads
    · rw [hmachine, Bench.attach, htrack]
      exact congrArg (Callable.tracked b.next) h.writes
    · intro originals horiginals
      rw [htrack, h.reads, h.writes] at horiginals
      exact (Option.some.inj horiginals).symm

theorem Sound.close (h : b.Sound readByte writeByte) : b.close.Sound readByte writeByte := by
  unfold Bench.close
  split
  case h_2 => exact h
  case h_1 originals sessions huntracked =>
    obtain ⟨hstacked, rfl, hids⟩ := untracked_spec h.stacked huntracked
    have hrouted := (h.settled.1.setReadByte (chain readByte sessions)).setWriteByte (chain writeByte sessions)
    refine ⟨⟨hrouted, h.settled.2⟩, ⟨hrouted, h.fit.2⟩, rfl, rfl, hstacked, ?_⟩
    intro session hmem
    have hid : session.id ∈ b.sessions.map DebugSession.id := hids ▸ List.mem_map_of_mem hmem
    obtain ⟨session', hmem', hid'⟩ := List.mem_map.mp hid
    exact hid' ▸ h.fresh session' hmem'

theorem attach_bare (options : Options σ) {c : Machine σ} (hc : b.machine.Bare c) : (b.attach options).machine.Bare c := by
  unfold Bench.attach
  dsimp only
  split
  · exact hc.wrapBus b.next
  · exact hc

theorem Sound.close_bare (h : b.Sound readByte writeByte) {c : Machine σ} (hc : b.machine.Bare c) :
    b.close.machine.Bare c := by
  unfold Bench.close
  split
  case h_2 => exact hc
  case h_1 originals sessions huntracked =>
    obtain ⟨-, rfl, -⟩ := untracked_spec h.stacked huntracked
    refine hc.unwrapBus ?_ ?_
    · rw [h.reads, base_chain, base_chain]
    · rw [h.writes, base_chain, base_chain]

/-! ## Commands -/

variable (H : Host σ) (chip : Chip)

/-- A session of a sound bench drives its machine as a bare one is driven. -/
theorem Sound.driving (h : b.Sound readByte writeByte) {place : ℕ} {session : DebugSession (Driven σ)}
    (hat : b.sessions[place]? = some session) {c : Machine σ} (hc : b.machine.Bare c) (command : SessionCommand) :
    let done := command.perform (Driven.target H chip) session { machine := b.machine }
    Driving H chip session c (chain readByte b.sessions) (chain writeByte b.sessions) done.2.1 done.2.2 done.1 := by
  intro done
  have hmem := List.mem_of_getElem? hat
  have hbegin : Driving H chip session c (chain readByte b.sessions) (chain writeByte b.sessions) session
      { machine := b.machine } [] :=
    ⟨.refl session, h.settled, h.fit, h.reads, h.writes, hc, rfl, rfl, .nil⟩
  exact hbegin.perform (fun htracking => ⟨h.stacked.count hmem htracking, h.stacked.count hmem htracking⟩) command

theorem act_sound (command : Command σ) (b : Bench σ) (h : b.Sound readByte writeByte) :
    (act H chip command b).2.Sound readByte writeByte := by
  cases command with
  | act action =>
    obtain ⟨hreads, hwrites⟩ := Machine.act_callables H chip action h.settled.1
    exact ⟨Machine.act_settled H chip action _ h.settled, Machine.act_fit H chip action _ h.fit,
      hreads.trans h.reads, hwrites.trans h.writes, h.stacked, h.fresh⟩
  | attach options => exact h.attach options
  | close => exact h.close
  | session place command =>
    rw [act]
    split
    case h_1 => exact h
    case h_2 session hat =>
      have hdriving := h.driving H chip hat (.refl h.settled.1) command
      refine ⟨hdriving.settled, hdriving.fit, ?_, ?_, h.stacked.set hat hdriving.wiring, ?_⟩
      · exact hdriving.reads.trans (chain_set hat hdriving.wiring).symm
      · exact hdriving.writes.trans (chain_set hat hdriving.wiring).symm
      · intro session' hmem
        have hid : session'.id ∈ b.sessions.map DebugSession.id :=
          ids_set hat hdriving.wiring ▸ List.mem_map_of_mem hmem
        obtain ⟨session'', hmem', hid'⟩ := List.mem_map.mp hid
        exact hid' ▸ h.fresh session'' hmem'

/-- A command shows what its actions show on a bare machine. -/
theorem act_bare (command : Command σ) (b : Bench σ) (h : b.Sound readByte writeByte) {c : Machine σ}
    (hc : b.machine.Bare c) :
    (act H chip command b).1.events.map Event.observed =
        ((Machine.act H chip).shown c (act H chip command b).1.actions).map Event.observed ∧
      (act H chip command b).2.machine.Bare ((Machine.act H chip).final c (act H chip command b).1.actions) := by
  cases command with
  | act action =>
    obtain ⟨hobserved, hnext⟩ := hc.act H chip action
    exact ⟨congrArg ([·]) hobserved, hnext⟩
  | attach options => exact ⟨rfl, attach_bare options hc⟩
  | close => exact ⟨rfl, h.close_bare hc⟩
  | session place command =>
    rw [act]
    split
    case h_1 => exact ⟨rfl, hc⟩
    case h_2 session hat =>
      have hdriving := h.driving H chip hat hc command
      exact ⟨hdriving.shown, hdriving.bare⟩

/-- **A schedule shows what its actions show on the bare machine.** -/
theorem schedule_bare (schedule : List (Command σ)) {b : Bench σ} (h : b.Sound readByte writeByte) {c : Machine σ}
    (hc : b.machine.Bare c) :
    (((act H chip).shown b schedule).flatMap Shown.events).map Event.observed =
        ((Machine.act H chip).shown c (((act H chip).shown b schedule).flatMap Shown.actions)).map Event.observed ∧
      ((act H chip).final b schedule).machine.Bare
        ((Machine.act H chip).final c (((act H chip).shown b schedule).flatMap Shown.actions)) := by
  induction schedule generalizing b c with
  | nil => exact ⟨rfl, hc⟩
  | cons command schedule ih =>
    obtain ⟨hshown, hnext⟩ := act_bare H chip command b h hc
    obtain ⟨hrest, hend⟩ := ih (act_sound H chip command b h) hnext
    rw [System.shown_cons, List.flatMap_cons, List.flatMap_cons, System.shown_append, System.final_append,
      List.map_append, List.map_append, hshown, hrest]
    exact ⟨rfl, hend⟩

/-! ## Records -/

theorem act_recorded (command : Command σ) (b : Bench σ) (h : b.Sound readByte writeByte) :
    (act H chip command b).1.Recorded := by
  cases command with
  | act action => exact trivial
  | attach options => exact trivial
  | close => exact trivial
  | session place command =>
    rw [act]
    split
    case h_1 => exact trivial
    case h_2 session hat =>
      have hdriving := h.driving H chip hat (.refl h.settled.1) command
      exact ⟨hdriving.steps, hdriving.records⟩

/-! ## The callables after closing -/

theorem attach_tracking (options : Options σ) (b : Bench σ) :
    (b.attach options).tracking = if options.trackAccesses then b.next :: b.tracking else b.tracking := by
  rw [tracking, Bench.attach, trackingIds_cons]
  cases options.trackAccesses <;> rfl

theorem close_tracking (b : Bench σ) : b.close.tracking = b.tracking.tail := by
  unfold Bench.close
  split
  case h_1 originals sessions huntracked => exact untracked_trackingIds huntracked
  case h_2 hnone => rw [tracking, untracked_none hnone, List.tail_nil]

/-- A command leaves the sessions that track, adds a new one in front, or takes off the newest. -/
theorem act_tracking (command : Command σ) (b : Bench σ) (h : b.Sound readByte writeByte) :
    b.next ≤ (act H chip command b).2.next ∧ ((act H chip command b).2.tracking = b.tracking ∨
      ((act H chip command b).2.tracking = b.next :: b.tracking ∧ b.next < (act H chip command b).2.next) ∨
      (act H chip command b).2.tracking = b.tracking.tail) := by
  cases command with
  | act action => exact ⟨le_rfl, .inl rfl⟩
  | attach options =>
    refine ⟨Nat.le_succ _, ?_⟩
    have hattached := attach_tracking options b
    cases htrack : options.trackAccesses with
    | false =>
      rw [htrack, if_neg (by decide)] at hattached
      exact .inl hattached
    | true =>
      rw [htrack, if_pos rfl] at hattached
      exact .inr (.inl ⟨hattached, Nat.lt_succ_self _⟩)
  | close =>
    refine ⟨?_, .inr (.inr (close_tracking b))⟩
    change b.next ≤ b.close.next
    unfold Bench.close
    split <;> exact le_rfl
  | session place command =>
    rw [act]
    split
    case h_1 => exact ⟨le_rfl, .inl rfl⟩
    case h_2 session hat =>
      have hdriving := h.driving H chip hat (.refl h.settled.1) command
      exact ⟨le_rfl, .inl (trackingIds_set hat hdriving.wiring)⟩

/-- While a session tracks, the sessions that tracked before it still do. -/
def Above (session : ℕ) (before : List ℕ) (b : Bench σ) : Prop :=
  session < b.next ∧
    (session ∈ b.tracking → ∃ upper, session ∉ upper ∧ b.tracking = upper ++ session :: before)

theorem act_above {session : ℕ} {before : List ℕ} (hnew : session ∉ before) (command : Command σ) (b : Bench σ)
    (h : b.Sound readByte writeByte) (habove : b.Above session before) :
    (act H chip command b).2.Above session before := by
  obtain ⟨hlt, hupper⟩ := habove
  obtain ⟨hnext, hsame | ⟨hpushed, -⟩ | hpopped⟩ := act_tracking H chip command b h
  · rw [Above, hsame]
    exact ⟨hlt.trans_le hnext, hupper⟩
  · rw [Above, hpushed]
    refine ⟨hlt.trans_le hnext, fun hmem => ?_⟩
    have hmem' : session ∈ b.tracking := (List.mem_cons.mp hmem).resolve_left (ne_of_lt hlt)
    obtain ⟨upper, hnot, htracking⟩ := hupper hmem'
    refine ⟨b.next :: upper, ?_, by rw [htracking, List.cons_append]⟩
    rw [List.mem_cons, not_or]
    exact ⟨ne_of_lt hlt, hnot⟩
  · rw [Above, hpopped]
    refine ⟨hlt.trans_le hnext, fun hmem => ?_⟩
    obtain ⟨upper, hnot, htracking⟩ := hupper (List.mem_of_mem_tail hmem)
    rw [htracking] at hmem ⊢
    cases upper with
    | nil => exact absurd hmem hnew
    | cons newest upper => exact ⟨upper, fun hu => hnot (List.mem_cons_of_mem _ hu), rfl⟩

theorem Sound.callables_of_tracking (h : b.Sound readByte writeByte) {later : Bench σ}
    (hlater : later.Sound readByte writeByte) (htracking : later.tracking = b.tracking) :
    later.machine.cpu.bus.readByte = b.machine.cpu.bus.readByte ∧
      later.machine.cpu.bus.writeByte = b.machine.cpu.bus.writeByte := by
  rw [h.reads, h.writes, hlater.reads, hlater.writes, chain_eq_foldr, chain_eq_foldr, chain_eq_foldr, chain_eq_foldr]
  rw [tracking, tracking] at htracking
  rw [htracking]
  exact ⟨rfl, rfl⟩

/-- Closing a session brings back the callables from before it was attached. -/
theorem Sound.close_callables (h : b.Sound readByte writeByte) {options : Options σ}
    (htrack : options.trackAccesses = true) (middle : List (Command σ)) {later : Bench σ}
    (hlater : later = (act H chip).final (b.attach options) middle) (hnewest : later.tracking.head? = some b.next) :
    later.close.machine.cpu.bus.readByte = b.machine.cpu.bus.readByte ∧
      later.close.machine.cpu.bus.writeByte = b.machine.cpu.bus.writeByte := by
  have hnew : b.next ∉ b.tracking := by
    intro hmem
    obtain ⟨session, hsession, hid⟩ := List.mem_map.mp hmem
    exact absurd (h.fresh session (List.mem_of_mem_filter hsession)) (by rw [hid]; exact lt_irrefl _)
  have hattached : (b.attach options).tracking = b.next :: b.tracking := by
    rw [attach_tracking, if_pos htrack]
  have hbegin : (b.attach options).Sound readByte writeByte ∧ (b.attach options).Above b.next b.tracking := by
    refine ⟨h.attach options, Nat.lt_succ_self _, fun _ => ⟨[], by simp, ?_⟩⟩
    rw [hattached]
    rfl
  have hend : later.Sound readByte writeByte ∧ later.Above b.next b.tracking := by
    rw [hlater]
    refine System.final_preserves (I := fun later : Bench σ =>
      later.Sound readByte writeByte ∧ later.Above b.next b.tracking)
      ?_ hbegin middle
    exact fun command b hb => ⟨act_sound H chip command b hb.1, act_above H chip hnew command b hb.1 hb.2⟩
  have hmem : b.next ∈ later.tracking := List.mem_of_head? hnewest
  obtain ⟨upper, hnot, htracking⟩ := hend.2.2 hmem
  have hnil : upper = [] := by
    cases upper with
    | nil => rfl
    | cons newest upper =>
      rw [htracking, List.cons_append, List.head?_cons, Option.some.injEq] at hnewest
      exact absurd (hnewest ▸ List.mem_cons_self) hnot
  have hclosed : later.close.tracking = b.tracking := by
    rw [close_tracking, htracking, hnil]
    rfl
  exact h.callables_of_tracking hend.1.close hclosed

/-- A processor with any snapshot restored, on a host's own callables, and no session yet. -/
def bare (readByte writeByte : ℕ) (state : CPUState) (host : σ) : Bench σ where
  machine := .restored (.host readByte) (.host writeByte) state host

theorem bare_sound (readByte writeByte : ℕ) (state : CPUState) (host : σ) :
    (bare readByte writeByte state host).Sound readByte writeByte :=
  ⟨⟨.restoreState _ _, rfl⟩, ⟨.restoreState _ _, CPU.restoreState_valid _ _⟩, rfl, rfl, trivial,
    fun _ hmem => nomatch hmem⟩

/-- **Debugging is transparent.** Under every schedule: the steps' kinds, cycles, host calls and captures, and
what the processor and its host are left as, are those of the bare processor on which the schedule's actions were
done; every record of a session is evidence of its step, its accesses being the host calls when the session
tracks; and a session that is closed gives back the callables from before it, as do sessions that never track. -/
theorem debugging_transparent (readByte writeByte : ℕ) (state : CPUState) (host : σ) (schedule : List (Command σ)) :
    let start := bare readByte writeByte state host
    let shown := (act H chip).shown start schedule
    let actions := shown.flatMap Shown.actions
    let b := (act H chip).final start schedule
    let c := (Machine.act H chip).final start.machine actions
    ((shown.flatMap Shown.events).map Event.observed =
        ((Machine.act H chip).shown start.machine actions).map Event.observed ∧
      b.machine.cpu.captureState = c.cpu.captureState ∧ b.machine.opened = c.opened) ∧
    (∀ tracked steps events records, .drove tracked steps events records ∈ shown →
      steps = List.replicate records.length .step ∧
      List.Forall₂ (fun event record => ∃ log, event = .stepped log ∧ record.Evidence tracked log)
        events records) ∧
    (∀ options middle, options.trackAccesses = true →
      let later := (act H chip).final (b.attach options) middle
      later.tracking.head? = some b.next →
        later.close.machine.cpu.bus.readByte = b.machine.cpu.bus.readByte ∧
          later.close.machine.cpu.bus.writeByte = b.machine.cpu.bus.writeByte) ∧
    ∀ middle, ((act H chip).final b middle).tracking = b.tracking →
      ((act H chip).final b middle).machine.cpu.bus.readByte = b.machine.cpu.bus.readByte ∧
        ((act H chip).final b middle).machine.cpu.bus.writeByte = b.machine.cpu.bus.writeByte := by
  intro start shown actions b c
  have hstart : start.Sound readByte writeByte := bare_sound readByte writeByte state host
  have hb : b.Sound readByte writeByte := System.final_preserves (act_sound H chip) hstart schedule
  obtain ⟨hobserved, hbare⟩ := schedule_bare H chip schedule hstart (.refl hstart.settled.1)
  refine ⟨⟨hobserved, hbare.captureState, hbare.opened⟩, ?_, ?_, ?_⟩
  · intro tracked steps events records hmem
    exact System.shown_forall (act_sound H chip) (act_recorded H chip) hstart schedule _ hmem
  · intro options middle htrack later hnewest
    exact hb.close_callables H chip htrack middle rfl hnewest
  · intro middle htracking
    have hlater := System.final_preserves (act_sound H chip) hb middle
    exact hb.callables_of_tracking hlater htracking

end Bench

end SixFiveOhTwo
