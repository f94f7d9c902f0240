import SixFiveOhTwo.Polling.Latch

/-! # NMI edges are neither lost nor duplicated

An interrupt sequence loads PC from $FFFA when it is an NMI entry, or a BRK or an IRQ entry that finds
the latch set. Between two steps the latch is visible twice, in the requests and in what was polled:

* `Machine.Quiet`: in neither. Only a new request ends that, so no edge is taken twice.
* an instruction that begins with the latch set polls it, so no edge is passed over twice.
-/

namespace SixFiveOhTwo
open Bits Interaction
set_option autoImplicit false

/-- The NMI latch is set. -/
abbrev Latched (requests : ℕ) : Prop := requests &&& nmiLatch ≠ 0

/-! ## What sets and clears the latch -/

theorem latched_or (a b : ℕ) : Latched (a ||| b) ↔ Latched a ∨ Latched b := by
  rw [Latched, Nat.and_or_distrib_right, ne_eq, Nat.or_eq_zero_iff, not_and_or]

theorem latched_without_irq (a : ℕ) : Latched (without a irqLine) ↔ Latched a := by
  rw [Latched, without_and_of_disjoint (by decide)]

theorem not_latched_without (a : ℕ) : ¬Latched (without a nmiLatch) := fun h => h (without_and_self a nmiLatch)

/-- Only a release of NMI clears the latch. -/
theorem latched_keeps {call : Call} (h : call ≠ .clearNonMaskableInterrupt) : call.Keeps Latched := by
  intro r hr
  cases call with
  | requestMaskableInterrupt => exact (latched_or r irqLine).mpr (.inl hr)
  | clearMaskableInterrupt => exact (latched_without_irq r).mpr hr
  | requestNonMaskableInterrupt => exact (latched_or r nmiLatch).mpr (.inl hr)
  | clearNonMaskableInterrupt => exact absurd rfl h
  | _ => exact hr

/-- Only a request of NMI sets it. -/
theorem unlatched_keeps {call : Call} (h : call ≠ .requestNonMaskableInterrupt) :
    call.Keeps fun r => ¬Latched r := by
  intro r hr
  cases call with
  | requestMaskableInterrupt =>
    refine fun h' => hr (((latched_or r irqLine).mp h').resolve_right ?_)
    decide
  | clearMaskableInterrupt => exact fun h' => hr ((latched_without_irq r).mp h')
  | requestNonMaskableInterrupt => exact absurd rfl h
  | clearNonMaskableInterrupt => exact not_latched_without r
  | _ => exact hr

theorem unlatched_or (a b : ℕ) (ha : ¬Latched a) (hb : ¬Latched b) : ¬Latched (a ||| b) :=
  fun h => ((latched_or a b).mp h).elim ha hb

theorem unlatches_keeps (r r' : ℕ) (h : Unlatches r r') (hr : ¬Latched r) : ¬Latched r' := by
  rcases h with rfl | rfl
  · exact hr
  · exact not_latched_without r

/-! ## Loads of PC from $FFFA -/

def Entry.isBrk : Entry → Bool
  | implied .brk _ => true
  | _ => false

/-- The calls that the callbacks of a record make. -/
def callsOf (t : List HostCall) : List Call := t.flatMap HostCall.calls

theorem unlatched_callsOf {t : List HostCall} (h : .requestNonMaskableInterrupt ∉ callsOf t) :
    ∀ c ∈ t, ∀ call ∈ c.calls, Call.Keeps (fun r => ¬Latched r) call := by
  intro c hc call hcall
  exact unlatched_keeps fun he => h (List.mem_flatMap.mpr ⟨c, hc, he ▸ hcall⟩)

theorem latched_callsOf {t : List HostCall} (h : .clearNonMaskableInterrupt ∉ callsOf t) :
    ∀ c ∈ t, ∀ call ∈ c.calls, Call.Keeps Latched call := by
  intro c hc call hcall
  exact latched_keeps fun he => h (List.mem_flatMap.mpr ⟨c, hc, he ▸ hcall⟩)

/-- The calls made during an event. -/
def Event.calls : Event → List Call
  | called call => [call]
  | moved => []
  | stepped log => callsOf log.trace

def Event.isStep : Event → Bool
  | stepped _ => true
  | _ => false

namespace Machine.StepLog

/-- The step is an interrupt sequence. -/
def Enters (log : StepLog) : Prop :=
  log.kind = .nmi ∨ log.kind = .irq ∨ log.kind = .instruction ∧ (opcodes (opcodeOf log.trace)).isBrk

instance (log : StepLog) : Decidable log.Enters := inferInstanceAs (Decidable (_ ∨ _))

/-- The step loads PC from $FFFA: it is an interrupt sequence, and its vector fetch is from there. -/
def LoadsNmi (log : StepLog) : Prop :=
  log.Enters ∧ (log.trace.map fun c => c.access.shape)[5]? = some (false, vectorNmi)

instance (log : StepLog) : Decidable log.LoadsNmi := inferInstanceAs (Decidable (_ ∧ _))

/-- How many accesses an interrupt sequence has made when it takes the latch. -/
def takenAfter (log : StepLog) : ℕ := if log.kind = .nmi then 2 else 4

/-- How many accesses it has made when its vector is decided: an NMI entry is decided at its
boundary. -/
def decidedAfter (log : StepLog) : ℕ := if log.kind = .nmi then 0 else 4

end Machine.StepLog

/-! ## The two shapes of a step -/

theorem vector_shape {vector : ℕ} {t u : List HostCall} (ht : t.length = 4) (hvec : Poll.Vectors vector u) :
    ((t ++ u).map fun c => c.access.shape)[5]? = some (false, vector) := by
  obtain ⟨value, hlow⟩ := hvec.low
  have hfive : ((t ++ u).map HostCall.access)[5]? = some (.r vector value) := by
    rw [List.map_append, List.getElem?_append_right (by rw [List.length_map]; omega), List.length_map, ht]
    exact hlow
  have hshape : ((t ++ u).map fun c => c.access.shape)[5]? =
      (((t ++ u).map HostCall.access)[5]?).map Access.shape := by
    rw [← List.getElem?_map, List.map_map]
    rfl
  rw [hshape, hfive]
  rfl

namespace Poll
variable {c : Core} {p p' : Poll} {kind : BoundaryKind} {t : List HostCall}

/-- A BRK or an IRQ entry is a frame: four accesses, the choice of its vector, and three more. -/
theorem Step.frame (hstep : Step c p kind t p')
    (h : kind = .irq ∨ kind = .instruction ∧ (opcodes (opcodeOf t)).isBrk) :
    ∃ t₁ u, t = t₁ ++ u ∧ t₁.length = 4 ∧ p.forget.Records t₁ ∧
      Vectors (p.forget.accesses t₁).vector u ∧ (p.forget.accesses t₁).vectored.Records u ∧
      p' = ((p.forget.accesses t₁).vectored.accesses u).skipped := by
  cases hstep with
  | irq t₁ u hlen ht hvec hu => exact ⟨t₁, u, rfl, hlen, ht, hvec, hu, rfl⟩
  | brk opcode cycles hop t₁ u hlen hopcode ht hvec hu => exact ⟨t₁, u, rfl, hlen, ht, hvec, hu, rfl⟩
  | branch opcode handler cycles hop hb d e u hopcode hd he p'' hu =>
    have hbrk := (h.resolve_left (by simp)).2
    rw [opcodeOf_eq (by rw [List.map_cons, hopcode]; rfl), hop] at hbrk
    cases handler <;> first | (cases hbrk; done) | cases hb
  | other opcode hbrk hb t₁ hlen hopcode ht =>
    have hbrk' := (h.resolve_left (by simp)).2
    rw [opcodeOf_eq hopcode] at hbrk'
    cases hop : opcodes opcode with
    | addressed handler mode cycles => simp [hop, Entry.isBrk] at hbrk'
    | implied handler cycles =>
      rw [hop] at hbrk'
      cases handler <;> first | (cases hbrk'; done) | exact absurd hop (hbrk cycles)
  | reset | jamIdle | nmi => simp at h

/-- An instruction other than BRK leaves the latch to the calls, and polls a sample of its record. -/
theorem Step.instruction (hs : p.Sound) (hstep : Step c p .instruction t p')
    (h : (opcodes (opcodeOf t)).isBrk = false) :
    Threads Eq p.requests t ∧ 2 ≤ t.length ∧ ∃ v, (opcodes (opcodeOf t)).sample t = some v ∧
      p'.known = some v := by
  obtain ⟨opcode, hopcode, hknown⟩ := hstep.known hs
  rw [opcodeOf_eq hopcode] at h ⊢
  have hsample : ∃ v, (opcodes opcode).sample t = some v := by
    cases hop : opcodes opcode with
    | addressed handler mode cycles => exact ⟨_, rfl⟩
    | implied handler cycles =>
      rw [hop] at h
      cases handler <;> first | (cases h; done) | exact ⟨_, rfl⟩
  obtain ⟨v, hv⟩ := hsample
  have hpolls : ∃ v, (opcodes opcode).sample t = some v ∧ p'.known = some v := ⟨v, hv, hknown.trans hv⟩
  cases hstep with
  | brk opcode' cycles hop t₁ u hlen hopcode' ht hvec hu =>
    rw [known_skipped] at hknown
    exact absurd (hknown.trans hv) (by simp)
  | branch opcode' handler cycles hop hb d e u hopcode' hd he p'' hu =>
    exact ⟨(branch_threads (p := p.forget) hd he hu).1, by simp, hpolls⟩
  | other opcode' hbrk hb t₁ hlen hopcode' ht => exact ⟨ht.threads (fun _ => rfl) rfl, hlen, hpolls⟩

/-- A frame whose first accesses leave the latch clear loads from the vector of IRQ. -/
theorem vector_unlatched (h : ¬Latched p.requests) : p.vector = vectorIrq := if_neg h

theorem vector_latched (h : Latched p.requests) : p.vector = vectorNmi := if_pos h

/-- A call does to what the boundary decides on what it does to the requests. -/
theorem known_call (hs : p.Sound) (call : Call) : (call.onPoll p).known = p.known.map call.onRequests := by
  have h := congrArg Eager.polled (known_onPoll hs none call)
  refine h.symm.trans ?_
  cases call <;> first | rfl | exact Option.map_id'.symm

theorem known_keeps {Q : ℕ → Prop} {call : Call} (hcall : call.Keeps Q) (hs : p.Sound)
    (hp : ∀ v, p.known = some v → Q v) : ∀ v, (call.onPoll p).known = some v → Q v := by
  intro v hv
  rw [known_call hs, Option.map_eq_some_iff] at hv
  obtain ⟨w, hw, rfl⟩ := hv
  exact hcall w (hp w hw)

theorem known_access_keeps {Q : ℕ → Prop} {calls : List Call} (hcalls : ∀ call ∈ calls, call.Keeps Q)
    (hs : p.Sound) (hp : ∀ v, p.known = some v → Q v) : ∀ v, (p.access calls).known = some v → Q v := by
  have h := @access_keeps (fun p => p.Sound ∧ ∀ v, p.known = some v → Q v)
    (fun p h => ⟨h.1.confirm, h.2⟩) calls
    (fun call hcall p h => ⟨h.1.onPoll call, known_keeps (hcalls call hcall) h.1 h.2⟩) p ⟨hs, hp⟩
  exact h.2

/-! ## The latch clear everywhere -/

/-- The latch is clear in the requests and in what was polled. -/
structure Quiet (p : Poll) : Prop where
  sound : p.Sound
  requests : ¬Latched p.requests
  known : ∀ v, p.known = some v → ¬Latched v

theorem Quiet.onPoll (h : p.Quiet) {call : Call} (hcall : call ≠ .requestNonMaskableInterrupt) :
    (call.onPoll p).Quiet := by
  have hkeeps := unlatched_keeps hcall
  exact ⟨h.sound.onPoll call, call.onPoll_requests p ▸ hkeeps _ h.requests, known_keeps hkeeps h.sound h.known⟩

theorem Quiet.skipped (h : p.Sound) (hr : ¬Latched p.requests) : p.skipped.Quiet := by
  refine ⟨h.skipped, hr, fun v hv => ?_⟩
  rw [known_skipped] at hv
  cases hv

theorem Step.quiet (hstep : Step c p kind t p') (h : p.Quiet)
    (hcalls : .requestNonMaskableInterrupt ∉ callsOf t) : p'.Quiet := by
  have hkeeps := unlatched_callsOf hcalls
  obtain ⟨hthreads, hlast⟩ := hstep.threads
  obtain ⟨hrecorded, hend⟩ := hthreads.recorded unlatches_keeps hkeeps h.requests
  refine ⟨hstep.sound h.sound, hlast ▸ hend, ?_⟩
  have hknown := hstep.known h.sound
  cases kind with
  | reset | nmi | irq =>
    intro v hv
    rw [hknown] at hv
    cases hv
  | jamIdle =>
    cases hstep with
    | jamIdle d hd =>
      exact known_access_keeps (hkeeps d (List.mem_singleton_self d)) h.sound h.known
  | instruction =>
    intro v hv
    cases hbrk : (opcodes (opcodeOf t)).isBrk with
    | false =>
      obtain ⟨-, hlen, v', hv', hknown'⟩ := hstep.instruction h.sound hbrk
      rw [hv, Option.some.injEq] at hknown'
      exact hrecorded.polled hlen unlatched_or (hknown' ▸ hv')
    | true =>
      obtain ⟨t₁, u, -, -, -, -, -, rfl⟩ := hstep.frame (.inr ⟨rfl, hbrk⟩)
      rw [known_skipped] at hv
      cases hv

end Poll

/-! ## Runs -/

namespace Machine
variable {σ : Type} (H : Host σ) (chip : Chip)

/-- The latch is clear everywhere at this boundary. -/
structure Quiet (m : Machine σ) : Prop where
  settled : m.Settled
  poll : m.cpu.poll.Quiet

theorem Quiet.polled {m : Machine σ} (h : m.Quiet) : m.Polled := ⟨h.settled, h.poll.sound⟩

theorem act_quiet (action : Action σ) (m : Machine σ) (h : m.Quiet)
    (hcalls : .requestNonMaskableInterrupt ∉ (act H chip action m).1.calls) :
    (act H chip action m).2.Quiet := by
  refine ⟨act_settled H chip action m h.settled, ?_⟩
  cases action with
  | host move => exact h.poll
  | step => exact (step_cases H chip h.settled).quiet h.poll hcalls
  | call call =>
    have hne : call ≠ .requestNonMaskableInterrupt := fun he => hcalls (he ▸ List.mem_singleton_self _)
    exact (Call.apply_poll call m.cpu).symm ▸ h.poll.onPoll hne

/-- From a quiet boundary no step loads PC from $FFFA, unless a callback requests NMI before the vector
is decided. -/
theorem Quiet.not_loadsNmi {m : Machine σ} (h : m.Quiet)
    (hcalls : .requestNonMaskableInterrupt ∉ callsOf ((m.step H chip).1.trace.take (m.step H chip).1.decidedAfter)) :
    ¬(m.step H chip).1.LoadsNmi := by
  have hkind : (m.step H chip).1.kind ≠ .nmi := by
    rw [(step_kind H chip h.settled.1 h.settled.2).1]
    intro hb
    cases hr : m.cpu.poll.resetPending with
    | true => simp [boundary, hr] at hb
    | false =>
      cases hh : m.cpu.core.halted with
      | true => simp [boundary, hr, hh] at hb
      | false =>
        rw [boundary_takes hr hh, Eager.takes] at hb
        cases hk : m.cpu.poll.known with
        | none => simp [hk] at hb
        | some v =>
          have hv : v &&& nmiLatch = 0 := not_not.mp (h.poll.known v hk)
          simp only [hk, hv, ne_eq, not_true, if_false] at hb
          split at hb <;> cases hb
  rintro ⟨henters, hvector⟩
  obtain ⟨t, u, htrace, hlen, ht, hvec, -, -⟩ := (step_cases H chip h.settled).frame (henters.resolve_left hkind)
  rw [htrace, StepLog.decidedAfter, if_neg hkind, List.take_left' hlen] at hcalls
  rw [htrace, vector_shape hlen hvec, Poll.vector_unlatched] at hvector
  · exact absurd hvector (by decide)
  · rw [Poll.requests_accesses ht]
    exact ((ht.threads (fun _ => rfl) rfl).recorded eq_keeps (unlatched_callsOf hcalls)
      h.poll.requests).2

/-- The rest of a frame that has taken the latch leaves it clear everywhere. -/
theorem frame_quiet {p : Poll} (hs : p.Sound) (hr : ¬Latched p.requests) {u : List HostCall}
    (hu : p.Records u) (hcalls : .requestNonMaskableInterrupt ∉ callsOf u) : (p.accesses u).skipped.Quiet := by
  have hend := ((hu.threads (fun _ => rfl) rfl).recorded eq_keeps (unlatched_callsOf hcalls) hr).2
  exact .skipped (hs.accesses u) (Poll.requests_accesses hu ▸ hend)

/-- A step that loads PC from $FFFA takes the latch. -/
theorem loadsNmi_quiet {m : Machine σ} (h : m.Polled) (hl : (m.step H chip).1.LoadsNmi)
    (hcalls : .requestNonMaskableInterrupt ∉ callsOf ((m.step H chip).1.trace.drop (m.step H chip).1.takenAfter)) :
    (m.step H chip).2.Quiet := by
  refine ⟨act_settled H chip .step m h.settled, ?_⟩
  have hstep := step_cases H chip h.settled
  have hs := h.sound.forget
  by_cases hkind : (m.step H chip).1.kind = .nmi
  · rw [StepLog.takenAfter, if_pos hkind] at hcalls
    rw [hkind] at hstep
    generalize (m.step H chip).1.trace = trace at hstep hcalls
    generalize (m.step H chip).2.cpu.poll = p' at hstep
    cases hstep with
    | nmi t u hlen hlen' ht hu =>
      rw [List.drop_left' hlen] at hcalls
      exact frame_quiet (hs.accesses t).unlatched (not_latched_without _) hu hcalls
  · obtain ⟨t, u, htrace, hlen, ht, hvec, hu, hend⟩ := hstep.frame (hl.1.resolve_left hkind)
    have hvector := hl.2
    rw [htrace, vector_shape hlen hvec] at hvector
    rw [htrace, StepLog.takenAfter, if_neg hkind, List.drop_left' hlen] at hcalls
    have hlatched : Latched (m.cpu.poll.forget.accesses t).requests := by
      by_contra hno
      rw [Poll.vector_unlatched fun h => h hno] at hvector
      exact absurd hvector (by decide)
    have hvectored : (m.cpu.poll.forget.accesses t).vectored = (m.cpu.poll.forget.accesses t).unlatched :=
      if_pos hlatched
    rw [hend, hvectored]
    rw [hvectored] at hu
    exact frame_quiet (hs.accesses t).unlatched (not_latched_without _) hu hcalls

/-! ### No edge is lost -/

/-- The processor runs, and the latch is set. -/
structure Due (m : Machine σ) : Prop where
  running : m.cpu.core.halted = false
  noReset : m.cpu.poll.resetPending = false
  latched : Latched m.cpu.poll.requests

/-- What was polled holds an NMI. -/
structure Seen (m : Machine σ) : Prop where
  polled : m.Polled
  known : ∃ v, m.cpu.poll.known = some v ∧ Latched v

theorem loadsNmi_of_kind {m : Machine σ} (h : m.Settled) (hk : (m.step H chip).1.kind = .nmi) :
    (m.step H chip).1.LoadsNmi := by
  refine ⟨.inl hk, ?_⟩
  have hwork := (step_kind H chip h.1 h.2).2
  rw [hk] at hwork
  have hshape : ((m.step H chip).1.trace.map fun c => c.access.shape) =
      (false, m.cpu.core.pc) :: (false, m.cpu.core.pc) :: frameShape m.cpu.core vectorNmi := by
    rw [← hwork, List.map_map]
    rfl
  rw [hshape]
  rfl

/-- A processor that runs takes an NMI it has polled. -/
theorem Seen.kind {m : Machine σ} (h : m.Seen) (hh : m.cpu.core.halted = false)
    (hr : m.cpu.poll.resetPending = false) : (m.step H chip).1.kind = .nmi := by
  obtain ⟨v, hknown, hv⟩ := h.known
  rw [(step_kind H chip h.polled.settled.1 h.polled.settled.2).1, boundary_takes hr hh, Eager.takes, hknown]
  exact if_pos hv

/-- An instruction that begins with the latch set polls it. -/
theorem step_seen {m : Machine σ} (h : m.Polled) (hdue : m.Due) (hl : ¬(m.step H chip).1.LoadsNmi)
    (hcalls : .clearNonMaskableInterrupt ∉ callsOf (m.step H chip).1.trace) : (m.step H chip).2.Seen := by
  refine ⟨act_polled H chip .step m h, ?_⟩
  have hkeeps := latched_callsOf hcalls
  have hstep := step_cases H chip h.settled
  have hframe : ∀ hf : (m.step H chip).1.kind = .irq ∨ (m.step H chip).1.kind = .instruction ∧
      (opcodes (opcodeOf (m.step H chip).1.trace)).isBrk, False := by
    intro hf
    obtain ⟨t, u, htrace, hlen, ht, hvec, -, -⟩ := hstep.frame hf
    have hend := ((ht.threads (fun _ => rfl) rfl).recorded eq_keeps
      (fun c hc => hkeeps c (htrace ▸ List.mem_append_left u hc)) hdue.latched).2
    have hlatched : Latched (m.cpu.poll.forget.accesses t).requests := by
      rw [Poll.requests_accesses ht]
      exact hend
    refine hl ⟨.inr hf, ?_⟩
    rw [htrace, vector_shape hlen hvec, Poll.vector_latched hlatched]
  have hkind := (step_kind H chip h.settled.1 h.settled.2).1
  have hrunning : (m.step H chip).1.kind = .nmi ∨ (m.step H chip).1.kind = .irq ∨
      (m.step H chip).1.kind = .instruction := by
    rw [hkind]
    exact Plain.boundary_of_running (q := m.opened) hdue.noReset hdue.running
  rcases hrunning with hk | hk | hk
  · exact absurd (loadsNmi_of_kind H chip h.settled hk) hl
  · exact (hframe (.inl hk)).elim
  · cases hbrk : (opcodes (opcodeOf (m.step H chip).1.trace)).isBrk with
    | true => exact (hframe (.inr ⟨hk, hbrk⟩)).elim
    | false =>
      rw [hk] at hstep
      obtain ⟨hthreads, hlen, v, hv, hknown⟩ := hstep.instruction h.sound hbrk
      have hrecorded := (hthreads.recorded eq_keeps hkeeps hdue.latched).1
      exact ⟨v, hknown, hrecorded.polled hlen (fun a b ha _ => (latched_or a b).mpr (.inl ha)) hv⟩

theorem act_seen (action : Action σ) (m : Machine σ) (h : m.Seen)
    (hevent : (act H chip action m).1.isStep = false ∧
      .clearNonMaskableInterrupt ∉ (act H chip action m).1.calls) : (act H chip action m).2.Seen := by
  refine ⟨act_polled H chip action m h.polled, ?_⟩
  obtain ⟨v, hv, hlatched⟩ := h.known
  cases action with
  | step => exact absurd hevent.1 (by simp [act, Event.isStep])
  | host move => exact ⟨v, hv, hlatched⟩
  | call call =>
    have hne : call ≠ .clearNonMaskableInterrupt := fun he => hevent.2 (he ▸ List.mem_singleton_self _)
    have hknown : (call.apply m.cpu).poll.known = m.cpu.poll.known.map call.onRequests := by
      rw [Call.apply_poll, Poll.known_call h.polled.sound]
    exact ⟨_, hknown.trans (congrArg _ hv), latched_keeps hne v hlatched⟩

/-- **NMI edges are neither lost nor duplicated.** From any boundary of any run from construction:

* of two consecutive steps that both begin with the latch set, on a processor that runs and with no
  reset pending, one loads PC from $FFFA, unless NMI is released meanwhile;
* between two loads of PC from $FFFA, after the first has taken the latch and before the second is
  decided, NMI is requested. -/
theorem nmi_edges (readByte writeByte : Callable) (host : σ) (actions : List (Action σ)) :
    let m := (act H chip).final (start readByte writeByte host) actions
    let log := (m.step H chip).1
    let next := (m.step H chip).2
    (∀ between : List (Action σ),
      let m' := (act H chip).final next between
      m.Due → m'.Due → .clearNonMaskableInterrupt ∉ callsOf log.trace →
      (∀ event ∈ (act H chip).shown next between,
        event.isStep = false ∧ .clearNonMaskableInterrupt ∉ event.calls) →
      log.LoadsNmi ∨ (m'.step H chip).1.LoadsNmi) ∧
    ∀ later : List (Action σ),
      let log' := (((act H chip).final next later).step H chip).1
      log.LoadsNmi → log'.LoadsNmi →
      .requestNonMaskableInterrupt ∈ callsOf (log.trace.drop log.takenAfter) ++
        ((act H chip).shown next later).flatMap Event.calls ++ callsOf (log'.trace.take log'.decidedAfter) := by
  intro m log next
  have hm : m.Polled := System.final_preserves (act_polled H chip) (start_polled readByte writeByte host) actions
  constructor
  · intro between m' hdue hdue' hcalls hbetween
    by_cases hl : log.LoadsNmi
    · exact .inl hl
    · have hseen := step_seen H chip hm hdue hl hcalls
      have hseen' : m'.Seen := System.final_preserves_of_shown (act_seen H chip) hseen hbetween
      have hkind := hseen'.kind H chip hdue'.running hdue'.noReset
      exact .inr (loadsNmi_of_kind H chip hseen'.polled.settled hkind)
  · intro later log' hl hl'
    by_contra hno
    simp only [List.mem_append, not_or] at hno
    obtain ⟨⟨hfirst, hmiddle⟩, hlast⟩ := hno
    have hquiet := loadsNmi_quiet H chip hm hl hfirst
    have hevents : ∀ event ∈ (act H chip).shown next later,
        .requestNonMaskableInterrupt ∉ Event.calls event := fun event he hc =>
      hmiddle (List.mem_flatMap.mpr ⟨event, he, hc⟩)
    have hquiet' := System.final_preserves_of_shown (act_quiet H chip) hquiet hevents
    exact hquiet'.not_loadsNmi H chip hlast hl'

/-- A flat memory of NOPs, and what some actions make of it. -/
def nops (actions : List (Action (ℕ → Byte))) : Machine (ℕ → Byte) :=
  (act .flat mos6502).final (start (.host 0) (.host 0) fun _ => 0xEA) actions

/-- After a reset one instruction runs before a latched NMI is taken; a second NMI, requested after the
entry of a first, is taken one instruction later. -/
theorem nmi_edges_nops :
    (((nops [.call .requestReset, .step, .call .requestNonMaskableInterrupt]).step .flat mos6502).1.LoadsNmi ∨
      ((nops [.call .requestReset, .step, .call .requestNonMaskableInterrupt, .step]).step
        .flat mos6502).1.LoadsNmi) ∧
    let log := ((nops [.call .requestNonMaskableInterrupt]).step .flat mos6502).1
    let next := ((nops [.call .requestNonMaskableInterrupt]).step .flat mos6502).2
    let later : List (Action (ℕ → Byte)) := [.call .requestNonMaskableInterrupt, .step]
    let log' := (((act .flat mos6502).final next later).step .flat mos6502).1
    .requestNonMaskableInterrupt ∈ callsOf (log.trace.drop log.takenAfter) ++
      ((act .flat mos6502).shown next later).flatMap Event.calls ++ callsOf (log'.trace.take log'.decidedAfter) := by
  have hlost := (nmi_edges .flat mos6502 (.host 0) (.host 0) (fun _ => 0xEA)
    [.call .requestReset, .step, .call .requestNonMaskableInterrupt]).1 []
  have htwice := (nmi_edges .flat mos6502 (.host 0) (.host 0) (fun _ => 0xEA)
    [.call .requestNonMaskableInterrupt]).2 [.call .requestNonMaskableInterrupt, .step]
  constructor
  · refine hlost ?_ ?_ ?_ ?_
    · exact ⟨by decide +kernel, by decide +kernel, by decide +kernel⟩
    · exact ⟨by decide +kernel, by decide +kernel, by decide +kernel⟩
    · decide +kernel
    · exact fun _ h => nomatch h
  · refine htwice ?_ ?_
    · decide +kernel
    · decide +kernel

end Machine

end SixFiveOhTwo
