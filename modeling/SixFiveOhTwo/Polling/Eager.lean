import SixFiveOhTwo.Machine.Work
import SixFiveOhTwo.Polling.Masking
import SixFiveOhTwo.Polling.Sound

/-! # Lazy polling is eager sampling

`Eager` is a model of the poll that samples: it looks at nothing but the record of every step, which
has the requests at the end of every access and at every `note_stall`. It keeps none of the
processor's copies, and knows nothing of the order in which they are made and used up.

* `Eager.after`: what the model knows after an event.
* `Eager.takes`: what it says a boundary takes.
* `Machine.eager_polling`: every boundary of every run takes that.
-/

namespace SixFiveOhTwo
open Bits Interaction
set_option autoImplicit false

/-! ## The eager model -/

/-- What a boundary decides on: the requests the last sequence polled, `none` if it did not poll, and
the I flag it polled when its instruction has changed that flag since. -/
structure Eager where
  polled : Option ℕ := some 0
  masked : Option ℕ := none

/-- The requests at the last stall of a record, or else `before` it. -/
def HostCall.sampled (before : ℕ) (c : HostCall) : ℕ := c.stalls.getLast?.getD before

/-- What a branch polls: at the end of its first access, or at the last stall of its second; in its
third, when it is taken, only at a stall before the last one; and at its fourth, when it goes to
another page. -/
def branchSample : List HostCall → ℕ
  | [d, e, c] => e.sampled d.requests ||| c.stalls.dropLast.getLast?.getD 0
  | [d, e, c, f] =>
    (e.sampled d.requests ||| c.stalls.dropLast.getLast?.getD 0) ||| f.sampled c.requests
  | t => Poll.sample 0 t

/-- What an instruction polls, by its row and its record. -/
def Entry.sample (t : List HostCall) : Entry → Option ℕ
  | .implied .brk _ => none
  | .implied handler _ => some (if (handler.taken 0).isSome then branchSample t else Poll.sample 0 t)
  | .addressed .. => some (Poll.sample 0 t)

/-- The opcode of an instruction: what its first access read. -/
def opcodeOf (t : List HostCall) : Byte := Fin.ofNat 256 ((t.head?.map fun c => c.access.value).getD 0)

theorem opcodeOf_eq {t : List HostCall} {pc : ℕ} {opcode : Byte}
    (h : (t.map HostCall.access)[0]? = some (.r pc opcode)) : opcodeOf t = opcode := by
  have hhead : t.head?.map HostCall.access = some (.r pc opcode) := by
    rw [← List.head?_map, List.head?_eq_getElem?, h]
  cases ht : t.head? with
  | none => simp [ht] at hhead
  | some c =>
    rw [ht, Option.map_some, Option.some.injEq] at hhead
    rw [opcodeOf, ht, Option.map_some, hhead, Option.getD_some]
    exact Fin.ofNat_val_eq_self opcode

namespace Eager

/-- A request or a release between two steps reaches the next boundary, unless the last sequence did
not poll. -/
def called (eager : Eager) : Call → Eager
  | .requestMaskableInterrupt => { eager with polled := eager.polled.map (· ||| irqLine) }
  | .clearMaskableInterrupt => { eager with polled := eager.polled.map (without · irqLine) }
  | .requestNonMaskableInterrupt => { eager with polled := eager.polled.map (· ||| nmiLatch) }
  | .clearNonMaskableInterrupt => { eager with polled := eager.polled.map (without · nmiLatch) }
  | _ => eager

/-- What is known after an event. -/
def after (eager : Eager) : Event → Eager
  | .called call => eager.called call
  | .moved => eager
  | .stepped log =>
    match log.kind with
    | .jamIdle => eager
    | .instruction =>
      { polled := (opcodes (opcodeOf log.trace)).sample log.trace
        masked := (opcodes (opcodeOf log.trace)).oldI log.before.core.p }
    | _ => { polled := none }

/-- What the boundary of a processor that runs takes, with this P. -/
def takes (eager : Eager) (p : ℕ) : BoundaryKind :=
  match eager.polled with
  | none => .instruction
  | some polled =>
    if polled &&& nmiLatch ≠ 0 then .nmi
    else if polled &&& irqLine ≠ 0 ∧ eager.masked.getD (p &&& flagI) = 0 then .irq
    else .instruction

end Eager

/-! ## What the poll keeps -/

namespace Poll

/-- What the next boundary decides on, `none` if the last sequence did not poll. -/
def known (p : Poll) : Option ℕ := if p.polled = some noPoll then none else some p.deciding

theorem known_skipped (p : Poll) : p.skipped.known = none := if_pos rfl

theorem deciding_settled {p : Poll} (h : p.polled = none) : p.settled.deciding = p.seen := by
  unfold settled
  cases hd : p.deferred with
  | none => rw [deciding, seen, h, hd]
  | some deferred => rw [deciding, seen, hd]

theorem known_settled {p : Poll} (hs : p.Sound) (h : p.polled = none) : p.settled.known = some p.seen := by
  have hpolls : p.settled.polled ≠ some noPoll := by
    unfold settled
    cases hd : p.deferred with
    | none => simp [h]
    | some deferred =>
      intro hno
      have hlt : noPoll < 2 ^ 2 := Option.some.inj hno ▸ hs.deferred deferred hd
      exact absurd hlt (by decide)
  rw [known, if_neg hpolls, deciding_settled h]

/-- Accesses see what has been polled already, and nothing else. -/
theorem polled_access {p : Poll} (h : p.polled = none) (calls : List Call) :
    (p.access calls).polled = none := by
  refine @access_keeps (fun p => p.polled = none) (fun p hp => hp) calls (fun call _ p hp => ?_) p h
  cases call with
  | requestMaskableInterrupt | requestNonMaskableInterrupt => simp [Call.onPoll, see, request, hp]
  | clearMaskableInterrupt | clearNonMaskableInterrupt => simp [Call.onPoll, unsee, request, hp]
  | _ => exact hp

theorem polled_accesses {p : Poll} (h : p.polled = none) (t : List HostCall) :
    (p.accesses t).polled = none := by
  induction t generalizing p with
  | nil => exact h
  | cons c t ih => exact ih (polled_access h c.calls)

/-! ## Between two steps -/

theorem known_raise {p : Poll} (hs : p.Sound) {bit : ℕ} (hbit : IsInput bit) :
    ((p.request (p.requests ||| bit)).see bit).known = p.known.map (· ||| bit) := by
  cases hp : p.polled with
  | none => simp [known, see, request, deciding, hp]
  | some polled =>
    rcases hs.polled polled hp with hreq | rfl
    · have hne : polled ≠ noPoll := fun h => absurd (h ▸ hreq) (by decide)
      have hne' : polled ||| bit ≠ noPoll := by
        intro h
        exact absurd (h ▸ hreq.or hbit.isRequests) (by decide)
      simp [known, see, request, deciding, hp, hreq.and_noPoll, hne, hne']
    · have hno : noPoll ≠ 0 := by decide
      simp [known, see, request, hp, hno]

theorem known_lower {p : Poll} (hs : p.Sound) {bit : ℕ} (hbit : IsInput bit) :
    ((p.request (without p.requests bit)).unsee bit).known = p.known.map (without · bit) := by
  cases hp : p.polled with
  | none => simp [known, unsee, request, deciding, hp]
  | some polled =>
    rcases hs.polled polled hp with hreq | rfl
    · have hne : polled ≠ noPoll := fun h => absurd (h ▸ hreq) (by decide)
      have hne' : without polled bit ≠ noPoll := by
        intro h
        exact absurd (h ▸ without_lt hreq : noPoll < 2 ^ 2) (by decide)
      simp [known, unsee, request, deciding, hp, hne, hne']
    · have hno : without noPoll bit = noPoll := by rcases hbit with rfl | rfl <;> decide
      simp [known, unsee, request, hp, hno]

/-- A call moves what the boundary decides on as the eager model says. -/
theorem known_onPoll {p : Poll} (hs : p.Sound) (masked : Option ℕ) (call : Call) :
    (Eager.mk p.known masked).called call = ⟨(call.onPoll p).known, masked⟩ := by
  have hirq : IsInput irqLine := .inl rfl
  have hnmi : IsInput nmiLatch := .inr rfl
  cases call with
  | requestMaskableInterrupt => rw [Eager.called, Call.onPoll, known_raise hs hirq]
  | clearMaskableInterrupt => rw [Eager.called, Call.onPoll, known_lower hs hirq]
  | requestNonMaskableInterrupt => rw [Eager.called, Call.onPoll, known_raise hs hnmi]
  | clearNonMaskableInterrupt => rw [Eager.called, Call.onPoll, known_lower hs hnmi]
  | _ => rfl

/-! ## During a step -/

/-- A record of two accesses or more needs nothing from before it. -/
theorem sample_of_two {t : List HostCall} (ht : 2 ≤ t.length) (before : ℕ) : sample before t = sample 0 t := by
  have hne : t.dropLast ≠ [] := by
    intro h
    have hlen := congrArg List.length h
    rw [List.length_dropLast, List.length_nil] at hlen
    omega
  rw [sample, sample, lastRequests_of_ne_nil hne before 0]

theorem requests_access {p : Poll} {c : HostCall} (hc : p.Records [c]) :
    (p.access c.calls).requests = c.requests := hc.1.2.symm

theorem seen_of_access {p : Poll} {c : HostCall} (hc : p.Records [c]) :
    (p.access c.calls).seen = c.sampled p.requests := by
  rw [seen_access, ← hc.1.1]
  rfl

theorem relieved_requests (p : Poll) : p.relieved.requests = p.requests := by
  unfold relieved
  split <;> rfl

theorem relieved_polled (p : Poll) : p.relieved.polled = p.polled := by
  unfold relieved
  split <;> rfl

theorem seen_deferring (p : Poll) (value : ℕ) : (p.deferring value).seen = value := rfl

/-- What a branch leaves seen is what the eager model says it polls. -/
theorem Branched.known {early : ℕ} {p p' : Poll} {d e : HostCall} {u : List HostCall}
    (hb : Branched early p.unstalled u p') (hp : p.polled = none)
    (hearly : early = e.sampled d.requests) (hseen : p.seen = early) :
    p'.seen = branchSample (d :: e :: u) ∧ p'.polled = none := by
  have hread : ∀ c : HostCall, (p.unstalled.access c.calls).relieved.polled = none := fun c =>
    (relieved_polled _).trans (polled_access (p := p.unstalled) hp c.calls)
  cases hb with
  | untaken => exact ⟨hseen.trans hearly, hp⟩
  | samePage c hc =>
    refine ⟨?_, hread c⟩
    rw [seen_deferring, (stalled_access hc).2, hearly]
    rfl
  | otherPage c f hc hf =>
    refine ⟨?_, ?_⟩
    · rw [seen_deferring, (stalled_access hc).2, hearly, seen_of_access hf, relieved_requests, requests_access hc]
      rfl
    · exact polled_access (hread c) f.calls

/-- What a kind of boundary leaves to decide on, as the eager model has it. -/
def Samples (c : Core) (t : List HostCall) (known : Option ℕ) : BoundaryKind → Prop
  | .jamIdle => True
  | .instruction => ∃ opcode : Byte, (t.map HostCall.access)[0]? = some (.r c.pc opcode) ∧
      known = (opcodes opcode).sample t
  | _ => known = none

theorem Step.known {c : Core} {p p' : Poll} {kind : BoundaryKind} {t : List HostCall} (hs : p.Sound)
    (hstep : Step c p kind t p') : Samples c t p'.known kind := by
  cases hstep with
  | reset t hlen ht => exact known_skipped _
  | jamIdle d hd => trivial
  | nmi t u hlen hlen' ht hu => exact known_skipped _
  | irq t u hlen ht hvec hu => exact known_skipped _
  | brk opcode cycles hop t u hlen hopcode ht hvec hu =>
    refine ⟨opcode, ?_, ?_⟩
    · rw [List.map_append, List.getElem?_append_left (by rw [List.length_map]; omega)]
      exact hopcode
    · rw [known_skipped, hop]
      rfl
  | other opcode hbrk hb t hlen hopcode ht =>
    refine ⟨opcode, hopcode, ?_⟩
    have hne : t ≠ [] := List.ne_nil_of_length_pos (by omega)
    rw [known_settled (hs.forget.accesses t) (polled_accesses rfl t), seen_accesses ht hne, sample_of_two hlen]
    cases hop : opcodes opcode with
    | addressed handler mode cycles => rfl
    | implied handler cycles =>
      have hnone := hb handler cycles hop
      cases handler <;> first | (cases hnone; done) | exact absurd hop (hbrk cycles) | rfl
  | branch opcode handler cycles hop hb d e u hopcode hd he p'' hu =>
    refine ⟨opcode, by rw [List.map_cons, hopcode]; rfl, ?_⟩
    have hearly : (((p.forget.access d.calls).unstalled.access e.calls).stalled.getD
        (p.forget.access d.calls).requests) = e.sampled d.requests := by
      rw [(stalled_access he).1, requests_access hd]
      rfl
    have hseen : ((p.forget.access d.calls).unstalled.access e.calls).seen = e.sampled d.requests := by
      rw [seen_of_access he, ← requests_access hd]
      rfl
    have hfetched := hs.forget.access d.calls
    have hoffset := hfetched.unstalled.access e.calls
    have hunpolled : ((p.forget.access d.calls).unstalled.access e.calls).polled = none :=
      polled_access (p := (p.forget.access d.calls).unstalled) (polled_access (p := p.forget) rfl d.calls) e.calls
    have hsound := hu.sound hoffset (isRequests_getD (hfetched.stalls e.calls).1 hfetched.requests)
    obtain ⟨hsampled, hp⟩ := hu.known hunpolled hearly (hseen.trans hearly.symm)
    rw [known_settled hsound hp, hsampled, hop]
    cases handler <;> first | rfl | cases hb

end Poll

/-! ## Runs -/

/-- A processor that runs takes what its poll and its registers have kept. -/
theorem boundary_takes {c : Core} {p : Poll} (hr : p.resetPending = false)
    (hh : c.halted = false) : boundary c p = (Eager.mk p.known c.polledI).takes c.p := by
  rw [boundary, hr, hh, Eager.takes, Poll.known]
  by_cases hp : p.polled = some noPoll
  · have hdeciding : p.deciding = noPoll := by rw [Poll.deciding, hp, Option.getD_some]
    have hnmi : noPoll &&& nmiLatch = 0 := by decide
    have hirq : noPoll &&& irqLine = 0 := by decide
    simp [hp, hdeciding, hnmi, hirq]
  · simp only [hp, if_false, Bool.false_eq_true, Core.masking]
    rfl

namespace Machine
variable {σ : Type} (H : Host σ) (chip : Chip)

/-- What the poll and the registers of a running processor have kept is what the eager model knows. -/
structure Sampled (m : Machine σ) (eager : Eager) : Prop where
  polled : m.Polled
  known : m.cpu.core.halted = false → eager = ⟨m.cpu.poll.known, m.cpu.core.polledI⟩

/-- A step moves what is kept as the eager model says. -/
theorem step_sampled {m : Machine σ} {eager : Eager} (h : m.Sampled eager) :
    (m.step H chip).2.Sampled (eager.after (.stepped (m.step H chip).1)) := by
  refine ⟨act_polled H chip .step m h.polled, fun hh => ?_⟩
  have hknown := (step_cases H chip h.polled.settled).known h.polled.sound
  have hleaves := step_leaves H chip h.polled.settled.1
  have hkind := (step_kind H chip h.polled.settled.1 h.polled.settled.2).1
  simp only [Eager.after]
  cases hk : (m.step H chip).1.kind with
  | jamIdle =>
    rw [hk] at hleaves
    have hrunning : m.cpu.core.halted = false := (congrArg Core.halted hleaves).symm.trans hh
    rw [hk, boundary, hrunning] at hkind
    exact absurd hkind (by grind)
  | instruction =>
    rw [hk] at hknown hleaves
    obtain ⟨opcode, hopcode, hpolled⟩ := hknown
    obtain ⟨opcode', t, htrace, hmasked, -⟩ := hleaves
    have hsame : opcode = opcode' := by
      rw [htrace] at hopcode
      exact Fin.ext (Access.r.inj (Option.some.inj hopcode)).2.symm
    have hlog : opcodeOf (m.step H chip).1.trace = opcode := opcodeOf_eq hopcode
    rw [hlog, hpolled, hmasked, hsame]
    rfl
  | reset | nmi | irq =>
    rw [hk] at hknown hleaves
    exact congrArg₂ Eager.mk hknown.symm hleaves.symm

theorem act_sampled {m : Machine σ} {eager : Eager} (h : m.Sampled eager) (action : Action σ) :
    (act H chip action m).2.Sampled (eager.after (act H chip action m).1) := by
  cases action with
  | step => exact step_sampled H chip h
  | host move => exact ⟨act_polled H chip (.host move) m h.polled, h.known⟩
  | call call =>
    refine ⟨act_polled H chip (.call call) m h.polled, fun hh => ?_⟩
    have hcore : (call.apply m.cpu).core = m.cpu.core := Call.apply_core call m.cpu
    have hrunning : m.cpu.core.halted = false := hcore ▸ hh
    change eager.called call = ⟨(call.apply m.cpu).poll.known, (call.apply m.cpu).core.polledI⟩
    rw [h.known hrunning, Poll.known_onPoll h.polled.sound, Call.apply_poll, hcore]

/-- **Lazy polling is eager sampling.** In every run of steps, calls and host moves from construction,
whatever calls the callbacks make, each boundary with no reset pending and a processor that runs takes
what the eager model says. -/
theorem eager_polling (readByte writeByte : Callable) (host : σ) (actions : List (Action σ)) :
    let m := (act H chip).final (start readByte writeByte host) actions
    let eager := ((act H chip).shown (start readByte writeByte host) actions).foldl Eager.after {}
    (m.step H chip).1.kind =
      if m.cpu.poll.resetPending then .reset
      else if m.cpu.core.halted then .jamIdle
      else eager.takes m.cpu.core.p := by
  intro m eager
  have hstart : (start readByte writeByte host).Sampled {} := ⟨start_polled readByte writeByte host, fun _ => rfl⟩
  have hm : m.Sampled eager :=
    System.final_summary (J := Sampled) (fun action m eager h => act_sampled H chip h action) hstart actions
  rw [(step_kind H chip hm.polled.settled.1 hm.polled.settled.2).1]
  cases hr : m.cpu.poll.resetPending with
  | true => rw [boundary, hr]; rfl
  | false =>
    cases hh : m.cpu.core.halted with
    | true => rw [boundary, hr, hh]; rfl
    | false =>
      rw [boundary_takes hr hh, hm.known hh]
      rfl

end Machine

end SixFiveOhTwo
