import SixFiveOhTwo.Polling.Steps

/-! # The poll at every boundary of every run

* `Poll.Sound`: the requests are request bits alone, and so is what was polled, unless it is `noPoll`
  alone.
* `Poll.Step.sound`: every step keeps it.
* `Machine.act_polled`: so does everything a host does.
* `Machine.hostAct_asked`: whatever a debugger does too, restored snapshots included, the requests stay so, and
  every interrupt and instruction polls as it should.
-/

namespace SixFiveOhTwo
open Bits Interaction
set_option autoImplicit false

/-- Request bits alone. -/
abbrev IsRequests (value : ℕ) : Prop := value < 2 ^ 2

/-- The bits of the interrupt inputs. -/
def IsInput (bit : ℕ) : Prop := bit = irqLine ∨ bit = nmiLatch

theorem IsInput.isRequests {bit : ℕ} (h : IsInput bit) : IsRequests bit := by
  rcases h with rfl | rfl <;> decide

theorem IsRequests.or {a b : ℕ} (ha : IsRequests a) (hb : IsRequests b) : IsRequests (a ||| b) :=
  Nat.or_lt_two_pow ha hb

theorem IsRequests.and_noPoll {a : ℕ} (ha : IsRequests a) : a &&& noPoll = 0 := by
  have h : a % 2 ^ 2 = a := Nat.mod_eq_of_lt ha
  rw [← h, ← Nat.and_two_pow_sub_one_eq_mod, Nat.and_assoc]
  exact Nat.and_zero a

namespace Poll

/-- What every boundary finds the poll to be. -/
structure Sound (p : Poll) : Prop where
  requests : IsRequests p.requests
  polled : ∀ v, p.polled = some v → IsRequests v ∨ v = noPoll
  deferred : ∀ v, p.deferred = some v → IsRequests v

variable {p : Poll}

theorem Sound.init : Sound {} :=
  ⟨by decide, by simp, by simp⟩

/-! ## The calls -/

theorem Sound.seen (h : p.Sound) : IsRequests p.seen := by
  rw [Poll.seen]
  cases hd : p.deferred with
  | none => exact h.requests
  | some v => exact h.deferred v hd

theorem Sound.confirm (h : p.Sound) : p.confirm.Sound :=
  { h with deferred := fun _ hv => nomatch hv }

theorem Sound.request (h : p.Sound) {requests : ℕ} (hr : IsRequests requests) : (p.request requests).Sound := by
  refine { h with requests := hr, deferred := ?_ }
  intro v hv
  cases hv
  exact h.seen

theorem Sound.noteStall (h : p.Sound) : p.noteStall.Sound := ⟨h.requests, h.polled, by simp [Poll.noteStall]⟩

theorem Sound.see (h : p.Sound) {bit : ℕ} (hbit : IsInput bit) : (p.see bit).Sound := by
  unfold Poll.see
  split
  case h_2 => exact h
  case h_1 polled hp =>
    split
    case isFalse => exact h
    case isTrue hno =>
      refine { h with polled := ?_ }
      intro v hv
      cases hv
      rcases h.polled polled hp with hreq | rfl
      · exact .inl (hreq.or hbit.isRequests)
      · exact absurd hno (by decide)

theorem Sound.unsee (h : p.Sound) {bit : ℕ} (hbit : IsInput bit) : (p.unsee bit).Sound := by
  refine { h with polled := ?_ }
  intro v hv
  obtain ⟨polled, hp, rfl⟩ := Option.map_eq_some_iff.mp hv
  rcases h.polled polled hp with hreq | rfl
  · exact .inl (without_lt hreq)
  · rcases hbit with rfl | rfl <;> exact .inr (by decide)

theorem Sound.onPoll (h : p.Sound) (call : Call) : (call.onPoll p).Sound := by
  have hirq : IsInput irqLine := .inl rfl
  have hnmi : IsInput nmiLatch := .inr rfl
  cases call with
  | requestMaskableInterrupt => exact (h.request (h.requests.or hirq.isRequests)).see hirq
  | clearMaskableInterrupt => exact (h.request (without_lt h.requests)).unsee hirq
  | requestNonMaskableInterrupt => exact (h.request (h.requests.or hnmi.isRequests)).see hnmi
  | clearNonMaskableInterrupt => exact (h.request (without_lt h.requests)).unsee hnmi
  | requestReset | clearReset => exact { h with }
  | noteStall => exact h.noteStall
  | setDmaStalled stalled => exact h

theorem Sound.access (h : p.Sound) (calls : List Call) : (p.access calls).Sound :=
  access_keeps (fun _ h => h.confirm) (fun call _ _ h => h.onPoll call) h

theorem Sound.accesses (h : p.Sound) (t : List HostCall) : (p.accesses t).Sound :=
  accesses_keeps (fun _ h => h.confirm) (fun _ _ call _ _ h => h.onPoll call) h

/-- The stalls of a read that begins with none are requests. -/
theorem Sound.stalls (h : p.Sound) (calls : List Call) :
    (∀ v, (p.unstalled.access calls).stalled = some v → IsRequests v) ∧
      ∀ v, (p.unstalled.access calls).stalledBefore = some v → IsRequests v := by
  refine (@access_keeps (fun p => p.Sound ∧ (∀ v, p.stalled = some v → IsRequests v) ∧
    ∀ v, p.stalledBefore = some v → IsRequests v) (fun p h => ⟨h.1.confirm, h.2⟩) calls ?_ p.unstalled
    ⟨{ h with }, by simp [Poll.unstalled], by simp [Poll.unstalled]⟩).2
  rintro call - p ⟨hs, hstalled, hbefore⟩
  refine ⟨hs.onPoll call, ?_⟩
  cases call with
  | noteStall =>
    refine ⟨fun v hv => ?_, hstalled⟩
    cases hv
    exact hs.requests
  | requestMaskableInterrupt | requestNonMaskableInterrupt =>
    rw [Call.onPoll, (see_stalled _ _).1, (see_stalled _ _).2]
    exact ⟨hstalled, hbefore⟩
  | _ => exact ⟨hstalled, hbefore⟩

/-! ## A step -/

theorem Sound.forget (h : p.Sound) : p.forget.Sound := { h with polled := fun _ hv => nomatch hv }

theorem Sound.unlatched (h : p.Sound) : p.unlatched.Sound := { h with requests := without_lt h.requests }

theorem Sound.vectored (h : p.Sound) : p.vectored.Sound := by
  unfold Poll.vectored
  split
  · exact h.unlatched
  · exact h

theorem Sound.skipped (h : p.Sound) : p.skipped.Sound := by
  refine { h with polled := ?_, deferred := fun _ hv => nomatch hv }
  intro v hv
  cases hv
  exact .inr rfl

theorem Sound.unstalled (h : p.Sound) : p.unstalled.Sound := { h with }

theorem Sound.relieved (h : p.Sound) : p.relieved.Sound := by
  unfold Poll.relieved
  split
  · exact h.unstalled
  · exact h

theorem Sound.deferring (h : p.Sound) {value : ℕ} (hv : IsRequests value) : (p.deferring value).Sound := by
  refine { h with deferred := ?_ }
  intro v hd
  cases hd
  exact hv

theorem Sound.settled (h : p.Sound) : p.settled.Sound := by
  unfold Poll.settled
  split
  case h_2 => exact h
  case h_1 deferred hd =>
    refine { h with polled := ?_, deferred := fun _ hv => nomatch hv }
    intro v hv
    cases hv
    exact .inl (h.deferred _ hd)

theorem isRequests_getD {o : Option ℕ} {d : ℕ} (ho : ∀ v, o = some v → IsRequests v) (hd : IsRequests d) :
    IsRequests (o.getD d) := by
  cases o with
  | none => exact hd
  | some v => exact ho v rfl

theorem Branched.sound {early : ℕ} {p' : Poll} {u : List HostCall} (hb : Branched early p.unstalled u p')
    (h : p.Sound) (hearly : IsRequests early) : p'.Sound := by
  have hstall : ∀ c : HostCall, IsRequests (early ||| (p.unstalled.access c.calls).stalledBefore.getD 0) :=
    fun c => hearly.or (isRequests_getD (h.stalls c.calls).2 (by decide))
  cases hb with
  | untaken => exact h.unstalled
  | samePage c hc => exact (h.unstalled.access c.calls).relieved.deferring (hstall c)
  | otherPage c d hc hd =>
    have hend := (h.unstalled.access c.calls).relieved.access d.calls
    exact hend.deferring ((hstall c).or hend.seen)

/-- A step that polls does not depend on what was polled before. -/
theorem Step.sound_of_forget {c : Core} {kind : BoundaryKind} {t : List HostCall} {p' : Poll}
    (hstep : Step c p kind t p') (hreset : kind ≠ .reset) (hidle : kind ≠ .jamIdle) (h : p.forget.Sound) : p'.Sound := by
  cases hstep with
  | reset => exact absurd rfl hreset
  | jamIdle => exact absurd rfl hidle
  | nmi t u hlen hlen' ht hu => exact ((h.accesses t).unlatched.accesses u).skipped
  | irq t u hlen ht hvec hu => exact ((h.accesses t).vectored.accesses u).skipped
  | brk opcode cycles hop t u hlen hopcode ht hvec hu => exact ((h.accesses t).vectored.accesses u).skipped
  | branch opcode handler cycles hop hb d e u hopcode hd he p'' hu =>
    have hfetched := h.access d.calls
    have hoffset := hfetched.unstalled.access e.calls
    exact (hu.sound hoffset (isRequests_getD (hfetched.stalls e.calls).1 hfetched.requests)).settled
  | other opcode hbrk hb t hlen hopcode ht => exact (h.accesses t).settled

theorem Step.sound {c : Core} {kind : BoundaryKind} {t : List HostCall} {p' : Poll}
    (hstep : Step c p kind t p') (h : p.Sound) : p'.Sound := by
  cases hkind : kind with
  | reset =>
    subst hkind
    cases hstep with
    | reset t hlen ht => exact (Sound.accesses (p := { p with resetPending := false }) { h with } t).skipped
  | jamIdle =>
    subst hkind
    cases hstep with
    | jamIdle d hd => exact h.access d.calls
  | instruction | nmi | irq => exact hstep.sound_of_forget (by rw [hkind]; decide) (by rw [hkind]; decide) h.forget

/-! ## The requests, whatever was polled -/

theorem see_forget (p : Poll) (bit : ℕ) : (p.see bit).forget = p.forget := by
  unfold see
  split
  · split <;> rfl
  · rfl

theorem onPoll_forget (call : Call) (p : Poll) : (call.onPoll p).forget = (call.onPoll p.forget).forget := by
  cases call with
  | requestMaskableInterrupt | requestNonMaskableInterrupt =>
    rw [Call.onPoll, Call.onPoll, see_forget, see_forget]
    rfl
  | _ => rfl

theorem Sound.onPoll_asked (h : p.forget.Sound) (call : Call) : (call.onPoll p).forget.Sound := by
  rw [onPoll_forget]
  exact (h.onPoll call).forget

theorem Sound.access_asked (h : p.forget.Sound) (calls : List Call) : (p.access calls).forget.Sound :=
  access_keeps (I := fun p => p.forget.Sound) (fun _ h => h.confirm) (fun call _ _ h => h.onPoll_asked call) h

theorem Sound.accesses_asked (h : p.forget.Sound) (t : List HostCall) : (p.accesses t).forget.Sound :=
  accesses_keeps (I := fun p => p.forget.Sound) (fun _ h => h.confirm) (fun _ _ call _ _ h => h.onPoll_asked call) h

theorem Step.asked {c : Core} {kind : BoundaryKind} {t : List HostCall} {p' : Poll}
    (hstep : Step c p kind t p') (h : p.forget.Sound) : p'.forget.Sound := by
  cases hkind : kind with
  | reset =>
    subst hkind
    cases hstep with
    | reset t hlen ht =>
      have hreset : Poll.Sound (forget { p with resetPending := false }) := { h with }
      exact { (hreset.accesses_asked t).confirm with }
  | jamIdle =>
    subst hkind
    cases hstep with
    | jamIdle d hd => exact h.access_asked d.calls
  | instruction | nmi | irq =>
    exact (hstep.sound_of_forget (by rw [hkind]; decide) (by rw [hkind]; decide) h).forget

end Poll

/-! ## Runs -/

namespace Machine
variable {σ : Type} (H : Host σ) (chip : Chip)

/-- What every boundary of every run from construction finds. -/
structure Polled (m : Machine σ) : Prop where
  settled : m.Settled
  sound : m.cpu.poll.Sound

theorem start_polled (readByte writeByte : Callable) (host : σ) : (start readByte writeByte host).Polled :=
  ⟨⟨.init readByte writeByte, rfl⟩, .init⟩

theorem act_polled (action : Action σ) (m : Machine σ) (h : m.Polled) : (act H chip action m).2.Polled := by
  refine ⟨act_settled H chip action m h.settled, ?_⟩
  cases action with
  | call call => exact (Call.apply_poll call m.cpu).symm ▸ h.sound.onPoll call
  | host move => exact h.sound
  | step => exact (step_cases H chip h.settled).sound h.sound

/-- Whatever is done, the requests are request bits. -/
theorem hostAct_asked (action : HostAction σ) (m : Machine σ) (h : m.Settled ∧ m.cpu.poll.forget.Sound) :
    (hostAct H chip action m).2.Settled ∧ (hostAct H chip action m).2.cpu.poll.forget.Sound := by
  obtain ⟨hsettled, hasked⟩ := h
  refine ⟨hostAct_settled H chip action m hsettled, ?_⟩
  cases action with
  | act action =>
    cases action with
    | call call => exact (Call.apply_poll call m.cpu).symm ▸ hasked.onPoll_asked call
    | host move => exact hasked
    | step => exact (step_cases H chip hsettled).asked hasked
  | readByte callable | writeByte callable => exact hasked
  | restore state =>
    have hrequests : IsRequests ((if state.maskableInterruptPending then irqLine else 0) |||
        (if state.nonMaskableInterruptPending then nmiLatch else 0)) := by
      refine IsRequests.or ?_ ?_ <;> split <;> decide
    exact ⟨hrequests, nofun, nofun⟩
  | set register parsed =>
    have hpoll : (m.cpu.set register parsed).poll = m.cpu.poll := by
      rw [CPU.set]
      cases number parsed register.maximum with
      | none => rfl
      | some value => cases register <;> rfl
    exact hpoll.symm ▸ hasked

end Machine

end SixFiveOhTwo
