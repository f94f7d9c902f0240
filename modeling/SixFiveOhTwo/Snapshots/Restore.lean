import SixFiveOhTwo.Debug.Boundary
import SixFiveOhTwo.Ranges.Runs
import SixFiveOhTwo.Snapshots.Alike

/-! # A snapshot is complete

Between two steps a poll matters by its requests, by the pending reset, and by what it knows
(`Poll.Same`). Everything a snapshot drops is beyond these: `Machine.snapshot_complete` says that a
processor restored from the snapshot of a run goes on as the run does.

* `Plain.step_same`: a step from polls that are the same ends in polls that are the same.
* `CPU.captureState_congr`: they are captured the same.
* `CPU.restored_same`: a restored poll is the same as the captured one.
-/

namespace SixFiveOhTwo
open Bits Interaction
set_option autoImplicit false

/-! ## Polls that are the same between steps -/

namespace Poll

/-- Two polls that no later step and no later snapshot tells apart. -/
structure Same (p p' : Poll) : Prop where
  requests : p.requests = p'.requests
  resetPending : p.resetPending = p'.resetPending
  known : p.known = p'.known

variable {p p' : Poll}

theorem Sound.known_eq (h : p.Sound) :
    p.known = if p.deciding = noPoll then none else some p.deciding := by
  rw [known, deciding]
  cases hp : p.polled with
  | none =>
    have hne : p.requests ≠ noPoll := fun he => absurd (he ▸ h.requests) (by decide)
    rw [Option.getD_none, if_neg hne, if_neg (by simp)]
  | some v =>
    rw [Option.getD_some]
    simp only [Option.some.injEq]

theorem Sound.deciding (h : p.Sound) : IsRequests p.deciding ∨ p.deciding = noPoll := by
  rw [Poll.deciding]
  cases hp : p.polled with
  | none => exact .inl h.requests
  | some v => exact h.polled v hp

theorem Sound.deciding_lt (h : p.Sound) : p.deciding < 5 := by
  have hpoll := h.deciding
  unfold noPoll at hpoll
  omega

theorem Same.of_deciding (hs : p.Sound) (hs' : p'.Sound) (hrequests : p.requests = p'.requests)
    (hreset : p.resetPending = p'.resetPending) (hdeciding : p.deciding = p'.deciding) : p.Same p' :=
  ⟨hrequests, hreset, by rw [hs.known_eq, hs'.known_eq, hdeciding]⟩

theorem Same.deciding (h : p.Same p') (hs : p.Sound) (hs' : p'.Sound) : p.deciding = p'.deciding := by
  have hknown := h.known
  rw [hs.known_eq, hs'.known_eq] at hknown
  by_cases hno : p.deciding = noPoll
  · rw [if_pos hno] at hknown
    by_cases hno' : p'.deciding = noPoll
    · rw [hno, hno']
    · rw [if_neg hno'] at hknown
      cases hknown
  · rw [if_neg hno] at hknown
    by_cases hno' : p'.deciding = noPoll
    · rw [if_pos hno'] at hknown
      cases hknown
    · rw [if_neg hno'] at hknown
      exact Option.some.inj hknown

theorem onPoll_resetPending (h : p.resetPending = p'.resetPending) (call : Call) :
    (call.onPoll p).resetPending = (call.onPoll p').resetPending := by
  cases call with
  | requestMaskableInterrupt | requestNonMaskableInterrupt =>
    rw [Call.onPoll, Call.onPoll, see_resetPending, see_resetPending]
    exact h
  | requestReset | clearReset => rfl
  | _ => exact h

theorem Same.onPoll (h : p.Same p') (hs : p.Sound) (hs' : p'.Sound) (call : Call) :
    (call.onPoll p).Same (call.onPoll p') := by
  refine ⟨?_, onPoll_resetPending h.resetPending call, ?_⟩
  · rw [Call.onPoll_requests, Call.onPoll_requests, h.requests]
  · have hcalled := known_onPoll hs none call
    rw [h.known, known_onPoll hs' none call] at hcalled
    exact (congrArg Eager.polled hcalled).symm

theorem Same.applyCalls (h : p.Same p') (hs : p.Sound) (hs' : p'.Sound) (calls : List Call) :
    (p.applyCalls calls).Same (p'.applyCalls calls) := by
  induction calls generalizing p p' with
  | nil => exact h
  | cons call calls ih => exact ih (h.onPoll hs hs' call) (hs.onPoll call) (hs'.onPoll call)

theorem Same.access (h : p.Same p') (hs : p.Sound) (hs' : p'.Sound) (calls : List Call) :
    (p.access calls).Same (p'.access calls) := by
  have hconfirm : p.confirm.Same p'.confirm := ⟨h.requests, h.resetPending, h.known⟩
  exact hconfirm.applyCalls hs.confirm hs'.confirm calls

theorem Same.of_unstalled (h : p.unstalled = p'.unstalled) : p.Same p' := by
  have hrequests : p.unstalled.requests = p'.unstalled.requests := congrArg Poll.requests h
  have hreset : p.unstalled.resetPending = p'.unstalled.resetPending := congrArg Poll.resetPending h
  have hknown : p.unstalled.known = p'.unstalled.known := congrArg Poll.known h
  exact ⟨hrequests, hreset, hknown⟩

/-- Between steps, polls with the same requests are equal once what was polled is used up. -/
theorem unpolled_congr (hrequests : p.requests = p'.requests) (hreset : p.resetPending = p'.resetPending) :
    p.confirm.unpolled = p'.confirm.unpolled := by
  obtain ⟨resetPending, requests, polled, deferred, stalled, stalledBefore⟩ := p
  obtain ⟨resetPending', requests', polled', deferred', stalled', stalledBefore'⟩ := p'
  simp only at hrequests hreset
  subst hrequests hreset
  rfl

end Poll

/-! ## A step -/

namespace Plain
variable {σ : Type} (H : Host σ) (chip : Chip)

/-- Two machines that no later step tells apart. -/
structure Same (q q' : Plain σ) : Prop where
  core : q.core = q'.core
  poll : q.poll.Same q'.poll
  dmaStalled : q.dmaStalled = q'.dmaStalled
  host : q.host = q'.host
  trace : q.trace = q'.trace
  readByte : q.readByte = q'.readByte
  writeByte : q.writeByte = q'.writeByte

variable {q q' : Plain σ}

theorem Same.boundary (h : q.Same q') (hs : q.poll.Sound) (hs' : q'.poll.Sound) : q.boundary = q'.boundary := by
  rw [Plain.boundary, Plain.boundary, SixFiveOhTwo.boundary, SixFiveOhTwo.boundary, h.core,
    h.poll.deciding hs hs', h.poll.resetPending]

theorem Same.alike (h : q.Same q') : Alike (fun p => p.confirm.unpolled) q q' :=
  ⟨h.core, Poll.unpolled_congr h.poll.requests h.poll.resetPending, h.dmaStalled, h.host, h.trace, h.readByte, h.writeByte⟩

/-- Deciding boundaries of one kind does not look at what was polled. -/
theorem Alike.decided (h : Alike (fun p => p.confirm.unpolled) q q') (hboundary : q.boundary = q'.boundary) :
    Alike (fun p => p.confirm.unpolled) q.decided q'.decided := by
  have hdecided : ∀ (p : Poll) (kind : BoundaryKind), (p.decided kind).confirm.unpolled = p.confirm.unpolled := by
    intro p kind
    cases kind <;> rfl
  refine { h with core := ?_, poll := ?_ }
  · rw [Plain.decided, Plain.decided, hboundary, h.core]
  · exact (hdecided _ _).trans (h.poll.trans (hdecided _ _).symm)

theorem Alike.same (h : Alike Poll.unstalled q q') : q.Same q' :=
  ⟨h.core, .of_unstalled h.poll, h.dmaStalled, h.host, h.trace, h.readByte, h.writeByte⟩

/-- Where the boundary used up what was polled, nothing of it is left to differ. -/
theorem Alike.unstalled (h : Alike (fun p => p.confirm.unpolled) q q') (hp : q.poll.polled = none)
    (hp' : q'.poll.polled = none) : Alike (fun p => p.confirm.unstalled) q q' := by
  have hforgot : ∀ p : Poll, p.polled = none → p.confirm.unpolled = p.confirm.unstalled := by
    rintro ⟨resetPending, requests, polled, deferred, stalled, stalledBefore⟩ rfl
    rfl
  refine { h with poll := ?_ }
  have hpoll := h.poll
  simp only [hforgot _ hp, hforgot _ hp'] at hpoll
  exact hpoll

theorem haltedCycle_same (h : q.Same q') (hs : q.poll.Sound) (hs' : q'.poll.Sound) :
    (exec H Code.haltedCycle q).1 = (exec H Code.haltedCycle q').1 ∧
      (exec H Code.haltedCycle q).2.Same (exec H Code.haltedCycle q').2 := by
  obtain ⟨-, hread⟩ := alike_read (H := H) Poll.blind_unpolled h.alike 0xFFFF
  refine ⟨rfl, hread.core, ?_, hread.dmaStalled, hread.host, hread.trace, hread.readByte, hread.writeByte⟩
  have hcalls : (H.readByte q'.readByte 0xFFFF q'.host).2.1 = (H.readByte q.readByte 0xFFFF q.host).2.1 := by
    rw [h.readByte, h.host]
  have hpoll : ∀ q : Plain σ, (exec H Code.haltedCycle q).2.poll =
      q.poll.access (H.readByte q.readByte 0xFFFF q.host).2.1 := fun _ => rfl
  rw [hpoll, hpoll, hcalls]
  exact h.poll.access hs hs' _

/-- A boundary's work does not tell machines apart whose boundaries are of one kind and whose polls
differ in what was polled alone; unless it idles, it leaves them the same. -/
theorem ran_same (hboundary : q.boundary = q'.boundary) (hidle : q.boundary ≠ .jamIdle)
    (h : Alike (fun p => p.confirm.unpolled) q q') :
    (ran H chip q).1 = (ran H chip q').1 ∧ (ran H chip q).2.Same (ran H chip q').2 := by
  have hdecided := h.decided hboundary
  have hunpolled : ∀ kind, q.boundary = kind → (∀ p : Poll, (p.decided kind).polled = none) →
      Alike (fun p => p.confirm.unstalled) q.decided q'.decided := by
    intro kind hk hnone
    refine hdecided.unstalled ?_ ?_
    · rw [decided, hk]
      exact hnone _
    · rw [decided, ← hboundary, hk]
      exact hnone _
  rw [ran, ran, ← hboundary]
  cases hb : q.boundary with
  | reset =>
    obtain ⟨hcycles, hend⟩ := twins_acceptReset q.decided q'.decided hdecided
    exact ⟨hcycles, hend.same⟩
  | jamIdle => exact absurd hb hidle
  | nmi =>
    obtain ⟨hcycles, hend⟩ := twins_enterInterrupt nmiLatch _ _ (hunpolled .nmi hb fun _ => rfl)
    exact ⟨hcycles, hend.same⟩
  | irq =>
    obtain ⟨hcycles, hend⟩ := twins_enterInterrupt irqLine _ _ (hunpolled .irq hb fun _ => rfl)
    exact ⟨hcycles, hend.same⟩
  | instruction =>
    obtain ⟨hcycles, hend⟩ := twins_instruction chip _ _ (hunpolled .instruction hb fun _ => rfl)
    exact ⟨hcycles, hend.same⟩

theorem step_same (h : q.Same q') (hs : q.poll.Sound) (hs' : q'.poll.Sound) :
    (exec H (Code.step chip) q).1 = (exec H (Code.step chip) q').1 ∧
      (exec H (Code.step chip) q).2.Same (exec H (Code.step chip) q').2 := by
  have hboundary := h.boundary hs hs'
  have hran : (ran H chip q).1 = (ran H chip q').1 ∧ (ran H chip q).2.Same (ran H chip q').2 := by
    by_cases hidle : q.boundary = .jamIdle
    · have hdecided : q.decided = q ∧ q'.decided = q' := by
        rw [decided, decided, ← hboundary, hidle]
        exact ⟨rfl, rfl⟩
      rw [ran, ran, ← hboundary, hidle, hdecided.1, hdecided.2]
      exact haltedCycle_same H h hs hs'
    · exact ran_same H chip hboundary hidle h.alike
  rw [exec_step, exec_step, hboundary]
  exact ⟨congrArg (Prod.mk q'.boundary) hran.1, hran.2⟩

end Plain

/-! ## Capturing and restoring -/

/-- What `polledI` holds is the I flag, set or clear. -/
def Core.PolledFlag (core : Core) : Prop := ∀ i, core.polledI = some i → i = 0 ∨ i = flagI

namespace CPU

theorem captureState_congr {cpu cpu' : CPU} (hcore : cpu.core = cpu'.core) (h : cpu.poll.Same cpu'.poll)
    (hs : cpu.poll.Sound) (hs' : cpu'.poll.Sound) : cpu.captureState = cpu'.captureState := by
  have hdeciding : cpu.poll.polled.getD cpu'.poll.requests = cpu'.poll.polled.getD cpu'.poll.requests := by
    have hd := h.deciding hs hs'
    rw [Poll.deciding, Poll.deciding, h.requests] at hd
    exact hd
  simp only [captureState, hcore, h.requests, h.resetPending, hdeciding]

theorem restoreState_poll (cpu : CPU) (state : CPUState) {requests polled : ℕ}
    (hrequests : ((if state.maskableInterruptPending then irqLine else 0) |||
      (if state.nonMaskableInterruptPending then nmiLatch else 0)) = requests)
    (hpolled : (if state.skippedPoll then
      mergePolled (mergePolled requests irqLine state.polledMaskableInterrupt) nmiLatch
        state.polledNonMaskableInterrupt ||| noPoll
      else mergePolled (mergePolled requests irqLine state.polledMaskableInterrupt) nmiLatch
        state.polledNonMaskableInterrupt) = polled) :
    (cpu.restoreState state).poll = { cpu.poll with
      resetPending := state.resetPending, requests
      polled := if polled = requests then none else some polled, deferred := none } := by
  subst hrequests hpolled
  rfl

/-- What `_restore_poll` puts together is what was captured. -/
theorem restored_bits : ∀ (requests : Fin 4) (polled : Fin 5),
    (if requests.val &&& irqLine != 0 then irqLine else 0) |||
        (if requests.val &&& nmiLatch != 0 then nmiLatch else 0) = requests.val ∧
      (if polled.val &&& noPoll != 0 then
        mergePolled (mergePolled requests irqLine (differs polled requests irqLine)) nmiLatch
          (differs polled requests nmiLatch) ||| noPoll
      else mergePolled (mergePolled requests irqLine (differs polled requests irqLine)) nmiLatch
          (differs polled requests nmiLatch)) = polled.val := by
  decide

theorem restored_polledI {core : Core} (h : core.PolledFlag) :
    (core.polledI.map (· != 0)).map (fun seen => if seen then flagI else 0) = core.polledI := by
  cases hi : core.polledI with
  | none => rfl
  | some i =>
    rcases h i hi with rfl | rfl <;> rfl

/-- Restoring what was captured brings back the registers, and a poll that is the same. -/
theorem restored_same {cpu : CPU} {state : CPUState} (hs : cpu.poll.Sound) (hx : cpu.core.extra = 0)
    (hi : cpu.core.PolledFlag) (h : cpu.captureState = some state) (other : CPU) :
    (other.restoreState state).core = cpu.core ∧ (other.restoreState state).poll.Sound ∧
      (other.restoreState state).poll.Same cpu.poll := by
  unfold captureState at h
  extract_lets core requests polled at h
  split at h
  case isFalse => cases h
  case isTrue hvalid =>
    have hstate := Option.some.inj h
    obtain ⟨hrequests, hpolled⟩ := restored_bits ⟨requests, hs.requests⟩ ⟨polled, hs.deciding_lt⟩
    have hpoll : (other.restoreState state).poll = { other.poll with
        resetPending := state.resetPending, requests
        polled := if polled = requests then none else some polled, deferred := none } :=
      restoreState_poll other state (by rw [← hstate]; exact hrequests) (by rw [← hstate]; exact hpolled)
    have hsound : (other.restoreState state).poll.Sound := by
      rw [hpoll]
      refine ⟨hs.requests, ?_, by simp⟩
      intro v hv
      dsimp only at hv
      split at hv
      · cases hv
      · obtain rfl := Option.some.inj hv
        exact hs.deciding
    refine ⟨?_, hsound, ?_⟩
    · rw [← hstate]
      exact congrArg₂ (fun extra polledI => { core with extra, polledI }) hx.symm (restored_polledI hi)
    · refine .of_deciding hsound hs ?_ ?_ ?_
      · rw [hpoll]
      · rw [hpoll, ← hstate]
      · rw [hpoll, deciding_ite rfl]
        rfl

end CPU

end SixFiveOhTwo
