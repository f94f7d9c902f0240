import SixFiveOhTwo.Polling.Edges

/-! # When a cancelled NMI is taken after all

Releasing NMI clears the latch and what was polled. Inside an instruction there is one more copy: if the
instruction has polled the NMI when a callback of its last access releases it, `deferred` keeps the
requests from before the release, and the end of the step makes them what was polled.

* `Machine.NmiFree`: from here on, until NMI is requested again, no step loads PC from $FFFA.
* `Machine.nmi_cancelled`: a release between two steps brings that about; one inside a callback does
  exactly when its instruction had not polled the NMI.
-/

namespace SixFiveOhTwo
open Bits Interaction
set_option autoImplicit false

/-- A release, with no request after it, leaves the latch clear at the end of a record. -/
theorem Threads.cancelled {gap : ℕ → ℕ → Prop} (hgap : ∀ r r', gap r r' → ¬Latched r → ¬Latched r')
    {requests : ℕ} {before after : List HostCall} {c : HostCall} {earlier rest : List Call}
    (ht : Threads gap requests (before ++ c :: after))
    (hc : c.calls = earlier ++ .clearNonMaskableInterrupt :: rest)
    (hno : .requestNonMaskableInterrupt ∉ rest ++ callsOf after) :
    ¬Latched (Poll.lastRequests requests (before ++ c :: after)) := by
  obtain ⟨-, ⟨r, -, -, htells⟩, hafter⟩ := threads_append.mp ht
  rw [List.mem_append, not_or] at hno
  have hreleased : ¬Latched c.requests := by
    rw [htells, hc, requestsAfter, List.foldl_append, List.foldl_cons]
    refine requestsAfter_keeps (Q := fun r => ¬Latched r) ?_ (not_latched_without _)
    exact fun call hcall => unlatched_keeps fun he => hno.1 (he ▸ hcall)
  rw [Poll.lastRequests_append, Poll.lastRequests_cons]
  exact (hafter.recorded hgap (unlatched_callsOf hno.2) hreleased).2

namespace Machine
variable {σ : Type} (H : Host σ) (chip : Chip)

/-- The step is an instruction, not JAM, whose poll saw the latch set. -/
def StepLog.PolledNmi (log : StepLog) : Prop :=
  log.kind = .instruction ∧ (opcodes (opcodeOf log.trace)).jams = false ∧
    ∃ v, (opcodes (opcodeOf log.trace)).sample log.trace = some v ∧ Latched v

/-- From here on, until NMI is requested again, no step loads PC from $FFFA. -/
def NmiFree (m : Machine σ) : Prop :=
  ∀ later : List (Action σ),
    .requestNonMaskableInterrupt ∉ ((act H chip).shown m later).flatMap Event.calls →
    let log := (((act H chip).final m later).step H chip).1
    .requestNonMaskableInterrupt ∉ callsOf (log.trace.take log.decidedAfter) → ¬log.LoadsNmi

/-- The latch is clear everywhere, or it is clear and the processor has stopped. -/
def Cancelled (m : Machine σ) : Prop :=
  m.Quiet ∨ m.Polled ∧ ¬Latched m.cpu.poll.requests ∧ m.cpu.core.halted = true

theorem step_halted {m : Machine σ} (h : m.Settled) (hh : m.cpu.core.halted = true) :
    (m.step H chip).1.kind = .reset ∨ (m.step H chip).1.kind = .jamIdle := by
  rw [(step_kind H chip h.1 h.2).1, boundary, hh]
  cases m.cpu.poll.resetPending with
  | true => exact .inl rfl
  | false => exact .inr rfl

theorem act_cancelled (action : Action σ) (m : Machine σ) (h : m.Cancelled)
    (hcalls : .requestNonMaskableInterrupt ∉ (act H chip action m).1.calls) :
    (act H chip action m).2.Cancelled := by
  rcases h with hquiet | ⟨hpolled, hrequests, hhalted⟩
  · exact .inl (act_quiet H chip action m hquiet hcalls)
  have hpolled' := act_polled H chip action m hpolled
  cases action with
  | host move => exact .inr ⟨hpolled', hrequests, hhalted⟩
  | call call =>
    have hne : call ≠ .requestNonMaskableInterrupt := fun he => hcalls (he ▸ List.mem_singleton_self _)
    refine .inr ⟨hpolled', ?_, ?_⟩
    · change ¬Latched (call.apply m.cpu).poll.requests
      rw [Call.apply_poll, Call.onPoll_requests]
      exact unlatched_keeps hne _ hrequests
    · exact (congrArg Core.halted (Call.apply_core call m.cpu)).trans hhalted
  | step =>
    have hstep := step_cases H chip hpolled.settled
    have hend : ¬Latched (m.step H chip).2.cpu.poll.requests := by
      rw [hstep.threads.2]
      exact (hstep.threads.1.recorded unlatches_keeps (unlatched_callsOf hcalls) hrequests).2
    have hknown := hstep.known hpolled.sound
    have hleaves := step_leaves H chip hpolled.settled.1
    rcases step_halted H chip hpolled.settled hhalted with hk | hk
    · rw [hk] at hknown
      exact .inl ⟨hpolled'.settled, hpolled'.sound, hend, fun v hv => absurd (hknown.symm.trans hv) (by simp)⟩
    · rw [hk] at hleaves
      exact .inr ⟨hpolled', hend, (congrArg Core.halted hleaves).trans hhalted⟩

theorem Cancelled.nmiFree {m : Machine σ} (h : m.Cancelled) : m.NmiFree H chip := by
  intro later hlater log hcalls
  have hevents : ∀ event ∈ (act H chip).shown m later,
      .requestNonMaskableInterrupt ∉ Event.calls event := fun event he hc =>
    hlater (List.mem_flatMap.mpr ⟨event, he, hc⟩)
  have hend : ((act H chip).final m later).Cancelled :=
    System.final_preserves_of_shown (act_cancelled H chip) h hevents
  rcases hend with hquiet | ⟨hpolled, -, hhalted⟩
  · exact hquiet.not_loadsNmi H chip hcalls
  · rintro ⟨henters, -⟩
    have hk := step_halted H chip hpolled.settled hhalted
    rcases henters with he | he | ⟨he, -⟩ <;> rcases hk with hk | hk <;>
      exact absurd (he.symm.trans hk) (by simp)

/-! ## A release inside a callback -/

/-- A release that its instruction's poll has not missed leaves the latch clear everywhere. -/
theorem step_cancelled {m : Machine σ} (h : m.Polled) (hpolled : ¬(m.step H chip).1.PolledNmi)
    {before after : List HostCall} {c : HostCall} {earlier rest : List Call}
    (htrace : (m.step H chip).1.trace = before ++ c :: after)
    (hc : c.calls = earlier ++ .clearNonMaskableInterrupt :: rest)
    (hno : .requestNonMaskableInterrupt ∉ rest ++ callsOf after) : (m.step H chip).2.Cancelled := by
  have h' := act_polled H chip .step m h
  have hstep := step_cases H chip h.settled
  have hknown := hstep.known h.sound
  have hleaves := step_leaves H chip h.settled.1
  obtain ⟨hthreads, hlast⟩ := hstep.threads
  have hend : ¬Latched (m.step H chip).2.cpu.poll.requests := by
    rw [hlast, htrace]
    rw [htrace] at hthreads
    exact hthreads.cancelled unlatches_keeps hc hno
  have hskipped : (m.step H chip).2.cpu.poll.known = none → (m.step H chip).2.Cancelled := fun hk =>
    .inl ⟨h'.settled, h'.sound, hend, fun v hv => absurd (hk.symm.trans hv) (by simp)⟩
  cases hk : (m.step H chip).1.kind with
  | reset | nmi | irq =>
    rw [hk] at hknown
    exact hskipped hknown
  | jamIdle =>
    rw [hk] at hleaves
    have hhalted := halted_of_jamIdle ((step_kind H chip h.settled.1 h.settled.2).1.symm.trans hk)
    exact .inr ⟨h', hend, (congrArg Core.halted hleaves).trans hhalted⟩
  | instruction =>
    rw [hk] at hknown hleaves
    obtain ⟨opcode, hopcode, hsample⟩ := hknown
    obtain ⟨opcode', t, hhead, -, hhalted⟩ := hleaves
    have hopcode' : opcodeOf (m.step H chip).1.trace = opcode' := opcodeOf_eq (by rw [hhead]; rfl)
    rw [← opcodeOf_eq hopcode] at hsample
    rw [← hopcode'] at hhalted
    cases hjam : (opcodes (opcodeOf (m.step H chip).1.trace)).jams with
    | true =>
      rw [hjam, Bool.true_or] at hhalted
      exact .inr ⟨h', hend, hhalted⟩
    | false =>
      refine .inl ⟨h'.settled, h'.sound, hend, fun v hv hlatched => ?_⟩
      exact hpolled ⟨hk, hjam, v, hsample.symm.trans hv, hlatched⟩

/-- An NMI that its instruction had polled is taken at the next boundary, once no reset is pending. -/
theorem step_polledNmi {m : Machine σ} (h : m.Polled) (hpolled : (m.step H chip).1.PolledNmi) :
    ¬(m.step H chip).2.NmiFree H chip := by
  obtain ⟨hk, hjam, v, hv, hlatched⟩ := hpolled
  have hknown := (step_cases H chip h.settled).known h.sound
  have hleaves := step_leaves H chip h.settled.1
  rw [hk] at hknown hleaves
  obtain ⟨opcode, hopcode, hsample⟩ := hknown
  obtain ⟨opcode', t, hhead, -, hhalted⟩ := hleaves
  have hopcode' : opcodeOf (m.step H chip).1.trace = opcode' := opcodeOf_eq (by rw [hhead]; rfl)
  rw [← opcodeOf_eq hopcode] at hsample
  rw [← hopcode', hjam, Bool.false_or] at hhalted
  have hrunning := running_of_instruction ((step_kind H chip h.settled.1 h.settled.2).1.symm.trans hk)
  have hseen : (m.step H chip).2.Seen := ⟨act_polled H chip .step m h, v, hsample.trans hv, hlatched⟩
  have hseen' := act_seen H chip (.call .clearReset) _ hseen ⟨rfl, by simp [act, Event.calls]⟩
  have hkind := hseen'.kind H chip (hhalted.trans hrunning) rfl
  intro hfree
  refine hfree [.call .clearReset] (by simp [act, Event.calls]) ?_ (loadsNmi_of_kind H chip hseen'.polled.settled hkind)
  simp only [System.final_cons, System.final_nil, StepLog.decidedAfter, hkind, if_true]
  exact List.not_mem_nil

/-- **A cancelled NMI is not taken, unless its instruction had polled it.** From any boundary of any run
from construction, until NMI is requested again:

* after a release between two steps no step loads PC from $FFFA;
* after a release inside a callback of a step, none of the following steps does if and only if the step
  is not an instruction that had polled the NMI;
* after a release before its vector is decided, a BRK or an IRQ entry does not. -/
theorem nmi_cancelled (readByte writeByte : Callable) (host : σ) (actions : List (Action σ)) :
    let m := (act H chip).final (start readByte writeByte host) actions
    let log := (m.step H chip).1
    (act H chip (.call .clearNonMaskableInterrupt) m).2.NmiFree H chip ∧
    (∀ before c after earlier rest, log.trace = before ++ c :: after →
      c.calls = earlier ++ .clearNonMaskableInterrupt :: rest →
      .requestNonMaskableInterrupt ∉ rest ++ callsOf after →
      ((m.step H chip).2.NmiFree H chip ↔ ¬log.PolledNmi)) ∧
    ∀ before c after earlier rest, log.trace.take 4 = before ++ c :: after →
      c.calls = earlier ++ .clearNonMaskableInterrupt :: rest →
      .requestNonMaskableInterrupt ∉ rest ++ callsOf after → log.kind ≠ .nmi → ¬log.LoadsNmi := by
  intro m log
  have hm : m.Polled := System.final_preserves (act_polled H chip) (start_polled readByte writeByte host) actions
  refine ⟨?_, ?_, ?_⟩
  · have hm' := act_polled H chip (.call .clearNonMaskableInterrupt) m hm
    refine Cancelled.nmiFree H chip (.inl ⟨hm'.settled, hm'.sound, not_latched_without _, fun v hv => ?_⟩)
    change (Call.clearNonMaskableInterrupt.onPoll m.cpu.poll).known = some v at hv
    rw [Poll.known_call hm.sound, Option.map_eq_some_iff] at hv
    obtain ⟨w, -, rfl⟩ := hv
    exact not_latched_without w
  · intro before c after earlier rest htrace hc hno
    constructor
    · exact fun hfree hpolled => step_polledNmi H chip hm hpolled hfree
    · exact fun hpolled => (step_cancelled H chip hm hpolled htrace hc hno).nmiFree H chip
  · rintro before c after earlier rest htake hc hno hkind ⟨henters, hvector⟩
    obtain ⟨t, u, htrace, hlen, ht, hvec, -, -⟩ := (step_cases H chip hm.settled).frame (henters.resolve_left hkind)
    have hcalls : t = before ++ c :: after := by
      rw [← htake]
      exact (htrace ▸ List.take_left' hlen).symm
    have hend : ¬Latched (m.cpu.poll.forget.accesses t).requests := by
      rw [Poll.requests_accesses ht]
      have hthreads : Threads Eq m.cpu.poll.forget.requests t := ht.threads (fun _ => rfl) rfl
      rw [hcalls] at hthreads ⊢
      exact hthreads.cancelled eq_keeps hc hno
    have hshape := vector_shape hlen hvec
    rw [Poll.vector_unlatched hend, ← htrace, hvector] at hshape
    exact absurd hshape (by decide)

/-- A host that answers every read with NOP, and makes the calls of a script. -/
def scripted : Host (List (List Call)) where
  readByte _ _ script := (0xEA, script.headD [], script.tail)
  writeByte _ _ _ script := (script.headD [], script.tail)

/-- A NOP whose first access requests NMI, and whose last one releases it. -/
def lateRelease : Machine (List (List Call)) :=
  start (.host 0) (.host 0) [[.requestNonMaskableInterrupt], [.clearNonMaskableInterrupt]]

/-- The released NMI is taken: nothing is requested, and the next step is an NMI entry. -/
theorem lateRelease_taken :
    let next := (lateRelease.step scripted mos6502).2
    (lateRelease.step scripted mos6502).1.trace.map HostCall.calls =
        [[.requestNonMaskableInterrupt], [.clearNonMaskableInterrupt]] ∧
      next.cpu.poll.requests = 0 ∧ (next.step scripted mos6502).1.kind = .nmi ∧
      (next.step scripted mos6502).1.LoadsNmi ∧ callsOf (next.step scripted mos6502).1.trace = [] := by
  decide +kernel

theorem nmi_cancelled_lateRelease :
    (act scripted mos6502 (.call .clearNonMaskableInterrupt) lateRelease).2.NmiFree scripted mos6502 ∧
      ((lateRelease.step scripted mos6502).2.NmiFree scripted mos6502 ↔
        ¬(lateRelease.step scripted mos6502).1.PolledNmi) ∧
      ¬(lateRelease.step scripted mos6502).1.LoadsNmi := by
  obtain ⟨hbetween, hinside, hvector⟩ := nmi_cancelled scripted mos6502 (.host 0) (.host 0)
    [[.requestNonMaskableInterrupt], [.clearNonMaskableInterrupt]] []
  refine ⟨hbetween, ?_, ?_⟩
  · refine hinside [⟨0, .r 0 0xEA, [.requestNonMaskableInterrupt], [], 2⟩]
      ⟨0, .r 1 0xEA, [.clearNonMaskableInterrupt], [], 0⟩ [] [] [] ?_ rfl ?_
    · decide +kernel
    · decide
  · refine hvector [⟨0, .r 0 0xEA, [.requestNonMaskableInterrupt], [], 2⟩]
      ⟨0, .r 1 0xEA, [.clearNonMaskableInterrupt], [], 0⟩ [] [] [] ?_ rfl ?_ ?_
    · decide +kernel
    · decide
    · decide +kernel

end Machine

end SixFiveOhTwo
