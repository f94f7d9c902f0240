import SixFiveOhTwo.Frames.Entries
import SixFiveOhTwo.Halting.Jam

/-! # IRQ is a level

The line matters throughout a step: where it is asserted all through one, the next boundary that the I flag lets
through takes an interrupt, and where it is released all through one, the next boundary is no IRQ entry. No
sequence that does not poll is an exception, since all of them set I.
-/

namespace SixFiveOhTwo
open Bits Interaction
set_option autoImplicit false

/-- The IRQ line is asserted. -/
abbrev Asserted (requests : ℕ) : Prop := requests &&& irqLine ≠ 0

theorem asserted_or (a b : ℕ) : Asserted (a ||| b) ↔ Asserted a ∨ Asserted b := by
  rw [Asserted, Nat.and_or_distrib_right, ne_eq, Nat.or_eq_zero_iff, not_and_or]

theorem asserted_without_nmi (a : ℕ) : Asserted (without a nmiLatch) ↔ Asserted a := by
  rw [Asserted, without_and_of_disjoint (by decide)]

theorem asserted_keeps {call : Call} (h : call ≠ .clearMaskableInterrupt) : call.Keeps Asserted := by
  intro r hr
  cases call with
  | requestMaskableInterrupt => exact (asserted_or r irqLine).mpr (.inl hr)
  | clearMaskableInterrupt => exact absurd rfl h
  | requestNonMaskableInterrupt => exact (asserted_or r nmiLatch).mpr (.inl hr)
  | clearNonMaskableInterrupt => exact (asserted_without_nmi r).mpr hr
  | _ => exact hr

theorem released_keeps {call : Call} (h : call ≠ .requestMaskableInterrupt) : call.Keeps fun r => ¬Asserted r := by
  intro r hr
  cases call with
  | requestMaskableInterrupt => exact absurd rfl h
  | clearMaskableInterrupt => exact fun h' => h' (without_and_self r irqLine)
  | requestNonMaskableInterrupt =>
    refine fun h' => hr (((asserted_or r nmiLatch).mp h').resolve_right ?_)
    decide
  | clearNonMaskableInterrupt => exact fun h' => hr ((asserted_without_nmi r).mp h')
  | _ => exact hr

theorem keeps_callsOf {Q : ℕ → Prop} {call : Call} (hQ : ∀ other : Call, other ≠ call → other.Keeps Q)
    {t : List HostCall} (h : call ∉ callsOf t) : ∀ c ∈ t, ∀ other ∈ c.calls, Call.Keeps Q other := by
  intro c hc other hother
  exact hQ other fun he => h (List.mem_flatMap.mpr ⟨c, hc, he ▸ hother⟩)

theorem Entry.oldI_of_isBrk {entry : Entry} (h : entry.isBrk = true) (p : ℕ) : entry.oldI p = none := by
  cases entry with
  | addressed handler mode cycles => rfl
  | implied handler cycles => cases handler <;> first | rfl | cases h

namespace Machine
variable {σ : Type} (H : Host σ) (chip : Chip)

/-- What held of the requests before an instruction other than BRK, and what its callbacks keep, holds of what it
polled. -/
theorem step_polls {m : Machine σ} (h : m.Polled) {Q : ℕ → Prop} (hor : ∀ a b, Q a → Q b → Q (a ||| b))
    (hcalls : ∀ c ∈ (m.step H chip).1.trace, ∀ call ∈ c.calls, call.Keeps Q) (hm : Q m.cpu.poll.requests)
    (hkind : (m.step H chip).1.kind = .instruction)
    (hbrk : (opcodes (opcodeOf (m.step H chip).1.trace)).isBrk = false) :
    ∃ v, (m.step H chip).2.cpu.poll.known = some v ∧ Q v := by
  have hstep := step_cases H chip h.settled
  rw [hkind] at hstep
  obtain ⟨hthreads, hlen, v, hv, hknown⟩ := hstep.instruction h.sound hbrk
  exact ⟨v, hknown, (hthreads.recorded eq_keeps hcalls hm).1.polled hlen hor hv⟩

/-- Every sequence that does not poll sets I, and the next boundary decides by it. -/
theorem step_masks {m : Machine σ} (h : m.Settled)
    (hsequence : (m.step H chip).1.Enters ∨ (m.step H chip).1.kind = .reset) :
    (m.step H chip).2.cpu.core.masking ≠ 0 := by
  have hmasked {c : Core} (hpolled : c.polledI = none) {p : ℕ} (hp : c.p = p ||| flagI) : c.masking ≠ 0 := by
    rw [Core.masking, hpolled, Option.getD_none, hp, Nat.and_or_distrib_right]
    intro hzero
    exact absurd (Nat.or_eq_zero_iff.mp hzero).2 (by decide)
  have hleaves := step_leaves H chip h.1
  rcases hsequence with henters | hreset
  · obtain ⟨d, e, v, low, high, htrace, -, hentered⟩ := step_sequenced H chip h henters
    refine hmasked ?_ hentered.p
    rcases henters with hkind | hkind | ⟨hkind, hbrk⟩
    · rw [hkind] at hleaves
      exact hleaves
    · rw [hkind] at hleaves
      exact hleaves
    · rw [hkind] at hleaves
      obtain ⟨opcode, t, ht, hpolled, -⟩ := hleaves
      have hopcode : opcodeOf (m.step H chip).1.trace = opcode := opcodeOf_eq (by rw [ht]; rfl)
      rw [hpolled]
      exact Entry.oldI_of_isBrk (hopcode ▸ hbrk) _
  · have hpending : m.cpu.poll.resetPending = true := by
      have hkind := (step_kind H chip h.1 h.2).1
      rw [hreset] at hkind
      have hboundary : boundary m.cpu.core m.cpu.poll = .reset := hkind.symm
      by_contra hno
      cases hh : m.cpu.core.halted with
      | true => simp [boundary, hno, hh] at hboundary
      | false =>
        have hrunning := Plain.boundary_of_running (q := m.opened) (Bool.eq_false_iff.mpr hno) hh
        rw [show m.opened.boundary = .reset from hboundary] at hrunning
        simp at hrunning
    obtain ⟨-, ⟨-, -, -, low, high, -, hcore⟩, -⟩ := step_reset H chip h.1 hpending
    exact hmasked (by rw [hcore]; rfl) (p := m.cpu.core.p) (by rw [hcore]; rfl)

/-! ## What a boundary takes -/

/-- A boundary lets an IRQ through: the processor runs, no reset is pending, and the I flag that decides is clear. -/
structure Open (m : Machine σ) : Prop where
  running : m.cpu.core.halted = false
  noReset : m.cpu.poll.resetPending = false
  unmasked : m.cpu.core.masking = 0

theorem Polled.kind {m : Machine σ} (h : m.Polled) : (m.step H chip).1.kind = boundary m.cpu.core m.cpu.poll :=
  (step_kind H chip h.settled.1 h.settled.2).1

/-- An IRQ entry is at an open boundary that has polled the line asserted. -/
theorem Polled.of_irq {m : Machine σ} (h : m.Polled) (hkind : (m.step H chip).1.kind = .irq) :
    m.Open ∧ ∃ v, m.cpu.poll.known = some v ∧ Asserted v := by
  rw [h.kind] at hkind
  cases hr : m.cpu.poll.resetPending with
  | true => simp [boundary, hr] at hkind
  | false =>
    cases hh : m.cpu.core.halted with
    | true => simp [boundary, hr, hh] at hkind
    | false =>
      rw [boundary_takes hr hh, Eager.takes] at hkind
      cases hk : m.cpu.poll.known with
      | none => simp [hk] at hkind
      | some v =>
        simp only [hk] at hkind
        split at hkind
        · cases hkind
        · split at hkind
          · next htaken => exact ⟨⟨hh, hr, htaken.2⟩, v, rfl, htaken.1⟩
          · cases hkind

/-- An open boundary that has polled the line asserted takes an interrupt. -/
theorem Open.kind {m : Machine σ} (h : m.Open) (hp : m.Polled) {v : ℕ} (hknown : m.cpu.poll.known = some v)
    (hv : Asserted v) : (m.step H chip).1.kind = .nmi ∨ (m.step H chip).1.kind = .irq := by
  rw [hp.kind, boundary_takes h.noReset h.running, Eager.takes, hknown]
  dsimp only
  split
  · exact .inl rfl
  · rw [if_pos ⟨hv, h.unmasked⟩]
    exact .inr rfl

/-- Until the next step, the registers stay, and what was polled keeps what the calls keep. -/
theorem between_polls {Q : ℕ → Prop} {m : Machine σ} (h : m.Polled) (between : List (Action σ))
    (hevents : ∀ event ∈ (act H chip).shown m between, event.isStep = false ∧ ∀ call ∈ event.calls, call.Keeps Q) :
    let m' := (act H chip).final m between
    m'.Polled ∧ m'.cpu.core = m.cpu.core ∧
      ((∃ v, m.cpu.poll.known = some v ∧ Q v) → ∃ v, m'.cpu.poll.known = some v ∧ Q v) := by
  refine System.final_preserves_of_shown (E := fun event : Event => event.isStep = false ∧
    ∀ call ∈ event.calls, call.Keeps Q) (I := fun m' : Machine σ => m'.Polled ∧ m'.cpu.core = m.cpu.core ∧
      ((∃ v, m.cpu.poll.known = some v ∧ Q v) → ∃ v, m'.cpu.poll.known = some v ∧ Q v)) ?_ ⟨h, rfl, id⟩ hevents
  rintro action m₁ ⟨hpolled, hcore, hknown⟩ ⟨hstep, hcalls⟩
  refine ⟨act_polled H chip action m₁ hpolled, ?_⟩
  cases action with
  | step => exact absurd hstep (by simp [act, Event.isStep])
  | host move => exact ⟨hcore, hknown⟩
  | call call =>
    refine ⟨(Call.apply_core call m₁.cpu).trans hcore, fun hv => ?_⟩
    obtain ⟨v, hv, hQ⟩ := hknown hv
    have hmoved : (call.apply m₁.cpu).poll.known = m₁.cpu.poll.known.map call.onRequests := by
      rw [Call.apply_poll, Poll.known_call hpolled.sound]
    exact ⟨_, hmoved.trans (congrArg _ hv), hcalls call (List.mem_singleton_self call) v hQ⟩

/-- What is open after a step without another was an instruction that polled. -/
theorem open_polls {m : Machine σ} (h : m.Polled) (hopen : ∀ c, c = (m.step H chip).2.cpu.core →
      c.halted = false ∧ c.masking = 0) {Q : ℕ → Prop} (hor : ∀ a b, Q a → Q b → Q (a ||| b))
    (hcalls : ∀ c ∈ (m.step H chip).1.trace, ∀ call ∈ c.calls, call.Keeps Q) (hm : Q m.cpu.poll.requests) :
    ∃ v, (m.step H chip).2.cpu.poll.known = some v ∧ Q v := by
  obtain ⟨hrunning, hunmasked⟩ := hopen _ rfl
  have hnever (hsequence : (m.step H chip).1.Enters ∨ (m.step H chip).1.kind = .reset) : False :=
    step_masks H chip h.settled hsequence hunmasked
  cases hkind : (m.step H chip).1.kind with
  | reset => exact (hnever (.inr hkind)).elim
  | nmi => exact (hnever (.inl (.inl hkind))).elim
  | irq => exact (hnever (.inl (.inr (.inl hkind)))).elim
  | jamIdle =>
    have hleaves := step_leaves H chip h.settled.1
    rw [hkind] at hleaves
    have hsame : (m.step H chip).2.cpu.core = m.cpu.core := hleaves
    have hboundary := (h.kind H chip).symm.trans hkind
    rw [boundary, ← hsame, hrunning] at hboundary
    exact absurd hboundary (by grind)
  | instruction =>
    cases hbrk : (opcodes (opcodeOf (m.step H chip).1.trace)).isBrk with
    | true => exact (hnever (.inl (.inr (.inr ⟨hkind, hbrk⟩)))).elim
    | false => exact step_polls H chip h hor hcalls hm hkind hbrk

/-- **IRQ is a level.** From any boundary of any run from construction, with no other step up to the next boundary:

* if the line is asserted and nothing releases it, and the next boundary is open, it takes an interrupt;
* if the line is released and nothing asserts it, the next boundary is no IRQ entry. -/
theorem irq_level (readByte writeByte : Callable) (host : σ) (actions between : List (Action σ)) :
    let m := (act H chip).final (start readByte writeByte host) actions
    let shown := (act H chip).shown (m.step H chip).2 between
    let m' := (act H chip).final (m.step H chip).2 between
    let calls := callsOf (m.step H chip).1.trace ++ shown.flatMap Event.calls
    (∀ event ∈ shown, event.isStep = false) →
    (Asserted m.cpu.poll.requests → .clearMaskableInterrupt ∉ calls → m'.Open →
      (m'.step H chip).1.kind = .nmi ∨ (m'.step H chip).1.kind = .irq) ∧
    (¬Asserted m.cpu.poll.requests → .requestMaskableInterrupt ∉ calls → (m'.step H chip).1.kind ≠ .irq) := by
  intro m shown m' calls hbetween
  have hm : m.Polled := System.final_preserves (act_polled H chip) (start_polled readByte writeByte host) actions
  have hnext : (m.step H chip).2.Polled := act_polled H chip .step m hm
  -- what the calls keep of the requests is polled where the next boundary is open
  have hpolls {Q : ℕ → Prop} {call : Call} (hQ : ∀ other : Call, other ≠ call → other.Keeps Q)
      (hor : ∀ a b, Q a → Q b → Q (a ||| b)) (hcall : call ∉ calls) (hrequests : Q m.cpu.poll.requests)
      (hopen : m'.Open) : m'.Polled ∧ ∃ v, m'.cpu.poll.known = some v ∧ Q v := by
    obtain ⟨hlog, hevents⟩ := not_or.mp fun hmem => hcall (List.mem_append.mpr hmem)
    obtain ⟨hpolled, hcore, hknown⟩ := between_polls H chip hnext between fun event hevent =>
      ⟨hbetween event hevent, fun other hother => hQ other fun he =>
        hevents (List.mem_flatMap.mpr ⟨event, hevent, he ▸ hother⟩)⟩
    refine ⟨hpolled, hknown (open_polls H chip hm ?_ hor (keeps_callsOf hQ hlog) hrequests)⟩
    rintro c rfl
    rw [← hcore]
    exact ⟨hopen.running, hopen.unmasked⟩
  constructor
  · intro hasserted hcall hopen
    obtain ⟨hpolled, v, hv, hline⟩ := hpolls (Q := Asserted) (fun other hne => asserted_keeps hne)
      (fun a b ha _ => (asserted_or a b).mpr (.inl ha)) hcall hasserted hopen
    exact hopen.kind H chip hpolled hv hline
  · intro hreleased hcall hkind
    have hpolled : m'.Polled := System.final_preserves (act_polled H chip) hnext between
    obtain ⟨hopen, v, hv, hline⟩ := hpolled.of_irq H chip hkind
    obtain ⟨-, w, hw, hclear⟩ := hpolls (Q := fun r => ¬Asserted r) (fun other hne => released_keeps hne)
      (fun a b ha hb h => ((asserted_or a b).mp h).elim ha hb) hcall hreleased hopen
    exact hclear (Option.some.inj (hv.symm.trans hw) ▸ hline)

/-- CLI and NOPs, where CLI has just run with the line asserted. -/
def allowing : Machine (ℕ → Byte) :=
  (act .flat mos6502).final (start (.host 0) (.host 0) (holding 0 [0x58, 0xEA, 0xEA, 0xEA]))
    [.call .requestMaskableInterrupt, .step]

theorem irq_level_allowing :
    ((allowing.step .flat mos6502).2.step .flat mos6502).1.kind = .nmi ∨
      ((allowing.step .flat mos6502).2.step .flat mos6502).1.kind = .irq :=
  (irq_level .flat mos6502 (.host 0) (.host 0) (holding 0 [0x58, 0xEA, 0xEA, 0xEA])
    [.call .requestMaskableInterrupt, .step] [] (by simp)).1 (by decide +kernel) (by decide +kernel)
    ⟨by decide +kernel, by decide +kernel, by decide +kernel⟩

end Machine

end SixFiveOhTwo
