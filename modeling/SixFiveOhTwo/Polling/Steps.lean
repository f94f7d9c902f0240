import SixFiveOhTwo.Accounting.Bus
import SixFiveOhTwo.Polling.Scene

/-! # What a step can do to the poll

`Poll.Step` has one case for each kind of sequence: what the record of the step's accesses is, and
the poll it leaves. `step_cases` says that every step is one of them. What holds of the poll over
whole runs is proved from these cases, and the sequences are not opened again.
-/

namespace SixFiveOhTwo
open Bits Interaction Code
set_option autoImplicit false

/-! ## The cases -/

namespace Poll

/-- What was polled is used up. -/
def forget (p : Poll) : Poll := { p with polled := none }

/-- The NMI latch is taken. -/
def unlatched (p : Poll) : Poll := { p with requests := without p.requests nmiLatch }

/-- The vector BRK and IRQ choose: a latched NMI diverts them. -/
def vector (p : Poll) : ℕ := if p.requests &&& nmiLatch ≠ 0 then vectorNmi else vectorIrq

/-- The poll when that vector has been chosen. -/
def vectored (p : Poll) : Poll := if p.requests &&& nmiLatch ≠ 0 then p.unlatched else p

/-- The sequence did not poll. -/
def skipped (p : Poll) : Poll := { p with polled := some noPoll, deferred := none }

/-- The sequence polled `value`, whatever has been requested since. -/
def deferring (p : Poll) (value : ℕ) : Poll := { p with deferred := some value }

/-- What an instruction leaves unconfirmed is what it polled. -/
def settled (p : Poll) : Poll :=
  match p.deferred with
  | some deferred => { p with polled := some deferred, deferred := none }
  | none => p

/-- A taken branch has polled the stall of its next-opcode read. -/
def relieved (p : Poll) : Poll := if p.stalledBefore.isSome then p.unstalled else p

/-- The accesses of a branch after its offset, and the poll they leave: `early` is what it has polled
so far. -/
inductive Branched (early : ℕ) (p : Poll) : List HostCall → Poll → Prop
  | untaken : Branched early p [] p
  | samePage (c : HostCall) (hc : p.Records [c]) :
      Branched early p [c]
        ((p.access c.calls).relieved.deferring (early ||| (p.access c.calls).stalledBefore.getD 0))
  | otherPage (c d : HostCall) (hc : p.Records [c]) (hd : (p.access c.calls).relieved.Records [d]) :
      Branched early p [c, d]
        (((p.access c.calls).relieved.access d.calls).deferring
          ((early ||| (p.access c.calls).stalledBefore.getD 0) |||
            ((p.access c.calls).relieved.access d.calls).seen))

/-- The frame of BRK, IRQ and NMI after its two pushes of PC: P is pushed, and the vector read. -/
structure Vectors (vector : ℕ) (u : List HostCall) : Prop where
  length : u.length = 3
  low : ∃ value, (u.map HostCall.access)[1]? = some (.r vector value)
  high : ∃ value, (u.map HostCall.access)[2]? = some (.r (vector + 1) value)

/-- What a step can do to the poll, from the registers before it: the record of its accesses, and the
poll it leaves. -/
inductive Step (c : Core) (p : Poll) : BoundaryKind → List HostCall → Poll → Prop
  | reset (t : List HostCall) (hlen : t.length = 7)
      (ht : Poll.Records { p with resetPending := false } t) :
      Step c p .reset t (Poll.accesses { p with resetPending := false } t).skipped
  | jamIdle (d : HostCall) (hd : p.Records [d]) : Step c p .jamIdle [d] (p.access d.calls)
  | nmi (t u : List HostCall) (hlen : t.length = 2) (hlen' : u.length = 5) (ht : p.forget.Records t)
      (hu : (p.forget.accesses t).unlatched.Records u) :
      Step c p .nmi (t ++ u) ((p.forget.accesses t).unlatched.accesses u).skipped
  | irq (t u : List HostCall) (hlen : t.length = 4) (ht : p.forget.Records t)
      (hvec : Vectors (p.forget.accesses t).vector u) (hu : (p.forget.accesses t).vectored.Records u) :
      Step c p .irq (t ++ u) ((p.forget.accesses t).vectored.accesses u).skipped
  | brk (opcode : Byte) (cycles : ℕ) (hop : opcodes opcode = .implied .brk cycles) (t u : List HostCall)
      (hlen : t.length = 4) (hopcode : (t.map HostCall.access)[0]? = some (.r c.pc opcode))
      (ht : p.forget.Records t) (hvec : Vectors (p.forget.accesses t).vector u)
      (hu : (p.forget.accesses t).vectored.Records u) :
      Step c p .instruction (t ++ u) ((p.forget.accesses t).vectored.accesses u).skipped
  | branch (opcode : Byte) (handler : Implied) (cycles : ℕ)
      (hop : opcodes opcode = .implied handler cycles) (hb : (handler.taken 0).isSome)
      (d e : HostCall) (u : List HostCall) (hopcode : d.access = .r c.pc opcode)
      (hd : p.forget.Records [d]) (he : (p.forget.access d.calls).unstalled.Records [e]) (p' : Poll)
      (hu : Branched (((p.forget.access d.calls).unstalled.access e.calls).stalled.getD
          (p.forget.access d.calls).requests)
        ((p.forget.access d.calls).unstalled.access e.calls).unstalled u p') :
      Step c p .instruction (d :: e :: u) p'.settled
  | other (opcode : Byte) (hbrk : ∀ cycles, opcodes opcode ≠ .implied .brk cycles)
      (hb : ∀ handler cycles, opcodes opcode = .implied handler cycles → handler.taken 0 = none)
      (t : List HostCall) (hlen : 2 ≤ t.length)
      (hopcode : (t.map HostCall.access)[0]? = some (.r c.pc opcode)) (ht : p.forget.Records t) :
      Step c p .instruction t (p.forget.accesses t).settled

/-- The access that follows a reset of the stalls keeps none back but its own. -/
theorem unstalled_of_stalled_none {p : Poll} {c : HostCall} (hc : p.unstalled.Records [c])
    (hs : (p.unstalled.access c.calls).stalled = none) :
    (p.unstalled.access c.calls).unstalled = p.unstalled.access c.calls := by
  obtain ⟨hlast, hbefore⟩ := stalled_access hc
  rw [hs] at hlast
  have hnil : c.stalls = [] := List.getLast?_eq_none_iff.mp hlast.symm
  rw [hnil] at hbefore
  generalize p.unstalled.access c.calls = p' at hs hbefore
  obtain ⟨resetPending, requests, polled, deferred, stalled, stalledBefore⟩ := p'
  simp only at hs hbefore
  subst hs hbefore
  rfl

end Poll

/-! ## The sequences -/

theorem vectors_reaches (vector pushedP : ℕ) (g : Scene) :
    (do
      push pushedP
      update fun c => { c with p := c.p ||| flagI }
      let low ← Code.read vector
      let high ← Code.read (vector + 1)
      update ({ · with pc := (high <<< 8) ||| low })
      updatePoll ({ · with deferred := some noPoll }) : Code Unit).Reaches (fun _ g' => ∃ u,
        g'.trace = g.trace ++ u ∧ g.poll.Records u ∧ Poll.Vectors vector u ∧
          g'.poll = (g.poll.accesses u).deferring noPoll ∧ g'.core.polledI = g.core.polledI) g := by
  simp only [push, reaches_bind, reaches_core, reaches_write, reaches_update, reaches_read, reaches_updatePoll]
  intro c₁ h₁ r₁ low c₂ h₂ r₂ high c₃ h₃ r₃
  have hvec : Poll.Vectors vector [c₁, c₂, c₃] := ⟨rfl, ⟨low, by simp [h₂]⟩, ⟨high, by simp [h₃]⟩⟩
  exact ⟨[c₁, c₂, c₃], by simp, ⟨r₁.1, r₂.1, r₃.1, trivial⟩, hvec, rfl, rfl⟩

/-- An interrupt's frame: two pushes, the choice of the vector, and the rest. -/
theorem interrupt_reaches (vector pushedP : ℕ) (g : Scene) :
    (Code.interrupt vector pushedP).Reaches (fun _ g' => ∃ t u, t.length = 2 ∧
      g'.trace = g.trace ++ t ++ u ∧ g.poll.Records t ∧
      let diverted := vector ≠ vectorNmi ∧ (g.poll.accesses t).requests &&& nmiLatch ≠ 0
      let p := if diverted then (g.poll.accesses t).unlatched else g.poll.accesses t
      Poll.Vectors (if diverted then vectorNmi else vector) u ∧ p.Records u ∧
      g'.poll = (p.accesses u).deferring noPoll ∧ g'.core.polledI = g.core.polledI) g := by
  simp only [Code.interrupt, push, reaches_bind, reaches_core, reaches_write, reaches_update, reaches_poll]
  intro c₁ h₁ r₁ c₂ h₂ r₂
  rw [reaches_ite]
  split
  case isTrue hd =>
    have hd' : vector ≠ vectorNmi ∧ (g.poll.accesses [c₁, c₂]).requests &&& nmiLatch ≠ 0 := hd
    simp only [reaches_bind, reaches_updatePoll, reaches_pure]
    refine (vectors_reaches vectorNmi pushedP _).mono ?_
    rintro _ g' ⟨u, hu, hrec, hvec, hpoll, hcore⟩
    refine ⟨[c₁, c₂], u, rfl, by simpa using hu, ⟨r₁.1, r₂.1, trivial⟩, ?_⟩
    simp only [if_pos hd']
    exact ⟨hvec, hrec, hpoll, hcore⟩
  case isFalse hd =>
    have hd' : ¬(vector ≠ vectorNmi ∧ (g.poll.accesses [c₁, c₂]).requests &&& nmiLatch ≠ 0) := hd
    simp only [reaches_bind, reaches_pure]
    refine (vectors_reaches vector pushedP _).mono ?_
    rintro _ g' ⟨u, hu, hrec, hvec, hpoll, hcore⟩
    refine ⟨[c₁, c₂], u, rfl, by simpa using hu, ⟨r₁.1, r₂.1, trivial⟩, ?_⟩
    simp only [if_neg hd']
    exact ⟨hvec, hrec, hpoll, hcore⟩

theorem frame_reaches (pushedP : ℕ) (g : Scene) :
    (Code.interrupt vectorIrq pushedP).Reaches (fun _ g' => ∃ t u, t.length = 2 ∧
      g'.trace = g.trace ++ t ++ u ∧ g.poll.Records t ∧
      Poll.Vectors (g.poll.accesses t).vector u ∧ (g.poll.accesses t).vectored.Records u ∧
      g'.poll = ((g.poll.accesses t).vectored.accesses u).deferring noPoll ∧
      g'.core.polledI = g.core.polledI) g := by
  refine (interrupt_reaches vectorIrq pushedP g).mono ?_
  rintro _ g' ⟨t, u, hlen, htrace, hrec, hvec, hrec', hpoll, hcore⟩
  have hne : vectorIrq ≠ vectorNmi := by decide
  simp only [ne_eq, hne, not_false_iff, true_and] at hvec hrec' hpoll
  exact ⟨t, u, hlen, htrace, hrec, hvec, hrec', hpoll, hcore⟩

theorem brk_reaches (g : Scene) :
    Implied.brk.op.Reaches (fun _ g' => ∃ t u, t.length = 3 ∧
      g'.trace = g.trace ++ t ++ u ∧ g.poll.Records t ∧
      Poll.Vectors (g.poll.accesses t).vector u ∧ (g.poll.accesses t).vectored.Records u ∧
      g'.poll = ((g.poll.accesses t).vectored.accesses u).deferring noPoll ∧
      g'.core.polledI = g.core.polledI) g := by
  simp only [Implied.op, opBrk, fetch, reaches_bind, reaches_core, reaches_update, reaches_read]
  intro value c h r
  refine (frame_reaches _ _).mono ?_
  rintro _ g' ⟨t, u, hlen, htrace, hrec, hvec, hrec', hpoll, hcore⟩
  refine ⟨c :: t, u, by rw [List.length_cons, hlen], ?_, ⟨r.1, hrec⟩, hvec, hrec', hpoll, hcore⟩
  rw [htrace]
  simp

theorem irq_reaches (g : Scene) :
    (enterInterrupt irqLine).Reaches (fun _ g' => ∃ t u, t.length = 4 ∧
      g'.trace = g.trace ++ t ++ u ∧ g.poll.Records t ∧
      Poll.Vectors (g.poll.accesses t).vector u ∧ (g.poll.accesses t).vectored.Records u ∧
      g'.poll = ((g.poll.accesses t).vectored.accesses u).skipped ∧ g'.core.polledI = none) g := by
  have hkind : ¬irqLine = nmiLatch := by decide
  have hvector : ¬vectorIrq = vectorNmi := by decide
  simp only [enterInterrupt, hkind, hvector, if_false, reaches_bind, reaches_core, reaches_update, reaches_read]
  intro value c h r value' c' h' r'
  refine (frame_reaches _ _).mono ?_
  rintro _ g' ⟨t, u, hlen, htrace, hrec, hvec, hrec', hpoll, hcore⟩
  rw [reaches_bind, reaches_updatePoll, reaches_pure]
  refine ⟨c :: c' :: t, u, by simp [hlen], ?_, ⟨r.1, r'.1, hrec⟩, hvec, hrec', ?_, hcore⟩
  · rw [htrace]
    simp
  · rw [hpoll]
    rfl

theorem nmi_reaches (g : Scene) :
    (enterInterrupt nmiLatch).Reaches (fun _ g' => ∃ t u, t.length = 2 ∧ u.length = 5 ∧
      g'.trace = g.trace ++ t ++ u ∧ g.poll.Records t ∧ (g.poll.accesses t).unlatched.Records u ∧
      g'.poll = ((g.poll.accesses t).unlatched.accesses u).skipped ∧ g'.core.polledI = none) g := by
  simp only [enterInterrupt, if_true, reaches_bind, reaches_core, reaches_update, reaches_read, reaches_updatePoll]
  intro value c h r value' c' h' r'
  refine (interrupt_reaches _ _ _).mono ?_
  rintro _ g' ⟨t, u, hlen, htrace, hrec, hvec, hrec', hpoll, hcore⟩
  rw [reaches_bind, reaches_updatePoll, reaches_pure]
  simp only [ne_eq, not_true, false_and, if_false] at hvec hrec' hpoll
  refine ⟨[c, c'], t ++ u, rfl, by rw [List.length_append, hlen, hvec.length], ?_, ⟨r.1, r'.1, trivial⟩, ?_, ?_,
    hcore⟩
  · rw [htrace]
    simp
  · exact (Poll.records_append _ _ _).mpr ⟨hrec, hrec'⟩
  · rw [hpoll, Poll.accesses_append]
    rfl

theorem reset_reaches (g : Scene) :
    acceptReset.Reaches (fun _ g' => ∃ t, t.length = 7 ∧ g'.trace = g.trace ++ t ∧
      Poll.Records { g.poll with resetPending := false } t ∧
      g'.poll = (Poll.accesses { g.poll with resetPending := false } t).skipped ∧ g'.core.polledI = none) g := by
  simp only [acceptReset, resetStackCycle, reaches_bind, reaches_core, reaches_update, reaches_read,
    reaches_updatePoll, reaches_pure]
  intro _ c₁ _ r₁ _ c₂ _ r₂ _ c₃ _ r₃ _ c₄ _ r₄ _ c₅ _ r₅ _ c₆ _ r₆ _ c₇ _ r₇
  refine ⟨[c₁, c₂, c₃, c₄, c₅, c₆, c₇], rfl, by simp, ?_, rfl, rfl⟩
  exact ⟨r₁.1, r₂.1, r₃.1, r₄.1, r₅.1, r₆.1, r₇.1, trivial⟩

theorem branchTaken_reaches (offset early : ℕ) (g : Scene) :
    (branchTaken offset early).Reaches (fun _ g' => ∃ u, g'.trace = g.trace ++ u ∧
      Poll.Branched early g.poll u g'.poll ∧ g'.core.polledI = g.core.polledI) g := by
  simp only [branchTaken, reaches_bind, reaches_core, reaches_read, reaches_poll, Scene.saw_poll]
  intro value c hc hrec
  have hsame := @Poll.Branched.samePage early g.poll c hrec
  have hother := fun d => @Poll.Branched.otherPage early g.poll c d hrec
  cases hs : (g.poll.access c.calls).stalledBefore with
  | none =>
    have hrelieved : (g.poll.access c.calls).relieved = g.poll.access c.calls := by simp [Poll.relieved, hs]
    rw [hs, hrelieved, Option.getD_none, Nat.or_zero] at hsame hother
    simp only [reaches_bind, reaches_pure, reaches_ite, reaches_read, reaches_update, reaches_updatePoll]
    split
    · intro value' d hd hrec'
      exact ⟨[c, d], by simp, hother d hrec', rfl⟩
    · exact ⟨[c], rfl, hsame, rfl⟩
  | some stalledBefore =>
    have hrelieved : (g.poll.access c.calls).relieved = (g.poll.access c.calls).unstalled := by
      simp [Poll.relieved, hs]
    rw [hs, hrelieved, Option.getD_some] at hsame hother
    simp only [reaches_bind, reaches_pure, reaches_ite, reaches_read, reaches_update, reaches_updatePoll]
    split
    · intro value' d hd hrec'
      exact ⟨[c, d], by simp, hother d hrec', rfl⟩
    · exact ⟨[c], rfl, hsame, rfl⟩

theorem branch_reaches (taken : Bool) (g : Scene) :
    (branch taken).Reaches (fun _ g' => ∃ e u, g'.trace = g.trace ++ e :: u ∧
      g.poll.unstalled.Records [e] ∧
      Poll.Branched ((g.poll.unstalled.access e.calls).stalled.getD g.poll.requests)
        (g.poll.unstalled.access e.calls).unstalled u g'.poll ∧ g'.core.polledI = g.core.polledI) g := by
  simp only [branch, fetch, reaches_bind, reaches_core, reaches_update, reaches_updatePoll, reaches_read,
    reaches_poll]
  intro offset e he hrec
  have hrest : ∀ early g', g'.trace = g.trace ++ [e] → g'.core.polledI = g.core.polledI →
      g'.poll = (g.poll.unstalled.access e.calls).unstalled →
      early = (g.poll.unstalled.access e.calls).stalled.getD g.poll.requests →
      (if taken = true then branchTaken offset early else pure ()).Reaches (fun _ g' => ∃ e u,
        g'.trace = g.trace ++ e :: u ∧ g.poll.unstalled.Records [e] ∧
        Poll.Branched ((g.poll.unstalled.access e.calls).stalled.getD g.poll.requests)
          (g.poll.unstalled.access e.calls).unstalled u g'.poll ∧ g'.core.polledI = g.core.polledI) g' := by
    rintro early g₁ htrace hcore hpoll rfl
    rw [reaches_ite]
    split
    · refine (branchTaken_reaches _ _ g₁).mono ?_
      rintro _ g₂ ⟨u, htrace', hbranched, hcore'⟩
      refine ⟨e, u, ?_, hrec, hpoll ▸ hbranched, hcore'.trans hcore⟩
      rw [htrace', htrace, List.append_assoc]
      rfl
    · exact ⟨e, [], htrace, hrec, hpoll ▸ .untaken, hcore⟩
  cases hs : (g.poll.unstalled.access e.calls).stalled with
  | none =>
    have hpoll := Poll.unstalled_of_stalled_none hrec hs
    change Reaches (match (g.poll.unstalled.access e.calls).stalled with | some _ => _ | none => _) _ _
    rw [hs]
    exact hrest _ _ rfl rfl hpoll.symm (by rw [hs]; rfl)
  | some stalled =>
    change Reaches (match (g.poll.unstalled.access e.calls).stalled with | some _ => _ | none => _) _ _
    rw [hs]
    simp only [reaches_bind, reaches_updatePoll, reaches_pure]
    exact hrest _ _ rfl rfl rfl (by rw [hs]; rfl)

/-! ## Every step is one of the cases -/

theorem reaches_askRead {post : Byte → Scene → Prop} (address : ℕ) (g : Scene) :
    (ask (.read address)).Reaches post g ↔ ∀ (value : Byte) (call : HostCall),
      call.access = .r address value.val → g.poll.Records [call] → post value (g.saw call) := by
  constructor
  · intro h value call hcall hrec
    exact h value _ ⟨call, hcall, hrec, rfl⟩
  · rintro h value g' ⟨call, hcall, hrec, rfl⟩
    exact h value call hcall hrec

/-- The handler of a row, its accesses still to be counted. -/
theorem dispatch_reaches (chip : Chip) (c : Core) (p : Poll) (opcode : Byte) (d : HostCall)
    (hd : d.access = .r c.pc opcode) (hrec : p.forget.Records [d]) (g : Scene)
    (hpoll : g.poll = p.forget.access d.calls) :
    (dispatch chip (opcodes opcode)).Reaches (fun _ g' => ∃ t, g'.trace = g.trace ++ t ∧
      (2 ≤ (d :: t).length → Poll.Step c p .instruction (d :: t) g'.poll.settled)) g := by
  have hother : ∀ g' : Scene, (∀ cycles, opcodes opcode ≠ .implied .brk cycles) →
      (∀ handler cycles, opcodes opcode = .implied handler cycles → handler.taken 0 = none) →
      (∃ t, g'.trace = g.trace ++ t ∧ g.poll.Records t ∧ g'.poll = g.poll.accesses t) →
      ∃ t, g'.trace = g.trace ++ t ∧
        (2 ≤ (d :: t).length → Poll.Step c p .instruction (d :: t) g'.poll.settled) := by
    rintro g' hbrk hb ⟨t, htrace, hrecs, hpoll'⟩
    refine ⟨t, htrace, fun hlen => ?_⟩
    rw [hpoll'.trans (hpoll ▸ rfl : _ = p.forget.accesses (d :: t))]
    exact .other opcode hbrk hb (d :: t) hlen (by simp [hd]) ⟨hrec.1, hpoll ▸ hrecs⟩
  cases hop : opcodes opcode with
  | addressed handler mode cycles =>
    refine (reaches_pollFree ?_ g).mono fun _ g' => hother g' (by simp [hop]) (by simp [hop])
    simp only [dispatch, PollFree, Tree.usesThen_bind]
    exact mode.pollFree.mono (fun _ h => h) fun address _ => handler.pollFree chip address
  | implied handler cycles =>
    by_cases hbrk : handler = .brk
    · subst hbrk
      refine (brk_reaches g).mono ?_
      rintro _ g' ⟨t, u, hlen, htrace, hrecs, hvec, hrecs', hpoll', -⟩
      rw [hpoll] at hrecs hvec hrecs' hpoll'
      refine ⟨t ++ u, by rw [htrace, List.append_assoc], fun _ => ?_⟩
      rw [hpoll', ← List.cons_append]
      exact .brk opcode cycles hop (d :: t) u (by rw [List.length_cons, hlen]) (by simp [hd])
        ⟨hrec.1, hrecs⟩ hvec hrecs'
    · cases hb : handler.taken 0 with
      | none =>
        refine (reaches_pollFree (Implied.pollFree hb hbrk) g).mono fun _ g' => hother g' ?_ ?_
        · intro cycles' h
          exact hbrk (Entry.implied.inj (hop.symm.trans h)).1
        · intro handler' cycles' h
          rw [← (Entry.implied.inj (hop.symm.trans h)).1]
          exact hb
      | some taken =>
        have hsome : (handler.taken 0).isSome := by rw [hb]; rfl
        rw [dispatch, Implied.op_branch hsome, reaches_bind, reaches_core]
        refine (branch_reaches _ g).mono ?_
        rintro _ g' ⟨e, u, htrace, hrecs, hbranched, -⟩
        rw [hpoll] at hrecs hbranched
        refine ⟨e :: u, htrace, fun _ => ?_⟩
        exact .branch opcode handler cycles hop hsome d e u hd hrec hrecs g'.poll hbranched

theorem instruction_reaches (chip : Chip) (c : Core) (p : Poll) (g : Scene) (hpc : g.core.pc = c.pc)
    (hpoll : g.poll = p.forget) :
    (Code.instruction chip).Reaches (fun _ g' => ∃ t, g'.trace = g.trace ++ t ∧
      (2 ≤ t.length → Poll.Step c p .instruction t g'.poll)) g := by
  simp only [Code.instruction, execute, reaches_bind, reaches_core]
  refine (reaches_askRead _ _).mpr fun opcode d hd hrec => ?_
  simp only [reaches_bind, reaches_update]
  rw [hpoll] at hrec
  refine (dispatch_reaches chip c p opcode d (hpc ▸ hd) hrec _ (by rw [Scene.saw_poll, hpoll])).mono ?_
  rintro _ g₁ ⟨t, htrace, hstep⟩
  have hend : ∀ g₂ : Scene, g₂.trace = g₁.trace → g₂.poll = g₁.poll → ∀ cycles : ℕ,
      (match g₂.poll.deferred with
        | some deferred => do
          setPoll { g₂.poll with polled := some deferred, deferred := none }
          pure cycles
        | none => pure cycles : Code ℕ).Reaches (fun _ g' => ∃ t, g'.trace = g.trace ++ t ∧
          (2 ≤ t.length → Poll.Step c p .instruction t g'.poll)) g₂ := by
    intro g₂ htrace₂ hpoll₂ cycles
    have htrace' : g₂.trace = g.trace ++ d :: t := by
      rw [htrace₂, htrace, Scene.saw_trace, List.append_assoc]
      rfl
    cases hdef : g₂.poll.deferred with
    | none =>
      refine ⟨d :: t, htrace', fun hlen => ?_⟩
      have h := hstep hlen
      rw [← hpoll₂, Poll.settled, hdef] at h
      exact h
    | some deferred =>
      rw [reaches_bind, reaches_setPoll]
      refine ⟨d :: t, htrace', fun hlen => ?_⟩
      have h := hstep hlen
      rw [← hpoll₂, Poll.settled, hdef] at h
      exact h
  rw [reaches_bind, reaches_core, reaches_ite]
  split
  · simp only [reaches_bind, reaches_update, reaches_pure, reaches_poll]
    exact hend { g₁ with core := { g₁.core with extra := 0 } } rfl rfl _
  · simp only [reaches_pure, reaches_poll, reaches_bind]
    exact hend _ rfl rfl _

namespace Plain
variable {σ : Type} (H : Host σ) (chip : Chip)

/-- **Every step does to the poll what one of the cases says.** -/
theorem step_cases {q : Plain σ} (ht : q.trace = []) (hx : q.core.extra = 0) :
    Poll.Step q.core q.poll q.boundary (exec H (Code.step chip) q).2.trace
      (exec H (Code.step chip) q).2.poll := by
  obtain ⟨hcycles, hinstr, -⟩ := step_counts H chip ht hx
  simp only [exec_step] at *
  have hempty : q.decided.scenery.trace = [] := ht
  cases hb : q.boundary with
  | reset =>
    have hpoll : q.decided.scenery.poll = q.poll := by simp [scenery, decided, hb, Poll.decided]
    obtain ⟨t, hlen, htrace, hrec, hend, -⟩ := exec_reaches H (reset_reaches q.decided.scenery)
    rw [hempty, List.nil_append] at htrace
    rw [hpoll] at hrec hend
    simp only [ran, hb, BoundaryKind.code]
    change Poll.Step q.core q.poll .reset (exec H acceptReset q.decided).2.scenery.trace
      (exec H acceptReset q.decided).2.scenery.poll
    rw [htrace, hend]
    exact .reset t hlen hrec
  | jamIdle =>
    have hpoll : q.decided.scenery.poll = q.poll := by simp [scenery, decided, hb, Poll.decided]
    have hidle : haltedCycle.Reaches (fun _ g' => ∃ d, g'.trace = q.decided.scenery.trace ++ [d] ∧
        q.decided.scenery.poll.Records [d] ∧ g'.poll = q.decided.scenery.poll.access d.calls)
        q.decided.scenery := by
      simp only [haltedCycle, reaches_bind, reaches_read, reaches_pure]
      exact fun _ d _ hrec => ⟨d, rfl, hrec, rfl⟩
    obtain ⟨d, htrace, hrec, hend⟩ := exec_reaches H hidle
    rw [hempty, List.nil_append] at htrace
    rw [hpoll] at hrec hend
    simp only [ran, hb, BoundaryKind.code]
    change Poll.Step q.core q.poll .jamIdle (exec H haltedCycle q.decided).2.scenery.trace
      (exec H haltedCycle q.decided).2.scenery.poll
    rw [htrace, hend]
    exact .jamIdle d hrec
  | nmi =>
    have hpoll : q.decided.scenery.poll = q.poll.forget := by simp [scenery, decided, hb, Poll.decided, Poll.forget]
    obtain ⟨t, u, hlen, hlen', htrace, hrec, hrec', hend, -⟩ := exec_reaches H (nmi_reaches q.decided.scenery)
    rw [hempty, List.nil_append] at htrace
    rw [hpoll] at hrec hrec' hend
    simp only [ran, hb, BoundaryKind.code]
    change Poll.Step q.core q.poll .nmi (exec H (enterInterrupt nmiLatch) q.decided).2.scenery.trace
      (exec H (enterInterrupt nmiLatch) q.decided).2.scenery.poll
    rw [htrace, hend]
    exact .nmi t u hlen hlen' hrec hrec'
  | irq =>
    have hpoll : q.decided.scenery.poll = q.poll.forget := by simp [scenery, decided, hb, Poll.decided, Poll.forget]
    obtain ⟨t, u, hlen, htrace, hrec, hvec, hrec', hend, -⟩ := exec_reaches H (irq_reaches q.decided.scenery)
    rw [hempty, List.nil_append] at htrace
    rw [hpoll] at hrec hvec hrec' hend
    simp only [ran, hb, BoundaryKind.code]
    change Poll.Step q.core q.poll .irq (exec H (enterInterrupt irqLine) q.decided).2.scenery.trace
      (exec H (enterInterrupt irqLine) q.decided).2.scenery.poll
    rw [htrace, hend]
    exact .irq t u hlen hrec hvec hrec'
  | instruction =>
    have hpoll : q.decided.scenery.poll = q.poll.forget := by simp [scenery, decided, hb, Poll.decided, Poll.forget]
    have hpc : q.decided.scenery.core.pc = q.core.pc := by simp [scenery, decided, hb, Core.decided]
    obtain ⟨t, htrace, hstep⟩ := exec_reaches H
      (instruction_reaches chip q.core q.poll q.decided.scenery hpc hpoll)
    rw [hempty, List.nil_append] at htrace
    obtain ⟨opcode, u, -, hcount⟩ := hinstr hb
    have hlen : 2 ≤ t.length := by
      have hbase := opcodes_cycles_le opcode
      have htlen : (ran H chip q).2.trace.length = t.length := by
        simp only [ran, hb, BoundaryKind.code]
        exact congrArg List.length htrace
      omega
    simp only [ran, hb, BoundaryKind.code]
    change Poll.Step q.core q.poll .instruction (exec H (Code.instruction chip) q.decided).2.scenery.trace
      (exec H (Code.instruction chip) q.decided).2.scenery.poll
    rw [htrace]
    exact hstep hlen

theorem exec_instruction (q : Plain σ) :
    exec H (Code.instruction chip) q =
      ((exec H (Code.execute chip) q).1,
        (exec H (Code.execute chip) q).2.withPoll (exec H (Code.execute chip) q).2.poll.settled) := by
  rw [Code.instruction, exec_bind]
  generalize exec H (Code.execute chip) q = done
  rw [exec_bind, exec_poll, Poll.settled]
  cases hd : done.2.poll.deferred with
  | none => rfl
  | some deferred => rfl

end Plain

namespace Machine
variable {σ : Type} (H : Host σ) (chip : Chip)

/-- Every step of a settled machine does to its poll what one of the cases says. -/
theorem step_cases {m : Machine σ} (h : m.Settled) :
    Poll.Step m.cpu.core m.cpu.poll (m.step H chip).1.kind (m.step H chip).1.trace
      (m.step H chip).2.cpu.poll := by
  obtain ⟨hkind, -, htrace, hplain, -⟩ := step_plain H chip h.1
  have hstep := Plain.step_cases H chip (q := m.opened) rfl h.2
  have hpoll : (m.step H chip).2.cpu.poll = (stepRun H chip m).2.poll := congrArg Plain.poll hplain
  rw [hkind, htrace, hpoll, stepRun, Plain.exec_step]
  rw [Plain.exec_step] at hstep
  exact hstep

end Machine

end SixFiveOhTwo
