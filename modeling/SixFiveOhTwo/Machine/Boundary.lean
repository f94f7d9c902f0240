import SixFiveOhTwo.Machine.Wiring

/-! # What a step does: the boundary decides, and one of four sequences runs

`boundary` is the decision `step` makes before its first bus access, `Plain.decided` the machine it
leaves, and `exec_step` the step as that decision followed by the sequence it names. Everything
about steps is proved from it.
-/

namespace SixFiveOhTwo
open Interaction
set_option autoImplicit false

/-! ## Running the operations that are not bus accesses -/

namespace Plain
variable {σ : Type} (H : Host σ)

/-- Replace the registers. -/
def withCore (q : Plain σ) (core : Core) : Plain σ := { q with core }

/-- Replace the poll. -/
def withPoll (q : Plain σ) (poll : Poll) : Plain σ := { q with poll }

/-- What a read returns. -/
def readAnswer (q : Plain σ) (address : ℕ) : Byte × List Call × σ := H.readByte q.readByte address q.host

/-- A read. -/
def afterRead (q : Plain σ) (address : ℕ) : Plain σ :=
  let answer := q.readAnswer H address
  q.called q.readByte (.r address answer.1) answer.2.1 answer.2.2

/-- A write. -/
def afterWrite (q : Plain σ) (address value : ℕ) : Plain σ :=
  let answer := H.writeByte q.writeByte address value q.host
  q.called q.writeByte (.w address value) answer.1 answer.2

variable (q : Plain σ) (c : Core) (p : Poll)

@[simp] theorem withCore_core : (q.withCore c).core = c := rfl
@[simp] theorem withCore_poll : (q.withCore c).poll = q.poll := rfl
@[simp] theorem withCore_trace : (q.withCore c).trace = q.trace := rfl
@[simp] theorem withPoll_core : (q.withPoll p).core = q.core := rfl
@[simp] theorem withPoll_poll : (q.withPoll p).poll = p := rfl
@[simp] theorem withPoll_trace : (q.withPoll p).trace = q.trace := rfl

@[simp] theorem exec_pure {α : Type} (a : α) : exec H (pure a) q = (a, q) := rfl

@[simp] theorem exec_bind {α β : Type} (code : Code α) (f : α → Code β) :
    exec H (code >>= f) q = exec H (f (exec H code q).1) (exec H code q).2 := Tree.run_bind ..

@[simp] theorem exec_map {α β : Type} (f : α → β) (code : Code α) :
    exec H (f <$> code) q = (f (exec H code q).1, (exec H code q).2) := Tree.run_map ..

@[simp] theorem exec_core : exec H Code.core q = (q.core, q) := rfl

@[simp] theorem exec_setCore : exec H (Code.setCore c) q = ((), q.withCore c) := rfl

@[simp] theorem exec_update (f : Core → Core) :
    exec H (Code.update f) q = ((), q.withCore (f q.core)) := rfl

@[simp] theorem exec_poll : exec H Code.poll q = (q.poll, q) := rfl

@[simp] theorem exec_setPoll : exec H (Code.setPoll p) q = ((), q.withPoll p) := rfl

@[simp] theorem exec_updatePoll (f : Poll → Poll) :
    exec H (Code.updatePoll f) q = ((), q.withPoll (f q.poll)) := rfl

@[simp] theorem exec_dmaStalled : exec H Code.dmaStalled q = (q.dmaStalled, q) := rfl

@[simp] theorem exec_read (address : ℕ) :
    exec H (Code.read address) q = ((q.readAnswer H address).1.val, q.afterRead H address) := rfl

@[simp] theorem exec_write (address value : ℕ) :
    exec H (Code.write address value) q = ((), q.afterWrite H address value) := rfl

end Plain

/-! ## The decision -/

/-- What the poll that decides a boundary saw. -/
def Poll.deciding (poll : Poll) : ℕ := poll.polled.getD poll.requests

/-- The I flag that decides a boundary. -/
def Core.masking (core : Core) : ℕ := core.polledI.getD (core.p &&& flagI)

/-- The kind of work the next step does. -/
def boundary (core : Core) (poll : Poll) : BoundaryKind :=
  if poll.resetPending then .reset
  else if core.halted then .jamIdle
  else if poll.deciding &&& nmiLatch ≠ 0 then .nmi
  else if poll.deciding &&& irqLine ≠ 0 ∧ core.masking = 0 then .irq
  else .instruction

theorem halted_of_jamIdle {core : Core} {poll : Poll} (h : boundary core poll = .jamIdle) : core.halted = true := by
  by_contra hh
  rw [Bool.not_eq_true] at hh
  rw [boundary, hh] at h
  split at h
  · cases h
  · split at h
    · contradiction
    · split at h
      · cases h
      · split at h <;> cases h

theorem running_of_instruction {core : Core} {poll : Poll} (h : boundary core poll = .instruction) :
    core.halted = false := by
  by_contra hh
  rw [Bool.not_eq_false] at hh
  rw [boundary, hh, if_pos rfl] at h
  split at h <;> cases h

/-- The registers when a boundary has been decided: the polled I is used up if it was looked at. -/
def Core.decided (core : Core) : BoundaryKind → Core
  | .irq | .instruction => { core with polledI := none }
  | _ => core

/-- The poll when a boundary has been decided: what was polled is used up if it was looked at. -/
def Poll.decided (poll : Poll) : BoundaryKind → Poll
  | .nmi | .irq | .instruction => { poll with polled := none }
  | _ => poll

/-- The sequence a kind of boundary runs. -/
def BoundaryKind.code (chip : Chip) : BoundaryKind → Code ℕ
  | reset => Code.acceptReset
  | jamIdle => Code.haltedCycle
  | nmi => Code.enterInterrupt nmiLatch
  | irq => Code.enterInterrupt irqLine
  | instruction => Code.instruction chip

/-- An operation that is no bus access. -/
def Op.Quiet : Op → Prop
  | .read _ | .write _ _ => False
  | _ => True

namespace Code

/-- What a step does before its first bus access. -/
def decision : Code BoundaryKind := do
  if (← poll).resetPending then return .reset
  else if (← core).halted then return .jamIdle
  else
    let poll ← poll
    let c ← core
    let taken ←
      if poll.requests ≠ 0 ∨ poll.polled.isSome ∨ c.polledI.isSome then boundaryInterrupt
      else pure 0
    return if taken = 0 then .instruction else if taken = nmiLatch then .nmi else .irq

@[simp] theorem usesThen_poll {post : Poll → Prop} : poll.UsesThen Op.Quiet post ↔ ∀ p, post p := ⟨And.right, And.intro trivial⟩

@[simp] theorem usesThen_core {post : Core → Prop} : core.UsesThen Op.Quiet post ↔ ∀ c, post c := ⟨And.right, And.intro trivial⟩

@[simp] theorem usesThen_setPoll (p : Poll) {post : Unit → Prop} :
    (setPoll p).UsesThen Op.Quiet post ↔ ∀ u, post u := ⟨And.right, And.intro trivial⟩

@[simp] theorem usesThen_setCore (c : Core) {post : Unit → Prop} :
    (setCore c).UsesThen Op.Quiet post ↔ ∀ u, post u := ⟨And.right, And.intro trivial⟩

/-- `boundary_interrupt` takes one interrupt or none, and makes no bus access. -/
theorem boundaryInterrupt_taken :
    boundaryInterrupt.UsesThen Op.Quiet fun taken => taken = 0 ∨ taken = nmiLatch ∨ taken = irqLine := by
  have hirq : ∀ (p : Prop) [Decidable p], (if p then irqLine else 0) = 0 ∨ (if p then irqLine else 0) = nmiLatch ∨
      (if p then irqLine else 0) = irqLine := by
    intro p _
    split
    · exact .inr (.inr rfl)
    · exact .inl rfl
  rw [boundaryInterrupt, Tree.usesThen_bind, usesThen_poll]
  intro poll
  extract_lets taking
  have htaking : ∀ polled, (taking polled).UsesThen Op.Quiet fun taken =>
      taken = 0 ∨ taken = nmiLatch ∨ taken = irqLine := by
    intro polled
    simp only [taking, Tree.usesThen_ite]
    split
    · exact .inr (.inl rfl)
    rw [Tree.usesThen_bind, usesThen_core]
    intro c
    cases c.polledI with
    | none => exact hirq _
    | some polledI => exact ⟨trivial, fun _ => hirq _⟩
  cases poll.polled with
  | none => exact htaking _
  | some polled => exact ⟨trivial, fun _ => htaking _⟩

theorem decision_quiet : decision.Uses Op.Quiet := by
  simp only [decision, Tree.usesThen_bind, Tree.usesThen_ite, Tree.usesThen_pure, usesThen_poll, usesThen_core]
  intro poll
  split
  · trivial
  intro c
  split
  · trivial
  intro poll c
  split
  · exact boundaryInterrupt_taken.mono (fun _ h => h) fun _ _ => trivial
  · trivial

/-- A step is its decision, then the sequence decided on. -/
theorem step_eq_decision (chip : Chip) :
    step chip = decision >>= fun kind => Prod.mk kind <$> kind.code chip := by
  rw [step, decision, bind_assoc]
  refine bind_congr fun poll => ?_
  split
  · exact (map_eq_pure_bind ..).symm
  rw [bind_assoc]
  refine bind_congr fun c => ?_
  split
  · exact (map_eq_pure_bind ..).symm
  rw [bind_assoc]
  refine bind_congr fun poll => ?_
  rw [bind_assoc]
  refine bind_congr fun c => ?_
  split
  · rw [bind_assoc]
    refine boundaryInterrupt_taken.bind_congr fun taken htaken => ?_
    rcases htaken with rfl | rfl | rfl <;> exact (map_eq_pure_bind ..).symm
  · exact (map_eq_pure_bind (Prod.mk BoundaryKind.instruction) (instruction chip)).symm

end Code

namespace Plain
variable {σ : Type} (H : Host σ) (chip : Chip)

/-- The kind of work the next step does. -/
abbrev boundary (q : Plain σ) : BoundaryKind := SixFiveOhTwo.boundary q.core q.poll

/-- The machine when its boundary has been decided. -/
def decided (q : Plain σ) : Plain σ :=
  { q with core := q.core.decided q.boundary, poll := q.poll.decided q.boundary }

/-- The run of the sequence decided on. -/
abbrev ran (q : Plain σ) : ℕ × Plain σ := exec H (q.boundary.code chip) q.decided

theorem exec_boundaryInterrupt (q : Plain σ) (hr : q.poll.resetPending = false)
    (hh : q.core.halted = false) :
    exec H Code.boundaryInterrupt q =
      (match q.boundary with | .nmi => nmiLatch | .irq => irqLine | _ => 0, q.decided) := by
  obtain ⟨⟨a, x, y, s, pc, p, extra, halted, polledI⟩,
    ⟨resetPending, requests, polled, deferred, stalled, stalledBefore⟩, dma, host, trace, rd, wr⟩ := q
  simp only at hr hh
  subst hr hh
  cases polled with
  | none =>
    cases polledI with
    | none =>
      by_cases h1 : requests &&& nmiLatch = 0 <;> by_cases h2 : requests &&& irqLine = 0 <;>
        by_cases h3 : p &&& flagI = 0 <;>
        simp [Code.boundaryInterrupt, SixFiveOhTwo.boundary, decided, Core.decided, Poll.decided,
          Poll.deciding, Core.masking, h1, h2, h3]
    | some i =>
      by_cases h1 : requests &&& nmiLatch = 0 <;> by_cases h2 : requests &&& irqLine = 0 <;>
        by_cases h3 : i = 0 <;>
        simp [Code.boundaryInterrupt, SixFiveOhTwo.boundary, decided, Core.decided, Poll.decided,
          Poll.deciding, Core.masking, withCore, h1, h2, h3]
  | some polled =>
    cases polledI with
    | none =>
      by_cases h1 : polled &&& nmiLatch = 0 <;> by_cases h2 : polled &&& irqLine = 0 <;>
        by_cases h3 : p &&& flagI = 0 <;>
        simp [Code.boundaryInterrupt, SixFiveOhTwo.boundary, decided, Core.decided, Poll.decided,
          Poll.deciding, Core.masking, withPoll, h1, h2, h3]
    | some i =>
      by_cases h1 : polled &&& nmiLatch = 0 <;> by_cases h2 : polled &&& irqLine = 0 <;>
        by_cases h3 : i = 0 <;>
        simp [Code.boundaryInterrupt, SixFiveOhTwo.boundary, decided, Core.decided, Poll.decided,
          Poll.deciding, Core.masking, withCore, withPoll, h1, h2, h3]

/-- A boundary with nothing requested and nothing remembered runs an instruction. -/
theorem boundary_of_idle {q : Plain σ} (hr : q.poll.resetPending = false) (hh : q.core.halted = false)
    (hq : q.poll.requests = 0) (hp : q.poll.polled = none) (hi : q.core.polledI = none) :
    q.boundary = .instruction ∧ q.decided = q := by
  have hb : q.boundary = .instruction := by simp [SixFiveOhTwo.boundary, Poll.deciding, hr, hh, hq, hp]
  refine ⟨hb, ?_⟩
  obtain ⟨⟨a, x, y, s, pc, p, extra, halted, polledI⟩,
    ⟨resetPending, requests, polled, deferred, stalled, stalledBefore⟩, dma, host, trace, rd, wr⟩ := q
  simp only at hp hi
  subst hp hi
  simp only [decided, hb, Core.decided, Poll.decided]

/-- Neither reset nor an idle cycle is left when none is pending. -/
theorem boundary_of_running {q : Plain σ} (hr : q.poll.resetPending = false)
    (hh : q.core.halted = false) :
    q.boundary = .nmi ∨ q.boundary = .irq ∨ q.boundary = .instruction := by
  unfold boundary SixFiveOhTwo.boundary
  rw [hr, hh]
  simp only [Bool.false_eq_true, if_false]
  split
  · exact .inl rfl
  · split
    · exact .inr (.inl rfl)
    · exact .inr (.inr rfl)

theorem exec_decision (q : Plain σ) : exec H Code.decision q = (q.boundary, q.decided) := by
  rw [Code.decision, exec_bind, exec_poll]
  cases hr : q.poll.resetPending with
  | true =>
    have hb : q.boundary = .reset := by simp [SixFiveOhTwo.boundary, hr]
    simp [decided, Core.decided, Poll.decided, hb]
  | false =>
    cases hh : q.core.halted with
    | true =>
      have hb : q.boundary = .jamIdle := by simp [SixFiveOhTwo.boundary, hr, hh]
      simp [decided, Core.decided, Poll.decided, hh, hb]
    | false =>
      by_cases hidle : q.poll.requests ≠ 0 ∨ q.poll.polled.isSome ∨ q.core.polledI.isSome
      · have hbi := exec_boundaryInterrupt H q hr hh
        simp only [hh, exec_bind, exec_poll, exec_core, hidle, hbi, Bool.false_eq_true, if_false, if_true]
        rcases boundary_of_running hr hh with hb | hb | hb <;> simp [hb, nmiLatch, irqLine]
      · simp only [not_or, ne_eq, not_not, Bool.not_eq_true, Option.isSome_eq_false_iff,
          Option.isNone_iff_eq_none] at hidle
        obtain ⟨hb, hd⟩ := boundary_of_idle hr hh hidle.1 hidle.2.1 hidle.2.2
        simp [hh, hidle.1, hidle.2.1, hidle.2.2, hb, hd]

/-- **A step is its boundary's decision, then the sequence decided on.** -/
theorem exec_step (q : Plain σ) :
    exec H (Code.step chip) q = ((q.boundary, (ran H chip q).1), (ran H chip q).2) := by
  rw [Code.step_eq_decision, exec_bind, exec_map, exec_decision]

end Plain

end SixFiveOhTwo
