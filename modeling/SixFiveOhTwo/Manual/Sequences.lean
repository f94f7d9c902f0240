import SixFiveOhTwo.Manual.Handlers

/-! # The sequences perform the programming model

A row of the table runs its mode and its handler; BRK and the interrupt sequences push a frame and
load a vector, which the requests choose as they stand at the boundary, since a flat memory makes no
calls.
-/

namespace SixFiveOhTwo
open Bits Interaction Code Manual
set_option autoImplicit false
set_option maxRecDepth 10000

/-- An NMI is latched. -/
def Poll.latched (poll : Poll) : Bool := poll.requests &&& nmiLatch ≠ 0

/-! ## Rows -/

theorem condition_taken (handler : Implied) (p : ℕ) : handler.condition (.of p) = handler.taken p := by
  have hclear : ∀ i, (p &&& 2 ^ i == 0) = !p.testBit i := by
    intro i
    rw [Nat.and_two_pow]
    cases p.testBit i <;> simp
  have hset : ∀ i, (p &&& 2 ^ i != 0) = p.testBit i := by
    intro i
    rw [bne, hclear, Bool.not_not]
  cases handler with
  | bpl => exact congrArg some (hclear 7).symm
  | bmi => exact congrArg some (hset 7).symm
  | bvc => exact congrArg some (hclear 6).symm
  | bvs => exact congrArg some (hset 6).symm
  | bcc => exact congrArg some (hclear 0).symm
  | bcs => exact congrArg some (hset 0).symm
  | bne => exact congrArg some (hclear 1).symm
  | beq => exact congrArg some (hset 1).symm
  | _ => rfl

theorem dispatch_performs (chip : Chip) (adjusts latched : Bool) (entry : Entry)
    (hbrk : ∀ cycles, entry ≠ .implied .brk cycles) (pc : ℕ) (g : Flat) (hpc : g.core.pc = (pc + 1) &&& 0xFFFF)
    (hextra : g.core.extra = 0) (hvalid : g.core.Valid) :
    (dispatch (chip.part adjusts) entry).OnFlat (fun _ g' =>
      let m := State.of { g.core with pc } g.memory
      entry.Performs adjusts latched m (State.of g'.core g'.memory) ∧
        entry.cycles + g'.core.extra = entry.timing m) g := by
  obtain ⟨ha, hx, hy, hs, -, hp⟩ := (Core.valid_iff g.core).mp hvalid
  cases entry with
  | addressed handler mode cycles =>
    rw [dispatch, onFlat_bind]
    refine Tree.wp_mono (Tree.wp_and (mode.ea_address g hpc) (mode.ea_counts_flat g hpc hextra hx hy)) ?_
    rintro address g₁ ⟨⟨rfl, hmemory, hcore⟩, hpc₁, hextra₁⟩
    have hvalid₁ : g₁.core.Valid := by
      rw [hcore]
      exact (Core.valid_iff _).mpr ⟨ha, hx, hy, hs, hpc₁ ▸ Nat.and_le_right, hp⟩
    have hnext : State.of g₁.core g₁.memory = (State.of { g.core with pc } g.memory).next mode.bytes := by
      rw [mode_next, hmemory, hcore, hpc₁]
      rfl
    refine Tree.wp_mono (Tree.wp_and (handler.op_performs chip adjusts (mode.address_le _) g₁ hvalid₁)
      (handler.op_counts (chip.part adjusts) _ g₁.sight).onFlat) ?_
    rintro _ g₂ ⟨hperforms, -, hextra₂⟩
    rw [hnext, ← mode_reaches (c := { g.core with pc }) g.memory hx hy] at hperforms
    exact ⟨hperforms, congrArg (cycles + ·) (Eq.trans hextra₂ hextra₁)⟩
  | implied handler cycles =>
    cases hb : handler.taken 0 with
    | none =>
      have hnone : handler.penalty (State.of { g.core with pc } g.memory) = 0 := by
        rw [Implied.penalty, state_flags, condition_taken, Implied.taken_none hb]
        rfl
      refine Tree.wp_mono (Tree.wp_and (Implied.op_performs latched hb (fun h => hbrk cycles (h ▸ rfl)) g hpc hvalid)
        (Implied.op_counts hb g.sight).onFlat) ?_
      rintro _ g' ⟨hperforms, -, hextra'⟩
      refine ⟨hperforms, ?_⟩
      rw [Entry.timing, hnone]
      exact congrArg (cycles + ·) (Eq.trans hextra' hextra)
    | some taken =>
      rw [dispatch, Implied.op_branch (by rw [hb]; rfl), onFlat_bind, onFlat_core]
      refine (branch_performs _ g hpc hextra).mono ?_
      rintro _ g' ⟨hbranch, hextra'⟩
      rw [← condition_taken] at hbranch hextra'
      have hperforms : handler.Performs latched (State.of { g.core with pc } g.memory) (State.of g'.core g'.memory) := by
        cases handler <;> first | exact hbranch | cases hb
      exact ⟨hperforms, congrArg (cycles + ·) hextra'⟩

/-! ## Interrupt sequences -/

theorem state_frame {c : Core} (hs : c.s ≤ 0xFF) (memory : ℕ → Byte) {returns : ℕ} (hreturns : returns ≤ 0xFFFF)
    (pushedP : ℕ) :
    State.of { c with s := stackDown c.s 3 } (written memory (frame c.s returns pushedP)) =
      ((State.of c memory).pushWord (.ofNat 16 returns)).push (.ofNat 8 pushedP) := by
  have hword := state_pushWord hs memory hreturns
  have hstatus := state_push (c := { c with s := stackDown c.s 2 }) (stackDown_le hs 2)
    (written memory [.w (stack ||| c.s) (returns >>> 8), .w (stack ||| stackDown c.s 1) (returns &&& 0xFF)]) pushedP
  rw [← hword]
  exact hstatus

/-- The vector an interrupt sequence loads. -/
def Poll.loads (poll : Poll) (vector : ℕ) : ℕ := if vector ≠ vectorNmi ∧ poll.latched then vectorNmi else vector

theorem state_enter {c : Core} (hs : c.s ≤ 0xFF) (memory : ℕ → Byte) {returns : ℕ} (hreturns : returns ≤ 0xFFFF)
    {pushedP : ℕ} {b : Bool} (hpushed : BitVec.ofNat 8 pushedP = (Flags.of c.p).byte b) {vector : ℕ}
    (hvector : vector + 1 ≤ 0xFFFF) :
    let memory' := written memory (frame c.s returns pushedP)
    State.of { c with
        s := stackDown c.s 3
        p := c.p ||| flagI
        pc := (memory' (vector + 1)).val <<< 8 ||| (memory' vector).val } memory' =
      (State.of c memory).enter (.ofNat 16 returns) b (.ofNat 16 vector) := by
  intro memory'
  have hframe := state_frame hs memory hreturns pushedP
  have hnext : BitVec.ofNat 16 vector + 1 = .ofNat 16 (vector + 1) := (BitVec.ofNat_add _ _).symm
  have hword : (State.of { c with s := stackDown c.s 3 } memory').word (.ofNat 16 vector) (.ofNat 16 vector + 1) =
      .ofNat 16 ((memory' (vector + 1)).val <<< 8 ||| (memory' vector).val) := by
    rw [hnext, State.word, state_memory _ _ hvector, state_memory _ _ (Nat.le_of_succ_le hvector),
      append_byte (byte_le _)]
  rw [State.enter, state_flags, ← hpushed, ← hframe, hword, State.of, flags_setI]
  rfl

/-- An interrupt sequence on a flat memory, whose accesses leave the requests alone. -/
theorem exec_interrupt (vector pushedP : ℕ) (q : Plain (ℕ → Byte)) :
    let memory := written q.host (frame q.core.s q.core.pc pushedP)
    let loaded := q.poll.loads vector
    let q' := (Plain.exec .flat (Code.interrupt vector pushedP) q).2
    q'.host = memory ∧ q'.core = { q.core with
      s := stackDown q.core.s 3
      p := q.core.p ||| flagI
      pc := (memory (loaded + 1)).val <<< 8 ||| (memory loaded).val } := by
  intro memory loaded q'
  let pushed := (Plain.exec .flat (do push (q.core.pc >>> 8); push (q.core.pc &&& 0xFF)) q).2
  let rest (vector : ℕ) : Code Unit := do
    push pushedP
    update fun c => { c with p := c.p ||| flagI }
    let low ← read vector
    let high ← read (vector + 1)
    update ({ · with pc := (high <<< 8) ||| low })
    updatePoll ({ · with deferred := some noPoll })
  -- a flat memory's accesses leave the requests as they are, so the choice is that of the boundary
  have hchoice : q' = (Plain.exec .flat (if vector ≠ vectorNmi ∧ q.poll.requests &&& nmiLatch ≠ 0 then do
      updatePoll fun poll => { poll with requests := without poll.requests nmiLatch }
      rest vectorNmi
    else rest vector) pushed).2 := rfl
  rw [hchoice]
  split
  · next h =>
    have hloaded : loaded = vectorNmi := if_pos ⟨h.1, decide_eq_true h.2⟩
    rw [hloaded]
    exact ⟨rfl, rfl⟩
  · next h =>
    have hloaded : loaded = vector := if_neg fun hl => h ⟨hl.1, of_decide_eq_true hl.2⟩
    rw [hloaded]
    exact ⟨rfl, rfl⟩

theorem interrupt_performs (vector pushedP : ℕ) (b : Bool) (q : Plain (ℕ → Byte)) (hs : q.core.s ≤ 0xFF)
    (hpc : q.core.pc ≤ 0xFFFF) (hpushed : BitVec.ofNat 8 pushedP = (Flags.of q.core.p).byte b)
    (hvector : vector + 1 ≤ 0xFFFF) :
    let q' := (Plain.exec .flat (Code.interrupt vector pushedP) q).2
    State.of q'.core q'.host =
      (State.of q.core q.host).enter (.ofNat 16 q.core.pc) b (.ofNat 16 (q.poll.loads vector)) := by
  intro q'
  have hloads : q.poll.loads vector + 1 ≤ 0xFFFF := by
    rw [Poll.loads]
    split
    · decide
    · exact hvector
  obtain ⟨hhost, hcore⟩ := exec_interrupt vector pushedP q
  rw [hhost, hcore]
  exact state_enter hs q.host hpc hpushed hloads

end SixFiveOhTwo
