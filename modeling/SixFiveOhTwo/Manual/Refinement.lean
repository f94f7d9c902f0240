import SixFiveOhTwo.Manual.Sequences

/-! # The processor refines the programming model

On a flat memory every step of every run does what the programming model says of the work of its
boundary, in the cycles it says; the rest of what a host does between steps changes nothing that a
program is told of, but what it assigns itself.
-/

namespace SixFiveOhTwo
open Bits Interaction Code Manual
set_option autoImplicit false

/-! ## Instructions -/

theorem state_instruction {c : Core} (hpc : c.pc ≤ 0xFFFF) (memory : ℕ → Byte) :
    (State.of c memory).instruction = opcodes (memory c.pc) := by
  have hbyte : ((State.of c memory).memory (.ofNat 16 c.pc)).toFin = memory c.pc := by
    rw [state_memory c memory hpc]
    apply Fin.ext
    exact toNat_byte (byte_le _)
  exact congrArg opcodes hbyte

/-- What an instruction leaves, its row leaves, with the cycles it counts beside those of the table. -/
theorem exec_instruction (chip : Chip) (q : Plain (ℕ → Byte)) :
    let fetched := (q.afterRead .flat q.core.pc).withCore { q.core with pc := (q.core.pc + 1) &&& 0xFFFF }
    let entry := opcodes (q.host q.core.pc)
    let ran := (Plain.exec .flat (dispatch chip entry) fetched).2
    let done := Plain.exec .flat (instruction chip) q
    done.1 = entry.cycles + ran.core.extra ∧ State.of done.2.core done.2.host = State.of ran.core ran.host := by
  intro fetched entry ran done
  have hexecute : Plain.exec .flat (execute chip) q =
      if ran.core.extra ≠ 0 then (entry.cycles + ran.core.extra, ran.withCore { ran.core with extra := 0 })
      else (entry.cycles, ran) := by
    rw [execute, Plain.exec_bind, Plain.exec_core, Plain.exec_bind]
    show Plain.exec .flat (do
      dispatch chip entry
      let extra := (← core).extra
      if extra ≠ 0 then
        update ({ · with extra := 0 })
        return entry.cycles + extra
      else return entry.cycles) fetched = _
    rw [Plain.exec_bind, Plain.exec_bind, Plain.exec_core]
    dsimp only
    split <;> rfl
  have hinstruction : done.1 = (Plain.exec .flat (execute chip) q).1 ∧
      done.2.core = (Plain.exec .flat (execute chip) q).2.core ∧
      done.2.host = (Plain.exec .flat (execute chip) q).2.host := by
    simp only [done, instruction, Plain.exec_bind, Plain.exec_poll]
    cases (Plain.exec .flat (execute chip) q).2.poll.deferred <;> exact ⟨rfl, rfl, rfl⟩
  obtain ⟨hcycles, hcore, hhost⟩ := hinstruction
  rw [hcycles, hcore, hhost, hexecute]
  split
  · exact ⟨rfl, rfl⟩
  · next h =>
    rw [not_not.mp h]
    exact ⟨rfl, rfl⟩

theorem Poll.loads_irq (poll : Poll) :
    BitVec.ofNat 16 (poll.loads vectorIrq) = if poll.latched then 0xFFFA else 0xFFFE := by
  rw [Poll.loads]
  cases poll.latched <;> rfl

theorem brk_performs (pc : ℕ) (q : Plain (ℕ → Byte)) (hpc : q.core.pc = (pc + 1) &&& 0xFFFF) (hvalid : q.core.Valid) :
    let q' := (Plain.exec .flat opBrk q).2
    Implied.brk.Performs q.poll.latched (State.of { q.core with pc } q.host) (State.of q'.core q'.host) ∧
      q'.core.extra = q.core.extra := by
  obtain ⟨-, -, -, hs, -, hp⟩ := (Core.valid_iff q.core).mp hvalid
  let fetched := (q.withCore { q.core with pc := (q.core.pc + 1) &&& 0xFFFF }).afterRead .flat q.core.pc
  have hbrk : (Plain.exec .flat opBrk q).2 =
      (Plain.exec .flat (Code.interrupt vectorIrq (q.core.p ||| flagB ||| flagU)) fetched).2 := rfl
  have hperforms := interrupt_performs vectorIrq (q.core.p ||| flagB ||| flagU) true fetched hs Nat.and_le_right
    (flags_byte hp).1 (by decide)
  have hreturns : (State.of { q.core with pc } q.host).pc + 2 = .ofNat 16 ((q.core.pc + 1) &&& 0xFFFF) := by
    rw [hpc, next_next]
    exact add_word_wrap pc 2
  refine ⟨?_, ?_⟩
  · rw [hbrk]
    refine hperforms.trans ?_
    rw [Poll.loads_irq, hreturns]
    rfl
  · rw [hbrk, (exec_interrupt _ _ fetched).2]
    rfl

theorem instruction_performs (chip : Chip) (adjusts : Bool) (q : Plain (ℕ → Byte)) (hvalid : q.core.Valid)
    (hextra : q.core.extra = 0) :
    let m := State.of q.core q.host
    let done := Plain.exec .flat (instruction (chip.part adjusts)) q
    m.instruction.Performs adjusts q.poll.latched m (State.of done.2.core done.2.host) ∧
      done.1 = m.instruction.timing m := by
  intro m done
  obtain ⟨ha, hx, hy, hs, hpc, hp⟩ := (Core.valid_iff q.core).mp hvalid
  obtain ⟨hcycles, hstate⟩ := exec_instruction (chip.part adjusts) q
  let fetched := (q.afterRead .flat q.core.pc).withCore { q.core with pc := (q.core.pc + 1) &&& 0xFFFF }
  have hfetched : fetched.core.Valid := (Core.valid_iff _).mpr ⟨ha, hx, hy, hs, Nat.and_le_right, hp⟩
  have hentry : m.instruction = opcodes (q.host q.core.pc) := state_instruction hpc q.host
  rw [hentry, hcycles, hstate]
  by_cases hbrk : ∃ cycles, opcodes (q.host q.core.pc) = .implied .brk cycles
  · obtain ⟨cycles, hop⟩ := hbrk
    obtain ⟨hperforms, hextra'⟩ := brk_performs q.core.pc fetched rfl hfetched
    rw [hop]
    exact ⟨hperforms, congrArg (cycles + ·) (hextra'.trans hextra)⟩
  · exact Plain.exec_onFlat (q := fetched) (dispatch_performs chip adjusts q.poll.latched _
      (fun cycles hop => hbrk ⟨cycles, hop⟩) q.core.pc fetched.flat rfl hextra hfetched)

/-! ## The other kinds of work -/

theorem nmi_performs (q : Plain (ℕ → Byte)) (hvalid : q.core.Valid) :
    let m := State.of q.core q.host
    let done := Plain.exec .flat (enterInterrupt nmiLatch) q
    State.of done.2.core done.2.host = m.enter m.pc false 0xFFFA ∧ done.1 = 7 := by
  intro m done
  obtain ⟨-, -, -, hs, hpc, hp⟩ := (Core.valid_iff q.core).mp hvalid
  let entering := ((q.withCore { q.core with polledI := none }).afterRead .flat q.core.pc).afterRead .flat q.core.pc
  -- the latch is what is taken, and is cleared before the sequence
  let cleared := entering.withPoll { entering.poll with requests := without entering.poll.requests nmiLatch }
  have hperforms := interrupt_performs vectorNmi (without (q.core.p ||| flagU) flagB) false cleared hs hpc
    (flags_byte hp).2 (by decide)
  have hloads : cleared.poll.loads vectorNmi = vectorNmi := if_neg fun h => h.1 rfl
  rw [hloads] at hperforms
  exact ⟨hperforms, rfl⟩

theorem irq_performs (q : Plain (ℕ → Byte)) (hvalid : q.core.Valid) :
    let m := State.of q.core q.host
    let done := Plain.exec .flat (enterInterrupt irqLine) q
    State.of done.2.core done.2.host = m.enter m.pc false (if q.poll.latched then 0xFFFA else 0xFFFE) ∧
      done.1 = 7 := by
  intro m done
  obtain ⟨-, -, -, hs, hpc, hp⟩ := (Core.valid_iff q.core).mp hvalid
  let entering := ((q.withCore { q.core with polledI := none }).afterRead .flat q.core.pc).afterRead .flat q.core.pc
  have hperforms := interrupt_performs vectorIrq (without (q.core.p ||| flagU) flagB) false entering hs hpc
    (flags_byte hp).2 (by decide)
  have hlatched : entering.poll.latched = q.poll.latched := rfl
  rw [Poll.loads_irq, hlatched] at hperforms
  have hdone : done = Plain.exec .flat (do
      interrupt vectorIrq (without (q.core.p ||| flagU) flagB)
      updatePoll ({ · with polled := some noPoll, deferred := none })
      return 7) entering := rfl
  rw [hdone, Plain.exec_bind]
  exact ⟨hperforms, rfl⟩

theorem acceptReset_performs (g : Flat) :
    acceptReset.OnFlat (fun cycles g' =>
      let m := State.of g.core g.memory
      State.of g'.core g'.memory = { m with
        s := m.s - 3, flags := { m.flags with i := true }, pc := m.word 0xFFFC 0xFFFD } ∧ cycles = 7) g := by
  have hword : (State.of g.core g.memory).word 0xFFFC 0xFFFD =
      .ofNat 16 ((g.memory 0xFFFD).val <<< 8 ||| (g.memory 0xFFFC).val) := append_byte (byte_le _)
  have hs : ∀ s : ℕ, BitVec.ofNat 8 (masked 8 ((masked 8 ((masked 8 ((s : ℤ) - 1) : ℤ) - 1) : ℤ) - 1)) =
      .ofNat 8 s - 3 := by
    intro s
    have hdown : ∀ s : ℕ, BitVec.ofNat 8 (masked 8 ((s : ℤ) - 1)) = .ofNat 8 s - 1 := fun s => masked_sub
    rw [hdown, hdown, hdown]
    bv_omega
  simp only [acceptReset, resetStackCycle, onFlat_bind, onFlat_core, onFlat_read, onFlat_update, onFlat_updatePoll,
    onFlat_pure, Flat.read_core, Flat.read_memory]
  refine ⟨?_, trivial⟩
  rw [hword, state_s, ← hs, State.of, flags_setI]
  rfl

theorem BoundaryKind.code_performs (chip : Chip) (adjusts : Bool) (kind : BoundaryKind) (q : Plain (ℕ → Byte))
    (hvalid : q.core.Valid) (hextra : q.core.extra = 0) :
    let m := State.of q.core q.host
    let done := Plain.exec .flat (kind.code (chip.part adjusts)) q
    kind.Performs adjusts q.poll.latched m (State.of done.2.core done.2.host) ∧ done.1 = kind.timing m := by
  cases kind with
  | instruction => exact instruction_performs chip adjusts q hvalid hextra
  | nmi => exact nmi_performs q hvalid
  | irq => exact irq_performs q hvalid
  | reset => exact Plain.exec_onFlat (acceptReset_performs q.flat)
  | jamIdle => exact ⟨rfl, rfl⟩

/-! ## Runs -/

/-- A register assigned. -/
def Manual.State.assign (m : State) (value : ℕ) : Register → State
  | .a => { m with a := .ofNat 8 value }
  | .x => { m with x := .ofNat 8 value }
  | .y => { m with y := .ofNat 8 value }
  | .s => { m with s := .ofNat 8 value }
  | .pc => { m with pc := .ofNat 16 value }
  | .p => { m with flags := .of value }

/-- What an action that shows `event` does to what a program is told of, on a host with this memory. A call and a
callable assigned do nothing; the host's own moves change its memory, and a snapshot and the `set` command assign
registers. -/
def HostAction.Performs (adjusts : Bool) (memory : ℕ → Byte) (m m' : State) (event : Event) :
    HostAction (ℕ → Byte) → Prop
  | act (.call _) | readByte _ | writeByte _ => m' = m
  | act (.host move) => m' = { m with memory := fun address => .ofNat 8 (move memory address.toNat).val }
  | act .step => ∃ log, event = .stepped log ∧ log.kind.Performs adjusts log.before.poll.latched m m' ∧
      log.cycles = log.kind.timing m
  | restore state => m' = {
      a := .ofNat 8 state.a
      x := .ofNat 8 state.x
      y := .ofNat 8 state.y
      s := .ofNat 8 state.s
      pc := .ofNat 16 state.pc
      flags := .of state.p
      memory := m.memory }
  | set register parsed => m' = ((number parsed register.maximum).map (m.assign · register)).getD m

theorem flags_set (value : ℕ) : Flags.of (without (value ||| 0x20) 0x10) = .of value := by
  have hbit : ∀ i < 8, i ≠ 4 → i ≠ 5 → (without (value ||| 0x20) 0x10).testBit i = value.testBit i := by
    intro i hi h4 h5
    have hout : ∀ i < 8, i ≠ 4 → i ≠ 5 → Nat.testBit 0x20 i = false ∧ Nat.testBit 0x10 i = false := by decide
    rw [testBit_without, Nat.testBit_or, (hout i hi h4 h5).1, (hout i hi h4 h5).2, Bool.or_false, Bool.not_false,
      Bool.and_true]
  simp (disch := decide) only [Flags.of, hbit]

theorem state_set (cpu : CPU) (memory : ℕ → Byte) (register : Register) (parsed : Option ℤ) :
    State.of (cpu.set register parsed).core memory =
      ((number parsed register.maximum).map ((State.of cpu.core memory).assign · register)).getD (.of cpu.core memory) := by
  rw [CPU.set]
  cases number parsed register.maximum with
  | none => rfl
  | some value =>
    cases register with
    | p => exact congrArg (fun flags => { State.of cpu.core memory with flags }) (flags_set value)
    | _ => rfl

namespace Machine
variable (chip : Chip) (adjusts : Bool)

/-- What a program is told of a machine. -/
def told (m : Machine (ℕ → Byte)) : State := .of m.cpu.core m.host

theorem step_performs {m : Machine (ℕ → Byte)} (hfit : m.Fit) (hextra : m.cpu.core.extra = 0) :
    let done := m.step .flat (chip.part adjusts)
    done.1.kind.Performs adjusts m.cpu.poll.latched m.told done.2.told ∧ done.1.cycles = done.1.kind.timing m.told := by
  intro done
  obtain ⟨-, hcycles, -, hplain, -⟩ := step_plain .flat (chip.part adjusts) hfit.1
  have hkind : done.1.kind = boundary m.cpu.core m.cpu.poll := step_boundary .flat _ hfit.1
  have htold : done.2.told = State.of done.2.plain.core done.2.plain.host := rfl
  rw [htold, hplain, hcycles, hkind, stepRun, Plain.exec_step]
  -- deciding a boundary uses up what was polled, which no program is told of
  have hdecided : ∀ kind, State.of (m.cpu.core.decided kind) m.host = m.told ∧ (m.cpu.core.decided kind).Valid ∧
      (m.cpu.core.decided kind).extra = 0 ∧ (m.cpu.poll.decided kind).latched = m.cpu.poll.latched := by
    intro kind
    cases kind <;> exact ⟨rfl, hfit.2, hextra, rfl⟩
  obtain ⟨hstate, hvalid, hzero, hlatched⟩ := hdecided (boundary m.cpu.core m.cpu.poll)
  have hperforms := (boundary m.cpu.core m.cpu.poll).code_performs chip adjusts m.opened.decided hvalid hzero
  rw [← hstate, ← hlatched]
  exact hperforms

theorem hostAct_performs (action : HostAction (ℕ → Byte)) {m : Machine (ℕ → Byte)} (hfit : m.Fit)
    (hextra : m.cpu.core.extra = 0) :
    let done := hostAct .flat (chip.part adjusts) action m
    action.Performs adjusts m.host m.told done.2.told done.1 := by
  cases action with
  | act action =>
    cases action with
    | call call => exact congrArg (State.of · m.host) (Call.apply_core call m.cpu)
    | host move => rfl
    | step => exact ⟨_, rfl, step_performs chip adjusts hfit hextra⟩
  | readByte callable | writeByte callable | restore state => rfl
  | set register parsed => exact state_set m.cpu m.host register parsed

/-- **The processor refines the programming model.** Whatever a host and its debugger have done with a constructed
processor on a flat memory, and whatever they do next: a step does what the programming model says of its kind of
work, an instruction what it says of the one at PC, in the cycles it says, and nothing else changes what a program
is told of, but what the host and the debugger assign. -/
theorem programming_model (readByte writeByte : Callable) (memory : ℕ → Byte)
    (before : List (HostAction (ℕ → Byte))) (action : HostAction (ℕ → Byte)) :
    let m := (hostAct .flat (chip.part adjusts)).final (start readByte writeByte memory) before
    let done := hostAct .flat (chip.part adjusts) action m
    action.Performs adjusts m.host m.told done.2.told done.1 := by
  intro m
  have hfit : m.Fit :=
    System.final_preserves (hostAct_fit .flat (chip.part adjusts)) (start_fit readByte writeByte memory) before
  have hsettled : m.Settled :=
    System.final_preserves (hostAct_settled .flat (chip.part adjusts)) ⟨.init readByte writeByte, rfl⟩ before
  exact hostAct_performs chip adjusts action hfit hsettled.2

end Machine

end SixFiveOhTwo
