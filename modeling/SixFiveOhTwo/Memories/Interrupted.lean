import SixFiveOhTwo.Debug.Tracking
import SixFiveOhTwo.Memories.Locality
import SixFiveOhTwo.Snapshots.Complete

/-! # A handler that cleans up after itself is not noticed

An interrupt comes between two instructions of a program, its handler runs for as long as it likes, and RTI
returns. If the handler gives back A, X, Y and S, leaves its frame alone, and leaves nothing pending, then the
program goes on as if no interrupt had come, as long as it needs no byte that the handler has changed
(`Machine.handler_transparent`).
-/

namespace SixFiveOhTwo
open Bits Interaction Code
set_option autoImplicit false

/-- Nothing is asked of the processor, and the last poll saw nothing. -/
structure Poll.Idle (p : Poll) : Prop where
  requests : p.requests = 0
  resetPending : p.resetPending = false
  deciding : p.deciding = 0

theorem Poll.Idle.same {p : Poll} (h : p.Idle) (hs : p.Sound) : p.Same {} :=
  .of_deciding hs .init h.requests h.resetPending h.deciding

/-! ## RTI, with every register -/

section
attribute [local simp] Implied.op opRti fetch readPc readStack push pull

theorem opRti_core (g : Flat) :
    opRti.OnFlat (fun _ g' =>
      let s := (g.core.s + 1) &&& 0xFF
      let s' := (s + 1) &&& 0xFF
      let s'' := (s' + 1) &&& 0xFF
      g'.memory = g.memory ∧ g'.core = { g.core with
        s := s''
        p := without ((g.memory (stack ||| s)).val ||| flagU) flagB
        pc := (g.memory (stack ||| s'')).val <<< 8 ||| (g.memory (stack ||| s')).val }) g := by
  simp

end

namespace Machine
variable (chip : Chip) {m : Machine (ℕ → Byte)}

/-- RTI pulls S, P and PC, and assigns nothing else. -/
theorem rti_core (h : m.Settled) (hk : (m.step .flat chip).1.kind = .instruction) (hop : m.host m.cpu.core.pc = 0x40) :
    let s := (m.cpu.core.s + 1) &&& 0xFF
    let s' := (s + 1) &&& 0xFF
    let s'' := (s' + 1) &&& 0xFF
    (m.step .flat chip).2.cpu.core = { m.cpu.core with
        s := s''
        p := without ((m.host (stack ||| s)).val ||| flagU) flagB
        pc := (m.host (stack ||| s'')).val <<< 8 ||| (m.host (stack ||| s')).val
        polledI := none } ∧
      (m.step .flat chip).2.host = m.host := by
  intro s s' s''
  have hrti := opRti_core (Flat.mk { m.cpu.core with polledI := none } m.host []).fetched
  have hopcode : opcodes (m.host m.cpu.core.pc) = .implied .rti 6 := by
    rw [hop]
    rfl
  obtain ⟨extra, hcore, hmemory⟩ := step_implied chip (fun c memory => ∃ extra, c = { m.cpu.core with
      s := s''
      p := without ((m.host (stack ||| s)).val ||| flagU) flagB
      pc := (m.host (stack ||| s'')).val <<< 8 ||| (m.host (stack ||| s')).val
      polledI := none
      extra } ∧ memory = m.host) h.1 hk hopcode
    (fun c memory extra hpost => ⟨extra, by rw [hpost.choose_spec.1], hpost.choose_spec.2⟩)
    (hrti.mono fun _ g' hpost => ⟨m.cpu.core.extra, hpost.2, hpost.1⟩)
  have hextra : (m.step .flat chip).2.cpu.core.extra = 0 := (act_settled .flat chip .step m h).2
  rw [hcore] at hextra
  refine ⟨hcore.trans ?_, hmemory⟩
  have hnone : extra = m.cpu.core.extra := Eq.trans hextra h.2.symm
  rw [hnone]

/-! ## An interrupt and its return -/

/-- An RTI with S as an interrupt left it, and with its frame unwritten, returns to where the interrupt came. -/
theorem interrupted_returns (hfit : m.Fit) (hsettled : m.Settled)
    (henters : (m.step .flat chip).1.kind = .irq ∨ (m.step .flat chip).1.kind = .nmi)
    {handler : List (HostAction (ℕ → Byte))} {m' : Machine (ℕ → Byte)}
    (hm' : m' = (hostAct .flat chip).final (m.step .flat chip).2 handler)
    (hs : m'.cpu.core.s = (m.step .flat chip).2.cpu.core.s) (hk : (m'.step .flat chip).1.kind = .instruction)
    (hop : m'.host m'.cpu.core.pc = 0x40)
    (hunwritten : ∀ n < 3, Unwritten chip (stack ||| stackDown m.cpu.core.s n) (m.step .flat chip).2 handler) :
    (m'.step .flat chip).2.cpu.core = { m'.cpu.core with
        s := m.cpu.core.s, p := m.cpu.core.p, pc := m.cpu.core.pc, polledI := none } ∧
      (m'.step .flat chip).2.host = m'.host := by
  have hlog : (m.step .flat chip).1.Enters := by
    rcases henters with hirq | hnmi
    · exact .inr (.inl hirq)
    · exact .inl hnmi
  have hkind : (m.step .flat chip).1.kind ≠ .instruction := by
    rcases henters with hirq | hnmi
    · rw [hirq]
      decide
    · rw [hnmi]
      decide
  have hentry : (m.step .flat chip).2.Fit := (step_fit .flat chip hfit).1
  have hsettled' : m'.Settled := hm' ▸
    System.final_preserves (hostAct_settled .flat chip) (act_settled .flat chip .step m hsettled) handler
  obtain ⟨-, -, -, hsle, hpcle, hp⟩ := (Core.valid_iff m.cpu.core).mp hfit.2
  obtain ⟨hs₃, hwritten⟩ := entry_step chip hsettled hlog
  have hreturns : (m.step .flat chip).1.kind.returns m.cpu.core = m.cpu.core.pc := if_neg hkind
  rw [hreturns] at hwritten
  have hkept {n : ℕ} (hn : n < 3) : m'.host (stack ||| stackDown m.cpu.core.s n) =
      (m.step .flat chip).2.host (stack ||| stackDown m.cpu.core.s n) :=
    hm' ▸ final_unwritten chip hentry.1 (hunwritten n hn)
  obtain ⟨hne₁, hne₂, hne₃⟩ := stackDown_ne hsle
  have hup : (m'.cpu.core.s + 1) &&& 0xFF = stackDown m.cpu.core.s 2 :=
    (congrArg (fun s => (s + 1) &&& 0xFF) (hs.trans hs₃)).trans (stackDown_up hsle 2)
  have hmiddle : (stackDown m.cpu.core.s 2 + 1) &&& 0xFF = stackDown m.cpu.core.s 1 := stackDown_up hsle 1
  have htop : (stackDown m.cpu.core.s 1 + 1) &&& 0xFF = m.cpu.core.s := stackDown_up hsle 0
  have hfirst : m'.host (stack ||| m.cpu.core.s) = (m.step .flat chip).2.host (stack ||| m.cpu.core.s) :=
    hkept (by decide : 0 < 3)
  have hhigh : (m'.host (stack ||| m.cpu.core.s)).val = m.cpu.core.pc >>> 8 := by
    rw [hfirst, hwritten, ← pushed_val (high_le hpcle)]
    simp [written, frame, Access.onMemory, hne₁, hne₂]
  have hlow : (m'.host (stack ||| stackDown m.cpu.core.s 1)).val = m.cpu.core.pc &&& 0xFF := by
    rw [hkept (by decide : 1 < 3), hwritten, ← pushed_val Nat.and_le_right]
    simp [written, frame, Access.onMemory, hne₃]
  have hstatus : without ((m'.host (stack ||| stackDown m.cpu.core.s 2)).val ||| flagU) flagB = m.cpu.core.p := by
    rw [hkept (by decide : 2 < 3), hwritten, ← pulled_pushed hp (m.step .flat chip).1.kind m.cpu.core rfl]
    simp [written, frame, Access.onMemory]
  obtain ⟨hcore, hhost⟩ := rti_core chip hsettled' hk hop
  rw [hup, hmiddle, htop, hhigh, hlow, hstatus, word_split] at hcore
  exact ⟨hcore, hhost⟩

/-! ## The program that goes on -/

/-- The processor as it is, with nothing asked of it. -/
def undisturbed (m : Machine (ℕ → Byte)) : Machine (ℕ → Byte) :=
  { m with cpu := { m.cpu with core := { m.cpu.core with polledI := none }, poll := {} } }

theorem running_of_entry (hr : m.cpu.Routed)
    (h : (m.step .flat chip).1.kind = .irq ∨ (m.step .flat chip).1.kind = .nmi) : m.cpu.core.halted = false := by
  rw [step_boundary .flat chip hr, boundary] at h
  by_contra hhalted
  rw [Bool.not_eq_false] at hhalted
  rw [if_pos hhalted] at h
  split at h <;> simp at h

theorem undisturbed_polled (h : m.Settled) : m.undisturbed.Polled where
  settled := ⟨⟨h.1.agrees, fun hne => absurd rfl hne⟩, h.2⟩
  sound := .init

/-- **A handler that cleans up after itself is not noticed.** From any boundary that a host and its debugger have
reached, let an IRQ or NMI enter, let anything be done, and let an RTI return with A, X, Y and S as the entry left
them, its frame unwritten, nothing pending, and the DMA flag and the callables as they were. Whatever is done later:
if the program that no interrupt disturbed reads, before it writes them, only bytes that are as they were when the
interrupt came, then the program that was interrupted goes on as that one does, step for step, and the memories
still agree on those bytes and on all it writes. -/
theorem handler_transparent (readByte writeByte : Callable) (memory : ℕ → Byte)
    (before handler : List (HostAction (ℕ → Byte))) (later : List (Action (ℕ → Byte))) :
    let m := (hostAct .flat chip).final (start readByte writeByte memory) before
    let entry := m.step .flat chip
    let m' := (hostAct .flat chip).final entry.2 handler
    let exit := m'.step .flat chip
    let kept := {address | exit.2.host address = m.host address}
    let log := touches ((act .flat chip).shown m.undisturbed later)
    (entry.1.kind = .irq ∨ entry.1.kind = .nmi) → exit.1.kind = .instruction → m'.host m'.cpu.core.pc = 0x40 →
    m'.cpu.core.a = m.cpu.core.a ∧ m'.cpu.core.x = m.cpu.core.x ∧ m'.cpu.core.y = m.cpu.core.y ∧
      m'.cpu.core.s = entry.2.cpu.core.s →
    (∀ n < 3, Unwritten chip (stack ||| stackDown m.cpu.core.s n) entry.2 handler) →
    exit.2.cpu.poll.Idle → exit.2.cpu.dmaStalled = m.cpu.dmaStalled →
    exit.2.cpu.bus.readByte.base = m.cpu.bus.readByte.base ∧ exit.2.cpu.bus.writeByte.base = m.cpu.bus.writeByte.base →
    (∀ action ∈ later, action.Still) → Log.Within kept log →
    ((act .flat chip).shown exit.2 later).map Event.observed =
        ((act .flat chip).shown m.undisturbed later).map Event.observed ∧
      ((act .flat chip).final exit.2 later).cpu.captureState =
        ((act .flat chip).final m.undisturbed later).cpu.captureState ∧
      Set.EqOn ((act .flat chip).final exit.2 later).host ((act .flat chip).final m.undisturbed later).host
        (kept ∪ Log.stored log) := by
  intro m entry m' exit kept log hentry hexit hop hregisters hunwritten hidle hdma hbus hstill hwithin
  obtain ⟨ha, hx, hy, hs⟩ := hregisters
  have hm : m.Settled ∧ m.cpu.poll.forget.Sound :=
    System.final_preserves (hostAct_asked .flat chip) ⟨⟨.init readByte writeByte, rfl⟩, Poll.Sound.init.forget⟩ before
  have hsettled := hm.1
  have hfit : m.Fit := System.final_preserves (hostAct_fit .flat chip) (start_fit readByte writeByte memory) before
  obtain ⟨hsettled', hasked'⟩ : m'.Settled ∧ m'.cpu.poll.forget.Sound :=
    System.final_preserves (hostAct_asked .flat chip) (hostAct_asked .flat chip (.act .step) m hm) handler
  -- the poll of the RTI does not depend on what was restored before
  have hafter : exit.2.Polled := by
    refine ⟨act_settled .flat chip .step m' hsettled', ?_⟩
    exact (step_cases .flat chip hsettled').sound_of_forget (by rw [hexit]; decide) (by rw [hexit]; decide) hasked'
  obtain ⟨hcore, -⟩ := interrupted_returns chip hfit hsettled hentry rfl hs hexit hop hunwritten
  have hcore' : exit.2.cpu.core = m.undisturbed.cpu.core := by
    have hrunning : m'.cpu.core.halted = m.cpu.core.halted := by
      rw [running_of_entry chip hsettled.1 hentry]
      exact running_of_instruction ((step_boundary .flat chip hsettled'.1).symm.trans hexit)
    have hextra : m'.cpu.core.extra = m.cpu.core.extra := hsettled'.2.trans hsettled.2.symm
    rw [hcore, undisturbed]
    dsimp only
    rw [← ha, ← hx, ← hy, ← hrunning, ← hextra]
  have hsame : exit.2.Same (m.undisturbed.on exit.2.host) := by
    have hundisturbed := undisturbed_polled hsettled
    exact ⟨hafter, ⟨hundisturbed.settled, hundisturbed.sound⟩, hcore', hidle.same hafter.sound, hdma, rfl, rfl,
      hbus.1, hbus.2⟩
  have hagree : Set.EqOn m.undisturbed.host exit.2.host kept := fun address hkept => Eq.symm hkept
  have hstill' : ∀ action ∈ later.map HostAction.act, action.Still := by
    intro action hmem
    obtain ⟨action, haction, rfl⟩ := List.mem_map.mp hmem
    exact hstill action haction
  obtain ⟨hshown, hfinal⟩ := shown_act chip m.undisturbed later
  obtain ⟨hshown', hfinal'⟩ := shown_act chip (m.undisturbed.on exit.2.host) later
  obtain ⟨hlocal, hend⟩ := run_keeps_local chip hstill' (Local.of_on hagree) (hshown.symm ▸ hwithin)
  rw [hshown, hshown'] at hlocal
  rw [hshown, hfinal, hfinal'] at hend
  obtain ⟨hobserved, hlater⟩ := System.shown_related (act_same .flat chip) hsame later
  refine ⟨hobserved.trans (by rw [hlocal]), ?_, fun address hmem => ?_⟩
  · rw [hlater.captureState, CPU.captureState, hend.cpu]
    rfl
  · exact (congrFun hlater.opened.host address).trans (hend.memory hmem).symm

/-- CLI, two NOPs and INC $10 at $0000, and a handler at $0300 that increments $20. -/
def counting (address : ℕ) : Byte :=
  if address = 0xFFFF then 0x03
  else if address < 0x0300 then holding 0 [0x58, 0xEA, 0xEA, 0xE6, 0x10] address
  else holding 0x0300 [0xE6, 0x20, 0x40] address

/-- The handler is stopped after its first instruction, and A set and set back. -/
theorem handler_transparent_counting :
    let m := (hostAct .flat mos6502).final (start (.host 0) (.host 0) counting)
      [.act .step, .act .step, .act (.call .requestMaskableInterrupt)]
    let m' := (hostAct .flat mos6502).final (m.step .flat mos6502).2
      [.act .step, .set .a (some 7), .set .a (some 0), .act (.call .clearMaskableInterrupt)]
    let resumed := (m'.step .flat mos6502).2
    resumed.host 0x20 ≠ m.host 0x20 ∧
      ((act .flat mos6502).shown resumed [.step, .step]).map Event.observed =
        ((act .flat mos6502).shown m.undisturbed [.step, .step]).map Event.observed := by
  refine ⟨by decide +kernel, ?_⟩
  refine (handler_transparent mos6502 (.host 0) (.host 0) counting
    [.act .step, .act .step, .act (.call .requestMaskableInterrupt)]
    [.act .step, .set .a (some 7), .set .a (some 0), .act (.call .clearMaskableInterrupt)] [.step, .step]
    (.inl ?_) ?_ ?_ ?_ ?_ ⟨?_, ?_, ?_⟩ ?_ ?_ ?_ ?_).1
  · decide +kernel
  · decide +kernel
  · decide +kernel
  · decide +kernel
  · intro n hn
    obtain rfl | rfl | rfl : n = 0 ∨ n = 1 ∨ n = 2 := by omega
    · exact ⟨by decide +kernel, trivial, trivial, trivial, trivial⟩
    · exact ⟨by decide +kernel, trivial, trivial, trivial, trivial⟩
    · exact ⟨by decide +kernel, trivial, trivial, trivial, trivial⟩
  · decide +kernel
  · decide +kernel
  · decide +kernel
  · decide +kernel
  · decide +kernel
  · simp [Action.Still]
  · decide +kernel

end Machine

end SixFiveOhTwo
