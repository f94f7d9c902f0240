import SixFiveOhTwo.Effects.Memory

/-! # The frame of a step

What a step on a flat memory may change, whatever the registers, the opcode and the kind of work: the bytes,
the registers and the flags that the rule of its instruction or of its sequence names.
-/

namespace SixFiveOhTwo
open Bits Interaction Code
set_option autoImplicit false

/-- The registers and the memory after the work of a boundary: the bytes it does not write are as they were, a
read-modify-write left its result, and the registers and the flags it does not name are as they were. -/
structure Framed (kind : BoundaryKind) (c : Core) (memory : ℕ → Byte) (c' : Core) (memory' : ℕ → Byte) : Prop where
  unwritten : ∀ address ∉ kind.writes c memory, memory' address = memory address
  result : ∀ left ∈ kind.leaves c memory, (memory' left.1).val = left.2
  registers : Keeps (kind.effect c memory) c c'

theorem instruction_framed (chip : Chip) (g : Flat) (ha : g.core.a ≤ 0xFF) (hp : ValidP g.core.p) :
    (Code.instruction chip).OnFlat (fun _ g' => Framed .instruction g.core g.memory g'.core g'.memory) g := by
  refine instruction_dispatches (fun c memory extra h => ?_) ?_
  · exact ⟨h.unwritten, h.result, h.registers.a, h.registers.x, h.registers.y, h.registers.s, h.registers.p⟩
  · refine Tree.wp_mono (Tree.wp_and (dispatch_keeps chip (opcodes (g.memory g.core.pc)) g.fetched.sight ha hp).onFlat
      (dispatch_writes chip rfl g.core.pc g.fetched rfl)) ?_
    rintro _ g' ⟨hkeeps, hunwritten, hresult⟩
    exact ⟨hunwritten, hresult, hkeeps.a, hkeeps.x, hkeeps.y, hkeeps.s, hkeeps.p⟩

theorem enterInterrupt_framed (kind : ℕ) (g : Flat) : (enterInterrupt kind).OnFlat (fun _ g' =>
    (∀ address ∉ stackBytes g.core 3, g'.memory address = g.memory address) ∧
      Keeps { s := true, flags := flagI } g.core g'.core) g := by
  refine Tree.wp_mono (Tree.wp_and (enterInterrupt_ensures kind g.sight).onFlat (onFlat_written _ g)) ?_
  rintro _ g' ⟨⟨d, e, v, low, high, ht, -, h⟩, t, ht', hmemory⟩
  obtain rfl := List.append_cancel_left (ht.symm.trans ht')
  refine ⟨fun a ha => ?_, h.keeps⟩
  rw [hmemory]
  exact written_outside (frame_writes g.core _ _ [.r g.core.pc d.val, .r g.core.pc e.val]
    (by simp [Access.isWrite]) (by simp [Access.isWrite])) ha

theorem acceptReset_memory (g : Flat) : acceptReset.OnFlat (fun _ g' => g'.memory = g.memory) g := by
  simp [acceptReset, resetStackCycle]

theorem BoundaryKind.code_framed (chip : Chip) (kind : BoundaryKind) (g : Flat) (ha : g.core.a ≤ 0xFF)
    (hp : ValidP g.core.p) :
    (kind.code chip).OnFlat (fun _ g' => Framed kind g.core g.memory g'.core g'.memory) g := by
  cases kind with
  | instruction => exact instruction_framed chip g ha hp
  | nmi | irq =>
    refine Tree.wp_mono (enterInterrupt_framed _ g) ?_
    rintro _ g' ⟨hunwritten, hkeeps⟩
    exact ⟨hunwritten, fun left hleft => (by cases hleft), hkeeps⟩
  | reset =>
    refine Tree.wp_mono (Tree.wp_and (acceptReset_keeps g.sight).onFlat (acceptReset_memory g)) ?_
    rintro _ g' ⟨hkeeps, hmemory⟩
    exact ⟨fun a _ => by rw [hmemory], fun left hleft => (by cases hleft), hkeeps⟩
  | jamIdle =>
    simp only [code, haltedCycle, onFlat_bind, onFlat_read, onFlat_pure, Flat.read_core, Flat.read_memory]
    exact ⟨fun _ _ => rfl, fun left hleft => (by cases hleft), fun _ => rfl, fun _ => rfl, fun _ => rfl, fun _ => rfl, rfl⟩

theorem Entry.writes_polledI (entry : Entry) (c : Core) (memory : ℕ → Byte) :
    entry.writes { c with polledI := none } memory = entry.writes c memory ∧
      entry.leaves { c with polledI := none } memory = entry.leaves c memory := by
  cases entry with
  | implied handler cycles =>
    refine ⟨?_, rfl⟩
    cases handler <;> rfl
  | addressed handler mode cycles =>
    have hbase : mode.base { c with polledI := none } memory = mode.base c memory := by cases mode <;> rfl
    have haddress : mode.address { c with polledI := none } memory = mode.address c memory := by cases mode <;> rfl
    have hstored : handler.stored { c with polledI := none } = handler.stored c := by cases handler <;> rfl
    rw [writes, writes, leaves, leaves, hbase, haddress, Addressed.reached, Addressed.reached, hstored]
    exact ⟨rfl, rfl⟩

theorem Framed.of_decided {kind decided : BoundaryKind} {c c' : Core} {memory memory' : ℕ → Byte}
    (h : Framed kind (c.decided decided) memory c' memory') : Framed kind c memory c' memory' := by
  have hpolled (h : Framed kind { c with polledI := none } memory c' memory') : Framed kind c memory c' memory' := by
    obtain ⟨hwrites, hleaves, hregisters⟩ := h
    have hkeeps : Keeps (kind.effect c memory) c c' := by
      cases kind <;> exact ⟨hregisters.a, hregisters.x, hregisters.y, hregisters.s, hregisters.p⟩
    cases kind with
    | instruction =>
      obtain ⟨hw, hl⟩ := Entry.writes_polledI (opcodes (memory c.pc)) c memory
      rw [BoundaryKind.writes, hw] at hwrites
      rw [BoundaryKind.leaves, hl] at hleaves
      exact ⟨hwrites, hleaves, hkeeps⟩
    | reset | jamIdle | nmi | irq => exact ⟨hwrites, hleaves, hkeeps⟩
  cases decided with
  | irq | instruction => exact hpolled h
  | reset | jamIdle | nmi => exact h

namespace Machine

/-- **The frame of a step.** -/
theorem step_framed (chip : Chip) (readByte writeByte : Callable) (memory : ℕ → Byte)
    (actions : List (HostAction (ℕ → Byte))) :
    let m := (hostAct .flat chip).final (start readByte writeByte memory) actions
    let m' := (m.step .flat chip).2
    Framed (boundary m.cpu.core m.cpu.poll) m.cpu.core m.host m'.cpu.core m'.host := by
  intro m m'
  have hm : m.Fit := System.final_preserves (hostAct_fit .flat chip) (start_fit readByte writeByte memory) actions
  obtain ⟨ha, -, -, -, -, hp⟩ := (Core.valid_iff m.cpu.core).mp hm.2
  refine step_onFlat chip (Framed (boundary m.cpu.core m.cpu.poll) m.cpu.core m.host) hm.1 ?_
  refine Tree.wp_mono (BoundaryKind.code_framed chip _ _ ?_ ?_) fun _ g' h => h.of_decided
  · cases boundary m.cpu.core m.cpu.poll <;> exact ha
  · cases boundary m.cpu.core m.cpu.poll <;> exact hp

end Machine

end SixFiveOhTwo
