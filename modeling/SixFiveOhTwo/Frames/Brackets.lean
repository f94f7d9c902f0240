import SixFiveOhTwo.Frames.Entries
import SixFiveOhTwo.Machine.Flat

/-! # Calls and interrupts are transparent when bracketed

On a flat memory the pushes of JSR and of an interrupt sequence are what RTS and RTI pull, as long as S
is the same and nobody has written the pushed bytes: control returns, with S as it was, and with P as it
was after RTI.
-/

namespace SixFiveOhTwo
open Bits Interaction Code
set_option autoImplicit false

/-! ## What accesses write -/

/-- A memory after an access. -/
def Access.onMemory : Access → (ℕ → Byte) → ℕ → Byte
  | r _ _, memory => memory
  | w address value, memory => Function.update memory address (Fin.ofNat 256 value)

/-- A memory after some accesses. -/
def written (memory : ℕ → Byte) (t : List Access) : ℕ → Byte :=
  t.foldl (fun memory access => access.onMemory memory) memory

theorem written_append (memory : ℕ → Byte) (t u : List Access) :
    written memory (t ++ u) = written (written memory t) u := List.foldl_append

theorem written_of_unwritten {memory : ℕ → Byte} {address : ℕ} {t : List Access}
    (h : ∀ access ∈ t, access.shape ≠ (true, address)) : written memory t address = memory address := by
  induction t generalizing memory with
  | nil => rfl
  | cons access t ih =>
    rw [List.forall_mem_cons] at h
    refine (ih h.2).trans ?_
    cases access with
    | r address' value => rfl
    | w address' value =>
      have hne : address ≠ address' := fun he => h.1 (by rw [he]; rfl)
      exact Function.update_of_ne hne _ _

/-- On a flat memory the accesses tell what the memory has become. -/
theorem onFlat_written {α : Type} (code : Code α) (g : Flat) :
    code.OnFlat (fun _ g' => ∃ t, g'.trace = g.trace ++ t ∧ g'.memory = written g.memory t) g := by
  refine Tree.wp_of_uses ?_ (Tree.uses_any code) ⟨[], (List.append_nil _).symm, rfl⟩
  rintro op g₁ x g₂ - ⟨t, ht, hmemory⟩ hstep
  have hsaw {access : Access} (htrace : g₂.trace = g₁.trace ++ [access])
      (hwrite : g₂.memory = access.onMemory g₁.memory) :
      ∃ t, g₂.trace = g.trace ++ t ∧ g₂.memory = written g.memory t :=
    ⟨t ++ [access], by rw [htrace, ht, List.append_assoc],
      by rw [hwrite, hmemory, written_append]; rfl⟩
  cases op with
  | read address =>
    obtain ⟨-, rfl⟩ := hstep
    exact hsaw rfl rfl
  | write address value =>
    subst hstep
    exact hsaw rfl rfl
  | core =>
    obtain ⟨-, rfl⟩ := hstep
    exact ⟨t, ht, hmemory⟩
  | setCore core | dmaStalled | poll | setPoll poll =>
    subst hstep
    exact ⟨t, ht, hmemory⟩

/-! ## The stack -/

theorem stackDown_le {s : ℕ} (hs : s ≤ 0xFF) (n : ℕ) : stackDown s n ≤ 0xFF := by
  cases n with
  | zero => exact hs
  | succ n => exact Nat.le_of_lt_succ (masked_lt 8 _)

theorem stackDown_up {s : ℕ} (hs : s ≤ 0xFF) (n : ℕ) : (stackDown s (n + 1) + 1) &&& 0xFF = stackDown s n := by
  have hle := stackDown_le hs n
  rw [stackDown, masked, and_ff]
  omega

theorem stack_or_inj {s s' : ℕ} (hs : s ≤ 0xFF) (hs' : s' ≤ 0xFF) : stack ||| s = stack ||| s' ↔ s = s' := by
  have hadd {s : ℕ} (hs : s ≤ 0xFF) : stack ||| s = 0x100 + s := by
    have hlt : s < 2 ^ 8 := Nat.lt_succ_of_le hs
    exact (Nat.two_pow_add_eq_or_of_lt hlt 1).symm
  rw [hadd hs, hadd hs']
  omega

/-- Three pushes reach three bytes. -/
theorem stackDown_ne {s : ℕ} (hs : s ≤ 0xFF) : stack ||| s ≠ stack ||| stackDown s 1 ∧
    stack ||| s ≠ stack ||| stackDown s 2 ∧ stack ||| stackDown s 1 ≠ stack ||| stackDown s 2 := by
  have hle (n : ℕ) := stackDown_le hs n
  simp only [ne_eq, stack_or_inj hs (hle 1), stack_or_inj hs (hle 2), stack_or_inj (hle 1) (hle 2)]
  simp only [stackDown, masked]
  omega

theorem pushed_val {value : ℕ} (h : value ≤ 0xFF) : (Fin.ofNat 256 value).val = value := by
  exact Nat.mod_eq_of_lt (Nat.lt_succ_of_le h)

theorem word_split {pc : ℕ} : (pc >>> 8) <<< 8 ||| (pc &&& 0xFF) = pc := by
  have hlow : pc &&& 0xFF < 2 ^ 8 := Nat.lt_succ_of_le Nat.and_le_right
  rw [← Nat.shiftLeft_add_eq_or_of_lt hlow, Nat.shiftLeft_eq, Nat.shiftRight_eq_div_pow, and_ff]
  omega

/-- RTI undoes both ways of pushing P. -/
theorem pulled_pushed {p : ℕ} (h : ValidP p) (kind : BoundaryKind) (c : Core) (hc : c.p = p) :
    without ((Fin.ofNat 256 (kind.pushes c)).val ||| flagU) flagB = p := by
  have hall : ∀ q : Byte, ValidP q.val →
      without ((Fin.ofNat 256 (q.val ||| flagB ||| flagU)).val ||| flagU) flagB = q.val ∧
        without ((Fin.ofNat 256 (without (q.val ||| flagU) flagB)).val ||| flagU) flagB = q.val := by
    decide +kernel
  obtain ⟨hsoft, hhard⟩ := hall ⟨p, Nat.lt_succ_of_le h.1⟩ h
  rw [BoundaryKind.pushes, hc]
  split
  · exact hsoft
  · exact hhard

/-! ## The instructions -/

/-- What an instruction does, its extra cycles aside, its row does. -/
theorem instruction_dispatches {chip : Chip} {g : Flat} {post : Core → (ℕ → Byte) → Prop}
    (hextra : ∀ c memory extra, post c memory → post { c with extra } memory)
    (h : (dispatch chip (opcodes (g.memory g.core.pc))).OnFlat (fun _ g' => post g'.core g'.memory) g.fetched) :
    (Code.instruction chip).OnFlat (fun _ g' => post g'.core g'.memory) g := by
  apply onFlat_instruction
  simp only [execute, onFlat_bind, onFlat_core]
  apply (onFlat_ask _).mpr
  rw [onFlat_bind, onFlat_update, onFlat_bind]
  apply h.mono
  intro _ g' hpost
  simp only [onFlat_bind, onFlat_core, onFlat_ite, onFlat_update, onFlat_pure]
  split
  · exact hextra _ _ 0 hpost
  · exact hpost

/-- The registers when control has returned: S, P and PC apart they are as they were. -/
structure Returned (c c' : Core) (s p pc : ℕ) : Prop where
  a : c'.a = c.a
  x : c'.x = c.x
  y : c'.y = c.y
  s : c'.s = s
  p : c'.p = p
  pc : c'.pc = pc

section
attribute [local simp] Implied.op opJsr opRts opRti fetch readPc readStack push pull

theorem opJsr_pushes (g : Flat) :
    opJsr.OnFlat (fun _ g' => g'.core.s = stackDown g.core.s 2 ∧
      let pc := (g.core.pc + 1) &&& 0xFFFF
      g'.memory = written g.memory [.w (stack ||| g.core.s) (pc >>> 8),
        .w (stack ||| stackDown g.core.s 1) (pc &&& 0xFF)]) g := by
  simp [written, Access.onMemory, stackDown]

theorem opRts_pulls (g : Flat) :
    opRts.OnFlat (fun _ g' =>
      let s := (g.core.s + 1) &&& 0xFF
      let s' := (s + 1) &&& 0xFF
      g'.memory = g.memory ∧ Returned g.core g'.core s' g.core.p
        ((((g.memory (stack ||| s')).val <<< 8 ||| (g.memory (stack ||| s)).val) + 1) &&& 0xFFFF)) g := by
  simp
  exact ⟨rfl, rfl, rfl, rfl, rfl, rfl⟩

theorem opRti_pulls (g : Flat) :
    opRti.OnFlat (fun _ g' =>
      let s := (g.core.s + 1) &&& 0xFF
      let s' := (s + 1) &&& 0xFF
      let s'' := (s' + 1) &&& 0xFF
      g'.memory = g.memory ∧ Returned g.core g'.core s'' (without ((g.memory (stack ||| s)).val ||| flagU) flagB)
        ((g.memory (stack ||| s'')).val <<< 8 ||| (g.memory (stack ||| s')).val)) g := by
  simp
  exact ⟨rfl, rfl, rfl, rfl, rfl, rfl⟩

end

/-! ## Steps on a flat memory -/

namespace Machine
variable (chip : Chip) {m : Machine (ℕ → Byte)}

theorem step_written (h : m.cpu.Routed) :
    (m.step .flat chip).2.host = written m.host ((m.step .flat chip).1.trace.map HostCall.access) := by
  obtain ⟨-, -, htrace, hplain, -⟩ := step_plain .flat chip h
  have hhost : (m.step .flat chip).2.host = (stepRun .flat chip m).2.host := congrArg Plain.host hplain
  obtain ⟨t, ht, hmemory⟩ := Plain.exec_onFlat (onFlat_written (Code.step chip) m.opened.flat)
  have hlog : (stepRun .flat chip m).2.trace.map HostCall.access = t := ht
  rw [hhost, htrace, hlog]
  exact hmemory

theorem step_onFlat (post : Core → (ℕ → Byte) → Prop) (h : m.cpu.Routed)
    (hpost : ((boundary m.cpu.core m.cpu.poll).code chip).OnFlat (fun _ g' => post g'.core g'.memory)
      (Flat.mk (m.cpu.core.decided (boundary m.cpu.core m.cpu.poll)) m.host [])) :
    post (m.step .flat chip).2.cpu.core (m.step .flat chip).2.host := by
  obtain ⟨-, -, -, hplain, -⟩ := step_plain .flat chip h
  have hcore : (m.step .flat chip).2.cpu.core = (stepRun .flat chip m).2.core := congrArg Plain.core hplain
  have hhost : (m.step .flat chip).2.host = (stepRun .flat chip m).2.host := congrArg Plain.host hplain
  rw [hcore, hhost, stepRun, Plain.exec_step]
  exact Plain.exec_onFlat (q := m.opened.decided) hpost

theorem step_implied (post : Core → (ℕ → Byte) → Prop) (h : m.cpu.Routed)
    (hk : (m.step .flat chip).1.kind = .instruction) {handler : Implied} {cycles : ℕ}
    (hop : opcodes (m.host m.cpu.core.pc) = .implied handler cycles) (hextra : ∀ c memory extra, post c memory → post { c with extra } memory)
    (hpost : handler.op.OnFlat (fun _ g' => post g'.core g'.memory)
      (Flat.mk { m.cpu.core with polledI := none } m.host []).fetched) :
    post (m.step .flat chip).2.cpu.core (m.step .flat chip).2.host := by
  rw [step_boundary .flat chip h] at hk
  refine step_onFlat chip post h ?_
  rw [hk]
  refine instruction_dispatches hextra ?_
  change (dispatch chip (opcodes (m.host m.cpu.core.pc))).OnFlat _ _
  rw [hop]
  exact hpost

/-! ## Runs that leave a byte unwritten -/

/-- Nobody writes an address: no access of a step, and not the host itself. -/
def Unwritten (address : ℕ) : Machine (ℕ → Byte) → List (HostAction (ℕ → Byte)) → Prop
  | _, [] => True
  | m, action :: actions =>
    (match action with
      | .act .step => ∀ call ∈ (m.step .flat chip).1.trace, call.access.shape ≠ (true, address)
      | .act (.host move) => move m.host address = m.host address
      | _ => True) ∧ Unwritten address (hostAct .flat chip action m).2 actions

theorem final_unwritten {address : ℕ} {m : Machine (ℕ → Byte)} (h : m.cpu.Routed)
    {actions : List (HostAction (ℕ → Byte))} (hrun : Unwritten chip address m actions) :
    ((hostAct .flat chip).final m actions).host address = m.host address := by
  induction actions generalizing m with
  | nil => rfl
  | cons action actions ih =>
    refine (ih (hostAct_routed .flat chip action h) hrun.2).trans ?_
    obtain ⟨hnow, -⟩ := hrun
    cases action with
    | act action =>
      cases action with
      | call call => rfl
      | host move => exact hnow
      | step =>
        refine (congrFun (step_written chip h) address).trans (written_of_unwritten ?_)
        simpa using hnow
    | _ => rfl

/-! ## Entries and returns -/

theorem jsr_step (h : m.cpu.Routed) (hk : (m.step .flat chip).1.kind = .instruction)
    (hop : m.host m.cpu.core.pc = 0x20) :
    (m.step .flat chip).2.cpu.core.s = stackDown m.cpu.core.s 2 ∧
      let pc := (m.cpu.core.pc + 2) &&& 0xFFFF
      (m.step .flat chip).2.host = written m.host
        [.w (stack ||| m.cpu.core.s) (pc >>> 8), .w (stack ||| stackDown m.cpu.core.s 1) (pc &&& 0xFF)] := by
  have hnext : ((m.cpu.core.pc + 1 &&& 0xFFFF) + 1) &&& 0xFFFF = m.cpu.core.pc + 2 &&& 0xFFFF := by
    simp only [and_ffff]
    omega
  have hjsr := opJsr_pushes (Flat.mk { m.cpu.core with polledI := none } m.host []).fetched
  have hopcode : opcodes (m.host m.cpu.core.pc) = .implied .jsr 6 := by
    rw [hop]
    rfl
  refine step_implied chip (fun c memory => c.s = _ ∧ memory = _) h hk hopcode (fun _ _ _ h => h) (hjsr.mono ?_)
  rintro _ g' ⟨hs, hmemory⟩
  refine ⟨hs, hmemory.trans ?_⟩
  simp only [Flat.fetched, hnext]
  rfl

theorem entry_step (h : m.Settled) (henters : (m.step .flat chip).1.Enters) :
    (m.step .flat chip).2.cpu.core.s = stackDown m.cpu.core.s 3 ∧
      (m.step .flat chip).2.host = written m.host (frame m.cpu.core.s
        ((m.step .flat chip).1.kind.returns m.cpu.core) ((m.step .flat chip).1.kind.pushes m.cpu.core)) := by
  obtain ⟨d, e, v, low, high, htrace, -, hentered⟩ := step_sequenced .flat chip h henters
  refine ⟨hentered.s, ?_⟩
  rw [step_written chip h.1, htrace]
  rfl

theorem rts_step (h : m.cpu.Routed) (hk : (m.step .flat chip).1.kind = .instruction)
    (hop : m.host m.cpu.core.pc = 0x60) :
    let s := (m.cpu.core.s + 1) &&& 0xFF
    let s' := (s + 1) &&& 0xFF
    Returned m.cpu.core (m.step .flat chip).2.cpu.core s' m.cpu.core.p
        ((((m.host (stack ||| s')).val <<< 8 ||| (m.host (stack ||| s)).val) + 1) &&& 0xFFFF) ∧
      (m.step .flat chip).2.host = m.host := by
  have hrts := opRts_pulls (Flat.mk { m.cpu.core with polledI := none } m.host []).fetched
  have hopcode : opcodes (m.host m.cpu.core.pc) = .implied .rts 6 := by
    rw [hop]
    rfl
  refine step_implied chip (fun c memory => Returned m.cpu.core c _ _ _ ∧ memory = m.host) h hk hopcode
    (fun _ _ _ h => ⟨⟨h.1.a, h.1.x, h.1.y, h.1.s, h.1.p, h.1.pc⟩, h.2⟩) (hrts.mono ?_)
  rintro _ g' ⟨hmemory, h⟩
  exact ⟨⟨h.a, h.x, h.y, h.s, h.p, h.pc⟩, hmemory⟩

theorem rti_step (h : m.cpu.Routed) (hk : (m.step .flat chip).1.kind = .instruction)
    (hop : m.host m.cpu.core.pc = 0x40) :
    let s := (m.cpu.core.s + 1) &&& 0xFF
    let s' := (s + 1) &&& 0xFF
    let s'' := (s' + 1) &&& 0xFF
    Returned m.cpu.core (m.step .flat chip).2.cpu.core s''
        (without ((m.host (stack ||| s)).val ||| flagU) flagB)
        ((m.host (stack ||| s'')).val <<< 8 ||| (m.host (stack ||| s')).val) ∧
      (m.step .flat chip).2.host = m.host := by
  have hrti := opRti_pulls (Flat.mk { m.cpu.core with polledI := none } m.host []).fetched
  have hopcode : opcodes (m.host m.cpu.core.pc) = .implied .rti 6 := by
    rw [hop]
    rfl
  refine step_implied chip (fun c memory => Returned m.cpu.core c _ _ _ ∧ memory = m.host) h hk hopcode
    (fun _ _ _ h => ⟨⟨h.1.a, h.1.x, h.1.y, h.1.s, h.1.p, h.1.pc⟩, h.2⟩) (hrti.mono ?_)
  rintro _ g' ⟨hmemory, h⟩
  exact ⟨⟨h.a, h.x, h.y, h.s, h.p, h.pc⟩, hmemory⟩

/-! ## Brackets -/

theorem returns_le (kind : BoundaryKind) {c : Core} (h : c.pc ≤ 0xFFFF) : kind.returns c ≤ 0xFFFF := by
  rw [BoundaryKind.returns]
  split
  · exact Nat.and_le_right
  · exact h

/-- **Brackets are transparent.** On a flat memory, whatever is done between: an RTS with S as JSR left it and
its two bytes unwritten returns after the JSR, and an RTI with S as an interrupt sequence left it and its
three bytes unwritten returns to where that sequence came from, with all of P. A, X, Y and the memory are
left alone, and S is as it was before. -/
theorem brackets_transparent (readByte writeByte : Callable) (memory : ℕ → Byte)
    (before actions : List (HostAction (ℕ → Byte))) :
    let m := (hostAct .flat chip).final (start readByte writeByte memory) before
    let entry := m.step .flat chip
    let m' := (hostAct .flat chip).final entry.2 actions
    let exit := m'.step .flat chip
    let c := m.cpu.core
    let c' := m'.cpu.core
    c'.s = entry.2.cpu.core.s → exit.1.kind = .instruction →
    Unwritten chip (stack ||| c.s) entry.2 actions → Unwritten chip (stack ||| stackDown c.s 1) entry.2 actions →
    (entry.1.kind = .instruction → m.host c.pc = 0x20 → m'.host c'.pc = 0x60 →
      Returned c' exit.2.cpu.core c.s c'.p ((c.pc + 3) &&& 0xFFFF) ∧ exit.2.host = m'.host) ∧
    (entry.1.Enters → Unwritten chip (stack ||| stackDown c.s 2) entry.2 actions → m'.host c'.pc = 0x40 →
      Returned c' exit.2.cpu.core c.s c.p (entry.1.kind.returns c) ∧ exit.2.host = m'.host) := by
  intro m entry m' exit c c' hs hexit hhigh hlow
  have hm : m.Fit :=
    System.final_preserves (hostAct_fit .flat chip) (start_fit readByte writeByte memory) before
  have hsettled : m.Settled :=
    System.final_preserves (hostAct_settled .flat chip) ⟨.init readByte writeByte, rfl⟩ before
  have hentry : entry.2.Fit := (step_fit .flat chip hm).1
  have hm' : m'.Fit := System.final_preserves (hostAct_fit .flat chip) hentry actions
  obtain ⟨-, -, -, hsle, hpcle, hp⟩ := (Core.valid_iff c).mp hm.2
  have hkept {address : ℕ} (h : Unwritten chip address entry.2 actions) :
      m'.host address = entry.2.host address := final_unwritten chip hentry.1 h
  obtain ⟨hne₁, hne₂, hne₃⟩ := stackDown_ne hsle
  constructor
  · intro hk hjsr hrts
    obtain ⟨hs₂, hwritten⟩ := jsr_step chip hm.1 hk hjsr
    obtain ⟨hreturned, hhost⟩ := rts_step chip hm'.1 hexit hrts
    have hup : (m'.cpu.core.s + 1) &&& 0xFF = stackDown c.s 1 :=
      (congrArg (fun s => (s + 1) &&& 0xFF) (hs.trans hs₂)).trans (stackDown_up hsle 1)
    have htop : (stackDown c.s 1 + 1) &&& 0xFF = c.s := stackDown_up hsle 0
    have hpc : ((c.pc + 2) &&& 0xFFFF) ≤ 0xFFFF := Nat.and_le_right
    have hhigh' : (m'.host (stack ||| c.s)).val = ((c.pc + 2) &&& 0xFFFF) >>> 8 := by
      rw [hkept hhigh, hwritten, ← pushed_val (high_le hpc)]
      simp [written, Access.onMemory, hne₁, c]
    have hlow' : (m'.host (stack ||| stackDown c.s 1)).val = ((c.pc + 2) &&& 0xFFFF) &&& 0xFF := by
      rw [hkept hlow, hwritten, ← pushed_val Nat.and_le_right]
      simp [written, Access.onMemory, c]
    have hnext : ((c.pc + 2) &&& 0xFFFF) + 1 &&& 0xFFFF = (c.pc + 3) &&& 0xFFFF := by
      simp only [and_ffff]
      omega
    rw [hup, htop, hhigh', hlow', word_split, hnext] at hreturned
    exact ⟨hreturned, hhost⟩
  · intro henters hstatus hrti
    obtain ⟨hs₃, hwritten⟩ := entry_step chip hsettled henters
    obtain ⟨hreturned, hhost⟩ := rti_step chip hm'.1 hexit hrti
    have hup : (m'.cpu.core.s + 1) &&& 0xFF = stackDown c.s 2 :=
      (congrArg (fun s => (s + 1) &&& 0xFF) (hs.trans hs₃)).trans (stackDown_up hsle 2)
    have hmiddle : (stackDown c.s 2 + 1) &&& 0xFF = stackDown c.s 1 := stackDown_up hsle 1
    have htop : (stackDown c.s 1 + 1) &&& 0xFF = c.s := stackDown_up hsle 0
    have hpc := returns_le entry.1.kind hpcle
    have hhigh' : (m'.host (stack ||| c.s)).val = entry.1.kind.returns c >>> 8 := by
      rw [hkept hhigh, hwritten, ← pushed_val (high_le hpc)]
      simp [written, frame, Access.onMemory, hne₁, hne₂, c, entry]
    have hlow' : (m'.host (stack ||| stackDown c.s 1)).val = entry.1.kind.returns c &&& 0xFF := by
      rw [hkept hlow, hwritten, ← pushed_val Nat.and_le_right]
      simp [written, frame, Access.onMemory, hne₃, c, entry]
    have hstatus' : without ((m'.host (stack ||| stackDown c.s 2)).val ||| flagU) flagB = c.p := by
      rw [hkept hstatus, hwritten, ← pulled_pushed hp entry.1.kind c rfl]
      simp [written, frame, Access.onMemory, c, entry]
    rw [hup, hmiddle, htop, hhigh', hlow', hstatus', word_split] at hreturned
    exact ⟨hreturned, hhost⟩

/-- A JSR at $0200 to a NOP and an RTS, from S = 0: its pushes wrap in page one. -/
def subroutine : List (HostAction (ℕ → Byte)) :=
  [.act (.host fun _ => holding 0x0200 [0x20, 0x04, 0x02, 0x00, 0xEA, 0x60]), .restore (.poised 0x0200 0 0 0 true)]

/-- An IRQ at $0200, from S = 1: the handler at $0000 is INX and RTI. -/
def interrupted : List (HostAction (ℕ → Byte)) :=
  [.act (.host fun _ => holding 0 [0xE8, 0x40]),
    .restore { CPUState.poised 0x0200 7 0 1 false with maskableInterruptPending := true }]

theorem brackets_transparent_nested :
    (let m := (hostAct .flat mos6502).final (start (.host 0) (.host 0) fun _ => 0) subroutine
     let m' := (hostAct .flat mos6502).final (m.step .flat mos6502).2 [.act .step]
     m'.cpu.core.s = 0xFE ∧ Returned m'.cpu.core (m'.step .flat mos6502).2.cpu.core m.cpu.core.s m'.cpu.core.p
       ((m.cpu.core.pc + 3) &&& 0xFFFF) ∧ (m'.step .flat mos6502).2.host = m'.host) ∧
    let m := (hostAct .flat mos6502).final (start (.host 0) (.host 0) fun _ => 0) interrupted
    let m' := (hostAct .flat mos6502).final (m.step .flat mos6502).2 [.act .step]
    m'.cpu.core.s = 0xFE ∧ m'.cpu.core.x = 8 ∧ Returned m'.cpu.core (m'.step .flat mos6502).2.cpu.core 1 0x20 0x0200 ∧
      (m'.step .flat mos6502).2.host = m'.host := by
  refine ⟨⟨by decide +kernel, ?_⟩, by decide +kernel, by decide +kernel, ?_⟩
  · exact (brackets_transparent mos6502 (.host 0) (.host 0) (fun _ => 0) subroutine [.act .step]
      (by decide +kernel) (by decide +kernel) ⟨by decide +kernel, trivial⟩ ⟨by decide +kernel, trivial⟩).1
      (by decide +kernel) (by decide +kernel) (by decide +kernel)
  · have hreturned := (brackets_transparent mos6502 (.host 0) (.host 0) (fun _ => 0) interrupted [.act .step]
      (by decide +kernel) (by decide +kernel) ⟨by decide +kernel, trivial⟩ ⟨by decide +kernel, trivial⟩).2
      (by decide +kernel) ⟨by decide +kernel, trivial⟩ (by decide +kernel)
    have hpc : (((hostAct .flat mos6502).final (start (.host 0) (.host 0) fun _ => 0) interrupted).step .flat
        mos6502).1.kind.returns
          ((hostAct .flat mos6502).final (start (.host 0) (.host 0) fun _ => 0) interrupted).cpu.core = 0x0200 := by
      decide +kernel
    rw [hpc] at hreturned
    exact hreturned

end Machine

end SixFiveOhTwo
