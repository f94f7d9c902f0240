import SixFiveOhTwo.Frames.Brackets
import SixFiveOhTwo.Interaction.Memory

/-! # What a run does to a flat memory, and what it needs of it

The accesses of a run on a flat memory are a log of that memory: each read returns what the writes before it
have left, and the writes are all that has changed at the end (`Machine.run_logs`). And the bytes a run reads
before it writes them are all it needs: on another memory that has the same there it is the same run
(`Machine.run_local`).
-/

namespace SixFiveOhTwo
open Bits Interaction
set_option autoImplicit false

/-- An access as a touch of a flat memory. -/
def Access.touch : Access → Touch ℕ Byte
  | r address value => .load address (Fin.ofNat 256 value)
  | w address value => .store address (Fin.ofNat 256 value)

theorem written_eq_applied (memory : ℕ → Byte) (t : List Access) :
    written memory t = Log.applied memory (t.map Access.touch) := by
  induction t generalizing memory with
  | nil => rfl
  | cons access t ih => cases access <;> exact ih _

/-- The accesses an event shows: those of a step. -/
def Event.accesses : Event → List Access
  | stepped log => log.trace.map HostCall.access
  | _ => []

/-- What is touched in the course of some events. -/
def touches (events : List Event) : List (Touch ℕ Byte) := (events.flatMap Event.accesses).map Access.touch

theorem touches_cons (event : Event) (events : List Event) :
    touches (event :: events) = event.accesses.map Access.touch ++ touches events := by
  rw [touches, touches, List.flatMap_cons, List.map_append]

/-- An action that leaves the host's own state to the accesses. -/
def Action.Still {σ : Type} : Action σ → Prop
  | host _ => False
  | _ => True

def HostAction.Still {σ : Type} : HostAction σ → Prop
  | act action => action.Still
  | _ => True

namespace Machine
variable {m m' : Machine (ℕ → Byte)} {known : Set ℕ}

/-! ## One operation -/

/-- What was touched since a step began. -/
def touched (m : Machine (ℕ → Byte)) : List (Touch ℕ Byte) := (m.trace.map HostCall.access).map Access.touch

/-- A machine on another memory. -/
def on (m : Machine (ℕ → Byte)) (memory : ℕ → Byte) : Machine (ℕ → Byte) := { m with host := memory }

/-- A machine has touched these since another, and its memory is what that has made of it. -/
structure Logs (m m' : Machine (ℕ → Byte)) (t : List (Touch ℕ Byte)) : Prop where
  touched : m'.touched = m.touched ++ t
  memory : m'.host = Log.applied m.host t
  explains : Log.Explains m.host t

theorem Logs.nil (htrace : m'.trace = m.trace) (hhost : m'.host = m.host) : Logs m m' [] := by
  refine ⟨?_, hhost, trivial⟩
  rw [List.append_nil, Machine.touched, Machine.touched, htrace]

theorem Logs.trans {m'' : Machine (ℕ → Byte)} {t u : List (Touch ℕ Byte)} (h : Logs m m' t) (h' : Logs m' m'' u) :
    Logs m m'' (t ++ u) where
  touched := by rw [h'.touched, h.touched, List.append_assoc]
  memory := by rw [h'.memory, h.memory, Log.applied_append]
  explains := Log.explains_append.mpr ⟨h.explains, h.memory ▸ h'.explains⟩

/-- What an operation touches of a memory. -/
def touching (memory : ℕ → Byte) : Op → List (Touch ℕ Byte)
  | .read address => [.load address (memory address)]
  | .write address value => [.store address (Fin.ofNat 256 value)]
  | _ => []

theorem handle_logs (op : Op) (m : Machine (ℕ → Byte)) : Logs m (handle .flat op m).2 (touching m.host op) := by
  cases op with
  | read address =>
    obtain ⟨callable, value, calls, memory, logs, -, hans, heq⟩ := busRead_eq .flat address m
    obtain ⟨rfl, -, rfl⟩ : m.host address = value ∧ [] = calls ∧ m.host = memory := by
      simpa [Host.flat, Prod.ext_iff] using hans
    refine ⟨?_, ?_, rfl, trivial⟩
    · rw [handle, heq]
      simp [touched, called, Access.touch, touching]
    · rw [handle, heq]
      rfl
  | write address value =>
    obtain ⟨callable, calls, memory, logs, -, hans, heq⟩ := busWrite_eq .flat address value m
    obtain ⟨-, rfl⟩ : [] = calls ∧ Function.update m.host address (Fin.ofNat 256 value) = memory := by
      simpa [Host.flat, Prod.ext_iff] using hans
    refine ⟨?_, ?_, trivial⟩
    · rw [handle, heq]
      simp [touched, called, Access.touch, touching]
    · rw [handle, heq]
      rfl
  | core | setCore core | dmaStalled | poll | setPoll poll => exact .nil rfl rfl

/-- A machine and itself on another memory, which has the known bytes as well. -/
structure Local (known : Set ℕ) (m m' : Machine (ℕ → Byte)) : Prop where
  memory : Set.EqOn m.host m'.host known
  rest : m' = m.on m'.host

theorem callRead_on (address : ℕ) (callable : Callable) {memory : ℕ → Byte} (h : m.host address = memory address) :
    callRead .flat address callable (m.on memory) =
      ((callRead .flat address callable m).1, (callRead .flat address callable m).2.on memory) := by
  induction callable with
  | host id => exact Prod.ext h.symm (by simp [callRead, on, called, Host.flat, h])
  | tracked session inner ih =>
    rw [callRead, ih]
    rfl

theorem callWrite_on (address value : ℕ) (callable : Callable) (m : Machine (ℕ → Byte)) (memory : ℕ → Byte) :
    callWrite .flat address value callable (m.on memory) =
      (callWrite .flat address value callable m).on (Function.update memory address (Fin.ofNat 256 value)) := by
  induction callable generalizing m with
  | host id => rfl
  | tracked session inner ih => exact ih (m.log session (.w address value))

theorem Local.cpu (h : Local known m m') : m'.cpu = m.cpu := by
  rw [h.rest]
  rfl

theorem Local.trace (h : Local known m m') : m'.trace = m.trace := by
  rw [h.rest]
  rfl

theorem Local.of_on {memory : ℕ → Byte} (h : Set.EqOn m.host memory known) : Local known m (m.on memory) := ⟨h, rfl⟩

theorem handle_local (op : Op) (h : Local known m m') (hwithin : Log.Within known (touching m.host op)) :
    (handle .flat op m).1 = (handle .flat op m').1 ∧
      Local (known ∪ Log.stored (touching m.host op)) (handle .flat op m).2 (handle .flat op m').2 := by
  have hmemory := Log.applied_eqOn h.memory (touching m.host op)
  rw [← (handle_logs op m).memory] at hmemory
  obtain ⟨hagree, hrest⟩ := h
  generalize m'.host = memory at hagree hrest hmemory
  subst hrest
  cases op with
  | read address =>
    have hsame : m.host address = memory address := hagree hwithin.1
    have hread : busRead .flat address (m.on memory) =
        ((busRead .flat address m).1, (busRead .flat address m).2.on memory) := by
      have hroute : (m.on memory).cpu.bus.read = m.cpu.bus.read := rfl
      have hconfirmed : ({ m with cpu := m.cpu.confirm } : Machine (ℕ → Byte)).host address = memory address := hsame
      rw [busRead, busRead, hroute]
      cases m.cpu.bus.read with
      | direct callable => exact callRead_on address callable hsame
      | confirming => exact callRead_on address _ hconfirmed
    rw [handle, handle, hread]
    exact ⟨rfl, .of_on hmemory⟩
  | write address value =>
    have hwrite : busWrite .flat address value (m.on memory) =
        (busWrite .flat address value m).on (Function.update memory address (Fin.ofNat 256 value)) := by
      have hroute : (m.on memory).cpu.bus.write = m.cpu.bus.write := rfl
      rw [busWrite, busWrite, hroute]
      cases m.cpu.bus.write with
      | direct callable => exact callWrite_on address value callable m memory
      | confirming => exact callWrite_on address value _ { m with cpu := m.cpu.confirm } memory
    rw [handle, handle, hwrite]
    exact ⟨rfl, .of_on hmemory⟩
  | core | setCore core | dmaStalled | poll | setPoll poll => exact ⟨rfl, .of_on hmemory⟩

/-! ## One action -/

variable (chip : Chip)

/-- A step's accesses are a log of the memory. -/
theorem step_logs (m : Machine (ℕ → Byte)) :
    (m.step .flat chip).2.host = Log.applied m.host (m.step .flat chip).2.touched ∧
      Log.Explains m.host (m.step .flat chip).2.touched := by
  have hstart : ∃ t, Logs { m with trace := [] } { m with trace := [] } t := ⟨[], .nil rfl rfl⟩
  obtain ⟨t, ht⟩ : ∃ t, Logs { m with trace := [] } (m.step .flat chip).2 t := by
    refine Tree.run_preserves (I := fun m' => ∃ t, Logs { m with trace := [] } m' t) ?_
      (Tree.uses_any (Code.step chip)) hstart
    rintro op m' - ⟨t, ht⟩
    exact ⟨_, ht.trans (handle_logs op m')⟩
  have htouched : (m.step .flat chip).2.touched = t := ht.touched
  rw [htouched]
  exact ⟨ht.memory, ht.explains⟩

/-- A step keeps within the bytes it touches. -/
theorem step_local (h : Local known m m') (hwithin : Log.Within known (m.step .flat chip).2.touched) :
    (m.step .flat chip).1 = (m'.step .flat chip).1 ∧
      Local (known ∪ Log.stored (m.step .flat chip).2.touched) (m.step .flat chip).2 (m'.step .flat chip).2 := by
  have hrest := h.rest
  have hstart : Local known { m with trace := [] } { m' with trace := [] } := by
    refine ⟨h.memory, ?_⟩
    conv_lhs => rw [hrest]
    rfl
  have hlogs : ∀ op (m : Machine (ℕ → Byte)), ∃ t, (handle .flat op m).2.touched = m.touched ++ t :=
    fun op m => ⟨_, (handle_logs op m).touched⟩
  have hstep : ∀ op (m m' : Machine (ℕ → Byte)) known t, Local known m m' →
      (handle .flat op m).2.touched = m.touched ++ t → Log.Within known t →
      (handle .flat op m).1 = (handle .flat op m').1 ∧
        Local (known ∪ Log.stored t) (handle .flat op m).2 (handle .flat op m').2 := by
    intro op m m' known t hlocal ht hwithin
    rw [(handle_logs op m).touched, List.append_cancel_left_eq] at ht
    subst ht
    exact handle_local op hlocal hwithin
  obtain ⟨hans, hend⟩ := Tree.run_within hlogs hstep (Code.step chip) hstart (List.nil_append _).symm hwithin
  refine ⟨?_, hend⟩
  rw [step, step]
  dsimp only
  rw [StepLog.mk.injEq]
  exact ⟨congrArg Prod.fst hans, congrArg Prod.snd hans, hend.trace.symm, h.cpu.symm, hend.cpu.symm⟩

theorem hostAct_logs {action : HostAction (ℕ → Byte)} (h : action.Still) (m : Machine (ℕ → Byte)) :
    (hostAct .flat chip action m).2.host =
        Log.applied m.host ((hostAct .flat chip action m).1.accesses.map Access.touch) ∧
      Log.Explains m.host ((hostAct .flat chip action m).1.accesses.map Access.touch) := by
  cases action with
  | act action =>
    cases action with
    | call call => exact ⟨rfl, trivial⟩
    | host move => exact h.elim
    | step => exact step_logs chip m
  | readByte callable | writeByte callable | restore state | set register parsed => exact ⟨rfl, trivial⟩

theorem hostAct_local {action : HostAction (ℕ → Byte)} (hstill : action.Still) (h : Local known m m')
    (hwithin : Log.Within known ((hostAct .flat chip action m).1.accesses.map Access.touch)) :
    (hostAct .flat chip action m).1 = (hostAct .flat chip action m').1 ∧
      Local (known ∪ Log.stored ((hostAct .flat chip action m).1.accesses.map Access.touch))
        (hostAct .flat chip action m).2 (hostAct .flat chip action m').2 := by
  have hquiet : ∀ (cpu : CPU → CPU), Local (known ∪ Log.stored ([] : List (Touch ℕ Byte)))
      { m with cpu := cpu m.cpu } { m' with cpu := cpu m'.cpu } := by
    intro cpu
    rw [Log.stored_nil, Set.union_empty]
    refine ⟨h.memory, ?_⟩
    conv_lhs => rw [h.rest]
    rfl
  cases action with
  | act action =>
    cases action with
    | call call => exact ⟨rfl, hquiet call.apply⟩
    | host move => exact hstill.elim
    | step =>
      obtain ⟨hlog, hend⟩ := step_local chip h hwithin
      exact ⟨congrArg Event.stepped hlog, hend⟩
  | readByte callable => exact ⟨rfl, hquiet (·.setReadByte callable)⟩
  | writeByte callable => exact ⟨rfl, hquiet (·.setWriteByte callable)⟩
  | restore state => exact ⟨rfl, hquiet (·.restoreState state)⟩
  | set register parsed => exact ⟨rfl, hquiet (·.set register parsed)⟩

/-! ## Runs -/

theorem shown_act (m : Machine (ℕ → Byte)) (actions : List (Action (ℕ → Byte))) :
    (hostAct .flat chip).shown m (actions.map HostAction.act) = (act .flat chip).shown m actions ∧
      (hostAct .flat chip).final m (actions.map HostAction.act) = (act .flat chip).final m actions := by
  induction actions generalizing m with
  | nil => exact ⟨rfl, rfl⟩
  | cons action actions ih =>
    obtain ⟨hshown, hfinal⟩ := ih (act .flat chip action m).2
    exact ⟨congrArg _ hshown, hfinal⟩

theorem run_logs {actions : List (HostAction (ℕ → Byte))} (hstill : ∀ action ∈ actions, action.Still)
    (m : Machine (ℕ → Byte)) :
    ((hostAct .flat chip).final m actions).host =
        Log.applied m.host (touches ((hostAct .flat chip).shown m actions)) ∧
      Log.Explains m.host (touches ((hostAct .flat chip).shown m actions)) := by
  induction actions generalizing m with
  | nil => exact ⟨rfl, trivial⟩
  | cons action actions ih =>
    rw [List.forall_mem_cons] at hstill
    obtain ⟨hmemory, hexplains⟩ := hostAct_logs chip hstill.1 m
    obtain ⟨hend, hrest⟩ := ih hstill.2 (hostAct .flat chip action m).2
    rw [System.shown_cons, System.final_cons, touches_cons, Log.applied_append, Log.explains_append, ← hmemory]
    exact ⟨hend, hexplains, hrest⟩

theorem run_keeps_local {actions : List (HostAction (ℕ → Byte))} (hstill : ∀ action ∈ actions, action.Still)
    (h : Local known m m') (hwithin : Log.Within known (touches ((hostAct .flat chip).shown m actions))) :
    (hostAct .flat chip).shown m actions = (hostAct .flat chip).shown m' actions ∧
      Local (known ∪ Log.stored (touches ((hostAct .flat chip).shown m actions)))
        ((hostAct .flat chip).final m actions) ((hostAct .flat chip).final m' actions) := by
  induction actions generalizing m m' known with
  | nil =>
    refine ⟨rfl, ?_⟩
    rw [System.shown_nil, touches, List.flatMap_nil, List.map_nil, Log.stored_nil, Set.union_empty]
    exact h
  | cons action actions ih =>
    rw [List.forall_mem_cons] at hstill
    rw [System.shown_cons, touches_cons, Log.within_append] at hwithin
    obtain ⟨hevent, hnext⟩ := hostAct_local chip hstill.1 h hwithin.1
    obtain ⟨hshown, hend⟩ := ih hstill.2 hnext hwithin.2
    rw [System.shown_cons, System.shown_cons, touches_cons, Log.stored_append, ← Set.union_assoc, ← hshown, ← hevent]
    exact ⟨rfl, hend⟩

/-- **A run needs of its memory what it reads before it writes it.** Whatever has been done before: on another
memory that has the known bytes as this one has them, a run whose reads are all of known bytes, or of bytes it
wrote before, shows the same, step for step; it leaves the processor the same, and the memories still agree on
the known bytes and on all it wrote, every other byte of each being as it was. -/
theorem run_local (readByte writeByte : Callable) (memory memory' : ℕ → Byte) (known : Set ℕ)
    (before actions : List (HostAction (ℕ → Byte))) :
    let m := (hostAct .flat chip).final (start readByte writeByte memory) before
    let m' := m.on memory'
    let log := touches ((hostAct .flat chip).shown m actions)
    let end₁ := (hostAct .flat chip).final m actions
    let end₂ := (hostAct .flat chip).final m' actions
    (∀ action ∈ actions, action.Still) → Set.EqOn m.host memory' known → Log.Within known log →
    (hostAct .flat chip).shown m' actions = (hostAct .flat chip).shown m actions ∧ end₂.cpu = end₁.cpu ∧
      Set.EqOn end₁.host end₂.host (known ∪ Log.stored log) ∧
      ∀ address, address ∉ Log.stored log → end₁.host address = m.host address ∧
        end₂.host address = memory' address := by
  intro m m' log end₁ end₂ hstill hagree hwithin
  obtain ⟨hshown, hend⟩ := run_keeps_local chip hstill (Local.of_on hagree) hwithin
  obtain ⟨hmemory, -⟩ := run_logs chip hstill m
  obtain ⟨hmemory', -⟩ := run_logs chip hstill m'
  refine ⟨hshown.symm, hend.cpu, hend.memory, fun address haddress => ⟨?_, ?_⟩⟩
  · exact (congrFun hmemory address).trans (Log.applied_of_not_stored haddress)
  · rw [← hshown] at hmemory'
    exact (congrFun hmemory' address).trans (Log.applied_of_not_stored haddress)

/-- LDA $10 and STA $11 at $0200. -/
def copying : ℕ → Byte := holding 0x0200 [0xA5, 0x10, 0x85, 0x11]

theorem run_local_copying :
    let before : List (HostAction (ℕ → Byte)) := [.restore (.poised 0x0200 0 0 0xFF true)]
    let m := (hostAct .flat mos6502).final (start (.host 0) (.host 0) copying) before
    let m' := m.on fun address => if address < 0x0300 then copying address else 0xFF
    m'.host 0x0300 ≠ m.host 0x0300 ∧
      (hostAct .flat mos6502).shown m' [.act .step, .act .step] =
        (hostAct .flat mos6502).shown m [.act .step, .act .step] := by
  refine ⟨by decide +kernel, (run_local mos6502 (.host 0) (.host 0) copying
    (fun address => if address < 0x0300 then copying address else 0xFF) {address | address < 0x0300}
    [.restore (.poised 0x0200 0 0 0xFF true)] [.act .step, .act .step] ?_ ?_ ?_).1⟩
  · simp [HostAction.Still, Action.Still]
  · exact fun address haddress => (if_pos haddress).symm
  · decide +kernel

end Machine

end SixFiveOhTwo
