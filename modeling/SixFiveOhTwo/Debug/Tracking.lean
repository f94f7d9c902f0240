import SixFiveOhTwo.Machine.Run

/-! # What a tracking wrapper logs

Each access goes through every wrapper of its callable once, and each wrapper appends it to its session's
list: over a step, a session whose wrapper is in both callables once has logged the host calls of that step.
-/

namespace SixFiveOhTwo
open Interaction
set_option autoImplicit false

/-- How often a session's wrapper is in a callable. -/
def Callable.count (session : ℕ) : Callable → ℕ
  | host _ => 0
  | tracked outer inner => inner.count session + (if outer = session then 1 else 0)

/-! ## Calls keep the routes leading to the callables -/

theorem Bus.Agrees.apply {cpu : CPU} (h : cpu.bus.Agrees) (call : Call) : (call.apply cpu).bus.Agrees := by
  have hite : ∀ (p : Prop) [Decidable p] (b : Bus), b.Agrees → (if p then b else cpu.bus).Agrees := by
    intro p _ b hb
    split
    · exact hb
    · exact h
  cases call with
  | noteStall => exact hite _ _ (.confirmed _)
  | requestReset | clearReset | setDmaStalled => exact h
  | _ => exact hite _ _ (.confirming _)

theorem Bus.Agrees.applyCalls {cpu : CPU} (h : cpu.bus.Agrees) (calls : List Call) :
    (cpu.applyCalls calls).bus.Agrees := by
  induction calls generalizing cpu with
  | nil => exact h
  | cons call calls ih => exact ih (h.apply call)

theorem Bus.Agrees.reach {cpu : CPU} (h : cpu.bus.Agrees) (route : Route) : (route.reach cpu).bus.Agrees := by
  cases route with
  | direct callable => exact h
  | confirming => exact .confirmed _

theorem Route.reach_callables (route : Route) (cpu : CPU) :
    (route.reach cpu).bus.readByte = cpu.bus.readByte ∧ (route.reach cpu).bus.writeByte = cpu.bus.writeByte := by
  cases route <;> exact ⟨rfl, rfl⟩

namespace Machine
variable {σ : Type} (H : Host σ) (chip : Chip)

/-! ## One access -/

theorem callRead_logs (address : ℕ) (callable : Callable) (m : Machine σ) (session : ℕ) :
    (callRead H address callable m).2.logs session = m.logs session ++
      List.replicate (callable.count session) (.r address (callRead H address callable m).1.val) := by
  induction callable with
  | host id => exact (List.append_nil _).symm
  | tracked outer inner ih =>
    rw [callRead, log, Callable.count]
    dsimp only
    by_cases ho : outer = session
    · subst ho
      rw [Function.update_self, ih, if_pos rfl, List.replicate_succ', List.append_assoc]
    · rw [Function.update_of_ne (Ne.symm ho), ih, if_neg ho, Nat.add_zero]

theorem callWrite_logs (address value : ℕ) (callable : Callable) (m : Machine σ) (session : ℕ) :
    (callWrite H address value callable m).logs session =
      m.logs session ++ List.replicate (callable.count session) (.w address value) := by
  induction callable generalizing m with
  | host id => exact (List.append_nil _).symm
  | tracked outer inner ih =>
    rw [callWrite, ih, log, Callable.count]
    dsimp only
    by_cases ho : outer = session
    · subst ho
      rw [Function.update_self, if_pos rfl, List.append_assoc, Nat.add_comm, List.replicate_add]
      rfl
    · rw [Function.update_of_ne (Ne.symm ho), if_neg ho, Nat.add_zero]

/-- What a session whose wrapper is in both callables once has logged, beside what it had `before`. -/
structure Tracks (session : ℕ) (before : List Access) (readByte writeByte : Callable) (m : Machine σ) : Prop where
  agrees : m.cpu.bus.Agrees
  reads : m.cpu.bus.readByte = readByte
  writes : m.cpu.bus.writeByte = writeByte
  log : readByte.count session = 1 → writeByte.count session = 1 →
    m.logs session = before ++ m.trace.map HostCall.access

variable {session : ℕ} {before : List Access} {readByte writeByte : Callable} {m : Machine σ}

theorem Tracks.called (h : Tracks session before readByte writeByte m) (route : Route) (callable : ℕ) (access : Access)
    (calls : List Call) (host : σ) (logs : ℕ → List Access)
    (hlog : readByte.count session = 1 → writeByte.count session = 1 → logs session = m.logs session ++ [access]) :
    Tracks session before readByte writeByte
      { ({ m with cpu := route.reach m.cpu } : Machine σ).called callable access calls host with logs } := by
  obtain ⟨hr, hw⟩ := CPU.applyCalls_callables (route.reach m.cpu) calls
  obtain ⟨hr', hw'⟩ := route.reach_callables m.cpu
  refine ⟨(h.agrees.reach route).applyCalls calls, hr.trans (hr'.trans h.reads), hw.trans (hw'.trans h.writes), ?_⟩
  intro hcr hcw
  have htrace := hlog hcr hcw
  rw [h.log hcr hcw, List.append_assoc] at htrace
  simp only [Machine.called, List.map_append, List.map_cons, List.map_nil]
  exact htrace

theorem busRead_tracks (h : Tracks session before readByte writeByte m) (address : ℕ) :
    Tracks session before readByte writeByte (m.busRead H address).2 := by
  obtain ⟨callable, value, calls, host, logs, hcallable, -, heq⟩ := busRead_eq H address m
  have hlog : readByte.count session = 1 → (m.busRead H address).2.logs session =
      m.logs session ++ [.r address (m.busRead H address).1.val] := by
    intro hcount
    unfold busRead
    split
    case h_1 assigned hroute =>
      have hdirect : assigned = readByte := by
        rcases h.agrees.read with hr | hr
        · rw [hr] at hroute
          cases hroute
        · rw [hr] at hroute
          exact (Route.direct.inj hroute).symm.trans h.reads
      rw [callRead_logs, hdirect, hcount]
      rfl
    case h_2 hroute =>
      dsimp only
      rw [callRead_logs]
      have hassigned : m.cpu.confirm.bus.readByte = readByte := h.reads
      rw [hassigned, hcount]
      rfl
  rw [heq] at hlog ⊢
  exact h.called _ _ _ _ _ _ fun hcr _ => hlog hcr

theorem busWrite_tracks (h : Tracks session before readByte writeByte m) (address value : ℕ) :
    Tracks session before readByte writeByte (m.busWrite H address value) := by
  obtain ⟨callable, calls, host, logs, hcallable, -, heq⟩ := busWrite_eq H address value m
  have hlog : writeByte.count session = 1 → (m.busWrite H address value).logs session =
      m.logs session ++ [.w address value] := by
    intro hcount
    unfold busWrite
    split
    case h_1 assigned hroute =>
      have hdirect : assigned = writeByte := by
        rcases h.agrees.write with hw | hw
        · rw [hw] at hroute
          cases hroute
        · rw [hw] at hroute
          exact (Route.direct.inj hroute).symm.trans h.writes
      rw [callWrite_logs, hdirect, hcount]
      rfl
    case h_2 hroute =>
      dsimp only
      rw [callWrite_logs]
      have hassigned : m.cpu.confirm.bus.writeByte = writeByte := h.writes
      rw [hassigned, hcount]
      rfl
  rw [heq] at hlog ⊢
  exact h.called _ _ _ _ _ _ fun _ hcw => hlog hcw

theorem handle_tracks (op : Op) (h : Tracks session before readByte writeByte m) :
    Tracks session before readByte writeByte (handle H op m).2 := by
  cases op with
  | read address => exact busRead_tracks H h address
  | write address value => exact busWrite_tracks H h address value
  | core => exact h
  | setCore core => exact ⟨h.agrees, h.reads, h.writes, h.log⟩
  | dmaStalled => exact h
  | poll => exact h
  | setPoll poll => exact ⟨h.agrees, h.reads, h.writes, h.log⟩

/-- A step keeps the callables, and a session has logged its host calls. -/
theorem step_tracks (hr : m.cpu.Routed) (session : ℕ) :
    Tracks session (m.logs session) m.cpu.bus.readByte m.cpu.bus.writeByte (m.step H chip).2 := by
  have hstart : Tracks session (m.logs session) m.cpu.bus.readByte m.cpu.bus.writeByte { m with trace := [] } :=
    ⟨hr.agrees, rfl, rfl, fun _ _ => (List.append_nil _).symm⟩
  have hrun : Tracks session (m.logs session) m.cpu.bus.readByte m.cpu.bus.writeByte
      (exec H (Code.step chip) { m with trace := [] }).2 :=
    Tree.run_preserves (fun op m _ h => handle_tracks H op h) (Tree.uses_any _) hstart
  exact hrun

/-- A session has logged nothing in a step but host calls of it. -/
def Logged (session : ℕ) (before : List Access) (m : Machine σ) : Prop :=
  ∀ access ∈ m.logs session, access ∈ before ∨ access ∈ m.trace.map HostCall.access

variable {m' : Machine σ}

theorem Logged.access {access : Access} {count : ℕ} (h : m.Logged session before)
    (hlogs : m'.logs session = m.logs session ++ List.replicate count access)
    (htrace : m'.trace.map HostCall.access = m.trace.map HostCall.access ++ [access]) : m'.Logged session before := by
  intro other hmem
  rw [hlogs, List.mem_append] at hmem
  rw [htrace, List.mem_append, List.mem_singleton]
  rcases hmem with hmem | hmem
  · exact (h other hmem).imp_right .inl
  · exact .inr (.inr (List.eq_of_mem_replicate hmem))

theorem callRead_trace (address : ℕ) (callable : Callable) (m : Machine σ) :
    (callRead H address callable m).2.trace.map HostCall.access =
      m.trace.map HostCall.access ++ [.r address (callRead H address callable m).1.val] := by
  obtain ⟨value, calls, host, logs, -, heq⟩ := callRead_eq H address callable m
  rw [heq]
  exact List.map_append

theorem callWrite_trace (address value : ℕ) (callable : Callable) (m : Machine σ) :
    (callWrite H address value callable m).trace.map HostCall.access =
      m.trace.map HostCall.access ++ [.w address value] := by
  obtain ⟨calls, host, logs, -, heq⟩ := callWrite_eq H address value callable m
  rw [heq]
  exact List.map_append

theorem handle_logged (op : Op) (h : m.Logged session before) : (handle H op m).2.Logged session before := by
  cases op with
  | read address =>
    rw [handle, busRead]
    split
    case h_1 callable _ =>
      exact h.access (callRead_logs H address callable m session) (callRead_trace H address callable m)
    case h_2 =>
      exact h.access (callRead_logs H address _ { m with cpu := m.cpu.confirm } session)
        (callRead_trace H address _ { m with cpu := m.cpu.confirm })
  | write address value =>
    rw [handle, busWrite]
    split
    case h_1 callable _ =>
      exact h.access (callWrite_logs H address value callable m session) (callWrite_trace H address value callable m)
    case h_2 =>
      exact h.access (callWrite_logs H address value _ { m with cpu := m.cpu.confirm } session)
        (callWrite_trace H address value _ { m with cpu := m.cpu.confirm })
  | _ => exact h

theorem step_logged (session : ℕ) (m : Machine σ) : ∀ access ∈ (m.step H chip).2.logs session,
    access ∈ m.logs session ∨ access ∈ (m.step H chip).1.trace.map HostCall.access := by
  have hstart : Logged session (m.logs session) { m with trace := [] } := fun _ h => .inl h
  have hrun : Logged session (m.logs session) (exec H (Code.step chip) { m with trace := [] }).2 :=
    Tree.run_preserves (fun op m _ h => handle_logged H op h) (Tree.uses_any _) hstart
  exact hrun

theorem act_callables (action : Action σ) (hr : m.cpu.Routed) :
    (act H chip action m).2.cpu.bus.readByte = m.cpu.bus.readByte ∧
      (act H chip action m).2.cpu.bus.writeByte = m.cpu.bus.writeByte := by
  cases action with
  | call call => exact Call.apply_callables call m.cpu
  | host move => exact ⟨rfl, rfl⟩
  | step =>
    have htracks := step_tracks H chip hr 0
    exact ⟨htracks.reads, htracks.writes⟩

end Machine

end SixFiveOhTwo
