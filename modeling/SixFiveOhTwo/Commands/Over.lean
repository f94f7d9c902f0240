import SixFiveOhTwo.Commands.Atomic

/-! # `over` stops at the first boundary it may

`over` executes a JSR and then boundary after boundary, until control is back behind the JSR with S as it was, or
the next boundary is at a breakpoint, or a step touched a watched byte, or a million boundaries have gone by.
`OverStops` says that of what its loop executed, and that none of these held any earlier.
-/

namespace SixFiveOhTwo
open Bits Interaction
set_option autoImplicit false

namespace DebugSession
variable {τ : Type} {T : Target τ}

/-- Control is back from the call: at the instruction after it, with S as it was before it. -/
def Back (nextAddress s : ℕ) (state : CPUState) : Prop := state.pc = nextAddress ∧ state.s = s

section
variable (T) (session : DebugSession τ) (nextAddress s budget : ℕ)

/-- What ended a loop that executed `records`, and what it says of that. -/
inductive OverEnds (records : List StepRecord) (t : τ) : List Line → Prop
  | back {now : CPUState} (hnow : T.captureState t = .ok now) (hback : Back nextAddress s now) :
      OverEnds records t []
  | breakpoint {now : CPUState} (hnow : T.captureState t = .ok now) (hback : ¬Back nextAddress s now)
      (hbreak : now.pc ∈ session.breakpoints) : OverEnds records t [.breakpoint now.pc]
  | watchpoint (init : List StepRecord) {last : StepRecord} {result : RunResult} (hlast : records = init ++ [last])
      (hhits : session.watchHits last ≠ []) (hreason : result.reason = .watchpoint)
      (hresult : result.hits = session.watchHits last) : OverEnds records t [.run result]
  | gaveUp (hbudget : records.length = budget) (hquiet : ∀ record ∈ records, session.watchHits record = []) :
      OverEnds records t [.gaveUp]

/-- A loop of `over` executed the session's own steps, none of them from where it should have stopped, none after
a step with hits, and it ended as it says. -/
structure OverStops (t : τ) (records : List StepRecord) (session' : DebugSession τ) (t' : τ) (said : List Line) :
    Prop where
  steps : Steps T session t records session' t'
  entered : ∀ record ∈ records, ¬Back nextAddress s record.before ∧ record.before.pc ∉ session.breakpoints
  passed : ∀ init last, records = init ++ [last] → ∀ record ∈ init, session.watchHits record = []
  ends : session.OverEnds T nextAddress s budget records t' said

end

theorem Steps.of_nil {session session' : DebugSession τ} {t t' : τ} (h : Steps T session t [] session' t') :
    session' = session ∧ t' = t := by
  cases h
  exact ⟨rfl, rfl⟩

/-- A run of one step that is not at a breakpoint and does not stop for a halt: it is the session's step, and it
stops for its hits if there are any. -/
theorem run_one {session : DebugSession τ} {t : τ} {now : CPUState} {result : RunResult}
    (hnow : T.captureState t = .ok now) (hbreak : now.pc ∉ session.breakpoints)
    (hresult : (session.run T 1 none false t).result = .ok result) :
    ∃ record, (session.run T 1 none false t).records = [record] ∧
      session.step T t = (.ok record, (session.run T 1 none false t).session, (session.run T 1 none false t).target) ∧
      ((result.reason = .stepLimit ∧ session.watchHits record = []) ∨
        (result.reason = .watchpoint ∧ result.hits = session.watchHits record ∧ session.watchHits record ≠ [])) := by
  obtain ⟨records, hrecords, ⟨stop, hok, hstop⟩ | ⟨text, herror, -⟩⟩ :=
    run_stops T session t false Int.one_pos unbounded
  case inr => cases hresult.symm.trans herror
  obtain rfl := Except.ok.inj (hok.symm.trans hresult)
  have hsingle (last : StepRecord) (init : List StepRecord) (hlast : records = init ++ [last]) : records = [last] := by
    have hwithin := (hstop.passed init last hlast).within
    have hnil : init = [] := List.eq_nil_of_length_eq_zero (by simpa using hwithin)
    rw [hlast, hnil, List.nil_append]
  have hmade (last : StepRecord) (hlast : records = [last]) : session.step T t =
      (.ok last, (session.run T 1 none false t).session, (session.run T 1 none false t).target) := by
    have hsteps := hstop.steps
    rw [hlast] at hsteps
    cases hsteps with
    | step hstep hrest =>
      cases hrest
      exact hstep
  have hran : (session.run T 1 none false t).records = records := hrecords
  have hnone (h : records = []) (state : CPUState) (hstate : T.captureState (session.run T 1 none false t).target =
      .ok state) : state = now := by
    have hsteps := hstop.steps
    rw [h] at hsteps
    rw [hsteps.of_nil.2, hnow] at hstate
    exact (Except.ok.inj hstate).symm
  rw [hran]
  have hends := hstop.ends
  obtain ⟨reason, state, hits⟩ := stop
  cases hends with
  | breakpoint hon hstate hkind hpc =>
    have hnil : records = [] := List.eq_nil_of_length_eq_zero (by simpa using hon.within)
    exact absurd (hnone hnil _ hstate ▸ hpc) hbreak
  | halted hon hstate hhalt => cases hhalt
  | watchpoint init hlast hhits =>
    have hone := hsingle _ _ hlast
    exact ⟨_, hone, hmade _ hone, .inr ⟨rfl, rfl, hhits⟩⟩
  | cycleLimit init hlast hquiet hmax => cases hmax
  | stepLimit init hlast hquiet =>
    have hone := hsingle _ _ hlast
    exact ⟨_, hone, hmade _ hone, .inl ⟨rfl, hquiet⟩⟩

theorem OverEnds.cons {session : DebugSession τ} {nextAddress s budget : ℕ} {record : StepRecord}
    {records : List StepRecord} {t : τ} {said : List Line} (hquiet : session.watchHits record = [])
    (h : (session.recorded record).OverEnds T nextAddress s budget records t said) :
    session.OverEnds T nextAddress s (budget + 1) (record :: records) t said := by
  cases h with
  | back hnow hback => exact .back hnow hback
  | breakpoint hnow hback hbreak => exact .breakpoint hnow hback hbreak
  | watchpoint init hlast hhits hreason hresult =>
    exact .watchpoint (record :: init) (by rw [hlast, List.cons_append]) hhits hreason hresult
  | gaveUp hbudget hrest =>
    refine .gaveUp (by rw [List.length_cons, hbudget]) fun other hother => ?_
    rcases List.mem_cons.mp hother with rfl | hother
    · exact hquiet
    · exact hrest other hother

theorem OverStops.cons {session session'' : DebugSession τ} {nextAddress s budget : ℕ} {t t' t'' : τ}
    {record : StepRecord} {records : List StepRecord} {said : List Line}
    (hstep : session.step T t = (.ok record, session.recorded record, t'))
    (hentered : ¬Back nextAddress s record.before ∧ record.before.pc ∉ session.breakpoints)
    (hquiet : session.watchHits record = [])
    (h : (session.recorded record).OverStops T nextAddress s budget t' records session'' t'' said) :
    session.OverStops T nextAddress s (budget + 1) t (record :: records) session'' t'' said where
  steps := .step hstep h.steps
  entered := by
    intro other hother
    rcases List.mem_cons.mp hother with rfl | hother
    · exact hentered
    · exact h.entered other hother
  passed := by
    intro init last heq other hother
    cases init with
    | nil => cases hother
    | cons first init =>
      rw [List.cons_append, List.cons.injEq] at heq
      obtain ⟨rfl, heq⟩ := heq
      rcases List.mem_cons.mp hother with rfl | hother
      · exact hquiet
      · exact h.passed init last heq other hother
  ends := h.ends.cons hquiet

/-- The loop of `over` stops at the first boundary it may. -/
theorem overLoop_stops (nextAddress s budget : ℕ) {lines lines' : List Line} (records : List StepRecord)
    (session : DebugSession τ) (t : τ)
    (hlines : (overLoop T nextAddress s budget lines records session t).lines = .ok lines') :
    ∃ rest said, (overLoop T nextAddress s budget lines records session t).records = records ++ rest ∧
      lines' = lines ++ said ∧
      session.OverStops T nextAddress s budget t rest
        (overLoop T nextAddress s budget lines records session t).session
        (overLoop T nextAddress s budget lines records session t).target said := by
  induction budget generalizing records session t with
  | zero =>
    refine ⟨[], [.gaveUp], (List.append_nil _).symm, (Except.ok.inj hlines).symm, ?_⟩
    exact ⟨.done session t, by simp, by simp, .gaveUp rfl (by simp)⟩
  | succ budget ih =>
    rw [overLoop] at hlines ⊢
    cases hnow : T.captureState t with
    | error text =>
      rw [hnow] at hlines
      cases hlines
    | ok now =>
      rw [hnow] at hlines
      dsimp only at hlines ⊢
      by_cases hback : now.pc = nextAddress ∧ now.s = s
      · rw [if_pos hback] at hlines ⊢
        refine ⟨[], [], (List.append_nil _).symm, by rw [← Except.ok.inj hlines, List.append_nil], ?_⟩
        exact ⟨.done session t, by simp, by simp, .back hnow hback⟩
      · rw [if_neg hback] at hlines ⊢
        by_cases hbreak : now.pc ∈ session.breakpoints
        · rw [if_pos hbreak] at hlines ⊢
          refine ⟨[], [.breakpoint now.pc], (List.append_nil _).symm, (Except.ok.inj hlines).symm, ?_⟩
          exact ⟨.done session t, by simp, by simp, .breakpoint hnow hback hbreak⟩
        · rw [if_neg hbreak] at hlines ⊢
          cases hresult : (session.run T 1 none false t).result with
          | error text =>
            rw [hresult] at hlines
            cases hlines
          | ok result =>
            rw [hresult] at hlines
            dsimp only at hlines ⊢
            obtain ⟨record, hrecords, hstep, hstop⟩ := run_one hnow hbreak hresult
            obtain ⟨hbefore, -, hsession, -⟩ := step_inv hstep
            obtain rfl := Except.ok.inj (hbefore.symm.trans hnow)
            have hentered : ¬Back nextAddress s record.before ∧ record.before.pc ∉ session.breakpoints := ⟨hback, hbreak⟩
            rcases hstop with ⟨hreason, hquiet⟩ | ⟨hreason, hhits, hsome⟩
            · rw [if_neg (not_not.mpr hreason)] at hlines ⊢
              obtain ⟨rest, said, hrest, hsaid, hstops⟩ := ih _ _ _ hlines
              rw [hsession] at hstep hstops
              refine ⟨record :: rest, said, by rw [hrest, hrecords, List.append_assoc]; rfl, hsaid, ?_⟩
              rw [hsession]
              exact .cons hstep hentered hquiet hstops
            · rw [if_pos (by rw [hreason]; decide)] at hlines ⊢
              refine ⟨[record], [.run result], by rw [hrecords], (Except.ok.inj hlines).symm, .step hstep (.done _ _),
                by simpa using hentered, ?_, .watchpoint [] rfl hsome hreason hhits⟩
              intro init last heq
              obtain rfl : init = [] := by simpa using congrArg List.length heq
              simp

end DebugSession

/-! ## At every prompt -/

namespace Usage
variable {σ : Type} (lang : Language) (H : Host σ) (chip : Chip)

/-- A processor is good, whatever was done with it and its sessions since it was constructed. -/
theorem final_good (readByte writeByte : Callable) (host : σ) (uses : List (Usage σ)) :
    Driven.Good { machine := ((act lang H chip).final { machine := .start readByte writeByte host } uses).machine } := by
  have hstart : Driven.Good { machine := Machine.start readByte writeByte host } :=
    ⟨⟨.init readByte writeByte, rfl⟩, Machine.start_fit readByte writeByte host⟩
  exact System.final_preserves (I := fun b : Bench σ => Driven.Good { machine := b.machine })
    (fun use b h => act_good lang H chip use b h) hstart uses

end Usage

namespace DebugSession
variable {σ : Type}

/-- **`over` is right about where it stops.** Whatever was done with a constructed processor and its sessions, and
for any session: at a JSR, `over` executes it and then the session's own steps, up to the first boundary that is
behind the call with S as before it, or at a breakpoint, or that a step which touched a watched byte led to, or up
to the last of a million. It tells which, and the state there. -/
theorem over_first_stop (lang : Language) (H : Host σ) (chip : Chip) (readByte writeByte : Callable) (host : σ)
    (uses : List (Usage σ)) (session : DebugSession (Driven σ)) {peek : Driven σ → ℕ → Byte} {state : CPUState}
    {instruction : Instruction} :
    let b := (Usage.act lang H chip).final { machine := .start readByte writeByte host } uses
    let T := Driven.target H chip
    let done := session.overCommand T { machine := b.machine }
    session.peekByte = some peek → T.captureState { machine := b.machine } = .ok state →
    disassemble (fun address => .ok (peek { machine := b.machine } address)) state.pc = .ok instruction →
    instruction.mnemonic = "JSR" →
    ∃ first rest t said now, done.records = first :: rest ∧
      session.step T { machine := b.machine } = (.ok first, session.recorded first, t) ∧
      (session.recorded first).OverStops T instruction.nextAddress state.s 1000000 t rest done.session done.target said ∧
      T.captureState done.target = .ok now ∧
      done.lines = .ok (.record first :: said ++ (Line.formatState now).map .state) := by
  intro b T done hpeek hstate hinstruction hmnemonic
  have hgood : Driven.Good { machine := b.machine } := Usage.final_good lang H chip readByte writeByte host uses
  have hreliable : T.Reliable Driven.Good := Driven.target_reliable H chip
  obtain ⟨first, t, hstep, hgood₁⟩ := hreliable.steps session _ hgood
  have hover : done = Executed.withState T (overLoop T instruction.nextAddress state.s 1000000 [.record first] [first]
      (session.recorded first) t) := by
    have hcall : ¬instruction.mnemonic ∉ callMnemonics := by simp [callMnemonics, hmnemonic]
    simp only [done, overCommand, hstate, hpeek, hinstruction, if_neg hcall, hstep]
  obtain ⟨⟨lines, hlines⟩, hgood₂⟩ := hreliable.overLoop instruction.nextAddress state.s 1000000 [.record first] [first]
    (session.recorded first) hgood₁
  obtain ⟨rest, said, hrecords, rfl, hstops⟩ := overLoop_stops _ _ _ _ _ _ hlines
  obtain ⟨now, hnow⟩ := hreliable.captures _ hgood₂
  refine ⟨first, rest, t, said, now, ?_, hstep, ?_, ?_, ?_⟩
  · rw [hover]
    exact hrecords
  · rw [hover]
    exact hstops
  · rw [hover]
    exact hnow
  · rw [hover, Executed.withState]
    dsimp only
    rw [hlines, hnow]
    rfl

/-- `JSR $0004`, with an `RTS` there. -/
def atCall : DebugSession (Driven (ℕ → Byte)) := { id := 0, peekByte := some fun d => d.machine.host }

theorem over_first_stop_call :
    let b := (Usage.act CommandDebugger.blanks .flat mos6502).final
      { machine := .start (.host 0) (.host 0) (Machine.holding 0 [0x20, 0x04, 0, 0x02, 0x60]) } []
    let T := Driven.target .flat mos6502
    let done := atCall.overCommand T { machine := b.machine }
    ∃ first rest t said now, done.records = first :: rest ∧
      (atCall.recorded first).OverStops T 3 0 1000000 t rest done.session done.target said ∧
      done.lines = .ok (.record first :: said ++ (Line.formatState now).map .state) := by
  intro b T done
  have hnext : (decoded b.machine.host (Nat.zero_le 0xFFFF)).nextAddress = 3 := by decide +kernel
  obtain ⟨first, rest, t, said, now, hrecords, -, hstops, -, hlines⟩ :=
    over_first_stop CommandDebugger.blanks .flat mos6502 (.host 0) (.host 0)
      (Machine.holding 0 [0x20, 0x04, 0, 0x02, 0x60]) [] atCall rfl rfl
      (disassemble_eq b.machine.host (Nat.zero_le 0xFFFF)) (by decide +kernel)
  exact ⟨first, rest, t, said, now, hrecords, hnext ▸ hstops, hlines⟩

end DebugSession

end SixFiveOhTwo
