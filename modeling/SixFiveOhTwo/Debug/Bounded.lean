import SixFiveOhTwo.Debug.Session

/-! # Bounded runs

`run` stops at the first point of the session's own step sequence at which a stop condition holds:
the steps it makes are `step`'s, every boundary before the stop is one it may enter, and every step
but the last is one it may go on from. Without a cycle budget a run of `m + n` steps is a run of `m`
and, where that only ran out of steps, one of `n`.
-/

namespace SixFiveOhTwo
set_option autoImplicit false

theorem StepRecord.make_inv {sequence cycles : ℕ} {kind : BoundaryKind} {before after : CPUState}
    {instruction : Option Instruction} {accesses : Option (List Access)} {record : StepRecord}
    (h : StepRecord.make sequence kind before after cycles instruction accesses = .ok record) :
    record.sequence = sequence ∧ record.kind = kind ∧ record.before = before ∧
      record.after = after ∧ record.cycles = cycles ∧ record.instruction = instruction ∧
        record.accesses = accesses := by
  unfold make at h
  split at h
  · split at h
    · split at h
      · cases h
        exact ⟨rfl, rfl, rfl, rfl, rfl, rfl, rfl⟩
      · cases h
    · cases h
  · cases h

/-- A target that is captured wherever it is, takes cycles for every step, and logs accesses in range. -/
structure Target.Answers {τ : Type} (T : Target τ) : Prop where
  captures : ∀ t, ∃ state, T.captureState t = .ok state
  cycles : ∀ t, 0 < (T.step t).1
  accesses : ∀ id t, ∀ access ∈ T.accesses id t, access.InRange

namespace DebugSession
variable {τ : Type} {T : Target τ}

/-! ## The step sequence -/

/-- What a step that returns a record has done. -/
theorem step_inv {session session' : DebugSession τ} {t t' : τ} {record : StepRecord}
    (h : session.step T t = (.ok record, session', t')) :
    T.captureState t = .ok record.before ∧ record.kind = nextBoundary record.before ∧
      session' = session.recorded record ∧ T.captureState t' = .ok record.after ∧
      record.accesses = (if session.tracking then
        some (T.accesses session.id (T.step (T.clear session.id t)).2) else none) := by
  unfold step at h
  split at h
  · cases h
  · rename_i before hbefore
    split at h
    · cases h
    · have hlist : (if session.tracking then
          some (T.accesses session.id (T.step (T.clear session.id t)).2) else none) =
          if session.tracking then some (T.accesses session.id
            (T.step (if session.tracking then T.clear session.id t else t)).2) else none := by
        cases session.tracking <;> rfl
      rw [hlist]
      generalize T.step (if session.tracking then T.clear session.id t else t) = stepped at h ⊢
      dsimp only at h
      generalize (if session.tracking then some (T.accesses session.id stepped.2) else none) = accesses
        at h ⊢
      by_cases hzero : stepped.1 = 0
      · rw [if_pos hzero] at h
        cases h
      · rw [if_neg hzero] at h
        split at h
        · cases h
        · rename_i after hafter
          split at h
          · cases h
          · rename_i made hmade
            cases h
            obtain ⟨-, hkind, rfl, rfl, -, -, haccesses⟩ := StepRecord.make_inv hmade
            exact ⟨hbefore, hkind, rfl, hafter, haccesses⟩

variable (T)

/-- The session's own steps, one after another: the records they return and what they leave. -/
inductive Steps : DebugSession τ → τ → List StepRecord → DebugSession τ → τ → Prop
  | done (session : DebugSession τ) (t : τ) : Steps session t [] session t
  | step {session session' session'' : DebugSession τ} {t t' t'' : τ} {record : StepRecord}
      {records : List StepRecord} (hstep : session.step T t = (.ok record, session', t'))
      (hrest : Steps session' t' records session'' t'') :
      Steps session t (record :: records) session'' t''

/-- Whether `run` may enter the boundary before it: no breakpoint there, and not a halt it stops at. -/
def Enters (session : DebugSession τ) (stopOnHalt : Bool) (state : CPUState) : Prop :=
  ¬(nextBoundary state = .instruction ∧ state.pc ∈ session.breakpoints) ∧
    ¬(stopOnHalt = true ∧ nextBoundary state = .jamIdle)

/-- What a run stops with: why, in which state, and the accesses that were hits. -/
structure Stop where
  reason : StopReason
  state : CPUState
  hits : List Access

/-- The cycles of the records. -/
def spent (records : List StepRecord) : ℕ := (records.map StepRecord.cycles).sum

/-- Whether a run that has made `records` goes on: no hit in them, cycles and steps left. -/
structure GoesOn (session : DebugSession τ) (maxCycles : Option ℕ) (budget used : ℕ)
    (records : List StepRecord) : Prop where
  quiet : ∀ record ∈ records, session.watchHits record = []
  affordable : ∀ limit ∈ maxCycles, used + spent records < limit
  within : records.length < budget

/-- The condition that ends a run of `records` at the state `t`, in the order of precedence. -/
inductive Ends (session : DebugSession τ) (maxCycles : Option ℕ) (stopOnHalt : Bool) (budget used : ℕ)
    (records : List StepRecord) (t : τ) : Stop → Prop
  | breakpoint {state : CPUState} (hon : session.GoesOn maxCycles budget used records)
      (hstate : T.captureState t = .ok state) (hkind : nextBoundary state = .instruction)
      (hpc : state.pc ∈ session.breakpoints) :
      Ends session maxCycles stopOnHalt budget used records t ⟨.breakpoint, state, []⟩
  | halted {state : CPUState} (hon : session.GoesOn maxCycles budget used records)
      (hstate : T.captureState t = .ok state) (hstop : stopOnHalt = true)
      (hkind : nextBoundary state = .jamIdle) :
      Ends session maxCycles stopOnHalt budget used records t ⟨.halted, state, []⟩
  | watchpoint (init : List StepRecord) {last : StepRecord} (hlast : records = init ++ [last])
      (hhits : session.watchHits last ≠ []) :
      Ends session maxCycles stopOnHalt budget used records t
        ⟨.watchpoint, last.after, session.watchHits last⟩
  | cycleLimit (init : List StepRecord) {last : StepRecord} {limit : ℕ}
      (hlast : records = init ++ [last]) (hquiet : session.watchHits last = [])
      (hmax : maxCycles = some limit) (hspent : limit ≤ used + spent records) :
      Ends session maxCycles stopOnHalt budget used records t ⟨.cycleLimit, last.after, []⟩
  | stepLimit (init : List StepRecord) {last : StepRecord} (hlast : records = init ++ [last])
      (hquiet : session.watchHits last = []) (haffordable : ∀ limit ∈ maxCycles, used + spent records < limit)
      (hspent : records.length = budget) :
      Ends session maxCycles stopOnHalt budget used records t ⟨.stepLimit, last.after, []⟩

/-- A run that returned: it made the session's own steps, entered every boundary before them, went on
from every one but the last, and ended by the first condition that held. -/
structure FirstStop (session : DebugSession τ) (t : τ) (maxCycles : Option ℕ) (stopOnHalt : Bool)
    (budget used : ℕ) (records : List StepRecord) (session' : DebugSession τ) (t' : τ) (stop : Stop) :
    Prop where
  steps : Steps T session t records session' t'
  entered : ∀ record ∈ records, session.Enters stopOnHalt record.before
  passed : ∀ init last, records = init ++ [last] → session.GoesOn maxCycles budget used init
  ends : session.Ends T maxCycles stopOnHalt budget used records t' stop

/-- A run that raised: it went on from every step it made, and then the state could not be captured, or
the session's step raised. -/
structure Raises (session : DebugSession τ) (t : τ) (maxCycles : Option ℕ) (stopOnHalt : Bool)
    (budget used : ℕ) (records : List StepRecord) (session' : DebugSession τ) (t' : τ) (text : String) :
    Prop where
  entered : ∀ record ∈ records, session.Enters stopOnHalt record.before
  passed : session.GoesOn maxCycles budget used records
  raised : ∃ midway t₁, Steps T session t records midway t₁ ∧
    (T.captureState t₁ = .error text ∧ session' = midway ∧ t' = t₁ ∨
      ∃ state, T.captureState t₁ = .ok state ∧ session.Enters stopOnHalt state ∧
        midway.step T t₁ = (.error text, session', t'))

theorem step_returns {T : Target τ} (hanswers : T.Answers) (session : DebugSession τ) (t : τ) :
    ∃ record t', session.step T t = (.ok record, session.recorded record, t') := by
  obtain ⟨before, hbefore⟩ := hanswers.captures t
  obtain ⟨instruction, hdecode, hlifecycle⟩ := session.decode_ok t before
  obtain ⟨after, hafter⟩ := hanswers.captures (T.step (if session.tracking then T.clear session.id t else t)).2
  refine ⟨_, _, step_ok T hbefore hdecode hlifecycle rfl (hanswers.cycles _) hafter rfl ?_⟩
  split
  · exact hanswers.accesses _ _
  · exact fun access hmem => by cases hmem

/-! ## One more step -/

section Cons
variable {T} {session session' : DebugSession τ} {t t' : τ} {maxCycles : Option ℕ} {stopOnHalt : Bool}
  {budget used : ℕ} {record : StepRecord} {records : List StepRecord}

theorem spent_cons : spent (record :: records) = record.cycles + spent records := by
  simp [spent]

theorem GoesOn.nil (h : ∀ limit ∈ maxCycles, used < limit) :
    session.GoesOn maxCycles (budget + 1) used [] where
  quiet := by simp
  affordable := by simpa [spent] using h
  within := Nat.succ_pos budget

theorem GoesOn.cons (hquiet : session.watchHits record = [])
    (h : (session.recorded record).GoesOn maxCycles budget (used + record.cycles) records) :
    session.GoesOn maxCycles (budget + 1) used (record :: records) where
  quiet := by
    intro other hother
    obtain rfl | hother := List.mem_cons.mp hother
    · exact hquiet
    · exact h.quiet other hother
  affordable := by
    intro limit hlimit
    have := h.affordable limit hlimit
    rw [spent_cons]
    omega
  within := by simpa using h.within

theorem Ends.cons {stop : Stop} (hquiet : session.watchHits record = [])
    (h : (session.recorded record).Ends T maxCycles stopOnHalt budget (used + record.cycles) records t'
      stop) :
    session.Ends T maxCycles stopOnHalt (budget + 1) used (record :: records) t' stop := by
  have hspent : used + spent (record :: records) = used + record.cycles + spent records := by
    rw [spent_cons]
    omega
  cases h with
  | breakpoint hon hstate hkind hpc => exact .breakpoint (hon.cons hquiet) hstate hkind hpc
  | halted hon hstate hstop hkind => exact .halted (hon.cons hquiet) hstate hstop hkind
  | watchpoint init hlast hhits => exact .watchpoint (record :: init) (by rw [hlast, List.cons_append]) hhits
  | cycleLimit init hlast unbounded hmax hover =>
    exact .cycleLimit (record :: init) (by rw [hlast, List.cons_append]) unbounded hmax (hspent ▸ hover)
  | stepLimit init hlast unbounded haffordable hlength =>
    exact .stepLimit (record :: init) (by rw [hlast, List.cons_append]) unbounded (hspent ▸ haffordable) (by simpa using hlength)

theorem FirstStop.cons {stop : Stop} {t'' : τ} {session'' : DebugSession τ}
    (hused : ∀ limit ∈ maxCycles, used < limit)
    (hstep : session.step T t = (.ok record, session.recorded record, t'))
    (henters : session.Enters stopOnHalt record.before) (hquiet : session.watchHits record = [])
    (h : (session.recorded record).FirstStop T t' maxCycles stopOnHalt budget (used + record.cycles) records
      session'' t'' stop) :
    session.FirstStop T t maxCycles stopOnHalt (budget + 1) used (record :: records) session'' t'' stop where
  steps := .step hstep h.steps
  entered := by
    intro other hother
    obtain rfl | hother := List.mem_cons.mp hother
    · exact henters
    · exact h.entered other hother
  passed := by
    intro init last heq
    cases init with
    | nil => exact .nil hused
    | cons first init =>
      rw [List.cons_append, List.cons.injEq] at heq
      obtain ⟨rfl, heq⟩ := heq
      exact (h.passed init last heq).cons hquiet
  ends := h.ends.cons hquiet

theorem Raises.cons {text : String} {t'' : τ} {session'' : DebugSession τ}
    (hstep : session.step T t = (.ok record, session.recorded record, t'))
    (henters : session.Enters stopOnHalt record.before) (hquiet : session.watchHits record = [])
    (h : (session.recorded record).Raises T t' maxCycles stopOnHalt budget (used + record.cycles) records
      session'' t'' text) :
    session.Raises T t maxCycles stopOnHalt (budget + 1) used (record :: records) session'' t'' text where
  entered := by
    intro other hother
    obtain rfl | hother := List.mem_cons.mp hother
    · exact henters
    · exact h.entered other hother
  passed := h.passed.cons hquiet
  raised := by
    obtain ⟨midway, t₁, hsteps, hraised⟩ := h.raised
    exact ⟨midway, t₁, .step hstep hsteps, hraised⟩

end Cons

/-! ## The loop -/

section Loop
variable {T} {maxCycles : Option ℕ} {stopOnHalt : Bool}

theorem add_getLast? (tally : Tally) (record : StepRecord) :
    (tally.add record).records.getLast? = some record := List.getLast?_concat

@[simp] theorem foldl_add_records (tally : Tally) (records : List StepRecord) :
    (records.foldl Tally.add tally).records = tally.records ++ records := by
  induction records generalizing tally with
  | nil => simp
  | cons record records ih => rw [List.foldl_cons, ih, Tally.add, List.append_assoc, List.singleton_append]

/-- What a loop returned or raised, against the session's own steps. -/
def LoopStops (T : Target τ) (maxCycles : Option ℕ) (stopOnHalt : Bool) (budget : ℕ) (tally : Tally)
    (session : DebugSession τ) (t : τ) (ran : Ran τ) : Prop :=
  ∃ records, ran.records = tally.records ++ records ∧
    ((∃ stop : Stop,
        ran.result = .ok ((records.foldl Tally.add tally).result stop.reason stop.state stop.hits) ∧
        session.FirstStop T t maxCycles stopOnHalt budget tally.cycles records ran.session ran.target stop) ∨
      ∃ text, ran.result = .error text ∧
        session.Raises T t maxCycles stopOnHalt budget tally.cycles records ran.session ran.target text)

theorem LoopStops.cons {budget : ℕ} {tally : Tally} {session : DebugSession τ} {t t' : τ}
    {record : StepRecord} {ran : Ran τ} (hused : ∀ limit ∈ maxCycles, tally.cycles < limit)
    (hstep : session.step T t = (.ok record, session.recorded record, t'))
    (henters : session.Enters stopOnHalt record.before) (hquiet : session.watchHits record = [])
    (h : LoopStops T maxCycles stopOnHalt budget (tally.add record) (session.recorded record) t' ran) :
    LoopStops T maxCycles stopOnHalt (budget + 1) tally session t ran := by
  obtain ⟨records, hrecords, h⟩ := h
  refine ⟨record :: records, by rw [hrecords, Tally.add, List.append_assoc, List.singleton_append], ?_⟩
  rcases h with ⟨stop, hresult, h⟩ | ⟨text, hresult, h⟩
  · exact .inl ⟨stop, hresult, h.cons hused hstep henters hquiet⟩
  · exact .inr ⟨text, hresult, h.cons hstep henters hquiet⟩

theorem LoopStops.here {budget : ℕ} {tally : Tally} {session : DebugSession τ} {t : τ} {stop : Stop}
    (h : session.Ends T maxCycles stopOnHalt budget tally.cycles [] t stop) :
    LoopStops T maxCycles stopOnHalt budget tally session t
      ⟨.ok (tally.result stop.reason stop.state stop.hits), tally.records, session, t⟩ :=
  ⟨[], by simp, .inl ⟨stop, rfl, .done session t, by simp, by simp, h⟩⟩

theorem LoopStops.after {budget : ℕ} {tally : Tally} {session : DebugSession τ} {t t' : τ}
    {record : StepRecord} {stop : Stop} (hused : ∀ limit ∈ maxCycles, tally.cycles < limit)
    (hstep : session.step T t = (.ok record, session.recorded record, t'))
    (henters : session.Enters stopOnHalt record.before)
    (h : session.Ends T maxCycles stopOnHalt (budget + 1) tally.cycles [record] t' stop) :
    LoopStops T maxCycles stopOnHalt (budget + 1) tally session t
      ⟨.ok ((tally.add record).result stop.reason stop.state stop.hits), (tally.add record).records,
        session.recorded record, t'⟩ := by
  refine ⟨[record], rfl, .inl ⟨stop, rfl, .step hstep (.done _ _), by simpa using henters, ?_, h⟩⟩
  intro init last heq
  obtain rfl : init = [] := by simpa using congrArg List.length heq
  exact .nil hused

theorem LoopStops.raised {budget : ℕ} {tally : Tally} {session session' : DebugSession τ} {t t' : τ}
    {text : String} (hused : ∀ limit ∈ maxCycles, tally.cycles < limit)
    (h : T.captureState t = .error text ∧ session' = session ∧ t' = t ∨
      ∃ state, T.captureState t = .ok state ∧ session.Enters stopOnHalt state ∧
        session.step T t = (.error text, session', t')) :
    LoopStops T maxCycles stopOnHalt (budget + 1) tally session t
      ⟨.error text, tally.records, session', t'⟩ :=
  ⟨[], by simp, .inr ⟨text, rfl, by simp, .nil hused, session, t, .done session t, h⟩⟩

theorem runLoop_stops (budget : ℕ) (tally : Tally) (session : DebugSession τ) (t : τ)
    (hused : ∀ limit ∈ maxCycles, tally.cycles < limit) :
    LoopStops T maxCycles stopOnHalt (budget + 1) tally session t
      (runLoop T maxCycles stopOnHalt (budget + 1) tally session t) := by
  induction budget using Nat.strong_induction_on generalizing tally session t with
  | _ budget ih =>
    rw [runLoop]
    cases hcapture : T.captureState t with
    | error text => exact .raised hused (.inl ⟨hcapture, rfl, rfl⟩)
    | ok state =>
      dsimp only
      by_cases hbreak : nextBoundary state = .instruction ∧ state.pc ∈ session.breakpoints
      · rw [if_pos hbreak]
        exact .here (.breakpoint (.nil hused) hcapture hbreak.1 hbreak.2)
      · rw [if_neg hbreak]
        by_cases hhalt : stopOnHalt = true ∧ nextBoundary state = .jamIdle
        · rw [if_pos hhalt]
          exact .here (.halted (.nil hused) hcapture hhalt.1 hhalt.2)
        · rw [if_neg hhalt]
          have henters : session.Enters stopOnHalt state := ⟨hbreak, hhalt⟩
          rcases hstep : session.step T t with ⟨_ | record, session', t'⟩
          · exact .raised hused (.inr ⟨state, hcapture, henters, hstep⟩)
          · obtain ⟨hbefore, -, rfl, -⟩ := step_inv hstep
            rw [hcapture] at hbefore
            cases hbefore
            dsimp only
            by_cases hhits : (session.recorded record).watchHits record = []
            · rw [if_neg (not_not.mpr hhits)]
              by_cases hlimit : maxCycles.any (· ≤ (tally.add record).cycles) = true
              · rw [if_pos hlimit]
                obtain ⟨limit, hmax, hover⟩ := (Option.any_eq_true _ _).mp hlimit
                exact .after hused hstep henters (.cycleLimit [] rfl hhits hmax
                  (by simpa [spent, Tally.add] using of_decide_eq_true hover))
              · rw [if_neg hlimit]
                have hused' : ∀ limit ∈ maxCycles, (tally.add record).cycles < limit := by
                  intro limit hmax
                  by_contra hover
                  exact hlimit ((Option.any_eq_true _ _).mpr ⟨limit, hmax, by simpa using hover⟩)
                cases budget with
                | zero =>
                  rw [runLoop, add_getLast?]
                  exact .after hused hstep henters (.stepLimit [] rfl hhits
                    (by simpa [spent, Tally.add] using hused') rfl)
                | succ budget =>
                  exact .cons hused hstep henters hhits
                    (ih budget (Nat.lt_succ_self budget) (tally.add record) _ t' hused')
            · rw [if_pos hhits]
              exact .after hused hstep henters (.watchpoint [] rfl hhits)

end Loop

/-! ## Runs that split -/

/-- The counts of two runs, one after the other. -/
def Tally.join (before tally : Tally) : Tally where
  steps := before.steps + tally.steps
  instructions := before.instructions + tally.instructions
  cycles := before.cycles + tally.cycles
  records := before.records ++ tally.records
  instructions_le := Nat.add_le_add before.instructions_le tally.instructions_le

/-- The result of a run after another that counted `before`. -/
def Tally.before (before : Tally) (result : RunResult) : RunResult where
  reason := result.reason
  steps := before.steps + result.steps
  instructions := before.instructions + result.instructions
  cycles := before.cycles + result.cycles
  state := result.state
  lastRecord := result.lastRecord <|> before.records.getLast?
  hits := result.hits
  instructions_le := Nat.add_le_add before.instructions_le result.instructions_le

/-- What a run leaves after another that counted `before`. -/
def Ran.after (before : Tally) (ran : Ran τ) : Ran τ :=
  { ran with result := ran.result.map before.before, records := before.records ++ ran.records }

theorem join_result (before tally : Tally) (reason : StopReason) (state : CPUState) (hits : List Access) :
    (before.join tally).result reason state hits = before.before (tally.result reason state hits) := by
  simp only [Tally.result, Tally.before, Tally.join, RunResult.mk.injEq, true_and, and_true,
    List.getLast?_append]
  cases tally.records.getLast? <;> rfl

theorem join_add (before tally : Tally) (record : StepRecord) :
    (before.join tally).add record = before.join (tally.add record) := by
  simp only [Tally.join, Tally.add, Tally.mk.injEq, List.append_assoc, and_true]
  omega

section Split
variable (stopOnHalt : Bool)

theorem runLoop_join (budget : ℕ) (before tally : Tally) (session : DebugSession τ) (t : τ)
    (h : 0 < budget ∨ tally.records ≠ []) :
    runLoop T none stopOnHalt budget (before.join tally) session t =
      (runLoop T none stopOnHalt budget tally session t).after before := by
  induction budget generalizing tally session t with
  | zero =>
    obtain ⟨record, hlast⟩ : ∃ record, tally.records.getLast? = some record :=
      Option.ne_none_iff_exists'.mp (mt List.getLast?_eq_none_iff.mp (by simpa using h))
    have hlast' : (before.join tally).records.getLast? = some record := by
      rw [Tally.join, List.getLast?_append, hlast]
      rfl
    rw [runLoop, hlast', runLoop, hlast]
    dsimp only
    rw [join_result]
    rfl
  | succ budget ih =>
    rw [runLoop, runLoop]
    cases T.captureState t with
    | error text => rfl
    | ok state =>
      dsimp only
      by_cases hbreak : nextBoundary state = .instruction ∧ state.pc ∈ session.breakpoints
      · rw [if_pos hbreak, if_pos hbreak, join_result]
        rfl
      · rw [if_neg hbreak, if_neg hbreak]
        by_cases hhalt : stopOnHalt = true ∧ nextBoundary state = .jamIdle
        · rw [if_pos hhalt, if_pos hhalt, join_result]
          rfl
        · rw [if_neg hhalt, if_neg hhalt]
          rcases session.step T t with ⟨_ | record, session', t'⟩
          · rfl
          · dsimp only
            rw [join_add, join_result, ih (tally.add record) session' t' (.inr (by simp [Tally.add]))]
            by_cases hhits : session'.watchHits record = []
            · simp [hhits]
            · rw [if_pos hhits, if_pos hhits]
              rfl

/-- What only ran out of steps goes on as a longer run would; what stopped before is the longer run. -/
theorem runLoop_split (budget more : ℕ) (tally : Tally) (session : DebugSession τ)
    (t : τ) (h : 0 < budget ∨ tally.records ≠ []) :
    (∃ total state, (runLoop T none stopOnHalt budget tally session t).result =
          .ok (total.result .stepLimit state []) ∧
        (runLoop T none stopOnHalt budget tally session t).records = total.records ∧
        runLoop T none stopOnHalt (budget + more) tally session t =
          runLoop T none stopOnHalt more total (runLoop T none stopOnHalt budget tally session t).session
            (runLoop T none stopOnHalt budget tally session t).target) ∨
      (∀ result, (runLoop T none stopOnHalt budget tally session t).result = .ok result →
          result.reason ≠ .stepLimit) ∧
        runLoop T none stopOnHalt (budget + more) tally session t =
          runLoop T none stopOnHalt budget tally session t := by
  induction budget generalizing tally session t with
  | zero =>
    obtain ⟨record, hlast⟩ : ∃ record, tally.records.getLast? = some record :=
      Option.ne_none_iff_exists'.mp (mt List.getLast?_eq_none_iff.mp (by simpa using h))
    rw [runLoop, hlast]
    exact .inl ⟨tally, record.after, rfl, rfl, by rw [Nat.zero_add]⟩
  | succ budget ih =>
    rw [Nat.add_right_comm, runLoop, runLoop]
    cases T.captureState t with
    | error text => exact .inr ⟨by simp, rfl⟩
    | ok state =>
      dsimp only
      by_cases hbreak : nextBoundary state = .instruction ∧ state.pc ∈ session.breakpoints
      · rw [if_pos hbreak, if_pos hbreak]
        exact .inr ⟨by simp [Tally.result], rfl⟩
      · rw [if_neg hbreak, if_neg hbreak]
        by_cases hhalt : stopOnHalt = true ∧ nextBoundary state = .jamIdle
        · rw [if_pos hhalt, if_pos hhalt]
          exact .inr ⟨by simp [Tally.result], rfl⟩
        · rw [if_neg hhalt, if_neg hhalt]
          rcases session.step T t with ⟨_ | record, session', t'⟩
          · exact .inr ⟨by simp, rfl⟩
          · dsimp only
            by_cases hhits : session'.watchHits record = []
            · simpa [hhits] using ih (tally.add record) session' t' (.inr (by simp [Tally.add]))
            · rw [if_pos hhits, if_pos hhits]
              exact .inr ⟨by simp [Tally.result], rfl⟩

end Split

/-! ## `run` -/

/-- The instructions among the records. -/
def instructions (records : List StepRecord) : ℕ :=
  records.countP fun record => record.kind = .instruction

/-- A result counts its records, and the session's totals change by what it counts. -/
structure Counted (session : DebugSession τ) (ran : Ran τ) (result : RunResult) : Prop where
  steps : result.steps = ran.records.length
  instructions : result.instructions = DebugSession.instructions ran.records
  cycles : result.cycles = spent ran.records
  lastRecord : result.lastRecord = ran.records.getLast?
  totalSteps : ran.session.totalSteps = session.totalSteps + result.steps
  totalInstructions : ran.session.totalInstructions = session.totalInstructions + result.instructions
  totalCycles : ran.session.totalCycles = session.totalCycles + result.cycles

theorem instructions_cons (record : StepRecord) (records : List StepRecord) :
    instructions (record :: records) =
      (if record.kind = .instruction then 1 else 0) + instructions records := by
  rw [instructions, List.countP_cons, Nat.add_comm, instructions]
  simp

theorem foldl_add_counts (tally : Tally) (records : List StepRecord) :
    (records.foldl Tally.add tally).steps = tally.steps + records.length ∧
      (records.foldl Tally.add tally).instructions = tally.instructions + instructions records ∧
        (records.foldl Tally.add tally).cycles = tally.cycles + spent records := by
  induction records generalizing tally with
  | nil => exact ⟨rfl, rfl, rfl⟩
  | cons record records ih =>
    obtain ⟨hsteps, hinstructions, hcycles⟩ := ih (tally.add record)
    rw [List.foldl_cons, hsteps, hinstructions, hcycles, instructions_cons, spent_cons, List.length_cons]
    dsimp only [Tally.add]
    omega

theorem Steps.totals {session session' : DebugSession τ} {t t' : τ} {records : List StepRecord}
    (h : Steps T session t records session' t') :
    session'.totalSteps = session.totalSteps + records.length ∧
      session'.totalInstructions = session.totalInstructions + instructions records ∧
        session'.totalCycles = session.totalCycles + spent records := by
  induction h with
  | done session t => exact ⟨rfl, rfl, rfl⟩
  | step hstep _ ih =>
    obtain ⟨-, -, rfl, -⟩ := step_inv hstep
    obtain ⟨hsteps, hinstructions, hcycles⟩ := ih
    rw [hsteps, hinstructions, hcycles, instructions_cons, spent_cons, List.length_cons]
    dsimp only [recorded]
    omega

/-- One result after another: the stop of the second, with the counts added. -/
def andThen (first second : RunResult) : RunResult where
  reason := second.reason
  steps := first.steps + second.steps
  instructions := first.instructions + second.instructions
  cycles := first.cycles + second.cycles
  state := second.state
  lastRecord := second.lastRecord <|> first.lastRecord
  hits := second.hits
  instructions_le := Nat.add_le_add first.instructions_le second.instructions_le

/-- A run that is `first`, and `next` after it where it only ran out of steps. -/
def Composes (first : Ran τ) (next : DebugSession τ → τ → Ran τ) (whole : Ran τ) : Prop :=
  (∀ result, first.result = .ok result → result.reason = .stepLimit →
      whole.session = (next first.session first.target).session ∧
      whole.target = (next first.session first.target).target ∧
      whole.records = first.records ++ (next first.session first.target).records ∧
      whole.result = (next first.session first.target).result.map (andThen result)) ∧
    ((∀ result, first.result = .ok result → result.reason ≠ .stepLimit) → whole = first)

theorem unbounded : ∀ cycles ∈ (none : Option ℤ), 0 < cycles := by simp

section Run
variable (session : DebugSession τ) (t : τ) (stopOnHalt : Bool) {maxSteps : ℤ} (hsteps : 0 < maxSteps)
include hsteps

theorem run_eq {maxCycles : Option ℤ} (hcycles : ∀ cycles ∈ maxCycles, 0 < cycles) :
    session.run T maxSteps maxCycles stopOnHalt t =
      runLoop T (maxCycles.map Int.toNat) stopOnHalt maxSteps.toNat {} session t := by
  have hany : ¬maxCycles.any (· ≤ 0) = true := by
    rintro h
    obtain ⟨cycles, hmem, hle⟩ := (Option.any_eq_true _ _).mp h
    exact absurd (of_decide_eq_true hle) (not_le.mpr (hcycles cycles hmem))
  rw [run, if_neg (not_le.mpr hsteps), if_neg hany]

theorem run_stops {maxCycles : Option ℤ} (hcycles : ∀ cycles ∈ maxCycles, 0 < cycles) :
    LoopStops T (maxCycles.map Int.toNat) stopOnHalt maxSteps.toNat {} session t
      (session.run T maxSteps maxCycles stopOnHalt t) := by
  obtain ⟨budget, hbudget⟩ : ∃ budget, maxSteps.toNat = budget + 1 :=
    ⟨maxSteps.toNat - 1, by omega⟩
  rw [run_eq T session t stopOnHalt hsteps hcycles, hbudget]
  refine runLoop_stops budget {} session t ?_
  intro limit hlimit
  obtain ⟨cycles, hmem, rfl⟩ := Option.map_eq_some_iff.mp hlimit
  have := hcycles cycles hmem
  show 0 < cycles.toNat
  omega

theorem run_composes {more : ℤ} (hmore : 0 < more) :
    Composes (session.run T maxSteps none stopOnHalt t)
      (fun session t => session.run T more none stopOnHalt t)
      (session.run T (maxSteps + more) none stopOnHalt t) := by
  have hsum : (maxSteps + more).toNat = maxSteps.toNat + more.toNat := Int.toNat_add hsteps.le hmore.le
  rw [run_eq T session t stopOnHalt hsteps unbounded,
    run_eq T session t stopOnHalt (by omega : 0 < maxSteps + more) unbounded, hsum]
  have hsplit := runLoop_split T stopOnHalt maxSteps.toNat more.toNat {} session t (.inl (by omega))
  rcases hsplit with ⟨total, state, hresult, hrecords, hwhole⟩ | ⟨hother, hwhole⟩
  · refine ⟨fun result hok _ => ?_, fun hnot => absurd rfl (hnot _ hresult)⟩
    dsimp only
    rw [run_eq T _ _ stopOnHalt hmore unbounded]
    obtain rfl : total.result .stepLimit state [] = result := Except.ok.inj (hresult.symm.trans hok)
    have hrest := runLoop_join T stopOnHalt more.toNat total {}
      (runLoop T none stopOnHalt maxSteps.toNat {} session t).session
      (runLoop T none stopOnHalt maxSteps.toNat {} session t).target (.inl (by omega))
    have hjoin : total.join {} = total := by simp [Tally.join]
    rw [hjoin] at hrest
    rw [Option.map_none, hwhole, hrest, hrecords]
    exact ⟨rfl, rfl, rfl, rfl⟩
  · exact ⟨fun result hok hlimit => absurd hlimit (hother result hok), fun _ => hwhole⟩

/-- On such a target a run returns. -/
theorem run_returns (hanswers : T.Answers) {maxCycles : Option ℤ} (hcycles : ∀ cycles ∈ maxCycles, 0 < cycles) :
    ∃ result, (session.run T maxSteps maxCycles stopOnHalt t).result = .ok result := by
  obtain ⟨records, -, ⟨stop, hresult, -⟩ | ⟨text, -, hraised⟩⟩ := run_stops T session t stopOnHalt hsteps hcycles
  · exact ⟨_, hresult⟩
  · obtain ⟨midway, t₁, -, ⟨hcapture, -⟩ | ⟨state, -, -, hstep⟩⟩ := hraised.raised
    · obtain ⟨state, hstate⟩ := hanswers.captures t₁
      rw [hstate] at hcapture
      cases hcapture
    · obtain ⟨record, t', hrecord⟩ := step_returns hanswers midway t₁
      rw [hrecord] at hstep
      cases hstep

/-- `run` stops at the first point of the session's steps where a stop condition holds, counts what it
did, raises only where a capture or a step does, returns on a target that answers, and composes. -/
theorem run_first_stop (maxCycles : Option ℤ) (hcycles : ∀ cycles ∈ maxCycles, 0 < cycles) :
    (∀ result, (session.run T maxSteps maxCycles stopOnHalt t).result = .ok result →
      session.FirstStop T t (maxCycles.map Int.toNat) stopOnHalt maxSteps.toNat 0
          (session.run T maxSteps maxCycles stopOnHalt t).records
          (session.run T maxSteps maxCycles stopOnHalt t).session
          (session.run T maxSteps maxCycles stopOnHalt t).target ⟨result.reason, result.state, result.hits⟩ ∧
        session.Counted (session.run T maxSteps maxCycles stopOnHalt t) result) ∧
    (∀ text, (session.run T maxSteps maxCycles stopOnHalt t).result = .error text →
      session.Raises T t (maxCycles.map Int.toNat) stopOnHalt maxSteps.toNat 0
        (session.run T maxSteps maxCycles stopOnHalt t).records
        (session.run T maxSteps maxCycles stopOnHalt t).session
        (session.run T maxSteps maxCycles stopOnHalt t).target text) ∧
    (T.Answers → ∃ result, (session.run T maxSteps maxCycles stopOnHalt t).result = .ok result) ∧
    ∀ more, 0 < more → Composes (session.run T maxSteps none stopOnHalt t)
      (fun session t => session.run T more none stopOnHalt t)
      (session.run T (maxSteps + more) none stopOnHalt t) := by
  obtain ⟨records, hrecords, hstop⟩ := run_stops T session t stopOnHalt hsteps hcycles
  obtain rfl : records = (session.run T maxSteps maxCycles stopOnHalt t).records := by
    rw [hrecords, List.nil_append]
  refine ⟨fun result hok => ?_, fun text herror => ?_,
    fun hanswers => run_returns T session t stopOnHalt hsteps hanswers hcycles,
    fun more hmore => run_composes T session t stopOnHalt hsteps hmore⟩
  · rcases hstop with ⟨stop, hresult, hstop⟩ | ⟨text, hresult, -⟩
    · obtain rfl := Except.ok.inj (hresult.symm.trans hok)
      obtain ⟨hcount, hinstructions, hspent⟩ := foldl_add_counts {}
        (session.run T maxSteps maxCycles stopOnHalt t).records
      rw [Nat.zero_add] at hcount hinstructions hspent
      obtain ⟨htotal, htotalInstructions, htotalCycles⟩ := hstop.steps.totals
      exact ⟨hstop, {
        steps := hcount
        instructions := hinstructions
        cycles := hspent
        lastRecord := by rw [Tally.result, foldl_add_records, List.nil_append]
        totalSteps := htotal.trans (congrArg _ hcount.symm)
        totalInstructions := htotalInstructions.trans (congrArg _ hinstructions.symm)
        totalCycles := htotalCycles.trans (congrArg _ hspent.symm) }⟩
    · rw [hresult] at hok
      cases hok
  · rcases hstop with ⟨stop, hresult, -⟩ | ⟨text', hresult, hraised⟩
    · rw [hresult] at herror
      cases herror
    · obtain rfl : text' = text := Except.error.inj (hresult.symm.trans herror)
      exact hraised

end Run

/-- A target that counts: two cycles a step, the program counter one on. -/
def ticking : Target ℕ where
  step t := (2, t + 1)
  captureState t := .ok (.poised t 0 0 0 true)
  accesses _ _ := []
  clear _ t := t

/-- A breakpoint ahead of a session. -/
def ahead : DebugSession ℕ := { id := 0, breakpoints := {3} }

theorem ticking_answers : ticking.Answers where
  captures _ := ⟨_, rfl⟩
  cycles _ := Nat.two_pos
  accesses _ _ := List.forall_mem_nil _

theorem run_first_stop_ticking :
    ((0 : ℤ) < 9 ∧ ∀ cycles ∈ some (50 : ℤ), 0 < cycles) ∧
      (∃ result, (ahead.run ticking 9 (some 50) true 0).result = .ok result ∧
        ahead.Counted (ahead.run ticking 9 (some 50) true 0) result) ∧
      Composes (ahead.run ticking 9 none true 0) (fun session t => session.run ticking 4 none true t)
        (ahead.run ticking (9 + 4) none true 0) := by
  obtain ⟨hreturned, -, hreturns, hcomposes⟩ :=
    run_first_stop ticking ahead 0 true (by decide : (0 : ℤ) < 9) (some 50) (by decide)
  obtain ⟨result, hresult⟩ := hreturns ticking_answers
  exact ⟨by decide, ⟨result, hresult, (hreturned result hresult).2⟩, hcomposes 4 (by decide)⟩

end DebugSession

end SixFiveOhTwo
