import SixFiveOhTwo.Machine.Boundary

/-! # The poll along a sequence of accesses

`Poll.accesses` is the poll after the accesses of a record, and `Poll.Records` says that the record
tells what each of them found. From a record alone, `seen_accesses`, `requests_accesses`,
`stalled_access` and `stalledBefore_access` read off what the poll has kept.
-/

namespace SixFiveOhTwo
open Bits Interaction
set_option autoImplicit false

namespace Poll

/-- The poll after the accesses of a record. -/
def accesses (p : Poll) (t : List HostCall) : Poll := t.foldl (fun p c => p.access c.calls) p

/-- A record of accesses that begin on this poll. -/
def Records : Poll → List HostCall → Prop
  | _, [] => True
  | p, c :: t => (c.stalls = p.confirm.stallsSeen c.calls ∧ c.requests = (p.access c.calls).requests) ∧
      (p.access c.calls).Records t

@[simp] theorem accesses_nil (p : Poll) : p.accesses [] = p := rfl

@[simp] theorem accesses_cons (p : Poll) (c : HostCall) (t : List HostCall) :
    p.accesses (c :: t) = (p.access c.calls).accesses t := rfl

theorem accesses_append (p : Poll) (t u : List HostCall) :
    p.accesses (t ++ u) = (p.accesses t).accesses u := List.foldl_append ..

theorem records_append (p : Poll) (t u : List HostCall) :
    p.Records (t ++ u) ↔ p.Records t ∧ (p.accesses t).Records u := by
  induction t generalizing p with
  | nil => simp [Records]
  | cons c t ih =>
    rw [List.cons_append, Records, Records, ih, accesses_cons]
    exact and_assoc.symm

theorem applyCalls_keeps {I : Poll → Prop} {calls : List Call}
    (hI : ∀ call ∈ calls, ∀ p, I p → I (call.onPoll p)) {p : Poll} (hp : I p) : I (p.applyCalls calls) := by
  induction calls generalizing p with
  | nil => exact hp
  | cons call calls ih =>
    have hcalls : ∀ c ∈ calls, ∀ p, I p → I (c.onPoll p) := fun c hc => hI c (List.mem_cons_of_mem _ hc)
    exact ih hcalls (hI call List.mem_cons_self p hp)

theorem access_keeps {I : Poll → Prop} (hconfirm : ∀ p, I p → I p.confirm) {calls : List Call}
    (hI : ∀ call ∈ calls, ∀ p, I p → I (call.onPoll p)) {p : Poll} (hp : I p) : I (p.access calls) :=
  applyCalls_keeps hI (hconfirm p hp)

theorem accesses_keeps {I : Poll → Prop} (hconfirm : ∀ p, I p → I p.confirm) {t : List HostCall}
    (hI : ∀ c ∈ t, ∀ call ∈ c.calls, ∀ p, I p → I (call.onPoll p)) {p : Poll} (hp : I p) :
    I (p.accesses t) := by
  induction t generalizing p with
  | nil => exact hp
  | cons c t ih =>
    have ht : ∀ c' ∈ t, ∀ call ∈ c'.calls, ∀ p, I p → I (call.onPoll p) :=
      fun c' hc' => hI c' (List.mem_cons_of_mem _ hc')
    exact ih ht (access_keeps hconfirm (hI c List.mem_cons_self) hp)

/-! ## What a record tells of the requests -/

/-- The requests at the end of the last access of a record, or `before` it. -/
def lastRequests (before : ℕ) (t : List HostCall) : ℕ := (t.getLast?.map HostCall.requests).getD before

/-- What the poll of a record is: the requests at the last stall noted in its last access, or else at
the end of the access before that. -/
def sample (before : ℕ) (t : List HostCall) : ℕ :=
  (t.getLast?.bind fun c => c.stalls.getLast?).getD (lastRequests before t.dropLast)

theorem lastRequests_cons (before : ℕ) (c : HostCall) (t : List HostCall) :
    lastRequests before (c :: t) = lastRequests c.requests t := by
  rw [lastRequests, lastRequests, List.getLast?_cons]
  cases t.getLast? <;> rfl

theorem lastRequests_append (before : ℕ) (t u : List HostCall) :
    lastRequests before (t ++ u) = lastRequests (lastRequests before t) u := by
  induction t generalizing before with
  | nil => rfl
  | cons c t ih => rw [List.cons_append, lastRequests_cons, lastRequests_cons, ih]

/-- The requests at the end of an access do not depend on those before the record. -/
theorem lastRequests_of_ne_nil {t : List HostCall} (ht : t ≠ []) (before before' : ℕ) :
    lastRequests before t = lastRequests before' t := by
  rw [lastRequests, lastRequests, List.getLast?_eq_some_getLast ht]
  rfl

theorem requests_accesses {p : Poll} {t : List HostCall} (ht : p.Records t) :
    (p.accesses t).requests = lastRequests p.requests t := by
  induction t generalizing p with
  | nil => rfl
  | cons c t ih =>
    rw [accesses_cons, ih ht.2, ← ht.1.2, lastRequests_cons]

/-- After an access the poll has seen what the record says. -/
theorem seen_accesses {p : Poll} {t : List HostCall} (ht : p.Records t) (hne : t ≠ []) :
    (p.accesses t).seen = sample p.requests t := by
  obtain ⟨u, c, rfl⟩ := List.eq_nil_or_concat t |>.resolve_left hne
  rw [List.concat_eq_append] at *
  obtain ⟨hu, hc⟩ := (records_append p u [c]).mp ht
  rw [accesses_append, accesses_cons, accesses_nil, seen_access, requests_accesses hu, ← hc.1.1, sample,
    List.getLast?_concat, List.dropLast_concat]
  rfl

/-! ## What a record tells of the stalls -/

theorem stalled_applyCalls (p : Poll) (calls : List Call) :
    (p.applyCalls calls).stalled = (p.stallsSeen calls).getLast?.or p.stalled ∧
      (p.applyCalls calls).stalledBefore =
        if p.stallsSeen calls = [] then p.stalledBefore
        else (p.stallsSeen calls).dropLast.getLast?.or p.stalled := by
  induction calls generalizing p with
  | nil => exact ⟨rfl, rfl⟩
  | cons call calls ih =>
    have hstep : p.applyCalls (call :: calls) = (call.onPoll p).applyCalls calls := rfl
    obtain ⟨hs, hb⟩ := ih (call.onPoll p)
    rw [hstep, hs, hb, stallsSeen]
    by_cases hcall : call = .noteStall
    · subst hcall
      have h₁ : (Call.noteStall.onPoll p).stalled = some p.requests := rfl
      have h₂ : (Call.noteStall.onPoll p).stalledBefore = p.stalled := rfl
      rw [h₁, h₂, if_pos rfl]
      cases hL : (Call.noteStall.onPoll p).stallsSeen calls with
      | nil => simp
      | cons r L =>
        have hlast : (p.requests :: (r :: L).dropLast).getLast? =
            (r :: L).dropLast.getLast?.or (some p.requests) := by
          rw [List.getLast?_cons]
          cases (r :: L).dropLast.getLast? <;> rfl
        simp [List.getLast?_cons, hlast]
    · rw [if_neg hcall, List.nil_append]
      have h : (call.onPoll p).stalled = p.stalled ∧ (call.onPoll p).stalledBefore = p.stalledBefore := by
        cases call with
        | noteStall => exact absurd rfl hcall
        | requestMaskableInterrupt | requestNonMaskableInterrupt => exact see_stalled _ _
        | _ => exact ⟨rfl, rfl⟩
      rw [h.1, h.2]
      exact ⟨rfl, rfl⟩

/-- The host's stalls are forgotten. -/
def unstalled (p : Poll) : Poll := { p with stalled := none, stalledBefore := none }

/-- An access that begins unstalled leaves the last two stalls noted in it. -/
theorem stalled_access {p : Poll} {c : HostCall} (hc : p.unstalled.Records [c]) :
    (p.unstalled.access c.calls).stalled = c.stalls.getLast? ∧
      (p.unstalled.access c.calls).stalledBefore = c.stalls.dropLast.getLast? := by
  obtain ⟨hs, hb⟩ := stalled_applyCalls p.unstalled.confirm c.calls
  have hstalled : p.unstalled.confirm.stalled = none := rfl
  have hbefore : p.unstalled.confirm.stalledBefore = none := rfl
  rw [hstalled, ← hc.1.1, Option.or_none] at hs
  rw [hstalled, hbefore, ← hc.1.1, Option.or_none] at hb
  refine ⟨hs, hb.trans ?_⟩
  split
  · rename_i hnil
    rw [hnil]
    rfl
  · rfl

end Poll

end SixFiveOhTwo
