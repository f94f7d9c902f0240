import SixFiveOhTwo.Polling.Eager

/-! # What the record of a step tells of the requests

`Threads` ties the requests along a record: each access begins on what the last one left, but for the
NMI latch that a frame takes between two accesses. What every call of a record keeps then holds of
every sample of it (`Threads.recorded`), and so of what the step polled.
-/

namespace SixFiveOhTwo
open Bits Interaction
set_option autoImplicit false

/-! ## The calls and the requests -/

/-- What a call does to the requests. -/
def Call.onRequests : Call → ℕ → ℕ
  | requestMaskableInterrupt, requests => requests ||| irqLine
  | clearMaskableInterrupt, requests => without requests irqLine
  | requestNonMaskableInterrupt, requests => requests ||| nmiLatch
  | clearNonMaskableInterrupt, requests => without requests nmiLatch
  | _, requests => requests

theorem Call.onPoll_requests (call : Call) (p : Poll) :
    (call.onPoll p).requests = call.onRequests p.requests := by
  cases call <;> first | rfl | exact Poll.see_requests _ _

/-- The requests after a callback's calls. -/
def requestsAfter (requests : ℕ) (calls : List Call) : ℕ :=
  calls.foldl (fun requests call => call.onRequests requests) requests

/-- The requests that the stalls noted among a callback's calls find. -/
def stallsFrom : ℕ → List Call → List ℕ
  | _, [] => []
  | requests, call :: calls =>
    (if call = .noteStall then [requests] else []) ++ stallsFrom (call.onRequests requests) calls

namespace Poll

theorem applyCalls_requests (p : Poll) (calls : List Call) :
    (p.applyCalls calls).requests = requestsAfter p.requests calls := by
  induction calls generalizing p with
  | nil => rfl
  | cons call calls ih => exact (ih (call.onPoll p)).trans (by rw [Call.onPoll_requests]; rfl)

theorem stallsSeen_requests (p : Poll) (calls : List Call) :
    p.stallsSeen calls = stallsFrom p.requests calls := by
  induction calls generalizing p with
  | nil => rfl
  | cons call calls ih => rw [stallsSeen, stallsFrom, ih, Call.onPoll_requests]

end Poll

/-- The record of an access that begins on these requests. -/
def HostCall.Tells (c : HostCall) (requests : ℕ) : Prop :=
  c.stalls = stallsFrom requests c.calls ∧ c.requests = requestsAfter requests c.calls

/-! ## Threads of requests -/

/-- Each access of a record begins on the requests the last one left, up to `gap`. -/
def Threads (gap : ℕ → ℕ → Prop) : ℕ → List HostCall → Prop
  | _, [] => True
  | requests, c :: t => (∃ r, gap requests r ∧ c.Tells r) ∧ Threads gap c.requests t

/-- Between two accesses a frame may take the latch. -/
def Unlatches (requests r : ℕ) : Prop := r = requests ∨ r = without requests nmiLatch

theorem Threads.mono {gap gap' : ℕ → ℕ → Prop} (hgap : ∀ r r', gap r r' → gap' r r') {requests : ℕ}
    {t : List HostCall} (h : Threads gap requests t) : Threads gap' requests t := by
  induction t generalizing requests with
  | nil => trivial
  | cons c t ih =>
    obtain ⟨⟨r, hr, htells⟩, ht⟩ := h
    exact ⟨⟨r, hgap _ _ hr, htells⟩, ih ht⟩

theorem threads_append {gap : ℕ → ℕ → Prop} {requests : ℕ} {t u : List HostCall} :
    Threads gap requests (t ++ u) ↔
      Threads gap requests t ∧ Threads gap (Poll.lastRequests requests t) u := by
  induction t generalizing requests with
  | nil => simp [Threads, Poll.lastRequests]
  | cons c t ih =>
    rw [List.cons_append, Threads, Threads, ih, Poll.lastRequests_cons, and_assoc]

theorem Poll.Records.tells {p : Poll} {c : HostCall} {t : List HostCall} (ht : p.Records (c :: t)) :
    c.Tells p.requests := by
  obtain ⟨⟨hstalls, hrequests⟩, -⟩ := ht
  rw [Poll.stallsSeen_requests] at hstalls
  rw [Poll.access, Poll.applyCalls_requests] at hrequests
  exact ⟨hstalls, hrequests⟩

theorem Poll.Records.threads {p : Poll} {t : List HostCall} (ht : p.Records t) {gap : ℕ → ℕ → Prop}
    (hrefl : ∀ r, gap r r) {requests : ℕ} (hp : gap requests p.requests) : Threads gap requests t := by
  induction t generalizing p requests with
  | nil => trivial
  | cons c t ih =>
    refine ⟨⟨p.requests, hp, ht.tells⟩, ih ht.2 ?_⟩
    rw [ht.1.2]
    exact hrefl _

/-! ## What every call keeps -/

/-- A call keeps a property of the requests. -/
def Call.Keeps (Q : ℕ → Prop) (call : Call) : Prop := ∀ r, Q r → Q (call.onRequests r)

/-- The requests have a property at the end of every access of a record, and at every stall. -/
def Recorded (Q : ℕ → Prop) (t : List HostCall) : Prop := ∀ c ∈ t, Q c.requests ∧ ∀ s ∈ c.stalls, Q s

section
variable {Q : ℕ → Prop}

theorem eq_keeps (r r' : ℕ) (h : r = r') (hr : Q r) : Q r' := h ▸ hr

theorem requestsAfter_keeps {calls : List Call} (hcalls : ∀ call ∈ calls, call.Keeps Q) {requests : ℕ}
    (h : Q requests) : Q (requestsAfter requests calls) := by
  induction calls generalizing requests with
  | nil => exact h
  | cons call calls ih =>
    have hrest : ∀ c ∈ calls, Call.Keeps Q c := fun c hc => hcalls c (List.mem_cons_of_mem _ hc)
    exact ih hrest (hcalls call List.mem_cons_self requests h)

theorem stallsFrom_keeps {calls : List Call} (hcalls : ∀ call ∈ calls, call.Keeps Q) {requests : ℕ}
    (h : Q requests) : ∀ s ∈ stallsFrom requests calls, Q s := by
  induction calls generalizing requests with
  | nil => exact fun s hs => nomatch hs
  | cons call calls ih =>
    intro s hs
    have hrest : ∀ c ∈ calls, Call.Keeps Q c := fun c hc => hcalls c (List.mem_cons_of_mem _ hc)
    rcases List.mem_append.mp hs with hnow | hlater
    · split at hnow
      · rw [List.mem_singleton.mp hnow]
        exact h
      · cases hnow
    · exact ih hrest (hcalls call List.mem_cons_self requests h) s hlater

/-- What every call of a record keeps, and the gaps too, holds of all of it. -/
theorem Threads.recorded {gap : ℕ → ℕ → Prop} (hgap : ∀ r r', gap r r' → Q r → Q r') {requests : ℕ}
    {t : List HostCall} (ht : Threads gap requests t) (hcalls : ∀ c ∈ t, ∀ call ∈ c.calls, call.Keeps Q)
    (h : Q requests) : Recorded Q t ∧ Q (Poll.lastRequests requests t) := by
  induction t generalizing requests with
  | nil => exact ⟨by simp [Recorded], h⟩
  | cons c t ih =>
    obtain ⟨⟨r, hr, hstalls, hrequests⟩, hrest⟩ := ht
    have hc := hcalls c List.mem_cons_self
    have hend : Q c.requests := hrequests ▸ requestsAfter_keeps hc (hgap _ _ hr h)
    obtain ⟨hrecorded, hlast⟩ := ih hrest (fun c' hc' => hcalls c' (List.mem_cons_of_mem _ hc')) hend
    refine ⟨List.forall_mem_cons.mpr ⟨⟨hend, ?_⟩, hrecorded⟩, ?_⟩
    · rw [hstalls]
      exact stallsFrom_keeps hc (hgap _ _ hr h)
    · rw [Poll.lastRequests_cons]
      exact hlast

theorem sampled_keeps {c : HostCall} (hc : Q c.requests ∧ ∀ s ∈ c.stalls, Q s) {before : ℕ}
    (hbefore : Q before) : Q (c.sampled before) := by
  rw [HostCall.sampled]
  cases hs : c.stalls.getLast? with
  | none => exact hbefore
  | some s => exact hc.2 s (List.mem_of_getLast? hs)

theorem Recorded.sample {t : List HostCall} (h : Recorded Q t) (ht : 2 ≤ t.length) : Q (Poll.sample 0 t) := by
  obtain ⟨u, c, rfl⟩ := List.eq_nil_or_concat t |>.resolve_left (List.ne_nil_of_length_pos (by omega))
  rw [List.concat_eq_append] at *
  rw [Poll.sample, List.getLast?_concat, List.dropLast_concat, Option.bind_some]
  have hu : u ≠ [] := by
    rintro rfl
    simp at ht
  have hlast : Q (Poll.lastRequests 0 u) := by
    rw [Poll.lastRequests, List.getLast?_eq_some_getLast hu]
    exact (h _ (List.mem_append_left _ (List.getLast_mem hu))).1
  exact sampled_keeps (h c (List.mem_append_right _ (List.mem_singleton_self c))) hlast

theorem Recorded.branchSample {t : List HostCall} (h : Recorded Q t) (ht : 2 ≤ t.length)
    (hor : ∀ a b, Q a → Q b → Q (a ||| b)) : Q (branchSample t) := by
  have hstall : ∀ (early : ℕ) (c : HostCall), Q early → (∀ s ∈ c.stalls, Q s) →
      Q (early ||| c.stalls.dropLast.getLast?.getD 0) := by
    intro early c hearly hc
    cases hs : c.stalls.dropLast.getLast? with
    | none => exact (Nat.or_zero early).symm ▸ hearly
    | some s => exact hor _ _ hearly (hc s (List.mem_of_mem_dropLast (List.mem_of_getLast? hs)))
  unfold SixFiveOhTwo.branchSample
  split
  case h_1 d e c =>
    exact hstall _ c (sampled_keeps (h e (by simp)) (h d (by simp)).1) (h c (by simp)).2
  case h_2 d e c f =>
    have hearly := hstall _ c (sampled_keeps (h e (by simp)) (h d (by simp)).1) (h c (by simp)).2
    exact hor _ _ hearly (sampled_keeps (h f (by simp)) (h c (by simp)).1)
  case h_3 => exact h.sample ht

/-- What holds throughout the record of an instruction holds of what it polled. -/
theorem Recorded.polled {t : List HostCall} (h : Recorded Q t) (ht : 2 ≤ t.length)
    (hor : ∀ a b, Q a → Q b → Q (a ||| b)) {entry : Entry} {v : ℕ} (hv : entry.sample t = some v) : Q v := by
  cases entry with
  | addressed handler mode cycles => exact Option.some.inj hv ▸ h.sample ht
  | implied handler cycles =>
    have hbranch := h.branchSample ht hor
    have hsample := h.sample ht
    cases handler <;> first | (cases hv; done) | exact Option.some.inj hv ▸ hbranch | exact Option.some.inj hv ▸ hsample

end

/-! ## Every step threads its requests -/

namespace Poll

theorem Branched.threads {early : ℕ} {p p' : Poll} {u : List HostCall} (hb : Branched early p u p') :
    Threads Eq p.requests u ∧ p'.requests = lastRequests p.requests u := by
  cases hb with
  | untaken => exact ⟨trivial, rfl⟩
  | samePage c hc => exact ⟨hc.threads (fun _ => rfl) rfl, (relieved_requests _).trans (requests_access hc)⟩
  | otherPage c d hc hd =>
    have hnext : c.requests = (p.access c.calls).relieved.requests :=
      (requests_access hc).symm.trans (relieved_requests _).symm
    exact ⟨⟨⟨p.requests, rfl, hc.tells⟩, hd.threads (fun _ => rfl) hnext⟩, requests_access hd⟩

/-- The two parts of a frame, with the latch taken or not between them. -/
theorem frame_threads {p q : Poll} {t u : List HostCall} (ht : p.Records t) (hu : q.Records u) (hne : u ≠ [])
    (hgap : Unlatches (p.accesses t).requests q.requests) :
    Threads Unlatches p.requests (t ++ u) ∧ (q.accesses u).requests = lastRequests p.requests (t ++ u) := by
  have hrefl : ∀ r, Unlatches r r := fun _ => .inl rfl
  rw [threads_append, lastRequests_append, ← requests_accesses ht]
  exact ⟨⟨ht.threads hrefl (hrefl _), hu.threads hrefl hgap⟩,
    (requests_accesses hu).trans (lastRequests_of_ne_nil hne _ _)⟩

theorem vectored_unlatches (p : Poll) : Unlatches p.requests p.vectored.requests := by
  unfold vectored
  split
  · exact .inr rfl
  · exact .inl rfl

theorem Vectors.ne_nil {vector : ℕ} {u : List HostCall} (h : Vectors vector u) : u ≠ [] :=
  List.ne_nil_of_length_eq_add_one h.length

theorem branch_threads {early : ℕ} {p p' : Poll} {d e : HostCall} {u : List HostCall} (hd : p.Records [d])
    (he : (p.access d.calls).unstalled.Records [e])
    (hu : Branched early ((p.access d.calls).unstalled.access e.calls).unstalled u p') :
    Threads Eq p.requests (d :: e :: u) ∧ p'.requests = lastRequests p.requests (d :: e :: u) := by
  obtain ⟨hthreads, hlast⟩ := hu.threads
  have hafter : ((p.access d.calls).unstalled.access e.calls).unstalled.requests = e.requests := requests_access he
  have hbefore : (p.access d.calls).unstalled.requests = d.requests := requests_access hd
  rw [hafter] at hthreads hlast
  refine ⟨⟨⟨_, rfl, hd.tells⟩, ⟨_, rfl, hbefore ▸ he.tells⟩, hthreads⟩, ?_⟩
  rw [hlast, lastRequests_cons, lastRequests_cons]

theorem settled_requests (p : Poll) : p.settled.requests = p.requests := by
  unfold settled
  split <;> rfl

theorem Step.threads {c : Core} {p p' : Poll} {kind : BoundaryKind} {t : List HostCall}
    (hstep : Step c p kind t p') :
    Threads Unlatches p.requests t ∧ p'.requests = lastRequests p.requests t := by
  have hrefl : ∀ r, Unlatches r r := fun _ => .inl rfl
  cases hstep with
  | reset t hlen ht => exact ⟨ht.threads hrefl (hrefl _), requests_accesses ht⟩
  | jamIdle d hd => exact ⟨hd.threads hrefl (hrefl _), requests_access hd⟩
  | nmi t u hlen hlen' ht hu =>
    exact frame_threads (p := p.forget) ht hu (List.ne_nil_of_length_eq_add_one hlen') (.inr rfl)
  | irq t u hlen ht hvec hu => exact frame_threads (p := p.forget) ht hu hvec.ne_nil (vectored_unlatches _)
  | brk opcode cycles hop t u hlen hopcode ht hvec hu =>
    exact frame_threads (p := p.forget) ht hu hvec.ne_nil (vectored_unlatches _)
  | branch opcode handler cycles hop hb d e u hopcode hd he p'' hu =>
    obtain ⟨hthreads, hlast⟩ := branch_threads (p := p.forget) hd he hu
    rw [settled_requests]
    exact ⟨hthreads.mono fun r r' h => .inl h.symm, hlast⟩
  | other opcode hbrk hb t hlen hopcode ht =>
    rw [settled_requests]
    exact ⟨ht.threads hrefl (hrefl _), requests_accesses ht⟩

end Poll

end SixFiveOhTwo
