import SixFiveOhTwo.Debug.Bench
import SixFiveOhTwo.Debug.Tracking

/-! # The wrappers of the sessions that track

The callables of a bench are its host's with one wrapper for each session that tracks, the newest outermost
(`chain`), and each session keeps the callables from below its own wrapper (`Stacked`). Closing the newest
session that tracks brings those back.
-/

namespace SixFiveOhTwo
open Bench
set_option autoImplicit false

variable {τ σ : Type}

/-- A host's callable within the wrappers of the sessions that track. -/
def chain (host : ℕ) : List (DebugSession τ) → Callable
  | [] => .host host
  | session :: sessions =>
    if session.tracking then .tracked session.id (chain host sessions) else chain host sessions

/-- Each session that tracks keeps the callables from below its wrapper; no two have one number. -/
def Stacked (readByte writeByte : ℕ) : List (DebugSession τ) → Prop
  | [] => True
  | session :: sessions =>
    (∀ originals, session.originals = some originals →
      originals = (chain readByte sessions, chain writeByte sessions)) ∧
    session.id ∉ sessions.map DebugSession.id ∧ Stacked readByte writeByte sessions

variable {readByte writeByte host : ℕ} {sessions : List (DebugSession τ)}

theorem tracking_of_originals {session : DebugSession τ} {originals : Callable × Callable}
    (h : session.originals = some originals) : session.tracking = true := by
  rw [DebugSession.tracking, h, Option.isSome_some]

theorem not_tracking_of_originals {session : DebugSession τ} (h : session.originals = none) :
    session.tracking = false := by
  rw [DebugSession.tracking, h, Option.isSome_none]

theorem trackingIds_cons (session : DebugSession τ) (sessions : List (DebugSession τ)) :
    trackingIds (session :: sessions) =
      if session.tracking then session.id :: trackingIds sessions else trackingIds sessions := by
  rw [trackingIds, List.filter_cons]
  split <;> rfl

theorem chain_eq_foldr (host : ℕ) (sessions : List (DebugSession τ)) :
    chain host sessions = (trackingIds sessions).foldr Callable.tracked (.host host) := by
  induction sessions with
  | nil => rfl
  | cons newest sessions ih =>
    rw [chain, trackingIds_cons]
    split
    · rw [List.foldr_cons, ih]
    · exact ih

/-! ## How often a session's wrapper is there -/

theorem count_chain_of_not_mem {id : ℕ} (h : id ∉ sessions.map DebugSession.id) :
    (chain host sessions).count id = 0 := by
  induction sessions with
  | nil => rfl
  | cons session sessions ih =>
    rw [List.map_cons, List.mem_cons, not_or] at h
    rw [chain]
    split
    · rw [Callable.count, ih h.2, if_neg (Ne.symm h.1)]
    · exact ih h.2

theorem Stacked.count (h : Stacked readByte writeByte sessions) {session : DebugSession τ} (hmem : session ∈ sessions)
    (htracking : session.tracking = true) : (chain host sessions).count session.id = 1 := by
  induction sessions with
  | nil => cases hmem
  | cons newest sessions ih =>
    obtain ⟨-, hnew, hrest⟩ := h
    rw [chain]
    rcases List.mem_cons.mp hmem with rfl | hmem
    · rw [if_pos htracking, Callable.count, count_chain_of_not_mem hnew, if_pos rfl]
    · have hne : newest.id ≠ session.id := fun he => hnew (he ▸ List.mem_map_of_mem hmem)
      split
      · rw [Callable.count, ih hrest hmem, if_neg hne]
      · exact ih hrest hmem

/-! ## Driving a session leaves the wrappers alone -/

/-- A session that has been driven: its number and what it wraps are the same. -/
structure SameWiring (session session' : DebugSession τ) : Prop where
  id : session'.id = session.id
  originals : session'.originals = session.originals

theorem SameWiring.tracking {session session' : DebugSession τ} (h : SameWiring session session') :
    session'.tracking = session.tracking := by
  rw [DebugSession.tracking, DebugSession.tracking, h.originals]

variable {place : ℕ} {session session' : DebugSession τ}

theorem trackingIds_set (hat : sessions[place]? = some session) (h : SameWiring session session') :
    trackingIds (sessions.set place session') = trackingIds sessions := by
  induction sessions generalizing place with
  | nil => rfl
  | cons newest sessions ih =>
    cases place with
    | zero =>
      obtain rfl : newest = session := Option.some.inj hat
      rw [List.set_cons_zero, trackingIds_cons, trackingIds_cons, h.tracking, h.id]
    | succ place => rw [List.set_cons_succ, trackingIds_cons, trackingIds_cons, ih hat]

theorem chain_set (hat : sessions[place]? = some session) (h : SameWiring session session') :
    chain host (sessions.set place session') = chain host sessions := by
  rw [chain_eq_foldr, chain_eq_foldr, trackingIds_set hat h]

theorem ids_set (hat : sessions[place]? = some session) (h : SameWiring session session') :
    (sessions.set place session').map DebugSession.id = sessions.map DebugSession.id := by
  induction sessions generalizing place with
  | nil => rfl
  | cons newest sessions ih =>
    cases place with
    | zero =>
      obtain rfl : newest = session := Option.some.inj hat
      rw [List.set_cons_zero, List.map_cons, List.map_cons, h.id]
    | succ place => rw [List.set_cons_succ, List.map_cons, List.map_cons, ih hat]

theorem Stacked.set (hs : Stacked readByte writeByte sessions) (hat : sessions[place]? = some session)
    (h : SameWiring session session') : Stacked readByte writeByte (sessions.set place session') := by
  induction sessions generalizing place with
  | nil => exact trivial
  | cons newest sessions ih =>
    obtain ⟨horiginals, hnew, hrest⟩ := hs
    cases place with
    | zero =>
      obtain rfl : newest = session := Option.some.inj hat
      exact ⟨h.originals ▸ horiginals, h.id ▸ hnew, hrest⟩
    | succ place =>
      have hat' : sessions[place]? = some session := hat
      refine ⟨?_, ?_, ih hrest hat'⟩
      · rw [chain_set hat' h, chain_set hat' h]
        exact horiginals
      · rw [ids_set hat' h]
        exact hnew

/-! ## Closing -/

/-- The newest session that tracks gives back the callables from below its wrapper. -/
theorem untracked_spec {originals : Callable × Callable} {sessions' : List (DebugSession τ)}
    (hs : Stacked readByte writeByte sessions) (h : untracked sessions = some (originals, sessions')) :
    Stacked readByte writeByte sessions' ∧ originals = (chain readByte sessions', chain writeByte sessions') ∧
      sessions'.map DebugSession.id = sessions.map DebugSession.id := by
  induction sessions generalizing sessions' with
  | nil => cases h
  | cons newest sessions ih =>
    obtain ⟨horiginals, hnew, hrest⟩ := hs
    rw [untracked] at h
    cases ho : newest.originals with
    | some kept =>
      simp only [ho, Option.some.injEq, Prod.mk.injEq] at h
      obtain ⟨rfl, rfl⟩ := h
      exact ⟨⟨fun _ hnone => (nomatch hnone), hnew, hrest⟩, horiginals kept ho, rfl⟩
    | none =>
      simp only [ho, Option.map_eq_some_iff, Prod.mk.injEq] at h
      obtain ⟨⟨kept, rest⟩, hrest', rfl, rfl⟩ := h
      obtain ⟨hstacked, hkept, hids⟩ := ih hrest hrest'
      have hchain : ∀ host : ℕ, chain host (newest :: rest) = chain host rest := by
        intro host
        rw [chain, if_neg (by rw [not_tracking_of_originals ho]; decide)]
      refine ⟨⟨fun kept hsome => (nomatch ho.symm.trans hsome), hids ▸ hnew, hstacked⟩, ?_, ?_⟩
      · rw [hchain, hchain]
        exact hkept
      · rw [List.map_cons, List.map_cons, hids]

theorem untracked_trackingIds {originals : Callable × Callable} {sessions' : List (DebugSession τ)}
    (h : untracked sessions = some (originals, sessions')) : trackingIds sessions' = (trackingIds sessions).tail := by
  induction sessions generalizing originals sessions' with
  | nil => cases h
  | cons newest sessions ih =>
    rw [untracked] at h
    cases ho : newest.originals with
    | some kept =>
      simp only [ho, Option.some.injEq, Prod.mk.injEq] at h
      obtain ⟨-, rfl⟩ := h
      rw [trackingIds_cons newest, if_pos (tracking_of_originals ho)]
      rfl
    | none =>
      simp only [ho, Option.map_eq_some_iff, Prod.mk.injEq] at h
      obtain ⟨⟨kept, rest⟩, hrest, -, rfl⟩ := h
      have hno : ¬newest.tracking = true := by
        rw [not_tracking_of_originals ho]
        decide
      rw [trackingIds_cons, trackingIds_cons, if_neg hno, if_neg hno]
      exact ih hrest

theorem untracked_none (h : untracked sessions = none) : trackingIds sessions = [] := by
  induction sessions with
  | nil => rfl
  | cons newest sessions ih =>
    rw [untracked] at h
    cases ho : newest.originals with
    | some kept =>
      rw [ho] at h
      cases h
    | none =>
      rw [ho, Option.map_eq_none_iff] at h
      rw [trackingIds_cons, if_neg (by rw [not_tracking_of_originals ho]; decide)]
      exact ih h

end SixFiveOhTwo
