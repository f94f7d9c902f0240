import SixFiveOhTwo.Traces.RoundTrip

/-! # A trace that is cut short

Reading goes on line by line, so what is read of the first lines of a trace does not depend on the rest.

* `read_trace_exactly`: what is read of any text, and the line that ends it.
* `read_trace_cut`: a trace whose writing stopped anywhere is read up to the line it stopped in.
-/

namespace SixFiveOhTwo
open Json
set_option autoImplicit false

/-! ## Line after line -/

section
variable (repr : Value → Except Raised String) (loads : List Char → Except Raised Value)

/-- What a line is read as, if it is not blank. -/
def readLine (line : List Char) : Option (Except Raised StepRecord) :=
  if line.all isSpace then none else some (loads line >>= stepRecordFromDict repr)

theorem readLines_cons (lineNumber : ℕ) (line : List Char) (rest : List (List Char)) :
    readLines repr loads lineNumber (line :: rest) =
      match readLine repr loads line with
      | none => readLines repr loads (lineNumber + 1) rest
      | some (.error raised) => ([], some (atLine lineNumber raised))
      | some (.ok record) => (record :: (readLines repr loads (lineNumber + 1) rest).1,
          (readLines repr loads (lineNumber + 1) rest).2) := by
  rw [readLines, readLine]
  split
  · rfl
  · cases loads line >>= stepRecordFromDict repr <;> rfl

/-- The lines up to one that raises nothing are read first, and the rest after them. -/
theorem readLines_append (lineNumber : ℕ) (first rest : List (List Char)) :
    readLines repr loads lineNumber (first ++ rest) =
      match readLines repr loads lineNumber first with
      | (records, some raised) => (records, some raised)
      | (records, none) => (records ++ (readLines repr loads (lineNumber + first.length) rest).1,
          (readLines repr loads (lineNumber + first.length) rest).2) := by
  induction first generalizing lineNumber with
  | nil => rfl
  | cons line first ih =>
    rw [List.cons_append, readLines_cons, readLines_cons, ih, List.length_cons,
      show lineNumber + (first.length + 1) = lineNumber + 1 + first.length by omega]
    cases readLine repr loads line with
    | none => rfl
    | some read =>
      cases read with
      | error raised => rfl
      | ok record =>
        dsimp only
        rcases readLines repr loads (lineNumber + 1) first with ⟨records, _ | raised⟩ <;> rfl

theorem readLines_none_iff (lineNumber : ℕ) (text : List (List Char)) (records : List StepRecord) :
    readLines repr loads lineNumber text = (records, none) ↔
      text.filterMap (readLine repr loads) = records.map .ok := by
  induction text generalizing lineNumber records with
  | nil => simp [readLines, eq_comm]
  | cons line text ih =>
    rw [readLines_cons, List.filterMap_cons]
    cases readLine repr loads line with
    | none => exact ih (lineNumber + 1) records
    | some read =>
      dsimp only
      cases read with
      | error raised => cases records <;> simp
      | ok record =>
        cases records with
        | nil => simp
        | cons record' records =>
          have hrest := ih (lineNumber + 1) records
          rw [Prod.ext_iff] at hrest ⊢
          dsimp only at hrest ⊢
          rw [List.map_cons, List.cons.injEq, List.cons.injEq, Except.ok.injEq, ← hrest, and_assoc]

theorem readLines_some_iff (lineNumber : ℕ) (text : List (List Char)) (records : List StepRecord) (raised : Raised) :
    readLines repr loads lineNumber text = (records, some raised) ↔
      ∃ before line after why, text = before ++ line :: after ∧
        before.filterMap (readLine repr loads) = records.map .ok ∧ readLine repr loads line = some (.error why) ∧
        raised = atLine (lineNumber + before.length) why := by
  constructor
  · intro h
    induction text generalizing lineNumber records with
    | nil => cases h
    | cons line text ih =>
      rw [readLines_cons] at h
      cases hline : readLine repr loads line with
      | none =>
        rw [hline] at h
        obtain ⟨before, bad, after, why, rfl, hbefore, hbad, hraised⟩ := ih (lineNumber + 1) records h
        refine ⟨line :: before, bad, after, why, rfl, ?_, hbad, ?_⟩
        · rw [List.filterMap_cons, hline]
          exact hbefore
        · rw [hraised, List.length_cons, Nat.add_right_comm, Nat.add_assoc]
      | some read =>
        rw [hline] at h
        cases read with
        | error why =>
          cases h
          exact ⟨[], line, text, why, rfl, rfl, hline, rfl⟩
        | ok record =>
          obtain ⟨rfl, hraised⟩ := Prod.mk.inj h
          obtain ⟨before, bad, after, why, rfl, hbefore, hbad, hraised⟩ := ih (lineNumber + 1) _ (Prod.ext rfl hraised)
          refine ⟨line :: before, bad, after, why, rfl, ?_, hbad, ?_⟩
          · rw [List.filterMap_cons, hline, List.map_cons, ← hbefore]
          · rw [hraised, List.length_cons, Nat.add_right_comm, Nat.add_assoc]
  · rintro ⟨before, line, after, why, rfl, hbefore, hline, rfl⟩
    rw [readLines_append, (readLines_none_iff repr loads lineNumber before records).mpr hbefore]
    dsimp only
    rw [readLines_cons, hline]
    simp

/-- Lines end with their only newline, the last one perhaps without; together they are the text. -/
theorem lines_spec (text : List Char) :
    (lines text).flatten = text ∧ (∀ line ∈ lines text, line ≠ [] ∧ '\n' ∉ line.dropLast) ∧
      ∀ line ∈ (lines text).dropLast, line.getLast? = some '\n' := by
  induction text with
  | nil => simp [lines]
  | cons c text ih =>
    obtain ⟨hflatten, hline, hends⟩ := ih
    rw [lines]
    by_cases hc : c = '\n'
    · rw [if_pos hc, hc]
      refine ⟨by rw [List.flatten_cons, hflatten]; rfl, List.forall_mem_cons.mpr ⟨by simp, hline⟩, ?_⟩
      cases hlines : lines text with
      | nil => simp
      | cons first rest =>
        rw [hlines] at hends
        rw [List.dropLast_cons_of_ne_nil (List.cons_ne_nil _ _), List.forall_mem_cons]
        exact ⟨rfl, hends⟩
    · rw [if_neg hc]
      cases hlines : lines text with
      | nil =>
        rw [hlines] at hflatten
        rw [← hflatten]
        simp
      | cons first rest =>
        rw [hlines] at hflatten hline hends
        obtain ⟨⟨hne, hnewline⟩, hrest⟩ := List.forall_mem_cons.mp hline
        dsimp only
        refine ⟨by rw [← hflatten]; rfl, List.forall_mem_cons.mpr ⟨⟨List.cons_ne_nil _ _, ?_⟩, hrest⟩, ?_⟩
        · rw [List.dropLast_cons_of_ne_nil hne, List.mem_cons, not_or]
          exact ⟨Ne.symm hc, hnewline⟩
        · cases rest with
          | nil => simp
          | cons second rest =>
            rw [List.dropLast_cons_of_ne_nil (List.cons_ne_nil _ _), List.forall_mem_cons] at hends ⊢
            refine ⟨?_, hends.2⟩
            rw [List.getLast?_cons, hends.1]
            rfl

/-- **What is read of a text.** A text is read to its end if all its lines that are not blank are read, and then as
their records; else as the records of those before the first that is not, with what that line raised under its
number, which counts the blank lines too. -/
theorem read_trace_exactly (text : List Char) (records : List StepRecord) :
    (readTrace repr loads text = (records, none) ↔
      (lines text).filterMap (readLine repr loads) = records.map .ok) ∧
    (∀ raised, readTrace repr loads text = (records, some raised) ↔
      ∃ before line after why, lines text = before ++ line :: after ∧
        before.filterMap (readLine repr loads) = records.map .ok ∧ readLine repr loads line = some (.error why) ∧
        raised = atLine (before.length + 1) why) ∧
    (lines text).flatten = text ∧ (∀ line ∈ lines text, line ≠ [] ∧ '\n' ∉ line.dropLast) ∧
      ∀ line ∈ (lines text).dropLast, line.getLast? = some '\n' := by
  refine ⟨readLines_none_iff repr loads 1 (lines text) records, fun raised => ?_, lines_spec text⟩
  have hsome := readLines_some_iff repr loads 1 (lines text) records raised
  simp only [Nat.add_comm 1] at hsome
  exact hsome

end

/-! ## Traces cut short -/

/-- How a record's JSON is written and read: on one line that does not start blank, which is read with or without its
newline, and of which no part but the whole is JSON. -/
structure Serializes (dumps : Value → List Char) (loads : List Char → Except Raised Value) (record : StepRecord) :
    Prop where
  line : '\n' ∉ dumps (stepRecordToDict record)
  opens : ∃ c rest, dumps (stepRecordToDict record) = c :: rest ∧ isSpace c = false
  whole : ∀ ending ∈ [[], ['\n']], ∃ value, loads (dumps (stepRecordToDict record) ++ ending) = .ok value ∧
    Same value (stepRecordToDict record)
  part : ∀ part, part <+: dumps (stepRecordToDict record) → part ≠ [] → part ≠ dumps (stepRecordToDict record) →
    ∃ text, loads part = .error (.valueError text)

/-- The first `n` elements of lists that are each ended by a last one. -/
theorem take_flatMap_concat {α β : Type} (f : α → List β) (last : β) (xs : List α) (n : ℕ) :
    ∃ k part, (xs.flatMap fun x => f x ++ [last]).take n = ((xs.take k).flatMap fun x => f x ++ [last]) ++ part ∧
      (part = [] ∨ ∃ x, xs[k]? = some x ∧ part ≠ [] ∧ part <+: f x) := by
  induction xs generalizing n with
  | nil => exact ⟨0, [], by simp, .inl rfl⟩
  | cons x xs ih =>
    rw [List.flatMap_cons]
    by_cases hn : n ≤ (f x).length
    · have htake : (f x ++ [last] ++ xs.flatMap fun x => f x ++ [last]).take n = (f x).take n := by
        rw [List.append_assoc, List.take_append_of_le_length hn]
      refine ⟨0, (f x).take n, by rw [htake]; rfl, ?_⟩
      by_cases hpart : (f x).take n = []
      · exact .inl hpart
      · exact .inr ⟨x, rfl, hpart, List.take_prefix n (f x)⟩
    · obtain ⟨k, part, htake, hpart⟩ := ih (n - (f x ++ [last]).length)
      have hlength : (f x ++ [last]).length ≤ n := by
        rw [List.length_append, List.length_singleton]
        omega
      refine ⟨k + 1, part, ?_, hpart⟩
      rw [List.take_append, List.take_of_length_le hlength, htake, List.take_succ_cons, List.flatMap_cons]
      simp only [List.append_assoc]

theorem lines_single {part : List Char} (hne : part ≠ []) (hline : '\n' ∉ part) : lines part = [part] := by
  induction part with
  | nil => exact absurd rfl hne
  | cons c part ih =>
    rw [List.mem_cons, not_or] at hline
    rw [lines, if_neg (Ne.symm hline.1)]
    cases part with
    | nil => rfl
    | cons c' part => rw [ih (List.cons_ne_nil _ _) hline.2]

section
variable {dumps : Value → List Char} {loads : List Char → Except Raised Value}

theorem lines_written (records : List StepRecord) (h : ∀ record ∈ records, '\n' ∉ dumps (stepRecordToDict record))
    (rest : List Char) :
    lines ((records.flatMap fun record => dumps (stepRecordToDict record) ++ ['\n']) ++ rest) =
      records.map (fun record => dumps (stepRecordToDict record) ++ ['\n']) ++ lines rest := by
  induction records with
  | nil => rfl
  | cons record records ih =>
    obtain ⟨hrecord, hrecords⟩ := List.forall_mem_cons.mp h
    rw [List.flatMap_cons, List.append_assoc, lines_append hrecord, ih hrecords]
    rfl

variable (repr : Value → Except Raised String)

theorem Serializes.not_blank {record : StepRecord} (h : Serializes dumps loads record) {part : List Char} (hne : part ≠ [])
    (hbegins : part <+: dumps (stepRecordToDict record)) (ending : List Char) : (part ++ ending).all isSpace = false := by
  obtain ⟨c, rest, hdumps, hopens⟩ := h.opens
  rw [hdumps] at hbegins
  cases part with
  | nil => exact absurd rfl hne
  | cons c' part =>
    obtain ⟨rfl, -⟩ := List.cons_prefix_cons.mp hbegins
    rw [List.cons_append, List.all_cons, hopens, Bool.false_and]

theorem Serializes.ne_nil {record : StepRecord} (h : Serializes dumps loads record) :
    dumps (stepRecordToDict record) ≠ [] := by
  obtain ⟨c, rest, hdumps, -⟩ := h.opens
  rw [hdumps]
  exact List.cons_ne_nil _ _

/-- The whole of a record's JSON is read as the record, with or without its newline. -/
theorem Serializes.readLine_whole {record : StepRecord} (h : Serializes dumps loads record) (hfaithful : record.Faithful)
    {ending : List Char} (hending : ending ∈ [[], ['\n']]) :
    readLine repr loads (dumps (stepRecordToDict record) ++ ending) = some (.ok record) := by
  obtain ⟨value, hloads, hsame⟩ := h.whole ending hending
  rw [readLine, h.not_blank h.ne_nil (List.prefix_refl _) ending, if_neg Bool.false_ne_true, hloads]
  exact congrArg some (stepRecordFromDict_same repr hfaithful hsame)

theorem Serializes.readLine_part {record : StepRecord} (h : Serializes dumps loads record) {part : List Char}
    (hne : part ≠ []) (hbegins : part <+: dumps (stepRecordToDict record)) (hpart : part ≠ dumps (stepRecordToDict record)) :
    ∃ text, readLine repr loads part = some (.error (.valueError text)) := by
  obtain ⟨text, hloads⟩ := h.part part hbegins hne hpart
  have hblank := h.not_blank hne hbegins []
  rw [List.append_nil] at hblank
  refine ⟨text, ?_⟩
  rw [readLine, hblank, if_neg Bool.false_ne_true, hloads]
  rfl

/-- The lines of whole records are read first, and what is left of the text after them. -/
theorem readTrace_written {records : List StepRecord} (hfaithful : ∀ record ∈ records, record.Faithful)
    (h : ∀ record ∈ records, Serializes dumps loads record) (rest : List Char) :
    readTrace repr loads ((writeTrace dumps records).1 ++ rest) =
      (records ++ (readLines repr loads (records.length + 1) (lines rest)).1,
        (readLines repr loads (records.length + 1) (lines rest)).2) := by
  have hread : readLines repr loads 1 (records.map fun record => dumps (stepRecordToDict record) ++ ['\n']) =
      (records, none) := by
    rw [readLines_none_iff, List.filterMap_map]
    clear rest
    induction records with
    | nil => rfl
    | cons record records ih =>
      obtain ⟨hrecord, hrecords⟩ := List.forall_mem_cons.mp h
      obtain ⟨hrecordFaithful, hrecordsFaithful⟩ := List.forall_mem_cons.mp hfaithful
      have hline := hrecord.readLine_whole repr hrecordFaithful (List.mem_cons_of_mem _ (List.mem_singleton_self _))
      rw [List.filterMap_cons, Function.comp_apply, hline, List.map_cons, ← ih hrecordsFaithful hrecords]
  rw [writeTrace_eq, readTrace]
  dsimp only
  rw [lines_written records (fun record hmem => (h record hmem).line), readLines_append, hread]
  dsimp only
  rw [List.length_map, Nat.add_comm 1]

/-- **A trace cut short.** A trace of which only some first characters have been written is read as the records whose
lines are there, the last one perhaps without its newline; if it ends within a line, then with a `ValueError` that
names this line. -/
theorem read_trace_cut (dumps : Value → List Char) (loads : List Char → Except Raised Value) (records : List StepRecord)
    (hfaithful : ∀ record ∈ records, record.Faithful) (h : ∀ record ∈ records, Serializes dumps loads record) (n : ℕ) :
    ∃ k part, (writeTrace dumps records).1.take n = (writeTrace dumps (records.take k)).1 ++ part ∧
      (part = [] ∧ readTrace repr loads ((writeTrace dumps records).1.take n) = (records.take k, none) ∨
        ∃ record, records[k]? = some record ∧ part <+: dumps (stepRecordToDict record) ∧
          (part = dumps (stepRecordToDict record) ∧
              readTrace repr loads ((writeTrace dumps records).1.take n) = (records.take (k + 1), none) ∨
            part ≠ [] ∧ part ≠ dumps (stepRecordToDict record) ∧ ∃ text,
              readTrace repr loads ((writeTrace dumps records).1.take n) = (records.take k,
                some (.valueError ("invalid trace record at line " ++ toString (k + 1) ++ ": " ++ text))))) := by
  obtain ⟨k, part, htake, hpart⟩ := take_flatMap_concat (fun record => dumps (stepRecordToDict record)) '\n' records n
  have hcut : (writeTrace dumps records).1.take n = (writeTrace dumps (records.take k)).1 ++ part := by
    rw [writeTrace_eq, writeTrace_eq]
    exact htake
  have hread := readTrace_written repr (fun record hmem => hfaithful record (List.mem_of_mem_take hmem))
    (fun record hmem => h record (List.mem_of_mem_take (i := k) hmem)) part
  refine ⟨k, part, hcut, ?_⟩
  rw [hcut, hread]
  rcases hpart with rfl | ⟨record, hat, hne, hbegins⟩
  · refine .inl ⟨rfl, ?_⟩
    rw [lines, readLines, List.append_nil]
  · have hmem := List.mem_of_getElem? hat
    have hserializes := h record hmem
    have hlength : (records.take k).length = k := List.length_take_of_le (List.getElem?_eq_some_iff.mp hat).1.le
    have hline : '\n' ∉ part := fun hnewline => hserializes.line (hbegins.subset hnewline)
    rw [lines_single hne hline, readLines_cons]
    refine .inr ⟨record, hat, hbegins, ?_⟩
    by_cases hwhole : part = dumps (stepRecordToDict record)
    · refine .inl ⟨hwhole, ?_⟩
      have hlast := hserializes.readLine_whole repr (hfaithful record hmem) (List.mem_cons_self (a := []))
      rw [List.append_nil, ← hwhole] at hlast
      rw [hlast, readLines, List.take_add_one, hat]
      rfl
    · obtain ⟨text, htext⟩ := hserializes.readLine_part repr hne hbegins hwhole
      refine .inr ⟨hne, hwhole, text, ?_⟩
      rw [htext]
      dsimp only
      rw [List.append_nil, atLine, hlength]

end

section
set_option maxRecDepth 10000

/-- No part of a line of the two but the whole is read. -/
theorem loadsWrapping_part {line part : List Char} (h : line ∈ [jumpedLine, calledLine]) (hbegins : part <+: line)
    (hpart : part ≠ line) : loadsWrapping part = .error (.valueError "Expecting value") := by
  have hapart : ¬jumpedLine <+: calledLine ∧ ¬calledLine <+: jumpedLine := by decide +kernel
  simp only [List.mem_cons, List.not_mem_nil, or_false] at h
  have hnewline : '\n' ∉ line := by
    rcases h with rfl | rfl
    · exact line_wrapping.1
    · exact line_wrapping.2
  have hwhole (other : List Char) (hother : other = jumpedLine ∨ other = calledLine) (hin : other <+: line) :
      other = line := by
    rcases h with rfl | rfl
    · exact hother.resolve_right fun heq => hapart.2 (heq ▸ hin)
    · exact hother.resolve_left fun heq => hapart.1 (heq ▸ hin)
  have hno (other : List Char) (hother : other = jumpedLine ∨ other = calledLine) :
      ¬(part = other ∨ part = other ++ ['\n']) := by
    rintro (rfl | rfl)
    · exact hpart (hwhole part hother hbegins)
    · exact hnewline (hbegins.subset (List.mem_append_right _ (List.mem_singleton_self _)))
  rw [loadsWrapping, if_neg (hno _ (.inl rfl)), if_neg (hno _ (.inr rfl))]

theorem serializes_wrapping (record : StepRecord) (h : record ∈ [jumped, called]) :
    Serializes dumpsWrapping loadsWrapping record where
  line := (json_wrapping record h).1
  opens := by
    rcases List.mem_cons.mp h with rfl | h
    · have hhead : '\x7b' ∈ jumpedLine.head? := by decide +kernel
      exact ⟨'\x7b', jumpedLine.tail, (List.cons_head?_tail hhead).symm, by decide⟩
    · have hhead : '\x7b' ∈ calledLine.head? := by decide +kernel
      rw [List.mem_singleton.mp h]
      exact ⟨'\x7b', calledLine.tail, (List.cons_head?_tail hhead).symm, by decide⟩
  whole := by
    intro ending hending
    rcases List.mem_cons.mp h with rfl | h
    · exact ⟨_, loadsWrapping_jumped hending, .refl _⟩
    · rw [List.mem_singleton.mp h]
      exact ⟨_, loadsWrapping_called hending, .refl _⟩
  part := by
    intro part hbegins _ hpart
    refine ⟨"Expecting value", ?_⟩
    rcases List.mem_cons.mp h with rfl | h
    · rw [dumpsWrapping_jumped] at hbegins hpart
      exact loadsWrapping_part (by simp) hbegins hpart
    · rw [List.mem_singleton.mp h, dumpsWrapping_called] at hbegins hpart
      exact loadsWrapping_part (by simp) hbegins hpart

end

/-- The trace of the two steps, without its last twelve characters. -/
theorem read_trace_cut_wrapping :
    let n := (writeTrace dumpsWrapping [jumped, called]).1.length - 12
    ∃ k part, (writeTrace dumpsWrapping [jumped, called]).1.take n =
        (writeTrace dumpsWrapping ([jumped, called].take k)).1 ++ part ∧
      (part = [] ∧ readTrace (fun _ => .ok "") loadsWrapping ((writeTrace dumpsWrapping [jumped, called]).1.take n) =
          ([jumped, called].take k, none) ∨
        ∃ record, [jumped, called][k]? = some record ∧ part <+: dumpsWrapping (stepRecordToDict record) ∧
          (part = dumpsWrapping (stepRecordToDict record) ∧
              readTrace (fun _ => .ok "") loadsWrapping ((writeTrace dumpsWrapping [jumped, called]).1.take n) =
                ([jumped, called].take (k + 1), none) ∨
            part ≠ [] ∧ part ≠ dumpsWrapping (stepRecordToDict record) ∧ ∃ text,
              readTrace (fun _ => .ok "") loadsWrapping ((writeTrace dumpsWrapping [jumped, called]).1.take n) =
                ([jumped, called].take k,
                  some (.valueError ("invalid trace record at line " ++ toString (k + 1) ++ ": " ++ text))))) := by
  intro n
  refine read_trace_cut (fun _ => .ok "") dumpsWrapping loadsWrapping [jumped, called] (fun record hrecord => ?_)
    serializes_wrapping n
  intro instruction h
  obtain ⟨address, haddress, hinstruction⟩ := decoded_wrapping record hrecord
  rw [hinstruction, Option.some.injEq] at h
  exact h ▸ (derived_of_disassemble (disassemble_eq wrapping haddress)).faithful

end SixFiveOhTwo
