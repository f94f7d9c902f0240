import SixFiveOhTwo.Debug.Trace

/-! # Divergence search is exact

What two records are compared by is a list of paths with two values each; what the source builds is
the part of it with unequal values, and it raises nothing. That part is empty just when the records
agree. From there, position by position: the divergences of two traces, the first of them, and the
first of two sessions in lockstep.
-/

namespace SixFiveOhTwo
set_option autoImplicit false

/-! ## What is compared -/

/-- What a path has on the two sides. -/
abbrev Observation : Type := String × TraceValue × TraceValue

/-- The entries with unequal values. -/
def differing (entries : List Observation) : List Observation := entries.filter fun entry => entry.2.1 ≠ entry.2.2

/-- A difference as an entry. -/
def TraceDifference.entry (difference : TraceDifference) : Observation :=
  (difference.path, difference.left, difference.right)

/-- Two snapshots, field by field. -/
def CPUState.compared (side : String) (left right : CPUState) : List Observation :=
  (left.fields.zip right.fields).map fun (l, r) => (side ++ "." ++ l.1, l.2, r.2)

/-- Whether there is an instruction, as a value. -/
def presence (instruction : Option Instruction) : TraceValue :=
  if instruction.isNone then .none else .str "present"

/-- Two instructions, field by field where both are there. -/
def Instruction.compared : (left right : Option Instruction) → List Observation
  | some left, some right => [
    ("instruction.address", .int left.address, .int right.address),
    ("instruction.data", .str left.hexData, .str right.hexData),
    ("instruction.mnemonic", .str left.mnemonic, .str right.mnemonic),
    ("instruction.operands", .strs left.operands, .strs right.operands)]
  | left, right => [("instruction", presence left, presence right)]

/-- Two lists of accesses, where both are there. -/
def Access.compared : (left right : Option (List Access)) → List Observation
  | some left, some right => [("accesses", .strs (left.map Access.text), .strs (right.map Access.text))]
  | _, _ => []

/-- Two records, field by field. -/
def StepRecord.compared (left right : StepRecord) : List Observation :=
  [("kind", .str left.kind.value, .str right.kind.value)] ++
    Instruction.compared left.instruction right.instruction ++
    [("cycles", .int left.cycles, .int right.cycles)] ++
    CPUState.compared "before" left.before right.before ++
    CPUState.compared "after" left.after right.after ++ Access.compared left.accesses right.accesses

/-! ## What is built -/

/-- The differences so far, with the unequal ones of these entries after them. -/
def Appends (differences : List TraceDifference) (entries : List Observation)
    (result : Except String (List TraceDifference)) : Prop :=
  ∃ longer, result = .ok longer ∧
    longer.map TraceDifference.entry = differences.map TraceDifference.entry ++ differing entries

theorem differing_append (first second : List Observation) :
    differing (first ++ second) = differing first ++ differing second :=
  List.filter_append first second

section Built
variable {differences : List TraceDifference}

theorem Appends.nil : Appends differences [] (pure differences) := ⟨differences, rfl, by simp [differing]⟩

theorem Appends.bind {first second : List Observation} {result : Except String (List TraceDifference)}
    {next : List TraceDifference → Except String (List TraceDifference)} (h : Appends differences first result)
    (hnext : ∀ longer, Appends longer second (next longer)) :
    Appends differences (first ++ second) (result >>= next) := by
  obtain ⟨longer, rfl, hlonger⟩ := h
  obtain ⟨longest, hnext, hlongest⟩ := hnext longer
  exact ⟨longest, hnext, by rw [hlongest, hlonger, differing_append, List.append_assoc]⟩

theorem append_appends {path : String} (hpath : path ≠ "") (left right : TraceValue) :
    Appends differences [(path, left, right)] (append differences path left right) := by
  by_cases hequal : left = right
  · rw [append, if_neg (not_not.mpr hequal)]
    exact ⟨differences, rfl, by simp [differing, hequal]⟩
  · rw [append, if_pos hequal, TraceDifference.make, dif_neg hpath, dif_neg hequal]
    exact ⟨_, rfl, by simp [differing, hequal, TraceDifference.entry]⟩

theorem side_ne (side name : String) : side ++ "." ++ name ≠ "" := by
  intro h
  have hlength := congrArg String.length h
  simp at hlength

theorem foldlM_appends (side : String) (pairs : List ((String × TraceValue) × String × TraceValue)) :
    Appends differences (pairs.map fun (l, r) => (side ++ "." ++ l.1, l.2, r.2))
      (pairs.foldlM (fun differences (l, r) => append differences (side ++ "." ++ l.1) l.2 r.2)
        differences) := by
  induction pairs generalizing differences with
  | nil => exact .nil
  | cons pair pairs ih => exact (append_appends (side_ne side _) _ _).bind fun _ => ih

theorem compareState_appends (side : String) (left right : CPUState) :
    Appends differences (CPUState.compared side left right) (compareState differences side left right) := by
  by_cases hequal : left = right
  · subst hequal
    rw [compareState, if_pos rfl]
    refine ⟨differences, rfl, ?_⟩
    have hnone : differing (CPUState.compared side left left) = [] := by
      simp [differing, CPUState.compared, CPUState.fields]
    rw [hnone, List.append_nil]
  · rw [compareState, if_neg hequal]
    exact foldlM_appends side _

theorem compareInstruction_appends (left right : Option Instruction) :
    Appends differences (Instruction.compared left right) (compareInstruction differences left right) := by
  cases left with
  | none => exact append_appends (by decide) _ _
  | some left =>
    cases right with
    | none => exact append_appends (by decide) _ _
    | some right =>
      exact (append_appends (by decide) _ _).bind fun _ => (append_appends (by decide) _ _).bind fun _ =>
        (append_appends (by decide) _ _).bind fun _ => append_appends (by decide) _ _

end Built

theorem compareStepRecords_appends (left right : StepRecord) :
    Appends [] (left.compared right) (compareStepRecords left right) := by
  have haccesses (differences : List TraceDifference) :
      Appends differences (Access.compared left.accesses right.accesses)
        (match left.accesses, right.accesses with
        | some left, some right =>
          append differences "accesses" (.strs (left.map Access.text)) (.strs (right.map Access.text))
        | _, _ => pure differences) := by
    cases left.accesses with
    | none => exact .nil
    | some accesses =>
      cases right.accesses with
      | none => exact .nil
      | some others => exact append_appends (by decide) _ _
  rw [StepRecord.compared]
  simp only [List.append_assoc]
  exact (append_appends (by decide) _ _).bind fun _ => (compareInstruction_appends _ _).bind fun _ =>
    (append_appends (by decide) _ _).bind fun _ => (compareState_appends _ _ _).bind fun _ =>
      (compareState_appends _ _ _).bind haccesses

/-! ## When nothing differs -/

/-- Two records that agree on everything compared: their sequence numbers aside, and their accesses
only where both have them. -/
structure StepRecord.Agree (left right : StepRecord) : Prop where
  kind : left.kind = right.kind
  cycles : left.cycles = right.cycles
  present : left.instruction.isSome = right.instruction.isSome
  instruction : ∀ i ∈ left.instruction, ∀ j ∈ right.instruction,
    i.address = j.address ∧ i.data = j.data ∧ i.mnemonic = j.mnemonic ∧ i.operands = j.operands
  before : left.before = right.before
  after : left.after = right.after
  accesses : ∀ a ∈ left.accesses, ∀ b ∈ right.accesses, a = b

theorem differing_nil_iff (entries : List Observation) :
    differing entries = [] ↔ ∀ entry ∈ entries, entry.2.1 = entry.2.2 := by
  rw [differing, List.filter_eq_nil_iff]
  simp

theorem BoundaryKind.value_injective : Function.Injective BoundaryKind.value := by
  intro a b
  cases a <;> cases b <;> decide

theorem hexData_eq_iff {i j : Instruction} : i.hexData = j.hexData ↔ i.data = j.data := by
  rw [Instruction.hexData, Instruction.hexData, String.ofList_inj, Hexadecimal.digits_injective.eq_iff]

theorem TraceValue.ofOption_inj {a b : Option Bool} : ofOption a = ofOption b ↔ a = b := by
  cases a <;> cases b <;> simp [ofOption]

theorem CPUState.compared_nil_iff (side : String) (left right : CPUState) :
    differing (CPUState.compared side left right) = [] ↔ left = right := by
  rw [differing_nil_iff]
  refine ⟨fun h => ?_, fun h => ?_⟩
  · simp only [CPUState.compared, CPUState.fields, List.zip_cons_cons, List.zip_nil_left, List.map_cons,
      List.map_nil, List.forall_mem_cons, TraceValue.int.injEq, TraceValue.bool.injEq,
      TraceValue.ofOption_inj] at h
    cases left
    cases right
    simp only [CPUState.mk.injEq]
    tauto
  · subst h
    simp [CPUState.compared, CPUState.fields]

theorem Instruction.compared_nil_iff (left right : Option Instruction) :
    differing (Instruction.compared left right) = [] ↔ left.isSome = right.isSome ∧
      ∀ i ∈ left, ∀ j ∈ right,
        i.address = j.address ∧ i.data = j.data ∧ i.mnemonic = j.mnemonic ∧ i.operands = j.operands := by
  rw [differing_nil_iff]
  cases left <;> cases right <;> simp [Instruction.compared, presence, hexData_eq_iff]

/-! ### Texts of accesses -/

theorem number_hex (width value : ℕ) : Hexadecimal.number (hex width value).toList = value := by
  rw [hex, String.toList_ofList, Hexadecimal.number_leftpad,
    Hexadecimal.number_toDigits Hexadecimal.digitValue_upper]

theorem length_hex {width value : ℕ} (hpos : 0 < width) (h : value < 16 ^ width) :
    (hex width value).toList.length = width := by
  rw [hex, String.toList_ofList]
  exact Hexadecimal.length_leftpad_toDigits _ hpos h

theorem Access.text_toList (access : Access) : ∃ kind : Char,
    (kind = 'r' ∧ access = .r access.address access.value ∨ kind = 'w' ∧ access = .w access.address access.value) ∧
      access.text.toList = kind :: ' ' :: ((hex 4 access.address).toList ++ '=' :: (hex 2 access.value).toList) := by
  cases access with
  | r address value => exact ⟨'r', .inl ⟨rfl, rfl⟩, by simp [text, Access.address, Access.value]⟩
  | w address value => exact ⟨'w', .inr ⟨rfl, rfl⟩, by simp [text, Access.address, Access.value]⟩

theorem Access.text_injective {a b : Access} (ha : a.InRange) (hb : b.InRange) (h : a.text = b.text) :
    a = b := by
  obtain ⟨kind, hkind, htext⟩ := a.text_toList
  obtain ⟨kind', hkind', htext'⟩ := b.text_toList
  have hlist := congrArg String.toList h
  rw [htext, htext', List.cons.injEq, List.cons.injEq] at hlist
  obtain ⟨rfl, -, hlist⟩ := hlist
  have hlength : (hex 4 a.address).toList.length = (hex 4 b.address).toList.length := by
    rw [length_hex (by decide) (Nat.lt_succ_of_le ha.1), length_hex (by decide) (Nat.lt_succ_of_le hb.1)]
  obtain ⟨haddress, hvalue⟩ := List.append_inj hlist hlength
  rw [List.cons.injEq] at hvalue
  have haddress' : a.address = b.address := by
    rw [← number_hex 4 a.address, haddress, number_hex]
  have hvalue' : a.value = b.value := by
    rw [← number_hex 2 a.value, hvalue.2, number_hex]
  rcases hkind with ⟨rfl, hr⟩ | ⟨rfl, hw⟩
  · rcases hkind' with ⟨-, hr'⟩ | ⟨habsurd, -⟩
    · rw [hr, hr', haddress', hvalue']
    · exact absurd habsurd (by decide)
  · rcases hkind' with ⟨habsurd, -⟩ | ⟨-, hw'⟩
    · exact absurd habsurd (by decide)
    · rw [hw, hw', haddress', hvalue']

theorem Access.map_text_injective {a b : List Access} (ha : ∀ access ∈ a, access.InRange)
    (hb : ∀ access ∈ b, access.InRange) (h : a.map text = b.map text) : a = b := by
  induction a generalizing b with
  | nil => exact (List.map_eq_nil_iff.mp h.symm).symm
  | cons first a ih =>
    cases b with
    | nil => cases h
    | cons other b =>
      rw [List.map_cons, List.map_cons, List.cons.injEq] at h
      rw [List.forall_mem_cons] at ha hb
      rw [text_injective ha.1 hb.1 h.1, ih ha.2 hb.2 h.2]

theorem Access.compared_nil_iff {left right : Option (List Access)}
    (hleft : ∀ access ∈ left.getD [], access.InRange) (hright : ∀ access ∈ right.getD [], access.InRange) :
    differing (Access.compared left right) = [] ↔ ∀ a ∈ left, ∀ b ∈ right, a = b := by
  rw [differing_nil_iff]
  cases left with
  | none => simp [Access.compared]
  | some a =>
    cases right with
    | none => simp [Access.compared]
    | some b =>
      have hiff : a.map text = b.map text ↔ a = b :=
        ⟨map_text_injective hleft hright, congrArg (List.map text)⟩
      simpa [Access.compared] using hiff

/-- Nothing compared differs just when the records agree. -/
theorem StepRecord.compared_nil_iff (left right : StepRecord) :
    differing (left.compared right) = [] ↔ left.Agree right := by
  have hkind : differing [("kind", TraceValue.str left.kind.value, .str right.kind.value)] = [] ↔
      left.kind = right.kind := by
    rw [differing_nil_iff]
    simp [BoundaryKind.value_injective.eq_iff]
  have hcycles : differing [("cycles", TraceValue.int left.cycles, .int right.cycles)] = [] ↔
      left.cycles = right.cycles := by
    rw [differing_nil_iff]
    simp
  rw [compared, differing_append, differing_append, differing_append, differing_append, differing_append]
  simp only [List.append_eq_nil_iff, hkind, hcycles, Instruction.compared_nil_iff, CPUState.compared_nil_iff,
    Access.compared_nil_iff left.accesses_valid right.accesses_valid]
  constructor
  · rintro ⟨⟨⟨⟨⟨hkind, hpresent, hinstruction⟩, hcycles⟩, hbefore⟩, hafter⟩, haccesses⟩
    exact ⟨hkind, hcycles, hpresent, hinstruction, hbefore, hafter, haccesses⟩
  · rintro ⟨hkind, hcycles, hpresent, hinstruction, hbefore, hafter, haccesses⟩
    exact ⟨⟨⟨⟨⟨hkind, hpresent, hinstruction⟩, hcycles⟩, hbefore⟩, hafter⟩, haccesses⟩

/-! ## One position -/

/-- What is observed at a position of two traces, one of which may have ended. -/
def observed : (left right : Option StepRecord) → List Observation
  | none, none => []
  | none, some _ => [("record", .none, .str "present")]
  | some _, none => [("record", .str "present", .none)]
  | some left, some right => left.compared right

/-- A divergence as its position, its records and what it says of them. -/
def TraceDivergence.evidence (found : TraceDivergence) :
    ℕ × Option StepRecord × Option StepRecord × List Observation :=
  (found.position, found.left, found.right, found.differences.map TraceDifference.entry)

/-- What a position says, where anything differs. -/
def expected (position : ℕ) (left right : Option StepRecord) :
    Option (ℕ × Option StepRecord × Option StepRecord × List Observation) :=
  if differing (observed left right) = [] then none
  else some (position, left, right, differing (observed left right))

theorem divergence_expected (position : ℕ) (left right : Option StepRecord) :
    ∃ found, divergence position (left, right) = .ok found ∧
      found.map TraceDivergence.evidence = expected position left right := by
  cases left with
  | none =>
    cases right with
    | none => exact ⟨none, rfl, rfl⟩
    | some right => exact ⟨_, rfl, rfl⟩
  | some left =>
    cases right with
    | none => exact ⟨_, rfl, rfl⟩
    | some right =>
      obtain ⟨differences, hdifferences, hentries⟩ := compareStepRecords_appends left right
      rw [List.map_nil, List.nil_append] at hentries
      have hdivergence : divergence position (some left, some right) =
          if differences = [] then pure none
          else some <$> TraceDivergence.make position (some left) (some right) differences := by
        rw [divergence, hdifferences]
        rfl
      by_cases hnone : differences = []
      · refine ⟨none, by rw [hdivergence, if_pos hnone]; rfl, ?_⟩
        rw [expected, if_pos (by rw [observed, ← hentries, hnone, List.map_nil]), Option.map_none]
      · refine ⟨some ⟨position, some left, some right, differences, hnone⟩, ?_, ?_⟩
        · rw [hdivergence, if_neg hnone, TraceDivergence.make, dif_neg hnone]
          rfl
        · rw [expected, observed, ← hentries, if_neg (by simpa using hnone)]
          rfl

theorem expected_eq_none_iff (position : ℕ) (left right : Option StepRecord) :
    expected position left right = none ↔ Option.Rel StepRecord.Agree left right := by
  have hiff : expected position left right = none ↔ differing (observed left right) = [] := by
    rw [expected]
    split <;> simp [*]
  rw [hiff]
  cases left with
  | none =>
    cases right with
    | none => exact ⟨fun _ => .none, fun _ => rfl⟩
    | some right => exact ⟨(by cases ·), (by cases ·)⟩
  | some left =>
    cases right with
    | none => exact ⟨(by cases ·), (by cases ·)⟩
    | some right =>
      rw [observed, StepRecord.compared_nil_iff]
      exact ⟨.some, fun | .some h => h⟩

/-! ## Two traces -/

/-- What the positions of two traces say. -/
def evidences (left right : List StepRecord) : List (ℕ × Option StepRecord × Option StepRecord × List Observation) :=
  (List.range (max left.length right.length)).filterMap fun position =>
    expected position left[position]? right[position]?

theorem zipLongest_eq {α β : Type} (left : List α) (right : List β) : zipLongest left right =
    (List.range (max left.length right.length)).map fun position => (left[position]?, right[position]?) := by
  induction left generalizing right with
  | nil =>
    rw [zipLongest]
    apply List.ext_getElem <;> simp
  | cons first left ih =>
    cases right with
    | nil =>
      rw [zipLongest, ih]
      simp [List.range_succ_eq_map, Function.comp_def]
    | cons second right =>
      rw [zipLongest, ih]
      simp [List.range_succ_eq_map, Nat.succ_max_succ, Function.comp_def]

theorem iterFrom_expected (position : ℕ) (pairs : List (Option StepRecord × Option StepRecord)) :
    ∃ found, iterFrom position pairs = .ok found ∧ found.map TraceDivergence.evidence =
      (pairs.zipIdx position).filterMap fun (pair, position) => expected position pair.1 pair.2 := by
  induction pairs generalizing position with
  | nil => exact ⟨[], rfl, rfl⟩
  | cons pair pairs ih =>
    obtain ⟨found, hfound, hevidence⟩ := divergence_expected position pair.1 pair.2
    obtain ⟨rest, hrest, hrests⟩ := ih (position + 1)
    refine ⟨found.toList ++ rest, ?_, ?_⟩
    · rw [iterFrom, hfound, hrest]
      rfl
    · rw [List.map_append, hrests, List.zipIdx_cons, List.filterMap_cons]
      dsimp only
      rw [← hevidence]
      cases found <;> rfl

theorem iterTraceDivergences_evidences (left right : List StepRecord) :
    ∃ found, iterTraceDivergences left right = .ok found ∧
      found.map TraceDivergence.evidence = evidences left right := by
  obtain ⟨found, hfound, hevidence⟩ := iterFrom_expected 0 (zipLongest left right)
  refine ⟨found, hfound, hevidence.trans ?_⟩
  have hindexed : (zipLongest left right).zipIdx =
      (List.range (max left.length right.length)).map fun position =>
        ((left[position]?, right[position]?), position) := by
    rw [zipLongest_eq]
    apply List.ext_getElem <;> simp
  rw [hindexed, List.filterMap_map, evidences]
  rfl

theorem TraceDifference.entry_injective : Function.Injective TraceDifference.entry := by
  rintro ⟨path, left, right, _, _⟩ ⟨path', left', right', _, _⟩ h
  cases h
  rfl

theorem TraceDivergence.evidence_injective : Function.Injective TraceDivergence.evidence := by
  rintro ⟨position, left, right, differences, _⟩ ⟨position', left', right', differences', _⟩ h
  simp only [evidence, Prod.mk.injEq] at h
  obtain ⟨rfl, rfl, rfl, hdifferences⟩ := h
  cases TraceDifference.entry_injective.list_map hdifferences
  rfl

theorem mem_evidences {left right : List StepRecord} {position : ℕ} {l r : Option StepRecord}
    {entries : List Observation} : (position, l, r, entries) ∈ evidences left right ↔
      position < max left.length right.length ∧ l = left[position]? ∧ r = right[position]? ∧
        entries = differing (observed l r) ∧ entries ≠ [] := by
  rw [evidences, List.mem_filterMap]
  simp only [List.mem_range]
  constructor
  · rintro ⟨position', hlt, hsome⟩
    rw [expected] at hsome
    split at hsome
    · cases hsome
    · rename_i hne
      cases hsome
      exact ⟨hlt, rfl, rfl, rfl, hne⟩
  · rintro ⟨hlt, rfl, rfl, rfl, hne⟩
    exact ⟨position, hlt, by rw [expected, if_neg hne]⟩

theorem mem_positions {left right : List StepRecord} {position : ℕ} :
    position ∈ (evidences left right).map Prod.fst ↔
      position < max left.length right.length ∧ ¬expected position left[position]? right[position]? = none := by
  rw [List.mem_map]
  constructor
  · rintro ⟨⟨position, l, r, entries⟩, hmem, rfl⟩
    obtain ⟨hlt, rfl, rfl, rfl, hne⟩ := mem_evidences.mp hmem
    exact ⟨hlt, by rw [expected, if_neg hne]; exact Option.some_ne_none _⟩
  · rintro ⟨hlt, hsome⟩
    obtain ⟨said, hsaid⟩ := Option.ne_none_iff_exists'.mp hsome
    refine ⟨said, List.mem_filterMap.mpr ⟨position, List.mem_range.mpr hlt, hsaid⟩, ?_⟩
    rw [expected] at hsaid
    split at hsaid <;> cases hsaid
    rfl

theorem evidences_sorted (left right : List StepRecord) :
    ((evidences left right).map Prod.fst).Pairwise (· < ·) := by
  rw [List.pairwise_map, evidences, List.pairwise_filterMap]
  refine List.pairwise_lt_range.imp fun {p q} hlt first hfirst second hsecond => ?_
  rw [expected] at hfirst hsecond
  split at hfirst <;> cases hfirst
  split at hsecond <;> cases hsecond
  exact hlt

/-! ## The other way round -/

/-- An entry with its sides exchanged. -/
def mirrored (entry : Observation) : Observation := (entry.1, entry.2.2, entry.2.1)

/-- A difference with its sides exchanged. -/
def TraceDifference.mirror (difference : TraceDifference) : TraceDifference where
  path := difference.path
  left := difference.right
  right := difference.left
  path_ne := difference.path_ne
  unequal := difference.unequal.symm

/-- A divergence with its sides exchanged. -/
def TraceDivergence.mirror (found : TraceDivergence) : TraceDivergence where
  position := found.position
  left := found.right
  right := found.left
  differences := found.differences.map TraceDifference.mirror
  differences_ne h := found.differences_ne (List.map_eq_nil_iff.mp h)

theorem differing_mirrored (entries : List Observation) :
    differing (entries.map mirrored) = (differing entries).map mirrored := by
  have hcomp : ((fun entry : Observation => decide (entry.2.1 ≠ entry.2.2)) ∘ mirrored) =
      fun entry => decide (entry.2.1 ≠ entry.2.2) := by
    funext entry
    simp [mirrored, eq_comm]
  rw [differing, differing, List.filter_map, hcomp]

theorem StepRecord.compared_mirrored (left right : StepRecord) :
    right.compared left = (left.compared right).map mirrored := by
  have hinstruction : Instruction.compared right.instruction left.instruction =
      (Instruction.compared left.instruction right.instruction).map mirrored := by
    cases left.instruction <;> cases right.instruction <;> rfl
  have haccesses : Access.compared right.accesses left.accesses =
      (Access.compared left.accesses right.accesses).map mirrored := by
    cases left.accesses <;> cases right.accesses <;> rfl
  have hstate (side : String) (left right : CPUState) : CPUState.compared side right left =
      (CPUState.compared side left right).map mirrored := rfl
  rw [compared, compared, hinstruction, haccesses, hstate "before", hstate "after"]
  simp only [List.map_append]
  rfl

theorem observed_mirrored (left right : Option StepRecord) :
    observed right left = (observed left right).map mirrored := by
  cases left with
  | none => cases right <;> rfl
  | some left =>
    cases right with
    | none => rfl
    | some right => exact StepRecord.compared_mirrored left right

theorem expected_mirrored (position : ℕ) (left right : Option StepRecord) :
    expected position right left =
      (expected position left right).map fun (p, l, r, entries) => (p, r, l, entries.map mirrored) := by
  rw [expected, expected, observed_mirrored, differing_mirrored]
  simp only [List.map_eq_nil_iff]
  split <;> rfl

/-- Exchanging the traces exchanges the sides of every divergence and of every difference. -/
theorem iterTraceDivergences_mirror (left right : List StepRecord) :
    iterTraceDivergences right left = List.map TraceDivergence.mirror <$> iterTraceDivergences left right := by
  obtain ⟨found, hfound, hevidence⟩ := iterTraceDivergences_evidences left right
  obtain ⟨other, hother, hmirrored⟩ := iterTraceDivergences_evidences right left
  have hevidences : evidences right left =
      (evidences left right).map fun (p, l, r, entries) => (p, r, l, entries.map mirrored) := by
    rw [evidences, evidences, List.map_filterMap, max_comm]
    exact List.filterMap_congr fun position _ => expected_mirrored position _ _
  have hmap : other = found.map TraceDivergence.mirror := by
    apply TraceDivergence.evidence_injective.list_map
    rw [hmirrored, hevidences, ← hevidence, List.map_map, List.map_map]
    refine List.map_congr_left fun d _ => ?_
    simp [TraceDivergence.evidence, TraceDivergence.mirror, TraceDifference.entry, TraceDifference.mirror,
      mirrored, Function.comp_def]
  rw [hfound, hother, hmap]
  rfl

/-! ## The first of two traces -/

/-- The first divergence, with positions from `position` on. -/
def firstFrom (position : ℕ) (left right : List StepRecord) : Except String (Option TraceDivergence) :=
  List.head? <$> iterFrom position (zipLongest left right)

theorem firstFrom_of_none {position : ℕ} {pair : Option StepRecord × Option StepRecord}
    {left right left' right' : List StepRecord} (hpair : zipLongest left right = pair :: zipLongest left' right')
    (h : divergence position pair = .ok none) :
    firstFrom position left right = firstFrom (position + 1) left' right' := by
  obtain ⟨rest, hrest, -⟩ := iterFrom_expected (position + 1) (zipLongest left' right')
  rw [firstFrom, firstFrom, hpair, iterFrom, h, hrest]
  rfl

theorem firstFrom_of_some {position : ℕ} {pair : Option StepRecord × Option StepRecord}
    {left right left' right' : List StepRecord} {found : TraceDivergence}
    (hpair : zipLongest left right = pair :: zipLongest left' right')
    (h : divergence position pair = .ok (some found)) : firstFrom position left right = .ok (some found) := by
  obtain ⟨rest, hrest, -⟩ := iterFrom_expected (position + 1) (zipLongest left' right')
  rw [firstFrom, hpair, iterFrom, h, hrest]
  rfl

theorem nextDivergence_lists {rounds : ℕ} (position : ℕ) {left right : List StepRecord}
    (h : max left.length right.length < rounds) :
    (nextDivergence (pullPair pullList pullList) rounds position (left, right)).1 =
      firstFrom position left right := by
  induction rounds generalizing position left right with
  | zero => cases h
  | succ rounds ih =>
    -- a pair is taken from the two lists, and the rest of them is shorter
    have hround {left' right' : List StepRecord} {pair : Option StepRecord × Option StepRecord}
        (hpull : pullPair pullList pullList (left, right) = (.ok (some pair), left', right'))
        (hzip : zipLongest left right = pair :: zipLongest left' right')
        (hlt : max left'.length right'.length < rounds) :
        (nextDivergence (pullPair pullList pullList) (rounds + 1) position (left, right)).1 =
          firstFrom position left right := by
      obtain ⟨found, hfound, -⟩ := divergence_expected position pair.1 pair.2
      rw [nextDivergence, hpull]
      dsimp only
      rw [hfound]
      cases found with
      | none => rw [firstFrom_of_none hzip hfound, ← ih (position + 1) hlt]
      | some found => rw [firstFrom_of_some hzip hfound]
    rw [max_lt_iff] at h
    cases left with
    | nil =>
      cases right with
      | nil => rfl
      | cons second right =>
        refine hround rfl rfl (max_lt_iff.mpr ⟨?_, Nat.lt_of_succ_lt_succ h.2⟩)
        exact (Nat.zero_le _).trans_lt (Nat.lt_of_succ_lt_succ h.2)
    | cons first left =>
      have hleft := Nat.lt_of_succ_lt_succ h.1
      cases right with
      | nil => exact hround rfl (by rw [zipLongest]) (max_lt_iff.mpr ⟨hleft, (Nat.zero_le _).trans_lt hleft⟩)
      | cons second right =>
        exact hround rfl (by rw [zipLongest]) (max_lt_iff.mpr ⟨hleft, Nat.lt_of_succ_lt_succ h.2⟩)

theorem firstTraceDivergence_eq (left right : List StepRecord) :
    firstTraceDivergence left right = List.head? <$> iterTraceDivergences left right :=
  nextDivergence_lists 0 (Nat.lt_succ_self _)

theorem evidences_eq_nil_iff (left right : List StepRecord) :
    evidences left right = [] ↔ List.Forall₂ StepRecord.Agree left right := by
  rw [evidences, List.filterMap_eq_nil_iff]
  simp only [List.mem_range, expected_eq_none_iff]
  constructor
  · intro h
    have hlength : left.length = right.length := by
      by_contra hne
      rcases lt_or_gt_of_ne hne with hlt | hlt
      · have hrel := h left.length (lt_max_of_lt_right hlt)
        rw [List.getElem?_eq_none le_rfl, List.getElem?_eq_getElem hlt] at hrel
        cases hrel
      · have hrel := h right.length (lt_max_of_lt_left hlt)
        rw [List.getElem?_eq_none le_rfl, List.getElem?_eq_getElem hlt] at hrel
        cases hrel
    refine List.forall₂_iff_get.mpr ⟨hlength, fun position hleft hright => ?_⟩
    have hrel := h position (lt_max_of_lt_left hleft)
    rw [List.getElem?_eq_getElem hleft, List.getElem?_eq_getElem hright] at hrel
    cases hrel
    assumption
  · intro h position _
    obtain ⟨hlength, hagree⟩ := List.forall₂_iff_get.mp h
    by_cases hlt : position < left.length
    · rw [List.getElem?_eq_getElem hlt, List.getElem?_eq_getElem (hlength ▸ hlt)]
      exact .some (hagree position hlt (hlength ▸ hlt))
    · rw [List.getElem?_eq_none (not_lt.mp hlt), List.getElem?_eq_none (hlength ▸ not_lt.mp hlt)]
      exact .none

theorem firstTraceDivergence_none_iff (left right : List StepRecord) :
    firstTraceDivergence left right = .ok none ↔ List.Forall₂ StepRecord.Agree left right := by
  obtain ⟨found, hfound, hevidence⟩ := iterTraceDivergences_evidences left right
  rw [firstTraceDivergence_eq, hfound, ← evidences_eq_nil_iff, ← hevidence, List.map_eq_nil_iff]
  cases found with
  | nil => exact ⟨fun _ => rfl, fun _ => rfl⟩
  | cons first found => exact ⟨(by cases ·), (by cases ·)⟩

/-! ## The first of two sessions -/

section Sessions
variable {τ σ : Type} (T : Target τ) (U : Target σ)

/-- Both sessions have made as many steps, and these are their records. -/
structure Alongside (left : Live τ) (right : Live σ) (lefts rights : List StepRecord) (left' : Live τ)
    (right' : Live σ) : Prop where
  left : DebugSession.Steps T left.1 left.2 lefts left'.1 left'.2
  right : DebugSession.Steps U right.1 right.2 rights right'.1 right'.2
  length : lefts.length = rights.length

/-- What comes of two sessions within a budget: their steps first differ at the last one they made, they
made all of them and none differed, or none differed and then a step of one raised. -/
inductive Lockstep (left : Live τ) (right : Live σ) (budget position : ℕ) :
    Except String (Option TraceDivergence) × Live τ × Live σ → Prop
  | diverged {lefts rights : List StepRecord} {left' : Live τ} {right' : Live σ} {found : TraceDivergence}
      (halong : Alongside T U left right lefts rights left' right')
      (hfirst : firstFrom position lefts rights = .ok (some found))
      (hlast : position + lefts.length = found.position + 1) (hwithin : lefts.length ≤ budget) :
      Lockstep left right budget position (.ok (some found), left', right')
  | agreed {lefts rights : List StepRecord} {left' : Live τ} {right' : Live σ}
      (halong : Alongside T U left right lefts rights left' right')
      (hfirst : firstFrom position lefts rights = .ok none) (hall : lefts.length = budget) :
      Lockstep left right budget position (.ok none, left', right')
  | leftRaised {lefts rights : List StepRecord} {left' left'' : Live τ} {right' : Live σ} {text : String}
      (halong : Alongside T U left right lefts rights left' right')
      (hfirst : firstFrom position lefts rights = .ok none) (hwithin : lefts.length < budget)
      (hraised : left'.1.step T left'.2 = (.error text, left'')) :
      Lockstep left right budget position (.error text, left'', right')
  | rightRaised {lefts rights : List StepRecord} {left' left'' : Live τ} {right' right'' : Live σ}
      {record : StepRecord} {text : String} (halong : Alongside T U left right lefts rights left' right')
      (hfirst : firstFrom position lefts rights = .ok none) (hwithin : lefts.length < budget)
      (hstep : left'.1.step T left'.2 = (.ok record, left''))
      (hraised : right'.1.step U right'.2 = (.error text, right'')) :
      Lockstep left right budget position (.error text, left'', right'')

variable {T U}

theorem Alongside.done (left : Live τ) (right : Live σ) : Alongside T U left right [] [] left right :=
  ⟨.done _ _, .done _ _, rfl⟩

theorem Alongside.step {left left' left'' : Live τ} {right right' right'' : Live σ} {l r : StepRecord}
    {lefts rights : List StepRecord} (hleft : left.1.step T left.2 = (.ok l, left'))
    (hright : right.1.step U right.2 = (.ok r, right'))
    (h : Alongside T U left' right' lefts rights left'' right'') :
    Alongside T U left right (l :: lefts) (r :: rights) left'' right'' :=
  ⟨.step hleft h.left, .step hright h.right, congrArg (· + 1) h.length⟩

theorem Lockstep.round {left left' : Live τ} {right right' : Live σ} {l r : StepRecord} {budget position : ℕ}
    {result : Except String (Option TraceDivergence) × Live τ × Live σ}
    (hleft : left.1.step T left.2 = (.ok l, left')) (hright : right.1.step U right.2 = (.ok r, right'))
    (hnone : divergence position (some l, some r) = .ok none)
    (h : Lockstep T U left' right' budget (position + 1) result) :
    Lockstep T U left right (budget + 1) position result := by
  have hfirst (lefts rights : List StepRecord) :
      firstFrom position (l :: lefts) (r :: rights) = firstFrom (position + 1) lefts rights :=
    firstFrom_of_none (by rw [zipLongest]) hnone
  cases h with
  | diverged halong hfound hlast hwithin =>
    exact .diverged (halong.step hleft hright) (by rw [hfirst, hfound])
      (by rw [← hlast, List.length_cons]; omega) (Nat.succ_le_succ hwithin)
  | agreed halong hagreed hall =>
    exact .agreed (halong.step hleft hright) (by rw [hfirst, hagreed]) (congrArg (· + 1) hall)
  | leftRaised halong hagreed hwithin hraised =>
    exact .leftRaised (halong.step hleft hright) (by rw [hfirst, hagreed]) (Nat.succ_lt_succ hwithin) hraised
  | rightRaised halong hagreed hwithin hstep hraised =>
    exact .rightRaised (halong.step hleft hright) (by rw [hfirst, hagreed]) (Nat.succ_lt_succ hwithin) hstep
      hraised

theorem divergence_position {position : ℕ} {pair : Option StepRecord × Option StepRecord}
    {found : TraceDivergence} (h : divergence position pair = .ok (some found)) : found.position = position := by
  obtain ⟨found', hfound, hevidence⟩ := divergence_expected position pair.1 pair.2
  obtain rfl : some found = found' := Except.ok.inj (h.symm.trans hfound)
  rw [expected] at hevidence
  split at hevidence
  · cases hevidence
  · exact congrArg Prod.fst (Option.some.inj hevidence)

theorem nextDivergence_sessions (budget position : ℕ) (left : Live τ) (right : Live σ) :
    ∃ found m left' n right', nextDivergence (pullPair (iterSessionSteps T) (iterSessionSteps U)) (budget + 1)
        position ((budget, left), budget, right) = (found, (m, left'), n, right') ∧
      Lockstep T U left right budget position (found, left', right') := by
  induction budget generalizing position left right with
  | zero =>
    exact ⟨_, _, _, _, _, rfl, .agreed (.done left right) rfl rfl⟩
  | succ budget ih =>
    rw [nextDivergence, pullPair, iterSessionSteps]
    rcases hleft : left.1.step T left.2 with ⟨first | l, left'⟩
    · exact ⟨_, _, _, _, _, rfl, .leftRaised (.done left right) rfl (Nat.succ_pos _) hleft⟩
    · rw [iterSessionSteps]
      rcases hright : right.1.step U right.2 with ⟨second | r, right'⟩
      · exact ⟨_, _, _, _, _, rfl, .rightRaised (.done left right) rfl (Nat.succ_pos _) hleft hright⟩
      · obtain ⟨found, hfound, -⟩ := divergence_expected position (some l) (some r)
        simp only [Option.isNone_some, Bool.false_eq_true, false_and, if_false]
        rw [hfound]
        cases found with
        | none =>
          obtain ⟨found, m, left'', n, right'', hnext, h⟩ := ih (position + 1) left' right'
          exact ⟨found, m, left'', n, right'', hnext, h.round hleft hright hfound⟩
        | some found =>
          refine ⟨_, _, _, _, _, rfl, .diverged ((Alongside.done left' right').step hleft hright) ?_ ?_ ?_⟩
          · exact firstFrom_of_some (show zipLongest [l] [r] = _ :: zipLongest [] [] from rfl) hfound
          · rw [divergence_position hfound]
            rfl
          · exact Nat.succ_le_succ (Nat.zero_le _)

end Sessions

theorem firstSessionDivergence_lockstep {τ σ : Type} (T : Target τ) (U : Target σ) {maxSteps : ℤ}
    (hpos : 0 < maxSteps) (left : Live τ) (right : Live σ) :
    Lockstep T U left right maxSteps.toNat 0 (firstSessionDivergence T U maxSteps left right) := by
  obtain ⟨found, m, left', n, right', hnext, h⟩ :=
    nextDivergence_sessions maxSteps.toNat 0 left right (T := T) (U := U)
  rw [firstSessionDivergence, if_neg (not_le.mpr hpos)]
  dsimp only
  rw [hnext]
  exact h

/-! ## The search -/

/-- `iter_trace_divergences` yields in order the positions at which a side is missing or the records
disagree, each with its differences, and raises nothing; `first_trace_divergence` gives the first of them,
and exchanging the traces mirrors them. Two sessions make the same number of steps, up to the first at
which they differ or to the end of the budget, unless one of them raises. -/
theorem divergence_search (left right : List StepRecord) {τ σ : Type} (T : Target τ) (U : Target σ) (a : Live τ)
    (b : Live σ) (maxSteps : ℤ) :
    (∃ found, iterTraceDivergences left right = .ok found ∧
      (found.map TraceDivergence.position).Pairwise (· < ·) ∧
      (∀ position, position ∈ found.map TraceDivergence.position ↔ position < max left.length right.length ∧
        ¬Option.Rel StepRecord.Agree left[position]? right[position]?) ∧
      (∀ divergence ∈ found, divergence.left = left[divergence.position]? ∧
        divergence.right = right[divergence.position]? ∧
        divergence.differences.map TraceDifference.entry = differing (observed divergence.left divergence.right)) ∧
      firstTraceDivergence left right = .ok found.head? ∧
      (firstTraceDivergence left right = .ok none ↔ List.Forall₂ StepRecord.Agree left right) ∧
      iterTraceDivergences right left = .ok (found.map TraceDivergence.mirror)) ∧
    (maxSteps ≤ 0 ∧ firstSessionDivergence T U maxSteps a b =
        (.error "max_steps must be a positive integer", a, b) ∨
      0 < maxSteps ∧ Lockstep T U a b maxSteps.toNat 0 (firstSessionDivergence T U maxSteps a b)) := by
  constructor
  · obtain ⟨found, hfound, hevidence⟩ := iterTraceDivergences_evidences left right
    have hmem (divergence : TraceDivergence) (h : divergence ∈ found) :=
      mem_evidences.mp (hevidence ▸ List.mem_map_of_mem h)
    have hpositions : found.map TraceDivergence.position = (evidences left right).map Prod.fst := by
      rw [← hevidence, List.map_map]
      rfl
    refine ⟨found, hfound, hpositions ▸ evidences_sorted left right, fun position => ?_, fun divergence h => ?_,
      by rw [firstTraceDivergence_eq, hfound]; rfl, firstTraceDivergence_none_iff left right,
      by rw [iterTraceDivergences_mirror, hfound]; rfl⟩
    · rw [hpositions, mem_positions, expected_eq_none_iff]
    · obtain ⟨-, hleft, hright, hdifferences, -⟩ := hmem divergence h
      exact ⟨hleft, hright, hdifferences⟩
  · rcases le_or_gt maxSteps 0 with hle | hpos
    · exact .inl ⟨hle, by rw [firstSessionDivergence, if_pos hle]⟩
    · exact .inr ⟨hpos, firstSessionDivergence_lockstep T U hpos a b⟩

end SixFiveOhTwo
