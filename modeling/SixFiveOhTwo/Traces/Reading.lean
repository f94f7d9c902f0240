import SixFiveOhTwo.Traces.Schema

/-! # What the readers of a record return

For each reader which results it returns for a value, as a relation of the two, and that it raises only
`ValueError`, but for what `repr` raises of a string or of a list of strings.

* `StateOf`, `InstructionOf`: a value is a state, an instruction, by what it has under each key.
* `stateFromDict_exactly`, `instructionFromDict_exactly`: their readers return that one.
-/

namespace SixFiveOhTwo
open Json
set_option autoImplicit false

variable {Other : Raised → Prop}

/-! ## States -/

/-- An object is a state: it has the state's fields, and no others. -/
def StateOf (value : Value) (state : CPUState) : Prop :=
  ∃ entries, value = .obj entries ∧ keys entries = stateFields.toFinset ∧
    ∀ field ∈ state.fields, get field.1 entries = some field.2.json

theorem stateOf_dict (state : CPUState) : StateOf (stateToDict state) state := by
  refine ⟨_, rfl, ?_, ?_⟩
  · rw [keys, List.map_map]
    rfl
  · simp only [CPUState.fields, List.forall_mem_cons]
    exact ⟨rfl, rfl, rfl, rfl, rfl, rfl, rfl, rfl, rfl, rfl, rfl, rfl, rfl, rfl, List.forall_mem_nil _⟩

theorem requireInt_exactly (name : String) (value : Value) (maximum : ℕ) :
    Exactly Other (requireInt name value maximum) fun n => value = .int n.val := by
  unfold requireInt
  cases value with
  | int n =>
    simp only
    split
    case isTrue h =>
      refine (Exactly.pure _).congr fun m => ?_
      rw [Subtype.ext_iff, Value.int.injEq]
      change n.toNat = m.val ↔ _
      omega
    case isFalse h =>
      refine Exactly.raise fun m hm => h ?_
      have hle := m.property
      rw [Value.int.injEq] at hm
      omega
  | _ => exact Exactly.raise fun _ => nofun

theorem requireBool_exactly (name : String) (value : Value) :
    Exactly Other (requireBool name value) fun b => value = .bool b := by
  cases value with
  | bool b => exact (Exactly.pure b).congr fun _ => by rw [Value.bool.injEq]
  | _ => exact Exactly.raise fun _ => nofun

theorem requireOptional_exactly (name : String) (value : Value) :
    Exactly Other (requireOptional name value) fun b => value = (TraceValue.ofOption b).json := by
  cases value with
  | null => exact (Exactly.pure none).congr fun b => by cases b <;> simp [TraceValue.ofOption, TraceValue.json]
  | bool b =>
    exact (Exactly.pure (some b)).congr fun b' => by cases b' <;> simp [TraceValue.ofOption, TraceValue.json]
  | _ => exact Exactly.raise fun b => by cases b <;> nofun

theorem argument_eq {entries : List (String × Value)} {name : String} (h : name ∈ keys entries) (default value : Value) :
    (get name entries).getD default = value ↔ get name entries = some value := by
  obtain ⟨given, hgiven⟩ := exists_get h
  rw [hgiven, Option.getD_some, Option.some.injEq]

theorem construct_exactly {entries : List (String × Value)} (h : keys entries = stateFields.toFinset) :
    Exactly Other (CPUState.construct entries) fun state => ∀ field ∈ state.fields, get field.1 entries = some field.2.json := by
  have hknown : (entries.find? fun field => field.1 ∉ stateFields) = none := by
    refine List.find?_eq_none.mpr fun field hfield => ?_
    have hkey : field.1 ∈ keys entries := List.mem_toFinset.mpr (List.mem_map_of_mem hfield)
    rw [h, List.mem_toFinset] at hkey
    simpa using hkey
  rw [CPUState.construct, hknown]
  simp only
  refine ((requireInt_exactly _ _ _).bind fun a _ => (requireInt_exactly _ _ _).bind fun x _ =>
    (requireInt_exactly _ _ _).bind fun y _ => (requireInt_exactly _ _ _).bind fun s _ =>
    (requireInt_exactly _ _ _).bind fun p _ => (requireInt_exactly _ _ _).bind fun pc _ =>
    (requireBool_exactly _ _).bind fun halted _ => (requireBool_exactly _ _).bind fun reset _ =>
    (requireBool_exactly _ _).bind fun maskable _ => (requireBool_exactly _ _).bind fun nonMaskable _ =>
    (requireBool_exactly _ _).bind fun skipped _ => (requireOptional_exactly _ _).bind fun polledI _ =>
    (requireOptional_exactly _ _).bind fun polledMaskable _ =>
    (requireOptional_exactly _ _).bind fun polledNonMaskable _ => .dite fun _ => .pure _).congr fun state => ?_
  have hargument : ∀ name ∈ stateFields, ∀ default value,
      (get name entries).getD default = value ↔ get name entries = some value := by
    intro name hname default value
    refine argument_eq ?_ default value
    rw [h, List.mem_toFinset]
    exact hname
  simp (disch := decide) only [hargument]
  constructor
  · rintro ⟨a, ha, x, hx, y, hy, s, hs, p, hp, pc, hpc, halted, hhalted, reset, hreset, maskable, hmaskable,
      nonMaskable, hnonMaskable, skipped, hskipped, polledI, hpolledI, polledMaskable, hpolledMaskable,
      polledNonMaskable, hpolledNonMaskable, _, rfl⟩
    simp only [CPUState.fields, List.forall_mem_cons]
    exact ⟨ha, hx, hy, hs, hpc, hp, hhalted, hreset, hmaskable, hnonMaskable, hpolledI, hpolledMaskable,
      hpolledNonMaskable, hskipped, List.forall_mem_nil _⟩
  · intro hfields
    simp only [CPUState.fields, List.forall_mem_cons] at hfields
    obtain ⟨ha, hx, hy, hs, hpc, hp, hhalted, hreset, hmaskable, hnonMaskable, hpolledI, hpolledMaskable,
      hpolledNonMaskable, hskipped, -⟩ := hfields
    exact ⟨⟨_, state.a_le⟩, ha, ⟨_, state.x_le⟩, hx, ⟨_, state.y_le⟩, hy, ⟨_, state.s_le⟩, hs, ⟨_, state.p_le⟩, hp,
      ⟨_, state.pc_le⟩, hpc, _, hhalted, _, hreset, _, hmaskable, _, hnonMaskable, _, hskipped, _, hpolledI, _,
      hpolledMaskable, _, hpolledNonMaskable, state.p_bits, rfl⟩

/-- `repr` of a string, and of a list of strings, raises nothing but a `ValueError` or what is in `Other`. -/
structure ShowsTexts (Other : Raised → Prop) (repr : Value → Except Raised String) : Prop where
  str : ∀ text, Raises Other (repr (.str text))
  strs : ∀ texts : List String, Raises Other (repr (.arr (texts.map .str)))

theorem raises_any {α : Type} (x : Except Raised α) : Raises (fun _ => True) x := fun _ _ => .inr trivial

theorem raises_ok {α : Type} {x : Except Raised α} (h : ∃ a, x = .ok a) : Raises Other x := by
  obtain ⟨a, rfl⟩ := h
  nofun

theorem showsTexts_any (repr : Value → Except Raised String) : ShowsTexts (fun _ => True) repr :=
  ⟨fun _ => raises_any _, fun _ => raises_any _⟩

variable {repr : Value → Except Raised String}

theorem requireObject_exactly (value : Value) (name : String) :
    Exactly Other (requireObject value name) fun entries => value = .obj entries := by
  cases value with
  | obj entries => exact (Exactly.pure entries).congr fun _ => by rw [Value.obj.injEq]
  | _ => exact Exactly.raise fun _ => nofun

theorem raiseShowing_exactly {α : Type} {R : α → Prop} {value : Value} (hrepr : Raises Other (repr value))
    (before after : String) (h : ∀ a, ¬R a) : Exactly Other (raiseShowing repr before value after : Except Raised α) R :=
  .showing hrepr (fun _ => .raise h) h

theorem namesShown_raises (hrepr : ShowsTexts Other repr) (label : String) (names : List String) :
    Raises Other (namesShown repr label names) := by
  unfold namesShown
  split
  case isTrue => nofun
  case isFalse =>
    intro raised hraised
    refine hrepr.strs names raised ?_
    cases hshown : repr (.arr (names.map .str)) with
    | error why =>
      rw [hshown] at hraised
      cases hraised
      rfl
    | ok shown =>
      rw [hshown] at hraised
      cases hraised

theorem requireKeys_exactly (hrepr : ShowsTexts Other repr) (entries : List (String × Value)) (name : String)
    (expected : Finset String) : Exactly Other (requireKeys repr entries name expected) fun _ => keys entries = expected := by
  unfold requireKeys
  extract_lets actual
  split
  case isTrue h => exact (Exactly.pure ()).congr fun _ => iff_of_true rfl h
  case isFalse h =>
    exact .showing (namesShown_raises hrepr _ _) (fun _ => .showing (namesShown_raises hrepr _ _)
      (fun _ => .raise fun _ => h) fun _ => h) fun _ => h

theorem stateFromDict_exactly (hrepr : ShowsTexts Other repr) (value : Value) (name : String) :
    Exactly Other (stateFromDict repr value name) (StateOf value) := by
  refine ((requireObject_exactly value name).bind fun entries _ => (requireKeys_exactly hrepr entries name _).bind
    (T := fun _ (state : CPUState) => ∀ field ∈ state.fields, get field.1 entries = some field.2.json)
    fun _ hkeys => ?_).congr fun state => ?_
  · have hstate : Exactly (fun _ => False) (CPUState.construct entries) _ := construct_exactly hkeys
    cases hc : CPUState.construct entries with
    | ok state =>
      rw [hc] at hstate
      exact ⟨hstate.returns, nofun⟩
    | error raised =>
      obtain ⟨text, rfl⟩ := (hstate.raises raised hc).resolve_right id
      refine Exactly.raise fun state hfields => ?_
      rw [← hstate.returns, hc] at hfields
      cases hfields
  · exact ⟨fun ⟨entries, hobj, _, hkeys, hfields⟩ => ⟨entries, hobj, hkeys, hfields⟩,
      fun ⟨entries, hobj, hkeys, hfields⟩ => ⟨entries, hobj, (), hkeys, hfields⟩⟩

/-! ## Accesses -/

/-- An item of `accesses`, and the values it has. -/
def accessItem (access : Value × Value × Value) : Value := .arr [access.1, access.2.1, access.2.2]

theorem accessItem_injective : Function.Injective accessItem := fun a b h => by
  simp only [accessItem, Value.arr.injEq, List.cons.injEq] at h
  exact Prod.ext h.1 (Prod.ext h.2.1 h.2.2.1)

/-- What `_accesses_from_list` lets through: its first value is a string. -/
def Kinded (access : Value × Value × Value) : Prop := ∃ kind, access.1 = .str kind

theorem isAccessEntry_eq (value : Value) :
    (∃ access, Kinded access ∧ value = accessItem access ∧ isAccessEntry value = .ok true) ∨
      isAccessEntry value = .ok false ∧ ∀ access, Kinded access → value ≠ accessItem access := by
  cases value with
  | arr fields =>
    match fields with
    | [.str kind, address, data] => exact .inl ⟨(.str kind, address, data), ⟨kind, rfl⟩, rfl, rfl⟩
    | [.null, _, _] | [.bool _, _, _] | [.int _, _, _] | [.float _, _, _] | [.arr _, _, _] | [.obj _, _, _] =>
      refine .inr ⟨rfl, fun access ⟨kind, hkind⟩ h => ?_⟩
      rw [accessItem, hkind] at h
      cases h
    | [] | [_] | [_, _] => exact .inr ⟨rfl, fun access _ => nofun⟩
    | _ :: _ :: _ :: _ :: rest =>
      refine .inr ⟨?_, fun access _ => nofun⟩
      rw [isAccessEntry, if_neg (by simp)]
  | _ => exact .inr ⟨rfl, fun access _ => nofun⟩

theorem accessesFromList_exactly (value : Value) :
    Exactly Other (accessesFromList value) fun accesses =>
      value = .arr (accesses.map accessItem) ∧ ∀ access ∈ accesses, Kinded access := by
  cases value with
  | arr items =>
    have hitems : (∃ accesses, (∀ access ∈ accesses, Kinded access) ∧ items = accesses.map accessItem ∧
        items.allM isAccessEntry = .ok true ∧ items.mapM unpackAccess = .ok accesses) ∨
        items.allM isAccessEntry = .ok false ∧
          ∀ accesses : List (Value × Value × Value), (∀ access ∈ accesses, Kinded access) →
            items ≠ accesses.map accessItem := by
      induction items with
      | nil => exact .inl ⟨[], List.forall_mem_nil _, rfl, rfl, rfl⟩
      | cons item items ih =>
        rcases isAccessEntry_eq item with ⟨access, hkinded, rfl, hentry⟩ | ⟨hentry, hnone⟩
        · rcases ih with ⟨accesses, hall, rfl, hallM, hmapM⟩ | ⟨hallM, hnone⟩
          · refine .inl ⟨access :: accesses, List.forall_mem_cons.mpr ⟨hkinded, hall⟩, rfl, ?_, ?_⟩
            · rw [List.allM, hentry]
              exact hallM
            · rw [List.mapM_cons, hmapM]
              rfl
          · refine .inr ⟨?_, fun accesses hall h => ?_⟩
            · rw [List.allM, hentry]
              exact hallM
            · cases accesses with
              | nil => cases h
              | cons _ accesses =>
                exact hnone accesses (List.forall_mem_cons.mp hall).2 (List.tail_eq_of_cons_eq h)
        · refine .inr ⟨?_, fun accesses hall h => ?_⟩
          · rw [List.allM, hentry]
            rfl
          · cases accesses with
            | nil => cases h
            | cons access accesses =>
              exact hnone access (List.forall_mem_cons.mp hall).1 (List.head_eq_of_cons_eq h)
    rw [accessesFromList]
    rcases hitems with ⟨accesses, hall, rfl, hallM, hmapM⟩ | ⟨hallM, hnone⟩
    · rw [hallM]
      change Exactly Other (List.mapM unpackAccess _) _
      rw [hmapM]
      refine (Exactly.pure accesses).congr fun accesses' => ?_
      rw [Value.arr.injEq, (List.map_injective_iff.mpr accessItem_injective).eq_iff]
      exact ⟨fun h => ⟨h, h ▸ hall⟩, And.left⟩
    · rw [hallM]
      refine Exactly.raise fun accesses ⟨h, hall⟩ => ?_
      exact hnone accesses hall (Value.arr.inj h)
  | _ => exact Exactly.raise fun _ => nofun

/-- The kind of an access. -/
def letter (write : Bool) : String := if write then "w" else "r"

theorem accessKind_str (kind : String) :
    (∃ write, kind = letter write ∧ accessKind (.str kind) = .ok (some write)) ∨
      (∀ write, kind ≠ letter write) ∧ accessKind (.str kind) = .ok none := by
  by_cases hr : kind = "r"
  · exact .inl ⟨false, hr, by rw [accessKind, if_pos hr]⟩
  · by_cases hw : kind = "w"
    · exact .inl ⟨true, hw, by rw [accessKind, if_neg hr, if_pos hw]⟩
    · exact .inr ⟨Bool.forall_bool.mpr ⟨hr, hw⟩, by rw [accessKind, if_neg hr, if_neg hw]⟩

theorem json_ofInts (write : Bool) (address value : ℤ) (h : (0 ≤ address ∧ address ≤ 0xFFFF) ∧ 0 ≤ value ∧ value ≤ 0xFF) :
    (ValidAccess.ofInts write address value h).val.json = accessItem (.str (letter write), .int address, .int value) := by
  have haddress : ((address.toNat : ℕ) : ℤ) = address := Int.toNat_of_nonneg h.1.1
  have hvalue : ((value.toNat : ℕ) : ℤ) = value := Int.toNat_of_nonneg h.2.1
  cases write <;> simp [ValidAccess.ofInts, Access.json, accessItem, letter, haddress, hvalue]

theorem ValidAccess.exists_ofInts (access : ValidAccess) :
    ∃ write address value h, access = ofInts write address value h := by
  obtain ⟨access, haddress, hvalue⟩ := access
  have hin : (0 ≤ (access.address : ℤ) ∧ (access.address : ℤ) ≤ 0xFFFF) ∧
      0 ≤ (access.value : ℤ) ∧ (access.value : ℤ) ≤ 0xFF := by omega
  cases access with
  | r address value => exact ⟨false, address, value, hin, rfl⟩
  | w address value => exact ⟨true, address, value, hin, rfl⟩

theorem ValidAccess.json_injective : Function.Injective fun access : ValidAccess => access.val.json := by
  intro a b h
  obtain ⟨write, address, value, hin, rfl⟩ := a.exists_ofInts
  obtain ⟨write', address', value', hin', rfl⟩ := b.exists_ofInts
  simp only [json_ofInts, accessItem_injective.eq_iff, Prod.mk.injEq, Value.str.injEq, Value.int.injEq] at h
  obtain ⟨hletter, rfl, rfl⟩ := h
  cases write <;> cases write' <;> first | rfl | exact absurd hletter (by decide)

/-- `valid_access` finds the access, and none where there is none. -/
theorem validAccess_eq {access : Value × Value × Value} (h : Kinded access) :
    (∃ valid : ValidAccess, validAccess access = .ok (some valid) ∧ accessItem access = valid.val.json) ∨
      validAccess access = .ok none ∧ ∀ valid : ValidAccess, accessItem access ≠ valid.val.json := by
  obtain ⟨_, address, value⟩ := access
  obtain ⟨kind, rfl⟩ := h
  have hnone (hbad : ∀ write a v, (0 ≤ a ∧ a ≤ 0xFFFF) ∧ 0 ≤ v ∧ v ≤ 0xFF →
      ¬(kind = letter write ∧ address = .int a ∧ value = .int v)) (valid : ValidAccess) :
      accessItem (.str kind, address, value) ≠ valid.val.json := by
    obtain ⟨write, a, v, hin, rfl⟩ := valid.exists_ofInts
    rw [json_ofInts, accessItem_injective.ne_iff]
    intro heq
    simp only [Prod.mk.injEq, Value.str.injEq] at heq
    exact hbad write a v hin heq
  rcases accessKind_str kind with ⟨write, rfl, hkind⟩ | ⟨hkind, hread⟩
  · match address, value with
    | .int a, .int v =>
      by_cases hin : (0 ≤ a ∧ a ≤ 0xFFFF) ∧ 0 ≤ v ∧ v ≤ 0xFF
      · refine .inl ⟨.ofInts write a v hin, ?_, (json_ofInts write a v hin).symm⟩
        rw [validAccess, hkind]
        exact dif_pos hin
      · refine .inr ⟨?_, hnone fun write' a' v' hin' ⟨_, ha, hv⟩ => hin ?_⟩
        · rw [validAccess, hkind]
          exact dif_neg hin
        · cases ha
          cases hv
          exact hin'
    | .null, _ | .bool _, _ | .float _, _ | .str _, _ | .arr _, _ | .obj _, _ =>
      refine .inr ⟨?_, hnone fun write' a' v' _ ⟨_, ha, _⟩ => by cases ha⟩
      rw [validAccess, hkind]
      rfl
    | .int _, .null | .int _, .bool _ | .int _, .float _ | .int _, .str _ | .int _, .arr _ | .int _, .obj _ =>
      refine .inr ⟨?_, hnone fun write' a' v' _ ⟨_, _, hv⟩ => by cases hv⟩
      rw [validAccess, hkind]
      rfl
  · refine .inr ⟨?_, hnone fun write a v _ ⟨hwrite, _⟩ => hkind write hwrite⟩
    rw [validAccess, hread]
    rfl

/-- `all(...)` of `valid_access` finds the accesses, and none where one of them is none. -/
theorem validAccesses_eq : ∀ {accesses : List (Value × Value × Value)}, (∀ access ∈ accesses, Kinded access) →
    (∃ valid : List ValidAccess, validAccesses accesses = .ok (some valid) ∧
      accesses.map accessItem = valid.map fun access => access.val.json) ∨
    validAccesses accesses = .ok none ∧
      ∀ valid : List ValidAccess, accesses.map accessItem ≠ valid.map fun access => access.val.json
  | [], _ => .inl ⟨[], rfl, rfl⟩
  | access :: rest, h => by
    obtain ⟨haccess, hrest⟩ := List.forall_mem_cons.mp h
    rw [validAccesses]
    rcases validAccess_eq haccess with ⟨valid, hvalid, hitem⟩ | ⟨hvalid, hnone⟩
    · rw [hvalid]
      rcases validAccesses_eq hrest with ⟨valids, hvalids, hitems⟩ | ⟨hvalids, hnone⟩
      · refine .inl ⟨valid :: valids, ?_, ?_⟩
        · change (validAccesses rest >>= _) = _
          rw [hvalids]
          rfl
        · rw [List.map_cons, List.map_cons, hitem, hitems]
      · refine .inr ⟨?_, fun valids heq => ?_⟩
        · change (validAccesses rest >>= _) = _
          rw [hvalids]
          rfl
        · cases valids with
          | nil => cases heq
          | cons _ valids => exact hnone valids (List.tail_eq_of_cons_eq heq)
    · refine .inr ⟨?_, fun valids heq => ?_⟩
      · rw [hvalid]
        rfl
      · cases valids with
        | nil => cases heq
        | cons valid _ => exact hnone valid (List.head_eq_of_cons_eq heq)

/-- The accesses of a record, as JSON. -/
def accessesJson (accesses : List Access) : List Value := accesses.map Access.json

theorem accessesJson_map (valid : List ValidAccess) :
    accessesJson (valid.map Subtype.val) = valid.map fun access => access.val.json := List.map_map

theorem exists_valid {accesses : List Access} (h : ∀ access ∈ accesses, access.InRange) :
    ∃ valid : List ValidAccess, accesses = valid.map Subtype.val := by
  lift accesses to List ValidAccess using h
  exact ⟨accesses, rfl⟩

theorem recordConstruct_exactly {sequence cycles : ℤ} (kind : BoundaryKind) (before after : CPUState)
    (instruction : Option Instruction) {accesses : Option (List (Value × Value × Value))} (hsequence : 0 ≤ sequence)
    (hcycles : 1 ≤ cycles) (haccesses : ∀ access ∈ accesses.getD [], Kinded access) :
    Exactly Other (StepRecord.construct sequence kind before after cycles instruction accesses) fun record =>
      record.sequence = sequence ∧ record.kind = kind ∧ record.before = before ∧ record.after = after ∧
        record.cycles = cycles ∧ record.instruction = instruction ∧
        accesses.map (List.map accessItem) = record.accesses.map accessesJson := by
  rw [StepRecord.construct, if_neg (Int.not_lt.mpr hsequence), dif_neg (Int.not_le.mpr hcycles)]
  split
  case isTrue h =>
    refine Exactly.raise fun record hrecord => h.2 ?_
    obtain ⟨-, rfl, -, -, -, rfl, -⟩ := hrecord
    exact record.lifecycle h.1
  case isFalse h =>
    cases accesses with
    | none =>
      refine (Exactly.pure _).congr fun record => ⟨?_, ?_⟩
      · rintro rfl
        exact ⟨Int.toNat_of_nonneg hsequence, rfl, rfl, rfl, Int.toNat_of_nonneg (by omega), rfl, rfl⟩
      · obtain ⟨sequence', kind', before', after', cycles', instruction', accesses'⟩ := record
        rintro ⟨rfl, rfl, rfl, rfl, rfl, rfl, hmap⟩
        cases accesses' with
        | none => simp
        | some accesses' => cases hmap
    | some accesses =>
      change ∀ access ∈ accesses, Kinded access at haccesses
      rcases validAccesses_eq haccesses with ⟨valid, hvalid, hitems⟩ | ⟨hvalid, hnone⟩
      · simp only [hvalid]
        refine (Exactly.pure _).congr fun record => ⟨?_, ?_⟩
        · rintro rfl
          refine ⟨Int.toNat_of_nonneg hsequence, rfl, rfl, rfl, Int.toNat_of_nonneg (by omega), rfl, ?_⟩
          rw [Option.map_some, hitems, ← accessesJson_map]
          rfl
        · obtain ⟨sequence', kind', before', after', cycles', instruction', accesses', _, _, hrange⟩ := record
          rintro ⟨rfl, rfl, rfl, rfl, rfl, rfl, hmap⟩
          cases accesses' with
          | none => cases hmap
          | some accesses' =>
            obtain ⟨valid', rfl⟩ := exists_valid hrange
            rw [Option.map_some, Option.map_some, hitems, accessesJson_map, Option.some.injEq,
              (List.map_injective_iff.mpr ValidAccess.json_injective).eq_iff] at hmap
            simp [hmap]
      · simp only [hvalid]
        refine Exactly.raise fun record hrecord => ?_
        obtain ⟨-, -, -, -, -, -, hmap⟩ := hrecord
        cases haccesses' : record.accesses with
        | none =>
          rw [haccesses'] at hmap
          cases hmap
        | some accesses' =>
          obtain ⟨valid, rfl⟩ := exists_valid fun access haccess => record.accesses_valid access (haccesses' ▸ haccess)
          rw [haccesses', Option.map_some, Option.map_some, accessesJson_map, Option.some.injEq] at hmap
          exact hnone valid hmap

/-! ## Instructions -/

/-- What an instruction's bytes and its place give. -/
def Instruction.Derived (instruction : Instruction) : Prop :=
  disassembleBytes instruction.data instruction.address = .ok instruction

/-- An instruction with another text. -/
def Instruction.retext (instruction : Instruction) (mnemonic : String) (operands : List String) (h : mnemonic ≠ "") :
    Instruction := { instruction with mnemonic, operands, mnemonic_ne := h }

/-- The entries of an object have the place and the bytes of an instruction. -/
def PlacedAt (entries : List (String × Value)) (instruction : Instruction) : Prop :=
  (∃ data, get "data" entries = some (.str data) ∧ Hexadecimal.fromHex data.toList = some instruction.data) ∧
    get "address" entries = some (.int instruction.address)

/-- An object is an instruction: with the text its bytes give, or with a text of its own. -/
def InstructionOf (value : Value) (instruction : Instruction) : Prop :=
  ∃ entries derived, value = .obj entries ∧ PlacedAt entries derived ∧ derived.Derived ∧
    (keys entries = instructionRequired ∧ instruction = derived ∨
      keys entries = instructionRequired ∪ instructionText ∧ get "mnemonic" entries = some (.str instruction.mnemonic) ∧
        get "operands" entries = some (.arr (instruction.operands.map .str)) ∧
        instruction = derived.retext instruction.mnemonic instruction.operands instruction.mnemonic_ne)

theorem item_eq {entries : List (String × Value)} {key : String} (h : key ∈ keys entries) :
    ∃ value, get key entries = some value ∧ item entries key = .ok value := by
  obtain ⟨value, hvalue⟩ := exists_get h
  exact ⟨value, hvalue, by rw [item, hvalue]⟩

theorem derivedFromDict_exactly (hrepr : ShowsTexts Other repr) {entries : List (String × Value)}
    (hdata : "data" ∈ keys entries) (haddress : "address" ∈ keys entries) :
    Exactly Other (derivedFromDict repr entries) fun derived => PlacedAt entries derived ∧ derived.Derived := by
  obtain ⟨data, hgetData, hitemData⟩ := item_eq hdata
  obtain ⟨address, hgetAddress, hitemAddress⟩ := item_eq haddress
  -- only a string of bytes and an integer in range can be those of an instruction
  have hplaced (instruction : Instruction) : PlacedAt entries instruction ∧ instruction.Derived ↔
      (∃ text, data = .str text ∧ Hexadecimal.fromHex text.toList = some instruction.data) ∧
        address = .int instruction.address ∧ instruction.Derived := by
    rw [PlacedAt, hgetData, hgetAddress, and_assoc]
    simp only [Option.some.injEq]
  refine Exactly.congr (R := fun instruction => (∃ text, data = .str text ∧
    Hexadecimal.fromHex text.toList = some instruction.data) ∧ address = .int instruction.address ∧
      instruction.Derived) ?_ fun instruction => (hplaced instruction).symm
  unfold derivedFromDict
  simp only [hitemData, hitemAddress, bind, Except.bind]
  match data with
  | .null | .bool _ | .int _ | .float _ | .arr _ | .obj _ => exact .raise fun _ ⟨⟨_, h, _⟩, _⟩ => by cases h
  | .str data =>
    cases hhex : Hexadecimal.fromHex data.toList with
    | none =>
      simp only [hhex]
      refine .raise fun instruction ⟨⟨text, htext, hbytes⟩, _⟩ => ?_
      cases htext
      rw [hhex] at hbytes
      cases hbytes
    | some bytes =>
      simp only [hhex]
      match address with
      | .null | .bool _ | .str _ | .float _ | .arr _ | .obj _ => exact .raise fun _ ⟨_, h, _⟩ => by cases h
      | .int address =>
        simp only
        split
        case isTrue hout =>
          refine .raise fun instruction ⟨_, haddress, _⟩ => hout ?_
          have hle := instruction.address_le
          rw [Value.int.injEq] at haddress
          omega
        case isFalse hin =>
          rw [not_not] at hin
          lift address to ℕ using hin.1
          have hle : address ≤ 0xFFFF := Int.ofNat_le.mp hin.2
          rw [Int.toNat_natCast]
          have hsame {instruction : Instruction} (h : (∃ text, Value.str data = .str text ∧
              Hexadecimal.fromHex text.toList = some instruction.data) ∧
              Value.int address = .int instruction.address ∧ instruction.Derived) :
              disassembleBytes bytes address = .ok instruction ∧ instruction.data = bytes := by
            obtain ⟨⟨text, htext, hbytes⟩, haddress, hderived⟩ := h
            cases htext
            rw [hhex, Option.some.injEq] at hbytes
            rw [Value.int.injEq, Int.ofNat_inj] at haddress
            rw [hbytes, haddress]
            exact ⟨hderived, rfl⟩
          cases hdis : disassembleBytes bytes address with
          | error text =>
            simp only
            refine .raise fun instruction h => ?_
            rw [(hsame h).1] at hdis
            cases hdis
          | ok derived =>
            simp only
            split
            case isTrue hne =>
              refine raiseShowing_exactly (hrepr.str data) _ _ fun instruction h => hne ?_
              obtain ⟨hok, hbytes⟩ := hsame h
              rw [hdis, Except.ok.injEq] at hok
              rw [hok, hbytes]
            case isFalse heq =>
              rw [not_not] at heq
              refine (Exactly.pure derived).congr fun instruction => ⟨?_, fun h => ?_⟩
              · rintro rfl
                obtain ⟨opcode, rest, _, _, hof⟩ := (disassembleBytes_whole hle).mp ⟨hdis, heq⟩
                have haddress : derived.address = address := by rw [hof]; rfl
                refine ⟨⟨data, rfl, by rw [hhex, heq]⟩, by rw [haddress], ?_⟩
                rw [Instruction.Derived, heq, haddress, hdis]
              · have hok := (hsame h).1
                rw [hdis, Except.ok.injEq] at hok
                exact hok

theorem replaceText_ok {derived instruction : Instruction} {mnemonic : Value} {operands : List String} :
    derived.replaceText mnemonic operands = .ok instruction ↔ mnemonic = .str instruction.mnemonic ∧
      instruction.operands = operands ∧
      instruction = derived.retext instruction.mnemonic instruction.operands instruction.mnemonic_ne := by
  cases mnemonic with
  | str mnemonic =>
    rw [Instruction.replaceText, Instruction.make, dif_pos derived.address_le, dif_neg derived.data_ne]
    constructor
    · intro h
      split at h
      case isTrue => cases h
      case isFalse =>
        cases h
        exact ⟨rfl, rfl, rfl⟩
    · rintro ⟨hmnemonic, hoperands, hinstruction⟩
      rw [Value.str.injEq] at hmnemonic
      subst hmnemonic hoperands
      rw [dif_neg instruction.mnemonic_ne]
      exact congrArg Except.ok hinstruction.symm
  | _ =>
    constructor
    · intro h
      cases h
    · rintro ⟨h, -⟩
      cases h

theorem strings_eq_some : ∀ {items : List Value} {texts : List String},
    strings? items = some texts ↔ items = texts.map .str
  | [], texts => by cases texts <;> simp [strings?]
  | .str value :: rest, texts => by
    cases texts with
    | nil => simp [strings?]
    | cons text texts => simp [strings?, strings_eq_some, and_comm]
  | .null :: _, texts | .bool _ :: _, texts | .int _ :: _, texts | .float _ :: _, texts | .arr _ :: _, texts
  | .obj _ :: _, texts => by cases texts <;> simp [strings?]

theorem textFromDict_exactly {entries : List (String × Value)} (derived : Instruction)
    (hmnemonic : "mnemonic" ∈ keys entries) (hoperands : "operands" ∈ keys entries) :
    Exactly Other (textFromDict entries derived) fun instruction =>
      get "mnemonic" entries = some (.str instruction.mnemonic) ∧
        get "operands" entries = some (.arr (instruction.operands.map .str)) ∧
        instruction = derived.retext instruction.mnemonic instruction.operands instruction.mnemonic_ne := by
  obtain ⟨mnemonic, hgetMnemonic, hitemMnemonic⟩ := item_eq hmnemonic
  obtain ⟨operands, hgetOperands, hitemOperands⟩ := item_eq hoperands
  rw [hgetMnemonic, hgetOperands]
  simp only [textFromDict, hitemMnemonic, hitemOperands, bind, Except.bind, Option.some.injEq]
  match operands with
  | .null | .bool _ | .int _ | .float _ | .str _ | .obj _ => exact .raise fun _ ⟨_, h, _⟩ => by cases h
  | .arr items =>
    cases htexts : strings? items with
    | none =>
      simp only [htexts]
      refine .raise fun instruction ⟨_, h, _⟩ => ?_
      rw [Value.arr.injEq] at h
      rw [strings_eq_some.mpr h] at htexts
      cases htexts
    | some texts =>
      simp only [htexts]
      cases hreplace : derived.replaceText mnemonic texts with
      | error text =>
        simp only
        refine .raise fun instruction ⟨h, hitems, hretext⟩ => ?_
        rw [Value.arr.injEq, ← strings_eq_some, htexts, Option.some.injEq] at hitems
        rw [replaceText_ok.mpr ⟨h, hitems.symm, hretext⟩] at hreplace
        cases hreplace
      | ok replaced =>
        refine (Exactly.pure replaced).congr fun instruction => ?_
        rw [← Except.ok.injEq, ← hreplace, replaceText_ok, Value.arr.injEq, ← strings_eq_some, htexts,
          Option.some.injEq, @eq_comm _ texts]

/-- A value is an instruction, or `null` for none. -/
def OptionalInstructionOf (value : Value) : Option Instruction → Prop
  | none => value = .null
  | some instruction => InstructionOf value instruction

theorem instructionFromDict_exactly (hrepr : ShowsTexts Other repr) (value : Value) :
    Exactly Other (instructionFromDict repr value) (OptionalInstructionOf value) := by
  cases value with
  | null =>
    refine (Exactly.pure none).congr fun instruction => ?_
    cases instruction with
    | none => exact iff_of_true rfl rfl
    | some instruction => exact iff_of_false nofun fun ⟨_, _, h, _⟩ => by cases h
  | obj entries =>
    unfold instructionFromDict
    simp only [requireObject, bind, Except.bind]
    split
    case isTrue hbad =>
      have hkeys := requireKeys_exactly hrepr entries "instruction" (instructionRequired ∪ instructionText)
      cases hrequire : requireKeys repr entries "instruction" (instructionRequired ∪ instructionText) with
      | ok => exact absurd ((hkeys.returns _).mp hrequire) hbad.2
      | error raised =>
        refine .error (hkeys.raises raised hrequire) fun instruction h => ?_
        cases instruction with
        | none => cases h
        | some instruction =>
          obtain ⟨_, _, hobj, _, _, h⟩ := h
          cases hobj
          exact hbad.elim fun hrequired htext => h.elim (fun h => hrequired h.1) fun h => htext h.1
    case isFalse hgood =>
      have hkeys := (not_and_or.mp hgood).imp not_not.mp not_not.mp
      have hdata : "data" ∈ keys entries := by rcases hkeys with h | h <;> rw [h] <;> decide
      have haddress : "address" ∈ keys entries := by rcases hkeys with h | h <;> rw [h] <;> decide
      change Exactly Other (derivedFromDict repr entries >>= fun derived =>
        if "mnemonic" ∉ keys entries then .ok (some derived) else some <$> textFromDict entries derived) _
      rcases hkeys with hkeys | hkeys
      · have hno : "mnemonic" ∉ keys entries := by rw [hkeys]; decide
        simp only [if_pos hno]
        refine ((derivedFromDict_exactly hrepr hdata haddress).bind fun derived _ => .pure (some derived)).congr
          fun instruction => ⟨?_, fun h => ?_⟩
        · rintro ⟨derived, ⟨hplaced, hderived⟩, rfl⟩
          exact ⟨entries, derived, rfl, hplaced, hderived, .inl ⟨hkeys, rfl⟩⟩
        · cases instruction with
          | none => cases h
          | some instruction =>
            obtain ⟨_, derived, hobj, hplaced, hderived, ⟨_, rfl⟩ | ⟨htext, _⟩⟩ := h
            · cases hobj
              exact ⟨_, ⟨hplaced, hderived⟩, rfl⟩
            · cases hobj
              rw [hkeys] at htext
              exact absurd htext (by decide)
      · have hmnemonic : "mnemonic" ∈ keys entries := by rw [hkeys]; decide
        have hoperands : "operands" ∈ keys entries := by rw [hkeys]; decide
        simp only [if_neg (not_not.mpr hmnemonic)]
        refine ((derivedFromDict_exactly hrepr hdata haddress).bind fun derived _ =>
          (textFromDict_exactly derived hmnemonic hoperands).map).congr fun instruction => ⟨?_, fun h => ?_⟩
        · rintro ⟨derived, ⟨hplaced, hderived⟩, instruction, htext, rfl⟩
          exact ⟨entries, derived, rfl, hplaced, hderived, .inr ⟨hkeys, htext⟩⟩
        · cases instruction with
          | none => cases h
          | some instruction =>
            obtain ⟨_, derived, hobj, hplaced, hderived, ⟨hrequired, _⟩ | ⟨_, htext⟩⟩ := h
            · cases hobj
              rw [hkeys] at hrequired
              exact absurd hrequired (by decide)
            · cases hobj
              exact ⟨derived, ⟨hplaced, hderived⟩, instruction, htext, rfl⟩
  | _ =>
    refine .raise fun instruction h => ?_
    cases instruction with
    | none => cases h
    | some instruction =>
      obtain ⟨_, _, h, _⟩ := h
      cases h

end SixFiveOhTwo
