import SixFiveOhTwo.Traces.Reading

/-! # What the record reader accepts

* `stepRecordFromDict_exactly`: the reader returns the record a value is, if it is one.
* `schema_exact`: it returns for the values of the schema, and raises `ValueError` for all others, but for those
  of which `repr` raises something else.
-/

namespace SixFiveOhTwo
open Json
set_option autoImplicit false

/-! ## Records -/

/-- A value is a record. -/
structure RecordOf (root : List (String × Value)) (record : StepRecord) : Prop where
  keys_eq : keys root = recordRequired ∪ ({"accesses"} ∩ keys root)
  version : get "version" root = some (.int traceSchemaVersion)
  sequence : get "sequence" root = some (.int record.sequence)
  cycles : get "cycles" root = some (.int record.cycles)
  kind : get "kind" root = some (.str record.kind.value)
  before : ∃ value, get "before" root = some value ∧ StateOf value record.before
  after : ∃ value, get "after" root = some value ∧ StateOf value record.after
  instruction : ∃ value, get "instruction" root = some value ∧ OptionalInstructionOf value record.instruction
  accesses : get "accesses" root = (record.accesses.map accessesJson).map Value.arr

theorem ofValue_eq_some {value : String} {kind : BoundaryKind} : BoundaryKind.ofValue value = some kind ↔ kind.value = value := by
  constructor
  · intro h
    simpa using List.find?_some h
  · rintro rfl
    cases kind <;> decide

variable {Other : Raised → Prop} {repr : Value → Except Raised String}

theorem requireVersion_exactly {version : Value} (hrepr : version ≠ .int traceSchemaVersion → Raises Other (repr version)) :
    Exactly Other (requireVersion repr version) fun _ => version = .int traceSchemaVersion := by
  cases version with
  | int n =>
    rw [requireVersion]
    split
    case isTrue h => exact (Exactly.pure ()).congr fun _ => iff_of_true rfl (by rw [h])
    case isFalse h =>
      have hne : Value.int n ≠ .int traceSchemaVersion := fun hn => h (Value.int.inj hn)
      exact raiseShowing_exactly (hrepr hne) _ _ fun _ => hne
  | _ => exact raiseShowing_exactly (hrepr nofun) _ _ fun _ => nofun

theorem requireCount_exactly (minimum : ℤ) (text : String) (value : Value) :
    Exactly Other (requireCount minimum text value) fun n => value = .int n ∧ minimum ≤ n := by
  cases value with
  | int n =>
    rw [requireCount]
    split
    case isTrue h => exact .raise fun m ⟨hm, hle⟩ => by cases hm; omega
    case isFalse h => exact (Exactly.pure n).congr fun m => by rw [Value.int.injEq]; omega
  | _ => exact .raise fun _ h => by cases h.1

theorem kindFromValue_exactly (hrepr : ShowsTexts Other repr) (value : Value) :
    Exactly Other (kindFromValue repr value) fun kind => value = .str kind.value := by
  cases value with
  | str value =>
    rw [kindFromValue]
    cases h : BoundaryKind.ofValue value with
    | none =>
      refine raiseShowing_exactly (hrepr.str value) _ _ fun kind hkind => ?_
      rw [ofValue_eq_some.mpr (Value.str.inj hkind).symm] at h
      cases h
    | some kind =>
      refine (Exactly.pure kind).congr fun kind' => ?_
      rw [Value.str.injEq, eq_comm (b := kind'.value), ← ofValue_eq_some, h, Option.some.injEq]
  | _ => exact .raise fun _ h => by cases h

theorem accessesFromRecord_exactly (root : List (String × Value)) :
    Exactly Other (accessesFromRecord root) fun accesses =>
      get "accesses" root = (accesses.map (List.map accessItem)).map Value.arr ∧
        ∀ access ∈ accesses.getD [], Kinded access := by
  unfold accessesFromRecord
  split
  case isTrue h =>
    refine ((Exactly.item h).bind fun value _ => accessesFromList_exactly value).map.congr fun accesses => ⟨?_, ?_⟩
    · rintro ⟨accesses, ⟨_, hget, rfl, hall⟩, rfl⟩
      exact ⟨hget, hall⟩
    · rintro ⟨hget, hall⟩
      cases accesses with
      | none => exact absurd (get_eq_none.mp hget) (not_not.mpr h)
      | some accesses => exact ⟨accesses, ⟨_, hget, rfl, hall⟩, rfl⟩
  case isFalse h =>
    have hnone := get_eq_none.mpr h
    refine (Exactly.pure none).congr fun accesses => ?_
    cases accesses with
    | none => exact iff_of_true rfl ⟨hnone, List.forall_mem_nil _⟩
    | some accesses =>
      rw [hnone]
      exact iff_of_false nofun fun h => by cases h.1

/-- The three values of an access. -/
def Access.values : Access → Value × Value × Value
  | .r address value => (.str "r", .int address, .int value)
  | .w address value => (.str "w", .int address, .int value)

theorem Access.accessItem_values (access : Access) : accessItem access.values = access.json := by
  cases access <;> rfl

theorem Access.kinded_values (access : Access) : Kinded access.values := by
  cases access <;> exact ⟨_, rfl⟩

/-- An object with the keys of a record has a version that is not this schema's. -/
def Misversioned (value version : Value) : Prop :=
  ∃ root, value = .obj root ∧ keys root = recordRequired ∪ ({"accesses"} ∩ keys root) ∧
    get "version" root = some version ∧ version ≠ .int traceSchemaVersion

/-- The reader returns what a value's entries are, if they are a record. -/
theorem stepRecordFromDict_exactly (hrepr : ShowsTexts Other repr) {value : Value}
    (hversion : ∀ version, Misversioned value version → Raises Other (repr version)) :
    Exactly Other (stepRecordFromDict repr value) fun record => ∃ root, value = .obj root ∧ RecordOf root record := by
  have hmem {root : List (String × Value)} (hkeys : keys root = recordRequired ∪ ({"accesses"} ∩ keys root)) :
      ∀ key ∈ recordRequired, key ∈ keys root := fun key hkey => hkeys ▸ Finset.mem_union_left _ hkey
  refine ((requireObject_exactly value "record").bind fun root hobj =>
    (requireKeys_exactly hrepr root "record" _).bind fun _ hkeys =>
    (Exactly.item (hmem hkeys "version" (by simp [recordRequired]))).bind fun version hget =>
    (requireVersion_exactly fun hne => hversion version ⟨root, hobj, hkeys, hget, hne⟩).bind fun _ _ =>
    (Exactly.item (hmem hkeys "sequence" (by simp [recordRequired]))).bind fun sequence _ =>
    (requireCount_exactly 0 _ sequence).bind fun n hn =>
    (Exactly.item (hmem hkeys "cycles" (by simp [recordRequired]))).bind fun cycles _ =>
    (requireCount_exactly 1 _ cycles).bind fun m hm =>
    (Exactly.item (hmem hkeys "kind" (by simp [recordRequired]))).bind fun kindValue _ =>
    (kindFromValue_exactly hrepr kindValue).bind fun kind _ =>
    (Exactly.item (hmem hkeys "before" (by simp [recordRequired]))).bind fun beforeValue _ =>
    (stateFromDict_exactly hrepr beforeValue _).bind fun before _ =>
    (Exactly.item (hmem hkeys "after" (by simp [recordRequired]))).bind fun afterValue _ =>
    (stateFromDict_exactly hrepr afterValue _).bind fun after _ =>
    (Exactly.item (hmem hkeys "instruction" (by simp [recordRequired]))).bind fun instructionValue _ =>
    (instructionFromDict_exactly hrepr instructionValue).bind fun instruction _ =>
    (accessesFromRecord_exactly root).bind fun accesses haccesses =>
    recordConstruct_exactly kind before after instruction hn.2 hm.2 haccesses.2).congr fun record => ⟨?_, ?_⟩
  · rintro ⟨root, rfl, _, hkeys, _, hversion, _, rfl, _, hsequence, _, ⟨rfl, _⟩, _, hcycles, _, ⟨rfl, _⟩, _, hkind, kind, rfl,
      _, hbefore, _, hbeforeOf, _, hafter, _, hafterOf, _, hinstruction, _, hinstructionOf, accesses, ⟨haccesses, _⟩,
      rfl, rfl, rfl, rfl, rfl, rfl, hmap⟩
    refine ⟨root, rfl, hkeys, hversion, hsequence, hcycles, hkind, ⟨_, hbefore, hbeforeOf⟩, ⟨_, hafter, hafterOf⟩,
      ⟨_, hinstruction, hinstructionOf⟩, ?_⟩
    rw [haccesses, hmap]
  · rintro ⟨root, rfl, hrecord⟩
    obtain ⟨hkeys, hversion, hsequence, hcycles, hkind, ⟨_, hbefore, hbeforeOf⟩, ⟨_, hafter, hafterOf⟩,
      ⟨_, hinstruction, hinstructionOf⟩, haccesses⟩ := hrecord
    have hitems : (record.accesses.map (List.map Access.values)).map (List.map accessItem) =
        record.accesses.map accessesJson := by
      rw [Option.map_map]
      refine Option.map_congr fun accesses _ => ?_
      rw [Function.comp_apply, List.map_map, accessesJson]
      exact List.map_congr_left fun access _ => access.accessItem_values
    refine ⟨root, rfl, (), hkeys, _, hversion, (), rfl, _, hsequence, _, ⟨rfl, Int.natCast_nonneg _⟩, _, hcycles, _,
      ⟨rfl, ?_⟩, _, hkind, _, rfl, _, hbefore, _, hbeforeOf, _, hafter, _, hafterOf, _, hinstruction, _, hinstructionOf,
      record.accesses.map (List.map Access.values), ⟨?_, ?_⟩, rfl, rfl, rfl, rfl, rfl, rfl, hitems⟩
    · exact Int.natCast_pos.mpr record.cycles_pos
    · rw [haccesses, hitems]
    · intro access haccess
      cases haccesses' : record.accesses with
      | none =>
        rw [haccesses'] at haccess
        cases haccess
      | some accesses =>
        rw [haccesses'] at haccess
        obtain ⟨a, _, rfl⟩ := List.mem_map.mp haccess
        exact a.kinded_values

/-! ## The schema -/

/-- An integer in a range. -/
def IntIn (low high : ℤ) (value : Option Value) : Prop := ∃ n, value = some (.int n) ∧ low ≤ n ∧ n ≤ high

def IsBool (value : Option Value) : Prop := ∃ b, value = some (.bool b)

/-- A state: an object with exactly the fields of a `CPUState`, each valid. -/
def StateSchema (value : Option Value) : Prop :=
  ∃ fields, value = some (.obj fields) ∧
    keys fields = {"a", "x", "y", "s", "pc", "p", "halted", "reset_pending", "maskable_interrupt_pending",
      "non_maskable_interrupt_pending", "polled_i", "polled_maskable_interrupt", "polled_non_maskable_interrupt",
      "skipped_poll"} ∧
    (∀ name ∈ ["a", "x", "y", "s", "p"], IntIn 0 0xFF (get name fields)) ∧ IntIn 0 0xFFFF (get "pc" fields) ∧
    (∀ name ∈ ["halted", "reset_pending", "maskable_interrupt_pending", "non_maskable_interrupt_pending", "skipped_poll"],
      IsBool (get name fields)) ∧
    (∀ name ∈ ["polled_i", "polled_maskable_interrupt", "polled_non_maskable_interrupt"],
      get name fields = some .null ∨ IsBool (get name fields)) ∧
    ∃ p : ℕ, get "p" fields = some (.int p) ∧ p &&& 0x30 = 0x20

/-- An instruction: exactly one whole instruction in hexadecimal at a 16-bit address, with a text or without. -/
def InstructionSchema (value : Option Value) : Prop :=
  ∃ fields, value = some (.obj fields) ∧
    (keys fields = {"address", "data"} ∨
      keys fields = {"address", "data", "mnemonic", "operands"} ∧
        (∃ mnemonic, get "mnemonic" fields = some (.str mnemonic) ∧ mnemonic ≠ "") ∧
        ∃ operands : List String, get "operands" fields = some (.arr (operands.map .str))) ∧
    IntIn 0 0xFFFF (get "address" fields) ∧
    ∃ data opcode rest, get "data" fields = some (.str data) ∧
      Hexadecimal.fromHex data.toList = some (opcode :: rest) ∧ (opcode :: rest).length = lengthOf opcode

/-- An array of accesses. -/
def AccessesSchema (value : Option Value) : Prop :=
  ∃ items, value = some (.arr items) ∧ ∀ item ∈ items, ∃ kind address data,
    item = .arr [.str kind, .int address, .int data] ∧ (kind = "r" ∨ kind = "w") ∧
      (0 ≤ address ∧ address ≤ 0xFFFF) ∧ 0 ≤ data ∧ data ≤ 0xFF

/-- A record of version 1 of the schema. -/
def RecordSchema (value : Value) : Prop :=
  ∃ root, value = .obj root ∧
    (keys root = recordRequired ∨ keys root = recordRequired ∪ {"accesses"} ∧ AccessesSchema (get "accesses" root)) ∧
    get "version" root = some (.int 1) ∧
    (∃ n, get "sequence" root = some (.int n) ∧ 0 ≤ n) ∧ (∃ n, get "cycles" root = some (.int n) ∧ 0 < n) ∧
    (∃ kind ∈ ["instruction", "jam_idle", "reset", "nmi", "irq"], get "kind" root = some (.str kind)) ∧
    StateSchema (get "before" root) ∧ StateSchema (get "after" root) ∧
    (get "instruction" root = some .null ∨
      get "kind" root = some (.str "instruction") ∧ InstructionSchema (get "instruction" root))

theorem intIn_iff {maximum : ℕ} {value : Option Value} :
    IntIn 0 maximum value ↔ ∃ n : ℕ, value = some (.int n) ∧ n ≤ maximum := by
  constructor
  · rintro ⟨n, rfl, hlow, hhigh⟩
    lift n to ℕ using hlow
    exact ⟨n, rfl, Int.ofNat_le.mp hhigh⟩
  · rintro ⟨n, rfl, hle⟩
    exact ⟨n, rfl, Int.natCast_nonneg n, Int.ofNat_le.mpr hle⟩

theorem isOptionalBool_iff {value : Option Value} :
    value = some .null ∨ IsBool value ↔ ∃ b, value = some (TraceValue.ofOption b).json := by
  constructor
  · rintro (rfl | ⟨b, rfl⟩)
    · exact ⟨none, rfl⟩
    · exact ⟨some b, rfl⟩
  · rintro ⟨b, rfl⟩
    cases b with
    | none => exact .inl rfl
    | some b => exact .inr ⟨b, rfl⟩

theorem stateFields_eq : stateFields.toFinset = {"a", "x", "y", "s", "pc", "p", "halted", "reset_pending",
    "maskable_interrupt_pending", "non_maskable_interrupt_pending", "polled_i", "polled_maskable_interrupt",
    "polled_non_maskable_interrupt", "skipped_poll"} := by
  simp only [stateFields, List.toFinset_cons, List.toFinset_nil, insert_empty_eq]

theorem stateSchema_iff {value : Value} : StateSchema (some value) ↔ ∃ state, StateOf value state := by
  unfold StateSchema StateOf
  rw [← stateFields_eq]
  have hbyte (value : Option Value) : IntIn 0 0xFF value ↔ _ := @intIn_iff 0xFF value
  have hword (value : Option Value) : IntIn 0 0xFFFF value ↔ _ := @intIn_iff 0xFFFF value
  simp only [List.forall_mem_cons, hbyte, hword, isOptionalBool_iff, List.not_mem_nil, false_implies, implies_true,
    and_true]
  constructor
  · rintro ⟨fields, hobj, hkeys, ⟨⟨a, ha, haIn⟩, ⟨x, hx, hxIn⟩, ⟨y, hy, hyIn⟩, ⟨s, hs, hsIn⟩, ⟨p', hp', hpIn⟩⟩,
      ⟨pc, hpc, hpcIn⟩, ⟨⟨halted, hhalted⟩, ⟨reset, hreset⟩, ⟨maskable, hmaskable⟩, ⟨nonMaskable, hnonMaskable⟩,
      ⟨skipped, hskipped⟩⟩, ⟨⟨polledI, hpolledI⟩, ⟨polledM, hpolledM⟩, ⟨polledN, hpolledN⟩⟩, p, hp, hbits⟩
    obtain rfl : p' = p := by
      rw [hp] at hp'
      simpa using hp'.symm
    refine ⟨⟨a, x, y, s, pc, p', halted, reset, maskable, nonMaskable, polledI, polledM, polledN, skipped, haIn, hxIn, hyIn,
      hsIn, hpIn, hpcIn, hbits⟩, fields, Option.some.inj hobj, hkeys, ?_⟩
    simp only [CPUState.fields, List.forall_mem_cons]
    exact ⟨ha, hx, hy, hs, hpc, hp, hhalted, hreset, hmaskable, hnonMaskable, hpolledI, hpolledM, hpolledN, hskipped,
      List.forall_mem_nil _⟩
  · rintro ⟨state, fields, rfl, hkeys, hfields⟩
    simp only [CPUState.fields, List.forall_mem_cons] at hfields
    obtain ⟨ha, hx, hy, hs, hpc, hp, hhalted, hreset, hmaskable, hnonMaskable, hpolledI, hpolledM, hpolledN, hskipped, -⟩ :=
      hfields
    exact ⟨fields, rfl, hkeys, ⟨⟨_, ha, state.a_le⟩, ⟨_, hx, state.x_le⟩, ⟨_, hy, state.y_le⟩, ⟨_, hs, state.s_le⟩,
      ⟨_, hp, state.p_le⟩⟩, ⟨_, hpc, state.pc_le⟩, ⟨⟨_, hhalted⟩, ⟨_, hreset⟩, ⟨_, hmaskable⟩, ⟨_, hnonMaskable⟩,
      ⟨_, hskipped⟩⟩, ⟨⟨_, hpolledI⟩, ⟨_, hpolledM⟩, ⟨_, hpolledN⟩⟩, _, hp, state.p_bits⟩

theorem derived_iff {entries : List (String × Value)} :
    (∃ derived, PlacedAt entries derived ∧ derived.Derived) ↔ IntIn 0 0xFFFF (get "address" entries) ∧
      ∃ data opcode rest, get "data" entries = some (.str data) ∧
        Hexadecimal.fromHex data.toList = some (opcode :: rest) ∧ (opcode :: rest).length = lengthOf opcode := by
  constructor
  · rintro ⟨derived, ⟨⟨data, hdata, hbytes⟩, haddress⟩, hderived⟩
    obtain ⟨opcode, rest, hcons, hlength, -⟩ := (disassembleBytes_whole derived.address_le).mp ⟨hderived, rfl⟩
    rw [hcons] at hbytes hlength
    exact ⟨(@intIn_iff 0xFFFF _).mpr ⟨_, haddress, derived.address_le⟩, data, opcode, rest, hdata, hbytes, hlength⟩
  · rintro ⟨hin, data, opcode, rest, hdata, hbytes, hlength⟩
    obtain ⟨address, haddress, hle⟩ := (@intIn_iff 0xFFFF _).mp hin
    refine ⟨.ofBytes opcode (opcode :: rest) (List.cons_ne_nil _ _) hle, ⟨⟨data, hdata, hbytes⟩, haddress⟩, ?_⟩
    exact ((disassembleBytes_whole hle).mpr ⟨opcode, rest, rfl, hlength, rfl⟩).1

theorem instructionSchema_iff {value : Value} :
    InstructionSchema (some value) ↔ ∃ instruction, InstructionOf value instruction := by
  have htext : instructionRequired ∪ instructionText = {"address", "data", "mnemonic", "operands"} := by decide
  constructor
  · rintro ⟨fields, hobj, hkeys, hbytes⟩
    obtain ⟨derived, hplaced, hderived⟩ := derived_iff.mpr hbytes
    rcases hkeys with hkeys | ⟨hkeys, ⟨mnemonic, hmnemonic, hne⟩, operands, hoperands⟩
    · exact ⟨derived, fields, derived, Option.some.inj hobj, hplaced, hderived, .inl ⟨hkeys, rfl⟩⟩
    · exact ⟨derived.retext mnemonic operands hne, fields, derived, Option.some.inj hobj, hplaced, hderived,
        .inr ⟨hkeys.trans htext.symm, hmnemonic, hoperands, rfl⟩⟩
  · rintro ⟨instruction, fields, derived, rfl, hplaced, hderived, hkeys⟩
    refine ⟨fields, rfl, ?_, derived_iff.mp ⟨derived, hplaced, hderived⟩⟩
    rcases hkeys with ⟨hkeys, _⟩ | ⟨hkeys, hmnemonic, hoperands, _⟩
    · exact .inl hkeys
    · exact .inr ⟨hkeys.trans htext, ⟨_, hmnemonic, instruction.mnemonic_ne⟩, _, hoperands⟩

theorem accessesSchema_iff {value : Option Value} :
    AccessesSchema value ↔ ∃ accesses : List Access, (∀ access ∈ accesses, access.InRange) ∧
      value = some (.arr (accessesJson accesses)) := by
  constructor
  · rintro ⟨items, rfl, hitems⟩
    suffices ∃ accesses : List ValidAccess, items = accessesJson (accesses.map Subtype.val) by
      obtain ⟨accesses, rfl⟩ := this
      refine ⟨_, fun access haccess => ?_, rfl⟩
      obtain ⟨valid, _, rfl⟩ := List.mem_map.mp haccess
      exact valid.property
    induction items with
    | nil => exact ⟨[], rfl⟩
    | cons item items ih =>
      obtain ⟨⟨kind, address, data, rfl, hkind, hin⟩, hrest⟩ := List.forall_mem_cons.mp hitems
      obtain ⟨accesses, rfl⟩ := ih hrest
      have hletter : ∃ write, kind = letter write := hkind.elim (fun h => ⟨false, h⟩) fun h => ⟨true, h⟩
      obtain ⟨write, rfl⟩ := hletter
      refine ⟨.ofInts write address data hin :: accesses, ?_⟩
      rw [List.map_cons, accessesJson, accessesJson, List.map_cons, json_ofInts]
      rfl
  · rintro ⟨accesses, hrange, rfl⟩
    obtain ⟨valid, rfl⟩ := exists_valid hrange
    refine ⟨_, rfl, fun item hitem => ?_⟩
    rw [accessesJson_map] at hitem
    obtain ⟨access, _, rfl⟩ := List.mem_map.mp hitem
    obtain ⟨write, address, data, hin, rfl⟩ := access.exists_ofInts
    refine ⟨letter write, address, data, json_ofInts write address data hin, ?_, hin⟩
    cases write
    · exact .inl rfl
    · exact .inr rfl

theorem accessesOf_iff {root : List (String × Value)} :
    (∃ accesses : Option (List Access), (∀ access ∈ accesses.getD [], access.InRange) ∧
      get "accesses" root = (accesses.map accessesJson).map Value.arr ∧
      keys root = recordRequired ∪ ({"accesses"} ∩ keys root)) ↔
    keys root = recordRequired ∨ keys root = recordRequired ∪ {"accesses"} ∧ AccessesSchema (get "accesses" root) := by
  constructor
  · rintro ⟨accesses, hrange, hget, hkeys⟩
    cases accesses with
    | none =>
      rw [Finset.singleton_inter_of_notMem (get_eq_none.mp hget), Finset.union_empty] at hkeys
      exact .inl hkeys
    | some accesses =>
      rw [Finset.singleton_inter_of_mem (get_isSome.mp (Option.isSome_of_eq_some hget))] at hkeys
      exact .inr ⟨hkeys, accessesSchema_iff.mpr ⟨accesses, hrange, hget⟩⟩
  · rintro (hkeys | ⟨hkeys, haccesses⟩)
    · have hno : "accesses" ∉ keys root := by rw [hkeys]; simp [recordRequired]
      refine ⟨none, List.forall_mem_nil _, get_eq_none.mpr hno, ?_⟩
      rw [Finset.singleton_inter_of_notMem hno, Finset.union_empty, hkeys]
    · obtain ⟨accesses, hrange, hget⟩ := accessesSchema_iff.mp haccesses
      refine ⟨some accesses, hrange, hget, ?_⟩
      rw [Finset.singleton_inter_of_mem (get_isSome.mp (Option.isSome_of_eq_some hget)), hkeys]

theorem value_eq_instruction {kind : BoundaryKind} : kind.value = "instruction" ↔ kind = .instruction := by
  cases kind <;> decide

theorem instructionOf_iff {root : List (String × Value)} {kind : BoundaryKind}
    (hkind : get "kind" root = some (.str kind.value)) :
    (∃ instruction, (∃ value, get "instruction" root = some value ∧ OptionalInstructionOf value instruction) ∧
      (kind ≠ .instruction → instruction = none)) ↔
    get "instruction" root = some .null ∨
      get "kind" root = some (.str "instruction") ∧ InstructionSchema (get "instruction" root) := by
  rw [hkind, Option.some.injEq, Value.str.injEq, value_eq_instruction]
  constructor
  · rintro ⟨instruction, ⟨value, hget, hof⟩, hlifecycle⟩
    rw [hget]
    cases instruction with
    | none => exact .inl (congrArg some hof)
    | some instruction =>
      exact .inr ⟨not_not.mp fun hne => (by cases hlifecycle hne), instructionSchema_iff.mpr ⟨_, hof⟩⟩
  · rintro (hnull | ⟨hkind, hinstruction⟩)
    · exact ⟨none, ⟨_, hnull, rfl⟩, fun _ => rfl⟩
    · have hobj := hinstruction.choose_spec.1
      rw [hobj] at hinstruction
      obtain ⟨instruction, hof⟩ := instructionSchema_iff.mp hinstruction
      exact ⟨some instruction, ⟨_, hobj, hof⟩, fun hne => absurd hkind hne⟩

theorem stateOf_iff {value : Option Value} : StateSchema value ↔ ∃ v, value = some v ∧ ∃ state, StateOf v state := by
  constructor
  · intro h
    have hobj := h.choose_spec.1
    rw [hobj] at h
    exact ⟨_, hobj, stateSchema_iff.mp h⟩
  · rintro ⟨v, rfl, h⟩
    exact stateSchema_iff.mpr h

theorem kind_iff {value : Option Value} :
    (∃ kind ∈ ["instruction", "jam_idle", "reset", "nmi", "irq"], value = some (.str kind)) ↔
      ∃ kind : BoundaryKind, value = some (.str kind.value) := by
  constructor
  · rintro ⟨text, hmem, rfl⟩
    obtain ⟨kind, hkind⟩ : ∃ kind, BoundaryKind.ofValue text = some kind := by
      simp only [List.mem_cons, List.not_mem_nil, or_false] at hmem
      rcases hmem with rfl | rfl | rfl | rfl | rfl <;> exact ⟨_, rfl⟩
    exact ⟨kind, by rw [ofValue_eq_some.mp hkind]⟩
  · rintro ⟨kind, rfl⟩
    exact ⟨_, by cases kind <;> decide, rfl⟩

/-- What `repr` raises of another version is raised. -/
theorem stepRecordFromDict_misversioned {value version : Value} (h : Misversioned value version) {raised : Raised}
    (hrepr : repr version = .error raised) : stepRecordFromDict repr value = .error raised := by
  obtain ⟨root, rfl, hkeys, hversion, hne⟩ := h
  have hrequire : requireKeys repr root "record" (recordRequired ∪ ({"accesses"} ∩ keys root)) = .ok () := by
    rw [requireKeys]
    exact if_pos hkeys
  have hshowing :
      (raiseShowing repr "unsupported trace schema version: " version "" : Except Raised Unit) = .error raised := by
    rw [raiseShowing, hrepr]
    rfl
  have hcheck : requireVersion repr version = .error raised := by
    cases version with
    | int n => rw [requireVersion, if_neg fun hn => hne (congrArg Value.int hn), hshowing]
    | _ => exact hshowing
  have hitem : item root "version" = .ok version := by rw [item, hversion]
  simp only [stepRecordFromDict, requireObject, hrequire, hitem, hcheck, bind, Except.bind]

/-- **The record reader accepts exactly the schema**: it returns a record for the values of the schema, and for any
other value raises `ValueError`, or what `repr` raises of the version of an object that has the keys of a record. -/
theorem schema_exact (hstr : ∀ text, ∃ shown, repr (.str text) = .ok shown)
    (hstrs : ∀ texts : List String, ∃ shown, repr (.arr (texts.map .str)) = .ok shown) (value : Value) :
    ((∃ record, stepRecordFromDict repr value = .ok record) ↔ RecordSchema value) ∧
      (∀ raised, stepRecordFromDict repr value = .error raised → (∃ text, raised = .valueError text) ∨
        ∃ version, Misversioned value version ∧ repr version = .error raised) ∧
      ∀ version raised, Misversioned value version → repr version = .error raised →
        stepRecordFromDict repr value = .error raised := by
  have hshows : ShowsTexts (fun raised => ∃ version, Misversioned value version ∧ repr version = .error raised) repr :=
    ⟨fun text => raises_ok (hstr text), fun texts => raises_ok (hstrs texts)⟩
  have hexact := stepRecordFromDict_exactly hshows fun version hversion raised hraised => .inr ⟨version, hversion, hraised⟩
  refine ⟨?_, hexact.raises, fun version raised hversion hraised => stepRecordFromDict_misversioned hversion hraised⟩
  simp only [hexact.returns]
  unfold RecordSchema
  simp only [kind_iff, stateOf_iff]
  constructor
  · rintro ⟨record, root, rfl, hkeys, hversion, hsequence, hcycles, hkind, ⟨before, hbefore, hbeforeOf⟩,
      ⟨after, hafter, hafterOf⟩, hinstruction, haccesses⟩
    exact ⟨root, rfl, accessesOf_iff.mp ⟨_, record.accesses_valid, haccesses, hkeys⟩, hversion,
      ⟨_, hsequence, Int.natCast_nonneg _⟩, ⟨_, hcycles, Int.natCast_pos.mpr record.cycles_pos⟩, ⟨_, hkind⟩,
      ⟨_, hbefore, _, hbeforeOf⟩, ⟨_, hafter, _, hafterOf⟩,
      (instructionOf_iff hkind).mp ⟨_, hinstruction, record.lifecycle⟩⟩
  · rintro ⟨root, rfl, hkeys, hversion, ⟨n, hsequence, hn⟩, ⟨m, hcycles, hm⟩, ⟨kind, hkind⟩,
      ⟨_, hbefore, before, hbeforeOf⟩, ⟨_, hafter, after, hafterOf⟩, hinstruction⟩
    lift n to ℕ using hn
    lift m to ℕ using hm.le
    obtain ⟨accesses, hrange, haccesses, hkeys⟩ := accessesOf_iff.mpr hkeys
    obtain ⟨instruction, hof, hlifecycle⟩ := (instructionOf_iff hkind).mpr hinstruction
    exact ⟨⟨n, kind, before, after, m, instruction, accesses, Int.natCast_pos.mp hm, hlifecycle, hrange⟩, root, rfl, hkeys,
      hversion, hsequence, hcycles, hkind, ⟨_, hbefore, hbeforeOf⟩, ⟨_, hafter, hafterOf⟩, hof, haccesses⟩

/-! ## A version nested too deeply -/

/-- `repr` under a recursion limit, of texts in which nothing is escaped. -/
def reprWithin : ℕ → Value → Except Raised String
  | 0, _ => .error .recursionError
  | _ + 1, .null => .ok "None"
  | _ + 1, .bool b => .ok (if b then "True" else "False")
  | _ + 1, .int n => .ok (toString n)
  | _ + 1, .float text => .ok text
  | _ + 1, .str text => .ok ("'" ++ text ++ "'")
  | limit + 1, .arr items => do return "[" ++ ", ".intercalate (← items.mapM (reprWithin limit)) ++ "]"
  | limit + 1, .obj entries => do
    let shown ← entries.mapM fun (key, value) => do return "'" ++ key ++ "': " ++ (← reprWithin limit value)
    return "\x7b" ++ ", ".intercalate shown ++ "\x7d"

theorem reprWithin_strs (limit : ℕ) (texts : List String) :
    ∃ shown, reprWithin (limit + 2) (.arr (texts.map .str)) = .ok shown := by
  have hitems : (texts.map Value.str).mapM (reprWithin (limit + 1)) = .ok (texts.map fun text => "'" ++ text ++ "'") := by
    induction texts with
    | nil => rfl
    | cons text texts ih =>
      rw [List.map_cons, List.mapM_cons, ih]
      rfl
  rw [reprWithin, hitems]
  exact ⟨_, rfl⟩

/-- An empty list within so many others. -/
def nested : ℕ → Value
  | 0 => .arr []
  | depth + 1 => .arr [nested depth]

theorem reprWithin_nested {limit depth : ℕ} (h : limit ≤ depth) :
    reprWithin limit (nested depth) = .error .recursionError := by
  induction limit generalizing depth with
  | zero => rfl
  | succ limit ih =>
    obtain ⟨depth, rfl⟩ : ∃ n, depth = n + 1 := Nat.exists_eq_add_one.mpr (Nat.zero_lt_of_lt h)
    rw [nested, reprWithin, List.mapM_cons, ih (Nat.le_of_succ_le_succ h)]
    rfl

/-- A record of a reset, of a version of the schema. -/
def versioned (version : Value) : Value := .obj [
  ("version", version),
  ("sequence", .int 0),
  ("kind", .str "reset"),
  ("cycles", .int 7),
  ("instruction", .null),
  ("before", stateToDict (.poised 0 0 0 0 true)),
  ("after", stateToDict (.poised 0 0 0 0 true))]

theorem misversioned_nested (depth : ℕ) : Misversioned (versioned (nested depth)) (nested depth) := by
  refine ⟨_, rfl, ?_, rfl, ?_⟩
  · simp only [keys, List.map_cons, List.map_nil]
    decide
  · intro h
    cases depth <;> cases h

/-- It is not a `ValueError` that comes of such a version. -/
theorem versioned_nested_raises :
    ∃ raised, stepRecordFromDict (reprWithin 1000) (versioned (nested 100000)) = .error raised ∧
      ∀ text, raised ≠ .valueError text :=
  ⟨_, stepRecordFromDict_misversioned (misversioned_nested 100000) (reprWithin_nested (by decide)),
    fun text h => by cases h⟩

/-- That record of version 1, and of such a version. -/
theorem schema_exact_versioned : (∃ record, stepRecordFromDict (reprWithin 1000) (versioned (.int 1)) = .ok record) ∧
    stepRecordFromDict (reprWithin 1000) (versioned (nested 100000)) = .error .recursionError := by
  have hexact := @schema_exact (reprWithin 1000) (fun text => ⟨_, rfl⟩) (reprWithin_strs 998)
  have hstate : StateSchema (some (stateToDict (.poised 0 0 0 0 true))) := stateSchema_iff.mpr ⟨_, stateOf_dict _⟩
  refine ⟨(hexact _).1.mpr ⟨_, rfl, .inl ?_, rfl, ⟨0, rfl, le_rfl⟩, ⟨7, rfl, by decide⟩, ⟨"reset", by simp, rfl⟩, hstate,
    hstate, .inl rfl⟩, (hexact _).2.2 _ _ (misversioned_nested 100000) (reprWithin_nested (by decide))⟩
  simp only [keys, List.map_cons, List.map_nil]
  decide

end SixFiveOhTwo
