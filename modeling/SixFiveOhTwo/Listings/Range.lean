import SixFiveOhTwo.Interaction.Fallible
import SixFiveOhTwo.Listings.Text

/-! # Disassembling a range (`disassemble_range`)

A listing decodes the bytes from an address on, each of them once: its instructions lie end to end, and what stops it
is the first byte that cannot be read. Where all of it is documented, its texts tell the bytes.
-/

namespace SixFiveOhTwo
open Bits Interaction
set_option autoImplicit false

/-- The loop of `disassemble_range`. -/
def listing (reader : ℕ → Except String ℤ) : (count address : ℕ) → Except String (List Instruction)
  | 0, _ => .ok []
  | count + 1, address => do
    let instruction ← disassemble reader address
    let rest ← listing reader count instruction.nextAddress
    pure (instruction :: rest)

/-- `disassemble_range`. -/
def disassembleRange (reader : ℕ → Except String ℤ) (address : ℕ) (count : ℤ) : Except String (List Instruction) :=
  listing reader count.toNat address

/-! ## Readers -/

/-- The bytes that a reader gives from an address on. -/
def Gives (reader : ℕ → Except String ℤ) (address : ℕ) (bytes : List Byte) : Prop :=
  ∀ n (value : Byte), bytes[n]? = some value → reader ((address + n) &&& 0xFFFF) = .ok value

/-- At an address, a reader raises, or what it returns is not a byte: and the text of the error. -/
def Refuses (reader : ℕ → Except String ℤ) (address : ℕ) (text : String) : Prop :=
  reader address = .error text ∨
    ∃ value, reader address = .ok value ∧ (value < 0 ∨ 0xFF < value) ∧
      text = "byte reader returned a non-byte value at 0x" ++ hex 4 address

/-- The first address from one on where a reader gives no byte. -/
def Fails (reader : ℕ → Except String ℤ) (address : ℕ) (text : String) : Prop :=
  ∃ n, Refuses reader ((address + n) &&& 0xFFFF) text ∧
    ∀ m < n, ∃ value : Byte, reader ((address + m) &&& 0xFFFF) = .ok value

section
variable {reader : ℕ → Except String ℤ} {address : ℕ}

theorem byte_eq_error {text : String} : byte reader address = .error text ↔ Refuses reader address text := by
  rw [byte, Refuses]
  cases reader address with
  | error raised =>
    show Except.error raised = Except.error text ↔ _
    rw [Except.error.injEq, Except.error.injEq]
    refine ⟨.inl, fun h => ?_⟩
    rcases h with h | ⟨_, hok, -⟩
    · exact h
    · cases hok
  | ok value =>
    show (if h : 0 ≤ value ∧ value ≤ 0xFF then _ else _) = _ ↔ _
    split
    · next hvalue =>
      refine iff_of_false (fun h => by cases h) fun h => ?_
      rcases h with h | ⟨found, hfound, hrange, -⟩
      · cases h
      · cases hfound
        omega
    · next hvalue =>
      rw [Except.error.injEq]
      refine ⟨fun h => .inr ⟨value, rfl, by omega, h.symm⟩, fun h => ?_⟩
      rcases h with h | ⟨_, -, -, h⟩
      · cases h
      · exact h.symm

theorem wrapped_add (address m n : ℕ) : (((address + m) &&& 0xFFFF) + n) &&& 0xFFFF = (address + (m + n)) &&& 0xFFFF := by
  simp only [and_ffff]
  omega

theorem Gives.append {first rest : List Byte} (h : Gives reader address first)
    (h' : Gives reader ((address + first.length) &&& 0xFFFF) rest) : Gives reader address (first ++ rest) := by
  intro n value hn
  rw [List.getElem?_append] at hn
  split at hn
  · exact h n value hn
  · have hrest := h' (n - first.length) value hn
    rw [wrapped_add] at hrest
    rwa [show address + n = address + (first.length + (n - first.length)) by omega]

theorem Fails.after {first : List Byte} {text : String} (h : Gives reader address first)
    (h' : Fails reader ((address + first.length) &&& 0xFFFF) text) : Fails reader address text := by
  obtain ⟨n, hn, hearlier⟩ := h'
  rw [wrapped_add] at hn
  refine ⟨first.length + n, hn, fun m hm => ?_⟩
  by_cases hlt : m < first.length
  · exact ⟨first[m], h m _ (List.getElem?_eq_getElem hlt)⟩
  · obtain ⟨value, hvalue⟩ := hearlier (m - first.length) (by omega)
    rw [wrapped_add] at hvalue
    exact ⟨value, by rwa [show address + m = address + (first.length + (m - first.length)) by omega]⟩

theorem Instruction.make_ok {data : List Byte} {mnemonic : String} {operands : List String} {mode : OperandMode}
    {target : Option ℕ} {documented : Bool} {instruction : Instruction}
    (h : make address data mnemonic operands mode target documented = .ok instruction) :
    instruction.address = address ∧ instruction.data = data := by
  unfold make at h
  split at h
  · split at h
    · cases h
    · split at h
      · cases h
      · cases h
        exact ⟨rfl, rfl⟩
  · cases h

theorem disassemble_bind (haddress : address ≤ 0xFFFF) : disassemble reader address = byte reader address >>= fun opcode =>
    ((List.range (opcodes opcode).form.2.length).mapM fun n => byte reader ((address + n) &&& 0xFFFF)) >>= fun data =>
      Instruction.make address data (opcodes opcode).form.1 ((opcodes opcode).form.2.operand address data).1
        (opcodes opcode).form.2 ((opcodes opcode).form.2.operand address data).2 (documented opcode) := by
  rw [disassemble, if_neg (Nat.not_lt.mpr haddress)]

/-- The bytes of an instruction are those at its address. -/
theorem disassemble_ok {instruction : Instruction} (haddress : address ≤ 0xFFFF)
    (h : disassemble reader address = .ok instruction) :
    instruction.address = address ∧ Gives reader address instruction.data := by
  rw [disassemble_bind haddress] at h
  obtain ⟨opcode, -, h⟩ := bind_eq_ok.mp h
  obtain ⟨data, hdata, h⟩ := bind_eq_ok.mp h
  obtain ⟨hplaced, rfl⟩ := Instruction.make_ok h
  exact ⟨hplaced, fun n value hn => byte_eq_ok.mp ((mapM_range_ok hdata).2 n value hn)⟩

/-- Decoding fails at the first byte that cannot be read. -/
theorem disassemble_error {text : String} (haddress : address ≤ 0xFFFF) (h : disassemble reader address = .error text) :
    Fails reader address text := by
  have hfirst : (address + 0) &&& 0xFFFF = address := by
    rw [and_ffff]
    omega
  rw [disassemble_bind haddress] at h
  rcases bind_eq_error.mp h with h | ⟨opcode, -, h⟩
  · exact ⟨0, by rwa [hfirst, ← byte_eq_error], fun m hm => absurd hm (Nat.not_lt_zero m)⟩
  · rcases bind_eq_error.mp h with h | ⟨data, hdata, h⟩
    · obtain ⟨n, -, hn, hearlier⟩ := mapM_range_error h
      exact ⟨n, byte_eq_error.mp hn, fun m hm => (hearlier m hm).imp fun _ => byte_eq_ok.mp⟩
    · have hlength := (mapM_range_ok hdata).1
      have hne : data ≠ [] := by
        intro hnil
        rw [hnil] at hlength
        exact absurd hlength (opcodes opcode).form.2.length_pos.ne
      rw [Instruction.make, dif_pos haddress, dif_neg hne, dif_neg (Entry.mnemonic_ne _)] at h
      cases h

end

/-! ## Listings -/

/-- How many bytes instructions occupy. -/
def extent (instructions : List Instruction) : ℕ := (instructions.map Instruction.size).sum

/-- Instructions lie end to end from an address on. -/
def EndToEnd : (address : ℕ) → List Instruction → Prop
  | _, [] => True
  | address, instruction :: rest => instruction.address = address ∧ EndToEnd instruction.nextAddress rest

section
variable {reader : ℕ → Except String ℤ}

theorem nextAddress_le (instruction : Instruction) : instruction.nextAddress ≤ 0xFFFF := Nat.and_le_right

theorem nextAddress_of {instruction : Instruction} {address : ℕ} (h : instruction.address = address) :
    instruction.nextAddress = (address + instruction.data.length) &&& 0xFFFF := by
  rw [Instruction.nextAddress, h]
  rfl

theorem listing_ok {count address : ℕ} {instructions : List Instruction} (haddress : address ≤ 0xFFFF)
    (h : listing reader count address = .ok instructions) :
    instructions.length = count ∧ EndToEnd address instructions ∧
      Gives reader address (instructions.flatMap Instruction.data) := by
  induction count generalizing address instructions with
  | zero =>
    cases h
    exact ⟨rfl, trivial, by simp [Gives]⟩
  | succ count ih =>
    obtain ⟨instruction, hinstruction, h⟩ := bind_eq_ok.mp h
    obtain ⟨rest, hrest, h⟩ := bind_eq_ok.mp h
    cases h
    obtain ⟨hplaced, hdata⟩ := disassemble_ok haddress hinstruction
    obtain ⟨hlength, hrests, hgives⟩ := ih (nextAddress_le instruction) hrest
    rw [nextAddress_of hplaced] at hgives
    exact ⟨congrArg (· + 1) hlength, ⟨hplaced, hrests⟩, hdata.append hgives⟩

theorem listing_error {count address : ℕ} {text : String} (haddress : address ≤ 0xFFFF)
    (h : listing reader count address = .error text) : Fails reader address text := by
  induction count generalizing address with
  | zero => cases h
  | succ count ih =>
    rcases bind_eq_error.mp h with h | ⟨instruction, hinstruction, h⟩
    · exact disassemble_error haddress h
    · obtain ⟨hplaced, hdata⟩ := disassemble_ok haddress hinstruction
      rcases bind_eq_error.mp h with h | ⟨_, _, h⟩
      · have hfails := ih (nextAddress_le instruction) h
        rw [nextAddress_of hplaced] at hfails
        exact hfails.after hdata
      · cases h

theorem wrapped_extent {address : ℕ} (haddress : address ≤ 0xFFFF) : (address + extent []) &&& 0xFFFF = address := by
  rw [extent, List.map_nil, List.sum_nil, and_ffff]
  omega

theorem wrapped_extent_cons {address : ℕ} {instruction : Instruction} (h : instruction.address = address)
    (rest : List Instruction) :
    (instruction.nextAddress + extent rest) &&& 0xFFFF = (address + extent (instruction :: rest)) &&& 0xFFFF := by
  rw [nextAddress_of h, wrapped_add]
  rfl

theorem listing_add (count more : ℕ) {address : ℕ} (haddress : address ≤ 0xFFFF) :
    listing reader (count + more) address = listing reader count address >>= fun first =>
      listing reader more ((address + extent first) &&& 0xFFFF) >>= fun rest => pure (first ++ rest) := by
  induction count generalizing address with
  | zero =>
    show _ = listing reader more ((address + extent []) &&& 0xFFFF) >>= fun rest => pure rest
    rw [Nat.zero_add, wrapped_extent haddress]
    exact (bind_pure _).symm
  | succ count ih =>
    rw [Nat.succ_add, listing, listing, bind_assoc]
    cases hinstruction : disassemble reader address with
    | error text => rfl
    | ok instruction =>
      obtain ⟨hplaced, -⟩ := disassemble_ok haddress hinstruction
      show (listing reader (count + more) instruction.nextAddress >>= fun rest => pure (instruction :: rest)) = _
      rw [ih (nextAddress_le instruction), bind_assoc]
      show _ = listing reader count instruction.nextAddress >>= _ >>= _
      rw [bind_assoc]
      refine bind_congr fun first => ?_
      rw [wrapped_extent_cons hplaced, bind_assoc]
      rfl

/-- **A listing covers a range.** Whatever the reader: a listing that is returned has as many instructions as were
asked for, they lie end to end from the address on, and their bytes, in order, are the ones the reader gives from there
on; one that fails does so at the first address from there on where the reader raises, as the reader does, or returns
what is not a byte; and a listing of a longer range is that of its beginning with that of the rest after it. -/
theorem range_covers (reader : ℕ → Except String ℤ) {address : ℕ} (haddress : address ≤ 0xFFFF) (count : ℤ) :
    (∀ instructions, disassembleRange reader address count = .ok instructions →
      instructions.length = count.toNat ∧ EndToEnd address instructions ∧
        Gives reader address (instructions.flatMap Instruction.data)) ∧
    (∀ text, disassembleRange reader address count = .error text → Fails reader address text) ∧
    ∀ more, 0 ≤ count → 0 ≤ more → disassembleRange reader address (count + more) =
      disassembleRange reader address count >>= fun first =>
        disassembleRange reader ((address + extent first) &&& 0xFFFF) more >>= fun rest => pure (first ++ rest) := by
  refine ⟨fun instructions h => listing_ok haddress h, fun text h => listing_error haddress h, fun more hcount hmore => ?_⟩
  unfold disassembleRange
  rw [Int.toNat_add hcount hmore]
  exact listing_add count.toNat more.toNat haddress

/-- `LDA #$01` across the end of the address space, the opcode of STA, and `operand` after it. -/
def cutShort (operand : Except String ℤ) : ℕ → Except String ℤ
  | 0xFFFF => .ok 0xA9
  | 0x0000 => .ok 0x01
  | 0x0001 => .ok 0x8D
  | _ => operand

theorem cutShort_fails (operand : Except String ℤ)
    (h : (disassembleRange (cutShort operand) 0xFFFF 2).toOption.isSome = false) :
    ∃ text, disassembleRange (cutShort operand) 0xFFFF 2 = .error text := by
  cases hlisting : disassembleRange (cutShort operand) 0xFFFF 2 with
  | error text => exact ⟨text, rfl⟩
  | ok instructions =>
    rw [hlisting] at h
    cases h

theorem range_covers_short :
    (∃ instructions, disassembleRange (cutShort (.error "no byte there")) 0xFFFF 1 = .ok instructions ∧
      EndToEnd 0xFFFF instructions ∧
        Gives (cutShort (.error "no byte there")) 0xFFFF (instructions.flatMap Instruction.data)) ∧
    (∃ text, disassembleRange (cutShort (.error "no byte there")) 0xFFFF 2 = .error text ∧
      Fails (cutShort (.error "no byte there")) 0xFFFF text) ∧
    ∃ text, disassembleRange (cutShort (.ok 0x100)) 0xFFFF 2 = .error text ∧ Fails (cutShort (.ok 0x100)) 0xFFFF text := by
  have hreturns : (disassembleRange (cutShort (.error "no byte there")) 0xFFFF 1).toOption.isSome = true := by
    decide +kernel
  refine ⟨?_, ?_, ?_⟩
  · cases h : disassembleRange (cutShort (.error "no byte there")) 0xFFFF 1 with
    | error text =>
      rw [h] at hreturns
      cases hreturns
    | ok instructions =>
      obtain ⟨-, hplaced, hgives⟩ := (range_covers (cutShort (.error "no byte there")) (by decide) 1).1 instructions h
      exact ⟨instructions, rfl, hplaced, hgives⟩
  · obtain ⟨text, h⟩ := cutShort_fails (.error "no byte there") (by decide +kernel)
    exact ⟨text, h, (range_covers _ (by decide) 2).2.1 text h⟩
  · obtain ⟨text, h⟩ := cutShort_fails (.ok 0x100) (by decide +kernel)
    exact ⟨text, h, (range_covers _ (by decide) 2).2.1 text h⟩

end

/-! ## Texts -/

section
variable {memory memory' : ℕ → Byte}

theorem decoded_congr {address : ℕ} (h : address ≤ 0xFFFF) (hsame : ∀ n < (decoded memory h).size,
    memory ((address + n) &&& 0xFFFF) = memory' ((address + n) &&& 0xFFFF)) : decoded memory h = decoded memory' h := by
  have hsize : (decoded memory h).size = (opcodes (memory address)).form.2.length := by
    simp [Instruction.size, decoded, OperandMode.bytes]
  rw [hsize] at hsame
  have hopcode : memory address = memory' address := by
    have hfirst := hsame 0 (opcodes (memory address)).form.2.length_pos
    rwa [Nat.add_zero, and_ffff, Nat.mod_eq_of_lt (Nat.lt_succ_of_le h)] at hfirst
  have hdata : (opcodes (memory address)).form.2.bytes memory address =
      (opcodes (memory address)).form.2.bytes memory' address :=
    List.map_congr_left fun n hn => hsame n (List.mem_range.mp hn)
  simp only [decoded, ← hopcode, hdata]

theorem listing_cons {count address : ℕ} (h : address ≤ 0xFFFF) :
    listing (fun a => .ok (memory a)) (count + 1) address =
      listing (fun a => .ok (memory a)) count (decoded memory h).nextAddress >>= fun rest =>
        pure (decoded memory h :: rest) := by
  rw [listing, disassemble_eq memory h]
  rfl

theorem listing_cons_ok {count address : ℕ} (h : address ≤ 0xFFFF) {instructions : List Instruction}
    (hlisting : listing (fun a => .ok (memory a)) (count + 1) address = .ok instructions) :
    ∃ rest, listing (fun a => .ok (memory a)) count (decoded memory h).nextAddress = .ok rest ∧
      instructions = decoded memory h :: rest := by
  rw [listing_cons h] at hlisting
  obtain ⟨rest, hrest, hcons⟩ := bind_eq_ok.mp hlisting
  cases hcons
  exact ⟨rest, hrest, rfl⟩

theorem listing_returns (memory : ℕ → Byte) (count : ℕ) {address : ℕ} (h : address ≤ 0xFFFF) :
    ∃ instructions, listing (fun a => .ok (memory a)) count address = .ok instructions := by
  cases hlisting : listing (fun a => .ok (memory a)) count address with
  | ok instructions => exact ⟨instructions, rfl⟩
  | error text =>
    obtain ⟨n, hn, -⟩ := listing_error h hlisting
    rw [← byte_eq_error, byte_ok] at hn
    cases hn

theorem same_cons {address : ℕ} {instruction : Instruction} (h : instruction.address = address) (rest : List Instruction) :
    (∀ n < extent (instruction :: rest), memory ((address + n) &&& 0xFFFF) = memory' ((address + n) &&& 0xFFFF)) ↔
      (∀ n < instruction.size, memory ((address + n) &&& 0xFFFF) = memory' ((address + n) &&& 0xFFFF)) ∧
      ∀ n < extent rest, memory ((instruction.nextAddress + n) &&& 0xFFFF) =
        memory' ((instruction.nextAddress + n) &&& 0xFFFF) := by
  have hextent : extent (instruction :: rest) = instruction.size + extent rest := by simp [extent]
  have hnext (n : ℕ) : (instruction.nextAddress + n) &&& 0xFFFF = (address + (instruction.size + n)) &&& 0xFFFF := by
    rw [nextAddress_of h, wrapped_add]
    rfl
  constructor
  · intro hall
    refine ⟨fun n hn => hall n (by omega), fun n hn => ?_⟩
    rw [hnext]
    exact hall _ (by omega)
  · intro ⟨hfirst, hrest⟩ n hn
    by_cases hlt : n < instruction.size
    · exact hfirst n hlt
    · have hmore := hrest (n - instruction.size) (by omega)
      rwa [hnext, Nat.add_sub_cancel' (Nat.le_of_not_lt hlt)] at hmore

theorem listing_local {count address : ℕ} (h : address ≤ 0xFFFF) {instructions : List Instruction}
    (hlisting : listing (fun a => .ok (memory a)) count address = .ok instructions)
    (hsame : ∀ n < extent instructions, memory ((address + n) &&& 0xFFFF) = memory' ((address + n) &&& 0xFFFF)) :
    listing (fun a => .ok (memory' a)) count address = .ok instructions := by
  induction count generalizing address instructions with
  | zero => exact hlisting
  | succ count ih =>
    obtain ⟨rest, hrest, rfl⟩ := listing_cons_ok h hlisting
    obtain ⟨hfirst, hmore⟩ := (same_cons rfl rest).mp hsame
    rw [listing_cons h, ← decoded_congr h hfirst, ih (nextAddress_le _) hrest hmore]
    rfl

/-- Bytes are the same where the texts of documented instructions are. -/
theorem listing_texts {count address : ℕ} (h : address ≤ 0xFFFF) {instructions instructions' : List Instruction}
    (hlisting : listing (fun a => .ok (memory a)) count address = .ok instructions)
    (hlisting' : listing (fun a => .ok (memory' a)) count address = .ok instructions')
    (hdocumented : ∀ instruction ∈ instructions, instruction.documented = true)
    (hdocumented' : ∀ instruction ∈ instructions', instruction.documented = true)
    (htexts : instructions.map Instruction.text = instructions'.map Instruction.text) :
    ∀ n < extent instructions, memory ((address + n) &&& 0xFFFF) = memory' ((address + n) &&& 0xFFFF) := by
  induction count generalizing address instructions instructions' with
  | zero =>
    cases hlisting
    simp [extent]
  | succ count ih =>
    obtain ⟨rest, hrest, rfl⟩ := listing_cons_ok h hlisting
    obtain ⟨rest', hrest', rfl⟩ := listing_cons_ok h hlisting'
    rw [List.forall_mem_cons] at hdocumented hdocumented'
    rw [List.map_cons, List.map_cons, List.cons.injEq] at htexts
    have hfirst := text_bytes h htexts.1 hdocumented.1 hdocumented'.1
    rw [← decoded_congr h hfirst] at hrest'
    exact (same_cons rfl rest).mpr ⟨hfirst, ih (nextAddress_le _) hrest hrest' hdocumented.2 hdocumented'.2 htexts.2⟩

/-- **A listing of documented code tells its bytes.** Two memories from which an address on the same number of
instructions is decoded, all of them documented, give the same texts if and only if they have the same bytes there. -/
theorem listing_tells (memory memory' : ℕ → Byte) {address : ℕ} (haddress : address ≤ 0xFFFF) (count : ℤ) :
    ∃ instructions instructions', disassembleRange (fun a => .ok (memory a)) address count = .ok instructions ∧
      disassembleRange (fun a => .ok (memory' a)) address count = .ok instructions' ∧
      ((∀ instruction ∈ instructions, instruction.documented = true) →
        (∀ instruction ∈ instructions', instruction.documented = true) →
        (instructions.map Instruction.text = instructions'.map Instruction.text ↔
          ∀ n < extent instructions, memory ((address + n) &&& 0xFFFF) = memory' ((address + n) &&& 0xFFFF))) := by
  obtain ⟨instructions, hlisting⟩ := listing_returns memory count.toNat haddress
  obtain ⟨instructions', hlisting'⟩ := listing_returns memory' count.toNat haddress
  refine ⟨instructions, instructions', hlisting, hlisting', fun hdocumented hdocumented' => ?_⟩
  refine ⟨fun htexts => ?_, fun hsame => ?_⟩
  · exact listing_texts haddress hlisting hlisting' hdocumented hdocumented' htexts
  · have hlocal := listing_local haddress hlisting hsame
    rw [hlisting'] at hlocal
    rw [Except.ok.inj hlocal]

/-- `LDA #$01` and NOP across the end of the address space, with some byte after them. -/
def followed (byte : Byte) : ℕ → Byte
  | 0xFFFE => 0xA9
  | 0xFFFF => 0x01
  | 0x0000 => 0xEA
  | _ => byte

theorem listing_tells_followed :
    ∃ instructions instructions', disassembleRange (fun a => .ok (followed 0 a)) 0xFFFE 2 = .ok instructions ∧
      disassembleRange (fun a => .ok (followed 1 a)) 0xFFFE 2 = .ok instructions' ∧
      (instructions.map Instruction.text = instructions'.map Instruction.text ↔
        ∀ n < extent instructions, followed 0 ((0xFFFE + n) &&& 0xFFFF) = followed 1 ((0xFFFE + n) &&& 0xFFFF)) := by
  have hall {instructions : List Instruction} {byte : Byte}
      (hok : disassembleRange (fun a => .ok (followed byte a)) 0xFFFE 2 = .ok instructions)
      (hdocumented : (disassembleRange (fun a => .ok (followed byte a)) 0xFFFE 2).toOption.map
        (List.all · Instruction.documented) = some true) : ∀ instruction ∈ instructions, instruction.documented = true := by
    rw [hok] at hdocumented
    exact List.all_eq_true.mp (Option.some.inj hdocumented)
  obtain ⟨instructions, instructions', hok, hok', htells⟩ :=
    listing_tells (followed 0) (followed 1) (by decide : 0xFFFE ≤ 0xFFFF) 2
  exact ⟨instructions, instructions', hok, hok', htells (hall hok (by decide +kernel)) (hall hok' (by decide +kernel))⟩

end

end SixFiveOhTwo
