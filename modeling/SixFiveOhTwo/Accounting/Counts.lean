import SixFiveOhTwo.Machine.Sight
import SixFiveOhTwo.Processor.Handlers

/-! # How many bus accesses the parts of an instruction make

Each addressing mode and each handler makes a fixed number of accesses, a page crossing and a taken
branch apart: those are what `extra` counts.
-/

namespace SixFiveOhTwo
open Bits Interaction Code
set_option autoImplicit false
set_option maxRecDepth 10000

/-! ## Branches -/

/-- Where a branch goes, from the address of the following instruction. -/
def branchTarget (next offset : ℕ) : ℕ :=
  masked 16 ((next : ℤ) + offset - ((offset &&& 0x80) <<< 1 : ℕ))

/-- Two addresses lie on different pages. -/
def otherPage (address base : ℕ) : Bool := (address ^^^ base) &&& 0xFF00 != 0

/-- Indexing carries into the high byte. -/
def pageCrossed (base index : ℕ) : Bool := otherPage ((base + index) &&& 0xFFFF) base

/-! ## Counts -/

/-- The accesses a handler with an addressing mode makes. -/
def Addressed.accesses : Addressed → ℕ
  | asl | lsr | rol | ror | inc | dec | slo | rla | sre | rra | dcp | isc => 3
  | _ => 1

/-- The accesses a handler without an addressing mode makes; a branch that is not taken for
the branches. -/
def Implied.accesses : Implied → ℕ
  | jam => 10
  | brk => 6
  | jsr | rts | rti => 5
  | jmpInd => 4
  | plp | pla => 3
  | jmp | php | pha => 2
  | _ => 1

/-- The accesses an addressing mode makes when no page is crossed. -/
def Mode.accesses : Mode → ℕ
  | imm => 0
  | zp => 1
  | zpx | zpy | abs | abx | aby => 2
  | abxW | abyW | izy => 3
  | izx | izyW => 4

/-- The word read by the accesses `i` and `i + 1`, low byte first. -/
def wordAt (trace : List Access) (i : ℕ) : ℕ :=
  ((trace.map Access.value).getD (i + 1) 0 <<< 8) ||| (trace.map Access.value).getD i 0

/-- Whether a read mode crosses a page, by the registers and the mode's own accesses. -/
def Mode.crosses (c : Core) (trace : List Access) : Mode → Bool
  | abx => pageCrossed (wordAt trace 0) c.x
  | aby => pageCrossed (wordAt trace 0) c.y
  | izy => pageCrossed (wordAt trace 1) c.y
  | _ => false

/-- The accesses a row makes after its opcode fetch. -/
def Entry.accesses : Entry → ℕ
  | implied handler _ => handler.accesses
  | addressed handler mode _ => mode.accesses + handler.accesses

/-- Every row's base count is the opcode fetch and the accesses of its mode and handler. -/
theorem opcodes_cycles : ∀ opcode, (opcodes opcode).cycles = 1 + (opcodes opcode).accesses := by
  decide

theorem opcodes_cycles_le : ∀ opcode, 2 ≤ (opcodes opcode).cycles := by
  decide

section
attribute [local simp] opOra opSlo opNopRead opAsl opAnc opAnd opRla opBit opRol opEor opSre opLsr opAlr
  opAdc opRra opRor opArr opSta opSax opSty opStx opAne opSha opTas opShy opShx opLdy opLda opLdx opLax
  opLxa opLas opCpy opCmp opDcp opDec opSbx opCpx opSbc opIsc opInc opUsbc shiftCombine shiftMemory
  Code.modify Code.compare setNz storeAndHigh

/-- A handler with an addressing mode makes its number of accesses and leaves PC and `extra` alone. -/
theorem Addressed.op_counts (chip : Chip) (h : Addressed) (address : ℕ) (g : Sight) :
    (h.op chip address).Ensures (fun _ g' =>
      (∃ t, g'.trace = g.trace ++ t ∧ t.length = h.accesses) ∧ g'.core.extra = g.core.extra) g := by
  cases h <;> simp [Addressed.op, Addressed.accesses]

end

section
attribute [local simp] opBrk opJam opPhp opAslA opClc opNop opJsr opPlp opRolA opSec opRti opPha opLsrA opJmp
  opCli opRts opPla opRorA opJmpInd opSei opDey opTxa opTya opTxs opTay opTax opClv opTsx opIny opDex opCld
  opInx opSed readPc readStack push pull fetch fetchWord Code.interrupt shiftA setNz jamReads

/-- A handler without an addressing mode, other than a branch, makes its number of accesses and
leaves `extra` alone. -/
theorem Implied.op_counts {h : Implied} (hb : h.taken 0 = none) (g : Sight) :
    h.op.Ensures (fun _ g' =>
      (∃ t, g'.trace = g.trace ++ t ∧ t.length = h.accesses) ∧ g'.core.extra = g.core.extra) g := by
  cases h <;> first | (cases hb; done) | simp [Implied.op, Implied.accesses]

end

/-- A read that indexes spends a cycle, and counts it, exactly when it crosses a page. -/
theorem ensures_indexed {post : ℕ → Sight → Prop} (base index : ℕ) (write : Bool) (g : Sight) :
    (indexed base index write).Ensures post g ↔
      if write || pageCrossed base index then
        ∀ value : Byte, post ((base + index) &&& 0xFFFF)
          { core := if write then g.core else { g.core with extra := 1 }
            trace := g.trace ++
              [.r ((base &&& 0xFF00) ||| (((base + index) &&& 0xFFFF) &&& 0xFF)) value.val] }
      else post ((base + index) &&& 0xFFFF) g := by
  cases write <;> simp [indexed, pageCrossed, otherPage, Sight.saw]

section
attribute [local simp] eaImm eaZp eaZpx eaZpy eaAbs eaAbx eaAby eaAbxW eaAbyW eaIzx eaIzy eaIzyW izyBase fetch
  fetchWord ensures_indexed wordAt Access.value

/-- An addressing mode makes its number of accesses, and one more, counted in `extra`, when it
crosses a page; of the registers only PC changes otherwise. -/
theorem Mode.ea_counts (mode : Mode) (g : Sight) :
    mode.ea.Ensures (fun _ g' => ∃ t, g'.trace = g.trace ++ t ∧
      t.length = mode.accesses + (mode.crosses g.core t).toNat ∧
      g'.core = { g.core with
        pc := g'.core.pc, extra := if mode.crosses g.core t then 1 else g.core.extra }) g := by
  cases mode <;> simp [Mode.ea, Mode.accesses, Mode.crosses]
  all_goals intros; split <;> simp_all

end

/-! ## Branches and instructions -/

/-- The cycles a taken branch adds to its base count. -/
def branchExtra (next offset : ℕ) : ℕ := if otherPage (branchTarget next offset) next then 2 else 1

/-- A branch fetches its offset, and when taken makes one more access, or two to another page,
which `extra` counts. -/
theorem branch_counts (taken : Bool) (g : Sight) :
    (branch taken).Ensures (fun _ g' => ∃ offset : Byte, ∃ t,
      let next := (g.core.pc + 1) &&& 0xFFFF
      let spent := if taken then branchExtra next offset else 0
      g'.trace = g.trace ++ .r g.core.pc offset.val :: t ∧ t.length = spent ∧
        g'.core = { g.core with
          pc := if taken then branchTarget next offset else next
          extra := if taken then spent else g.core.extra }) g := by
  simp only [branch, branchTaken, fetch, ensures_bind, ensures_poll, ensures_updatePoll, ensures_core,
    ensures_update, ensures_read]
  intro _ offset polled
  cases taken with
  | false => cases polled.stalled <;> simp
  | true =>
    cases polled.stalled <;>
      simp only [ensures_bind, ensures_updatePoll, ensures_pure, ensures_core, ensures_read, ensures_poll, if_true]
    all_goals
      intro value polled
      cases polled.stalledBefore <;>
        by_cases hp : otherPage (branchTarget ((g.core.pc + 1) &&& 0xFFFF) offset) ((g.core.pc + 1) &&& 0xFFFF) <;>
        simp_all [branchExtra, otherPage, branchTarget] <;>
        exact ⟨offset, rfl, hp, rfl, hp⟩

/-- The cycles an instruction takes beyond its base count, by the registers before it and its
accesses after the opcode fetch. -/
def Entry.extraCycles (c : Core) (trace : List Access) : Entry → ℕ
  | implied handler _ =>
    if (handler.taken c.p).getD false then
      branchExtra ((c.pc + 2) &&& 0xFFFF) ((trace.map Access.value).getD 0 0)
    else 0
  | addressed _ mode _ => (mode.crosses c trace).toNat

theorem next_next (pc : ℕ) : (((pc + 1) &&& 0xFFFF) + 1) &&& 0xFFFF = (pc + 2) &&& 0xFFFF := by
  simp only [and_ffff]
  omega

theorem Implied.taken_none {h : Implied} {p : ℕ} (hb : h.taken p = none) (q : ℕ) : h.taken q = none := by
  cases h <;> first | rfl | cases hb

theorem wordAt_append {t : List Access} {i : ℕ} (hi : i + 1 < t.length) (t' : List Access) :
    wordAt (t ++ t') i = wordAt t i := by
  have hget : ∀ j < t.length, ((t ++ t').map Access.value).getD j 0 = (t.map Access.value).getD j 0 := by
    intro j hj
    simp only [List.getD_eq_getElem?_getD, List.map_append]
    rw [List.getElem?_append_left (by rwa [List.length_map])]
  rw [wordAt, wordAt, hget i (by omega), hget (i + 1) hi]

theorem Mode.crosses_append {mode : Mode} {t : List Access} (ht : mode.accesses ≤ t.length) (c : Core)
    (t' : List Access) : mode.crosses c (t ++ t') = mode.crosses c t := by
  cases mode with
  | abx | aby => exact congrArg (pageCrossed · _) (wordAt_append (Nat.lt_of_lt_of_le (by decide) ht) t')
  | izy => exact congrArg (pageCrossed · _) (wordAt_append (Nat.lt_of_lt_of_le (by decide) ht) t')
  | _ => rfl

/-- The cycles counted in `extra` by an instruction that adds `added` to what it found there. -/
def counted (found added : ℕ) : ℕ := if added = 0 then found else added

theorem counted_zero (added : ℕ) : counted 0 added = added := by
  rw [counted]
  split
  · next h => exact h.symm
  · rfl

/-- A row's handler makes the accesses of its base count, and counts the others in `extra`. -/
theorem dispatch_counts (chip : Chip) (entry : Entry) (pc : ℕ) (g : Sight) (hpc : g.core.pc = (pc + 1) &&& 0xFFFF) :
    (dispatch chip entry).Ensures (fun _ g' => ∃ t, g'.trace = g.trace ++ t ∧
      let extra := entry.extraCycles { g.core with pc } t
      t.length = entry.accesses + extra ∧ g'.core.extra = counted g.core.extra extra) g := by
  cases entry with
  | addressed handler mode cycles =>
    rw [dispatch, ensures_bind]
    refine (mode.ea_counts g).mono ?_
    rintro address g₁ ⟨t₁, ht₁, hlen₁, hcore⟩
    refine (handler.op_counts chip address g₁).mono ?_
    rintro _ g₂ ⟨⟨t₂, ht₂, hlen₂⟩, hextra⟩
    have hextra₁ : g₁.core.extra = counted g.core.extra (mode.crosses g.core t₁).toNat := by
      rw [hcore]
      cases mode.crosses g.core t₁ <;> rfl
    have hcross : mode.crosses { g.core with pc } (t₁ ++ t₂) = mode.crosses g.core t₁ := by
      rw [Mode.crosses_append (by omega)]
      cases mode <;> rfl
    refine ⟨t₁ ++ t₂, by rw [ht₂, ht₁, List.append_assoc], ?_⟩
    simp only [Entry.extraCycles, Entry.accesses, hcross, List.length_append]
    exact ⟨by omega, by rw [hextra, hextra₁]⟩
  | implied handler cycles =>
    cases hb : handler.taken 0 with
    | none =>
      refine (Implied.op_counts hb g).mono ?_
      rintro _ g₁ ⟨⟨t, ht, hlen⟩, hextra⟩
      refine ⟨t, ht, ?_⟩
      simp [Entry.extraCycles, Entry.accesses, Implied.taken_none hb, hlen, hextra, counted]
    | some taken =>
      rw [dispatch, Implied.op_branch (by rw [hb]; rfl), ensures_bind, ensures_core]
      refine (branch_counts _ g).mono ?_
      rintro _ g₁ ⟨offset, t, ht, hlen, hcore⟩
      refine ⟨_, ht, ?_⟩
      have haccesses : handler.accesses = 1 := by cases handler <;> first | rfl | cases hb
      have hspent : ∀ next, branchExtra next offset ≠ 0 := by
        intro next
        rw [branchExtra]
        split <;> decide
      rw [hpc, next_next] at hlen hcore
      cases hbr : (handler.taken g.core.p).getD false <;>
        simp [Entry.extraCycles, Entry.accesses, haccesses, hbr, hcore, hlen, Access.value, counted, hspent]
      omega

end SixFiveOhTwo
