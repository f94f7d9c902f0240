import SixFiveOhTwo.Effects.Rules

/-! # Registers and flags an instruction leaves alone

Every handler, and every other sequence of a step, keeps what its rule does not name, on every host.
-/

namespace SixFiveOhTwo
open Bits Interaction Code
set_option autoImplicit false
set_option maxRecDepth 10000

/-! ## Flags -/

theorem within_nz {m : ℕ} (hn : Within m flagN) (hz : Within m flagZ) (v : ℕ) : Within m (nz v) :=
  within_or (within_and hn) (within_ite _ hz (Nat.zero_and m))

theorem within_bit7 {m v : ℕ} (hv : v ≤ 0xFF) (hc : Within m flagC) : Within m (v >>> 7) := by
  have hbit : v >>> 7 ≤ 1 := by
    rw [Nat.shiftRight_eq_div_pow]
    omega
  rcases Nat.le_one_iff_eq_zero_or_eq_one.mp hbit with h | h
  · rw [h]
    exact Nat.zero_and m
  · rw [h]
    exact hc

theorem within_carry {m : ℕ} (hc : Within m flagC) (v : ℕ) : Within m (v % 2) := by
  rw [← Nat.and_one_is_mod]
  exact within_and hc

section
attribute [local simp] outside_or outside_without outside_ite within_nz within_and within_bit7 within_carry

theorem asl_outside {v : ℕ} (hv : v ≤ 0xFF) (p : ℕ) : Outside (flagN ||| flagZ ||| flagC) p (asl v p).2 := by
  simp +decide [asl, hv]

theorem rol_outside {v : ℕ} (hv : v ≤ 0xFF) (p : ℕ) : Outside (flagN ||| flagZ ||| flagC) p (rol v p).2 := by
  simp +decide [rol, hv]

theorem lsr_outside (v p : ℕ) : Outside (flagN ||| flagZ ||| flagC) p (lsr v p).2 := by
  simp +decide [lsr]

theorem ror_outside (v p : ℕ) : Outside (flagN ||| flagZ ||| flagC) p (ror v p).2 := by
  simp +decide [ror]

theorem add_outside (a v p decimal : ℕ) :
    Outside (flagN ||| flagV ||| flagZ ||| flagC) p (add a v p decimal).2 := by
  rw [add]
  split <;> simp +decide

theorem subtract_outside (a v p decimal : ℕ) :
    Outside (flagN ||| flagV ||| flagZ ||| flagC) p (subtract a v p decimal).2 := by
  rw [subtract]
  split <;> simp +decide

theorem arr_outside (chip : Chip) (v p : ℕ) :
    Outside (flagN ||| flagV ||| flagZ ||| flagC) p (Code.arr chip v p).2 := by
  rw [Code.arr]
  split <;> simp +decide [apply_ite Prod.snd]

theorem compare_outside (register value p v : ℕ) : Outside (flagN ||| flagZ ||| flagC) p
    (if value ≤ register then without p (flagN ||| flagZ ||| flagC) ||| nz v ||| flagC
      else without p (flagN ||| flagZ ||| flagC) ||| nz v) := by
  simp +decide

theorem bit_outside (a p v : ℕ) : Outside (flagN ||| flagV ||| flagZ) p
    (if a &&& v = 0 then without p (flagN ||| flagV ||| flagZ) ||| v &&& (flagN ||| flagV) ||| flagZ
      else without p (flagN ||| flagV ||| flagZ) ||| v &&& (flagN ||| flagV)) := by
  simp +decide

theorem anc_outside (a p : ℕ) (v : Byte) : Outside (flagN ||| flagZ ||| flagC) p
    (without p (flagN ||| flagZ ||| flagC) ||| nz (a &&& v.val) ||| (a &&& v.val) >>> 7) := by
  have hbyte : a &&& v.val ≤ 0xFF := and_le_of_right (byte_le v) a
  simp +decide [hbyte]

end

/-- PLP and RTI pull the flags, and nothing else: bit 5 of P is set and B clear. -/
theorem pulled_outside {p : ℕ} (hp : ValidP p) (v : Byte) :
    Outside (flagN ||| flagV ||| flagD ||| flagI ||| flagZ ||| flagC) p (without (v.val ||| flagU) flagB) := by
  have hrest : ∀ q : Byte, ValidP q.val →
      without q.val (flagN ||| flagV ||| flagD ||| flagI ||| flagZ ||| flagC) = flagU := by
    decide
  have hpulled := hrest ⟨_, Nat.lt_succ_of_le (validP_pulled v).1⟩ (validP_pulled v)
  exact hpulled.trans (hrest ⟨p, Nat.lt_succ_of_le hp.1⟩ hp).symm

theorem keeps_iff (effect : Effect) (c c' : Core) : Keeps effect c c' ↔
    (effect.a = false → c'.a = c.a) ∧ (effect.x = false → c'.x = c.x) ∧ (effect.y = false → c'.y = c.y) ∧
      (effect.s = false → c'.s = c.s) ∧ Outside effect.flags c.p c'.p :=
  ⟨fun h => ⟨h.a, h.x, h.y, h.s, h.p⟩, fun h => ⟨h.1, h.2.1, h.2.2.1, h.2.2.2.1, h.2.2.2.2⟩⟩

section
attribute [local simp] opOra opSlo opNopRead opAsl opAnc opAnd opRla opBit opRol opEor opSre opLsr opAlr
  opAdc opRra opRor opArr opSta opSax opSty opStx opAne opSha opTas opShy opShx opLdy opLda opLdx opLax
  opLxa opLas opCpy opCmp opDcp opDec opSbx opCpx opSbc opIsc opInc opUsbc shiftCombine shiftMemory
  Code.modify Code.compare setNz storeAndHigh

theorem Addressed.op_keeps (chip : Chip) (h : Addressed) (address : ℕ) (g : Sight) :
    (h.op chip address).Ensures (fun _ g' => Keeps h.effect g.core g'.core) g := by
  cases h <;> simp +decide [Addressed.op, Addressed.effect, keeps_iff, outside_or, outside_without, within_nz,
    within_ite, asl_outside, byte_le, lsr_outside, rol_outside, ror_outside, add_outside, subtract_outside,
    arr_outside, compare_outside, anc_outside]
  case bit => exact fun value => bit_outside ..
  case dcp => exact fun value => compare_outside ..
  case rra => exact fun value => ((ror_outside value.val g.core.p).mono (by decide)).trans (add_outside ..)

end

section
attribute [local simp] opBrk opJam opPhp opAslA opClc opNop opJsr opPlp opRolA opSec opRti opPha opLsrA opJmp
  opCli opRts opPla opRorA opJmpInd opSei opDey opTxa opTya opTxs opTay opTax opClv opTsx opIny opDex opCld
  opInx opSed readPc readStack push pull fetch fetchWord Code.interrupt shiftA setNz jamReads

theorem Implied.op_keeps {h : Implied} (hb : h.taken 0 = none) (g : Sight) (ha : g.core.a ≤ 0xFF) (hp : ValidP g.core.p) :
    h.op.Ensures (fun _ g' => Keeps h.effect g.core g'.core) g := by
  cases h <;> first | (cases hb; done) | simp +decide [Implied.op, Implied.effect, keeps_iff, outside_or, outside_without,
    within_nz, within_and, within_ite, asl_outside, ha, lsr_outside, rol_outside, ror_outside,
    pulled_outside hp]

end

/-! ## Rows and sequences -/

theorem dispatch_keeps (chip : Chip) (entry : Entry) (g : Sight) (ha : g.core.a ≤ 0xFF) (hp : ValidP g.core.p) :
    (dispatch chip entry).Ensures (fun _ g' => Keeps entry.effect g.core g'.core) g := by
  cases entry with
  | addressed handler mode cycles =>
    rw [dispatch, ensures_bind]
    refine (mode.ea_counts g).mono ?_
    rintro address g₁ ⟨t, -, -, hcore⟩
    refine (handler.op_keeps chip address g₁).mono fun _ g₂ h => ?_
    rw [hcore] at h
    exact ⟨h.a, h.x, h.y, h.s, h.p⟩
  | implied handler cycles =>
    cases hb : handler.taken 0 with
    | none => exact Implied.op_keeps hb g ha hp
    | some taken =>
      have heffect : handler.effect = {} := by cases handler <;> first | rfl | cases hb
      rw [dispatch, Implied.op_branch (by rw [hb]; rfl), ensures_bind, ensures_core]
      refine (branch_counts _ g).mono ?_
      rintro _ g' ⟨offset, t, -, -, hcore⟩
      rw [hcore, Entry.effect, heffect]
      exact ⟨fun _ => rfl, fun _ => rfl, fun _ => rfl, fun _ => rfl, rfl⟩

theorem Entered.keeps {c c' : Core} {low high : Byte} (h : Entered c c' low high) :
    Keeps { s := true, flags := flagI } c c' := by
  refine ⟨fun _ => h.a, fun _ => h.x, fun _ => h.y, nofun, ?_⟩
  rw [h.p]
  exact (outside_or (by decide)).mpr rfl

theorem acceptReset_keeps (g : Sight) :
    acceptReset.Ensures (fun _ g' => Keeps { s := true, flags := flagI } g.core g'.core) g := by
  simp +decide [acceptReset, resetStackCycle, keeps_iff, outside_or]

/-- What is seen of a machine on a flat memory. -/
def Flat.sight (g : Flat) : Sight := { core := g.core, trace := g.trace }

theorem Code.Ensures.onFlat {α : Type} {code : Code α} {post : α → Sight → Prop} {g : Flat}
    (h : code.Ensures post g.sight) : code.OnFlat (fun a g' => post a g'.sight) g := by
  refine Tree.wp_of_finer (V := sight) ?_ h
  intro op g x g' hstep
  cases op with
  | read address =>
    obtain ⟨rfl, rfl⟩ := hstep
    rfl
  | core =>
    obtain ⟨rfl, rfl⟩ := hstep
    exact ⟨rfl, rfl⟩
  | write | setCore | dmaStalled | poll | setPoll =>
    subst hstep
    rfl

end SixFiveOhTwo
