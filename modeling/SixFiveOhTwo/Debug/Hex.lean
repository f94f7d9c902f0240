import Mathlib.Algebra.Group.Nat.Defs
import Mathlib.Data.List.Basic
import Mathlib.Data.Nat.Notation

/-! # Hexadecimal text

Digits of either case, the numbers and the bytes they are read as, and that both are read back from
what they are written as.
-/

namespace Hexadecimal
set_option autoImplicit false

/-- The value of a digit. -/
def digitValue (c : Char) : Option ℕ :=
  if '0' ≤ c ∧ c ≤ '9' then some (c.toNat - 48)
  else if 'a' ≤ c ∧ c ≤ 'f' then some (c.toNat - 87)
  else if 'A' ≤ c ∧ c ≤ 'F' then some (c.toNat - 55)
  else none

/-- The number that digits stand for. -/
def number (digits : List Char) : ℕ := digits.foldl (fun n c => 16 * n + (digitValue c).getD 0) 0

theorem number_append (digits : List Char) (c : Char) :
    number (digits ++ [c]) = 16 * number digits + (digitValue c).getD 0 := by
  rw [number, List.foldl_append]
  rfl

theorem digitValue_upper : ∀ d < 16, digitValue (Nat.digitChar d).toUpper = some d := by decide

/-- A number is read from its digits, in either case. -/
theorem number_toDigits {f : Char → Char} (hf : ∀ d < 16, digitValue (f (Nat.digitChar d)) = some d) (n : ℕ) :
    number ((Nat.toDigits 16 n).map f) = n := by
  induction n using Nat.strongRecOn with
  | ind n ih =>
    rw [Nat.toDigits_eq_if (by decide)]
    by_cases h : n < 16
    · rw [if_pos h, List.map_singleton, ← List.nil_append [_], number_append, hf n h, Option.getD_some]
      exact Nat.zero_add n
    · rw [if_neg h, List.map_append, List.map_singleton, number_append, ih (n / 16) (by omega),
        hf (n % 16) (Nat.mod_lt n (by decide)), Option.getD_some]
      omega

theorem number_leftpad (width : ℕ) (digits : List Char) :
    number (digits.leftpad width '0') = number digits := by
  have hzeros (k : ℕ) : number (List.replicate k '0') = 0 := by
    induction k with
    | zero => rfl
    | succ k ih =>
      rw [List.replicate_succ', number_append, ih]
      rfl
  rw [List.leftpad, number, List.foldl_append]
  exact congrArg (fun n => digits.foldl _ n) (hzeros _)

theorem length_leftpad_toDigits {width n : ℕ} (f : Char → Char) (hpos : 0 < width) (h : n < 16 ^ width) :
    (((Nat.toDigits 16 n).map f).leftpad width '0').length = width := by
  have hle := (Nat.length_toDigits_le_iff (by decide) hpos).mpr h
  rw [List.length_leftpad, List.length_map]
  exact Nat.max_eq_left hle

/-! ## Bytes -/

/-- The two digits of a byte. -/
def byteDigits (byte : Fin 256) : List Char := [Nat.digitChar (byte.val / 16), Nat.digitChar (byte.val % 16)]

/-- The digits of bytes: `bytes.hex()`. -/
def digits (bytes : List (Fin 256)) : List Char := bytes.flatMap byteDigits

/-- Two digits as a byte. -/
def byteOf (high low : Char) : Option (Fin 256) := do
  let high ← digitValue high
  let low ← digitValue low
  pure (Fin.ofNat 256 (16 * high + low))

/-- ASCII white space. -/
def isSpace (c : Char) : Bool := c.toNat = 32 ∨ 9 ≤ c.toNat ∧ c.toNat ≤ 13

/-- `bytes.fromhex`: pairs of digits, with white space between them; `none` where it raises. -/
def fromHex : List Char → Option (List (Fin 256))
  | [] => some []
  | c :: rest =>
    if isSpace c then fromHex rest
    else
      match rest with
      | [] => none
      | low :: rest => do
        let byte ← byteOf c low
        let bytes ← fromHex rest
        pure (byte :: bytes)

theorem byteOf_byteDigits : ∀ byte : Fin 256,
    isSpace (Nat.digitChar (byte.val / 16)) = false ∧
      byteOf (Nat.digitChar (byte.val / 16)) (Nat.digitChar (byte.val % 16)) = some byte := by
  decide +kernel

theorem fromHex_digits (bytes : List (Fin 256)) : fromHex (digits bytes) = some bytes := by
  induction bytes with
  | nil => rfl
  | cons byte bytes ih =>
    obtain ⟨hspace, hbyte⟩ := byteOf_byteDigits byte
    rw [digits, List.flatMap_cons, byteDigits, List.cons_append, List.cons_append, List.nil_append, fromHex,
      if_neg (by rw [hspace]; decide)]
    rw [hbyte, ← digits, ih]
    rfl

theorem digits_injective : Function.Injective digits := fun a b h =>
  Option.some.inj (by rw [← fromHex_digits a, h, fromHex_digits b])

end Hexadecimal
