import Mathlib.Data.List.Lex
import QuickjsRuntime.Codec.Buffer

/-!
# `Buffer.compare`

The loop of `Buffer.compare` looks for the first position at which two byte arrays differ, and
the lengths decide where one is the beginning of the other. The order is that of the texts
which `toString('hex')` makes of them, since a digit of a byte is written by a letter that
grows with it.
-/

namespace Codec

open Utf16 (Text)

/-! ## Model -/

/-- The loop from position `i` on, with the number of rounds that are left. -/
def compareLoop (a b : List UInt8) (i : Nat) : Nat → Option Int
  | 0 => none
  | rounds + 1 =>
    if a.getD i 0 ≠ b.getD i 0 then some (if a.getD i 0 < b.getD i 0 then -1 else 1)
    else compareLoop a b (i + 1) rounds

/-- `Buffer.compare`, which the method `compare` calls. -/
def compare (a b : List UInt8) : Int :=
  match compareLoop a b 0 (min a.length b.length) with
  | some r => r
  | none => if a.length = b.length then 0 else if a.length < b.length then -1 else 1

def equals (a b : List UInt8) : Bool :=
  compare a b = 0

/-! ## Byte after byte -/

theorem compareLoop_cons (x y : UInt8) (a b : List UInt8) (i rounds : Nat) :
    compareLoop (x :: a) (y :: b) (i + 1) rounds = compareLoop a b i rounds := by
  induction rounds generalizing i with
  | zero => rfl
  | succ rounds ih => simp only [compareLoop, List.getD_cons_succ, ih]

/-- A byte that differs decides; bytes that are equal are passed over. -/
theorem compare_cons (x y : UInt8) (a b : List UInt8) :
    compare (x :: a) (y :: b) = if x = y then compare a b else if x < y then -1 else 1 := by
  have hrounds : min (x :: a).length (y :: b).length = min a.length b.length + 1 := by
    simp only [List.length_cons]
    omega
  rw [compare, hrounds, compareLoop, List.getD_cons_zero, List.getD_cons_zero, compareLoop_cons]
  by_cases hxy : x = y
  · simp only [hxy, ne_eq, not_true_eq_false, if_false, if_true, compare, List.length_cons,
      Nat.add_right_cancel_iff, Nat.add_lt_add_iff_right]
  · simp only [hxy, ne_eq, not_false_eq_true, if_true, if_false]

theorem compare_nil_cons (y : UInt8) (b : List UInt8) : compare [] (y :: b) = -1 := by
  simp [compare, compareLoop]

theorem compare_cons_nil (x : UInt8) (a : List UInt8) : compare (x :: a) [] = 1 := by
  simp [compare, compareLoop]

/-! ## Hexadecimal texts -/

/-- The letters of the digits are in the order of the digits. -/
theorem letter_HX_lt_iff {i j : Nat} (hi : i < 16) (hj : j < 16) :
    letter HX i < letter HX j ↔ i < j := by
  have hall : ∀ i < 16, ∀ j < 16, letter HX i < letter HX j ↔ i < j := by decide
  exact hall i hi j hj

theorem letter_HX_inj {i j : Nat} (hi : i < 16) (hj : j < 16) :
    letter HX i = letter HX j ↔ i = j := by
  have hlt := letter_HX_lt_iff hi hj
  have hgt := letter_HX_lt_iff hj hi
  omega

theorem hexEncode_cons_digits (x : UInt8) (a : List UInt8) :
    hexEncode (x :: a) = letter HX (x.toNat / 16) :: letter HX (x.toNat % 16) :: hexEncode a := by
  have hhigh : x.toNat >>> 4 = x.toNat / 16 := Nat.shiftRight_eq_div_pow _ 4
  have hlow : x.toNat &&& 15 = x.toNat % 16 := Nat.and_two_pow_sub_one_eq_mod _ 4
  rw [hexEncode_cons, hhigh, hlow]

/-- Texts of byte arrays compare by the first bytes, and then by the others. -/
theorem hexEncode_cons_lt_iff (x y : UInt8) (a b : List UInt8) :
    hexEncode (x :: a) < hexEncode (y :: b) ↔ x < y ∨ (x = y ∧ hexEncode a < hexEncode b) := by
  have hx := x.toNat_lt
  have hy := y.toNat_lt
  rw [hexEncode_cons_digits, hexEncode_cons_digits, List.cons_lt_cons_iff, List.cons_lt_cons_iff,
    letter_HX_lt_iff (by omega) (by omega), letter_HX_lt_iff (by omega) (by omega),
    letter_HX_inj (by omega) (by omega), letter_HX_inj (by omega) (by omega),
    UInt8.lt_iff_toNat_lt, ← UInt8.toNat_inj]
  constructor
  · rintro (hhigh | ⟨hhigh, hlow | ⟨hlow, htail⟩⟩)
    · exact .inl (by omega)
    · exact .inl (by omega)
    · exact .inr ⟨by omega, htail⟩
  · rintro (hlt | ⟨heq, htail⟩)
    · by_cases hhigh : x.toNat / 16 < y.toNat / 16
      · exact .inl hhigh
      · exact .inr ⟨by omega, .inl (by omega)⟩
    · rw [heq]
      exact .inr ⟨rfl, .inr ⟨rfl, htail⟩⟩

theorem hexEncode_injective : Function.Injective hexEncode := by
  intro a b h
  have hpairs := congrArg hexPairs h
  rw [hexPairs_hexEncode, hexPairs_hexEncode] at hpairs
  rw [← map_ofNat_toNat a, hpairs, map_ofNat_toNat]

/-! ## The order -/

/-- The result by the order of the texts. -/
theorem compare_eq (a b : List UInt8) :
    compare a b =
      if hexEncode a < hexEncode b then -1 else if hexEncode a = hexEncode b then 0 else 1 := by
  induction a generalizing b with
  | nil =>
    cases b with
    | nil => rfl
    | cons y b =>
      have hlt : hexEncode [] < hexEncode (y :: b) := by
        rw [hexEncode_cons]
        exact List.nil_lt_cons _ _
      rw [compare_nil_cons, if_pos hlt]
  | cons x a ih =>
    cases b with
    | nil =>
      have hle : ¬ hexEncode (x :: a) < hexEncode [] := List.not_lt_nil _
      rw [compare_cons_nil, if_neg hle, if_neg (hexEncode_injective.ne (List.cons_ne_nil x a))]
    | cons y b =>
      rw [compare_cons, ih]
      simp only [hexEncode_cons_lt_iff, hexEncode_injective.eq_iff, List.cons.injEq]
      by_cases hxy : x = y
      · simp only [hxy, UInt8.lt_irrefl, false_or, true_and, if_true]
      · simp only [hxy, false_and, or_false, if_false]

theorem compare_lt_iff (a b : List UInt8) : compare a b < 0 ↔ hexEncode a < hexEncode b := by
  rw [compare_eq]
  split
  next hlt => exact iff_of_true (by decide) hlt
  next hlt =>
    refine iff_of_false ?_ hlt
    split <;> decide

theorem compare_eq_zero_iff (a b : List UInt8) : compare a b = 0 ↔ a = b := by
  rw [compare_eq, ← hexEncode_injective.eq_iff]
  split
  next hlt => exact iff_of_false (by decide) (ne_of_lt hlt)
  next => split <;> simp [*]

theorem compare_swap (a b : List UInt8) : compare b a = -compare a b := by
  rw [compare_eq b a, compare_eq a b]
  rcases lt_trichotomy (hexEncode a) (hexEncode b) with hlt | heq | hgt
  · rw [if_neg (not_lt_of_gt hlt), if_neg (ne_of_gt hlt), if_pos hlt]
    rfl
  · rw [heq, if_neg (lt_irrefl _), if_pos rfl]
    rfl
  · rw [if_pos hgt, if_neg (not_lt_of_gt hgt), if_neg (ne_of_gt hgt)]

theorem compare_le_iff (a b : List UInt8) : compare a b ≤ 0 ↔ hexEncode a ≤ hexEncode b := by
  have hswap := compare_swap a b
  rw [← not_lt (a := hexEncode b) (b := hexEncode a), ← compare_lt_iff]
  omega

/-- `compare` is a total order of byte arrays, by content, and the order of their hexadecimal
texts. -/
theorem compare_totalOrder (hooks : Hooks) (a b c : List UInt8) :
    (compare a b = -1 ∨ compare a b = 0 ∨ compare a b = 1) ∧
      (compare a b = 0 ↔ a = b) ∧ (equals a b = true ↔ a = b) ∧
      compare b a = -compare a b ∧
      (compare a b ≤ 0 → compare b c ≤ 0 → compare a c ≤ 0) ∧
      (compare a b < 0 → compare b c < 0 → compare a c < 0) ∧
      (compare a b < 0 ↔ bufferToString hooks a .hex < bufferToString hooks b .hex) ∧
      (compare a b = 0 ↔ bufferToString hooks a .hex = bufferToString hooks b .hex) ∧
      (0 < compare a b ↔ bufferToString hooks b .hex < bufferToString hooks a .hex) := by
  have hswap := compare_swap a b
  simp only [bufferToString_eq]
  refine ⟨?_, compare_eq_zero_iff a b, ?_, hswap, ?_, ?_, compare_lt_iff a b, ?_, ?_⟩
  · rw [compare_eq]
    split
    · exact .inl rfl
    · split <;> simp
  · rw [equals, decide_eq_true_iff, compare_eq_zero_iff]
  · rw [compare_le_iff, compare_le_iff, compare_le_iff]
    exact le_trans
  · rw [compare_lt_iff, compare_lt_iff, compare_lt_iff]
    exact lt_trans
  · rw [compare_eq_zero_iff, hexEncode_injective.eq_iff]
  · rw [← compare_lt_iff]
    omega

end Codec
