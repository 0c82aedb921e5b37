import Mathlib.Data.Nat.Bitwise
import Mathlib.Tactic.Common

/-!
# Bytes in groups of six bits

Three bytes are four sextets. A last group of one or two bytes is filled with zero bits, and
what is short of a byte at the end of a list of sextets is dropped. `pour` reads the sextets
one by one into an accumulator that is never emptied.
-/

namespace Sextets

def ofBytes : List UInt8 → List Nat
  | b0 :: b1 :: b2 :: rest =>
    b0.toNat / 4 :: (b0.toNat % 4 * 16 + b1.toNat / 16) ::
      (b1.toNat % 16 * 4 + b2.toNat / 64) :: b2.toNat % 64 :: ofBytes rest
  | [b0, b1] => [b0.toNat / 4, b0.toNat % 4 * 16 + b1.toNat / 16, b1.toNat % 16 * 4]
  | [b0] => [b0.toNat / 4, b0.toNat % 4 * 16]
  | [] => []

def toOctets : List Nat → List Nat
  | s0 :: s1 :: s2 :: s3 :: rest =>
    (s0 * 4 + s1 / 16) :: (s1 % 16 * 16 + s2 / 4) :: (s2 % 4 * 64 + s3) :: toOctets rest
  | [s0, s1, s2] => [s0 * 4 + s1 / 16, s1 % 16 * 16 + s2 / 4]
  | [s0, s1] => [s0 * 4 + s1 / 16]
  | [_] => []
  | [] => []

/-- How many sextets the last group is short of. -/
def padding (bytes : List UInt8) : Nat :=
  (3 - bytes.length % 3) % 3

theorem padding_cons_three (a b c : UInt8) (rest : List UInt8) :
    padding (a :: b :: c :: rest) = padding rest := by
  simp only [padding, List.length_cons]
  omega

theorem ofBytes_lt {bytes : List UInt8} : ∀ s ∈ ofBytes bytes, s < 64 := by
  induction bytes using ofBytes.induct with
  | case1 b0 b1 b2 rest ih =>
    have h0 := b0.toNat_lt
    have h1 := b1.toNat_lt
    have h2 := b2.toNat_lt
    rw [ofBytes]
    simp only [List.forall_mem_cons]
    exact ⟨by omega, by omega, by omega, by omega, ih⟩
  | case2 b0 b1 =>
    have h0 := b0.toNat_lt
    have h1 := b1.toNat_lt
    rw [ofBytes]
    simp only [List.forall_mem_cons]
    exact ⟨by omega, by omega, by omega, by simp⟩
  | case3 b0 =>
    have h0 := b0.toNat_lt
    rw [ofBytes]
    simp only [List.forall_mem_cons]
    exact ⟨by omega, by omega, by simp⟩
  | case4 => simp [ofBytes]

/-- No group of bytes gives a single sextet. -/
theorem length_ofBytes (bytes : List UInt8) : (ofBytes bytes).length % 4 ≠ 1 := by
  induction bytes using ofBytes.induct with
  | case1 b0 b1 b2 rest ih =>
    rw [ofBytes]
    simp only [List.length_cons]
    omega
  | case2 | case3 | case4 => simp [ofBytes]

theorem toOctets_ofBytes (bytes : List UInt8) :
    toOctets (ofBytes bytes) = bytes.map UInt8.toNat := by
  induction bytes using ofBytes.induct with
  | case1 b0 b1 b2 rest ih =>
    have h0 := b0.toNat_lt
    have h1 := b1.toNat_lt
    have h2 := b2.toNat_lt
    rw [ofBytes, toOctets, ih]
    simp only [List.map_cons, List.cons.injEq, and_true]
    exact ⟨by omega, by omega, by omega⟩
  | case2 b0 b1 =>
    have h0 := b0.toNat_lt
    have h1 := b1.toNat_lt
    simp only [ofBytes, toOctets, List.map_cons, List.map_nil, List.cons.injEq, and_true]
    exact ⟨by omega, by omega⟩
  | case3 b0 =>
    have h0 := b0.toNat_lt
    simp only [ofBytes, toOctets, List.map_cons, List.map_nil, List.cons.injEq, and_true]
    omega
  | case4 => rfl

theorem toOctets_lt {ss : List Nat} (hss : ∀ s ∈ ss, s < 64) : ∀ n ∈ toOctets ss, n < 256 := by
  induction ss using toOctets.induct with
  | case1 s0 s1 s2 s3 rest ih =>
    simp only [List.forall_mem_cons] at hss
    obtain ⟨h0, h1, h2, h3, hrest⟩ := hss
    simp only [toOctets, List.forall_mem_cons]
    exact ⟨by omega, by omega, by omega, ih hrest⟩
  | case2 s0 s1 s2 =>
    simp only [List.forall_mem_cons] at hss
    obtain ⟨h0, h1, h2, -⟩ := hss
    simp only [toOctets, List.forall_mem_cons]
    exact ⟨by omega, by omega, by simp⟩
  | case3 s0 s1 =>
    simp only [List.forall_mem_cons] at hss
    obtain ⟨h0, h1, -⟩ := hss
    simp only [toOctets, List.forall_mem_cons]
    exact ⟨by omega, by simp⟩
  | case4 | case5 => simp [toOctets]

theorem length_toOctets (ss : List Nat) : (toOctets ss).length = ss.length * 3 / 4 := by
  induction ss using toOctets.induct with
  | case1 s0 s1 s2 s3 rest ih =>
    simp only [toOctets, List.length_cons, ih]
    omega
  | case2 | case3 | case4 | case5 => simp [toOctets]

theorem length_ofBytes_eq (bytes : List UInt8) :
    (ofBytes bytes).length = (bytes.length * 4 + 2) / 3 := by
  induction bytes using ofBytes.induct with
  | case1 b0 b1 b2 rest ih =>
    simp only [ofBytes, List.length_cons, ih]
    omega
  | case2 | case3 | case4 => simp [ofBytes]

/-! ## The running accumulator -/

/-- All sextets are shifted into `acc`, of which the last `bits` have not been put out. -/
def pour : Nat → Nat → List Nat → List Nat
  | _, _, [] => []
  | acc, bits, s :: rest =>
    if 8 ≤ bits + 6 then
      (acc * 64 + s) / 2 ^ (bits + 6 - 8) % 256 :: pour (acc * 64 + s) (bits + 6 - 8) rest
    else pour (acc * 64 + s) (bits + 6) rest

/-- What the accumulator holds at the start of a group does not matter. -/
theorem pour_eq_toOctets {ss : List Nat} (hss : ∀ s ∈ ss, s < 64) (acc : Nat) :
    pour acc 0 ss = toOctets ss := by
  induction ss using toOctets.induct generalizing acc with
  | case1 s0 s1 s2 s3 rest ih =>
    simp only [List.forall_mem_cons] at hss
    obtain ⟨h0, h1, h2, h3, hrest⟩ := hss
    simp only [pour, toOctets, Nat.reduceLeDiff, Nat.reduceAdd, Nat.reduceSub, if_true, if_false,
      Nat.reducePow, ih hrest, List.cons.injEq, and_true]
    exact ⟨by omega, by omega, by omega⟩
  | case2 s0 s1 s2 =>
    simp only [List.forall_mem_cons] at hss
    obtain ⟨h0, h1, h2, -⟩ := hss
    simp only [pour, toOctets, Nat.reduceLeDiff, Nat.reduceAdd, Nat.reduceSub, if_true, if_false,
      Nat.reducePow, List.cons.injEq, and_true]
    exact ⟨by omega, by omega⟩
  | case3 s0 s1 =>
    simp only [List.forall_mem_cons] at hss
    obtain ⟨h0, h1, -⟩ := hss
    simp only [pour, toOctets, Nat.reduceLeDiff, Nat.reduceAdd, Nat.reduceSub, if_true, if_false,
      Nat.reducePow, List.cons.injEq, and_true]
    omega
  | case4 => rfl
  | case5 => rfl

end Sextets
