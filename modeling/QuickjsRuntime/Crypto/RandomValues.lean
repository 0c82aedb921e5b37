import Mathlib.Data.List.Basic
import Mathlib.Tactic.Common

/-!
# `crypto.getRandomValues`

The function of the prelude in `node_compat.dart` and the host function `__ncRandomValues`
behind it. It asks the hook for as many bytes as the array has elements and puts one of them
into each element, whatever the width of an element is.
-/

namespace Crypto

/-! ## Model -/

/-- The integer typed arrays with elements of up to four bytes. -/
inductive ElementKind where
  | int8
  | uint8
  | uint8Clamped
  | int16
  | uint16
  | int32
  | uint32
deriving DecidableEq, Repr

/-- `BYTES_PER_ELEMENT` -/
def ElementKind.width : ElementKind → Nat
  | .int8 | .uint8 | .uint8Clamped => 1
  | .int16 | .uint16 => 2
  | .int32 | .uint32 => 4

/-- The memory of an element. -/
abbrev ElementKind.Element (kind : ElementKind) : Type :=
  BitVec (8 * kind.width)

/-- An integer as it is stored into an element: clamped in one kind of array, and reduced
modulo the size of the element in the others. -/
def ElementKind.store (kind : ElementKind) (value : Int) : kind.Element :=
  if kind = .uint8Clamped then BitVec.ofInt _ (max 0 (min value 255)) else BitVec.ofInt _ value

/-- `__ncRandomValues` with a hook -/
def ncRandomValues (randomBytes : Nat → List Int) (count : Nat) : List Int :=
  (randomBytes count).map (· % 256)

/-- `crypto.getRandomValues`: the contents of the array afterwards. An index beyond the bytes
reads `undefined`, which is stored as 0. -/
def getRandomValues (kind : ElementKind) (array : List kind.Element)
    (randomBytes : Nat → List Int) : List kind.Element :=
  let bytes := ncRandomValues randomBytes array.length
  (List.range array.length).map fun i => kind.store (bytes.getD (i % bytes.length) 0)

/-- A hook that delivers the bytes of a stream, as many as it is asked for. -/
def deliver (stream : Nat → UInt8) (count : Nat) : List Int :=
  (List.range count).map fun i => ((stream i).toNat : Int)

/-- The contents of an array of `n` elements are a bijective function of as many bytes of the
stream as the array has. -/
structure FillsEveryByte (kind : ElementKind) (n : Nat) : Prop where
  determined : ∀ (array array' : List kind.Element) (s s' : Nat → UInt8), array.length = n →
    array'.length = n → (∀ i < n * kind.width, s i = s' i) →
      getRandomValues kind array (deliver s) = getRandomValues kind array' (deliver s')
  injective : ∀ (array array' : List kind.Element) (s s' : Nat → UInt8), array.length = n →
    array'.length = n → (∃ i < n * kind.width, s i ≠ s' i) →
      getRandomValues kind array (deliver s) ≠ getRandomValues kind array' (deliver s')
  surjective : ∀ array contents : List kind.Element, array.length = n → contents.length = n →
    ∃ s, getRandomValues kind array (deliver s) = contents

/-! ## What is stored -/

variable {kind : ElementKind} {n : Nat}

theorem ncRandomValues_deliver (stream : Nat → UInt8) (count : Nat) :
    ncRandomValues (deliver stream) count = deliver stream count := by
  rw [ncRandomValues, deliver, List.map_map]
  apply List.map_congr_left
  intro i _
  have hlt := (stream i).toNat_lt
  simp only [Function.comp_apply]
  omega

theorem length_deliver (stream : Nat → UInt8) (count : Nat) :
    (deliver stream count).length = count := by
  simp [deliver]

/-- Every element is one byte of the stream. -/
theorem getRandomValues_deliver (array : List kind.Element) (stream : Nat → UInt8)
    (hlength : array.length = n) :
    getRandomValues kind array (deliver stream) =
      (List.range n).map fun i => kind.store ((stream i).toNat : Int) := by
  simp only [getRandomValues, hlength, ncRandomValues_deliver, length_deliver]
  apply List.map_congr_left
  intro i hi
  have hi := List.mem_range.mp hi
  simp [deliver, Nat.mod_eq_of_lt hi, hi]

theorem ElementKind.width_pos (kind : ElementKind) : 0 < kind.width := by
  cases kind <;> decide

/-- A byte fits into every element. -/
theorem toNat_store_byte (kind : ElementKind) (b : UInt8) :
    (kind.store (b.toNat : Int)).toNat = b.toNat := by
  have hlt : b.toNat < 2 ^ 8 := b.toNat_lt
  have hfits : 2 ^ 8 ≤ 2 ^ (8 * kind.width) :=
    Nat.pow_le_pow_right (by decide) (Nat.le_mul_of_pos_right 8 kind.width_pos)
  have hclamp : max 0 (min (b.toNat : Int) 255) = b.toNat := by omega
  rw [ElementKind.store, hclamp, ite_self, BitVec.ofInt_natCast, BitVec.toNat_ofNat]
  exact Nat.mod_eq_of_lt (Nat.lt_of_lt_of_le hlt hfits)

theorem store_byte_injective {b b' : UInt8}
    (h : kind.store (b.toNat : Int) = kind.store (b'.toNat : Int)) : b = b' := by
  have hnat := congrArg BitVec.toNat h
  rw [toNat_store_byte, toNat_store_byte] at hnat
  exact UInt8.toNat_inj.mp hnat

/-- An element of one byte holds a byte. -/
theorem store_toNat (hwidth : kind.width = 1) (element : kind.Element) :
    kind.store ((UInt8.ofNat element.toNat).toNat : Int) = element := by
  apply BitVec.eq_of_toNat_eq
  rw [toNat_store_byte]
  have hlt : element.toNat < 2 ^ (8 * 1) := hwidth ▸ element.isLt
  exact UInt8.toNat_ofNat_of_lt hlt

/-! ## Which arrays are filled -/

theorem fillsEveryByte_of_width (hwidth : kind.width = 1) (n : Nat) : FillsEveryByte kind n where
  determined := by
    intro array array' s s' hlength hlength' hsame
    rw [getRandomValues_deliver _ _ hlength, getRandomValues_deliver _ _ hlength']
    apply List.map_congr_left
    intro i hi
    rw [hsame i (by simpa [hwidth] using hi)]
  injective := by
    rintro array array' s s' hlength hlength' ⟨i, hi, hne⟩ heq
    rw [getRandomValues_deliver _ _ hlength, getRandomValues_deliver _ _ hlength'] at heq
    have hall := List.map_inj_left.mp heq
    exact hne (store_byte_injective (hall i (by simpa [hwidth] using hi)))
  surjective := by
    intro array contents hlength hcontents
    refine ⟨fun i => UInt8.ofNat (contents.getD i 0).toNat, ?_⟩
    rw [getRandomValues_deliver _ _ hlength]
    simp only [store_toNat hwidth]
    apply List.ext_getElem
    · simp [hcontents]
    · intro i hi hi'
      simp [hi']

/-- The second byte of a wider element is always 0. -/
theorem not_fillsEveryByte (hwidth : kind.width ≠ 1) (hn : n ≠ 0) : ¬FillsEveryByte kind n := by
  intro hfills
  have hpos := kind.width_pos
  obtain ⟨s, hs⟩ := hfills.surjective (List.replicate n 0) (List.replicate n 256) (by simp)
    (by simp)
  rw [getRandomValues_deliver (n := n) _ _ (by simp)] at hs
  obtain ⟨m, rfl⟩ := Nat.exists_eq_succ_of_ne_zero hn
  rw [List.range_succ_eq_map, List.map_cons, List.replicate_succ] at hs
  have hfirst := congrArg BitVec.toNat (List.cons.inj hs).1
  rw [toNat_store_byte] at hfirst
  have hlt := (s 0).toNat_lt
  cases kind <;> simp_all [ElementKind.width]

/-- `getRandomValues` fills every byte exactly in arrays of one-byte elements and in empty
ones. -/
theorem fillsEveryByte_iff (kind : ElementKind) (n : Nat) :
    FillsEveryByte kind n ↔ kind.width = 1 ∨ n = 0 := by
  constructor
  · intro hfills
    by_contra hnot
    rw [not_or] at hnot
    exact not_fillsEveryByte hnot.1 hnot.2 hfills
  · rintro (hwidth | rfl)
    · exact fillsEveryByte_of_width hwidth n
    · refine ⟨?_, ?_, ?_⟩
      · intro array array' s s' hlength hlength' _
        rw [getRandomValues_deliver _ _ hlength, getRandomValues_deliver _ _ hlength']
        rfl
      · rintro array array' s s' - - ⟨i, hi, -⟩
        rw [Nat.zero_mul] at hi
        exact absurd hi (Nat.not_lt_zero i)
      · intro array contents hlength hcontents
        refine ⟨fun _ => 0, ?_⟩
        rw [getRandomValues_deliver _ _ hlength, List.length_eq_zero_iff.mp hcontents]
        rfl

/-- The second byte of the stream does not reach the one element of a `Uint16Array`. -/
theorem second_byte_unused :
    ¬FillsEveryByte .uint16 1 ∧
      getRandomValues .uint16 [0] (deliver fun i => if i = 1 then 7 else 0) =
        getRandomValues .uint16 [0] (deliver fun _ => 0) :=
  ⟨not_fillsEveryByte (by decide) (by decide), by decide⟩

end Crypto
