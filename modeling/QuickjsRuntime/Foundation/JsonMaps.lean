import Mathlib.Data.List.Nodup
import QuickjsRuntime.Foundation.Json

/-!
# JSON objects as maps

A JSON object is a map from its keys to values, and its text lists the keys in some order. Two
values are the same if they differ at most in these orders. Values that are the same and list
their keys in the same orders are equal, so the orders are all that a text shows beyond the value.
-/

namespace Json

open Utf16 (Text)

variable {N : Type}

mutual

/-- No object has a key twice. -/
def Distinct : Json N → Prop
  | .array xs => DistinctElements xs
  | .object ms => (ms.map Prod.fst).Nodup ∧ DistinctMembers ms
  | _ => True

def DistinctElements : List (Json N) → Prop
  | [] => True
  | x :: xs => x.Distinct ∧ DistinctElements xs

def DistinctMembers : List (Text × Json N) → Prop
  | [] => True
  | (_, x) :: ms => x.Distinct ∧ DistinctMembers ms

end

mutual

/-- Equal, with objects compared as maps. -/
def Same : Json N → Json N → Prop
  | .null, .null => True
  | .bool a, .bool b => a = b
  | .number m, .number n => m = n
  | .string s, .string t => s = t
  | .array xs, .array ys => SameElements xs ys
  | .object ms, .object ns => (ms.map Prod.fst).Perm (ns.map Prod.fst) ∧ SameMembers ms ns
  | _, _ => False

def SameElements : List (Json N) → List (Json N) → Prop
  | [], [] => True
  | x :: xs, y :: ys => x.Same y ∧ SameElements xs ys
  | _, _ => False

/-- Each member of the first list has the same value in the second. -/
def SameMembers : List (Text × Json N) → List (Text × Json N) → Prop
  | [], _ => True
  | (key, x) :: ms, ns => (∃ y, (key, y) ∈ ns ∧ x.Same y) ∧ SameMembers ms ns

end

mutual

/-- Objects at corresponding places list their keys in the same order. -/
def Aligned : Json N → Json N → Prop
  | .array xs, .array ys => AlignedElements xs ys
  | .object ms, .object ns => ms.map Prod.fst = ns.map Prod.fst ∧ AlignedMembers ms ns
  | _, _ => True

def AlignedElements : List (Json N) → List (Json N) → Prop
  | x :: xs, y :: ys => x.Aligned y ∧ AlignedElements xs ys
  | _, _ => True

def AlignedMembers : List (Text × Json N) → List (Text × Json N) → Prop
  | (_, x) :: ms, (_, y) :: ns => x.Aligned y ∧ AlignedMembers ms ns
  | _, _ => True

end

/-! ## A value and itself -/

mutual

theorem same_refl : ∀ x : Json N, x.Same x
  | .null | .bool _ | .number _ | .string _ => by simp [Same]
  | .array xs => by
      rw [Same]
      exact sameElements_refl xs
  | .object ms => by
      rw [Same]
      exact ⟨List.Perm.refl _, sameMembers_of_subset ms ms (List.Subset.refl _)⟩

theorem sameElements_refl : ∀ xs : List (Json N), SameElements xs xs
  | [] => by simp [SameElements]
  | x :: xs => by
      rw [SameElements]
      exact ⟨same_refl x, sameElements_refl xs⟩

theorem sameMembers_of_subset :
    ∀ ms ns : List (Text × Json N), ms ⊆ ns → SameMembers ms ns
  | [], _, _ => by simp [SameMembers]
  | (key, x) :: ms, ns, h => by
      obtain ⟨hmem, hrest⟩ := List.cons_subset.mp h
      rw [SameMembers]
      exact ⟨⟨x, hmem, same_refl x⟩, sameMembers_of_subset ms ns hrest⟩

end

mutual

theorem aligned_refl : ∀ x : Json N, x.Aligned x
  | .null | .bool _ | .number _ | .string _ => by simp [Aligned]
  | .array xs => by
      rw [Aligned]
      exact alignedElements_refl xs
  | .object ms => by
      rw [Aligned]
      exact ⟨rfl, alignedMembers_refl ms⟩

theorem alignedElements_refl : ∀ xs : List (Json N), AlignedElements xs xs
  | [] => by simp [AlignedElements]
  | x :: xs => by
      rw [AlignedElements]
      exact ⟨aligned_refl x, alignedElements_refl xs⟩

theorem alignedMembers_refl : ∀ ms : List (Text × Json N), AlignedMembers ms ms
  | [] => by simp [AlignedMembers]
  | (_, x) :: ms => by
      rw [AlignedMembers]
      exact ⟨aligned_refl x, alignedMembers_refl ms⟩

end

/-! ## The order of keys is all that is missing -/

/-- A key has one value. -/
theorem value_unique {ms : List (Text × Json N)} {key : Text} {x y : Json N}
    (h : (ms.map Prod.fst).Nodup) (hx : (key, x) ∈ ms) (hy : (key, y) ∈ ms) : x = y := by
  have heq := List.inj_on_of_nodup_map h hx hy rfl
  exact congrArg Prod.snd heq

mutual

/-- Values that are the same and list their keys in the same orders are equal. -/
theorem eq_of_same : ∀ x y : Json N, y.Distinct → x.Same y → x.Aligned y → x = y
  | .null, y, _, h, _ => by cases y <;> simp [Same] at h ⊢
  | .bool b, y, _, h, _ => by cases y <;> simp [Same] at h ⊢; exact h
  | .number n, y, _, h, _ => by cases y <;> simp [Same] at h ⊢; exact h
  | .string s, y, _, h, _ => by cases y <;> simp [Same] at h ⊢; exact h
  | .array xs, .array ys, hd, h, ha => by
      rw [Distinct] at hd
      rw [Same] at h
      rw [Aligned] at ha
      rw [elements_eq_of_same xs ys hd h ha]
  | .object ms, .object ns, hd, h, ha => by
      rw [Distinct] at hd
      rw [Same] at h
      rw [Aligned] at ha
      rw [members_eq_of_same ms ns ns hd.1 (List.Subset.refl _) hd.2 h.2 ha.1 ha.2]
  | .array _, .null, _, h, _ | .array _, .bool _, _, h, _ | .array _, .number _, _, h, _
  | .array _, .string _, _, h, _ | .array _, .object _, _, h, _ | .object _, .null, _, h, _
  | .object _, .bool _, _, h, _ | .object _, .number _, _, h, _ | .object _, .string _, _, h, _
  | .object _, .array _, _, h, _ => by simp [Same] at h
termination_by structural x => x

theorem elements_eq_of_same : ∀ xs ys : List (Json N), DistinctElements ys →
    SameElements xs ys → AlignedElements xs ys → xs = ys
  | [], [], _, _, _ => rfl
  | x :: xs, y :: ys, hd, h, ha => by
      rw [DistinctElements] at hd
      rw [SameElements] at h
      rw [AlignedElements] at ha
      rw [eq_of_same x y hd.1 h.1 ha.1, elements_eq_of_same xs ys hd.2 h.2 ha.2]
  | [], _ :: _, _, h, _ | _ :: _, [], _, h, _ => by simp [SameElements] at h
termination_by structural xs => xs

/-- The members that are left, of an object with the members `all`. -/
theorem members_eq_of_same : ∀ ms ns all : List (Text × Json N), (all.map Prod.fst).Nodup →
    ns ⊆ all → DistinctMembers ns → SameMembers ms all → ms.map Prod.fst = ns.map Prod.fst →
    AlignedMembers ms ns → ms = ns
  | [], [], _, _, _, _, _, _, _ => rfl
  | (key, x) :: ms, (key', y) :: ns, all, hnodup, hsub, hd, h, hkeys, ha => by
      rw [DistinctMembers] at hd
      rw [SameMembers] at h
      rw [AlignedMembers] at ha
      obtain ⟨hkey, hkeys'⟩ := List.cons.inj hkeys
      obtain ⟨hmem, hsub'⟩ := List.cons_subset.mp hsub
      obtain ⟨⟨y', hy', hsame⟩, hrest⟩ := h
      obtain rfl : key = key' := hkey
      obtain rfl := value_unique hnodup hmem hy'
      rw [eq_of_same x y hd.1 hsame ha.1,
        members_eq_of_same ms ns all hnodup hsub' hd.2 hrest hkeys' ha.2]
  | [], _ :: _, _, _, _, _, _, hkeys, _ | _ :: _, [], _, _, _, _, _, hkeys, _ => by cases hkeys
termination_by structural ms => ms

end

end Json
