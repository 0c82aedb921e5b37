import Mathlib.Data.List.Nodup
import Mathlib.Data.List.Perm.Basic
import Mathlib.Data.List.Sort
import QuickjsRuntime.Foundation.Text

/-!
# Own properties of an object

The own properties of a JavaScript object stand in the order in which they were added. A write
to a property that is there leaves it in its place. When the properties are listed, those whose
key is an array index come first, in the order of the indices.

What is not found among the own properties is looked for in `Object.prototype`.
-/

/-- Own properties, each key once. -/
structure PlainObject (κ ν : Type*) where
  entries : List (κ × ν)
  nodup : (entries.map Prod.fst).Nodup

namespace PlainObject

variable {κ ν : Type*} [DecidableEq κ] {o : PlainObject κ ν} {key k : κ} {value v : ν}

def empty : PlainObject κ ν := ⟨[], List.nodup_nil⟩

def get (o : PlainObject κ ν) (key : κ) : Option ν :=
  o.entries.lookup key

def put (o : PlainObject κ ν) (key : κ) (value : ν) : PlainObject κ ν :=
  if h : key ∈ o.entries.map Prod.fst then
    { entries := o.entries.map fun p => if p.1 = key then (key, value) else p
      nodup := by
        have hkeys : (Prod.fst ∘ fun p : κ × ν => if p.1 = key then (key, value) else p) =
            Prod.fst := by
          funext p
          dsimp only [Function.comp]
          split
          next hp => exact hp.symm
          next => rfl
        rw [List.map_map, hkeys]
        exact o.nodup }
  else
    { entries := o.entries ++ [(key, value)]
      nodup := by
        rw [List.map_append]
        refine List.Nodup.append o.nodup (List.nodup_singleton key) ?_
        exact List.disjoint_singleton.mpr h }

def remove (o : PlainObject κ ν) (key : κ) : PlainObject κ ν where
  entries := o.entries.filter fun p => p.1 ≠ key
  nodup := o.nodup.sublist (List.filter_sublist.map Prod.fst)

/-- The properties as `Object.keys` lists them; `index` says which keys are array indices. -/
def ordered (index : κ → Option Nat) (o : PlainObject κ ν) : List (κ × ν) :=
  (o.entries.filter fun p => (index p.1).isSome).insertionSort
      (fun p q => (index p.1).getD 0 ≤ (index q.1).getD 0) ++
    o.entries.filter fun p => !(index p.1).isSome

/-- The number a property key stands for when it is an array index. -/
def arrayIndex (key : Utf16.Text) : Option Nat :=
  match key with
  | [] => none
  | u :: rest =>
    if (u :: rest).all (fun d => 0x30 ≤ d && d ≤ 0x39) ∧ (u = 0x30 → rest = []) then
      let value := (u :: rest).foldl (fun n d => 10 * n + (d - 0x30)) 0
      if value < 2 ^ 32 - 1 then some value else none
    else none

/-- The properties of `Object.prototype`, with the `length` of each: the functions have one, and
`__proto__` reads as the prototype object, which has none. -/
def prototype : List (String × Option Nat) :=
  [("constructor", some 1), ("toString", some 0), ("toLocaleString", some 0),
    ("valueOf", some 0), ("hasOwnProperty", some 1), ("isPrototypeOf", some 1),
    ("propertyIsEnumerable", some 1), ("__proto__", none), ("__defineGetter__", some 2),
    ("__defineSetter__", some 2), ("__lookupGetter__", some 1), ("__lookupSetter__", some 1)]

/-! ## Lookup is membership -/

theorem lookup_eq_some_iff {l : List (κ × ν)} (hl : (l.map Prod.fst).Nodup) :
    l.lookup k = some v ↔ (k, v) ∈ l := by
  induction l with
  | nil => simp
  | cons p l ih =>
    obtain ⟨k', v'⟩ := p
    obtain ⟨hk', hl⟩ := List.nodup_cons.mp hl
    rw [List.lookup_cons, List.mem_cons, Prod.mk.injEq]
    by_cases hk : k = k'
    · subst hk
      have hnot : (k, v) ∉ l := fun hmem => hk' (List.mem_map.mpr ⟨(k, v), hmem, rfl⟩)
      simp [hnot, eq_comm]
    · rw [beq_false_of_ne hk]
      simp [hk, ih hl]

theorem get_eq_some_iff : o.get k = some v ↔ (k, v) ∈ o.entries :=
  lookup_eq_some_iff o.nodup

theorem mem_put : (k, v) ∈ (o.put key value).entries ↔
    k = key ∧ v = value ∨ k ≠ key ∧ (k, v) ∈ o.entries := by
  unfold put
  split
  next h =>
    obtain ⟨⟨key', old⟩, hold, rfl⟩ := List.mem_map.mp h
    rw [List.mem_map]
    constructor
    · rintro ⟨⟨k', v'⟩, hmem, heq⟩
      split at heq
      · cases heq
        exact .inl ⟨rfl, rfl⟩
      next hne =>
        cases heq
        exact .inr ⟨hne, hmem⟩
    · rintro (⟨rfl, rfl⟩ | ⟨hne, hmem⟩)
      · exact ⟨(k, old), hold, if_pos rfl⟩
      · exact ⟨(k, v), hmem, if_neg hne⟩
  next h =>
    rw [List.mem_append, List.mem_singleton, Prod.mk.injEq]
    constructor
    · rintro (hmem | heq)
      · refine .inr ⟨?_, hmem⟩
        rintro rfl
        exact h (List.mem_map_of_mem hmem)
      · exact .inl heq
    · rintro (heq | ⟨-, hmem⟩)
      · exact .inr heq
      · exact .inl hmem

theorem get_put : (o.put key value).get k = if k = key then some value else o.get k := by
  apply Option.ext
  intro v
  rw [get_eq_some_iff, mem_put]
  split
  next hk => simp [hk, eq_comm]
  next hk => simp [hk, get_eq_some_iff]

theorem get_remove : (o.remove key).get k = if k = key then none else o.get k := by
  apply Option.ext
  intro v
  rw [get_eq_some_iff, remove, List.mem_filter, decide_eq_true_eq]
  split
  next hk => simp [hk]
  next hk => simp [hk, get_eq_some_iff]

/-! ## Listing -/

omit [DecidableEq κ] in
theorem ordered_perm (index : κ → Option Nat) (o : PlainObject κ ν) :
    (o.ordered index).Perm o.entries :=
  ((List.perm_insertionSort _ _).append_right _).trans
    (List.filter_append_perm (fun p => (index p.1).isSome) o.entries)

theorem mem_ordered {index : κ → Option Nat} : (k, v) ∈ o.ordered index ↔ o.get k = some v := by
  rw [(o.ordered_perm index).mem_iff, get_eq_some_iff]

omit [DecidableEq κ] in
theorem nodup_ordered (index : κ → Option Nat) (o : PlainObject κ ν) :
    ((o.ordered index).map Prod.fst).Nodup :=
  ((o.ordered_perm index).map Prod.fst).nodup_iff.mpr o.nodup

end PlainObject
