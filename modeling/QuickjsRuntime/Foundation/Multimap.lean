import Mathlib.Data.List.Dedup
import Mathlib.Data.List.Sort
import Mathlib.Order.Defs.LinearOrder

/-!
# Ordered multimaps

A multimap that keeps its entries in order is a list of pairs. The operations are given by what
they mean for the list. Sorting puts the names in order and keeps the entries of each name as
they stand; any stable sort computes it.
-/

namespace Multimap

variable {κ ν : Type*}

section Operations

variable [DecidableEq κ]

def append (m : List (κ × ν)) (name : κ) (value : ν) : List (κ × ν) :=
  m ++ [(name, value)]

def delete (m : List (κ × ν)) (name : κ) : List (κ × ν) :=
  m.filter fun p => p.1 ≠ name

/-- The first entry of the name is replaced and the others are dropped; without one, the entry
is added at the end. -/
def set (m : List (κ × ν)) (name : κ) (value : ν) : List (κ × ν) :=
  m.takeWhile (fun p => p.1 ≠ name) ++
    (name, value) :: delete (m.dropWhile fun p => p.1 ≠ name) name

def get (m : List (κ × ν)) (name : κ) : Option ν :=
  (m.find? fun p => p.1 = name).map Prod.snd

def getAll (m : List (κ × ν)) (name : κ) : List ν :=
  (m.filter fun p => p.1 = name).map Prod.snd

def has (m : List (κ × ν)) (name : κ) : Bool :=
  decide (name ∈ m.map Prod.fst)

end Operations

/-! ## The values of a name -/

section Values

variable [DecidableEq κ] {m : List (κ × ν)} {name k : κ} {value : ν}

theorem getAll_cons (p : κ × ν) (m : List (κ × ν)) (k : κ) :
    getAll (p :: m) k = if p.1 = k then p.2 :: getAll m k else getAll m k := by
  rw [getAll, List.filter_cons]
  by_cases hp : p.1 = k
  · rw [if_pos hp, if_pos (decide_eq_true hp), List.map_cons, getAll]
  · rw [if_neg hp, if_neg (by simpa using hp), getAll]

theorem delete_cons (p : κ × ν) (m : List (κ × ν)) :
    delete (p :: m) name = if p.1 = name then delete m name else p :: delete m name := by
  by_cases hp : p.1 = name <;> simp [delete, hp]

theorem set_cons (p : κ × ν) (m : List (κ × ν)) :
    set (p :: m) name value =
      if p.1 = name then (name, value) :: delete m name else p :: set m name value := by
  by_cases hp : p.1 = name <;> simp [set, delete, hp]

theorem getAll_append :
    getAll (append m name value) k = getAll m k ++ if k = name then [value] else [] := by
  rw [append, getAll, List.filter_append, List.map_append, getAll]
  congr 1
  by_cases hk : k = name
  · simp [hk]
  · simp [hk, Ne.symm hk]

theorem getAll_delete : getAll (delete m name) k = if k = name then [] else getAll m k := by
  induction m with
  | nil => simp [delete, getAll]
  | cons p m ih =>
    rw [delete_cons, getAll_cons]
    by_cases hp : p.1 = name
    · rw [if_pos hp, ih, hp]
      by_cases hk : k = name
      · rw [if_pos hk, if_pos hk]
      · rw [if_neg hk, if_neg hk, if_neg (Ne.symm hk)]
    · rw [if_neg hp, getAll_cons, ih]
      by_cases hk : k = name
      · rw [if_pos hk, if_pos hk, hk, if_neg hp]
      · rw [if_neg hk, if_neg hk]

theorem getAll_set : getAll (set m name value) k = if k = name then [value] else getAll m k := by
  induction m with
  | nil =>
    by_cases hk : k = name
    · simp [set, delete, getAll, hk]
    · simp [set, delete, getAll, hk, Ne.symm hk]
  | cons p m ih =>
    rw [set_cons, getAll_cons]
    by_cases hp : p.1 = name
    · rw [if_pos hp, getAll_cons, getAll_delete, hp]
      by_cases hk : k = name
      · rw [if_pos hk, if_pos hk, if_pos hk.symm]
      · rw [if_neg hk, if_neg hk, if_neg (Ne.symm hk), if_neg (Ne.symm hk)]
    · rw [if_neg hp, getAll_cons, ih]
      by_cases hk : k = name
      · rw [if_pos hk, if_pos hk, hk, if_neg hp]
      · rw [if_neg hk, if_neg hk]

theorem mem_names_iff : k ∈ m.map Prod.fst ↔ getAll m k ≠ [] := by
  rw [getAll, Ne, List.map_eq_nil_iff, List.filter_eq_nil_iff, List.mem_map]
  simp

theorem has_eq_true_iff : has m k = true ↔ k ∈ m.map Prod.fst :=
  decide_eq_true_iff

/-- A name that stands once has one value. -/
theorem getAll_eq_singleton (hm : (m.map Prod.fst).Nodup) (hmem : (k, value) ∈ m) :
    getAll m k = [value] := by
  induction m with
  | nil => cases hmem
  | cons p m ih =>
    obtain ⟨hp, hm⟩ := List.nodup_cons.mp hm
    rw [getAll_cons]
    rcases List.mem_cons.mp hmem with rfl | hmem
    · have hnone : getAll m k = [] := not_not.mp fun hne => hp (mem_names_iff.mpr hne)
      rw [if_pos rfl, hnone]
    · have hne : p.1 ≠ k := by
        rintro rfl
        exact hp (List.mem_map.mpr ⟨_, hmem, rfl⟩)
      rw [if_neg hne, ih hm hmem]

end Values

/-! ## Stable sorting -/

section Sorting

variable {α β : Type*} [LinearOrder β] {key : α → β}

/-- The keys in order, and for each key its elements as they stand. -/
def sortBy (key : α → β) (l : List α) : List α :=
  ((l.map key).dedup.mergeSort fun a b => decide (a ≤ b)).flatMap fun k =>
    l.filter fun a => key a = k

/-- A sorted list is known from the elements of each key. -/
theorem eq_of_filter_eq (key : α → β) {l l' : List α} (hl : l.Pairwise fun a b => key a ≤ key b)
    (hl' : l'.Pairwise fun a b => key a ≤ key b)
    (hsame : ∀ k, (l.filter fun a => key a = k) = l'.filter fun a => key a = k) : l = l' := by
  have hmem : ∀ a, a ∈ l ↔ a ∈ l' := by
    intro a
    have h := congrArg (a ∈ ·) (hsame (key a))
    simpa using h
  induction l generalizing l' with
  | nil =>
    cases l' with
    | nil => rfl
    | cons a' l' => exact absurd ((hmem a').mpr List.mem_cons_self) (by simp)
  | cons a l ih =>
    cases l' with
    | nil => exact absurd ((hmem a).mp List.mem_cons_self) (by simp)
    | cons a' l' =>
      have hle : key a ≤ key a' := by
        rcases List.mem_cons.mp ((hmem a').mpr List.mem_cons_self) with h | h
        · rw [h]
        · exact (List.pairwise_cons.mp hl).1 a' h
      have hge : key a' ≤ key a := by
        rcases List.mem_cons.mp ((hmem a).mp List.mem_cons_self) with h | h
        · rw [h]
        · exact (List.pairwise_cons.mp hl').1 a h
      have hkey : key a' = key a := le_antisymm hge hle
      -- the first elements have the same key, so they lead its entries on both sides
      have hhead := hsame (key a)
      simp only [List.filter_cons, hkey, decide_true, if_true, List.cons.injEq] at hhead
      obtain ⟨rfl, -⟩ := hhead
      have htails : ∀ k, (l.filter fun x => key x = k) = l'.filter fun x => key x = k := by
        intro k
        have h := hsame k
        simp only [List.filter_cons] at h
        split at h
        · exact (List.cons.inj h).2
        · exact h
      have hmems : ∀ x, x ∈ l ↔ x ∈ l' := by
        intro x
        have h := congrArg (x ∈ ·) (htails (key x))
        simpa using h
      rw [ih hl.of_cons hl'.of_cons htails hmems]

theorem key_trans (a b c : α) (hab : decide (key a ≤ key b) = true)
    (hbc : decide (key b ≤ key c) = true) : decide (key a ≤ key c) = true := by
  simp only [decide_eq_true_eq] at hab hbc ⊢
  exact hab.trans hbc

theorem key_total (a b : α) : (decide (key a ≤ key b) || decide (key b ≤ key a)) = true := by
  simpa using le_total (key a) (key b)

theorem pairwise_mergeSort (l : List α) :
    (l.mergeSort fun a b => decide (key a ≤ key b)).Pairwise fun a b => key a ≤ key b := by
  apply (List.pairwise_mergeSort key_trans key_total l).imp
  intro a b h
  exact of_decide_eq_true h

/-- Sorting keeps the elements of each key as they stand. -/
theorem filter_mergeSort (l : List α) (k : β) :
    ((l.mergeSort fun a b => decide (key a ≤ key b)).filter fun a => key a = k) =
      l.filter fun a => key a = k := by
  have hequal : (l.filter fun a => key a = k).Pairwise
      fun a b => decide (key a ≤ key b) = true := by
    apply List.pairwise_of_forall_mem_list
    intro a ha b hb
    simp only [List.mem_filter, decide_eq_true_eq] at ha hb ⊢
    rw [ha.2, hb.2]
  have hsub := (List.sublist_mergeSort key_trans key_total hequal List.filter_sublist).filter
    fun a => decide (key a = k)
  rw [List.filter_filter] at hsub
  simp only [Bool.and_self] at hsub
  have hperm := (List.mergeSort_perm l fun a b => decide (key a ≤ key b)).filter
    fun a => decide (key a = k)
  exact (hsub.eq_of_length hperm.length_eq.symm).symm

theorem filter_flatMap_keys (l : List α) {ks : List β} (hks : ks.Nodup) (k : β) :
    ((ks.flatMap fun k' => l.filter fun a => key a = k').filter fun a => key a = k) =
      if k ∈ ks then l.filter fun a => key a = k else [] := by
  induction ks with
  | nil => simp
  | cons k' ks ih =>
    obtain ⟨hk', hks⟩ := List.nodup_cons.mp hks
    rw [List.flatMap_cons, List.filter_append, List.filter_filter, ih hks]
    by_cases hk : k = k'
    · subst hk
      simp [hk']
    · have hnone : (l.filter fun a => decide (key a = k) && decide (key a = k')) = [] := by
        apply List.filter_eq_nil_iff.mpr
        intro a _ ha
        simp only [Bool.and_eq_true, decide_eq_true_eq] at ha
        exact hk (ha.1.symm.trans ha.2)
      simp [hnone, hk]

theorem pairwise_flatMap_keys (l : List α) {ks : List β} (hks : ks.Pairwise (· ≤ ·)) :
    (ks.flatMap fun k => l.filter fun a => key a = k).Pairwise fun a b => key a ≤ key b := by
  rw [List.pairwise_flatMap]
  constructor
  · intro k _
    apply List.pairwise_of_forall_mem_list
    intro a ha b hb
    simp only [List.mem_filter, decide_eq_true_eq] at ha hb
    rw [ha.2, hb.2]
  · apply hks.imp
    intro k k' hle a ha b hb
    simp only [List.mem_filter, decide_eq_true_eq] at ha hb
    rwa [ha.2, hb.2]

/-- Every stable sort by the key gives the list that `sortBy` describes. -/
theorem mergeSort_eq_sortBy (l : List α) :
    (l.mergeSort fun a b => decide (key a ≤ key b)) = sortBy key l := by
  have hperm := List.mergeSort_perm (l.map key).dedup fun a b => decide (a ≤ b)
  apply eq_of_filter_eq key (pairwise_mergeSort l)
  · exact pairwise_flatMap_keys l (pairwise_mergeSort _)
  · intro k
    rw [filter_mergeSort, sortBy, filter_flatMap_keys l (hperm.nodup_iff.mpr (List.nodup_dedup _))]
    split
    · rfl
    next hk =>
      -- a key that no element has
      rw [List.mem_mergeSort, List.mem_dedup, List.mem_map] at hk
      apply List.filter_eq_nil_iff.mpr
      intro a ha hka
      exact hk ⟨a, ha, of_decide_eq_true hka⟩

end Sorting

end Multimap
