import Mathlib.Data.List.MinMax
import Mathlib.Data.Prod.Lex
import Mathlib.Order.Bounds.Defs
import QuickjsRuntime.Timers.Scheduler

/-! # What the two selections of a pass find

The loop over `__pendingTimers` that looks for the next timer to fire, and the one that
computes `nextDue`, both keep the first minimum of the timers they do not skip.
-/

namespace Timers

/-- Of the minima of a list the first one is kept. -/
theorem rel_of_mem_argmin {α β : Type*} [LinearOrder β] {f : α → β} {l : List α} {m a : α}
    {r : α → α → Prop} (hr : l.Pairwise r) (hm : m ∈ l.argmin f) (ha : a ∈ l) (hle : f a ≤ f m) :
    m = a ∨ r m a := by
  classical
  rcases (List.index_of_argmin hm ha hle).lt_or_eq with hbefore | hsame
  · have hrel := List.pairwise_iff_getElem.mp hr _ _
      (List.idxOf_lt_length_of_mem (List.argmin_mem hm)) (List.idxOf_lt_length_of_mem ha) hbefore
    rw [List.getElem_idxOf, List.getElem_idxOf] at hrel
    exact .inr hrel
  · exact .inl ((List.idxOf_inj (List.argmin_mem hm)).mp hsame)

variable {τ Cb : Type} [LinearOrder τ] {now : τ} {timers : List (Nat × Timer τ Cb)}

theorem bestDue_eq_argmin (now : τ) (timers : List (Nat × Timer τ Cb)) :
    bestDue now timers = (timers.filter fun p => p.2.due ≤ now).argmin fun p => p.2.due := by
  rw [List.argmin, List.foldl_filter, bestDue]
  congr 1
  funext best p
  by_cases hdue : now < p.2.due
  · rw [if_pos hdue, if_neg (by simpa using hdue)]
  · rw [if_neg hdue, if_pos (by simpa using hdue)]
    cases best <;> rfl

theorem bestDue_eq_none_iff : bestDue now timers = none ↔ ∀ p ∈ timers, now < p.2.due := by
  rw [bestDue_eq_argmin, List.argmin_eq_none, List.filter_eq_nil_iff]
  simp only [decide_eq_true_eq, not_le]

theorem bestDue_mem {p : Nat × Timer τ Cb} (h : bestDue now timers = some p) : p ∈ timers := by
  rw [bestDue_eq_argmin] at h
  exact (List.mem_filter.mp (List.argmin_mem h)).1

theorem bestDue_le {p : Nat × Timer τ Cb} (h : bestDue now timers = some p) : p.2.due ≤ now := by
  rw [bestDue_eq_argmin] at h
  exact of_decide_eq_true (List.mem_filter.mp (List.argmin_mem h)).2

/-- No timer is due before the one that fires. -/
theorem bestDue_le_due {p q : Nat × Timer τ Cb} (h : bestDue now timers = some p)
    (hq : q ∈ timers) : p.2.due ≤ q.2.due := by
  rcases lt_or_ge now q.2.due with hlater | hdue
  · exact (bestDue_le h).trans hlater.le
  · rw [bestDue_eq_argmin] at h
    have hmem : q ∈ timers.filter fun p => p.2.due ≤ now :=
      List.mem_filter.mpr ⟨hq, decide_eq_true hdue⟩
    have hle := List.le_of_mem_argmin hmem h
    exact hle

/-- The timer that fires is the least by due time and id of those that are due. -/
theorem bestDue_least {p q : Nat × Timer τ Cb} (h : bestDue now timers = some p)
    (hids : (timers.map Prod.fst).Pairwise (· < ·)) (hq : q ∈ timers) (hdue : q.2.due ≤ now) :
    toLex (p.2.due, p.1) ≤ toLex (q.2.due, q.1) := by
  rw [Prod.Lex.toLex_le_toLex]
  rcases (bestDue_le_due h hq).lt_or_eq with hlt | heq
  · exact .inl hlt
  · refine .inr ⟨heq, ?_⟩
    rw [bestDue_eq_argmin] at h
    have hmem : q ∈ timers.filter fun p => p.2.due ≤ now :=
      List.mem_filter.mpr ⟨hq, decide_eq_true hdue⟩
    have hincreasing := (List.pairwise_map.mp hids).filter fun p => p.2.due ≤ now
    rcases rel_of_mem_argmin hincreasing h hmem heq.ge with rfl | hlt
    · exact Nat.le_refl _
    · exact hlt.le

theorem earliestRef_eq_argmin (timers : List (Nat × Timer τ Cb)) :
    earliestRef timers = ((timers.filter fun p => !p.2.unref).map fun p => p.2.due).argmin id := by
  rw [List.argmin, List.foldl_map, List.foldl_filter, earliestRef]
  congr 1
  funext nextDue p
  cases hunref : p.2.unref with
  | true => rfl
  | false => cases nextDue <;> rfl

/-- `nextDue` is the least due time of the ref'd timers; there is none only without ref'd
timers. -/
theorem earliestRef_spec (timers : List (Nat × Timer τ Cb)) :
    match earliestRef timers with
    | none => ∀ p ∈ timers, p.2.unref = true
    | some due => IsLeast {due | ∃ p ∈ timers, p.2.unref = false ∧ p.2.due = due} due := by
  have hmem : ∀ due, due ∈ (timers.filter fun p => !p.2.unref).map (fun p => p.2.due) ↔
      ∃ p ∈ timers, p.2.unref = false ∧ p.2.due = due := by
    intro due
    simp only [List.mem_map, List.mem_filter, Bool.not_eq_true', and_assoc]
  rw [earliestRef_eq_argmin]
  split
  next hnone =>
    rw [List.argmin_eq_none, List.map_eq_nil_iff, List.filter_eq_nil_iff] at hnone
    intro p hp
    simpa using hnone p hp
  next due hsome =>
    refine ⟨(hmem due).mp (List.argmin_mem hsome), ?_⟩
    intro due' hdue'
    exact List.le_of_mem_argmin ((hmem due').mpr hdue') hsome

end Timers
