import Mathlib.Data.List.Induction

/-!
# Reduction of path segments

A path is a list of segments, of which some say nothing and one leads up. Reduction works from
the front with a stack of the segments kept so far, the newest first: a segment that leads up
removes the one before it. Where there is nothing to remove it is kept, unless the path is
anchored at a root.

Reduced stacks are fixed points, so that the front of a path may be reduced before the rest.

Read from its end, an anchored path shows what is kept of it without a stack: a segment is kept
unless some later one that leads up still waits for one to remove. Two ways of reading a path of
which one passes over more segments are compared in this form.
-/

namespace DotSegments

variable {α : Type*} [DecidableEq α]

/-- The segments with a meaning of their own. -/
structure Marks (α : Type*) where
  skips : α → Bool
  up : α
  up_kept : skips up = false

/-- One segment. -/
def push (m : Marks α) (anchored : Bool) (stack : List α) (s : α) : List α :=
  if m.skips s then stack
  else if s = m.up then
    match stack with
    | [] => if anchored then [] else [m.up]
    | top :: rest =>
      if top ≠ m.up then rest
      else if anchored then top :: rest
      else m.up :: top :: rest
  else s :: stack

def reduce (m : Marks α) (anchored : Bool) (stack parts : List α) : List α :=
  parts.foldl (push m anchored) stack

/-- What a stack looks like: names, below them the segments that lead up, and none of these in
an anchored path. -/
structure Reduced (m : Marks α) (anchored : Bool) (stack : List α) : Prop where
  kept : ∀ s ∈ stack, m.skips s = false
  ups : ∃ names k, stack = names ++ List.replicate k m.up ∧ m.up ∉ names ∧ (anchored = true → k = 0)

variable {m : Marks α} {anchored : Bool} {stack : List α} {s : α}

/-! ## One segment -/

theorem push_skip (hs : m.skips s = true) : push m anchored stack s = stack :=
  if_pos hs

theorem push_name (hs : m.skips s = false) (hup : s ≠ m.up) :
    push m anchored stack s = s :: stack := by
  unfold push
  rw [if_neg (by simp [hs]), if_neg hup]

theorem push_up_name (hup : s ≠ m.up) : push m anchored (s :: stack) m.up = stack := by
  rw [push, if_neg (by simp [m.up_kept]), if_pos rfl]
  exact if_pos hup

theorem push_up_replicate (k : Nat) :
    push m false (List.replicate k m.up) m.up = List.replicate (k + 1) m.up := by
  cases k with
  | zero => simp [push, m.up_kept]
  | succ k => simp [push, m.up_kept, List.replicate_succ]

theorem push_up_anchored : push m true [] m.up = [] := by
  simp [push, m.up_kept]

theorem mem_push {x : α} (hx : x ∈ push m anchored stack s) : x = s ∨ x ∈ stack := by
  cases hskip : m.skips s with
  | true =>
    rw [push_skip hskip] at hx
    exact Or.inr hx
  | false =>
    by_cases hup : s = m.up
    · subst hup
      cases stack with
      | nil => cases anchored <;> simp_all [push]
      | cons top rest =>
        by_cases htop : top = m.up
        · cases anchored <;> simp_all [push]
        · rw [push_up_name htop] at hx
          exact Or.inr (List.mem_cons_of_mem _ hx)
    · rw [push_name hskip hup] at hx
      exact List.mem_cons.mp hx

theorem mem_reduce {x : α} {parts : List α} (hx : x ∈ reduce m anchored stack parts) :
    x ∈ parts ∨ x ∈ stack := by
  induction parts generalizing stack with
  | nil => exact Or.inr hx
  | cons s parts ih =>
    rcases ih hx with hx | hx
    · exact Or.inl (List.mem_cons_of_mem _ hx)
    · rcases mem_push hx with rfl | hx
      · exact Or.inl List.mem_cons_self
      · exact Or.inr hx

/-! ## The form of the stack -/

omit [DecidableEq α] in
theorem reduced_nil : Reduced m anchored [] :=
  ⟨by simp, [], 0, rfl, by simp, fun _ => rfl⟩

omit [DecidableEq α] in
theorem Reduced.tail (h : Reduced m anchored (s :: stack)) : Reduced m anchored stack := by
  refine ⟨fun x hx => h.kept x (List.mem_cons_of_mem _ hx), ?_⟩
  obtain ⟨names, k, hstack, hnames, hk⟩ := h.ups
  cases names with
  | nil =>
    cases k with
    | zero => cases hstack
    | succ k =>
      rw [List.nil_append, List.replicate_succ] at hstack
      refine ⟨[], k, (List.cons.inj hstack).2, by simp, ?_⟩
      intro hanchored
      exact absurd (hk hanchored) (by simp)
  | cons name names =>
    rw [List.mem_cons, not_or] at hnames
    exact ⟨names, k, (List.cons.inj hstack).2, hnames.2, hk⟩

theorem Reduced.push (h : Reduced m anchored stack) (s : α) :
    Reduced m anchored (push m anchored stack s) := by
  cases hskip : m.skips s with
  | true => rwa [push_skip hskip]
  | false =>
    obtain ⟨names, k, rfl, hnames, hk⟩ := h.ups
    by_cases hup : s = m.up
    · subst hup
      cases names with
      | cons name names =>
        rw [List.mem_cons, not_or] at hnames
        rw [List.cons_append, push_up_name (Ne.symm hnames.1)]
        exact h.tail
      | nil =>
        rw [List.nil_append] at h ⊢
        cases anchored with
        | true =>
          rw [hk rfl, List.replicate_zero, push_up_anchored]
          exact reduced_nil
        | false =>
          rw [push_up_replicate]
          refine ⟨?_, [], k + 1, rfl, by simp, by simp⟩
          intro x hx
          rw [List.eq_of_mem_replicate hx]
          exact m.up_kept
    · rw [push_name hskip hup]
      refine ⟨?_, s :: names, k, rfl, by simp [Ne.symm hup, hnames], hk⟩
      intro x hx
      rcases List.mem_cons.mp hx with rfl | hx
      · exact hskip
      · exact h.kept x hx

theorem Reduced.reduce (h : Reduced m anchored stack) (parts : List α) :
    Reduced m anchored (reduce m anchored stack parts) := by
  induction parts generalizing stack with
  | nil => exact h
  | cons s parts ih => exact ih (h.push s)

/-! ## Fixed points -/

theorem reduce_append (parts parts' : List α) :
    reduce m anchored stack (parts ++ parts') =
      reduce m anchored (reduce m anchored stack parts) parts' :=
  List.foldl_append

/-- The segment on top of a reduced stack was pushed on the rest. -/
theorem Reduced.push_top (h : Reduced m anchored (s :: stack)) :
    DotSegments.push m anchored stack s = s :: stack := by
  have hskip := h.kept s List.mem_cons_self
  by_cases hup : s = m.up
  · -- a segment that leads up is only above others of its kind, in a path without an anchor
    obtain ⟨names, k, hstack, hnames, hk⟩ := h.ups
    cases names with
    | cons name names =>
      rw [List.cons_append, List.cons.injEq] at hstack
      exact absurd (by rw [← hstack.1, hup]; exact List.mem_cons_self) hnames
    | nil =>
      cases k with
      | zero => cases hstack
      | succ k =>
        cases anchored with
        | true => exact absurd (hk rfl) (by simp)
        | false =>
          rw [List.nil_append, List.replicate_succ, List.cons.injEq] at hstack
          rw [hstack.2, hup, push_up_replicate, List.replicate_succ]
  · exact push_name hskip hup

/-- A reduced path is reduced to itself. -/
theorem reduce_reverse (h : Reduced m anchored stack) :
    reduce m anchored [] stack.reverse = stack := by
  induction stack with
  | nil => rfl
  | cons s stack ih =>
    rw [List.reverse_cons, reduce_append, ih h.tail]
    exact h.push_top

/-! ## Names, and ways back from them -/

theorem reduce_names {names : List α} (hkept : ∀ s ∈ names, m.skips s = false)
    (hnames : m.up ∉ names) : reduce m anchored stack names = names.reverse ++ stack := by
  induction names generalizing stack with
  | nil => rfl
  | cons s names ih =>
    rw [List.mem_cons, not_or] at hnames
    have hpush : push m anchored stack s = s :: stack :=
      push_name (hkept s List.mem_cons_self) (Ne.symm hnames.1)
    have htail : reduce m anchored (s :: stack) names = names.reverse ++ s :: stack :=
      ih (fun x hx => hkept x (List.mem_cons_of_mem _ hx)) hnames.2
    rw [List.reverse_cons, List.append_assoc, List.singleton_append, ← htail, ← hpush]
    rfl

/-- As many steps up as there are names lead back to where they started. -/
theorem reduce_ups {names : List α} (hnames : m.up ∉ names) :
    reduce m anchored (names ++ stack) (List.replicate names.length m.up) = stack := by
  induction names with
  | nil => rfl
  | cons s names ih =>
    rw [List.mem_cons, not_or] at hnames
    rw [List.length_cons, List.replicate_succ, List.cons_append]
    refine Eq.trans ?_ (ih hnames.2)
    exact congrArg (fun l => reduce m anchored l (List.replicate names.length m.up))
      (push_up_name (Ne.symm hnames.1))

/-! ## Reading from the end -/

/-- What is kept of an anchored path that is read from its end, where `k` segments that lead up
still wait for one to remove. -/
def keptFrom (m : Marks α) : Nat → List α → List α
  | _, [] => []
  | k, s :: before =>
    if m.skips s then keptFrom m k before
    else if s = m.up then keptFrom m (k + 1) before
    else if k = 0 then s :: keptFrom m 0 before
    else keptFrom m (k - 1) before

theorem keptFrom_name (hs : m.skips s = false) (hup : s ≠ m.up) (before : List α) :
    keptFrom m 0 (s :: before) = s :: keptFrom m 0 before := by
  rw [keptFrom, if_neg (by simp [hs]), if_neg hup, if_pos rfl]

theorem push_up (h : Reduced m true stack) : push m true stack m.up = stack.tail := by
  cases stack with
  | nil => exact push_up_anchored
  | cons top rest =>
    obtain ⟨names, k, hstack, hnames, hk⟩ := h.ups
    rw [hk rfl, List.replicate_zero, List.append_nil] at hstack
    rw [← hstack, List.mem_cons, not_or] at hnames
    exact push_up_name (Ne.symm hnames.1)

theorem drop_reduce (parts : List α) (k : Nat) :
    (reduce m true [] parts).drop k = keptFrom m k parts.reverse := by
  induction parts using List.reverseRecOn generalizing k with
  | nil => simp [reduce, keptFrom]
  | append_singleton parts s ih =>
    rw [reduce_append, List.reverse_append, List.reverse_singleton, List.singleton_append, keptFrom]
    have hlast : reduce m true (reduce m true [] parts) [s] =
        push m true (reduce m true [] parts) s := rfl
    rw [hlast]
    cases hskip : m.skips s with
    | true => rw [push_skip hskip, if_pos rfl, ih]
    | false =>
      rw [if_neg (by simp)]
      by_cases hup : s = m.up
      · have hreduced : Reduced m true (reduce m true [] parts) := reduced_nil.reduce parts
        rw [if_pos hup, hup, push_up hreduced, List.drop_tail, ih]
      · rw [if_neg hup, push_name hskip hup]
        cases k with
        | zero => rw [if_pos rfl, List.drop_zero, ← ih 0, List.drop_zero]
        | succ k => rw [if_neg (by simp), List.drop_succ_cons, ih, Nat.add_sub_cancel]

/-- Nothing is kept. -/
def Removed (m : Marks α) : Nat → List α → Prop
  | _, [] => True
  | k, s :: before =>
    if m.skips s then Removed m k before
    else if s = m.up then Removed m (k + 1) before
    else k ≠ 0 ∧ Removed m (k - 1) before

theorem keptFrom_eq_nil_iff (k : Nat) (l : List α) : keptFrom m k l = [] ↔ Removed m k l := by
  induction l generalizing k with
  | nil => simp [keptFrom, Removed]
  | cons s before ih =>
    rw [keptFrom, Removed]
    split
    · exact ih k
    split
    · exact ih (k + 1)
    split
    next hzero => simp [hzero]
    next hwaits => simp [hwaits, ih]

/-! ## Two ways of reading -/

/-- The same segment leads up, and `coarse` passes over whatever `fine` passes over. -/
structure Coarser (coarse fine : Marks α) : Prop where
  up : coarse.up = fine.up
  skips : ∀ s, fine.skips s = true → coarse.skips s = true

/-- Both ways of reading keep the same segments, where `i` segments that lead up wait in the fine
one and `k` in the coarse one. Each segment that only the coarse one passes over is removed in
the fine one, and a segment that the coarse one removes is removed in the fine one as well. -/
def Agree (coarse fine : Marks α) : Nat → Nat → List α → Prop
  | _, _, [] => True
  | i, k, s :: before =>
    if fine.skips s then Agree coarse fine i k before
    else if s = fine.up then Agree coarse fine (i + 1) (k + 1) before
    else if coarse.skips s then i ≠ 0 ∧ Agree coarse fine (i - 1) k before
    else (i = 0 → k = 0) ∧ Agree coarse fine (i - 1) (k - 1) before

variable {coarse fine : Marks α}

/-- The coarse way keeps no more. -/
theorem Coarser.length_le (h : Coarser coarse fine) {i k : Nat} (hik : i ≤ k) (l : List α) :
    (keptFrom coarse k l).length ≤ (keptFrom fine i l).length := by
  induction l generalizing i k with
  | nil => simp [keptFrom]
  | cons s before ih =>
    rw [keptFrom, keptFrom, h.up]
    by_cases hfine : fine.skips s = true
    · rw [if_pos (h.skips s hfine), if_pos hfine]
      exact ih hik
    rw [if_neg hfine]
    by_cases hup : s = fine.up
    · have hcoarse : ¬ coarse.skips s = true := by
        rw [hup, ← h.up, coarse.up_kept]
        simp
      rw [if_neg hcoarse, if_pos hup, if_pos hup]
      exact ih (Nat.succ_le_succ hik)
    rw [if_neg hup, if_neg hup]
    by_cases hcoarse : coarse.skips s = true
    · rw [if_pos hcoarse]
      split
      next hi => exact Nat.le_succ_of_le (ih (by omega))
      next hi => exact ih (by omega)
    · rw [if_neg hcoarse]
      by_cases hi : i = 0
      · rw [if_pos hi]
        split
        next hk => exact Nat.succ_le_succ (ih (Nat.le_refl 0))
        next hk => exact Nat.le_succ_of_le (ih (Nat.zero_le _))
      · rw [if_neg hi, if_neg (by omega)]
        exact ih (by omega)

theorem Coarser.keptFrom_eq_iff (h : Coarser coarse fine) {i k : Nat} (hik : i ≤ k)
    (l : List α) : keptFrom coarse k l = keptFrom fine i l ↔ Agree coarse fine i k l := by
  induction l generalizing i k with
  | nil => simp [keptFrom, Agree]
  | cons s before ih =>
    -- what the fine way keeps at this segment makes its list the longer one
    have hlonger : ∀ {j}, keptFrom coarse j before ≠ s :: keptFrom fine 0 before := by
      intro j heq
      have hle := h.length_le (Nat.zero_le j) before
      rw [heq, List.length_cons] at hle
      omega
    rw [keptFrom, keptFrom, Agree, h.up]
    by_cases hfine : fine.skips s = true
    · rw [if_pos (h.skips s hfine), if_pos hfine, if_pos hfine]
      exact ih hik
    rw [if_neg hfine, if_neg hfine]
    by_cases hup : s = fine.up
    · have hcoarse : ¬ coarse.skips s = true := by
        rw [hup, ← h.up, coarse.up_kept]
        simp
      rw [if_neg hcoarse, if_pos hup, if_pos hup, if_pos hup]
      exact ih (Nat.succ_le_succ hik)
    rw [if_neg hup, if_neg hup, if_neg hup]
    by_cases hcoarse : coarse.skips s = true
    · rw [if_pos hcoarse, if_pos hcoarse]
      by_cases hi : i = 0
      · rw [if_pos hi]
        exact iff_of_false hlonger fun hagree => hagree.1 hi
      · rw [if_neg hi, ih (by omega)]
        simp [hi]
    · rw [if_neg hcoarse, if_neg hcoarse]
      by_cases hi : i = 0
      · rw [if_pos hi]
        by_cases hk : k = 0
        · rw [if_pos hk, List.cons.injEq, ih (Nat.le_refl 0)]
          simp [hi, hk]
        · rw [if_neg hk]
          exact iff_of_false hlonger fun hagree => hk (hagree.1 hi)
      · rw [if_neg hi, if_neg (by omega), ih (by omega)]
        simp [hi]

end DotSegments
