import Mathlib.Data.Option.Basic

/-! # Guarded runs of a labelled machine

A machine is a partial step function: `step s l = none` says that the label `l`
is not enabled at `s`. A run may be restricted to the steps that meet a guard
on the state before the step and its label, so that one machine serves both
the unrestricted results and those about runs that stay clear of a bad step.
-/

namespace Transition

variable {σ ι : Type*}

/-- The states reached from `init` by enabled steps that all meet `allowed`. -/
inductive Reachable (step : σ → ι → Option σ) (allowed : σ → ι → Prop) (init : σ) : σ → Prop
  | init : Reachable step allowed init init
  | next {s s' : σ} (l : ι) : Reachable step allowed init s → allowed s l →
      step s l = some s' → Reachable step allowed init s'

/-- Take the labels of a list in order, stopping at the first that is not enabled. -/
def run (step : σ → ι → Option σ) : σ → List ι → Option σ
  | s, [] => some s
  | s, l :: ls => (step s l).bind (run step · ls)

/-- Every step of the list meets the guard at the state in which it is taken. -/
def RunAllowed (step : σ → ι → Option σ) (allowed : σ → ι → Prop) : σ → List ι → Prop
  | _, [] => True
  | s, l :: ls => allowed s l ∧ ∀ s', step s l = some s' → RunAllowed step allowed s' ls

variable {step : σ → ι → Option σ} {allowed allowed' : σ → ι → Prop} {init s s' : σ}
  {ls : List ι}

theorem RunAllowed.cons {l : ι} (hallowed : allowed s l) (hstep : step s l = some s')
    (hrest : RunAllowed step allowed s' ls) : RunAllowed step allowed s (l :: ls) := by
  refine ⟨hallowed, ?_⟩
  intro next hnext
  obtain rfl : s' = next := Option.some.inj (hstep.symm.trans hnext)
  exact hrest

/-- A guard on the labels alone is checked on the list. -/
theorem RunAllowed.of_forall (h : ∀ l ∈ ls, ∀ s, allowed s l) :
    RunAllowed step allowed s ls := by
  induction ls generalizing s with
  | nil => trivial
  | cons l ls ih =>
    refine ⟨h l List.mem_cons_self s, fun s' _ => ih ?_⟩
    intro l' hl'
    exact h l' (List.mem_cons_of_mem _ hl')

/-- A guard that can be decided can be checked along a list of labels. -/
instance decidableRunAllowed [∀ s l, Decidable (allowed s l)] :
    ∀ (s : σ) (ls : List ι), Decidable (RunAllowed step allowed s ls)
  | _, [] => .isTrue trivial
  | s, l :: ls =>
    haveI := fun s' => decidableRunAllowed s' ls
    match hstep : step s l with
    | none => decidable_of_iff (allowed s l) (by simp [RunAllowed, hstep])
    | some s' =>
      decidable_of_iff (allowed s l ∧ RunAllowed step allowed s' ls)
        (by simp [RunAllowed, hstep])

@[simp] theorem run_nil : run step s [] = some s := rfl

theorem run_cons (l : ι) (ls : List ι) :
    run step s (l :: ls) = (step s l).bind (run step · ls) := rfl

/-- A property of the start that every allowed step keeps holds of every reached state. -/
theorem Reachable.invariant (inv : σ → Prop) (hinit : inv init)
    (hstep : ∀ s l s', inv s → allowed s l → step s l = some s' → inv s')
    (hreach : Reachable step allowed init s) : inv s := by
  induction hreach with
  | init => exact hinit
  | next l _ hallowed hnext ih => exact hstep _ l _ ih hallowed hnext

/-- An allowed run from a reachable state ends in a reachable state. -/
theorem Reachable.run (hreach : Reachable step allowed init s)
    (hallowed : RunAllowed step allowed s ls) (hrun : run step s ls = some s') :
    Reachable step allowed init s' := by
  induction ls generalizing s with
  | nil =>
    cases hrun
    exact hreach
  | cons l ls ih =>
    rw [run_cons] at hrun
    obtain ⟨middle, hmiddle, hrest⟩ := Option.bind_eq_some_iff.mp hrun
    exact ih (hreach.next l hallowed.1 hmiddle) (hallowed.2 middle hmiddle) hrest

theorem reachable_of_run (hrun : run step init ls = some s) :
    Reachable step (fun _ _ => True) init s :=
  Reachable.init.run (.of_forall fun _ _ _ => trivial) hrun

/-- What every allowed step keeps is kept by a whole allowed run. -/
theorem run_invariant (inv : σ → Prop)
    (hstep : ∀ s l s', inv s → allowed s l → step s l = some s' → inv s')
    (hallowed : RunAllowed step allowed s ls)
    (hrun : run step s ls = some s') (hinv : inv s) : inv s' := by
  induction ls generalizing s with
  | nil =>
    cases hrun
    exact hinv
  | cons l ls ih =>
    rw [run_cons] at hrun
    obtain ⟨middle, hmiddle, hrest⟩ := Option.bind_eq_some_iff.mp hrun
    exact ih (hallowed.2 middle hmiddle) hrest (hstep _ l _ hinv hallowed.1 hmiddle)

/-- Machines whose related states have the same steps enabled, under a translation of labels,
and stay related run alike. -/
theorem run_rel {τ κ : Type*} {step' : τ → κ → Option τ} {related : σ → τ → Prop}
    {translate : ι → κ} {usual : ι → Prop}
    (hstep : ∀ s t l, related s t → usual l → Option.Rel related (step s l) (step' t (translate l)))
    (husual : ∀ l ∈ ls, usual l) {t : τ} (hrelated : related s t) :
    Option.Rel related (run step s ls) (run step' t (ls.map translate)) := by
  induction ls generalizing s t with
  | nil => exact .some hrelated
  | cons l ls ih =>
    obtain ⟨hl, hls⟩ := List.forall_mem_cons.mp husual
    have hnext := hstep s t l hrelated hl
    rw [List.map_cons, run_cons, run_cons]
    cases hs : step s l <;> cases ht : step' t (translate l) <;> rw [hs, ht] at hnext
    all_goals cases hnext
    · exact .none
    · rename_i h
      exact ih hls h

/-! ## Lists of enabled steps -/

section Follows

variable {next : σ → ι → σ} {enabled : σ → ι → Prop}

/-- Each step of the list is enabled at the state that the steps before it lead to. -/
def Follows (next : σ → ι → σ) (enabled : σ → ι → Prop) : σ → List ι → Prop
  | _, [] => True
  | s, l :: ls => enabled s l ∧ Follows next enabled (next s l) ls

theorem follows_append {ls ls' : List ι} :
    Follows next enabled s (ls ++ ls') ↔
      Follows next enabled s ls ∧ Follows next enabled (ls.foldl next s) ls' := by
  induction ls generalizing s with
  | nil => simp [Follows]
  | cons l ls ih =>
    rw [List.cons_append, Follows, Follows, ih, List.foldl_cons, and_assoc]

/-- A list of enabled steps, wherever it is cut. -/
theorem follows_iff_split :
    Follows next enabled s ls ↔
      ∀ before l after, ls = before ++ l :: after → enabled (before.foldl next s) l := by
  constructor
  · rintro h before l after rfl
    exact (follows_append.mp h).2.1
  · intro h
    induction ls generalizing s with
    | nil => trivial
    | cons l ls ih =>
      refine ⟨h [] l ls rfl, ih ?_⟩
      intro before l' after hls
      exact h (l :: before) l' after (congrArg (l :: ·) hls)

theorem Follows.and {enabled' : σ → ι → Prop} (h : Follows next enabled s ls)
    (h' : Follows next enabled' s ls) :
    Follows next (fun s l => enabled s l ∧ enabled' s l) s ls := by
  induction ls generalizing s with
  | nil => trivial
  | cons l ls ih => exact ⟨⟨h.1, h'.1⟩, ih h.2 h'.2⟩

theorem Follows.invariant (inv : σ → Prop) (hnext : ∀ s l, inv s → enabled s l → inv (next s l))
    (h : Follows next enabled s ls) (hinv : inv s) : inv (ls.foldl next s) := by
  induction ls generalizing s with
  | nil => exact hinv
  | cons l ls ih => exact ih h.2 (hnext s l hinv h.1)

/-- A list of steps of a machine is one of every machine that keeps more beside the state. -/
theorem Follows.lift {σ' : Type*} {next' : σ' → ι → σ'} (proj : σ' → σ)
    (hproj : ∀ s l, proj (next' s l) = next (proj s) l) {s : σ'}
    (h : Follows next enabled (proj s) ls) :
    Follows next' (fun s l => enabled (proj s) l) s ls := by
  induction ls generalizing s with
  | nil => trivial
  | cons l ls ih => exact ⟨h.1, ih ((hproj s l).symm ▸ h.2)⟩

/-- A list of steps that are enabled under an invariant. -/
theorem Follows.imp {enabled' : σ → ι → Prop} (inv : σ → Prop)
    (hnext : ∀ s l, inv s → enabled s l → inv (next s l))
    (himp : ∀ s l, inv s → enabled s l → enabled' s l)
    (h : Follows next enabled s ls) (hinv : inv s) : Follows next enabled' s ls := by
  induction ls generalizing s with
  | nil => trivial
  | cons l ls ih => exact ⟨himp s l hinv h.1, ih h.2 (hnext s l hinv h.1)⟩

/-- Where a labelled step leaves a bound that later steps keep and later labels obey, the
labels stand in order. -/
theorem Follows.pairwise {κ : Type*} {label : ι → Option κ} {r : κ → κ → Prop}
    (good : σ → Prop) (bound : κ → σ → Prop) (hgood : ∀ s l, good s → enabled s l → good (next s l))
    (hbound : ∀ k s l, good s → enabled s l → bound k s → bound k (next s l))
    (hset : ∀ k s l, good s → enabled s l → label l = some k → bound k (next s l))
    (hobey : ∀ k k' s l, bound k s → enabled s l → label l = some k' → r k k')
    (h : Follows next enabled s ls) (hs : good s) :
    (ls.filterMap label).Pairwise r := by
  have hlater : ∀ {k : κ} {s : σ} {ls : List ι}, Follows next enabled s ls → good s → bound k s →
      ∀ k' ∈ ls.filterMap label, r k k' := by
    intro k s ls h hs hk
    induction ls generalizing s with
    | nil => simp
    | cons l ls ih =>
      have hrest := ih h.2 (hgood s l hs h.1) (hbound k s l hs h.1 hk)
      cases hl : label l with
      | none => rwa [List.filterMap_cons_none hl]
      | some k₁ =>
        rw [List.filterMap_cons_some hl, List.forall_mem_cons]
        exact ⟨hobey k k₁ s l hk h.1 hl, hrest⟩
  induction ls generalizing s with
  | nil => exact List.Pairwise.nil
  | cons l ls ih =>
    have hrest := ih h.2 (hgood s l hs h.1)
    cases hl : label l with
    | none => rwa [List.filterMap_cons_none hl]
    | some k =>
      rw [List.filterMap_cons_some hl, List.pairwise_cons]
      exact ⟨hlater h.2 (hgood s l hs h.1) (hset k s l hs h.1 hl), hrest⟩

end Follows

/-! ## Machines that answer -/

section Answers

variable {τ ω : Type*}

/-- Give the labels of a list in order to a machine that answers each. -/
def answers (step : σ → ι → ω × σ) : σ → List ι → List ω × σ
  | s, [] => ([], s)
  | s, l :: ls =>
    ((step s l).1 :: (answers step (step s l).2 ls).1, (answers step (step s l).2 ls).2)

/-- Machines whose related states answer alike and stay related answer a whole list alike. -/
theorem answers_simulation {step : σ → ι → ω × σ} {step' : τ → ι → ω × τ} {related : σ → τ → Prop}
    {allowed : ι → Prop} (hstep : ∀ s t l, related s t → allowed l →
      (step s l).1 = (step' t l).1 ∧ related (step s l).2 (step' t l).2)
    (hallowed : ∀ l ∈ ls, allowed l) {s : σ} {t : τ} (hrelated : related s t) :
    (answers step s ls).1 = (answers step' t ls).1 ∧
      related (answers step s ls).2 (answers step' t ls).2 := by
  induction ls generalizing s t with
  | nil => exact ⟨rfl, hrelated⟩
  | cons l ls ih =>
    obtain ⟨hl, hls⟩ := List.forall_mem_cons.mp hallowed
    obtain ⟨hanswer, hnext⟩ := hstep s t l hrelated hl
    obtain ⟨hrest, hlast⟩ := ih hls hnext
    refine ⟨?_, hlast⟩
    rw [answers, answers, hanswer, hrest]

end Answers

end Transition
