import QuickjsRuntime.Foundation.Transition

/-! # Runs that come to rest

Some of the labels of a machine are its inner steps: those it takes without being called.
Where a measure decreases in each of them, a run of inner steps is at most as long as the
measure at its start.
-/

namespace Transition

variable {σ ι : Type*} {step : σ → ι → Option σ} {inner : ι → Prop} {inv : σ → Prop}
variable {measure : σ → Nat} {s s' : σ}

/-- No inner step is enabled. -/
def AtRest (step : σ → ι → Option σ) (inner : ι → Prop) (s : σ) : Prop :=
  ∀ l, inner l → step s l = none

/-- Inner steps keep an invariant, and a measure decreases in them. -/
structure Settling (step : σ → ι → Option σ) (inner : ι → Prop) (inv : σ → Prop)
    (measure : σ → Nat) : Prop where
  keeps : ∀ s l s', inv s → inner l → step s l = some s' → inv s'
  decreases : ∀ s l s', inv s → inner l → step s l = some s' → measure s' < measure s

/-- The measure pays for every step of a run. -/
theorem Settling.run (h : Settling step inner inv measure) {ls : List ι}
    (hinner : ∀ l ∈ ls, inner l) (hrun : run step s ls = some s') (hinv : inv s) :
    inv s' ∧ ls.length + measure s' ≤ measure s := by
  induction ls generalizing s with
  | nil =>
    cases hrun
    exact ⟨hinv, Nat.le_of_eq (Nat.zero_add _)⟩
  | cons l ls ih =>
    obtain ⟨hl, hls⟩ := List.forall_mem_cons.mp hinner
    rw [run_cons] at hrun
    obtain ⟨middle, hmiddle, hrest⟩ := Option.bind_eq_some_iff.mp hrun
    have hpaid := h.decreases s l middle hinv hl hmiddle
    obtain ⟨hinv', htail⟩ := ih hls hrest (h.keeps s l middle hinv hl hmiddle)
    rw [List.length_cons]
    exact ⟨hinv', by omega⟩

end Transition
