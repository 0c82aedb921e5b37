import Mathlib.Logic.Function.Basic
import Mathlib.Tactic.Common

/-!
# Loops that store cell by cell

A memory is a function from addresses. Round `i` of the loop stores a value at `dest i`, and the
value may be read from the memory as the rounds before it have left it.

Where the rounds copy, a cell that is overwritten before it is read has lost its value. The loop
copies what was there at the start exactly if every such cell is overwritten by the value it has.
-/

namespace Copying

variable {α β : Type*} [DecidableEq α]

/-- The memory after the given number of rounds. -/
def storeLoop (dest : Nat → α) (value : Nat → (α → β) → β) (m : α → β) : Nat → α → β
  | 0 => m
  | n + 1 =>
    Function.update (storeLoop dest value m n) (dest n) (value n (storeLoop dest value m n))

variable {dest source : Nat → α} {value : Nat → (α → β) → β} {m : α → β} {n i : Nat}

theorem storeLoop_frame {a : α} (ha : ∀ i < n, dest i ≠ a) : storeLoop dest value m n a = m a := by
  induction n with
  | zero => rfl
  | succ n ih =>
    rw [storeLoop, Function.update_of_ne (ha n (Nat.lt_succ_self n)).symm]
    exact ih fun i hi => ha i (Nat.lt_succ_of_lt hi)

/-- What a round stores stays there. -/
theorem storeLoop_dest (hdest : Function.Injective dest) (hi : i < n) :
    storeLoop dest value m n (dest i) = value i (storeLoop dest value m i) := by
  induction n with
  | zero => exact absurd hi (Nat.not_lt_zero i)
  | succ n ih =>
    rw [storeLoop]
    rcases Nat.lt_succ_iff_lt_or_eq.mp hi with hlt | rfl
    · rw [Function.update_of_ne fun heq => Nat.ne_of_lt hlt (hdest heq)]
      exact ih hlt
    · exact Function.update_self ..

/-! ## Copying -/

/-- The rounds that copy from `source` to `dest`. -/
def copyLoop (dest source : Nat → α) (m : α → β) (n : Nat) : α → β :=
  storeLoop dest (fun i m => m (source i)) m n

theorem copyLoop_dest (hdest : Function.Injective dest) (hi : i < n) :
    copyLoop dest source m n (dest i) = copyLoop dest source m i (source i) :=
  storeLoop_dest hdest hi

/-- No cell loses its value between the start and the round that reads it. -/
def Undisturbed (dest source : Nat → α) (m : α → β) (n : Nat) : Prop :=
  ∀ i < n, ∀ j < i, dest j = source i → m (source j) = m (source i)

theorem copyLoop_eq_iff (hdest : Function.Injective dest) :
    (∀ i < n, copyLoop dest source m n (dest i) = m (source i)) ↔ Undisturbed dest source m n := by
  -- a cell that was overwritten in round `j` is read with what round `j` left there
  have hread : ∀ {i j}, i < n → j < i → dest j = source i →
      copyLoop dest source m n (dest i) = copyLoop dest source m n (dest j) := by
    intro i j hi hj heq
    rw [copyLoop_dest hdest hi, ← heq, copyLoop_dest hdest hj,
      copyLoop_dest hdest (Nat.lt_trans hj hi)]
  constructor
  · intro hcopied i hi j hj heq
    rw [← hcopied i hi, ← hcopied j (Nat.lt_trans hj hi), hread hi hj heq]
  · intro hkept i
    induction i using Nat.strongRecOn with
    | ind i ih =>
      intro hi
      by_cases hover : ∃ j < i, dest j = source i
      · obtain ⟨j, hj, heq⟩ := hover
        rw [hread hi hj heq, ih j hj (Nat.lt_trans hj hi), hkept i hi j hj heq]
      · rw [copyLoop_dest hdest hi]
        exact storeLoop_frame fun j hj heq => hover ⟨j, hj, heq⟩

end Copying
