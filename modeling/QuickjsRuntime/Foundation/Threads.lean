import Mathlib.Data.Fintype.Card
import Mathlib.Data.List.Nodup
import Mathlib.Data.List.Pairwise
import Mathlib.Logic.Function.Basic

/-! # Threads that draw keys

A shared counter hands out keys in ascending order. A thread that has drawn a key holds it
until it spends it or gives it up; which key a thread holds is read off the place it is at,
and which keys have been spent is read off a log. How many threads are at a place of their
program is counted by `crowd`.
-/

namespace Threads

variable {α β κ ε : Type*} [DecidableEq α]

/-! ## Keys -/

/-- No key is held twice or spent twice, and no key that is held has been spent. -/
structure Ledger [Preorder κ] (held : β → Option κ) (place : α → β) (spent : ε → Option κ)
    (log : List ε) (next : κ) : Prop where
  heldBelow : ∀ a k, held (place a) = some k → k < next
  spentBelow : ∀ k ∈ log.filterMap spent, k < next
  distinct : ∀ a b k, held (place a) = some k → held (place b) = some k → a = b
  unspent : ∀ a k, held (place a) = some k → k ∉ log.filterMap spent
  nodup : (log.filterMap spent).Nodup

section Ledger

variable [Preorder κ] {held : β → Option κ} {place : α → β} {spent : ε → Option κ}
variable {log : List ε} {next next' : κ} {a : α} {b : β} {e : ε} {k : κ}

omit [DecidableEq α] in
theorem Ledger.empty (hplace : ∀ a, held (place a) = none) : Ledger held place spent [] next where
  heldBelow a k h := by rw [hplace] at h; cases h
  spentBelow _ h := nomatch h
  distinct a b k h := by rw [hplace] at h; cases h
  unspent _ _ _ h := nomatch h
  nodup := List.nodup_nil

omit [Preorder κ] in
theorem held_update_cases {c : α} (h : held (Function.update place a b c) = some k) :
    (c = a ∧ held b = some k) ∨ (c ≠ a ∧ held (place c) = some k) := by
  by_cases hc : c = a
  · subst hc
    rw [Function.update_self] at h
    exact .inl ⟨rfl, h⟩
  · rw [Function.update_of_ne hc] at h
    exact .inr ⟨hc, h⟩

/-- A thread goes on with the key it has. -/
theorem Ledger.keep (h : Ledger held place spent log next) (hb : held b = held (place a)) :
    Ledger held (Function.update place a b) spent log next := by
  have hheld : ∀ c, held (Function.update place a b c) = held (place c) := by
    intro c
    by_cases hc : c = a
    · subst hc
      rw [Function.update_self, hb]
    · rw [Function.update_of_ne hc]
  refine ⟨?_, h.spentBelow, ?_, ?_, h.nodup⟩
  · intro c k hk
    exact h.heldBelow c k (hheld c ▸ hk)
  · intro c d k hc hd
    exact h.distinct c d k (hheld c ▸ hc) (hheld d ▸ hd)
  · intro c k hk
    exact h.unspent c k (hheld c ▸ hk)

/-- A thread draws the next key. -/
theorem Ledger.draw (h : Ledger held place spent log next) (hb : held b = some next)
    (hnext : next < next') : Ledger held (Function.update place a b) spent log next' := by
  have hcases : ∀ c k, held (Function.update place a b c) = some k →
      (c = a ∧ k = next) ∨ held (place c) = some k := by
    intro c k hk
    rcases held_update_cases hk with ⟨hc, hk⟩ | ⟨-, hk⟩
    · exact .inl ⟨hc, Option.some.inj (hk.symm.trans hb)⟩
    · exact .inr hk
  refine ⟨?_, fun k hk => lt_trans (h.spentBelow k hk) hnext, ?_, ?_, h.nodup⟩
  · intro c k hk
    rcases hcases c k hk with ⟨-, rfl⟩ | hk
    · exact hnext
    · exact lt_trans (h.heldBelow c k hk) hnext
  · intro c d k hc hd
    rcases hcases c k hc with ⟨hca, hk⟩ | hc
    · rcases hcases d k hd with ⟨hda, -⟩ | hd
      · exact hca.trans hda.symm
      · exact absurd (hk ▸ h.heldBelow d k hd) (lt_irrefl _)
    · rcases hcases d k hd with ⟨-, hk⟩ | hd
      · exact absurd (hk ▸ h.heldBelow c k hc) (lt_irrefl _)
      · exact h.distinct c d k hc hd
  · intro c k hk hspent
    rcases hcases c k hk with ⟨-, rfl⟩ | hk
    · exact lt_irrefl _ (h.spentBelow _ hspent)
    · exact h.unspent c k hk hspent

omit [Preorder κ] in
theorem held_of_update {c : α} (hb : held b = none)
    (h : held (Function.update place a b c) = some k) : c ≠ a ∧ held (place c) = some k := by
  rcases held_update_cases h with ⟨-, hk⟩ | hk
  · rw [hb] at hk
    cases hk
  · exact hk

/-- A thread gives up its key, or goes on without one. -/
theorem Ledger.drop (h : Ledger held place spent log next) (hb : held b = none) :
    Ledger held (Function.update place a b) spent log next where
  heldBelow c k hk := h.heldBelow c k (held_of_update hb hk).2
  spentBelow := h.spentBelow
  distinct c d k hc hd := h.distinct c d k (held_of_update hb hc).2 (held_of_update hb hd).2
  unspent c k hk := h.unspent c k (held_of_update hb hk).2
  nodup := h.nodup

omit [DecidableEq α] in
theorem Ledger.record (h : Ledger held place spent log next) (he : spent e = none) :
    Ledger held place spent (log ++ [e]) next := by
  have hlog : (log ++ [e]).filterMap spent = log.filterMap spent := by
    simp [List.filterMap_append, he]
  exact ⟨h.heldBelow, hlog ▸ h.spentBelow, h.distinct, hlog ▸ h.unspent, hlog ▸ h.nodup⟩

/-- A thread spends its key. -/
theorem Ledger.spend (h : Ledger held place spent log next) (hk : held (place a) = some k)
    (he : spent e = some k) (hb : held b = none) :
    Ledger held (Function.update place a b) spent (log ++ [e]) next := by
  have hlog : (log ++ [e]).filterMap spent = log.filterMap spent ++ [k] := by
    simp [List.filterMap_append, he]
  refine ⟨(h.drop hb).heldBelow, ?_, (h.drop hb).distinct, ?_, ?_⟩
  · rw [hlog]
    intro j hj
    rcases List.mem_append.mp hj with hj | hj
    · exact h.spentBelow j hj
    · exact List.mem_singleton.mp hj ▸ h.heldBelow a k hk
  · rw [hlog]
    intro c j hj hspent
    obtain ⟨hne, hj⟩ := held_of_update hb hj
    rcases List.mem_append.mp hspent with hspent | hspent
    · exact h.unspent c j hj hspent
    · rw [List.mem_singleton.mp hspent] at hj
      exact hne (h.distinct c a k hj hk)
  · rw [hlog, List.nodup_append]
    refine ⟨h.nodup, List.nodup_singleton k, ?_⟩
    intro j hj i hi hji
    rw [List.mem_singleton.mp hi] at hji
    exact h.unspent a k hk (hji ▸ hj)

omit [DecidableEq α] in
/-- Different records do not spend the same key. -/
theorem Ledger.eq_of_spent (h : Ledger held place spent log next) {e e' : ε} (he : e ∈ log)
    (he' : e' ∈ log) (hk : spent e = some k) (hk' : spent e' = some k) : e = e' := by
  have hpair := List.pairwise_filterMap.mp h.nodup
  have : Std.Symm fun x y => ∀ j, spent x = some j → ∀ i, spent y = some i → j ≠ i :=
    ⟨fun x y hxy j hj i hi => (hxy i hi j hj).symm⟩
  by_contra hne
  exact hpair.forall he he' hne k hk k hk' rfl

end Ledger

/-! ## Places -/

section Crowd

variable [Fintype α] {place : α → β} {p : β → Bool} {a : α} {b : β}

omit [DecidableEq α] in
/-- How many threads are at a place with the property. -/
def crowd (p : β → Bool) (place : α → β) : Nat :=
  (Finset.univ.filter fun a => p (place a) = true).card

theorem crowd_eq_erase (p : β → Bool) (place : α → β) (a : α) :
    crowd p place = ((Finset.univ.erase a).filter fun x => p (place x) = true).card +
      if p (place a) then 1 else 0 := by
  rw [crowd, ← Finset.insert_erase (Finset.mem_univ a), Finset.filter_insert]
  split
  · rw [Finset.card_insert_of_notMem (by simp), Finset.erase_insert (by simp)]
  · rw [Finset.erase_insert (by simp)]
    rfl

/-- A thread that changes its place changes the count by itself only. -/
theorem crowd_update (p : β → Bool) (place : α → β) (a : α) (b : β) :
    crowd p (Function.update place a b) + (if p (place a) then 1 else 0) =
      crowd p place + if p b then 1 else 0 := by
  have hothers : ((Finset.univ.erase a).filter fun x => p (Function.update place a b x) = true) =
      (Finset.univ.erase a).filter fun x => p (place x) = true := by
    refine Finset.filter_congr fun x hx => ?_
    rw [Function.update_of_ne (Finset.ne_of_mem_erase hx)]
  rw [crowd_eq_erase p (Function.update place a b) a, crowd_eq_erase p place a, hothers,
    Function.update_self]
  omega

omit [DecidableEq α] in
theorem crowd_lt_card (ha : p (place a) = false) : crowd p place < Fintype.card α := by
  refine Finset.card_lt_univ_of_notMem (x := a) ?_
  simp [ha]

end Crowd

end Threads
