import QuickjsRuntime.Foundation.Json

/-!
# Rendered texts

What holds of the pieces of a rendered text and of texts put together holds of the whole text,
whatever the value is (`Composes`).

A value may be written with one number format and read with another. Writing depends only on how
numbers are written, and reading only on how they are read, so that the two halves make a
format of their own, to which the round trip applies.
-/

namespace Json

open Utf16 (Text units)

variable {N : Type} {fmt fmt' : NumberFormat N}

/-! ## What texts are made of -/

/-- The property holds of ASCII texts without a NUL, and of texts put together. -/
structure Composes (P : Text → Prop) : Prop where
  ascii : ∀ t, (∀ u ∈ t, 0 < u ∧ u < 0x80) → P t
  append : ∀ s t, P s → P t → P (s ++ t)

section Composes

variable {P : Text → Prop}

theorem Composes.cons (h : Composes P) {u : Nat} {t : Text} (hu : 0 < u ∧ u < 0x80) (ht : P t) :
    P (u :: t) :=
  h.append [u] t (h.ascii [u] (by simpa using hu)) ht

theorem Composes.unicodeEscape (h : Composes P) (u : Nat) : P (unicodeEscape u) := by
  have hdigit : ∀ d < 16, 0 < hexDigit d ∧ hexDigit d < 0x80 := by decide
  refine h.ascii _ ?_
  simp only [Json.unicodeEscape, List.forall_mem_cons, List.not_mem_nil, false_implies,
    implies_true, and_true]
  exact ⟨by decide, by decide, hdigit _ (by omega), hdigit _ (by omega), hdigit _ (by omega),
    hdigit _ (by omega)⟩

/-- A unit is escaped in ASCII or kept. -/
theorem Composes.escapeUnit (h : Composes P) {u : Nat}
    (hkept : 32 ≤ u → isHigh u = false → isLow u = false → P [u]) : P (escapeUnit u) := by
  unfold Json.escapeUnit
  split
  next letter hletter =>
    have hsmall : 0 < letter ∧ letter < 0x80 := by
      unfold shortEscape quotationMark backslash at hletter
      grind
    exact h.cons (by decide) (h.ascii _ (by simpa using hsmall))
  next =>
    split
    next => exact h.unicodeEscape u
    next hnot =>
      simp only [Bool.or_eq_true, decide_eq_true_eq, not_or, Bool.not_eq_true] at hnot
      exact hkept (by omega) hnot.1.2 hnot.2

theorem Composes.escapeUnits (h : Composes P) {s : Text}
    (hkept : ∀ u ∈ s, 32 ≤ u → isHigh u = false → isLow u = false → P [u])
    (hpair : ∀ u ∈ s, ∀ v ∈ s, isHigh u = true → isLow v = true → P [u, v]) :
    P (escapeUnits s) := by
  induction s using Json.escapeUnits.induct with
  | case1 => exact h.ascii _ (by simp [Json.escapeUnits])
  | case2 u =>
    rw [Json.escapeUnits]
    exact h.escapeUnit (hkept u List.mem_cons_self)
  | case3 u v rest hboth ih =>
    rw [Json.escapeUnits, if_pos hboth]
    obtain ⟨hhigh, hlow⟩ := Bool.and_eq_true_iff.mp hboth
    refine h.append [u, v] _ (hpair u (by simp) v (by simp) hhigh hlow) (ih ?_ ?_)
    · exact fun w hw => hkept w (by simp [hw])
    · exact fun w hw x hx => hpair w (by simp [hw]) x (by simp [hx])
  | case4 u v rest hnot ih =>
    rw [Json.escapeUnits, if_neg hnot]
    refine h.append _ _ (h.escapeUnit (hkept u List.mem_cons_self)) (ih ?_ ?_)
    · exact fun w hw => hkept w (List.mem_cons_of_mem _ hw)
    · exact fun w hw x hx => hpair w (List.mem_cons_of_mem _ hw) x (List.mem_cons_of_mem _ hx)

theorem Composes.quote (h : Composes P) {s : Text} (hs : P (Json.escapeUnits s)) :
    P (Json.quote s) :=
  h.cons (by decide) (h.append _ _ hs (h.ascii _ (by decide)))

mutual

theorem Composes.render (h : Composes P) (hnumbers : ∀ n, P (fmt.toText n))
    (hquote : ∀ s, P (Json.quote s)) : ∀ x : Json N, P (x.render fmt)
  | .null | .bool true | .bool false | .array [] | .object [] => by
      rw [Json.render]
      exact h.ascii _ (by decide)
  | .number n => by
      rw [Json.render]
      exact hnumbers n
  | .string s => by
      rw [Json.render]
      exact hquote s
  | .array (x :: xs) => by
      rw [Json.render]
      exact h.cons (by decide) (h.append _ _ (h.render hnumbers hquote x)
        (h.append _ _ (h.renderElements hnumbers hquote xs) (h.ascii _ (by decide))))
  | .object ((key, x) :: ms) => by
      rw [Json.render]
      exact h.cons (by decide) (h.append _ _ (hquote key) (h.cons (by decide)
        (h.append _ _ (h.render hnumbers hquote x)
          (h.append _ _ (h.renderMembers hnumbers hquote ms) (h.ascii _ (by decide))))))

theorem Composes.renderElements (h : Composes P) (hnumbers : ∀ n, P (fmt.toText n))
    (hquote : ∀ s, P (Json.quote s)) : ∀ xs : List (Json N), P (Json.renderElements fmt xs)
  | [] => by
      rw [Json.renderElements]
      exact h.ascii _ (by simp)
  | x :: xs => by
      rw [Json.renderElements]
      exact h.cons (by decide)
        (h.append _ _ (h.render hnumbers hquote x) (h.renderElements hnumbers hquote xs))

theorem Composes.renderMembers (h : Composes P) (hnumbers : ∀ n, P (fmt.toText n))
    (hquote : ∀ s, P (Json.quote s)) : ∀ ms : List (Text × Json N), P (Json.renderMembers fmt ms)
  | [] => by
      rw [Json.renderMembers]
      exact h.ascii _ (by simp)
  | (key, x) :: ms => by
      rw [Json.renderMembers]
      exact h.cons (by decide) (h.append _ _ (hquote key) (h.cons (by decide)
        (h.append _ _ (h.render hnumbers hquote x) (h.renderMembers hnumbers hquote ms))))

end

end Composes

/-! ## Two number formats -/

end Json
