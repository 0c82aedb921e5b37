import Mathlib.Algebra.Group.Nat.Defs
import Mathlib.Data.List.DropRight
import Mathlib.Tactic.Common

/-!
# Texts and where they split

Texts are lists of UTF-16 code units. The splitting functions work over any type: at the
first, the last or every occurrence of an element, and at the first element with a property.
-/

namespace Utf16

abbrev Text := List Nat

instance lawfulBEq_text : LawfulBEq Text := inferInstance

/-- The code units of an ASCII text. -/
def units (s : String) : Text :=
  s.toList.map Char.toNat

def isDigit (c : Nat) : Bool := 0x30 ≤ c && c ≤ 0x39

/-- `String(n)` -/
def decimal (n : Nat) : Text :=
  (Nat.toDigits 10 n).map Char.toNat

/-- The value of a string of digits. -/
def digitsValue (digits : Text) : Nat :=
  digits.foldl (fun n c => n * 10 + (c - 0x30)) 0

theorem isDigit_of_mem_decimal {n c : Nat} (hc : c ∈ decimal n) : isDigit c = true := by
  obtain ⟨d, hd, rfl⟩ := List.mem_map.mp hc
  have hdigit := Nat.isDigit_of_mem_toDigits (by decide) (by decide) hd
  simp only [Char.isDigit, Bool.and_eq_true, decide_eq_true_eq] at hdigit
  simp only [isDigit, Bool.and_eq_true, decide_eq_true_eq]
  exact ⟨hdigit.1, hdigit.2⟩

theorem decimal_ne_nil (n : Nat) : decimal n ≠ [] := by
  intro h
  have hpos : 0 < (Nat.toDigits 10 n).length := Nat.length_toDigits_pos
  have hlen := congrArg List.length h
  simp only [decimal, List.length_map, List.length_nil] at hlen
  omega

theorem digitsValue_decimal (n : Nat) : digitsValue (decimal n) = n := by
  have hvalue : Nat.ofDigitChars 10 (Nat.toDigits 10 n) 0 = n :=
    Nat.ofDigitChars_toDigits (by decide) (by decide)
  rw [digitsValue, decimal, List.foldl_map]
  simpa [Nat.ofDigitChars, Nat.mul_comm] using hvalue

theorem digitsValue_append (s t : Text) :
    digitsValue (s ++ t) = digitsValue s * 10 ^ t.length + digitsValue t := by
  have hfold : ∀ (t : Text) (n : Nat), t.foldl (fun n c => n * 10 + (c - 0x30)) n =
      n * 10 ^ t.length + digitsValue t := by
    intro t
    induction t with
    | nil => simp [digitsValue]
    | cons c t ih =>
      intro n
      rw [digitsValue, List.foldl_cons, List.foldl_cons, ih, ih (0 * 10 + _), List.length_cons]
      simp only [Nat.zero_mul, Nat.zero_add, Nat.add_mul, Nat.pow_succ', Nat.mul_assoc,
        Nat.add_assoc]
  exact List.foldl_append.trans (hfold t _)

theorem digitsValue_eq_zero_iff {t : Text} (ht : ∀ c ∈ t, isDigit c = true) :
    digitsValue t = 0 ↔ ∀ c ∈ t, c = 0x30 := by
  induction t with
  | nil => simp [digitsValue]
  | cons c t ih =>
    have hdigit := ht c List.mem_cons_self
    simp only [isDigit, Bool.and_eq_true, decide_eq_true_eq] at hdigit
    have hzero : c - 0x30 = 0 ↔ c = 0x30 := by omega
    have hpower : 10 ^ t.length ≠ 0 := Nat.ne_of_gt (Nat.pow_pos (by decide))
    rw [← List.singleton_append, digitsValue_append, Nat.add_eq_zero_iff, Nat.mul_eq_zero,
      or_iff_left hpower, ih fun x hx => ht x (List.mem_cons_of_mem c hx)]
    simp [digitsValue, hzero]

/-- The white space of ECMAScript, `\s` in a regular expression. -/
def isSpace (c : Nat) : Bool :=
  (0x09 ≤ c && c ≤ 0x0D) || c = 0x20 || c = 0xA0 || c = 0x1680 || (0x2000 ≤ c && c ≤ 0x200A) ||
    c = 0x2028 || c = 0x2029 || c = 0x202F || c = 0x205F || c = 0x3000 || c = 0xFEFF

end Utf16

namespace Split

variable {α : Type} [DecidableEq α] {c : α} {a b l : List α}

/-! ## At the first occurrence -/

/-- What stands before and after the first `c`. -/
def splitFirst (c : α) : List α → Option (List α × List α)
  | [] => none
  | x :: xs =>
    if x = c then some ([], xs)
    else (splitFirst c xs).map fun p => (x :: p.1, p.2)

theorem splitFirst_eq_none_iff : splitFirst c l = none ↔ c ∉ l := by
  induction l with
  | nil => simp [splitFirst]
  | cons x xs ih =>
    by_cases hx : x = c
    · simp [splitFirst, hx]
    · simp [splitFirst, hx, ih, Ne.symm hx]

theorem splitFirst_append (ha : c ∉ a) : splitFirst c (a ++ c :: b) = some (a, b) := by
  induction a with
  | nil => simp [splitFirst]
  | cons x a ih =>
    simp only [List.mem_cons, not_or] at ha
    simp [splitFirst, Ne.symm ha.1, ih ha.2]

theorem splitFirst_eq_some_iff : splitFirst c l = some (a, b) ↔ l = a ++ c :: b ∧ c ∉ a := by
  constructor
  · intro h
    induction l generalizing a with
    | nil => simp [splitFirst] at h
    | cons x xs ih =>
      by_cases hx : x = c
      · simp only [splitFirst, hx, if_true, Option.some.injEq, Prod.mk.injEq] at h
        obtain ⟨rfl, rfl⟩ := h
        simp [hx]
      · simp only [splitFirst, if_neg hx, Option.map_eq_some_iff, Prod.mk.injEq] at h
        obtain ⟨⟨a', b'⟩, hsplit, rfl, rfl⟩ := h
        obtain ⟨rfl, ha'⟩ := ih hsplit
        simp [Ne.symm hx, ha']
  · rintro ⟨rfl, ha⟩
    exact splitFirst_append ha

/-! ## At the last occurrence -/

/-- What stands before and after the last `c`. -/
def splitLast (c : α) : List α → Option (List α × List α)
  | [] => none
  | x :: xs =>
    match splitLast c xs with
    | some (a, b) => some (x :: a, b)
    | none => if x = c then some ([], xs) else none

theorem splitLast_eq_none_iff : splitLast c l = none ↔ c ∉ l := by
  induction l with
  | nil => simp [splitLast]
  | cons x xs ih =>
    cases hrest : splitLast c xs with
    | some p =>
      have hmem : c ∈ xs := by
        by_contra hnot
        rw [ih.mpr hnot] at hrest
        cases hrest
      simp [splitLast, hrest, hmem]
    | none => simp [splitLast, hrest, ih.mp hrest, eq_comm]

theorem splitLast_append (hb : c ∉ b) : splitLast c (a ++ c :: b) = some (a, b) := by
  induction a with
  | nil =>
    rw [List.nil_append, splitLast, splitLast_eq_none_iff.mpr hb]
    simp
  | cons x a ih => rw [List.cons_append, splitLast, ih]

theorem splitLast_eq_some_iff : splitLast c l = some (a, b) ↔ l = a ++ c :: b ∧ c ∉ b := by
  constructor
  · intro h
    induction l generalizing a with
    | nil => simp [splitLast] at h
    | cons x xs ih =>
      rw [splitLast] at h
      cases hrest : splitLast c xs with
      | some p =>
        rw [hrest] at h
        obtain ⟨a', b'⟩ := p
        cases h
        obtain ⟨rfl, hb'⟩ := ih hrest
        exact ⟨rfl, hb'⟩
      | none =>
        rw [hrest] at h
        by_cases hx : x = c
        · simp only [hx, if_true, Option.some.injEq, Prod.mk.injEq] at h
          obtain ⟨rfl, rfl⟩ := h
          exact ⟨by rw [hx, List.nil_append], splitLast_eq_none_iff.mp hrest⟩
        · simp [hx] at h
  · rintro ⟨rfl, hb⟩
    exact splitLast_append hb

/-! ## At the first element with a property -/

section Span

variable {p : α → Bool}

section

omit [DecidableEq α]

theorem takeWhile_append_stop (ha : ∀ x ∈ a, p x = true)
    (hb : ∀ x ∈ b.head?, p x = false) : (a ++ b).takeWhile p = a := by
  rw [List.takeWhile_append_of_pos ha]
  cases b with
  | nil => simp
  | cons x b => rw [List.takeWhile_cons_of_neg (by simp [hb x rfl]), List.append_nil]

theorem dropWhile_append_stop (ha : ∀ x ∈ a, p x = true)
    (hb : ∀ x ∈ b.head?, p x = false) : (a ++ b).dropWhile p = b := by
  rw [List.dropWhile_append_of_pos ha]
  cases b with
  | nil => rfl
  | cons x b => exact List.dropWhile_cons_of_neg (by simp [hb x rfl])

theorem head_dropWhile (x : α) (hx : x ∈ (l.dropWhile p).head?) : p x = false := by
  have h := List.head?_dropWhile_not p l
  rw [Option.mem_def.mp hx] at h
  simpa using h

/-- A list is its longest prefix with the property, and a rest that starts without it. -/
theorem exists_span (p : α → Bool) (l : List α) :
    ∃ a b, l = a ++ b ∧ (∀ x ∈ a, p x = true) ∧ ∀ x ∈ b.head?, p x = false :=
  ⟨l.takeWhile p, l.dropWhile p, List.takeWhile_append_dropWhile.symm,
    fun _ => List.mem_takeWhile_imp, head_dropWhile⟩

/-- Two splittings of a list where its first part ends agree. -/
theorem append_inj_of_stop {a a' b b' : List α} (heq : a ++ b = a' ++ b')
    (ha : ∀ x ∈ a, p x = true) (ha' : ∀ x ∈ a', p x = true)
    (hb : ∀ x ∈ b.head?, p x = false) (hb' : ∀ x ∈ b'.head?, p x = false) :
    a = a' ∧ b = b' := by
  constructor
  · rw [← takeWhile_append_stop ha hb, heq, takeWhile_append_stop ha' hb']
  · rw [← dropWhile_append_stop ha hb, heq, dropWhile_append_stop ha' hb']

/-- Dropping from the end stops at an element without the property. -/
theorem rdropWhile_append_cons {x : α} (hx : p x = false) (a b : List α) :
    (a ++ x :: b).rdropWhile p = a ++ x :: b.rdropWhile p := by
  simp only [List.rdropWhile, List.reverse_append, List.reverse_cons, List.append_assoc,
    List.cons_append, List.nil_append]
  rw [List.dropWhile_append]
  split
  · next hempty =>
      rw [List.dropWhile_cons_of_neg (by simp [hx])]
      have hnil : (b.reverse.dropWhile p) = [] := by simpa using hempty
      simp [hnil]
  · simp

theorem rdropWhile_of_last (hl : ∀ x ∈ l.getLast?, p x = false) : l.rdropWhile p = l := by
  rw [List.rdropWhile_eq_self_iff]
  intro hne
  simp [hl _ (List.getLast?_eq_getLast_of_ne_nil hne)]

/-- What is dropped from the end satisfies the predicate throughout. -/
theorem exists_rdropWhile (p : α → Bool) (l : List α) :
    ∃ t, l = l.rdropWhile p ++ t ∧ ∀ x ∈ t, p x = true := by
  refine ⟨(l.reverse.takeWhile p).reverse, ?_, ?_⟩
  · rw [List.rdropWhile, ← List.reverse_append, List.takeWhile_append_dropWhile,
      List.reverse_reverse]
  · intro x hx
    exact List.mem_takeWhile_imp (List.mem_reverse.mp hx)

end

end Span

/-! ## At every occurrence -/

/-- What stands between the separators. -/
def segments (sep : α) : List α → List (List α)
  | [] => [[]]
  | c :: rest =>
    if c = sep then [] :: segments sep rest
    else
      match segments sep rest with
      | [] => [[c]]
      | s :: ss => (c :: s) :: ss

/-- The segments with a separator between them. -/
def join (sep : α) : List (List α) → List α
  | [] => []
  | [s] => s
  | s :: t :: ss => s ++ sep :: join sep (t :: ss)

section Segments

variable {sep : α} {p s : List α}

theorem segments_ne_nil (sep : α) (p : List α) : segments sep p ≠ [] := by
  cases p with
  | nil => simp [segments]
  | cons c p =>
    rw [segments]
    split
    · simp
    · split <;> simp

theorem segments_cons_sep (p : List α) : segments sep (sep :: p) = [] :: segments sep p := by
  rw [segments, if_pos rfl]

theorem segments_append_sep (a b : List α) :
    segments sep (a ++ sep :: b) = segments sep a ++ segments sep b := by
  induction a with
  | nil => simp [segments]
  | cons c a ih =>
    rw [List.cons_append, segments, segments, ih]
    split
    · rfl
    · obtain ⟨s, ss, hsegs⟩ := List.exists_cons_of_ne_nil (segments_ne_nil sep a)
      simp [hsegs]

theorem segments_of_not_mem (hs : sep ∉ s) : segments sep s = [s] := by
  induction s with
  | nil => rfl
  | cons c s ih =>
    simp only [List.mem_cons, not_or] at hs
    rw [segments, if_neg (Ne.symm hs.1), ih hs.2]

/-- The last segment, and what stands before its separator. -/
theorem segments_last (hp : sep ∈ p) :
    ∃ a l, p = a ++ sep :: l ∧ sep ∉ l ∧ segments sep p = segments sep a ++ [l] := by
  cases hsplit : splitLast sep p with
  | none => exact absurd hp (splitLast_eq_none_iff.mp hsplit)
  | some q =>
    obtain ⟨a, l⟩ := q
    obtain ⟨rfl, hl⟩ := splitLast_eq_some_iff.mp hsplit
    exact ⟨a, l, rfl, hl, by rw [segments_append_sep, segments_of_not_mem hl]⟩

theorem not_mem_of_mem_segments (hs : s ∈ segments sep p) : sep ∉ s := by
  induction p generalizing s with
  | nil =>
    rw [List.mem_singleton.mp hs]
    exact List.not_mem_nil
  | cons c p ih =>
    rw [segments] at hs
    by_cases hc : c = sep
    · rw [if_pos hc] at hs
      rcases List.mem_cons.mp hs with rfl | hs
      · exact List.not_mem_nil
      · exact ih hs
    · rw [if_neg hc] at hs
      obtain ⟨t, ts, hsegs⟩ := List.exists_cons_of_ne_nil (segments_ne_nil sep p)
      rw [hsegs] at hs
      rcases List.mem_cons.mp hs with rfl | hs
      · have ht : sep ∉ t := ih (by simp [hsegs])
        simp [Ne.symm hc, ht]
      · exact ih (by simp [hsegs, hs])

/-- Elements of a segment are elements of the list. -/
theorem mem_of_mem_segments (hs : s ∈ segments sep p) (hc : c ∈ s) : c ∈ p := by
  induction p generalizing s with
  | nil =>
    rw [List.mem_singleton.mp hs] at hc
    exact hc
  | cons x p ih =>
    rw [segments] at hs
    by_cases hx : x = sep
    · rw [if_pos hx] at hs
      rcases List.mem_cons.mp hs with rfl | hs
      · cases hc
      · exact List.mem_cons_of_mem _ (ih hs hc)
    · rw [if_neg hx] at hs
      obtain ⟨t, ts, hsegs⟩ := List.exists_cons_of_ne_nil (segments_ne_nil sep p)
      rw [hsegs] at hs
      rcases List.mem_cons.mp hs with rfl | hs
      · rcases List.mem_cons.mp hc with rfl | hc
        · exact List.mem_cons_self
        · exact List.mem_cons_of_mem _ (ih (by simp [hsegs]) hc)
      · exact List.mem_cons_of_mem _ (ih (by simp [hsegs, hs]) hc)

theorem segments_join {out : List (List α)} (hne : out ≠ []) (hout : ∀ s ∈ out, sep ∉ s) :
    segments sep (join sep out) = out := by
  induction out with
  | nil => exact absurd rfl hne
  | cons s out ih =>
    have hs := segments_of_not_mem (hout s List.mem_cons_self)
    cases out with
    | nil => rw [join, hs]
    | cons t out =>
      rw [join, segments_append_sep, hs,
        ih (by simp) fun x hx => hout x (List.mem_cons_of_mem _ hx)]
      rfl

theorem join_segments (p : List α) : join sep (segments sep p) = p := by
  induction p with
  | nil => rfl
  | cons c p ih =>
    obtain ⟨s, ss, hsegs⟩ := List.exists_cons_of_ne_nil (segments_ne_nil sep p)
    rw [segments]
    by_cases hc : c = sep
    · rw [if_pos hc, hsegs, join, ← hsegs, ih, hc]
      rfl
    · rw [if_neg hc, hsegs]
      rw [hsegs] at ih
      cases ss <;> simp_all [join]

/-- The segments that are not empty. -/
def parts (sep : α) (p : List α) : List (List α) :=
  (segments sep p).filter (· ≠ [])

theorem parts_cons_sep (p : List α) : parts sep (sep :: p) = parts sep p := by
  simp [parts, segments_cons_sep]

theorem parts_append_sep (a b : List α) :
    parts sep (a ++ sep :: b) = parts sep a ++ parts sep b := by
  simp [parts, segments_append_sep]

theorem parts_join {out : List (List α)} (hout : ∀ s ∈ out, s ≠ [] ∧ sep ∉ s) :
    parts sep (join sep out) = out := by
  cases out with
  | nil => simp [join, parts, segments]
  | cons s out =>
    rw [parts, segments_join (by simp) fun x hx => (hout x hx).2]
    exact List.filter_eq_self.mpr fun x hx => by simpa using (hout x hx).1

end Segments

end Split
