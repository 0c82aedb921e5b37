import QuickjsRuntime.Url.Dots

/-!
# Paths without a leading slash

`normalizeDots` on a path that is not absolute keeps a `..` it cannot resolve, but the next
`..` removes that one again. So what it keeps is a list of ordinary segments with at most one
`..` in front (`Climbs`), and such a list is left as it is. With the absolute paths this makes
storing a path idempotent for every text.
-/

namespace Url

open Utf16 (Text units)
open Split (segments segments_append_sep not_mem_of_mem_segments segments_join join)

variable {env : Platform} {p s t : Text} {out : List Text}

/-! ## The loop on a relative path -/

/-- What the loop collects from a relative path: ordinary segments, behind at most one `..`. -/
def Climbs (out : List Text) : Prop :=
  ∃ up ordinary, out = up ++ ordinary ∧ (up = [] ∨ up = [[dot, dot]]) ∧
    ∀ s ∈ ordinary, Ordinary s ∧ slash ∉ s

theorem climbs_nil : Climbs [] :=
  ⟨[], [], rfl, Or.inl rfl, by simp⟩

theorem Climbs.dropLast (h : Climbs out) : Climbs out.dropLast := by
  obtain ⟨up, ordinary, rfl, hup, hord⟩ := h
  by_cases hempty : ordinary = []
  · -- what is removed is the `..` itself, if it is there
    rw [hempty, List.append_nil]
    rcases hup with rfl | rfl <;> exact climbs_nil
  · rw [List.dropLast_append_of_ne_nil hempty]
    exact ⟨up, ordinary.dropLast, rfl, hup, fun s hs => hord s (List.dropLast_subset _ hs)⟩

/-- One round of the loop keeps the form. -/
theorem Climbs.push (h : Climbs out) (hs : slash ∉ s) : Climbs (pushSegment false out s) := by
  unfold pushSegment
  split
  · exact h
  next hskip =>
    rw [not_or] at hskip
    split
    · split
      · exact h.dropLast
      next hnone =>
        -- nothing is left to remove: the segment itself is kept
        rw [not_not] at hnone
        rw [hnone]
        exact ⟨[[dot, dot]], [], rfl, Or.inr rfl, by simp⟩
    next hdots =>
      obtain ⟨up, ordinary, rfl, hup, hord⟩ := h
      refine ⟨up, ordinary ++ [s], by rw [List.append_assoc], hup, ?_⟩
      intro x hx
      rcases List.mem_append.mp hx with hx | hx
      · exact hord x hx
      · rw [List.mem_singleton.mp hx]
        exact ⟨⟨hskip.2, hskip.1, hdots⟩, hs⟩

theorem Climbs.foldl {l : List Text} (h : Climbs out) (hl : ∀ s ∈ l, slash ∉ s) :
    Climbs (l.foldl (pushSegment false) out) := by
  induction l generalizing out with
  | nil => exact h
  | cons s l ih =>
    apply ih (h.push (hl s List.mem_cons_self))
    intro x hx
    exact hl x (List.mem_cons_of_mem _ hx)

theorem Climbs.segment (h : Climbs out) (hs : s ∈ out) : s ≠ [] ∧ slash ∉ s := by
  obtain ⟨up, ordinary, rfl, hup, hord⟩ := h
  rcases List.mem_append.mp hs with hs | hs
  · rcases hup with rfl | rfl
    · cases hs
    · rw [List.mem_singleton.mp hs]
      decide
  · exact ⟨(hord s hs).1.1, (hord s hs).2⟩

/-- The loop collects such a list as it is; an empty segment behind it adds nothing. -/
theorem Climbs.foldl_self (h : Climbs out) : out.foldl (pushSegment false) [] = out := by
  obtain ⟨up, ordinary, rfl, hup, hord⟩ := h
  have hfilter : ordinary.filter (· ≠ []) = ordinary :=
    List.filter_eq_self.mpr fun s hs => by simpa using (hord s hs).1.1
  have hloop : ∀ start, ordinary.foldl (pushSegment false) start = start ++ ordinary := by
    intro start
    rw [foldl_pushSegment_of_noDots fun s hs => (hord s hs).1.2, hfilter]
  rcases hup with rfl | rfl
  · exact hloop []
  · exact hloop [[dot, dot]]

/-! ## Joined relative paths -/

theorem join_ne_nil (hout : ∀ s ∈ out, s ≠ []) (hne : out ≠ []) : join slash out ≠ [] := by
  cases out with
  | nil => exact absurd rfl hne
  | cons s out =>
    have hs := hout s List.mem_cons_self
    cases out <;> simp [join, hs]

theorem Climbs.head_ne (h : Climbs out) (ht : t = [] ∨ (t = [slash] ∧ out ≠ [])) :
    (join slash out ++ t).head? ≠ some slash := by
  cases out with
  | nil =>
    rcases ht with rfl | ⟨-, hne⟩
    · simp [join]
    · exact absurd rfl hne
  | cons s out =>
    obtain ⟨hne, hslash⟩ := h.segment List.mem_cons_self
    obtain ⟨c, s, rfl⟩ := List.exists_cons_of_ne_nil hne
    have hc : c ≠ slash := fun h => hslash (h ▸ List.mem_cons_self)
    cases out <;> simpa [join] using hc

theorem Climbs.getLast_ne (h : Climbs out) : (join slash out).getLast? ≠ some slash := by
  by_cases hne : out = []
  · simp [hne, join]
  · have hlast := getLast_join_ne hne fun s hs => h.segment hs
    have hjoin : join slash out ≠ [] := join_ne_nil (fun s hs => (h.segment hs).1) hne
    rwa [List.getLast?_cons_of_ne_nil hjoin] at hlast

/-- The form of a normalised relative path. -/
theorem normalizeDots_relative (hrel : p.head? ≠ some slash) (hdot : dot ∈ p) :
    ∃ out t, Climbs out ∧ (t = [] ∨ (t = [slash] ∧ out ≠ [])) ∧
      normalizeDots p = join slash out ++ t := by
  have hout : Climbs ((segments slash p).foldl (pushSegment false) []) :=
    climbs_nil.foldl fun s hs => not_mem_of_mem_segments hs
  rw [normalizeDots, if_neg (not_not.mpr hdot)]
  simp only [hrel, decide_false, Bool.false_eq_true, if_false]
  split
  next htrailing =>
    refine ⟨_, [slash], hout, Or.inr ⟨rfl, ?_⟩, rfl⟩
    intro hnil
    exact htrailing.2.1 (by rw [hnil, join])
  · exact ⟨_, [], hout, Or.inl rfl, by rw [List.append_nil]⟩

/-- A relative path of that form is normalised already. -/
theorem Climbs.normalizeDots (h : Climbs out) (ht : t = [] ∨ (t = [slash] ∧ out ≠ [])) :
    normalizeDots (join slash out ++ t) = join slash out ++ t := by
  by_cases hdot : dot ∈ join slash out ++ t
  · have hne : out ≠ [] := by
      rintro rfl
      rcases ht with rfl | ⟨-, hne⟩
      · exact absurd hdot (by decide)
      · exact hne rfl
    have hsegments : segments slash (join slash out) = out :=
      segments_join hne fun s hs => (h.segment hs).2
    have hjoin : join slash out ≠ [] := join_ne_nil (fun s hs => (h.segment hs).1) hne
    have hloop : (segments slash (join slash out ++ t)).foldl (pushSegment false) [] = out := by
      rcases ht with rfl | ⟨rfl, -⟩
      · rw [List.append_nil, hsegments, h.foldl_self]
      · rw [segments_append_sep, hsegments, List.foldl_append, h.foldl_self]
        simp only [segments]
        rw [List.foldl_cons, List.foldl_nil, pushSegment_empty]
    rw [Url.normalizeDots, if_neg (not_not.mpr hdot)]
    simp only [h.head_ne ht, decide_false, Bool.false_eq_true, if_false, hloop]
    rcases ht with rfl | ⟨rfl, -⟩
    · simp [h.getLast_ne]
    · simp [h.getLast_ne, hjoin]
  · rw [Url.normalizeDots, if_pos hdot]

/-! ## Storing a path twice -/

theorem Climbs.map_encodeSet (h : Climbs out) :
    Climbs (out.map fun s => encodeSet env s true) := by
  obtain ⟨up, ordinary, rfl, hup, hord⟩ := h
  refine ⟨up, ordinary.map fun s => encodeSet env s true, ?_, hup, ?_⟩
  · have hdots : encodeSet env [dot, dot] true = [dot, dot] := encodeSet_of_kept (by decide)
    rw [List.map_append]
    rcases hup with rfl | rfl <;> simp [hdots]
  · intro s hs
    obtain ⟨r, hr, rfl⟩ := List.mem_map.mp hs
    obtain ⟨hordinary, hslash⟩ := hord r hr
    exact ⟨ordinary_encodeSet hordinary, fun h => hslash (inert_slash.mem_encodeSet.mp h)⟩

theorem encodePath_relative (env : Platform) (hrel : p.head? ≠ some slash) (hdot : dot ∈ p) :
    ∃ out t, Climbs out ∧ (t = [] ∨ (t = [slash] ∧ out ≠ [])) ∧
      encodePath env p = join slash out ++ t := by
  obtain ⟨out, t, hout, ht, hnorm⟩ := normalizeDots_relative hrel hdot
  refine ⟨out.map fun s => encodeSet env s true, t, hout.map_encodeSet, ?_, ?_⟩
  · exact ht.imp_right (And.imp_right fun h => by simpa using h)
  · rw [encodePath, hnorm, ← encodeSet_join]
    rcases ht with rfl | ⟨rfl, -⟩
    · simp
    · rw [inert_slash.encodeSet_append, encodeSet_nil]

/-- A stored path is stored again as it is. -/
theorem encodePath_idem (env : Platform) (p : Text) :
    encodePath env (encodePath env p) = encodePath env p := by
  by_cases habs : p.head? = some slash
  · exact encodePath_encodePath habs
  suffices hfixed : normalizeDots (encodePath env p) = encodePath env p by
    rw [encodePath, hfixed]
    exact encodeSet_encodeSet
  by_cases hdot : dot ∈ p
  · obtain ⟨out, t, hout, ht, hform⟩ := encodePath_relative env habs hdot
    rw [hform]
    exact hout.normalizeDots ht
  · have henc : dot ∉ encodePath env p := by
      rw [encodePath, normalizeDots, if_pos hdot]
      exact fun h => hdot (inert_dot.mem_encodeSet.mp h)
    rw [normalizeDots, if_pos henc]

/-! ## The beginning of a stored path -/

theorem Inert.head_encodeSet {isPath : Bool} {c : Nat} (h : Inert isPath c) (s : Text) :
    (encodeSet env s isPath).head? = some c ↔ s.head? = some c := by
  -- what stands before the first `c` is encoded to something without `c`
  cases hsplit : Split.splitFirst c s with
  | none =>
    have hs := Split.splitFirst_eq_none_iff.mp hsplit
    have hencoded : c ∉ encodeSet env s isPath := fun hmem => hs (h.mem_encodeSet.mp hmem)
    constructor <;> intro hhead
    · exact absurd (List.mem_of_mem_head? hhead) hencoded
    · exact absurd (List.mem_of_mem_head? hhead) hs
  | some q =>
    obtain ⟨a, b⟩ := q
    obtain ⟨rfl, ha⟩ := Split.splitFirst_eq_some_iff.mp hsplit
    have hencoded : c ∉ encodeSet env a isPath := fun hmem => ha (h.mem_encodeSet.mp hmem)
    have hfirst : ∀ x y : Text, c ∉ x → ((x ++ c :: y).head? = some c ↔ x = []) := by
      intro x y hx
      cases x with
      | nil => simp
      | cons d x =>
        have hd : d ≠ c := fun hd => hx (hd ▸ List.mem_cons_self)
        simp [hd]
    rw [h.encodeSet_append, hfirst _ _ hencoded, hfirst _ _ ha, encodeSet_eq_nil_iff]

theorem head_encodePath_iff : (encodePath env p).head? = some slash ↔ p.head? = some slash := by
  constructor
  · intro hhead
    by_contra habs
    rw [encodePath, inert_slash.head_encodeSet] at hhead
    by_cases hdot : dot ∈ p
    · obtain ⟨out, t, hout, ht, hnorm⟩ := normalizeDots_relative habs hdot
      rw [hnorm] at hhead
      exact hout.head_ne ht hhead
    · rw [normalizeDots, if_pos hdot] at hhead
      exact habs hhead
  · exact head_encodePath

theorem take_two_iff : p.take 2 = [slash, slash] ↔
    ∃ q, p = slash :: q ∧ q.head? = some slash := by
  constructor
  · intro htake
    refine ⟨slash :: p.drop 2, ?_, rfl⟩
    nth_rewrite 1 [← List.take_append_drop 2 p]
    rw [htake]
    rfl
  · rintro ⟨q, rfl, hq⟩
    obtain ⟨r, rfl⟩ := List.head?_eq_some_iff.mp hq
    rfl

theorem take_two_encodePath :
    (encodePath env p).take 2 = [slash, slash] ↔ (normalizeDots p).take 2 = [slash, slash] := by
  rw [encodePath, take_two_iff, take_two_iff]
  constructor
  · rintro ⟨q, hq, hhead⟩
    have hfirst := (inert_slash.head_encodeSet (normalizeDots p)).mp (by rw [hq]; rfl)
    obtain ⟨r, hr⟩ := List.head?_eq_some_iff.mp hfirst
    rw [hr, inert_slash.encodeSet_cons, List.cons.injEq] at hq
    rw [← hq.2, inert_slash.head_encodeSet] at hhead
    exact ⟨r, hr, hhead⟩
  · rintro ⟨q, hq, hhead⟩
    refine ⟨encodeSet env q true, ?_, (inert_slash.head_encodeSet q).mpr hhead⟩
    rw [hq, inert_slash.encodeSet_cons]

end Url
