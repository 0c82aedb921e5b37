import QuickjsRuntime.Url.Encode

/-!
# Dot segments

`normalizeDots` of `node_compat_url.dart`. A path without a full stop is left alone, empty
segments included; any other path is taken apart, resolved segment by segment and joined
again, which drops the empty segments.

What normalisation keeps is stated over the non-empty segments: for an absolute path they
are the resolved segments in both cases.
-/

namespace Url

open Utf16 (Text)
open Split (segments segments_cons_sep segments_append_sep segments_of_not_mem segments_last
  segments_ne_nil not_mem_of_mem_segments mem_of_mem_segments segments_join join_segments join
  parts parts_cons_sep parts_append_sep parts_join)

/-! ## Model -/

/-- One round of the loop of `normalizeDots`. -/
def pushSegment (abs : Bool) (out : List Text) (seg : Text) : List Text :=
  if seg = [dot] ∨ seg = [] then out
  else if seg = [dot, dot] then
    if out ≠ [] then out.dropLast
    else if abs then out
    else out ++ [[dot, dot]]
  else out ++ [seg]

def normalizeDots (p : Text) : Text :=
  if dot ∉ p then p
  else
    let abs := decide (p.head? = some slash)
    let trailing := decide (p.getLast? = some slash)
    let out := (segments slash p).foldl (pushSegment abs) []
    let joined := if abs then slash :: join slash out else join slash out
    if trailing ∧ joined ≠ [] ∧ joined.getLast? ≠ some slash then joined ++ [slash] else joined

/-! ## Resolved segments -/

/-- A segment that resolution keeps. -/
def Ordinary (s : Text) : Prop :=
  s ≠ [] ∧ s ≠ [dot] ∧ s ≠ [dot, dot]

instance (s : Text) : Decidable (Ordinary s) :=
  inferInstanceAs (Decidable (s ≠ [] ∧ s ≠ [dot] ∧ s ≠ [dot, dot]))

/-- What the loop makes of the segments of an absolute path. -/
def resolve (p : Text) : List Text :=
  (segments slash p).foldl (pushSegment true) []

section Resolve

variable {p s : Text} {out l : List Text} {abs : Bool}

theorem pushSegment_ordinary (hs : Ordinary s) : pushSegment abs out s = out ++ [s] := by
  obtain ⟨hempty, hdot, hdots⟩ := hs
  rw [pushSegment, if_neg (by simp [hempty, hdot]), if_neg hdots]

theorem pushSegment_empty : pushSegment abs out [] = out := by
  simp [pushSegment]

/-- A step of the loop adds the segment, or leaves a beginning of what was there. -/
theorem pushSegment_cases (out : List Text) (s : Text) :
    (Ordinary s ∧ pushSegment true out s = out ++ [s]) ∨ pushSegment true out s <+: out := by
  by_cases hskip : s = [dot] ∨ s = []
  · right
    have hsame : pushSegment true out s = out := by rw [pushSegment, if_pos hskip]
    exact hsame.symm ▸ List.prefix_refl out
  · by_cases hdots : s = [dot, dot]
    · right
      rw [pushSegment, if_neg hskip, if_pos hdots]
      split
      · exact List.dropLast_prefix out
      · exact List.prefix_refl out
    · left
      rw [not_or] at hskip
      have hs : Ordinary s := ⟨hskip.2, hskip.1, hdots⟩
      exact ⟨hs, pushSegment_ordinary hs⟩

/-- Every resolved segment is an ordinary one of the path. -/
theorem mem_foldl_pushSegment {t : Text} (ht : t ∈ l.foldl (pushSegment true) out) :
    t ∈ out ∨ (t ∈ l ∧ Ordinary t) := by
  induction l generalizing out with
  | nil => exact Or.inl ht
  | cons s l ih =>
    rcases ih ht with hout | ⟨hl, hord⟩
    · rcases pushSegment_cases out s with ⟨hs, hpush⟩ | hinit
      · rw [hpush, List.mem_append, List.mem_singleton] at hout
        rcases hout with hout | rfl
        · exact Or.inl hout
        · exact Or.inr ⟨List.mem_cons_self, hs⟩
      · exact Or.inl (hinit.subset hout)
    · exact Or.inr ⟨List.mem_cons_of_mem _ hl, hord⟩

theorem ordinary_of_mem_resolve (hs : s ∈ resolve p) : Ordinary s ∧ slash ∉ s := by
  rcases mem_foldl_pushSegment hs with hnil | ⟨hmem, hord⟩
  · cases hnil
  · exact ⟨hord, not_mem_of_mem_segments hmem⟩

/-- Without dot segments the loop only drops the empty ones. -/
theorem foldl_pushSegment_of_noDots (hl : ∀ s ∈ l, s ≠ [dot] ∧ s ≠ [dot, dot]) :
    l.foldl (pushSegment abs) out = out ++ l.filter (· ≠ []) := by
  induction l generalizing out with
  | nil => simp
  | cons s l ih =>
    have htail : ∀ x ∈ l, x ≠ [dot] ∧ x ≠ [dot, dot] :=
      fun x hx => hl x (List.mem_cons_of_mem _ hx)
    by_cases hs : s = []
    · rw [List.foldl_cons, hs, pushSegment_empty, ih htail]
      simp
    · have hord : Ordinary s := ⟨hs, hl s List.mem_cons_self⟩
      rw [List.foldl_cons, pushSegment_ordinary hord, ih htail]
      simp [hs]

/-- A joined path ends with its last segment. -/
theorem getLast_join_ne (hne : out ≠ []) (hout : ∀ s ∈ out, s ≠ [] ∧ slash ∉ s) :
    (slash :: join slash out).getLast? ≠ some slash := by
  intro hlast
  obtain ⟨a, ha⟩ := List.getLast?_eq_some_iff.mp hlast
  have hsegs : segments slash (a ++ [slash]) = _ := segments_append_sep a []
  rw [← ha, segments_cons_sep, segments_join hne fun s hs => (hout s hs).2] at hsegs
  -- a slash at the end would leave an empty last segment
  have hempty : ([] : Text) ∈ out := by
    have hlast' := congrArg List.getLast? hsegs
    rw [List.getLast?_cons_of_ne_nil hne] at hlast'
    exact List.mem_of_getLast? (by simpa [segments] using hlast')
  exact (hout [] hempty).1 rfl

/-- The form of a normalised absolute path. -/
theorem normalizeDots_abs (habs : p.head? = some slash) (hdot : dot ∈ p) :
    ∃ t, (t = [] ∨ (t = [slash] ∧ resolve p ≠ [])) ∧
      normalizeDots p = slash :: (join slash (resolve p) ++ t) := by
  rw [normalizeDots, if_neg (not_not.mpr hdot)]
  simp only [habs, decide_true, if_true, ← resolve.eq_1]
  split
  · next htrailing =>
      refine ⟨[slash], Or.inr ⟨rfl, ?_⟩, by simp⟩
      intro hnil
      exact htrailing.2.2 (by simp [hnil, join])
  · exact ⟨[], Or.inl rfl, by simp⟩

theorem parts_canonical {t : Text} (hout : ∀ s ∈ out, s ≠ [] ∧ slash ∉ s)
    (ht : t = [] ∨ t = [slash]) : parts slash (slash :: (join slash out ++ t)) = out := by
  rw [parts_cons_sep]
  rcases ht with rfl | rfl
  · rw [List.append_nil, parts_join hout]
  · rw [parts_append_sep, parts_join hout]
    simp [parts, segments]

theorem not_dots_of_not_mem (hdot : dot ∉ p) (hs : s ∈ segments slash p) :
    s ≠ [dot] ∧ s ≠ [dot, dot] := by
  constructor <;> rintro rfl <;> exact hdot (mem_of_mem_segments hs (by simp))

/-- The non-empty segments of a normalised absolute path are the resolved ones. -/
theorem parts_normalizeDots (habs : p.head? = some slash) :
    parts slash (normalizeDots p) = resolve p := by
  by_cases hdot : dot ∈ p
  · obtain ⟨t, ht, hnorm⟩ := normalizeDots_abs habs hdot
    rw [hnorm]
    apply parts_canonical
    · intro s hs
      exact ⟨(ordinary_of_mem_resolve hs).1.1, (ordinary_of_mem_resolve hs).2⟩
    · exact ht.imp_right And.left
  · rw [normalizeDots, if_pos hdot, resolve,
      foldl_pushSegment_of_noDots fun s hs => not_dots_of_not_mem hdot hs]
    rfl

theorem head_normalizeDots (habs : p.head? = some slash) :
    (normalizeDots p).head? = some slash := by
  by_cases hdot : dot ∈ p
  · obtain ⟨t, -, hnorm⟩ := normalizeDots_abs habs hdot
    rw [hnorm]
    rfl
  · rw [normalizeDots, if_pos hdot]
    exact habs

/-- A path of ordinary segments is normalised already. -/
theorem normalizeDots_canonical {t : Text} (hout : ∀ s ∈ out, Ordinary s ∧ slash ∉ s)
    (ht : t = [] ∨ (t = [slash] ∧ out ≠ [])) :
    normalizeDots (slash :: (join slash out ++ t)) = slash :: (join slash out ++ t) := by
  have hslash : ∀ s ∈ out, s ≠ [] ∧ slash ∉ s := fun s hs => ⟨(hout s hs).1.1, (hout s hs).2⟩
  by_cases hdot : dot ∈ slash :: (join slash out ++ t)
  · have hne : out ≠ [] := by
      rintro rfl
      rcases ht with rfl | ⟨-, hne⟩
      · exact absurd hdot (by decide)
      · exact hne rfl
    have hlast := getLast_join_ne hne hslash
    have hparts := parts_canonical hslash (ht.imp_right And.left)
    have hresolve : resolve (slash :: (join slash out ++ t)) = out := by
      rw [resolve, foldl_pushSegment_of_noDots, List.nil_append]
      · exact hparts
      · intro s hs
        by_cases hempty : s = []
        · simp [hempty]
        · have hmem : s ∈ parts slash (slash :: (join slash out ++ t)) :=
            List.mem_filter.mpr ⟨hs, by simpa using hempty⟩
          rw [hparts] at hmem
          exact (hout s hmem).1.2
    rw [normalizeDots, if_neg (not_not.mpr hdot)]
    simp only [List.head?_cons, decide_true, if_true, ← resolve.eq_1, hresolve]
    rcases ht with rfl | ⟨rfl, -⟩
    · simp [hlast]
    · have hend : (slash :: (join slash out ++ [slash])).getLast? = some slash := by
        rw [← List.cons_append, List.getLast?_concat]
      simp [hlast, hend]
  · rw [normalizeDots, if_pos hdot]

end Resolve

/-! ## Encoded paths -/

section Encoded

variable {env : Platform} {p s x : Text} {out : List Text}

/-- A path as the URL code stores it. -/
def encodePath (env : Platform) (p : Text) : Text :=
  encodeSet env (normalizeDots p) true

theorem segments_encodeSet (p : Text) :
    segments slash (encodeSet env p true) =
      (segments slash p).map fun s => encodeSet env s true := by
  induction hn : p.length using Nat.strong_induction_on generalizing p with
  | _ n ih =>
    cases hsplit : Split.splitFirst slash p with
    | none =>
      have hnot := Split.splitFirst_eq_none_iff.mp hsplit
      have henc : slash ∉ encodeSet env p true := fun h => hnot (inert_slash.mem_encodeSet.mp h)
      rw [segments_of_not_mem hnot, segments_of_not_mem henc]
      rfl
    | some q =>
      obtain ⟨a, b⟩ := q
      obtain ⟨rfl, ha⟩ := Split.splitFirst_eq_some_iff.mp hsplit
      have henc : slash ∉ encodeSet env a true := fun h => ha (inert_slash.mem_encodeSet.mp h)
      rw [inert_slash.encodeSet_append, segments_append_sep,
        segments_append_sep, segments_of_not_mem ha, segments_of_not_mem henc,
        ih b.length (by simp at hn; omega) b rfl, List.map_append]
      rfl

theorem parts_encodeSet (p : Text) :
    parts slash (encodeSet env p true) = (parts slash p).map fun s => encodeSet env s true := by
  rw [parts, segments_encodeSet, List.filter_map, parts]
  congr 1
  apply List.filter_congr
  intro s _
  simp [encodeSet_eq_nil_iff]

theorem encodeSet_join (out : List Text) :
    encodeSet env (join slash out) true = join slash (out.map fun s => encodeSet env s true) := by
  induction out with
  | nil => simp [join]
  | cons s out ih =>
    cases out with
    | nil => simp [join]
    | cons t out =>
      rw [join, inert_slash.encodeSet_append, ih]
      rfl

theorem encodeSet_eq_dot (h : encodeSet env s true = [dot]) : s = [dot] := by
  have hmem : dot ∈ s := inert_dot.mem_encodeSet.mp (h ▸ List.mem_singleton_self dot)
  obtain ⟨a, b, rfl⟩ := List.mem_iff_append.mp hmem
  rw [inert_dot.encodeSet_append, List.append_eq_singleton_iff] at h
  simp only [List.cons.injEq, true_and, reduceCtorEq, and_false, or_false,
    encodeSet_eq_nil_iff] at h
  simp [h]

theorem encodeSet_eq_dots (h : encodeSet env s true = [dot, dot]) : s = [dot, dot] := by
  have hmem : dot ∈ s := inert_dot.mem_encodeSet.mp (h ▸ List.mem_cons_self)
  obtain ⟨a, b, rfl⟩ := List.mem_iff_append.mp hmem
  rw [inert_dot.encodeSet_append, List.append_eq_cons_iff] at h
  rcases h with ⟨ha, hb⟩ | ⟨a', ha, hrest⟩
  · rw [encodeSet_eq_nil_iff.mp ha, encodeSet_eq_dot (List.cons.inj hb).2]
    rfl
  · have hsplit := List.append_eq_singleton_iff.mp hrest.symm
    simp only [List.cons.injEq, true_and, reduceCtorEq, and_false, or_false,
      encodeSet_eq_nil_iff] at hsplit
    rw [hsplit.1] at ha
    rw [encodeSet_eq_dot ha, hsplit.2]
    rfl

/-- Encoding makes no dot segments. -/
theorem ordinary_encodeSet (hs : Ordinary s) : Ordinary (encodeSet env s true) := by
  obtain ⟨hempty, hdot, hdots⟩ := hs
  exact ⟨fun h => hempty (encodeSet_eq_nil_iff.mp h), fun h => hdot (encodeSet_eq_dot h),
    fun h => hdots (encodeSet_eq_dots h)⟩

theorem head_encodeSet (habs : p.head? = some slash) :
    (encodeSet env p true).head? = some slash := by
  obtain ⟨q, rfl⟩ : ∃ q, p = slash :: q := by
    cases p with
    | nil => cases habs
    | cons c q => exact ⟨q, by rw [Option.some.inj habs]⟩
  rw [inert_slash.encodeSet_cons]
  rfl

theorem head_encodePath (habs : p.head? = some slash) :
    (encodePath env p).head? = some slash :=
  head_encodeSet (head_normalizeDots habs)

theorem parts_encodePath (habs : p.head? = some slash) :
    parts slash (encodePath env p) = (resolve p).map fun s => encodeSet env s true := by
  rw [encodePath, parts_encodeSet, parts_normalizeDots habs]

theorem must_of_mem_encodePath {c : Nat} (hc : c ∈ encodePath env p) : must true c = false :=
  must_of_mem_encodeSet hc

/-- The form of a stored absolute path that was resolved. -/
theorem encodePath_abs (env : Platform) (habs : p.head? = some slash) (hdot : dot ∈ p) :
    ∃ out t, (∀ s ∈ out, Ordinary s ∧ slash ∉ s) ∧ (t = [] ∨ (t = [slash] ∧ out ≠ [])) ∧
      encodePath env p = slash :: (join slash out ++ t) := by
  obtain ⟨t, ht, hnorm⟩ := normalizeDots_abs habs hdot
  refine ⟨(resolve p).map fun s => encodeSet env s true, t, ?_, ?_, ?_⟩
  · intro s hs
    obtain ⟨r, hr, rfl⟩ := List.mem_map.mp hs
    obtain ⟨hord, hslash⟩ := ordinary_of_mem_resolve hr
    exact ⟨ordinary_encodeSet hord, fun h => hslash (inert_slash.mem_encodeSet.mp h)⟩
  · exact ht.imp_right (And.imp_right fun h => by simpa using h)
  · rw [encodePath, hnorm, inert_slash.encodeSet_cons, ← encodeSet_join]
    rcases ht with rfl | ⟨rfl, -⟩
    · simp
    · rw [inert_slash.encodeSet_append, encodeSet_nil]

/-- Storing a stored absolute path again changes nothing. -/
theorem encodePath_encodePath (habs : p.head? = some slash) :
    encodePath env (encodePath env p) = encodePath env p := by
  have hfixed : normalizeDots (encodePath env p) = encodePath env p := by
    by_cases hdot : dot ∈ p
    · obtain ⟨out, t, hout, ht, hform⟩ := encodePath_abs env habs hdot
      rw [hform]
      exact normalizeDots_canonical hout ht
    · have henc : dot ∉ encodePath env p := by
        rw [encodePath, normalizeDots, if_pos hdot]
        exact fun h => hdot (inert_dot.mem_encodeSet.mp h)
      rw [normalizeDots, if_pos henc]
  rw [encodePath, hfixed]
  exact encodeSet_encodeSet

theorem head_join_ne {t : Text} (hout : ∀ s ∈ out, Ordinary s ∧ slash ∉ s)
    (ht : t = [] ∨ (t = [slash] ∧ out ≠ [])) : (join slash out ++ t).head? ≠ some slash := by
  cases out with
  | nil =>
    rcases ht with rfl | ⟨-, hne⟩
    · simp [join]
    · exact absurd rfl hne
  | cons s out =>
    obtain ⟨⟨hne, -⟩, hslash⟩ := hout s List.mem_cons_self
    obtain ⟨c, s, rfl⟩ := List.exists_cons_of_ne_nil hne
    have hc : c ≠ slash := fun h => hslash (h ▸ List.mem_cons_self)
    cases out <;> simpa [join] using hc

/-- No text that is stored without a change grows by what stands before its first slash. -/
theorem encodePath_ne_slashes {a : Text} (habs : x.head? = some slash)
    (hx : ∀ c ∈ x, must true c = false) :
    encodePath env x ≠ slash :: slash :: (a ++ x) := by
  intro heq
  by_cases hdot : dot ∈ x
  · -- resolution leaves no empty segment behind the first slash
    obtain ⟨out, t, hout, ht, hform⟩ := encodePath_abs env habs hdot
    rw [hform] at heq
    apply head_join_ne hout ht
    rw [(List.cons.inj heq).2]
    rfl
  · have hlen := congrArg List.length heq
    rw [encodePath, normalizeDots, if_pos hdot, encodeSet_of_kept hx] at hlen
    simp only [List.length_cons, List.length_append] at hlen
    omega

/-- A stored absolute path has no dot segments. -/
theorem not_dots_of_fixed (habs : p.head? = some slash) (hfixed : encodePath env p = p)
    (hs : s ∈ segments slash p) : s ≠ [dot] ∧ s ≠ [dot, dot] := by
  by_cases hempty : s = []
  · simp [hempty]
  · have hmem : s ∈ parts slash p := List.mem_filter.mpr ⟨hs, by simpa using hempty⟩
    rw [← hfixed, parts_encodePath habs] at hmem
    obtain ⟨t, ht, rfl⟩ := List.mem_map.mp hmem
    exact (ordinary_encodeSet (ordinary_of_mem_resolve ht).1).2

theorem resolve_concat {a l : Text} (hl : slash ∉ l) :
    resolve (a ++ slash :: l) = pushSegment true (resolve a) l := by
  rw [resolve, segments_append_sep, segments_of_not_mem hl, List.foldl_append]
  rfl

theorem resolve_append {a q : Text} (habs : q.head? = some slash)
    (hq : ∀ s ∈ segments slash q, s ≠ [dot] ∧ s ≠ [dot, dot]) :
    resolve (a ++ q) = resolve a ++ parts slash q := by
  obtain ⟨q, rfl⟩ : ∃ r, q = slash :: r := by
    cases q with
    | nil => cases habs
    | cons c r => exact ⟨r, by rw [Option.some.inj habs]⟩
  rw [segments_cons_sep] at hq
  rw [resolve, segments_append_sep, List.foldl_append,
    foldl_pushSegment_of_noDots fun s hs => hq s (List.mem_cons_of_mem _ hs), parts_cons_sep]
  rfl

/-- Text before a stored path that ends in an ordinary segment adds to its segments. -/
theorem encodePath_append_ne {a l q : Text} (habs : (a ++ slash :: l).head? = some slash)
    (hl : Ordinary l ∧ slash ∉ l)
    (hq : q = [] ∨ (q.head? = some slash ∧ encodePath env q = q)) :
    encodePath env (a ++ slash :: l ++ q) ≠ q := by
  intro heq
  have hresolve : resolve (a ++ slash :: l ++ q) = resolve a ++ [l] ++ parts slash q := by
    have hpush : pushSegment true (resolve a) l = resolve a ++ [l] := pushSegment_ordinary hl.1
    rw [← hpush, ← resolve_concat hl.2]
    rcases hq with rfl | ⟨hq, hfixed⟩
    · simp [parts, segments]
    · exact resolve_append hq fun s hs => not_dots_of_fixed hq hfixed hs
  have habs' : (a ++ slash :: l ++ q).head? = some slash := by
    rw [List.head?_append, habs]
    rfl
  have hparts := congrArg (parts slash) heq
  rw [parts_encodePath habs', hresolve] at hparts
  have hlen := congrArg List.length hparts
  simp only [List.length_map, List.length_append, List.length_cons, List.length_nil] at hlen
  omega

/-- A character added at the end of a path shows in the stored path. -/
theorem encodePath_extend_ne {c : Nat} {y : Text} (habs : p.head? = some slash)
    (hc : c < 0x80) (hdot : c ≠ dot) (hslash : slash ∉ c :: y) :
    encodePath env (p ++ c :: y) ≠ encodePath env p := by
  intro heq
  have hmem : slash ∈ p := List.mem_of_mem_head? habs
  obtain ⟨a, l, rfl, hl, -⟩ := segments_last hmem
  have habs' : (a ++ slash :: l ++ c :: y).head? = some slash := by
    rw [List.head?_append, habs]
    rfl
  have hlong : slash ∉ l ++ c :: y := by
    rw [List.mem_append, not_or]
    exact ⟨hl, hslash⟩
  have hord : Ordinary (l ++ c :: y) := by
    refine ⟨by simp, fun h => ?_, fun h => ?_⟩
    · have : c ∈ [dot] := h ▸ List.mem_append_right l List.mem_cons_self
      exact hdot (List.mem_singleton.mp this)
    · have : c ∈ [dot, dot] := h ▸ List.mem_append_right l List.mem_cons_self
      simp [hdot] at this
  have hparts := congrArg (parts slash) heq
  rw [parts_encodePath habs', parts_encodePath habs, resolve_concat hl, List.append_assoc,
    List.cons_append, resolve_concat hlong, pushSegment_ordinary hord] at hparts
  rcases pushSegment_cases (resolve a) l with ⟨-, hpush⟩ | hinit
  · -- the last segment is longer
    rw [hpush, List.map_append, List.map_append, List.append_cancel_left_eq] at hparts
    simp only [List.map_cons, List.map_nil, List.cons.injEq, and_true] at hparts
    rw [encodeSet_append_ascii l y hc] at hparts
    have hlen := congrArg List.length hparts
    have hbyte : 0 < (encodeByte true c).length := by
      unfold encodeByte
      split <;> simp [pctEncodeByte]
    simp only [List.length_append] at hlen
    omega
  · -- there is one segment more
    have hlen := congrArg List.length hparts
    have hle := hinit.length_le
    simp only [List.length_map, List.length_append, List.length_cons, List.length_nil] at hlen
    omega

end Encoded

end Url
