import QuickjsRuntime.Foundation.DotSegments
import QuickjsRuntime.Url.Encode

/-!
# The posix paths of the prelude

`isAbsolute`, `normalize`, `join`, `resolve` and `relative` of the `path` object in
`node_compat.dart`. Arguments are texts; others are passed over by the source. What `cwd` the
host reports is a parameter.

A normalised path is one of the texts that `render` writes for reduced segments, and these are
the fixed points of `normalize`. Since the flag of an absolute path is on its first character,
the front of a path can be normalised on its own, from which the laws of `join` and `resolve`
follow.
-/

namespace Path

open Utf16 (Text units)
open Url (slash dot)
open Split (segments segments_append_sep segments_cons_sep segments_join
  not_mem_of_mem_segments parts parts_join parts_cons_sep)
open DotSegments (Marks Reduced reduce)

/-! ## Model -/

def isAbsolute (p : Text) : Bool :=
  p.head? = some slash

/-- `''` and `'.'` are skipped, `'..'` leads up. -/
def marks : Marks Text where
  skips s := s = [] || s = [dot]
  up := [dot, dot]
  up_kept := by decide

/-- The last line of `normalize`. -/
def render (abs : Bool) (out : List Text) : Text :=
  let joined := Split.join slash out
  (if abs then [slash] else []) ++ (if joined ≠ [] then joined else if abs then [] else [dot])

def normalize (p : Text) : Text :=
  render (isAbsolute p) (reduce marks (isAbsolute p) [] (segments slash p)).reverse

def join (args : List Text) : Text :=
  normalize (Split.join slash (args.filter (· ≠ [])))

/-- The loop of `resolve` over the arguments from the last to the first. -/
def gather (parts : List Text) : List Text → List Text
  | [] => parts
  | a :: earlier =>
    if a = [] then gather parts earlier
    else if isAbsolute a then a :: parts
    else gather (a :: parts) earlier

/-- `cwd` is put in front unless the first part is absolute. -/
def rooted (cwd : Text) : List Text → List Text
  | [] => [cwd]
  | p :: ps => if isAbsolute p then p :: ps else cwd :: p :: ps

def resolve (cwd : Text) (args : List Text) : Text :=
  normalize (Split.join slash (rooted cwd (gather [] args.reverse)))

/-- The loop over `i` in `relative`: the number of equal segments in front. -/
def commonLength : List Text → List Text → Nat
  | s :: f, s' :: t => if s = s' then commonLength f t + 1 else 0
  | _, _ => 0

def relative (cwd source target : Text) : Text :=
  let source := resolve cwd [source]
  let target := resolve cwd [target]
  if source = target then []
  else
    let f := parts slash source
    let t := parts slash target
    let i := commonLength f t
    let out := List.replicate (f.length - i) [dot, dot] ++ t.drop i
    if Split.join slash out ≠ [] then Split.join slash out else [dot]

/-! ## Rendered segments -/

/-- Segments as `normalize` leaves them. -/
structure Clean (abs : Bool) (out : List Text) : Prop where
  reduced : Reduced marks abs out.reverse
  slash_not_mem : ∀ s ∈ out, slash ∉ s

variable {abs : Bool} {out : List Text} {a b cwd p : Text}

theorem Clean.ne_nil (h : Clean abs out) {s : Text} (hs : s ∈ out) : s ≠ [] ∧ s ≠ [dot] := by
  have hkept := h.reduced.kept s (List.mem_reverse.mpr hs)
  simpa [marks] using hkept

theorem clean_reduce (abs : Bool) (p : Text) :
    Clean abs (reduce marks abs [] (segments slash p)).reverse := by
  constructor
  · rw [List.reverse_reverse]
    exact DotSegments.reduced_nil.reduce _
  · -- nothing is on the stack but segments of the text
    intro s hs
    rcases DotSegments.mem_reduce (List.mem_reverse.mp hs) with hs | hs
    · exact not_mem_of_mem_segments hs
    · cases hs

theorem join_ne_nil (hout : out ≠ []) (hne : ∀ s ∈ out, s ≠ []) : Split.join slash out ≠ [] := by
  match out, hout with
  | [s], _ => exact hne s List.mem_cons_self
  | s :: t :: ss, _ => simp [Split.join]

theorem head_join {s : Text} {ss : List Text} (hs : s ≠ []) :
    (Split.join slash (s :: ss)).head? = s.head? := by
  obtain ⟨c, s, rfl⟩ := List.exists_cons_of_ne_nil hs
  cases ss with
  | nil => rfl
  | cons t ss => rfl

theorem render_nil (abs : Bool) : render abs [] = if abs then [slash] else [dot] := by
  cases abs <;> rfl

theorem render_of_ne_nil (h : Clean abs out) (hout : out ≠ []) :
    render abs out = (if abs then [slash] else []) ++ Split.join slash out := by
  rw [render, if_pos (join_ne_nil hout fun s hs => (h.ne_nil hs).1)]

theorem isAbsolute_render (h : Clean abs out) : isAbsolute (render abs out) = abs := by
  cases out with
  | nil => cases abs <;> rfl
  | cons s ss =>
    rw [render_of_ne_nil h (by simp)]
    cases abs with
    | true => rfl
    | false =>
      have hs := (h.ne_nil (s := s) List.mem_cons_self).1
      have hslash := h.slash_not_mem s List.mem_cons_self
      obtain ⟨c, s, rfl⟩ := List.exists_cons_of_ne_nil hs
      rw [isAbsolute, if_neg (by simp), List.nil_append, head_join hs]
      simp only [List.mem_cons, not_or] at hslash
      simp [Ne.symm hslash.1]

/-- The segments of a rendered path are reduced to those it was rendered from. -/
theorem reduce_render (h : Clean abs out) (abs' : Bool) (habs : abs' = abs) :
    reduce marks abs' [] (segments slash (render abs out)) = out.reverse := by
  subst habs
  cases hout : out with
  | nil => cases abs' <;> rfl
  | cons s ss =>
    have hfixed := DotSegments.reduce_reverse h.reduced
    rw [List.reverse_reverse] at hfixed
    rw [← hout, render_of_ne_nil h (by simp [hout])]
    have hsegs := segments_join (by simp [hout]) h.slash_not_mem
    cases abs' with
    | false => rw [if_neg (by simp), List.nil_append, hsegs, hfixed]
    | true =>
      rw [if_pos rfl, List.singleton_append, segments_cons_sep, hsegs]
      exact hfixed

theorem normalize_render (h : Clean abs out) : normalize (render abs out) = render abs out := by
  rw [normalize, isAbsolute_render h, reduce_render h abs rfl, List.reverse_reverse]

theorem isAbsolute_normalize (p : Text) : isAbsolute (normalize p) = isAbsolute p :=
  isAbsolute_render (clean_reduce _ p)

theorem normalize_ne_nil (p : Text) : normalize p ≠ [] := by
  rw [normalize]
  cases hout : (reduce marks (isAbsolute p) [] (segments slash p)).reverse with
  | nil => cases isAbsolute p <;> simp [render_nil]
  | cons s ss =>
    have hclean := clean_reduce (isAbsolute p) p
    rw [hout] at hclean
    have hjoin := join_ne_nil (by simp) fun t ht => (hclean.ne_nil ht).1
    rw [render_of_ne_nil hclean (by simp)]
    simp [hjoin]

/-! ## Normalising the front of a path -/

theorem isAbsolute_append (ha : a ≠ []) : isAbsolute (a ++ b) = isAbsolute a := by
  obtain ⟨c, a, rfl⟩ := List.exists_cons_of_ne_nil ha
  rfl

/-- The front of a path is normalised to the same effect before the rest is there. -/
theorem normalize_append (ha : a ≠ []) :
    normalize (normalize a ++ slash :: b) = normalize (a ++ slash :: b) := by
  have hfront := reduce_render (clean_reduce (isAbsolute a) a) _ rfl
  rw [← normalize, List.reverse_reverse] at hfront
  rw [normalize, isAbsolute_append (normalize_ne_nil a), isAbsolute_normalize,
    segments_append_sep, DotSegments.reduce_append, hfront, normalize, isAbsolute_append ha,
    segments_append_sep, DotSegments.reduce_append]

theorem normalize_normalize (p : Text) : normalize (normalize p) = normalize p :=
  normalize_render (clean_reduce _ p)

theorem join_append {xs ys : List Text} (hxs : xs ≠ []) (hys : ys ≠ []) :
    Split.join slash (xs ++ ys) = Split.join slash xs ++ slash :: Split.join slash ys := by
  induction xs with
  | nil => exact absurd rfl hxs
  | cons x xs ih =>
    cases xs with
    | nil =>
      obtain ⟨y, ys, rfl⟩ := List.exists_cons_of_ne_nil hys
      rfl
    | cons x' xs =>
      rw [List.cons_append, List.cons_append, Split.join, ← List.cons_append, ih (by simp),
        Split.join, List.append_assoc]
      rfl

/-- The same for a list of parts: those in front may be joined and normalised first. -/
theorem normalize_join_append {xs : List Text} (ps : List Text) (hxs : Split.join slash xs ≠ []) :
    normalize (Split.join slash (normalize (Split.join slash xs) :: ps)) =
      normalize (Split.join slash (xs ++ ps)) := by
  have hne : xs ≠ [] := by
    rintro rfl
    exact hxs rfl
  cases ps with
  | nil => rw [List.append_nil, Split.join, normalize_normalize]
  | cons q qs =>
    rw [join_append hne (by simp), ← normalize_append hxs]
    rfl

/-! ## Joining -/

theorem join_args_ne_nil (args : List Text) : join args ≠ [] :=
  normalize_ne_nil _

theorem join_join {args : List Text} (hargs : ∃ a ∈ args, a ≠ []) (rest : List Text) :
    join (join args :: rest) = join (args ++ rest) := by
  obtain ⟨a, ha, hne⟩ := hargs
  have hmem : a ∈ args.filter (· ≠ []) := List.mem_filter.mpr ⟨ha, by simpa using hne⟩
  have hjoin : Split.join slash (args.filter (· ≠ [])) ≠ [] :=
    join_ne_nil (List.ne_nil_of_mem hmem) fun s hs => by simpa using (List.mem_filter.mp hs).2
  have hkept : (join args :: rest).filter (· ≠ []) = join args :: rest.filter (· ≠ []) :=
    List.filter_cons_of_pos (by simpa using join_args_ne_nil args)
  rw [join, hkept, join, normalize_join_append _ hjoin, ← List.filter_append, ← join]

/-! ## Resolving -/

theorem gather_append_left (parts l : List Text) : gather parts l = gather [] l ++ parts := by
  induction l generalizing parts with
  | nil => rfl
  | cons a earlier ih =>
    rw [gather, gather]
    split
    · exact ih parts
    · split
      · rfl
      · rw [ih, ih [a], List.append_assoc]
        rfl

/-- The loop stops within its first arguments exactly if one of them is absolute. -/
theorem gather_append (parts l l' : List Text) :
    gather parts (l ++ l') =
      if l.any isAbsolute then gather parts l else gather (gather parts l) l' := by
  induction l generalizing parts with
  | nil => rfl
  | cons a l ih =>
    rw [List.cons_append, gather, gather, List.any_cons, ih, ih]
    by_cases ha : a = []
    · subst ha
      rfl
    · cases habs : isAbsolute a <;> simp [ha]

/-- Without an absolute argument all parts are relative. -/
theorem not_isAbsolute_of_mem_gather {l : List Text} (hl : l.any isAbsolute = false) {q : Text}
    (hq : q ∈ gather [] l) : isAbsolute q = false := by
  induction l with
  | nil => cases hq
  | cons a l ih =>
    rw [List.any_cons, Bool.or_eq_false_iff] at hl
    rw [gather] at hq
    by_cases ha : a = []
    · rw [if_pos ha] at hq
      exact ih hl.2 hq
    · rw [if_neg ha, if_neg (by simp [hl.1]), gather_append_left, List.mem_append,
        List.mem_singleton] at hq
      rcases hq with hq | rfl
      · exact ih hl.2 hq
      · exact hl.1

theorem rooted_append (cwd : Text) (qs : List Text) {ps : List Text}
    (hps : ∀ q ∈ ps, isAbsolute q = false) : rooted cwd (qs ++ ps) = rooted cwd qs ++ ps := by
  cases qs with
  | cons q qs =>
    rw [List.cons_append, rooted, rooted]
    split <;> rfl
  | nil =>
    cases ps with
    | nil => rfl
    | cons p ps =>
      rw [List.nil_append, rooted, rooted, if_neg (by simp [hps p List.mem_cons_self])]
      rfl

theorem head_rooted (hcwd : isAbsolute cwd = true) (qs : List Text) :
    ∃ q rest, rooted cwd qs = q :: rest ∧ isAbsolute q = true := by
  cases qs with
  | nil => exact ⟨cwd, [], rfl, hcwd⟩
  | cons q qs =>
    rw [rooted]
    split
    next hq => exact ⟨q, qs, rfl, hq⟩
    next => exact ⟨cwd, q :: qs, rfl, hcwd⟩

theorem ne_nil_of_isAbsolute (hp : isAbsolute p = true) : p ≠ [] := by
  rintro rfl
  exact absurd hp (by decide)

theorem isAbsolute_join_rooted (hcwd : isAbsolute cwd = true) (qs : List Text) :
    isAbsolute (Split.join slash (rooted cwd qs)) = true := by
  obtain ⟨q, rest, hrooted, hq⟩ := head_rooted hcwd qs
  rw [hrooted, isAbsolute, head_join (ne_nil_of_isAbsolute hq)]
  exact hq

theorem isAbsolute_resolve (hcwd : isAbsolute cwd = true) (args : List Text) :
    isAbsolute (resolve cwd args) = true := by
  rw [resolve, isAbsolute_normalize]
  exact isAbsolute_join_rooted hcwd _

theorem resolve_resolve (hcwd : isAbsolute cwd = true) (args rest : List Text) :
    resolve cwd (resolve cwd args :: rest) = resolve cwd (args ++ rest) := by
  have habs := isAbsolute_resolve hcwd args
  have hreset : gather [] (resolve cwd args :: rest).reverse =
      if rest.reverse.any isAbsolute then gather [] rest.reverse
      else resolve cwd args :: gather [] rest.reverse := by
    rw [List.reverse_cons, gather_append, gather, if_neg (ne_nil_of_isAbsolute habs), if_pos habs]
  have hplain : gather [] (args ++ rest).reverse =
      if rest.reverse.any isAbsolute then gather [] rest.reverse
      else gather [] args.reverse ++ gather [] rest.reverse := by
    rw [List.reverse_append, gather_append, gather_append_left (gather [] rest.reverse)]
  rw [resolve, hreset, resolve.eq_1 cwd (args ++ rest), hplain]
  cases hrest : rest.reverse.any isAbsolute with
  | true => rfl
  | false =>
    -- nothing after `args` is absolute, so the parts of `args` are in front in both
    have hps : ∀ q ∈ gather [] rest.reverse, isAbsolute q = false :=
      fun q hq => not_isAbsolute_of_mem_gather hrest hq
    rw [if_neg (by simp), if_neg (by simp), rooted_append cwd _ hps, rooted, if_pos habs,
      resolve, normalize_join_append]
    exact ne_nil_of_isAbsolute (isAbsolute_join_rooted hcwd _)

/-! ## The form of the results -/

/-- The segments of a path, without the slash in front of an absolute one. -/
def pathSegments (p : Text) : List Text :=
  if isAbsolute p then
    if p = [slash] then [] else segments slash p.tail
  else segments slash p

/-- A path that is in normal form: no segment is empty or `'.'`, the whole path `'.'` apart, and
`'..'` is only in front of a relative one. -/
structure Canonical (p : Text) : Prop where
  fixed : normalize p = p
  named : p = [dot] ∨ ∀ s ∈ pathSegments p, s ≠ [] ∧ s ≠ [dot]
  ups : ∃ k names, pathSegments p = List.replicate k [dot, dot] ++ names ∧
    [dot, dot] ∉ names ∧ (isAbsolute p = true → k = 0)

theorem pathSegments_render (h : Clean abs out) (hout : abs = true ∨ out ≠ []) :
    pathSegments (render abs out) = out := by
  rw [pathSegments, isAbsolute_render h]
  cases out with
  | nil =>
    cases abs with
    | true => rfl
    | false => simp at hout
  | cons s ss =>
    have hsegs := segments_join (by simp) h.slash_not_mem
    have hne : Split.join slash (s :: ss) ≠ [] := join_ne_nil (by simp) fun t ht => (h.ne_nil ht).1
    rw [render_of_ne_nil h (by simp)]
    cases abs with
    | true => simp [hne, hsegs]
    | false => simp [hsegs]

theorem canonical_render (h : Clean abs out) : Canonical (render abs out) := by
  by_cases hout : abs = true ∨ out ≠ []
  · have hsegs := pathSegments_render h hout
    refine ⟨normalize_render h, Or.inr ?_, ?_⟩
    · rw [hsegs]
      exact fun s hs => h.ne_nil hs
    · obtain ⟨names, k, hstack, hnames, hk⟩ := h.reduced.ups
      refine ⟨k, names.reverse, ?_, fun hmem => hnames (List.mem_reverse.mp hmem), ?_⟩
      · rw [hsegs, ← List.reverse_reverse out, hstack, List.reverse_append,
          List.reverse_replicate]
        rfl
      · rw [isAbsolute_render h]
        exact hk
  · rw [not_or, not_not] at hout
    obtain ⟨habs, rfl⟩ := hout
    cases abs with
    | true => exact absurd rfl habs
    | false => exact ⟨normalize_render h, Or.inl rfl, 0, [[dot]], rfl, by decide, by decide⟩

theorem canonical_normalize (p : Text) : Canonical (normalize p) :=
  canonical_render (clean_reduce _ p)

/-- Joining and resolving compose, and every path that comes out of `normalize`, `join` and
`resolve` is in normal form. -/
theorem paths_compose :
    (∀ a b c : Text, a ≠ [] ∨ b ≠ [] → join [join [a, b], c] = join [a, b, c]) ∧
    (∀ cwd a b c : Text, isAbsolute cwd = true →
      resolve cwd [resolve cwd [a, b], c] = resolve cwd [a, b, c]) ∧
    (∀ p : Text, Canonical (normalize p)) ∧
    (∀ args : List Text, Canonical (join args)) ∧
    ∀ (cwd : Text) (args : List Text), Canonical (resolve cwd args) := by
  refine ⟨?_, ?_, canonical_normalize, fun args => canonical_normalize _,
    fun cwd args => canonical_normalize _⟩
  · intro a b c hab
    have hargs : ∃ x ∈ [a, b], x ≠ [] := by
      rcases hab with ha | hb
      · exact ⟨a, by simp, ha⟩
      · exact ⟨b, by simp, hb⟩
    exact join_join hargs [c]
  · intro cwd a b c hcwd
    exact resolve_resolve hcwd [a, b] [c]

/-- `join(join('a', '..'), '/b')` and `resolve(resolve('a', '../..'), 'b')` -/
theorem paths_compose_climbing :
    join [join [units "a", units ".."], units "/b"] = units "b" ∧
      resolve (units "/work") [resolve (units "/work") [units "a", units "../.."], units "b"] =
        units "/b" :=
  ⟨(paths_compose.1 _ _ _ (Or.inl (by decide))).trans (by decide),
    (paths_compose.2.1 _ _ _ _ rfl).trans (by decide)⟩

/-! ## Relative paths -/

theorem commonLength_spec (f t : List Text) :
    ∃ common f' t', f = common ++ f' ∧ t = common ++ t' ∧ commonLength f t = common.length := by
  induction f generalizing t with
  | nil => exact ⟨[], [], t, rfl, rfl, by simp [commonLength]⟩
  | cons s f ih =>
    cases t with
    | nil => exact ⟨[], s :: f, [], rfl, rfl, rfl⟩
    | cons s' t =>
      by_cases hs : s = s'
      · subst hs
        obtain ⟨common, f', t', hf, ht, hlength⟩ := ih t
        refine ⟨s :: common, f', t', by rw [hf, List.cons_append], by rw [ht, List.cons_append], ?_⟩
        rw [commonLength, if_pos rfl, hlength, List.length_cons]
      · exact ⟨[], s :: f, s' :: t, rfl, rfl, by rw [commonLength, if_neg hs]; rfl⟩

theorem Clean.up_not_mem (h : Clean true out) : marks.up ∉ out := by
  obtain ⟨names, k, hstack, hnames, hk⟩ := h.reduced.ups
  rw [hk rfl, List.replicate_zero, List.append_nil] at hstack
  rw [← List.mem_reverse, hstack]
  exact hnames

theorem parts_render (h : Clean true out) : parts slash (render true out) = out := by
  cases out with
  | nil => rfl
  | cons s ss =>
    rw [render_of_ne_nil h (by simp), if_pos rfl, List.singleton_append, parts_cons_sep,
      parts_join fun t ht => ⟨(h.ne_nil ht).1, h.slash_not_mem t ht⟩]

theorem resolve_eq_render (hcwd : isAbsolute cwd = true) (args : List Text) :
    ∃ out, Clean true out ∧ resolve cwd args = render true out := by
  have habs := isAbsolute_join_rooted hcwd (gather [] args.reverse)
  refine ⟨_, clean_reduce true (Split.join slash (rooted cwd (gather [] args.reverse))), ?_⟩
  rw [resolve, normalize, habs]

/-- The way from one list of segments to another, below a common front. -/
theorem reduce_way {common f' t' : List Text} (hf : Clean true (common ++ f'))
    (ht : Clean true (common ++ t')) :
    reduce marks true (common ++ f').reverse (List.replicate f'.length [dot, dot] ++ t') =
      (common ++ t').reverse := by
  have hup : marks.up ∉ f'.reverse := by
    intro hmem
    exact hf.up_not_mem (List.mem_append_right _ (List.mem_reverse.mp hmem))
  have hback : reduce marks true (f'.reverse ++ common.reverse)
      (List.replicate f'.reverse.length marks.up) = common.reverse := DotSegments.reduce_ups hup
  rw [List.length_reverse, ← List.reverse_append] at hback
  rw [DotSegments.reduce_append, ← show marks.up = [dot, dot] from rfl, hback,
    DotSegments.reduce_names, List.reverse_append]
  · intro s hs
    exact ht.reduced.kept s (List.mem_reverse.mpr (List.mem_append_right _ hs))
  · exact fun hmem => ht.up_not_mem (List.mem_append_right _ hmem)

theorem relative_spec (hcwd : isAbsolute cwd = true) (source target : Text)
    (hne : resolve cwd [source] ≠ resolve cwd [target]) :
    ∃ common f' t', Clean true (common ++ f') ∧ Clean true (common ++ t') ∧
      resolve cwd [source] = render true (common ++ f') ∧
      resolve cwd [target] = render true (common ++ t') ∧
      List.replicate f'.length [dot, dot] ++ t' ≠ [] ∧
      relative cwd source target = Split.join slash (List.replicate f'.length [dot, dot] ++ t') ∧
      ∀ s ∈ List.replicate f'.length [dot, dot] ++ t', s ≠ [] ∧ slash ∉ s := by
  obtain ⟨f, hf, hsource⟩ := resolve_eq_render hcwd [source]
  obtain ⟨t, ht, htarget⟩ := resolve_eq_render hcwd [target]
  obtain ⟨common, f', t', rfl, rfl, hlength⟩ := commonLength_spec f t
  have hway : List.replicate f'.length [dot, dot] ++ t' ≠ [] := by
    intro hnil
    obtain ⟨hups, rfl⟩ := List.append_eq_nil_iff.mp hnil
    rw [List.replicate_eq_nil_iff, List.length_eq_zero_iff] at hups
    subst hups
    exact hne (hsource.trans htarget.symm)
  have hkept : ∀ s ∈ List.replicate f'.length [dot, dot] ++ t', s ≠ [] ∧ slash ∉ s := by
    intro s hs
    rcases List.mem_append.mp hs with hs | hs
    · rw [List.eq_of_mem_replicate hs]
      decide
    · have hmem : s ∈ common ++ t' := List.mem_append_right _ hs
      exact ⟨(ht.ne_nil hmem).1, ht.slash_not_mem s hmem⟩
  refine ⟨common, f', t', hf, ht, hsource, htarget, hway, ?_, hkept⟩
  have hjoin := join_ne_nil hway fun s hs => (hkept s hs).1
  have hups : (common ++ f').length - common.length = f'.length := by simp
  simp only [relative, if_neg hne]
  rw [hsource, htarget, parts_render hf, parts_render ht, hlength, hups, List.drop_left,
    if_pos hjoin]

/-- A relative path leads from its source to its target, and is empty just when they are the
same place. -/
theorem relative_inverts_resolve (cwd source target : Text) (hcwd : isAbsolute cwd = true) :
    resolve cwd [source, relative cwd source target] = resolve cwd [target] ∧
      (relative cwd source target = [] ↔ resolve cwd [source] = resolve cwd [target]) := by
  by_cases hsame : resolve cwd [source] = resolve cwd [target]
  · have hempty : relative cwd source target = [] := by
      simp only [relative, if_pos hsame]
    refine ⟨?_, by simp [hempty, hsame]⟩
    rw [hempty, ← hsame]
    rfl
  · obtain ⟨common, f', t', hf, ht, hsource, htarget, hway, hrelative, hkept⟩ :=
      relative_spec hcwd source target hsame
    have hjoin := join_ne_nil hway fun s hs => (hkept s hs).1
    have hsegs := segments_join hway fun s hs => (hkept s hs).2
    have hrel : isAbsolute (relative cwd source target) = false := by
      obtain ⟨s, ss, hlist⟩ := List.exists_cons_of_ne_nil hway
      have hs := hkept s (hlist ▸ List.mem_cons_self)
      rw [hrelative, hlist, isAbsolute, head_join hs.1]
      obtain ⟨c, s, rfl⟩ := List.exists_cons_of_ne_nil hs.1
      have hc := hs.2
      simp only [List.mem_cons, not_or] at hc
      simp [Ne.symm hc.1]
    constructor
    · have hcompose := resolve_resolve hcwd [source] [relative cwd source target]
      rw [List.singleton_append] at hcompose
      have habs := isAbsolute_resolve hcwd [source]
      have hparts : gather [] [relative cwd source target, resolve cwd [source]] =
          [resolve cwd [source], relative cwd source target] := by
        rw [gather, if_neg (hrelative ▸ hjoin), if_neg (by simp [hrel]), gather,
          if_neg (ne_nil_of_isAbsolute habs), if_pos habs]
      have hreverse : [resolve cwd [source], relative cwd source target].reverse =
          [relative cwd source target, resolve cwd [source]] := rfl
      rw [← hcompose, resolve, hreverse, hparts, rooted, if_pos habs, Split.join, Split.join,
        normalize,
        isAbsolute_append (ne_nil_of_isAbsolute habs), habs, segments_append_sep,
        DotSegments.reduce_append, hsource, reduce_render hf true rfl, hrelative, hsegs,
        reduce_way hf ht, List.reverse_reverse, htarget]
    · rw [hrelative]
      exact ⟨fun hnil => absurd hnil hjoin, fun hnil => absurd hnil hsame⟩

/-- `relative('a/b', '/work/c')` in `/work` is `'../../c'`. -/
theorem relative_inverts_resolve_work :
    relative (units "/work") (units "a/b") (units "/work/c") = units "../../c" ∧
      resolve (units "/work") [units "a/b", units "../../c"] = units "/work/c" := by
  have hway : relative (units "/work") (units "a/b") (units "/work/c") = units "../../c" := by
    decide
  have hback := (relative_inverts_resolve (units "/work") (units "a/b") (units "/work/c") rfl).1
  rw [hway] at hback
  exact ⟨hway, hback.trans (by decide)⟩

end Path
