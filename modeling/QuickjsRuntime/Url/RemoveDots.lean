import QuickjsRuntime.Path.Posix
import QuickjsRuntime.Url.Dots

/-!
# Dot segments in the generic syntax

`normalizeDots` beside `remove_dot_segments` of the generic syntax for URIs, which is written
here as it is defined there: over an input and an output buffer of characters, round by round.
On an absolute path the rounds are the pushes of a reduction that passes over `'.'` and keeps
empty segments. `normalizeDots` passes over both, and it does not put a slash where a dot segment
was last, so the two differ.
-/

namespace Url

open Utf16 (Text units)
open Split (segments segments_cons_sep segments_ne_nil not_mem_of_mem_segments
  segments_join join_segments join)
open DotSegments (Marks Reduced reduce push Removed Agree)

/-! ## `remove_dot_segments` -/

/-- The output buffer without its last segment and the slash in front of it. -/
def dropSegment (output : Text) : Text :=
  (output.rdropWhile (· ≠ slash)).dropLast

/-- One round: the input and the output buffer after it. -/
def removeStep (input output : Text) : Text × Text :=
  if input.take 3 = [dot, dot, slash] then (input.drop 3, output)
  else if input.take 2 = [dot, slash] then (input.drop 2, output)
  else if input.take 3 = [slash, dot, slash] then (input.drop 2, output)
  else if input = [slash, dot] then ([slash], output)
  else if input.take 4 = [slash, dot, dot, slash] then (input.drop 3, dropSegment output)
  else if input = [slash, dot, dot] then ([slash], dropSegment output)
  else if input = [dot] ∨ input = [dot, dot] then ([], output)
  else
    (input.tail.dropWhile (· ≠ slash), output ++ (input.take 1 ++ input.tail.takeWhile (· ≠ slash)))

theorem length_drop_of_take {input front : Text} {n k : Nat} (h : input.take n = front)
    (hfront : 0 < front.length) (hk : 0 < k) : (input.drop k).length < input.length := by
  have hlength := congrArg List.length h
  rw [List.length_take] at hlength
  rw [List.length_drop]
  omega

theorem removeStep_lt {input : Text} (hinput : input ≠ []) (output : Text) :
    (removeStep input output).1.length < input.length := by
  obtain ⟨c, input, rfl⟩ := List.exists_cons_of_ne_nil hinput
  unfold removeStep
  split
  next h => exact length_drop_of_take h (by decide) (by decide)
  split
  next h => exact length_drop_of_take h (by decide) (by decide)
  split
  next h => exact length_drop_of_take h (by decide) (by decide)
  split
  next h => simp [h]
  split
  next h => exact length_drop_of_take h (by decide) (by decide)
  split
  next h => simp [h]
  split
  next => simp
  next =>
    have hle := (List.dropWhile_suffix (p := fun x => decide (x ≠ slash)) (l := input)).length_le
    exact Nat.lt_succ_of_le hle

/-- The rounds, until the input buffer is empty. -/
def removeLoop (input output : Text) : Text :=
  if _hinput : input = [] then output
  else removeLoop (removeStep input output).1 (removeStep input output).2
termination_by input.length
decreasing_by exact removeStep_lt ‹_› output

def removeDotSegments (p : Text) : Text :=
  removeLoop p []

/-! ## Absolute paths as lists of segments -/

/-- A slash in front of every segment. -/
def slashed (segs : List Text) : Text :=
  segs.flatMap (slash :: ·)

/-- Only `'.'` is skipped; an empty segment is one like others. -/
def keepingMarks : Marks Text where
  skips s := s = [dot]
  up := [dot, dot]
  up_kept := by decide

variable {s t q last : Text} {segs stack rest before : List Text}

theorem slashed_cons (s : Text) (segs : List Text) :
    slashed (s :: segs) = slash :: (s ++ slashed segs) :=
  rfl

theorem slashed_append (segs segs' : List Text) :
    slashed (segs ++ segs') = slashed segs ++ slashed segs' :=
  List.flatMap_append

theorem slashed_eq (hsegs : segs ≠ []) : slashed segs = slash :: join slash segs := by
  induction segs with
  | nil => exact absurd rfl hsegs
  | cons s segs ih =>
    cases segs with
    | nil => simp [slashed, join]
    | cons t segs => rw [slashed_cons, ih (by simp), join]

theorem segments_slashed (hne : segs ≠ []) (hsegs : ∀ s ∈ segs, slash ∉ s) :
    segments slash (slashed segs) = [] :: segs := by
  rw [slashed_eq hne, segments_cons_sep, segments_join hne hsegs]

theorem slashed_segments (q : Text) : slashed (segments slash q) = slash :: q := by
  rw [slashed_eq (segments_ne_nil slash q), join_segments]

theorem head_slashed (segs : List Text) :
    ∀ x ∈ (slashed segs).head?, decide (x ≠ slash) = false := by
  cases segs with
  | nil => simp [slashed]
  | cons s segs => simp [slashed]

theorem ne_slash_of_not_mem (hs : slash ∉ s) : ∀ x ∈ s, decide (x ≠ slash) = true := by
  intro x hx
  rw [decide_eq_true_eq]
  rintro rfl
  exact hs hx

/-! ## One round on an absolute path -/

/-- What stands in front of the first slash is the segment. -/
theorem segment_eq {a b : Text} (ht : slash ∉ t) (ha : slash ∉ a)
    (hb : ∀ x ∈ b.head?, x = slash) (heq : t ++ slashed rest = a ++ b) : t = a :=
  (Split.append_inj_of_stop heq (ne_slash_of_not_mem ht) (ne_slash_of_not_mem ha)
    (head_slashed rest) (fun x hx => by simp [hb x hx])).1

theorem segment_of_take {a : Text} (ht : slash ∉ t) (ha : slash ∉ a)
    (htake : (t ++ slashed rest).take (a.length + 1) = a ++ [slash]) : t = a := by
  apply segment_eq (b := slash :: (t ++ slashed rest).drop (a.length + 1)) ht ha (by simp)
  calc t ++ slashed rest
      = (t ++ slashed rest).take (a.length + 1) ++
          (t ++ slashed rest).drop (a.length + 1) := (List.take_append_drop _ _).symm
    _ = a ++ slash :: (t ++ slashed rest).drop (a.length + 1) := by
        rw [htake, List.append_assoc, List.singleton_append]

theorem dropSegment_slashed (hstack : ∀ s ∈ stack, slash ∉ s) :
    dropSegment (slashed stack.reverse) = slashed stack.tail.reverse := by
  cases stack with
  | nil => rfl
  | cons s stack =>
    have hs : s.rdropWhile (fun x => decide (x ≠ slash)) = [] :=
      List.rdropWhile_eq_nil_iff.mpr (ne_slash_of_not_mem (hstack s List.mem_cons_self))
    have hlast : slashed [s] = slash :: s := by simp [slashed]
    rw [List.reverse_cons, slashed_append, hlast, dropSegment,
      Split.rdropWhile_append_cons (by simp), hs, List.dropLast_concat, List.tail_cons]

theorem removeStep_name (ht : slash ∉ t) (hdot : t ≠ [dot]) (hdots : t ≠ [dot, dot])
    (output : Text) :
    removeStep (slashed (t :: rest)) output = (slashed rest, output ++ slash :: t) := by
  have htake : (t ++ slashed rest).takeWhile (fun x => decide (x ≠ slash)) = t :=
    Split.takeWhile_append_stop (ne_slash_of_not_mem ht) (head_slashed rest)
  have hdrop : (t ++ slashed rest).dropWhile (fun x => decide (x ≠ slash)) =
      slashed rest :=
    Split.dropWhile_append_stop (ne_slash_of_not_mem ht) (head_slashed rest)
  have hnot (a : Text) (ha : slash ∉ a) (hne : t ≠ a) :
      ¬ (t ++ slashed rest).take (a.length + 1) = a ++ [slash] :=
    fun h => hne (segment_of_take ht ha h)
  have hnot' (a : Text) (ha : slash ∉ a) (hne : t ≠ a) : ¬ t ++ slashed rest = a := by
    intro h
    exact hne (segment_eq (b := []) ht ha (by simp) (by simpa using h))
  have h1 := hnot [dot] (by decide) hdot
  have h2 := hnot [dot, dot] (by decide) hdots
  have h3 := hnot' [dot] (by decide) hdot
  have h4 := hnot' [dot, dot] (by decide) hdots
  have hslash : ¬ slash = dot := by decide
  simp only [List.length_cons, List.length_nil, Nat.reduceAdd, List.cons_append,
    List.nil_append] at h1 h2
  simp only [removeStep, slashed_cons, List.take_succ_cons, List.cons.injEq, hslash, h1, h2,
    h3, h4, false_and, and_false, false_or, if_false, List.tail_cons, htake, hdrop,
    List.take_zero, List.cons_append, List.nil_append]

theorem removeStep_dot (output : Text) (hrest : rest ≠ []) :
    removeStep (slashed ([dot] :: rest)) output = (slashed rest, output) := by
  obtain ⟨t, rest, rfl⟩ := List.exists_cons_of_ne_nil hrest
  simp [removeStep, slashed_cons, slash, dot]

theorem removeStep_dots (output : Text) (hrest : rest ≠ []) :
    removeStep (slashed ([dot, dot] :: rest)) output = (slashed rest, dropSegment output) := by
  obtain ⟨t, rest, rfl⟩ := List.exists_cons_of_ne_nil hrest
  simp [removeStep, slashed_cons, slash, dot]

theorem removeLoop_nil (output : Text) : removeLoop [] output = output := by
  rw [removeLoop, dif_pos rfl]

theorem removeLoop_absolute (t : Text) (rest : List Text) (output : Text) :
    removeLoop (slashed (t :: rest)) output =
      removeLoop (removeStep (slashed (t :: rest)) output).1
        (removeStep (slashed (t :: rest)) output).2 := by
  rw [removeLoop, dif_neg (by simp [slashed_cons])]

/-- A segment that is not the last one is pushed. -/
theorem removeLoop_push (hstack : ∀ s ∈ stack, slash ∉ s)
    (hreduced : Reduced keepingMarks true stack) (ht : slash ∉ t) (hrest : rest ≠ []) :
    removeLoop (slashed (t :: rest)) (slashed stack.reverse) =
      removeLoop (slashed rest) (slashed (push keepingMarks true stack t).reverse) := by
  rw [removeLoop_absolute]
  by_cases hdot : t = [dot]
  · rw [hdot, removeStep_dot _ hrest, DotSegments.push_skip rfl]
  by_cases hdots : t = [dot, dot]
  · have hpush : push keepingMarks true stack [dot, dot] = stack.tail :=
      DotSegments.push_up hreduced
    rw [hdots, removeStep_dots _ hrest, dropSegment_slashed hstack, hpush]
  · have hname : push keepingMarks true stack t = t :: stack :=
      DotSegments.push_name (by simpa [keepingMarks] using hdot) hdots
    rw [removeStep_name ht hdot hdots, hname, List.reverse_cons, slashed_append]
    simp [slashed]

/-- A dot segment at the end leaves an empty one. -/
def closed (last : Text) (stack : List Text) : List Text :=
  if last = [dot] ∨ last = [dot, dot] then [] :: stack else stack

theorem removeLoop_last (hstack : ∀ s ∈ stack, slash ∉ s)
    (hreduced : Reduced keepingMarks true stack) (ht : slash ∉ t) :
    removeLoop (slashed [t]) (slashed stack.reverse) =
      slashed (closed t (push keepingMarks true stack t)).reverse := by
  have hempty (output : Text) : removeLoop [slash] output = output ++ [slash] := by
    have hstep : removeStep (slashed [[]]) output = (slashed [], output ++ [slash]) :=
      removeStep_name (by simp) (by simp) (by simp) output
    have hloop := removeLoop_absolute [] [] output
    rw [hstep] at hloop
    exact hloop.trans (removeLoop_nil _)
  have hend (stack : List Text) :
      slashed ([] :: stack).reverse = slashed stack.reverse ++ [slash] := by
    rw [List.reverse_cons, slashed_append]
    rfl
  rw [removeLoop_absolute]
  by_cases hdot : t = [dot]
  · have hstep (output : Text) :
        removeStep (slashed [[dot]]) output = ([slash], output) := by
      simp [removeStep, slashed, slash, dot]
    rw [hdot, hstep, hempty, DotSegments.push_skip rfl, closed, if_pos (Or.inl rfl), hend]
  by_cases hdots : t = [dot, dot]
  · have hstep (output : Text) :
        removeStep (slashed [[dot, dot]]) output = ([slash], dropSegment output) := by
      simp [removeStep, slashed, slash, dot]
    have hpush : push keepingMarks true stack [dot, dot] = stack.tail :=
      DotSegments.push_up hreduced
    rw [hdots, hstep, hempty, dropSegment_slashed hstack, hpush, closed, if_pos (Or.inr rfl), hend]
  · have hname : push keepingMarks true stack t = t :: stack :=
      DotSegments.push_name (by simpa [keepingMarks] using hdot) hdots
    rw [removeStep_name ht hdot hdots, hname, closed, if_neg (by simp [hdot, hdots])]
    simp [slashed, removeLoop_nil]

/-! ## All rounds -/

theorem removeLoop_segments (hstack : ∀ s ∈ stack, slash ∉ s)
    (hreduced : Reduced keepingMarks true stack) {front : List Text}
    (hfront : ∀ s ∈ front, slash ∉ s) (hlast : slash ∉ last) :
    removeLoop (slashed (front ++ [last])) (slashed stack.reverse) =
      slashed
        (closed last (reduce keepingMarks true stack (front ++ [last]))).reverse := by
  induction front generalizing stack with
  | nil => exact removeLoop_last hstack hreduced hlast
  | cons t front ih =>
    have ht := hfront t List.mem_cons_self
    rw [List.cons_append, removeLoop_push hstack hreduced ht (by simp)]
    apply ih
    · intro s hs
      rcases DotSegments.mem_push hs with rfl | hs
      · exact ht
      · exact hstack s hs
    · exact hreduced.push t
    · exact fun s hs => hfront s (List.mem_cons_of_mem _ hs)

theorem segments_eq_of_reverse (h : (segments slash q).reverse = last :: before) :
    segments slash q = before.reverse ++ [last] := by
  rw [← List.reverse_reverse (segments slash q), h, List.reverse_cons]

theorem removeDotSegments_eq (h : (segments slash q).reverse = last :: before) :
    removeDotSegments (slash :: q) =
      slashed (closed last (reduce keepingMarks true [] (segments slash q))).reverse := by
  have hsegs := segments_eq_of_reverse h
  have hslash : ∀ s ∈ before.reverse ++ [last], slash ∉ s := by
    rw [← hsegs]
    exact fun s hs => not_mem_of_mem_segments hs
  rw [removeDotSegments, ← slashed_segments, hsegs]
  have hempty : ∀ s ∈ ([] : List Text), slash ∉ s := by simp
  exact removeLoop_segments hempty DotSegments.reduced_nil
    (fun s hs => hslash s (List.mem_append_left _ hs)) (hslash last (by simp))

/-! ## `normalizeDots` on the same segments -/

theorem pushSegment_reverse (hreduced : Reduced Path.marks true stack) (s : Text) :
    pushSegment true stack.reverse s = (push Path.marks true stack s).reverse := by
  by_cases hskip : s = [dot] ∨ s = []
  · rw [pushSegment, if_pos hskip,
      DotSegments.push_skip (by simpa [Path.marks, or_comm] using hskip)]
  have hkept : Path.marks.skips s = false := by
    simpa [Path.marks, not_or, and_comm] using hskip
  by_cases hdots : s = [dot, dot]
  · have hpush : push Path.marks true stack [dot, dot] = stack.tail :=
      DotSegments.push_up hreduced
    rw [pushSegment, if_neg hskip, if_pos hdots, hdots, hpush]
    cases stack <;> simp
  · rw [pushSegment, if_neg hskip, if_neg hdots, DotSegments.push_name hkept hdots,
      List.reverse_cons]

theorem foldl_pushSegment_reverse (hreduced : Reduced Path.marks true stack) (l : List Text) :
    l.foldl (pushSegment true) stack.reverse = (reduce Path.marks true stack l).reverse := by
  induction l generalizing stack with
  | nil => rfl
  | cons s l ih =>
    rw [List.foldl_cons, pushSegment_reverse hreduced]
    exact ih (hreduced.push s)

theorem resolve_cons_slash (q : Text) :
    resolve (slash :: q) = (reduce Path.marks true [] (segments slash q)).reverse := by
  rw [resolve, segments_cons_sep, List.foldl_cons, pushSegment_empty]
  exact foldl_pushSegment_reverse DotSegments.reduced_nil _

theorem getLast_cons_slash (h : (segments slash q).reverse = last :: before) :
    (slash :: q).getLast? = some slash ↔ last = [] := by
  have hsegs := segments_eq_of_reverse h
  have hlast : slash ∉ last :=
    not_mem_of_mem_segments (p := q) (by rw [hsegs]; exact List.mem_append_right _ (by simp))
  have htext : slash :: q = slashed before.reverse ++ slash :: last := by
    rw [← slashed_segments, hsegs, slashed_append]
    simp [slashed]
  rw [htext, List.getLast?_append]
  cases last with
  | nil => simp
  | cons c last =>
    simp only [reduceCtorEq, iff_false]
    intro hend
    rw [List.getLast?_cons_cons] at hend
    cases hget : (c :: last).getLast? with
    | none => simp at hget
    | some x =>
      rw [hget, Option.some_or, Option.some.injEq] at hend
      exact hlast (hend ▸ List.mem_of_getLast? hget)

/-- The slash that `normalizeDots` puts at the end: where the path has one, and at the root. -/
def ended (last : Text) (stack : List Text) : List Text :=
  if stack = [] ∨ last = [] then [] :: stack else stack

theorem normalizeDots_eq (hdot : dot ∈ q) (h : (segments slash q).reverse = last :: before) :
    normalizeDots (slash :: q) =
      slashed (ended last (reduce Path.marks true [] (segments slash q))).reverse := by
  have hout := resolve_cons_slash q
  have hparts : ∀ s ∈ resolve (slash :: q), s ≠ [] ∧ slash ∉ s :=
    fun s hs => ⟨(ordinary_of_mem_resolve hs).1.1, (ordinary_of_mem_resolve hs).2⟩
  rw [normalizeDots, if_neg (not_not.mpr (List.mem_cons_of_mem _ hdot))]
  simp only [List.head?_cons, decide_true, if_true, ← resolve.eq_1, decide_eq_true_eq]
  have htrailing := getLast_cons_slash h
  rw [ended]
  by_cases hnil : reduce Path.marks true [] (segments slash q) = []
  · rw [hout, hnil]
    simp [join, slashed]
  · have hne : resolve (slash :: q) ≠ [] := by
      rw [hout]
      simpa using hnil
    have hend := getLast_join_ne hne hparts
    by_cases hlast : last = []
    · rw [if_pos ⟨htrailing.mpr hlast, by simp, hend⟩, if_pos (Or.inr hlast), List.reverse_cons,
        ← hout,
        slashed_append, slashed_eq hne]
      rfl
    · rw [if_neg (by simp [htrailing, hlast]), if_neg (by simp [hnil, hlast]), ← hout,
        slashed_eq hne]

/-! ## Comparison -/

/-- Where the path has dot segments: read from the end, what `'.'` or `'..'` at the end stands
for is the root; otherwise the two ways of reading the segments before the last one, with and
without the empty ones, keep the same. -/
def DotsAgree (q : Text) : Prop :=
  match (segments slash q).reverse with
  | [] => True
  | last :: before =>
    if last = [dot] then Removed keepingMarks 0 before
    else if last = [dot, dot] then Removed keepingMarks 1 before
    else Agree Path.marks keepingMarks 0 0 before

theorem coarser_marks : DotSegments.Coarser Path.marks keepingMarks where
  up := rfl
  skips s hs := by
    simp only [keepingMarks, decide_eq_true_eq] at hs
    simp [Path.marks, hs]

theorem slashed_inj {a b : List Text} (ha : a ≠ []) (hb : b ≠ [])
    (hslash : ∀ s ∈ a, slash ∉ s) (hslash' : ∀ s ∈ b, slash ∉ s) :
    slashed a = slashed b ↔ a = b := by
  constructor
  · intro heq
    have hsegs := congrArg (segments slash) heq
    rw [segments_slashed ha hslash, segments_slashed hb hslash'] at hsegs
    exact (List.cons.inj hsegs).2
  · exact congrArg slashed

theorem slash_not_mem_reduce (m : Marks Text) (q : Text) :
    ∀ s ∈ reduce m true [] (segments slash q), slash ∉ s := by
  intro s hs
  rcases DotSegments.mem_reduce hs with hs | hs
  · exact not_mem_of_mem_segments hs
  · cases hs

theorem closed_ne_nil (h : (segments slash q).reverse = last :: before) :
    closed last (reduce keepingMarks true [] (segments slash q)) ≠ [] := by
  unfold closed
  split
  next => simp
  next hlast =>
    rw [not_or] at hlast
    have hpush : ∀ stack, push keepingMarks true stack last = last :: stack :=
      fun stack => DotSegments.push_name (by simpa [keepingMarks] using hlast.1) hlast.2
    rw [segments_eq_of_reverse h, DotSegments.reduce_append]
    intro hnil
    exact absurd ((hpush _).symm.trans hnil) (by simp)

theorem ended_ne_nil (last : Text) (stack : List Text) : ended last stack ≠ [] := by
  unfold ended
  split
  next => simp
  next h => exact fun hnil => h (Or.inl hnil)

theorem slash_not_mem_cons (hstack : ∀ s ∈ stack, slash ∉ s) : ∀ s ∈ [] :: stack, slash ∉ s := by
  simpa using hstack

/-- The texts are the same when the lists of segments are. -/
theorem normalizeDots_eq_iff (hdot : dot ∈ q) (h : (segments slash q).reverse = last :: before) :
    normalizeDots (slash :: q) = removeDotSegments (slash :: q) ↔
      ended last (reduce Path.marks true [] (segments slash q)) =
        closed last (reduce keepingMarks true [] (segments slash q)) := by
  have hended : ∀ s ∈ ended last (reduce Path.marks true [] (segments slash q)), slash ∉ s := by
    unfold ended
    split
    · exact slash_not_mem_cons (slash_not_mem_reduce _ q)
    · exact slash_not_mem_reduce _ q
  have hclosed : ∀ s ∈ closed last (reduce keepingMarks true [] (segments slash q)), slash ∉ s := by
    unfold closed
    split
    · exact slash_not_mem_cons (slash_not_mem_reduce _ q)
    · exact slash_not_mem_reduce _ q
  rw [normalizeDots_eq hdot h, removeDotSegments_eq h, slashed_inj, List.reverse_inj]
  · simpa using ended_ne_nil last _
  · simpa using closed_ne_nil h
  · exact fun s hs => hended s (List.mem_reverse.mp hs)
  · exact fun s hs => hclosed s (List.mem_reverse.mp hs)

theorem reduce_eq_keptFrom (m : Marks Text) (h : (segments slash q).reverse = last :: before) :
    reduce m true [] (segments slash q) = DotSegments.keptFrom m 0 (last :: before) := by
  rw [← h, ← DotSegments.drop_reduce, List.drop_zero]

/-- With a dot segment at the end both are the root or they differ. -/
theorem ended_eq_cons_iff (hlast : last ≠ []) {k : Nat}
    (hnames : ∀ s ∈ DotSegments.keptFrom Path.marks k before, s ≠ []) :
    ended last (DotSegments.keptFrom Path.marks k before) =
        [] :: DotSegments.keptFrom keepingMarks k before ↔
      Removed keepingMarks k before := by
  have hlength := coarser_marks.length_le (Nat.le_refl k) before
  rw [← DotSegments.keptFrom_eq_nil_iff]
  by_cases hnil : DotSegments.keptFrom Path.marks k before = []
  · rw [ended, if_pos (Or.inl hnil), hnil]
    simp [eq_comm]
  · rw [ended, if_neg (by simp [hnil, hlast])]
    constructor
    · intro heq
      exact absurd rfl (hnames [] (heq ▸ List.mem_cons_self))
    · intro hempty
      rw [hempty] at hlength
      exact absurd (List.length_eq_zero_iff.mp (Nat.le_zero.mp hlength)) hnil

theorem normalizeDots_of_dot (hdot : dot ∈ q) :
    normalizeDots (slash :: q) = removeDotSegments (slash :: q) ↔ DotsAgree q := by
  obtain ⟨last, before, h⟩ : ∃ last before, (segments slash q).reverse = last :: before :=
    List.exists_cons_of_ne_nil (by simpa using segments_ne_nil slash q)
  have hnames : ∀ s ∈ DotSegments.keptFrom Path.marks 0 (last :: before), s ≠ [] := by
    rw [← reduce_eq_keptFrom Path.marks h]
    intro s hs
    have hkept := (DotSegments.reduced_nil.reduce (segments slash q)).kept s hs
    simp only [Path.marks, Bool.or_eq_false_iff, decide_eq_false_iff_not] at hkept
    exact hkept.1
  rw [normalizeDots_eq_iff hdot h, reduce_eq_keptFrom Path.marks h,
    reduce_eq_keptFrom keepingMarks h, DotsAgree, h]
  dsimp only
  by_cases hone : last = [dot]
  · subst hone
    exact ended_eq_cons_iff (k := 0) (by simp) hnames
  by_cases htwo : last = [dot, dot]
  · subst htwo
    exact ended_eq_cons_iff (k := 1) (by simp) hnames
  have hfine : DotSegments.keptFrom keepingMarks 0 (last :: before) =
      last :: DotSegments.keptFrom keepingMarks 0 before :=
    DotSegments.keptFrom_name (by simpa [keepingMarks] using hone) htwo before
  rw [if_neg hone, if_neg htwo, hfine, closed, if_neg (by simp [hone, htwo]),
    ← coarser_marks.keptFrom_eq_iff (Nat.le_refl 0)]
  by_cases hempty : last = []
  · have hcoarse : DotSegments.keptFrom Path.marks 0 (last :: before) =
        DotSegments.keptFrom Path.marks 0 before := by
      rw [DotSegments.keptFrom, if_pos (by simp [Path.marks, hempty])]
    rw [hcoarse, ended, if_pos (Or.inr hempty), hempty]
    simp
  · have hcoarse : DotSegments.keptFrom Path.marks 0 (last :: before) =
        last :: DotSegments.keptFrom Path.marks 0 before :=
      DotSegments.keptFrom_name (by simp [Path.marks, hempty, hone]) htwo before
    rw [hcoarse, ended, if_neg (by simp [hempty])]
    simp

theorem removeDotSegments_of_not_mem (hdot : dot ∉ q) :
    removeDotSegments (slash :: q) = slash :: q := by
  obtain ⟨last, before, h⟩ : ∃ last before, (segments slash q).reverse = last :: before :=
    List.exists_cons_of_ne_nil (by simpa using segments_ne_nil slash q)
  have hplain : ∀ s ∈ segments slash q, s ≠ [dot] ∧ s ≠ [dot, dot] :=
    fun s hs => not_dots_of_not_mem hdot hs
  have hnames :
      reduce keepingMarks true [] (segments slash q) = (segments slash q).reverse ++ [] := by
    apply DotSegments.reduce_names
    · exact fun s hs => by simpa [keepingMarks] using (hplain s hs).1
    · exact fun hup => (hplain _ hup).2 rfl
  have hlast := hplain last (List.mem_reverse.mp (h ▸ List.mem_cons_self))
  rw [removeDotSegments_eq h, hnames, closed, if_neg (by simp [hlast]), List.append_nil,
    List.reverse_reverse, slashed_segments]

/-- For every absolute path, exactly when `normalizeDots` does what the generic syntax says. -/
theorem normalizeDots_conforms_iff (q : Text) :
    normalizeDots (slash :: q) = removeDotSegments (slash :: q) ↔ dot ∉ q ∨ DotsAgree q := by
  by_cases hdot : dot ∈ q
  · rw [normalizeDots_of_dot hdot]
    simp [hdot]
  · rw [removeDotSegments_of_not_mem hdot, normalizeDots,
      if_pos (by simpa [hdot] using (by decide : dot ≠ slash))]
    simp [hdot]

/-- A last `'.'` leaves no slash, and the empty segment beside a dot is lost: `/a/.` is made
`/a` instead of `/a/`, and `/a//b.c` is made `/a/b.c`. -/
theorem normalizeDots_diverges :
    normalizeDots (units "/a/.") = units "/a" ∧ removeDotSegments (units "/a/.") = units "/a/" ∧
      normalizeDots (units "/a//b.c") = units "/a/b.c" ∧
      removeDotSegments (units "/a//b.c") = units "/a//b.c" := by
  refine ⟨by decide, ?_, by decide, ?_⟩
  · exact (removeDotSegments_eq (q := units "a/.") rfl).trans (by decide)
  · exact (removeDotSegments_eq (q := units "a//b.c") rfl).trans (by decide)

end Url
