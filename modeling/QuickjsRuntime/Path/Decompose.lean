import QuickjsRuntime.Path.Posix

/-!
# Taking a path apart

`basename`, `dirname` and `extname` of the `path` object in `node_compat.dart`. The first two cut
at the last slash, the third at the last full stop of what follows it. An extension that is not
given is the empty text, which the source passes over in the same way.
-/

namespace Path

open Utf16 (Text units)
open Split (splitLast segments segments_append_sep segments_cons_sep segments_of_not_mem)
open Url (slash dot)
open DotSegments (reduce)

/-! ## Model -/

def basename (p ext : Text) : Text :=
  let b := (segments slash p).getLast?.getD []
  if ext ≠ [] ∧ b.drop (b.length - ext.length) = ext ∧ b ≠ ext then
    b.take (b.length - ext.length)
  else b

def dirname (p : Text) : Text :=
  match splitLast slash p with
  | none => [dot]
  | some (front, _) => if front = [] then [slash] else front

def extname (p : Text) : Text :=
  match splitLast dot (basename p []) with
  | none => []
  | some (front, rest) => if front = [] then [] else dot :: rest

variable {p d b : Text}

/-! ## Where the cuts are -/

theorem basename_plain (p : Text) : basename p [] = (segments slash p).getLast?.getD [] := by
  rw [basename, if_neg (by simp)]

theorem basename_of_not_mem (hp : slash ∉ p) : basename p [] = p := by
  rw [basename_plain, segments_of_not_mem hp]
  rfl

theorem basename_append (hb : slash ∉ b) : basename (d ++ slash :: b) [] = b := by
  rw [basename_plain, segments_append_sep, segments_of_not_mem hb, List.getLast?_concat]
  rfl

theorem dirname_of_not_mem (hp : slash ∉ p) : dirname p = [dot] := by
  rw [dirname, Split.splitLast_eq_none_iff.mpr hp]

theorem dirname_append (hb : slash ∉ b) :
    dirname (d ++ slash :: b) = if d = [] then [slash] else d := by
  rw [dirname, Split.splitLast_append hb]

/-- A suffix that is cut off and put back. -/
theorem basename_append_ext {front ext : Text} (hp : basename p [] = front ++ ext)
    (hfront : front ≠ []) (hext : ext ≠ []) : basename p ext = front := by
  rw [basename_plain] at hp
  have hlength : (front ++ ext).length - ext.length = front.length := by simp
  rw [basename, hp, hlength, List.drop_left, List.take_left, if_pos ⟨hext, rfl, by simp [hfront]⟩]

/-- The extension is what the base name has from its last full stop on, unless that is in front,
as with a hidden file. -/
theorem extname_eq_iff (p ext : Text) :
    extname p = ext ↔
      (ext = [] ∧ ∀ front rest, basename p [] = front ++ dot :: rest ∧ dot ∉ rest → front = []) ∨
      ∃ front rest, (basename p [] = front ++ dot :: rest ∧ dot ∉ rest) ∧ front ≠ [] ∧
        ext = dot :: rest := by
  have hcut (front rest : Text) : basename p [] = front ++ dot :: rest ∧ dot ∉ rest ↔
      splitLast dot (basename p []) = some (front, rest) := Split.splitLast_eq_some_iff.symm
  simp only [hcut, extname]
  cases splitLast dot (basename p []) with
  | none => simp [eq_comm]
  | some q =>
    obtain ⟨front, rest⟩ := q
    by_cases hfront : front = []
    · subst hfront
      simp [eq_comm]
    · simp [hfront, eq_comm]

/-! ## Putting a path together again -/

/-- Segments that say nothing do not change the result. -/
theorem normalize_skip {a b : Text} (habs : isAbsolute a = isAbsolute b)
    (hreduce : ∀ abs,
      reduce marks abs [] (segments slash a) = reduce marks abs [] (segments slash b)) :
    normalize a = normalize b := by
  rw [normalize, normalize, habs, hreduce]

theorem reduce_skip {s : Text} (hs : marks.skips s = true) (abs : Bool) (stack ps : List Text) :
    reduce marks abs stack (s :: ps) = reduce marks abs stack ps := by
  rw [reduce, List.foldl_cons, DotSegments.push_skip hs]
  rfl

theorem normalize_dot_slash (hp : isAbsolute p = false) :
    normalize (dot :: slash :: p) = normalize p := by
  refine normalize_skip hp.symm fun abs => ?_
  have hsegs : segments slash ([dot] ++ slash :: p) = [dot] :: segments slash p :=
    segments_append_sep _ _
  rw [List.singleton_append] at hsegs
  rw [hsegs, reduce_skip rfl]

theorem normalize_slash_slash (p : Text) :
    normalize (slash :: slash :: p) = normalize (slash :: p) := by
  refine normalize_skip rfl fun abs => ?_
  rw [segments_cons_sep, reduce_skip rfl]

theorem normalize_append_slash (hd : d ≠ []) : normalize (d ++ [slash]) = normalize d := by
  refine normalize_skip (isAbsolute_append hd) fun abs => ?_
  rw [segments_append_sep, DotSegments.reduce_append]
  exact reduce_skip rfl abs _ []

theorem join_pair (hd : d ≠ []) :
    join [d, b] = if b = [] then normalize d else normalize (d ++ slash :: b) := by
  by_cases hb : b = [] <;> simp [join, hd, hb, Split.join]

theorem join_dirname_basename (p : Text) : join [dirname p, basename p []] = normalize p := by
  by_cases hp : slash ∈ p
  · obtain ⟨d, b, rfl, hb, -⟩ := Split.segments_last hp
    rw [dirname_append hb, basename_append hb]
    by_cases hd : d = []
    · rw [if_pos hd, join_pair (by simp), hd, List.nil_append]
      split
      next hempty => rw [hempty]
      next => exact normalize_slash_slash b
    · rw [if_neg hd, join_pair hd]
      split
      next hempty => rw [hempty, normalize_append_slash hd]
      next => rfl
  · rw [dirname_of_not_mem hp, basename_of_not_mem hp, join_pair (by simp)]
    split
    next hempty =>
      rw [hempty]
      rfl
    next =>
      apply normalize_dot_slash
      rw [isAbsolute, decide_eq_false_iff_not]
      exact fun hhead => hp (List.mem_of_mem_head? hhead)

theorem basename_append_extname (p : Text) :
    basename p (extname p) ++ extname p = basename p [] := by
  rcases (extname_eq_iff p _).mp rfl with ⟨hnone, -⟩ | ⟨front, rest, ⟨hbase, -⟩, hfront, hext⟩
  · rw [hnone, List.append_nil]
  · rw [hext, basename_append_ext hbase hfront (by simp), hbase]

/-- Directory and base name make up the path again, and stem and extension the base name. -/
theorem decompose_lossless (p : Text) :
    join [dirname p, basename p []] = normalize p ∧
      basename p (extname p) ++ extname p = basename p [] :=
  ⟨join_dirname_basename p, basename_append_extname p⟩

example : dirname (units "/a//b.tar.gz") = units "/a/" ∧
    basename (units "/a//b.tar.gz") (units ".gz") = units "b.tar" ∧
    extname (units "..hidden/.profile") = [] := by decide

end Path
