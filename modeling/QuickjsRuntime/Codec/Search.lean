import Mathlib.Order.Bounds.Basic
import QuickjsRuntime.Codec.Buffer
import QuickjsRuntime.Codec.Copy

/-!
# `indexOf`, `lastIndexOf` and `includes`

The searches of `node_compat_buffer.dart`: `findSequence` goes up from an offset, `lastIndexOf`
goes down from one, and both compare byte after byte until one differs. Each search returns its
result together with the positions of the buffer that it has read.
-/

namespace Codec

open Utf16 (Text)

/-! ## Model -/

/-- What is searched for. -/
inductive Needle where
  | number (n : Int)
  | buffer (bytes : List UInt8)
  | string (str : Text) (enc : Encoding)

def valueToBytes (hooks : Hooks) : Needle → List Nat
  | .number n => [(n % 256).toNat]
  | .buffer bytes => bytes.map UInt8.toNat
  | .string str enc => bytesFromString hooks str enc

/-- The inner loop at position `i`: whether no byte differs, and the positions it has read. -/
def agreeLoop (hay : List UInt8) (i : Nat) : List Nat → Bool × List Nat
  | [] => (true, [])
  | b :: needle =>
    if (hay[i]?).map UInt8.toNat ≠ some b then (false, [i])
    else
      let r := agreeLoop hay (i + 1) needle
      (r.1, i :: r.2)

/-- The outer loop of `findSequence` from position `i` on. -/
def findLoop (hay : List UInt8) (needle : List Nat) (i : Nat) : Int × List Nat :=
  if i + needle.length ≤ hay.length then
    let r := agreeLoop hay i needle
    if r.1 then (i, r.2)
    else
      let rest := findLoop hay needle (i + 1)
      (rest.1, r.2 ++ rest.2)
  else (-1, [])
termination_by hay.length + 1 - i

def findSequence (hay : List UInt8) (needle : List Nat) (start : Int) : Int × List Nat :=
  if needle.length = 0 then (if start ≤ hay.length then start else -1, [])
  else findLoop hay needle (max 0 start).toNat

def indexOf (hooks : Hooks) (hay : List UInt8) (value : Needle) (byteOffset : Option Int) :
    Int × List Nat :=
  let off := (byteOffset.map toInt32).getD 0
  let off := if off < 0 then 0 else off
  findSequence hay (valueToBytes hooks value) off

/-- The loop of `lastIndexOf` from position `i - 1` down. -/
def lastLoop (hay : List UInt8) (needle : List Nat) : Nat → Int × List Nat
  | 0 => (-1, [])
  | i + 1 =>
    let r := agreeLoop hay i needle
    if r.1 then (i, r.2)
    else
      let rest := lastLoop hay needle i
      (rest.1, r.2 ++ rest.2)

def lastIndexOf (hooks : Hooks) (hay : List UInt8) (value : Needle) (byteOffset : Option Int) :
    Int × List Nat :=
  let needle := valueToBytes hooks value
  let start := (byteOffset.map toInt32).getD hay.length
  let last : Int := hay.length - needle.length
  let start := if start > last then last else start
  lastLoop hay needle (start + 1).toNat

def includes (hooks : Hooks) (hay : List UInt8) (value : Needle) (byteOffset : Option Int) :
    Bool :=
  (indexOf hooks hay value byteOffset).1 ≠ -1

/-! ## Occurrences -/

/-- The needle stands at position `i`. -/
def OccursAt (hay : List UInt8) (needle : List Nat) (i : Nat) : Prop :=
  i + needle.length ≤ hay.length ∧ ((hay.drop i).take needle.length).map UInt8.toNat = needle

section Occurrences

variable {hay : List UInt8} {needle : List Nat}

theorem agreeLoop_iff {i : Nat} (hi : i + needle.length ≤ hay.length) :
    (agreeLoop hay i needle).1 = true ↔ OccursAt hay needle i := by
  have hslice : (agreeLoop hay i needle).1 = true ↔
      ((hay.drop i).take needle.length).map UInt8.toNat = needle := by
    induction needle generalizing i with
    | nil => simp [agreeLoop]
    | cons b needle ih =>
      rw [List.length_cons] at hi
      have hlt : i < hay.length := by omega
      have hget : hay[i]? = some hay[i] := List.getElem?_eq_getElem hlt
      rw [agreeLoop, List.drop_eq_getElem_cons hlt, List.length_cons, List.take_succ_cons,
        List.map_cons, List.cons.injEq, hget, Option.map_some]
      by_cases hb : hay[i].toNat = b
      · simpa [hb] using ih (by omega)
      · simp [hb]
  rw [hslice, OccursAt]
  exact (and_iff_right hi).symm

theorem agreeLoop_reads (needle : List Nat) (i : Nat) :
    ∀ p ∈ (agreeLoop hay i needle).2, p < i + needle.length := by
  induction needle generalizing i with
  | nil => simp [agreeLoop]
  | cons b needle ih =>
    rw [agreeLoop, List.length_cons]
    split
    · simp
    · rw [List.forall_mem_cons]
      refine ⟨by omega, ?_⟩
      intro p hp
      have hlt := ih (i + 1) p hp
      omega

/-- What a search among `candidates` returns: the extreme one, or -1 if there is none. -/
def Found (extreme : Set Nat → Nat → Prop) (candidates : Set Nat) (result : Int) : Prop :=
  (∃ i : Nat, result = i ∧ extreme candidates i) ∨ (result = -1 ∧ ∀ i, i ∉ candidates)

/-- What a search for the first occurrence from `k` on returns. -/
def FindsFirst (hay : List UInt8) (needle : List Nat) (k : Nat) : Int → Prop :=
  Found IsLeast {i | k ≤ i ∧ OccursAt hay needle i}

/-- What a search for the last occurrence up to `k` returns. -/
def FindsLast (hay : List UInt8) (needle : List Nat) (k : Nat) : Int → Prop :=
  Found IsGreatest {i | i ≤ k ∧ OccursAt hay needle i}

section Found

variable {extreme : Set Nat → Nat → Prop} {candidates others : Set Nat} {k : Nat} {result : Int}

theorem Found.congr (h : Found extreme candidates result)
    (hsame : ∀ i, i ∈ others ↔ i ∈ candidates) : Found extreme others result := by
  rw [Set.ext hsame]
  exact h

theorem Found.eq_neg_one_iff (h : Found extreme candidates result)
    (hextreme : ∀ i, extreme candidates i → i ∈ candidates) :
    result = -1 ↔ ∀ i, i ∉ candidates := by
  rcases h with ⟨i, rfl, hi⟩ | ⟨rfl, hnone⟩
  · refine iff_of_false (by omega) ?_
    intro hnone
    exact hnone i (hextreme i hi)
  · exact iff_of_true rfl hnone

theorem FindsFirst.eq_neg_one_iff (h : FindsFirst hay needle k result) :
    result = -1 ↔ ∀ i, k ≤ i → ¬ OccursAt hay needle i := by
  rw [Found.eq_neg_one_iff h fun i hi => hi.1]
  simp only [Set.mem_ofPred_eq, not_and]

theorem FindsLast.eq_neg_one_iff (h : FindsLast hay needle k result) :
    result = -1 ↔ ∀ i, i ≤ k → ¬ OccursAt hay needle i := by
  rw [Found.eq_neg_one_iff h fun i hi => hi.1]
  simp only [Set.mem_ofPred_eq, not_and]

end Found

/-! ## The search upwards -/

theorem findLoop_finds (i : Nat) : FindsFirst hay needle i (findLoop hay needle i).1 := by
  fun_induction findLoop hay needle i with
  | case1 i hi r hagree =>
    have hoccurs := (agreeLoop_iff hi).mp hagree
    exact .inl ⟨i, rfl, ⟨Nat.le_refl i, hoccurs⟩, fun j hj => hj.1⟩
  | case2 i hi r hagree rest ih =>
    -- the next position is searched in place of this one, where the needle does not stand
    have hhere : ¬ OccursAt hay needle i := fun h => hagree ((agreeLoop_iff hi).mpr h)
    apply ih.congr
    intro j
    constructor
    · rintro ⟨hle, hoccurs⟩
      refine ⟨Nat.lt_of_le_of_ne hle ?_, hoccurs⟩
      rintro rfl
      exact hhere hoccurs
    · rintro ⟨hle, hoccurs⟩
      exact ⟨Nat.le_of_succ_le hle, hoccurs⟩
  | case3 i hi =>
    refine .inr ⟨rfl, ?_⟩
    rintro j ⟨hle, hoccurs⟩
    have hfits := hoccurs.1
    omega

theorem findLoop_reads (i : Nat) : ∀ p ∈ (findLoop hay needle i).2, p < hay.length := by
  fun_induction findLoop hay needle i with
  | case1 i hi r hagree =>
    intro p hp
    have hlt := agreeLoop_reads needle i p hp
    omega
  | case2 i hi r hagree rest ih =>
    intro p hp
    rcases List.mem_append.mp hp with hhere | hlater
    · have hlt := agreeLoop_reads needle i p hhere
      omega
    · exact ih p hlater
  | case3 i hi => simp

/-- An empty needle stands at every position up to the length. -/
theorem occursAt_nil {i : Nat} : OccursAt hay [] i ↔ i ≤ hay.length := by
  simp [OccursAt]

theorem findSequence_finds (hay : List UInt8) (needle : List Nat) (k : Nat) :
    FindsFirst hay needle k (findSequence hay needle k).1 ∧
      ∀ p ∈ (findSequence hay needle k).2, p < hay.length := by
  cases needle with
  | nil =>
    rw [findSequence, if_pos List.length_nil]
    refine ⟨?_, by simp⟩
    by_cases hk : k ≤ hay.length
    · rw [if_pos (Int.ofNat_le.mpr hk)]
      exact .inl ⟨k, rfl, ⟨Nat.le_refl k, occursAt_nil.mpr hk⟩, fun j hj => hj.1⟩
    · rw [if_neg (fun h => hk (Int.ofNat_le.mp h))]
      refine .inr ⟨rfl, ?_⟩
      rintro i ⟨hle, hoccurs⟩
      have hfits := occursAt_nil.mp hoccurs
      omega
  | cons b needle =>
    have hstart : (max 0 (k : Int)).toNat = k := by omega
    rw [findSequence, if_neg (by simp), hstart]
    exact ⟨findLoop_finds k, findLoop_reads k⟩

/-! ## The search downwards -/

theorem lastLoop_finds {n : Nat} (hn : ∀ i < n, i + needle.length ≤ hay.length) :
    Found IsGreatest {i | i < n ∧ OccursAt hay needle i} (lastLoop hay needle n).1 := by
  induction n with
  | zero => exact .inr ⟨rfl, by simp⟩
  | succ n ih =>
    have hfits := hn n (Nat.lt_succ_self n)
    rw [lastLoop]
    by_cases hagree : (agreeLoop hay n needle).1 = true
    · rw [if_pos hagree]
      have hoccurs := (agreeLoop_iff hfits).mp hagree
      exact .inl ⟨n, rfl, ⟨Nat.lt_succ_self n, hoccurs⟩, fun j hj => Nat.le_of_lt_succ hj.1⟩
    · rw [if_neg hagree]
      have hhere : ¬ OccursAt hay needle n := fun h => hagree ((agreeLoop_iff hfits).mpr h)
      have hbelow := ih fun i hi => hn i (Nat.lt_succ_of_lt hi)
      apply hbelow.congr
      intro j
      constructor
      · rintro ⟨hlt, hoccurs⟩
        refine ⟨Nat.lt_of_le_of_ne (Nat.le_of_lt_succ hlt) ?_, hoccurs⟩
        rintro rfl
        exact hhere hoccurs
      · rintro ⟨hlt, hoccurs⟩
        exact ⟨Nat.lt_succ_of_lt hlt, hoccurs⟩

theorem lastLoop_reads {n : Nat} (hn : ∀ i < n, i + needle.length ≤ hay.length) :
    ∀ p ∈ (lastLoop hay needle n).2, p < hay.length := by
  induction n with
  | zero => simp [lastLoop]
  | succ n ih =>
    have hfits := hn n (Nat.lt_succ_self n)
    have hhere : ∀ p ∈ (agreeLoop hay n needle).2, p < hay.length := by
      intro p hp
      have hlt := agreeLoop_reads needle n p hp
      omega
    rw [lastLoop]
    split
    · exact hhere
    · intro p hp
      rcases List.mem_append.mp hp with hfirst | hlater
      · exact hhere p hfirst
      · exact ih (fun i hi => hn i (by omega)) p hlater

/-- The positions that are searched are those up to the offset at which the needle fits. -/
theorem lastLoop_clamped (hay : List UInt8) (needle : List Nat) (k : Nat) :
    let last : Int := hay.length - needle.length
    let start : Int := if k > last then last else k
    FindsLast hay needle k (lastLoop hay needle (start + 1).toNat).1 ∧
      ∀ p ∈ (lastLoop hay needle (start + 1).toNat).2, p < hay.length := by
  intro last start
  have hrounds (i : Nat) :
      i < (start + 1).toNat ↔ i ≤ k ∧ i + needle.length ≤ hay.length := by
    simp only [start, last]
    split <;> omega
  have hfits : ∀ i < (start + 1).toNat, i + needle.length ≤ hay.length :=
    fun i hi => ((hrounds i).mp hi).2
  refine ⟨(lastLoop_finds hfits).congr ?_, lastLoop_reads hfits⟩
  intro i
  constructor
  · rintro ⟨hle, hoccurs⟩
    exact ⟨(hrounds i).mpr ⟨hle, hoccurs.1⟩, hoccurs⟩
  · rintro ⟨hlt, hoccurs⟩
    exact ⟨((hrounds i).mp hlt).1, hoccurs⟩

end Occurrences

/-! ## The methods -/

section Methods

variable (hooks : Hooks) (hay : List UInt8) (value : Needle)

theorem indexOf_finds {k : Nat} (hk : k < 2 ^ 31) :
    FindsFirst hay (valueToBytes hooks value) k (indexOf hooks hay value (some k)).1 ∧
      ∀ p ∈ (indexOf hooks hay value (some k)).2, p < hay.length := by
  have hoffset : toInt32 k = k := toInt32_natCast (by unfold maxByteLength; omega)
  rw [indexOf, Option.map_some, Option.getD_some, hoffset, if_neg (by omega)]
  exact findSequence_finds hay _ k

theorem lastIndexOf_finds {k : Nat} (hk : k < 2 ^ 31) :
    FindsLast hay (valueToBytes hooks value) k (lastIndexOf hooks hay value (some k)).1 ∧
      ∀ p ∈ (lastIndexOf hooks hay value (some k)).2, p < hay.length := by
  have hoffset : toInt32 k = k := toInt32_natCast (by unfold maxByteLength; omega)
  rw [lastIndexOf, Option.map_some, Option.getD_some, hoffset]
  exact lastLoop_clamped hay _ k

theorem indexOf_default_iff :
    (indexOf hooks hay value none).1 = -1 ↔ ∀ i, ¬ OccursAt hay (valueToBytes hooks value) i := by
  have hfinds := (findSequence_finds hay (valueToBytes hooks value) 0).1
  rw [indexOf, Option.map_none, Option.getD_none, if_neg (by decide)]
  simpa using hfinds.eq_neg_one_iff

theorem lastIndexOf_default_iff :
    (lastIndexOf hooks hay value none).1 = -1 ↔
      ∀ i, ¬ OccursAt hay (valueToBytes hooks value) i := by
  have hfinds := (lastLoop_clamped hay (valueToBytes hooks value) hay.length).1
  rw [lastIndexOf, Option.map_none, Option.getD_none, hfinds.eq_neg_one_iff]
  constructor
  · intro hnone i hoccurs
    exact hnone i (by have hfits := hoccurs.1; omega) hoccurs
  · intro hnone i _
    exact hnone i

/-- The searches return the first and the last occurrence within their offsets, read nothing
outside the buffer, and without offsets agree on whether there is an occurrence. -/
theorem search_extreme {k : Nat} (hk : k < 2 ^ 31) :
    FindsFirst hay (valueToBytes hooks value) k (indexOf hooks hay value (some k)).1 ∧
      FindsLast hay (valueToBytes hooks value) k (lastIndexOf hooks hay value (some k)).1 ∧
      (∀ p ∈ (indexOf hooks hay value (some k)).2, p < hay.length) ∧
      (∀ p ∈ (lastIndexOf hooks hay value (some k)).2, p < hay.length) ∧
      ((indexOf hooks hay value none).1 = -1 ↔ (lastIndexOf hooks hay value none).1 = -1) ∧
      ((indexOf hooks hay value none).1 = -1 ↔ includes hooks hay value none = false) := by
  obtain ⟨hfirst, hup⟩ := indexOf_finds hooks hay value hk
  obtain ⟨hlast, hdown⟩ := lastIndexOf_finds hooks hay value hk
  refine ⟨hfirst, hlast, hup, hdown, ?_, by simp [includes]⟩
  rw [indexOf_default_iff, lastIndexOf_default_iff]

end Methods

/-- `Buffer.from('aaa')` searched for `'aa'` from position 1 -/
theorem search_extreme_overlapping :
    FindsFirst [0x61, 0x61, 0x61] [0x61, 0x61] 1
      (indexOf ⟨id, fun _ => []⟩ [0x61, 0x61, 0x61] (.buffer [0x61, 0x61]) (some (1 : Nat))).1 ∧
    FindsLast [0x61, 0x61, 0x61] [0x61, 0x61] 1
      (lastIndexOf ⟨id, fun _ => []⟩ [0x61, 0x61, 0x61] (.buffer [0x61, 0x61])
        (some (1 : Nat))).1 := by
  obtain ⟨hfirst, hlast, -⟩ := search_extreme ⟨id, fun _ => []⟩ [0x61, 0x61, 0x61]
    (.buffer [0x61, 0x61]) (by decide : 1 < 2 ^ 31)
  exact ⟨hfirst, hlast⟩

end Codec
