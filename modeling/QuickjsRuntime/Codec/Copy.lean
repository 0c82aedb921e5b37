import Mathlib.Algebra.Group.Int.Defs
import Mathlib.Algebra.Group.Nat.Defs
import QuickjsRuntime.Foundation.Copying

/-!
# Buffers as views, and `copy`

A `Buffer` is a view of an array buffer, and `subarray` and `slice` make further views of the same
bytes. `copy` of `node_compat_buffer.dart` stores byte after byte from the first to the last, so
that it overwrites bytes that it has still to read where the target begins within the source.
-/

namespace Codec

/-! ## Views -/

/-- The engine refuses array buffers of more bytes. -/
def maxByteLength : Nat := 2 ^ 31 - 1

/-- Bytes by their array buffer and their position in it. -/
abbrev Memory := Nat × Nat → UInt8

/-- A `Buffer`: a part of an array buffer. -/
structure View where
  buffer : Nat
  byteOffset : Nat
  length : Nat
  fits : byteOffset + length ≤ maxByteLength

/-- Four bytes at the front of an array buffer. -/
def fourBytes : View := ⟨0, 0, 4, by decide⟩

namespace View

def address (v : View) (i : Nat) : Nat × Nat :=
  (v.buffer, v.byteOffset + i)

/-- `v[i]`; what is read outside is `undefined`, which is stored as 0. -/
def get (v : View) (m : Memory) (i : Int) : UInt8 :=
  if 0 ≤ i ∧ i < v.length then m (v.address i.toNat) else 0

/-- `v[i] = b`, which does nothing outside. -/
def set (v : View) (m : Memory) (i : Int) (b : UInt8) : Memory :=
  if 0 ≤ i ∧ i < v.length then Function.update m (v.address i.toNat) b else m

/-- A position that is counted from the end when it is negative, within the view. -/
def clampIndex (v : View) (i : Int) : Nat :=
  if i < 0 then (i + v.length).toNat else min i.toNat v.length

theorem clampIndex_le (v : View) (i : Int) : v.clampIndex i ≤ v.length := by
  unfold clampIndex
  split <;> omega

theorem clampIndex_getD_le (v : View) (stop : Option Int) :
    (stop.map v.clampIndex).getD v.length ≤ v.length := by
  cases stop with
  | none => exact Nat.le_refl _
  | some i => exact v.clampIndex_le i

/-- `subarray`, which is `slice` as well. -/
def subarray (v : View) (start : Int) (stop : Option Int) : View where
  buffer := v.buffer
  byteOffset := v.byteOffset + v.clampIndex start
  length := (stop.map v.clampIndex).getD v.length - v.clampIndex start
  fits := by
    have hfits := v.fits
    have hstart := v.clampIndex_le start
    have hstop := v.clampIndex_getD_le stop
    omega

theorem address_injective (v : View) : Function.Injective v.address := by
  intro i j h
  simpa [address] using h

theorem get_natCast (v : View) (m : Memory) {i : Nat} (hi : i < v.length) :
    v.get m i = m (v.address i) := by
  rw [get, if_pos ⟨Int.natCast_nonneg i, Int.ofNat_lt.mpr hi⟩, Int.toNat_natCast]

theorem set_natCast (v : View) (m : Memory) {i : Nat} (hi : i < v.length) (b : UInt8) :
    v.set m i b = Function.update m (v.address i) b := by
  rw [set, if_pos ⟨Int.natCast_nonneg i, Int.ofNat_lt.mpr hi⟩, Int.toNat_natCast]

end View

/-! ## Ranges -/

/-- `n | 0` -/
def toInt32 (n : Int) : Int :=
  n.bmod (2 ^ 32)

theorem toInt32_natCast {n : Nat} (hn : n ≤ maxByteLength) : toInt32 n = n := by
  unfold maxByteLength at hn
  apply Int.bmod_eq_of_le <;> omega

def resolveRange (start stop : Option Int) (len : Nat) : Int × Int :=
  let s := (start.map toInt32).getD 0
  let e := (stop.map toInt32).getD len
  let s := if s < 0 then 0 else s
  let e := if e > len then (len : Int) else e
  let e := if s > e then s else e
  (s, e)

/-! ## `copy` -/

/-- The rounds of `copy` before round `n`. -/
def copyRounds (source target : View) (ts s : Int) (m : Memory) : Nat → Memory
  | 0 => m
  | n + 1 =>
    let m := copyRounds source target ts s m n
    target.set m (ts + n) (source.get m (s + n))

def copy (source target : View) (targetStart sourceStart sourceEnd : Option Int) (m : Memory) :
    Int × Memory :=
  let ts := (targetStart.map toInt32).getD 0
  let r := resolveRange sourceStart sourceEnd source.length
  let count := min (r.2 - r.1) (max 0 (target.length - ts))
  (count, copyRounds source target ts r.1 m count.toNat)

/-- A call of `copy` with arguments within the two views. -/
structure CopyCall where
  source : View
  target : View
  targetStart : Option Nat
  sourceStart : Option Nat
  sourceEnd : Option Nat
  target_le : targetStart.getD 0 ≤ target.length
  source_le : sourceStart.getD 0 ≤ sourceEnd.getD source.length
  end_le : sourceEnd.getD source.length ≤ source.length

namespace CopyCall

variable (c : CopyCall) (m : Memory)

def run : Int × Memory :=
  copy c.source c.target (c.targetStart.map Nat.cast) (c.sourceStart.map Nat.cast)
    (c.sourceEnd.map Nat.cast) m

/-- How many bytes are copied. -/
def count : Nat :=
  min (c.sourceEnd.getD c.source.length - c.sourceStart.getD 0)
    (c.target.length - c.targetStart.getD 0)

/-- The address of byte `i` of what is copied. -/
def sourceAddress (i : Nat) : Nat × Nat :=
  c.source.address (c.sourceStart.getD 0 + i)

/-- The address that byte `i` is copied to. -/
def targetAddress (i : Nat) : Nat × Nat :=
  c.target.address (c.targetStart.getD 0 + i)

/-- The number of bytes is returned, each is where it should be, and all others are unchanged. -/
structure Moves : Prop where
  returned : (c.run m).1 = c.count
  moved : ∀ i < c.count, (c.run m).2 (c.targetAddress i) = m (c.sourceAddress i)
  kept : ∀ a, (∀ i < c.count, c.targetAddress i ≠ a) → (c.run m).2 a = m a

/-- Where the target begins some distance behind the beginning of the source, in the same array
buffer, the bytes of the source repeat at that distance. -/
def Repeats : Prop :=
  ∀ distance, 0 < distance → c.targetAddress 0 = c.sourceAddress distance →
    ∀ i, distance ≤ i → i < c.count → m (c.sourceAddress (i - distance)) = m (c.sourceAddress i)

/-! ## The rounds -/

theorem targetAddress_injective : Function.Injective c.targetAddress := by
  intro i j h
  exact Nat.add_left_cancel (c.target.address_injective h)

theorem toInt32_getD {arg : Option Nat} {default limit : Nat} (hle : arg.getD default ≤ limit)
    (hlimit : limit ≤ maxByteLength) :
    ((arg.map Nat.cast).map toInt32).getD default = ((arg.getD default : Nat) : Int) := by
  cases arg with
  | none => rfl
  | some n =>
    rw [Option.map_some, Option.map_some, Option.getD_some, Option.getD_some]
    exact toInt32_natCast (Nat.le_trans hle hlimit)

theorem resolveRange_eq :
    resolveRange (c.sourceStart.map Nat.cast) (c.sourceEnd.map Nat.cast) c.source.length =
      (((c.sourceStart.getD 0 : Nat) : Int), ((c.sourceEnd.getD c.source.length : Nat) : Int)) := by
  have hlength : c.source.length ≤ maxByteLength := by
    have hfits := c.source.fits
    omega
  have hsource := c.source_le
  have hend := c.end_le
  have hs := toInt32_getD (Nat.le_trans hsource hend) hlength
  have he := toInt32_getD hend hlength
  rw [Int.natCast_zero] at hs
  simp only [resolveRange, hs, he]
  rw [if_neg (by omega), if_neg (by omega), if_neg (by omega)]

theorem copyRounds_eq {n : Nat} (hn : n ≤ c.count) :
    copyRounds c.source c.target (c.targetStart.getD 0 : Nat) (c.sourceStart.getD 0 : Nat) m n =
      Copying.copyLoop c.targetAddress c.sourceAddress m n := by
  have hend := c.end_le
  induction n with
  | zero => rfl
  | succ n ih =>
    unfold count at hn
    have hs : c.sourceStart.getD 0 + n < c.source.length := by omega
    have ht : c.targetStart.getD 0 + n < c.target.length := by omega
    simp only [copyRounds, ih (Nat.le_of_succ_le hn), ← Int.natCast_add,
      c.source.get_natCast _ hs, c.target.set_natCast _ ht]
    rfl

theorem run_eq :
    c.run m = ((c.count : Int), Copying.copyLoop c.targetAddress c.sourceAddress m c.count) := by
  have hlength : c.target.length ≤ maxByteLength := by
    have hfits := c.target.fits
    omega
  have htarget := c.target_le
  have hsource := c.source_le
  have hts := toInt32_getD htarget hlength
  rw [Int.natCast_zero] at hts
  have hcount :
      min (((c.sourceEnd.getD c.source.length : Nat) : Int) - (c.sourceStart.getD 0 : Nat))
      (max 0 ((c.target.length : Int) - (c.targetStart.getD 0 : Nat))) = c.count := by
    unfold count
    omega
  simp only [run, copy, hts, c.resolveRange_eq, hcount, Int.toNat_natCast,
    c.copyRounds_eq m (Nat.le_refl _)]

/-! ## Overlapping ranges -/

/-- A byte is overwritten before it is read exactly if the ranges overlap that way. -/
theorem undisturbed_iff :
    Copying.Undisturbed c.targetAddress c.sourceAddress m c.count ↔ c.Repeats m := by
  simp only [Copying.Undisturbed, Repeats, targetAddress, sourceAddress, View.address,
    Prod.mk.injEq]
  constructor
  · rintro h distance hpos ⟨hsame, hstart⟩ i hle hi
    exact h i hi (i - distance) (by omega) ⟨hsame, by omega⟩
  · rintro h i hi j hj ⟨hsame, hcell⟩
    have hrepeat := h (i - j) (by omega) ⟨hsame, by omega⟩ i (by omega) hi
    rwa [show i - (i - j) = j by omega] at hrepeat

/-- `copy` moves the bytes exactly if no byte is overwritten by another one before it is read. -/
theorem copy_moves_iff : c.Moves m ↔ c.Repeats m := by
  have hrun := c.run_eq m
  have hmoved : (∀ i < c.count, Copying.copyLoop c.targetAddress c.sourceAddress m c.count
        (c.targetAddress i) = m (c.sourceAddress i)) ↔
      Copying.Undisturbed c.targetAddress c.sourceAddress m c.count :=
    Copying.copyLoop_eq_iff c.targetAddress_injective
  rw [← c.undisturbed_iff m, ← hmoved]
  constructor
  · intro hmoves
    have hvalues := hmoves.moved
    rwa [hrun] at hvalues
  · intro hvalues
    constructor
    case returned => rw [hrun]
    case moved => rwa [hrun]
    case kept =>
      intro a ha
      rw [hrun]
      exact Copying.storeLoop_frame ha

end CopyCall

/-- `buf.copy(buf, 1)` for a buffer of three bytes: the first one is copied to both others. -/
def overlappingCall : CopyCall where
  source := ⟨0, 0, 3, by decide⟩
  target := ⟨0, 0, 3, by decide⟩
  targetStart := some 1
  sourceStart := none
  sourceEnd := none
  target_le := by decide
  source_le := by decide
  end_le := by decide

/-- The bytes 1, 2 and 3 in every array buffer. -/
def threeBytes : Memory := fun a => [1, 2, 3].getD a.2 0

theorem copy_overlap_smears :
    (overlappingCall.run threeBytes).1 = 2 ∧ (overlappingCall.run threeBytes).2 (0, 2) = 1 ∧
      threeBytes (0, 1) = 2 ∧ ¬ overlappingCall.Moves threeBytes := by
  have hlast : (overlappingCall.run threeBytes).2 (0, 2) = 1 := by decide
  refine ⟨by decide, hlast, rfl, ?_⟩
  intro hmoves
  have hmoved := hmoves.moved 1 (by decide)
  exact absurd (hlast.symm.trans hmoved) (by decide)

end Codec
