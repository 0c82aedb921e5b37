import QuickjsRuntime.Codec.Concat
import QuickjsRuntime.Codec.Search

/-!
# Ranges and sizes beyond 32 bits

`toString`, `fill`, `copy` and `indexOf` of `node_compat_buffer.dart` reduce their positions with
`| 0`, and `alloc`, `allocUnsafe` and `Buffer` reduce a size with `>>> 0`, before anything is
compared with the length. The reduced numbers are clamped to the buffer, so what matters is
whether they select the same positions as the numbers that were given.
-/

namespace Codec

open Utf16 (Text)

/-! ## Model -/

/-- `v.toString(enc, start, stop)` -/
def View.toString (hooks : Hooks) (v : View) (enc : Encoding) (start stop : Option Int)
    (m : Memory) : Text :=
  let r := resolveRange start stop v.length
  stringFromBytes hooks (v.contents m) r.1.toNat r.2.toNat enc

/-- The rounds of `fill` before round `n`. -/
def fillRounds (v : View) (fillBytes : List Nat) (off : Int) (m : Memory) : Nat → Memory
  | 0 => m
  | n + 1 =>
    v.set (fillRounds v fillBytes off m n) (off + n)
      (UInt8.ofNat (fillBytes.getD (n % fillBytes.length) 0))

/-- `v.fill(value, offset, stop)`, which resolves its range as `resolveRange` does. -/
def fill (hooks : Hooks) (v : View) (value : Needle) (offset stop : Option Int) (m : Memory) :
    Memory :=
  let r := resolveRange offset stop v.length
  let fillBytes := valueToBytes hooks value
  if fillBytes.length = 0 then m else fillRounds v fillBytes r.1 m (r.2 - r.1).toNat

def alloc (hooks : Hooks) (size : Int) (value : Option Needle) (h : Heap) : Option (View × Heap) :=
  (makeBuffer (toUint32 size) h).map fun (b, h) =>
    match value with
    | none => (b, h)
    | some value => (b, { h with memory := fill hooks b value (some 0) (some b.length) h.memory })

def allocUnsafe (size : Int) (h : Heap) : Option (View × Heap) :=
  makeBuffer (toUint32 size) h

/-- `Buffer(arg)` of an integer; `none` is a `RangeError`. -/
def bufferOfSize (arg : Int) (h : Heap) : Option (View × Heap) :=
  if arg < 0 then none else makeBuffer (toUint32 arg) h

/-! ## Mathematical ranges -/

def clampStart (len : Nat) (start : Int) : Nat :=
  (min (max start 0) len).toNat

def clampStop (len : Nat) (start stop : Int) : Nat :=
  (max (min (max start 0) len) (min stop len)).toNat

/-- The positions of a buffer from `start` to `stop`. -/
def positions (len : Nat) (start stop : Int) : List Nat :=
  List.range' (clampStart len start) (clampStop len start stop - clampStart len start)

/-- The memory in which the positions from `s` to `e` hold the pattern, from its beginning. -/
def View.patterned (v : View) (fillBytes : List Nat) (s e : Nat) (m : Memory) : Memory := fun a =>
  if a.1 = v.buffer ∧ v.byteOffset + s ≤ a.2 ∧ a.2 < v.byteOffset + e then
    UInt8.ofNat (fillBytes.getD ((a.2 - (v.byteOffset + s)) % fillBytes.length) 0)
  else m a

inductive RangeCall where
  | toString (v : View) (start stop : Int)
  | fill (v : View) (start stop : Int)
  | copy (source target : View) (start stop : Int)
  | indexOf (hay : List UInt8) (value : Needle) (k : Int)
  | alloc (value : Option Needle) (n : Nat)
  | allocUnsafe (n : Nat)
  | buffer (n : Nat)

/-- The call throws, or it returns a view of the given length. -/
def SizedAs (n : Nat) (result : Option (View × Heap)) : Prop :=
  ∀ r ∈ result, r.1.length = n

namespace RangeCall

variable (hooks : Hooks)

/-- The call does what it says for the numbers that were given, whatever the buffers contain. -/
def Clamps : RangeCall → Prop
  | toString v start stop => ∀ enc m,
      v.toString hooks enc (some start) (some stop) m =
        stringFromBytes hooks (v.contents m) (clampStart v.length start)
          (clampStop v.length start stop) enc
  | fill v start stop => ∀ value m,
      Codec.fill hooks v value (some start) (some stop) m =
        if (valueToBytes hooks value).length = 0 then m
        else v.patterned (valueToBytes hooks value) (clampStart v.length start)
          (clampStop v.length start stop) m
  | copy source target start stop => ∀ m,
      Codec.copy source target (some 0) (some start) (some stop) m =
        ((((positions source.length start stop).take target.length).length : Int),
          Copying.copyLoop target.address
            (fun i => source.address (clampStart source.length start + i)) m
            ((positions source.length start stop).take target.length).length)
  | indexOf hay value k =>
    hay.length < k → valueToBytes hooks value ≠ [] → (Codec.indexOf hooks hay value (some k)).1 = -1
  | alloc value n => ∀ h, SizedAs n (Codec.alloc hooks n value h)
  | allocUnsafe n => ∀ h, SizedAs n (Codec.allocUnsafe n h)
  | buffer n => ∀ h, SizedAs n (bufferOfSize n h)

/-- The reduced numbers select what the given ones select. -/
def Unaffected : RangeCall → Prop
  | toString v start stop | fill v start stop =>
    positions v.length start stop = positions v.length (toInt32 start) (toInt32 stop)
  | copy source target start stop =>
    (positions source.length start stop).take target.length =
      (positions source.length (toInt32 start) (toInt32 stop)).take target.length
  | indexOf hay value k =>
    hay.length < k → valueToBytes hooks value ≠ [] →
      ∀ i : Nat, toInt32 k ≤ i → ¬ OccursAt hay (valueToBytes hooks value) i
  | alloc _ n | allocUnsafe n | buffer n => n < 2 ^ 32 ∨ 2 ^ 31 ≤ n % 2 ^ 32

end RangeCall

/-! ## Ranges that are clamped -/

section Clamping

variable {len : Nat} {a b : Int}

theorem resolveRange_clamped (start stop : Int) (len : Nat) :
    resolveRange (some start) (some stop) len =
      (max 0 (toInt32 start), max (max 0 (toInt32 start)) (min (len : Int) (toInt32 stop))) := by
  simp only [resolveRange, Option.map_some, Option.getD_some]
  generalize toInt32 start = a
  generalize toInt32 stop = b
  split <;> split <;> split <;> simp only [Prod.mk.injEq] <;> omega

theorem clampStart_le_stop (len : Nat) (a b : Int) : clampStart len a ≤ clampStop len a b := by
  unfold clampStart clampStop
  omega

theorem clampStop_le (len : Nat) (a b : Int) : clampStop len a b ≤ len := by
  unfold clampStop
  omega

/-- A range that begins behind the end is empty, as the clamped one is. -/
theorem resolved_cases (len : Nat) (a b : Int) :
    ((max 0 a).toNat = clampStart len a ∧
        (max (max 0 a) (min (len : Int) b)).toNat = clampStop len a b) ∨
      (len < (max 0 a).toNat ∧ (max (max 0 a) (min (len : Int) b)) = max 0 a ∧
        clampStop len a b = clampStart len a) := by
  unfold clampStart clampStop
  rcases Int.lt_or_le (len : Int) a with hbehind | hwithin
  · have hzero : max 0 a = a := by omega
    have hstart : min (max a 0) (len : Int) = len := by omega
    have hstop : max a (min (len : Int) b) = a := by omega
    have hempty : max (len : Int) (min b len) = len := by omega
    rw [hzero, hstart, hstop, hempty]
    exact .inr ⟨by omega, rfl, rfl⟩
  · have hstart : min (max a 0) (len : Int) = max 0 a := by omega
    rw [hstart, Int.min_comm b]
    exact .inl ⟨rfl, rfl⟩

theorem length_positions (len : Nat) (a b : Int) :
    (positions len a b).length = clampStop len a b - clampStart len a :=
  List.length_range'

/-- Ranges of the same positions are equal. -/
theorem range_eq_of_mem {s n t k : Nat}
    (h : ∀ i, i ∈ List.range' s n ↔ i ∈ List.range' t k) : List.range' s n = List.range' t k := by
  simp only [List.mem_range'_1] at h
  have hs := h s
  have ht := h t
  have hlast := h (s + n - 1)
  have hlast' := h (t + k - 1)
  rw [List.range'_inj]
  omega

end Clamping

/-! ## `toString` -/

section ToString

variable (hooks : Hooks) (v : View) (enc : Encoding) (m : Memory)

theorem stringFromBytes_congr {bytes : List UInt8} {s e s' e' : Nat}
    (h : (bytes.take e).drop s = (bytes.take e').drop s') :
    stringFromBytes hooks bytes s e enc = stringFromBytes hooks bytes s' e' enc := by
  simp only [stringFromBytes, h]

theorem View.toString_eq (start stop : Int) :
    v.toString hooks enc (some start) (some stop) m =
      stringFromBytes hooks (v.contents m) (clampStart v.length (toInt32 start))
        (clampStop v.length (toInt32 start) (toInt32 stop)) enc := by
  rw [View.toString, resolveRange_clamped]
  generalize toInt32 start = a
  generalize toInt32 stop = b
  apply stringFromBytes_congr
  rcases resolved_cases v.length a b with ⟨hstart, hstop⟩ | ⟨hbehind, hempty, hclamped⟩
  · simp only [hstart, hstop]
  · simp only [hempty, hclamped]
    rw [List.drop_take_self, List.drop_take_self]

/-- The bytes of a range, by their positions. -/
theorem View.slice_eq {s e : Nat} (he : e ≤ v.length) :
    ((v.contents m).take e).drop s = (List.range' s (e - s)).map fun i => m (v.address i) := by
  rw [View.contents, ← List.map_take, ← List.map_drop, List.take_range, Nat.min_eq_left he,
    List.range_eq_range', List.drop_range']
  simp

/-- Lists that every function maps to the same list are equal. -/
theorem eq_of_map_eq {l l' : List Nat} (h : ∀ f : Nat → UInt8, l.map f = l'.map f) : l = l' := by
  apply List.ext_getElem
  · simpa using congrArg List.length (h fun _ => 0)
  · intro i hi hi'
    -- the function that tells the number at this place from all others
    have hmark := h fun n => if n = l[i] then 1 else 0
    have hplace := congrArg (fun l => l[i]?) hmark
    simp only [List.getElem?_map, List.getElem?_eq_getElem hi, List.getElem?_eq_getElem hi',
      Option.map_some, if_true, Option.some.injEq] at hplace
    by_contra hne
    rw [if_neg (Ne.symm hne)] at hplace
    exact absurd hplace (by decide)

theorem toString_clamps_iff (start stop : Int) :
    (RangeCall.toString v start stop).Clamps hooks ↔
      (RangeCall.toString v start stop).Unaffected hooks := by
  simp only [RangeCall.Clamps, RangeCall.Unaffected, View.toString_eq]
  generalize toInt32 start = a
  generalize toInt32 stop = b
  have hslice (m : Memory) (a b : Int) :
      ((v.contents m).take (clampStop v.length a b)).drop (clampStart v.length a) =
        (positions v.length a b).map fun i => m (v.address i) :=
    v.slice_eq m (clampStop_le _ a b)
  constructor
  · intro hclamps
    apply eq_of_map_eq
    intro f
    -- a memory in which the view holds the values of `f`
    have htext := hclamps .latin1 fun a => f (a.2 - v.byteOffset)
    simp only [stringFromBytes, hslice, View.address, Nat.add_sub_cancel_left] at htext
    have hbytes := List.map_injective_iff.mpr (fun _ _ => UInt8.toNat_inj.mp) htext
    exact hbytes.symm
  · intro hsame enc m
    apply stringFromBytes_congr
    rw [hslice, hslice, hsame]

end ToString

/-! ## `fill` -/

section Fill

variable (hooks : Hooks) (v : View) (m : Memory)

theorem fillRounds_eq (fillBytes : List Nat) {s n : Nat} (hn : s + n ≤ v.length) :
    fillRounds v fillBytes s m n = v.patterned fillBytes s (s + n) m := by
  induction n with
  | zero =>
    funext a
    rw [fillRounds, View.patterned, if_neg (by omega)]
  | succ n ih =>
    rw [fillRounds, ih (by omega), ← Int.natCast_add, v.set_natCast _ (by omega)]
    funext a
    by_cases ha : a = v.address (s + n)
    · have hindex : v.byteOffset + (s + n) - (v.byteOffset + s) = n := by omega
      rw [ha, Function.update_self, View.patterned, View.address, if_pos ⟨rfl, by omega⟩, hindex]
    · rw [Function.update_of_ne ha]
      have hsame : (a.1 = v.buffer ∧ v.byteOffset + s ≤ a.2 ∧ a.2 < v.byteOffset + (s + n)) ↔
          (a.1 = v.buffer ∧ v.byteOffset + s ≤ a.2 ∧ a.2 < v.byteOffset + (s + (n + 1))) := by
        constructor
        · rintro ⟨hbuffer, hle, hlt⟩
          exact ⟨hbuffer, hle, by omega⟩
        · rintro ⟨hbuffer, hle, hlt⟩
          have hne : a.2 ≠ v.byteOffset + (s + n) := fun h => ha (Prod.ext hbuffer h)
          exact ⟨hbuffer, hle, by omega⟩
      simp only [View.patterned, hsame]

theorem fill_eq (value : Needle) (start stop : Int) :
    fill hooks v value (some start) (some stop) m =
      if (valueToBytes hooks value).length = 0 then m
      else v.patterned (valueToBytes hooks value) (clampStart v.length (toInt32 start))
        (clampStop v.length (toInt32 start) (toInt32 stop)) m := by
  rw [fill, resolveRange_clamped]
  generalize toInt32 start = a
  generalize toInt32 stop = b
  apply if_congr Iff.rfl rfl
  have hle := clampStart_le_stop v.length a b
  have hstop := clampStop_le v.length a b
  obtain ⟨n, hn⟩ := Nat.exists_eq_add_of_le hle
  have hfits : clampStart v.length a + n ≤ v.length := by omega
  rw [hn, ← fillRounds_eq v m _ hfits]
  rcases resolved_cases v.length a b with ⟨hs, he⟩ | ⟨hbehind, hempty, hclamped⟩
  · have hoffset : max 0 a = ((clampStart v.length a : Nat) : Int) := by omega
    have hrounds : (max (max 0 a) (min (v.length : Int) b) - max 0 a).toNat = n := by omega
    simp only [hrounds]
    rw [hoffset]
  · have hzero : n = 0 := by omega
    simp only [hempty, hzero, Int.sub_self, Int.toNat_zero]
    rfl

theorem View.patterned_empty (fillBytes : List Nat) {s e : Nat} (h : e ≤ s) :
    v.patterned fillBytes s e m = m := by
  funext a
  rw [patterned, if_neg (by omega)]

/-- A pattern of ones in a memory of zeros shows where it is. -/
theorem patterned_ones {s e i : Nat} :
    v.patterned [1] s e (fun _ => 0) (v.address i) = 1 ↔ i ∈ List.range' s (e - s) := by
  rw [List.mem_range'_1, View.patterned, View.address]
  split
  next h => exact iff_of_true (by simp [Nat.mod_one]) (by omega)
  next h => exact iff_of_false (by decide) (by simp only [true_and] at h; omega)

theorem fill_clamps_iff (start stop : Int) :
    (RangeCall.fill v start stop).Clamps hooks ↔
      (RangeCall.fill v start stop).Unaffected hooks := by
  simp only [RangeCall.Clamps, RangeCall.Unaffected, fill_eq]
  generalize toInt32 start = a
  generalize toInt32 stop = b
  constructor
  · intro hclamps
    have hones := hclamps (.number 1) fun _ => 0
    rw [show valueToBytes hooks (.number 1) = [1] from rfl, if_neg (by decide),
      if_neg (by decide)] at hones
    apply range_eq_of_mem
    intro i
    rw [← patterned_ones v, ← patterned_ones v, hones]
  · intro hsame value m
    rw [positions, positions, List.range'_inj] at hsame
    apply if_congr Iff.rfl rfl
    rcases hsame.2 with hempty | hstart
    · rw [v.patterned_empty m _ (by omega), v.patterned_empty m _ (by omega)]
    · have hle := clampStart_le_stop v.length start stop
      have hle' := clampStart_le_stop v.length a b
      have hstop : clampStop v.length start stop = clampStop v.length a b := by omega
      rw [hstart, hstop]

end Fill

/-! ## `copy` -/

section Copy

variable (hooks : Hooks) (source target : View) (m : Memory)

theorem length_take_positions (len count : Nat) (a b : Int) :
    ((positions len a b).take count).length = min count (clampStop len a b - clampStart len a) := by
  rw [List.length_take, length_positions]

theorem take_positions (len count : Nat) (a b : Int) :
    (positions len a b).take count =
      List.range' (clampStart len a) ((positions len a b).take count).length := by
  rw [length_take_positions, positions]
  rcases Nat.le_total count (clampStop len a b - clampStart len a) with hle | hle
  · rw [List.take_range'_of_length_ge hle, Nat.min_eq_left hle]
  · rw [List.take_range'_of_length_le hle, Nat.min_eq_right hle]

theorem take_positions_eq_iff {len count : Nat} {a b a' b' : Int} :
    (positions len a b).take count = (positions len a' b').take count ↔
      ((positions len a b).take count).length = ((positions len a' b').take count).length ∧
        (((positions len a b).take count).length = 0 ∨ clampStart len a = clampStart len a') := by
  conv_lhs => rw [take_positions len count a b, take_positions len count a' b']
  exact List.range'_inj

/-- The call with the clamped range. -/
def clampedCall (a b : Int) : CopyCall where
  source := source
  target := target
  targetStart := some 0
  sourceStart := some (clampStart source.length a)
  sourceEnd := some (clampStop source.length a b)
  target_le := Nat.zero_le _
  source_le := clampStart_le_stop _ a b
  end_le := clampStop_le _ a b

theorem targetAddress_clampedCall (a b : Int) :
    (clampedCall source target a b).targetAddress = target.address := by
  funext i
  exact congrArg target.address (Nat.zero_add i)

theorem copy_eq (start stop : Int) :
    copy source target (some 0) (some start) (some stop) m =
      ((((positions source.length (toInt32 start) (toInt32 stop)).take
            target.length).length : Int),
        Copying.copyLoop target.address
          (fun i => source.address (clampStart source.length (toInt32 start) + i)) m
          ((positions source.length (toInt32 start) (toInt32 stop)).take
            target.length).length) := by
  have hzero : toInt32 0 = 0 := by decide
  simp only [copy, resolveRange_clamped, Option.map_some, Option.getD_some, hzero,
    length_take_positions]
  generalize toInt32 start = a
  generalize toInt32 stop = b
  generalize hn : min target.length (clampStop source.length a b - clampStart source.length a) = n
  have hle := clampStart_le_stop source.length a b
  have hbound : n ≤ (clampedCall source target a b).count := by
    simp only [CopyCall.count, clampedCall, Option.getD_some]
    omega
  have hcases := resolved_cases source.length a b
  have hcount : min (max (max 0 a) (min (source.length : Int) b) - max 0 a)
      (max 0 ((target.length : Int) - 0)) = n := by
    have hs : 0 ≤ max 0 a := Int.le_max_left _ _
    have he : max 0 a ≤ max (max 0 a) (min (source.length : Int) b) := Int.le_max_left _ _
    generalize max (max 0 a) (min (source.length : Int) b) = e at hcases he ⊢
    generalize max 0 a = s at hcases hs he ⊢
    rcases hcases with ⟨hstart, hstop⟩ | ⟨-, hempty, hclamped⟩
    · rw [← hstart, ← hstop] at hn
      omega
    · rw [hclamped, Nat.sub_self] at hn
      omega
  rw [hcount, Int.toNat_natCast]
  have hloop := (clampedCall source target a b).copyRounds_eq m hbound
  rw [targetAddress_clampedCall] at hloop
  refine Prod.ext rfl ?_
  rcases hcases with ⟨hs, -⟩ | ⟨-, -, hclamped⟩
  · have hstart : max 0 a = ((clampStart source.length a : Nat) : Int) := by omega
    rw [hstart]
    exact hloop
  · have hnone : n = 0 := by omega
    rw [hnone]
    rfl

theorem copy_clamps_iff (start stop : Int) :
    (RangeCall.copy source target start stop).Clamps hooks ↔
      (RangeCall.copy source target start stop).Unaffected hooks := by
  simp only [RangeCall.Clamps, RangeCall.Unaffected, copy_eq]
  generalize toInt32 start = a
  generalize toInt32 stop = b
  rw [take_positions_eq_iff]
  generalize ((positions source.length start stop).take target.length).length = n
  generalize ((positions source.length a b).take target.length).length = k
  constructor
  · intro hclamps
    -- the first cell of the target shows which byte was copied first
    have hfirst := hclamps fun cell =>
      if cell = source.address (clampStart source.length start) then 1 else 0
    obtain ⟨hcount, hmemory⟩ := Prod.mk.inj hfirst
    have hkn : k = n := Int.ofNat_inj.mp hcount
    refine ⟨hkn.symm, ?_⟩
    rcases Nat.eq_zero_or_pos n with hzero | hpos
    · exact .inl hzero
    · right
      have hcell := congrFun hmemory (target.address 0)
      rw [hkn, Copying.copyLoop_dest target.address_injective hpos,
        Copying.copyLoop_dest target.address_injective hpos] at hcell
      simp only [Copying.copyLoop, Copying.storeLoop, Nat.add_zero, if_true] at hcell
      by_contra hne
      have haddress : source.address (clampStart source.length a) ≠
          source.address (clampStart source.length start) :=
        fun h => hne (source.address_injective h).symm
      rw [if_neg haddress] at hcell
      exact absurd hcell (by decide)
  · rintro ⟨rfl, hempty | hstart⟩ m
    · rw [hempty]
      rfl
    · rw [hstart]

end Copy

/-! ## Searches and sizes -/

section Sizes

variable (hooks : Hooks)

theorem indexOf_clamps_iff (hay : List UInt8) (value : Needle) (k : Int) :
    (RangeCall.indexOf hay value k).Clamps hooks ↔
      (RangeCall.indexOf hay value k).Unaffected hooks := by
  have hstart : (if toInt32 k < 0 then 0 else toInt32 k) = ((toInt32 k).toNat : Int) := by
    split <;> omega
  have hfinds := (findSequence_finds hay (valueToBytes hooks value) (toInt32 k).toNat).1
  simp only [RangeCall.Clamps, RangeCall.Unaffected, indexOf, Option.map_some, Option.getD_some,
    hstart, hfinds.eq_neg_one_iff, Int.toNat_le]

theorem sizedAs_makeBuffer_iff (n : Nat) :
    (∀ h, SizedAs n (makeBuffer (toUint32 n) h)) ↔ n < 2 ^ 32 ∨ 2 ^ 31 ≤ n % 2 ^ 32 := by
  have hreduced : toUint32 n = n % 2 ^ 32 := by
    unfold toUint32
    omega
  rw [hreduced]
  constructor
  · intro hsized
    by_cases hfits : n % 2 ^ 32 ≤ maxByteLength
    · have hlength := hsized ⟨fun _ => 0, 0⟩ _ (dif_pos hfits)
      have hsame : n % 2 ^ 32 = n := hlength
      omega
    · unfold maxByteLength at hfits
      omega
  · intro hn h r hr
    rw [makeBuffer] at hr
    split at hr
    · next hfits =>
        unfold maxByteLength at hfits
        have hsame : n % 2 ^ 32 = n := by omega
        cases hr
        exact hsame
    · cases hr

/-- Filling does not change the length. -/
theorem sizedAs_alloc_iff (value : Option Needle) (n : Nat) (h : Heap) :
    SizedAs n (alloc hooks n value h) ↔ SizedAs n (makeBuffer (toUint32 n) h) := by
  rw [alloc]
  cases makeBuffer (toUint32 n) h with
  | none => simp [SizedAs]
  | some r => cases value <;> simp [SizedAs]

theorem alloc_clamps_iff (value : Option Needle) (n : Nat) :
    (RangeCall.alloc value n).Clamps hooks ↔ (RangeCall.alloc value n).Unaffected hooks := by
  simp only [RangeCall.Clamps, RangeCall.Unaffected, sizedAs_alloc_iff]
  exact sizedAs_makeBuffer_iff n

theorem buffer_clamps_iff (n : Nat) :
    (RangeCall.buffer n).Clamps hooks ↔ (RangeCall.buffer n).Unaffected hooks := by
  have hsize (h : Heap) : bufferOfSize n h = makeBuffer (toUint32 n) h := if_neg (by omega)
  simp only [RangeCall.Clamps, RangeCall.Unaffected, hsize]
  exact sizedAs_makeBuffer_iff n

end Sizes

/-- A call does what it says for the numbers it was given exactly if these select what their
reductions to 32 bits select. -/
theorem clamps_iff (hooks : Hooks) (call : RangeCall) :
    call.Clamps hooks ↔ call.Unaffected hooks := by
  cases call with
  | toString v start stop => exact toString_clamps_iff hooks v start stop
  | fill v start stop => exact fill_clamps_iff hooks v start stop
  | copy source target start stop => exact copy_clamps_iff hooks source target start stop
  | indexOf hay value k => exact indexOf_clamps_iff hooks hay value k
  | alloc value n => exact alloc_clamps_iff hooks value n
  | allocUnsafe n => exact sizedAs_makeBuffer_iff n
  | buffer n => exact buffer_clamps_iff hooks n

/-- With `Number.MAX_SAFE_INTEGER` as its end `toString` returns nothing, with 2^32 `fill` stores
nothing and `copy` copies nothing, `indexOf` finds a byte in front of its offset, and the sizes
lose their high bits. -/
theorem reduced_numbers_differ :
    View.toString ⟨id, fun _ => []⟩ fourBytes .latin1 (some 0) (some (2 ^ 53 - 1))
        (fun _ => 0x61) = [] ∧
      fill ⟨id, fun _ => []⟩ fourBytes (.number 1) (some 0) (some (2 ^ 32)) (fun _ => 0)
        (0, 0) = 0 ∧
      (copy fourBytes ⟨1, 0, 4, by decide⟩ (some 0) (some 0) (some (2 ^ 32)) fun _ => 0).1 = 0 ∧
      (indexOf ⟨id, fun _ => []⟩ [0x61] (.number 0x61) (some (2 ^ 32))).1 = 0 ∧
      (alloc ⟨id, fun _ => []⟩ (2 ^ 32) none ⟨fun _ => 0, 0⟩).map (·.1.length) = some 0 ∧
      (allocUnsafe (2 ^ 32) ⟨fun _ => 0, 0⟩).map (·.1.length) = some 0 ∧
      (bufferOfSize (2 ^ 32) ⟨fun _ => 0, 0⟩).map (·.1.length) = some 0 ∧
      ¬ (RangeCall.toString fourBytes 0 (2 ^ 53 - 1)).Clamps ⟨id, fun _ => []⟩ := by
  refine ⟨by decide, by decide, by decide, ?_, by decide, by decide, by decide, ?_⟩
  · have hreduced : toInt32 (2 ^ 32) = 0 := by decide
    have hneedle : valueToBytes ⟨id, fun _ => []⟩ (.number 0x61) = [0x61] := rfl
    rw [indexOf, Option.map_some, Option.getD_some, hreduced, hneedle, findSequence,
      if_neg (by decide), if_neg (by decide), findLoop]
    rfl
  · intro hclamps
    have htext := hclamps .latin1 fun _ => 0x61
    exact absurd htext (by decide)

end Codec
