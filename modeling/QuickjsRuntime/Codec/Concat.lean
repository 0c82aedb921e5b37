import Mathlib.Algebra.GroupWithZero.Nat
import Mathlib.Data.List.Basic
import Mathlib.Data.List.GetD
import QuickjsRuntime.Codec.Copy

/-!
# `Buffer.concat`

`makeBuffer` allocates an array buffer of zeros, which the engine refuses beyond its limit, and
`Buffer.concat` of `node_compat_buffer.dart` copies the items into one. The loop stops at the
total length and cuts the item that reaches over it. The length that is asked for is taken modulo
2^32, while the loop goes on with the total as it was.
-/

namespace Codec

/-! ## Allocation -/

/-- The bytes of all array buffers, of which those from `nextBuffer` on do not exist yet. -/
structure Heap where
  memory : Memory
  nextBuffer : Nat

/-- `n >>> 0` -/
def toUint32 (n : Int) : Nat :=
  (n % 2 ^ 32).toNat

/-- A view of all of the next array buffer. -/
def Heap.fresh (h : Heap) (length : Nat) (hfits : length ≤ maxByteLength) : View :=
  ⟨h.nextBuffer, 0, length, by omega⟩

/-- The heap in which that array buffer exists, with zeros in it. -/
def Heap.grown (h : Heap) : Heap :=
  ⟨fun a => if a.1 = h.nextBuffer then 0 else h.memory a, h.nextBuffer + 1⟩

/-- A view of a new array buffer; `none` is the `RangeError` of the engine. -/
def makeBuffer (length : Nat) (h : Heap) : Option (View × Heap) :=
  if hfits : length ≤ maxByteLength then some (h.fresh length hfits, h.grown) else none

/-- The bytes of a view. -/
def View.contents (m : Memory) (v : View) : List UInt8 :=
  (List.range v.length).map fun i => m (v.address i)

/-! ## `concat` -/

/-- The memory after `out.set(item, pos)`. -/
def View.stored (out item : View) (pos : Nat) (m : Memory) : Memory := fun a =>
  if a.1 = out.buffer ∧ out.byteOffset + pos ≤ a.2 ∧ a.2 < out.byteOffset + pos + item.length then
    m (item.address (a.2 - (out.byteOffset + pos)))
  else m a

/-- What is stored of an item at position `pos`. -/
def View.cut (item : View) (pos total : Nat) : View :=
  if pos + item.length > total then item.subarray 0 (some (total - pos)) else item

/-- The loop over the items from position `pos` on; `false` is the `RangeError` of `set`. -/
def concatLoop (out : View) (total : Nat) : List View → Nat → Memory → Bool × Memory
  | [], _, m => (true, m)
  | item :: list, pos, m =>
    if pos < total then
      if pos + (item.cut pos total).length ≤ out.length then
        concatLoop out total list (pos + item.length) (out.stored (item.cut pos total) pos m)
      else (false, m)
    else (true, m)

def totalLength (list : List View) : Option Nat → Nat
  | some total => total
  | none => (list.map View.length).sum

def concat (list : List View) (total : Option Nat) (h : Heap) : Option View × Heap :=
  match makeBuffer (toUint32 (totalLength list total)) h with
  | none => (none, h)
  | some (out, h) =>
    let r := concatLoop out (totalLength list total) list 0 h.memory
    (if r.1 then some out else none, { h with memory := r.2 })

/-! ## Cells -/

section Cells

variable {out item : View} {m m₀ : Memory} {pos : Nat}

theorem View.length_contents (m : Memory) (v : View) : (v.contents m).length = v.length := by
  rw [contents, List.length_map, List.length_range]

theorem View.getD_contents {v : View} {i : Nat} (hi : i < v.length) :
    (v.contents m).getD i 0 = m (v.address i) := by
  rw [List.getD_eq_getElem _ _ (by rwa [length_contents])]
  simp [contents]

theorem View.stored_inside {i : Nat} (hi : i < item.length) :
    out.stored item pos m (out.address (pos + i)) = m (item.address i) := by
  have hinside : out.byteOffset + pos ≤ out.byteOffset + (pos + i) ∧
      out.byteOffset + (pos + i) < out.byteOffset + pos + item.length := by omega
  have hback : out.byteOffset + (pos + i) - (out.byteOffset + pos) = i := by omega
  simp only [stored, address, hinside, and_self, if_true, hback]

theorem View.stored_outside {i : Nat} (hi : i < pos ∨ pos + item.length ≤ i) :
    out.stored item pos m (out.address i) = m (out.address i) := by
  rw [stored, if_neg]
  simp only [address, true_and]
  omega

theorem View.stored_other {a : Nat × Nat} (ha : a.1 ≠ out.buffer) :
    out.stored item pos m a = m a := by
  rw [stored, if_neg]
  exact fun h => ha h.1

/-- The view holds the bytes, and zeros behind them; all else is as it was in `m₀`. -/
structure Filled (out : View) (bytes : List UInt8) (m₀ m : Memory) : Prop where
  cells : ∀ i < out.length, m (out.address i) = bytes.getD i 0
  others : ∀ a : Nat × Nat, a.1 ≠ out.buffer → m a = m₀ a

theorem Filled.contents {bytes : List UInt8} (h : Filled out bytes m₀ m) :
    out.contents m = (bytes ++ List.replicate out.length 0).take out.length := by
  apply List.ext_getElem
  · simp [View.length_contents]
  · intro i hi hi'
    rw [View.length_contents] at hi
    have hcell : (out.contents m)[i] = m (out.address i) := by simp [View.contents]
    rw [hcell, h.cells i hi, List.getElem_take]
    by_cases hbytes : i < bytes.length
    · rw [List.getD_eq_getElem _ _ hbytes, List.getElem_append_left hbytes]
    · rw [List.getD_eq_default _ _ (by omega), List.getElem_append_right (by omega),
        List.getElem_replicate]

theorem View.length_cut (item : View) {total : Nat} (hpos : pos < total) :
    (item.cut pos total).length = min item.length (total - pos) := by
  rw [cut]
  split
  next hover =>
    have hzero : item.clampIndex 0 = 0 := by simp [clampIndex]
    have hstop : item.clampIndex ((total : Int) - pos) = total - pos := by
      rw [clampIndex, if_neg (by omega)]
      omega
    rw [subarray]
    simp only [hzero, hstop, Option.map_some, Option.getD_some]
    omega
  next => omega

theorem View.address_cut (item : View) (pos total : Nat) :
    (item.cut pos total).address = item.address := by
  funext i
  rw [cut]
  split
  · have hzero : item.clampIndex 0 = 0 := by simp [clampIndex]
    simp only [subarray, address, hzero, Nat.add_zero]
  · rfl

end Cells

/-! ## The loop -/

section Loop

variable {out : View} {list : List View} {m m₀ : Memory}

/-- An item that is stored behind the bytes is cut where the view ends. -/
theorem Filled.stored {item : View} {bytes : List UInt8} (h : Filled out bytes m₀ m)
    (hitem : item.buffer ≠ out.buffer) (hpos : bytes.length < out.length) :
    Filled out (bytes ++ item.contents m₀) m₀
      (out.stored (item.cut bytes.length out.length) bytes.length m) := by
  have hlength := item.length_cut hpos
  constructor
  case cells =>
    intro i hi
    by_cases hbytes : i < bytes.length
    · rw [View.stored_outside (.inl hbytes), h.cells i hi, List.getD_append _ _ _ _ hbytes]
    · obtain ⟨j, rfl⟩ := Nat.exists_eq_add_of_le (Nat.le_of_not_lt hbytes)
      rw [List.getD_append_right _ _ _ _ (by omega), Nat.add_sub_cancel_left]
      by_cases hj : j < item.length
      · rw [View.stored_inside (by omega), item.address_cut, View.getD_contents hj]
        exact h.others _ hitem
      · rw [View.stored_outside (.inr (by omega)), h.cells _ hi,
          List.getD_eq_default _ _ (by omega),
          List.getD_eq_default _ _ (by rw [View.length_contents]; omega)]
  case others =>
    intro a ha
    rw [View.stored_other ha, h.others a ha]

/-- Where the view is as long as the total, the loop fills it with the items. -/
theorem concatLoop_fills {bytes : List UInt8} (hlist : ∀ v ∈ list, v.buffer ≠ out.buffer)
    (h : Filled out bytes m₀ m) :
    (concatLoop out out.length list bytes.length m).1 = true ∧
      Filled out (bytes ++ list.flatMap (View.contents m₀)) m₀
        (concatLoop out out.length list bytes.length m).2 := by
  induction list generalizing bytes m with
  | nil => simpa [concatLoop] using h
  | cons item list ih =>
    rw [List.forall_mem_cons] at hlist
    rw [concatLoop]
    by_cases hpos : bytes.length < out.length
    · have hlength := item.length_cut hpos
      have hrest := ih hlist.2 (h.stored hlist.1 hpos)
      rw [List.length_append, View.length_contents, List.append_assoc] at hrest
      rw [if_pos hpos, if_pos (by omega), List.flatMap_cons]
      exact hrest
    · rw [if_neg hpos]
      refine ⟨rfl, ?_, h.others⟩
      intro i hi
      rw [List.getD_append _ _ _ _ (by omega)]
      exact h.cells i hi

theorem concatLoop_others {total pos : Nat} {a : Nat × Nat} (ha : a.1 ≠ out.buffer) :
    (concatLoop out total list pos m).2 a = m a := by
  induction list generalizing pos m with
  | nil => rfl
  | cons item list ih =>
    rw [concatLoop]
    split
    · split
      · rw [ih, View.stored_other ha]
      · rfl
    · rfl

/-- Where the items are more than the view holds, one of them does not fit. -/
theorem concatLoop_overflows (m : Memory) {total pos : Nat} (hpos : pos ≤ out.length)
    (htotal : pos + (list.map View.length).sum = total) (hover : out.length < total) :
    (concatLoop out total list pos m).1 = false := by
  induction list generalizing pos m with
  | nil =>
    rw [List.map_nil, List.sum_nil] at htotal
    omega
  | cons item list ih =>
    rw [List.map_cons, List.sum_cons] at htotal
    have hwhole : item.cut pos total = item := if_neg (by omega)
    rw [concatLoop, if_pos (by omega), hwhole]
    split
    next hfits => exact ih _ hfits (by omega)
    next => rfl

end Loop

/-! ## Calls -/

/-- A call with views of array buffers that exist, and an integer below 2^32 or none. -/
structure ConcatCall where
  list : List View
  total : Option Nat
  heap : Heap
  allocated : ∀ v ∈ list, v.buffer < heap.nextBuffer
  total_lt : ∀ n ∈ total, n < 2 ^ 32

namespace ConcatCall

variable (c : ConcatCall)

def run : Option View × Heap :=
  concat c.list c.total c.heap

/-- The length that is asked for. -/
def length : Nat :=
  totalLength c.list c.total

/-- The bytes of all items. -/
def flattened : List UInt8 :=
  c.list.flatMap (View.contents c.heap.memory)

/-- The view that is returned has the length that was asked for and holds the beginning of the
items, with zeros behind them. -/
def Flattens : Prop :=
  ∃ out : View, c.run.1 = some out ∧
    out.contents c.run.2.memory = (c.flattened ++ List.replicate c.length 0).take c.length

theorem toUint32_length (h : c.length ≤ maxByteLength) : toUint32 c.length = c.length := by
  unfold maxByteLength at h
  unfold toUint32
  omega

theorem contents_grown {h : Heap} {v : View} (hv : v.buffer < h.nextBuffer) :
    v.contents h.grown.memory = v.contents h.memory := by
  apply List.map_congr_left
  intro i _
  exact if_neg (Nat.ne_of_lt hv)

theorem run_flattens (h : c.length ≤ maxByteLength) : c.Flattens := by
  have hcall : toUint32 (totalLength c.list c.total) = c.length := c.toUint32_length h
  have hother : ∀ v ∈ c.list, v.buffer ≠ (c.heap.fresh c.length h).buffer := by
    intro v hv
    exact Nat.ne_of_lt (c.allocated v hv)
  have hzeros : Filled (c.heap.fresh c.length h) [] c.heap.grown.memory c.heap.grown.memory :=
    ⟨fun _ _ => if_pos rfl, fun _ _ => rfl⟩
  obtain ⟨hdone, hfilled⟩ := concatLoop_fills hother hzeros
  have hitems : c.list.flatMap (View.contents c.heap.grown.memory) = c.flattened := by
    apply List.flatMap_congr
    intro v hv
    exact contents_grown (c.allocated v hv)
  rw [List.nil_append, hitems] at hfilled
  refine ⟨c.heap.fresh c.length h, ?_, ?_⟩
  · simp only [run, concat, hcall, makeBuffer, dif_pos h]
    exact if_pos hdone
  · simp only [run, concat, hcall, makeBuffer, dif_pos h]
    exact hfilled.contents

/-- Beyond the limit either the array buffer is refused, or its length has been reduced and the
items do not fit. -/
theorem run_throws (h : maxByteLength < c.length) : c.run.1 = none := by
  by_cases hfits : toUint32 c.length ≤ maxByteLength
  · have hnone : c.total = none := by
      cases htotal : c.total with
      | none => rfl
      | some n =>
        have hlt := c.total_lt n htotal
        have hlength : c.length = n := by rw [length, htotal, totalLength]
        unfold toUint32 at hfits
        omega
    have hsum : 0 + (c.list.map View.length).sum = c.length := by
      rw [length, hnone, totalLength, Nat.zero_add]
    have hover : (c.heap.fresh _ hfits).length < c.length := Nat.lt_of_le_of_lt hfits h
    have hloop := concatLoop_overflows c.heap.grown.memory (Nat.zero_le _) hsum hover
    rw [run, concat, ← length, makeBuffer, dif_pos hfits]
    exact if_neg (by rw [hloop]; decide)
  · rw [run, concat, ← length, makeBuffer, dif_neg hfits]

/-- No byte of an array buffer that existed is changed. -/
theorem run_others {a : Nat × Nat} (ha : a.1 < c.heap.nextBuffer) :
    c.run.2.memory a = c.heap.memory a := by
  rw [run, concat, ← length, makeBuffer]
  split
  next hnone => rfl
  next out h hsome =>
    split at hsome
    · next hfits =>
        obtain ⟨rfl, rfl⟩ := Prod.mk.inj (Option.some.inj hsome)
        have hloop : (concatLoop (c.heap.fresh _ hfits) c.length c.list 0
            c.heap.grown.memory).2 a = c.heap.grown.memory a :=
          concatLoop_others (Nat.ne_of_lt ha)
        exact hloop.trans (if_neg (Nat.ne_of_lt ha))
    · cases hsome

/-- `concat` returns the items one after the other, cut or filled with zeros, exactly up to the
limit of the engine, and throws beyond it; the items are unchanged. -/
theorem concat_flattens (c : ConcatCall) :
    (c.length ≤ maxByteLength → c.Flattens) ∧ (maxByteLength < c.length → c.run.1 = none) ∧
      ∀ v ∈ c.list, v.contents c.run.2.memory = v.contents c.heap.memory := by
  refine ⟨c.run_flattens, c.run_throws, ?_⟩
  intro v hv
  apply List.map_congr_left
  intro i _
  exact c.run_others (c.allocated v hv)

end ConcatCall

/-- `Buffer.concat([], 2 ** 31)` -/
def twoGibibytes : ConcatCall where
  list := []
  total := some (2 ^ 31)
  heap := ⟨fun _ => 0, 0⟩
  allocated := by simp
  total_lt := by simp

theorem concat_two_gibibytes :
    twoGibibytes.total = some (2 ^ 31) ∧ twoGibibytes.run.1 = none ∧ ¬ twoGibibytes.Flattens := by
  have hthrows : twoGibibytes.run.1 = none := by decide
  refine ⟨rfl, hthrows, ?_⟩
  rintro ⟨out, hout, -⟩
  rw [hthrows] at hout
  cases hout

end Codec
