import Mathlib.Algebra.Order.Group.Multiset
import Mathlib.Tactic.Abel

/-!
# Resources that are acquired and released by hand

A program over a heap of live resources. Each resource is of a kind, and using or releasing
one that is not live, or with the operation of another kind, is a fault. A program may also
report events, and for each event some resources may be given up for lost.

`Triple loss pre p post` says that `p` does not fault where the resources `pre` are live, that it
leaves every other resource alone, what it holds at its end, and that the resources it has lost
are those of the events it reported. The rules follow the operations; `Triple.call` carries along
the resources that the called program does not need.
-/

namespace Ownership

variable {K E α β : Type}

/-- The live resources and the events reported so far. No two resources have one number, and the
next number is that of none. -/
structure Heap (K E : Type) where
  next : Nat
  live : Multiset (Nat × K)
  log : List E
  fresh : ∀ r ∈ live, r.1 < next
  unique : (live.map Prod.fst).Nodup

inductive Fault where
  | notLive
deriving DecidableEq, Repr

abbrev Prog (K E : Type) := StateT (Heap K E) (Except Fault)

theorem Heap.notMem_next (heap : Heap K E) : heap.next ∉ heap.live.map Prod.fst := by
  intro hmem
  obtain ⟨r, hr, heq⟩ := Multiset.mem_map.mp hmem
  exact absurd (heap.fresh r hr) (by omega)

def acquire (k : K) : Prog K E Nat := fun heap =>
  .ok (heap.next, {
    heap with
    next := heap.next + 1
    live := (heap.next, k) ::ₘ heap.live
    fresh := by
      intro r hr
      rcases Multiset.mem_cons.mp hr with rfl | hr
      · exact Nat.lt_succ_self _
      · exact Nat.lt_succ_of_lt (heap.fresh r hr)
    unique := by
      rw [Multiset.map_cons, Multiset.nodup_cons]
      exact ⟨heap.notMem_next, heap.unique⟩ })

def report (e : E) : Prog K E Unit := fun heap => .ok ((), { heap with log := heap.log ++ [e] })

section Operations

variable [DecidableEq K]

def use (k : K) (r : Nat) : Prog K E Unit := fun heap =>
  if (r, k) ∈ heap.live then .ok ((), heap) else .error .notLive

def release (k : K) (r : Nat) : Prog K E Unit := fun heap =>
  if (r, k) ∈ heap.live then
    .ok ((), {
      heap with
      live := heap.live.erase (r, k)
      fresh := fun q hq => heap.fresh q (Multiset.mem_of_mem_erase hq)
      unique := Multiset.nodup_of_le (Multiset.map_le_map (Multiset.erase_le _ _)) heap.unique })
  else .error .notLive

end Operations

/-! ## Triples -/

/-- What has become of a heap: `rest` is held, `frame` was left alone, and what is live beside
them was lost with the events that were reported. -/
def Leaves (loss : E → Multiset K) (heap heap' : Heap K E) (rest frame : Multiset (Nat × K)) :
    Prop :=
  ∃ lost events, heap'.live = rest + (lost + frame) ∧ heap'.log = heap.log ++ events ∧
    lost.map Prod.snd = (events.map loss).sum

def Triple (loss : E → Multiset K) (pre : Multiset (Nat × K)) (p : Prog K E α)
    (post : α → Multiset (Nat × K) → Prop) : Prop :=
  ∀ (heap : Heap K E) (frame : Multiset (Nat × K)), heap.live = pre + frame →
    ∃ a heap' rest, p heap = .ok (a, heap') ∧ post a rest ∧ Leaves loss heap heap' rest frame

section Rules

variable {loss : E → Multiset K} {pre other whole : Multiset (Nat × K)}
variable {post : β → Multiset (Nat × K) → Prop}

theorem Leaves.of_same {heap heap' : Heap K E} {rest frame : Multiset (Nat × K)}
    (hlive : heap'.live = rest + frame) (hlog : heap'.log = heap.log) :
    Leaves loss heap heap' rest frame :=
  ⟨0, [], by rw [hlive, zero_add], by rw [hlog, List.append_nil], rfl⟩

theorem Triple.pure {b : β} (h : post b pre) : Triple loss pre (pure b : Prog K E β) post := by
  intro heap frame hlive
  exact ⟨b, heap, pre, rfl, h, .of_same hlive rfl⟩

/-- A call that needs only a part of what is live. -/
theorem Triple.call {p : Prog K E α} {mid : α → Multiset (Nat × K) → Prop} {f : α → Prog K E β}
    (hp : Triple loss pre p mid) (hwhole : whole = pre + other)
    (hf : ∀ a rest, mid a rest → Triple loss (rest + other) (f a) post) :
    Triple loss whole (p >>= f) post := by
  intro heap frame hlive
  rw [hwhole, add_assoc] at hlive
  obtain ⟨a, heap₁, rest, hrun, hmid, lost₁, events₁, hlive₁, hlog₁, hloss₁⟩ := hp heap _ hlive
  have hnext : heap₁.live = rest + other + (lost₁ + frame) := by
    rw [hlive₁]
    abel
  obtain ⟨b, heap₂, rest₂, hrun₂, hpost, lost₂, events₂, hlive₂, hlog₂, hloss₂⟩ :=
    hf a rest hmid heap₁ _ hnext
  refine ⟨b, heap₂, rest₂, ?_, hpost, lost₂ + lost₁, events₁ ++ events₂, ?_, ?_, ?_⟩
  · change (p heap >>= fun q => f q.1 q.2) = _
    rw [hrun]
    exact hrun₂
  · rw [hlive₂, add_assoc lost₂]
  · rw [hlog₂, hlog₁, List.append_assoc]
  · rw [Multiset.map_add, hloss₁, hloss₂, List.map_append, List.sum_append, add_comm]

/-- A call that needs none of it. -/
theorem Triple.callClosed {p : Prog K E α} {mid : α → Multiset (Nat × K) → Prop}
    {f : α → Prog K E β} (hp : Triple loss 0 p mid)
    (hf : ∀ a rest, mid a rest → Triple loss (rest + whole) (f a) post) :
    Triple loss whole (p >>= f) post :=
  Triple.call hp (zero_add whole).symm hf

/-- The program needs nothing and holds nothing at its end. -/
def Balanced (loss : E → Multiset K) (p : Prog K E α) : Prop :=
  Triple loss 0 p fun _ rest => rest = 0

theorem Balanced.call {p : Prog K E α} {f : α → Prog K E β} (hp : Balanced loss p)
    (hf : ∀ a, Triple loss whole (f a) post) : Triple loss whole (p >>= f) post := by
  refine Triple.callClosed hp ?_
  rintro a _ rfl
  rw [zero_add]
  exact hf a

theorem Triple.mono {p : Prog K E β} {post' : β → Multiset (Nat × K) → Prop}
    (hp : Triple loss pre p post) (h : ∀ b rest, post b rest → post' b rest) :
    Triple loss pre p post' := by
  intro heap frame hlive
  obtain ⟨b, heap', rest, hrun, hpost, hleaves⟩ := hp heap frame hlive
  exact ⟨b, heap', rest, hrun, h b rest hpost, hleaves⟩

/-- What a program does not need is still there at its end. -/
theorem Triple.frame {p : Prog K E α} (hp : Triple loss pre p fun _ rest => rest = 0)
    (other : Multiset (Nat × K)) : Triple loss (pre + other) p fun _ rest => rest = other := by
  rw [← bind_pure p]
  refine hp.call rfl ?_
  rintro a _ rfl
  exact .pure (zero_add other)

theorem Triple.acquire {k : K} {f : Nat → Prog K E β}
    (hf : ∀ r, Triple loss ({(r, k)} + whole) (f r) post) :
    Triple loss whole (acquire k >>= f) post := by
  have hacquire : Triple loss 0 (Ownership.acquire k) fun r rest => rest = {(r, k)} := by
    intro heap frame hlive
    refine ⟨heap.next, _, {(heap.next, k)}, rfl, rfl, .of_same ?_ rfl⟩
    rw [Multiset.singleton_add, ← zero_add frame, ← hlive]
  refine hacquire.callClosed ?_
  rintro r _ rfl
  exact hf r

/-- The resources of the event are given up. -/
theorem Triple.report {e : E} {f : Unit → Prog K E β} {given : Multiset (Nat × K)}
    (hgiven : given.map Prod.snd = loss e) (hwhole : whole = given + other)
    (hf : Triple loss other (f ()) post) : Triple loss whole (report e >>= f) post := by
  have hreport : Triple loss given (Ownership.report e) fun _ rest => rest = 0 := by
    intro heap frame hlive
    exact ⟨(), _, 0, rfl, rfl, given, [e], hlive.trans (zero_add _).symm, rfl,
      by simpa using hgiven⟩
  refine hreport.call hwhole ?_
  rintro _ _ rfl
  rwa [zero_add]

variable [DecidableEq K]

theorem Triple.use {k : K} {r : Nat} {f : Unit → Prog K E β} (hlive : (r, k) ∈ whole)
    (hf : Triple loss whole (f ()) post) : Triple loss whole (use k r >>= f) post := by
  have huse : Triple loss whole (Ownership.use k r) fun _ rest => rest = whole := by
    intro heap frame hheap
    have hmem : (r, k) ∈ heap.live := by
      rw [hheap]
      exact Multiset.mem_add.mpr (.inl hlive)
    exact ⟨(), heap, whole, if_pos hmem, rfl, .of_same hheap rfl⟩
  refine huse.call (add_zero whole).symm ?_
  rintro _ _ rfl
  rwa [add_zero]

theorem Triple.release {k : K} {r : Nat} {f : Unit → Prog K E β} (other : Multiset (Nat × K))
    (hwhole : whole = {(r, k)} + other) (hf : Triple loss other (f ()) post) :
    Triple loss whole (release k r >>= f) post := by
  have hrelease : Triple loss {(r, k)} (Ownership.release k r) fun _ rest => rest = 0 := by
    intro heap frame hlive
    have hmem : (r, k) ∈ heap.live := by simp [hlive]
    refine ⟨(), _, 0, if_pos hmem, rfl, .of_same ?_ rfl⟩
    change heap.live.erase (r, k) = 0 + frame
    rw [hlive, Multiset.singleton_add, Multiset.erase_cons_head, zero_add]
  refine hrelease.call hwhole ?_
  rintro _ _ rfl
  rwa [zero_add]

end Rules

end Ownership
