import Mathlib.Algebra.GroupWithZero.Nat
import Mathlib.Order.Nat
import QuickjsRuntime.Events.Effects

/-! # How often a once-listener is called

An entry is counted wherever it is kept: in the registering call that made it, in its array,
in the snapshots that loops still go through, and among the wrappers and invocations it has
started. A wrapper does not check whether it has run before (`_ncFired` is written and never
read), so what bounds the invocations is the number of snapshots that hold the entry. Two
loops hold it when an `emit` is entered while another one still has to call it.
-/

namespace Events

variable {Fn : Type} [DecidableEq Fn] {s s' : State Fn} {e : Entry Fn}

namespace Frame

/-- The frame is a registration of the entry. -/
def enrolls (e : Entry Fn) : Frame Fn → Nat
  | .register e' _ => if e' = e then 1 else 0
  | _ => 0

/-- How often the entry is in the rest of the snapshot. -/
def awaits (e : Entry Fn) : Frame Fn → Nat
  | .loop _ _ rest _ => rest.count e
  | _ => 0

/-- The frame is the wrapper of the entry, before it calls the listener. -/
def wraps (e : Entry Fn) : Frame Fn → Nat
  | .wrapper e' _ => if e' = e then 1 else 0
  | _ => 0

/-- The type whose `emit` is entered. -/
def enters : Frame Fn → Option String
  | .emit type _ => some type
  | _ => none

end Frame

namespace State

def total (weight : Frame Fn → Nat) (s : State Fn) : Nat := (s.stack.map weight).sum

def enrolled (s : State Fn) (e : Entry Fn) : Nat := s.total (Frame.enrolls e)

def awaited (s : State Fn) (e : Entry Fn) : Nat := s.total (Frame.awaits e)

/-- Invocations of the listener through the entry. -/
def invocations (s : State Fn) (e : Entry Fn) : Nat := s.calls.countP (·.entry = e)

/-- Wrappers and invocations of the entry so far. -/
def started (s : State Fn) (e : Entry Fn) : Nat := s.total (Frame.wraps e) + s.invocations e

/-- How often the entry is in the array it belongs to. -/
def live (s : State Fn) (e : Entry Fn) : Nat :=
  match e.list with
  | some n => (s.lists e.type n).count e
  | none => 0

/-- The entries that `emit(type)` would go through. -/
def registrations (s : State Fn) (type : String) : List (Entry Fn) :=
  match s.events type with
  | some n => s.lists type n
  | none => []

end State

section Totals

variable {weight : Frame Fn → Nat} {pre below : List (Frame Fn)}

omit [DecidableEq Fn]

/-- A weight that frames without an entry do not have. -/
def Weighs (weight : Frame Fn → Nat) : Prop := ∀ f : Frame Fn, f.isQuiet → weight f = 0

theorem total_of_suffix (weight : Frame Fn → Nat) (hbelow : below <:+ s.stack) :
    (below.map weight).sum ≤ s.total weight := by
  obtain ⟨above, habove⟩ := hbelow
  rw [State.total, ← habove, List.map_append, List.sum_append]
  exact Nat.le_add_left _ _

theorem Weighs.total (hweight : Weighs weight) (hpre : ∀ f ∈ pre, f.isQuiet)
    (hstack : s.stack = pre ++ below) : s.total weight = (below.map weight).sum := by
  rw [State.total, hstack]
  clear hstack
  induction pre with
  | nil => rfl
  | cons f pre ih =>
    rw [List.forall_mem_cons] at hpre
    rw [List.cons_append, List.map_cons, List.sum_cons, hweight f hpre.1, Nat.zero_add]
    exact ih hpre.2

theorem total_of_stack (weight : Frame Fn → Nat) {frame : Frame Fn}
    (hstack : s.stack = frame :: below) :
    s.total weight = weight frame + (below.map weight).sum := by
  rw [State.total, hstack, List.map_cons, List.sum_cons]

end Totals

theorem weighs_enrolls (e : Entry Fn) : Weighs (Frame.enrolls e) := by
  intro f hf
  cases f <;> first | rfl | cases hf

theorem weighs_awaits (e : Entry Fn) : Weighs (Frame.awaits e) := by
  intro f hf
  cases f <;> first | rfl | cases hf

theorem weighs_wraps (e : Entry Fn) : Weighs (Frame.wraps e) := by
  intro f hf
  cases f <;> first | rfl | cases hf

/-! ## Entries are where they belong -/

/-- Arrays and snapshots hold entries of that array only. -/
structure Homed (s : State Fn) : Prop where
  lists : ∀ type n, ∀ e ∈ s.lists type n, e.type = type ∧ e.list = some n
  loops : ∀ type n rest about, Frame.loop type n rest about ∈ s.stack →
    ∀ e ∈ rest, e.type = type ∧ e.list = some n

theorem Homed.step (h : Homed s) (heffect : Effect s s') : Homed s' where
  lists type n e he := by
    rcases heffect.mem_lists he with hold | ⟨htype, hlist, -⟩
    · exact h.lists type n e hold
    · exact ⟨htype, hlist⟩
  loops type n rest about hloop e he := by
    rcases heffect.mem_stack hloop with hold | hnew
    · exact h.loops type n rest about hold e he
    · cases hnew with
      | quiet hquiet => cases hquiet
      | snapshot => exact h.lists type n e he
      | rest hbefore => exact h.loops type n _ about hbefore e (List.mem_cons_of_mem _ he)

/-! ## The stages of an entry -/

/-- What a step can do to the counts of one entry. -/
inductive Stage (s s' : State Fn) (e : Entry Fn) : Prop
  | none (henrolled : s'.enrolled e ≤ s.enrolled e) (hlive : s'.live e ≤ s.live e)
      (hawaited : s'.awaited e ≤ s.awaited e) (hstarted : s'.started e ≤ s.started e) : Stage s s' e
  | made (hid : e.id = s.nextEntry) (hnext : s'.nextEntry = s.nextEntry + 1)
      (henrolled : s'.enrolled e = s.enrolled e + 1) (hlive : s'.live e = s.live e)
      (hawaited : s'.awaited e = s.awaited e) (hstarted : s'.started e = s.started e) : Stage s s' e
  | added (henrolled : s.enrolled e = s'.enrolled e + 1) (hlive : s'.live e = s.live e + 1)
      (hawaited : s'.awaited e = s.awaited e) (hstarted : s'.started e = s.started e) : Stage s s' e
  | copied (type : String) (about : Notice Fn) (below : List (Frame Fn))
      (hbefore : s.stack = .emit type about :: below) (hmem : e ∈ s.registrations type)
      (henrolled : s'.enrolled e = s.enrolled e) (hlive : s'.live e = s.live e)
      (hawaited : s'.awaited e = s.awaited e + s.live e) (hstarted : s'.started e = s.started e) :
      Stage s s' e
  | taken (henrolled : s'.enrolled e = s.enrolled e) (hlive : s'.live e ≤ s.live e)
      (honce : e.once = true → s'.live e ≤ s.live e - 1)
      (hawaited : s.awaited e = s'.awaited e + 1) (hstarted : s'.started e = s.started e + 1) :
      Stage s s' e

theorem live_le (hlists : ∀ t n, (s'.lists t n).Sublist (s.lists t n)) (e : Entry Fn) :
    s'.live e ≤ s.live e := by
  unfold State.live
  split
  next n _ => exact (hlists e.type n).count_le e
  next => exact Nat.le_refl 0

theorem live_eq (hlists : s'.lists = s.lists) (e : Entry Fn) : s'.live e = s.live e := by
  rw [State.live, State.live, hlists]

theorem live_of_list {n : Nat} (h : e.list = some n) (s : State Fn) :
    s.live e = (s.lists e.type n).count e := by
  simp [State.live, h]

theorem started_congr (htotal : s'.total (Frame.wraps e) = s.total (Frame.wraps e))
    (hcalls : s'.calls = s.calls) : s'.started e = s.started e := by
  rw [State.started, State.started, htotal, State.invocations, State.invocations, hcalls]

theorem invocations_cons {e' : Entry Fn} {about : Notice Fn}
    (hcalls : s'.calls = ⟨e', about⟩ :: s.calls) :
    s'.invocations e = s.invocations e + if e' = e then 1 else 0 := by
  rw [State.invocations, State.invocations, hcalls, List.countP_cons]
  simp only [decide_eq_true_eq]

/-- A registering call that puts its entry into the array. -/
theorem live_added {e' : Entry Fn} {prepend : Bool} {n : Nat} (hlist : e'.list = some n)
    (hlists : ∀ t m, s'.lists t m = if t = e'.type ∧ m = n then
      (if prepend then e' :: s.lists e'.type n else s.lists e'.type n ++ [e']) else s.lists t m) :
    s'.live e = s.live e + if e' = e then 1 else 0 := by
  have hcount : ∀ l : List (Entry Fn), (if prepend then e' :: l else l ++ [e']).count e =
      l.count e + if e' = e then 1 else 0 := by
    intro l
    cases prepend <;> simp [List.count_cons, List.count_append]
  by_cases heq : e' = e
  · subst heq
    rw [live_of_list hlist, live_of_list hlist, hlists, if_pos ⟨rfl, rfl⟩, hcount]
  · rw [if_neg heq, Nat.add_zero]
    unfold State.live
    split
    next m _ =>
      rw [hlists]
      split
      next hm =>
        obtain ⟨htype, rfl⟩ := hm
        rw [hcount, if_neg heq, htype, Nat.add_zero]
      next => rfl
    next => rfl

/-- A loop goes on behind the entry `e'`. -/
theorem awaited_of_rest {type : String} {n : Nat} {e' : Entry Fn} {rest : List (Entry Fn)}
    {about : Notice Fn}
    (h : s'.total (Frame.awaits e) + Frame.awaits e (.loop type n (e' :: rest) about) =
      s.total (Frame.awaits e) + Frame.awaits e (.loop type n rest about)) :
    s.awaited e = s'.awaited e + if e' = e then 1 else 0 := by
  simp only [Frame.awaits, List.count_cons, beq_iff_eq] at h
  unfold State.awaited
  omega

/-- The listener of the entry `e'` starts, and its array may lose it. -/
theorem Stage.of_start {e' : Entry Fn} (henrolled : s'.enrolled e = s.enrolled e)
    (hawaited : s.awaited e = s'.awaited e + if e' = e then 1 else 0)
    (hstarted : s'.started e = s.started e + if e' = e then 1 else 0)
    (hlive : s'.live e ≤ s.live e)
    (honce : e' = e → e.once = true → s'.live e ≤ s.live e - 1) : Stage s s' e := by
  by_cases heq : e' = e
  · rw [if_pos heq] at hawaited hstarted
    exact .taken henrolled hlive (honce heq) hawaited hstarted
  · rw [if_neg heq] at hawaited hstarted
    exact .none henrolled.le hlive hawaited.ge hstarted.le

/-- Each effect is one stage: the weights of the stack say what becomes of the entry there. -/
theorem Effect.stage (h : Effect s s') (hhome : Homed s) (e : Entry Fn) : Stage s s' e := by
  cases h with
  | quiet pre below hpre hbelow hstack hlists hcalls =>
    have htotal {weight : Frame Fn → Nat} (hweight : Weighs weight) :
        s'.total weight ≤ s.total weight := by
      rw [hweight.total hpre hstack]
      exact total_of_suffix weight hbelow
    refine .none (htotal (weighs_enrolls e)) (live_le hlists e) (htotal (weighs_awaits e)) ?_
    rw [State.started, State.started, State.invocations, State.invocations, hcalls]
    exact Nat.add_le_add_right (htotal (weighs_wraps e)) _
  | enroll pre e' prepend hpre hid hlist hstack hlists hcalls hnext =>
    have htotal {weight : Frame Fn → Nat} (hweight : Weighs weight) :
        s'.total weight = weight (.register e' prepend) + s.total weight :=
      hweight.total hpre hstack
    have henrolled : s'.enrolled e = (if e' = e then 1 else 0) + s.enrolled e :=
      htotal (weighs_enrolls e)
    have hawaited : s'.awaited e = s.awaited e :=
      (htotal (weighs_awaits e)).trans (Nat.zero_add _)
    have hstarted : s'.started e = s.started e :=
      started_congr ((htotal (weighs_wraps e)).trans (Nat.zero_add _)) hcalls
    by_cases heq : e' = e
    · rw [if_pos heq] at henrolled
      exact .made (heq ▸ hid) hnext (by omega) (live_eq hlists e) hawaited hstarted
    · rw [if_neg heq] at henrolled
      exact .none (by omega) (live_eq hlists e).le hawaited.le hstarted.le
  | add e' prepend n below hbefore hlist hstack hlists hcalls hnext =>
    have htotal (weight : Frame Fn → Nat) :
        s.total weight = weight (.register e' prepend) + s'.total weight := by
      rw [total_of_stack weight hbefore, State.total, hstack]
    have henrolled : s.enrolled e = (if e' = e then 1 else 0) + s'.enrolled e :=
      htotal (Frame.enrolls e)
    have hawaited : s.awaited e = s'.awaited e :=
      (htotal (Frame.awaits e)).trans (Nat.zero_add _)
    have hstarted : s'.started e = s.started e :=
      started_congr ((htotal (Frame.wraps e)).trans (Nat.zero_add _)).symm hcalls
    have hlive : s'.live e = s.live e + if e' = e then 1 else 0 := live_added hlist hlists
    by_cases heq : e' = e
    · rw [if_pos heq] at henrolled hlive
      exact .added (by omega) hlive hawaited.symm hstarted
    · rw [if_neg heq] at henrolled hlive
      exact .none (by omega) hlive.le hawaited.ge hstarted.le
  | snapshot type about n below hbefore harray hstack hlists hcalls =>
    have htotal {weight : Frame Fn → Nat} (hweight : Weighs weight) :
        s'.total weight = weight (.loop type n (s.lists type n) about) + s.total weight := by
      rw [total_of_stack weight hstack, total_of_stack weight hbefore,
        hweight (.emit type about) rfl, Nat.zero_add]
    have henrolled : s'.enrolled e = s.enrolled e :=
      (htotal (weighs_enrolls e)).trans (Nat.zero_add _)
    have hawaited : s'.awaited e = (s.lists type n).count e + s.awaited e :=
      htotal (weighs_awaits e)
    have hstarted : s'.started e = s.started e :=
      started_congr ((htotal (weighs_wraps e)).trans (Nat.zero_add _)) hcalls
    by_cases hmem : e ∈ s.lists type n
    · refine .copied type about below hbefore ?_ henrolled (live_eq hlists e) ?_ hstarted
      · rw [State.registrations, harray]
        exact hmem
      · obtain ⟨htype, hlist⟩ := hhome.lists type n e hmem
        rw [hawaited, live_of_list hlist, htype, Nat.add_comm]
    · rw [List.count_eq_zero.mpr hmem, Nat.zero_add] at hawaited
      exact .none henrolled.le (live_eq hlists e).le hawaited.le hstarted.le
  | persistent type n e' rest about below honce hbefore hstack hlists hcalls =>
    have htotal {weight : Frame Fn → Nat} (hweight : Weighs weight) :
        s'.total weight + weight (.loop type n (e' :: rest) about) =
          s.total weight + weight (.loop type n rest about) := by
      rw [total_of_stack weight hbefore, total_of_stack weight hstack,
        hweight (.listener e') rfl, List.map_cons, List.sum_cons]
      omega
    have hwraps : s'.total (Frame.wraps e) = s.total (Frame.wraps e) := htotal (weighs_wraps e)
    refine .of_start (htotal (weighs_enrolls e)) (awaited_of_rest (htotal (weighs_awaits e))) ?_
      (live_eq hlists e).le ?_
    · rw [State.started, State.started, hwraps, invocations_cons hcalls, Nat.add_assoc]
    · rintro rfl htrue
      exact absurd (honce.symm.trans htrue) Bool.false_ne_true
  | wrapped pre type n e' rest about below hpre honce hbefore hstack hlists hcalls =>
    have htotal {weight : Frame Fn → Nat} (hweight : Weighs weight) :
        s'.total weight + weight (.loop type n (e' :: rest) about) =
          s.total weight + weight (.wrapper e' about) + weight (.loop type n rest about) := by
      rw [total_of_stack weight hbefore, hweight.total hpre hstack, List.map_cons, List.sum_cons,
        List.map_cons, List.sum_cons]
      omega
    have hwraps : s'.total (Frame.wraps e) =
        s.total (Frame.wraps e) + if e' = e then 1 else 0 := htotal (weighs_wraps e)
    have hle : ∀ t m, (s'.lists t m).Sublist (s.lists t m) := by
      intro t m
      refine (hlists t m).trans ?_
      split
      next h => exact h.1 ▸ h.2 ▸ List.erase_sublist
      next => exact .refl _
    refine .of_start (htotal (weighs_enrolls e)) (awaited_of_rest (htotal (weighs_awaits e))) ?_
      (live_le hle e) ?_
    · rw [State.started, State.started, hwraps, State.invocations, State.invocations, hcalls]
      omega
    · rintro rfl -
      -- the array that loses the entry is the one it belongs to
      obtain ⟨htype, hlist⟩ := hhome.loops type n (e' :: rest) about
        (hbefore ▸ List.mem_cons_self) e' List.mem_cons_self
      have hcount := (hlists type n).count_le e'
      rw [if_pos ⟨rfl, rfl⟩, List.count_erase_self] at hcount
      rwa [live_of_list hlist, live_of_list hlist, htype]
  | invoke e' about below hbefore hstack hlists hcalls =>
    have htotal {weight : Frame Fn → Nat} (hweight : Weighs weight) :
        s.total weight = weight (.wrapper e' about) + s'.total weight := by
      rw [total_of_stack weight hbefore, total_of_stack weight hstack,
        hweight (.listener e') rfl, Nat.zero_add]
    have henrolled : s.enrolled e = 0 + s'.enrolled e := htotal (weighs_enrolls e)
    have hawaited : s.awaited e = 0 + s'.awaited e := htotal (weighs_awaits e)
    have hwraps : s.total (Frame.wraps e) =
        (if e' = e then 1 else 0) + s'.total (Frame.wraps e) := htotal (weighs_wraps e)
    have hstarted : s'.started e = s.started e := by
      rw [State.started, State.started, hwraps, invocations_cons hcalls]
      omega
    exact .none (by omega) (live_eq hlists e).le (by omega) hstarted.le

/-! ## Invariants of the counts -/

/-- Every entry is in one place at most before its listener starts, and an entry that is not
made yet is nowhere. -/
structure WellFormed (s : State Fn) : Prop extends Homed s where
  single : ∀ e, s.enrolled e + s.live e ≤ 1
  unmade : ∀ e, s.nextEntry ≤ e.id →
    s.enrolled e = 0 ∧ s.live e = 0 ∧ s.awaited e = 0 ∧ s.started e = 0

theorem wellFormed_fresh : WellFormed (State.fresh : State Fn) where
  lists := by simp [State.fresh]
  loops := by simp [State.fresh]
  single e := by
    cases h : e.list <;> simp [State.enrolled, State.live, State.total, State.fresh, h]
  unmade e _ := by
    cases h : e.list <;> simp [State.enrolled, State.live, State.awaited, State.started,
      State.invocations, State.total, State.fresh, h]

theorem Effect.nextEntry_le (h : Effect s s') : s.nextEntry ≤ s'.nextEntry := by
  cases h <;> omega

theorem WellFormed.step (h : WellFormed s) (heffect : Effect s s') : WellFormed s' where
  toHomed := h.toHomed.step heffect
  single e := by
    have hsingle := h.single e
    cases heffect.stage h.toHomed e with
    | none => omega
    | made hid => have := h.unmade e hid.ge; omega
    | added => omega
    | copied => omega
    | taken => omega
  unmade e he := by
    have hunmade := h.unmade e (heffect.nextEntry_le.trans he)
    cases heffect.stage h.toHomed e with
    | none => omega
    | made => omega
    | added => omega
    | copied => omega
    | taken => omega

theorem Reachable.wellFormed {allowed : State Fn → Label Fn → Prop} (h : Reachable allowed s) :
    WellFormed s :=
  Transition.Reachable.invariant WellFormed wellFormed_fresh
    (fun _ _ _ hwf _ hstep => hwf.step (step_effect hstep)) h

/-- Before its listener starts, the entry is in one array and in one snapshot at most; after
that it is in none. -/
structure RunsOnce (s : State Fn) (e : Entry Fn) : Prop where
  live : s.enrolled e + s.live e + s.started e ≤ 1
  awaited : s.enrolled e + s.awaited e + s.started e ≤ 1

/-- An `emit` is entered while another one still has to call a once-entry of the same type. -/
def State.Overlaps (s : State Fn) : Prop :=
  ∃ type about below, s.stack = .emit type about :: below ∧
    ∃ e ∈ s.registrations type, e.once = true ∧ s.awaited e ≠ 0

instance : Decidable s.Overlaps :=
  decidable_of_iff (∃ type ∈ s.stack.head?.bind Frame.enters,
      ∃ e ∈ s.registrations type, e.once = true ∧ s.awaited e ≠ 0) (by
    constructor
    · rintro ⟨type, htype, hmem⟩
      obtain ⟨frame, hframe, henters⟩ := Option.bind_eq_some_iff.mp htype
      obtain ⟨below, hstack⟩ := List.head?_eq_some_iff.mp hframe
      cases frame with
      | emit _ about =>
        cases henters
        exact ⟨type, about, below, hstack, hmem⟩
      | _ => cases henters
    · rintro ⟨type, about, below, hstack, hmem⟩
      exact ⟨type, by simp [hstack, Frame.enters], hmem⟩)

theorem RunsOnce.step (h : RunsOnce s e) (hwf : WellFormed s) (honce : e.once = true)
    (hoverlaps : ¬ s.Overlaps) (heffect : Effect s s') : RunsOnce s' e := by
  have hlive := h.live
  have hawaited := h.awaited
  cases heffect.stage hwf.toHomed e with
  | none => exact ⟨by omega, by omega⟩
  | made hid =>
    have := hwf.unmade e hid.ge
    exact ⟨by omega, by omega⟩
  | added => exact ⟨by omega, by omega⟩
  | copied type about below hbefore hmem =>
    have hnot : s.awaited e = 0 := by
      by_contra hne
      exact hoverlaps ⟨type, about, below, hbefore, e, hmem, honce, hne⟩
    exact ⟨by omega, by omega⟩
  | taken _ _ herased =>
    -- a snapshot held the entry, so its listener had not started; its array loses it now
    have := herased honce
    exact ⟨by omega, by omega⟩

theorem runsOnce_fresh (e : Entry Fn) : RunsOnce (State.fresh : State Fn) e := by
  obtain ⟨henrolled, hlive, hawaited, hstarted⟩ :=
    wellFormed_fresh.unmade e (Nat.zero_le _)
  exact ⟨by omega, by omega⟩

/-- In a run in which no `emit` overlaps another one's once-entries, every once-listener is
called at most once through its registration. -/
theorem once_listener_fires_at_most_once
    (h : Reachable (fun s _ => ¬ s.Overlaps) s) (e : Entry Fn) (honce : e.once = true) :
    s.invocations e ≤ 1 := by
  have hinv : WellFormed s ∧ RunsOnce s e := by
    refine Transition.Reachable.invariant (fun s => WellFormed s ∧ RunsOnce s e)
      ⟨wellFormed_fresh, runsOnce_fresh e⟩ ?_ h
    intro s l s' hs hoverlaps hstep
    have heffect := step_effect hstep
    exact ⟨hs.1.step heffect, hs.2.step hs.1 honce hoverlaps heffect⟩
  have hlive := hinv.2.live
  have hle : s.invocations e ≤ s.started e := Nat.le_add_left _ _
  omega

/-- `once("x", 1)` and two times `emit("x")`. -/
def onceAndTwoEmits : List (Label Nat) :=
  [.call (.once "x" (some 1)), .go, .call (.emit "x"), .go, .go, .go, .leave, .go,
    .call (.emit "x"), .go]

theorem once_listener_fires_once : ∃ s : State Nat,
    Transition.run State.step .fresh onceAndTwoEmits = some s ∧
      s.invocations ⟨0, "x", some 0, 1, true⟩ = 1 ∧
      s.invocations ⟨0, "x", some 0, 1, true⟩ ≤ 1 := by
  have hrun : ((Transition.run State.step .fresh onceAndTwoEmits).map
      fun s => s.invocations ⟨0, "x", some 0, 1, true⟩) = some 1 := by decide
  obtain ⟨s, hs, hcount⟩ := Option.map_eq_some_iff.mp hrun
  have hallowed : Transition.RunAllowed State.step (fun s _ => ¬ s.Overlaps) .fresh
      onceAndTwoEmits := by decide
  exact ⟨s, hs, hcount,
    once_listener_fires_at_most_once (Transition.Reachable.init.run hallowed hs) _ rfl⟩

/-- A listener of `x` emits `x` again while the outer loop still has to call the once-entry. -/
def reentrantEmit : List (Label Nat) :=
  [.call (.on "x" (some 0)), .go, .call (.once "x" (some 1)), .go,
    .call (.emit "x"), .go, .go,
    .call (.emit "x"), .go, .go, .leave, .go, .go, .leave, .go,
    .leave, .go, .go]

theorem reentrant_emit_fires_once_listener_twice :
    ¬ ∀ (s : State Nat) (e : Entry Nat), Reachable (fun _ _ => True) s → e.once = true →
      s.invocations e ≤ 1 := by
  intro h
  have hrun : ((Transition.run State.step .fresh reentrantEmit).map
      fun s => s.invocations ⟨1, "x", some 0, 1, true⟩) = some 2 := by decide
  obtain ⟨s, hs, hcount⟩ := Option.map_eq_some_iff.mp hrun
  have hle := h s ⟨1, "x", some 0, 1, true⟩ (Transition.reachable_of_run hs) rfl
  omega

end Events
