import QuickjsRuntime.Events.OnceOnly

/-! # A call of `emit` whose listeners do nothing

When listeners return at once and leave the emitter alone, a call of `emit` is the emitter's
own code from its start to its end. Beside the loop of the call itself it can contain loops
of `removeListener` notifications, which the `off` of a once-wrapper sends when it removes a
further registration of the same function, and these can nest. Each such notification comes
with a removal, so the call ends.
-/

namespace Events

variable {Fn : Type} [DecidableEq Fn]

namespace State

/-- One step in which a listener that is in control returns. -/
def idle (s : State Fn) : State Fn :=
  match s.stack with
  | [] => s
  | .listener _ :: below => { s with stack := below }
  | frame :: below => { s with stack := below }.resume frame

/-- Go on until the stack is down to the given height. -/
def settle (height : Nat) : Nat → State Fn → State Fn
  | 0, s => s
  | fuel + 1, s => if s.stack.length ≤ height then s else settle height fuel s.idle

/-- The call, with listeners that neither throw nor touch the emitter, comes back to its
caller in the state `s'`. -/
def Completes (s : State Fn) (op : Op Fn) (s' : State Fn) : Prop :=
  s'.stack = s.stack ∧ ∃ fuel, ∀ m, fuel ≤ m → settle s.stack.length m (s.call op) = s'

theorem idle_step (s : State Fn) (h : s.stack ≠ []) :
    s.step .leave = some s.idle ∨ s.step .go = some s.idle := by
  unfold step idle
  cases hstack : s.stack with
  | nil => exact absurd hstack h
  | cons frame below => cases frame <;> simp

theorem settle_of_le {height : Nat} {s : State Fn} (h : s.stack.length ≤ height) (fuel : Nat) :
    settle height fuel s = s := by
  cases fuel with
  | zero => rfl
  | succ fuel => rw [settle, if_pos h]

theorem settle_succ {height : Nat} {s : State Fn} (h : height < s.stack.length) (fuel : Nat) :
    settle height (fuel + 1) s = settle height fuel s.idle := by
  rw [settle, if_neg (Nat.not_le.mpr h)]

/-- A call that has come to its end stays there. -/
theorem settle_add {height k : Nat} {s : State Fn}
    (h : (settle height k s).stack.length ≤ height) (m : Nat) :
    settle height (m + k) s = settle height k s := by
  induction k generalizing s with
  | zero => exact settle_of_le h m
  | succ k ih =>
    by_cases hs : s.stack.length ≤ height
    · rw [settle_of_le hs, settle_of_le hs]
    · have hlt := Nat.not_le.mp hs
      rw [settle_succ hlt] at h
      rw [← Nat.add_assoc, settle_succ hlt, settle_succ hlt, ih h]

omit [DecidableEq Fn] in
/-- The names of notifications are not inherited. -/
theorem slot_removeListener (s : State Fn) :
    s.slot "removeListener" = match s.events "removeListener" with
      | some n => .array n
      | none => .undefined := by
  unfold slot
  cases s.events "removeListener" <;> rfl

end State

/-! ## What a once-entry consumes -/

/-- The array after the loop has dropped the entry and the wrapper has called `off`. -/
def consume (e : Entry Fn) (entries : List (Entry Fn)) : List (Entry Fn) :=
  (entries.erase e).eraseP (·.listener = e.listener)

/-- The wrapper's `off` finds a further registration of the function. -/
def repeats (e : Entry Fn) (entries : List (Entry Fn)) : Bool :=
  (entries.erase e).any (·.listener = e.listener)

theorem consume_sublist (e : Entry Fn) (entries : List (Entry Fn)) :
    (consume e entries).Sublist entries :=
  List.eraseP_sublist.trans List.erase_sublist

theorem consume_length_lt {e : Entry Fn} {entries : List (Entry Fn)} (h : repeats e entries) :
    (consume e entries).length < entries.length := by
  obtain ⟨x, hx, hlistener⟩ := List.any_eq_true.mp h
  have hlength := List.length_eraseP_of_mem (p := (·.listener = e.listener)) hx hlistener
  have hpos := List.length_pos_of_mem hx
  have hle := (List.erase_sublist (a := e) (l := entries)).length_le
  rw [consume, hlength]
  omega

theorem notMem_consume {e : Entry Fn} {entries : List (Entry Fn)} (h : entries.Nodup) :
    e ∉ consume e entries :=
  fun he => h.not_mem_erase (List.eraseP_sublist.subset he)

theorem mem_consume_of_ne {e x : Entry Fn} {entries : List (Entry Fn)} (hx : x ∈ entries)
    (hne : x.listener ≠ e.listener) : x ∈ consume e entries := by
  rw [consume, List.mem_eraseP_of_neg (by simpa using hne)]
  exact (List.mem_erase_of_ne fun heq => hne (congrArg Entry.listener heq)).mpr hx

/-- Where all registrations of the function are once-registrations, the persistent ones stay. -/
theorem filter_consume {e : Entry Fn} {entries : List (Entry Fn)} (honce : e.once = true)
    (h : ∀ x ∈ entries, x.listener = e.listener → x.once = true) :
    (consume e entries).filter (!·.once) = entries.filter (!·.once) := by
  have herase : ∀ l : List (Entry Fn), (l.erase e).filter (!·.once) = l.filter (!·.once) := by
    intro l
    induction l with
    | nil => rfl
    | cons x l ih =>
      by_cases hx : x = e
      · simp [hx, honce]
      · rw [List.erase_cons_tail (by simpa using hx), List.filter_cons, List.filter_cons, ih]
  have heraseP : ∀ l : List (Entry Fn), (∀ x ∈ l, x.listener = e.listener → x.once = true) →
      (l.eraseP (·.listener = e.listener)).filter (!·.once) = l.filter (!·.once) := by
    intro l hl
    induction l with
    | nil => rfl
    | cons x l ih =>
      rw [List.forall_mem_cons] at hl
      by_cases hx : x.listener = e.listener
      · simp [hx, hl.1 hx]
      · rw [List.eraseP_cons_of_neg (by simpa using hx), List.filter_cons, List.filter_cons,
          ih hl.2]
  rw [consume, heraseP _ fun x hx => h x (List.mem_of_mem_erase hx), herase]

/-! ## The course of a passive call -/

/-- A passive call of `emit`: the arrays, the part of its snapshot still to be called, and
the frames above its loop. -/
structure Course (Fn : Type) where
  lists : String → Nat → List (Entry Fn)
  above : List (Frame Fn)
  rest : List (Entry Fn)

/-- The arrays after the once-entry `e` of an array has been called. -/
def consumeAt (lists : String → Nat → List (Entry Fn)) (type : String) (n : Nat) (e : Entry Fn) :
    String → Nat → List (Entry Fn) :=
  fun t m => if t = type ∧ m = n then consume e (lists type n) else lists t m

/-- The notification that a wrapper's `off` sends. -/
def notice (events : String → Option Nat) (type : String) (e : Entry Fn)
    (entries : List (Entry Fn)) : List (Frame Fn) :=
  if repeats e entries ∧ (events "removeListener").isSome then
    [.emit "removeListener" (some (type, e.listener))]
  else []

/-- The steps of a passive call of `emit(type)` that goes through the array `n`. -/
inductive Course.Move (events : String → Option Nat) (type : String) (n : Nat) :
    Course Fn → Course Fn → Prop
  | leave {lists} {above} {rest} (e) :
      Move events type n ⟨lists, .listener e :: above, rest⟩ ⟨lists, above, rest⟩
  | unheard {lists} {above} {rest} (about)
      (h : ∀ i, events "removeListener" = some i → lists "removeListener" i = []) :
      Move events type n ⟨lists, .emit "removeListener" about :: above, rest⟩ ⟨lists, above, rest⟩
  | start {lists} {above} {rest} (about) (i) (h : events "removeListener" = some i) :
      Move events type n ⟨lists, .emit "removeListener" about :: above, rest⟩
        ⟨lists, .loop "removeListener" i (lists "removeListener" i) about :: above, rest⟩
  | done {lists} {above} {rest} (q) (i) (about) :
      Move events type n ⟨lists, .loop q i [] about :: above, rest⟩ ⟨lists, above, rest⟩
  | wrapper {lists} {above} {rest} (e) (about) :
      Move events type n ⟨lists, .wrapper e about :: above, rest⟩
        ⟨lists, .listener e :: above, rest⟩
  | innerPersistent {lists} {above} {rest} (q) (i) (e) (es) (about) (honce : e.once = false) :
      Move events type n ⟨lists, .loop q i (e :: es) about :: above, rest⟩
        ⟨lists, .listener e :: .loop q i es about :: above, rest⟩
  | innerOnce {lists} {above} {rest} (q) (i) (e) (es) (about) (honce : e.once = true) :
      Move events type n ⟨lists, .loop q i (e :: es) about :: above, rest⟩
        ⟨consumeAt lists q i e,
          notice events q e (lists q i) ++ .wrapper e about :: .loop q i es about :: above, rest⟩
  | persistent {lists} {rest} (e) (honce : e.once = false) :
      Move events type n ⟨lists, [], e :: rest⟩ ⟨lists, [.listener e], rest⟩
  | once {lists} {rest} (e) (honce : e.once = true) :
      Move events type n ⟨lists, [], e :: rest⟩
        ⟨consumeAt lists type n e, notice events type e (lists type n) ++ [.wrapper e none], rest⟩

/-- The frames that can stand above the loop of the call. -/
def Frame.Inner (s : State Fn) : Frame Fn → Prop
  | .listener _ | .wrapper _ _ => True
  | .emit q _ => q = "removeListener"
  | .loop q i rest _ =>
    q = "removeListener" ∧ s.events q = some i ∧ ∀ e ∈ rest, e ∈ s.lists q i
  | _ => False

/-- A course that began at `s`. -/
structure Course.Proper (s : State Fn) (type : String) (n : Nat) (c : Course Fn) : Prop where
  lists : ∀ q i, (c.lists q i).Sublist (s.lists q i)
  above : ∀ f ∈ c.above, f.Inner s
  rest : ∀ e ∈ c.rest, e ∈ s.lists type n
  /-- A once-entry that is still in the array is still to be called. -/
  once : ∀ e ∈ c.lists type n, e.once = true → e ∈ c.rest

/-- The state of the machine in the course of the call. -/
structure Course.Shows (s : State Fn) (type : String) (n : Nat) (c : Course Fn) (t : State Fn) :
    Prop where
  stack : t.stack = c.above ++ .loop type n c.rest none :: s.stack
  lists : t.lists = c.lists
  events : t.events = s.events

/-- The loop body on a once-entry of the array that its type has. -/
theorem visit_of_once {t : State Fn} {q : String} {i : Nat} {e : Entry Fn} (about : Notice Fn)
    (harray : t.events q = some i) (htype : e.type = q) (honce : e.once = true) :
    (t.visit q i e about).stack =
        notice t.events q e (t.lists q i) ++ .wrapper e about :: t.stack ∧
      (t.visit q i e about).lists = consumeAt t.lists q i e ∧
      (t.visit q i e about).events = t.events := by
  subst htype
  have hslot : ∀ l, (t.setList e.type i l).slot e.type = .array i :=
    fun _ => State.slot_eq_array.mpr harray
  have hrepeats : ((t.lists e.type i).erase e).any (some ·.listener = some e.listener) =
      repeats e (t.lists e.type i) := by
    simp only [Option.some.injEq, repeats]
  have hconsume : ((t.lists e.type i).erase e).eraseP (some ·.listener = some e.listener) =
      consume e (t.lists e.type i) := by
    simp only [Option.some.injEq, consume]
  have hdefined : ∀ l, ((t.setList e.type i l).slot "removeListener" ≠ .undefined) =
      ((t.events "removeListener").isSome = true) := by
    intro l
    rw [State.slot_removeListener, State.setList_events]
    cases t.events "removeListener" <;> simp
  rw [State.visit, if_pos honce, State.off, hslot]
  simp only [State.setList_lists, and_self, if_true, hrepeats, hconsume, hdefined]
  unfold notice
  by_cases hr : repeats e (t.lists e.type i) = true
  · have hlists : ∀ l, ((t.setList e.type i l).setList e.type i
        (consume e (t.lists e.type i))).lists = consumeAt t.lists e.type i e := by
      intro l
      funext q j
      rw [State.setList_lists, State.setList_lists, consumeAt]
      split <;> rfl
    rw [if_pos hr]
    by_cases hd : (t.events "removeListener").isSome = true
    · rw [if_pos hd, if_pos ⟨hr, hd⟩]
      exact ⟨rfl, hlists _, rfl⟩
    · rw [if_neg hd, if_neg fun h => hd h.2]
      exact ⟨rfl, hlists _, rfl⟩
  · rw [if_neg hr, if_neg fun h => hr h.1]
    refine ⟨rfl, ?_, rfl⟩
    funext q j
    rw [State.push_lists, State.setList_lists, consumeAt]
    split
    next =>
      -- nothing else has the function, so `off` leaves the array as it is
      rw [consume, List.eraseP_of_forall_not]
      intro x hx hlistener
      exact hr (List.any_eq_true.mpr ⟨x, hx, hlistener⟩)
    next => rfl

/-- A loop calls a once-entry of the array that its type has. -/
theorem idle_of_once {t : State Fn} {q : String} {i : Nat} {e : Entry Fn} {es : List (Entry Fn)}
    {about : Notice Fn} {below : List (Frame Fn)}
    (hstack : t.stack = .loop q i (e :: es) about :: below)
    (harray : t.events q = some i) (htype : e.type = q) (honce : e.once = true) :
    t.idle.stack = notice t.events q e (t.lists q i) ++
        .wrapper e about :: .loop q i es about :: below ∧
      t.idle.lists = consumeAt t.lists q i e ∧ t.idle.events = t.events := by
  have hidle : t.idle =
      (({ t with stack := below } : State Fn).push (.loop q i es about)).visit q i e about := by
    simp [State.idle, State.resume, hstack]
  rw [hidle]
  exact visit_of_once about harray htype honce

section Course

variable {s t : State Fn} {type : String} {n : Nat} {c c' : Course Fn}

theorem inheritedLength_removeListener : inheritedLength "removeListener" = none := by
  decide

/-- An inner frame goes on by one of the moves. -/
theorem Course.Shows.idle_inner (hhome : Homed s) {f : Frame Fn} {above : List (Frame Fn)}
    (hproper : c.Proper s type n) (hshows : c.Shows s type n t) (habove : c.above = f :: above) :
    ∃ c', Course.Move s.events type n c c' ∧ c'.Shows s type n t.idle := by
  obtain ⟨lists, above', rest⟩ := c
  obtain ⟨hstack, hlists, hevents⟩ := hshows
  obtain rfl : above' = f :: above := habove
  have hinner : f.Inner s := hproper.above f List.mem_cons_self
  dsimp only [List.cons_append] at hstack hlists
  cases f with
  | listener e =>
    refine ⟨_, .leave e, ?_, ?_, ?_⟩ <;> simp [State.idle, hstack, hlists, hevents]
  | wrapper e about =>
    refine ⟨_, .wrapper e about, ?_, ?_, ?_⟩ <;>
      simp [State.idle, State.resume, State.invoke, hstack, hlists, hevents]
  | emit q about =>
    obtain rfl : q = "removeListener" := hinner
    cases harray : s.events "removeListener" with
    | none =>
      refine ⟨_, .unheard about (by simp [harray]), ?_, ?_, ?_⟩ <;>
        simp [State.idle, State.resume, State.emit, State.slot, State.unheard,
          inheritedLength_removeListener, hstack, hlists, hevents, harray]
    | some i =>
      by_cases hempty : lists "removeListener" i = []
      · refine ⟨_, .unheard about (by simp [harray, hempty]), ?_, ?_, ?_⟩ <;>
          simp [State.idle, State.resume, State.emit, State.slot, State.unheard,
            hstack, hlists, hevents, harray, hempty]
      · refine ⟨_, .start about i harray, ?_, ?_, ?_⟩ <;>
          simp [State.idle, State.resume, State.emit, State.slot,
            hstack, hlists, hevents, harray, hempty]
  | loop q i es about =>
    cases es with
    | nil =>
      refine ⟨_, .done q i about, ?_, ?_, ?_⟩ <;>
        simp [State.idle, State.resume, hstack, hlists, hevents]
    | cons e es =>
      cases honce : e.once with
      | false =>
        refine ⟨_, .innerPersistent q i e es about honce, ?_, ?_, ?_⟩ <;>
          simp [State.idle, State.resume, State.visit, State.invoke, State.push,
            hstack, hlists, hevents, honce]
      | true =>
        obtain ⟨_, harray, hmem⟩ := hinner
        have htype := (hhome.lists q i e (hmem e List.mem_cons_self)).1
        obtain ⟨hstack', hlists', hevents'⟩ :=
          idle_of_once hstack (hevents ▸ harray) htype honce
        refine ⟨_, .innerOnce q i e es about honce, ?_, ?_, ?_⟩
        · rw [hstack', hlists, hevents]
          simp
        · rw [hlists', hlists]
        · rw [hevents', hevents]
  | register e prepend => exact hinner.elim
  | off => exact hinner.elim

/-- The loop of the call itself goes on by one of the moves, or ends. -/
theorem Course.Shows.idle_outer (hhome : Homed s) (harray : s.events type = some n)
    (hproper : c.Proper s type n) (hshows : c.Shows s type n t) (habove : c.above = []) :
    (∃ c', Course.Move s.events type n c c' ∧ c'.Shows s type n t.idle) ∨
      (c.rest = [] ∧ t.idle.stack = s.stack ∧ t.idle.lists = c.lists ∧
        t.idle.events = s.events) := by
  obtain ⟨lists, above, rest⟩ := c
  obtain ⟨hstack, hlists, hevents⟩ := hshows
  obtain rfl : above = [] := habove
  dsimp only [List.nil_append] at hstack hlists
  cases rest with
  | nil =>
    right
    refine ⟨rfl, ?_, ?_, ?_⟩ <;> simp [State.idle, State.resume, hstack, hlists, hevents]
  | cons e rest =>
    left
    cases honce : e.once with
    | false =>
      refine ⟨_, .persistent e honce, ?_, ?_, ?_⟩ <;>
        simp [State.idle, State.resume, State.visit, State.invoke, State.push,
          hstack, hlists, hevents, honce]
    | true =>
      have htype := (hhome.lists type n e (hproper.rest e List.mem_cons_self)).1
      obtain ⟨hstack', hlists', hevents'⟩ :=
        idle_of_once hstack (hevents ▸ harray) htype honce
      refine ⟨_, .once e honce, ?_, ?_, ?_⟩
      · rw [hstack', hlists, hevents]
        simp
      · rw [hlists', hlists]
      · rw [hevents', hevents]

omit [DecidableEq Fn] in
theorem Course.Proper.of_above {above above' : List (Frame Fn)}
    {lists : String → Nat → List (Entry Fn)} {rest : List (Entry Fn)}
    (h : (⟨lists, above, rest⟩ : Course Fn).Proper s type n) (habove : ∀ f ∈ above', f.Inner s) :
    (⟨lists, above', rest⟩ : Course Fn).Proper s type n :=
  ⟨h.lists, habove, h.rest, h.once⟩

theorem consumeAt_sublist (lists : String → Nat → List (Entry Fn)) (q : String) (i : Nat)
    (e : Entry Fn) (t : String) (m : Nat) : (consumeAt lists q i e t m).Sublist (lists t m) := by
  unfold consumeAt
  split
  next h =>
    obtain ⟨rfl, rfl⟩ := h
    exact consume_sublist e _
  next => exact .refl _

theorem consumeAt_self (lists : String → Nat → List (Entry Fn)) (q : String) (i : Nat)
    (e : Entry Fn) : consumeAt lists q i e q i = consume e (lists q i) :=
  if_pos ⟨rfl, rfl⟩

theorem notice_inner {q : String} {e : Entry Fn} {entries : List (Entry Fn)} :
    ∀ f ∈ notice s.events q e entries, f.Inner s := by
  unfold notice
  split <;> simp [Frame.Inner]

theorem Course.Proper.move (hnodup : ∀ q i, (s.lists q i).Nodup) (h : c.Proper s type n)
    (hmove : Course.Move s.events type n c c') : c'.Proper s type n := by
  cases hmove with
  | leave e => exact h.of_above (List.forall_mem_cons.mp h.above).2
  | unheard about => exact h.of_above (List.forall_mem_cons.mp h.above).2
  | done q i about => exact h.of_above (List.forall_mem_cons.mp h.above).2
  | start about i harray =>
    refine h.of_above (List.forall_mem_cons.mpr ⟨⟨rfl, harray, ?_⟩, ?_⟩)
    · exact fun e he => (h.lists "removeListener" i).subset he
    · exact (List.forall_mem_cons.mp h.above).2
  | wrapper e about =>
    exact h.of_above (List.forall_mem_cons.mpr ⟨trivial, (List.forall_mem_cons.mp h.above).2⟩)
  | innerPersistent q i e es about honce =>
    obtain ⟨⟨hq, harray, hmem⟩, habove⟩ := List.forall_mem_cons.mp h.above
    refine h.of_above (List.forall_mem_cons.mpr ⟨trivial, List.forall_mem_cons.mpr ⟨?_, habove⟩⟩)
    exact ⟨hq, harray, (List.forall_mem_cons.mp hmem).2⟩
  | innerOnce q i e es about honce =>
    obtain ⟨⟨hq, harray, hmem⟩, habove⟩ := List.forall_mem_cons.mp h.above
    refine ⟨fun q' i' => (consumeAt_sublist _ q i e q' i').trans (h.lists q' i'), ?_, h.rest, ?_⟩
    · refine List.forall_mem_append.mpr ⟨notice_inner, List.forall_mem_cons.mpr ⟨trivial, ?_⟩⟩
      exact List.forall_mem_cons.mpr ⟨⟨hq, harray, (List.forall_mem_cons.mp hmem).2⟩, habove⟩
    · intro x hx
      exact h.once x ((consumeAt_sublist _ q i e type n).subset hx)
  | persistent e honce =>
    refine ⟨h.lists, by simp [Frame.Inner], (List.forall_mem_cons.mp h.rest).2, ?_⟩
    intro x hx hx'
    refine List.mem_of_ne_of_mem ?_ (h.once x hx hx')
    rintro rfl
    exact absurd (honce.symm.trans hx') Bool.false_ne_true
  | once e honce =>
    refine ⟨fun q' i' => (consumeAt_sublist _ type n e q' i').trans (h.lists q' i'), ?_,
      (List.forall_mem_cons.mp h.rest).2, ?_⟩
    · exact List.forall_mem_append.mpr ⟨notice_inner, by simp [Frame.Inner]⟩
    · intro x hx hx'
      replace hx : x ∈ consumeAt _ type n e type n := hx
      rw [consumeAt_self] at hx
      refine List.mem_of_ne_of_mem ?_ (h.once x ((consume_sublist e _).subset hx) hx')
      rintro rfl
      exact notMem_consume ((h.lists type n).nodup (hnodup type n)) hx

/-! ## The call ends -/

/-- Steps that a frame can still cause before the next removal; `bound` is the number of
`removeListener` entries. -/
def Frame.effort (bound : Nat) : Frame Fn → Nat
  | .listener _ => 1
  | .wrapper _ _ => 2
  | .emit _ _ => 3 * bound + 2
  | .loop _ _ rest _ => 3 * rest.length + 1
  | _ => 0

/-- The array of the `removeListener` entries, if there is one. -/
def State.observers (s : State Fn) : Nat := (s.events "removeListener").getD 0

def State.bound (s : State Fn) : Nat := (s.lists "removeListener" s.observers).length

/-- A bound on the steps to the end of the call. -/
def Course.effort (s : State Fn) (type : String) (n : Nat) (c : Course Fn) : Nat :=
  (3 * s.bound + 2) * (c.lists type n).length +
    (3 * s.bound + 2) * (c.lists "removeListener" s.observers).length +
    (c.above.map (Frame.effort s.bound)).sum + 3 * c.rest.length

/-- A notification is paid for by the removal that it reports. -/
theorem notice_effort (events : String → Option Nat) (bound : Nat) (q : String) (e : Entry Fn)
    (entries : List (Entry Fn)) :
    ((notice events q e entries).map (Frame.effort bound)).sum +
      (3 * bound + 2) * (consume e entries).length ≤ (3 * bound + 2) * entries.length := by
  unfold notice
  split
  next h =>
    have hmul := Nat.mul_le_mul_left (3 * bound + 2) (Nat.succ_le_of_lt (consume_length_lt h.1))
    rw [Nat.mul_succ] at hmul
    simp only [List.map_cons, List.map_nil, List.sum_cons, List.sum_nil, Frame.effort]
    omega
  next =>
    rw [List.map_nil, List.sum_nil, Nat.zero_add]
    exact Nat.mul_le_mul_left _ (consume_sublist e entries).length_le

theorem Course.Move.effort_lt (hmove : Course.Move s.events type n c c')
    (h : c.Proper s type n) : c'.effort s type n < c.effort s type n := by
  have hshrink : ∀ (lists : String → Nat → List (Entry Fn)) (q : String) (i : Nat) (e : Entry Fn)
      (t : String) (m : Nat), (3 * s.bound + 2) * (consumeAt lists q i e t m).length ≤
        (3 * s.bound + 2) * (lists t m).length :=
    fun lists q i e t m => Nat.mul_le_mul_left _ (consumeAt_sublist lists q i e t m).length_le
  unfold Course.effort
  cases hmove with
  | leave e => simp [Frame.effort]
  | unheard about => simp [Frame.effort]
  | done q i about => simp [Frame.effort]
  | @start lists above rest about i harray =>
    have hi : s.observers = i := by rw [State.observers, harray, Option.getD_some]
    have hle : (lists "removeListener" i).length ≤ s.bound := by
      rw [State.bound, hi]
      exact (h.lists "removeListener" i).length_le
    simp only [List.map_cons, List.sum_cons, Frame.effort]
    omega
  | wrapper e about => simp [Frame.effort]
  | innerPersistent q i e es about honce =>
    simp only [List.map_cons, List.sum_cons, Frame.effort, List.length_cons]
    omega
  | @innerOnce lists above rest q i e es about honce =>
    -- the removal that a notification reports pays for the frames it adds
    obtain ⟨⟨rfl, harray, _⟩, _⟩ := List.forall_mem_cons.mp h.above
    have hi : s.observers = i := by rw [State.observers, harray, Option.getD_some]
    have hnotice := notice_effort s.events s.bound "removeListener" e (lists "removeListener" i)
    have htype := hshrink lists "removeListener" i e type n
    simp only [hi, consumeAt_self, List.map_append, List.sum_append, List.map_cons, List.sum_cons,
      Frame.effort, List.length_cons]
    omega
  | persistent e honce =>
    simp only [List.map_cons, List.map_nil, List.sum_cons, List.sum_nil, Frame.effort,
      List.length_cons]
    omega
  | @once lists rest e honce =>
    have hnotice := notice_effort s.events s.bound type e (lists type n)
    have hobservers := hshrink lists type n e "removeListener" s.observers
    simp only [consumeAt_self, List.map_append, List.sum_append, List.map_cons, List.map_nil,
      List.sum_cons, List.sum_nil, Frame.effort, List.length_cons]
    omega

/-- The machine comes from `t` to the end of the call, which is the end of the course. -/
structure Course.Ends (s : State Fn) (type : String) (n : Nat) (t : State Fn) (c : Course Fn)
    (s' : State Fn) : Prop extends c.Proper s type n where
  above_nil : c.above = []
  rest_nil : c.rest = []
  stack_eq : s'.stack = s.stack
  lists_eq : s'.lists = c.lists
  events_eq : s'.events = s.events
  settles : ∃ fuel, ∀ m, fuel ≤ m → State.settle s.stack.length m t = s'

/-- One step more at the beginning. -/
theorem State.settles_of_idle {height : Nat} {t s' : State Fn} (hheight : height < t.stack.length)
    (h : ∃ fuel, ∀ m, fuel ≤ m → State.settle height m t.idle = s') :
    ∃ fuel, ∀ m, fuel ≤ m → State.settle height m t = s' := by
  obtain ⟨fuel, hfuel⟩ := h
  refine ⟨fuel + 1, ?_⟩
  intro m hm
  obtain ⟨m, rfl⟩ : ∃ k, m = k + 1 := ⟨m - 1, by omega⟩
  rw [State.settle_succ hheight]
  exact hfuel m (by omega)

/-- A passive call comes to its end, with every invariant of its moves. -/
theorem Course.Shows.ends (hhome : Homed s) (hnodup : ∀ q i, (s.lists q i).Nodup)
    (harray : s.events type = some n) (inv : Course Fn → Prop)
    (hkeep : ∀ c c', c.Proper s type n → inv c → Course.Move s.events type n c c' → inv c')
    (hproper : c.Proper s type n) (hinv : inv c) (hshows : c.Shows s type n t) :
    ∃ c' s', Course.Ends s type n t c' s' ∧ inv c' := by
  -- each move lowers the effort that is left
  induction heffort : c.effort s type n using Nat.strong_induction_on generalizing c t with
  | _ effort ih =>
    have hheight : s.stack.length < t.stack.length := by
      rw [hshows.stack, List.length_append, List.length_cons]
      omega
    have hnext : ∀ {c' : Course Fn}, Course.Move s.events type n c c' →
        c'.Shows s type n t.idle → ∃ c' s', Course.Ends s type n t c' s' ∧ inv c' := by
      intro c' hmove hshows'
      obtain ⟨last, s', hends, hinv'⟩ :=
        ih _ (heffort ▸ hmove.effort_lt hproper) (hproper.move hnodup hmove)
          (hkeep c c' hproper hinv hmove) hshows' rfl
      exact ⟨last, s', { hends with settles := State.settles_of_idle hheight hends.settles }, hinv'⟩
    cases habove : c.above with
    | cons f above =>
      obtain ⟨c', hmove, hshows'⟩ := hshows.idle_inner hhome hproper habove
      exact hnext hmove hshows'
    | nil =>
      obtain ⟨c', hmove, hshows'⟩ | ⟨hrest, hstack, hlists, hevents⟩ :=
        hshows.idle_outer hhome harray hproper habove
      · exact hnext hmove hshows'
      · have hlast : ∃ fuel, ∀ m, fuel ≤ m → State.settle s.stack.length m t.idle = t.idle :=
          ⟨0, fun m _ => State.settle_of_le (by rw [hstack]) m⟩
        exact ⟨c, t.idle, ⟨hproper, habove, hrest, hstack, hlists, hevents,
          State.settles_of_idle hheight hlast⟩, hinv⟩

end Course

end Events
