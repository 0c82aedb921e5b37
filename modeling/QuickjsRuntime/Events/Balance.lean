import QuickjsRuntime.Events.Consumption

/-! # Notifications and the number of listeners

An emitter has one `newListener` and one `removeListener` observer, which leave it alone. For
one event type, a registration is first announced and then made, and a removal is first made
and then announced; between the two the counts differ by one. The phases of a run say where
this is the case. The calls that change the number of listeners without a notification
are `prependOnceListener`, `removeAllListeners(type)` and an `emit` that consumes once-entries.
-/

namespace Events

variable {Fn : Type} [DecidableEq Fn] {s s' : State Fn} {l : Label Fn} {t q : String}

/-- A type that has no notification of its own. -/
def Ordinary (q : String) : Prop := q ≠ "newListener" ∧ q ≠ "removeListener"

instance : Decidable (Ordinary q) := inferInstanceAs (Decidable (_ ∧ _))

/-- The call leaves the observers registered, and it is not a notification of the script. -/
def Op.Ordinary : Op Fn → Prop
  | .on q _ | .prependListener q _ | .once q _ | .prependOnceListener q _ | .off q _ | .emit q
  | .removeAllListeners (some q) => Events.Ordinary q
  | .removeAllListeners none => False
  | .listenerCount _ => True

/-- How often observers of `q` have been called about `t`. -/
def State.notified (s : State Fn) (q t : String) : Nat :=
  s.calls.countP fun c => c.entry.type = q ∧ c.about.any (·.1 = t)

def newObserver (f : Fn) : Entry Fn := ⟨0, "newListener", some 0, f, false⟩

def removeObserver (g : Fn) : Entry Fn := ⟨1, "removeListener", some 1, g, false⟩

/-- A new emitter on which the two observers are registered. -/
def State.observed (f g : Fn) : State Fn :=
  ((State.fresh.call (.on "newListener" (some f))).idle.call (.on "removeListener" (some g))).idle

/-- The listener that is in control. -/
def State.running (s : State Fn) : Option (Entry Fn) :=
  match s.stack with
  | .listener e :: _ => some e
  | _ => none

/-- The entry of `t` that a loop is about to call. -/
def State.visiting (s : State Fn) (t : String) : Option (Entry Fn) :=
  match s.stack with
  | .loop q _ (e :: _) _ :: _ => if q = t then some e else none
  | _ => none

/-- The type that a `newListener` observer in control is told of. -/
def State.hearing (s : State Fn) : Option String :=
  match s.stack with
  | .listener _ :: .loop "newListener" _ _ (some (q, _)) :: _ => some q
  | _ => none

namespace Label

def op? : Label Fn → Option (Op Fn)
  | .call op => some op
  | _ => none

/-- The type that gets a listener without a notification. -/
def prependsOnce : Label Fn → Option String
  | .call (.prependOnceListener q (some _)) => some q
  | _ => none

/-- The type whose array is dropped. -/
def clears : Label Fn → Option String
  | .call (.removeAllListeners (some q)) => some q
  | _ => none

end Label

/-- The observers stay and do not touch the emitter. -/
def Observed (s : State Fn) (l : Label Fn) : Prop :=
  ∀ op ∈ l.op?, op.Ordinary ∧ ∀ e ∈ s.running, Ordinary e.type

/-- The step changes the listeners of `t` only where the observers are told. -/
structure Tells (t : String) (s : State Fn) (l : Label Fn) : Prop where
  /-- No `newListener` observer throws when it is told of `t`. -/
  announced : l = .throw → s.hearing ≠ some t
  prepended : l.prependsOnce ≠ some t
  cleared : l.clears = some t → s.registrations t = []
  /-- No loop takes a once-entry out of the array. -/
  consumed : ∀ e ∈ s.visiting t, e.once = true → e ∉ s.registrations t

instance (op : Op Fn) : Decidable op.Ordinary :=
  match op with
  | .on _ _ | .prependListener _ _ | .once _ _ | .prependOnceListener _ _ | .off _ _ | .emit _
  | .removeAllListeners (some _) => inferInstanceAs (Decidable (Events.Ordinary _))
  | .removeAllListeners none => .isFalse id
  | .listenerCount _ => .isTrue trivial

instance : Decidable (Observed s l) :=
  inferInstanceAs (Decidable (∀ op ∈ l.op?, op.Ordinary ∧ ∀ e ∈ s.running, Ordinary e.type))

instance : Decidable (Tells t s l) :=
  decidable_of_iff ((l = .throw → s.hearing ≠ some t) ∧ l.prependsOnce ≠ some t ∧
      (l.clears = some t → s.registrations t = []) ∧
      ∀ e ∈ s.visiting t, e.once = true → e ∉ s.registrations t)
    ⟨fun ⟨h₁, h₂, h₃, h₄⟩ => ⟨h₁, h₂, h₃, h₄⟩, fun h => ⟨h.1, h.2, h.3, h.4⟩⟩

/-- A call of the script is over, or a listener other than the observers has just been entered. -/
def State.BetweenCalls (s : State Fn) : Prop :=
  s.inScript = true ∧ ∀ e ∈ s.running, Ordinary e.type

/-- There are `surplus` more announced registrations than listeners. -/
def Balance (t : String) (surplus : Nat) (s : State Fn) : Prop :=
  s.notified "newListener" t = s.notified "removeListener" t + (s.registrations t).length + surplus

/-! ## The phases of a run -/

/-- The script is in control, at the top level or in a listener of an ordinary type. -/
inductive Script : List (Frame Fn) → Prop
  | top : Script []
  | listener {below : List (Frame Fn)} (e : Entry Fn) (q : String) (n : Nat)
      (rest : List (Entry Fn)) (he : Ordinary e.type) (hq : Ordinary q) (hbelow : Script below) :
      Script (.listener e :: .loop q n rest none :: below)

/-- The emitter is in a call of `off`, of the script or of a wrapper. -/
inductive Removing : List (Frame Fn) → Prop
  | off {below : List (Frame Fn)} (hbelow : Script below) : Removing (.off :: below)
  | wrapper {below : List (Frame Fn)} (e : Entry Fn) (q : String) (n : Nat)
      (rest : List (Entry Fn)) (he : Ordinary e.type) (hq : Ordinary q)
      (hbelow : Script below) : Removing (.wrapper e none :: .loop q n rest none :: below)

/-- One if the types are the same. -/
def same (q t : String) : Nat := if q = t then 1 else 0

/-- Where a run can be, and by how much the announcements are then ahead. -/
inductive Phase (f g : Fn) (t : String) (s : State Fn) : Prop
  | script (hstack : Script s.stack) (h : Balance t 0 s)
  | emit (q : String) (below : List (Frame Fn)) (hq : Ordinary q) (hbelow : Script below)
      (hstack : s.stack = .emit q none :: below) (h : Balance t 0 s)
  | loop (q : String) (n : Nat) (rest : List (Entry Fn)) (below : List (Frame Fn))
      (hq : Ordinary q) (hbelow : Script below)
      (hstack : s.stack = .loop q n rest none :: below) (h : Balance t 0 s)
  | removing (hstack : Removing s.stack) (h : Balance t 0 s)
  | register (e : Entry Fn) (prepend : Bool) (below : List (Frame Fn)) (he : Ordinary e.type)
      (hlist : e.type = t → ∃ n, e.list = some n ∧ s.events t = some n) (hbelow : Script below)
      (hstack : s.stack = .register e prepend :: below) (h : Balance t (same e.type t) s)
  | announce (x : Fn) (e : Entry Fn) (prepend : Bool) (below : List (Frame Fn))
      (he : Ordinary e.type) (hlist : e.type = t → ∃ n, e.list = some n ∧ s.events t = some n)
      (hbelow : Script below)
      (hstack : s.stack = .emit "newListener" (some (e.type, x)) :: .register e prepend :: below)
      (h : Balance t 0 s)
  | announcing (x : Fn) (e : Entry Fn) (prepend : Bool) (below : List (Frame Fn))
      (he : Ordinary e.type) (hlist : e.type = t → ∃ n, e.list = some n ∧ s.events t = some n)
      (hbelow : Script below)
      (hstack : s.stack = .loop "newListener" 0 [newObserver f] (some (e.type, x)) ::
        .register e prepend :: below) (h : Balance t 0 s)
  | newObserver (x : Fn) (e : Entry Fn) (prepend : Bool) (below : List (Frame Fn))
      (he : Ordinary e.type) (hlist : e.type = t → ∃ n, e.list = some n ∧ s.events t = some n)
      (hbelow : Script below)
      (hstack : s.stack = .listener (newObserver f) ::
        .loop "newListener" 0 [] (some (e.type, x)) :: .register e prepend :: below)
      (h : Balance t (same e.type t) s)
  | announced (x : Fn) (e : Entry Fn) (prepend : Bool) (below : List (Frame Fn))
      (he : Ordinary e.type) (hlist : e.type = t → ∃ n, e.list = some n ∧ s.events t = some n)
      (hbelow : Script below)
      (hstack : s.stack = .loop "newListener" 0 [] (some (e.type, x)) ::
        .register e prepend :: below) (h : Balance t (same e.type t) s)
  | notify (q : String) (x : Fn) (below : List (Frame Fn)) (hbelow : Removing below)
      (hstack : s.stack = .emit "removeListener" (some (q, x)) :: below)
      (h : Balance t (same q t) s)
  | notifying (q : String) (x : Fn) (below : List (Frame Fn)) (hbelow : Removing below)
      (hstack : s.stack = .loop "removeListener" 1 [removeObserver g] (some (q, x)) :: below)
      (h : Balance t (same q t) s)
  | removeObserver (about : Notice Fn) (below : List (Frame Fn)) (hbelow : Removing below)
      (hstack : s.stack = .listener (removeObserver g) ::
        .loop "removeListener" 1 [] about :: below) (h : Balance t 0 s)
  | notified (about : Notice Fn) (below : List (Frame Fn)) (hbelow : Removing below)
      (hstack : s.stack = .loop "removeListener" 1 [] about :: below) (h : Balance t 0 s)

/-- The two observers are registered. -/
structure Watched (f g : Fn) (s : State Fn) : Prop where
  newArray : s.events "newListener" = some 0
  newList : s.lists "newListener" 0 = [newObserver f]
  removeArray : s.events "removeListener" = some 1
  removeList : s.lists "removeListener" 1 = [removeObserver g]

/-- The invariant of an observed run. -/
structure Tracked (f g : Fn) (t : String) (s : State Fn) : Prop extends Watched f g s where
  phase : Phase f g t s

/-! ## Lookups after a change -/

section

omit [DecidableEq Fn]

theorem registrations_congr (hevents : s'.events t = s.events t)
    (hlists : ∀ n, s'.lists t n = s.lists t n) : s'.registrations t = s.registrations t := by
  rw [State.registrations, State.registrations, hevents]
  cases s.events t with
  | none => rfl
  | some n => exact hlists n

theorem registrations_setList_of_ne (n : Nat) (entries : List (Entry Fn)) (h : t ≠ q) :
    (s.setList q n entries).registrations t = s.registrations t :=
  registrations_congr rfl fun _ => if_neg fun heq => h heq.1

theorem registrations_setList {n : Nat} (entries : List (Entry Fn)) (h : s.events q = some n) :
    (s.setList q n entries).registrations q = entries := by
  rw [State.registrations, State.setList_events, h]
  exact if_pos ⟨rfl, rfl⟩

theorem Balance.congr {k : Nat} (h : Balance t k s) (hcalls : s'.calls = s.calls)
    (hregistrations : s'.registrations t = s.registrations t) : Balance t k s' := by
  rw [Balance, State.notified, State.notified, hcalls, hregistrations]
  exact h

/-- A change of the stack alone. -/
theorem Balance.of_same {k : Nat} (h : Balance t k s) (hcalls : s'.calls = s.calls)
    (hevents : s'.events = s.events) (hlists : s'.lists = s.lists) : Balance t k s' :=
  h.congr hcalls (registrations_congr (by rw [hevents]) fun _ => by rw [hlists])

end

section Watched

variable {f g : Fn}

section

omit [DecidableEq Fn]

theorem Watched.congr (h : Watched f g s)
    (hevents : ∀ q, ¬ Ordinary q → s'.events q = s.events q)
    (hlists : ∀ q n, ¬ Ordinary q → s'.lists q n = s.lists q n) : Watched f g s' := by
  have hnew : ¬ Ordinary "newListener" := by decide
  have hremove : ¬ Ordinary "removeListener" := by decide
  constructor
  · rw [hevents _ hnew]
    exact h.newArray
  · rw [hlists _ _ hnew]
    exact h.newList
  · rw [hevents _ hremove]
    exact h.removeArray
  · rw [hlists _ _ hremove]
    exact h.removeList

theorem Watched.of_same (h : Watched f g s) (hevents : s'.events = s.events)
    (hlists : s'.lists = s.lists) : Watched f g s' :=
  h.congr (fun _ _ => by rw [hevents]) fun _ _ _ => by rw [hlists]

theorem Watched.setList (h : Watched f g s) (hq : Ordinary q) (n : Nat)
    (entries : List (Entry Fn)) : Watched f g (s.setList q n entries) := by
  refine h.congr (fun _ _ => rfl) fun q' n' hnot => ?_
  rw [State.setList_lists, if_neg]
  rintro ⟨rfl, -⟩
  exact hnot hq

end

end Watched

omit [DecidableEq Fn] in
theorem Script.dropWhile {stack : List (Frame Fn)} (h : Script stack) :
    stack.dropWhile (!·.isScript) = stack := by
  cases h <;> rfl

omit [DecidableEq Fn] in
theorem Removing.dropWhile {stack : List (Frame Fn)} (h : Removing stack) :
    Script (stack.dropWhile (!·.isScript)) := by
  cases h with
  | off hbelow => exact hbelow.dropWhile.symm ▸ hbelow
  | wrapper e q n rest he hq hbelow => exact hbelow.dropWhile.symm ▸ hbelow

/-! ## The pieces of code -/

omit [DecidableEq Fn] in
/-- What a registering call leaves on the stack. -/
theorem enroll_spec (hallocated : Allocated s) (q : String) (x : Fn) (once prepend : Bool) :
    ∃ e : Entry Fn, e.type = q ∧
      (inheritedLength q = none →
        ∃ n, e.list = some n ∧ (s.enroll q x once prepend).events q = some n) ∧
      (s.enroll q x once prepend).stack = .register e prepend :: s.stack ∧
      (s.enroll q x once prepend).lists = s.lists ∧
      (s.enroll q x once prepend).calls = s.calls ∧
      (∀ q', q' ≠ q → (s.enroll q x once prepend).events q' = s.events q') ∧
      ∀ q', (s.enroll q x once prepend).registrations q' = s.registrations q' := by
  unfold State.enroll State.listFor
  cases hslot : s.slot q with
  | array n => exact ⟨_, rfl, fun _ => ⟨n, rfl, State.slot_eq_array.mp hslot⟩, rfl, rfl, rfl,
      fun _ _ => rfl, fun _ => rfl⟩
  | inherited length =>
    refine ⟨_, rfl, fun hinherited => ?_, rfl, rfl, rfl, fun _ _ => rfl, fun _ => rfl⟩
    unfold State.slot at hslot
    split at hslot
    next => cases hslot
    next => rw [hinherited] at hslot; cases hslot
  | undefined =>
    have hnone : s.events q = none := by
      unfold State.slot at hslot
      split at hslot
      next => cases hslot
      next h => exact h
    dsimp only
    refine ⟨_, rfl, fun _ => ⟨_, rfl, by simp⟩, rfl, rfl, rfl,
      fun q' hq' => Function.update_of_ne hq' _ _, fun q' => ?_⟩
    by_cases hq' : q' = q
    · subst hq'
      rw [State.registrations, State.registrations, hnone]
      simp only [State.push_events, Function.update_self]
      exact hallocated.lists q' _ (Nat.le_refl _)
    · exact registrations_congr (Function.update_of_ne hq' _ _) fun _ => rfl

/-- What `off` can do where there is a `removeListener` array. -/
theorem off_spec {i : Nat} (hobservers : s.events "removeListener" = some i) (q : String)
    (listener : Option Fn) (next : Frame Fn) :
    s.off q listener next = s.raise ∨ s.off q listener next = s.push next ∨
      ∃ (x : Fn) (n : Nat) (entries : List (Entry Fn)), s.events q = some n ∧
        (s.lists q n).length = entries.length + 1 ∧
        s.off q listener next = ((s.setList q n entries).push next).push
          (.emit "removeListener" (some (q, x))) := by
  unfold State.off
  split
  next n hslot =>
    split
    next hany =>
      obtain ⟨e, he, hlistener⟩ := List.any_eq_true.mp hany
      have hpos := List.length_pos_of_mem he
      have hlength := List.length_eraseP_of_mem (p := (some ·.listener = listener)) he hlistener
      cases listener with
      | none => simp at hlistener
      | some x =>
        refine .inr (.inr ⟨x, n, (s.lists q n).eraseP (some ·.listener = some x),
          State.slot_eq_array.mp hslot, ?_, ?_⟩)
        · omega
        · dsimp only
          rw [if_pos (by rw [State.slot_removeListener, hobservers]; simp)]
    next => exact .inr (.inl rfl)
  next => exact .inl rfl
  next => exact .inr (.inl rfl)

section Phases

variable {f g : Fn}

omit [DecidableEq Fn] in
/-- The script's call is over; it has changed nothing that counts. -/
theorem Tracked.back {below : List (Frame Fn)} (hwatched : Watched f g s) (hbelow : Script below)
    (h : Balance t 0 s) (hstack : s'.stack = below) (hevents : s'.events = s.events)
    (hlists : s'.lists = s.lists) (hcalls : s'.calls = s.calls) :
    Tracked f g t s' :=
  ⟨hwatched.of_same hevents hlists, .script (hstack ▸ hbelow) (h.of_same hcalls hevents hlists)⟩

omit [DecidableEq Fn] in
theorem Tracked.finish {below : List (Frame Fn)} (hwatched : Watched f g s)
    (hbelow : Script below) (h : Balance t 0 s) (answer : Answer) :
    Tracked f g t (({ s with stack := below } : State Fn).finish answer) := by
  rw [State.finish_eq]
  exact .back hwatched hbelow h rfl rfl rfl rfl

/-- A call of `off`, which the frame `next` continues. -/
theorem Tracked.off {listener : Option Fn} {next : Frame Fn} {below : List (Frame Fn)}
    (hwatched : Watched f g s) (h : Balance t 0 s) (hq : Ordinary q)
    (hnext : Removing (next :: s.stack)) (hdrop : s.stack.dropWhile (!·.isScript) = below)
    (hbelow : Script below) : Tracked f g t (s.off q listener next) := by
  obtain heq | heq | ⟨x, n, entries, harray, hlength, heq⟩ :=
    off_spec hwatched.removeArray q listener next
  · rw [heq]
    exact .back hwatched hbelow h hdrop rfl rfl rfl
  · rw [heq]
    exact ⟨hwatched.of_same rfl rfl, .removing hnext (h.of_same rfl rfl rfl)⟩
  · rw [heq]
    refine ⟨(hwatched.setList hq n entries).of_same rfl rfl, .notify q x _ hnext rfl ?_⟩
    by_cases hqt : q = t
    · subst hqt
      rw [Balance, registrations_eq harray] at h
      have hleft : ((((s.setList q n entries).push next).push
          (.emit "removeListener" (some (q, x)))).registrations q) = entries :=
        registrations_setList entries harray
      rw [Balance, hleft, same, if_pos rfl]
      simp only [State.notified, State.push_calls, State.setList_calls] at h ⊢
      omega
    · rw [same, if_neg hqt]
      exact h.congr rfl (registrations_setList_of_ne (s := s) n entries (Ne.symm hqt))

section

omit [DecidableEq Fn]

theorem Watched.enroll (h : Watched f g s) (hallocated : Allocated s) (hq : Ordinary q) (x : Fn)
    (once prepend : Bool) : Watched f g (s.enroll q x once prepend) := by
  obtain ⟨e, -, -, -, hlists, -, hevents, -⟩ := enroll_spec hallocated q x once prepend
  refine h.congr (fun q' hq' => hevents q' ?_) fun _ _ _ => by rw [hlists]
  rintro rfl
  exact hq' hq

theorem Watched.hasListeners (h : Watched f g s) : s.hasListeners "newListener" = true := by
  rw [State.hasListeners, State.slot_eq_array.mpr h.newArray]
  simp [h.newList]

/-- A registering call that tells the observers. -/
theorem Tracked.announce (hinherited : inheritedLength t = none) (hwatched : Watched f g s)
    (hallocated : Allocated s) (hscript : Script s.stack) (h : Balance t 0 s) (hq : Ordinary q)
    (x : Fn) (once prepend : Bool) (test : State Fn → Bool)
    (htest : test (s.enroll q x once prepend) = true) :
    Tracked f g t ((s.enroll q x once prepend).announce q x test) := by
  have henrolled := hwatched.enroll hallocated hq x once prepend
  obtain ⟨e, rfl, hlist, hstack, hlists, hcalls, hevents, hregistrations⟩ :=
    enroll_spec hallocated q x once prepend
  rw [State.announce, if_pos ⟨hq.1, hq.2, htest⟩]
  refine ⟨henrolled.of_same rfl rfl, .announce x e prepend s.stack hq ?_ hscript ?_ ?_⟩
  · rintro rfl
    exact hlist hinherited
  · rw [State.push_stack, hstack]
  · exact h.congr hcalls (hregistrations t)

end

theorem Tracked.call (hinherited : inheritedLength t = none) (hwatched : Watched f g s)
    (hallocated : Allocated s) (hscript : Script s.stack) (h : Balance t 0 s) {op : Op Fn}
    (hop : op.Ordinary) (hprepended : ∀ x, op ≠ .prependOnceListener t (some x))
    (hcleared : op = .removeAllListeners (some t) → s.registrations t = []) :
    Tracked f g t (s.call op) := by
  have hraise : Tracked f g t s.raise :=
    .back hwatched hscript h hscript.dropWhile rfl rfl rfl
  cases op with
  | on q listener | prependListener q listener =>
    cases listener with
    | none => exact hraise
    | some x =>
      exact .announce hinherited hwatched hallocated hscript h hop x false _
        (·.hasListeners "newListener") (hwatched.enroll hallocated hop x false _).hasListeners
  | once q listener =>
    cases listener with
    | none => exact hraise
    | some x =>
      refine .announce hinherited hwatched hallocated hscript h hop x true false
        (·.slot "newListener" ≠ .undefined) ?_
      rw [State.slot_eq_array.mpr (hwatched.enroll hallocated hop x true false).newArray]
      simp
  | prependOnceListener q listener =>
    cases listener with
    | none => exact hraise
    | some x =>
      obtain ⟨e, rfl, hlist, hstack, hlists, hcalls, hevents, hregistrations⟩ :=
        enroll_spec hallocated q x true true
      have hne : e.type ≠ t := by
        rintro rfl
        exact hprepended x rfl
      refine ⟨hwatched.enroll hallocated hop x true true, .register e true s.stack hop
        (fun heq => absurd heq hne) hscript hstack ?_⟩
      rw [same, if_neg hne]
      exact h.congr hcalls (hregistrations t)
  | off q listener => exact .off hwatched h hop (.off hscript) hscript.dropWhile hscript
  | removeAllListeners type =>
    cases type with
    | none => exact hop.elim
    | some q =>
      refine ⟨hwatched.congr (fun q' hq' => ?_) fun _ _ _ => by
        simp [State.call, State.removeAllListeners], .script ?_ ?_⟩
      · have hne : q' ≠ q := by
          rintro rfl
          exact hq' hop
        simp [State.call, State.removeAllListeners, hne]
      · simpa [State.call, State.removeAllListeners] using hscript
      · refine h.congr (by simp [State.call, State.removeAllListeners]) ?_
        by_cases hq : t = q
        · rw [hcleared (by rw [hq])]
          simp [State.registrations, State.call, State.removeAllListeners, hq]
        · exact registrations_congr
            (by simp [State.call, State.removeAllListeners, hq])
            fun _ => by simp [State.call, State.removeAllListeners]
  | emit q =>
    exact ⟨hwatched.of_same rfl rfl, .emit q s.stack hop hscript rfl (h.of_same rfl rfl rfl)⟩
  | listenerCount q => exact .finish hwatched hscript h _

section

omit [DecidableEq Fn]

theorem notified_cons {e : Entry Fn} {about : Notice Fn}
    (hcalls : s'.calls = ⟨e, about⟩ :: s.calls) (q t : String) :
    s'.notified q t =
      s.notified q t + if e.type = q ∧ about.any (·.1 = t) = true then 1 else 0 := by
  rw [State.notified, hcalls, List.countP_cons]
  simp [State.notified]

/-- A listener is called that is not told of anything. -/
theorem Balance.untold {k : Nat} {e : Entry Fn} (h : Balance t k s)
    (hcalls : s'.calls = ⟨e, none⟩ :: s.calls)
    (hregistrations : s'.registrations t = s.registrations t) : Balance t k s' := by
  rw [Balance, notified_cons hcalls, notified_cons hcalls, hregistrations]
  simpa [Balance] using h

theorem Balance.announced {x : Fn} (h : Balance t 0 s)
    (hcalls : s'.calls = ⟨newObserver f, some (q, x)⟩ :: s.calls)
    (hregistrations : s'.registrations t = s.registrations t) : Balance t (same q t) s' := by
  unfold Balance at h ⊢
  rw [notified_cons hcalls, notified_cons hcalls, hregistrations, same]
  simp only [newObserver, Option.any_some, decide_eq_true_eq, true_and]
  rw [if_neg (by simp : ¬ ("newListener" = "removeListener" ∧ q = t))]
  omega

theorem Balance.reported {x : Fn} (h : Balance t (same q t) s)
    (hcalls : s'.calls = ⟨removeObserver g, some (q, x)⟩ :: s.calls)
    (hregistrations : s'.registrations t = s.registrations t) : Balance t 0 s' := by
  unfold Balance at h ⊢
  rw [same] at h
  rw [notified_cons hcalls, notified_cons hcalls, hregistrations]
  simp only [removeObserver, Option.any_some, decide_eq_true_eq, true_and]
  rw [if_neg (by simp : ¬ ("removeListener" = "newListener" ∧ q = t))]
  omega

end

/-- Taking an entry out of an array of its type, where it is not a registration. -/
theorem registrations_erase {n : Nat} {e : Entry Fn}
    (h : q = t → e ∉ s.registrations t) :
    (s.setList q n ((s.lists q n).erase e)).registrations t = s.registrations t := by
  by_cases hq : q = t
  · subst hq
    have he := h rfl
    unfold State.registrations at he ⊢
    rw [State.setList_events]
    cases hm : s.events q with
    | none => rfl
    | some m =>
      rw [hm] at he
      dsimp only at he ⊢
      rw [State.setList_lists]
      split
      next heq => rw [← heq.2, List.erase_of_not_mem he]
      next => rfl
  · exact registrations_setList_of_ne n _ (Ne.symm hq)

/-- The loop calls an entry of an ordinary type. -/
theorem Tracked.visit {n : Nat} {e : Entry Fn} {rest : List (Entry Fn)} {below : List (Frame Fn)}
    (hwatched : Watched f g s) (h : Balance t 0 s) (hq : Ordinary q) (htype : e.type = q)
    (hconsumed : q = t → e.once = true → e ∉ s.registrations t) (hbelow : Script below) :
    Tracked f g t ((({ s with stack := below } : State Fn).push (.loop q n rest none)).visit q n e
      none) := by
  subst htype
  unfold State.visit
  split
  next honce =>
    set start := (({ s with stack := below } : State Fn).push (.loop e.type n rest none)).setList
      e.type n ((s.lists e.type n).erase e) with hstart
    have hstartWatched : Watched f g start :=
      (hwatched.setList hq n ((s.lists e.type n).erase e)).of_same rfl rfl
    have hstartBalance : Balance t 0 start :=
      h.congr rfl (registrations_erase (s := s) fun heq => hconsumed heq honce)
    rw [State.push_lists, ← hstart]
    exact .off hstartWatched hstartBalance hq (.wrapper e e.type n rest hq hq hbelow)
      hbelow.dropWhile hbelow
  next =>
    exact ⟨hwatched.of_same rfl rfl, .script (.listener e e.type n rest hq hq hbelow)
      (h.untold rfl rfl)⟩

omit [DecidableEq Fn] in
/-- The registration is made that was announced. -/
theorem Tracked.add {e : Entry Fn} {prepend : Bool} {below : List (Frame Fn)}
    (hwatched : Watched f g s) (he : Ordinary e.type)
    (hlist : e.type = t → ∃ n, e.list = some n ∧ s.events t = some n) (hbelow : Script below)
    (h : Balance t (same e.type t) s) :
    Tracked f g t (({ s with stack := below } : State Fn).add e prepend) := by
  unfold State.add
  split
  next n hn =>
    rw [State.finish_eq]
    dsimp only
    set entries := if prepend then e :: s.lists e.type n else s.lists e.type n ++ [e] with hentries
    refine ⟨(hwatched.setList he n entries).of_same rfl rfl, .script hbelow ?_⟩
    by_cases heq : e.type = t
    · -- the announced registration is made in the array of `t`
      obtain ⟨m, hm, harray⟩ := hlist heq
      obtain rfl : n = m := Option.some.inj (hn.symm.trans hm)
      subst heq
      rw [Balance, registrations_eq harray, same, if_pos rfl] at h
      have hlength : entries.length = (s.lists e.type n).length + 1 := by
        rw [hentries]
        cases prepend <;> simp
      have hbalance : Balance e.type 0 (s.setList e.type n entries) := by
        rw [Balance, registrations_setList entries harray, hlength]
        simp only [State.notified, State.setList_calls] at h ⊢
        omega
      exact hbalance.of_same rfl rfl rfl
    · rw [same, if_neg heq] at h
      exact h.congr rfl (registrations_setList_of_ne (s := s) n entries (Ne.symm heq))
  next hn =>
    have hne : e.type ≠ t := by
      intro heq
      obtain ⟨m, hm, -⟩ := hlist heq
      cases hn.symm.trans hm
    rw [same, if_neg hne] at h
    exact .back hwatched hbelow h hbelow.dropWhile rfl rfl rfl

omit [DecidableEq Fn] in
/-- `emit` of an ordinary type enters its loop, or ends. -/
theorem Tracked.emit {below : List (Frame Fn)} (hwatched : Watched f g s) (h : Balance t 0 s)
    (hq : Ordinary q) (hbelow : Script below) :
    Tracked f g t (({ s with stack := below } : State Fn).emit q none) := by
  have hraise : Tracked f g t (({ s with stack := below } : State Fn).raise) :=
    .back hwatched hbelow h hbelow.dropWhile rfl rfl rfl
  have hunheard : Tracked f g t (({ s with stack := below } : State Fn).unheard q) := by
    unfold State.unheard
    split
    next => exact hraise
    next => exact .finish hwatched hbelow h _
  unfold State.emit
  split
  next n _ =>
    split
    next => exact hunheard
    next => exact ⟨hwatched.of_same rfl rfl, .loop q n (s.lists q n) below hq hbelow rfl
        (h.of_same rfl rfl rfl)⟩
  next => exact hraise
  next => exact hunheard

theorem Tracked.step (hinherited : inheritedLength t = none) (hhome : Homed s)
    (hallocated : Allocated s) (hobserved : Observed s l) (htells : Tells t s l)
    (h : Tracked f g t s) (hstep : s.step l = some s') : Tracked f g t s' := by
  obtain ⟨hwatched, hphase⟩ := h
  have hcall : ∀ op, l = .call op → Script s.stack → Balance t 0 s →
      Tracked f g t (s.call op) := by
    rintro op rfl hscript hbalance
    refine .call hinherited hwatched hallocated hscript hbalance (hobserved op rfl).1 ?_ ?_
    · rintro x rfl
      exact htells.prepended rfl
    · rintro rfl
      exact htells.cleared rfl
  have hpassive : ∀ {e : Entry Fn} {below : List (Frame Fn)} {op : Op Fn},
      s.stack = .listener e :: below → ¬ Ordinary e.type → l ≠ .call op := by
    rintro e below op hstack he rfl
    exact he ((hobserved op rfl).2 e (by rw [State.running, hstack]; rfl))
  cases hphase with
  | script hscript hbalance =>
    generalize hstack : s.stack = stack at hscript
    cases hscript with
    | top =>
      obtain ⟨op, rfl, rfl⟩ := step_of_nil hstack hstep
      exact hcall op rfl (hstack ▸ .top) hbalance
    | listener e q n rest he hq hbelow =>
      obtain ⟨op, rfl, rfl⟩ | ⟨rfl, rfl⟩ | ⟨rfl, rfl⟩ := step_of_listener hstack hstep
      · exact hcall op rfl (hstack ▸ .listener e q n rest he hq hbelow) hbalance
      · exact ⟨hwatched.of_same rfl rfl, .loop q n rest _ hq hbelow rfl
          (hbalance.of_same rfl rfl rfl)⟩
      · exact .back hwatched hbelow hbalance hbelow.dropWhile rfl rfl rfl
  | emit q below hq hbelow hstack hbalance =>
    obtain rfl := step_of_frame hstack rfl hstep
    exact .emit hwatched hbalance hq hbelow
  | loop q n rest below hq hbelow hstack hbalance =>
    obtain rfl := step_of_frame hstack rfl hstep
    cases rest with
    | nil => exact .finish hwatched hbelow hbalance _
    | cons e rest =>
      have htype := (hhome.loops q n (e :: rest) none (hstack ▸ List.mem_cons_self) e
        List.mem_cons_self).1
      refine .visit hwatched hbalance hq htype ?_ hbelow
      rintro rfl
      exact htells.consumed e (by rw [State.visiting, hstack]; simp)
  | removing hremoving hbalance =>
    generalize hstack : s.stack = stack at hremoving
    cases hremoving with
    | off hbelow =>
      obtain rfl := step_of_frame hstack rfl hstep
      exact .finish hwatched hbelow hbalance _
    | wrapper e q n rest he hq hbelow =>
      obtain rfl := step_of_frame hstack rfl hstep
      exact ⟨hwatched.of_same rfl rfl, .script (.listener e q n rest he hq hbelow)
        (hbalance.untold rfl rfl)⟩
  | register e prepend below he hlist hbelow hstack hbalance =>
    obtain rfl := step_of_frame hstack rfl hstep
    exact .add hwatched he hlist hbelow hbalance
  | announce x e prepend below he hlist hbelow hstack hbalance =>
    obtain rfl := step_of_frame hstack rfl hstep
    have hslot : ({ s with stack := .register e prepend :: below } : State Fn).slot
        "newListener" = .array 0 := State.slot_eq_array.mpr hwatched.newArray
    rw [State.resume, State.emit, hslot]
    dsimp only
    rw [if_neg (by simp [hwatched.newList]), hwatched.newList]
    exact ⟨hwatched.of_same rfl rfl, .announcing x e prepend below he hlist hbelow rfl
      (hbalance.of_same rfl rfl rfl)⟩
  | announcing x e prepend below he hlist hbelow hstack hbalance =>
    obtain rfl := step_of_frame hstack rfl hstep
    exact ⟨hwatched.of_same rfl rfl, .newObserver x e prepend below he hlist hbelow rfl
      (hbalance.announced (f := f) (x := x) rfl rfl)⟩
  | newObserver x e prepend below he hlist hbelow hstack hbalance =>
    -- an observer that throws here cuts the announced registration off
    obtain ⟨op, rfl, rfl⟩ | ⟨rfl, rfl⟩ | ⟨rfl, rfl⟩ := step_of_listener hstack hstep
    · exact absurd rfl (hpassive hstack (by simp [newObserver, Ordinary]))
    · exact ⟨hwatched.of_same rfl rfl, .announced x e prepend below he hlist hbelow rfl
        (hbalance.of_same rfl rfl rfl)⟩
    · have hne : e.type ≠ t := by
        intro heq
        exact htells.announced rfl (by rw [State.hearing, hstack, ← heq]; rfl)
      rw [same, if_neg hne] at hbalance
      exact .back hwatched hbelow hbalance hbelow.dropWhile rfl rfl rfl
  | announced x e prepend below he hlist hbelow hstack hbalance =>
    obtain rfl := step_of_frame hstack rfl hstep
    rw [State.resume, State.finish_eq]
    exact ⟨hwatched.of_same rfl rfl, .register e prepend below he hlist hbelow rfl
      (hbalance.of_same rfl rfl rfl)⟩
  | notify q x below hbelow hstack hbalance =>
    obtain rfl := step_of_frame hstack rfl hstep
    have hslot : ({ s with stack := below } : State Fn).slot "removeListener" = .array 1 :=
      State.slot_eq_array.mpr hwatched.removeArray
    rw [State.resume, State.emit, hslot]
    dsimp only
    rw [if_neg (by simp [hwatched.removeList]), hwatched.removeList]
    exact ⟨hwatched.of_same rfl rfl, .notifying q x below hbelow rfl
      (hbalance.of_same rfl rfl rfl)⟩
  | notifying q x below hbelow hstack hbalance =>
    obtain rfl := step_of_frame hstack rfl hstep
    exact ⟨hwatched.of_same rfl rfl, .removeObserver (some (q, x)) below hbelow rfl
      (hbalance.reported (g := g) (x := x) rfl rfl)⟩
  | removeObserver about below hbelow hstack hbalance =>
    -- the removal is made already, so a throw changes nothing that counts
    obtain ⟨op, rfl, rfl⟩ | ⟨rfl, rfl⟩ | ⟨rfl, rfl⟩ := step_of_listener hstack hstep
    · exact absurd rfl (hpassive hstack (by simp [removeObserver, Ordinary]))
    · exact ⟨hwatched.of_same rfl rfl, .notified about below hbelow rfl
        (hbalance.of_same rfl rfl rfl)⟩
    · exact .back hwatched hbelow.dropWhile hbalance rfl rfl rfl rfl
  | notified about below hbelow hstack hbalance =>
    obtain rfl := step_of_frame hstack rfl hstep
    rw [State.resume, State.finish_eq]
    exact ⟨hwatched.of_same rfl rfl, .removing hbelow (hbalance.of_same rfl rfl rfl)⟩

theorem observed_run (f g : Fn) : Transition.run State.step .fresh
    [.call (.on "newListener" (some f)), .go, .call (.on "removeListener" (some g)), .go] =
      some (State.observed f g) := rfl

theorem tracked_observed (ht : Ordinary t) : Tracked f g t (State.observed f g) := by
  refine ⟨⟨rfl, rfl, rfl, rfl⟩, .script .top ?_⟩
  have hevents : (State.observed f g).events t = none := by
    change Function.update (Function.update (fun _ => none) "newListener" (some 0))
      "removeListener" (some 1) t = none
    rw [Function.update_of_ne ht.2, Function.update_of_ne ht.1]
  rw [Balance, State.registrations, hevents]
  rfl

omit [DecidableEq Fn] in
/-- Between calls the phases in which the counts differ are over. -/
theorem Phase.balance (h : Phase f g t s) (hbetween : s.BetweenCalls) : Balance t 0 s := by
  obtain ⟨hscript, hrunning⟩ := hbetween
  have hno : ∀ {frame : Frame Fn} {below : List (Frame Fn)}, s.stack = frame :: below →
      frame.isScript = false → False := by
    intro frame below hstack hframe
    rw [State.inScript, hstack] at hscript
    exact absurd (hscript.symm.trans hframe) Bool.noConfusion
  cases h with
  | script _ h => exact h
  | emit q below hq hbelow hstack => exact (hno hstack rfl).elim
  | loop q n rest below hq hbelow hstack => exact (hno hstack rfl).elim
  | removing _ h => exact h
  | register e prepend below he hlist hbelow hstack => exact (hno hstack rfl).elim
  | announce x e prepend below he hlist hbelow hstack => exact (hno hstack rfl).elim
  | announcing x e prepend below he hlist hbelow hstack => exact (hno hstack rfl).elim
  | newObserver x e prepend below he hlist hbelow hstack =>
    exact absurd (hrunning (Events.newObserver f) (by rw [State.running, hstack]; rfl))
      (by simp [Events.newObserver, Ordinary])
  | announced x e prepend below he hlist hbelow hstack => exact (hno hstack rfl).elim
  | notify q x below hbelow hstack => exact (hno hstack rfl).elim
  | notifying q x below hbelow hstack => exact (hno hstack rfl).elim
  | removeObserver _ _ _ _ h => exact h
  | notified _ _ _ _ h => exact h

end Phases

omit [DecidableEq Fn] in
theorem listenerCount_eq (hinherited : inheritedLength t = none) :
    s.listenerCount t = some (s.registrations t).length := by
  unfold State.listenerCount State.slot State.registrations
  cases s.events t with
  | some n => rfl
  | none => simp [hinherited]

/-- In a run whose steps tell the observers of every change of the listeners of `t`, the
notifications for `t` balance with its listeners after every call. -/
theorem notifications_balance (f g : Fn) (ht : Ordinary t) (hinherited : inheritedLength t = none)
    (h : Transition.Reachable State.step (fun s l => Observed s l ∧ Tells t s l)
      (State.observed f g) s) (hbetween : s.BetweenCalls) :
    ∃ n, s.listenerCount t = some n ∧
      s.notified "newListener" t = s.notified "removeListener" t + n := by
  have hstart := Transition.reachable_of_run (observed_run f g)
  have hinv : WellFormed s ∧ Allocated s ∧ Tracked f g t s := by
    refine Transition.Reachable.invariant
      (fun s => WellFormed s ∧ Allocated s ∧ Tracked f g t s) ?_ ?_ h
    · exact ⟨Reachable.wellFormed hstart, Reachable.allocated hstart, tracked_observed ht⟩
    · intro s l s' hs hallowed hstep
      have heffect := step_effect hstep
      exact ⟨hs.1.step heffect, hs.2.1.step heffect (step_tabling hstep),
        hs.2.2.step hinherited hs.1.toHomed hs.2.1 hallowed.1 hallowed.2 hstep⟩
  have hbalance := hinv.2.2.phase.balance hbetween
  exact ⟨_, listenerCount_eq hinherited, hbalance⟩

/-- `on("x", 1)`, with its notification, and `emit("x")`. -/
def onAndEmit : List (Label Nat) :=
  [.call (.on "x" (some 1)), .go, .go, .leave, .go, .go, .call (.emit "x"), .go, .go, .leave, .go]

theorem notifications_balance_after_on_and_emit : ∃ s : State Nat,
    Transition.run State.step (State.observed 10 20) onAndEmit = some s ∧
      s.notified "newListener" "x" = 1 ∧
      ∃ n, s.listenerCount "x" = some n ∧
        s.notified "newListener" "x" = s.notified "removeListener" "x" + n := by
  have hrun : ((Transition.run State.step (State.observed 10 20) onAndEmit).map fun s =>
      (s.notified "newListener" "x", s.inScript, s.running)) = some (1, true, none) := by decide
  obtain ⟨s, hs, hvalues⟩ := Option.map_eq_some_iff.mp hrun
  obtain ⟨hnotified, hscript, hrunning⟩ : s.notified "newListener" "x" = 1 ∧
      s.inScript = true ∧ s.running = none := by simpa using hvalues
  have hallowed : Transition.RunAllowed State.step (fun s l => Observed s l ∧ Tells "x" s l)
      (State.observed 10 20) onAndEmit := by decide
  exact ⟨s, hs, hnotified, notifications_balance 10 20 (by decide) (by decide)
    (Transition.Reachable.init.run hallowed hs) ⟨hscript, by simp [hrunning]⟩⟩

/-- `prependOnceListener` adds a listener that no observer is told of. -/
theorem prependOnceListener_unbalanced :
    ¬ ∀ (t : String) (s : State Nat), Ordinary t →
      Transition.Reachable State.step Observed (State.observed 10 20) s → s.BetweenCalls →
      ∃ n, s.listenerCount t = some n ∧
        s.notified "newListener" t = s.notified "removeListener" t + n := by
  intro h
  have hrun : ((Transition.run State.step (State.observed 10 20)
      [.call (.prependOnceListener "x" (some 1)), .go]).map fun s =>
        (s.listenerCount "x", s.notified "newListener" "x", s.inScript, s.running)) =
      some (some 1, 0, true, none) := by decide
  obtain ⟨s, hs, hvalues⟩ := Option.map_eq_some_iff.mp hrun
  obtain ⟨hcount, hnotified, hscript, hrunning⟩ : s.listenerCount "x" = some 1 ∧
      s.notified "newListener" "x" = 0 ∧ s.inScript = true ∧ s.running = none := by
    simpa using hvalues
  have hallowed : Transition.RunAllowed State.step Observed (State.observed 10 20)
      [.call (.prependOnceListener "x" (some 1)), .go] := by decide
  obtain ⟨n, hn, hbalance⟩ := h "x" s (by decide) (Transition.Reachable.init.run hallowed hs)
    ⟨hscript, by simp [hrunning]⟩
  obtain rfl : 1 = n := Option.some.inj (hcount.symm.trans hn)
  omega

end Events
