import QuickjsRuntime.Events.Effects

/-! # Whether a registration is in effect

`on`, `prependListener` and `once` look the array of their type up, notify the `newListener`
observers, and then write to that array. An observer that calls `removeAllListeners` in between
cuts the array off: the registration returns as if nothing had happened, and the listener is in
an array that no type has.
-/

namespace Events

variable {Fn : Type} [DecidableEq Fn] {s s' s₁ s₂ : State Fn} {l : Label Fn} {type : String}
  {n : Nat}

/-! ## Model -/

/-- `listeners(type)`; `none` is the `TypeError` for an inherited property, which has no `map`. -/
def State.listeners (s : State Fn) (type : String) : Option (List Fn) :=
  match s.slot type with
  | .array n => some ((s.lists type n).map Entry.listener)
  | .inherited _ => none
  | .undefined => some []

/-- The methods that notify of a registration; `addListener` is `on`. -/
inductive Method where
  | on
  | prependListener
  | once
  deriving DecidableEq, Repr

namespace Method

def op (method : Method) (type : String) (f : Fn) : Op Fn :=
  match method with
  | on => .on type (some f)
  | prependListener => .prependListener type (some f)
  | once => .once type (some f)

def isOnce (method : Method) : Bool := method = once

def prepends (method : Method) : Bool := method = prependListener

/-- `listeners(type)` contains the function where the method puts it. -/
def InPlace (method : Method) (type : String) (f : Fn) (s : State Fn) : Prop :=
  ∃ fs, s.listeners type = some fs ∧ (if method.prepends then fs.head? else fs.getLast?) = some f

end Method

/-- The call drops the array of the type. -/
def Label.cutsOff (type : String) : Label Fn → Bool
  | .call (.removeAllListeners none) => true
  | .call (.removeAllListeners (some q)) => q = type
  | _ => false

/-- The script calls the method in the state `s`. The steps `labels` take the observers to their
end in `s₁`, in which the registration waits to go on, and in `s₂` it has returned. -/
structure Registers (method : Method) (type : String) (f : Fn) (s : State Fn)
    (labels : List (Label Fn)) (s₁ s₂ : State Fn) : Prop where
  script : s.inScript = true
  run : Transition.run State.step (s.call (method.op type f)) labels = some s₁
  waits : s₁.stack =
    .register ⟨s.nextEntry, type, (s.listFor type).1, f, method.isOnce⟩ method.prepends :: s.stack
  goes : s₁.step .go = some s₂
  returned : s₂.answers = .emitter :: s₁.answers

/-! ## The array of a type -/

omit [DecidableEq Fn] in
theorem listFor_of_some (h : s.events type = some n) (q : String) :
    (s.listFor q).2.events type = some n := by
  unfold State.listFor
  split
  next => exact h
  next => exact h
  next hslot =>
    have hne : type ≠ q := by
      rintro rfl
      rw [State.slot_eq_array.mpr h] at hslot
      cases hslot
    exact (Function.update_of_ne hne _ _).trans h

/-- A call leaves a type its array, unless it drops it. -/
theorem call_keeps_array (h : s.events type = some n) {op : Op Fn}
    (hl : Label.cutsOff type (.call op) = false) : (s.call op).events type = some n := by
  have hannounce (q : String) (f : Fn) (once prepend : Bool) (test : State Fn → Bool) :
      ((s.enroll q f once prepend).announce q f test).events type = some n := by
    rw [(announce_tabling _ q f test).1]
    exact listFor_of_some h q
  cases op with
  | on q listener | prependListener q listener =>
    cases listener with
    | none => exact h
    | some f => exact hannounce q f false _ _
  | once q listener =>
    cases listener with
    | none => exact h
    | some f => exact hannounce q f true false _
  | prependOnceListener q listener =>
    cases listener with
    | none => exact h
    | some f => exact listFor_of_some h q
  | off q listener => rwa [State.call, (off_tabling s q listener .off).1]
  | removeAllListeners q =>
    cases q with
    | none => cases hl
    | some q =>
      have hne : type ≠ q := Ne.symm (of_decide_eq_false hl)
      rw [State.call, State.finish_events]
      exact (Function.update_of_ne hne _ _).trans h
  | emit q => exact h
  | listenerCount q => rwa [State.call, State.finish_events]

theorem step_keeps_array (hstep : s.step l = some s') (h : s.events type = some n)
    (hl : l.cutsOff type = false) : s'.events type = some n := by
  cases step_cases hstep with
  | call op => exact call_keeps_array h hl
  | leave => exact h
  | throw => exact h
  | @go frame below => rwa [(resume_tabling { s with stack := below } frame).1]

theorem step_cuts_off (hstep : s.step l = some s') (hl : l.cutsOff type = true) :
    s'.events type = none := by
  cases step_cases hstep with
  | call op =>
    cases op with
    | removeAllListeners q =>
      rw [State.call, State.finish_events]
      cases q with
      | none => rfl
      | some q =>
        have heq : q = type := of_decide_eq_true hl
        rw [heq]
        exact Function.update_self _ _ _
    | on | prependListener | once | prependOnceListener | off | emit | listenerCount => cases hl
  | leave | throw | go => cases hl

/-- The array exists, and it is not that of the type. -/
def State.CutOff (s : State Fn) (type : String) (n : Nat) : Prop :=
  s.events type ≠ some n ∧ n < s.nextList

/-- No type gets an old array. -/
theorem State.CutOff.step (h : s.CutOff type n) (hstep : s.step l = some s') :
    s'.CutOff type n := by
  obtain ⟨hevents, hlt⟩ := h
  have htabling := step_tabling hstep
  refine ⟨?_, Nat.lt_of_lt_of_le hlt htabling.nextList_le⟩
  cases htabling with
  | keeps hkeeps => exact fun h => hevents (hkeeps type n h)
  | makes q hmakes =>
    rw [hmakes]
    by_cases hq : type = q
    · rw [hq, Function.update_self]
      intro h
      cases h
      exact Nat.lt_irrefl _ hlt
    · rwa [Function.update_of_ne hq]

/-- After a run a type still has its array, or the array has been cut off. -/
theorem run_array {labels : List (Label Fn)} (hrun : Transition.run State.step s labels = some s')
    (h : s.events type = some n) (hlt : n < s.nextList) :
    ((∀ l ∈ labels, l.cutsOff type = false) ∧ s'.events type = some n) ∨
      ((∃ l ∈ labels, l.cutsOff type = true) ∧ s'.CutOff type n) := by
  induction labels generalizing s with
  | nil =>
    cases hrun
    exact .inl ⟨by simp, h⟩
  | cons l labels ih =>
    rw [Transition.run_cons] at hrun
    obtain ⟨next, hstep, hrest⟩ := Option.bind_eq_some_iff.mp hrun
    have hlt' := Nat.lt_of_lt_of_le hlt (step_tabling hstep).nextList_le
    cases hl : l.cutsOff type with
    | true =>
      have hcut : next.CutOff type n := by
        refine ⟨?_, hlt'⟩
        rw [step_cuts_off hstep hl]
        exact Option.some_ne_none n |>.symm
      refine .inr ⟨⟨l, List.mem_cons_self, hl⟩, ?_⟩
      exact Transition.run_invariant (State.CutOff · type n)
        (fun _ _ _ h (_ : True) hstep => h.step hstep) (.of_forall fun _ _ _ => trivial)
        hrest hcut
    | false =>
      refine (ih hrest (step_keeps_array hstep h hl) hlt').imp ?_ ?_
      · rintro ⟨hkept, harray⟩
        exact ⟨List.forall_mem_cons.mpr ⟨hl, hkept⟩, harray⟩
      · rintro ⟨⟨l', hmem, hl'⟩, hcut⟩
        exact ⟨⟨l', List.mem_cons_of_mem _ hmem, hl'⟩, hcut⟩

/-! ## The call -/

section Call

variable {method : Method} {f : Fn} {labels : List (Label Fn)}

/-- A method is the lookup, the entry and the notification. -/
theorem call_method (s : State Fn) (method : Method) (type : String) (f : Fn) :
    ∃ test, s.call (method.op type f) =
      (s.enroll type f method.isOnce method.prepends).announce type f test := by
  cases method with
  | on | prependListener => exact ⟨(·.hasListeners "newListener"), rfl⟩
  | once => exact ⟨(·.slot "newListener" ≠ .undefined), rfl⟩

theorem call_method_tabling (s : State Fn) (method : Method) (type : String) (f : Fn) :
    (s.call (method.op type f)).events = (s.listFor type).2.events ∧
      (s.call (method.op type f)).nextList = (s.listFor type).2.nextList := by
  obtain ⟨test, hcall⟩ := call_method s method type f
  rw [hcall]
  exact announce_tabling _ type f test

omit [DecidableEq Fn] in
/-- The array that is looked up exists from then on. -/
theorem listFor_lt (h : Allocated s) (hlist : (s.listFor type).1 = some n) :
    n < (s.listFor type).2.nextList := by
  unfold State.listFor at hlist ⊢
  split at hlist
  next m hslot =>
    cases hlist
    exact h.events type _ (State.slot_eq_array.mp hslot)
  next => cases hlist
  next =>
    cases hlist
    exact Nat.lt_succ_self _

/-- A registration that has returned has written to an array. -/
theorem Registers.added (h : Registers method type f s labels s₁ s₂) :
    ∃ n, (s.listFor type).1 = some n ∧ s₂.events = s₁.events ∧
      ∀ m, s₂.lists type m =
        if m = n then
          if method.prepends then
            ⟨s.nextEntry, type, some n, f, method.isOnce⟩ :: s₁.lists type n
          else s₁.lists type n ++ [⟨s.nextEntry, type, some n, f, method.isOnce⟩]
        else s₁.lists type m := by
  have hnext := step_of_frame h.waits rfl h.goes
  have hreturned := h.returned
  subst hnext
  cases hlist : (s.listFor type).1 with
  | none =>
    rw [State.resume, State.add] at hreturned
    simp only [hlist] at hreturned
    cases hreturned
  | some n =>
    refine ⟨n, rfl, ?_, ?_⟩
    · rw [State.resume, State.add]
      simp
    · intro m
      rw [State.resume, State.add]
      simp [State.setList_lists]

omit [DecidableEq Fn] in
theorem listeners_of_array (h : s.events type = some n) :
    s.listeners type = some ((s.lists type n).map Entry.listener) := by
  rw [State.listeners, State.slot_eq_array.mpr h]

omit [DecidableEq Fn] in
/-- `listeners(type)` is decided by the arrays that the type can have. -/
theorem listeners_congr (hevents : s'.events = s.events)
    (hlists : ∀ m, s.events type = some m → s'.lists type m = s.lists type m) :
    s'.listeners type = s.listeners type := by
  have hslot : s'.slot type = s.slot type := by rw [State.slot, State.slot, hevents]
  rw [State.listeners, State.listeners, hslot]
  split
  next m harray => rw [hlists m (State.slot_eq_array.mp harray)]
  next => rfl
  next => rfl

/-- A registration that has returned is in effect exactly if its array has not been cut off by
`removeAllListeners` in the meantime, or the listeners that the type has instead show the function
at that place already. -/
theorem registration_in_effect_iff (hs : Reachable (fun _ _ => True) s)
    (h : Registers method type f s labels s₁ s₂) :
    method.InPlace type f s₂ ↔
      (∀ l ∈ labels, l.cutsOff type = false) ∨ method.InPlace type f s₁ := by
  obtain ⟨n, hlist, hevents, hlists⟩ := h.added
  obtain ⟨hcall, hnext⟩ := call_method_tabling s method type f
  have harray : (s.call (method.op type f)).events type = some n := by
    rw [hcall]
    exact listFor_events s type n hlist
  have hlt : n < (s.call (method.op type f)).nextList := by
    rw [hnext]
    exact listFor_lt hs.allocated hlist
  rcases run_array h.run harray hlt with ⟨hkept, hcurrent⟩ | ⟨⟨l, hl, hcuts⟩, hcut⟩
  · refine iff_of_true ?_ (.inl hkept)
    refine ⟨_, listeners_of_array (hevents ▸ hcurrent), ?_⟩
    rw [hlists, if_pos rfl]
    cases method.prepends <;> simp
  · have hsame : s₂.listeners type = s₁.listeners type := by
      apply listeners_congr hevents
      intro m hm
      have hne : m ≠ n := by
        rintro rfl
        exact hcut.1 hm
      rw [hlists, if_neg hne]
    have hdropped : ¬ ∀ l ∈ labels, l.cutsOff type = false := by
      intro hkept
      rw [hkept l hl] at hcuts
      cases hcuts
    rw [or_iff_right hdropped, Method.InPlace, Method.InPlace, hsame]

end Call

/-- The state after a list of steps that are all enabled. -/
def after (s : State Nat) (labels : List (Label Nat)) : State Nat :=
  (Transition.run State.step s labels).getD s

/-- An emitter with the observer 0 of `newListener`. -/
def observedEmitter : State Nat := after .fresh [.call (.on "newListener" (some 0)), .go]

/-- The observer returns at once. -/
def quietObserver : List (Label Nat) := [.go, .go, .leave, .go]

/-- The observer clears the type that it is told of. -/
def clearingObserver : List (Label Nat) :=
  [.go, .go, .call (.removeAllListeners (some "x")), .leave, .go]

theorem observedEmitter_reachable : Reachable (fun _ _ => True) observedEmitter := by
  have hrun : Transition.run State.step .fresh [.call (.on "newListener" (some 0)), .go] =
      some observedEmitter := rfl
  exact Transition.reachable_of_run hrun

theorem registration_in_effect_observed :
    ∃ s₁ s₂, Registers .on "x" 1 observedEmitter quietObserver s₁ s₂ ∧
      Method.InPlace .on "x" 1 s₂ := by
  have hregisters : Registers .on "x" 1 observedEmitter quietObserver
      (after (observedEmitter.call (.on "x" (some 1))) quietObserver)
      (after (observedEmitter.call (.on "x" (some 1))) (quietObserver ++ [.go])) :=
    ⟨rfl, rfl, rfl, rfl, rfl⟩
  refine ⟨_, _, hregisters, ?_⟩
  exact (registration_in_effect_iff observedEmitter_reachable hregisters).mpr (.inl (by decide))

/-- `on("x", 1)` returns, and `listeners("x")` is empty. -/
theorem registration_lost :
    ∃ s₁ s₂, Registers .on "x" 1 observedEmitter clearingObserver s₁ s₂ ∧
      s₂.listeners "x" = some [] ∧ ¬ Method.InPlace .on "x" 1 s₂ := by
  have hregisters : Registers .on "x" 1 observedEmitter clearingObserver
      (after (observedEmitter.call (.on "x" (some 1))) clearingObserver)
      (after (observedEmitter.call (.on "x" (some 1))) (clearingObserver ++ [.go])) :=
    ⟨rfl, rfl, rfl, rfl, rfl⟩
  refine ⟨_, _, hregisters, rfl, ?_⟩
  rintro ⟨fs, hfs, hlast⟩
  cases hfs
  cases hlast

end Events
