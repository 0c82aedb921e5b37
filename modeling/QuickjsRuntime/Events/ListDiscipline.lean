import QuickjsRuntime.Events.Balance

/-! # Persistent listeners of one type

The listeners of a type are a list: `on` appends to it, `prependListener` puts at its front, and
`emit` calls it front to back. Where a function is registered several times, Node's `off` removes
the occurrence nearest the end, and the `off` of this emitter the one nearest the front.

The machine with listeners that leave the emitter alone refines a list of its own (`Holds`,
`Holds.plays`), and the two lists are then compared without the machine.
-/

namespace Events

/-! ## The first and the last occurrence -/

section Occurrence

variable {α : Type*} [DecidableEq α] {a x : α} {l before behind : List α}

/-- Remove the occurrence nearest the end. -/
def eraseLast (a : α) (l : List α) : List α := (l.reverse.erase a).reverse

/-- The occurrences stand next to each other. -/
def OneRun (a : α) (l : List α) : Prop :=
  ∃ before k behind, l = before ++ (List.replicate k a ++ behind) ∧ a ∉ before ∧ a ∉ behind

theorem eraseLast_of_notMem (h : a ∉ l) : eraseLast a l = l := by
  rw [eraseLast, List.erase_of_not_mem (by simpa using h), List.reverse_reverse]

theorem eraseLast_cons_of_mem (h : a ∈ l) : eraseLast a (x :: l) = x :: eraseLast a l := by
  rw [eraseLast, List.reverse_cons, List.erase_append_left _ (List.mem_reverse.mpr h),
    List.reverse_append]
  rfl

theorem eraseLast_cons_of_ne (h : x ≠ a) : eraseLast a (x :: l) = x :: eraseLast a l := by
  by_cases hmem : a ∈ l
  · exact eraseLast_cons_of_mem hmem
  · have hcons : a ∉ x :: l := by
      intro ha
      exact (List.mem_cons.mp ha).elim (fun heq => h heq.symm) hmem
    rw [eraseLast_of_notMem hcons, eraseLast_of_notMem hmem]

theorem eraseLast_cons_self (h : a ∉ l) : eraseLast a (a :: l) = l := by
  rw [eraseLast, List.reverse_cons, List.erase_append_right _ (by simpa using h)]
  simp

theorem erase_run (k : Nat) (h : a ∉ before) :
    (before ++ (List.replicate (k + 1) a ++ behind)).erase a =
      before ++ (List.replicate k a ++ behind) := by
  rw [List.erase_append_right _ h, List.replicate_succ, List.cons_append, List.erase_cons_head]

theorem eraseLast_run (k : Nat) (h : a ∉ behind) :
    eraseLast a (before ++ (List.replicate (k + 1) a ++ behind)) =
      before ++ (List.replicate k a ++ behind) := by
  have hreverse : (before ++ (List.replicate (k + 1) a ++ behind)).reverse =
      behind.reverse ++ (List.replicate (k + 1) a ++ before.reverse) := by simp
  rw [eraseLast, hreverse, erase_run k (by simpa using h)]
  simp

omit [DecidableEq α] in
/-- A run at the front is made longer. -/
theorem OneRun.cons_self (h : OneRun a (a :: l)) : OneRun a (a :: a :: l) := by
  obtain ⟨before, k, behind, heq, hbefore, hbehind⟩ := h
  cases before with
  | nil => exact ⟨[], k + 1, behind, congrArg (a :: ·) heq, hbefore, hbehind⟩
  | cons y before =>
    have hy : a = y := (List.cons.inj heq).1
    exact absurd (hy ▸ List.mem_cons_self) hbefore

omit [DecidableEq α] in
theorem OneRun.cons_of_ne (h : OneRun a l) (hne : x ≠ a) : OneRun a (x :: l) := by
  obtain ⟨before, k, behind, heq, hbefore, hbehind⟩ := h
  refine ⟨x :: before, k, behind, congrArg (x :: ·) heq, ?_, hbehind⟩
  intro ha
  exact (List.mem_cons.mp ha).elim (fun heq => hne heq.symm) hbefore

/-- The first and the last occurrence can be exchanged only within one run. -/
theorem erase_eq_eraseLast_iff : l.erase a = eraseLast a l ↔ OneRun a l := by
  constructor
  · intro h
    induction l with
    | nil => exact ⟨[], 0, [], rfl, List.not_mem_nil, List.not_mem_nil⟩
    | cons x l ih =>
      by_cases hx : x = a
      · subst hx
        by_cases hmem : x ∈ l
        · rw [List.erase_cons_head, eraseLast_cons_of_mem hmem] at h
          -- the rest starts with `x`, and its first occurrence is again exchanged with its last
          obtain ⟨rest, hrest⟩ : ∃ rest, l = x :: rest := ⟨_, h⟩
          subst hrest
          refine (ih ?_).cons_self
          rw [List.erase_cons_head]
          exact (List.cons.inj h).2
        · exact ⟨[], 1, l, rfl, List.not_mem_nil, hmem⟩
      · rw [List.erase_cons_tail (by simpa using hx), eraseLast_cons_of_ne hx] at h
        exact (ih (List.cons.inj h).2).cons_of_ne hx
  · rintro ⟨before, k, behind, rfl, hbefore, hbehind⟩
    cases k with
    | zero =>
      have hnot : a ∉ before ++ (List.replicate 0 a ++ behind) := by simp [hbefore, hbehind]
      rw [List.erase_of_not_mem hnot, eraseLast_of_notMem hnot]
    | succ k => rw [erase_run k hbefore, eraseLast_run k hbehind]

end Occurrence

variable {Fn : Type} [DecidableEq Fn] {type : String}

/-! ## Model -/

/-- A change of the listeners; `addListener` is `on` and `removeListener` is `off`. -/
inductive Change (Fn : Type) where
  | on (f : Fn)
  | prependListener (f : Fn)
  | off (f : Fn)
  deriving DecidableEq, Repr

inductive ListOp (Fn : Type) where
  | change (c : Change Fn)
  | emit
  deriving DecidableEq, Repr

def Change.op (type : String) : Change Fn → Op Fn
  | .on f => .on type (some f)
  | .prependListener f => .prependListener type (some f)
  | .off f => .off type (some f)

def Change.registers : Change Fn → Bool
  | .off _ => false
  | _ => true

def ListOp.op (type : String) : ListOp Fn → Op Fn
  | .change c => c.op type
  | .emit => .emit type

def ListOp.change? : ListOp Fn → Option (Change Fn)
  | .change c => some c
  | .emit => none

/-- The calls on the type follow each other; the listeners neither throw nor touch the emitter. -/
inductive Plays (type : String) : State Fn → List (ListOp Fn) → State Fn → Prop
  | nil (s : State Fn) : Plays type s [] s
  | cons {s s' s'' : State Fn} {op : ListOp Fn} {ops : List (ListOp Fn)} :
      s.Completes (op.op type) s' → Plays type s' ops s'' → Plays type s (op :: ops) s''

/-- The listeners that have been called, the earliest first. -/
def State.invoked (s : State Fn) : List Fn := s.calls.reverse.map (·.entry.listener)

/-- Node's list after a change. -/
def nodeChange (fs : List Fn) : Change Fn → List Fn
  | .on f => fs ++ [f]
  | .prependListener f => f :: fs
  | .off f => eraseLast f fs

/-- The listeners that Node's list calls. -/
def nodeCalls : List Fn → List (ListOp Fn) → List Fn
  | _, [] => []
  | fs, .change c :: ops => nodeCalls (nodeChange fs c) ops
  | fs, .emit :: ops => fs ++ nodeCalls fs ops

/-- The calls come to their end and have called the listeners that Node's list calls. -/
def FollowsNode (type : String) (ops : List (ListOp Fn)) : Prop :=
  ∃ s, Plays type State.fresh ops s ∧ s.invoked = nodeCalls [] ops

/-- No other listener stands between the occurrences of a function that is removed. The
removal of a `removeListener` observer must leave none that is notified of it. -/
def Unambiguous (type : String) (fs : List Fn) : Change Fn → Prop
  | .off f => if type = "removeListener" then f ∉ fs ∨ fs = [f] else OneRun f fs
  | _ => True

/-! ## The list of the emitter -/

/-- The list after a call. A type whose lookup finds an inherited property gets no listener. -/
def codeAfter (type : String) (fs : List Fn) : ListOp Fn → List Fn
  | .change (.on f) => if inheritedLength type = none then fs ++ [f] else fs
  | .change (.prependListener f) => if inheritedLength type = none then f :: fs else fs
  | .change (.off f) => fs.erase f
  | .emit => fs

/-- The listeners that a call calls. A removal notifies those of the type itself where they are
`removeListener` observers. -/
def codeHeard (type : String) (fs : List Fn) : ListOp Fn → List Fn
  | .change (.off f) => if type = "removeListener" ∧ f ∈ fs then fs.erase f else []
  | .change _ => []
  | .emit => fs

def codeCalls (type : String) : List Fn → List (ListOp Fn) → List Fn
  | _, [] => []
  | fs, op :: ops => codeHeard type fs op ++ codeCalls type (codeAfter type fs op) ops

/-- The emitter has no call under way and holds the listeners of the one type as persistent
entries. -/
structure Holds (type : String) (fs : List Fn) (s : State Fn) : Prop where
  stack : s.stack = []
  others : ∀ q, q ≠ type → s.events q = none
  inherited : inheritedLength type ≠ none → s.events type = none
  listeners : (s.registrations type).map Entry.listener = fs
  persistent : ∀ e ∈ s.registrations type, e.once = false
  unused : s.events type = none → s.lists type s.nextList = []

omit [DecidableEq Fn] in
theorem Holds.fresh (type : String) : Holds type [] (State.fresh : State Fn) where
  stack := rfl
  others := fun _ _ => rfl
  inherited := fun _ => rfl
  listeners := rfl
  persistent := fun _ he => absurd he List.not_mem_nil
  unused := fun _ => rfl

variable {s s' : State Fn} {fs : List Fn} {f : Fn} {height n : Nat}

section

omit [DecidableEq Fn]

theorem Holds.congr (h : Holds type fs s) (hstack : s'.stack = []) (hevents : s'.events = s.events)
    (hlists : s'.lists = s.lists) (hnext : s'.nextList = s.nextList) : Holds type fs s' := by
  have hsame : s'.registrations type = s.registrations type :=
    registrations_congr (by rw [hevents]) fun _ => by rw [hlists]
  refine ⟨hstack, ?_, ?_, ?_, ?_, ?_⟩
  · rw [hevents]
    exact h.others
  · rw [hevents]
    exact h.inherited
  · rw [hsame]
    exact h.listeners
  · rw [hsame]
    exact h.persistent
  · rw [hevents, hlists, hnext]
    exact h.unused

theorem Holds.finish (h : Holds type fs s) (answer : Answer) : Holds type fs (s.finish answer) := by
  refine h.congr ?_ ?_ ?_ ?_
  · rw [State.finish_stack, h.stack]
  · exact State.finish_events s answer
  · exact State.finish_lists s answer
  · exact State.finish_nextList s answer

theorem Holds.raise (h : Holds type fs s) : Holds type fs s.raise :=
  h.congr (by rw [State.raise_stack, h.stack]; rfl) rfl rfl rfl

theorem Holds.setCalls (h : Holds type fs s) (calls : List (Call Fn)) :
    Holds type fs { s with calls } :=
  h.congr h.stack rfl rfl rfl

end

/-! ## A call of the emitter -/

/-- The machine comes down to the height in the state `s'`. -/
def State.Settles (height : Nat) (s s' : State Fn) : Prop :=
  ∃ fuel, ∀ m, fuel ≤ m → s.settle height m = s'

theorem State.Settles.refl (h : s.stack.length ≤ height) : s.Settles height s :=
  ⟨0, fun m _ => State.settle_of_le h m⟩

theorem State.Settles.of_idle (hheight : height < s.stack.length)
    (h : s.idle.Settles height s') : s.Settles height s' :=
  State.settles_of_idle hheight h

/-- The end of a call is determined. -/
theorem State.Settles.unique {s₁ s₂ : State Fn} (h₁ : s.Settles height s₁)
    (h₂ : s.Settles height s₂) : s₁ = s₂ := by
  obtain ⟨m₁, h₁⟩ := h₁
  obtain ⟨m₂, h₂⟩ := h₂
  rw [← h₁ _ (Nat.le_max_left m₁ m₂), h₂ _ (Nat.le_max_right m₁ m₂)]

theorem Plays.unique {ops : List (ListOp Fn)} {s₁ s₂ : State Fn} (h₁ : Plays type s ops s₁)
    (h₂ : Plays type s ops s₂) : s₁ = s₂ := by
  induction h₁ with
  | nil => cases h₂; rfl
  | cons hop _ ih =>
    cases h₂ with
    | cons hop' hrest =>
      obtain rfl := State.Settles.unique hop.2 hop'.2
      exact ih hrest

/-- The loop over persistent listeners calls them all. -/
theorem settles_loop {q : String} {about : Notice Fn} {rest : List (Entry Fn)}
    (hrest : ∀ e ∈ rest, e.once = false) (hheight : height ≤ s.stack.length)
    (h : (({ s with calls := (rest.map (⟨·, about⟩)).reverse ++ s.calls } : State Fn).finish
      (.bool true)).Settles height s') :
    (s.push (.loop q n rest about)).Settles height s' := by
  have hlt : ∀ frame, height < (s.push frame).stack.length := by
    intro frame
    rw [State.push_stack, List.length_cons]
    omega
  induction rest generalizing s with
  | nil => exact .of_idle (hlt _) h
  | cons e rest ih =>
    have hidle : (s.push (.loop q n (e :: rest) about)).idle =
        (s.push (.loop q n rest about)).invoke e about := by
      show (s.push (.loop q n rest about)).visit q n e about = _
      rw [State.visit, if_neg (by simp [hrest e List.mem_cons_self])]
    refine .of_idle (hlt _) ?_
    rw [hidle]
    -- the listener returns at once, and the loop goes on with the call on record
    refine .of_idle (Nat.lt_succ_of_lt (hlt _)) ?_
    refine ih (s := { s with calls := ⟨e, about⟩ :: s.calls })
      (fun e' he' => hrest e' (List.mem_cons_of_mem e he')) hheight ?_ hlt
    rw [List.map_cons, List.reverse_cons, List.append_assoc] at h
    exact h

omit [DecidableEq Fn] in
/-- Nobody listens: the call throws or returns, and no listener is called. -/
theorem emit_of_empty (about : Notice Fn) (hempty : s.registrations type = []) :
    s.emit type about = s.raise ∨ s.emit type about = s.finish (.bool false) := by
  have hunheard : s.unheard type = s.raise ∨ s.unheard type = s.finish (.bool false) := by
    unfold State.unheard
    split
    next => exact .inl rfl
    next => exact .inr rfl
  unfold State.emit
  split
  next n hslot =>
    rw [registrations_eq (State.slot_eq_array.mp hslot)] at hempty
    rw [hempty]
    exact hunheard
  next => exact .inl rfl
  next => exact hunheard

omit [DecidableEq Fn] in
theorem emit_of_array (about : Notice Fn) (harray : s.events type = some n)
    (hne : s.lists type n ≠ []) :
    s.emit type about = s.push (.loop type n (s.lists type n) about) := by
  rw [State.emit, State.slot_eq_array.mpr harray]
  exact if_neg (by simpa using hne)

/-- What a call leaves: it comes to its end, with the list changed and the listeners called as
the list says. -/
def Refines (type : String) (fs : List Fn) (op : ListOp Fn) (s s' : State Fn) : Prop :=
  s.Completes (op.op type) s' ∧ Holds type (codeAfter type fs op) s' ∧
    s'.invoked = s.invoked ++ codeHeard type fs op

omit [DecidableEq Fn] in
theorem invoked_append (calls : List (Call Fn)) :
    ({ s with calls := calls ++ s.calls } : State Fn).invoked =
      s.invoked ++ calls.reverse.map (·.entry.listener) := by
  simp [State.invoked]

omit [DecidableEq Fn] in
theorem invoked_congr (h : s'.calls = s.calls) : s'.invoked = s.invoked := by
  rw [State.invoked, State.invoked, h]

/-- A call that comes down to the empty stack comes back to the script. -/
theorem Holds.completes (h : Holds type fs s) {op : Op Fn} (hstack : s'.stack = [])
    (hsettles : (s.call op).Settles 0 s') : s.Completes op s' := by
  refine ⟨hstack.trans h.stack.symm, ?_⟩
  rw [h.stack]
  exact hsettles

theorem Holds.emit (h : Holds type fs s) : ∃ s', Refines type fs .emit s s' := by
  have hstart : ∀ {s'}, s'.stack = [] → (s.emit type none).Settles 0 s' →
      s.Completes (.emit type) s' := by
    intro s' hstack hsettles
    apply h.completes hstack
    exact .of_idle (Nat.succ_pos _) hsettles
  by_cases hempty : s.registrations type = []
  · have hfs : fs = [] := by
      rw [← h.listeners, hempty]
      rfl
    subst hfs
    have hquiet : ∀ s', s.emit type none = s' → Holds type [] s' → s'.calls = s.calls →
        ∃ s', Refines type [] .emit s s' := by
      intro s' heq hholds hcalls
      refine ⟨s', hstart hholds.stack ?_, hholds, ?_⟩
      · rw [heq]
        exact .refl (by rw [hholds.stack]; rfl)
      · rw [invoked_congr hcalls]
        exact (List.append_nil _).symm
    rcases emit_of_empty none hempty with hraise | hfinish
    · exact hquiet _ hraise h.raise rfl
    · exact hquiet _ hfinish (h.finish _) (State.finish_calls s _)
  · obtain ⟨n, harray⟩ : ∃ n, s.events type = some n := by
      cases hevents : s.events type with
      | none => exact absurd (by rw [State.registrations, hevents]) hempty
      | some n => exact ⟨n, rfl⟩
    have hentries := registrations_eq harray
    rw [hentries] at hempty
    let calls : List (Call Fn) := ((s.lists type n).map (⟨·, none⟩)).reverse
    have hholds := (h.setCalls (calls ++ s.calls)).finish (.bool true)
    refine ⟨_, hstart hholds.stack ?_, hholds, ?_⟩
    · rw [emit_of_array none harray hempty]
      refine settles_loop ?_ (Nat.zero_le _) (.refl (by rw [hholds.stack]; rfl))
      rw [← hentries]
      exact h.persistent
    · rw [invoked_congr (State.finish_calls _ _), invoked_append, codeHeard, ← h.listeners,
        hentries]
      simp [calls, Function.comp_def]

section

omit [DecidableEq Fn]

theorem listFor_events_of_ne {q : String} (hq : q ≠ type) :
    (s.listFor type).2.events q = s.events q := by
  unfold State.listFor
  split
  next => rfl
  next => rfl
  next => exact Function.update_of_ne hq _ _

/-- The lookup finds the array of the listeners, makes it, or finds an inherited property. -/
theorem Holds.listFor (h : Holds type fs s) :
    (inheritedLength type = none ∧
      ∃ n, (s.listFor type).1 = some n ∧ s.lists type n = s.registrations type) ∨
    (inheritedLength type ≠ none ∧ s.listFor type = (none, s)) := by
  cases hinherited : inheritedLength type with
  | some length =>
    have hnone := h.inherited (by simp [hinherited])
    refine .inr ⟨by simp, ?_⟩
    rw [State.listFor, State.slot, hnone, hinherited]
  | none =>
    refine .inl ⟨rfl, ?_⟩
    cases hevents : s.events type with
    | some n =>
      refine ⟨n, ?_, (registrations_eq hevents).symm⟩
      rw [State.listFor, State.slot, hevents]
    | none =>
      refine ⟨s.nextList, ?_, ?_⟩
      · rw [State.listFor, State.slot, hevents, hinherited]
      · rw [State.registrations, hevents]
        exact h.unused hevents

/-- There is no `newListener` observer of another type to notify. -/
theorem Holds.eeWrap_eq (h : Holds type fs s) (f : Fn) (prepend : Bool) :
    s.eeWrap type (some f) prepend = s.enroll type f false prepend := by
  refine if_neg ?_
  rintro ⟨hne, -, htest⟩
  have hnone : (s.enroll type f false prepend).events "newListener" = none := by
    rw [← h.others "newListener" (Ne.symm hne)]
    exact listFor_events_of_ne (Ne.symm hne)
  have hslot : (s.enroll type f false prepend).slot "newListener" = .undefined := by
    rw [State.slot, hnone]
    rfl
  simp [State.hasListeners, hslot] at htest

end

theorem settles_register (e : Entry Fn) (prepend : Bool) (h : s.stack = []) :
    (s.push (.register e prepend)).Settles 0 (s.add e prepend) := by
  refine .of_idle (Nat.succ_pos _) (.refl ?_)
  show (s.add e prepend).stack.length ≤ 0
  unfold State.add
  split <;> simp [h]

theorem settles_off (h : s.stack = []) : (s.push .off).Settles 0 (s.finish .emitter) := by
  refine .of_idle (Nat.succ_pos _) (.refl ?_)
  show (s.finish .emitter).stack.length ≤ 0
  simp [h]

omit [DecidableEq Fn] in
/-- An entry is added to the array that the type has by then. -/
theorem holds_add {e : Entry Fn} (prepend : Bool) (hown : inheritedLength e.type = none)
    (hstack : s.stack = []) (hothers : ∀ q, q ≠ e.type → s.events q = none)
    (harray : s.events e.type = some n) (hlist : e.list = some n) (honce : e.once = false)
    (hlisteners : (s.lists e.type n).map Entry.listener = fs)
    (hpersistent : ∀ x ∈ s.lists e.type n, x.once = false) :
    Holds e.type (if prepend then e.listener :: fs else fs ++ [e.listener]) (s.add e prepend) := by
  have hadd : s.add e prepend = (s.setList e.type n (if prepend then e :: s.lists e.type n
      else s.lists e.type n ++ [e])).finish .emitter := by
    rw [State.add, hlist]
  have hregistrations : (s.add e prepend).registrations e.type =
      if prepend then e :: s.lists e.type n else s.lists e.type n ++ [e] := by
    rw [hadd, State.finish_eq]
    exact registrations_setList _ harray
  have hevents : (s.add e prepend).events = s.events := by
    rw [hadd, State.finish_events, State.setList_events]
  refine ⟨?_, ?_, ?_, ?_, ?_, ?_⟩
  · rw [hadd, State.finish_stack, State.setList_stack, hstack]
  · rw [hevents]
    exact hothers
  · intro hinherited
    exact absurd hown hinherited
  · rw [hregistrations, ← hlisteners]
    cases prepend <;> simp
  · intro x hx
    rw [hregistrations] at hx
    have hmem : x ∈ s.lists e.type n ∨ x = e := by
      cases prepend <;> simpa [or_comm] using hx
    rcases hmem with hold | rfl
    · exact hpersistent x hold
    · exact honce
  · intro hnone
    rw [hevents, harray] at hnone
    cases hnone

/-- A registration adds the listener, unless the lookup finds an inherited property. -/
theorem Holds.eeWrap (h : Holds type fs s) (f : Fn) (prepend : Bool) :
    ∃ s', (s.eeWrap type (some f) prepend).Settles 0 s' ∧ s'.calls = s.calls ∧
      Holds type (if inheritedLength type = none then
        (if prepend then f :: fs else fs ++ [f]) else fs) s' := by
  let t : State Fn := { (s.listFor type).2 with nextEntry := (s.listFor type).2.nextEntry + 1 }
  let e : Entry Fn := ⟨(s.listFor type).2.nextEntry, type, (s.listFor type).1, f, false⟩
  have hstack : t.stack = [] := (State.listFor_stack s type).trans h.stack
  have hcalls : t.calls = s.calls := State.listFor_calls s type
  refine ⟨t.add e prepend, ?_, ?_, ?_⟩
  · rw [h.eeWrap_eq]
    exact settles_register e prepend hstack
  · rw [← hcalls, State.add]
    split <;> simp
  rcases h.listFor with ⟨hown, n, hlist, hentries⟩ | ⟨hinherited, hlist⟩
  · have hlists : t.lists type n = s.registrations type :=
      (congrFun (congrFun (State.listFor_lists s type) type) n).trans hentries
    rw [if_pos hown]
    refine holds_add (e := e) prepend hown hstack ?_ (listFor_events s type n hlist) hlist rfl ?_ ?_
    · intro q hq
      rw [← h.others q hq]
      exact listFor_events_of_ne hq
    · rw [hlists]
      exact h.listeners
    · rw [hlists]
      exact h.persistent
  · have hadd : t.add e prepend = t.raise := by
      rw [State.add, show e.list = none from congrArg Prod.fst hlist]
    have ht : t = { s with nextEntry := s.nextEntry + 1 } := by
      simp only [t, hlist]
    have hcounted : Holds type fs t := by
      rw [ht]
      exact h.congr h.stack rfl rfl rfl
    rw [if_neg hinherited, hadd]
    exact hcounted.raise

omit [DecidableEq Fn] in
theorem Holds.nil_of_none (h : Holds type fs s) (hnone : s.events type = none) : fs = [] := by
  rw [← h.listeners, State.registrations, hnone]
  rfl

/-- A removal in which nothing is found. -/
theorem Holds.off_of_absent (h : Holds type fs s) (hmem : f ∉ fs)
    (hoff : s.off type (some f) .off = s.raise ∨ s.off type (some f) .off = s.push .off) :
    ∃ s', (s.off type (some f) .off).Settles 0 s' ∧ Holds type (fs.erase f) s' ∧
      s'.invoked = s.invoked ++ codeHeard type fs (.change (.off f)) := by
  have hheard : codeHeard type fs (.change (.off f)) = [] := if_neg fun hf => hmem hf.2
  rw [List.erase_of_not_mem hmem, hheard, List.append_nil]
  rcases hoff with hoff | hoff
  · rw [hoff]
    exact ⟨s.raise, .refl (by rw [h.raise.stack]; rfl), h.raise, rfl⟩
  · rw [hoff]
    exact ⟨s.finish .emitter, settles_off h.stack, h.finish _,
      invoked_congr (State.finish_calls _ _)⟩

/-- The notification of a removal calls the persistent observers, and then `off` returns. -/
theorem settles_notify {about : Notice Fn} (hstack : s.stack = [])
    (harray : s.events "removeListener" = some n)
    (hpersistent : ∀ e ∈ s.lists "removeListener" n, e.once = false) :
    ((s.push .off).push (.emit "removeListener" about)).Settles 0
      (({ s with calls := ((s.lists "removeListener" n).map (⟨·, about⟩)).reverse ++ s.calls } :
        State Fn).finish .emitter) := by
  refine .of_idle (Nat.succ_pos _) ?_
  show ((s.push .off).emit "removeListener" about).Settles 0 _
  have harray' : (s.push .off).events "removeListener" = some n := harray
  by_cases hempty : s.lists "removeListener" n = []
  · have hemit : (s.push .off).emit "removeListener" about = s.push .off := by
      rw [State.emit, State.slot_eq_array.mpr harray']
      exact if_pos (by simp [hempty])
    rw [hemit, hempty]
    exact settles_off hstack
  · rw [emit_of_array about harray' hempty]
    refine settles_loop hpersistent (Nat.zero_le _) ?_
    exact settles_off
      (s := { s with calls := ((s.lists "removeListener" n).map (⟨·, about⟩)).reverse ++ s.calls })
      hstack

/-- The array without the first entry of the function. -/
def removed (f : Fn) (entries : List (Entry Fn)) : List (Entry Fn) :=
  entries.eraseP (some ·.listener = some f)

theorem map_listener_removed (f : Fn) (entries : List (Entry Fn)) :
    (removed f entries).map Entry.listener = (entries.map Entry.listener).erase f := by
  have hpred : (fun e : Entry Fn => decide (some e.listener = some f)) =
      (· == f) ∘ Entry.listener := by
    funext e
    simp only [Option.some.injEq]
    rfl
  rw [List.erase_eq_eraseP', List.eraseP_map, ← hpred]
  rfl

/-- Where `off` finds the function it takes the entry out, and sends a notification if
`removeListener` has an array. -/
theorem off_of_found (harray : s.events type = some n)
    (hfound : f ∈ (s.lists type n).map Entry.listener) :
    s.off type (some f) .off =
      if s.slot "removeListener" ≠ .undefined then
        ((s.setList type n (removed f (s.lists type n))).push .off).push
          (.emit "removeListener" (some (type, f)))
      else (s.setList type n (removed f (s.lists type n))).push .off := by
  have hany : (s.lists type n).any (some ·.listener = some f) = true := by
    simpa using hfound
  rw [State.off, State.slot_eq_array.mpr harray]
  exact if_pos hany

section Removal

variable (h : Holds type fs s) (harray : s.events type = some n)

include h harray

omit [DecidableEq Fn] in
theorem Holds.map_listener : (s.lists type n).map Entry.listener = fs :=
  registrations_eq harray ▸ h.listeners

theorem Holds.persistent_removed (f : Fn) :
    ∀ e ∈ removed f (s.lists type n), e.once = false := by
  intro e he
  exact h.persistent e (registrations_eq harray ▸ List.mem_of_mem_eraseP he)

theorem Holds.setList_removed (f : Fn) :
    Holds type (fs.erase f) (s.setList type n (removed f (s.lists type n))) := by
  have hregistrations := registrations_setList (removed f (s.lists type n)) harray
  refine ⟨h.stack, h.others, h.inherited, ?_, ?_, ?_⟩
  · rw [hregistrations, map_listener_removed, h.map_listener harray]
  · rw [hregistrations]
    exact h.persistent_removed harray f
  · intro hnone
    cases harray.symm.trans hnone

end Removal

/-- The observers of `removeListener` that are left are told of the removal of one of them. -/
theorem Holds.off_observer (h : Holds "removeListener" fs s)
    (harray : s.events "removeListener" = some n) (hmem : f ∈ fs) :
    ∃ s', (s.off "removeListener" (some f) .off).Settles 0 s' ∧
      Holds "removeListener" (fs.erase f) s' ∧
      s'.invoked = s.invoked ++ codeHeard "removeListener" fs (.change (.off f)) := by
  have hslot := State.slot_eq_array.mpr harray
  have hentries := h.map_listener harray
  have hleft := h.setList_removed harray f
  have hnotified : (s.setList "removeListener" n (removed f (s.lists "removeListener" n))).lists
      "removeListener" n = removed f (s.lists "removeListener" n) := if_pos ⟨rfl, rfl⟩
  rw [off_of_found harray (hentries ▸ hmem), if_pos (by simp [hslot])]
  refine ⟨_, settles_notify h.stack harray ?_, (hleft.setCalls _).finish _, ?_⟩
  · rw [hnotified]
    exact h.persistent_removed harray f
  · rw [invoked_congr (State.finish_calls _ _), invoked_append, hnotified, codeHeard,
      if_pos ⟨rfl, hmem⟩, ← hentries, ← map_listener_removed]
    simp [invoked_congr (State.setList_calls s _ _ _), Function.comp_def]

/-- Nobody observes the removals of another type. -/
theorem Holds.off_ordinary (h : Holds type fs s) (htype : type ≠ "removeListener")
    (harray : s.events type = some n) (hmem : f ∈ fs) :
    ∃ s', (s.off type (some f) .off).Settles 0 s' ∧ Holds type (fs.erase f) s' ∧
      s'.invoked = s.invoked ++ codeHeard type fs (.change (.off f)) := by
  have hundefined : s.slot "removeListener" = .undefined := by
    rw [State.slot_removeListener, h.others _ (Ne.symm htype)]
  rw [off_of_found harray (h.map_listener harray ▸ hmem), if_neg (by simp [hundefined])]
  refine ⟨_, settles_off h.stack, (h.setList_removed harray f).finish _, ?_⟩
  rw [invoked_congr (State.finish_calls _ _), codeHeard, if_neg fun hf => htype hf.1,
    List.append_nil]
  rfl

/-- A removal takes the first occurrence out and notifies the observers of the type. -/
theorem Holds.off (h : Holds type fs s) (f : Fn) :
    ∃ s', (s.off type (some f) .off).Settles 0 s' ∧ Holds type (fs.erase f) s' ∧
      s'.invoked = s.invoked ++ codeHeard type fs (.change (.off f)) := by
  cases hevents : s.events type with
  | none =>
    obtain rfl := h.nil_of_none hevents
    refine h.off_of_absent List.not_mem_nil ?_
    unfold State.off
    split
    next n hslot =>
      rw [State.slot_eq_array, hevents] at hslot
      cases hslot
    next => exact .inl rfl
    next => exact .inr rfl
  | some n =>
    by_cases hmem : f ∈ fs
    · by_cases htype : type = "removeListener"
      · subst htype
        exact h.off_observer hevents hmem
      · exact h.off_ordinary htype hevents hmem
    · have hnone : ¬ (s.lists type n).any (some ·.listener = some f) = true := by
        rw [← h.map_listener hevents] at hmem
        simpa using hmem
      refine h.off_of_absent hmem (.inr ?_)
      rw [State.off, State.slot_eq_array.mpr hevents]
      exact if_neg hnone

/-- Every call on the type refines what the list does. -/
theorem Holds.refines (h : Holds type fs s) (op : ListOp Fn) : ∃ s', Refines type fs op s s' := by
  cases op with
  | emit => exact h.emit
  | change c =>
    cases c with
    | on f =>
      obtain ⟨s', hsettles, hcalls, hholds⟩ := h.eeWrap f false
      refine ⟨s', h.completes hholds.stack hsettles, hholds, ?_⟩
      rw [invoked_congr hcalls]
      exact (List.append_nil _).symm
    | prependListener f =>
      obtain ⟨s', hsettles, hcalls, hholds⟩ := h.eeWrap f true
      refine ⟨s', h.completes hholds.stack hsettles, hholds, ?_⟩
      rw [invoked_congr hcalls]
      exact (List.append_nil _).symm
    | off f =>
      obtain ⟨s', hsettles, hholds, hinvoked⟩ := h.off f
      exact ⟨s', h.completes hholds.stack hsettles, hholds, hinvoked⟩

/-- A sequence of calls comes to its end and calls the listeners that the list calls. -/
theorem Holds.plays (h : Holds type fs s) (ops : List (ListOp Fn)) :
    ∃ s', Plays type s ops s' ∧ s'.invoked = s.invoked ++ codeCalls type fs ops := by
  induction ops generalizing fs s with
  | nil => exact ⟨s, .nil s, (List.append_nil _).symm⟩
  | cons op ops ih =>
    obtain ⟨s', hop, hholds, hinvoked⟩ := h.refines op
    obtain ⟨s'', hplays, hrest⟩ := ih hholds
    refine ⟨s'', .cons hop hplays, ?_⟩
    rw [hrest, hinvoked, List.append_assoc, codeCalls]

theorem followsNode_iff {ops : List (ListOp Fn)} :
    FollowsNode type ops ↔ codeCalls type [] ops = nodeCalls [] ops := by
  obtain ⟨s, hplays, hinvoked⟩ := (Holds.fresh type).plays ops
  have hcode : s.invoked = codeCalls type [] ops := hinvoked
  constructor
  · rintro ⟨s', hplays', hnode⟩
    rw [← hcode, hplays.unique hplays', hnode]
  · intro h
    exact ⟨s, hplays, hcode.trans h⟩

/-! ## The two lists -/

section Compare

variable {cs : List (Change Fn)}

theorem nodeCalls_changes (fs : List Fn) (cs : List (Change Fn)) :
    nodeCalls fs (cs.map .change) = [] := by
  induction cs generalizing fs with
  | nil => rfl
  | cons c cs ih => exact ih _

theorem codeCalls_changes (h : type ≠ "removeListener") (fs : List Fn) (cs : List (Change Fn)) :
    codeCalls type fs (cs.map .change) = [] := by
  induction cs generalizing fs with
  | nil => rfl
  | cons c cs ih =>
    have hheard : codeHeard type fs (.change c) = [] := by
      cases c with
      | off f => exact if_neg fun hf => h hf.1
      | on f => rfl
      | prependListener f => rfl
    rw [List.map_cons, codeCalls, hheard, ih]
    rfl

omit [DecidableEq Fn] in
theorem filterMap_changes (cs : List (Change Fn)) :
    (cs.map ListOp.change).filterMap ListOp.change? = cs := by
  induction cs with
  | nil => rfl
  | cons c cs ih => exact congrArg (c :: ·) ih

/-- After an unambiguous change the lists are the same, and no observer has been notified. -/
theorem Unambiguous.agree {c : Change Fn} (hown : inheritedLength type = none)
    (h : Unambiguous type fs c) :
    codeAfter type fs (.change c) = nodeChange fs c ∧ codeHeard type fs (.change c) = [] := by
  cases c with
  | on f => exact ⟨if_pos hown, rfl⟩
  | prependListener f => exact ⟨if_pos hown, rfl⟩
  | off f =>
    rw [Unambiguous] at h
    split at h
    next htype =>
      rcases h with hmem | rfl
      · refine ⟨?_, if_neg fun hf => hmem hf.2⟩
        exact (List.erase_of_not_mem hmem).trans (eraseLast_of_notMem hmem).symm
      · have herase : [f].erase f = [] := List.erase_cons_head f []
        refine ⟨herase.trans (eraseLast_cons_self List.not_mem_nil).symm, ?_⟩
        rw [codeHeard, herase, ite_self]
    next htype => exact ⟨erase_eq_eraseLast_iff.mpr h, if_neg fun hf => htype hf.1⟩

/-- Lists that call the same listeners whatever is emitted in between: the next change is
unambiguous. -/
theorem unambiguous_of_calls {c : Change Fn}
    (h : ∀ ops : List (ListOp Fn), ops.filterMap ListOp.change? = c :: cs →
      codeCalls type fs ops = nodeCalls fs ops) : Unambiguous type fs c := by
  cases c with
  | on f => trivial
  | prependListener f => trivial
  | off f =>
    rw [Unambiguous]
    split
    next htype =>
      -- without an `emit` only a notification calls listeners
      have hquiet := h ((Change.off f :: cs).map .change) (filterMap_changes _)
      rw [nodeCalls_changes, List.map_cons, codeCalls] at hquiet
      have hheard := (List.append_eq_nil_iff.mp hquiet).1
      rw [codeHeard] at hheard
      by_cases hmem : f ∈ fs
      · rw [if_pos ⟨htype, hmem⟩] at hheard
        exact .inr (List.perm_singleton.mp ((List.perm_cons_erase hmem).trans (by rw [hheard])))
      · exact .inl hmem
    next htype =>
      have hemitted := h (.change (.off f) :: .emit :: cs.map .change)
        (congrArg (Change.off f :: ·) (filterMap_changes cs))
      have hheard : codeHeard type fs (.change (.off f)) = [] := if_neg fun hf => htype hf.1
      simp only [codeCalls, hheard, nodeCalls, codeCalls_changes htype, nodeCalls_changes,
        List.append_nil, List.nil_append] at hemitted
      exact erase_eq_eraseLast_iff.mp hemitted

/-- The lists call the same listeners whatever is emitted in between. -/
theorem calls_agree_iff (hown : inheritedLength type = none) :
    (∀ ops : List (ListOp Fn), ops.filterMap ListOp.change? = cs →
      codeCalls type fs ops = nodeCalls fs ops) ↔
      Transition.Follows nodeChange (Unambiguous type) fs cs := by
  constructor
  · intro h
    induction cs generalizing fs with
    | nil => trivial
    | cons c cs ih =>
      have hc := unambiguous_of_calls h
      obtain ⟨hafter, hheard⟩ := hc.agree hown
      refine ⟨hc, ih ?_⟩
      intro ops hops
      have hnext := h (.change c :: ops) (congrArg (c :: ·) hops)
      rw [codeCalls, hheard, hafter] at hnext
      exact hnext
  · intro h ops hops
    induction ops generalizing fs cs with
    | nil => rfl
    | cons op ops ih =>
      cases op with
      | emit => exact congrArg (fs ++ ·) (ih h hops)
      | change c =>
        cases hops
        obtain ⟨hafter, hheard⟩ := h.1.agree hown
        rw [codeCalls, hheard, hafter]
        exact ih h.2 rfl

/-- A type of an inherited property never gets a listener. -/
theorem codeCalls_inherited (h : inheritedLength type ≠ none) (ops : List (ListOp Fn)) :
    codeCalls type [] ops = [] := by
  induction ops with
  | nil => rfl
  | cons op ops ih =>
    have hop : codeHeard type ([] : List Fn) op = [] ∧ codeAfter type [] op = [] := by
      cases op with
      | emit => exact ⟨rfl, rfl⟩
      | change c =>
        cases c with
        | on f => exact ⟨rfl, if_neg h⟩
        | prependListener f => exact ⟨rfl, if_neg h⟩
        | off f => exact ⟨ite_self _, rfl⟩
    rw [codeCalls, hop.1, hop.2, ih]
    rfl

/-- Node's list calls nobody whatever is emitted, exactly if nothing is registered. -/
theorem nodeCalls_nil_iff :
    (∀ ops : List (ListOp Fn), ops.filterMap ListOp.change? = cs → [] = nodeCalls [] ops) ↔
      ∀ c ∈ cs, c.registers = false := by
  constructor
  · intro h
    induction cs with
    | nil => simp
    | cons c cs ih =>
      have hemitted := h (.change c :: .emit :: cs.map .change)
        (congrArg (c :: ·) (filterMap_changes cs))
      cases c with
      | on f => cases hemitted
      | prependListener f => cases hemitted
      | off f =>
        refine List.forall_mem_cons.mpr ⟨rfl, ih ?_⟩
        intro ops hops
        exact h (.change (.off f) :: ops) (congrArg (Change.off f :: ·) hops)
  · intro h ops hops
    induction ops generalizing cs with
    | nil => rfl
    | cons op ops ih =>
      cases op with
      | emit => exact ih h hops
      | change c =>
        cases hops
        obtain ⟨hc, hcs⟩ := List.forall_mem_cons.mp h
        cases c with
        | on f => cases hc
        | prependListener f => cases hc
        | off f => exact ih hcs rfl

/-- Removals from an empty list are unambiguous. -/
theorem follows_of_removals (h : ∀ c ∈ cs, c.registers = false) :
    Transition.Follows nodeChange (Unambiguous type) [] cs := by
  induction cs with
  | nil => trivial
  | cons c cs ih =>
    obtain ⟨hc, hcs⟩ := List.forall_mem_cons.mp h
    cases c with
    | on f => cases hc
    | prependListener f => cases hc
    | off f =>
      refine ⟨?_, ih hcs⟩
      rw [Unambiguous]
      split
      next => exact .inl List.not_mem_nil
      next => exact erase_eq_eraseLast_iff.mp rfl

end Compare

/-- Whatever is emitted between the changes, the listeners are called as Node's list calls them,
exactly if the type is not the name of an inherited property or nothing is registered, and every
removal is unambiguous. -/
theorem followsNode_always_iff (type : String) (cs : List (Change Fn)) :
    (∀ ops : List (ListOp Fn), ops.filterMap ListOp.change? = cs → FollowsNode type ops) ↔
      (inheritedLength type = none ∨ ∀ c ∈ cs, c.registers = false) ∧
        Transition.Follows nodeChange (Unambiguous type) [] cs := by
  simp only [followsNode_iff]
  by_cases hown : inheritedLength type = none
  · rw [calls_agree_iff hown, and_iff_right (.inl hown)]
  · simp only [codeCalls_inherited hown, nodeCalls_nil_iff]
    constructor
    · intro h
      exact ⟨.inr h, follows_of_removals h⟩
    · rintro ⟨hcases, -⟩
      exact hcases.resolve_left hown

/-- After `on(f)`, `on(g)`, `on(f)` and `off(f)` the emitter calls `g` first, and Node `f`. -/
theorem repeated_listener_removed :
    ¬ FollowsNode "x" [.change (.on 'f'), .change (.on 'g'), .change (.on 'f'),
      .change (.off 'f'), .emit] := by
  rw [followsNode_iff]
  decide

end Events
