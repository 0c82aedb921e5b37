import Mathlib.Logic.Equiv.Basic
import QuickjsRuntime.Events.ListDiscipline

/-! # Renaming event types

The emitter compares types with `error`, `newListener` and `removeListener` and uses them
otherwise only as keys of `_ncEvents`. A run whose types are renamed is therefore the same run
as far as a script can tell, unless a type or its new name is a key that a plain object inherits:
such a key has a value before anything is registered.
-/

namespace Events

variable {Fn : Type}

/-! ## Model -/

/-- A renaming of types. The three types that the emitter knows keep their names; being
injective, it then maps no other type to them. -/
structure Renaming where
  rename : String → String
  injective : Function.Injective rename
  error : rename "error" = "error"
  newListener : rename "newListener" = "newListener"
  removeListener : rename "removeListener" = "removeListener"

instance : CoeFun Renaming fun _ => String → String := ⟨Renaming.rename⟩

variable (σ : Renaming)

def Notice.rename (about : Notice Fn) : Notice Fn := about.map fun (type, f) => (σ type, f)

def Entry.rename (e : Entry Fn) : Entry Fn := { e with type := σ e.type }

def Call.rename (c : Call Fn) : Call Fn := ⟨c.entry.rename σ, Notice.rename σ c.about⟩

def Frame.rename : Frame Fn → Frame Fn
  | .listener e => .listener (e.rename σ)
  | .emit type about => .emit (σ type) (Notice.rename σ about)
  | .loop type list rest about =>
    .loop (σ type) list (rest.map (Entry.rename σ)) (Notice.rename σ about)
  | .wrapper e about => .wrapper (e.rename σ) (Notice.rename σ about)
  | .register e prepend => .register (e.rename σ) prepend
  | .off => .off

def Op.rename : Op Fn → Op Fn
  | .on type f => .on (σ type) f
  | .prependListener type f => .prependListener (σ type) f
  | .once type f => .once (σ type) f
  | .prependOnceListener type f => .prependOnceListener (σ type) f
  | .off type f => .off (σ type) f
  | .removeAllListeners type => .removeAllListeners (type.map σ)
  | .emit type => .emit (σ type)
  | .listenerCount type => .listenerCount (σ type)

def Label.rename : Label Fn → Label Fn
  | .call op => .call (op.rename σ)
  | .leave => .leave
  | .throw => .throw
  | .go => .go

/-- The type that a call of the script names. -/
def Op.type? : Op Fn → Option String
  | .on type _ | .prependListener type _ | .once type _ | .prependOnceListener type _
  | .off type _ | .emit type | .listenerCount type => some type
  | .removeAllListeners type => type

def Label.type? : Label Fn → Option String
  | .call op => op.type?
  | _ => none

/-- What a script sees of a run: the listeners that were called and how its calls ended, or that
the run is none. -/
def observed [DecidableEq Fn] (labels : List (Label Fn)) : Option (List Fn × List Answer) :=
  (Transition.run State.step State.fresh labels).map fun s => (s.invoked, s.answers)

/-! ## The renamed state -/

theorem Renaming.eq_iff {q q' : String} : σ q = σ q' ↔ q = q' := σ.injective.eq_iff

/-- No other type gets the name of a type that keeps its name. -/
theorem Renaming.eq_fixed {q r : String} (hr : σ r = r) : σ q = r ↔ q = r := by
  constructor
  · intro h
    exact σ.injective (h.trans hr.symm)
  · rintro rfl
    exact hr

theorem Entry.rename_injective : Function.Injective (Entry.rename σ : Entry Fn → Entry Fn) := by
  rintro ⟨id, type, list, listener, once⟩ ⟨id', type', list', listener', once'⟩ h
  simp only [Entry.rename, Entry.mk.injEq, σ.eq_iff] at h
  obtain ⟨rfl, rfl, rfl, rfl, rfl⟩ := h
  rfl

@[simp] theorem Frame.isScript_rename (frame : Frame Fn) :
    (frame.rename σ).isScript = frame.isScript := by
  cases frame <;> rfl

/-- The types of the entries and emissions that the frame holds. -/
def Frame.Names (P : String → Prop) : Frame Fn → Prop
  | .emit type _ => P type
  | .loop _ _ rest _ => ∀ e ∈ rest, P e.type
  | .register e _ => P e.type
  | _ => True

/-- A state and its renamed state; every type that occurs meets `P`. -/
structure Renamed (P : String → Prop) (s s' : State Fn) : Prop where
  events : ∀ q, s'.events (σ q) = s.events q
  lists : ∀ q n, s'.lists (σ q) n = (s.lists q n).map (Entry.rename σ)
  nextList : s'.nextList = s.nextList
  nextEntry : s'.nextEntry = s.nextEntry
  stack : s'.stack = s.stack.map (Frame.rename σ)
  calls : s'.calls = s.calls.map (Call.rename σ)
  answers : s'.answers = s.answers
  frames : ∀ frame ∈ s.stack, frame.Names P
  entries : ∀ q n, ∀ e ∈ s.lists q n, P e.type

/-- The types that the script and the emitter use have values alike before anything is
registered. -/
structure Renaming.Keeps (P : String → Prop) : Prop where
  inherited : ∀ q, P q → inheritedLength (σ q) = inheritedLength q
  newListener : P "newListener"
  removeListener : P "removeListener"

variable {σ} {P : String → Prop} {s s' : State Fn} {q : String} {n : Nat}

namespace Renamed

theorem fresh : Renamed σ P (State.fresh : State Fn) State.fresh where
  events := fun _ => rfl
  lists := fun _ _ => rfl
  nextList := rfl
  nextEntry := rfl
  stack := rfl
  calls := rfl
  answers := rfl
  frames := fun _ hframe => absurd hframe List.not_mem_nil
  entries := fun _ _ _ he => absurd he List.not_mem_nil

theorem observed_eq (h : Renamed σ P s s') : (s'.invoked, s'.answers) = (s.invoked, s.answers) := by
  rw [State.invoked, State.invoked, h.calls, h.answers, ← List.map_reverse, List.map_map]
  rfl

theorem slot (h : Renamed σ P s s') (hσ : σ.Keeps P) (hq : P q) : s'.slot (σ q) = s.slot q := by
  rw [State.slot, State.slot, h.events, hσ.inherited q hq]

theorem slot_newListener (h : Renamed σ P s s') (hσ : σ.Keeps P) :
    s'.slot "newListener" = s.slot "newListener" := by
  have hslot := h.slot hσ hσ.newListener
  rwa [σ.newListener] at hslot

theorem slot_removeListener (h : Renamed σ P s s') (hσ : σ.Keeps P) :
    s'.slot "removeListener" = s.slot "removeListener" := by
  have hslot := h.slot hσ hσ.removeListener
  rwa [σ.removeListener] at hslot

theorem inScript (h : Renamed σ P s s') : s'.inScript = s.inScript := by
  rw [State.inScript, State.inScript, h.stack]
  cases s.stack with
  | nil => rfl
  | cons frame below => exact Frame.isScript_rename σ frame

theorem setStack (h : Renamed σ P s s') {stack : List (Frame Fn)}
    (hframes : ∀ frame ∈ stack, frame.Names P) :
    Renamed σ P { s with stack } { s' with stack := stack.map (Frame.rename σ) } :=
  { h with stack := rfl, frames := hframes }

theorem push (h : Renamed σ P s s') (frame : Frame Fn) (hframe : frame.Names P) :
    Renamed σ P (s.push frame) (s'.push (frame.rename σ)) := by
  refine { h with stack := ?_, frames := List.forall_mem_cons.mpr ⟨hframe, h.frames⟩ }
  exact congrArg (frame.rename σ :: ·) h.stack

theorem raise (h : Renamed σ P s s') : Renamed σ P s.raise s'.raise := by
  have hdrop : s'.stack.dropWhile (!·.isScript) =
      (s.stack.dropWhile (!·.isScript)).map (Frame.rename σ) := by
    rw [h.stack, List.dropWhile_map]
    simp [Function.comp_def]
  refine { h with stack := hdrop, answers := congrArg (Answer.threw :: ·) h.answers, frames := ?_ }
  intro frame hframe
  exact h.frames frame ((List.dropWhile_suffix _).subset hframe)

theorem finish (h : Renamed σ P s s') (answer : Answer) :
    Renamed σ P (s.finish answer) (s'.finish answer) := by
  unfold State.finish
  rw [h.inScript]
  split
  next => exact { h with answers := congrArg (answer :: ·) h.answers }
  next => exact h

theorem setList (h : Renamed σ P s s') (q : String) (n : Nat) {entries : List (Entry Fn)}
    (hentries : ∀ e ∈ entries, P e.type) :
    Renamed σ P (s.setList q n entries) (s'.setList (σ q) n (entries.map (Entry.rename σ))) := by
  refine { h with lists := ?_, entries := ?_ }
  · intro q' n'
    rw [State.setList_lists, State.setList_lists]
    by_cases hsame : q' = q ∧ n' = n
    · rw [if_pos hsame, if_pos ⟨σ.eq_iff.mpr hsame.1, hsame.2⟩]
    · rw [if_neg hsame, if_neg fun heq => hsame ⟨σ.eq_iff.mp heq.1, heq.2⟩]
      exact h.lists q' n'
  · intro q' n' e he
    rw [State.setList_lists] at he
    split at he
    next => exact hentries e he
    next => exact h.entries q' n' e he

theorem invoke (h : Renamed σ P s s') (e : Entry Fn) (about : Notice Fn) :
    Renamed σ P (s.invoke e about) (s'.invoke (e.rename σ) (Notice.rename σ about)) :=
  { h.push (.listener e) trivial with
    calls := congrArg (Call.rename σ ⟨e, about⟩ :: ·) h.calls }

theorem setEvents (h : Renamed σ P s s') (list : Option Nat) :
    Renamed σ P { s with events := Function.update s.events q list }
      { s' with events := Function.update s'.events (σ q) list } := by
  refine { h with events := ?_ }
  intro q'
  show Function.update s'.events (σ q) list (σ q') = Function.update s.events q list q'
  by_cases hsame : q' = q
  · subst hsame
    rw [Function.update_self, Function.update_self]
  · rw [Function.update_of_ne hsame, Function.update_of_ne (mt σ.eq_iff.mp hsame)]
    exact h.events q'

/-! ## The pieces of code -/

theorem listFor (h : Renamed σ P s s') (hσ : σ.Keeps P) (hq : P q) :
    (s'.listFor (σ q)).1 = (s.listFor q).1 ∧ Renamed σ P (s.listFor q).2 (s'.listFor (σ q)).2 := by
  unfold State.listFor
  rw [h.slot hσ hq]
  split
  next => exact ⟨rfl, h⟩
  next => exact ⟨rfl, h⟩
  next =>
    rw [h.nextList]
    exact ⟨rfl, { h.setEvents (some s.nextList) with nextList := rfl }⟩

theorem enroll (h : Renamed σ P s s') (hσ : σ.Keeps P) (hq : P q) (f : Fn) (once prepend : Bool) :
    Renamed σ P (s.enroll q f once prepend) (s'.enroll (σ q) f once prepend) := by
  obtain ⟨hlist, hnext⟩ := h.listFor hσ hq
  have hentry : Entry.rename σ ⟨(s.listFor q).2.nextEntry, q, (s.listFor q).1, f, once⟩ =
      ⟨(s'.listFor (σ q)).2.nextEntry, σ q, (s'.listFor (σ q)).1, f, once⟩ := by
    rw [hlist, hnext.nextEntry]
    rfl
  have hcounted : Renamed σ P
      { (s.listFor q).2 with nextEntry := (s.listFor q).2.nextEntry + 1 }
      { (s'.listFor (σ q)).2 with nextEntry := (s'.listFor (σ q)).2.nextEntry + 1 } :=
    { hnext with nextEntry := congrArg (· + 1) hnext.nextEntry }
  have hpushed := hcounted.push (.register
    ⟨(s.listFor q).2.nextEntry, q, (s.listFor q).1, f, once⟩ prepend) hq
  rw [Frame.rename, hentry] at hpushed
  exact hpushed

theorem hasListeners (h : Renamed σ P s s') (hσ : σ.Keeps P) :
    s'.hasListeners "newListener" = s.hasListeners "newListener" := by
  unfold State.hasListeners
  rw [h.slot_newListener hσ]
  split
  next n _ =>
    have hlists := h.lists "newListener" n
    rw [σ.newListener] at hlists
    rw [hlists, List.isEmpty_map]
  next => rfl
  next => rfl

theorem announce (h : Renamed σ P s s') (hσ : σ.Keeps P) (f : Fn) (test : State Fn → Bool)
    (htest : test s' = test s) :
    Renamed σ P (s.announce q f test) (s'.announce (σ q) f test) := by
  unfold State.announce
  simp only [ne_eq, σ.eq_fixed σ.newListener, σ.eq_fixed σ.removeListener, htest]
  split
  next =>
    have hpushed := h.push (.emit "newListener" (some (q, f))) hσ.newListener
    rw [Frame.rename, σ.newListener] at hpushed
    exact hpushed
  next => exact h

theorem eeWrap (h : Renamed σ P s s') (hσ : σ.Keeps P) (hq : P q) (f : Option Fn) (prepend : Bool) :
    Renamed σ P (s.eeWrap q f prepend) (s'.eeWrap (σ q) f prepend) := by
  cases f with
  | none => exact h.raise
  | some f =>
    have henrolled := h.enroll hσ hq f false prepend
    exact henrolled.announce hσ f (·.hasListeners "newListener") (henrolled.hasListeners hσ)

theorem once (h : Renamed σ P s s') (hσ : σ.Keeps P) (hq : P q) (f : Option Fn) :
    Renamed σ P (s.once q f) (s'.once (σ q) f) := by
  cases f with
  | none => exact h.raise
  | some f =>
    have henrolled := h.enroll hσ hq f true false
    refine henrolled.announce hσ f (·.slot "newListener" ≠ .undefined) ?_
    rw [henrolled.slot_newListener hσ]

theorem removeAllListeners (h : Renamed σ P s s') (type : Option String) :
    Renamed σ P (s.removeAllListeners type) (s'.removeAllListeners (type.map σ)) := by
  cases type with
  | none => exact { h with events := fun _ => rfl }
  | some q => exact h.setEvents none

theorem listenerCount (h : Renamed σ P s s') (hσ : σ.Keeps P) (hq : P q) :
    s'.listenerCount (σ q) = s.listenerCount q := by
  unfold State.listenerCount
  rw [h.slot hσ hq]
  split
  next n _ => rw [h.lists, List.length_map]
  next => rfl
  next => rfl

theorem unheard (h : Renamed σ P s s') (q : String) :
    Renamed σ P (s.unheard q) (s'.unheard (σ q)) := by
  unfold State.unheard
  simp only [σ.eq_fixed σ.error]
  split
  next => exact h.raise
  next => exact h.finish _

theorem emit (h : Renamed σ P s s') (hσ : σ.Keeps P) (hq : P q) (about : Notice Fn) :
    Renamed σ P (s.emit q about) (s'.emit (σ q) (Notice.rename σ about)) := by
  unfold State.emit
  rw [h.slot hσ hq]
  split
  next n _ =>
    rw [h.lists, List.isEmpty_map]
    split
    next => exact h.unheard q
    next => exact h.push (.loop q n (s.lists q n) about) (h.entries q n)
  next => exact h.raise
  next => exact h.unheard q

theorem add (h : Renamed σ P s s') {e : Entry Fn} (he : P e.type) (prepend : Bool) :
    Renamed σ P (s.add e prepend) (s'.add (e.rename σ) prepend) := by
  unfold State.add
  rw [show (e.rename σ).list = e.list from rfl]
  split
  next n _ =>
    have hentries : ∀ x ∈ if prepend then e :: s.lists e.type n else s.lists e.type n ++ [e],
        P x.type := by
      intro x hx
      have hcases : x ∈ s.lists e.type n ∨ x = e := by
        cases prepend <;> simpa [or_comm] using hx
      rcases hcases with hold | rfl
      · exact h.entries e.type n x hold
      · exact he
    have hset := (h.setList e.type n hentries).finish .emitter
    rw [apply_ite (List.map (Entry.rename σ)), List.map_cons, List.map_append, ← h.lists] at hset
    exact hset
  next => exact h.raise

section Removal

variable [DecidableEq Fn]

theorem off (h : Renamed σ P s s') (hσ : σ.Keeps P) (hq : P q) (f : Option Fn) (next : Frame Fn)
    (hnext : next.Names P) :
    Renamed σ P (s.off q f next) (s'.off (σ q) f (next.rename σ)) := by
  have hlistener : (fun e : Entry Fn => decide (some e.listener = f)) ∘ Entry.rename σ =
      fun e => decide (some e.listener = f) := rfl
  unfold State.off
  rw [h.slot hσ hq, h.slot_removeListener hσ]
  split
  next n _ =>
    have hany : (s'.lists (σ q) n).any (some ·.listener = f) =
        (s.lists q n).any (some ·.listener = f) := by
      rw [h.lists, List.any_map, hlistener]
    have herased : (s'.lists (σ q) n).eraseP (some ·.listener = f) =
        ((s.lists q n).eraseP (some ·.listener = f)).map (Entry.rename σ) := by
      rw [h.lists, List.eraseP_map, hlistener]
    have hentries : ∀ e ∈ (s.lists q n).eraseP (some ·.listener = f), P e.type := by
      intro e he
      exact h.entries q n e (List.mem_of_mem_eraseP he)
    have hset := (h.setList q n hentries).push next hnext
    rw [hany, herased]
    split
    next =>
      cases f with
      | none => exact hset
      | some f =>
        dsimp only
        split
        next =>
          have hpushed := hset.push (.emit "removeListener" (some (q, f)))
            hσ.removeListener
          rw [Frame.rename, σ.removeListener] at hpushed
          exact hpushed
        next => exact hset
    next => exact h.push next hnext
  next => exact h.raise
  next => exact h.push next hnext

theorem visit (h : Renamed σ P s s') (hσ : σ.Keeps P) {e : Entry Fn} (he : P e.type)
    (about : Notice Fn) :
    Renamed σ P (s.visit q n e about) (s'.visit (σ q) n (e.rename σ) (Notice.rename σ about)) := by
  unfold State.visit
  rw [show (e.rename σ).once = e.once from rfl]
  split
  next =>
    have hentries : ∀ x ∈ (s.lists q n).erase e, P x.type := by
      intro x hx
      exact h.entries q n x (List.mem_of_mem_erase hx)
    have hset := h.setList q n hentries
    rw [List.map_erase (Entry.rename_injective σ), ← h.lists] at hset
    exact hset.off hσ he (some e.listener) (.wrapper e about) trivial
  next => exact h.invoke e about

/-- A call of the script that names types of `P` only. -/
theorem call (h : Renamed σ P s s') (hσ : σ.Keeps P) {op : Op Fn} (hop : ∀ q ∈ op.type?, P q) :
    Renamed σ P (s.call op) (s'.call (op.rename σ)) := by
  cases op with
  | on q f => exact h.eeWrap hσ (hop q rfl) f false
  | prependListener q f => exact h.eeWrap hσ (hop q rfl) f true
  | once q f => exact h.once hσ (hop q rfl) f
  | prependOnceListener q f =>
    cases f with
    | none => exact h.raise
    | some f => exact h.enroll hσ (hop q rfl) f true true
  | off q f => exact h.off hσ (hop q rfl) f .off trivial
  | removeAllListeners type => exact (h.removeAllListeners type).finish .emitter
  | emit q => exact h.push (.emit q none) (hop q rfl)
  | listenerCount q =>
    show Renamed σ P _ (s'.finish (.count (s'.listenerCount (σ q))))
    rw [h.listenerCount hσ (hop q rfl)]
    exact h.finish _

theorem resume (h : Renamed σ P s s') (hσ : σ.Keeps P) {frame : Frame Fn}
    (hframe : frame.Names P) : Renamed σ P (s.resume frame) (s'.resume (frame.rename σ)) := by
  cases frame with
  | listener e => exact h
  | emit q about => exact h.emit hσ hframe about
  | loop q n rest about =>
    cases rest with
    | nil => exact h.finish _
    | cons e rest =>
      obtain ⟨he, hrest⟩ := List.forall_mem_cons.mp hframe
      exact (h.push (.loop q n rest about) hrest).visit hσ he about
  | wrapper e about => exact h.invoke e about
  | register e prepend => exact h.add hframe prepend
  | off => exact h.finish _

omit [DecidableEq Fn] in
theorem pop (h : Renamed σ P s s') {frame : Frame Fn} {below : List (Frame Fn)}
    (hstack : s.stack = frame :: below) :
    frame.Names P ∧ Renamed σ P { s with stack := below }
      { s' with stack := below.map (Frame.rename σ) } := by
  have hframes := h.frames
  rw [hstack] at hframes
  obtain ⟨hframe, hbelow⟩ := List.forall_mem_cons.mp hframes
  exact ⟨hframe, h.setStack hbelow⟩

/-- The same step is enabled and leads to the renamed state. -/
theorem step (h : Renamed σ P s s') (hσ : σ.Keeps P) {l : Label Fn} (hl : ∀ q ∈ l.type?, P q) :
    Option.Rel (Renamed σ P) (s.step l) (s'.step (l.rename σ)) := by
  cases l with
  | call op =>
    show Option.Rel _ (if s.inScript then _ else _) (if s'.inScript then _ else _)
    rw [h.inScript]
    split
    next => exact .some (h.call hσ hl)
    next => exact .none
  | leave =>
    unfold State.step Label.rename
    rw [h.stack]
    cases hstack : s.stack with
    | nil => exact .none
    | cons frame below =>
      cases frame with
      | listener e => exact .some (h.pop hstack).2
      | emit | loop | wrapper | register | off => exact .none
  | throw =>
    unfold State.step Label.rename
    rw [h.stack]
    cases hstack : s.stack with
    | nil => exact .none
    | cons frame below =>
      cases frame with
      | listener e => exact .some (h.pop hstack).2.raise
      | emit | loop | wrapper | register | off => exact .none
  | go =>
    unfold State.step Label.rename
    rw [h.stack]
    cases hstack : s.stack with
    | nil => exact .none
    | cons frame below =>
      obtain ⟨hframe, hrest⟩ := h.pop hstack
      cases frame with
      | listener e => exact .none
      | emit | loop | wrapper | register | off => exact .some (hrest.resume hσ hframe)

end Removal

end Renamed

/-! ## What a script can tell -/

section Observation

variable [DecidableEq Fn]

/-- The types that a script uses, and those of the notifications. -/
def Used (T : Set String) (q : String) : Prop := q ∈ T ∨ q = "newListener" ∨ q = "removeListener"

theorem Renaming.keeps_used {T : Set String}
    (h : ∀ q ∈ T, inheritedLength (σ q) = inheritedLength q) : σ.Keeps (Used T) where
  inherited := by
    rintro q (hq | rfl | rfl)
    · exact h q hq
    · rw [σ.newListener]
    · rw [σ.removeListener]
  newListener := .inr (.inl rfl)
  removeListener := .inr (.inr rfl)

/-- A renaming that keeps what a plain object inherits cannot be observed. -/
theorem Renaming.Keeps.observed_eq (hσ : σ.Keeps P) {labels : List (Label Fn)}
    (hlabels : ∀ l ∈ labels, ∀ q ∈ l.type?, P q) :
    observed (labels.map (Label.rename σ)) = observed labels := by
  have hstep : ∀ (s s' : State Fn) (l : Label Fn), Renamed σ P s s' → (∀ q ∈ l.type?, P q) →
      Option.Rel (Renamed σ P) (s.step l) (s'.step (l.rename σ)) :=
    fun s s' l h hl => h.step hσ hl
  have hrun := Transition.run_rel hstep hlabels Renamed.fresh
  unfold observed
  generalize Transition.run State.step State.fresh labels = r at hrun ⊢
  generalize Transition.run State.step State.fresh (labels.map (Label.rename σ)) = r' at hrun ⊢
  cases hrun with
  | none => rfl
  | some h => exact congrArg some h.observed_eq

/-- The first registration of a new emitter throws where the type names an inherited property. -/
theorem observed_on (q : String) (f : Fn) :
    observed [.call (.on q (some f)), .go] =
      some ([], [if inheritedLength q = none then .emitter else .threw]) := by
  have hcall : (State.fresh : State Fn).step (.call (.on q (some f))) =
      some (State.fresh.enroll q f false false) :=
    congrArg some ((Holds.fresh q).eeWrap_eq f false)
  rw [observed, Transition.run_cons, hcall]
  cases h : inheritedLength q with
  | none =>
    simp [Transition.run, State.enroll, State.listFor, State.slot, State.fresh, h, State.push,
      State.step, State.resume, State.add, State.finish, State.inScript, State.invoked,
      State.setList]
  | some length =>
    simp [Transition.run, State.enroll, State.listFor, State.slot, State.fresh, h, State.push,
      State.step, State.resume, State.add, State.raise, State.invoked]

theorem observed_listenerCount (q : String) :
    observed ([.call (.listenerCount q)] : List (Label Fn)) =
      some ([], [.count ((inheritedLength q).getD (some 0))]) := by
  cases h : inheritedLength q <;>
    simp [observed, Transition.run, State.step, State.inScript, State.call, State.finish,
      State.listenerCount, State.slot, State.fresh, State.invoked, h]

/-- No script that uses the types of `T` can tell a renaming, exactly if the types of `T` and their
new names have the same values before anything is registered. -/
theorem renaming_unobservable_iff [Inhabited Fn] (σ : Renaming) (T : Set String) :
    (∀ labels : List (Label Fn), (∀ l ∈ labels, ∀ q ∈ l.type?, q ∈ T) →
        observed (labels.map (Label.rename σ)) = observed labels) ↔
      ∀ q ∈ T, inheritedLength (σ q) = inheritedLength q := by
  constructor
  · intro h q hq
    have hon := h [.call (.on q (some default)), .go] (by simpa [Label.type?, Op.type?] using hq)
    have hcount := h [.call (.listenerCount q)] (by simpa [Label.type?, Op.type?] using hq)
    rw [List.map_cons, List.map_cons, List.map_nil, Label.rename, Op.rename, Label.rename,
      observed_on, observed_on] at hon
    rw [List.map_cons, List.map_nil, Label.rename, Op.rename, observed_listenerCount,
      observed_listenerCount] at hcount
    cases hold : inheritedLength q with
    | none =>
      cases hnew : inheritedLength (σ q) with
      | none => rfl
      | some length => simp [hold, hnew] at hon
    | some length =>
      cases hnew : inheritedLength (σ q) with
      | none => simp [hold, hnew] at hon
      | some length' => simpa [hold, hnew] using hcount
  · intro h labels hlabels
    refine (σ.keeps_used h).observed_eq fun l hl q hq => ?_
    exact .inl (hlabels l hl q hq)

/-- The types `x` and `constructor` exchanged. -/
def exchange : Renaming where
  rename := Equiv.swap "x" "constructor"
  injective := (Equiv.swap "x" "constructor").injective
  error := by decide
  newListener := by decide
  removeListener := by decide

/-- `on("x", f)` returns, and `on("constructor", f)` throws. -/
theorem renaming_observed :
    observed ([.call (.on "x" (some 'f')), .go].map (Label.rename exchange)) ≠
      observed [.call (.on "x" (some 'f')), .go] := by
  decide

end Observation

end Events
