import Mathlib.Data.List.Count
import Mathlib.Logic.Function.Basic
import QuickjsRuntime.Events.Emitter

/-! # What a step of the emitter can do

Seen from one entry, a step starts or ends a stage of its life: it is made by a registering
call, put into its array, copied into the snapshot of a loop, taken from there, and its
listener is called. Every other step drops frames, pushes frames that hold no entry, or
removes entries from an array.
-/

namespace Events

variable {Fn : Type} [DecidableEq Fn] {s s' : State Fn} {l : Label Fn}

/-- The steps, each with what is on top of the stack. -/
inductive Step (s : State Fn) : Label Fn → State Fn → Prop
  | call (op : Op Fn) (hscript : s.inScript = true) : Step s (.call op) (s.call op)
  | leave {e : Entry Fn} {below : List (Frame Fn)} (hstack : s.stack = .listener e :: below) :
      Step s .leave { s with stack := below }
  | throw {e : Entry Fn} {below : List (Frame Fn)} (hstack : s.stack = .listener e :: below) :
      Step s .throw { s with stack := below }.raise
  | go {frame : Frame Fn} {below : List (Frame Fn)} (hstack : s.stack = frame :: below)
      (hframe : frame.isScript = false) : Step s .go ({ s with stack := below }.resume frame)

theorem step_cases (hstep : s.step l = some s') : Step s l s' := by
  cases l with
  | call op =>
    rw [State.step] at hstep
    split at hstep
    next hscript =>
      cases hstep
      exact .call op hscript
    next => cases hstep
  | leave =>
    rw [State.step] at hstep
    split at hstep
    next hstack =>
      cases hstep
      exact .leave hstack
    next => cases hstep
  | throw =>
    rw [State.step] at hstep
    split at hstep
    next hstack =>
      cases hstep
      exact .throw hstack
    next => cases hstep
  | go =>
    rw [State.step] at hstep
    split at hstep
    next => cases hstep
    next => cases hstep
    next frame below hlistener hstack =>
      cases hstep
      refine .go hstack ?_
      cases frame with
      | listener e => exact absurd rfl (hlistener e)
      | emit | loop | wrapper | register | off => rfl

section Top

variable {below : List (Frame Fn)} {frame : Frame Fn} {e : Entry Fn}

/-- The emitter is in control. -/
theorem step_of_frame (hstack : s.stack = frame :: below) (hframe : frame.isScript = false)
    (hstep : s.step l = some s') : s' = { s with stack := below }.resume frame := by
  have hno (e : Entry Fn) (below' : List (Frame Fn)) : s.stack ≠ .listener e :: below' := by
    intro hlistener
    cases hstack.symm.trans hlistener
    cases hframe
  cases step_cases hstep with
  | call op hscript =>
    rw [State.inScript, hstack] at hscript
    exact absurd (hscript.symm.trans hframe) Bool.noConfusion
  | leave hlistener => exact absurd hlistener (hno _ _)
  | throw hlistener => exact absurd hlistener (hno _ _)
  | go hstack' =>
    cases hstack.symm.trans hstack'
    rfl

/-- A listener is in control. -/
theorem step_of_listener (hstack : s.stack = .listener e :: below) (hstep : s.step l = some s') :
    (∃ op, l = .call op ∧ s' = s.call op) ∨ (l = .leave ∧ s' = { s with stack := below }) ∨
      (l = .throw ∧ s' = { s with stack := below }.raise) := by
  cases step_cases hstep with
  | call op => exact .inl ⟨op, rfl, rfl⟩
  | leave hstack' =>
    cases hstack.symm.trans hstack'
    exact .inr (.inl ⟨rfl, rfl⟩)
  | throw hstack' =>
    cases hstack.symm.trans hstack'
    exact .inr (.inr ⟨rfl, rfl⟩)
  | go hstack' hframe =>
    cases hstack.symm.trans hstack'
    cases hframe

/-- The script is in control at the top level. -/
theorem step_of_nil (hstack : s.stack = []) (hstep : s.step l = some s') :
    ∃ op, l = .call op ∧ s' = s.call op := by
  cases step_cases hstep with
  | call op => exact ⟨op, rfl, rfl⟩
  | leave hstack' => cases hstack.symm.trans hstack'
  | throw hstack' => cases hstack.symm.trans hstack'
  | go hstack' => cases hstack.symm.trans hstack'

end Top

/-- A frame that keeps no entry for later. -/
def Frame.isQuiet : Frame Fn → Bool
  | .listener _ | .emit _ _ | .off => true
  | _ => false

/-- The outcomes of a step, as far as entries are concerned. -/
inductive Effect (s : State Fn) : State Fn → Prop
  | quiet {s' : State Fn} (pre below : List (Frame Fn)) (hpre : ∀ f ∈ pre, f.isQuiet)
      (hbelow : below <:+ s.stack) (hstack : s'.stack = pre ++ below)
      (hlists : ∀ t n, (s'.lists t n).Sublist (s.lists t n)) (hcalls : s'.calls = s.calls)
      (hnext : s'.nextEntry = s.nextEntry) : Effect s s'
  | enroll {s' : State Fn} (pre : List (Frame Fn)) (e : Entry Fn) (prepend : Bool)
      (hpre : ∀ f ∈ pre, f.isQuiet) (hid : e.id = s.nextEntry)
      (hlist : ∀ n, e.list = some n → s'.events e.type = some n)
      (hstack : s'.stack = pre ++ .register e prepend :: s.stack) (hlists : s'.lists = s.lists)
      (hcalls : s'.calls = s.calls) (hnext : s'.nextEntry = s.nextEntry + 1) : Effect s s'
  | add {s' : State Fn} (e : Entry Fn) (prepend : Bool) (n : Nat) (below : List (Frame Fn))
      (hbefore : s.stack = .register e prepend :: below) (hlist : e.list = some n)
      (hstack : s'.stack = below)
      (hlists : ∀ t m, s'.lists t m = if t = e.type ∧ m = n then
        (if prepend then e :: s.lists e.type n else s.lists e.type n ++ [e]) else s.lists t m)
      (hcalls : s'.calls = s.calls) (hnext : s'.nextEntry = s.nextEntry) : Effect s s'
  | snapshot {s' : State Fn} (type : String) (about : Notice Fn) (n : Nat)
      (below : List (Frame Fn)) (hbefore : s.stack = .emit type about :: below)
      (harray : s.events type = some n)
      (hstack : s'.stack = .loop type n (s.lists type n) about :: below)
      (hlists : s'.lists = s.lists) (hcalls : s'.calls = s.calls)
      (hnext : s'.nextEntry = s.nextEntry) : Effect s s'
  | persistent {s' : State Fn} (type : String) (n : Nat) (e : Entry Fn) (rest : List (Entry Fn))
      (about : Notice Fn) (below : List (Frame Fn)) (honce : e.once = false)
      (hbefore : s.stack = .loop type n (e :: rest) about :: below)
      (hstack : s'.stack = .listener e :: .loop type n rest about :: below)
      (hlists : s'.lists = s.lists) (hcalls : s'.calls = ⟨e, about⟩ :: s.calls)
      (hnext : s'.nextEntry = s.nextEntry) : Effect s s'
  | wrapped {s' : State Fn} (pre : List (Frame Fn)) (type : String) (n : Nat) (e : Entry Fn)
      (rest : List (Entry Fn)) (about : Notice Fn) (below : List (Frame Fn))
      (hpre : ∀ f ∈ pre, f.isQuiet) (honce : e.once = true)
      (hbefore : s.stack = .loop type n (e :: rest) about :: below)
      (hstack : s'.stack = pre ++ .wrapper e about :: .loop type n rest about :: below)
      (hlists : ∀ t m, (s'.lists t m).Sublist
        (if t = type ∧ m = n then (s.lists type n).erase e else s.lists t m))
      (hcalls : s'.calls = s.calls) (hnext : s'.nextEntry = s.nextEntry) : Effect s s'
  | invoke {s' : State Fn} (e : Entry Fn) (about : Notice Fn) (below : List (Frame Fn))
      (hbefore : s.stack = .wrapper e about :: below)
      (hstack : s'.stack = .listener e :: below) (hlists : s'.lists = s.lists)
      (hcalls : s'.calls = ⟨e, about⟩ :: s.calls) (hnext : s'.nextEntry = s.nextEntry) :
      Effect s s'

namespace Effect

/-- Frames are dropped; nothing else that concerns entries changes. -/
theorem drop (below : List (Frame Fn)) (hbelow : below <:+ s.stack) (hstack : s'.stack = below)
    (hlists : s'.lists = s.lists) (hcalls : s'.calls = s.calls)
    (hnext : s'.nextEntry = s.nextEntry) : Effect s s' :=
  .quiet [] below (by simp) hbelow hstack (fun _ _ => hlists ▸ .refl _) hcalls hnext

theorem raise (below : List (Frame Fn)) (hbelow : below <:+ s.stack) :
    Effect s { s with stack := below }.raise :=
  .drop _ ((List.dropWhile_suffix _).trans hbelow) rfl rfl rfl rfl

theorem finish (below : List (Frame Fn)) (hbelow : below <:+ s.stack) (answer : Answer) :
    Effect s ({ s with stack := below }.finish answer) :=
  .drop below hbelow (by simp) (by simp) (by simp) (by simp)

end Effect

/-- What `off` can do: end the call, or push the next frame after removing at most one entry
of the type's array, with a notification on top of it where one was removed. -/
theorem off_effect (s : State Fn) (type : String) (listener : Option Fn) (next : Frame Fn) :
    s.off type listener next = s.raise ∨
      ∃ pre : List (Frame Fn), (∀ f ∈ pre, f.isQuiet) ∧
        (s.off type listener next).stack = pre ++ next :: s.stack ∧
        (∀ t n, ((s.off type listener next).lists t n).Sublist (s.lists t n)) ∧
        (s.off type listener next).calls = s.calls ∧
        (s.off type listener next).nextEntry = s.nextEntry := by
  have hpush : ∃ pre : List (Frame Fn), (∀ f ∈ pre, f.isQuiet) ∧
      (s.push next).stack = pre ++ next :: s.stack ∧
      (∀ t n, ((s.push next).lists t n).Sublist (s.lists t n)) ∧
      (s.push next).calls = s.calls ∧ (s.push next).nextEntry = s.nextEntry :=
    ⟨[], by simp, rfl, fun _ _ => .refl _, rfl, rfl⟩
  unfold State.off
  split
  next n _ =>
    have hlists : ∀ t m, (((s.setList type n ((s.lists type n).eraseP
        (some ·.listener = listener))).lists t m)).Sublist (s.lists t m) := by
      intro t m
      rw [State.setList_lists]
      split
      next h =>
        obtain ⟨rfl, rfl⟩ := h
        exact List.eraseP_sublist
      next => exact .refl _
    split
    next =>
      right
      cases listener with
      | none => exact ⟨[], by simp, rfl, hlists, rfl, rfl⟩
      | some f =>
        dsimp only
        split
        next => exact ⟨[_], by simp [Frame.isQuiet], rfl, hlists, rfl, rfl⟩
        next => exact ⟨[], by simp, rfl, hlists, rfl, rfl⟩
    next => exact .inr hpush
  next => exact .inl rfl
  next => exact .inr hpush

omit [DecidableEq Fn] in
theorem announce_effect (s : State Fn) (type : String) (f : Fn) (test : State Fn → Bool) :
    ∃ pre : List (Frame Fn), (∀ f ∈ pre, f.isQuiet) ∧
      s.announce type f test = { s with stack := pre ++ s.stack } := by
  unfold State.announce
  split
  next => exact ⟨[_], by simp [Frame.isQuiet], rfl⟩
  next => exact ⟨[], by simp, rfl⟩

omit [DecidableEq Fn] in
/-- The array that is looked up is the array of the type from then on. -/
theorem listFor_events (s : State Fn) (type : String) (n : Nat)
    (h : (s.listFor type).1 = some n) : (s.listFor type).2.events type = some n := by
  unfold State.listFor at h ⊢
  split at h
  next m hslot =>
    cases h
    exact State.slot_eq_array.mp hslot
  next => cases h
  next =>
    cases h
    exact Function.update_self _ _ _

theorem enroll_effect (s : State Fn) (type : String) (f : Fn) (once prepend : Bool)
    (pre : List (Frame Fn)) (hpre : ∀ f ∈ pre, f.isQuiet) :
    Effect s { s.enroll type f once prepend with
      stack := pre ++ (s.enroll type f once prepend).stack } := by
  refine .enroll pre ⟨s.nextEntry, type, (s.listFor type).1, f, once⟩ prepend hpre rfl
    (listFor_events s type) ?_ ?_ ?_ ?_ <;> simp [State.enroll]

theorem call_effect (s : State Fn) (op : Op Fn) : Effect s (s.call op) := by
  have hraise : Effect s s.raise := .raise s.stack (List.suffix_refl _)
  cases op with
  | on type listener | prependListener type listener =>
    cases listener with
    | none => exact hraise
    | some f =>
      obtain ⟨pre, hpre, heq⟩ := announce_effect (s.enroll type f false _) type f
        (·.hasListeners "newListener")
      rw [State.call, State.eeWrap, heq]
      exact enroll_effect s type f _ _ pre hpre
  | once type listener =>
    cases listener with
    | none => exact hraise
    | some f =>
      obtain ⟨pre, hpre, heq⟩ := announce_effect (s.enroll type f true false) type f
        (·.slot "newListener" ≠ .undefined)
      rw [State.call, State.once, heq]
      exact enroll_effect s type f _ _ pre hpre
  | prependOnceListener type listener =>
    cases listener with
    | none => exact hraise
    | some f => exact enroll_effect s type f true true [] (by simp)
  | off type listener =>
    rw [State.call]
    obtain heq | ⟨pre, hpre, hstack, hlists, hcalls, hnext⟩ := off_effect s type listener .off
    · rw [heq]
      exact hraise
    · refine .quiet (pre ++ [.off]) s.stack ?_ (List.suffix_refl _) ?_ hlists hcalls hnext
      · simp only [List.forall_mem_append]
        exact ⟨hpre, by simp [Frame.isQuiet]⟩
      · rw [hstack, List.append_assoc, List.singleton_append]
  | removeAllListeners type =>
    refine .drop s.stack (List.suffix_refl _) ?_ ?_ ?_ ?_ <;>
      cases type <;> simp [State.call, State.removeAllListeners]
  | emit type =>
    exact .quiet [.emit type none] s.stack (by simp [Frame.isQuiet]) (List.suffix_refl _) rfl
      (fun _ _ => .refl _) rfl rfl
  | listenerCount type => exact .finish s.stack (List.suffix_refl _) _

theorem emit_effect (s : State Fn) (type : String) (about : Notice Fn) (below : List (Frame Fn))
    (hbefore : s.stack = .emit type about :: below) :
    Effect s ({ s with stack := below }.emit type about) := by
  have hbelow : below <:+ s.stack := by
    rw [hbefore]
    exact List.suffix_cons _ _
  have hunheard : Effect s ({ s with stack := below }.unheard type) := by
    unfold State.unheard
    split
    next => exact .raise below hbelow
    next => exact .finish below hbelow _
  unfold State.emit
  split
  next n hslot =>
    split
    next => exact hunheard
    next =>
      exact .snapshot type about n below hbefore (State.slot_eq_array.mp hslot) rfl rfl rfl rfl
  next => exact .raise below hbelow
  next => exact hunheard

theorem visit_effect (s : State Fn) (type : String) (n : Nat) (e : Entry Fn)
    (rest : List (Entry Fn)) (about : Notice Fn) (below : List (Frame Fn))
    (hbefore : s.stack = .loop type n (e :: rest) about :: below) :
    Effect s
      ((({ s with stack := below }.push (.loop type n rest about)).visit type n e about)) := by
  unfold State.visit
  split
  next honce =>
    set start := ({ s with stack := below }.push (.loop type n rest about)).setList type n
      ((s.lists type n).erase e) with hstart
    have hsuffix : below <:+ s.stack := by
      rw [hbefore]
      exact List.suffix_cons _ _
    have herased : ∀ t m, start.lists t m =
        if t = type ∧ m = n then (s.lists type n).erase e else s.lists t m := fun _ _ => rfl
    -- the loop has dropped the entry before its wrapper calls `off`
    obtain heq | ⟨pre, hpre, hstack, hlists, hcalls, hnext⟩ :=
      off_effect start e.type (some e.listener) (.wrapper e about)
    · rw [State.push_lists, heq]
      refine .quiet [] (below.dropWhile (!·.isScript)) (by simp) ?_ rfl ?_ rfl rfl
      · exact (List.dropWhile_suffix _).trans hsuffix
      · intro t m
        rw [State.raise_lists, herased]
        split
        next h => exact h.1 ▸ h.2 ▸ List.erase_sublist
        next => exact .refl _
    · refine .wrapped pre type n e rest about below hpre honce hbefore hstack ?_ hcalls hnext
      intro t m
      rw [← herased]
      exact hlists t m
  next honce =>
    exact .persistent type n e rest about below (by simpa using honce) hbefore rfl rfl rfl rfl

/-- What a step can do. -/
theorem step_effect (hstep : s.step l = some s') : Effect s s' := by
  cases step_cases hstep with
  | call op => exact call_effect s op
  | leave hstack => exact .drop _ (hstack ▸ List.suffix_cons _ _) rfl rfl rfl rfl
  | throw hstack => exact .raise _ (hstack ▸ List.suffix_cons _ _)
  | @go frame below hstack hframe =>
    have hbelow : below <:+ s.stack := hstack ▸ List.suffix_cons _ _
    cases frame with
    | listener e => cases hframe
    | emit type about => exact emit_effect s type about below hstack
    | loop type n rest about =>
      cases rest with
      | nil => exact .finish below hbelow _
      | cons e rest => exact visit_effect s type n e rest about below hstack
    | wrapper e about => exact .invoke e about below hstack rfl rfl rfl rfl
    | register e prepend =>
      rw [State.resume, State.add]
      split
      next n hlist =>
        exact .add e prepend n below hstack hlist (by simp)
          (fun t m => by simp [State.setList_lists]) (by simp) (by simp)
      next => exact .raise below hbelow
    | off => exact .finish below hbelow _

/-! ## Frames and entries after a step -/

/-- The frames that a step can push. -/
inductive Pushed (s s' : State Fn) : Frame Fn → Prop
  | quiet {frame : Frame Fn} (hquiet : frame.isQuiet) : Pushed s s' frame
  | register {e : Entry Fn} (prepend : Bool)
      (hlist : ∀ n, e.list = some n → s'.events e.type = some n) :
      Pushed s s' (.register e prepend)
  | snapshot (type : String) (n : Nat) (about : Notice Fn) :
      Pushed s s' (.loop type n (s.lists type n) about)
  | rest {type : String} {n : Nat} {e : Entry Fn} {rest : List (Entry Fn)} {about : Notice Fn}
      (hbefore : .loop type n (e :: rest) about ∈ s.stack) : Pushed s s' (.loop type n rest about)
  | wrapper (e : Entry Fn) (about : Notice Fn) : Pushed s s' (.wrapper e about)

/-- A frame that is on the stack after a step was there before it or has been pushed. -/
theorem Effect.mem_stack (h : Effect s s') {frame : Frame Fn} (hmem : frame ∈ s'.stack) :
    frame ∈ s.stack ∨ Pushed s s' frame := by
  cases h with
  | quiet pre below hpre hbelow hstack =>
    rw [hstack, List.mem_append] at hmem
    exact hmem.symm.imp (fun h => hbelow.subset h) fun h => .quiet (hpre frame h)
  | enroll pre e prepend hpre hid hlist hstack =>
    rw [hstack, List.mem_append, List.mem_cons] at hmem
    rcases hmem with hmem | rfl | hmem
    · exact .inr (.quiet (hpre frame hmem))
    · exact .inr (.register prepend hlist)
    · exact .inl hmem
  | add e prepend n below hbefore hlist hstack =>
    exact .inl (hbefore ▸ List.mem_cons_of_mem _ (hstack ▸ hmem))
  | snapshot type about n below hbefore harray hstack =>
    rw [hstack, List.mem_cons] at hmem
    rcases hmem with rfl | hmem
    · exact .inr (.snapshot type n about)
    · exact .inl (hbefore ▸ List.mem_cons_of_mem _ hmem)
  | persistent type n e rest about below honce hbefore hstack =>
    rw [hstack, List.mem_cons, List.mem_cons] at hmem
    rcases hmem with rfl | rfl | hmem
    · exact .inr (.quiet rfl)
    · exact .inr (.rest (hbefore ▸ List.mem_cons_self))
    · exact .inl (hbefore ▸ List.mem_cons_of_mem _ hmem)
  | wrapped pre type n e rest about below hpre honce hbefore hstack =>
    rw [hstack, List.mem_append, List.mem_cons, List.mem_cons] at hmem
    rcases hmem with hmem | rfl | rfl | hmem
    · exact .inr (.quiet (hpre frame hmem))
    · exact .inr (.wrapper e about)
    · exact .inr (.rest (hbefore ▸ List.mem_cons_self))
    · exact .inl (hbefore ▸ List.mem_cons_of_mem _ hmem)
  | invoke e about below hbefore hstack =>
    rw [hstack, List.mem_cons] at hmem
    rcases hmem with rfl | hmem
    · exact .inr (.quiet rfl)
    · exact .inl (hbefore ▸ List.mem_cons_of_mem _ hmem)

/-- An entry that is in an array after a step was there before it, or it belongs there and has
been put there by its registering call. -/
theorem Effect.mem_lists (h : Effect s s') {x : Entry Fn} {t : String} {m : Nat}
    (hx : x ∈ s'.lists t m) :
    x ∈ s.lists t m ∨ x.type = t ∧ x.list = some m ∧ ∃ prepend, .register x prepend ∈ s.stack := by
  cases h with
  | quiet pre below hpre hbelow hstack hlists => exact .inl ((hlists t m).subset hx)
  | add e prepend n below hbefore hlist hstack hlists =>
    rw [hlists] at hx
    split at hx
    next heq =>
      obtain ⟨rfl, rfl⟩ := heq
      have hcases : x = e ∨ x ∈ s.lists e.type m := by
        split at hx
        next => exact List.mem_cons.mp hx
        next => simpa [or_comm] using hx
      rcases hcases with rfl | hold
      · exact .inr ⟨rfl, hlist, prepend, hbefore ▸ List.mem_cons_self⟩
      · exact .inl hold
    next => exact .inl hx
  | wrapped pre type n e rest about below hpre honce hbefore hstack hlists =>
    have hx' := (hlists t m).subset hx
    split at hx'
    next heq =>
      obtain ⟨rfl, rfl⟩ := heq
      exact .inl (List.mem_of_mem_erase hx')
    next => exact .inl hx'
  | enroll pre e prepend hpre hid hlist hstack hlists => exact .inl (hlists ▸ hx)
  | snapshot type about n below hbefore harray hstack hlists => exact .inl (hlists ▸ hx)
  | persistent type n e rest about below honce hbefore hstack hlists => exact .inl (hlists ▸ hx)
  | invoke e about below hbefore hstack hlists => exact .inl (hlists ▸ hx)

/-! ## Arrays -/

/-- What a step can do to the table of arrays: nothing, drop arrays from it, or enter the next
array under a type that had none. -/
inductive Tabling (s : State Fn) : State Fn → Prop
  | keeps {s' : State Fn} (hevents : ∀ q n, s'.events q = some n → s.events q = some n)
      (hnext : s'.nextList = s.nextList) : Tabling s s'
  | makes {s' : State Fn} (type : String)
      (hevents : s'.events = Function.update s.events type (some s.nextList))
      (hnext : s'.nextList = s.nextList + 1) : Tabling s s'

omit [DecidableEq Fn] in
theorem Tabling.same (hevents : s'.events = s.events) (hnext : s'.nextList = s.nextList) :
    Tabling s s' :=
  .keeps (fun _ _ h => hevents ▸ h) hnext

theorem off_tabling (s : State Fn) (type : String) (listener : Option Fn) (next : Frame Fn) :
    (s.off type listener next).events = s.events ∧
      (s.off type listener next).nextList = s.nextList := by
  unfold State.off
  split
  next n _ =>
    split
    next =>
      cases listener with
      | none => exact ⟨rfl, rfl⟩
      | some f =>
        dsimp only
        split <;> exact ⟨rfl, rfl⟩
    next => exact ⟨rfl, rfl⟩
  next => exact ⟨rfl, rfl⟩
  next => exact ⟨rfl, rfl⟩

omit [DecidableEq Fn] in
theorem enroll_tabling (s : State Fn) (type : String) (f : Fn) (once prepend : Bool) :
    Tabling s (s.enroll type f once prepend) := by
  unfold State.enroll State.listFor
  cases s.slot type with
  | array n => exact .same rfl rfl
  | inherited length => exact .same rfl rfl
  | undefined => exact .makes type rfl rfl

omit [DecidableEq Fn] in
theorem announce_tabling (s : State Fn) (type : String) (f : Fn) (test : State Fn → Bool) :
    (s.announce type f test).events = s.events ∧
      (s.announce type f test).nextList = s.nextList := by
  unfold State.announce
  split <;> exact ⟨rfl, rfl⟩

theorem call_tabling (s : State Fn) (op : Op Fn) : Tabling s (s.call op) := by
  have hraise : Tabling s s.raise := .same rfl rfl
  have hannounce : ∀ (type : String) (f : Fn) (once prepend : Bool) (test : State Fn → Bool),
      Tabling s ((s.enroll type f once prepend).announce type f test) := by
    intro type f once prepend test
    obtain ⟨hevents, hnext⟩ := announce_tabling (s.enroll type f once prepend) type f test
    cases enroll_tabling s type f once prepend with
    | keeps hkeeps hsame => exact .keeps (fun q n h => hkeeps q n (hevents ▸ h)) (hnext.trans hsame)
    | makes q hmakes hgrows => exact .makes q (hevents.trans hmakes) (hnext.trans hgrows)
  cases op with
  | on type listener | prependListener type listener =>
    cases listener with
    | none => exact hraise
    | some f => exact hannounce type f false _ (·.hasListeners "newListener")
  | once type listener =>
    cases listener with
    | none => exact hraise
    | some f => exact hannounce type f true false (·.slot "newListener" ≠ .undefined)
  | prependOnceListener type listener =>
    cases listener with
    | none => exact hraise
    | some f => exact enroll_tabling s type f true true
  | off type listener =>
    obtain ⟨hevents, hnext⟩ := off_tabling s type listener .off
    exact .same hevents hnext
  | removeAllListeners type =>
    cases type with
    | none =>
      refine .keeps (fun q n h => ?_) (by simp [State.call, State.removeAllListeners])
      simp [State.call, State.removeAllListeners] at h
    | some type =>
      refine .keeps (fun q n h => ?_) (by simp [State.call, State.removeAllListeners])
      by_cases hq : q = type
      · simp [State.call, State.removeAllListeners, hq] at h
      · simpa [State.call, State.removeAllListeners, hq] using h
  | emit type => exact .same rfl rfl
  | listenerCount type => exact .same (by simp [State.call]) (by simp [State.call])

theorem resume_tabling (s : State Fn) (frame : Frame Fn) :
    (s.resume frame).events = s.events ∧ (s.resume frame).nextList = s.nextList := by
  cases frame with
  | listener e => exact ⟨rfl, rfl⟩
  | emit type about =>
    have hunheard : (s.unheard type).events = s.events ∧
        (s.unheard type).nextList = s.nextList := by
      unfold State.unheard
      split <;> simp
    rw [State.resume, State.emit]
    split
    next =>
      split
      next => exact hunheard
      next => exact ⟨rfl, rfl⟩
    next => exact ⟨rfl, rfl⟩
    next => exact hunheard
  | loop type n rest about =>
    cases rest with
    | nil => simp [State.resume]
    | cons e rest =>
      rw [State.resume, State.visit]
      split
      next => exact off_tabling _ _ _ _
      next => exact ⟨rfl, rfl⟩
  | wrapper e about => exact ⟨rfl, rfl⟩
  | register e prepend =>
    rw [State.resume, State.add]
    split <;> simp
  | off => simp [State.resume]

theorem step_tabling (hstep : s.step l = some s') : Tabling s s' := by
  cases step_cases hstep with
  | call op => exact call_tabling s op
  | leave => exact .same rfl rfl
  | throw => exact .same rfl rfl
  | @go frame below =>
    obtain ⟨hevents, hnext⟩ := resume_tabling { s with stack := below } frame
    exact .same hevents hnext

/-- Arrays in use are numbered below the next one, and an array that is not made yet is empty. -/
structure Allocated (s : State Fn) : Prop where
  events : ∀ q n, s.events q = some n → n < s.nextList
  lists : ∀ q n, s.nextList ≤ n → s.lists q n = []
  registers : ∀ e prepend, Frame.register e prepend ∈ s.stack → ∀ n, e.list = some n →
    n < s.nextList

omit [DecidableEq Fn] in
theorem Tabling.nextList_le (h : Tabling s s') : s.nextList ≤ s'.nextList := by
  cases h <;> omega

theorem Allocated.step (h : Allocated s) (heffect : Effect s s') (htabling : Tabling s s') :
    Allocated s' := by
  have hle := htabling.nextList_le
  have hevents : ∀ q n, s'.events q = some n → n < s'.nextList := by
    intro q n hn
    cases htabling with
    | keeps hkeeps hsame => exact hsame ▸ h.events q n (hkeeps q n hn)
    | makes type hmakes hgrows =>
      rw [hmakes] at hn
      by_cases hq : q = type
      · rw [hq, Function.update_self] at hn
        cases hn
        omega
      · rw [Function.update_of_ne hq] at hn
        have := h.events q n hn
        omega
  refine ⟨hevents, ?_, ?_⟩
  · intro q n hn
    rw [List.eq_nil_iff_forall_not_mem]
    intro x hx
    rcases heffect.mem_lists hx with hold | ⟨-, hlist, prepend, hregister⟩
    · rw [h.lists q n (Nat.le_trans hle hn)] at hold
      cases hold
    · have := h.registers x prepend hregister n hlist
      omega
  · intro e prepend hmem n hn
    rcases heffect.mem_stack hmem with hold | hnew
    · exact Nat.lt_of_lt_of_le (h.registers e prepend hold n hn) hle
    · cases hnew with
      | quiet hquiet => cases hquiet
      | register _ hlist => exact hevents e.type n (hlist n hn)

omit [DecidableEq Fn] in
theorem allocated_fresh : Allocated (State.fresh : State Fn) :=
  ⟨by simp [State.fresh], by simp [State.fresh], by simp [State.fresh]⟩

theorem Reachable.allocated {allowed : State Fn → Label Fn → Prop} (h : Reachable allowed s) :
    Allocated s :=
  Transition.Reachable.invariant Allocated allocated_fresh
    (fun _ _ _ h _ hstep => h.step (step_effect hstep) (step_tabling hstep)) h

end Events
