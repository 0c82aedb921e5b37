import QuickjsRuntime.Foundation.PlainObject
import QuickjsRuntime.Foundation.Transition

/-! # The event emitter

`emit` calls listeners inline, and a listener may call the emitter again. The machine below
takes one atomic piece of emitter code at a time and keeps what is still to be done on a
stack: a `listener` frame is script code in control, every other frame is a call inside the
emitter with the variables it still needs. Script code is not modelled: whatever it calls,
and how it ends, are the labels of a run.

Arrays have an identity. A call looks `_ncEvents[type]` up once and writes to that array
later, when `removeAllListeners` may already have cut it off.
-/

namespace Events

variable {Fn : Type} [DecidableEq Fn]

/-- The `length` of a property that a plain object inherits. -/
def inheritedLength (type : String) : Option (Option Nat) :=
  PlainObject.prototype.lookup type

/-- An entry `{ listener, wrapped, once }` with its identity. `type` and `list` are the
variables that the wrapper and the registering call close over; `list` is the array of
`type` that was looked up, or `none` where the lookup found an inherited property. -/
structure Entry (Fn : Type) where
  id : Nat
  type : String
  list : Option Nat
  listener : Fn
  once : Bool
  deriving DecidableEq, Repr

/-- The arguments of a `newListener` or `removeListener` notification. -/
abbrev Notice (Fn : Type) := Option (String × Fn)

/-- What is under way. -/
inductive Frame (Fn : Type) where
  /-- A listener runs: script code is in control. -/
  | listener (entry : Entry Fn)
  /-- `emit(type)` is entered. -/
  | emit (type : String) (about : Notice Fn)
  /-- The loop of `emit` with the part of its snapshot that is still to be called. -/
  | loop (type : String) (list : Nat) (rest : List (Entry Fn)) (about : Notice Fn)
  /-- A wrapper waits for its `off` and then calls the listener. -/
  | wrapper (entry : Entry Fn) (about : Notice Fn)
  /-- A registration waits for the `newListener` notification and then adds the entry. -/
  | register (entry : Entry Fn) (prepend : Bool)
  /-- `off` waits for the `removeListener` notification and then returns. -/
  | off
  deriving DecidableEq, Repr

def Frame.isScript : Frame Fn → Bool
  | .listener _ => true
  | _ => false

/-- The calls of the script; `addListener` is `on` and `removeListener` is `off`. A listener
that is not a function is `none`. -/
inductive Op (Fn : Type) where
  | on (type : String) (listener : Option Fn)
  | prependListener (type : String) (listener : Option Fn)
  | once (type : String) (listener : Option Fn)
  | prependOnceListener (type : String) (listener : Option Fn)
  | off (type : String) (listener : Option Fn)
  | removeAllListeners (type : Option String)
  | emit (type : String)
  | listenerCount (type : String)
  deriving DecidableEq, Repr

/-- What a call of the script ends with. -/
inductive Answer where
  | emitter
  | bool (b : Bool)
  | count (n : Option Nat)
  | threw
  deriving DecidableEq, Repr

/-- An invocation of a listener through an entry. -/
structure Call (Fn : Type) where
  entry : Entry Fn
  about : Notice Fn
  deriving DecidableEq, Repr

structure State (Fn : Type) where
  /-- Own properties of `_ncEvents`: the array of the type. -/
  events : String → Option Nat
  /-- The arrays, by the type they were made for and their number. -/
  lists : String → Nat → List (Entry Fn)
  nextList : Nat
  nextEntry : Nat
  stack : List (Frame Fn)
  /-- Invocations so far, the latest first. -/
  calls : List (Call Fn)
  /-- Ends of the script's calls so far, the latest first. -/
  answers : List Answer

/-- `new EventEmitter()`. -/
def State.fresh : State Fn := ⟨fun _ => none, fun _ _ => [], 0, 0, [], [], []⟩

/-- The value of `_ncEvents[type]`. -/
inductive Slot where
  | array (list : Nat)
  | inherited (length : Option Nat)
  | undefined
  deriving DecidableEq, Repr

namespace State

def slot (s : State Fn) (type : String) : Slot :=
  match s.events type with
  | some n => .array n
  | none =>
    match inheritedLength type with
    | some length => .inherited length
    | none => .undefined

def inScript (s : State Fn) : Bool :=
  match s.stack with
  | [] => true
  | frame :: _ => frame.isScript

def push (s : State Fn) (frame : Frame Fn) : State Fn := { s with stack := frame :: s.stack }

/-- Control comes back to the caller; the record keeps what a call of the script returns. -/
def finish (s : State Fn) (answer : Answer) : State Fn :=
  if s.inScript then { s with answers := answer :: s.answers } else s

/-- An exception goes up to the script code whose call it ends. -/
def raise (s : State Fn) : State Fn :=
  { s with stack := s.stack.dropWhile (!·.isScript), answers := .threw :: s.answers }

def setList (s : State Fn) (type : String) (n : Nat) (entries : List (Entry Fn)) : State Fn :=
  { s with lists := fun type' n' => if type' = type ∧ n' = n then entries else s.lists type' n' }

/-- `_ncEvents[type] || (_ncEvents[type] = [])`, as the array if it is one. -/
def listFor (s : State Fn) (type : String) : Option Nat × State Fn :=
  match s.slot type with
  | .array n => (some n, s)
  | .inherited _ => (none, s)
  | .undefined => (some s.nextList,
      { s with
        events := Function.update s.events type (some s.nextList)
        nextList := s.nextList + 1 })

/-- Look the array up, make the entry, and put the rest of the registration on the stack. -/
def enroll (s : State Fn) (type : String) (listener : Fn) (once prepend : Bool) : State Fn :=
  let (list, s) := s.listFor type
  { s with nextEntry := s.nextEntry + 1 }.push
    (.register ⟨s.nextEntry, type, list, listener, once⟩ prepend)

/-- `_ncEvents.newListener && _ncEvents.newListener.length` -/
def hasListeners (s : State Fn) (type : String) : Bool :=
  match s.slot type with
  | .array n => !(s.lists type n).isEmpty
  | .inherited (some (_ + 1)) => true
  | _ => false

/-- Notify of a registration, unless it is one of an observer. -/
def announce (s : State Fn) (type : String) (listener : Fn) (test : State Fn → Bool) : State Fn :=
  if type ≠ "newListener" ∧ type ≠ "removeListener" ∧ test s then
    s.push (.emit "newListener" (some (type, listener)))
  else s

def eeWrap (s : State Fn) (type : String) (listener : Option Fn) (prepend : Bool) : State Fn :=
  match listener with
  | none => s.raise
  | some f => (s.enroll type f false prepend).announce type f (·.hasListeners "newListener")

def once (s : State Fn) (type : String) (listener : Option Fn) : State Fn :=
  match listener with
  | none => s.raise
  | some f => (s.enroll type f true false).announce type f (·.slot "newListener" ≠ .undefined)

def prependOnceListener (s : State Fn) (type : String) (listener : Option Fn) : State Fn :=
  match listener with
  | none => s.raise
  | some f => s.enroll type f true true

/-- `off(type, listener)`, after which the frame `next` continues. A wrapper's `_ncOriginal`
is the entry's listener, so the two tests of the source are one. -/
def off (s : State Fn) (type : String) (listener : Option Fn) (next : Frame Fn) : State Fn :=
  match s.slot type with
  | .array n =>
    if (s.lists type n).any (some ·.listener = listener) then
      let s' := (s.setList type n ((s.lists type n).eraseP (some ·.listener = listener))).push next
      match listener with
      | some f =>
        if s.slot "removeListener" ≠ .undefined then
          s'.push (.emit "removeListener" (some (type, f)))
        else s'
      | none => s'
    else s.push next
  -- `list[0]` is undefined, and reading its `listener` throws
  | .inherited (some (_ + 1)) => s.raise
  | _ => s.push next

def removeAllListeners (s : State Fn) : Option String → State Fn
  | none => { s with events := fun _ => none }
  | some type => { s with events := Function.update s.events type none }

/-- `(_ncEvents[type] || []).length` -/
def listenerCount (s : State Fn) (type : String) : Option Nat :=
  match s.slot type with
  | .array n => some (s.lists type n).length
  | .inherited length => length
  | .undefined => some 0

/-- A call of the script, up to the first frame it leaves on the stack. -/
def call (s : State Fn) : Op Fn → State Fn
  | .on type listener => s.eeWrap type listener false
  | .prependListener type listener => s.eeWrap type listener true
  | .once type listener => s.once type listener
  | .prependOnceListener type listener => s.prependOnceListener type listener
  | .off type listener => s.off type listener .off
  | .removeAllListeners type => (s.removeAllListeners type).finish .emitter
  | .emit type => s.push (.emit type none)
  | .listenerCount type => s.finish (.count (s.listenerCount type))

/-- `emit` without listeners. -/
def unheard (s : State Fn) (type : String) : State Fn :=
  if type = "error" then s.raise else s.finish (.bool false)

/-- `emit` up to its loop. -/
def emit (s : State Fn) (type : String) (about : Notice Fn) : State Fn :=
  match s.slot type with
  | .array n =>
    if (s.lists type n).isEmpty then s.unheard type
    else s.push (.loop type n (s.lists type n) about)
  -- a function has no `slice`
  | .inherited (some (_ + 1)) => s.raise
  | _ => s.unheard type

def invoke (s : State Fn) (entry : Entry Fn) (about : Notice Fn) : State Fn :=
  { s with stack := .listener entry :: s.stack, calls := ⟨entry, about⟩ :: s.calls }

/-- The body of the loop of `emit`: an entry with a wrapper is dropped from the array, and
its wrapper starts with `off`. -/
def visit (s : State Fn) (type : String) (list : Nat) (entry : Entry Fn) (about : Notice Fn) :
    State Fn :=
  if entry.once then
    (s.setList type list ((s.lists type list).erase entry)).off entry.type (some entry.listener)
      (.wrapper entry about)
  else s.invoke entry about

/-- `list.push(entry)` or `list.unshift(entry)`, which an inherited property does not have. -/
def add (s : State Fn) (entry : Entry Fn) (prepend : Bool) : State Fn :=
  match entry.list with
  | some n =>
    let entries := s.lists entry.type n
    (s.setList entry.type n (if prepend then entry :: entries else entries ++ [entry])).finish
      .emitter
  | none => s.raise

end State

inductive Label (Fn : Type) where
  /-- The script code in control calls the emitter. -/
  | call (op : Op Fn)
  /-- The listener in control returns. -/
  | leave
  /-- The listener in control throws. -/
  | throw
  /-- The emitter goes on. -/
  | go
  deriving DecidableEq, Repr

namespace State

/-- The emitter's own code goes on with the top frame, the rest of the stack being that of `s`. -/
def resume (s : State Fn) : Frame Fn → State Fn
  | .listener _ => s
  | .emit type about => s.emit type about
  | .loop _ _ [] _ => s.finish (.bool true)
  | .loop type list (entry :: rest) about =>
    (s.push (.loop type list rest about)).visit type list entry about
  | .wrapper entry about => s.invoke entry about
  | .register entry prepend => s.add entry prepend
  | .off => s.finish .emitter

def step (s : State Fn) : Label Fn → Option (State Fn)
  | .call op => if s.inScript then some (s.call op) else none
  | .leave =>
    match s.stack with
    | .listener _ :: below => some { s with stack := below }
    | _ => none
  | .throw =>
    match s.stack with
    | .listener _ :: below => some { s with stack := below }.raise
    | _ => none
  | .go =>
    match s.stack with
    | [] => none
    | .listener _ :: _ => none
    | frame :: below => some ({ s with stack := below }.resume frame)

end State

/-- The states of an emitter in the runs whose steps meet a guard. -/
abbrev Reachable (allowed : State Fn → Label Fn → Prop) : State Fn → Prop :=
  Transition.Reachable State.step allowed State.fresh

/-! ## What each piece of code leaves unchanged -/

namespace State

variable (s : State Fn)

section Updates

omit [DecidableEq Fn]

@[simp] theorem push_stack (frame : Frame Fn) : (s.push frame).stack = frame :: s.stack := rfl
@[simp] theorem push_lists (frame : Frame Fn) : (s.push frame).lists = s.lists := rfl
@[simp] theorem push_events (frame : Frame Fn) : (s.push frame).events = s.events := rfl
@[simp] theorem push_calls (frame : Frame Fn) : (s.push frame).calls = s.calls := rfl
@[simp] theorem push_nextEntry (frame : Frame Fn) : (s.push frame).nextEntry = s.nextEntry := rfl

@[simp] theorem raise_stack : s.raise.stack = s.stack.dropWhile (!·.isScript) := rfl
@[simp] theorem raise_lists : s.raise.lists = s.lists := rfl
@[simp] theorem raise_events : s.raise.events = s.events := rfl
@[simp] theorem raise_calls : s.raise.calls = s.calls := rfl
@[simp] theorem raise_nextList : s.raise.nextList = s.nextList := rfl

/-- Only the record of answers can change. -/
theorem finish_eq (answer : Answer) :
    s.finish answer = { s with answers := (s.finish answer).answers } := by
  unfold finish
  split <;> rfl

@[simp] theorem finish_stack (answer : Answer) : (s.finish answer).stack = s.stack := by
  rw [finish_eq]

@[simp] theorem finish_lists (answer : Answer) : (s.finish answer).lists = s.lists := by
  rw [finish_eq]

@[simp] theorem finish_events (answer : Answer) : (s.finish answer).events = s.events := by
  rw [finish_eq]

@[simp] theorem finish_calls (answer : Answer) : (s.finish answer).calls = s.calls := by
  rw [finish_eq]

@[simp] theorem finish_nextEntry (answer : Answer) :
    (s.finish answer).nextEntry = s.nextEntry := by
  rw [finish_eq]

@[simp] theorem finish_nextList (answer : Answer) : (s.finish answer).nextList = s.nextList := by
  rw [finish_eq]

variable (type : String) (n : Nat) (entries : List (Entry Fn))

theorem setList_lists (type' : String) (n' : Nat) : (s.setList type n entries).lists type' n' =
    if type' = type ∧ n' = n then entries else s.lists type' n' := rfl

@[simp] theorem setList_stack : (s.setList type n entries).stack = s.stack := rfl

@[simp] theorem setList_events : (s.setList type n entries).events = s.events := rfl

@[simp] theorem setList_calls : (s.setList type n entries).calls = s.calls := rfl

@[simp] theorem setList_nextEntry : (s.setList type n entries).nextEntry = s.nextEntry := rfl

@[simp] theorem setList_nextList : (s.setList type n entries).nextList = s.nextList := rfl

@[simp] theorem listFor_stack : (s.listFor type).2.stack = s.stack := by
  unfold listFor
  split <;> rfl

@[simp] theorem listFor_lists : (s.listFor type).2.lists = s.lists := by
  unfold listFor
  split <;> rfl

@[simp] theorem listFor_calls : (s.listFor type).2.calls = s.calls := by
  unfold listFor
  split <;> rfl

@[simp] theorem listFor_nextEntry : (s.listFor type).2.nextEntry = s.nextEntry := by
  unfold listFor
  split <;> rfl

theorem slot_eq_array {s : State Fn} {type : String} {n : Nat} :
    s.slot type = .array n ↔ s.events type = some n := by
  unfold slot
  cases h : s.events type with
  | some m => simp
  | none => cases inheritedLength type <;> simp

end Updates

end State

end Events
