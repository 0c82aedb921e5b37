import Mathlib.Algebra.GroupWithZero.Nat
import Mathlib.Order.Lattice

/-! # The timer scheduler of the compatibility layer

The state behind `setTimeout`, `setInterval`, `setImmediate` and their handles in
`node_compat_async.dart`, and the pass `__ncTimerDrain` over it.

Script code is arbitrary. What one invocation of a callback or a promise reaction
does is given by `Env.behave` at the number of the invocation: the calls it makes on
the scheduler, in order, and how it ends. The clock is a sequence of readings. Times
are JS numbers other than `NaN`, of which only the order, the sum and whether they
are finite matter.
-/

namespace Timers

/-- What `__pendingTimers[id]` holds; `fn` stands for the callback with its arguments. -/
structure Timer (τ Cb : Type) where
  fn : Cb
  ms : τ
  due : τ
  repeats : Bool
  unref : Bool
  deriving DecidableEq, Repr

/-- An element of `__immediates`; `entry` is the identity of the JS object. -/
structure Immediate (Cb : Type) where
  entry : Nat
  fn : Cb
  cancelled : Bool
  deriving DecidableEq, Repr

/-- What `setTimeout`, `setInterval` and `setImmediate` return. -/
inductive Handle where
  | timer (id : Nat)
  | immediate (entry : Nat)
  deriving DecidableEq, Repr

/-- A call that script code makes on the scheduler, or a promise reaction it queues.
A delay is `none` when `Number(ms)` is `NaN`. -/
inductive Op (τ Cb : Type) where
  | setTimeout (fn : Cb) (ms : Option τ)
  | setInterval (fn : Cb) (ms : Option τ)
  | setImmediate (fn : Cb)
  | clear (handle : Handle)
  | ref (id : Nat)
  | unref (id : Nat)
  | refresh (id : Nat)
  | queueJob (job : Cb)
  deriving DecidableEq, Repr

/-- How an invocation ends; a thrown value whose conversion to text fails has none. -/
inductive Ending where
  | returns
  | throws (text : Option String)
  deriving DecidableEq, Repr

/-- What one invocation does. -/
structure Act (τ Cb : Type) where
  ops : List (Op τ Cb)
  ending : Ending
  deriving DecidableEq, Repr

/-- Whose callback is invoked. -/
inductive Source where
  | timer (id : Nat)
  | immediate (entry : Nat)
  | reaction
  deriving DecidableEq, Repr

structure Invocation (Cb : Type) where
  number : Nat
  source : Source
  fn : Cb
  deriving DecidableEq, Repr

/-- The surroundings of a run: the readings of the clock and of the stopwatch, the
behaviour of script code, and the configuration. -/
structure Env (τ Cb : Type) where
  now : Nat → τ
  elapsed : Nat → Nat
  behave : Nat → Cb → Act τ Cb
  isFinite : τ → Bool
  maxTimerCallbacks : Nat
  autoDrainMicrotasks : Bool

/-- The scheduler, the queue of promise jobs, how many readings were taken and the
record of the invocations, newest first. `passStart` is the number of invocations
before the latest pass. -/
structure World (τ Cb : Type) where
  timerSeq : Nat := 1
  pendingTimers : List (Nat × Timer τ Cb) := []
  immediates : List (Option (Immediate Cb)) := []
  entries : Nat := 0
  jobs : List Cb := []
  reads : Nat := 0
  laps : Nat := 0
  calls : Nat := 0
  passStart : Nat := 0
  invocations : List (Invocation Cb) := []
  deriving DecidableEq, Repr

variable {τ Cb : Type} [LinearOrder τ] [Add τ] [Zero τ]

/-! ## The calls on the scheduler -/

/-- `__ncNow()` -/
def readClock (env : Env τ Cb) (w : World τ Cb) : τ × World τ Cb :=
  (env.now w.reads, { w with reads := w.reads + 1 })

/-- `Math.max(0, Number(ms) || 0)` -/
def delayOf (ms : Option τ) : τ := max 0 (ms.getD 0)

/-- `__addTimer`. The ids are integer keys, so that `for in` visits them in this order. -/
def addTimer (env : Env τ Cb) (w : World τ Cb) (fn : Cb) (ms : Option τ) (repeats : Bool) :
    World τ Cb :=
  let delay := delayOf ms
  let (now, w) := readClock env w
  { w with
    timerSeq := w.timerSeq + 1
    pendingTimers := w.pendingTimers ++ [(w.timerSeq,
      { fn, ms := if repeats then delay else 0, due := now + delay, repeats, unref := false })] }

def setImmediate (w : World τ Cb) (fn : Cb) : World τ Cb :=
  { w with
    entries := w.entries + 1
    immediates := w.immediates ++ [some { entry := w.entries, fn, cancelled := false }] }

/-- A write to the record `__pendingTimers[id]`, if there is one. -/
def updateTimer (w : World τ Cb) (id : Nat) (f : Timer τ Cb → Timer τ Cb) : World τ Cb :=
  { w with pendingTimers := w.pendingTimers.map fun p => if p.1 = id then (p.1, f p.2) else p }

/-- `delete __pendingTimers[id]` -/
def deleteTimer (w : World τ Cb) (id : Nat) : World τ Cb :=
  { w with pendingTimers := w.pendingTimers.filter (·.1 ≠ id) }

/-- `__clear` -/
def clear (w : World τ Cb) : Handle → World τ Cb
  | .immediate entry => { w with
      immediates := w.immediates.map (Option.map fun im =>
        if im.entry = entry then { im with cancelled := true } else im) }
  | .timer id => deleteTimer w id

/-- `refresh()`: the clock is read only when the timer is still pending. -/
def refresh (env : Env τ Cb) (w : World τ Cb) (id : Nat) : World τ Cb :=
  if w.pendingTimers.any (·.1 = id) then
    let (now, w) := readClock env w
    updateTimer w id fun t => { t with due := now + t.ms }
  else w

def applyOp (env : Env τ Cb) (w : World τ Cb) : Op τ Cb → World τ Cb
  | .setTimeout fn ms => addTimer env w fn ms false
  | .setInterval fn ms => addTimer env w fn ms true
  | .setImmediate fn => setImmediate w fn
  | .clear handle => clear w handle
  | .ref id => updateTimer w id ({ · with unref := false })
  | .unref id => updateTimer w id ({ · with unref := true })
  | .refresh id => refresh env w id
  | .queueJob job => { w with jobs := w.jobs ++ [job] }

/-- The next invocation is entered in the record. -/
def started (w : World τ Cb) (source : Source) (fn : Cb) : World τ Cb :=
  { w with calls := w.calls + 1, invocations := ⟨w.calls, source, fn⟩ :: w.invocations }

/-- One invocation of a callback or a reaction. -/
def invoke (env : Env τ Cb) (w : World τ Cb) (source : Source) (fn : Cb) : Ending × World τ Cb :=
  let act := env.behave w.calls fn
  (act.ending, act.ops.foldl (applyOp env) (started w source fn))

/-! ## The pass -/

/-- Where a loop of the pass ends: at the cap, by an exception, or normally. -/
inductive Phase (τ Cb : Type) where
  | capped (ran : Nat) (w : World τ Cb)
  | threw (text : Option String) (w : World τ Cb)
  | done (ran : Nat) (w : World τ Cb)

/-- The first slot that is neither null nor cancelled; `j` is the index of the head. -/
def nextImmediate : List (Option (Immediate Cb)) → Nat → Option (Nat × Immediate Cb)
  | [], _ => none
  | none :: rest, j => nextImmediate rest (j + 1)
  | some im :: rest, j => if im.cancelled then nextImmediate rest (j + 1) else some (j, im)

/-- The loop over `__immediates` at index `i`, with `budget` callbacks left to the cap.
The cap is tested at every slot, but only an invocation uses it up, so that slots
without a live immediate are passed over in one go while something is left. -/
def runImmediates (env : Env τ Cb) : Nat → Nat → Nat → World τ Cb → Phase τ Cb
  | 0, i, ran, w => if i < w.immediates.length then .capped ran w else .done ran w
  | budget + 1, i, ran, w =>
    match nextImmediate (w.immediates.drop i) i with
    | none => .done ran w
    | some (j, im) =>
      match invoke env w (.immediate im.entry) im.fn with
      | (.throws text, w) => .threw text w
      | (.returns, w) =>
        runImmediates env budget (j + 1) (ran + 1)
          { w with immediates := w.immediates.set j none }

/-- The selection of the due timer: the earliest, and the least id among equals. -/
def bestDue (now : τ) (timers : List (Nat × Timer τ Cb)) : Option (Nat × Timer τ Cb) :=
  timers.foldl (fun best p =>
    if now < p.2.due then best
    else match best with
      | none => some p
      | some b => if p.2.due < b.2.due then some p else some b) none

/-- A timer is about to fire: an interval is armed again, a timeout is removed. -/
def rearm (w : World τ Cb) (now : τ) (id : Nat) (t : Timer τ Cb) : World τ Cb :=
  if t.repeats then updateTimer w id fun t => { t with due := now + t.ms } else deleteTimer w id

/-- The loop over the due timers, with `budget` callbacks left to the cap. -/
def runTimers (env : Env τ Cb) : Nat → Nat → World τ Cb → Phase τ Cb
  | 0, ran, w => .capped ran w
  | budget + 1, ran, w =>
    let (now, w) := readClock env w
    match bestDue now w.pendingTimers with
    | none => .done ran w
    | some (id, t) =>
      match invoke env (rearm w now id t) (.timer id) t.fn with
      | (.throws text, w) => .threw text w
      | (.returns, w) => runTimers env budget (ran + 1) w

/-- The earliest due time of the timers that are not unref'd. -/
def earliestRef (timers : List (Nat × Timer τ Cb)) : Option τ :=
  timers.foldl (fun nextDue p =>
    if p.2.unref then nextDue
    else match nextDue with
      | none => some p.2.due
      | some due => if p.2.due < due then some p.2.due else some due) none

/-- What `__ncTimerDrain` returns. -/
structure Status (τ : Type) where
  ran : Nat
  capped : Bool
  nextDue : Option τ
  deriving DecidableEq, Repr

/-- `__ncTimerDrain`: immediates first, then the due timers, earliest first. -/
def ncTimerDrain (env : Env τ Cb) (w : World τ Cb) :
    Except (Option String) (Status τ) × World τ Cb :=
  match runImmediates env env.maxTimerCallbacks 0 0 { w with passStart := w.calls } with
  | .capped ran w => (.ok ⟨ran, true, none⟩, w)
  | .threw text w => (.error text, w)
  | .done ran w =>
    match runTimers env (env.maxTimerCallbacks - ran) ran
        { w with immediates := w.immediates.filter Option.isSome } with
    | .capped ran w => (.ok ⟨ran, true, none⟩, w)
    | .threw text w => (.error text, w)
    | .done ran w => (.ok ⟨ran, false, earliestRef w.pendingTimers⟩, w)

/-- `__ncTimerPendingCount` -/
def ncTimerPendingCount (w : World τ Cb) : Nat :=
  w.pendingTimers.length + w.immediates.countP fun slot => slot.any (!·.cancelled)

/-! ## Promise jobs -/

/-- `qjs_execute_pending_jobs_capped`, with `budget` jobs left: the number of executed
jobs, or -1 when a job raised. -/
def executePendingJobs (env : Env τ Cb) : Nat → Nat → World τ Cb → Int × World τ Cb
  | 0, executed, w => (executed, w)
  | budget + 1, executed, w =>
    match w.jobs with
    | [] => (executed, w)
    | job :: rest =>
      match invoke env { w with jobs := rest } .reaction job with
      | (.throws _, w) => (-1, w)
      | (.returns, w) => executePendingJobs env budget (executed + 1) w

/-- The cap is tested after a job has run, so that at least one does. -/
def executePendingJobsCapped (env : Env τ Cb) (maxJobs : Nat) (w : World τ Cb) : Int × World τ Cb :=
  executePendingJobs env (max 1 maxJobs) 0 w

/-- The loop of `drainMicrotasks`; every round but the last executes a job, so that
`maxJobs` rounds are enough. -/
def drainMicrotasksLoop (env : Env τ Cb) (maxJobs : Nat) : Nat → Nat → World τ Cb → Nat × World τ Cb
  | 0, executed, w => (executed, w)
  | rounds + 1, executed, w =>
    if executed < maxJobs then
      match executePendingJobsCapped env (maxJobs - executed) w with
      | (rc, w) =>
        if rc ≤ 0 then (executed, w)
        else drainMicrotasksLoop env maxJobs rounds (executed + rc.toNat) w
    else (executed, w)

def drainMicrotasks (env : Env τ Cb) (maxJobs : Nat) (w : World τ Cb) : Nat × World τ Cb :=
  drainMicrotasksLoop env maxJobs maxJobs 0 w

/-- The default `maxJobs` of `drainMicrotasks`. -/
def defaultMaxJobs : Nat := 100000

end Timers
