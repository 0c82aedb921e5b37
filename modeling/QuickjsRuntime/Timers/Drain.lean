import QuickjsRuntime.Timers.Scheduler

/-! # Draining the timers from the host

`NodeCompatHandle.drainTimers` of `node_compat.dart`: passes over the scheduler, each a
top-level evaluation that is followed by promise jobs, with sleeps in between. The
decision to stop uses the `nextDue` that the pass computed before those jobs ran.

A sleep has no effect on this state other than that later readings of the clock and of
the stopwatch may be larger, and these are arbitrary here.
-/

namespace Timers

variable {τ Cb : Type} [LinearOrder τ] [Add τ] [Zero τ]

/-- `QuickjsRuntime.eval` of a script: unless it is known to have failed, the promise
jobs are drained. It is known to have failed when an `errMsg` list was given and the
thrown value has a text. -/
def eval {α : Type} (env : Env τ Cb) (errMsg : Bool)
    (script : World τ Cb → Except (Option String) α × World τ Cb) (w : World τ Cb) :
    Except (Option String) α × World τ Cb :=
  match script w with
  | (.error (some text), w) =>
    (.error (some text), if !errMsg && env.autoDrainMicrotasks then
      (drainMicrotasks env defaultMaxJobs w).2 else w)
  | (result, w) =>
    (result, if env.autoDrainMicrotasks then (drainMicrotasks env defaultMaxJobs w).2 else w)

/-- The status as it arrives in Dart: JSON has no infinite numbers and prints `null`. -/
def Status.decoded (env : Env τ Cb) (st : Status τ) : Status τ :=
  { st with nextDue := st.nextDue.filter env.isFinite }

/-- Why `drainTimers` raises. -/
inductive DrainError where
  /-- `node_compat timer drain failed: …` -/
  | drainFailed (text : Option String)
  /-- `node_compat timer drain exceeded maxTimerCallbacks (…)` -/
  | maxTimerCallbacks (cap : Nat)
  /-- `node_compat timer drain exceeded maxTimerDrainWallClock (…) with … timers still pending` -/
  | maxTimerDrainWallClock (limit pending : Nat)
  deriving DecidableEq, Repr

def drainPass (env : Env τ Cb) (w : World τ Cb) : Except DrainError (Status τ) × World τ Cb :=
  match eval env true (ncTimerDrain env) w with
  | (.error text, w) => (.error (.drainFailed text), w)
  | (.ok st, w) =>
    if st.capped then (.error (.maxTimerCallbacks env.maxTimerCallbacks), w)
    else (.ok (st.decoded env), w)

structure TimerDrainStats where
  ran : Nat
  pending : Nat
  deriving DecidableEq, Repr

/-- The evaluation of `__ncTimerPendingCount()`. -/
def evalPendingCount (env : Env τ Cb) (w : World τ Cb) : Nat × World τ Cb :=
  match eval env false (fun w => (.ok (ncTimerPendingCount w), w)) w with
  | (.ok pending, w) => (pending, w)
  | (.error _, w) => (0, w)

def finishPass (env : Env τ Cb) (ran : Nat) (w : World τ Cb) : TimerDrainStats × World τ Cb :=
  let (pending, w) := evalPendingCount env w
  (⟨ran, pending⟩, w)

/-- `_waitForNextDue`: whether the timer is due already; the stopwatch is read to compare
it with the limit and, before a sleep, once more. -/
def waitForNextDue (env : Env τ Cb) (limit : Nat) (nextDue : τ) (w : World τ Cb) :
    Except DrainError Bool × World τ Cb :=
  let (now, w) := readClock env w
  if nextDue ≤ now then (.ok true, w)
  else if limit ≤ env.elapsed w.laps then
    let (pending, w) := evalPendingCount env { w with laps := w.laps + 1 }
    (.error (.maxTimerDrainWallClock limit pending), w)
  else (.ok false, { w with laps := w.laps + 2 })

inductive TimerDrainMode where
  | none
  | ready
  | block
  deriving DecidableEq, Repr

inductive DrainResult (τ Cb : Type) where
  | returned (stats : TimerDrainStats) (w : World τ Cb)
  | raised (error : DrainError) (w : World τ Cb)
  | outOfFuel

/-- The loop of `drainTimers`, for at most `fuel` passes. -/
def drainLoop (env : Env τ Cb) (mode : TimerDrainMode) (limit : Nat) :
    Nat → Nat → World τ Cb → DrainResult τ Cb
  | 0, _, _ => .outOfFuel
  | fuel + 1, ran, w =>
    match drainPass env w with
    | (.error error, w) => .raised error w
    | (.ok st, w) =>
      let w := (drainMicrotasks env defaultMaxJobs w).2
      match mode, st.nextDue with
      | .block, some nextDue =>
        match waitForNextDue env limit nextDue w with
        | (.error error, w) => .raised error w
        | (.ok _, w) => drainLoop env mode limit fuel (ran + st.ran) w
      | _, _ =>
        let (stats, w) := finishPass env (ran + st.ran) w
        .returned stats w

def drainTimers (env : Env τ Cb) (mode : TimerDrainMode) (limit fuel : Nat) (w : World τ Cb) :
    DrainResult τ Cb :=
  match mode with
  | .none => .returned ⟨0, 0⟩ w
  | mode => drainLoop env mode limit fuel 0 w

end Timers
