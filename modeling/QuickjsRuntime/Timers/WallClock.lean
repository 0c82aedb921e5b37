import QuickjsRuntime.Timers.BlockingDrain

/-! # The wall-clock guard of a blocking drain

`_waitForNextDue` compares the stopwatch with the limit only when the earliest ref'd timer
is not due yet, and it does so before it sleeps. A round of `drainTimers` whose timer is
due already, or that sleeps until the limit, is followed by another pass whatever the
stopwatch shows then.

What the stopwatch shows when a pass would start is not read by the code. It is given here
by a sequence of its own, indexed by the number of the pass.
-/

namespace Timers

variable {τ Cb : Type} [LinearOrder τ] [Add τ] [Zero τ] {env : Env τ Cb}

/-- A round of the loop that has found a ref'd timer: the number of the pass that would
follow, the due time the pass reported, and the state in which `_waitForNextDue` is called. -/
structure Round (τ Cb : Type) where
  next : Nat
  nextDue : τ
  world : World τ Cb

/-- The loop of a blocking drain with the rounds it comes to. -/
def drainRounds (env : Env τ Cb) (limit : Nat) :
    Nat → Nat → Nat → World τ Cb → List (Round τ Cb) × DrainResult τ Cb
  | 0, _, _, _ => ([], .outOfFuel)
  | fuel + 1, pass, ran, w =>
    match drainPass env w with
    | (.error error, w) => ([], .raised error w)
    | (.ok st, w) =>
      let w := (drainMicrotasks env defaultMaxJobs w).2
      match st.nextDue with
      | none =>
        let (stats, w) := finishPass env (ran + st.ran) w
        ([], .returned stats w)
      | some nextDue =>
        match waitForNextDue env limit nextDue w with
        | (.error error, w') => ([⟨pass + 1, nextDue, w⟩], .raised error w')
        | (.ok _, w') =>
          let (rounds, result) := drainRounds env limit fuel (pass + 1) (ran + st.ran) w'
          (⟨pass + 1, nextDue, w⟩ :: rounds, result)

/-- The rounds are those of `drainTimers`. -/
theorem drainRounds_result (limit fuel pass ran : Nat) (w : World τ Cb) :
    (drainRounds env limit fuel pass ran w).2 = drainLoop env .block limit fuel ran w := by
  induction fuel generalizing pass ran w with
  | zero => rfl
  | succ fuel ih =>
    rw [drainRounds, drainLoop]
    cases hpass : drainPass env w with
    | mk result v =>
      cases result with
      | error error => rfl
      | ok st =>
        cases hnext : st.nextDue with
        | none => simp only [hnext]
        | some nextDue =>
          simp only [hnext]
          cases hwait : waitForNextDue env limit nextDue
              (drainMicrotasks env defaultMaxJobs v).2 with
          | mk answer v' =>
            cases answer with
            | error error => rfl
            | ok due => exact ih ..

/-- A round in which `_waitForNextDue` raises is the last one. -/
theorem drainRounds_raised {limit fuel pass ran : Nat} {w w' : World τ Cb} {r : Round τ Cb}
    {error : DrainError} (hr : r ∈ (drainRounds env limit fuel pass ran w).1)
    (hraised : waitForNextDue env limit r.nextDue r.world = (.error error, w')) :
    (drainRounds env limit fuel pass ran w).2 = .raised error w' := by
  induction fuel generalizing pass ran w with
  | zero => cases hr
  | succ fuel ih =>
    rw [drainRounds] at hr ⊢
    cases hpass : drainPass env w with
    | mk result v =>
      cases result with
      | error error => simp [hpass] at hr
      | ok st =>
        cases hnext : st.nextDue with
        | none => simp [hpass, hnext] at hr
        | some nextDue =>
          simp only [hpass, hnext] at hr ⊢
          cases hwait : waitForNextDue env limit nextDue
              (drainMicrotasks env defaultMaxJobs v).2 with
          | mk answer v' =>
            cases answer with
            | error error' =>
              simp only [hwait, List.mem_singleton] at hr ⊢
              subst hr
              cases hwait.symm.trans hraised
              rfl
            | ok due =>
              simp only [hwait, List.mem_cons] at hr ⊢
              rcases hr with rfl | hr
              · cases hwait.symm.trans hraised
              · exact ih hr

/-- A timer that holds the drain is pending. -/
def HasRef (w : World τ Cb) : Prop :=
  ∃ p ∈ w.pendingTimers, p.2.unref = false

/-- Whenever a ref'd timer is pending and the stopwatch has reached the limit by the time
the next pass would start, `drainTimers` raises at this point and starts no pass. -/
def GuardBites (env : Env τ Cb) (watch : Nat → Nat) (limit fuel : Nat) (w : World τ Cb) : Prop :=
  ∀ r ∈ (drainRounds env limit fuel 0 0 w).1, HasRef r.world → limit ≤ watch r.next →
    ∃ pending w', waitForNextDue env limit r.nextDue r.world =
        (.error (.maxTimerDrainWallClock limit pending), w') ∧
      drainTimers env .block limit fuel w = .raised (.maxTimerDrainWallClock limit pending) w'

theorem waitForNextDue_raises_iff (limit : Nat) (nextDue : τ) (w : World τ Cb) :
    (∃ pending w', waitForNextDue env limit nextDue w =
        (.error (.maxTimerDrainWallClock limit pending), w')) ↔
      env.now w.reads < nextDue ∧ limit ≤ env.elapsed w.laps := by
  unfold waitForNextDue
  by_cases hdue : nextDue ≤ env.now w.reads
  · simp [readClock, hdue]
  · by_cases hlimit : limit ≤ env.elapsed w.laps
    · simp [readClock, hdue, hlimit, not_le.mp hdue]
    · simp [readClock, hdue, hlimit]

/-- The guard bites in a run exactly when in each round with a ref'd timer, if the stopwatch
has reached the limit by the time the next pass would start, the earliest timer was not due
yet when the clock was read and the limit had been reached when the stopwatch was read. -/
theorem guardBites_iff (env : Env τ Cb) (watch : Nat → Nat) (limit fuel : Nat)
    (w : World τ Cb) :
    GuardBites env watch limit fuel w ↔
      ∀ r ∈ (drainRounds env limit fuel 0 0 w).1, HasRef r.world → limit ≤ watch r.next →
        env.now r.world.reads < r.nextDue ∧ limit ≤ env.elapsed r.world.laps := by
  constructor
  · intro h r hr href hreached
    obtain ⟨pending, w', hwait, -⟩ := h r hr href hreached
    exact (waitForNextDue_raises_iff limit r.nextDue r.world).mp ⟨pending, w', hwait⟩
  · intro h r hr href hreached
    obtain ⟨pending, w', hwait⟩ :=
      (waitForNextDue_raises_iff limit r.nextDue r.world).mpr (h r hr href hreached)
    refine ⟨pending, w', hwait, ?_⟩
    rw [← drainRounds_raised hr hwait, drainRounds_result]
    rfl

/-! ## A drain that never stops -/

/-- An interval of two ticks that is due, at a clock that moves on by one at every reading. -/
def steadyInterval (due reads calls start : Nat) (invocations : List (Invocation Nat)) :
    World Nat Nat where
  timerSeq := 2
  pendingTimers := [(1, { fn := 0, ms := 2, due, repeats := true, unref := false })]
  reads := reads
  calls := calls
  passStart := start
  invocations := invocations

def idleEnv : Env Nat Nat := tickingEnv fun _ => ⟨[], .returns⟩

theorem drainMicrotasks_of_no_jobs {w : World τ Cb} (hjobs : w.jobs = []) :
    (drainMicrotasks env defaultMaxJobs w).2 = w := by
  have hnone (budget : Nat) : executePendingJobs env (budget + 1) 0 w = (0, w) := by
    rw [executePendingJobs, hjobs]
    rfl
  have hcapped : executePendingJobsCapped env defaultMaxJobs w = (0, w) := hnone 99999
  have hrounds : defaultMaxJobs = 99999 + 1 := rfl
  rw [drainMicrotasks]
  nth_rewrite 2 [hrounds]
  rw [drainMicrotasksLoop, if_pos (by decide), Nat.sub_zero, hcapped]
  rfl

theorem runTimers_steadyInterval {due reads : Nat} (hdue : due ≤ reads) (calls start : Nat)
    (invocations : List (Invocation Nat)) (budget : Nat) :
    runTimers idleEnv (budget + 2) 0 (steadyInterval due reads calls start invocations) =
      .done 1 (steadyInterval (reads + 2) (reads + 2) (calls + 1) start
          (⟨calls, .timer 1, 0⟩ :: invocations)) := by
  simp [runTimers, readClock, steadyInterval, idleEnv, tickingEnv, bestDue, rearm, updateTimer,
    invoke, started, Nat.not_lt.mpr hdue]

/-- One pass fires the interval once and reports it due at the next reading of the clock. -/
theorem ncTimerDrain_steadyInterval {due reads : Nat} (hdue : due ≤ reads) (calls start : Nat)
    (invocations : List (Invocation Nat)) :
    ncTimerDrain idleEnv (steadyInterval due reads calls start invocations) =
      (.ok ⟨1, false, some (reads + 2)⟩,
        steadyInterval (reads + 2) (reads + 2) (calls + 1) calls
          (⟨calls, .timer 1, 0⟩ :: invocations)) := by
  have htimers := runTimers_steadyInterval hdue calls calls invocations 998
  simp [ncTimerDrain, steadyInterval, runImmediates, nextImmediate, idleEnv, tickingEnv]
    at htimers ⊢
  rw [htimers]
  rfl

theorem drainMicrotasks_steadyInterval (due reads calls start : Nat)
    (invocations : List (Invocation Nat)) :
    (drainMicrotasks idleEnv defaultMaxJobs
        (steadyInterval due reads calls start invocations)).2 =
      steadyInterval due reads calls start invocations :=
  drainMicrotasks_of_no_jobs rfl

/-- The round after it finds the interval due, without a look at the stopwatch. -/
theorem drainLoop_steadyInterval {due reads : Nat} (hdue : due ≤ reads) (limit fuel ran : Nat)
    (calls start : Nat) (invocations : List (Invocation Nat)) :
    drainLoop idleEnv .block limit fuel ran (steadyInterval due reads calls start invocations) =
      .outOfFuel := by
  induction fuel generalizing due reads ran calls start invocations with
  | zero => rfl
  | succ fuel ih =>
    have hpass : drainPass idleEnv (steadyInterval due reads calls start invocations) =
        (.ok ⟨1, false, some (reads + 2)⟩,
          steadyInterval (reads + 2) (reads + 2) (calls + 1) calls
            (⟨calls, .timer 1, 0⟩ :: invocations)) := by
      rw [drainPass_of_ok (ncTimerDrain_steadyInterval hdue ..), drainMicrotasks_steadyInterval]
      rfl
    have hwait : waitForNextDue idleEnv limit (reads + 2)
        (steadyInterval (reads + 2) (reads + 2) (calls + 1) calls
          (⟨calls, .timer 1, 0⟩ :: invocations)) =
        (.ok true, steadyInterval (reads + 2) (reads + 3) (calls + 1) calls
          (⟨calls, .timer 1, 0⟩ :: invocations)) := if_pos (Nat.le_refl _)
    -- the state after the round is of the same form, with a later clock
    rw [drainLoop, hpass]
    simp only [drainMicrotasks_steadyInterval, hwait]
    exact ih (by omega) ..

/-- With the limit reached from the start, a drain of this interval goes on for ever. -/
theorem wallClock_guard_misses_due_interval :
    (¬ GuardBites idleEnv (fun _ => 0) 0 2 (steadyInterval 0 0 0 0 [])) ∧
      ∀ fuel, drainTimers idleEnv .block 0 fuel (steadyInterval 0 0 0 0 []) = .outOfFuel := by
  have hnever (fuel : Nat) :
      drainTimers idleEnv .block 0 fuel (steadyInterval 0 0 0 0 []) = .outOfFuel :=
    drainLoop_steadyInterval (Nat.le_refl 0) ..
  refine ⟨?_, hnever⟩
  intro hbites
  obtain ⟨v, hrounds, href⟩ : ∃ v, (⟨1, 2, v⟩ : Round Nat Nat) ∈
      (drainRounds idleEnv 0 2 0 0 (steadyInterval 0 0 0 0 [])).1 ∧ HasRef v :=
    ⟨_, List.mem_cons_self, _, List.mem_cons_self, rfl⟩
  obtain ⟨pending, w', -, hraised⟩ := hbites ⟨1, 2, v⟩ hrounds href (Nat.le_refl 0)
  rw [hnever] at hraised
  cases hraised

end Timers
