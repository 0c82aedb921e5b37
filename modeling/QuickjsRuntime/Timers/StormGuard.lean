import QuickjsRuntime.Timers.BlockingDrain

/-! # The guard against timer storms

`__ncTimerDrain` tests the cap at the head of its two loops, before it is known whether
anything is left to run. At the head of the timer loop the test alone decides: a pass that
has run as many callbacks as the cap admits is reported as capped, also when it has run
everything there was.

What there is to run is said by the two loops without their cap. `ImmediatesRun` and
`TimersRun` hold for a loop that comes to its end, with the number of callbacks it runs.
-/

namespace Timers

variable {τ Cb : Type} [LinearOrder τ] {env : Env τ Cb} {w w' : World τ Cb}

/-- A timer is due at the next reading of the clock. -/
def DueNow (env : Env τ Cb) (w : World τ Cb) : Prop :=
  ∃ p ∈ w.pendingTimers, p.2.due ≤ env.now w.reads

/-- An uncancelled immediate, or a timer that is due, is waiting. -/
def Waiting (env : Env τ Cb) (w : World τ Cb) : Prop :=
  ¬ AllCancelled w ∨ DueNow env w

variable [Add τ] [Zero τ]

/-- The guard fires only on excess: a pass that returns is capped exactly when as many
callbacks have run as the cap admits and something is still waiting then, and only such a
pass makes `drainTimers` raise. -/
def CapsOnlyExcess (env : Env τ Cb) (w : World τ Cb) : Prop :=
  (∀ st w', ncTimerDrain env w = (.ok st, w') →
    (st.capped = true ↔ st.ran = env.maxTimerCallbacks ∧ Waiting env w')) ∧
  ∀ v, drainPass env w = (.error (.maxTimerCallbacks env.maxTimerCallbacks), v) →
    ∃ st w', ncTimerDrain env w = (.ok st, w') ∧ st.ran = env.maxTimerCallbacks ∧ Waiting env w'

/-! ## The loops without the cap -/

/-- From index `i` on, `n` immediates run and no live one is left in state `v`. -/
inductive ImmediatesRun (env : Env τ Cb) : Nat → World τ Cb → Nat → World τ Cb → Prop
  | ended {i : Nat} {w : World τ Cb} (hnext : nextImmediate (w.immediates.drop i) i = none) :
      ImmediatesRun env i w 0 w
  | ran {i j n : Nat} {w w₁ v : World τ Cb} {im : Immediate Cb}
      (hnext : nextImmediate (w.immediates.drop i) i = some (j, im))
      (hinvoke : invoke env w (.immediate im.entry) im.fn = (.returns, w₁))
      (hrest : ImmediatesRun env (j + 1) { w₁ with immediates := w₁.immediates.set j none } n v) :
      ImmediatesRun env i w (n + 1) v

/-- One after the other `n` timers fire, and no timer is due in state `v`. -/
inductive TimersRun (env : Env τ Cb) : World τ Cb → Nat → World τ Cb → Prop
  | ended {w : World τ Cb} (hnone : ¬ DueNow env w) : TimersRun env w 0 w
  | ran {w w₁ v : World τ Cb} {n id : Nat} {t : Timer τ Cb}
      (hbest : bestDue (env.now w.reads) w.pendingTimers = some (id, t))
      (hinvoke : invoke env (rearm (readClock env w).2 (env.now w.reads) id t) (.timer id) t.fn =
        (.returns, w₁))
      (hrest : TimersRun env w₁ n v) : TimersRun env w (n + 1) v

/-- The queue of immediates after the first loop. -/
def compact (w : World τ Cb) : World τ Cb :=
  { w with immediates := w.immediates.filter Option.isSome }

/-- Without a cap exactly `n` callbacks would run in the pass, and nothing is waiting then. -/
def RunsOut (env : Env τ Cb) (n : Nat) (w : World τ Cb) : Prop :=
  ∃ immediates timers v w', ImmediatesRun env 0 { w with passStart := w.calls } immediates v ∧
    TimersRun env (compact v) timers w' ∧ immediates + timers = n ∧ AllCancelled w'

theorem ImmediatesRun.runImmediates_of_lt {i n : Nat} (h : ImmediatesRun env i w n w')
    {budget : Nat} (hlt : n < budget) (ran : Nat) :
    runImmediates env budget i ran w = .done (ran + n) w' := by
  induction h generalizing budget ran with
  | ended hnext =>
    cases budget with
    | zero => cases hlt
    | succ budget => simp only [runImmediates, hnext, Nat.add_zero]
  | ran hnext hinvoke _ ih =>
    cases budget with
    | zero => cases hlt
    | succ budget =>
      simp only [runImmediates, hnext, hinvoke]
      rw [ih (Nat.lt_of_succ_lt_succ hlt), Nat.add_right_comm, Nat.add_assoc]

/-- With no callback to spare the loop may see the cap before it sees the end. -/
theorem ImmediatesRun.runImmediates_self {i n : Nat} (h : ImmediatesRun env i w n w') (ran : Nat) :
    runImmediates env n i ran w = .capped (ran + n) w' ∨
      runImmediates env n i ran w = .done (ran + n) w' := by
  induction h generalizing ran with
  | ended hnext =>
    unfold runImmediates
    split
    · exact .inl rfl
    · exact .inr rfl
  | @ran _ _ n _ _ _ _ hnext hinvoke _ ih =>
    have hran : ran + (n + 1) = ran + 1 + n := by omega
    simp only [runImmediates, hnext, hinvoke, hran]
    exact ih (ran + 1)

theorem TimersRun.runTimers_self {n : Nat} (h : TimersRun env w n w') (ran : Nat) :
    runTimers env n ran w = .capped (ran + n) w' := by
  induction h generalizing ran with
  | ended => rfl
  | ran hbest hinvoke _ ih =>
    simp only [readClock] at hinvoke
    simp only [runTimers, readClock, hbest, hinvoke]
    rw [ih, Nat.add_right_comm, Nat.add_assoc]

theorem TimersRun.not_dueNow {n : Nat} (h : TimersRun env w n w') : ¬ DueNow env w' := by
  induction h with
  | ended hnone => exact hnone
  | ran _ _ _ ih => exact ih

/-- A loop that meets the cap has run as many as the cap admits, and was at its end if nothing
is left; one that ends has not run more. -/
theorem runImmediates_spec (env : Env τ Cb) (budget i ran : Nat) (w : World τ Cb) :
    match runImmediates env budget i ran w with
    | .capped n w' => n = ran + budget ∧ (AllCancelled w' → ImmediatesRun env i w budget w')
    | .threw _ _ => True
    | .done n w' => ∃ k ≤ budget, n = ran + k ∧ ImmediatesRun env i w k w' := by
  induction budget generalizing i ran w with
  | zero =>
    rw [runImmediates]
    -- the cap is met at any slot, also at one that is cancelled or empty
    by_cases hslot : i < w.immediates.length
    · rw [if_pos hslot]
      refine ⟨rfl, fun hdead => .ended (nextImmediate_eq_none_of_allCancelled ?_ i)⟩
      intro im him
      exact hdead im (List.mem_of_mem_drop him)
    · rw [if_neg hslot]
      refine ⟨0, Nat.le_refl 0, rfl, .ended ?_⟩
      rw [List.drop_of_length_le (Nat.le_of_not_lt hslot)]
      rfl
  | succ budget ih =>
    rw [runImmediates]
    cases hnext : nextImmediate (w.immediates.drop i) i with
    | none => exact ⟨0, Nat.zero_le _, rfl, .ended hnext⟩
    | some found =>
      obtain ⟨j, im⟩ := found
      dsimp only
      cases hinvoke : invoke env w (.immediate im.entry) im.fn with
      | mk ending w₁ =>
        cases ending with
        | throws text => trivial
        | returns =>
          have hrest := ih (j + 1) (ran + 1)
            { w₁ with immediates := w₁.immediates.set j none }
          dsimp only
          split
          next heq =>
            rw [heq] at hrest
            obtain ⟨hn, hrun⟩ := hrest
            exact ⟨by omega, fun hdead => .ran hnext hinvoke (hrun hdead)⟩
          next => trivial
          next heq =>
            rw [heq] at hrest
            obtain ⟨k, hk, hn, hrun⟩ := hrest
            exact ⟨k + 1, by omega, by omega, .ran hnext hinvoke hrun⟩

/-- The timer loop meets the cap also at its end: if it finds no due timer, it has run less. -/
theorem runTimers_spec (env : Env τ Cb) (budget ran : Nat) (w : World τ Cb) :
    match runTimers env budget ran w with
    | .capped n w' => n = ran + budget ∧ (¬ DueNow env w' → TimersRun env w budget w')
    | .threw _ _ => True
    | .done n _ => n < ran + budget := by
  induction budget generalizing ran w with
  -- the cap is tested before the search, so it is met whether or not a timer is due
  | zero => exact ⟨rfl, .ended⟩
  | succ budget ih =>
    simp only [runTimers, readClock]
    cases hbest : bestDue (env.now w.reads) w.pendingTimers with
    | none => exact Nat.lt_add_of_pos_right (Nat.succ_pos budget)
    | some found =>
      obtain ⟨id, t⟩ := found
      dsimp only
      cases hinvoke : invoke env (rearm (readClock env w).2 (env.now w.reads) id t)
          (.timer id) t.fn with
      | mk ending w₁ =>
        rw [readClock] at hinvoke
        rw [hinvoke]
        cases ending with
        | throws text => trivial
        | returns =>
          have hrest := ih (ran + 1) w₁
          dsimp only
          split
          next heq =>
            rw [heq] at hrest
            obtain ⟨hn, hrun⟩ := hrest
            exact ⟨by omega, fun hnone => .ran hbest hinvoke (hrun hnone)⟩
          next => trivial
          next heq =>
            rw [heq] at hrest
            dsimp only at hrest
            omega

/-! ## The pass -/

omit [LinearOrder τ] [Add τ] [Zero τ] in
theorem allCancelled_compact : AllCancelled (compact w) ↔ AllCancelled w := by
  simp [AllCancelled, compact]

/-- A pass that returns is capped exactly when it has run as many callbacks as the cap
admits. -/
theorem ncTimerDrain_capped_iff {st : Status τ} (h : ncTimerDrain env w = (.ok st, w')) :
    st.capped = true ↔ st.ran = env.maxTimerCallbacks := by
  have hfirst := runImmediates_spec env env.maxTimerCallbacks 0 0 { w with passStart := w.calls }
  unfold ncTimerDrain at h
  split at h
  next himmediates =>
    cases h
    rw [himmediates] at hfirst
    simp [hfirst.1]
  next => cases h
  next ran v himmediates =>
    rw [himmediates] at hfirst
    obtain ⟨k, hk, rfl, -⟩ := hfirst
    have hsecond := runTimers_spec env (env.maxTimerCallbacks - (0 + k)) (0 + k) (compact v)
    split at h
    next htimers =>
      cases h
      rw [compact, htimers] at hsecond
      simp only [true_iff]
      omega
    next => cases h
    next htimers =>
      cases h
      rw [compact, htimers] at hsecond
      simp only [Bool.false_eq_true, false_iff]
      dsimp only at hsecond
      omega

/-- When everything has run just as the cap is met, the pass is capped with nothing
waiting. -/
theorem RunsOut.pass_capped (h : RunsOut env env.maxTimerCallbacks w) :
    ∃ w', ncTimerDrain env w = (.ok ⟨env.maxTimerCallbacks, true, none⟩, w') ∧
      ¬ Waiting env w' := by
  obtain ⟨immediates, timers, v, w', himmediates, htimers, hsum, hdead⟩ := h
  have hnone := htimers.not_dueNow
  have hbudget : env.maxTimerCallbacks - immediates = timers := by omega
  have hrun := htimers.runTimers_self immediates
  rw [hsum] at hrun
  have hdone : runImmediates env env.maxTimerCallbacks 0 0 { w with passStart := w.calls } =
      .done immediates v →
      ncTimerDrain env w = (.ok ⟨env.maxTimerCallbacks, true, none⟩, w') := by
    intro hloop
    rw [ncTimerDrain, hloop]
    simp only [hbudget]
    rw [← compact, hrun]
  have hquiet : ¬ Waiting env w' := not_or.mpr ⟨not_not.mpr hdead, hnone⟩
  cases htimers with
  | ended =>
    -- The last callback was an immediate, and either loop may meet the cap.
    rw [Nat.add_zero] at hsum
    subst hsum
    rcases himmediates.runImmediates_self 0 with hcapped | hended
    · rw [Nat.zero_add] at hcapped
      refine ⟨v, ?_, not_or.mpr ⟨not_not.mpr (allCancelled_compact.mp hdead), hnone⟩⟩
      rw [ncTimerDrain, hcapped]
    · rw [Nat.zero_add] at hended
      exact ⟨compact v, hdone hended, hquiet⟩
  | ran =>
    have hlt : immediates < env.maxTimerCallbacks := by omega
    have hended := himmediates.runImmediates_of_lt hlt 0
    rw [Nat.zero_add] at hended
    exact ⟨w', hdone hended, hquiet⟩

/-- Conversely, a capped pass with nothing waiting has run everything. -/
theorem runsOut_of_not_waiting {st : Status τ} (h : ncTimerDrain env w = (.ok st, w'))
    (hcapped : st.capped = true) (hquiet : ¬ Waiting env w') :
    RunsOut env env.maxTimerCallbacks w := by
  obtain ⟨hdead, hnone⟩ := not_or.mp hquiet
  rw [not_not] at hdead
  have hfirst := runImmediates_spec env env.maxTimerCallbacks 0 0 { w with passStart := w.calls }
  unfold ncTimerDrain at h
  split at h
  next himmediates =>
    cases h
    rw [himmediates] at hfirst
    exact ⟨_, 0, w', compact w', hfirst.2 hdead, .ended hnone, rfl, allCancelled_compact.mpr hdead⟩
  next => cases h
  next ran v himmediates =>
    rw [himmediates] at hfirst
    obtain ⟨k, hk, rfl, hrun⟩ := hfirst
    have hsecond := runTimers_spec env (env.maxTimerCallbacks - (0 + k)) (0 + k) (compact v)
    split at h
    next htimers =>
      cases h
      rw [compact, htimers] at hsecond
      exact ⟨k, _, v, w', hrun, hsecond.2 hnone, by omega, hdead⟩
    next => cases h
    next =>
      cases h
      cases hcapped

/-- A pass that raises the guard was capped. -/
theorem drainPass_maxTimerCallbacks {cap : Nat} {v : World τ Cb}
    (h : drainPass env w = (.error (.maxTimerCallbacks cap), v)) :
    ∃ st w', ncTimerDrain env w = (.ok st, w') ∧ st.capped = true := by
  cases hscript : ncTimerDrain env w with
  | mk result v =>
    cases result with
    | error text =>
      have herror := drainPass_of_error hscript
      rw [h] at herror
      cases herror
    | ok st =>
      refine ⟨st, v, rfl, ?_⟩
      by_contra hcapped
      rw [drainPass_of_ok hscript, if_neg hcapped] at h
      cases h

/-- The guard fires only on excess exactly when the callbacks do not run out just as the
cap is met. -/
theorem capsOnlyExcess_iff (env : Env τ Cb) (w : World τ Cb) :
    CapsOnlyExcess env w ↔ ¬ RunsOut env env.maxTimerCallbacks w := by
  constructor
  · rintro ⟨hexact, -⟩ hout
    obtain ⟨w', hpass, hquiet⟩ := hout.pass_capped
    exact hquiet ((hexact _ _ hpass).mp rfl).2
  · intro hmore
    have hwaiting : ∀ st w', ncTimerDrain env w = (.ok st, w') → st.capped = true →
        st.ran = env.maxTimerCallbacks ∧ Waiting env w' := by
      intro st w' hpass hcapped
      refine ⟨(ncTimerDrain_capped_iff hpass).mp hcapped, ?_⟩
      by_contra hquiet
      exact hmore (runsOut_of_not_waiting hpass hcapped hquiet)
    refine ⟨?_, ?_⟩
    · intro st w' hpass
      exact ⟨hwaiting st w' hpass, fun h => (ncTimerDrain_capped_iff hpass).mpr h.1⟩
    · intro v hraised
      obtain ⟨st, w', hpass, hcapped⟩ := drainPass_maxTimerCallbacks hraised
      exact ⟨st, w', hpass, hwaiting st w' hpass hcapped⟩

/-- A cap of one callback, and callbacks that do nothing. -/
def singleCallbackEnv : Env Nat Nat :=
  { tickingEnv (fun _ => ⟨[], .returns⟩) with maxTimerCallbacks := 1 }

/-- With one timeout in the queue, which is due, the drain raises although nothing is left. -/
theorem guard_fires_without_excess :
    (¬ CapsOnlyExcess singleCallbackEnv oneTimer) ∧
      (∃ v, ncTimerDrain singleCallbackEnv oneTimer = (.ok ⟨1, true, none⟩, v) ∧
        v.pendingTimers = [] ∧ v.immediates = []) ∧
      ∃ v, drainTimers singleCallbackEnv .ready 0 1 oneTimer =
        .raised (.maxTimerCallbacks 1) v := by
  refine ⟨?_, ⟨_, rfl, rfl, rfl⟩, ⟨_, rfl⟩⟩
  rintro ⟨hexact, -⟩
  rcases ((hexact _ _ rfl).mp rfl).2 with hlive | ⟨p, hp, -⟩
  · exact hlive fun im him => nomatch him
  · cases hp

end Timers
