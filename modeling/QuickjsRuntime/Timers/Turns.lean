import QuickjsRuntime.Foundation.Transition
import QuickjsRuntime.Timers.BlockingDrain

/-! # Runs of the scheduler, turn by turn

A run is a list of moves of the host: a call that script code makes, a pass, or the execution
of promise jobs. What happens in a run is a list of turns. A turn invokes at most one callback;
it has the calls that the callback makes, and what the scheduler does before and after them.
Taking the turns one after the other gives the state that the code ends in.
-/

namespace Timers

open Transition (Follows follows_append)

variable {τ Cb : Type} [LinearOrder τ] [Add τ] [Zero τ] {env : Env τ Cb} {w : World τ Cb}

/-- One turn. `timer` and `idle` read the clock and find the timer, or none that is due. -/
inductive Turn (τ Cb : Type) where
  | script (op : Op τ Cb)
  | start
  | immediate (slot : Nat) (im : Immediate Cb)
  | sweep
  | timer (id : Nat) (t : Timer τ Cb)
  | idle
  | reaction (job : Cb)
  deriving DecidableEq, Repr

namespace Turn

/-- Whose callback is invoked. -/
def source : Turn τ Cb → Option Source
  | .immediate _ im => some (.immediate im.entry)
  | .timer id _ => some (.timer id)
  | .reaction _ => some .reaction
  | _ => none

/-- The state in which the calls of the turn begin. -/
def enter (env : Env τ Cb) (w : World τ Cb) : Turn τ Cb → World τ Cb
  | .script _ => w
  | .start => { w with passStart := w.calls }
  | .immediate _ im => started w (.immediate im.entry) im.fn
  | .sweep => { w with immediates := w.immediates.filter Option.isSome }
  | .timer id t => started (rearm (readClock env w).2 (env.now w.reads) id t) (.timer id) t.fn
  | .idle => (readClock env w).2
  | .reaction job => started { w with jobs := w.jobs.tail } .reaction job

/-- The calls of the turn, and how its callback ends. -/
def act (env : Env τ Cb) (w : World τ Cb) : Turn τ Cb → Act τ Cb
  | .script op => ⟨[op], .returns⟩
  | .immediate _ im => env.behave w.calls im.fn
  | .timer _ t => env.behave w.calls t.fn
  | .reaction job => env.behave w.calls job
  | _ => ⟨[], .returns⟩

/-- An immediate whose callback has returned is consumed. -/
def leave (ending : Ending) (w : World τ Cb) : Turn τ Cb → World τ Cb
  | .immediate slot _ =>
    match ending with
    | .returns => { w with immediates := w.immediates.set slot none }
    | .throws _ => w
  | _ => w

def apply (env : Env τ Cb) (w : World τ Cb) (t : Turn τ Cb) : World τ Cb :=
  t.leave (t.act env w).ending ((t.act env w).ops.foldl (applyOp env) (t.enter env w))

/-- When the code takes the turn. -/
def Enabled (env : Env τ Cb) (w : World τ Cb) : Turn τ Cb → Prop
  | .immediate slot im =>
    w.immediates[slot]? = some (some im) ∧ im.cancelled = false ∧ DeadBefore slot w
  | .timer id t => bestDue (env.now w.reads) w.pendingTimers = some (id, t)
  | .idle => bestDue (env.now w.reads) w.pendingTimers = none
  | .reaction job => w.jobs.head? = some job
  | _ => True

end Turn

omit [LinearOrder τ] [Add τ] [Zero τ] in
theorem pendingTimers_leave (w : World τ Cb) (t : Turn τ Cb) (ending : Ending) :
    (t.leave ending w).pendingTimers = w.pendingTimers := by
  cases t with
  | immediate slot im => cases ending <;> rfl
  | script | start | sweep | timer | idle | reaction => rfl

/-! ## The turns of the loops -/

/-- The turns of `runImmediates`. -/
def immediateTurns (env : Env τ Cb) : Nat → Nat → World τ Cb → List (Turn τ Cb)
  | 0, _, _ => []
  | budget + 1, i, w =>
    match nextImmediate (w.immediates.drop i) i with
    | none => []
    | some (j, im) =>
      .immediate j im ::
        match invoke env w (.immediate im.entry) im.fn with
        | (.throws _, _) => []
        | (.returns, w) =>
          immediateTurns env budget (j + 1) { w with immediates := w.immediates.set j none }

/-- The turns of `runTimers`. -/
def timerTurns (env : Env τ Cb) : Nat → World τ Cb → List (Turn τ Cb)
  | 0, _ => []
  | budget + 1, w =>
    match bestDue (env.now w.reads) w.pendingTimers with
    | none => [.idle]
    | some (id, t) =>
      .timer id t ::
        match invoke env (rearm (readClock env w).2 (env.now w.reads) id t) (.timer id) t.fn with
        | (.throws _, _) => []
        | (.returns, w) => timerTurns env budget w

/-- The turns of `__ncTimerDrain`. -/
def passTurns (env : Env τ Cb) (w : World τ Cb) : List (Turn τ Cb) :=
  .start :: (immediateTurns env env.maxTimerCallbacks 0 { w with passStart := w.calls } ++
    match runImmediates env env.maxTimerCallbacks 0 0 { w with passStart := w.calls } with
    | .done ran w =>
      .sweep :: timerTurns env (env.maxTimerCallbacks - ran)
        { w with immediates := w.immediates.filter Option.isSome }
    | _ => [])

/-- The turns of `executePendingJobs`. -/
def jobTurns (env : Env τ Cb) : Nat → World τ Cb → List (Turn τ Cb)
  | 0, _ => []
  | budget + 1, w =>
    match w.jobs with
    | [] => []
    | job :: rest =>
      .reaction job ::
        match invoke env { w with jobs := rest } .reaction job with
        | (.throws _, _) => []
        | (.returns, w) => jobTurns env budget w

/-- The turns of a list lead from one state to another, each enabled where it is taken. -/
def Leads (env : Env τ Cb) (w : World τ Cb) (ts : List (Turn τ Cb)) (w' : World τ Cb) : Prop :=
  Follows (Turn.apply env) (Turn.Enabled env) w ts ∧ ts.foldl (Turn.apply env) w = w'

theorem leads_nil (env : Env τ Cb) (w : World τ Cb) : Leads env w [] w :=
  ⟨trivial, rfl⟩

theorem Leads.cons {t : Turn τ Cb} {ts : List (Turn τ Cb)} {w' : World τ Cb}
    (ht : t.Enabled env w) (h : Leads env (t.apply env w) ts w') : Leads env w (t :: ts) w' :=
  ⟨⟨ht, h.1⟩, h.2⟩

theorem Leads.append {ts ts' : List (Turn τ Cb)} {w₁ w₂ : World τ Cb} (h : Leads env w ts w₁)
    (h' : Leads env w₁ ts' w₂) : Leads env w (ts ++ ts') w₂ := by
  obtain ⟨hfollows, rfl⟩ := h
  refine ⟨follows_append.mpr ⟨hfollows, h'.1⟩, ?_⟩
  rw [List.foldl_append, h'.2]

/-! A turn that invokes a callback is an `invoke` of the code. -/

theorem apply_immediate (env : Env τ Cb) (w : World τ Cb) (slot : Nat) (im : Immediate Cb) :
    (Turn.immediate slot im).apply env w =
      (Turn.immediate slot im).leave (invoke env w (.immediate im.entry) im.fn).1
        (invoke env w (.immediate im.entry) im.fn).2 := rfl

theorem apply_timer (env : Env τ Cb) (w : World τ Cb) (id : Nat) (t : Timer τ Cb) :
    (Turn.timer id t).apply env w =
      (invoke env (rearm (readClock env w).2 (env.now w.reads) id t) (.timer id) t.fn).2 := by
  have hcalls := (sameRecord_rearm (readClock env w).2 (env.now w.reads) id t).2.1
  rw [invoke, hcalls]
  rfl

/-- The loop over the due timers, with the reading and the timers that the selection sees. -/
theorem runTimers_succ (env : Env τ Cb) (budget ran : Nat) (w : World τ Cb) :
    runTimers env (budget + 1) ran w =
      match bestDue (env.now w.reads) w.pendingTimers with
      | none => .done ran (readClock env w).2
      | some (id, t) =>
        match invoke env (rearm (readClock env w).2 (env.now w.reads) id t) (.timer id) t.fn with
        | (.throws text, w) => .threw text w
        | (.returns, w) => runTimers env budget (ran + 1) w := rfl

theorem apply_reaction (env : Env τ Cb) {job : Cb} {rest : List Cb} (hjobs : w.jobs = job :: rest) :
    (Turn.reaction job).apply env w = (invoke env { w with jobs := rest } .reaction job).2 := by
  simp only [Turn.apply, Turn.act, Turn.leave, Turn.enter, invoke, hjobs, List.tail_cons]

theorem leads_immediateTurns (budget i ran : Nat) (hdead : DeadBefore i w) :
    Leads env w (immediateTurns env budget i w) (runImmediates env budget i ran w).world := by
  induction budget generalizing i ran w with
  | zero =>
    rw [immediateTurns, runImmediates]
    split <;> exact leads_nil env w
  | succ budget ih =>
    rw [immediateTurns, runImmediates]
    cases hnext : nextImmediate (w.immediates.drop i) i with
    | none => exact leads_nil env w
    | some p =>
      obtain ⟨j, im⟩ := p
      obtain ⟨hget, hlive, hbefore⟩ := hdead.nextImmediate hnext
      have hlt := (List.getElem?_eq_some_iff.mp hget).1
      have hconsumed := hbefore.consumed env hlt (.immediate im.entry) im.fn
      dsimp only
      refine Leads.cons ⟨hget, hlive, hbefore⟩ ?_
      rw [apply_immediate]
      cases hinvoke : invoke env w (.immediate im.entry) im.fn with
      | mk ending w₁ =>
        rw [hinvoke] at hconsumed
        cases ending with
        | throws text => exact leads_nil env w₁
        | returns => exact ih (j + 1) (ran + 1) hconsumed

theorem leads_timerTurns (budget ran : Nat) :
    Leads env w (timerTurns env budget w) (runTimers env budget ran w).world := by
  induction budget generalizing ran w with
  | zero => exact leads_nil env w
  | succ budget ih =>
    rw [timerTurns, runTimers_succ]
    cases hbest : bestDue (env.now w.reads) w.pendingTimers with
    | none => exact Leads.cons hbest (leads_nil env _)
    | some p =>
      obtain ⟨id, t⟩ := p
      dsimp only
      refine Leads.cons hbest ?_
      rw [apply_timer]
      cases invoke env (rearm (readClock env w).2 (env.now w.reads) id t) (.timer id) t.fn with
      | mk ending w₁ =>
        cases ending with
        | throws text => exact leads_nil env w₁
        | returns => exact ih (ran + 1)

theorem leads_jobTurns (budget executed : Nat) :
    Leads env w (jobTurns env budget w) (executePendingJobs env budget executed w).2 := by
  induction budget generalizing executed w with
  | zero => exact leads_nil env w
  | succ budget ih =>
    rw [jobTurns, executePendingJobs]
    cases hjobs : w.jobs with
    | nil => exact leads_nil env w
    | cons job rest =>
      have hhead : w.jobs.head? = some job := by
        rw [hjobs]
        rfl
      dsimp only
      refine Leads.cons hhead ?_
      rw [apply_reaction env hjobs]
      cases invoke env { w with jobs := rest } .reaction job with
      | mk ending w₁ =>
        cases ending with
        | throws text => exact leads_nil env w₁
        | returns => exact ih (executed + 1)

omit [LinearOrder τ] [Add τ] [Zero τ] in
theorem deadBefore_zero (w : World τ Cb) : DeadBefore 0 w :=
  ⟨Nat.zero_le _, fun _ hk => absurd hk (Nat.not_lt_zero _)⟩

theorem leads_passTurns (env : Env τ Cb) (w : World τ Cb) :
    Leads env w (passTurns env w) (ncTimerDrain env w).2 := by
  have himmediates : Leads env { w with passStart := w.calls }
      (immediateTurns env env.maxTimerCallbacks 0 { w with passStart := w.calls }) _ :=
    leads_immediateTurns env.maxTimerCallbacks 0 0 (deadBefore_zero _)
  refine Leads.cons trivial ?_
  rw [ncTimerDrain]
  cases hphase : runImmediates env env.maxTimerCallbacks 0 0 { w with passStart := w.calls } with
  | capped ran w₁ =>
    rw [hphase] at himmediates
    exact himmediates.append (leads_nil env w₁)
  | threw text w₁ =>
    rw [hphase] at himmediates
    exact himmediates.append (leads_nil env w₁)
  | done ran w₁ =>
    rw [hphase] at himmediates
    refine himmediates.append (Leads.cons trivial ?_)
    have htimers : Leads env { w₁ with immediates := w₁.immediates.filter Option.isSome }
        (timerTurns env (env.maxTimerCallbacks - ran)
          { w₁ with immediates := w₁.immediates.filter Option.isSome }) _ :=
      leads_timerTurns (env.maxTimerCallbacks - ran) ran
    simp only
    cases hlast : runTimers env (env.maxTimerCallbacks - ran) ran
        { w₁ with immediates := w₁.immediates.filter Option.isSome } <;>
      · rw [hlast] at htimers
        exact htimers

/-! ## Runs -/

/-- What the host lets happen between two states: a call of script code, a pass, or the
execution of promise jobs. -/
inductive Move (τ Cb : Type) where
  | script (op : Op τ Cb)
  | pass
  | jobs (maxJobs : Nat)
  deriving DecidableEq, Repr

def Move.apply (env : Env τ Cb) (w : World τ Cb) : Move τ Cb → World τ Cb
  | .script op => applyOp env w op
  | .pass => (ncTimerDrain env w).2
  | .jobs maxJobs => (executePendingJobsCapped env maxJobs w).2

def Move.turns (env : Env τ Cb) (w : World τ Cb) : Move τ Cb → List (Turn τ Cb)
  | .script op => [.script op]
  | .pass => passTurns env w
  | .jobs maxJobs => jobTurns env (max 1 maxJobs) w

/-- The state after a list of moves. -/
def run (env : Env τ Cb) (w : World τ Cb) (moves : List (Move τ Cb)) : World τ Cb :=
  moves.foldl (Move.apply env) w

/-- The turns of a list of moves. -/
def turns (env : Env τ Cb) : World τ Cb → List (Move τ Cb) → List (Turn τ Cb)
  | _, [] => []
  | w, m :: moves => m.turns env w ++ turns env (m.apply env w) moves

theorem turns_append (env : Env τ Cb) (w : World τ Cb) (moves moves' : List (Move τ Cb)) :
    turns env w (moves ++ moves') = turns env w moves ++ turns env (run env w moves) moves' := by
  induction moves generalizing w with
  | nil => rfl
  | cons m moves ih =>
    rw [List.cons_append, turns, turns, ih, List.append_assoc]
    rfl

theorem leads_move (env : Env τ Cb) (w : World τ Cb) (m : Move τ Cb) :
    Leads env w (m.turns env w) (m.apply env w) := by
  cases m with
  | script op => exact Leads.cons trivial (leads_nil env _)
  | pass => exact leads_passTurns env w
  | jobs maxJobs => exact leads_jobTurns (max 1 maxJobs) 0

/-- Taking the turns of a run leads to the state that the code ends in. -/
theorem leads_turns (env : Env τ Cb) (w : World τ Cb) (moves : List (Move τ Cb)) :
    Leads env w (turns env w moves) (run env w moves) := by
  induction moves generalizing w with
  | nil => exact leads_nil env w
  | cons m moves ih => exact (leads_move env w m).append (ih _)

end Timers
