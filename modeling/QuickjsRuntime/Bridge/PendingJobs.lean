import Mathlib.Algebra.Group.Int.Defs
import Mathlib.Algebra.Group.Nat.Defs
import Mathlib.Tactic.Common
import QuickjsRuntime.Timers.Scheduler

/-!
# Draining the job queue

`JS_ExecutePendingJob` of the engine, `qjs_execute_pending_jobs_capped` of
`native/quickjs_bridge.c` and `drainMicrotasks` of `quickjs_runtime.dart`. The queue is first
in, first out; what a job does is given by a behaviour: the jobs it enqueues, what it makes of
the rest of the context, and whether it raises.

The two loops share a budget. It goes from Dart to C as a 32-bit integer, so that a large one
is used up in several calls. A call that ends in a raised exception answers -1, and the jobs it
completed before are in no count.
-/

namespace Bridge

/-! ## Model -/

section Model

variable {J σ : Type}

/-- What running a job comes to. -/
structure JobRun (J σ : Type) where
  raised : Bool
  queued : List J
  heap : σ

/-- A context as seen from its job queue, with the jobs that were run, oldest first. -/
structure JobContext (J σ : Type) where
  queue : List J
  heap : σ
  ran : List J
  deriving DecidableEq, Repr

/-- The behaviour of jobs. -/
abbrev Behaviour (J σ : Type) := J → σ → JobRun J σ

/-- `JS_ExecutePendingJob`: 0 without a job, 1 after a job, -1 when it raised. -/
def executePendingJob (run : Behaviour J σ) (c : JobContext J σ) : Int × JobContext J σ :=
  match c.queue with
  | [] => (0, c)
  | job :: rest =>
    let r := run job c.heap
    (if r.raised then -1 else 1,
      { queue := rest ++ r.queued, heap := r.heap, ran := c.ran ++ [job] })

/-- The loop of `qjs_execute_pending_jobs_capped`. -/
def executePendingJobsCapped (run : Behaviour J σ) (maxJobs : Int) (executed : Nat)
    (c : JobContext J σ) : Int × JobContext J σ :=
  match executePendingJob run c with
  | (rc, c) =>
    if rc = 0 then (executed, c)
    else if rc < 0 then (-1, c)
    else if (executed + 1 : Nat) ≥ maxJobs then ((executed + 1 : Nat), c)
    else executePendingJobsCapped run maxJobs (executed + 1) c
termination_by (maxJobs - executed).toNat
decreasing_by omega

/-- An integer of Dart as an `Int32` of the foreign function. -/
def toInt32 (n : Int) : Int :=
  n.bmod (2 ^ 32)

/-- The loop of `drainMicrotasks`. -/
def drainMicrotasksLoop (run : Behaviour J σ) (maxJobs : Int) (executed : Nat)
    (c : JobContext J σ) : Nat × JobContext J σ :=
  if (executed : Int) < maxJobs then
    match executePendingJobsCapped run (toInt32 (maxJobs - executed)) 0 c with
    | (rc, c) =>
      if rc ≤ 0 then (executed, c)
      else drainMicrotasksLoop run maxJobs (executed + rc.toNat) c
  else (executed, c)
termination_by (maxJobs - executed).toNat
decreasing_by omega

def drainMicrotasks (run : Behaviour J σ) (maxJobs : Int) (c : JobContext J σ) :
    Nat × JobContext J σ :=
  if maxJobs ≤ 0 then (0, c) else drainMicrotasksLoop run maxJobs 0 c

end Model

/-! ## What a drain should do -/

section Spec

variable {J σ : Type}

/-- The context after the next `k` jobs in queue order, if there are as many and none raises. -/
def completeJobs (run : Behaviour J σ) : Nat → JobContext J σ → Option (JobContext J σ)
  | 0, c => some c
  | k + 1, c =>
    match executePendingJob run c with
    | (rc, c) => if rc = 1 then completeJobs run k c else none

/-- After `k` jobs the next one raises. -/
def RaisesAfter (run : Behaviour J σ) (k : Nat) (c : JobContext J σ) : Prop :=
  ∃ c₁, completeJobs run k c = some c₁ ∧ (executePendingJob run c₁).1 = -1

/-- An answer of `drainMicrotasks` that counts and bounds exactly: it is the number of jobs that
completed, in queue order, until the queue was empty, the budget was used up or a job raised. -/
def ExactDrain (run : Behaviour J σ) (maxJobs : Int) (c : JobContext J σ)
    (answer : Nat × JobContext J σ) : Prop :=
  answer.1 ≤ maxJobs.toNat ∧ ∃ c₁, completeJobs run answer.1 c = some c₁ ∧
    ((answer.1 = maxJobs.toNat ∨ c₁.queue = []) ∧ answer.2 = c₁ ∨
      answer.1 < maxJobs.toNat ∧ (executePendingJob run c₁).1 = -1 ∧
        answer.2 = (executePendingJob run c₁).2)

/-- How many jobs a call may execute when `remaining` jobs are left to the budget. -/
def callBudget (remaining : Int) : Nat :=
  max 1 (toInt32 remaining).toNat

/-- Whether a call starts after `k` completed jobs, while the queue lasts. -/
def startsCall (remaining : Int) (k : Nat) : Bool :=
  if k = 0 then true
  else if callBudget remaining ≤ k then
    startsCall (remaining - callBudget remaining) (k - callBudget remaining)
  else false
termination_by k
decreasing_by
  have : 1 ≤ callBudget remaining := Nat.le_max_left _ _
  omega

end Spec

section Proofs

variable {J σ : Type} {run : Behaviour J σ} {c c₁ c₂ : JobContext J σ} {k k' : Nat}

/-! ## Single jobs -/

/-- The three answers of the engine. -/
theorem executePendingJob_cases (run : Behaviour J σ) (c : JobContext J σ) :
    (c.queue = [] ∧ executePendingJob run c = (0, c)) ∨
      (c.queue ≠ [] ∧ (executePendingJob run c).1 = 1) ∨
      (c.queue ≠ [] ∧ (executePendingJob run c).1 = -1) := by
  cases hqueue : c.queue with
  | nil => exact Or.inl ⟨rfl, by rw [executePendingJob, hqueue]⟩
  | cons job rest =>
    right
    cases hraised : (run job c.heap).raised with
    | false => exact Or.inl ⟨by simp, by simp [executePendingJob, hqueue, hraised]⟩
    | true => exact Or.inr ⟨by simp, by simp [executePendingJob, hqueue, hraised]⟩

theorem completeJobs_one (h : (executePendingJob run c).1 = 1) :
    completeJobs run 1 c = some (executePendingJob run c).2 := by
  simp [completeJobs, h]

theorem completeJobs_add (k k' : Nat) (c : JobContext J σ) :
    completeJobs run (k + k') c = (completeJobs run k c).bind (completeJobs run k') := by
  induction k generalizing c with
  | zero => simp [completeJobs]
  | succ k ih =>
    rw [Nat.succ_add, completeJobs, completeJobs]
    by_cases hrc : (executePendingJob run c).1 = 1
    · simp only [hrc, if_true]
      exact ih _
    · simp [hrc]

theorem completeJobs_trans (h : completeJobs run k c = some c₁)
    (h' : completeJobs run k' c₁ = some c₂) : completeJobs run (k + k') c = some c₂ := by
  rw [completeJobs_add, h]
  exact h'

theorem queue_ne_nil_of_executePendingJob {rc : Int} (h : (executePendingJob run c).1 = rc)
    (hrc : rc ≠ 0) : c.queue ≠ [] := by
  intro hempty
  rw [executePendingJob, hempty] at h
  exact hrc h.symm

/-- On an empty queue no job completes. -/
theorem completeJobs_of_queue_nil (hempty : c.queue = []) (h : completeJobs run k c = some c₁) :
    k = 0 ∧ c₁ = c := by
  cases k with
  | zero =>
    cases h
    exact ⟨rfl, rfl⟩
  | succ k => simp [completeJobs, executePendingJob, hempty] at h

/-- Where fewer jobs have completed, the next one completes too. -/
theorem completeJobs_of_lt (h : completeJobs run k c = some c₁) (hlt : k' < k)
    (h' : completeJobs run k' c = some c₂) : (executePendingJob run c₂).1 = 1 := by
  obtain ⟨d, rfl⟩ := Nat.exists_eq_add_of_lt hlt
  rw [Nat.add_assoc, completeJobs_add, h', Option.bind_some, completeJobs] at h
  by_contra hrc
  simp [hrc] at h

/-- The number of jobs before the one that raises is determined. -/
theorem eq_of_raises (h : completeJobs run k c = some c₁)
    (hraises : (executePendingJob run c₁).1 = -1) (h' : completeJobs run k' c = some c₂)
    (hraises' : (executePendingJob run c₂).1 = -1) : k = k' := by
  rcases Nat.lt_trichotomy k k' with hlt | heq | hlt
  · have := completeJobs_of_lt h' hlt h
    omega
  · exact heq
  · have := completeJobs_of_lt h hlt h'
    omega

/-! ## One call -/

/-- A call executes as many jobs as its budget allows, or stops before at the end of the queue
or at a job that raises. -/
theorem executePendingJobsCapped_spec (run : Behaviour J σ) (maxJobs : Int) (executed : Nat)
    (c : JobContext J σ) :
    ∃ k c₁, completeJobs run k c = some c₁ ∧ k ≤ max 1 (maxJobs - executed).toNat ∧
      ((k = max 1 (maxJobs - executed).toNat ∨ c₁.queue = []) ∧
          executePendingJobsCapped run maxJobs executed c = (((executed + k : Nat) : Int), c₁) ∨
        k < max 1 (maxJobs - executed).toNat ∧ (executePendingJob run c₁).1 = -1 ∧
          executePendingJobsCapped run maxJobs executed c =
            (-1, (executePendingJob run c₁).2)) := by
  induction hm : (maxJobs - executed).toNat using Nat.strong_induction_on
    generalizing executed c with
  | _ m ih =>
    rw [executePendingJobsCapped]
    rcases executePendingJob_cases run c with ⟨hqueue, hjob⟩ | ⟨-, hrc⟩ | ⟨-, hrc⟩
    · exact ⟨0, c, rfl, by omega, Or.inl ⟨Or.inr hqueue, by rw [hjob]; rfl⟩⟩
    · have hone := completeJobs_one hrc
      simp only [hrc]
      by_cases hcap : ((executed + 1 : Nat) : Int) ≥ maxJobs
      · refine ⟨1, _, hone, by omega, Or.inl ⟨Or.inl (by omega), ?_⟩⟩
        rw [if_neg (by decide), if_neg (by decide), if_pos hcap]
      · obtain ⟨k, c₁, hk, hle, hend⟩ := ih (maxJobs - (executed + 1 : Nat)).toNat (by omega)
          (executed + 1) (executePendingJob run c).2 rfl
        refine ⟨1 + k, c₁, completeJobs_trans hone hk, by omega, ?_⟩
        rw [if_neg (by decide), if_neg (by decide), if_neg hcap, Nat.add_comm 1 k]
        rcases hend with ⟨hstop, hcall⟩ | ⟨hlt, hraises, hcall⟩
        · refine Or.inl ⟨hstop.imp_left (by omega), ?_⟩
          rw [hcall, Nat.add_right_comm, Nat.add_assoc]
        · exact Or.inr ⟨by omega, hraises, hcall⟩
    · exact ⟨0, c, rfl, by omega, Or.inr ⟨by omega, hrc, by simp [hrc]⟩⟩

/-! ## The whole drain -/

theorem callBudget_pos (remaining : Int) : 1 ≤ callBudget remaining :=
  Nat.le_max_left _ _

/-- A call is never given more than what is left. -/
theorem callBudget_le {remaining : Int} (h : 0 < remaining) :
    (callBudget remaining : Int) ≤ remaining := by
  unfold callBudget toInt32
  rw [Int.bmod_def]
  split <;> omega

theorem startsCall_zero (remaining : Int) : startsCall remaining 0 = true := by
  rw [startsCall, if_pos rfl]

theorem startsCall_inside {remaining : Int} (hk : k ≠ 0) (hlt : k < callBudget remaining) :
    startsCall remaining k = false := by
  rw [startsCall, if_neg hk, if_neg (by omega)]

theorem startsCall_add (remaining : Int) (k : Nat) :
    startsCall remaining (callBudget remaining + k) =
      startsCall (remaining - callBudget remaining) k := by
  have hpos := callBudget_pos remaining
  rw [startsCall, if_neg (by omega), if_pos (by omega), Nat.add_sub_cancel_left]

/-- Within the budget of a call, only the first job starts one. -/
theorem startsCall_iff {remaining : Int} (hlt : k < callBudget remaining) :
    startsCall remaining k = true ↔ k = 0 := by
  constructor
  · intro hstarts
    by_contra hne
    rw [startsCall_inside hne hlt] at hstarts
    cases hstarts
  · rintro rfl
    exact startsCall_zero _

/-- One round of the loop: its call finds no job, completes some and is followed by the next
round, or ends the loop at a job that raises. -/
theorem drainMicrotasksLoop_round (run : Behaviour J σ) {maxJobs : Int} {executed : Nat}
    (hleft : (executed : Int) < maxJobs) (c : JobContext J σ) :
    ∃ k c₁, completeJobs run k c = some c₁ ∧ k ≤ callBudget (maxJobs - executed) ∧
      (k = 0 ∧ c₁.queue = [] ∧ drainMicrotasksLoop run maxJobs executed c = (executed, c₁) ∨
        k ≠ 0 ∧ (k = callBudget (maxJobs - executed) ∨ c₁.queue = []) ∧
          drainMicrotasksLoop run maxJobs executed c =
            drainMicrotasksLoop run maxJobs (executed + k) c₁ ∨
        k < callBudget (maxJobs - executed) ∧ (executePendingJob run c₁).1 = -1 ∧
          drainMicrotasksLoop run maxJobs executed c =
            (executed, (executePendingJob run c₁).2)) := by
  obtain ⟨k, c₁, hk, hle, hend⟩ :=
    executePendingJobsCapped_spec run (toInt32 (maxJobs - executed)) 0 c
  simp only [Int.natCast_zero, Int.sub_zero, Nat.zero_add] at hle hend
  have hbudget : max 1 (toInt32 (maxJobs - executed)).toNat = callBudget (maxJobs - executed) :=
    rfl
  have hpos := callBudget_pos (maxJobs - executed)
  rw [hbudget] at hle hend
  refine ⟨k, c₁, hk, hle, ?_⟩
  rw [drainMicrotasksLoop, if_pos hleft]
  rcases hend with ⟨hstop, hcall⟩ | ⟨hlt, hraises, hcall⟩
  · rw [hcall]
    by_cases hzero : k = 0
    · subst hzero
      exact .inl ⟨rfl, hstop.resolve_left (by omega), by simp⟩
    · refine .inr (.inl ⟨hzero, hstop, ?_⟩)
      simp only [Int.toNat_natCast]
      rw [if_neg (by omega)]
  · rw [hcall]
    exact .inr (.inr ⟨hlt, hraises, by simp⟩)

/-- What the loop answers, and how the count falls short when a job raises. -/
theorem drainMicrotasksLoop_spec (run : Behaviour J σ) (maxJobs : Int) (executed : Nat)
    (c : JobContext J σ) :
    ∃ k c₁, completeJobs run k c = some c₁ ∧ k ≤ (maxJobs - executed).toNat ∧
      ((k = (maxJobs - executed).toNat ∨ c₁.queue = []) ∧
          drainMicrotasksLoop run maxJobs executed c = (executed + k, c₁) ∨
        k < (maxJobs - executed).toNat ∧ (executePendingJob run c₁).1 = -1 ∧
          ∃ counted ≤ k, drainMicrotasksLoop run maxJobs executed c =
              (executed + counted, (executePendingJob run c₁).2) ∧
            (counted = k ↔ startsCall (maxJobs - executed) k = true)) := by
  induction hm : (maxJobs - executed).toNat using Nat.strong_induction_on
    generalizing executed c with
  | _ m ih =>
    by_cases hleft : (executed : Int) < maxJobs
    case neg =>
      rw [drainMicrotasksLoop, if_neg hleft]
      exact ⟨0, c, rfl, by omega, Or.inl ⟨Or.inl (by omega), rfl⟩⟩
    have hfits : (callBudget (maxJobs - executed) : Int) ≤ maxJobs - executed :=
      callBudget_le (by omega)
    obtain ⟨k, c₁, hk, hle, ⟨rfl, hempty, hloop⟩ | ⟨hne, hstop, hround⟩ |
      ⟨hlt, hraises, hloop⟩⟩ := drainMicrotasksLoop_round run hleft c
    · exact ⟨0, c₁, hk, by omega, Or.inl ⟨Or.inr hempty, hloop⟩⟩
    · obtain ⟨k', c₂, hk', hle', hend⟩ := ih (maxJobs - (executed + k : Nat)).toNat
        (by omega) (executed + k) c₁ rfl
      rw [hround]
      refine ⟨k + k', c₂, completeJobs_trans hk hk', by omega, ?_⟩
      rcases hend with ⟨hstop', hloop⟩ | ⟨hlt', hraises, counted, hcounted, hloop, hiff⟩
      · exact Or.inl ⟨hstop'.imp_left (by omega), by rw [hloop, Nat.add_assoc]⟩
      · -- a job has raised in a later call, so this one was stopped by its budget
        have hfull : k = callBudget (maxJobs - executed) := by
          refine hstop.resolve_right fun hempty => ?_
          obtain ⟨-, rfl⟩ := completeJobs_of_queue_nil hempty hk'
          exact queue_ne_nil_of_executePendingJob hraises (by decide) hempty
        have hrest : maxJobs - ((executed + k : Nat) : Int) =
            maxJobs - executed - callBudget (maxJobs - executed) := by omega
        refine Or.inr ⟨by omega, hraises, k + counted, by omega, by rw [hloop, Nat.add_assoc], ?_⟩
        rw [hrest] at hiff
        rw [Nat.add_left_cancel_iff, hiff, hfull, startsCall_add]
    · refine ⟨k, c₁, hk, by omega, Or.inr ⟨by omega, hraises, 0, Nat.zero_le k, hloop, ?_⟩⟩
      exact eq_comm.trans (startsCall_iff hlt).symm

/-- `drainMicrotasks` counts and bounds exactly unless a job within the budget raises that is
not the first one of its call. -/
theorem drainMicrotasks_exact_iff (run : Behaviour J σ) (maxJobs : Int) (c : JobContext J σ) :
    ExactDrain run maxJobs c (drainMicrotasks run maxJobs c) ↔
      ∀ k < maxJobs.toNat, RaisesAfter run k c → startsCall maxJobs k = true := by
  by_cases hmax : maxJobs ≤ 0
  · have hzero : maxJobs.toNat = 0 := by omega
    rw [drainMicrotasks, if_pos hmax, ExactDrain, hzero]
    simp [completeJobs]
  rw [drainMicrotasks, if_neg hmax]
  obtain ⟨k, c₁, hk, hle, hend⟩ := drainMicrotasksLoop_spec run maxJobs 0 c
  simp only [Int.natCast_zero, Int.sub_zero, Nat.zero_add] at hle hend
  rcases hend with ⟨hstop, hloop⟩ | ⟨hlt, hraises, counted, hcounted, hloop, hiff⟩
  · rw [hloop]
    refine iff_of_true ⟨hle, c₁, hk, Or.inl ⟨hstop, rfl⟩⟩ ?_
    rintro k' hk' ⟨c₂, hc₂, hraises⟩
    -- every job within the budget has completed, or the queue is empty before one raises
    exfalso
    rcases Nat.lt_or_ge k' k with hlt | hge
    · have := completeJobs_of_lt hk hlt hc₂
      omega
    · rcases hstop with hall | hempty
      · omega
      · obtain ⟨d, rfl⟩ := Nat.exists_eq_add_of_le hge
        rw [completeJobs_add, hk, Option.bind_some] at hc₂
        obtain ⟨-, rfl⟩ := completeJobs_of_queue_nil hempty hc₂
        exact queue_ne_nil_of_executePendingJob hraises (by decide) hempty
  · rw [hloop]
    constructor
    · rintro ⟨-, c₂, hc₂, hend⟩ k' hk' ⟨c₃, hc₃, hraises₃⟩
      have hsame := eq_of_raises hk hraises hc₃ hraises₃
      subst hsame
      apply hiff.mp
      by_contra hne
      -- fewer jobs were counted than completed, so neither end of an exact drain is reached
      have hnext := completeJobs_of_lt hk (by omega : counted < k) hc₂
      rcases hend with ⟨hfull | hempty, -⟩ | ⟨-, hraises₂, -⟩
      · simp only at hfull
        omega
      · exact queue_ne_nil_of_executePendingJob hnext (by decide) hempty
      · omega
    · intro hall
      have hcount : counted = k := hiff.mpr (hall k hlt ⟨c₁, hk, hraises⟩)
      subst hcount
      exact ⟨hle, c₁, hk, Or.inr ⟨hlt, hraises, rfl⟩⟩

end Proofs

/-! ## A job that raises -/

/-- Jobs that do nothing, except that some of them raise. -/
def raising : Behaviour Bool Unit :=
  fun raises _ => ⟨raises, [], ()⟩

/-- Of two jobs the second one raises, and the drain answers that none completed. -/
theorem raise_loses_count :
    drainMicrotasks raising 100 ⟨[false, true], (), []⟩ = (0, ⟨[], (), [false, true]⟩) ∧
      ¬ExactDrain raising 100 ⟨[false, true], (), []⟩
        (drainMicrotasks raising 100 ⟨[false, true], (), []⟩) := by
  have hanswer : drainMicrotasks raising 100 ⟨[false, true], (), []⟩ =
      (0, ⟨[], (), [false, true]⟩) := by
    have hbudget : toInt32 100 = 100 := by decide
    simp [drainMicrotasks, drainMicrotasksLoop, executePendingJobsCapped, executePendingJob,
      raising, hbudget]
  refine ⟨hanswer, ?_⟩
  rw [hanswer]
  rintro ⟨-, c₁, hc₁, hend⟩
  cases hc₁
  simp [executePendingJob, raising] at hend

/-! ## The jobs of the timer model -/

section TimerJobs

open Timers (Env World Op Ending invoke started)

variable {τ Cb : Type} [LinearOrder τ] [Add τ] [Zero τ] {env : Env τ Cb}

/-- Jobs put in front of the queue. -/
def withJobs (jobs : List Cb) (w : World τ Cb) : World τ Cb :=
  { w with jobs := jobs ++ w.jobs }

/-- A promise reaction of the timer model as a job. -/
def reaction (env : Env τ Cb) : Behaviour Cb (World τ Cb) := fun job w =>
  let (ending, w) := invoke env { w with jobs := [] } .reaction job
  { raised := ending ≠ .returns, queued := w.jobs, heap := { w with jobs := [] } }

/-- Calls on the scheduler only add to the queue. -/
theorem applyOp_withJobs (jobs : List Cb) (w : World τ Cb) (op : Op τ Cb) :
    Timers.applyOp env (withJobs jobs w) op = withJobs jobs (Timers.applyOp env w op) := by
  cases op with
  | clear handle => cases handle <;> rfl
  | refresh id =>
    simp only [Timers.applyOp, Timers.refresh]
    by_cases hany : w.pendingTimers.any (·.1 = id)
    · rw [if_pos hany]
      exact if_pos hany
    · rw [if_neg hany]
      exact if_neg hany
  | queueJob job => simp [Timers.applyOp, withJobs]
  | _ => rfl

theorem foldl_applyOp_withJobs (env : Env τ Cb) (jobs : List Cb) (ops : List (Op τ Cb))
    (w : World τ Cb) :
    ops.foldl (Timers.applyOp env) (withJobs jobs w) =
      withJobs jobs (ops.foldl (Timers.applyOp env) w) := by
  induction ops generalizing w with
  | nil => rfl
  | cons op ops ih => rw [List.foldl_cons, applyOp_withJobs, ih, List.foldl_cons]

theorem invoke_withJobs (jobs : List Cb) (w : World τ Cb) (source : Timers.Source) (fn : Cb) :
    invoke env (withJobs jobs w) source fn =
      ((invoke env w source fn).1, withJobs jobs (invoke env w source fn).2) := by
  have hops := foldl_applyOp_withJobs env jobs (env.behave w.calls fn).ops
    (started w source fn)
  exact congrArg (Prod.mk (env.behave w.calls fn).ending) hops

/-- A world as a context. -/
def contextOf (ran : List Cb) (w : World τ Cb) : JobContext Cb (World τ Cb) :=
  ⟨w.jobs, { w with jobs := [] }, ran⟩

/-- One job in the two models. -/
theorem executePendingJob_contextOf (env : Env τ Cb) (w : World τ Cb) (ran : List Cb) {job : Cb}
    {rest : List Cb} (hjobs : w.jobs = job :: rest) :
    ∃ ending w', invoke env { w with jobs := rest } .reaction job = (ending, w') ∧
      executePendingJob (reaction env) (contextOf ran w) =
        (if ending = .returns then 1 else -1, contextOf (ran ++ [job]) w') := by
  have hsplit : ({ w with jobs := rest } : World τ Cb) = withJobs rest { w with jobs := [] } := by
    simp [withJobs]
  refine ⟨_, _, by rw [hsplit, invoke_withJobs], ?_⟩
  simp only [executePendingJob, contextOf, hjobs, reaction]
  generalize invoke env { w with jobs := [] } .reaction job = answer
  obtain ⟨ending, w'⟩ := answer
  cases ending <;> simp [withJobs]

/-- One call in the two models. -/
theorem executePendingJobsCapped_contextOf (env : Env τ Cb) (budget : Nat) (maxJobs : Int)
    (executed : Nat)
    (hbudget : max 1 (maxJobs - executed).toNat = budget) (w : World τ Cb) (ran : List Cb) :
    ∃ ran', executePendingJobsCapped (reaction env) maxJobs executed (contextOf ran w) =
      ((Timers.executePendingJobs env budget executed w).1,
        contextOf ran' (Timers.executePendingJobs env budget executed w).2) := by
  induction budget generalizing executed w ran with
  | zero => omega
  | succ budget ih =>
    rw [executePendingJobsCapped, Timers.executePendingJobs]
    cases hjobs : w.jobs with
    | nil => exact ⟨ran, by simp [executePendingJob, contextOf, hjobs]⟩
    | cons job rest =>
      obtain ⟨ending, w', hinvoke, hjob⟩ := executePendingJob_contextOf env w ran hjobs
      rw [hjob]
      simp only [hinvoke]
      cases ending with
      | throws text => exact ⟨ran ++ [job], by simp⟩
      | returns =>
        rw [if_pos rfl, if_neg (by decide), if_neg (by decide)]
        by_cases hcap : ((executed + 1 : Nat) : Int) ≥ maxJobs
        · obtain rfl : budget = 0 := by omega
          exact ⟨_, by rw [if_pos hcap]; rfl⟩
        · rw [if_neg hcap]
          exact ih (executed + 1) (by omega) w' _

theorem toInt32_sub {maxJobs executed : Nat} (hmax : maxJobs < 2 ^ 31) (hle : executed ≤ maxJobs) :
    toInt32 ((maxJobs : Int) - executed) = ((maxJobs - executed : Nat) : Int) := by
  unfold toInt32
  rw [Int.bmod_def]
  split <;> omega

/-- The loop in the two models, of which the other one counts its rounds. -/
theorem drainMicrotasksLoop_contextOf (env : Env τ Cb) {maxJobs : Nat} (hmax : maxJobs < 2 ^ 31)
    (rounds executed : Nat) (w : World τ Cb) (ran : List Cb)
    (hrounds : maxJobs - executed ≤ rounds) :
    ∃ ran', drainMicrotasksLoop (reaction env) maxJobs executed (contextOf ran w) =
      ((Timers.drainMicrotasksLoop env maxJobs rounds executed w).1,
        contextOf ran' (Timers.drainMicrotasksLoop env maxJobs rounds executed w).2) := by
  induction rounds generalizing executed w ran with
  | zero =>
    rw [drainMicrotasksLoop, if_neg (by omega)]
    exact ⟨ran, rfl⟩
  | succ rounds ih =>
    rw [drainMicrotasksLoop, Timers.drainMicrotasksLoop]
    by_cases hleft : executed < maxJobs
    · obtain ⟨ran', hcall⟩ := executePendingJobsCapped_contextOf env
        (max 1 (maxJobs - executed)) (maxJobs - executed : Nat) 0 (by simp) w ran
      rw [if_pos (by omega), if_pos hleft, toInt32_sub hmax (Nat.le_of_lt hleft), hcall,
        Timers.executePendingJobsCapped]
      generalize Timers.executePendingJobs env (max 1 (maxJobs - executed)) 0 w = answer
      simp only
      by_cases hrc : answer.1 ≤ 0
      · rw [if_pos hrc, if_pos hrc]
        exact ⟨ran', rfl⟩
      · rw [if_neg hrc, if_neg hrc]
        exact ih _ _ _ (by omega)
    · rw [if_neg (by omega), if_neg hleft]
      exact ⟨ran, rfl⟩

/-- For a budget of 31 bits the drain of the timer model is the one modelled here. -/
theorem drainMicrotasks_contextOf {maxJobs : Nat} (hmax : maxJobs < 2 ^ 31) (w : World τ Cb)
    (ran : List Cb) :
    ∃ ran', drainMicrotasks (reaction env) maxJobs (contextOf ran w) =
      ((Timers.drainMicrotasks env maxJobs w).1,
        contextOf ran' (Timers.drainMicrotasks env maxJobs w).2) := by
  rw [drainMicrotasks, Timers.drainMicrotasks]
  by_cases hzero : maxJobs = 0
  · subst hzero
    exact ⟨ran, rfl⟩
  · rw [if_neg (by omega)]
    exact drainMicrotasksLoop_contextOf env hmax maxJobs 0 w ran (by omega)

end TimerJobs

end Bridge
