import QuickjsRuntime.Bridge.Eval
import QuickjsRuntime.Bridge.PendingJobs

/-!
# When an evaluation drains the job queue

`QuickjsRuntime.eval` with `autoDrainMicrotasks` runs the promise jobs after a script unless it
takes the script to have failed, and that it reads from the caller's `errMsg` list. Two runs over
the same scripts that differ in which calls are given such a list are compared here by the jobs
that each evaluation runs.
-/

namespace Bridge

open Utf16 (Text units)

/-! ## Model -/

section Model

variable {J H V C : Type}

/-- A script on a runtime: its outcome, the jobs it queues, and the heap it leaves. -/
abbrev HeapScript (V J H : Type) := H → Except V V × List J × H

/-- A context, and how often its queue was drained. -/
structure Session (J H : Type) where
  context : JobContext J H
  drains : Nat

def HeapScript.script (s : HeapScript V J H) : Script (Session J H) V := fun st =>
  let (outcome, queued, heap) := s st.context.heap
  (outcome, { st with
    context := { st.context with queue := st.context.queue ++ queued, heap := heap } })

/-- The call of `drainMicrotasks()` in `eval`, with the default of `maxJobs`. -/
def autoDrain (run : Behaviour J H) (st : Session J H) : Session J H where
  context := (drainMicrotasks run 100000 st.context).2
  drains := st.drains + 1

/-- What is recorded of an evaluation: whether the script threw, whether the queue was drained,
and the jobs that ran. -/
structure EvalRecord (J : Type) where
  threw : Bool
  drained : Bool
  jobs : List J
  deriving DecidableEq, Repr

/-- A call of `QuickjsRuntime.eval` on a runtime with `autoDrainMicrotasks`. -/
def evalScript (e : Engine V C) (run : Behaviour J H) (s : HeapScript V J H)
    (errMsg : Option (List (Option Text))) (c : JobContext J H) :
    EvalRecord J × JobContext J H :=
  let st := (runtimeEval e (autoDrain run) s.script errMsg ⟨{ c with ran := [] }, 0⟩).2
  ({ threw := !(s c.heap).1.isOk, drained := st.drains ≠ 0, jobs := st.context.ran }, st.context)

/-- A sequence of calls. -/
def evalAll (e : Engine V C) (run : Behaviour J H) :
    List (HeapScript V J H × Option (List (Option Text))) → JobContext J H → List (EvalRecord J)
  | [], _ => []
  | (s, errMsg) :: calls, c =>
    let (record, c) := evalScript e run s errMsg c
    record :: evalAll e run calls c

/-! ## What asking for the error should not change -/

/-- Runs over the scripts that differ in which calls are given an `errMsg` list run the same
jobs in the same evaluations, and a script that throws does not start the drain. -/
def ErrMsgInert (e : Engine V C) (run : Behaviour J H) (scripts : List (HeapScript V J H))
    (c : JobContext J H) : Prop :=
  ∀ calls calls' : List (HeapScript V J H × Option (List (Option Text))),
    calls.map Prod.fst = scripts → calls'.map Prod.fst = scripts →
      (evalAll e run calls c).map EvalRecord.jobs = (evalAll e run calls' c).map EvalRecord.jobs ∧
        ∀ record ∈ evalAll e run calls c, record.threw = true → record.drained = false

/-- The text of what the script throws is not one that Dart can read; or the script does not
throw, and its result has a JSON text or it leaves no job. -/
def Settled (e : Engine V C) (s : HeapScript V J H) (c : JobContext J H) : Prop :=
  match s c.heap with
  | (.error err, _, _) => ∃ text, e.toCString err = some text ∧ e.toDartString text = none
  | (.ok value, queued, _) => ¬e.Fails (.ok value) ∨ c.queue ++ queued = []

/-- Every script of the run is settled where it is evaluated. -/
def AllSettled (e : Engine V C) (run : Behaviour J H) :
    List (HeapScript V J H) → JobContext J H → Prop
  | [], _ => True
  | s :: scripts, c => Settled e s c ∧ AllSettled e run scripts (evalScript e run s none c).2

end Model

section Proofs

variable {σ J H V C : Type} {e : Engine V C} {run : Behaviour J H} {c : JobContext J H}

/-! ## One evaluation -/

/-- Whether an evaluation drains the queue, from the outcome of the script and from whether the
error is asked for. -/
def Engine.drains (e : Engine V C) (asked : Bool) : Except V V → Bool
  | .error err =>
    match e.toCString err with
    | none => true
    | some text => (e.toDartString text).isSome && !asked
  | .ok value =>
    match (e.jsonStringify value).bind e.toCString with
    | none => !asked
    | some text => (e.toDartString text).isSome

theorem failed_fillErrMsg (errMsg : Option (List (Option Text))) (error : Option Text) :
    failed (fillErrMsg errMsg error) = (errMsg.isSome && error.isSome) := by
  cases errMsg <;> cases error <;> rfl

/-- The state after an evaluation. -/
theorem runtimeEval_state (drain : σ → σ) (script : Script σ V)
    (errMsg : Option (List (Option Text))) (st : σ) :
    (runtimeEval e drain script errMsg st).2 =
      if e.drains errMsg.isSome (script st).1 then drain (script st).2 else (script st).2 := by
  rcases hrun : script st with ⟨err | value, st'⟩
  · cases htext : e.toCString err with
    | none =>
      simp [runtimeEval, ffiEval, qjsEval, hrun, htext, decodePtr, Engine.drains, failed_fillErrMsg]
    | some text =>
      cases hdart : e.toDartString text <;> cases errMsg <;>
        simp [runtimeEval, ffiEval, qjsEval, hrun, htext, hdart, decodePtr, Engine.drains,
          failed_fillErrMsg]
  · cases hjson : e.jsonStringify value with
    | none =>
      cases errMsg <;>
        simp [runtimeEval, ffiEval, qjsEval, hrun, hjson, decodePtr, Engine.drains,
          failed_fillErrMsg, e.toDartString_cString]
    | some json =>
      cases htext : e.toCString json with
      | none =>
        cases errMsg <;>
          simp [runtimeEval, ffiEval, qjsEval, hrun, hjson, htext, decodePtr, Engine.drains,
            failed_fillErrMsg, e.toDartString_cString]
      | some text =>
        cases hdart : e.toDartString text <;>
          simp [runtimeEval, ffiEval, qjsEval, hrun, hjson, htext, hdart, decodePtr,
            Engine.drains, failed_fillErrMsg]

/-- The context a script leaves, before anything is drained. -/
def afterScript (s : HeapScript V J H) (c : JobContext J H) : JobContext J H where
  queue := c.queue ++ (s c.heap).2.1
  heap := (s c.heap).2.2
  ran := []

theorem evalScript_eq (s : HeapScript V J H) (errMsg : Option (List (Option Text)))
    (c : JobContext J H) :
    evalScript e run s errMsg c =
      if e.drains errMsg.isSome (s c.heap).1 then
        ({ threw := !(s c.heap).1.isOk, drained := true,
           jobs := (drainMicrotasks run 100000 (afterScript s c)).2.ran },
          (drainMicrotasks run 100000 (afterScript s c)).2)
      else
        ({ threw := !(s c.heap).1.isOk, drained := false, jobs := [] }, afterScript s c) := by
  have hscript : s.script ⟨{ c with ran := [] }, 0⟩ = ((s c.heap).1, ⟨afterScript s c, 0⟩) := rfl
  rw [evalScript, runtimeEval_state, hscript]
  split
  next => simp [autoDrain]
  next => simp [afterScript]

/-! ## Drains without jobs -/

theorem ran_executePendingJob (run : Behaviour J H) (hqueue : c.queue ≠ []) :
    (executePendingJob run c).2.ran.length = c.ran.length + 1 := by
  obtain ⟨job, rest, hcons⟩ := List.exists_cons_of_ne_nil hqueue
  simp [executePendingJob, hcons]

theorem ran_completeJobs {k : Nat} {c c₁ : JobContext J H} (h : completeJobs run k c = some c₁) :
    c₁.ran.length = c.ran.length + k := by
  induction k generalizing c with
  | zero =>
    cases h
    rfl
  | succ k ih =>
    simp only [completeJobs, Option.ite_none_right_eq_some] at h
    obtain ⟨hrc, h⟩ := h
    rw [ih h, ran_executePendingJob run (queue_ne_nil_of_executePendingJob hrc (by decide))]
    omega

/-- A drain runs no job only when there is none. -/
theorem drain_idle_iff (run : Behaviour J H) {maxJobs : Int} (hmax : 0 < maxJobs)
    (hran : c.ran = []) :
    (drainMicrotasks run maxJobs c).2.ran = [] ↔ c.queue = [] := by
  obtain ⟨k, c₁, hk, -, hend⟩ := drainMicrotasksLoop_spec run maxJobs 0 c
  have hlength := ran_completeJobs hk
  rw [hran] at hlength
  rw [drainMicrotasks, if_neg (by omega)]
  rcases hend with ⟨hstop, hloop⟩ | ⟨-, hraises, counted, -, hloop, -⟩
  · rw [hloop, ← List.length_eq_zero_iff, hlength]
    constructor
    · intro hzero
      obtain rfl : k = 0 := by simpa using hzero
      cases hk
      refine hstop.resolve_left ?_
      simp only [Int.natCast_zero, Int.sub_zero]
      omega
    · intro hempty
      rw [(completeJobs_of_queue_nil hempty hk).1]
      rfl
  · have hqueue : c₁.queue ≠ [] := queue_ne_nil_of_executePendingJob hraises (by decide)
    rw [hloop, ← List.length_eq_zero_iff, ran_executePendingJob run hqueue]
    constructor
    · intro hzero
      omega
    · intro hempty
      rw [(completeJobs_of_queue_nil hempty hk).2] at hqueue
      exact absurd hempty hqueue

theorem drainMicrotasks_nil (run : Behaviour J H) (maxJobs : Int)
    (hqueue : c.queue = []) : drainMicrotasks run maxJobs c = (0, c) := by
  have hjob : executePendingJob run c = (0, c) := by rw [executePendingJob, hqueue]
  rw [drainMicrotasks]
  split
  · rfl
  · rw [drainMicrotasksLoop, executePendingJobsCapped, hjob]
    simp

/-! ## The comparison -/

theorem drains_of_throws {err : V} (htext : ∃ text, e.toCString err = some text ∧
    e.toDartString text = none) (asked : Bool) : e.drains asked (.error err) = false := by
  obtain ⟨text, htext, hdart⟩ := htext
  simp [Engine.drains, htext, hdart]

theorem drains_of_not_fails {value : V} (hfails : ¬e.Fails (.ok value)) (asked : Bool) :
    e.drains asked (.ok value) = e.drains false (.ok value) := by
  rw [Engine.Fails] at hfails
  obtain ⟨text, htext⟩ := Option.ne_none_iff_exists'.mp hfails
  simp [Engine.drains, htext]

theorem drains_of_fails {value : V} (hfails : e.Fails (.ok value)) (asked : Bool) :
    e.drains asked (.ok value) = !asked := by
  rw [Engine.Fails] at hfails
  simp [Engine.drains, hfails]

/-- After a settled script the error list makes no difference, and a throw drains nothing. -/
theorem evalScript_of_settled (run : Behaviour J H) {s : HeapScript V J H}
    (h : Settled e s c) (errMsg errMsg' : Option (List (Option Text))) :
    (evalScript e run s errMsg c).2 = (evalScript e run s errMsg' c).2 ∧
      (evalScript e run s errMsg c).1.jobs = (evalScript e run s errMsg' c).1.jobs ∧
      ((evalScript e run s errMsg c).1.threw = true →
        (evalScript e run s errMsg c).1.drained = false) := by
  rw [evalScript_eq, evalScript_eq]
  rcases hrun : s c.heap with ⟨err | value, queued, heap⟩
  · rw [Settled, hrun] at h
    simp [drains_of_throws h]
  · rw [Settled, hrun] at h
    by_cases hfails : e.Fails (.ok value)
    · -- the queue is empty, so a drain leaves everything as it is
      have hempty : (afterScript s c).queue = [] := by
        simpa [afterScript, hrun] using h.resolve_left (not_not.mpr hfails)
      have hran : (afterScript s c).ran = [] := rfl
      rw [drainMicrotasks_nil run _ hempty, drains_of_fails hfails, drains_of_fails hfails]
      cases errMsg <;> cases errMsg' <;> simp [hran, Except.isOk, Except.toBool]
    · rw [drains_of_not_fails hfails, drains_of_not_fails hfails errMsg'.isSome]
      cases e.drains false (.ok value) <;> simp [Except.isOk, Except.toBool]

/-- A script that is not settled drains after a throw, or runs its jobs in one of two calls. -/
theorem settled_of_evalScript {s : HeapScript V J H}
    (hjobs : (evalScript e run s none c).1.jobs = (evalScript e run s (some []) c).1.jobs)
    (hthrow : (evalScript e run s none c).1.threw = true →
      (evalScript e run s none c).1.drained = false) : Settled e s c := by
  rw [evalScript_eq] at hthrow
  rw [evalScript_eq, evalScript_eq] at hjobs
  rcases hrun : s c.heap with ⟨err | value, queued, heap⟩
  · rw [hrun] at hthrow
    rw [Settled, hrun]
    cases htext : e.toCString err with
    | none => simp [Engine.drains, htext, Except.isOk, Except.toBool] at hthrow
    | some text =>
      refine ⟨text, htext, ?_⟩
      cases hdart : e.toDartString text with
      | none => rfl
      | some _ => simp [Engine.drains, htext, hdart, Except.isOk, Except.toBool] at hthrow
  · rw [Settled, hrun]
    by_cases hfails : e.Fails (.ok value)
    · right
      rw [hrun, drains_of_fails hfails, drains_of_fails hfails] at hjobs
      have hidle := (drain_idle_iff run (by decide) rfl).mp hjobs
      simpa [afterScript, hrun] using hidle
    · exact Or.inl hfails

theorem evalAll_cons (s : HeapScript V J H) (errMsg : Option (List (Option Text)))
    (calls : List (HeapScript V J H × Option (List (Option Text)))) (c : JobContext J H) :
    evalAll e run ((s, errMsg) :: calls) c =
      (evalScript e run s errMsg c).1 :: evalAll e run calls (evalScript e run s errMsg c).2 :=
  rfl

/-- Inertness of a run says that its first script is settled, since that script is evaluated with
and without a list. -/
theorem ErrMsgInert.settled {s : HeapScript V J H} {scripts : List (HeapScript V J H)}
    (h : ErrMsgInert e run (s :: scripts) c) : Settled e s c := by
  have hcalls (errMsg : Option (List (Option Text))) :
      ((s, errMsg) :: scripts.map fun s => (s, none)).map Prod.fst = s :: scripts := by
    rw [List.map_cons, List.map_map]
    exact congrArg (s :: ·) (List.map_id scripts)
  obtain ⟨hjobs, hthrow⟩ := h _ _ (hcalls none) (hcalls (some []))
  exact settled_of_evalScript (List.cons.inj hjobs).1 (hthrow _ List.mem_cons_self)

theorem ErrMsgInert.tail {s : HeapScript V J H} {scripts : List (HeapScript V J H)}
    (h : ErrMsgInert e run (s :: scripts) c) :
    ErrMsgInert e run scripts (evalScript e run s none c).2 := by
  intro calls calls' hmap hmap'
  obtain ⟨hjobs, hthrow⟩ := h ((s, none) :: calls) ((s, none) :: calls')
    (congrArg (s :: ·) hmap) (congrArg (s :: ·) hmap')
  exact ⟨(List.cons.inj hjobs).2,
    fun record hrecord => hthrow record (List.mem_cons_of_mem _ hrecord)⟩

theorem ErrMsgInert.cons {s : HeapScript V J H} {scripts : List (HeapScript V J H)}
    (hsettled : Settled e s c) (hrest : ErrMsgInert e run scripts (evalScript e run s none c).2) :
    ErrMsgInert e run (s :: scripts) c := by
  intro calls calls' hmap hmap'
  obtain ⟨⟨s₁, errMsg⟩, calls, rfl, hfirst, htail⟩ := List.map_eq_cons_iff.mp hmap
  obtain ⟨⟨s₂, errMsg'⟩, calls', rfl, hfirst', htail'⟩ := List.map_eq_cons_iff.mp hmap'
  obtain rfl : s₁ = s := hfirst
  obtain rfl : s₂ = s₁ := hfirst'
  obtain ⟨hjobs, hthrow⟩ := hrest calls calls' htail htail'
  have hhead := evalScript_of_settled run hsettled errMsg errMsg'
  have hnone := evalScript_of_settled run hsettled errMsg none
  rw [evalAll_cons, evalAll_cons, ← hhead.1, hnone.1]
  constructor
  · rw [List.map_cons, List.map_cons, hhead.2.1, hjobs]
  · intro record hrecord
    rcases List.mem_cons.mp hrecord with rfl | hrecord
    · exact hhead.2.2
    · exact hthrow record hrecord

/-- Asking for the error text changes nothing exactly when every script of the run is
settled. -/
theorem errMsgInert_iff (e : Engine V C) (run : Behaviour J H) (scripts : List (HeapScript V J H))
    (c : JobContext J H) : ErrMsgInert e run scripts c ↔ AllSettled e run scripts c := by
  induction scripts generalizing c with
  | nil =>
    refine iff_of_true ?_ trivial
    intro calls calls' hcalls hcalls'
    rw [List.map_eq_nil_iff.mp hcalls, List.map_eq_nil_iff.mp hcalls']
    simp [evalAll]
  | cons s scripts ih =>
    rw [AllSettled, ← ih]
    constructor
    · intro hinert
      exact ⟨hinert.settled, hinert.tail⟩
    · rintro ⟨hsettled, hrest⟩
      exact .cons hsettled hrest

end Proofs

/-! ## Scripts that throw -/

/-- Jobs that do nothing. -/
def idleJobs : Behaviour Nat Unit :=
  fun _ _ => ⟨false, [], ()⟩

/-- `Promise.resolve().then(job); throw value` -/
def queueAndThrow (value : Primitive) : HeapScript Primitive Nat Unit :=
  fun _ => (.error value, [0], ())

theorem drain_one_idle_job :
    drainMicrotasks idleJobs 100000 ⟨[0], (), []⟩ = (1, ⟨[], (), [0]⟩) := by
  have hfirst : toInt32 100000 = 100000 := by decide
  have hnext : toInt32 99999 = 99999 := by decide
  simp [drainMicrotasks, drainMicrotasksLoop, executePendingJobsCapped, executePendingJob,
    idleJobs, hfirst, hnext]

/-- A script that throws a string runs its job unless the error is asked for; one that throws a
symbol runs it in any case. -/
theorem thrown_script_drained :
    evalAll primitiveEngine idleJobs [(queueAndThrow (.string (units "x")), none)] ⟨[], (), []⟩ =
        [⟨true, true, [0]⟩] ∧
      evalAll primitiveEngine idleJobs [(queueAndThrow (.string (units "x")), some [])]
        ⟨[], (), []⟩ = [⟨true, false, []⟩] ∧
      evalAll primitiveEngine idleJobs [(queueAndThrow .symbol, some [])] ⟨[], (), []⟩ =
        [⟨true, true, [0]⟩] ∧
      ¬ErrMsgInert primitiveEngine idleJobs [queueAndThrow (.string (units "x"))] ⟨[], (), []⟩ := by
  have hafter (value : Primitive) : afterScript (queueAndThrow value) ⟨[], (), []⟩ =
      ⟨[0], (), []⟩ := rfl
  have hunasked : evalAll primitiveEngine idleJobs [(queueAndThrow (.string (units "x")), none)]
      ⟨[], (), []⟩ = [⟨true, true, [0]⟩] := by
    rw [evalAll_cons, evalScript_eq, hafter, drain_one_idle_job]
    rfl
  have hasked : evalAll primitiveEngine idleJobs [(queueAndThrow (.string (units "x")), some [])]
      ⟨[], (), []⟩ = [⟨true, false, []⟩] := by
    rw [evalAll_cons, evalScript_eq]
    rfl
  refine ⟨hunasked, hasked, ?_, ?_⟩
  · rw [evalAll_cons, evalScript_eq, hafter, drain_one_idle_job]
    rfl
  · intro hinert
    have hjobs := (hinert [(queueAndThrow (.string (units "x")), none)]
      [(queueAndThrow (.string (units "x")), some [])] rfl rfl).1
    rw [hunasked, hasked] at hjobs
    cases hjobs

end Bridge
