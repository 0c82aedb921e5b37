import QuickjsRuntime.Pool.Record

/-! # Every envelope reaches its own `wait`

In a run without worker exits and with contexts that can be encoded, no put finds
the mailbox full, a worker never has more than one job whose envelope is still to
be taken, and a `wait` returns the one envelope that the worker put for its job.
-/

namespace Pool

open Utf16 (Text units)

variable {Ctx : Type} {cfg : Config Ctx} {p p' : Pool} {i j : Nat}

/-- The main thread takes an envelope from worker `i` next: inside `wait`, or at
the saturated end of `_acquireWorker`. -/
def TakesFrom (p : Pool) (i : Nat) : Prop :=
  (∃ jobId, p.main = .waiting jobId i) ∨
    ((∃ fnSource argsJson context, p.main = .acquiring fnSource argsJson context) ∧
      p.Saturated ∧ p.workers.findIdx? (·.state = .busy) = some i)

/-- What claiming a worker adds to the record. -/
theorem Acquired.history {claimed : Pool} (hacquired : p.Acquired i claimed) :
    claimed.history = p.history ∨ claimed.history = .took i .ready :: p.history ∨
      ∃ e, claimed.history = .took i (.envelope e) :: p.history ∧ p.Saturated ∧
        p.workers.findIdx? (·.state = .busy) = some i := by
  cases hacquired with
  | idle => exact .inl rfl
  | settled => exact .inr (.inl rfl)
  | @drained w e _ _ _ hsat hfirst => exact .inr (.inr ⟨e, rfl, hsat, hfirst⟩)

theorem finishDispatch_history (fnSource argsJson : Text) (context : Option Text)
    {event : Event} (hmem : event ∈ (p.finishDispatch i fnSource argsJson context).history) :
    event = .dispatchThrew .contextFailed ∨ event = .dispatched p.nextJobId ∨
      event = .sent i p.nextJobId ∨ event ∈ p.history := by
  cases context with
  | none =>
    rcases List.mem_cons.mp hmem with rfl | hmem
    · exact .inl rfl
    · exact .inr (.inr (.inr hmem))
  | some json =>
    rcases List.mem_cons.mp hmem with rfl | hmem
    · exact .inr (.inl rfl)
    · rcases List.mem_cons.mp hmem with rfl | hmem
      · exact .inr (.inr (.inl rfl))
      · exact .inr (.inr (.inr hmem))

/-- Every take of an envelope is one that `TakesFrom` announces. -/
theorem takesFrom_of_took {label : Label Ctx} {e : AsyncJobEnvelope} (hinv : p.Inv)
    (hstep : p.step cfg label = some p') (hnew : .took i (.envelope e) ∈ p'.history)
    (hold : .took i (.envelope e) ∉ p.history) : p.TakesFrom i := by
  cases move_of_step hinv hstep with
  | @send fnSource argsJson context k claimed hmain hacquired =>
    have hclaimed : .took i (.envelope e) ∈ claimed.history := by
      simpa using finishDispatch_history _ _ _ hnew
    rcases hacquired.history with heq | heq | ⟨e', heq, hsat, hfirst⟩
    · exact absurd (heq ▸ hclaimed) hold
    · simp [heq, hold] at hclaimed
    · simp only [heq, List.mem_cons, Event.took.injEq, hold, or_false] at hclaimed
      obtain ⟨rfl, -⟩ := hclaimed
      exact .inr ⟨⟨_, _, _, hmain⟩, hsat, hfirst⟩
  | collect hmain =>
    simp only [Pool.taken, Pool.forget, Pool.log, Pool.setState, Pool.modifyWorker,
      List.mem_cons, reduceCtorEq, Event.took.injEq, hold, or_false, false_or] at hnew
    obtain ⟨rfl, -⟩ := hnew
    exact .inl ⟨_, hmain⟩
  | call => exact absurd hnew hold
  | park => exact absurd hnew hold
  | receive => exact absurd hnew hold
  | exit => exact absurd hnew hold
  | exitNotice => exact absurd hnew hold
  | refuse | serve | reject | giveUp | ready | answer => simp [hold] at hnew

/-- No put was rejected, and `wait` never met the envelope of another job. -/
structure Clean (p : Pool) : Prop where
  put_accepted : ∀ i message, .putRejected i message ∉ p.history
  no_other_job : ∀ waited jobId, .cachedOther waited jobId ∉ p.history

theorem Clean.frame (h : p.Clean) (events : List Event)
    (hhistory : p'.history = events ++ p.history)
    (hput : ∀ i message, Event.putRejected i message ∉ events)
    (hother : ∀ waited jobId, Event.cachedOther waited jobId ∉ events) : p'.Clean := by
  constructor
  · intro i message
    simp [hhistory, hput, h.put_accepted]
  · intro waited jobId
    simp [hhistory, hother, h.no_other_job]

theorem Clean.move {label : Label Ctx} (h : p.Clean) (hmove : Move cfg p label p') :
    p'.Clean := by
  cases hmove with
  | refuse => exact h.frame [_] rfl (by simp) (by simp)
  | call => exact h.frame [] rfl (by simp) (by simp)
  | serve => exact h.frame [.returned _ _] rfl (by simp) (by simp)
  | reject => exact h.frame [.waitThrew _ _] rfl (by simp) (by simp)
  | park => exact h.frame [] rfl (by simp) (by simp)
  | giveUp => exact h.frame [.dispatchThrew _] rfl (by simp) (by simp)
  | @send fnSource argsJson context i claimed hmain hacquired =>
    have hclaimed : claimed.Clean := by
      rcases hacquired.history with heq | heq | ⟨e, heq, -⟩
      · exact h.frame [] heq (by simp) (by simp)
      · exact h.frame [.took i .ready] heq (by simp) (by simp)
      · exact h.frame [.took i (.envelope e)] heq (by simp) (by simp)
    constructor
    · intro k message hmem
      exact hclaimed.put_accepted k message (by simpa using finishDispatch_history _ _ _ hmem)
    · intro waited jobId hmem
      exact hclaimed.no_other_job waited jobId
        (by simpa using finishDispatch_history _ _ _ hmem)
  | collect => exact h.frame [.returned _ _, .took _ (.envelope _)] rfl (by simp) (by simp)
  | ready => exact h.frame [.put _ .ready] rfl (by simp) (by simp)
  | receive => exact h.frame [] rfl (by simp) (by simp)
  | answer => exact h.frame [.put _ (.envelope _)] rfl (by simp) (by simp)
  | exit => exact h.frame [] rfl (by simp) (by simp)
  | exitNotice => exact h.frame [] rfl (by simp) (by simp)

/-! ## Quiet runs -/

/-- Everything a quiet run keeps. -/
structure Settled (p : Pool) : Prop where
  inv : p.Inv
  answers : p.Answers
  sendable : p.Sendable
  owed : p.Owed
  accounted : p.Accounted
  returns : p.Returns
  clean : p.Clean

theorem settled_afterBoot (n : Nat) : (afterBoot n).Settled where
  inv := inv_afterBoot n
  answers := by
    refine ⟨by simp [afterBoot], ?_, by simp [afterBoot], by simp [afterBoot]⟩
    intro i w e hw hbox
    simp only [afterBoot, List.getElem?_map, Option.map_eq_some_iff] at hw
    obtain ⟨k, hk, rfl⟩ := hw
    cases hbox
  sendable := by simp [Sendable, afterBoot]
  owed := by refine ⟨?_, ?_, ?_⟩ <;> simp [Owes, afterBoot]
  accounted := by constructor <;> simp [Outstanding, afterBoot]
  returns := by refine ⟨?_, ?_, ?_, ?_⟩ <;> simp [afterBoot]
  clean := by constructor <;> simp [afterBoot]

theorem settled_of_quiet {n : Nat}
    (hreach : Transition.Reachable (step cfg) (fun _ l => l.Quiet cfg) (afterBoot n) p) :
    p.Settled := by
  refine hreach.invariant Settled (settled_afterBoot n) ?_
  intro q label q' h hquiet hstep
  have hmove := move_of_step h.inv hstep
  exact {
    inv := h.inv.move hmove
    answers := h.answers.move h.inv hmove
    sendable := h.sendable.move (hquiet.encodable q) hmove
    owed := h.owed.move h.inv h.sendable hmove
    accounted := h.accounted.move hquiet h.inv h.sendable hmove
    returns := h.returns.move hquiet h.inv h.answers h.owed hmove
    clean := h.clean.move hmove }

/-- The main thread takes from a worker only while that worker owes a job, and
then the worker owes only that one. -/
theorem Inv.owes_of_takesFrom (hinv : p.Inv) (htakes : p.TakesFrom i) :
    ∃ j, ∀ k, p.Owes i k ↔ k = j := by
  rcases htakes with ⟨j, hmain⟩ | ⟨-, -, hfirst⟩
  · have howes := hinv.waiting j i hmain
    have hlt := (hinv.job_lt _ _ howes.1).2
    obtain ⟨-, honly⟩ := hinv.busy_of_owes (List.getElem?_eq_getElem hlt) howes
    exact ⟨j, honly⟩
  · obtain ⟨w, hw, hbusy⟩ := firstBusy_spec hfirst
    obtain ⟨-, -, hstate⟩ := hinv.worker i w hw
    simp only [hbusy] at hstate
    obtain ⟨j, honly, -⟩ := hstate
    exact ⟨j, honly⟩

/-- Job envelopes are routed: what the record and the position of the main
thread say about puts, takes and returns. -/
structure Routed (p : Pool) : Prop where
  /-- No put found the slot full. -/
  put_accepted : ∀ i message, .putRejected i message ∉ p.history
  /-- A worker has at most one job whose envelope is still to be taken. -/
  outstanding_unique : ∀ i j k, Outstanding p.history i j → Outstanding p.history i k → j = k
  /-- An envelope is taken from a worker that has exactly one such job. -/
  takes_outstanding : ∀ i, p.TakesFrom i → ∃! j, Outstanding p.history i j
  /-- The loop of `wait` never met the envelope of another job. -/
  no_other_job : ∀ waited jobId, .cachedOther waited jobId ∉ p.history
  /-- A `wait` returned the only envelope ever put for its job. -/
  returned_own : ∀ j e, .returned j e ∈ p.history →
    e.jobId = j ∧ ∃ i, .sent i j ∈ p.history ∧ .put i (.envelope e) ∈ p.history ∧
      ∀ i' e', .put i' (.envelope e') ∈ p.history → e'.jobId = j → i' = i ∧ e' = e
  /-- No job is returned twice. -/
  returned_once : ∀ j, p.history.countP (Event.isReturnOf j) ≤ 1

theorem Settled.routed (h : p.Settled) : p.Routed where
  put_accepted := h.clean.put_accepted
  outstanding_unique i j k hj hk := by
    have howes := h.accounted.owes i j hj
    have hlt := (h.inv.job_lt _ _ howes.1).2
    obtain ⟨-, honly⟩ := h.inv.busy_of_owes (List.getElem?_eq_getElem hlt) howes
    exact ((honly k).mp (h.accounted.owes i k hk)).symm
  takes_outstanding i htakes := by
    obtain ⟨j, honly⟩ := h.inv.owes_of_takesFrom htakes
    refine ⟨j, h.owed.outstanding ((honly j).mpr rfl), ?_⟩
    intro k hk
    exact (honly k).mp (h.accounted.owes i k hk)
  no_other_job := h.clean.no_other_job
  returned_own j e hreturned := by
    obtain ⟨hid, i, hsent, hput⟩ := h.returns.returned_put j e hreturned
    refine ⟨hid, i, hsent, hput, ?_⟩
    intro i' e' hput' hid'
    exact h.answers.unique i' e' i e hput' hput (hid'.trans hid.symm)
  returned_once := h.returns.returned_once

/-- In every run of quiet steps, with any number of workers and in any interleaving,
envelopes are routed to their own `wait`, and an envelope is only ever taken where
`TakesFrom` says. -/
theorem routed_of_quiet {n : Nat}
    (hreach : Transition.Reachable (step cfg) (fun _ l => l.Quiet cfg) (afterBoot n) p) :
    p.Routed ∧ ∀ label p' i e, p.step cfg label = some p' → .took i (.envelope e) ∈ p'.history →
      .took i (.envelope e) ∈ p.history ∨ p.TakesFrom i := by
  have hsettled := settled_of_quiet hreach
  refine ⟨hsettled.routed, ?_⟩
  intro label p' i e hstep hnew
  by_cases hold : .took i (.envelope e) ∈ p.history
  · exact .inl hold
  · exact .inr (takesFrom_of_took hsettled.inv hstep hnew hold)

/-- Contexts that are JSON text already, `none` for one without a JSON form. -/
def textConfig (workers : Nat) : Config (Option Text) where
  workers := workers
  dispatchContext := false
  jsonEncode := id

def textCall (context : Option (Option Text)) : DispatchCall (Option Text) where
  fnSource := units "function (x) { return x * 2; }"
  argsJson := units "21"
  context := context
  provided := none

/-- One worker: the second dispatch finds it busy, takes the envelope of job 0
and caches it; the late `wait(0)` is served from the cache. -/
def lateWait : List (Label (Option Text)) :=
  [.dispatch (textCall none), .ready 0, .resume, .receive 0,
    .answer 0 true (some (units "42")) none, .dispatch (textCall none), .resume, .wait 0]

theorem lateWait_quiet (s : Pool) :
    Transition.RunAllowed (step (textConfig 1)) (fun _ l => l.Quiet (textConfig 1)) s
      lateWait := by
  apply Transition.RunAllowed.of_forall
  intro label hlabel _
  simp only [lateWait, List.mem_cons, List.not_mem_nil, or_false] at hlabel
  rcases hlabel with rfl | rfl | rfl | rfl | rfl | rfl | rfl | rfl <;> trivial

theorem lateWait_routed :
    ∃ p, Transition.run (step (textConfig 1)) (afterBoot 1) lateWait = some p ∧ p.Routed ∧
      .returned 0 { jobId := 0, ok := true, resultJson := some (units "42") } ∈ p.history := by
  obtain ⟨p, hrun, hreturned⟩ :
      ∃ p, Transition.run (step (textConfig 1)) (afterBoot 1) lateWait = some p ∧
        .returned 0 { jobId := 0, ok := true, resultJson := some (units "42") } ∈ p.history :=
    ⟨_, rfl, by decide⟩
  have hreach := Transition.Reachable.init.run (lateWait_quiet (afterBoot 1)) hrun
  exact ⟨p, hrun, (routed_of_quiet hreach).1, hreturned⟩

end Pool
