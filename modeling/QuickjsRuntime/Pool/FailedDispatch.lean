import QuickjsRuntime.Pool.Routing

/-! # A `dispatch` that throws

`dispatch` claims a worker and registers the job before it evaluates and encodes
the context. When the context fails, the job stays registered and the worker
stays busy with nothing to answer. When the context can be encoded, `dispatch`
only throws for want of a live worker, and then it has changed nothing.
-/

namespace Pool

open Utf16 (units)

variable {Ctx : Type} {cfg : Config Ctx} {p p' : Pool} {i j : Nat}

/-- Worker `i` is busy although no request that is still to be answered was sent to it. -/
def BusyForNothing (p : Pool) (i : Nat) : Prop :=
  p.workers[i]?.map Worker.state = some .busy ∧ ∀ j, ¬ Outstanding p.history i j

/-- No job was added and no further worker is busy for nothing. -/
structure Restored (p p' : Pool) : Prop where
  jobs : p'.jobs = p.jobs
  busy : ∀ i, p'.BusyForNothing i → p.BusyForNothing i

/-- The last thing recorded is that `dispatch` threw. -/
def DispatchFailed (p : Pool) : Prop := ∃ error, p.history.head? = some (.dispatchThrew error)

/-- A step of a worker isolate. -/
def Label.Local : Label Ctx → Prop
  | .ready _ => True
  | .receive _ => True
  | .answer _ _ _ _ => True
  | .exit _ => True
  | _ => False

/-- One whole call of `dispatch`, from its start to its end, with what the worker
isolates do while the main thread is inside it. -/
def DispatchRun (cfg : Config Ctx) (p : Pool) (call : DispatchCall Ctx) (p' : Pool) : Prop :=
  ∃ (called : Pool) (labels : List (Label Ctx)) (parked : Pool),
    p.step cfg (.dispatch call) = some called ∧ (∀ label ∈ labels, label.Local) ∧
    Transition.run (step cfg) called labels = some parked ∧ parked.step cfg .resume = some p'

/-! ## What the worker isolates leave alone -/

/-- Two pools that differ by steps of worker isolates. -/
structure SameMain (p p' : Pool) : Prop where
  main : p'.main = p.main
  jobs : p'.jobs = p.jobs
  states : ∀ k : Nat, p'.workers[k]?.map Worker.state = p.workers[k]?.map Worker.state
  outstanding : ∀ i j, Outstanding p'.history i j ↔ Outstanding p.history i j

theorem SameMain.refl (p : Pool) : p.SameMain p :=
  ⟨rfl, rfl, fun _ => rfl, fun _ _ => Iff.rfl⟩

theorem SameMain.trans {p₁ p₂ p₃ : Pool} (h : p₁.SameMain p₂) (h' : p₂.SameMain p₃) :
    p₁.SameMain p₃ :=
  ⟨h'.main.trans h.main, h'.jobs.trans h.jobs, fun k => (h'.states k).trans (h.states k),
    fun i j => (h'.outstanding i j).trans (h.outstanding i j)⟩

theorem SameMain.modify {f : Worker → Worker} (events : List Event) (hmain : p'.main = p.main)
    (hjobs : p'.jobs = p.jobs) (hworkers : p'.workers = p.workers.modify i f)
    (hf : ∀ w, (f w).state = w.state) (hhistory : p'.history = events ++ p.history)
    (hsent : ∀ i j, Event.sent i j ∉ events)
    (htook : ∀ i e, Event.took i (.envelope e) ∉ events) : p.SameMain p' := by
  refine ⟨hmain, hjobs, ?_, ?_⟩
  · intro k
    by_cases hk : i = k
    · subst hk
      cases hw : p.workers[i]? <;> simp [hworkers, hw, hf]
    · simp [hworkers, hk]
  · intro i j
    simp [Outstanding, hhistory, hsent, htook]

theorem SameMain.move {label : Label Ctx} (hlocal : label.Local) (hmove : Move cfg p label p') :
    p.SameMain p' := by
  cases hmove with
  | ready => exact .modify [.put _ .ready] rfl rfl rfl (fun _ => rfl) rfl (by simp) (by simp)
  | receive => exact .modify [] rfl rfl rfl (fun _ => rfl) rfl (by simp) (by simp)
  | answer =>
    exact .modify [.put _ (.envelope _)] rfl rfl rfl (fun _ => rfl) rfl (by simp) (by simp)
  | exit => exact .modify [] rfl rfl rfl (fun _ => rfl) rfl (by simp) (by simp)
  | _ => exact absurd hlocal id

theorem SameMain.run {labels : List (Label Ctx)} (hinv : p.Inv)
    (hlocal : ∀ label ∈ labels, label.Local)
    (hrun : Transition.run (step cfg) p labels = some p') : p'.Inv ∧ p.SameMain p' := by
  have hallowed : Transition.RunAllowed (step cfg) (fun _ l => l.Local) p labels :=
    .of_forall fun label hlabel _ => hlocal label hlabel
  refine Transition.run_invariant (fun q => q.Inv ∧ p.SameMain q) ?_ hallowed hrun ⟨hinv, .refl p⟩
  rintro q label q' ⟨hq, hsame⟩ hlabel hstep
  have hmove := move_of_step hq hstep
  exact ⟨hq.move hmove, hsame.trans (.move hlabel hmove)⟩

theorem SameMain.allDead_iff (h : p.SameMain p') : p'.AllDead ↔ p.AllDead := by
  have hstated : ∀ q : Pool, q.AllDead ↔
      ∀ (k : Nat) state, q.workers[k]?.map Worker.state = some state → state = .dead := by
    intro q
    constructor
    · intro hdead k state hk
      obtain ⟨w, hw, rfl⟩ := Option.map_eq_some_iff.mp hk
      exact hdead k w hw
    · intro hdead k w hw
      exact hdead k w.state (by simp [hw])
  simp only [hstated, h.states]

theorem SameMain.restored (h : p.SameMain p') : p.Restored p' where
  jobs := h.jobs
  busy i := by simp [BusyForNothing, h.states, h.outstanding]

/-! ## The call -/

theorem Move.booted {label : Label Ctx} (hmove : Move cfg p label p') : p'.booted = p.booted := by
  cases hmove with
  | @send fnSource argsJson context i claimed hmain hacquired =>
    have hclaimed : claimed.booted = p.booted := by cases hacquired <;> rfl
    rw [← hclaimed]
    cases context <;> rfl
  | _ => rfl

theorem booted_of_reachable {n : Nat} {allowed : Pool → Label Ctx → Prop}
    (hreach : Transition.Reachable (step cfg) allowed (afterBoot n) p) :
    p.Inv ∧ p.booted = true := by
  refine hreach.invariant (fun q => q.Inv ∧ q.booted = true) ⟨inv_afterBoot n, rfl⟩ ?_
  rintro q label q' ⟨hinv, hbooted⟩ _ hstep
  have hmove := move_of_step hinv hstep
  exact ⟨hinv.move hmove, hmove.booted.trans hbooted⟩

/-- What a whole call of `dispatch` on a booted pool amounts to: either every worker
is dead and nothing changes, or a worker is claimed. -/
theorem dispatchRun_cases (hinv : p.Inv) (hbooted : p.booted = true) {call : DispatchCall Ctx}
    (hrun : DispatchRun cfg p call p') :
    (p.AllDead ∧ p'.DispatchFailed ∧ p.Restored p') ∨
      ∃ (q : Pool) (i : Nat) (w : Worker), ¬ p.AllDead ∧ q.Inv ∧ q.workers[i]? = some w ∧
        q.jobs = p.jobs ∧
        p' = (q.claim i).finishDispatch i call.fnSource call.argsJson
          (call.encodedContext cfg) := by
  obtain ⟨called, labels, parked, hcall, hlocal, hlabels, hresume⟩ := hrun
  have hmove := move_of_step hinv hcall
  have hcalled := hinv.move hmove
  cases hmove with
  | refuse _ _ hnot => simp [hbooted] at hnot
  | call _ hidle _ =>
    obtain ⟨hparked, hsame⟩ := SameMain.run hcalled hlocal hlabels
    cases move_of_step hparked hresume with
    | @giveUp fnSource argsJson context error hmain hdead =>
      refine .inl ⟨hsame.allDead_iff.mp hdead, ⟨error, rfl⟩, hsame.jobs, ?_⟩
      intro k hk
      have hbusy := hsame.restored.busy k
      simp only [BusyForNothing, Outstanding, log, List.mem_cons, reduceCtorEq, false_or]
        at hk hbusy ⊢
      exact hbusy hk
    | @send fnSource argsJson context i claimed hmain hacquired =>
      have hlive : ¬ p.AllDead := fun hdead =>
        hacquired.not_allDead (hsame.allDead_iff.mpr hdead)
      have hjobs : claimed.jobs = p.jobs := by
        rw [← hsame.jobs]
        cases hacquired <;> rfl
      have hcontext := hmain.symm.trans hsame.main
      simp only [MainThread.acquiring.injEq] at hcontext
      obtain ⟨rfl, rfl, rfl⟩ := hcontext
      obtain ⟨q, w, hq, hw, -, rfl⟩ := hparked.acquired (by simp [hmain]) hacquired
      exact .inr ⟨q, i, w, hlive, hq, hw, hjobs, rfl⟩
    | collect hmain =>
      have hacquiring := hmain.symm.trans hsame.main
      cases hacquiring

/-- A call of `dispatch` that throws leaves the pool as it was exactly when its
context can be encoded or no worker is alive when it is called. -/
theorem restored_iff_encodable (hinv : p.Inv) (hbooted : p.booted = true)
    {call : DispatchCall Ctx} (hrun : DispatchRun cfg p call p') :
    (p'.DispatchFailed → p.Restored p') ↔ ((call.encodedContext cfg).isSome ∨ p.AllDead) := by
  rcases dispatchRun_cases hinv hbooted hrun with
    ⟨hdead, -, hrestored⟩ | ⟨q, i, w, hlive, hq, hw, hjobs, rfl⟩
  · exact ⟨fun _ => .inr hdead, fun _ _ => hrestored⟩
  · cases hcontext : call.encodedContext cfg with
    | some json =>
      -- the call returned: its last event is `dispatched`
      refine ⟨fun _ => .inl rfl, fun _ hfailed => ?_⟩
      obtain ⟨error, herror⟩ := hfailed
      simp [finishDispatch] at herror
    | none =>
      simp only [Option.isSome_none, Bool.false_eq_true, hlive, or_self, iff_false]
      intro hrestored
      have hsame := (hrestored ⟨.contextFailed, rfl⟩).jobs
      have hfresh := hq.fresh.1
      rw [hjobs, ← hsame] at hfresh
      simp [hw] at hfresh

/-! ## Runs whose contexts can be encoded -/

theorem owed_of_encodable {n : Nat}
    (hreach : Transition.Reachable (step cfg) (fun q l => l.Encodable cfg q) (afterBoot n) p) :
    p.Inv ∧ p.Sendable ∧ p.Owed := by
  refine hreach.invariant (fun q => q.Inv ∧ q.Sendable ∧ q.Owed) ?_ ?_
  · have hboot := settled_afterBoot n
    exact ⟨hboot.inv, hboot.sendable, hboot.owed⟩
  · rintro q label q' ⟨hinv, hsendable, howed⟩ hencodable hstep
    have hmove := move_of_step hinv hstep
    exact ⟨hinv.move hmove, hsendable.move hencodable hmove, howed.move hinv hsendable hmove⟩

/-- A failed `dispatch` restores the pool exactly when its context can be encoded or
no worker is alive. In a run whose dispatches all meet this, neither `wait` nor a
saturated `dispatch` blocks on a worker that owes no answer. -/
theorem failed_dispatch_restores_iff :
    (∀ (n : Nat) (allowed : Pool → Label Ctx → Prop) (p p' : Pool) (call : DispatchCall Ctx),
      Transition.Reachable (step cfg) allowed (afterBoot n) p → DispatchRun cfg p call p' →
      ((p'.DispatchFailed → p.Restored p') ↔ ((call.encodedContext cfg).isSome ∨ p.AllDead))) ∧
    ∀ (n : Nat) (p : Pool) (i : Nat),
      Transition.Reachable (step cfg) (fun q l => l.Encodable cfg q) (afterBoot n) p →
      p.TakesFrom i → ∃ j, Outstanding p.history i j := by
  refine ⟨?_, ?_⟩
  · intro n allowed p p' call hreach hrun
    obtain ⟨hinv, hbooted⟩ := booted_of_reachable hreach
    exact restored_iff_encodable hinv hbooted hrun
  · intro n p i hreach htakes
    obtain ⟨hinv, -, howed⟩ := owed_of_encodable hreach
    obtain ⟨j, honly⟩ := hinv.owes_of_takesFrom htakes
    exact ⟨j, howed.outstanding ((honly j).mpr rfl)⟩

/-- The only worker is dead: a `dispatch` with a context that has no JSON form throws
and leaves the pool as it was. -/
theorem failed_dispatch_restores_dead_pool :
    ∃ p p', Transition.run (step (textConfig 1)) (afterBoot 1) [.exit 0, .exitNotice 0] = some p ∧
      DispatchRun (textConfig 1) p (textCall (some none)) p' ∧ p'.DispatchFailed ∧
      p.Restored p' := by
  obtain ⟨p, hrun, hdead⟩ : ∃ p, Transition.run (step (textConfig 1)) (afterBoot 1)
      [.exit 0, .exitNotice 0] = some p ∧ p.workers.map Worker.state = [.dead] :=
    ⟨_, rfl, rfl⟩
  have halldead : p.AllDead := by
    intro k w hw
    have hmem : w.state ∈ p.workers.map Worker.state :=
      List.mem_map_of_mem (List.mem_of_getElem? hw)
    simpa [hdead] using hmem
  obtain ⟨p', hcall, hfailed⟩ : ∃ p', DispatchRun (textConfig 1) p (textCall (some none)) p' ∧
      p'.DispatchFailed := by
    cases hrun
    exact ⟨_, ⟨_, [], _, rfl, by simp, rfl, rfl⟩, _, rfl⟩
  refine ⟨p, p', hrun, hcall, hfailed, ?_⟩
  have hiff := failed_dispatch_restores_iff.1 1 _ p p' _ (Transition.reachable_of_run hrun) hcall
  exact hiff.mpr (.inr halldead) hfailed

/-- The worker is ready and a `dispatch` with a context that has no JSON form throws:
the job is registered, the worker stays busy with nothing to answer, and a later
`dispatch` blocks on it for good. -/
theorem failed_dispatch_blocks_pool :
    ∃ p p' blocked, Transition.run (step (textConfig 1)) (afterBoot 1) [.ready 0] = some p ∧
      DispatchRun (textConfig 1) p (textCall (some none)) p' ∧ p'.DispatchFailed ∧
      (p.jobs 0 = none ∧ p'.jobs 0 = some ⟨0⟩) ∧
      (¬ p.BusyForNothing 0 ∧ p'.BusyForNothing 0) ∧
      p'.step (textConfig 1) (.dispatch (textCall none)) = some blocked ∧
      blocked.TakesFrom 0 ∧ (∀ j, ¬ Outstanding blocked.history 0 j) ∧
      ∀ label, (∀ k, label ≠ .exit k) → blocked.step (textConfig 1) label = none := by
  obtain ⟨p, p', blocked, hrun, hcall, hfailed, hjobs, hidle, hbusy, hhistory', hnext, hhistory,
      hworkers, hmain⟩ :
      ∃ p p' blocked : Pool,
        Transition.run (step (textConfig 1)) (afterBoot 1) [.ready 0] = some p ∧
        DispatchRun (textConfig 1) p (textCall (some none)) p' ∧ p'.DispatchFailed ∧
        (p.jobs 0 = none ∧ p'.jobs 0 = some ⟨0⟩) ∧
        p.workers[0]?.map Worker.state = some .booting ∧
        p'.workers[0]?.map Worker.state = some .busy ∧
        p'.history = [.dispatchThrew .contextFailed, .took 0 .ready, .put 0 .ready] ∧
        p'.step (textConfig 1) (.dispatch (textCall none)) = some blocked ∧
        blocked.history = p'.history ∧
        blocked.workers = [{ id := 0, state := .busy, isolate := .listening }] ∧
        blocked.main =
          .acquiring (textCall none).fnSource (textCall none).argsJson (some (units "\x7b\x7d")) :=
    ⟨_, _, _, rfl, ⟨_, [], _, rfl, by simp, rfl, rfl⟩, ⟨_, rfl⟩, ⟨rfl, rfl⟩, rfl, rfl, rfl, rfl,
      rfl, rfl, rfl⟩
  have hnothing : ∀ j, ¬ Outstanding p'.history 0 j := by
    rintro j ⟨hsent, -⟩
    simp [hhistory'] at hsent
  refine ⟨p, p', blocked, hrun, hcall, hfailed, hjobs, ⟨?_, hbusy, hnothing⟩, hnext, ?_, ?_, ?_⟩
  · rintro ⟨hstate, -⟩
    simp [hidle] at hstate
  · refine .inr ⟨⟨_, _, _, hmain⟩, ?_, by simp [hworkers]⟩
    intro k w hw
    rw [hworkers] at hw
    have hmem := List.mem_of_getElem? hw
    simp only [List.mem_singleton] at hmem
    exact .inl (by rw [hmem])
  · rw [hhistory]
    exact hnothing
  · -- the worker waits for a request that was never sent, the main thread for its answer
    intro label hlabel
    cases label with
    | dispatch => simp [step, hmain]
    | wait => simp [step, hmain]
    | resume =>
      simp [step, resume, hmain, acquireWorker, acquireLoop, settleWorker, acquireSaturated,
        takeEnvelope, take, hworkers]
    | ready k => cases k <;> simp [step, isolateReady, hworkers]
    | receive k => cases k <;> simp [step, isolateReceive, hworkers]
    | answer k => cases k <;> simp [step, isolateAnswer, hworkers]
    | exit k => exact absurd rfl (hlabel k)
    | exitNotice k => simp [step, deliverExit, hmain]

end Pool
