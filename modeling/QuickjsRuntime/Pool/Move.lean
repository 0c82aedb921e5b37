import QuickjsRuntime.Pool.Invariant

/-! # The moves of the pool

`Move` lists what a step can do from a state that meets the invariant, each with
the state it leads to. The branches that would need a mailbox with the wrong kind
of message, a put on a full slot or an envelope of another job are not among them:
`move_of_step` shows that the invariant excludes them.
-/

namespace Pool

open Utf16 (Text)

variable {Ctx : Type}

/-- `_onWorkerExit` for the worker at position `i`, whose id is `i`. -/
def buried (p : Pool) (i : Nat) : Pool :=
  { p.modifyWorker i ({ · with exitNotice := false, state := .dead }) with
    jobs := fun j => if p.jobs j = some ⟨i⟩ then none else p.jobs j
    completed := fun j =>
      if p.jobs j = some ⟨i⟩ then some (exitedEnvelope i j) else p.completed j }

inductive Move (cfg : Config Ctx) (p : Pool) : Label Ctx → Pool → Prop
  | refuse (call : DispatchCall Ctx) : p.main = .idle → p.booted = false →
      Move cfg p (.dispatch call) (p.log (.dispatchThrew .notBooted))
  | call (call : DispatchCall Ctx) : p.main = .idle → p.booted = true →
      Move cfg p (.dispatch call)
        { p with main := .acquiring call.fnSource call.argsJson (call.encodedContext cfg) }
  | serve {j : Nat} {e : AsyncJobEnvelope} : p.main = .idle → p.completed j = some e →
      Move cfg p (.wait j)
        (({ p with completed := Function.update p.completed j none }.forget j).log (.returned j e))
  | reject {j : Nat} {error : PoolError} : p.main = .idle → p.completed j = none →
      (∀ (i : Nat) (w : Worker), p.workers[i]? = some w → p.jobs j ≠ some ⟨i⟩) →
      Move cfg p (.wait j) (p.log (.waitThrew j error))
  | park {j i : Nat} {w : Worker} : p.main = .idle → p.Owes i j → p.workers[i]? = some w →
      Move cfg p (.wait j) { p with main := .waiting j i }
  | giveUp {fnSource argsJson : Text} {context : Option Text} {error : PoolError} :
      p.main = .acquiring fnSource argsJson context →
      p.AllDead →
      Move cfg p .resume ({ p with main := .idle }.log (.dispatchThrew error))
  | send {fnSource argsJson : Text} {context : Option Text} {i : Nat} {claimed : Pool} :
      p.main = .acquiring fnSource argsJson context → p.Acquired i claimed →
      Move cfg p .resume (claimed.finishDispatch i fnSource argsJson context)
  | collect {j i : Nat} {w : Worker} {e : AsyncJobEnvelope} : p.main = .waiting j i →
      p.workers[i]? = some w → w.state = .busy → w.doneBox = some (.envelope e) → e.jobId = j →
      Move cfg p .resume
        (({ p.taken i (.envelope e) with main := .idle }.forget j).log (.returned j e))
  | ready {i : Nat} {w : Worker} : p.workers[i]? = some w → w.isolate = .starting →
      w.state = .booting → w.doneBox = none →
      Move cfg p (.ready i)
        ((p.modifyWorker i ({ · with isolate := .listening, doneBox := some .ready })).log
          (.put i .ready))
  | receive {i : Nat} {w : Worker} {message : JobMessage} {rest : List Inbound} :
      p.workers[i]? = some w → w.isolate = .listening → w.inbox = .job message :: rest →
      Move cfg p (.receive i)
        (p.modifyWorker i ({ · with
          inbox := rest
          isolate := .running ⟨message.jobId, w.id, message.fnSource, message.argsJson,
            message.context⟩ }))
  | answer {i : Nat} {w : Worker} {request : AsyncJobRequest} (ok : Bool)
      (resultJson error : Option Text) :
      p.workers[i]? = some w → w.isolate = .running request → w.state = .busy →
      w.doneBox = none → p.Owes i request.jobId →
      Move cfg p (.answer i ok resultJson error)
        ((p.modifyWorker i ({ · with
          isolate := .listening
          doneBox := some (.envelope { jobId := request.jobId, ok, resultJson, error }) })).log
          (.put i (.envelope { jobId := request.jobId, ok, resultJson, error })))
  | exit {i : Nat} {w : Worker} : p.workers[i]? = some w → w.isolate ≠ .exited →
      Move cfg p (.exit i) (p.modifyWorker i ({ · with isolate := .exited, exitNotice := true }))
  | exitNotice {i : Nat} {w : Worker} : p.main = .idle → p.workers[i]? = some w →
      w.exitNotice = true → Move cfg p (.exitNotice i) (p.buried i)

section FinishDispatch

variable (p : Pool) (i : Nat) (fnSource argsJson : Text) (context : Option Text)

@[simp] theorem finishDispatch_completed :
    (p.finishDispatch i fnSource argsJson context).completed = p.completed := by
  cases context <;> rfl

@[simp] theorem finishDispatch_nextJobId :
    (p.finishDispatch i fnSource argsJson context).nextJobId = p.nextJobId + 1 := by
  cases context <;> rfl

@[simp] theorem finishDispatch_jobs :
    (p.finishDispatch i fnSource argsJson context).jobs =
      Function.update p.jobs p.nextJobId (p.workers[i]?.map fun w => ⟨w.id⟩) := by
  cases context <;> rfl

@[simp] theorem finishDispatch_main :
    (p.finishDispatch i fnSource argsJson context).main = .idle := by
  cases context <;> rfl

end FinishDispatch

theorem put_of_empty {p : Pool} {i : Nat} {w : Worker} (message : Message)
    (hw : p.workers[i]? = some w) (hbox : w.doneBox = none) :
    p.put i message =
      (p.modifyWorker i ({ · with doneBox := some message })).log (.put i message) := by
  simp [put, hw, hbox]

theorem onWorkerExit_eq_buried {p : Pool} {i : Nat} {w : Worker} (hinv : p.Inv)
    (hw : p.workers[i]? = some w) :
    (p.modifyWorker i ({ · with exitNotice := false })).onWorkerExit i = p.buried i := by
  have hfound : (p.modifyWorker i ({ · with exitNotice := false })).workerById i = some i := by
    refine workerById_of_ids (w := { w with exitNotice := false }) ?_ (by simp [hw])
    intro k v hv
    rcases getElem?_modify_cases hv with ⟨-, hv⟩ | ⟨rfl, v₀, hv₀, rfl⟩
    · exact hinv.ids k v hv
    · exact hinv.ids k v₀ hv₀
  have hport : (p.modifyWorker i ({ · with exitNotice := false })).exitPort = true :=
    hinv.exitPort
  rw [onWorkerExit, if_pos hport, hfound]
  simp only [buried, setState, modifyWorker, List.modify_modify_eq, Function.comp_def]
  rfl

/-- Every step from a state that meets the invariant is one of the moves. -/
theorem move_of_step {cfg : Config Ctx} {p p' : Pool} {label : Label Ctx} (hinv : p.Inv)
    (hstep : p.step cfg label = some p') : Move cfg p label p' := by
  cases label with
  | dispatch call =>
    simp only [step, Option.ite_none_right_eq_some, Option.some.injEq] at hstep
    obtain ⟨hidle, rfl⟩ := hstep
    unfold dispatch
    split
    next hbooted => exact .call call hidle hbooted
    next hbooted => exact .refuse call hidle (by simpa using hbooted)
  | wait j =>
    simp only [step, Option.ite_none_right_eq_some, Option.some.injEq] at hstep
    obtain ⟨hidle, rfl⟩ := hstep
    unfold wait
    split
    next e hcached => exact .serve hidle hcached
    next hcached =>
      split
      next hjob => exact .reject hidle hcached (by simp [hjob])
      next pending hjob =>
        rcases hinv.workerById_cases pending.workerId with ⟨hnone, habsent⟩ | ⟨w, hw, hfound⟩
        · rw [hnone]
          refine .reject hidle hcached ?_
          rintro i w hw hi
          obtain rfl := Option.some.inj (hjob.symm.trans hi)
          simp [habsent] at hw
        · rw [hfound]
          exact .park hidle ⟨hjob, hcached⟩ hw
  | resume =>
    simp only [step, resume] at hstep
    split at hstep
    next => cases hstep
    next fnSource argsJson context hmain =>
      have hspec := p.acquireWorker_spec
      cases hacquire : p.acquireWorker with
      | parked i => simp [hacquire] at hstep
      | threw error p₁ =>
        rw [hacquire] at hspec hstep
        cases hstep
        cases hspec with
        | noWorkers hempty => exact .giveUp hmain (by simp [AllDead, hempty])
        | noLiveWorkers hdead => exact .giveUp hmain hdead
        | unexpectedMessage hw hstate hbox =>
          obtain ⟨-, -, hok⟩ := hinv.worker _ _ hw
          simp [hstate, Worker.inFlight, hbox, Message.jobIds] at hok
        | malformedEnvelope hw hstate hbox =>
          obtain ⟨e, he, -⟩ := hinv.box_of_busy hw hstate hbox
          cases he
      | finished i p₁ =>
        rw [hacquire] at hspec hstep
        cases hstep
        exact .send hmain hspec
    next j i hmain =>
      have howes := hinv.waiting j i hmain
      unfold waitRound takeEnvelope at hstep
      cases htake : p.take i with
      | none => simp [htake] at hstep
      | some taken =>
        obtain ⟨message, p₁⟩ := taken
        obtain ⟨w, hw, hbox, rfl⟩ := take_eq_some htake
        obtain ⟨hbusy, honly⟩ := hinv.busy_of_owes hw howes
        obtain ⟨e, rfl, hother, -⟩ := hinv.box_of_busy hw hbusy hbox
        obtain hid := (honly e.jobId).mp hother
        simp only [htake, hid, ↓reduceIte, Option.some.injEq] at hstep
        subst hstep
        exact .collect hmain hw hbusy hbox hid
  | ready i =>
    simp only [step, isolateReady] at hstep
    split at hstep
    next hphase =>
      obtain ⟨w, hw, hstart⟩ := Option.map_eq_some_iff.mp hphase
      obtain ⟨hbooting, hbox⟩ := hinv.booting_of_starting hw hstart
      rw [put_of_empty (w := { w with isolate := .listening }) .ready (by simp [hw]) hbox]
        at hstep
      have hmove : Move cfg p (.ready i) _ := .ready hw hstart hbooting hbox
      cases hstep
      simpa [List.modify_modify_eq, Function.comp_def] using hmove
    next => cases hstep
  | receive i =>
    simp only [step, isolateReceive] at hstep
    split at hstep
    next => cases hstep
    next w hw =>
      split at hstep
      next message rest hphase hinbox =>
        cases hstep
        exact .receive hw hphase hinbox
      next rest hphase hinbox =>
        exact absurd (hinv.worker i w hw).1 (by simp [hinbox])
      next => cases hstep
  | answer i ok resultJson error =>
    simp only [step, isolateAnswer] at hstep
    split at hstep
    next request hphase =>
      obtain ⟨w, hw, hrunning⟩ := Option.map_eq_some_iff.mp hphase
      obtain ⟨hbusy, howes, hbox, -⟩ := hinv.busy_of_underway hw (j := request.jobId)
        (by simp [hrunning]) (by simp [hrunning, IsolatePhase.jobIds])
      rw [put_of_empty (w := { w with isolate := .listening }) _ (by simp [hw]) hbox]
        at hstep
      have hmove : Move cfg p (.answer i ok resultJson error) _ :=
        .answer ok resultJson error hw hrunning hbusy hbox howes
      cases hstep
      simpa [List.modify_modify_eq, Function.comp_def] using hmove
    next => cases hstep
  | exit i =>
    simp only [step, isolateExit] at hstep
    split at hstep
    next => cases hstep
    next => cases hstep
    next phase hne hphase =>
      obtain ⟨w, hw, rfl⟩ := Option.map_eq_some_iff.mp hphase
      cases hstep
      exact .exit hw hne
  | exitNotice i =>
    simp only [step, deliverExit] at hstep
    split at hstep
    next w hidle hw =>
      simp only [Option.ite_none_right_eq_some, Option.some.injEq] at hstep
      obtain ⟨hnotice, rfl⟩ := hstep
      rw [hinv.ids i w hw, onWorkerExit_eq_buried hinv hw]
      exact .exitNotice hidle hw hnotice
    next => cases hstep

end Pool
