import Mathlib.Logic.Function.Basic
import QuickjsRuntime.Foundation.Text
import QuickjsRuntime.Foundation.Transition

/-! # The engine-worker pool and its worker isolates

The pool of `async_engine_pool.dart`: the fields of `AsyncEnginePool`, and for
each worker the main-side view (`state`) next to the isolate's own side of the
protocol, its mailbox (`doneBox`), the inbox behind its `SendPort` and the point
its loop has reached. The mailbox is the single-slot cell of
`native_synchronization`; the inbox is a FIFO.

The isolate that calls `dispatch` and `wait` is sequential and parks inside
`Mailbox.take`. `MainThread` says where it is parked. Everything between two
takes touches main-side fields only, so a call advances from one take to the
next in a single step.
-/

namespace Pool

open Utf16 (Text)

/-- Completion envelope for one dispatched job. -/
structure AsyncJobEnvelope where
  jobId : Nat
  ok : Bool
  resultJson : Option Text := none
  error : Option Text := none
  deriving DecidableEq, Repr

/-- The JSON object `dispatch` sends to a worker's inbox. -/
structure JobMessage where
  jobId : Nat
  fnSource : Text
  argsJson : Text
  context : Text
  deriving DecidableEq, Repr

/-- One dispatched job as seen by the worker side. -/
structure AsyncJobRequest where
  jobId : Nat
  workerId : Nat
  fnSource : Text
  argsJson : Text
  context : Text
  deriving DecidableEq, Repr

/-- What a worker puts into its mailbox. -/
inductive Message where
  | ready
  | envelope (envelope : AsyncJobEnvelope)
  deriving DecidableEq, Repr

/-- What the pool sends to a worker's inbox. -/
inductive Inbound where
  | job (message : JobMessage)
  | shutdown
  deriving DecidableEq, Repr

/-- Lifecycle state of one worker (main-side view). -/
inductive WorkerState where
  | booting
  | idle
  | busy
  | dead
  deriving DecidableEq, Repr

/-- Where the worker isolate's own loop stands. -/
inductive IsolatePhase where
  | starting
  | listening
  | running (request : AsyncJobRequest)
  | exited
  deriving DecidableEq, Repr

structure Worker where
  id : Nat
  state : WorkerState := .booting
  doneBox : Option Message := none
  inbox : List Inbound := []
  isolate : IsolatePhase := .starting
  exitNotice : Bool := false
  deriving DecidableEq, Repr

structure PendingJob where
  workerId : Nat
  deriving DecidableEq, Repr

/-- Where the isolate that owns the pool is: free, or parked inside a call. A
call to `dispatch` keeps the JSON text of its context, `none` when evaluating
or encoding the context throws. -/
inductive MainThread where
  | idle
  | acquiring (fnSource argsJson : Text) (context : Option Text)
  | waiting (jobId worker : Nat)
  deriving DecidableEq, Repr

/-- What `dispatch` and `wait` throw. -/
inductive PoolError where
  /-- `StateError('JS worker pool is not booted')` -/
  | notBooted
  /-- `StateError('JS worker pool has no workers')` -/
  | noWorkers
  /-- `StateError('JS worker pool has no live workers')` -/
  | noLiveWorkers
  /-- `StateError('Unexpected worker message: $message')` -/
  | unexpectedMessage (message : Message)
  /-- `StateError('Unknown or already-waited async job id $jobId')` -/
  | unknownJob (jobId : Nat)
  /-- `firstWhere` without a match in `_workerById` -/
  | noElement
  /-- `jsonDecode('ready')` -/
  | malformedEnvelope
  /-- the `dispatchContext` provider or `jsonEncode` throws -/
  | contextFailed
  deriving DecidableEq, Repr

/-- What is recorded about a run, newest first. `worker` is a position in
`_workers`. -/
inductive Event where
  | put (worker : Nat) (message : Message)
  | putRejected (worker : Nat) (message : Message)
  | took (worker : Nat) (message : Message)
  | sent (worker jobId : Nat)
  | dispatched (jobId : Nat)
  | dispatchThrew (error : PoolError)
  | returned (jobId : Nat) (envelope : AsyncJobEnvelope)
  | waitThrew (jobId : Nat) (error : PoolError)
  | cachedOther (waited jobId : Nat)
  deriving DecidableEq, Repr

end Pool

open Pool in
/-- The fields of `AsyncEnginePool`, the main thread and the record of the run. -/
structure Pool where
  workers : List Worker := []
  jobs : Nat → Option PendingJob := fun _ => none
  completed : Nat → Option AsyncJobEnvelope := fun _ => none
  exitPort : Bool := false
  booting : Bool := false
  booted : Bool := false
  nextJobId : Nat := 0
  main : MainThread := .idle
  history : List Event := []

namespace Pool

open Utf16 (Text units decimal)

/-- The result of main-side code: parked on an empty mailbox, or finished. Code
that throws keeps the changes it made before. -/
inductive Blocking (α : Type) where
  | parked (worker : Nat)
  | threw (error : PoolError) (pool : Pool)
  | finished (value : α) (pool : Pool)

@[simp] def log (p : Pool) (event : Event) : Pool := { p with history := event :: p.history }

@[simp] def modifyWorker (p : Pool) (i : Nat) (f : Worker → Worker) : Pool :=
  { p with workers := p.workers.modify i f }

@[simp] def setState (p : Pool) (i : Nat) (state : WorkerState) : Pool :=
  p.modifyWorker i ({ · with state })

/-- `Mailbox.take`: empties a full slot; on an empty one the thread parks. -/
def take (p : Pool) (i : Nat) : Option (Message × Pool) :=
  match p.workers[i]?.bind Worker.doneBox with
  | none => none
  | some message =>
    some (message, (p.modifyWorker i ({ · with doneBox := none })).log (.took i message))

/-! ## Claiming a worker -/

def settleWorker (p : Pool) (i : Nat) : Blocking Unit :=
  match p.workers[i]? with
  | none => .finished () p
  | some worker =>
    if worker.state = .booting then
      match p.take i with
      | none => .parked i
      | some (.ready, p) => .finished () (p.setState i .idle)
      | some (message, p) => .threw (.unexpectedMessage message) p
    else .finished () p

/-- `jsonDecode` rejects the text `ready`, before the state is written. -/
def takeEnvelope (p : Pool) (i : Nat) : Blocking AsyncJobEnvelope :=
  match p.take i with
  | none => .parked i
  | some (.ready, p) => .threw .malformedEnvelope p
  | some (.envelope envelope, p) => .finished envelope (p.setState i .idle)

@[simp] def claim (p : Pool) (i : Nat) : Pool := p.setState i .busy

/-- `_completed[envelope.jobId] = envelope`. -/
@[simp] def cache (p : Pool) (envelope : AsyncJobEnvelope) : Pool :=
  { p with completed := Function.update p.completed envelope.jobId (some envelope) }

/-- The saturated end of `_acquireWorker`: block on the first busy worker. -/
def acquireSaturated (p : Pool) : Blocking Nat :=
  match p.workers.findIdx? (·.state = .busy) with
  | none => .threw .noLiveWorkers p
  | some i =>
    match p.takeEnvelope i with
    | .parked i => .parked i
    | .threw error p => .threw error p
    | .finished envelope p => .finished i ((p.cache envelope).claim i)

/-- The loop of `_acquireWorker` over the workers still to visit. -/
def acquireLoop (p : Pool) : List Nat → Blocking Nat
  | [] => p.acquireSaturated
  | i :: rest =>
    match p.settleWorker i with
    | .parked i => .parked i
    | .threw error p => .threw error p
    | .finished () p =>
      if p.workers[i]?.map Worker.state = some .idle then .finished i (p.claim i)
      else acquireLoop p rest

def acquireWorker (p : Pool) : Blocking Nat :=
  if p.workers.isEmpty then .threw .noWorkers p
  else p.acquireLoop (List.range p.workers.length)

/-! ## Dispatching -/

/-- What `dispatch` reads besides the pool: the provider given at construction
and `jsonEncode`, which throws on a value that has no JSON form. -/
structure Config (Ctx : Type) where
  workers : Nat
  dispatchContext : Bool
  jsonEncode : Ctx → Option Text

/-- The arguments of one `dispatch` call. `provided` is what the pool-level
provider gives when this call runs it, `none` when it throws. -/
structure DispatchCall (Ctx : Type) where
  fnSource : Text
  argsJson : Text
  context : Option Ctx
  provided : Option Ctx

/-- The JSON text of `context ?? (_dispatchContext != null ? _dispatchContext() : const {})`. -/
def DispatchCall.encodedContext {Ctx : Type} (cfg : Config Ctx) (call : DispatchCall Ctx) :
    Option Text :=
  match call.context with
  | some context => cfg.jsonEncode context
  | none => if cfg.dispatchContext then call.provided.bind cfg.jsonEncode else some (units "{}")

/-- The call of `dispatch`, up to `_acquireWorker`. -/
def dispatch (p : Pool) (fnSource argsJson : Text) (context : Option Text) : Pool :=
  if p.booted then { p with main := .acquiring fnSource argsJson context }
  else p.log (.dispatchThrew .notBooted)

/-- The rest of `dispatch` on the claimed worker: the job is registered first,
then the context is evaluated and encoded, then the message is sent. -/
def finishDispatch (p : Pool) (i : Nat) (fnSource argsJson : Text) (context : Option Text) :
    Pool :=
  let jobId := p.nextJobId
  let registered : Pool := { p with
    main := .idle
    nextJobId := jobId + 1
    jobs := Function.update p.jobs jobId (p.workers[i]?.map fun worker => ⟨worker.id⟩) }
  match context with
  | none => registered.log (.dispatchThrew .contextFailed)
  | some context =>
    ((registered.modifyWorker i fun worker =>
      { worker with inbox := worker.inbox ++ [.job ⟨jobId, fnSource, argsJson, context⟩] }).log
        (.sent i jobId)).log (.dispatched jobId)

/-! ## Waiting -/

def workerById (p : Pool) (id : Nat) : Option Nat := p.workers.findIdx? (·.id = id)

@[simp] def forget (p : Pool) (jobId : Nat) : Pool :=
  { p with jobs := Function.update p.jobs jobId none }

/-- The call of `wait`, up to its first take. -/
def wait (p : Pool) (jobId : Nat) : Pool :=
  match p.completed jobId with
  | some envelope =>
    ({ p with completed := Function.update p.completed jobId none }.forget jobId).log
      (.returned jobId envelope)
  | none =>
    match p.jobs jobId with
    | none => p.log (.waitThrew jobId (.unknownJob jobId))
    | some pending =>
      match p.workerById pending.workerId with
      | none => p.log (.waitThrew jobId .noElement)
      | some i => { p with main := .waiting jobId i }

/-- One round of the loop of `wait`. -/
def waitRound (p : Pool) (jobId i : Nat) : Option Pool :=
  match p.takeEnvelope i with
  | .parked _ => none
  | .threw error p => some ({ p with main := .idle }.log (.waitThrew jobId error))
  | .finished envelope p =>
    if envelope.jobId = jobId then
      some (({ p with main := .idle }.forget jobId).log (.returned jobId envelope))
    else some ((p.cache envelope).log (.cachedOther jobId envelope.jobId))

/-- The main thread goes on from where it is parked. -/
def resume (p : Pool) : Option Pool :=
  match p.main with
  | .idle => none
  | .acquiring fnSource argsJson context =>
    match p.acquireWorker with
    | .parked _ => none
    | .threw error p => some ({ p with main := .idle }.log (.dispatchThrew error))
    | .finished i p => some (p.finishDispatch i fnSource argsJson context)
  | .waiting jobId i => p.waitRound jobId i

/-! ## The exit listener -/

def exitedEnvelope (workerId jobId : Nat) : AsyncJobEnvelope :=
  { jobId, ok := false
    error := some (units "JS worker " ++ decimal workerId ++ units " exited unexpectedly") }

/-- `_onWorkerExit`. `_workerById` throws on an unknown id, before any write. -/
def onWorkerExit (p : Pool) (id : Nat) : Pool :=
  if p.exitPort then
    match p.workerById id with
    | none => p
    | some i => { p.setState i .dead with
        jobs := fun j => if p.jobs j = some ⟨id⟩ then none else p.jobs j
        completed := fun j =>
          if p.jobs j = some ⟨id⟩ then some (exitedEnvelope id j) else p.completed j }
  else p

/-! ## The worker isolate -/

/-- `Mailbox.put`: a full slot makes it throw, which ends the isolate. -/
def put (p : Pool) (i : Nat) (message : Message) : Pool :=
  match p.workers[i]?.bind Worker.doneBox with
  | none => (p.modifyWorker i ({ · with doneBox := some message })).log (.put i message)
  | some _ => (p.modifyWorker i ({ · with isolate := .exited, exitNotice := true })).log
      (.putRejected i message)

@[simp] def setIsolate (p : Pool) (i : Nat) (isolate : IsolatePhase) : Pool :=
  p.modifyWorker i ({ · with isolate })

/-- `_workerLoop` up to the first wait for a message. -/
def isolateReady (p : Pool) (i : Nat) : Option Pool :=
  match p.workers[i]?.map Worker.isolate with
  | some .starting => some ((p.setIsolate i .listening).put i .ready)
  | _ => none

/-- The isolate takes the next message of its inbox. -/
def isolateReceive (p : Pool) (i : Nat) : Option Pool :=
  match p.workers[i]? with
  | none => none
  | some worker =>
    match worker.isolate, worker.inbox with
    | .listening, .job message :: rest =>
      some (p.modifyWorker i ({ · with
        inbox := rest
        isolate := .running ⟨message.jobId, worker.id, message.fnSource, message.argsJson,
          message.context⟩ }))
    | .listening, .shutdown :: rest =>
      some (p.modifyWorker i ({ · with inbox := rest, isolate := .exited, exitNotice := true }))
    | _, _ => none

/-- The isolate answers the request it runs, with that request's `jobId`. -/
def isolateAnswer (p : Pool) (i : Nat) (ok : Bool) (resultJson error : Option Text) :
    Option Pool :=
  match p.workers[i]?.map Worker.isolate with
  | some (.running request) =>
    some ((p.setIsolate i .listening).put i
      (.envelope { jobId := request.jobId, ok, resultJson, error }))
  | _ => none

/-- The isolate ends, at any point. -/
def isolateExit (p : Pool) (i : Nat) : Option Pool :=
  match p.workers[i]?.map Worker.isolate with
  | none | some .exited => none
  | some _ => some (p.modifyWorker i ({ · with isolate := .exited, exitNotice := true }))

/-- The event loop delivers the exit notification of a worker. -/
def deliverExit (p : Pool) (i : Nat) : Option Pool :=
  match p.main, p.workers[i]? with
  | .idle, some worker =>
    if worker.exitNotice then
      some ((p.modifyWorker i ({ · with exitNotice := false })).onWorkerExit worker.id)
    else none
  | _, _ => none

/-! ## The machine -/

inductive Label (Ctx : Type) where
  | dispatch (call : DispatchCall Ctx)
  | wait (jobId : Nat)
  | resume
  | ready (worker : Nat)
  | receive (worker : Nat)
  | answer (worker : Nat) (ok : Bool) (resultJson error : Option Text)
  | exit (worker : Nat)
  | exitNotice (worker : Nat)

def step {Ctx : Type} (cfg : Config Ctx) (p : Pool) : Label Ctx → Option Pool
  | .dispatch call =>
    if p.main = .idle then
      some (p.dispatch call.fnSource call.argsJson (call.encodedContext cfg))
    else none
  | .wait jobId => if p.main = .idle then some (p.wait jobId) else none
  | .resume => p.resume
  | .ready i => p.isolateReady i
  | .receive i => p.isolateReceive i
  | .answer i ok resultJson error => p.isolateAnswer i ok resultJson error
  | .exit i => p.isolateExit i
  | .exitNotice i => p.deliverExit i

/-- The pool when a `boot` of `n` workers has completed and nothing was dispatched yet. -/
def afterBoot (n : Nat) : Pool where
  workers := (List.range n).map ({ id := · })
  exitPort := true
  booting := true
  booted := true

end Pool
