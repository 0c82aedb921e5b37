import Mathlib.Tactic.Common
import QuickjsRuntime.Pool.State

/-!
# Evaluation errors, from the engine to `Job.wait`

How the failure of a script travels: an exception in the engine, a null pointer with an
optional error text in `qjs_eval`, an optional list element in `QuickjsFfi.eval` and
`QuickjsRuntime.eval`, the `ok` flag of an envelope in `runAsyncJobOnRuntime`, and a JS
`Error` again in `Job.prototype.wait`.

A run of a script is a function on a state of the context; it ends with a value or with a
thrown value. The null pointer also stands for the result `undefined`.
-/

namespace Bridge

open Pool (AsyncJobEnvelope)
open Utf16 (Text units decimal)

/-- The error texts that `qjs_eval` has of its own. -/
inductive EvalMessage where
  | notSerialized
  | notConverted
deriving DecidableEq, Repr

def EvalMessage.text : EvalMessage → Text
  | .notSerialized => units "failed to serialize result to JSON"
  | .notConverted => units "failed to convert JSON to string"

/-- What the bridge uses of the engine and of `package:ffi`, for JS values `V` and C
strings `C`. -/
structure Engine (V C : Type) where
  /-- `JS_ToCString`; `none` when the conversion throws. -/
  toCString : V → Option C
  /-- `JS_JSONStringify`; `none` when it throws. -/
  jsonStringify : V → Option V
  cString : EvalMessage → C
  /-- `toDartString`; `none` is the `FormatException` for bytes that are not UTF-8. -/
  toDartString : C → Option Text
  toDartString_cString : ∀ message, toDartString (cString message) = some message.text

/-- A `FormatException` that leaves a Dart function. -/
inductive FormatException where
  | malformed
deriving DecidableEq, Repr

/-- A script: it returns a value or throws one. -/
abbrev Script (σ V : Type) := σ → Except V V × σ

section Model

variable {σ V C D : Type}

/-- `qjs_eval`: the result and the error text, null pointers as `none`. -/
def qjsEval (e : Engine V C) (script : Script σ V) (st : σ) : (Option C × Option C) × σ :=
  match script st with
  | (.error err, st) => ((none, e.toCString err), st)
  | (.ok value, st) =>
    match e.jsonStringify value with
    | none => ((none, some (e.cString .notSerialized)), st)
    | some json =>
      match e.toCString json with
      | none => ((none, some (e.cString .notConverted)), st)
      | some cstr => ((some cstr, none), st)

/-- A pointer that may be null, as a Dart string. -/
def decodePtr (e : Engine V C) : Option C → Except FormatException (Option Text)
  | none => .ok none
  | some ptr =>
    match e.toDartString ptr with
    | some text => .ok (some text)
    | none => .error .malformed

/-- The `errMsg` list after an evaluation with the given error text. -/
def fillErrMsg (errMsg : Option (List (Option Text))) (error : Option Text) :
    Option (List (Option Text)) :=
  errMsg.map fun _ => if error.isSome then [error] else []

/-- `QuickjsFfi.eval`: the result string and the contents of `errMsg`, if that is given. -/
def ffiEval (e : Engine V C) (script : Script σ V) (errMsg : Option (List (Option Text)))
    (st : σ) : Except FormatException (Option Text × Option (List (Option Text))) × σ :=
  let ((resultPtr, errPtr), st) := qjsEval e script st
  match decodePtr e errPtr with
  | .error ex => (.error ex, st)
  | .ok error =>
    match decodePtr e resultPtr with
    | .error ex => (.error ex, st)
    | .ok result =>
      (.ok (if result = some (units "undefined") then none else result,
        fillErrMsg errMsg error), st)

/-- `failed` in `QuickjsRuntime.eval`. -/
def failed : Option (List (Option Text)) → Bool
  | some (some _ :: _) => true
  | _ => false

/-- `QuickjsRuntime.eval`; `drainMicrotasks` runs the promise jobs, and is the identity
when `autoDrainMicrotasks` is off. -/
def runtimeEval (e : Engine V C) (drainMicrotasks : σ → σ) (script : Script σ V)
    (errMsg : Option (List (Option Text))) (st : σ) :
    Except FormatException (Option Text × Option (List (Option Text))) × σ :=
  match ffiEval e script errMsg st with
  | (.error ex, st) => (.error ex, st)
  | (.ok (result, errMsg), st) =>
    (.ok (result, errMsg), if failed errMsg then st else drainMicrotasks st)

/-- A dispatched job as `__jsrCall` meets it on the worker's engine. -/
structure Job (σ V : Type) where
  /-- `eval('(' + fnSource + ')')` -/
  materialize : Script σ V
  isFunction : V → Bool
  /-- `new Error('runAsync: dispatched value is not a function')` -/
  notAFunction : V
  /-- `JSON.parse(argsJson)` -/
  parseArgs : Script σ V
  /-- `fn(args)` -/
  call : V → V → Script σ V

/-- `__jsrCall`. -/
def Job.jsrCall (job : Job σ V) : Script σ V := fun st =>
  match job.materialize st with
  | (.error err, st) => (.error err, st)
  | (.ok fn, st) =>
    if job.isFunction fn = false then (.error job.notAFunction, st)
    else
      match job.parseArgs st with
      | (.error err, st) => (.error err, st)
      | (.ok args, st) => job.call fn args st

/-- `runAsyncJobOnRuntime`. -/
def runAsyncJobOnRuntime (e : Engine V C) (drainMicrotasks : σ → σ)
    (asyncWorkerBootstrap : Script σ V) (job : Job σ V) (jobId : Nat) (st : σ) :
    Except FormatException AsyncJobEnvelope × σ :=
  match runtimeEval e drainMicrotasks asyncWorkerBootstrap none st with
  | (.error ex, st) => (.error ex, st)
  | (.ok _, st) =>
    match runtimeEval e drainMicrotasks job.jsrCall (some []) st with
    | (.error ex, st) => (.error ex, st)
    | (.ok (result, errors), st) =>
      let errors := errors.getD []
      (.ok {
        jobId := jobId
        ok := errors.isEmpty
        resultJson := result
        error := errors.head?.join }, st)

/-- What `__jsrWaitHost` answers, as the JS side sees it. -/
inductive WaitReply (D : Type) where
  | jsError (text : Text)
  | envelope (ok : Bool) (result : D) (error : Option Text)

/-- `_waitHost`, from the job id it was given and the outcome of `AsyncEnginePool.wait`. -/
def waitHost (decodedResult : Option Text → D) (id : Option Nat)
    (wait : Nat → Except Text AsyncJobEnvelope) : WaitReply D :=
  match id with
  | none => .jsError (units "AsyncJob.wait expects a job id")
  | some id =>
    match wait id with
    | .error ex => .jsError (units "AsyncJob.wait failed: " ++ ex)
    | .ok envelope =>
      .envelope envelope.ok (decodedResult envelope.resultJson) envelope.error

/-- `Job.prototype.wait`: the value it returns or the message of the `Error` it throws. -/
def jobWait (id : Nat) : WaitReply D → Except Text D
  | .jsError text => .error text
  | .envelope true result _ => .ok result
  | .envelope false _ error =>
    let reason :=
      match error with
      | some text => if text = [] then units "no result" else text
      | none => units "no result"
    .error (units "runAsync job " ++ decimal id ++ units " failed: " ++ reason)

end Model

section Proofs

variable {σ V C D : Type} {e : Engine V C}

/-- A thrown value has a text that arrives in Dart; so has the JSON of a result. -/
def Engine.Convertible (e : Engine V C) : Except V V → Prop
  | .error err => ∃ c, e.toCString err = some c ∧ (e.toDartString c).isSome
  | .ok value => ∀ json c, e.jsonStringify value = some json → e.toCString json = some c →
      (e.toDartString c).isSome

/-- The run threw, or its result cannot be written as JSON. -/
def Engine.Fails (e : Engine V C) : Except V V → Prop
  | .error _ => True
  | .ok value => (e.jsonStringify value).bind e.toCString = none

/-! ## One evaluation -/

theorem decodePtr_cString (message : EvalMessage) :
    decodePtr e (some (e.cString message)) = .ok (some message.text) := by
  rw [decodePtr, e.toDartString_cString]

theorem decodePtr_of_isSome {c : C} (hc : (e.toDartString c).isSome) :
    ∃ text, decodePtr e (some c) = .ok (some text) := by
  obtain ⟨text, htext⟩ := Option.isSome_iff_exists.mp hc
  exact ⟨text, by rw [decodePtr, htext]⟩

/-- The two pointers `qjs_eval` returns: an error text exactly when the run failed. -/
theorem qjsEval_spec {script : Script σ V} {st : σ} (hconv : e.Convertible (script st).1) :
    ∃ resultPtr errPtr result error,
      qjsEval e script st = ((resultPtr, errPtr), (script st).2) ∧
        decodePtr e resultPtr = .ok result ∧ decodePtr e errPtr = .ok error ∧
        (error.isSome ↔ e.Fails (script st).1) := by
  unfold qjsEval
  rcases hrun : script st with ⟨err | value, st'⟩
  · rw [hrun] at hconv
    obtain ⟨c, hc, htext⟩ := hconv
    obtain ⟨text, htext⟩ := decodePtr_of_isSome htext
    exact ⟨none, some c, none, some text, by simp [hc], rfl, htext, by simp [Engine.Fails]⟩
  · rw [hrun] at hconv
    simp only
    cases hjson : e.jsonStringify value with
    | none =>
      exact ⟨_, _, none, _, rfl, rfl, decodePtr_cString _, by simp [Engine.Fails, hjson]⟩
    | some json =>
      simp only
      cases hcstr : e.toCString json with
      | none =>
        exact ⟨_, _, none, _, rfl, rfl, decodePtr_cString _, by simp [Engine.Fails, hjson, hcstr]⟩
      | some cstr =>
        obtain ⟨text, htext⟩ := decodePtr_of_isSome (hconv json cstr hjson hcstr)
        exact ⟨_, _, some text, none, rfl, htext, rfl, by simp [Engine.Fails, hjson, hcstr]⟩

theorem runtimeEval_spec (drainMicrotasks : σ → σ) {script : Script σ V} {st : σ}
    (hconv : e.Convertible (script st).1) (errMsg : Option (List (Option Text))) :
    ∃ result error st', runtimeEval e drainMicrotasks script errMsg st =
        (.ok (result, fillErrMsg errMsg error), st') ∧
      (error.isSome ↔ e.Fails (script st).1) := by
  obtain ⟨resultPtr, errPtr, result, error, heval, hresult, herror, hfails⟩ := qjsEval_spec hconv
  refine ⟨if result = some (units "undefined") then none else result, error,
    if failed (fillErrMsg errMsg error) then (script st).2 else drainMicrotasks (script st).2,
    ?_, hfails⟩
  simp only [runtimeEval, ffiEval, heval, hresult, herror]

theorem fillErrMsg_some (errMsg : List (Option Text)) (error : Option Text) :
    fillErrMsg (some errMsg) error = some (if error.isSome then [error] else []) :=
  rfl

/-! ## Jobs -/

/-- `Job.wait` throws unless the pool's answer is an envelope with `ok: true`. -/
theorem jobWait_throws {decodedResult : Option Text → D} {id : Nat}
    {wait : Nat → Except Text AsyncJobEnvelope}
    (hwait : ∀ envelope, wait id = .ok envelope → envelope.ok = false) :
    ∃ text, jobWait id (waitHost decodedResult (some id) wait) = .error text := by
  cases hanswer : wait id with
  | error ex => exact ⟨units "AsyncJob.wait failed: " ++ ex, by rw [waitHost, hanswer, jobWait]⟩
  | ok envelope =>
    have hok := hwait envelope hanswer
    rw [waitHost, hanswer]
    simp only [hok, jobWait]
    exact ⟨_, rfl⟩

theorem runAsync_spec {drainMicrotasks : σ → σ} {bootstrap : Script σ V} {job : Job σ V}
    {jobId : Nat} {st st' : σ} (decodedResult : Option Text → D)
    (hboot : e.Convertible (bootstrap st).1)
    (hst : st' = (runtimeEval e drainMicrotasks bootstrap none st).2)
    (hjob : e.Convertible (job.jsrCall st').1) :
    ∃ envelope st'', runAsyncJobOnRuntime e drainMicrotasks bootstrap job jobId st =
        (.ok envelope, st'') ∧
      envelope.jobId = jobId ∧
      (envelope.ok = false ↔ e.Fails (job.jsrCall st').1) ∧
      ∀ wait : Nat → Except Text AsyncJobEnvelope,
        (∀ returned, wait jobId = .ok returned → returned = envelope) →
        e.Fails (job.jsrCall st').1 →
          ∃ text, jobWait jobId (waitHost decodedResult (some jobId) wait) = .error text := by
  obtain ⟨bootResult, bootError, bootSt, hbootEval, -⟩ :=
    runtimeEval_spec drainMicrotasks hboot none
  rw [hbootEval] at hst
  subst hst
  obtain ⟨result, error, st'', heval, hfails⟩ := runtimeEval_spec drainMicrotasks hjob (some [])
  let envelope : AsyncJobEnvelope :=
    { jobId := jobId, ok := error.isNone, resultJson := result, error := error }
  have hok : envelope.ok = false ↔ e.Fails (job.jsrCall st').1 := by
    rw [← hfails]
    cases error <;> simp [envelope]
  have hrun : runAsyncJobOnRuntime e drainMicrotasks bootstrap job jobId st =
      (.ok envelope, st'') := by
    simp only [runAsyncJobOnRuntime, hbootEval, heval, fillErrMsg_some]
    cases error <;> rfl
  refine ⟨envelope, st'', hrun, rfl, hok, ?_⟩
  intro wait hwait hfail
  apply jobWait_throws
  intro returned hreturned
  rw [hwait returned hreturned]
  exact hok.mpr hfail

/-- Unless a thrown value has no text, every failure of an evaluation is in the `errMsg`
list, every failed job has an envelope with `ok: false`, and waiting for it throws. A run
fails when it throws and also when its result cannot be written as JSON. -/
theorem failures_reported (e : Engine V C) (drainMicrotasks : σ → σ)
    (decodedResult : Option Text → D) :
    (∀ (script : Script σ V) (errMsg : List (Option Text)) (st : σ),
      e.Convertible (script st).1 →
        ∃ result errors st', runtimeEval e drainMicrotasks script (some errMsg) st =
            (.ok (result, some errors), st') ∧
          (errors ≠ [] ↔ e.Fails (script st).1)) ∧
    (∀ (bootstrap : Script σ V) (job : Job σ V) (jobId : Nat) (st st' : σ),
      e.Convertible (bootstrap st).1 →
      st' = (runtimeEval e drainMicrotasks bootstrap none st).2 →
      e.Convertible (job.jsrCall st').1 →
        ∃ envelope st'', runAsyncJobOnRuntime e drainMicrotasks bootstrap job jobId st =
            (.ok envelope, st'') ∧
          envelope.jobId = jobId ∧
          (envelope.ok = false ↔ e.Fails (job.jsrCall st').1) ∧
          ∀ wait : Nat → Except Text AsyncJobEnvelope,
            (∀ returned, wait jobId = .ok returned → returned = envelope) →
            e.Fails (job.jsrCall st').1 →
              ∃ text, jobWait jobId (waitHost decodedResult (some jobId) wait) = .error text) := by
  constructor
  · intro script errMsg st hconv
    obtain ⟨result, error, st', heval, hfails⟩ :=
      runtimeEval_spec drainMicrotasks hconv (some errMsg)
    refine ⟨result, _, st', heval, ?_⟩
    rw [← hfails]
    cases error <;> simp
  · intro bootstrap job jobId st st' hboot hst hjob
    exact runAsync_spec decodedResult hboot hst hjob

end Proofs

/-! ## Runs on primitive values -/

/-- Some primitive values; strings here have nothing to escape in JSON. -/
inductive Primitive where
  | undefined
  | string (value : Text)
  | symbol
  | bigInt (value : Int)
deriving DecidableEq, Repr

def primitiveEngine : Engine Primitive Text where
  toCString
    | .undefined => some (units "undefined")
    | .string s => some s
    | .symbol => none
    | .bigInt n => some (units (toString n))
  jsonStringify
    | .undefined | .symbol => some .undefined
    | .string s => some (.string (units "\"" ++ s ++ units "\""))
    | .bigInt _ => none
  cString := EvalMessage.text
  toDartString := some
  toDartString_cString _ := rfl

/-- A job whose function ends in the given way. -/
def jobEnding (ending : Except Primitive Primitive) : Job Unit Primitive where
  materialize st := (.ok .undefined, st)
  isFunction _ := true
  notAFunction := .string (units "Error: runAsync: dispatched value is not a function")
  parseArgs st := (.ok .undefined, st)
  call _ _ st := (ending, st)

/-- A bootstrap that succeeds. -/
def quietBootstrap : Script Unit Primitive := fun st => (.ok .undefined, st)

/-- A function that throws an error with a text. -/
theorem thrown_string_reported :
    (∃ result errors st', runtimeEval primitiveEngine id
        (fun st : Unit => (.error (.string (units "nope")), st)) (some []) () =
          (.ok (result, some errors), st') ∧ errors ≠ []) ∧
      ∃ envelope st', runAsyncJobOnRuntime primitiveEngine id quietBootstrap
          (jobEnding (.error (.string (units "nope")))) 4 () = (.ok envelope, st') ∧
        envelope.ok = false := by
  have hthrown : primitiveEngine.Convertible (.error (.string (units "nope"))) :=
    ⟨units "nope", rfl, rfl⟩
  have hquiet : primitiveEngine.Convertible (.ok .undefined) := fun _ _ _ _ => rfl
  obtain ⟨heval, hjobs⟩ := failures_reported primitiveEngine (id : Unit → Unit) id
  obtain ⟨result, errors, st', hresult, herrors⟩ :=
    heval (fun st => (.error (.string (units "nope")), st)) [] () hthrown
  obtain ⟨envelope, st'', hrun, -, hok, -⟩ :=
    hjobs quietBootstrap (jobEnding (.error (.string (units "nope")))) 4 () () hquiet rfl hthrown
  exact ⟨⟨result, errors, st', hresult, herrors.mpr trivial⟩,
    ⟨envelope, st'', hrun, hok.mpr trivial⟩⟩

/-- A thrown symbol leaves no trace: the error list is empty, the envelope says `ok` and
`Job.wait` returns. A job that returns a BigInt fails although nothing was thrown. -/
theorem thrown_symbol_unreported :
    runtimeEval primitiveEngine id (fun st : Unit => (.error .symbol, st)) (some []) () =
        (.ok (none, some []), ()) ∧
      runAsyncJobOnRuntime primitiveEngine id quietBootstrap (jobEnding (.error .symbol)) 4 () =
        (.ok { jobId := 4, ok := true }, ()) ∧
      jobWait 4 (waitHost id (some 4) fun _ => .ok { jobId := 4, ok := true }) = .ok none ∧
      runAsyncJobOnRuntime primitiveEngine id quietBootstrap (jobEnding (.ok (.bigInt 1))) 4 () =
        (.ok { jobId := 4, ok := false, error := some EvalMessage.notSerialized.text }, ()) :=
  ⟨rfl, rfl, rfl, rfl⟩

end Bridge
