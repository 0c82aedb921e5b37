import QuickjsRuntime.Bridge.NativeMemory
import QuickjsRuntime.Bridge.StringLiteral
import QuickjsRuntime.Foundation.JsonFormats
import QuickjsRuntime.Pool.Caller
import QuickjsRuntime.Pool.ExecutorLoop

/-!
# The way of a job

From `runAsync(fn, args)` on the main engine to the function on a worker's engine and back to
`job.wait()`, text by text: the JSON of the arguments, the C string to `__jsrDispatchHost`, the
code that the worker's engine evaluates, the JSON of the result, and the answer of
`__jsrWaitHost`. Between the two host functions stands the pool, which they call.
-/

namespace Pool.RunAsync

open Utf16 (Text units)
open Bridge (JsNumber JsNumberFormat JsValue JsString JsonVal tokens jsonStringify marshalArgs
  hostResult toCString toDartString toDart toJs jobCode parseJobCall FormatException EvalMessage)
open Bridge.Memory (Completion)
open Executor (field asText)

variable {Num : Type}

/-- JSON values as either side has them. -/
abbrev Value (Num : Type) := Json (JsNumber Num)

/-- The numbers of the two sides. Each side reads what the other writes, and the numbers of jobs
are integers to both. -/
structure Numbers (Num : Type) where
  js : JsNumberFormat Num
  dart : JsNumberFormat Num
  dart_reads : ∀ n, dart.ofText (js.toText n) = some n
  js_reads : ∀ n, js.ofText (dart.toText n) = some n
  ofNat : Nat → Num
  asInt : Num → Option Int
  asInt_ofNat : ∀ n < 2 ^ 53, asInt (ofNat n) = some (n : Int)

section Model

variable (nums : Numbers Num)

/-! ## Texts of the two sides -/

/-- `jsonEncode` of a value that came from JSON. -/
def jsonEncode (x : Value Num) : Text := x.render (tokens nums.dart)

/-- `jsonDecode`; `none` is a `FormatException`. -/
def jsonDecode (t : Text) : Option (Value Num) := Json.decode (tokens nums.dart) t

/-- `JSON.parse`; `none` is a `SyntaxError`. -/
def jsonParse (t : Text) : Option (Value Num) := Json.decode (tokens nums.js) t

def number (n : Nat) : Value Num := .number (.finite (nums.ofNat n))

/-! ## The worker -/

/-- What the worker's engine makes of a source: a function on JSON values, or what it throws for
`eval('(' + fnSource + ')')` and for a value that is no function. -/
abbrev Sources (Num : Type) := Text → Except (Option JsString) (Value Num → Completion Num)

/-- What the code is run with: the worker's engine, with the text of the `SyntaxError` that
`JSON.parse` throws, and the texts of exceptions of Dart and of the pool. -/
structure Host (Num : Type) where
  sources : Sources Num
  syntaxError : Option JsString
  formatException : Text
  poolException : Text

/-- `__jsrCall` -/
def jsrCall (host : Host Num) (fnSource argsJson : Text) : Completion Num :=
  match host.sources fnSource with
  | .error text => .threw text
  | .ok fn =>
    match jsonParse nums argsJson with
    | none => .threw host.syntaxError
    | some args => fn args

/-- `QuickjsRuntime.eval`: the result, and the error text if there is one. -/
def evaluate : Completion Num → Except FormatException (Option Text × Option Text)
  | .threw none => .ok (none, none)
  | .threw (some s) =>
    match toDartString (toCString s) with
    | none => .error .malformed
    | some t => .ok (none, some t)
  | .returned v =>
    match jsonStringify nums.js v with
    | none => .ok (none, some EvalMessage.notSerialized.text)
    | some json =>
      match toDart json.toCString with
      | none => .error .malformed
      | some t => .ok (if t = units "undefined" then none else some t, none)

/-- The script of a job. -/
def jobCompletion (host : Host Num) (fnSource argsJson : Text) : Completion Num :=
  match parseJobCall (toJs (jobCode fnSource argsJson)) with
  | none => .threw host.syntaxError
  | some (fnSource, argsJson) => jsrCall nums host fnSource argsJson

/-- `runAsyncJobOnRuntime`, or the exception that leaves it. The number of the job is handed
through and left out here. -/
def runAsyncJobOnRuntime (host : Host Num) (fnSource argsJson : Text) :
    Except FormatException Verdict :=
  match evaluate nums (jobCompletion nums host fnSource argsJson) with
  | .error ex => .error ex
  | .ok (result, error) => .ok { ok := error.isNone, resultJson := result, error := error }

def sentinel (text : Text) : Text :=
  jsonEncode nums (.object [(units "__jsError", .string text)])

/-- `AsyncJobEnvelope.decodedResult` -/
def decodedResult (resultJson : Option Text) : Value Num :=
  match resultJson with
  | none => .null
  | some raw => (jsonDecode nums raw).getD (.string raw)

/-- The object that `_waitHost` encodes. -/
def waitReply (ok : Bool) (resultJson error : Option Text) : Value Num :=
  .object [(units "ok", .bool ok), (units "result", decodedResult nums resultJson),
    (units "error", error.elim .null .string)]

/-- What `_waitHost` answers once `wait` has ended. -/
def waitAnswer (host : Host Num) : Observed → Text
  | .returned _ envelope =>
    jsonEncode nums (waitReply nums envelope.ok envelope.resultJson envelope.error)
  | _ => sentinel nums (units "AsyncJob.wait failed: " ++ host.poolException)

/-- `_waitHost`. A negative number is no number of a job, and `wait` throws. -/
def waitHost (host : Host Num) (argsJson : Text) : Caller Text :=
  match jsonDecode nums argsJson with
  | none => return sentinel nums (units "AsyncJob.wait failed: " ++ host.formatException)
  | some (.number (.finite n)) =>
    match nums.asInt n with
    | none => return sentinel nums (units "AsyncJob.wait expects a job id")
    | some (.ofNat jobId) =>
      .calls (.wait jobId) fun outcome => return waitAnswer nums host outcome
    | some (.negSucc _) => return waitAnswer nums host .threw
  | some _ => return sentinel nums (units "AsyncJob.wait expects a job id")

/-! ## The main engine -/

/-- Scripts on the main engine: they throw an `Error` with a message, or, without one, an exception
of the engine. -/
abbrev Js := ExceptT (Option Text) Caller

def orThrow {α : Type} : Except Text α → Js α
  | .ok result => return result
  | .error text => throw (some text)

/-- A call of a host function, through `qjs_dispatch` and the closure of
`registerHostFunction`. -/
def callHost (host : Text → Caller Text) (args : List (JsValue Num)) :
    Js (Option (Value Num)) := do
  let argsJson ← orThrow ((marshalArgs nums.js args).mapError units)
  let answer : Option Text ← ExceptT.lift ((toDart argsJson).mapM host)
  orThrow ((hostResult nums.js answer).mapError units)

/-- The text of the sentinel, if the answer is one. -/
def jsError : Option (Value Num) → Option Text
  | some (.object members) =>
    match field members "__jsError" with
    | some (.string text) => some text
    | _ => none
  | _ => none

/-- The message of a job that failed. -/
def failure (id : JsNumber Num) (error : Option Text) : Text :=
  let reason := match error with
    | some [] => units "no result"
    | some text => text
    | none => units "no result"
  units "runAsync job " ++ id.toText nums.js ++ units " failed: " ++ reason

/-- What `Job.prototype.wait` makes of the answer: a result or the message of its `Error`. -/
def waitResult (id : JsNumber Num) (env : Option (Value Num)) : Except Text (Value Num) :=
  match jsError env, env with
  | some text, _ => .error text
  | none, some (.object members) =>
    match field members "ok", field members "result" with
    | some (.bool true), some result => .ok result
    | _, _ => .error (failure nums id ((asText (field members "error")).getD none))
  | none, _ => .error (failure nums id none)

/-- `Job.prototype.wait` -/
def jobWait (host : Host Num) (id : JsNumber Num) : Js (Value Num) := do
  let env ← callHost nums (waitHost nums host) [.number id]
  orThrow (waitResult nums id env)

end Model

end Pool.RunAsync
