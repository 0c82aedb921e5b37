import QuickjsRuntime.Bridge.Eval
import QuickjsRuntime.Bridge.Marshal
import QuickjsRuntime.Foundation.Ownership

/-!
# Who frees what

The functions of `native/quickjs_bridge.c` and of `QuickjsFfi` as programs over the resources
that they release by hand: references to JS values, C strings of the engine, and blocks of
`malloc`. A script calls host functions, which call the bridge again, to any depth, and the
conversions of the engine run scripts as well (`toString`, `toJSON`, getters, setters).

What the engine and the host code do is data: a tree of calls. Allocation may fail wherever
the bridge checks for it. Dart's `malloc` is the `malloc` of C here.
-/

namespace Bridge.Memory

open Utf16 (Text units)
open Ownership (acquire use release report)

inductive Resource where
  /-- Released by `JS_FreeValue`. -/
  | value
  /-- Released by `JS_FreeCString`. -/
  | cString
  /-- Released by `free` or `malloc.free`. -/
  | block
deriving DecidableEq, Repr

/-- How a call of `QuickjsFfi.eval` ends. -/
abbrev Answer := Except FormatException (Option Text)

/-- A program that reports how its evaluations end. -/
abbrev Native := Ownership.Prog Resource Answer

/-- A pointer to a text. -/
structure TextPtr where
  address : Nat
  text : JsString

variable {Num : Type}

/-! ## The bridge -/

/-- `JS_ToCString`; without a text the conversion has thrown or failed. -/
def jsToCString : Option JsString → Native (Option TextPtr)
  | none => return none
  | some text => do
      let address ← acquire .cString
      return some ⟨address, text⟩

/-- `strdup` of a C string of the engine. -/
def strdup (enough : Bool) (cstr : TextPtr) : Native (Option TextPtr) := do
  use .cString cstr.address
  if enough then
    let address ← acquire .block
    return some ⟨address, cstr.text⟩
  else return none

/-- `strdup` of one of the bridge's own texts. -/
def strdupLiteral (enough : Bool) (text : String) : Native (Option TextPtr) :=
  match JsString.ofText (units text) with
  | some text => do
      if enough then
        let address ← acquire .block
        return some ⟨address, text⟩
      else return none
  | none => return none

/-- How a script ends. A value that is thrown may have no text. -/
inductive Completion (Num : Type) where
  | threw (text : Option JsString)
  | returned (value : JsValue Num)

/-- What decides the course of an evaluation beside the calls that the script makes. -/
structure Evaluation (Num : Type) where
  completion : Completion Num
  /-- The JSON text can be converted to a C string. -/
  converts : Bool
  /-- There is memory for the copy that is returned. -/
  enough : Bool

/-- `qjs_eval`: the pointers that are returned and written to `*err_msg`. -/
def qjsEval (fmt : JsNumberFormat Num) (e : Evaluation Num) (script conversion : Native Unit)
    (code filename errMsg : Nat) : Native (Option TextPtr × Option TextPtr) := do
  use .block errMsg
  use .block code
  use .block filename
  script
  match e.completion with
  | .threw text =>
    let err ← acquire .value
    conversion
    let cstr ← jsToCString text
    match cstr with
    | some cstr =>
      let msg ← strdup e.enough cstr
      use .block errMsg
      release .cString cstr.address
      release .value err
      return (none, msg)
    | none =>
      release .value err
      return (none, none)
  | .returned value =>
    let val ← acquire .value
    conversion
    match jsonStringify fmt value with
    | none =>
      release .value val
      let msg ← strdupLiteral e.enough "failed to serialize result to JSON"
      use .block errMsg
      return (none, msg)
    | some jsonVal =>
      let json ← acquire .value
      release .value val
      let cstr ← jsToCString (if e.converts then JsString.ofText jsonVal.toCString else none)
      release .value json
      match cstr with
      | none =>
        let msg ← strdupLiteral e.enough "failed to convert JSON to string"
        use .block errMsg
        return (none, msg)
      | some cstr =>
        let result ← strdup e.enough cstr
        release .cString cstr.address
        return (result, none)

/-- What `qjs_dispatch` hands back to the engine. -/
inductive Returned where
  | exception
  | undefined
  | value (v : Nat)

/-- The arguments, one reference for each, as the elements of a new array. -/
def setElements : List (JsValue Num) → Native Unit
  | [] => return ()
  | _ :: args => do
      let element ← acquire .value
      -- `JS_SetPropertyUint32` takes the reference over
      release .value element
      setElements args

/-- The value that the arguments are marshalled to, and a reference to it. -/
def marshalled (fmt : JsNumberFormat Num) (args : List (JsValue Num))
    (conversion : Native Unit) : Native (Option (JsonVal × Nat)) :=
  match args with
  | [] => do
      let v ← acquire .value
      return some (.object, v)
  | [arg] => do
      conversion
      match jsonStringify fmt arg with
      | none => return none
      | some json =>
        let v ← acquire .value
        return some (json, v)
  | args => do
      let arr ← acquire .value
      setElements args
      conversion
      match jsonStringify fmt (.array args) with
      | none =>
        release .value arr
        return none
      | some json =>
        let v ← acquire .value
        release .value arr
        return some (json, v)

/-- The closure that `registerHostFunction` makes of a callback: its answer is copied to a block
that the bridge frees. Whatever the callback throws is caught. -/
def hostClosure (callback : Native Unit) (answer : Option Text) (argsPtr : TextPtr) :
    Native (Option (Nat × Text)) := do
  use .cString argsPtr.address
  match toDartString (toCString argsPtr.text) with
  | none => return none
  | some _ =>
    callback
    match answer with
    | none => return none
    | some text =>
      let block ← acquire .block
      return some (block, text)

/-- `qjs_dispatch`; `known` is the outcome of the index check. -/
def qjsDispatch (fmt : JsNumberFormat Num) (known : Bool) (args : List (JsValue Num))
    (conversion : Native Unit) (converts : Bool) (callback : Native Unit)
    (answer : Option Text) : Native Returned := do
  if known = false then
    return .exception
  else
    let jsonVal ← marshalled fmt args conversion
    match jsonVal with
    | none => return .exception
    | some (json, v) =>
      let argsJson ← jsToCString (if converts then JsString.ofText json.toCString else none)
      release .value v
      match argsJson with
      | none => return .exception
      | some argsJson =>
        let resultJson ← hostClosure callback answer argsJson
        release .cString argsJson.address
        match resultJson with
        | none => return .undefined
        | some (block, text) =>
          use .block block
          match hostResult fmt (some text) with
          | .error _ =>
            release .block block
            return .exception
          | .ok _ =>
            let result ← acquire .value
            release .block block
            return .value result

/-- What the engine says of a typed array: its place in the buffer, the size of the buffer, and
whether the buffer has memory. -/
structure TypedArray where
  offset : BitVec 64
  length : BitVec 64
  absize : BitVec 64
  backed : Bool

/-- The range check of `qjs_bytes_dispatch`, on numbers of `size_t`. -/
def TypedArray.outOfBounds (array : TypedArray) : Bool :=
  array.absize < array.offset || array.absize - array.offset < array.length

/-- The closure that `registerHostBytesFn` makes of a callback. -/
def bytesClosure (callback : Native Unit) (namePtr : TextPtr) : Native Unit := do
  use .cString namePtr.address
  match toDartString (toCString namePtr.text) with
  | none => return ()
  | some _ => callback

/-- `qjs_bytes_dispatch`. Without a name the first argument is no string, and without an array
the second is no typed array. -/
def qjsBytesDispatch (known : Bool) (name : Option JsString) (array : Option TypedArray)
    (converts : Bool) (callback : Native Unit) : Native Returned :=
  if known = false then return .exception
  else
    match name, array with
    | none, _ => return .exception
    | some _, none => return .exception
    | some name, some array => do
        let buf ← acquire .value
        release .value buf
        if array.backed = false then return .exception
        else if array.outOfBounds then return .exception
        else
          let namePtr ← jsToCString (if converts then some name else none)
          match namePtr with
          | none => return .exception
          | some namePtr =>
            bytesClosure callback namePtr
            release .cString namePtr.address
            return .undefined

/-- The report of a job that threw, in `qjs_execute_pending_jobs`. -/
def reportJobError (conversion : Native Unit) (text : Option JsString) : Native Unit := do
  let err ← acquire .value
  conversion
  let msg ← jsToCString text
  match msg with
  | some msg =>
    use .cString msg.address
    release .cString msg.address
    release .value err
    return ()
  | none =>
    release .value err
    return ()

/-- Setting a property of the global object, which takes the reference over and may run a
setter. -/
def setGlobalProperty (setter : Native Unit) (v : Nat) : Native Unit := do
  let globalObject ← acquire .value
  setter
  release .value v
  release .value globalObject
  return ()

/-- What `qjs_register_host_fn` and `qjs_register_bytes_fn` do with memory; `created` says
whether the function object could be made. -/
def qjsRegister (room created : Bool) (setter : Native Unit) (name : Nat) :
    Native Unit := do
  if room = false then return ()
  else
    use .block name
    if created = false then return ()
    else
      let fn ← acquire .value
      setGlobalProperty setter fn
      use .block name
      return ()

/-- `qjs_register_host_fn` -/
def qjsRegisterHostFn := qjsRegister

/-- `qjs_register_bytes_fn` -/
def qjsRegisterBytesFn := qjsRegister

/-- `qjs_set_global_json` -/
def qjsSetGlobalJson (fmt : JsNumberFormat Num) (text : Text) (setter : Native Unit)
    (name json : Nat) : Native Unit := do
  use .block json
  match Json.decode (tokens fmt) (ofNativeUtf8 (toNativeUtf8 text)) with
  | none => return ()
  | some _ =>
    let v ← acquire .value
    use .block name
    setGlobalProperty setter v

/-! ## The bindings -/

/-- What `QuickjsFfi.eval` does with the pointer to the result. -/
def takeResult : Option TextPtr → Native Answer
  | none => return .ok none
  | some ptr => do
      use .block ptr.address
      match toDartString (toCString ptr.text) with
      | none => return .error .malformed
      | some result =>
        release .block ptr.address
        return .ok (if result = units "undefined" then none else some result)

/-- `QuickjsFfi.eval`. An exception of `toDartString` leaves the function at once. -/
def ffiEval (fmt : JsNumberFormat Num) (e : Evaluation Num) (script conversion : Native Unit) :
    Native Answer := do
  let codePtr ← acquire .block
  let filenamePtr ← acquire .block
  let errPtr ← acquire .block
  use .block errPtr
  let (resultPtr, errValue) ← qjsEval fmt e script conversion codePtr filenamePtr errPtr
  release .block codePtr
  release .block filenamePtr
  use .block errPtr
  match errValue with
  | some ptr =>
    use .block ptr.address
    match toDartString (toCString ptr.text) with
    | none => return .error .malformed
    | some _ =>
      release .block ptr.address
      release .block errPtr
      takeResult resultPtr
  | none =>
    release .block errPtr
    takeResult resultPtr

/-- `QuickjsFfi.registerHostFn` -/
def ffiRegisterHostFn (room created : Bool) (setter : Native Unit) : Native Unit := do
  let namePtr ← acquire .block
  qjsRegisterHostFn room created setter namePtr
  release .block namePtr
  return ()

/-- `QuickjsFfi.registerBytesFn` -/
def ffiRegisterBytesFn (hasBytesFn room created : Bool) (setter : Native Unit) :
    Native Unit :=
  if hasBytesFn = false then return ()
  else do
    let namePtr ← acquire .block
    qjsRegisterBytesFn room created setter namePtr
    release .block namePtr
    return ()

/-- `QuickjsFfi.setGlobalJson` -/
def ffiSetGlobalJson (fmt : JsNumberFormat Num) (json : Text) (setter : Native Unit) :
    Native Unit := do
  let namePtr ← acquire .block
  let jsonPtr ← acquire .block
  qjsSetGlobalJson fmt json setter namePtr jsonPtr
  release .block namePtr
  release .block jsonPtr
  return ()

/-! ## Calls within calls -/

mutual

/-- A call of a host function by a script. -/
inductive HostCall (Num : Type) where
  | json (known : Bool) (args : List (JsValue Num)) (conversion : List (HostCall Num))
      (converts : Bool) (callback : List (FfiCall Num)) (answer : Option Text)
  | bytes (known : Bool) (name : Option JsString) (array : Option TypedArray) (converts : Bool)
      (callback : List (FfiCall Num))

/-- A promise reaction; `some` says that it throws. -/
inductive PendingJob (Num : Type) where
  | mk (script : List (HostCall Num)) (error : Option (Option JsString))
      (conversion : List (HostCall Num))

/-- A call of the bindings by Dart code. -/
inductive FfiCall (Num : Type) where
  | eval (e : Evaluation Num) (script conversion : List (HostCall Num))
  | registerHostFn (room created : Bool) (setter : List (HostCall Num))
  | registerBytesFn (hasBytesFn room created : Bool) (setter : List (HostCall Num))
  | setGlobalJson (json : Text) (setter : List (HostCall Num))
  | executePendingJobs (jobs : List (PendingJob Num))

end

/-- The engine drops what a host function returned. -/
def dropReturned : Returned → Native Unit
  | .exception | .undefined => return ()
  | .value v => do
      release .value v
      return ()

mutual

def HostCall.run (fmt : JsNumberFormat Num) : HostCall Num → Native Unit
  | .json known args conversion converts callback answer => do
      let returned ← qjsDispatch fmt known args (runScript fmt conversion) converts
        (runDart fmt callback) answer
      dropReturned returned
  | .bytes known name array converts callback => do
      let returned ← qjsBytesDispatch known name array converts (runDart fmt callback)
      dropReturned returned

/-- The host calls of a script. -/
def runScript (fmt : JsNumberFormat Num) : List (HostCall Num) → Native Unit
  | [] => return ()
  | call :: calls => do
      call.run fmt
      runScript fmt calls

/-- `qjs_execute_pending_jobs`: the jobs after one that throws stay in the queue. -/
def runJobs (fmt : JsNumberFormat Num) : List (PendingJob Num) → Native Unit
  | [] => return ()
  | .mk script error conversion :: jobs => do
      runScript fmt script
      match error with
      | some text => reportJobError (runScript fmt conversion) text
      | none => runJobs fmt jobs

def FfiCall.run (fmt : JsNumberFormat Num) : FfiCall Num → Native Unit
  | .eval e script conversion => do
      let answer ← ffiEval fmt e (runScript fmt script) (runScript fmt conversion)
      report answer
      return ()
  | .registerHostFn room created setter => ffiRegisterHostFn room created (runScript fmt setter)
  | .registerBytesFn hasBytesFn room created setter =>
    ffiRegisterBytesFn hasBytesFn room created (runScript fmt setter)
  | .setGlobalJson json setter => ffiSetGlobalJson fmt json (runScript fmt setter)
  | .executePendingJobs jobs => runJobs fmt jobs

/-- The calls that Dart code makes, one after another. -/
def runDart (fmt : JsNumberFormat Num) : List (FfiCall Num) → Native Unit
  | [] => return ()
  | call :: calls => do
      call.run fmt
      runDart fmt calls

end

end Bridge.Memory
