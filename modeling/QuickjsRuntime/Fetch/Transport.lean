import QuickjsRuntime.Bridge.Marshal
import QuickjsRuntime.Fetch.HeaderHistory
import QuickjsRuntime.Fetch.Response

/-!
# Fetching through the host

`fetch` of `lib/src/node_compat_fetch.dart`, from its arguments to the answer of the transport.
The request is one argument of the host function `__ncFetch`; behind the dispatcher of the bridge
stands the wrapper of `registerHostFunction`, and behind that the `httpFetch` of the
configuration. A null pointer is all the wrapper can answer when `httpFetch` throws.
-/

namespace Fetch

open Utf16 (Text units)
open Bridge
open PlainObject (arrayIndex)

/-! ## The request -/

/-- `toLowerCase` and `toUpperCase`. -/
structure Casing extends CaseFolding where
  upper : Text → Text

/-- The value of a property `body`. -/
inductive BodyField where
  | undefined
  | null
  | text (value : Text)
deriving DecidableEq, Repr

/-- The first argument of `fetch`: a string, a `URL`, or an object with a property `url`. Headers
are given by the pairs that they yield. -/
inductive Input where
  | text (value : Text)
  | url (href : Text)
  | request (url : Text) (method : Option Text) (headers : Option (List (Text × Text)))
      (body : BodyField)

/-- The second argument of `fetch`. -/
structure Init where
  method : Option Text := none
  headers : Option (List (Text × Text)) := none
  body : BodyField := .undefined

/-- The object that is given to `__ncFetch`. -/
structure Request where
  method : Text
  url : Text
  headers : PlainObject Text Text
  body : Option Text

/-- A text that is not empty. -/
def truthy (t : Option Text) : Option Text :=
  t.filter fun t => !t.isEmpty

/-- What an input stands for: the url, and the method, the headers and the body it brings along.
An object whose `url` is empty is converted to a string. -/
def Input.parts : Input → Text × Option Text × Option (List (Text × Text)) × BodyField
  | .text value => (value, none, none, .undefined)
  | .url href => (href, none, none, .undefined)
  | .request href method headers body =>
    if href.isEmpty then (units "[object Object]", none, none, .undefined)
    else (href, method, headers, body)

/-- `headerObj`, where the setter behind `__proto__` ignores a string. -/
def headerObject (listing : List (Text × Text)) : PlainObject Text Text :=
  listing.foldl (fun o p => if p.1 = units "__proto__" then o else o.put p.1 p.2) .empty

/-- The first half of `fetch`. -/
def prepare (casing : Casing) (input : Input) (init : Init) : Except JsError Request := do
  let (url, inputMethod, inputHeaders, inputBody) := input.parts
  let method :=
    casing.upper (((truthy init.method).or (truthy inputMethod)).getD (units "GET"))
  let headers ← Headers.headerInit casing.toCaseFolding inputHeaders init.headers
  let body := match init.body with
    | .undefined => inputBody
    | body => body
  let text := match body with
    | .text value => some value
    | _ => none
  if text.isSome && (method = units "GET" || method = units "HEAD") then
    throw (.typeError "Request with GET/HEAD method cannot have body.")
  return { method, url, headers := headerObject (← Headers.forEach headers), body := text }

section Transport

variable {Num Ctx Name : Type}

def Request.value (request : Request) : JsValue Num :=
  .object ([(units "method", .string request.method), (units "url", .string request.url),
      (units "headers",
        .object ((request.headers.ordered arrayIndex).map fun p => (p.1, .string p.2)))] ++
    (request.body.map fun body => (units "body", JsValue.string body)).toList)

/-! ## The host -/

/-- What a call of `httpFetch` comes to. -/
inductive HookResult where
  | returns (json : Option Text)
  | throws (message : Text)

/-- The callbacks of the table: the one of `__ncFetch`, and all others, by name. -/
inductive Callback where
  | httpFetch
  | other (name : Text)
deriving DecidableEq, Repr

/-- The wrapper of `registerHostFunction`: an exception becomes a null pointer. -/
def hostCallback (httpFetch : Text → HookResult) (other : Text → Text → Option Text) :
    Callback → Text → Option Text
  | .httpFetch, argsJson =>
    match httpFetch argsJson with
    | .returns json => json
    | .throws _ => none
  | .other name, argsJson => other name argsJson

/-- A process in which the magic number of `__ncFetch` leads to its callback. -/
structure FetchHost (Ctx Name : Type) where
  process : Process Ctx Name Callback
  magic : Int
  dispatches : dispatchTarget process magic = .ok .httpFetch

/-! ## The answer -/

/-- The `cause` of an error: a JS value, or an error. -/
inductive Cause (N : Type) where
  | value (value : Json N)
  | typeError (message : String)
  | syntaxError

inductive Thrown (N : Type) where
  | error (error : JsError)
  | typeError (message : String) (cause : Cause N)

/-- The argument of the constructor of `Response`, of which the url has been set. -/
structure Fetched (N : Type) where
  url : Text
  res : Json N

def fetchFailed {N : Type} (cause : Cause N) : Thrown N :=
  .typeError "fetch failed" cause

/-- `res.error`, of several properties of that name the last. -/
def errorOf {N : Type} : Json N → Option (Json N)
  | .object members => members.reverse.lookup (units "error")
  | _ => none

/-- From the test for an error on. -/
def accept {N : Type} (url : Text) (res : Json N) : Except (Thrown N) (Fetched N) :=
  match errorOf res with
  | some error => .error (fetchFailed (.value error))
  | none =>
    match res with
    | .null => .error (.error (.typeError "cannot set property 'url' of null"))
    | res => .ok ⟨url, res⟩

/-- The second half of `fetch`, given what the call of `__ncFetch` comes to. -/
def receive {N : Type} {fmt : Json.NumberFormat N} (parser : JsonParser N fmt) (url : Text) :
    Except String (Option (Json N)) → Except (Thrown N) (Fetched N)
  | .error message => .error (fetchFailed (.typeError message))
  | .ok none | .ok (some .null) => .error (fetchFailed (.value (.string (units "no response"))))
  | .ok (some (.string text)) =>
    match parser.parse text with
    | none => .error (fetchFailed .syntaxError)
    | some res => accept url res
  | .ok (some res) => accept url res

def fetch (casing : Casing) (fmt : JsNumberFormat Num)
    (parser : JsonParser (JsNumber Num) (tokens fmt)) (host : FetchHost Ctx Name)
    (httpFetch : Text → HookResult) (other : Text → Text → Option Text) (input : Input)
    (init : Init) : Except (Thrown (JsNumber Num)) (Fetched (JsNumber Num)) :=
  match prepare casing input init with
  | .error e => .error (.error e)
  | .ok request =>
    receive parser request.url
      (qjsDispatch fmt host.process (hostCallback httpFetch other) host.magic [request.value])

/-! ## What a failure should come to -/

/-- The ways in which the transport reports a network failure. -/
inductive Failure where
  | thrown (message : Text)
  | returned (message : Text)
deriving DecidableEq, Repr

def Failure.message : Failure → Text
  | .thrown message => message
  | .returned message => message

/-- An exception with the message, or a text that arrives as JSON of `{error: message}`, however
that is spelled. -/
def Failure.Reported (fmt : JsNumberFormat Num) : Failure → HookResult → Prop
  | .thrown message, result => result = .throws message
  | .returned message, result => ∃ json, result = .returns (some json) ∧
      Json.decode (tokens fmt) (toJs json) = some (.object [(units "error", .string message)])

/-- The cause is the message, or an error with it. -/
def Cause.Carries {N : Type} (message : Text) : Cause N → Prop
  | .value cause => cause = .string message
  | .typeError text => units text = message
  | .syntaxError => False

/-- A `TypeError` with the message `fetch failed` whose cause carries the message. -/
def KeepsMessage {N : Type} (outcome : Except (Thrown N) (Fetched N)) (message : Text) : Prop :=
  ∃ cause : Cause N, outcome = .error (fetchFailed cause) ∧ cause.Carries message

/-! ## The request is handed over -/

theorem propertiesToStr_strings (fmt : JsNumberFormat Num) (ps : List (Text × Text))
    (hasContent : Bool) :
    ∃ text, propertiesToStr fmt hasContent (ps.map fun p => (p.1, JsValue.string p.2)) =
      some text := by
  induction ps generalizing hasContent with
  | nil => exact ⟨[], by rw [List.map_nil, propertiesToStr]⟩
  | cons p ps ih =>
    obtain ⟨rest, hrest⟩ := ih true
    rw [List.map_cons, propertiesToStr, hrest]
    exact ⟨_, rfl⟩

/-- A request has a JSON text. -/
theorem exists_request_text (fmt : JsNumberFormat Num) (request : Request) :
    ∃ text, jsonToStr fmt request.value = some text := by
  obtain ⟨headers, hheaders⟩ :=
    propertiesToStr_strings fmt (request.headers.ordered arrayIndex) false
  obtain ⟨body, hbody⟩ : ∃ text, propertiesToStr fmt true
      (request.body.map fun body => (units "body", JsValue.string body)).toList = some text := by
    cases request.body with
    | none => exact ⟨[], by rw [Option.map_none, Option.toList_none, propertiesToStr]⟩
    | some body => exact propertiesToStr_strings fmt [(units "body", body)] true
  simp [Request.value, jsonToStr, propertiesToStr, JsValue.isDropped, hheaders, hbody]

/-- The JSON text of a request. -/
def Request.json (fmt : JsNumberFormat Num) (request : Request) : Text :=
  (jsonToStr fmt request.value).getD []

theorem marshalArgs_request (fmt : JsNumberFormat Num) (request : Request) :
    marshalArgs fmt [request.value] = .ok (request.json fmt) := by
  obtain ⟨text, htext⟩ := exists_request_text fmt request
  rw [marshalArgs, jsonStringify_kept rfl, Request.json, htext]
  rfl

theorem toDart_request (fmt : JsNumberFormat Num) (request : Request) :
    toDart (request.json fmt) = some (request.json fmt) := by
  obtain ⟨text, htext⟩ := exists_request_text fmt request
  rw [Request.json, htext, Option.getD_some, jsonToStr_eq _ text htext rfl, toDart_render]

variable {fmt : JsNumberFormat Num} {host : FetchHost Ctx Name} {httpFetch : Text → HookResult}
  {other : Text → Text → Option Text} {request : Request}

/-- The call of `__ncFetch` is the call of `httpFetch` with the text of the request. -/
theorem qjsDispatch_request :
    qjsDispatch fmt host.process (hostCallback httpFetch other) host.magic [request.value] =
      hostResult fmt (hostCallback httpFetch other .httpFetch (request.json fmt)) := by
  rw [qjsDispatch, callbackCall, host.dispatches, marshalArgs_request]
  change hostResult fmt ((toDart (request.json fmt)).bind _) = _
  rw [toDart_request, Option.bind_some]

/-- What an exception comes to: the message is not there any more. -/
theorem dispatch_thrown {message : Text} (h : httpFetch (request.json fmt) = .throws message) :
    qjsDispatch fmt host.process (hostCallback httpFetch other) host.magic [request.value] =
      .ok none := by
  rw [qjsDispatch_request, hostCallback, h]
  rfl

theorem dispatch_returned {message : Text}
    (h : (Failure.returned message).Reported fmt (httpFetch (request.json fmt))) :
    qjsDispatch fmt host.process (hostCallback httpFetch other) host.magic [request.value] =
      .ok (some (.object [(units "error", .string message)])) := by
  obtain ⟨json, hjson, hdecode⟩ := h
  rw [qjsDispatch_request, hostCallback, hjson]
  simp only [hostResult, hdecode]

/-! ## Failures -/

variable {casing : Casing} {parser : JsonParser (JsNumber Num) (tokens fmt)} {input : Input}
  {init : Init}

/-- Where `httpFetch` throws, the cause is the text `no response`. -/
theorem fetch_thrown {message : Text} (hrequest : prepare casing input init = .ok request)
    (h : httpFetch (request.json fmt) = .throws message) :
    fetch casing fmt parser host httpFetch other input init =
      .error (fetchFailed (.value (.string (units "no response")))) := by
  rw [fetch, hrequest]
  simp only [dispatch_thrown h]
  rfl

theorem fetch_returned {message : Text} (hrequest : prepare casing input init = .ok request)
    (h : (Failure.returned message).Reported fmt (httpFetch (request.json fmt))) :
    fetch casing fmt parser host httpFetch other input init =
      .error (fetchFailed (.value (.string message))) := by
  rw [fetch, hrequest]
  simp only [dispatch_returned h]
  rfl

theorem keepsMessage_value_iff {text message : Text} :
    KeepsMessage (.error (fetchFailed (.value (.string text))) :
        Except (Thrown (JsNumber Num)) (Fetched (JsNumber Num))) message ↔ text = message := by
  constructor
  · rintro ⟨cause, heq, hcarries⟩
    cases heq
    exact Json.string.inj hcarries
  · rintro rfl
    exact ⟨.value (.string text), rfl, rfl⟩

/-- For every call that reaches the transport and every way in which the transport fails, the
error keeps the message exactly if the failure is returned, or its message is the text that
stands for all exceptions. -/
theorem fetch_keepsMessage_iff (failure : Failure)
    (hrequest : prepare casing input init = .ok request)
    (hfailure : failure.Reported fmt (httpFetch (request.json fmt))) :
    KeepsMessage (fetch casing fmt parser host httpFetch other input init) failure.message ↔
      failure = .returned failure.message ∨ failure.message = units "no response" := by
  cases failure with
  | thrown message =>
    rw [fetch_thrown hrequest hfailure, keepsMessage_value_iff]
    constructor
    · intro h
      exact .inr h.symm
    · rintro (h | h)
      · cases h
      · exact h.symm
  | returned message =>
    rw [fetch_returned hrequest hfailure, keepsMessage_value_iff]
    exact iff_of_true rfl (.inl rfl)

end Transport

/-! ## A refused connection -/

/-- `toLowerCase` and `toUpperCase` of ASCII texts. -/
def asciiCasing : Casing where
  toCaseFolding := Headers.asciiFolding
  upper t := t.map fun u => if 0x61 ≤ u ∧ u ≤ 0x7A then u - 0x20 else u

/-- A table with the callback of `__ncFetch` alone. -/
def fetchHost : FetchHost Unit String where
  process := ⟨fun i => if i = 0 then some .httpFetch else none, 1, fun _ _ => none⟩
  magic := 0
  dispatches := rfl

/-- `fetch('http://a/')` -/
def plainRequest : Request := ⟨units "GET", units "http://a/", .empty, none⟩

theorem prepare_plainRequest :
    prepare asciiCasing (.text (units "http://a/")) {} = .ok plainRequest := rfl

/-- A transport that returns the message `connection refused`. -/
theorem fetch_keepsMessage_returned :
    KeepsMessage (fetch asciiCasing decimalFormat (.strict _) fetchHost
        (fun _ => .returns (some (Json.render (tokens decimalFormat)
          (.object [(units "error", .string (units "connection refused"))]))))
        (fun _ _ => none) (.text (units "http://a/")) {})
      (units "connection refused") := by
  refine (fetch_keepsMessage_iff (.returned (units "connection refused")) prepare_plainRequest
    ⟨_, rfl, ?_⟩).mpr (.inl rfl)
  rw [toJs_render, decode_tree, Json.allNumbers, Json.allMembers, Json.allMembers, Json.allNumbers]
  rfl

/-- A transport that throws it. -/
theorem fetch_loses_thrown_message :
    fetch asciiCasing decimalFormat (.strict _) fetchHost
        (fun _ => .throws (units "connection refused")) (fun _ _ => none)
        (.text (units "http://a/")) {} =
      .error (fetchFailed (.value (.string (units "no response")))) ∧
    ¬KeepsMessage (fetch asciiCasing decimalFormat (.strict _) fetchHost
        (fun _ => .throws (units "connection refused")) (fun _ _ => none)
        (.text (units "http://a/")) {}) (units "connection refused") := by
  have hfetch : fetch asciiCasing decimalFormat (.strict _) fetchHost
      (fun _ => .throws (units "connection refused")) (fun _ _ => none)
      (.text (units "http://a/")) {} =
        .error (fetchFailed (.value (.string (units "no response")))) :=
    fetch_thrown prepare_plainRequest rfl
  refine ⟨hfetch, ?_⟩
  rw [hfetch, keepsMessage_value_iff]
  decide

end Fetch
