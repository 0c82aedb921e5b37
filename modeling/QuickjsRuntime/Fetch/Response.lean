import QuickjsRuntime.Bridge.Stringify
import QuickjsRuntime.Codec.Fallbacks
import QuickjsRuntime.Fetch.Headers
import QuickjsRuntime.Foundation.Json
import QuickjsRuntime.Foundation.Transition

/-!
# Reading the body of a response

`Response` of `lib/src/node_compat_fetch.dart`. All four accessors take the body first, which
marks it as used, and convert it afterwards. For bytes they call the host, whose answer is a
plain array; `arrayBuffer` then uses what only a typed array has.
-/

namespace Fetch

open Utf16 (Text units)

/-! ## Model -/

/-- `JSON.parse`, which may accept more than JSON but reads every JSON text. -/
structure JsonParser (N : Type) (fmt : Json.NumberFormat N) where
  parse : Text → Option (Json N)
  reads : ∀ text value, Json.decode fmt text = some value → parse text = some value

/-- A parser that accepts JSON and nothing else. -/
def JsonParser.strict {N : Type} (fmt : Json.NumberFormat N) : JsonParser N fmt :=
  ⟨Json.decode fmt, fun _ _ h => h⟩

/-- The values that the helpers of the accessors return. -/
inductive EncodedBytes where
  | plain (elements : List Nat)
  | typed (buffer : List UInt8) (byteOffset byteLength : Nat)
deriving DecidableEq, Repr

/-- The global `__ncUtf8Encode`, if it is a function, and `TextEncoder`. -/
structure Encoders where
  ncUtf8Encode : Option (Text → List Nat)
  textEncoder : Text → List UInt8

/-- What the transport answers. Of the fields only the headers must be there. -/
structure Reply where
  status : Option Int
  statusText : Option Text
  url : Option Text
  headers : List (Text × Text)
  body : Option Text

structure Response where
  status : Int
  statusText : Text
  url : Text
  headers : HeaderMap
  body : Text
  bodyUsed : Bool

inductive BodyCall where
  | text
  | json
  | arrayBuffer
  | bytes
deriving DecidableEq, Repr

inductive BodyValue (N : Type) where
  | text (value : Text)
  | json (value : Json N)
  | arrayBuffer (bytes : List UInt8)
  | uint8Array (bytes : List UInt8)

def bodyUnusable : JsError :=
  .typeError "Body is unusable: Body has already been read"

/-- `bytes.buffer.slice(bytes.byteOffset, bytes.byteOffset + bytes.byteLength)` -/
def EncodedBytes.slice : EncodedBytes → Except JsError (List UInt8)
  | .plain _ => .error (.typeError "cannot read property 'slice' of undefined")
  | .typed buffer byteOffset byteLength => .ok ((buffer.drop byteOffset).take byteLength)

namespace Response

variable {N : Type} {fmt : Json.NumberFormat N}

/-- The constructor. -/
def new (fold : CaseFolding) (res : Reply) : Except JsError Response := do
  return {
    status := (res.status.getD 0).bmod (2 ^ 32)
    statusText := res.statusText.getD []
    url := res.url.getD []
    headers := ← Headers.construct fold res.headers
    body := res.body.getD []
    bodyUsed := false }

def takeBody (r : Response) : Except JsError Text × Response :=
  if r.bodyUsed then (.error bodyUnusable, r)
  else (.ok r.body, { r with bodyUsed := true })

/-- The bytes as `arrayBuffer` gets them. -/
def encoded (enc : Encoders) (body : Text) : EncodedBytes :=
  match enc.ncUtf8Encode with
  | some encode => .plain (encode body)
  | none => .typed (enc.textEncoder body) 0 (enc.textEncoder body).length

/-- What an accessor makes of the body it has taken. -/
def convert (parser : JsonParser N fmt) (enc : Encoders) (body : Text) :
    BodyCall → Except JsError (BodyValue N)
  | .text => .ok (.text body)
  | .json =>
    match parser.parse body with
    | some value => .ok (.json value)
    | none => .error .syntaxError
  | .arrayBuffer => (encoded enc body).slice.map .arrayBuffer
  | .bytes =>
    match enc.ncUtf8Encode with
    | some encode => .ok (.uint8Array ((encode body).map UInt8.ofNat))
    | none => .ok (.uint8Array (enc.textEncoder body))

def call (parser : JsonParser N fmt) (enc : Encoders) (r : Response) (c : BodyCall) :
    Except JsError (BodyValue N) × Response :=
  match r.takeBody with
  | (.ok body, r) => (convert parser enc body c, r)
  | (.error e, r) => (.error e, r)

/-- A call with the response it leaves. -/
def observe (parser : JsonParser N fmt) (enc : Encoders) (r : Response) (c : BodyCall) :
    (Except JsError (BodyValue N) × Response) × Response :=
  (r.call parser enc c, (r.call parser enc c).2)

/-! ## What reading should do -/

/-- The body in the representation of the call. -/
def Presents (parser : JsonParser N fmt) (body : Text) (result : Except JsError (BodyValue N)) :
    BodyCall → Prop
  | .text => result = .ok (.text body)
  | .bytes => result = .ok (.uint8Array (Codec.Fallback.utf8Bytes body))
  | .arrayBuffer => result = .ok (.arrayBuffer (Codec.Fallback.utf8Bytes body))
  | .json =>
    (∃ value, parser.parse body = some value ∧ result = .ok (.json value)) ∨
      parser.parse body = none ∧ Json.decode fmt body = none ∧ result = .error .syntaxError

/-- The first call gives the body and marks it as used, and every later call is refused and
changes nothing. -/
def ReadOnce (parser : JsonParser N fmt) (enc : Encoders) (r : Response) :
    List BodyCall → Prop
  | [] => True
  | first :: later =>
    Presents parser r.body (r.call parser enc first).1 first ∧
    (r.call parser enc first).2 = { r with bodyUsed := true } ∧
    ∀ observed ∈ (Transition.answers (observe parser enc) { r with bodyUsed := true } later).1,
      observed = (.error bodyUnusable, { r with bodyUsed := true })

/-! ## Calls -/

variable {parser : JsonParser N fmt} {enc : Encoders} {r : Response}

theorem call_unread (hr : r.bodyUsed = false) (c : BodyCall) :
    r.call parser enc c = (convert parser enc r.body c, { r with bodyUsed := true }) := by
  rw [call, takeBody, hr, if_neg Bool.false_ne_true]

theorem call_read (hr : r.bodyUsed = true) (c : BodyCall) :
    r.call parser enc c = (.error bodyUnusable, r) := by
  rw [call, takeBody, hr, if_pos rfl]

/-- Once the body is used, all calls are refused. -/
theorem answers_read (hr : r.bodyUsed = true) (calls : List BodyCall) :
    ∀ observed ∈ (Transition.answers (observe parser enc) r calls).1,
      observed = (.error bodyUnusable, r) := by
  induction calls with
  | nil => exact fun _ => nofun
  | cons c calls ih =>
    have hobserve : observe parser enc r c = ((.error bodyUnusable, r), r) := by
      rw [observe, call_read hr]
    rw [Transition.answers, hobserve, List.forall_mem_cons]
    exact ⟨rfl, ih⟩

/-- The host function of the default configuration. -/
def installed (textEncoder : Text → List UInt8) : Encoders :=
  ⟨some Codec.Fallback.hooks.utf8Encode, textEncoder⟩

theorem uint8Array_utf8Encode (body : Text) :
    (Codec.Fallback.hooks.utf8Encode body).map UInt8.ofNat = Codec.Fallback.utf8Bytes body := by
  have hmask := Codec.map_masked_byte (Codec.Fallback.utf8Bytes body)
  rw [List.map_map] at hmask
  exact (congrArg (List.map UInt8.ofNat) hmask).trans (Codec.map_ofNat_toNat _)

/-- A body that `JSON.parse` refuses is not JSON. -/
theorem decode_eq_none {body : Text} (h : parser.parse body = none) :
    Json.decode fmt body = none := by
  cases hdecode : Json.decode fmt body with
  | none => rfl
  | some value =>
    rw [parser.reads body value hdecode] at h
    cases h

theorem presents_convert_iff (parser : JsonParser N fmt) (textEncoder : Text → List UInt8)
    (body : Text) (c : BodyCall) :
    Presents parser body (convert parser (installed textEncoder) body c) c ↔ c ≠ .arrayBuffer := by
  cases c with
  | text => exact iff_of_true rfl nofun
  | json =>
    refine iff_of_true ?_ nofun
    rw [Presents, convert]
    cases hparse : parser.parse body with
    | some value => exact .inl ⟨value, rfl, rfl⟩
    | none => exact .inr ⟨rfl, decode_eq_none hparse, rfl⟩
  | arrayBuffer => exact iff_of_false nofun (not_not.mpr rfl)
  | bytes =>
    refine iff_of_true ?_ nofun
    rw [Presents, convert, installed]
    exact congrArg (fun bytes => Except.ok (BodyValue.uint8Array bytes))
      (uint8Array_utf8Encode body)

theorem readOnce_cons_iff (textEncoder : Text → List UInt8) (hr : r.bodyUsed = false)
    (first : BodyCall) (later : List BodyCall) :
    ReadOnce parser (installed textEncoder) r (first :: later) ↔ first ≠ .arrayBuffer := by
  rw [ReadOnce, call_unread hr, presents_convert_iff]
  exact and_iff_left ⟨rfl, answers_read rfl later⟩

/-- A body that has not been read is read as it should be by a sequence of calls exactly if the
first of them is not `arrayBuffer`. -/
theorem readOnce_iff (parser : JsonParser N fmt) (textEncoder : Text → List UInt8) (r : Response)
    (calls : List BodyCall) :
    ReadOnce parser (installed textEncoder) { r with bodyUsed := false } calls ↔
      calls.head? ≠ some .arrayBuffer := by
  cases calls with
  | nil => exact iff_of_true trivial nofun
  | cons first later =>
    have hfirst : (first :: later).head? ≠ some .arrayBuffer ↔ first ≠ .arrayBuffer :=
      (Option.some_inj).not
    rw [hfirst]
    exact readOnce_cons_iff textEncoder rfl first later

/-- A new response has its body unread. -/
theorem new_unread {fold : CaseFolding} {res : Reply} (h : new fold res = .ok r) :
    r = { r with bodyUsed := false } ∧ r.body = res.body.getD [] := by
  unfold new at h
  cases hheaders : Headers.construct fold res.headers with
  | error e =>
    rw [hheaders] at h
    cases h
  | ok headers =>
    rw [hheaders] at h
    cases h
    exact ⟨rfl, rfl⟩

/-- The body `a`, unread. -/
def letterResponse : Response :=
  { status := 200, statusText := [], url := [], headers := .fresh, body := units "a",
    bodyUsed := false }

/-- `arrayBuffer` of the body `a` throws, and the body is used up. -/
theorem arrayBuffer_throws :
    letterResponse.call (.strict (Bridge.tokens Bridge.decimalFormat)) (installed fun _ => [])
        .arrayBuffer =
      (.error (.typeError "cannot read property 'slice' of undefined"),
        { letterResponse with bodyUsed := true }) ∧
      ¬ReadOnce (.strict (Bridge.tokens Bridge.decimalFormat)) (installed fun _ => [])
        letterResponse [.arrayBuffer] := by
  refine ⟨rfl, ?_⟩
  rw [readOnce_cons_iff _ rfl]
  exact not_not.mpr rfl

end Response

end Fetch
