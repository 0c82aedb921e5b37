import Mathlib.Algebra.GroupWithZero.Nat
import QuickjsRuntime.Bridge.CString
import QuickjsRuntime.Bridge.CallbackTable

/-!
# Calling a host function

`qjs_dispatch` of `native/quickjs_bridge.c`: the index check, the arguments as one JSON
text, the callback, and its answer as a JS value. The three arities build three kinds of
value, and all of them become a text by the same conversion to a C string. The callback is the
closure that `registerHostFunction` makes: it reads the C string as a Dart text and writes its
answer as another.

The array the bridge builds for two or more arguments and the object it builds for none
are taken to have the built-in prototypes, without a `toJSON` or `toString` of a script.
-/

namespace Bridge

open Utf16 (Text units)

section Model

variable {Num Ctx Name Cb : Type}

/-- The text the arguments are marshalled to, or the text of the `TypeError`. The failure
of the conversion to a C string, for which the source has a branch of its own, cannot
happen for these values. -/
def marshalArgs (fmt : JsNumberFormat Num) (args : List (JsValue Num)) : Except String Text :=
  let jsonVal : Option JsonVal :=
    match args with
    | [] => some .object
    | [arg] => jsonStringify fmt arg
    | args => jsonStringify fmt (.array args)
  match jsonVal with
  | none => .error "failed to marshal args to JSON"
  | some value => .ok value.toCString

/-- `qjs_dispatch` up to the call: which callback is called and with what text. -/
def callbackCall (fmt : JsNumberFormat Num) (s : Process Ctx Name Cb) (magic : Int)
    (args : List (JsValue Num)) : Except String (Cb × Text) := do
  let callback ← dispatchTarget s magic
  let argsJson ← marshalArgs fmt args
  return (callback, argsJson)

/-- `qjs_dispatch` from the answer of the callback on: `undefined` for a null pointer, and
otherwise what `JS_ParseJSON` reads in the C string. -/
def hostResult (fmt : JsNumberFormat Num) :
    Option Text → Except String (Option (Json (JsNumber Num)))
  | none => .ok none
  | some resultJson =>
    match Json.decode (tokens fmt) (toJs resultJson) with
    | some result => .ok (some result)
    | none => .error "host callback returned invalid JSON"

/-- `qjs_dispatch`. Where the C string of the arguments is none that Dart reads, the exception is
caught and the callback is not invoked. -/
def qjsDispatch (fmt : JsNumberFormat Num) (s : Process Ctx Name Cb)
    (invoke : Cb → Text → Option Text) (magic : Int) (args : List (JsValue Num)) :
    Except String (Option (Json (JsNumber Num))) := do
  let (callback, argsJson) ← callbackCall fmt s magic args
  hostResult fmt ((toDart argsJson).bind (invoke callback))

/-- The JSON value the arguments stand for: an empty object for none, the value itself for
one, an array for more, in which a value that JSON leaves out is `null`. A single argument
that JSON leaves out stands for no JSON value. -/
def argsValue : List (JsValue Num) → Option (Json (JsNumber Num))
  | [] => some (.object [])
  | [arg] => if arg.isDropped then none else some arg.jsonValue
  | args => some (.array (args.map fun arg => if arg.isDropped then .null else arg.jsonValue))

end Model

section Proofs

variable {Num Ctx Name Cb : Type} {fmt : JsNumberFormat Num}

theorem treeElements_eq_map (boxed : JsNumber Num → Json (JsNumber Num))
    (xs : List (JsValue Num)) :
    treeElements boxed xs = xs.map fun x => if x.isDropped then .null else x.tree boxed := by
  induction xs with
  | nil => rw [treeElements, List.map_nil]
  | cons x xs ih =>
    rw [treeElements, List.map_cons, ih]
    congr 1
    split
    · next hdropped => exact dropped_tree hdropped boxed
    · rfl

theorem boxesFiniteElements_iff (xs : List (JsValue Num)) :
    boxesFiniteElements xs = true ↔ ∀ x ∈ xs, x.boxesFinite = true := by
  induction xs with
  | nil => simp [boxesFiniteElements]
  | cons x xs ih => simp [boxesFiniteElements, ih]

theorem jsonStringify_kept {v : JsValue Num} (hv : v.isDropped = false) :
    jsonStringify fmt v = (jsonToStr fmt v).map .string :=
  if_neg (by simp [hv])

/-- A text that starts with a letter other than those of the literal names is no JSON. -/
theorem decode_object_text :
    Json.decode (tokens fmt) (JsonVal.toCString .object) = none := by
  have helement (fuel : Nat) :
      Json.readValue (tokens fmt) fuel (units "object Object]" ++ []) = none :=
    readValue_foreign (u := 0x6F) (by decide) (fun _ => fmt.ofText_nil) fuel []
  rw [List.append_nil] at helement
  have hopen : Json.expect Json.closeBracket (units "object Object]") = none := rfl
  have htext : JsonVal.toCString .object = Json.openBracket :: units "object Object]" := rfl
  rw [Json.decode, htext, List.length_cons, Json.readValue, Json.skipSpace_cons _ (by decide)]
  simp [hopen, Json.readElements, helement, Json.openBracket, Json.quotationMark]

theorem decode_undefined_text :
    Json.decode (tokens fmt) (JsonVal.toCString .undefined) = none := by
  have hread (fuel : Nat) :
      Json.readValue (tokens fmt) fuel (units "undefined" ++ []) = none :=
    readValue_foreign (u := 0x75) (by decide) (fun _ => fmt.ofText_nil) fuel []
  rw [List.append_nil] at hread
  have htext : JsonVal.toCString .undefined = units "undefined" := rfl
  rw [Json.decode, htext, hread]
  rfl

/-- The text the serialiser returns for a value that JSON keeps. -/
theorem decode_jsonStringify {v : JsValue Num} {value : JsonVal} (hv : v.isDropped = false)
    (hvalue : jsonStringify fmt v = some value) :
    Json.decode (tokens fmt) value.toCString =
      if v.boxesFinite = true then some v.jsonValue else none := by
  rw [jsonStringify_kept hv] at hvalue
  obtain ⟨text, htext, rfl⟩ := Option.map_eq_some_iff.mp hvalue
  exact decode_jsonToStr htext hv

theorem marshalArgs_of_callbackCall {s : Process Ctx Name Cb} {magic : Int}
    {args : List (JsValue Num)} {callback : Cb} {argsJson : Text}
    (hcall : callbackCall fmt s magic args = .ok (callback, argsJson)) :
    marshalArgs fmt args = .ok argsJson := by
  unfold callbackCall at hcall
  cases htarget : dispatchTarget s magic with
  | error text =>
    rw [htarget] at hcall
    cases hcall
  | ok target =>
    rw [htarget] at hcall
    cases hargs : marshalArgs fmt args with
    | error text =>
      rw [hargs] at hcall
      cases hcall
    | ok text =>
      rw [hargs] at hcall
      cases hcall
      rfl

/-- Two or more arguments. -/
theorem decode_many {args : List (JsValue Num)} {value : JsonVal} (hlen : 2 ≤ args.length)
    (hvalue : jsonStringify fmt (.array args) = some value) :
    Json.decode (tokens fmt) value.toCString =
      if boxesFiniteElements args = true then argsValue args else none := by
  have hdecode := decode_jsonStringify (v := .array args) rfl hvalue
  have hboxes : (JsValue.array args).boxesFinite = boxesFiniteElements args := by
    rw [JsValue.boxesFinite]
  have hargs : some (JsValue.array args).jsonValue = argsValue args := by
    rw [JsValue.jsonValue, JsValue.tree, treeElements_eq_map]
    rcases args with _ | ⟨first, _ | ⟨second, rest⟩⟩
    · simp at hlen
    · simp at hlen
    · rfl
  rw [hdecode, hargs, hboxes]

/-- The text handed to a callback is JSON for what the arguments stand for exactly when
there are two or more arguments, or one that JSON does not leave out, and no `Number`
object among what is serialised holds a number that is not finite. -/
theorem handed_json_iff {s : Process Ctx Name Cb} {magic : Int} {args : List (JsValue Num)}
    {callback : Cb} {argsJson : Text}
    (hcall : callbackCall fmt s magic args = .ok (callback, argsJson)) :
    (∃ value, argsValue args = some value ∧
        Json.decode (tokens fmt) argsJson = some value) ↔
      (2 ≤ args.length ∨ ∃ arg, args = [arg] ∧ arg.isDropped = false) ∧
        ∀ arg ∈ args, arg.boxesFinite = true := by
  have hmarshal := marshalArgs_of_callbackCall hcall
  match args with
  | [] =>
    cases hmarshal
    simp [decode_object_text]
  | [arg] =>
    cases hdropped : arg.isDropped with
    | true =>
      simp [argsValue, hdropped]
    | false =>
      cases hvalue : jsonStringify fmt arg with
      | none => simp [marshalArgs, hvalue] at hmarshal
      | some value =>
        simp only [marshalArgs, hvalue, Except.ok.injEq] at hmarshal
        subst hmarshal
        rw [decode_jsonStringify hdropped hvalue]
        simp [argsValue, hdropped]
  | a :: b :: rest =>
    cases hvalue : jsonStringify fmt (.array (a :: b :: rest)) with
    | none => simp [marshalArgs, hvalue] at hmarshal
    | some value =>
      simp only [marshalArgs, hvalue, Except.ok.injEq] at hmarshal
      subst hmarshal
      have hlen : 2 ≤ (a :: b :: rest).length := by simp
      rw [decode_many hlen hvalue, ← boxesFiniteElements_iff]
      by_cases hfinite : boxesFiniteElements (a :: b :: rest) = true
      · rw [if_pos hfinite]
        simp [argsValue, hfinite]
      · rw [if_neg hfinite]
        simp [hfinite]

end Proofs

/-! ## Calls -/

/-- A process with one registered callback. -/
def oneCallback : Process Unit String Nat :=
  applyOps .start [.register (plainRegistration 7)]

/-- `hook(undefined, [3, new Number(4)])` -/
theorem handed_json_of_two_arguments :
    ∃ argsJson, callbackCall decimalFormat oneCallback 0
        [.undefined, .array [.number (.finite 3), .boxedNumber (.finite 4)]] = .ok (7, argsJson) ∧
      ∃ value, argsValue
          [.undefined, .array [.number (.finite 3), .boxedNumber (.finite 4)]] = some value ∧
        Json.decode (tokens decimalFormat) argsJson = some value := by
  obtain ⟨argsJson, hcall⟩ : ∃ argsJson, callbackCall decimalFormat oneCallback 0
      [.undefined, .array [.number (.finite 3), .boxedNumber (.finite 4)]] = .ok (7, argsJson) := by
    obtain ⟨text, htext⟩ : ∃ text, jsonToStr decimalFormat
        (.array [.undefined, .array [.number (.finite 3), .boxedNumber (.finite 4)]]) =
          some text := by
      simp [jsonToStr, elementsToStr, JsValue.isDropped]
    refine ⟨text, ?_⟩
    simp only [callbackCall, marshalArgs]
    rw [jsonStringify_kept rfl, htext]
    rfl
  refine ⟨argsJson, hcall, (handed_json_iff hcall).mpr ⟨Or.inl (by decide), ?_⟩⟩
  intro arg harg
  rcases List.mem_cons.mp harg with rfl | harg
  · rfl
  · rw [List.mem_singleton.mp harg]
    rfl

/-- `hook()`, `hook(undefined)` and `hook(new Number(NaN))` -/
theorem handed_text_not_json :
    callbackCall decimalFormat oneCallback 0 [] = .ok (7, units "[object Object]") ∧
      Json.decode (tokens decimalFormat) (units "[object Object]") = none ∧
      callbackCall decimalFormat oneCallback 0 [.undefined] = .ok (7, units "undefined") ∧
      Json.decode (tokens decimalFormat) (units "undefined") = none ∧
      callbackCall decimalFormat oneCallback 0 [.boxedNumber .nan] = .ok (7, units "NaN") ∧
      Json.decode (tokens decimalFormat) (units "NaN") = none := by
  have htext : jsonToStr decimalFormat (.boxedNumber .nan) = some (units "NaN") := by
    rw [jsonToStr]
    rfl
  have hnan := decode_jsonToStr htext rfl
  rw [JsValue.boxesFinite] at hnan
  have hcall : marshalArgs decimalFormat [.boxedNumber .nan] = .ok (units "NaN") := by
    rw [marshalArgs, jsonStringify_kept rfl, htext]
    rfl
  refine ⟨rfl, decode_object_text, rfl, decode_undefined_text, ?_, hnan⟩
  rw [callbackCall, hcall]
  rfl

end Bridge
