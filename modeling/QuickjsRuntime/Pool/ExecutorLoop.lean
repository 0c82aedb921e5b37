import QuickjsRuntime.Foundation.Json
import QuickjsRuntime.Pool.State

/-! # The loop of an executor-only worker

`_executorLoop` of `async_engine_pool.dart`, from the messages in the inbox to the texts
in the mailbox, with `jsonEncode` and the reading of an envelope on the main side. An
executor returns any map or throws; only the call of the executor is inside the `try`, so
that the encoding and the put end the loop when they throw.

The texts of the mailbox are lists of UTF-16 code units: `jsonEncode` escapes lone
surrogates, so that the way through UTF-8 gives the same text back.
-/

namespace Pool.Executor

open Utf16 (Text units)

/-- The finite numbers of Dart, with their JSON texts and which of them are integers. -/
structure Numbers (Num : Type) where
  fmt : Json.NumberFormat Num
  exact : ∀ n, fmt.Exact n
  ofNat : Nat → Num
  asInt : Num → Option Int
  asInt_ofNat : ∀ n : Nat, asInt (ofNat n) = some (n : Int)

/-- A value as `jsonEncode` sees it. -/
inductive DartValue (Num : Type) where
  | null
  | bool (value : Bool)
  | number (value : Num)
  | string (value : Text)
  | list (elements : List (DartValue Num))
  | map (entries : List (Text × DartValue Num))
  /-- Any other object, by what its `toJson` returns. -/
  | object (toJson : DartValue Num)
  /-- A value that is rejected: an object without a `toJson` or with one that throws, a
  number that is not finite, a map with a key that is no string, a value inside itself. -/
  | unsupported

variable {Num : Type}

/-- What `toJson` returned is written as it is, without a second `toJson`. -/
def DartValue.isObject : DartValue Num → Bool
  | .object _ => true
  | _ => false

mutual

/-- The value `jsonEncode` writes; `none` when it throws. -/
def encode : DartValue Num → Option (Json Num)
  | .null => some .null
  | .bool b => some (.bool b)
  | .number n => some (.number n)
  | .string s => some (.string s)
  | .list xs => (encodeElements xs).map .array
  | .map entries => (encodeEntries entries).map .object
  | .object toJson => if toJson.isObject then none else encode toJson
  | .unsupported => none

def encodeElements : List (DartValue Num) → Option (List (Json Num))
  | [] => some []
  | x :: xs => do
      let x ← encode x
      let xs ← encodeElements xs
      return x :: xs

def encodeEntries : List (Text × DartValue Num) → Option (List (Text × Json Num))
  | [] => some []
  | (key, x) :: entries => do
      let x ← encode x
      let entries ← encodeEntries entries
      return (key, x) :: entries

end

/-! ## Envelopes -/

/-- `AsyncJobEnvelope`, with the job id and the texts as JSON gives them. -/
structure Envelope where
  jobId : Int
  ok : Bool
  resultJson : Option Text
  error : Option Text
deriving DecidableEq, Repr

/-- `json[key]` of a decoded object, of whose equal keys the last one counts. -/
def field (members : List (Text × Json Num)) (key : String) : Option (Json Num) :=
  members.reverse.lookup (units key)

/-- The cast `as String?`. -/
def asText : Option (Json Num) → Option (Option Text)
  | none => some none
  | some .null => some none
  | some (.string s) => some (some s)
  | some _ => none

/-- `AsyncJobEnvelope.fromJson`; `none` when a cast throws. -/
def fromJson (nums : Numbers Num) : Json Num → Option Envelope
  | .object members =>
    match field members "jobId", field members "ok" with
    | some (.number n), some (.bool ok) => do
        let jobId ← nums.asInt n
        let resultJson ← asText (field members "resultJson")
        let error ← asText (field members "error")
        return { jobId, ok, resultJson, error }
    | _, _ => none
  | _ => none

/-- What the main side makes of a message. -/
def decodeEnvelope (nums : Numbers Num) (message : Text) : Option Envelope :=
  (Json.decode nums.fmt message).bind (fromJson nums)

/-- `toJson` of the envelope for an executor that threw. -/
def errorEntries (nums : Numbers Num) (jobId : Nat) (error : Text) :
    List (Text × DartValue Num) :=
  [(units "jobId", .number (nums.ofNat jobId)), (units "ok", .bool false),
    (units "resultJson", .null), (units "error", .string error)]

/-! ## The loop -/

/-- What a call of the executor comes to. For an exception, what its `toString` returns,
and `none` when that throws in turn. -/
inductive Outcome (Num : Type) where
  | returned (entries : List (Text × DartValue Num))
  | threw (text : Option Text)

/-- A message of the inbox, and whether the mailbox still holds an earlier message when the
answer to this one is put. -/
structure Arrival where
  message : Inbound
  boxFull : Bool
deriving DecidableEq, Repr

inductive Ending where
  /-- The inbox is empty and the loop waits for the next message. -/
  | listening
  | shutdown
  /-- An exception ended the loop, and with it the isolate. -/
  | threw
deriving DecidableEq, Repr

structure LoopRun where
  puts : List Text
  ending : Ending
deriving DecidableEq, Repr

def toRequest (workerId : Nat) (message : JobMessage) : AsyncJobRequest where
  jobId := message.jobId
  workerId := workerId
  fnSource := message.fnSource
  argsJson := message.argsJson
  context := message.context

/-- The map that is encoded as the answer; `none` when the handler throws. -/
def answerEntries (nums : Numbers Num) (jobId : Nat) :
    Outcome Num → Option (List (Text × DartValue Num))
  | .returned entries => some entries
  | .threw text => text.map (errorEntries nums jobId)

variable {σ : Type}

/-- `_executorLoop`. The executor may keep a state of its own. -/
def executorLoop (nums : Numbers Num) (workerId : Nat)
    (executor : σ → AsyncJobRequest → Outcome Num × σ) : σ → List Arrival → LoopRun
  | _, [] => ⟨[], .listening⟩
  | state, arrival :: rest =>
    match arrival.message with
    | .shutdown => ⟨[], .shutdown⟩
    | .job message =>
      let request := toRequest workerId message
      let (outcome, state) := executor state request
      match (answerEntries nums request.jobId outcome).bind encodeEntries with
      -- `jsonEncode` and the put stand after the `try`: what they throw ends the loop
      | none => ⟨[], .threw⟩
      | some members =>
        if arrival.boxFull then ⟨[], .threw⟩
        else
          let run := executorLoop nums workerId executor state rest
          ⟨(Json.object members).render nums.fmt :: run.puts, run.ending⟩

/-! ## What the loop is for -/

/-- The requests before a shutdown message. -/
def requests (workerId : Nat) : List Arrival → List AsyncJobRequest
  | [] => []
  | arrival :: rest =>
    match arrival.message with
    | .shutdown => []
    | .job message => toRequest workerId message :: requests workerId rest

/-- One message for each request, in the order of the requests, that the main side reads as
an envelope of that request. -/
def AnswersAll (nums : Numbers Num) (workerId : Nat) (arrivals : List Arrival)
    (run : LoopRun) : Prop :=
  List.Forall₂
    (fun message request => ∃ e, decodeEnvelope nums message = some e ∧ e.jobId = request.jobId)
    run.puts (requests workerId arrivals)

/-- What an executor has to do with a request: throw something that has a text, or return a
map that can be encoded, with this job id, a boolean `ok`, and texts or nulls for the other
two fields of an envelope. -/
def Outcome.Proper (nums : Numbers Num) (jobId : Nat) : Outcome Num → Prop
  | .threw text => text.isSome
  | .returned entries =>
    ∃ members, encodeEntries entries = some members ∧
      (∃ n, field members "jobId" = some (.number n) ∧ nums.asInt n = some (jobId : Int)) ∧
      (∃ ok, field members "ok" = some (.bool ok)) ∧
      (asText (field members "resultJson")).isSome ∧ (asText (field members "error")).isSome

/-- The executor does so with every request before a shutdown, and every answer finds the
mailbox empty. -/
def AllProper (nums : Numbers Num) (workerId : Nat)
    (executor : σ → AsyncJobRequest → Outcome Num × σ) : σ → List Arrival → Prop
  | _, [] => True
  | state, arrival :: rest =>
    match arrival.message with
    | .shutdown => True
    | .job message =>
      (executor state (toRequest workerId message)).1.Proper nums message.jobId ∧
        arrival.boxFull = false ∧
        AllProper nums workerId executor (executor state (toRequest workerId message)).2 rest

/-! ## One answer -/

section Proofs

variable {nums : Numbers Num} {jobId : Nat}

theorem decodeEnvelope_render (members : List (Text × Json Num)) :
    decodeEnvelope nums ((Json.object members).render nums.fmt) =
      fromJson nums (.object members) := by
  rw [decodeEnvelope, Json.decode_render_of_exact nums.exact, Option.bind_some]

/-- The fields that make an object an envelope of the job. -/
theorem fromJson_object_iff (members : List (Text × Json Num)) :
    (∃ e, fromJson nums (.object members) = some e ∧ e.jobId = jobId) ↔
      (∃ n, field members "jobId" = some (.number n) ∧ nums.asInt n = some (jobId : Int)) ∧
        (∃ ok, field members "ok" = some (.bool ok)) ∧
        (asText (field members "resultJson")).isSome ∧
        (asText (field members "error")).isSome := by
  constructor
  · rintro ⟨e, he, hid⟩
    rw [fromJson] at he
    split at he
    · next n ok hn hok =>
        obtain ⟨id, hasInt, he⟩ := Option.bind_eq_some_iff.mp he
        obtain ⟨resultJson, hresult, he⟩ := Option.bind_eq_some_iff.mp he
        obtain ⟨error, herror, he⟩ := Option.bind_eq_some_iff.mp he
        cases he
        exact ⟨⟨n, hn, hasInt.trans (congrArg some hid)⟩, ⟨ok, hok⟩, by simp [hresult],
          by simp [herror]⟩
    · cases he
  · rintro ⟨⟨n, hn, hasInt⟩, ⟨ok, hok⟩, hresult, herror⟩
    obtain ⟨resultJson, hresult⟩ := Option.isSome_iff_exists.mp hresult
    obtain ⟨error, herror⟩ := Option.isSome_iff_exists.mp herror
    refine ⟨{ jobId, ok, resultJson, error }, ?_, rfl⟩
    simp [fromJson, hn, hok, hasInt, hresult, herror]

/-- The answer for an executor that threw. -/
theorem encodeEntries_errorEntries (error : Text) :
    encodeEntries (errorEntries nums jobId error) =
      some [(units "jobId", .number (nums.ofNat jobId)), (units "ok", .bool false),
        (units "resultJson", .null), (units "error", .string error)] := by
  simp [errorEntries, encodeEntries, encode]

theorem proper_iff (nums : Numbers Num) (jobId : Nat) (outcome : Outcome Num) :
    (∃ members, (answerEntries nums jobId outcome).bind encodeEntries = some members ∧
        ∃ e, fromJson nums (.object members) = some e ∧ e.jobId = jobId) ↔
      outcome.Proper nums jobId := by
  cases outcome with
  | returned entries =>
    simp only [answerEntries, Option.bind_some, fromJson_object_iff]
    rfl
  | threw text =>
    cases text with
    | none => simp [answerEntries, Outcome.Proper]
    | some error =>
      refine iff_of_true ⟨_, encodeEntries_errorEntries error, ?_⟩ rfl
      refine (fromJson_object_iff _).mpr ⟨⟨nums.ofNat jobId, ?_, nums.asInt_ofNat jobId⟩,
        ⟨false, ?_⟩, ?_, ?_⟩
      · rfl
      · rfl
      · rfl
      · rfl

/-! ## Every answer -/

/-- The loop answers every request exactly when every outcome of the executor is proper and
every put finds the mailbox empty. -/
theorem executorLoop_answersAll_iff (nums : Numbers Num) (workerId : Nat)
    (executor : σ → AsyncJobRequest → Outcome Num × σ) (state : σ) (arrivals : List Arrival) :
    AnswersAll nums workerId arrivals (executorLoop nums workerId executor state arrivals) ↔
      AllProper nums workerId executor state arrivals := by
  -- the loop goes on only after an answer, so the messages stay aligned with the requests
  induction arrivals generalizing state with
  | nil => exact iff_of_true .nil trivial
  | cons arrival rest ih =>
    cases hmessage : arrival.message with
    | shutdown =>
      simp only [AnswersAll, executorLoop, requests, AllProper, hmessage]
      exact iff_of_true .nil trivial
    | job message =>
      have hid : (toRequest workerId message).jobId = message.jobId := rfl
      simp only [AnswersAll, executorLoop, requests, AllProper, hmessage, hid]
      rw [← proper_iff nums message.jobId (executor state (toRequest workerId message)).1]
      cases hanswer : (answerEntries nums message.jobId
          (executor state (toRequest workerId message)).1).bind encodeEntries with
      | none => exact iff_of_false (fun h => nomatch h) (by simp)
      | some members =>
        cases hfull : arrival.boxFull with
        | true => exact iff_of_false (fun h => nomatch h) (by simp)
        | false =>
          simp only [Bool.false_eq_true, if_false, List.forall₂_cons, hid,
            decodeEnvelope_render, Option.some.injEq, exists_eq_left', true_and]
          exact and_congr_right' (ih _)

end Proofs

/-! ## Runs -/

/-- Natural numbers in decimal digits. -/
def decimals : Numbers Nat where
  fmt := Json.decimalFormat
  exact := Json.decimalFormat_exact
  ofNat n := n
  asInt n := some n
  asInt_ofNat _ := rfl

def jobArrival (jobId : Nat) : Arrival where
  message := .job ⟨jobId, units "function (x) \x7b return x; \x7d", units "[1]", units "\x7b\x7d"⟩
  boxFull := false

/-- Returns a good envelope for job 0 and throws for every other job. -/
def firstOnly (state : Unit) (request : AsyncJobRequest) : Outcome Nat × Unit :=
  if request.jobId = 0 then
    (.returned [(units "jobId", .number 0), (units "ok", .bool true),
      (units "resultJson", .string (units "1"))], state)
  else (.threw (some (units "Exception")), state)

theorem executorLoop_answersAll_of_two :
    AnswersAll decimals 0 [jobArrival 0, jobArrival 1, ⟨.shutdown, false⟩, jobArrival 2]
      (executorLoop decimals 0 firstOnly () [jobArrival 0, jobArrival 1, ⟨.shutdown, false⟩,
        jobArrival 2]) := by
  refine (executorLoop_answersAll_iff _ _ _ _ _).mpr ⟨?_, rfl, ?_, rfl, trivial⟩
  · refine ⟨[(units "jobId", .number 0), (units "ok", .bool true),
      (units "resultJson", .string (units "1"))], ?_, ⟨0, rfl, rfl⟩, ⟨true, rfl⟩, rfl, rfl⟩
    simp [encodeEntries, encode]
  · rfl

/-- An executor whose result holds an object that `jsonEncode` rejects ends the loop: neither
its job nor the next one is answered. A result without a job id is put as it is and read as
no envelope. -/
theorem executorLoop_ends_on_unsupported :
    (executorLoop decimals 0 (fun state _ => (.returned [(units "jobId", .number 0),
          (units "ok", .bool true), (units "resultJson", .unsupported)], state)) ()
        [jobArrival 0, jobArrival 1] = ⟨[], .threw⟩ ∧
      (requests 0 [jobArrival 0, jobArrival 1]).length = 2) ∧
    ∃ message, (executorLoop decimals 0
        (fun state _ => (.returned [(units "ok", .bool true)], state)) () [jobArrival 0]).puts =
          [message] ∧ decodeEnvelope decimals message = none := by
  refine ⟨⟨?_, rfl⟩, (Json.object [(units "ok", .bool true)]).render decimals.fmt, ?_, ?_⟩
  · simp [executorLoop, jobArrival, answerEntries, encodeEntries, encode]
  · simp [executorLoop, jobArrival, answerEntries, encodeEntries, encode]
  · rw [decodeEnvelope_render]
    rfl

end Pool.Executor
