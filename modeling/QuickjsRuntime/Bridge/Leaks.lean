import QuickjsRuntime.Bridge.NativeMemory

/-!
# What the bridge leaks

One triple for each function of `NativeMemory`, given that the scripts and callbacks it runs are
`Tidy`, and from them, by induction over the calls, that whole sessions are.

The only loss is in `QuickjsFfi.eval`: when `toDartString` throws on the error text, neither the
text nor the cell of the pointer to it is freed. It never throws on a result, because JSON texts
have no lone surrogates.
-/

namespace Bridge.Memory

open Utf16 (Text units)
open Ownership (Triple Balanced)

variable {Num : Type}

/-! ## What is lost -/

abbrev Owned := Multiset (Nat × Resource)

def refused : Answer → Bool
  | .error _ => true
  | .ok _ => false

/-- Two blocks for an evaluation that ended with an exception of Dart. -/
def loss (answer : Answer) : Multiset Resource :=
  if refused answer then {.block, .block} else 0

theorem sum_loss (answers : List Answer) :
    (answers.map loss).sum = Multiset.replicate (2 * answers.countP refused) .block := by
  induction answers with
  | nil => rfl
  | cons answer answers ih =>
    rw [List.map_cons, List.sum_cons, ih, List.countP_cons, Nat.mul_add, add_comm,
      Multiset.replicate_add, loss]
    cases refused answer <;> rfl

/-- A program that holds nothing at its end. -/
abbrev Tidy {α : Type} (p : Native α) : Prop :=
  Balanced loss p

/-- The resource behind a pointer that may be null. -/
def behind (k : Resource) : Option TextPtr → Owned
  | none => 0
  | some ptr => {(ptr.address, k)}

theorem jsToCString_spec (text : Option JsString) :
    Triple loss 0 (jsToCString text) fun ptr rest =>
      rest = behind .cString ptr ∧ ptr.map TextPtr.text = text := by
  cases text with
  | none => exact .pure ⟨rfl, rfl⟩
  | some text =>
    refine .acquire ?_
    intro address
    exact .pure ⟨by simp [behind], rfl⟩

theorem strdup_spec (enough : Bool) (cstr : TextPtr) :
    Triple loss {(cstr.address, .cString)} (strdup enough cstr) fun ptr rest =>
      rest = behind .block ptr + {(cstr.address, .cString)} ∧
        ptr.map TextPtr.text = if enough then some cstr.text else none := by
  refine .use (Multiset.mem_singleton_self _) ?_
  cases enough with
  | true =>
    refine .acquire ?_
    intro address
    exact .pure ⟨rfl, rfl⟩
  | false => exact .pure ⟨by simp [behind], rfl⟩

/-! ## Each function -/

/-- Dart can read the text. -/
def Readable (s : JsString) : Prop :=
  ∃ t, toDartString (toCString s) = some t

theorem readable_iff (s : JsString) :
    Readable s ↔ Utf16.WellFormed (s.text.takeWhile (· ≠ 0)) := by
  constructor
  · rintro ⟨t, ht⟩
    obtain ⟨cs, hcs, _⟩ := (toDartString_toCString_iff s t).mp ht
    exact ⟨cs, hcs⟩
  · rintro ⟨cs, hcs⟩
    exact ⟨_, (toDartString_toCString_iff s _).mpr ⟨cs, hcs, rfl⟩⟩

theorem readable_of_plain {s : JsString} (hs : Plain s.text) : Readable s := by
  obtain ⟨hwell, hzero⟩ := hs s.unit_lt
  rwa [readable_iff, takeWhile_ne_eq_self_iff.mpr hzero]

/-- Whatever the serialiser returns can be read by Dart. -/
theorem readable_of_jsonStringify {fmt : JsNumberFormat Num} {v : JsValue Num} {json : JsonVal}
    {s : JsString} (hjson : jsonStringify fmt v = some json)
    (hs : JsString.ofText json.toCString = some s) : Readable s := by
  refine readable_of_plain ?_
  rw [JsString.text_ofText hs]
  cases hdropped : v.isDropped with
  | true =>
    rw [jsonStringify, hdropped, if_pos rfl] at hjson
    cases hjson
    exact plain_of_lt (by decide)
  | false =>
    rw [jsonStringify_kept hdropped] at hjson
    obtain ⟨text, htext, rfl⟩ := Option.map_eq_some_iff.mp hjson
    have hrender : text = v.written.render (tokens fmt) := jsonToStr_eq v text htext hdropped
    rw [JsonVal.toCString, hrender]
    exact (tokens_plain _).1

section Specs

variable {fmt : JsNumberFormat Num}

/-- The pointer is not null and Dart cannot read the text behind it. -/
def Unreadable (ptr : Option TextPtr) : Prop :=
  ∃ text, ptr.map TextPtr.text = some text ∧ ¬ Readable text

/-- The script throws a value whose text Dart cannot read, and there is memory for the copy. -/
def Evaluation.Refused (e : Evaluation Num) : Prop :=
  e.enough = true ∧ ∃ text, e.completion = .threw (some text) ∧ ¬ Readable text

/-- What an evaluation hands to Dart: at most one of the two pointers, a result that Dart can
read, and an error text that it can read unless the evaluation is refused. -/
structure Handed (e : Evaluation Num) (result msg : Option TextPtr) : Prop where
  one : result = none ∨ msg = none
  result_readable : ¬ Unreadable result
  msg_unreadable : Unreadable msg ↔ e.Refused

theorem not_unreadable_none : ¬ Unreadable none := by
  rintro ⟨_, h, _⟩
  cases h

theorem strdupLiteral_spec (enough : Bool) {text : String}
    (hplain : ∀ u ∈ units text, 0 < u ∧ u < 0xD800) :
    Triple loss 0 (strdupLiteral enough text) fun ptr rest =>
      rest = behind .block ptr ∧ ¬ Unreadable ptr := by
  unfold strdupLiteral
  split
  next s hs =>
    have hreadable : Readable s := by
      refine readable_of_plain ?_
      rw [JsString.text_ofText hs]
      exact plain_of_lt hplain
    split
    · refine .acquire ?_
      intro address
      refine .pure ⟨by simp [behind], ?_⟩
      rintro ⟨_, ⟨⟩, hnot⟩
      exact hnot hreadable
    · exact .pure ⟨rfl, not_unreadable_none⟩
  next => exact .pure ⟨rfl, not_unreadable_none⟩

/-- No evaluation that returns a value is refused. -/
theorem handed_of_returned {e : Evaluation Num} {value : JsValue Num}
    (he : e.completion = .returned value) {result msg : Option TextPtr}
    (hone : result = none ∨ msg = none) (hresult : ¬ Unreadable result)
    (hmsg : ¬ Unreadable msg) : Handed e result msg where
  one := hone
  result_readable := hresult
  msg_unreadable := by
    refine iff_of_false hmsg ?_
    rintro ⟨_, text, htext, _⟩
    rw [he] at htext
    cases htext

/-- The error text is a copy of the text of what was thrown. -/
theorem handed_of_threw {e : Evaluation Num} {text : Option JsString}
    (he : e.completion = .threw text) {msg : Option TextPtr}
    (hmsg : msg.map TextPtr.text = if e.enough then text else none) : Handed e none msg where
  one := .inl rfl
  result_readable := not_unreadable_none
  msg_unreadable := by
    unfold Unreadable Evaluation.Refused
    rw [hmsg, he]
    cases e.enough <;> simp

theorem qjsEval_spec {e : Evaluation Num} {script conversion : Native Unit}
    (hscript : Tidy script) (hconversion : Tidy conversion) {args : Owned}
    {code filename errMsg : Nat} (hcode : (code, .block) ∈ args)
    (hfilename : (filename, .block) ∈ args) (herrMsg : (errMsg, .block) ∈ args) :
    Triple loss args (qjsEval fmt e script conversion code filename errMsg)
      fun (result, msg) rest => Handed e result msg ∧
        rest = behind .block result + behind .block msg + args := by
  unfold qjsEval
  refine .use herrMsg (.use hcode (.use hfilename (hscript.call fun _ => ?_)))
  cases he : e.completion with
  | threw text =>
    refine .acquire fun err => hconversion.call fun _ => (jsToCString_spec text).callClosed ?_
    rintro cstr _ ⟨rfl, htext⟩
    cases cstr with
    | none =>
      refine .release args (zero_add _) (.pure ⟨handed_of_threw he ?_, by simp [behind]⟩)
      rw [← htext]
      exact (ite_self _).symm
    | some cstr =>
      refine (strdup_spec e.enough cstr).call rfl ?_
      rintro msg _ ⟨rfl, hmsg⟩
      refine .use (by simp [herrMsg]) ?_
      refine .release (behind .block msg + ({(err, .value)} + args)) (by abel) ?_
      refine .release (behind .block msg + args) (by abel) ?_
      refine .pure ⟨handed_of_threw he ?_, by simp [behind]⟩
      rw [hmsg, ← htext]
      rfl
  | returned value =>
    refine .acquire fun val => hconversion.call fun _ => ?_
    cases hjson : jsonStringify fmt value with
    | none =>
      refine .release args rfl ((strdupLiteral_spec e.enough (by decide)).callClosed ?_)
      rintro msg _ ⟨rfl, hmsg⟩
      refine .use (by simp [herrMsg]) (.pure ⟨?_, by simp [behind]⟩)
      exact handed_of_returned he (.inl rfl) not_unreadable_none hmsg
    | some jsonVal =>
      refine .acquire fun json => .release ({(json, .value)} + args) (by abel) ?_
      refine (jsToCString_spec _).callClosed ?_
      rintro cstr _ ⟨rfl, htext⟩
      refine .release (behind .cString cstr + args) (by abel) ?_
      cases cstr with
      | none =>
        refine (strdupLiteral_spec e.enough (by decide)).callClosed ?_
        rintro msg _ ⟨rfl, hmsg⟩
        refine .use (by simp [herrMsg]) (.pure ⟨?_, by simp [behind]⟩)
        exact handed_of_returned he (.inl rfl) not_unreadable_none hmsg
      | some cstr =>
        have hreadable : Readable cstr.text := by
          cases hconverts : e.converts with
          | true =>
            rw [hconverts, if_pos rfl] at htext
            exact readable_of_jsonStringify hjson htext.symm
          | false =>
            rw [hconverts] at htext
            cases htext
        refine (strdup_spec e.enough cstr).call rfl ?_
        rintro result _ ⟨rfl, hresult⟩
        refine .release (behind .block result + args) (by abel) ?_
        refine .pure ⟨handed_of_returned he (.inr rfl) ?_ not_unreadable_none, by simp [behind]⟩
        rintro ⟨text, hsome, hnot⟩
        rw [hresult] at hsome
        split at hsome
        · cases hsome
          exact hnot hreadable
        · cases hsome

/-- A result that Dart can read is freed. -/
theorem takeResult_spec {result : Option TextPtr} (hresult : ¬ Unreadable result) :
    Triple loss (behind .block result) (takeResult result) fun answer rest =>
      refused answer = false ∧ rest = 0 := by
  cases result with
  | none => exact .pure ⟨rfl, rfl⟩
  | some ptr =>
    obtain ⟨t, ht⟩ : Readable ptr.text := by
      by_contra hnot
      exact hresult ⟨_, rfl, hnot⟩
    unfold takeResult
    refine .use (Multiset.mem_singleton_self _) ?_
    simp only [ht]
    exact .release 0 (add_zero _).symm (.pure ⟨rfl, rfl⟩)

/-- An evaluation that is refused still holds the two blocks that it loses. -/
theorem ffiEval_spec (e : Evaluation Num) {script conversion : Native Unit}
    (hscript : Tidy script) (hconversion : Tidy conversion) :
    Triple loss 0 (ffiEval fmt e script conversion) fun answer rest =>
      rest.map Prod.snd = loss answer ∧ (refused answer = true ↔ e.Refused) := by
  refine .acquire fun codePtr => .acquire fun filenamePtr => .acquire fun errPtr => ?_
  refine .use (by simp) ?_
  refine (qjsEval_spec hscript hconversion (by simp) (by simp) (by simp)).call
    (add_zero _).symm ?_
  rintro ⟨resultPtr, errValue⟩ _ ⟨hhanded, rfl⟩
  refine .release (behind .block resultPtr + behind .block errValue +
    ({(errPtr, .block)} + {(filenamePtr, .block)})) (by abel) ?_
  refine .release (behind .block resultPtr + behind .block errValue + {(errPtr, .block)})
    (by abel) (.use (by simp) ?_)
  -- what is left to do once the error text has been read
  have hend (hread : ¬ Unreadable errValue) : Triple loss (behind .block resultPtr)
      (takeResult resultPtr) fun answer rest =>
        rest.map Prod.snd = loss answer ∧ (refused answer = true ↔ e.Refused) := by
    refine (takeResult_spec hhanded.result_readable).mono ?_
    rintro answer _ ⟨hanswer, rfl⟩
    rw [loss, hanswer, ← hhanded.msg_unreadable]
    exact ⟨rfl, iff_of_false Bool.false_ne_true hread⟩
  cases errValue with
  | none =>
    exact .release (behind .block resultPtr) (by simp only [behind]; abel)
      (hend not_unreadable_none)
  | some ptr =>
    obtain rfl : resultPtr = none := by simpa using hhanded.one
    refine .use (by simp [behind]) ?_
    split
    next hnone =>
      refine .pure ⟨by simp [behind, loss, refused], ?_⟩
      rw [← hhanded.msg_unreadable]
      refine iff_of_true rfl ⟨ptr.text, rfl, ?_⟩
      rintro ⟨t, ht⟩
      rw [hnone] at ht
      cases ht
    next t hsome =>
      have hread : ¬ Unreadable (some ptr) := by
        rintro ⟨_, ⟨⟩, hnot⟩
        exact hnot ⟨t, hsome⟩
      refine .release {(errPtr, .block)} (by simp [behind]) ?_
      exact .release 0 (add_zero _).symm (hend hread)

theorem tidy_setElements (args : List (JsValue Num)) : Tidy (setElements args) := by
  induction args with
  | nil => exact .pure rfl
  | cons arg args ih => exact .acquire fun _ => .release 0 rfl ih

/-- The reference to the marshalled arguments. -/
def marshalledValue : Option (JsonVal × Nat) → Owned
  | none => 0
  | some (_, v) => {(v, .value)}

theorem marshalled_spec (args : List (JsValue Num)) {conversion : Native Unit}
    (hconversion : Tidy conversion) :
    Triple loss 0 (marshalled fmt args conversion) fun jsonVal rest =>
      rest = marshalledValue jsonVal := by
  unfold marshalled
  split
  next => exact .acquire fun v => .pure rfl
  next arg =>
    refine hconversion.call fun _ => ?_
    split
    next => exact .pure rfl
    next json _ => exact .acquire fun v => .pure rfl
  next =>
    refine .acquire fun arr => (tidy_setElements _).call fun _ => hconversion.call fun _ => ?_
    split
    next => exact .release 0 rfl (.pure rfl)
    next json _ => exact .acquire fun v => .release {(v, .value)} (by abel) (.pure rfl)

/-- The block of an answer. -/
def answerBlock : Option (Nat × Text) → Owned
  | none => 0
  | some (block, _) => {(block, .block)}

theorem hostClosure_spec {callback : Native Unit} (hcallback : Tidy callback)
    (answer : Option Text) (argsPtr : TextPtr) :
    Triple loss {(argsPtr.address, .cString)} (hostClosure callback answer argsPtr)
      fun resultJson rest => rest = answerBlock resultJson + {(argsPtr.address, .cString)} := by
  unfold hostClosure
  refine .use (Multiset.mem_singleton_self _) ?_
  split
  next => exact .pure (zero_add _).symm
  next =>
    refine hcallback.call fun _ => ?_
    split
    next => exact .pure (zero_add _).symm
    next => exact .acquire fun block => .pure rfl

/-- The reference that the engine gets. -/
def returnedValue : Returned → Owned
  | .exception | .undefined => 0
  | .value v => {(v, .value)}

theorem qjsDispatch_spec (known : Bool) (args : List (JsValue Num))
    {conversion callback : Native Unit} (hconversion : Tidy conversion) (converts : Bool)
    (hcallback : Tidy callback) (answer : Option Text) :
    Triple loss 0 (qjsDispatch fmt known args conversion converts callback answer)
      fun returned rest => rest = returnedValue returned := by
  unfold qjsDispatch
  split
  next => exact .pure rfl
  next =>
    refine (marshalled_spec args hconversion).callClosed ?_
    rintro jsonVal _ rfl
    cases jsonVal with
    | none => exact .pure rfl
    | some jsonVal =>
      refine (jsToCString_spec _).callClosed ?_
      rintro argsJson _ ⟨rfl, -⟩
      refine .release (behind .cString argsJson) (by simp only [marshalledValue]; abel) ?_
      cases argsJson with
      | none => exact .pure rfl
      | some argsJson =>
        refine (hostClosure_spec hcallback answer argsJson).call (add_zero _).symm ?_
        rintro resultJson _ rfl
        refine .release (answerBlock resultJson) (by abel) ?_
        cases resultJson with
        | none => exact .pure rfl
        | some resultJson =>
          refine .use (by simp [answerBlock]) ?_
          split
          next => exact .release 0 (add_zero _).symm (.pure rfl)
          next =>
            refine .acquire fun result => ?_
            exact .release {(result, .value)} (add_comm _ _) (.pure rfl)

theorem qjsBytesDispatch_spec (known : Bool) (name : Option JsString) (array : Option TypedArray)
    (converts : Bool) {callback : Native Unit} (hcallback : Tidy callback) :
    Triple loss 0 (qjsBytesDispatch known name array converts callback)
      fun returned rest => rest = returnedValue returned := by
  unfold qjsBytesDispatch
  split
  next => exact .pure rfl
  next =>
    split
    next => exact .pure rfl
    next => exact .pure rfl
    next name array =>
      refine .acquire fun buf => .release 0 rfl ?_
      split
      next => exact .pure rfl
      next =>
        split
        next => exact .pure rfl
        next =>
          refine (jsToCString_spec _).callClosed ?_
          rintro namePtr _ ⟨rfl, -⟩
          cases namePtr with
          | none => exact .pure rfl
          | some namePtr =>
            have hclosure : Triple loss {(namePtr.address, .cString)}
                (bytesClosure callback namePtr) fun _ rest =>
                  rest = {(namePtr.address, .cString)} := by
              unfold bytesClosure
              refine .use (Multiset.mem_singleton_self _) ?_
              split
              next => exact .pure rfl
              next =>
                have hframed := Triple.frame hcallback {(namePtr.address, .cString)}
                rwa [zero_add] at hframed
            refine hclosure.call (add_zero _).symm ?_
            rintro _ _ rfl
            exact .release 0 rfl (.pure rfl)

theorem tidy_reportJobError {conversion : Native Unit} (hconversion : Tidy conversion)
    (text : Option JsString) : Tidy (reportJobError conversion text) := by
  refine .acquire fun err => hconversion.call fun _ => (jsToCString_spec text).callClosed ?_
  rintro msg _ ⟨rfl, -⟩
  cases msg with
  | none => exact .release 0 (zero_add _) (.pure rfl)
  | some msg =>
    refine .use (by simp [behind]) ?_
    exact .release {(err, .value)} rfl (.release 0 rfl (.pure rfl))

/-- The reference that is set as a property is taken over. -/
theorem setGlobalProperty_spec {setter : Native Unit} (hsetter : Tidy setter) (v : Nat) :
    Triple loss {(v, .value)} (setGlobalProperty setter v) fun _ rest => rest = 0 := by
  refine .acquire fun globalObject => hsetter.call fun _ => ?_
  exact .release {(globalObject, .value)} (add_comm _ _) (.release 0 rfl (.pure rfl))

theorem qjsRegister_spec (room created : Bool) {setter : Native Unit} (hsetter : Tidy setter)
    (name : Nat) :
    Triple loss {(name, .block)} (qjsRegister room created setter name) fun _ rest =>
      rest = {(name, .block)} := by
  unfold qjsRegister
  split
  next => exact .pure rfl
  next =>
    refine .use (Multiset.mem_singleton_self _) ?_
    split
    next => exact .pure rfl
    next =>
      refine .acquire fun fn => (setGlobalProperty_spec hsetter fn).call rfl ?_
      rintro _ _ rfl
      exact .use (by simp) (.pure (zero_add _))

theorem tidy_ffiRegister (room created : Bool) {setter : Native Unit}
    (hsetter : Tidy setter) : Tidy (ffiRegisterHostFn room created setter) := by
  refine .acquire fun namePtr => ?_
  refine (qjsRegister_spec room created hsetter namePtr).call rfl ?_
  rintro _ _ rfl
  exact .release 0 rfl (.pure rfl)

theorem tidy_ffiRegisterBytesFn (hasBytesFn room created : Bool) {setter : Native Unit}
    (hsetter : Tidy setter) : Tidy (ffiRegisterBytesFn hasBytesFn room created setter) := by
  unfold ffiRegisterBytesFn
  split
  next => exact .pure rfl
  next => exact tidy_ffiRegister room created hsetter

theorem qjsSetGlobalJson_spec (text : Text) {setter : Native Unit} (hsetter : Tidy setter)
    {args : Owned} {name json : Nat} (hname : (name, .block) ∈ args)
    (hjson : (json, .block) ∈ args) :
    Triple loss args (qjsSetGlobalJson fmt text setter name json) fun _ rest => rest = args := by
  unfold qjsSetGlobalJson
  refine .use hjson ?_
  split
  next => exact .pure rfl
  next =>
    refine .acquire fun v => .use (by simp [hname]) ?_
    exact (setGlobalProperty_spec hsetter v).frame args

theorem tidy_ffiSetGlobalJson (text : Text) {setter : Native Unit} (hsetter : Tidy setter) :
    Tidy (ffiSetGlobalJson fmt text setter) := by
  refine .acquire fun namePtr => .acquire fun jsonPtr => ?_
  refine (qjsSetGlobalJson_spec text hsetter (by simp) (by simp)).call (add_zero _).symm ?_
  rintro _ _ rfl
  exact .release {(jsonPtr, .block)} (by abel) (.release 0 rfl (.pure rfl))

end Specs

/-! ## Whole sessions -/

theorem dropReturned_spec (returned : Returned) :
    Triple loss (returnedValue returned) (dropReturned returned) fun _ rest => rest = 0 := by
  cases returned with
  | exception | undefined => exact .pure rfl
  | value v => exact .release 0 rfl (.pure rfl)

/-- What a host function returned is dropped. -/
theorem tidy_of_dropped {p : Native Returned}
    (hp : Triple loss 0 p fun returned rest => rest = returnedValue returned) :
    Tidy (p >>= dropReturned) := by
  refine hp.callClosed ?_
  rintro returned _ rfl
  rw [add_zero]
  exact dropReturned_spec returned

mutual

theorem tidy_hostCall (fmt : JsNumberFormat Num) : ∀ call : HostCall Num, Tidy (call.run fmt)
  | .json known args conversion converts callback answer => by
      rw [HostCall.run]
      exact tidy_of_dropped (qjsDispatch_spec known args (tidy_script fmt conversion) converts
        (tidy_dart fmt callback) answer)
  | .bytes known name array converts callback => by
      rw [HostCall.run]
      exact tidy_of_dropped (qjsBytesDispatch_spec known name array converts
        (tidy_dart fmt callback))

theorem tidy_script (fmt : JsNumberFormat Num) :
    ∀ calls : List (HostCall Num), Tidy (runScript fmt calls)
  | [] => by
      rw [runScript]
      exact .pure rfl
  | call :: calls => by
      rw [runScript]
      exact (tidy_hostCall fmt call).call fun _ => tidy_script fmt calls

theorem tidy_jobs (fmt : JsNumberFormat Num) :
    ∀ jobs : List (PendingJob Num), Tidy (runJobs fmt jobs)
  | [] => by
      rw [runJobs]
      exact .pure rfl
  | .mk script (some text) conversion :: jobs => by
      rw [runJobs]
      exact (tidy_script fmt script).call fun _ =>
        tidy_reportJobError (tidy_script fmt conversion) text
  | .mk script none conversion :: jobs => by
      rw [runJobs]
      exact (tidy_script fmt script).call fun _ => tidy_jobs fmt jobs

theorem tidy_ffiCall (fmt : JsNumberFormat Num) : ∀ call : FfiCall Num, Tidy (call.run fmt)
  | .eval e script conversion => by
      rw [FfiCall.run]
      refine (ffiEval_spec e (tidy_script fmt script) (tidy_script fmt conversion)).callClosed ?_
      rintro answer rest ⟨hlost, -⟩
      exact .report hlost rfl (.pure rfl)
  | .registerHostFn room created setter => by
      rw [FfiCall.run]
      exact tidy_ffiRegister room created (tidy_script fmt setter)
  | .registerBytesFn hasBytesFn room created setter => by
      rw [FfiCall.run]
      exact tidy_ffiRegisterBytesFn hasBytesFn room created (tidy_script fmt setter)
  | .setGlobalJson json setter => by
      rw [FfiCall.run]
      exact tidy_ffiSetGlobalJson json (tidy_script fmt setter)
  | .executePendingJobs jobs => by
      rw [FfiCall.run]
      exact tidy_jobs fmt jobs

theorem tidy_dart (fmt : JsNumberFormat Num) :
    ∀ calls : List (FfiCall Num), Tidy (runDart fmt calls)
  | [] => by
      rw [runDart]
      exact .pure rfl
  | call :: calls => by
      rw [runDart]
      exact (tidy_ffiCall fmt call).call fun _ => tidy_dart fmt calls

end

/-- However host functions and scripts call each other, nothing is used or freed that is not
live, no reference and no C string of the engine is lost, and of the blocks exactly two are lost
for each evaluation that ended with an exception of Dart. -/
theorem session_leaks_two_blocks_per_refusal (fmt : JsNumberFormat Num)
    (calls : List (FfiCall Num)) (heap : Ownership.Heap Resource Answer) :
    ∃ heap' lost answers, runDart fmt calls heap = .ok ((), heap') ∧
      heap'.log = heap.log ++ answers ∧ heap'.live = lost + heap.live ∧
      lost.map Prod.snd = Multiset.replicate (2 * answers.countP refused) .block := by
  obtain ⟨_, heap', _, hrun, rfl, lost, answers, hlive, hlog, hloss⟩ :=
    tidy_dart fmt calls heap heap.live (zero_add _).symm
  exact ⟨heap', lost, answers, hrun, hlog, hlive.trans (zero_add _), hloss.trans (sum_loss _)⟩

/-- An evaluation ends with an exception of Dart exactly when the script throws a value whose text
has a lone surrogate before its first NUL, provided that the text can be copied. -/
theorem eval_refused_iff (fmt : JsNumberFormat Num) (e : Evaluation Num)
    (script conversion : List (HostCall Num)) (heap : Ownership.Heap Resource Answer) :
    ∃ answer heap', ffiEval fmt e (runScript fmt script) (runScript fmt conversion) heap =
        .ok (answer, heap') ∧
      (refused answer = true ↔ e.enough = true ∧ ∃ text, e.completion = .threw (some text) ∧
        ¬ Utf16.WellFormed (text.text.takeWhile (· ≠ 0))) := by
  have hspec : Triple loss 0 (ffiEval fmt e (runScript fmt script) (runScript fmt conversion)) _ :=
    ffiEval_spec e (tidy_script fmt script) (tidy_script fmt conversion)
  obtain ⟨answer, heap', _, hrun, ⟨_, hrefused⟩, _⟩ := hspec heap heap.live (zero_add _).symm
  refine ⟨answer, heap', hrun, ?_⟩
  simp only [hrefused, Evaluation.Refused, readable_iff]

end Bridge.Memory
