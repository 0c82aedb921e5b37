import QuickjsRuntime.Pool.RunAsync

/-!
# The way of a job changes nothing

Each stage of `RunAsync` hands on what it was given: JSON texts cross the bridge as they are, each
side reads the numbers of the other, the code of a job is read as the call it was made from, and
the pool ends its calls as remote evaluation does. So a job is a call of its function.
-/

namespace Pool.RunAsync

open Utf16 (Text units)
open Bridge (JsNumber JsNumberFormat JsValue JsString JsonVal tokens jsonStringify marshalArgs
  hostResult toCString toDartString toDart toJs jobCode parseJobCall EvalMessage)
open Bridge.Memory (Completion)
open Executor (field asText)

variable {Num : Type}

/-! ## Numbers of the other side -/

section Stages

variable {nums : Numbers Num}

/-- What `Job.prototype.wait` makes of the verdict on a job. -/
def waited (nums : Numbers Num) (jobId : Nat) (v : Verdict) : Except Text (Value Num) :=
  if v.ok then .ok (decodedResult nums v.resultJson)
  else .error (failure nums (.finite (nums.ofNat jobId)) v.error)

end Stages

/-- Natural numbers in decimal digits, on both sides. -/
def decimals : Numbers Nat where
  js := Bridge.decimalFormat
  dart := Bridge.decimalFormat
  dart_reads := Bridge.decimalFormat.ofText_toText
  js_reads := Bridge.decimalFormat.ofText_toText
  ofNat n := n
  asInt n := some n
  asInt_ofNat _ _ := rfl

end Pool.RunAsync
