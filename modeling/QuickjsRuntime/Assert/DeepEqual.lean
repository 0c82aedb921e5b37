import QuickjsRuntime.Bridge.Marshal
import QuickjsRuntime.Foundation.JsonMaps

/-!
# `assert.deepEqual`

`assert.deepEqual` and `assert.notDeepEqual` compare the texts that `safeStringify` writes. The
text of a JSON value is read back, so no two values have one text; but a text lists the keys of
an object in the order in which the object lists them, and objects that differ in this order only
are told apart.

`String(value)`, to which `safeStringify` falls back where the serialiser throws, is a parameter:
the serialiser does not throw for a JSON value.
-/

namespace Assert

open Bridge
open Utf16 (Text units)

variable {Num : Type}

/-! ## Model -/

/-- How an assertion ends. -/
inductive Outcome where
  | passes
  | assertionError (message : Text)
  /-- `String(value)` has thrown. -/
  | throws
  deriving DecidableEq, Repr

/-- `safeStringify`; `none` where `String(value)` throws. -/
def safeStringify (fmt : JsNumberFormat Num) (string : JsValue Num → Option Text)
    (v : JsValue Num) : Option JsonVal :=
  match jsonStringify fmt v with
  | some value => some value
  | none => (string v).map .string

/-- `assert.deepEqual(a, b, m)`; without a message `m` is empty. -/
def deepEqual (fmt : JsNumberFormat Num) (string : JsValue Num → Option Text)
    (a b : JsValue Num) (m : Text) : Outcome :=
  match safeStringify fmt string a, safeStringify fmt string b with
  | some textA, some textB =>
    if textA ≠ textB then
      .assertionError (if m = [] then units "Expected " ++ textA.toCString ++
        units " to deeply equal " ++ textB.toCString else m)
    else .passes
  | _, _ => .throws

/-- `assert.notDeepEqual(a, b, m)` -/
def notDeepEqual (fmt : JsNumberFormat Num) (string : JsValue Num → Option Text)
    (a b : JsValue Num) (m : Text) : Outcome :=
  match safeStringify fmt string a, safeStringify fmt string b with
  | some textA, some textB =>
    if textA = textB then
      .assertionError (if m = [] then units "Expected different deep values" else m)
    else .passes
  | _, _ => .throws

/-- A JSON value, its objects with the keys in the order in which `Object.keys` lists them. -/
structure JsonValue (Num : Type) where
  value : Json Num
  distinct : value.Distinct

mutual

/-- The JS value of a JSON value. -/
def toJs : Json Num → JsValue Num
  | .null => .null
  | .bool b => .bool b
  | .number n => .number (.finite n)
  | .string s => .string s
  | .array xs => .array (elementsToJs xs)
  | .object ms => .object (membersToJs ms)

def elementsToJs : List (Json Num) → List (JsValue Num)
  | [] => []
  | x :: xs => toJs x :: elementsToJs xs

def membersToJs : List (Text × Json Num) → List (Text × JsValue Num)
  | [] => []
  | (key, x) :: ms => (key, toJs x) :: membersToJs ms

end

/-! ## The text of a JSON value -/

/-- The finite numbers of a format. -/
def numbers (fmt : JsNumberFormat Num) : Json.NumberFormat Num := ⟨fmt.toText, fmt.ofText⟩

theorem isDropped_toJs (x : Json Num) : (toJs x).isDropped = false := by
  cases x <;> rw [toJs] <;> rfl

section Text

variable {fmt : JsNumberFormat Num}

mutual

/-- The serialiser writes the text of the value. -/
theorem jsonToStr_toJs : ∀ x : Json Num,
    jsonToStr fmt (toJs x) = some (x.render (numbers fmt))
  | .null => by rw [toJs, jsonToStr, Json.render]
  | .bool b => by
      rw [toJs, jsonToStr]
      cases b <;> rw [Json.render] <;> rfl
  | .number n => by
      rw [toJs, jsonToStr, Json.render]
      rfl
  | .string s => by rw [toJs, jsonToStr, Json.render]
  | .array [] => by
      rw [toJs, jsonToStr, elementsToJs, elementsToStr, Json.render]
      rfl
  | .array (x :: xs) => by
      rw [toJs, jsonToStr, elementsToJs, elementsToStr, isDropped_toJs, jsonToStr_toJs x,
        elementsToStr_toJs xs, Json.render]
      simp
  | .object [] => by
      rw [toJs, jsonToStr, membersToJs, propertiesToStr, Json.render]
      rfl
  | .object ((key, x) :: ms) => by
      rw [toJs, jsonToStr, membersToJs, propertiesToStr, isDropped_toJs, jsonToStr_toJs x,
        propertiesToStr_toJs ms, Json.render]
      simp

theorem elementsToStr_toJs : ∀ xs : List (Json Num),
    elementsToStr fmt false (elementsToJs xs) = some (Json.renderElements (numbers fmt) xs)
  | [] => by rw [elementsToJs, elementsToStr, Json.renderElements]
  | x :: xs => by
      rw [elementsToJs, elementsToStr, isDropped_toJs, jsonToStr_toJs x, elementsToStr_toJs xs,
        Json.renderElements]
      simp

theorem propertiesToStr_toJs : ∀ ms : List (Text × Json Num),
    propertiesToStr fmt true (membersToJs ms) = some (Json.renderMembers (numbers fmt) ms)
  | [] => by rw [membersToJs, propertiesToStr, Json.renderMembers]
  | (key, x) :: ms => by
      rw [membersToJs, propertiesToStr, isDropped_toJs, jsonToStr_toJs x, propertiesToStr_toJs ms,
        Json.renderMembers]
      simp

end

theorem numbers_exact (n : Num) : (numbers fmt).Exact n :=
  ⟨fmt.toText_ne_nil n, fmt.toText_units n, fmt.ofText_toText n⟩

/-- No two values have one text. -/
theorem render_injective : Function.Injective (Json.render (numbers fmt)) := by
  intro x y h
  have hread : ∀ z : Json Num, Json.decode (numbers fmt) (z.render (numbers fmt)) = some z :=
    Json.decode_render_of_exact numbers_exact
  apply Option.some.inj
  rw [← hread x, h, hread y]

theorem safeStringify_toJs (string : JsValue Num → Option Text) (x : Json Num) :
    safeStringify fmt string (toJs x) = some (.string (x.render (numbers fmt))) := by
  rw [safeStringify, jsonStringify, isDropped_toJs, jsonToStr_toJs]
  rfl

end Text

/-! ## What the assertions decide -/

section Decides

variable (fmt : JsNumberFormat Num) (string : JsValue Num → Option Text)

theorem deepEqual_passes_iff (x y : Json Num) (m : Text) :
    deepEqual fmt string (toJs x) (toJs y) m = .passes ↔ x = y := by
  rw [deepEqual, safeStringify_toJs, safeStringify_toJs]
  simp [render_injective.eq_iff]

theorem notDeepEqual_passes_iff (x y : Json Num) (m : Text) :
    notDeepEqual fmt string (toJs x) (toJs y) m = .passes ↔ x ≠ y := by
  rw [notDeepEqual, safeStringify_toJs, safeStringify_toJs]
  simp [render_injective.eq_iff]

/-- `deepEqual` decides equality with objects as maps, and `notDeepEqual` its negation, exactly if
the values differ even so or list their keys in the same orders. -/
theorem deepEqual_decides_iff (a b : JsonValue Num) (m : Text) :
    ((deepEqual fmt string (toJs a.value) (toJs b.value) m = .passes ↔ a.value.Same b.value) ∧
        (notDeepEqual fmt string (toJs a.value) (toJs b.value) m = .passes ↔
          deepEqual fmt string (toJs a.value) (toJs b.value) m ≠ .passes)) ↔
      (a.value.Same b.value → a.value.Aligned b.value) := by
  rw [ne_eq, deepEqual_passes_iff, notDeepEqual_passes_iff, ne_eq, and_iff_left Iff.rfl]
  constructor
  · intro h hsame
    rw [h.mpr hsame]
    exact Json.aligned_refl b.value
  · intro haligned
    constructor
    · intro heq
      rw [heq]
      exact Json.same_refl b.value
    · intro hsame
      exact Json.eq_of_same _ _ b.distinct hsame (haligned hsame)

end Decides

/-- `{a: 1, b: 2}` -/
def listedAB : JsonValue Nat where
  value := .object [(units "a", .number 1), (units "b", .number 2)]
  distinct := by simp [Json.Distinct, Json.DistinctMembers, units]

/-- `{b: 2, a: 1}` -/
def listedBA : JsonValue Nat where
  value := .object [(units "b", .number 2), (units "a", .number 1)]
  distinct := by simp [Json.Distinct, Json.DistinctMembers, units]

/-- Two objects with the same values under the same keys are told apart. -/
theorem deepEqual_other_order :
    listedAB.value.Same listedBA.value ∧
      deepEqual decimalFormat (fun _ => none) (toJs listedAB.value) (toJs listedBA.value) [] ≠
        .passes := by
  constructor
  · show Json.Same (.object _) (.object _)
    rw [Json.Same, Json.SameMembers, Json.SameMembers, Json.SameMembers]
    exact ⟨List.Perm.swap _ _ [], ⟨.number 1, by simp, Json.same_refl _⟩,
      ⟨.number 2, by simp, Json.same_refl _⟩, trivial⟩
  · rw [ne_eq, deepEqual_passes_iff]
    simp [listedAB, listedBA, units]

end Assert
