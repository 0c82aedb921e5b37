import QuickjsRuntime.Foundation.Json

/-!
# The engine's JSON serialiser

`JS_JSONStringify` of `quickjs.c` without replacer and gap, the way the bridge calls it.
A `JsValue` is a JS value as the serialiser reads it: `toJSON` methods have been called
and getters have run, and a value on which that throws is `throwing`, as is a reference
back to an enclosing object.

How a finite number is written and read is a parameter. The sign of zero, which the text
does not show, is not part of a number here.
-/

namespace Bridge

open Utf16 (Text units)
open Json (quote comma colon openBracket closeBracket openBrace closeBrace)

/-- The values of a JS number. -/
inductive JsNumber (Num : Type) where
  | finite (n : Num)
  | nan
  | infinity (negative : Bool)
deriving DecidableEq, Repr

/-- A number format in which each number has a text of JSON number units that is read
back, and in which neither the empty text nor a lone minus sign is a number. -/
structure JsNumberFormat (Num : Type) where
  toText : Num → Text
  ofText : Text → Option Num
  toText_ne_nil : ∀ n, toText n ≠ []
  toText_units : ∀ n, ∀ u ∈ toText n, Json.isNumberUnit u = true
  ofText_toText : ∀ n, ofText (toText n) = some n
  ofText_nil : ofText [] = none
  ofText_minus : ofText (units "-") = none

inductive JsValue (Num : Type) where
  | undefined
  | null
  | bool (value : Bool)
  | number (value : JsNumber Num)
  | string (value : Text)
  | symbol
  | bigInt
  | function
  | boxedString (value : Text)
  | boxedNumber (value : JsNumber Num)
  | boxedBoolean (value : Bool)
  | boxedBigInt
  | array (elements : List (JsValue Num))
  | object (properties : List (Text × JsValue Num))
  | throwing

variable {Num : Type}

def JsNumber.isFinite : JsNumber Num → Bool
  | .finite _ => true
  | _ => false

/-- `JS_ToString` of a number. -/
def JsNumber.toText (fmt : JsNumberFormat Num) : JsNumber Num → Text
  | .finite n => fmt.toText n
  | .nan => units "NaN"
  | .infinity false => units "Infinity"
  | .infinity true => units "-Infinity"

/-- The type test at the end of `js_json_check`: such a value is left out or written as
`null` by its holder. -/
def JsValue.isDropped : JsValue Num → Bool
  | .undefined | .symbol | .function => true
  | _ => false

def boolText (value : Bool) : Text :=
  if value then units "true" else units "false"

mutual

/-- `js_json_to_str`; `none` when it throws. -/
def jsonToStr (fmt : JsNumberFormat Num) : JsValue Num → Option Text
  | .undefined | .symbol | .function => some []
  | .null => some (units "null")
  | .bool b => some (boolText b)
  | .number n => some (if n.isFinite then n.toText fmt else units "null")
  | .string s => some (quote s)
  | .boxedString s => some (quote s)
  -- unlike for a primitive number there is no test for a finite value
  | .boxedNumber n => some (n.toText fmt)
  | .boxedBoolean b => some (boolText b)
  | .bigInt | .boxedBigInt | .throwing => none
  | .array xs => do
      let text ← elementsToStr fmt true xs
      return openBracket :: (text ++ [closeBracket])
  | .object ps => do
      let text ← propertiesToStr fmt false ps
      return openBrace :: (text ++ [closeBrace])

/-- The loop over the elements of an array. -/
def elementsToStr (fmt : JsNumberFormat Num) : Bool → List (JsValue Num) → Option Text
  | _, [] => some []
  | first, x :: xs => do
      let text ← (if x.isDropped then some (units "null") else jsonToStr fmt x)
      let rest ← elementsToStr fmt false xs
      return (if first then [] else [comma]) ++ (text ++ rest)

/-- The loop over the keys of an object. -/
def propertiesToStr (fmt : JsNumberFormat Num) :
    Bool → List (Text × JsValue Num) → Option Text
  | _, [] => some []
  | hasContent, (key, x) :: ps =>
    if x.isDropped then propertiesToStr fmt hasContent ps
    else do
      let text ← jsonToStr fmt x
      let rest ← propertiesToStr fmt true ps
      return (if hasContent then [comma] else []) ++ (quote key ++ colon :: (text ++ rest))

end

/-- What `JS_JSONStringify` and `JS_NewObject` return, short of an exception. -/
inductive JsonVal where
  | object
  | string (text : Text)
  | undefined
deriving DecidableEq, Repr

/-- `JS_JSONStringify`; `none` is an exception. -/
def jsonStringify (fmt : JsNumberFormat Num) (v : JsValue Num) : Option JsonVal :=
  if v.isDropped then some .undefined
  else (jsonToStr fmt v).map .string

/-- `JS_ToCString`, that is `String(value)`, of a new object, a string or `undefined`. -/
def JsonVal.toCString : JsonVal → Text
  | .object => units "[object Object]"
  | .string text => text
  | .undefined => units "undefined"

/-! ## The tree that is written -/

mutual

/-- The JSON tree of a value; `boxed` is what becomes of the value of a `Number` object. -/
def JsValue.tree (boxed : JsNumber Num → Json (JsNumber Num)) :
    JsValue Num → Json (JsNumber Num)
  | .bool b | .boxedBoolean b => .bool b
  | .number n => if n.isFinite then .number n else .null
  | .string s | .boxedString s => .string s
  | .boxedNumber n => boxed n
  | .array xs => .array (treeElements boxed xs)
  | .object ps => .object (treeProperties boxed ps)
  | .undefined | .null | .symbol | .bigInt | .function | .boxedBigInt | .throwing => .null

def treeElements (boxed : JsNumber Num → Json (JsNumber Num)) :
    List (JsValue Num) → List (Json (JsNumber Num))
  | [] => []
  | x :: xs => x.tree boxed :: treeElements boxed xs

def treeProperties (boxed : JsNumber Num → Json (JsNumber Num)) :
    List (Text × JsValue Num) → List (Text × Json (JsNumber Num))
  | [] => []
  | (key, x) :: ps =>
    if x.isDropped then treeProperties boxed ps
    else (key, x.tree boxed) :: treeProperties boxed ps

end

/-- The JSON value of a JS value: a number that is not finite is `null`, boxed or not. -/
def JsValue.jsonValue (v : JsValue Num) : Json (JsNumber Num) :=
  v.tree fun n => if n.isFinite then .number n else .null

/-- The tree whose text the serialiser writes. -/
def JsValue.written (v : JsValue Num) : Json (JsNumber Num) :=
  v.tree .number

mutual

/-- Every `Number` object in the value holds a finite number. -/
def JsValue.boxesFinite : JsValue Num → Bool
  | .boxedNumber n => n.isFinite
  | .array xs => boxesFiniteElements xs
  | .object ps => boxesFiniteProperties ps
  | _ => true

def boxesFiniteElements : List (JsValue Num) → Bool
  | [] => true
  | x :: xs => x.boxesFinite && boxesFiniteElements xs

def boxesFiniteProperties : List (Text × JsValue Num) → Bool
  | [] => true
  | (_, x) :: ps => x.boxesFinite && boxesFiniteProperties ps

end

/-! ## The text is the text of the tree -/

/-- Numbers as the engine writes them and as JSON reads them. -/
def tokens (fmt : JsNumberFormat Num) : Json.NumberFormat (JsNumber Num) where
  toText := JsNumber.toText fmt
  ofText t := (fmt.ofText t).map .finite

section Written

variable {fmt : JsNumberFormat Num}

theorem boolText_eq (b : Bool) : boolText b = (Json.bool b).render (tokens fmt) := by
  cases b <;> rw [Json.render] <;> rfl

theorem number_text_eq (n : JsNumber Num) :
    (if n.isFinite then n.toText fmt else units "null") =
      (JsValue.number n).written.render (tokens fmt) := by
  rw [JsValue.written, JsValue.tree]
  split <;> rw [Json.render]
  rfl

theorem dropped_tree {x : JsValue Num} (hx : x.isDropped = true)
    (boxed : JsNumber Num → Json (JsNumber Num)) : x.tree boxed = .null := by
  cases x with
  | undefined | symbol | function => rw [JsValue.tree]
  | _ => cases hx

/-- One element of an array, given what is written for its value. -/
theorem element_text_eq {x : JsValue Num} {text : Text}
    (hx : ∀ t, jsonToStr fmt x = some t → x.isDropped = false → t = x.written.render (tokens fmt))
    (h : (if x.isDropped then some (units "null") else jsonToStr fmt x) = some text) :
    text = (x.tree .number).render (tokens fmt) := by
  by_cases hdropped : x.isDropped = true
  · rw [if_pos hdropped] at h
    rw [dropped_tree hdropped, Json.render, ← Option.some.inj h]
  · rw [if_neg hdropped] at h
    exact hx text h (Bool.eq_false_iff.mpr hdropped)

mutual

theorem jsonToStr_eq : ∀ (v : JsValue Num) (t : Text), jsonToStr fmt v = some t →
    v.isDropped = false → t = v.written.render (tokens fmt)
  | .undefined, _, _, h | .symbol, _, _, h | .function, _, _, h => by cases h
  | .null, t, h, _ => by
      rw [jsonToStr] at h
      rw [JsValue.written, JsValue.tree, Json.render, ← Option.some.inj h]
  | .bool b, t, h, _ | .boxedBoolean b, t, h, _ => by
      rw [jsonToStr] at h
      rw [JsValue.written, JsValue.tree, ← Option.some.inj h, boolText_eq]
  | .number n, t, h, _ => by
      rw [jsonToStr] at h
      rw [← number_text_eq, ← Option.some.inj h]
  | .string s, t, h, _ | .boxedString s, t, h, _ => by
      rw [jsonToStr] at h
      rw [JsValue.written, JsValue.tree, Json.render, ← Option.some.inj h]
  | .boxedNumber n, t, h, _ => by
      rw [jsonToStr] at h
      rw [JsValue.written, JsValue.tree, Json.render, ← Option.some.inj h]
      rfl
  | .bigInt, t, h, _ | .boxedBigInt, t, h, _ | .throwing, t, h, _ => by
      rw [jsonToStr] at h
      cases h
  | .array xs, t, h, _ => by
      rw [jsonToStr] at h
      obtain ⟨text, htext, ht⟩ := Option.bind_eq_some_iff.mp h
      cases ht
      exact elementsToStr_eq xs text htext
  | .object ps, t, h, _ => by
      rw [jsonToStr] at h
      obtain ⟨text, htext, ht⟩ := Option.bind_eq_some_iff.mp h
      cases ht
      exact propertiesToStr_eq ps text htext

theorem elementsToStr_eq : ∀ (xs : List (JsValue Num)) (t : Text),
    elementsToStr fmt true xs = some t →
      openBracket :: (t ++ [closeBracket]) = (Json.array (treeElements .number xs)).render
        (tokens fmt)
  | [], t, h => by
      rw [elementsToStr] at h
      rw [treeElements, Json.render, ← Option.some.inj h]
      rfl
  | x :: xs, t, h => by
      rw [elementsToStr] at h
      obtain ⟨text, htext, h⟩ := Option.bind_eq_some_iff.mp h
      obtain ⟨rest, hrest, h⟩ := Option.bind_eq_some_iff.mp h
      have hhead := element_text_eq (jsonToStr_eq x) htext
      have htail := elementsToStr_rest_eq xs rest hrest
      cases h
      rw [treeElements, Json.render, ← hhead, ← htail]
      simp

theorem elementsToStr_rest_eq : ∀ (xs : List (JsValue Num)) (t : Text),
    elementsToStr fmt false xs = some t →
      t = Json.renderElements (tokens fmt) (treeElements .number xs)
  | [], t, h => by
      rw [elementsToStr] at h
      rw [treeElements, Json.renderElements, ← Option.some.inj h]
  | x :: xs, t, h => by
      rw [elementsToStr] at h
      obtain ⟨text, htext, h⟩ := Option.bind_eq_some_iff.mp h
      obtain ⟨rest, hrest, h⟩ := Option.bind_eq_some_iff.mp h
      have hhead := element_text_eq (jsonToStr_eq x) htext
      have htail := elementsToStr_rest_eq xs rest hrest
      cases h
      rw [treeElements, Json.renderElements, ← hhead, ← htail]
      simp

theorem propertiesToStr_eq : ∀ (ps : List (Text × JsValue Num)) (t : Text),
    propertiesToStr fmt false ps = some t →
      openBrace :: (t ++ [closeBrace]) = (Json.object (treeProperties .number ps)).render
        (tokens fmt)
  | [], t, h => by
      rw [propertiesToStr] at h
      rw [treeProperties, Json.render, ← Option.some.inj h]
      rfl
  | (key, x) :: ps, t, h => by
      rw [propertiesToStr] at h
      by_cases hdropped : x.isDropped = true
      · rw [if_pos hdropped] at h
        rw [treeProperties, if_pos hdropped]
        exact propertiesToStr_eq ps t h
      · rw [if_neg hdropped] at h
        obtain ⟨text, htext, h⟩ := Option.bind_eq_some_iff.mp h
        obtain ⟨rest, hrest, h⟩ := Option.bind_eq_some_iff.mp h
        have hhead := jsonToStr_eq x text htext (Bool.eq_false_iff.mpr hdropped)
        have htail := propertiesToStr_rest_eq ps rest hrest
        cases h
        rw [treeProperties, if_neg hdropped, Json.render, ← htail, hhead, JsValue.written]
        simp

theorem propertiesToStr_rest_eq : ∀ (ps : List (Text × JsValue Num)) (t : Text),
    propertiesToStr fmt true ps = some t →
      t = Json.renderMembers (tokens fmt) (treeProperties .number ps)
  | [], t, h => by
      rw [propertiesToStr] at h
      rw [treeProperties, Json.renderMembers, ← Option.some.inj h]
  | (key, x) :: ps, t, h => by
      rw [propertiesToStr] at h
      by_cases hdropped : x.isDropped = true
      · rw [if_pos hdropped] at h
        rw [treeProperties, if_pos hdropped]
        exact propertiesToStr_rest_eq ps t h
      · rw [if_neg hdropped] at h
        obtain ⟨text, htext, h⟩ := Option.bind_eq_some_iff.mp h
        obtain ⟨rest, hrest, h⟩ := Option.bind_eq_some_iff.mp h
        have hhead := jsonToStr_eq x text htext (Bool.eq_false_iff.mpr hdropped)
        have htail := propertiesToStr_rest_eq ps rest hrest
        cases h
        rw [treeProperties, if_neg hdropped, Json.renderMembers, ← htail, hhead, JsValue.written]
        simp

end

/-! ## Reading the text -/

theorem exact_of_finite (n : JsNumber Num) (hn : n.isFinite = true) : (tokens fmt).Exact n := by
  cases n with
  | finite n =>
    refine ⟨fmt.toText_ne_nil n, fmt.toText_units n, ?_⟩
    simp [tokens, JsNumber.toText, fmt.ofText_toText]
  | nan | infinity => cases hn

/-- A text is no JSON value if its leading number units are no number. -/
theorem readValue_foreign {u : Nat} {us : Text}
    (hu : Json.isSpace u = false ∧ u ≠ Json.quotationMark ∧ u ≠ openBracket ∧ u ≠ openBrace ∧
      u ≠ 0x6E ∧ u ≠ 0x74 ∧ u ≠ 0x66)
    (hread : ∀ t, fmt.ofText ((u :: us ++ t).takeWhile Json.isNumberUnit) = none)
    (fuel : Nat) (t : Text) : Json.readValue (tokens fmt) fuel (u :: us ++ t) = none := by
  obtain ⟨hspace, hmark, hbracket, hbrace, hn, ht, hf⟩ := hu
  have hnone := hread t
  rw [List.cons_append] at hnone ⊢
  cases fuel with
  | zero => rw [Json.readValue]
  | succ fuel =>
    rw [Json.readValue, Json.skipSpace_cons _ hspace]
    simp only [if_neg hmark, if_neg hbracket, if_neg hbrace]
    rw [Json.readScalar_number _ _ hn ht hf]
    simp [Json.readNumber, tokens, hnone]

theorem foreign_of_not_finite (n : JsNumber Num) (hn : n.isFinite = false) :
    (tokens fmt).Foreign n := by
  cases n with
  | finite n => cases hn
  | nan =>
    refine ⟨⟨_, _, rfl, by decide, by decide⟩, ?_⟩
    exact readValue_foreign (u := 0x4E) (by decide) fun _ => fmt.ofText_nil
  | infinity negative =>
    cases negative with
    | false =>
      refine ⟨⟨_, _, rfl, by decide, by decide⟩, ?_⟩
      exact readValue_foreign (u := 0x49) (by decide) fun _ => fmt.ofText_nil
    | true =>
      refine ⟨⟨_, _, rfl, by decide, by decide⟩, ?_⟩
      exact readValue_foreign (u := 0x2D) (by decide) fun _ => fmt.ofText_minus

/-- Reading the text of a tree succeeds exactly when all its numbers are finite. -/
theorem decode_tree (x : Json (JsNumber Num)) :
    Json.decode (tokens fmt) (x.render (tokens fmt)) =
      if x.allNumbers JsNumber.isFinite = true then some x else none :=
  Json.decode_render exact_of_finite foreign_of_not_finite x

end Written

mutual

theorem written_allNumbers :
    ∀ v : JsValue Num, v.written.allNumbers JsNumber.isFinite = v.boxesFinite
  | .number n => by
      rw [JsValue.written, JsValue.tree, JsValue.boxesFinite]
      · split
        · next hn => rw [Json.allNumbers, hn]
        · rw [Json.allNumbers]
      all_goals simp
  | .boxedNumber n => by
      rw [JsValue.written, JsValue.tree, JsValue.boxesFinite, Json.allNumbers]
  | .array xs => by
      rw [JsValue.written, JsValue.tree, JsValue.boxesFinite, Json.allNumbers]
      exact written_allElements xs
  | .object ps => by
      rw [JsValue.written, JsValue.tree, JsValue.boxesFinite, Json.allNumbers]
      exact written_allMembers ps
  | .undefined | .null | .bool _ | .string _ | .symbol | .bigInt | .function | .boxedString _
  | .boxedBoolean _ | .boxedBigInt | .throwing => by
      rw [JsValue.written, JsValue.tree, JsValue.boxesFinite, Json.allNumbers]
      all_goals simp

theorem written_allElements : ∀ xs : List (JsValue Num),
    Json.allElements JsNumber.isFinite (treeElements .number xs) = boxesFiniteElements xs
  | [] => by rw [treeElements, Json.allElements, boxesFiniteElements]
  | x :: xs => by
      have hx := written_allNumbers x
      rw [JsValue.written] at hx
      rw [treeElements, Json.allElements, boxesFiniteElements, hx, written_allElements xs]

theorem written_allMembers : ∀ ps : List (Text × JsValue Num),
    Json.allMembers JsNumber.isFinite (treeProperties .number ps) = boxesFiniteProperties ps
  | [] => by rw [treeProperties, Json.allMembers, boxesFiniteProperties]
  | (key, x) :: ps => by
      have hx := written_allNumbers x
      rw [JsValue.written] at hx
      rw [treeProperties, boxesFiniteProperties]
      by_cases hdropped : x.isDropped = true
      · rw [dropped_tree hdropped, Json.allNumbers] at hx
        rw [if_pos hdropped, ← hx, Bool.true_and]
        exact written_allMembers ps
      · rw [if_neg hdropped, Json.allMembers, hx, written_allMembers ps]

end

mutual

/-- Without boxed numbers that are not finite the JSON value is what is written. -/
theorem tree_eq_of_boxesFinite {boxed : JsNumber Num → Json (JsNumber Num)}
    (hboxed : ∀ n, n.isFinite = true → boxed n = .number n) :
    ∀ v : JsValue Num, v.boxesFinite = true → v.tree boxed = v.tree .number
  | .boxedNumber n, h => by
      rw [JsValue.boxesFinite] at h
      rw [JsValue.tree, JsValue.tree, hboxed n h]
  | .array xs, h => by
      rw [JsValue.boxesFinite] at h
      rw [JsValue.tree, JsValue.tree, treeElements_eq hboxed xs h]
  | .object ps, h => by
      rw [JsValue.boxesFinite] at h
      rw [JsValue.tree, JsValue.tree, treeProperties_eq hboxed ps h]
  | .undefined, _ | .null, _ | .bool _, _ | .number _, _ | .string _, _ | .symbol, _
  | .bigInt, _ | .function, _ | .boxedString _, _ | .boxedBoolean _, _ | .boxedBigInt, _
  | .throwing, _ => by
      rw [JsValue.tree, JsValue.tree]

theorem treeElements_eq {boxed : JsNumber Num → Json (JsNumber Num)}
    (hboxed : ∀ n, n.isFinite = true → boxed n = .number n) :
    ∀ xs : List (JsValue Num), boxesFiniteElements xs = true →
      treeElements boxed xs = treeElements .number xs
  | [], _ => by rw [treeElements, treeElements]
  | x :: xs, h => by
      rw [boxesFiniteElements, Bool.and_eq_true] at h
      rw [treeElements, treeElements, tree_eq_of_boxesFinite hboxed x h.1,
        treeElements_eq hboxed xs h.2]

theorem treeProperties_eq {boxed : JsNumber Num → Json (JsNumber Num)}
    (hboxed : ∀ n, n.isFinite = true → boxed n = .number n) :
    ∀ ps : List (Text × JsValue Num), boxesFiniteProperties ps = true →
      treeProperties boxed ps = treeProperties .number ps
  | [], _ => by rw [treeProperties, treeProperties]
  | (key, x) :: ps, h => by
      rw [boxesFiniteProperties, Bool.and_eq_true] at h
      rw [treeProperties, treeProperties, tree_eq_of_boxesFinite hboxed x h.1,
        treeProperties_eq hboxed ps h.2]

end

theorem jsonValue_eq_written {v : JsValue Num} (hv : v.boxesFinite = true) :
    v.jsonValue = v.written :=
  tree_eq_of_boxesFinite (fun _ hn => if_pos hn) v hv

/-- The serialiser's text reads back as the JSON value of what was serialised, provided
that no `Number` object holds a number that is not finite; otherwise it is no JSON. -/
theorem decode_jsonToStr {fmt : JsNumberFormat Num} {v : JsValue Num} {t : Text}
    (ht : jsonToStr fmt v = some t) (hv : v.isDropped = false) :
    Json.decode (tokens fmt) t = if v.boxesFinite = true then some v.jsonValue else none := by
  rw [jsonToStr_eq v t ht hv, decode_tree, written_allNumbers]
  by_cases hfinite : v.boxesFinite = true
  · rw [if_pos hfinite, if_pos hfinite, jsonValue_eq_written hfinite]
  · rw [if_neg hfinite, if_neg hfinite]

/-- Natural numbers in decimal digits. -/
def decimalFormat : JsNumberFormat Nat where
  toText := Json.decimalFormat.toText
  ofText := Json.decimalFormat.ofText
  toText_ne_nil n := (Json.decimalFormat_exact n).1
  toText_units n := (Json.decimalFormat_exact n).2.1
  ofText_toText n := (Json.decimalFormat_exact n).2.2
  ofText_nil := rfl
  ofText_minus := rfl

end Bridge
