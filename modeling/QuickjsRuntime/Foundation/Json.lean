import Mathlib.Data.List.TakeDrop
import QuickjsRuntime.Foundation.Text

/-!
# JSON texts

JSON values over an arbitrary type of numbers, their rendering without white space, and a
recursive-descent reader. Texts are lists of UTF-16 code units. A string is rendered the
way `JSON.stringify` does it: control characters and lone surrogates are escaped, all
other units are copied.

The main result says what the reader makes of a rendered value: it returns the value when
every number in it has a text that is read back, and fails when one of them has a text
that is not a JSON number.
-/

namespace Json

open Utf16 (Text units)

/-! ## Units with a meaning -/

def quotationMark : Nat := 0x22
def backslash : Nat := 0x5C
def comma : Nat := 0x2C
def colon : Nat := 0x3A
def openBracket : Nat := 0x5B
def closeBracket : Nat := 0x5D
def openBrace : Nat := 0x7B
def closeBrace : Nat := 0x7D

def isSpace (u : Nat) : Bool :=
  u = 0x20 || u = 0x09 || u = 0x0A || u = 0x0D

/-- Digits, signs, the decimal point and the exponent mark. -/
def isNumberUnit (u : Nat) : Bool :=
  (0x30 ≤ u && u ≤ 0x39) || u = 0x2B || u = 0x2D || u = 0x2E || u = 0x45 || u = 0x65

def isHigh (u : Nat) : Bool := 0xD800 ≤ u && u < 0xDC00
def isLow (u : Nat) : Bool := 0xDC00 ≤ u && u < 0xE000

/-! ## Rendering -/

def hexDigit (d : Nat) : Nat :=
  if d < 10 then 0x30 + d else 0x57 + d

def unicodeEscape (u : Nat) : Text :=
  [backslash, 0x75, hexDigit (u / 4096 % 16), hexDigit (u / 256 % 16),
    hexDigit (u / 16 % 16), hexDigit (u % 16)]

/-- The letter of a two-unit escape. -/
def shortEscape (u : Nat) : Option Nat :=
  if u = 0x09 then some 0x74
  else if u = 0x0D then some 0x72
  else if u = 0x0A then some 0x6E
  else if u = 0x08 then some 0x62
  else if u = 0x0C then some 0x66
  else if u = quotationMark ∨ u = backslash then some u
  else none

/-- One unit that is not part of a surrogate pair. -/
def escapeUnit (u : Nat) : Text :=
  match shortEscape u with
  | some letter => [backslash, letter]
  | none => if u < 32 || isHigh u || isLow u then unicodeEscape u else [u]

def escapeUnits : Text → Text
  | [] => []
  | [u] => escapeUnit u
  | u :: v :: rest =>
    if isHigh u && isLow v then u :: v :: escapeUnits rest
    else escapeUnit u ++ escapeUnits (v :: rest)

def quote (s : Text) : Text :=
  quotationMark :: (escapeUnits s ++ [quotationMark])

end Json

/-- JSON values with numbers in `N`; the members of an object are listed in order. -/
inductive Json (N : Type) where
  | null
  | bool (value : Bool)
  | number (value : N)
  | string (value : Utf16.Text)
  | array (elements : List (Json N))
  | object (members : List (Utf16.Text × Json N))

namespace Json

open Utf16 (Text units)

variable {N : Type}

/-- How numbers are written and read. -/
structure NumberFormat (N : Type) where
  toText : N → Text
  ofText : Text → Option N

mutual

def render (fmt : NumberFormat N) : Json N → Text
  | .null => units "null"
  | .bool true => units "true"
  | .bool false => units "false"
  | .number n => fmt.toText n
  | .string s => quote s
  | .array [] => [openBracket, closeBracket]
  | .array (x :: xs) =>
    openBracket :: (x.render fmt ++ (renderElements fmt xs ++ [closeBracket]))
  | .object [] => [openBrace, closeBrace]
  | .object ((key, x) :: ms) =>
    openBrace :: (quote key ++ colon :: (x.render fmt ++ (renderMembers fmt ms ++ [closeBrace])))

/-- Elements after the first one. -/
def renderElements (fmt : NumberFormat N) : List (Json N) → Text
  | [] => []
  | x :: xs => comma :: (x.render fmt ++ renderElements fmt xs)

/-- Members after the first one. -/
def renderMembers (fmt : NumberFormat N) : List (Text × Json N) → Text
  | [] => []
  | (key, x) :: ms =>
    comma :: (quote key ++ colon :: (x.render fmt ++ renderMembers fmt ms))

end

mutual

/-- Every number in the value satisfies the test. -/
def allNumbers (p : N → Bool) : Json N → Bool
  | .null | .bool _ | .string _ => true
  | .number n => p n
  | .array xs => allElements p xs
  | .object ms => allMembers p ms

def allElements (p : N → Bool) : List (Json N) → Bool
  | [] => true
  | x :: xs => x.allNumbers p && allElements p xs

def allMembers (p : N → Bool) : List (Text × Json N) → Bool
  | [] => true
  | (_, x) :: ms => x.allNumbers p && allMembers p ms

end

/-! ## Reading -/

def skipSpace (t : Text) : Text :=
  t.dropWhile isSpace

/-- Read one given unit after white space. -/
def expect (u : Nat) (t : Text) : Option Text :=
  match skipSpace t with
  | [] => none
  | v :: rest => if v = u then some rest else none

def hexValue (u : Nat) : Option Nat :=
  if 0x30 ≤ u ∧ u ≤ 0x39 then some (u - 0x30)
  else if 0x61 ≤ u ∧ u ≤ 0x66 then some (u - 0x57)
  else if 0x41 ≤ u ∧ u ≤ 0x46 then some (u - 0x37)
  else none

def hexUnit (a b c d : Nat) : Option Nat := do
  let a ← hexValue a
  let b ← hexValue b
  let c ← hexValue c
  let d ← hexValue d
  return a * 4096 + b * 256 + c * 16 + d

def unescape (letter : Nat) : Option Nat :=
  if letter = 0x74 then some 0x09
  else if letter = 0x72 then some 0x0D
  else if letter = 0x6E then some 0x0A
  else if letter = 0x62 then some 0x08
  else if letter = 0x66 then some 0x0C
  else if letter = quotationMark ∨ letter = backslash ∨ letter = 0x2F then some letter
  else none

/-- The contents of a string and what follows its closing quotation mark. -/
def readString : Text → Option (Text × Text)
  | [] => none
  | u :: rest =>
    if u = quotationMark then some ([], rest)
    else if u = backslash then
      match rest with
      | [] => none
      | letter :: rest =>
        if letter = 0x75 then
          match rest with
          | a :: b :: c :: d :: rest => do
              let u ← hexUnit a b c d
              let (s, rest) ← readString rest
              return (u :: s, rest)
          | _ => none
        else do
          let u ← unescape letter
          let (s, rest) ← readString rest
          return (u :: s, rest)
    else if u < 32 then none
    else do
      let (s, rest) ← readString rest
      return (u :: s, rest)

def readNumber (fmt : NumberFormat N) (t : Text) : Option (Json N × Text) := do
  let n ← fmt.ofText (t.takeWhile isNumberUnit)
  return (.number n, t.dropWhile isNumberUnit)

/-- A value with no parts, by the letters it starts with. -/
def readScalar (fmt : NumberFormat N) (t : Text) : Option (Json N × Text) :=
  if (units "null").isPrefixOf t then some (.null, t.drop 4)
  else if (units "true").isPrefixOf t then some (.bool true, t.drop 4)
  else if (units "false").isPrefixOf t then some (.bool false, t.drop 5)
  else readNumber fmt t

mutual

def readValue (fmt : NumberFormat N) : Nat → Text → Option (Json N × Text)
  | 0, _ => none
  | fuel + 1, t =>
    match skipSpace t with
    | [] => none
    | u :: rest =>
      if u = quotationMark then do
        let (s, rest) ← readString rest
        return (.string s, rest)
      else if u = openBracket then
        match expect closeBracket rest with
        | some rest => some (.array [], rest)
        | none => do
            let (xs, rest) ← readElements fmt fuel rest
            return (.array xs, rest)
      else if u = openBrace then
        match expect closeBrace rest with
        | some rest => some (.object [], rest)
        | none => do
            let (ms, rest) ← readMembers fmt fuel rest
            return (.object ms, rest)
      else readScalar fmt (u :: rest)

/-- One or more elements and the closing bracket. -/
def readElements (fmt : NumberFormat N) : Nat → Text → Option (List (Json N) × Text)
  | 0, _ => none
  | fuel + 1, t => do
      let (x, t) ← readValue fmt fuel t
      match expect comma t with
      | some t => do
          let (xs, t) ← readElements fmt fuel t
          return (x :: xs, t)
      | none => do
          let t ← expect closeBracket t
          return ([x], t)

/-- One or more members and the closing brace. -/
def readMembers (fmt : NumberFormat N) :
    Nat → Text → Option (List (Text × Json N) × Text)
  | 0, _ => none
  | fuel + 1, t => do
      let t ← expect quotationMark t
      let (key, t) ← readString t
      let t ← expect colon t
      let (x, t) ← readValue fmt fuel t
      match expect comma t with
      | some t => do
          let (ms, t) ← readMembers fmt fuel t
          return ((key, x) :: ms, t)
      | none => do
          let t ← expect closeBrace t
          return ([(key, x)], t)

end

/-- A whole text. Each call of the reader consumes a unit, so the length bounds the depth. -/
def decode (fmt : NumberFormat N) (t : Text) : Option (Json N) := do
  let (x, rest) ← readValue fmt (t.length + 1) t
  if skipSpace rest = [] then some x else none

/-! ## Strings are read back -/

theorem hexValue_hexDigit {d : Nat} (hd : d < 16) : hexValue (hexDigit d) = some d := by
  revert d
  decide

theorem hexUnit_digits {u : Nat} (hu : u < 65536) :
    hexUnit (hexDigit (u / 4096 % 16)) (hexDigit (u / 256 % 16)) (hexDigit (u / 16 % 16))
      (hexDigit (u % 16)) = some u := by
  have hlt (n : Nat) : n % 16 < 16 := Nat.mod_lt _ (by decide)
  simp only [hexUnit, hexValue_hexDigit (hlt _), Option.bind_eq_bind, Option.bind_some,
    Option.pure_def, Option.some.injEq]
  omega

theorem unescape_shortEscape {u letter : Nat} (h : shortEscape u = some letter) :
    letter ≠ 0x75 ∧ unescape letter = some u := by
  unfold shortEscape at h
  repeat' split at h
  all_goals
    first
    | (cases h; subst_vars; decide)
    | skip
  · next hmark =>
      cases h
      rcases hmark with rfl | rfl <;> decide
  · cases h

/-- What reading one more unit of a string adds. -/
def prepend (u : Nat) (t : Option (Text × Text)) : Option (Text × Text) :=
  t.map fun p => (u :: p.1, p.2)

theorem readString_end (t : Text) : readString (quotationMark :: t) = some ([], t) := by
  rw [readString.eq_def]
  exact if_pos rfl

theorem readString_plain {u : Nat} (t : Text) (hmark : u ≠ quotationMark) (hslash : u ≠ backslash)
    (hprint : 32 ≤ u) : readString (u :: t) = prepend u (readString t) := by
  rw [readString.eq_def]
  simp only [if_neg hmark, if_neg hslash, if_neg (Nat.not_lt.mpr hprint)]
  cases readString t <;> rfl

theorem readString_short {u letter : Nat} (t : Text) (hletter : letter ≠ 0x75)
    (hu : unescape letter = some u) :
    readString (backslash :: letter :: t) = prepend u (readString t) := by
  have hmark : backslash ≠ quotationMark := by decide
  rw [readString.eq_def]
  simp only [if_neg hmark, if_true, if_neg hletter, hu]
  cases readString t <;> rfl

theorem readString_unicode {u : Nat} (t : Text) (hu : u < 65536) :
    readString (unicodeEscape u ++ t) = prepend u (readString t) := by
  have hmark : backslash ≠ quotationMark := by decide
  simp only [unicodeEscape, List.cons_append, List.nil_append]
  rw [readString.eq_def]
  simp only [if_neg hmark, if_true, hexUnit_digits hu]
  cases readString t <;> rfl

/-- Reading an escaped unit gives the unit. -/
theorem readString_escapeUnit (u : Nat) (t : Text) :
    readString (escapeUnit u ++ t) = prepend u (readString t) := by
  unfold escapeUnit
  cases hshort : shortEscape u with
  | some letter =>
    obtain ⟨hletter, hu⟩ := unescape_shortEscape hshort
    exact readString_short t hletter hu
  | none =>
    have hmark : u ≠ quotationMark ∧ u ≠ backslash := by
      constructor <;> rintro rfl <;> exact absurd hshort (by decide)
    by_cases hescape : (u < 32 || isHigh u || isLow u) = true
    · rw [if_pos hescape]
      apply readString_unicode
      simp only [isHigh, isLow, Bool.or_eq_true, Bool.and_eq_true, decide_eq_true_eq]
        at hescape
      omega
    · rw [if_neg hescape]
      have hprint : 32 ≤ u := by
        by_contra hlt
        exact hescape (by simp [Nat.not_le.mp hlt])
      exact readString_plain t hmark.1 hmark.2 hprint

/-- The contents of a quoted string are read back unit by unit. -/
theorem readString_escapeUnits (s t : Text) :
    readString (escapeUnits s ++ quotationMark :: t) = some (s, t) := by
  fun_induction escapeUnits s with
  | case1 => exact readString_end t
  | case2 u =>
    rw [readString_escapeUnit, readString_end]
    rfl
  | case3 u v rest hpair ih =>
    -- a surrogate pair is copied
    simp only [isHigh, isLow, Bool.and_eq_true, decide_eq_true_eq] at hpair
    have hu : u ≠ quotationMark ∧ u ≠ backslash := by
      simp only [quotationMark, backslash]
      omega
    have hv : v ≠ quotationMark ∧ v ≠ backslash := by
      simp only [quotationMark, backslash]
      omega
    rw [List.cons_append, List.cons_append, readString_plain _ hu.1 hu.2 (by omega),
      readString_plain _ hv.1 hv.2 (by omega), ih]
    rfl
  | case4 u v rest hpair ih =>
    rw [List.append_assoc, readString_escapeUnit, ih]
    rfl

theorem quote_append (s t : Text) :
    quote s ++ t = quotationMark :: (escapeUnits s ++ quotationMark :: t) := by
  simp [quote]

/-! ## Values are read back -/

theorem skipSpace_cons {u : Nat} (t : Text) (hu : isSpace u = false) :
    skipSpace (u :: t) = u :: t := by
  rw [skipSpace, List.dropWhile_cons_of_neg (by simp [hu])]

theorem expect_self {u : Nat} (t : Text) (hu : isSpace u = false) :
    expect u (u :: t) = some t := by
  rw [expect, skipSpace_cons t hu]
  exact if_pos rfl

theorem expect_of_ne {u v : Nat} (t : Text) (hv : isSpace v = false) (hne : v ≠ u) :
    expect u (v :: t) = none := by
  rw [expect, skipSpace_cons t hv]
  exact if_neg hne

/-- What may follow a number: nothing that continues it. -/
def Delimited (t : Text) : Prop :=
  ∀ u ∈ t.head?, isNumberUnit u = false

/-- The text of the number is read back, whatever follows it. -/
def NumberFormat.Exact (fmt : NumberFormat N) (n : N) : Prop :=
  fmt.toText n ≠ [] ∧ (∀ u ∈ fmt.toText n, isNumberUnit u = true) ∧
    fmt.ofText (fmt.toText n) = some n

/-- No JSON value starts with the text of the number, and the text does not look like the
end of an array. -/
structure NumberFormat.Foreign (fmt : NumberFormat N) (n : N) : Prop where
  starts : ∃ u us, fmt.toText n = u :: us ∧ isSpace u = false ∧ u ≠ closeBracket
  unread : ∀ fuel t, readValue fmt fuel (fmt.toText n ++ t) = none

theorem isNumberUnit_starts {u : Nat} (hu : isNumberUnit u = true) :
    isSpace u = false ∧ u ≠ quotationMark ∧ u ≠ openBracket ∧ u ≠ openBrace ∧
      u ≠ closeBracket ∧ u ≠ 0x6E ∧ u ≠ 0x74 ∧ u ≠ 0x66 := by
  simp only [isNumberUnit, Bool.or_eq_true, Bool.and_eq_true, decide_eq_true_eq] at hu
  simp only [isSpace, quotationMark, openBracket, openBrace, closeBracket,
    Bool.or_eq_false_iff, decide_eq_false_iff_not]
  omega

theorem isPrefixOf_of_head_ne {u v : Nat} {us vs : Text} (hne : u ≠ v) :
    (u :: us).isPrefixOf (v :: vs) = false := by
  simp [List.isPrefixOf, hne]

theorem readScalar_number {u : Nat} (fmt : NumberFormat N) (t : Text) (hn : u ≠ 0x6E)
    (ht : u ≠ 0x74) (hf : u ≠ 0x66) : readScalar fmt (u :: t) = readNumber fmt (u :: t) := by
  have hnull : (units "null").isPrefixOf (u :: t) = false := isPrefixOf_of_head_ne hn.symm
  have htrue : (units "true").isPrefixOf (u :: t) = false := isPrefixOf_of_head_ne ht.symm
  have hfalse : (units "false").isPrefixOf (u :: t) = false := isPrefixOf_of_head_ne hf.symm
  simp [readScalar, hnull, htrue, hfalse]

theorem readNumber_append {fmt : NumberFormat N} {n : N} {t : Text} (hn : fmt.Exact n)
    (ht : Delimited t) : readNumber fmt (fmt.toText n ++ t) = some (.number n, t) := by
  obtain ⟨-, hunits, hread⟩ := hn
  have htake : t.takeWhile isNumberUnit = [] := by
    cases t with
    | nil => rfl
    | cons u t => exact List.takeWhile_cons_of_neg (by simp [ht u rfl])
  have hdrop : t.dropWhile isNumberUnit = t := by
    cases t with
    | nil => rfl
    | cons u t => exact List.dropWhile_cons_of_neg (by simp [ht u rfl])
  simp [readNumber, List.takeWhile_append_of_pos hunits, List.dropWhile_append_of_pos hunits,
    htake, hdrop, hread]

theorem readValue_number {fmt : NumberFormat N} {n : N} {t : Text} (fuel : Nat)
    (hn : fmt.Exact n) (ht : Delimited t) :
    readValue fmt (fuel + 1) (fmt.toText n ++ t) = some (.number n, t) := by
  have hnumber := readNumber_append hn ht
  obtain ⟨hne, hunits, -⟩ := hn
  obtain ⟨u, us, htext⟩ := List.exists_cons_of_ne_nil hne
  have hu : isNumberUnit u = true := hunits u (by simp [htext])
  obtain ⟨hspace, hmark, hbracket, hbrace, -, hN, hT, hF⟩ := isNumberUnit_starts hu
  rw [htext, List.cons_append] at hnumber ⊢
  rw [readValue, skipSpace_cons _ hspace]
  simp only [if_neg hmark, if_neg hbracket, if_neg hbrace]
  rw [readScalar_number fmt _ hN hT hF, hnumber]

/-- What the reader is to make of a rendered value: the value and what follows it, unless
some number in it fails the test. -/
def Reads (fmt : NumberFormat N) (p : N → Bool) (x : Json N) : Prop :=
  ∀ fuel t, (x.render fmt).length ≤ fuel → Delimited t →
    readValue fmt fuel (x.render fmt ++ t) = if x.allNumbers p = true then some (x, t) else none

theorem reads_of_succ {fmt : NumberFormat N} {p : N → Bool} {x : Json N}
    (hpos : 0 < (x.render fmt).length)
    (h : ∀ fuel t, (x.render fmt).length ≤ fuel + 1 → Delimited t →
      readValue fmt (fuel + 1) (x.render fmt ++ t) =
        if x.allNumbers p = true then some (x, t) else none) : Reads fmt p x := by
  intro fuel t hfuel ht
  obtain ⟨fuel, rfl⟩ := Nat.exists_eq_add_of_le' (Nat.lt_of_lt_of_le hpos hfuel)
  exact h fuel t hfuel ht

section Elements

variable {fmt : NumberFormat N} {p : N → Bool} {x : Json N} {fuel : Nat} {t : Text}

theorem readElements_last (hx : Reads fmt p x) (hfuel : (x.render fmt).length + 1 ≤ fuel) :
    readElements fmt fuel (x.render fmt ++ closeBracket :: t) =
      if x.allNumbers p = true then some ([x], t) else none := by
  obtain ⟨fuel, rfl⟩ := Nat.exists_eq_add_of_le' (Nat.le_of_add_left_le hfuel)
  rw [readElements, hx fuel _ (Nat.le_of_succ_le_succ hfuel) (by simp [Delimited]; decide)]
  by_cases hgood : x.allNumbers p = true
  · have hcomma : expect comma (closeBracket :: t) = none :=
      expect_of_ne t (by decide) (by decide)
    have hclose : expect closeBracket (closeBracket :: t) = some t := expect_self t (by decide)
    simp [hgood, hcomma, hclose]
  · simp [hgood]

theorem readElements_cons {xs : List (Json N)} {rest : Text} {good : Bool}
    (hx : Reads fmt p x) (hfuel : (x.render fmt).length + 1 ≤ fuel + 1)
    (hxs : readElements fmt fuel rest = if good = true then some (xs, t) else none) :
    readElements fmt (fuel + 1) (x.render fmt ++ comma :: rest) =
      if (x.allNumbers p && good) = true then some (x :: xs, t) else none := by
  rw [readElements, hx fuel _ (Nat.le_of_succ_le_succ hfuel) (by simp [Delimited]; decide)]
  by_cases hgood : x.allNumbers p = true
  · have hcomma : expect comma (comma :: rest) = some rest := expect_self rest (by decide)
    cases good <;> simp [hgood, hcomma, hxs]
  · simp [hgood]

theorem readMember {key : Text} {rest : Text} (hx : Reads fmt p x)
    (hfuel : (x.render fmt).length + 1 ≤ fuel + 1) (hrest : Delimited rest) :
    readMembers fmt (fuel + 1) (quote key ++ colon :: (x.render fmt ++ rest)) =
      if x.allNumbers p = true then
        match expect comma rest with
        | some t => do
            let (ms, t) ← readMembers fmt fuel t
            return ((key, x) :: ms, t)
        | none => do
            let t ← expect closeBrace rest
            return ([(key, x)], t)
      else none := by
  have hmark (t : Text) : expect quotationMark (quotationMark :: t) = some t :=
    expect_self t (by decide)
  have hcolon (t : Text) : expect colon (colon :: t) = some t := expect_self t (by decide)
  rw [quote_append, readMembers, hmark]
  simp only [Option.bind_eq_bind, Option.bind_some, readString_escapeUnits, hcolon]
  rw [hx fuel rest (Nat.le_of_succ_le_succ hfuel) hrest]
  by_cases hgood : x.allNumbers p = true
  · simp [hgood]
  · simp [hgood]

theorem readMembers_last {key : Text} (hx : Reads fmt p x)
    (hfuel : (x.render fmt).length + 1 ≤ fuel) :
    readMembers fmt fuel (quote key ++ colon :: (x.render fmt ++ closeBrace :: t)) =
      if x.allNumbers p = true then some ([(key, x)], t) else none := by
  obtain ⟨fuel, rfl⟩ := Nat.exists_eq_add_of_le' (Nat.le_of_add_left_le hfuel)
  have hcomma : expect comma (closeBrace :: t) = none := expect_of_ne t (by decide) (by decide)
  have hclose : expect closeBrace (closeBrace :: t) = some t := expect_self t (by decide)
  rw [readMember hx hfuel (by simp [Delimited]; decide), hcomma, hclose]
  rfl

theorem readMembers_cons {key : Text} {ms : List (Text × Json N)} {rest : Text} {good : Bool}
    (hx : Reads fmt p x) (hfuel : (x.render fmt).length + 1 ≤ fuel + 1)
    (hms : readMembers fmt fuel rest = if good = true then some (ms, t) else none) :
    readMembers fmt (fuel + 1) (quote key ++ colon :: (x.render fmt ++ comma :: rest)) =
      if (x.allNumbers p && good) = true then some ((key, x) :: ms, t) else none := by
  have hcomma : expect comma (comma :: rest) = some rest := expect_self rest (by decide)
  rw [readMember hx hfuel (by simp [Delimited]; decide), hcomma]
  by_cases hgood : x.allNumbers p = true
  · cases good <;> simp [hgood, hms]
  · simp [hgood]

end Elements

section Roundtrip

variable {fmt : NumberFormat N} {p : N → Bool}

theorem render_starts (hexact : ∀ n, p n = true → fmt.Exact n)
    (hforeign : ∀ n, p n = false → fmt.Foreign n) (x : Json N) :
    ∃ u us, x.render fmt = u :: us ∧ isSpace u = false ∧ u ≠ closeBracket := by
  cases x with
  | null => exact ⟨_, _, by rw [render]; rfl, by decide, by decide⟩
  | bool b => cases b <;> exact ⟨_, _, by rw [render]; rfl, by decide, by decide⟩
  | string s => exact ⟨_, _, by rw [render]; rfl, by decide, by decide⟩
  | array xs => cases xs <;> exact ⟨_, _, by rw [render], by decide, by decide⟩
  | object ms =>
    cases ms with
    | nil => exact ⟨_, _, by rw [render], by decide, by decide⟩
    | cons m ms => exact ⟨_, _, by rw [render], by decide, by decide⟩
  | number n =>
    rw [render]
    cases hp : p n with
    | false => exact (hforeign n hp).starts
    | true =>
      obtain ⟨hne, hunits, -⟩ := hexact n hp
      obtain ⟨u, us, htext⟩ := List.exists_cons_of_ne_nil hne
      have hu := isNumberUnit_starts (hunits u (by simp [htext]))
      exact ⟨u, us, htext, hu.1, hu.2.2.2.2.1⟩

theorem reads_string (s : Text) : Reads fmt p (.string s) := by
  apply reads_of_succ (by simp [render, quote])
  intro fuel t _ _
  rw [render, quote_append, readValue, skipSpace_cons _ (by decide)]
  simp [readString_escapeUnits, allNumbers]

/-- The three literal names. -/
theorem reads_literal {x : Json N} {u : Nat} {us : Text} (htext : x.render fmt = u :: us)
    (hu : isSpace u = false ∧ u ≠ quotationMark ∧ u ≠ openBracket ∧ u ≠ openBrace)
    (hgood : x.allNumbers p = true)
    (hscalar : ∀ t, readScalar fmt (u :: us ++ t) = some (x, t)) : Reads fmt p x := by
  apply reads_of_succ (by simp [htext])
  intro fuel t _ _
  obtain ⟨hspace, hmark, hbracket, hbrace⟩ := hu
  have hread := hscalar t
  rw [htext, List.cons_append] at *
  rw [readValue, skipSpace_cons _ hspace]
  simp only [if_neg hmark, if_neg hbracket, if_neg hbrace, hread, if_pos hgood]

theorem reads_null : Reads fmt p .null :=
  reads_literal (u := 0x6E) (by rw [render]; rfl) (by decide)
    (by rw [allNumbers]) fun _ => rfl

theorem reads_bool (b : Bool) : Reads fmt p (.bool b) := by
  cases b with
  | true =>
    exact reads_literal (u := 0x74) (by rw [render]; rfl) (by decide) (by rw [allNumbers])
      fun _ => rfl
  | false =>
    exact reads_literal (u := 0x66) (by rw [render]; rfl) (by decide) (by rw [allNumbers])
      fun _ => rfl

theorem reads_number (hexact : ∀ n, p n = true → fmt.Exact n)
    (hforeign : ∀ n, p n = false → fmt.Foreign n) (n : N) : Reads fmt p (.number n) := by
  intro fuel t hfuel ht
  have htest : (Json.number n).allNumbers p = p n := by rw [allNumbers]
  rw [render] at hfuel ⊢
  by_cases hp : p n = true
  · have hpos : 0 < (fmt.toText n).length := List.length_pos_iff.mpr (hexact n hp).1
    obtain ⟨fuel, rfl⟩ := Nat.exists_eq_add_of_le' (Nat.lt_of_lt_of_le hpos hfuel)
    rw [if_pos (htest.trans hp)]
    exact readValue_number fuel (hexact n hp) ht
  · have hnot : p n = false := Bool.eq_false_iff.mpr hp
    rw [if_neg (by rw [htest]; exact hp)]
    exact (hforeign n hnot).unread fuel t

theorem reads_array_nil : Reads fmt p (.array []) := by
  apply reads_of_succ (by simp [render])
  intro fuel t _ _
  have hclose : expect closeBracket (closeBracket :: t) = some t := expect_self t (by decide)
  rw [render, List.cons_append, readValue, skipSpace_cons _ (by decide)]
  simp [hclose, allNumbers, allElements, openBracket, quotationMark]

theorem reads_object_nil : Reads fmt p (.object []) := by
  apply reads_of_succ (by simp [render])
  intro fuel t _ _
  have hclose : expect closeBrace (closeBrace :: t) = some t := expect_self t (by decide)
  rw [render, List.cons_append, readValue, skipSpace_cons _ (by decide)]
  simp [hclose, allNumbers, allMembers, openBracket, openBrace, quotationMark]

mutual

/-- Every rendered value is read back, or refused when one of its numbers is foreign. -/
theorem reads (hexact : ∀ n, p n = true → fmt.Exact n)
    (hforeign : ∀ n, p n = false → fmt.Foreign n) : ∀ x : Json N, Reads fmt p x
  | .null => reads_null
  | .bool b => reads_bool b
  | .number n => reads_number hexact hforeign n
  | .string s => reads_string s
  | .array [] => reads_array_nil
  | .array (x :: xs) => by
      have hxs := reads_elements hexact hforeign xs x (reads hexact hforeign x)
      apply reads_of_succ (by simp [render])
      intro fuel t hfuel _
      obtain ⟨u, us, hstart, hspace, hne⟩ := render_starts hexact hforeign x
      have hopen (r : Text) : expect closeBracket (x.render fmt ++ r) = none := by
        rw [hstart]
        exact expect_of_ne _ hspace hne
      simp only [render, List.length_cons, List.length_append, List.length_nil] at hfuel
      simp only [render, List.cons_append, List.append_assoc, List.nil_append]
      rw [readValue, skipSpace_cons _ (by decide)]
      simp only [show openBracket ≠ quotationMark by decide, if_false, if_true, hopen]
      rw [hxs fuel t (by omega), allNumbers, allElements]
      split <;> rfl
  | .object [] => reads_object_nil
  | .object ((key, x) :: ms) => by
      have hms := reads_members hexact hforeign ms key x (reads hexact hforeign x)
      apply reads_of_succ (by simp [render])
      intro fuel t hfuel _
      have hopen (r : Text) : expect closeBrace (quote key ++ r) = none :=
        expect_of_ne _ (by decide) (by decide)
      simp only [render, List.length_cons, List.length_append, List.length_nil] at hfuel
      simp only [render, List.cons_append, List.append_assoc, List.nil_append]
      rw [readValue, skipSpace_cons _ (by decide)]
      simp only [show openBrace ≠ quotationMark by decide, show openBrace ≠ openBracket by decide,
        if_false, if_true, hopen]
      rw [hms fuel t (by omega), allNumbers, allMembers]
      split <;> rfl

theorem reads_elements (hexact : ∀ n, p n = true → fmt.Exact n)
    (hforeign : ∀ n, p n = false → fmt.Foreign n) :
    ∀ (xs : List (Json N)) (x : Json N), Reads fmt p x → ∀ fuel t,
      (x.render fmt).length + (renderElements fmt xs).length + 1 ≤ fuel →
      readElements fmt fuel (x.render fmt ++ (renderElements fmt xs ++ closeBracket :: t)) =
        if (x.allNumbers p && allElements p xs) = true then some (x :: xs, t) else none
  | [], x, hx, fuel, t, hfuel => by
      simpa only [renderElements, allElements, List.nil_append, Bool.and_true] using
        readElements_last hx (by omega)
  | y :: ys, x, hx, fuel, t, hfuel => by
      have hys := reads_elements hexact hforeign ys y (reads hexact hforeign y)
      obtain ⟨fuel, rfl⟩ := Nat.exists_eq_add_of_le' (Nat.le_of_add_left_le hfuel)
      simp only [renderElements, List.length_cons, List.length_append] at hfuel
      simp only [renderElements, List.cons_append, List.append_assoc, allElements]
      exact readElements_cons hx (by omega) (hys fuel t (by omega))

theorem reads_members (hexact : ∀ n, p n = true → fmt.Exact n)
    (hforeign : ∀ n, p n = false → fmt.Foreign n) :
    ∀ (ms : List (Text × Json N)) (key : Text) (x : Json N), Reads fmt p x → ∀ fuel t,
      (x.render fmt).length + (renderMembers fmt ms).length + 1 ≤ fuel →
      readMembers fmt fuel
          (quote key ++ colon :: (x.render fmt ++ (renderMembers fmt ms ++ closeBrace :: t))) =
        if (x.allNumbers p && allMembers p ms) = true then some ((key, x) :: ms, t) else none
  | [], key, x, hx, fuel, t, hfuel => by
      simpa only [renderMembers, allMembers, List.nil_append, Bool.and_true] using
        readMembers_last hx (by omega)
  | (next, y) :: ms, key, x, hx, fuel, t, hfuel => by
      have hms := reads_members hexact hforeign ms next y (reads hexact hforeign y)
      obtain ⟨fuel, rfl⟩ := Nat.exists_eq_add_of_le' (Nat.le_of_add_left_le hfuel)
      simp only [renderMembers, List.length_cons, List.length_append] at hfuel
      simp only [renderMembers, List.cons_append, List.append_assoc, allMembers]
      exact readMembers_cons hx (by omega) (hms fuel t (by omega))

end

/-- What decoding makes of a rendered value. -/
theorem decode_render (hexact : ∀ n, p n = true → fmt.Exact n)
    (hforeign : ∀ n, p n = false → fmt.Foreign n) (x : Json N) :
    decode fmt (x.render fmt) = if x.allNumbers p = true then some x else none := by
  have hread := reads hexact hforeign x ((x.render fmt).length + 1) [] (Nat.le_succ _)
    (by simp [Delimited])
  rw [List.append_nil] at hread
  rw [decode, hread]
  split <;> rfl

end Roundtrip

/-! ## Numbers that are all read back -/

mutual

theorem allNumbers_true : ∀ x : Json N, x.allNumbers (fun _ => true) = true
  | .null => by rw [allNumbers]
  | .bool _ => by rw [allNumbers]
  | .string _ => by rw [allNumbers]
  | .number _ => by rw [allNumbers]
  | .array xs => by rw [allNumbers, allElements_true xs]
  | .object ms => by rw [allNumbers, allMembers_true ms]

theorem allElements_true : ∀ xs : List (Json N), allElements (fun _ => true) xs = true
  | [] => by rw [allElements]
  | x :: xs => by rw [allElements, allNumbers_true x, allElements_true xs]; rfl

theorem allMembers_true : ∀ ms : List (Text × Json N), allMembers (fun _ => true) ms = true
  | [] => by rw [allMembers]
  | (_, x) :: ms => by rw [allMembers, allNumbers_true x, allMembers_true ms]; rfl

end

theorem decode_render_of_exact {fmt : NumberFormat N} (hexact : ∀ n, fmt.Exact n) (x : Json N) :
    decode fmt (x.render fmt) = some x := by
  have hdecode := decode_render (p := fun _ => true) (fun n _ => hexact n)
    (fun _ h => Bool.noConfusion h) x
  rwa [if_pos (allNumbers_true x)] at hdecode

/-- Natural numbers in decimal digits. -/
def decimalFormat : NumberFormat Nat where
  toText := Utf16.decimal
  ofText t := if Utf16.decimal (Utf16.digitsValue t) = t then some (Utf16.digitsValue t) else none

theorem decimalFormat_exact (n : Nat) : decimalFormat.Exact n := by
  refine ⟨Utf16.decimal_ne_nil n, ?_, ?_⟩
  · intro u hu
    have hdigit := Utf16.isDigit_of_mem_decimal hu
    simp only [Utf16.isDigit, Bool.and_eq_true, decide_eq_true_eq] at hdigit
    simp only [isNumberUnit, Bool.or_eq_true, Bool.and_eq_true, decide_eq_true_eq]
    omega
  · simp [decimalFormat, Utf16.digitsValue_decimal]

end Json
