import QuickjsRuntime.Foundation.Text

/-!
# Percent-encoding

`encodeSet` of `node_compat_url.dart`. The bytes of a string come from a host hook, and
lower-casing comes from the engine. What is known of the two stands in the fields of
`Platform`: bytes of ASCII units stand for themselves and separate what is around them,
other units have bytes of at least `0x80`; lower-casing is idempotent and neither
introduces nor moves ASCII characters that are not letters.
-/

namespace Url

open Utf16 (Text units)

/-! ## Characters -/

def slash : Nat := 0x2F
def questionMark : Nat := 0x3F
def numberSign : Nat := 0x23
def colon : Nat := 0x3A
def atSign : Nat := 0x40
def dot : Nat := 0x2E
def openBracket : Nat := 0x5B
def closeBracket : Nat := 0x5D
def percent : Nat := 0x25

def isUpper (c : Nat) : Bool := 0x41 ≤ c && c ≤ 0x5A
def isLetter (c : Nat) : Bool := (0x41 ≤ c && c ≤ 0x5A) || (0x61 ≤ c && c ≤ 0x7A)

/-- The units the URL code strips at both ends of its input. -/
def isC0 (c : Nat) : Bool := c ≤ 0x20

/-- What the URL code uses of the engine and of the host. -/
structure Platform where
  /-- `String.prototype.toLowerCase` -/
  toLowerCase : Text → Text
  /-- `utf8Bytes`: the `__ncUtf8Encode` hook, or the loop that replaces it -/
  utf8Bytes : Text → List Nat
  lower_lower : ∀ s, toLowerCase (toLowerCase s) = toLowerCase s
  lower_ascii : ∀ s, (∀ c ∈ s, c < 0x80 ∧ isUpper c = false) → toLowerCase s = s
  lower_append_ne : ∀ s t, toLowerCase s = s → t ≠ [] → toLowerCase (s ++ t) ≠ s
  lower_parts : ∀ a c b, c < 0x80 → toLowerCase (a ++ c :: b) = a ++ c :: b →
    toLowerCase a = a ∧ toLowerCase b = b
  mem_lower_iff : ∀ s c, c < 0x80 → isLetter c = false → (c ∈ toLowerCase s ↔ c ∈ s)
  utf8_nil : utf8Bytes [] = []
  utf8_ascii : ∀ a c b, c < 0x80 → utf8Bytes (a ++ c :: b) = utf8Bytes a ++ c :: utf8Bytes b
  utf8_high : ∀ s, (∀ c ∈ s, 0x80 ≤ c) → ∀ b ∈ utf8Bytes s, 0x80 ≤ b
  utf8_ne_nil : ∀ s, s ≠ [] → utf8Bytes s ≠ []

theorem Platform.lower_nil (env : Platform) : env.toLowerCase [] = [] :=
  env.lower_ascii [] (by simp)

theorem Platform.lower_ne_nil (env : Platform) (s : Text) (hs : s ≠ []) :
    env.toLowerCase s ≠ [] :=
  env.lower_append_ne [] s env.lower_nil hs

/-! ## `encodeSet` -/

/-- `HX[d]` -/
def hexDigit (d : Nat) : Nat :=
  if d < 10 then 0x30 + d else 0x37 + d

def pctEncodeByte (b : Nat) : Text :=
  [percent, hexDigit (b / 16 % 16), hexDigit (b % 16)]

/-- Whether a byte has to be encoded; a path also encodes the delimiters that end it. -/
def must (isPath : Bool) (b : Nat) : Bool :=
  b ≤ 0x20 || 0x7F ≤ b || b = 0x22 || b = 0x3C || b = 0x3E || b = 0x60 ||
    (isPath && (b = questionMark || b = numberSign))

def encodeByte (isPath : Bool) (b : Nat) : Text :=
  if must isPath b then pctEncodeByte b else [b]

def encodeSet (env : Platform) (str : Text) (isPath : Bool) : Text :=
  (env.utf8Bytes str).flatMap (encodeByte isPath)

section Encode

variable {env : Platform} {isPath : Bool} {s : Text} {c : Nat}

/-- Induction over a text by its ASCII units: the units between them come in runs. -/
theorem ascii_induction {motive : Text → Prop}
    (high : ∀ s, (∀ c ∈ s, 0x80 ≤ c) → motive s)
    (step : ∀ a c b, (∀ x ∈ a, 0x80 ≤ x) → c < 0x80 → motive b → motive (a ++ c :: b))
    (s : Text) : motive s := by
  induction hn : s.length using Nat.strong_induction_on generalizing s with
  | _ n ih =>
    obtain ⟨a, b, rfl, ha, hb⟩ := Split.exists_span (fun x => decide (0x80 ≤ x)) s
    simp only [decide_eq_true_eq, decide_eq_false_iff_not, Nat.not_le] at ha hb
    cases b with
    | nil =>
      rw [List.append_nil]
      exact high a ha
    | cons c b =>
      apply step a c b ha (hb c rfl)
      exact ih b.length (by simp at hn; omega) b rfl

theorem hexDigit_cases {d : Nat} (hd : d < 16) :
    (0x30 ≤ hexDigit d ∧ hexDigit d ≤ 0x39) ∨ (0x41 ≤ hexDigit d ∧ hexDigit d ≤ 0x46) := by
  unfold hexDigit
  split <;> omega

theorem mem_pctEncodeByte {b : Nat} (hc : c ∈ pctEncodeByte b) :
    c = percent ∨ (0x30 ≤ c ∧ c ≤ 0x39) ∨ (0x41 ≤ c ∧ c ≤ 0x46) := by
  have hlt (n : Nat) : n % 16 < 16 := Nat.mod_lt _ (by decide)
  simp only [pctEncodeByte, List.mem_cons, List.not_mem_nil, or_false] at hc
  rcases hc with rfl | rfl | rfl
  · exact Or.inl rfl
  · exact Or.inr (hexDigit_cases (hlt _))
  · exact Or.inr (hexDigit_cases (hlt _))

@[simp]
theorem encodeSet_nil : encodeSet env [] isPath = [] := by
  simp [encodeSet, env.utf8_nil]

theorem encodeSet_append_ascii (a b : Text) (hc : c < 0x80) :
    encodeSet env (a ++ c :: b) isPath =
      encodeSet env a isPath ++ (encodeByte isPath c ++ encodeSet env b isPath) := by
  simp [encodeSet, env.utf8_ascii a c b hc]

theorem encodeSet_cons_kept (b : Text) (hc : c < 0x80) (hkept : must isPath c = false) :
    encodeSet env (c :: b) isPath = c :: encodeSet env b isPath := by
  have happend : encodeSet env ([] ++ c :: b) isPath = _ := encodeSet_append_ascii [] b hc
  simpa [encodeByte, hkept] using happend

theorem encodeSet_append_kept (a b : Text) (hc : c < 0x80) (hkept : must isPath c = false) :
    encodeSet env (a ++ c :: b) isPath = encodeSet env a isPath ++ c :: encodeSet env b isPath := by
  rw [encodeSet_append_ascii a b hc, encodeByte, hkept]
  rfl

theorem must_of_mem_pctEncodeByte {b : Nat} (hc : c ∈ pctEncodeByte b) :
    must isPath c = false := by
  have hcases := mem_pctEncodeByte hc
  simp only [percent] at hcases
  have hdelimiter : c ≠ questionMark ∧ c ≠ numberSign := by
    simp only [questionMark, numberSign]
    omega
  simp only [must, hdelimiter, Bool.or_eq_false_iff, decide_eq_false_iff_not, decide_false,
    Bool.or_false, Bool.and_false]
  omega

/-- Nothing in an encoded text needs encoding. -/
theorem must_of_mem_encodeSet (hc : c ∈ encodeSet env s isPath) : must isPath c = false := by
  obtain ⟨b, -, hb⟩ := List.mem_flatMap.mp hc
  unfold encodeByte at hb
  split at hb
  · exact must_of_mem_pctEncodeByte hb
  · next hmust =>
      rw [List.mem_singleton.mp hb]
      simpa using hmust

theorem lt_of_must (h : must isPath c = false) : 0x20 < c ∧ c < 0x7F := by
  simp only [must, Bool.or_eq_false_iff, decide_eq_false_iff_not] at h
  omega

/-- A text in which nothing needs encoding is left as it is. -/
theorem encodeSet_of_kept (hs : ∀ x ∈ s, must isPath x = false) :
    encodeSet env s isPath = s := by
  induction s with
  | nil => exact encodeSet_nil
  | cons c s ih =>
    have hkept := hs c List.mem_cons_self
    have hlt := lt_of_must hkept
    rw [encodeSet_cons_kept s (by omega) hkept, ih fun x hx => hs x (List.mem_cons_of_mem _ hx)]

theorem encodeSet_encodeSet : encodeSet env (encodeSet env s isPath) isPath =
    encodeSet env s isPath :=
  encodeSet_of_kept fun _ => must_of_mem_encodeSet

theorem encodeSet_eq_nil_iff : encodeSet env s isPath = [] ↔ s = [] := by
  constructor
  · intro h
    by_contra hs
    obtain ⟨b, bs, hbytes⟩ := List.exists_cons_of_ne_nil (env.utf8_ne_nil s hs)
    simp only [encodeSet, hbytes, List.flatMap_cons, List.append_eq_nil_iff] at h
    have hbyte := h.1
    unfold encodeByte at hbyte
    split at hbyte <;> simp [pctEncodeByte] at hbyte
  · rintro rfl
    exact encodeSet_nil

/-- A character that encoding neither makes nor removes. -/
structure Inert (isPath : Bool) (c : Nat) : Prop where
  kept : must isPath c = false
  not_percent : c ≠ percent
  not_hex : ¬ ((0x30 ≤ c ∧ c ≤ 0x39) ∨ (0x41 ≤ c ∧ c ≤ 0x46))

theorem Inert.lt (h : Inert isPath c) : c < 0x80 := by
  have := lt_of_must h.kept
  omega

theorem Inert.encodeSet_append (h : Inert isPath c) (a b : Text) :
    encodeSet env (a ++ c :: b) isPath = encodeSet env a isPath ++ c :: encodeSet env b isPath :=
  encodeSet_append_kept a b h.lt h.kept

theorem Inert.encodeSet_cons (h : Inert isPath c) (b : Text) :
    encodeSet env (c :: b) isPath = c :: encodeSet env b isPath :=
  encodeSet_cons_kept b h.lt h.kept

theorem Inert.not_mem_pctEncodeByte {b : Nat} (h : Inert isPath c) : c ∉ pctEncodeByte b := by
  intro hc
  rcases mem_pctEncodeByte hc with hpercent | hhex
  · exact h.not_percent hpercent
  · exact h.not_hex hhex

theorem Inert.mem_encodeByte {b : Nat} (h : Inert isPath c) :
    c ∈ encodeByte isPath b ↔ b = c := by
  unfold encodeByte
  split
  · next hmust =>
      constructor
      · intro hc
        exact absurd hc h.not_mem_pctEncodeByte
      · rintro rfl
        rw [h.kept] at hmust
        cases hmust
  · simp [eq_comm]

theorem Inert.not_mem_encodeSet_high (h : Inert isPath c) (hs : ∀ x ∈ s, 0x80 ≤ x) :
    c ∉ encodeSet env s isPath := by
  intro hc
  obtain ⟨b, hb, hcb⟩ := List.mem_flatMap.mp hc
  have hhigh := env.utf8_high s hs b hb
  have hlt := h.lt
  rw [h.mem_encodeByte] at hcb
  omega

theorem Inert.mem_encodeSet (h : Inert isPath c) : c ∈ encodeSet env s isPath ↔ c ∈ s := by
  induction s using ascii_induction with
  | high s hs =>
    have hlt := h.lt
    constructor
    · intro hc
      exact absurd hc (h.not_mem_encodeSet_high hs)
    · intro hc
      have := hs c hc
      omega
  | step a x b ha hx ih =>
    have hlt := h.lt
    have hnot : c ∉ a := fun hc => by
      have := ha c hc
      omega
    rw [encodeSet_append_ascii a b hx]
    simp only [List.mem_append, List.mem_cons, h.not_mem_encodeSet_high ha, h.mem_encodeByte,
      ih, hnot, false_or]
    rw [eq_comm]

theorem inert_slash : Inert isPath slash := by
  cases isPath <;> exact ⟨by decide, by decide, by decide⟩

theorem inert_colon : Inert isPath colon := by
  cases isPath <;> exact ⟨by decide, by decide, by decide⟩

theorem inert_dot : Inert isPath dot := by
  cases isPath <;> exact ⟨by decide, by decide, by decide⟩

theorem inert_questionMark : Inert false questionMark := ⟨by decide, by decide, by decide⟩

theorem inert_numberSign : Inert false numberSign := ⟨by decide, by decide, by decide⟩

end Encode

/-! ## A platform without hooks -/

/-- The bytes of one code point in the loop of `utf8Bytes`. -/
def utf8CodePoint (c : Nat) : List Nat :=
  if c < 0x80 then [c]
  else if c < 0x800 then [0xC0 ||| c >>> 6, 0x80 ||| c &&& 63]
  else if c < 0x10000 then
    [0xE0 ||| c >>> 12, 0x80 ||| (c >>> 6) &&& 63, 0x80 ||| c &&& 63]
  else
    [0xF0 ||| c >>> 18, 0x80 ||| (c >>> 12) &&& 63, 0x80 ||| (c >>> 6) &&& 63, 0x80 ||| c &&& 63]

/-- Whether `codePointAt` joins two units. -/
def isSurrogatePair (high low : Nat) : Bool :=
  0xD800 ≤ high && high ≤ 0xDBFF && 0xDC00 ≤ low && low ≤ 0xDFFF

/-- The loop of `utf8Bytes`, which runs where the host has no `__ncUtf8Encode`. -/
def utf8Loop : Text → List Nat
  | [] => []
  | [c] => utf8CodePoint c
  | c :: d :: rest =>
    if isSurrogatePair c d then
      utf8CodePoint (0x10000 + (c - 0xD800) * 0x400 + (d - 0xDC00)) ++ utf8Loop rest
    else utf8CodePoint c ++ utf8Loop (d :: rest)

theorem utf8CodePoint_ascii {c : Nat} (hc : c < 0x80) : utf8CodePoint c = [c] := by
  rw [utf8CodePoint, if_pos hc]

theorem utf8CodePoint_high {c b : Nat} (hc : 0x80 ≤ c) (hb : b ∈ utf8CodePoint c) : 0x80 ≤ b := by
  have hor : ∀ high low : Nat, 0x80 ≤ high → 0x80 ≤ high ||| low :=
    fun high low h => h.trans Nat.left_le_or
  unfold utf8CodePoint at hb
  rw [if_neg (by omega)] at hb
  split at hb
  · simp only [List.mem_cons, List.not_mem_nil, or_false] at hb
    rcases hb with rfl | rfl <;> exact hor _ _ (by decide)
  · split at hb <;> simp only [List.mem_cons, List.not_mem_nil, or_false] at hb
    · rcases hb with rfl | rfl | rfl <;> exact hor _ _ (by decide)
    · rcases hb with rfl | rfl | rfl | rfl <;> exact hor _ _ (by decide)

theorem utf8CodePoint_ne_nil (c : Nat) : utf8CodePoint c ≠ [] := by
  unfold utf8CodePoint
  split
  · simp
  · split
    · simp
    · split <;> simp

theorem utf8Loop_cons_ascii {c : Nat} (hc : c < 0x80) (rest : Text) :
    utf8Loop (c :: rest) = c :: utf8Loop rest := by
  have hpair : ∀ d, isSurrogatePair c d = false := by
    intro d
    simp only [isSurrogatePair, Bool.and_eq_false_iff, decide_eq_false_iff_not]
    omega
  cases rest with
  | nil => simp [utf8Loop, utf8CodePoint_ascii hc]
  | cons d rest => simp [utf8Loop, hpair, utf8CodePoint_ascii hc]

theorem utf8Loop_append_ascii (a : Text) {c : Nat} (hc : c < 0x80) (b : Text) :
    utf8Loop (a ++ c :: b) = utf8Loop a ++ c :: utf8Loop b := by
  have hpair : ∀ d, isSurrogatePair d c = false := by
    intro d
    simp only [isSurrogatePair, Bool.and_eq_false_iff, decide_eq_false_iff_not]
    omega
  fun_induction utf8Loop a with
  | case1 => exact utf8Loop_cons_ascii hc b
  | case2 d =>
    rw [List.cons_append, List.nil_append, utf8Loop, if_neg (by simp [hpair]),
      utf8Loop_cons_ascii hc]
  | case3 d e rest hjoined ih =>
    rw [List.cons_append, List.cons_append, utf8Loop, if_pos hjoined, ih, List.append_assoc]
  | case4 d e rest hjoined ih =>
    rw [List.cons_append, List.cons_append, utf8Loop, if_neg hjoined, ← List.cons_append, ih,
      List.append_assoc]

theorem utf8Loop_high {s : Text} (hs : ∀ c ∈ s, 0x80 ≤ c) : ∀ b ∈ utf8Loop s, 0x80 ≤ b := by
  fun_induction utf8Loop s with
  | case1 => simp
  | case2 c => exact fun b => utf8CodePoint_high (hs c List.mem_cons_self)
  | case3 c d rest _ ih =>
    intro b hb
    rcases List.mem_append.mp hb with hb | hb
    · exact utf8CodePoint_high (by omega) hb
    · exact ih (fun x hx => hs x (by simp [hx])) b hb
  | case4 c d rest _ ih =>
    intro b hb
    rcases List.mem_append.mp hb with hb | hb
    · exact utf8CodePoint_high (hs c List.mem_cons_self) hb
    · exact ih (fun x hx => hs x (List.mem_cons_of_mem _ hx)) b hb

theorem utf8Loop_ne_nil {s : Text} (hs : s ≠ []) : utf8Loop s ≠ [] := by
  fun_cases utf8Loop s with
  | case1 => exact absurd rfl hs
  | case2 c => exact utf8CodePoint_ne_nil c
  | case3 c d rest _ => simp [utf8CodePoint_ne_nil]
  | case4 c d rest _ => simp [utf8CodePoint_ne_nil]

/-- Lower-casing of the ASCII letters. -/
def asciiLower (c : Nat) : Nat :=
  if isUpper c then c + 0x20 else c

theorem asciiLower_of_not_upper {c : Nat} (hc : isUpper c = false) : asciiLower c = c := by
  simp [asciiLower, hc]

theorem isUpper_asciiLower (c : Nat) : isUpper (asciiLower c) = false := by
  unfold asciiLower
  split
  · next hc =>
      simp only [isUpper, Bool.and_eq_true, decide_eq_true_eq] at hc
      simp only [isUpper, Bool.and_eq_false_iff, decide_eq_false_iff_not]
      omega
  · next hc => simpa using hc

theorem asciiLower_of_not_letter {c : Nat} (hc : isLetter (asciiLower c) = false) :
    asciiLower c = c := by
  apply asciiLower_of_not_upper
  by_contra hupper
  rw [Bool.not_eq_false] at hupper
  rw [asciiLower, if_pos hupper] at hc
  simp only [isUpper, Bool.and_eq_true, decide_eq_true_eq] at hupper
  simp only [isLetter, Bool.or_eq_false_iff, Bool.and_eq_false_iff, decide_eq_false_iff_not] at hc
  omega

theorem map_asciiLower_eq {s : Text} : s.map asciiLower = s ↔ ∀ c ∈ s, asciiLower c = c := by
  induction s with
  | nil => simp
  | cons c s ih => simp [ih]

/-- A host without the encoding hook, and an engine that lowers ASCII letters only. -/
def asciiPlatform : Platform where
  toLowerCase := List.map asciiLower
  utf8Bytes := utf8Loop
  lower_lower := by
    intro s
    rw [List.map_map]
    apply List.map_congr_left
    intro c _
    exact asciiLower_of_not_upper (isUpper_asciiLower c)
  lower_ascii := by
    intro s hs
    exact map_asciiLower_eq.mpr fun c hc => asciiLower_of_not_upper (hs c hc).2
  lower_append_ne := by
    intro s t _ ht heq
    have hlen := congrArg List.length heq
    simp [ht] at hlen
  lower_parts := by
    intro a c b _ heq
    rw [map_asciiLower_eq] at heq
    constructor <;> apply map_asciiLower_eq.mpr
    · exact fun x hx => heq x (List.mem_append_left _ hx)
    · exact fun x hx => heq x (List.mem_append_right _ (List.mem_cons_of_mem _ hx))
  mem_lower_iff := by
    intro s c _ hletter
    constructor
    · intro hmem
      obtain ⟨d, hd, rfl⟩ := List.mem_map.mp hmem
      rw [asciiLower_of_not_letter hletter]
      exact hd
    · exact fun hmem => List.mem_map.mpr ⟨c, hmem,
        asciiLower_of_not_upper (Bool.or_eq_false_iff.mp hletter).1⟩
  utf8_nil := by rw [utf8Loop]
  utf8_ascii := fun a _ b hc => utf8Loop_append_ascii a hc b
  utf8_high := fun _ => utf8Loop_high
  utf8_ne_nil := fun _ => utf8Loop_ne_nil

end Url
