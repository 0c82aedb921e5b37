import QuickjsRuntime.Bridge.CString

/-!
# The code of a job

`runAsyncJobOnRuntime` hands a job to the worker's engine as source text: a call of `__jsrCall`
whose two arguments are string literals made by `jsonEncode`. Here is the engine's reading of such
a literal (`js_parse_string` of `quickjs.c` between double quotes, in sloppy mode, with
`lre_parse_escape` of `libregexp.c`), on the text that the UTF-8 stands for.

The syntax of JS literals is not that of JSON strings: it has escapes of its own and lets
control characters pass. What `jsonEncode` writes is read as the text that was encoded all the same,
so that no source and no argument can end its literal.
-/

namespace Bridge

open Utf16 (Text units)
open Json (quotationMark backslash hexValue)

/-! ## Escapes -/

/-- What the parser of escapes returns: a code point, `-1` or `-2`. -/
inductive Escape where
  | point (c : Nat) (rest : Text)
  | malformed
  | unknown
deriving DecidableEq, Repr

/-- The digits after `\u{`, up to the closing brace. -/
def bracedHex (c : Nat) : Text → Option (Nat × Text)
  | [] => none
  | h :: rest =>
    match hexValue h with
    | none => none
    | some d =>
      let c := c * 16 + d
      if 0x10FFFF < c then none
      else
        match rest with
        | 0x7D :: rest => some (c, rest)
        | rest => bracedHex c rest

/-- A given number of hexadecimal digits. -/
def fixedHex : Nat → Nat → Text → Option (Nat × Text)
  | 0, c, rest => some (c, rest)
  | _ + 1, _, [] => none
  | n + 1, c, h :: rest =>
    match hexValue h with
    | none => none
    | some d => fixedHex n (c * 16 + d) rest

def isOctal (u : Nat) : Bool :=
  0x30 ≤ u && u ≤ 0x37

/-- The second and third digit of a legacy octal sequence. -/
def octalRest (c : Nat) : Text → Nat × Text
  | u :: rest =>
    if isOctal u then
      let c := c * 8 + (u - 0x30)
      if 32 ≤ c then (c, rest)
      else
        match rest with
        | v :: rest => if isOctal v then (c * 8 + (v - 0x30), rest) else (c, v :: rest)
        | [] => (c, [])
    else (c, u :: rest)
  | [] => (c, [])

/-- `\x` and `\u`, with the number of digits where there is no brace. -/
def hexEscape (digits : Nat) (t : Text) : Escape :=
  let read :=
    match t with
    | 0x7B :: rest => bracedHex 0 rest
    | rest => fixedHex digits 0 rest
  match read with
  | some (c, rest) => .point c rest
  | none => .malformed

/-- `lre_parse_escape` with `allow_utf16` set to one, after the backslash. -/
def parseEscape : Text → Escape
  | [] => .unknown
  | c :: rest =>
    if c = 0x62 then .point 0x08 rest
    else if c = 0x66 then .point 0x0C rest
    else if c = 0x6E then .point 0x0A rest
    else if c = 0x72 then .point 0x0D rest
    else if c = 0x74 then .point 0x09 rest
    else if c = 0x76 then .point 0x0B rest
    else if c = 0x78 then hexEscape 2 rest
    else if c = 0x75 then hexEscape 4 rest
    else if isOctal c then
      let (c, rest) := octalRest (c - 0x30) rest
      .point c rest
    else .unknown

/-! ## Literals -/

/-- `string_buffer_putc` -/
def putPoint (c : Nat) : Text :=
  if c < 0x10000 then [c]
  else [0xD800 + (c - 0x10000) / 0x400, 0xDC00 + (c - 0x10000) % 0x400]

/-- What one round of the loop adds to the string, and `none` at the closing quotation mark. -/
structure Round where
  added : Option Text
  rest : Text
deriving DecidableEq, Repr

/-- A round that begins with a backslash. -/
def escapeRound : Text → Option Round
  | [] => none
  | c :: rest =>
    if c = 0x27 ∨ c = quotationMark ∨ c = backslash then some ⟨some [c], rest⟩
    else if c = 0x0D then
      match rest with
      | 0x0A :: rest => some ⟨some [], rest⟩
      | rest => some ⟨some [], rest⟩
    else if c = 0x0A ∨ c = 0x2028 ∨ c = 0x2029 then some ⟨some [], rest⟩
    else if 0x80 ≤ c then some ⟨some [c], rest⟩
    else
      match parseEscape (c :: rest) with
      | .point c rest => some ⟨some (putPoint c), rest⟩
      | .malformed => none
      | .unknown => some ⟨some [c], rest⟩

/-- One round of the loop of `js_parse_string`; `none` is a syntax error. -/
def literalRound : Text → Option Round
  | [] => none
  | c :: rest =>
    if c = 0x0A ∨ c = 0x0D then none
    else if c = quotationMark then some ⟨none, rest⟩
    else if c = backslash then escapeRound rest
    else some ⟨some [c], rest⟩

/-- The loop, for at most the given number of rounds. -/
def literalLoop : Nat → Text → Option (Text × Text)
  | 0, _ => none
  | fuel + 1, t => do
      let round ← literalRound t
      match round.added with
      | none => return ([], round.rest)
      | some added =>
        let (text, rest) ← literalLoop fuel round.rest
        return (added ++ text, rest)

/-- `js_parse_string` after the opening quotation mark: the string and what follows it. Each round
consumes a unit, so that the length of the text bounds the number of rounds. -/
def parseString (t : Text) : Option (Text × Text) :=
  literalLoop t.length t

/-! ## Calls -/

/-- One literal among the tokens of a call. -/
def parseLiteral (t : Text) : Option (Text × Text) := do
  let rest ← Json.expect quotationMark t
  parseString rest

/-- The arguments of a script that is one call of `__jsrCall` with two string literals. -/
def parseJobCall (code : Text) : Option (Text × Text) := do
  let rest ← (units "__jsrCall(").isPrefixOf? code
  let (fnSource, rest) ← parseLiteral rest
  let rest ← Json.expect Json.comma rest
  let (argsJson, rest) ← parseLiteral rest
  let rest ← Json.expect 0x29 rest
  if rest = [] then some (fnSource, argsJson) else none

/-- The code that `runAsyncJobOnRuntime` evaluates. -/
def jobCode (fnSource argsJson : Text) : Text :=
  units "__jsrCall(" ++ Json.quote fnSource ++ units ", " ++ Json.quote argsJson ++ units ")"

/-! ## What `jsonEncode` writes is read back -/

theorem fixedHex_digits {u : Nat} (hu : u < 0x10000) (t : Text) :
    fixedHex 4 0 (Json.hexDigit (u / 4096 % 16) :: Json.hexDigit (u / 256 % 16) ::
      Json.hexDigit (u / 16 % 16) :: Json.hexDigit (u % 16) :: t) = some (u, t) := by
  simp only [fixedHex, Json.hexValue_hexDigit (Nat.mod_lt _ (by decide : 0 < 16))]
  congr 2
  omega

theorem hexEscape_digits {u : Nat} (hu : u < 0x10000) (t : Text) :
    hexEscape 4 (Json.hexDigit (u / 4096 % 16) :: Json.hexDigit (u / 256 % 16) ::
      Json.hexDigit (u / 16 % 16) :: Json.hexDigit (u % 16) :: t) = .point u t := by
  have hbrace : Json.hexDigit (u / 4096 % 16) ≠ 0x7B := by
    unfold Json.hexDigit
    split <;> omega
  unfold hexEscape
  split
  next heq => exact absurd (List.cons.inj heq).1 hbrace
  next =>
    rw [fixedHex_digits hu]

theorem literalRound_unicodeEscape {u : Nat} (hu : u < 0x10000) (t : Text) :
    literalRound (Json.unicodeEscape u ++ t) = some ⟨some [u], t⟩ := by
  have hput : putPoint u = [u] := if_pos hu
  rw [Json.unicodeEscape]
  simp only [List.cons_append, List.nil_append, literalRound, escapeRound, parseEscape,
    quotationMark, backslash, hexEscape_digits hu]
  simp [hput]

/-- The two-unit escapes of JSON mean the same in a JS literal. -/
theorem literalRound_shortEscape {u letter : Nat} (h : Json.shortEscape u = some letter)
    (t : Text) : literalRound (backslash :: letter :: t) = some ⟨some [u], t⟩ := by
  unfold Json.shortEscape at h
  repeat' split at h
  all_goals
    first
    | (cases h; subst_vars; rfl)
    | skip
  · next hmark =>
      cases h
      rcases hmark with rfl | rfl <;> rfl
  · cases h

theorem literalRound_plain {u : Nat} (hmark : u ≠ quotationMark) (hslash : u ≠ backslash)
    (hprint : 32 ≤ u) (t : Text) : literalRound (u :: t) = some ⟨some [u], t⟩ := by
  rw [literalRound, if_neg (by omega), if_neg hmark, if_neg hslash]

theorem literalRound_escapeUnit (u : Nat) (t : Text) :
    literalRound (Json.escapeUnit u ++ t) = some ⟨some [u], t⟩ := by
  unfold Json.escapeUnit
  cases hshort : Json.shortEscape u with
  | some letter => exact literalRound_shortEscape hshort t
  | none =>
    have hmark : u ≠ quotationMark ∧ u ≠ backslash := by
      constructor <;> rintro rfl <;> exact absurd hshort (by decide)
    by_cases hescape : (u < 32 || Json.isHigh u || Json.isLow u) = true
    · rw [if_pos hescape]
      apply literalRound_unicodeEscape
      simp only [Json.isHigh, Json.isLow, Bool.or_eq_true, Bool.and_eq_true,
        decide_eq_true_eq] at hescape
      omega
    · rw [if_neg hescape]
      have hprint : 32 ≤ u := by
        by_contra hlt
        exact hescape (by simp [Nat.not_le.mp hlt])
      exact literalRound_plain hmark.1 hmark.2 hprint t

theorem literalLoop_round {fuel u : Nat} {t rest : Text}
    (hround : literalRound t = some ⟨some [u], rest⟩) :
    literalLoop (fuel + 1) t = Json.prepend u (literalLoop fuel rest) := by
  rw [literalLoop, hround]
  change (literalLoop fuel rest).bind _ = _
  cases literalLoop fuel rest <;> rfl

/-- One round for each unit of the text and one for the closing quotation mark. -/
theorem literalLoop_escapeUnits (s t : Text) (k : Nat) :
    literalLoop (s.length + 1 + k) (Json.escapeUnits s ++ quotationMark :: t) = some (s, t) := by
  have hclose : ∀ fuel, literalLoop (fuel + 1) (quotationMark :: t) = some ([], t) := by
    intro fuel
    rw [literalLoop]
    rfl
  fun_induction Json.escapeUnits s with
  | case1 =>
    rw [List.length_nil, Nat.add_right_comm]
    exact hclose _
  | case2 u =>
    rw [List.length_singleton, Nat.add_right_comm,
      literalLoop_round (literalRound_escapeUnit u _), Nat.add_comm 1 k, hclose]
    rfl
  | case3 u v rest hpair ih =>
    -- a surrogate pair is copied
    simp only [Json.isHigh, Json.isLow, Bool.and_eq_true, decide_eq_true_eq] at hpair
    have hcopied : ∀ w, 0xD800 ≤ w → ∀ t, literalRound (w :: t) = some ⟨some [w], t⟩ := by
      intro w hw
      unfold literalRound quotationMark backslash
      grind
    have hfuel : (u :: v :: rest).length + 1 + k = rest.length + 1 + k + 1 + 1 := by
      simp only [List.length_cons]
      omega
    rw [hfuel, List.cons_append, List.cons_append,
      literalLoop_round (hcopied u (by omega) _), literalLoop_round (hcopied v (by omega) _), ih]
    rfl
  | case4 u v rest hpair ih =>
    have hfuel : (u :: v :: rest).length + 1 + k = (v :: rest).length + 1 + k + 1 := by
      simp only [List.length_cons]
      omega
    rw [hfuel, List.append_assoc, literalLoop_round (literalRound_escapeUnit u _), ih]
    rfl

theorem length_le_escapeUnits (s : Text) : s.length ≤ (Json.escapeUnits s).length := by
  have hunit : ∀ u, 1 ≤ (Json.escapeUnit u).length := by
    intro u
    unfold Json.escapeUnit Json.unicodeEscape
    split
    · simp
    · split <;> simp
  fun_induction Json.escapeUnits s with
  | case1 => exact Nat.le_refl 0
  | case2 u => exact hunit u
  | case3 u v rest hpair ih =>
    simp only [List.length_cons]
    omega
  | case4 u v rest hpair ih =>
    have hfirst := hunit u
    rw [List.length_append, List.length_cons]
    omega

theorem parseLiteral_quote (s t : Text) : parseLiteral (Json.quote s ++ t) = some (s, t) := by
  have hlength := length_le_escapeUnits s
  obtain ⟨k, hk⟩ : ∃ k, (Json.escapeUnits s ++ quotationMark :: t).length = s.length + 1 + k := by
    refine ⟨(Json.escapeUnits s).length - s.length + t.length, ?_⟩
    simp only [List.length_append, List.length_cons]
    omega
  rw [parseLiteral, Json.quote_append, Json.expect_self _ (by decide)]
  change literalLoop _ _ = _
  rw [hk, literalLoop_escapeUnits]

theorem parseLiteral_space (t : Text) : parseLiteral (0x20 :: t) = parseLiteral t := by
  have hskip : Json.skipSpace (0x20 :: t) = Json.skipSpace t :=
    List.dropWhile_cons_of_pos (by decide)
  rw [parseLiteral, parseLiteral, Json.expect, Json.expect, hskip]

theorem parseJobCall_jobCode (fnSource argsJson : Text) :
    parseJobCall (jobCode fnSource argsJson) = some (fnSource, argsJson) := by
  have hcode : jobCode fnSource argsJson = units "__jsrCall(" ++
      (Json.quote fnSource ++ Json.comma :: 0x20 :: (Json.quote argsJson ++ [0x29])) := by
    simp only [jobCode, List.append_assoc]
    rfl
  have hname (t : Text) : (units "__jsrCall(").isPrefixOf? (units "__jsrCall(" ++ t) = some t := rfl
  rw [parseJobCall, hcode, hname, Option.bind_eq_bind, Option.bind_some, parseLiteral_quote,
    Option.bind_eq_bind, Option.bind_some]
  simp only [Json.expect_self _ (by decide : Json.isSpace Json.comma = false), parseLiteral_space,
    parseLiteral_quote, Json.expect_self _ (by decide : Json.isSpace 0x29 = false),
    Option.bind_some, if_true]

theorem narrow_composes : Json.Composes fun t => ∀ u ∈ t, u < 0x10000 where
  ascii t ht u hu := Nat.lt_trans (ht u hu).2 (by decide)
  append _ _ hs ht := List.forall_mem_append.mpr ⟨hs, ht⟩

theorem quote_lt {s : Text} (hs : ∀ u ∈ s, u < 0x10000) : ∀ u ∈ Json.quote s, u < 0x10000 := by
  refine narrow_composes.quote (narrow_composes.escapeUnits ?_ ?_)
  · intro u hu _ _ _
    simpa using hs u hu
  · intro u hu v hv _ _
    simpa using ⟨hs u hu, hs v hv⟩

theorem plain_jobCode (fnSource argsJson : Text) : Plain (jobCode fnSource argsJson) :=
  plain_append (plain_append (plain_append (plain_append (plain_of_lt (by decide))
    (plain_quote _)) (plain_of_lt (by decide))) (plain_quote _)) (plain_of_lt (by decide))

theorem jobCode_delivered {fnSource argsJson : Text} (hsource : ∀ u ∈ fnSource, u < 0x10000)
    (hargs : ∀ u ∈ argsJson, u < 0x10000) :
    ofNativeUtf8 (toNativeUtf8 (jobCode fnSource argsJson)) = jobCode fnSource argsJson := by
  refine (ofNativeUtf8_eq_self_iff _).mpr (plain_jobCode fnSource argsJson ?_)
  simp only [jobCode, List.forall_mem_append]
  exact ⟨⟨⟨⟨by decide, quote_lt hsource⟩, by decide⟩, quote_lt hargs⟩, by decide⟩

/-- Whatever the source and the arguments of a job are, the worker's engine reads its code as a
call of `__jsrCall` with exactly these two strings. -/
theorem job_code_read_back {fnSource argsJson : Text} (hsource : ∀ u ∈ fnSource, u < 0x10000)
    (hargs : ∀ u ∈ argsJson, u < 0x10000) :
    parseJobCall (ofNativeUtf8 (toNativeUtf8 (jobCode fnSource argsJson))) =
      some (fnSource, argsJson) := by
  rw [jobCode_delivered hsource hargs, parseJobCall_jobCode]

/-- A source that tries to end its literal, and a lone surrogate. -/
theorem job_code_read_back_quote :
    parseJobCall (ofNativeUtf8 (toNativeUtf8 (jobCode (units "\"); evil(\"") [0xD800]))) =
      some (units "\"); evil(\"", [0xD800]) :=
  job_code_read_back (by decide) (by decide)

end Bridge
