import QuickjsRuntime.Url.EntryPoints
import QuickjsRuntime.Url.UriComponent

/-!
# File paths and file URLs

`pathToFileURL` and `fileURLToPath` of `require('url')`. The path is encoded once, and the parser
and the printer leave it as it is then. `encodeSet` does not encode percent signs, which
`decodeURIComponent` takes for escapes.
-/

namespace Url

open Utf16 (Text units)
open Split (segments not_mem_of_mem_segments join_segments)

/-- An engine in a host that encodes texts as UTF-8. -/
structure UnicodeEngine extends Engine where
  utf8_encode : ∀ cs, utf8Bytes (Utf16.encode cs) = cs.flatMap charBytes

/-! ## The two functions -/

inductive FileUrlArg where
  | text (s : Text)
  | object (r : Record)
deriving DecidableEq, Repr

def pathToFileURL (env : Engine) (p : Text) : Option Record :=
  let abs := if p.head? = some slash then p else slash :: p
  URL env (units "file://" ++ encodeSet env abs true) .undefined

/-- The record of the argument of `fileURLToPath`. -/
def FileUrlArg.record (env : Engine) : FileUrlArg → Option Record
  | .text s => URL env s .undefined
  | .object r => some r

/-- `fileURLToPath`; `none` where it throws. -/
def fileURLToPath (env : Engine) (u : FileUrlArg) : Option Text :=
  (u.record env).bind fun url =>
    if url.scheme ≠ units "file" then none else decodeURIComponent url.pathname

/-! ## Normalised paths -/

/-- An absolute path without empty and dot segments. -/
structure FilePath where
  rest : Text
  wellFormed : Utf16.WellFormed (slash :: rest)
  normal : rest = [] ∨ ∀ s ∈ segments slash rest, Ordinary s

def FilePath.text (p : FilePath) : Text :=
  slash :: p.rest

/-- The path comes back from its URL, and from the text of its URL. -/
def FilePath.Returns (env : Engine) (p : FilePath) : Prop :=
  ∃ u, pathToFileURL env p.text = some u ∧
    fileURLToPath env (.object u) = some p.text ∧
    fileURLToPath env (.text (serialize env u)) = some p.text

/-! ## The URL of a path -/

/-- The record of a file URL without a host. -/
def fileRecord (pathname : Text) : Record where
  scheme := units "file"
  username := []
  password := []
  host := []
  port := none
  pathname := pathname
  search := none
  hash := none

theorem serialize_fileRecord (env : Platform) (pathname : Text) :
    serialize env (fileRecord pathname) = units "file://" ++ pathname := by
  have htail : (fileRecord pathname).tailText = pathname := List.append_nil pathname
  rw [serialize, Record.restText, htail]
  rfl

namespace FilePath

variable {env : Platform} (p : FilePath)

theorem normalizeDots_text : normalizeDots p.text = p.text := by
  rcases p.normal with hnil | hordinary
  · rw [text, hnil]
    rfl
  · have hout : ∀ s ∈ segments slash p.rest, Ordinary s ∧ slash ∉ s :=
      fun s hs => ⟨hordinary s hs, not_mem_of_mem_segments hs⟩
    have hcanonical := normalizeDots_canonical hout (Or.inl rfl)
    rwa [List.append_nil, join_segments] at hcanonical

theorem encodePath_text : encodePath env p.text = encodeSet env p.text true := by
  rw [encodePath, normalizeDots_text]

/-- What is encoded once is stored as it is. -/
theorem storedPath_encoded :
    storedPath env (units "file") (encodeSet env p.text true) = encodeSet env p.text true := by
  have hne : encodeSet env p.text true ≠ [] := by simp [encodeSet_eq_nil_iff, text]
  have hspecial : ¬ (isSpecial (units "file") = true ∧ encodeSet env p.text true = []) :=
    fun h => hne h.2
  have habs : p.text.head? = some slash := rfl
  simp only [storedPath, if_neg hspecial, if_neg hne]
  rw [← encodePath_text, encodePath_encodePath habs]

theorem parseUrl_fileText :
    parseUrl env (units "file://" ++ encodeSet env p.text true) none =
      some (fileRecord (encodeSet env p.text true)) := by
  have hkept : ∀ c ∈ encodeSet env p.text true, must true c = false :=
    fun _ hc => must_of_mem_encodeSet hc
  have hne : encodeSet env p.text true ≠ [] := by simp [encodeSet_eq_nil_iff, text]
  have hends : Ends ([slash, slash] ++ encodeSet env p.text true) :=
    (ends_of_kept hkept).append _ hne
  have hhead : (encodeSet env p.text true).head? = some slash := head_encodeSet rfl
  have hpath : Tail (encodeSet env p.text true) none none :=
    ⟨(not_mem_of_must hkept).1, (not_mem_of_must hkept).2, by simp⟩
  have htail : readTail env (units "file") (encodeSet env p.text true) =
      (encodeSet env p.text true, none, none) := by
    have hread : readTail env (units "file")
        (encodeSet env p.text true ++ (marked questionMark none ++ marked numberSign none)) =
          (storedPath env (units "file") (encodeSet env p.text true), none, none) :=
      readTail_append (units "file") hpath
    have hempty : marked questionMark none ++ marked numberSign none = [] := rfl
    rwa [hempty, List.append_nil, p.storedPath_encoded] at hread
  have htext : units "file://" ++ encodeSet env p.text true =
      units "file" ++ colon :: ([slash, slash] ++ encodeSet env p.text true) := rfl
  rw [htext]
  calc parseUrl env (units "file" ++ colon :: ([slash, slash] ++ encodeSet env p.text true)) none
      = readRest env (units "file")
          (([slash, slash] ++ encodeSet env p.text true).rdropWhile isC0) :=
        parseUrl_append validScheme_file _ none
    _ = readFull env (units "file") (encodeSet env p.text true) := by
        rw [hends.strip]
        exact readRest_slashes _ _
    _ = some (mkRecord (units "file") emptyAuthority
          (readTail env (units "file") (encodeSet env p.text true))) :=
        readFull_of_delimiter _ (stops_of_slash hhead)
    _ = some (fileRecord (encodeSet env p.text true)) := by
        rw [htail]
        rfl

theorem pathToFileURL_text (env : Engine) :
    pathToFileURL env p.text = some (fileRecord (encodeSet env p.text true)) :=
  p.parseUrl_fileText

theorem fileURLToPath_fileRecord (env : Engine) (pathname : Text) :
    fileURLToPath env (.object (fileRecord pathname)) = decodeURIComponent pathname :=
  rfl

theorem fileURLToPath_text (env : Engine) :
    fileURLToPath env
        (.text (serialize env (fileRecord (encodeSet env p.text true)))) =
      decodeURIComponent (encodeSet env p.text true) := by
  have hparse : URL env (units "file://" ++ encodeSet env p.text true) .undefined =
      some (fileRecord (encodeSet env p.text true)) := p.parseUrl_fileText
  rw [serialize_fileRecord, fileURLToPath, FileUrlArg.record, hparse]
  rfl

/-- A path comes back exactly if it has no percent sign. -/
theorem returns_iff (env : UnicodeEngine) :
    p.Returns env.toEngine ↔ percent ∉ p.text := by
  obtain ⟨cs, hcs⟩ := p.wellFormed
  have htext : p.text = Utf16.encode cs := hcs
  have hencoded : encodeSet env.toEngine p.text true = encodeBytes (cs.flatMap charBytes) := by
    rw [htext, encodeSet, env.utf8_encode]
    rfl
  have hdecoded := decodeURIComponent_encodeBytes_iff cs
  rw [← hencoded, ← htext] at hdecoded
  rw [← hdecoded]
  constructor
  · rintro ⟨u, hu, hobject, -⟩
    rw [p.pathToFileURL_text] at hu
    rw [← Option.some.inj hu, fileURLToPath_fileRecord] at hobject
    exact hobject
  · intro hdecode
    refine ⟨_, p.pathToFileURL_text env.toEngine, ?_, ?_⟩
    · rw [fileURLToPath_fileRecord, hdecode]
    · rw [p.fileURLToPath_text, hdecode]

end FilePath

/-! ## A host without the encoding hook -/

theorem or_eq_add :
    (∀ x < 0x20, 0xC0 ||| x = 0xC0 + x) ∧ (∀ x < 0x10, 0xE0 ||| x = 0xE0 + x) ∧
      (∀ x < 0x8, 0xF0 ||| x = 0xF0 + x) ∧ ∀ x < 0x40, 0x80 ||| x = 0x80 + x := by
  decide

theorem utf8CodePoint_char (c : Char) : utf8CodePoint c.toNat = charBytes c := by
  have hmask : ∀ n : Nat, n &&& 63 = n % 0x40 := fun n => Nat.and_two_pow_sub_one_eq_mod n 6
  have hlow : ∀ n : Nat, 0x80 ||| n % 0x40 = 0x80 + n % 0x40 :=
    fun n => or_eq_add.2.2.2 _ (Nat.mod_lt _ (by decide))
  rcases Utf8.utf8EncodeChar_cases c with ⟨hu, h⟩ | ⟨hl, hu, h⟩ | ⟨hl, hu, h⟩ | ⟨hl, hu, h⟩
  · rw [utf8CodePoint_ascii (by omega), charBytes_ascii (by omega)]
  all_goals
    simp only [charBytes, h, List.map_cons, List.map_nil, utf8CodePoint, hmask,
      Nat.shiftRight_eq_div_pow, hlow]
    repeat rw [Utf8.toNat_byte (by omega)]
  · rw [if_neg (by omega), if_pos (by omega), or_eq_add.1 _ (by omega)]
  · rw [if_neg (by omega), if_neg (by omega), if_pos (by omega), or_eq_add.2.1 _ (by omega)]
  · rw [if_neg (by omega), if_neg (by omega), if_neg (by omega), or_eq_add.2.2.1 _ (by omega)]

theorem utf8Loop_char (c : Char) (s : Text) :
    utf8Loop (Utf16.encodeChar c ++ s) = charBytes c ++ utf8Loop s := by
  have hvalid := c.toNat_cases
  rw [← utf8CodePoint_char]
  unfold Utf16.encodeChar
  split
  · have hlone : ∀ d, isSurrogatePair c.toNat d = false := by
      intro d
      simp only [isSurrogatePair, Bool.and_eq_false_iff, decide_eq_false_iff_not]
      omega
    cases s with
    | nil => simp [utf8Loop]
    | cons d s => simp [utf8Loop, hlone]
  · have hpair : isSurrogatePair (0xD800 + (c.toNat - 0x10000) / 0x400)
        (0xDC00 + (c.toNat - 0x10000) % 0x400) = true := by
      simp only [isSurrogatePair, Bool.and_eq_true, decide_eq_true_eq]
      omega
    have hvalue : 0x10000 + (0xD800 + (c.toNat - 0x10000) / 0x400 - 0xD800) * 0x400 +
        (0xDC00 + (c.toNat - 0x10000) % 0x400 - 0xDC00) = c.toNat := by
      omega
    rw [List.cons_append, List.cons_append, List.nil_append, utf8Loop, if_pos hpair, hvalue]

def unicodeEngine : UnicodeEngine where
  toEngine := asciiEngine
  utf8_encode cs := by
    change utf8Loop (Utf16.encode cs) = _
    induction cs with
    | nil => rfl
    | cons c cs ih => rw [Utf16.encode_cons, utf8Loop_char, ih, List.flatMap_cons]

/-- `/a%41` -/
def escapedPath : FilePath where
  rest := units "a%41"
  wellFormed := ⟨(slash :: units "a%41").map Char.ofNat, by decide⟩
  normal := Or.inr (by decide)

/-- `/100%` -/
def percentPath : FilePath where
  rest := units "100%"
  wellFormed := ⟨(slash :: units "100%").map Char.ofNat, by decide⟩
  normal := Or.inr (by decide)

/-- The path `/a%41` comes back as `/aA`, and `/100%` makes `fileURLToPath` throw. -/
theorem percent_path_lost :
    (pathToFileURL unicodeEngine.toEngine escapedPath.text).bind
        (fun u => fileURLToPath unicodeEngine.toEngine (.object u)) = some (units "/aA") ∧
      (pathToFileURL unicodeEngine.toEngine percentPath.text).bind
        (fun u => fileURLToPath unicodeEngine.toEngine (.object u)) = none := by
  decide

end Url
