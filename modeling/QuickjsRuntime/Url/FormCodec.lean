import QuickjsRuntime.Codec.Buffer
import QuickjsRuntime.Foundation.Unicode
import QuickjsRuntime.Url.Encode

/-!
# Queries as lists of pairs

`pctDecode`, `parseParams`, `formEncode` and `__serialize` of `node_compat_url.dart`. The text
that is written for a list of pairs is read back as that list, because nothing in an encoded
name or value looks like a separator and the bytes of each come back one by one.
-/

namespace Url

open Utf16 (Text units)
open Split (splitFirst)
open Codec (Hooks equalsSign hexValue)

def ampersand : Nat := 0x26
def plusSign : Nat := 0x2B

/-- UTF-8 hooks: encoding a well-formed text loses nothing. -/
structure LosslessHooks extends Hooks where
  decode_encode : ∀ s, Utf16.WellFormed s → utf8Decode (utf8Encode s) = s

/-- The host masks what it encodes to bytes, and bytes are decoded to well-formed text. -/
structure Utf8Hooks extends LosslessHooks where
  encode_lt : ∀ s, ∀ b ∈ utf8Encode s, b < 0x100
  decode_wellFormed : ∀ bs, Utf16.WellFormed (utf8Decode bs)

instance : Coe Utf8Hooks Hooks := ⟨(·.toHooks)⟩

/-! ## Reading -/

/-- The value of two hexadecimal digits at the beginning. -/
def escaped : Text → Option Nat
  | high :: low :: _ =>
    match hexValue high, hexValue low with
    | some h, some l => some (h * 16 + l)
    | _, _ => none
  | _ => none

/-- The loop of `pctDecode`, of which the next `skip` rounds are passed over. A sign that two
hexadecimal digits do not follow stands for itself, and what is not ASCII is encoded unit by
unit. -/
def pctLoop (hooks : Hooks) : Nat → Text → List Nat
  | _, [] => []
  | skip + 1, _ :: rest => pctLoop hooks skip rest
  | 0, c :: rest =>
    if c = percent then
      match escaped rest with
      | some b => b :: pctLoop hooks 2 rest
      | none => c :: pctLoop hooks 0 rest
    else if c = plusSign then 0x20 :: pctLoop hooks 0 rest
    else if c < 0x80 then c :: pctLoop hooks 0 rest
    else hooks.utf8Encode [c] ++ pctLoop hooks 0 rest

/-- The bytes that `pctDecode` collects. -/
def pctBytes (hooks : Hooks) (str : Text) : List Nat :=
  pctLoop hooks 0 str

def pctDecode (hooks : Hooks) (str : Text) : Text :=
  hooks.utf8Decode (pctBytes hooks str)

/-- One round of the loop of `parseParams`. -/
def parsePart (hooks : Hooks) (part : Text) : Option (Text × Text) :=
  if part = [] then none
  else
    match splitFirst equalsSign part with
    | none => some (pctDecode hooks part, pctDecode hooks [])
    | some (k, v) => some (pctDecode hooks k, pctDecode hooks v)

def parseParams (hooks : Hooks) (text : Text) : List (Text × Text) :=
  if text = [] then [] else (text.splitOn ampersand).filterMap (parsePart hooks)

/-! ## Writing -/

/-- The bytes that stand for themselves in a form. -/
def isFormSafe (b : Nat) : Bool :=
  (0x41 ≤ b && b ≤ 0x5A) || (0x61 ≤ b && b ≤ 0x7A) || (0x30 ≤ b && b ≤ 0x39) || b = 0x2A ||
    b = 0x2D || b = 0x2E || b = 0x5F

def formByte (b : Nat) : Text :=
  if isFormSafe b then [b] else if b = 0x20 then [plusSign] else pctEncodeByte b

def formEncode (hooks : Hooks) (str : Text) : Text :=
  (hooks.utf8Encode str).flatMap formByte

def formPair (hooks : Hooks) (p : Text × Text) : Text :=
  formEncode hooks p.1 ++ equalsSign :: formEncode hooks p.2

/-- `__serialize` -/
def serializePairs (hooks : Hooks) (pairs : List (Text × Text)) : Text :=
  [ampersand].intercalate (pairs.map (formPair hooks))

/-! ## Reading what was written -/

theorem isFormSafe_iff {b : Nat} : isFormSafe b = true ↔
    (0x41 ≤ b ∧ b ≤ 0x5A) ∨ (0x61 ≤ b ∧ b ≤ 0x7A) ∨ (0x30 ≤ b ∧ b ≤ 0x39) ∨ b = 0x2A ∨
      b = 0x2D ∨ b = 0x2E ∨ b = 0x5F := by
  simp only [isFormSafe, Bool.or_eq_true, Bool.and_eq_true, decide_eq_true_eq, or_assoc]

theorem hexValue_hexDigit : ∀ d < 16, hexValue (hexDigit d) = some d := by
  decide

theorem pctBytes_plain (hooks : Hooks) {c : Nat} (rest : Text) (hpercent : c ≠ percent)
    (hplus : c ≠ plusSign) (hascii : c < 0x80) :
    pctBytes hooks (c :: rest) = c :: pctBytes hooks rest := by
  rw [pctBytes, pctLoop, if_neg hpercent, if_neg hplus, if_pos hascii, pctBytes]

theorem pctBytes_pctEncodeByte (hooks : Hooks) {b : Nat} (hb : b < 0x100) (rest : Text) :
    pctBytes hooks (pctEncodeByte b ++ rest) = b :: pctBytes hooks rest := by
  have hhigh := hexValue_hexDigit (b / 16 % 16) (Nat.mod_lt _ (by decide))
  have hlow := hexValue_hexDigit (b % 16) (Nat.mod_lt _ (by decide))
  have hbyte : b / 16 % 16 * 16 + b % 16 = b := by omega
  rw [pctEncodeByte, List.cons_append, List.cons_append, List.cons_append, List.nil_append,
    pctBytes, pctLoop, if_pos rfl]
  simp only [escaped, hhigh, hlow, hbyte]
  rfl

theorem pctBytes_formByte (hooks : Hooks) {b : Nat} (hb : b < 0x100) (rest : Text) :
    pctBytes hooks (formByte b ++ rest) = b :: pctBytes hooks rest := by
  unfold formByte
  split
  next hsafe =>
    rw [isFormSafe_iff] at hsafe
    have hpercent : b ≠ percent := by
      unfold percent
      omega
    have hplus : b ≠ plusSign := by
      unfold plusSign
      omega
    exact pctBytes_plain hooks rest hpercent hplus (by omega)
  split
  next hspace =>
    rw [hspace, List.singleton_append, pctBytes, pctLoop, if_neg (by decide), if_pos rfl, pctBytes]
  next => exact pctBytes_pctEncodeByte hooks hb rest

theorem pctBytes_flatMap (hooks : Hooks) {bs : List Nat} (hbs : ∀ b ∈ bs, b < 0x100) :
    pctBytes hooks (bs.flatMap formByte) = bs := by
  induction bs with
  | nil => rfl
  | cons b bs ih =>
    simp only [List.forall_mem_cons] at hbs
    rw [List.flatMap_cons, pctBytes_formByte hooks hbs.1, ih hbs.2]

theorem pctDecode_formEncode (hooks : Utf8Hooks) {s : Text} (hs : Utf16.WellFormed s) :
    pctDecode hooks (formEncode hooks s) = s := by
  rw [pctDecode, formEncode, pctBytes_flatMap _ (hooks.encode_lt s), hooks.decode_encode s hs]

/-- What is written for a byte is none of the separators. -/
theorem formByte_not_separator {b c : Nat} (hc : c ∈ formByte b) :
    c ≠ ampersand ∧ c ≠ equalsSign := by
  unfold ampersand equalsSign
  unfold formByte at hc
  split at hc
  next hsafe =>
    rw [isFormSafe_iff] at hsafe
    rw [List.mem_singleton.mp hc]
    omega
  split at hc
  next =>
    rw [List.mem_singleton.mp hc]
    decide
  next =>
    rcases mem_pctEncodeByte hc with rfl | hdigit
    · decide
    · omega

theorem formEncode_not_separator (hooks : Hooks) (s : Text) :
    ampersand ∉ formEncode hooks s ∧ equalsSign ∉ formEncode hooks s := by
  constructor
  · intro hmem
    obtain ⟨b, -, hb⟩ := List.mem_flatMap.mp hmem
    exact (formByte_not_separator hb).1 rfl
  · intro hmem
    obtain ⟨b, -, hb⟩ := List.mem_flatMap.mp hmem
    exact (formByte_not_separator hb).2 rfl

/-- Names and values without lone surrogates. -/
def PairsWellFormed (pairs : List (Text × Text)) : Prop :=
  ∀ p ∈ pairs, Utf16.WellFormed p.1 ∧ Utf16.WellFormed p.2

theorem parsePart_formPair (hooks : Utf8Hooks) {p : Text × Text}
    (hp : Utf16.WellFormed p.1 ∧ Utf16.WellFormed p.2) :
    parsePart hooks (formPair hooks p) = some p := by
  have hequals := (formEncode_not_separator hooks p.1).2
  rw [parsePart, if_neg (by simp [formPair]), formPair, Split.splitFirst_append hequals]
  simp only [pctDecode_formEncode hooks hp.1, pctDecode_formEncode hooks hp.2]

theorem ampersand_not_mem_formPair (hooks : Hooks) (p : Text × Text) :
    ampersand ∉ formPair hooks p := by
  rw [formPair, List.mem_append, List.mem_cons]
  rintro (h | h | h)
  · exact (formEncode_not_separator hooks p.1).1 h
  · exact absurd h (by decide)
  · exact (formEncode_not_separator hooks p.2).1 h

/-- A list of pairs is read back from what is written for it. -/
theorem parseParams_serializePairs (hooks : Utf8Hooks) {pairs : List (Text × Text)}
    (hpairs : PairsWellFormed pairs) :
    parseParams hooks (serializePairs hooks pairs) = pairs := by
  cases pairs with
  | nil => rfl
  | cons p rest =>
    have hparts : (serializePairs hooks (p :: rest)).splitOn ampersand =
        (p :: rest).map (formPair hooks) := by
      apply List.splitOn_intercalate
      · intro part hpart
        obtain ⟨p', -, rfl⟩ := List.mem_map.mp hpart
        exact ampersand_not_mem_formPair _ p'
      · simp
    have hne : serializePairs hooks (p :: rest) ≠ [] := by
      intro hnil
      rw [hnil] at hparts
      have hlength := congrArg (fun l => l.map List.length) hparts
      simp [formPair] at hlength
    have hread : ∀ p' ∈ p :: rest,
        (parsePart hooks ∘ formPair hooks) p' = some p' := by
      intro p' hp'
      exact parsePart_formPair hooks (hpairs p' hp')
    rw [parseParams, if_neg hne, hparts, List.filterMap_map, List.filterMap_congr hread,
      List.filterMap_some]

theorem parseParams_wellFormed (hooks : Utf8Hooks) (text : Text) :
    PairsWellFormed (parseParams hooks text) := by
  intro p hp
  unfold parseParams at hp
  split at hp
  next => exact absurd hp (by simp)
  next =>
    obtain ⟨part, -, hpart⟩ := List.mem_filterMap.mp hp
    unfold parsePart at hpart
    split at hpart
    · cases hpart
    split at hpart
    · cases hpart
      exact ⟨hooks.decode_wellFormed _, hooks.decode_wellFormed _⟩
    · cases hpart
      exact ⟨hooks.decode_wellFormed _, hooks.decode_wellFormed _⟩

end Url
