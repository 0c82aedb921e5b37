import QuickjsRuntime.Codec.Buffer

/-!
# `Buffer.byteLength`

`byteLengthOf` of `node_compat_buffer.dart`, which has a formula for each encoding, beside the
length of the buffer that `Buffer.from` makes. The formula for base64 counts all characters that
are left after cleaning, while the decoder passes over those that are not of its alphabet.
-/

namespace Codec

open Utf16 (Text units)

/-! ## Model -/

def byteLengthOf (hooks : Hooks) (str : Text) : Encoding → Nat
  | .utf8 => (hooks.utf8Encode str).length
  | .utf16le => str.length * 2
  | .ascii | .latin1 => str.length
  | .hex => (str.filter fun c => (hexValue c).isSome).length / 2
  | .base64 | .base64url => (b64Clean str).length * 3 / 4

/-! ## The length of what is decoded -/

theorem length_bufferFrom (hooks : Hooks) (str : Text) (enc : Encoding) :
    (bufferFrom hooks str enc).length = (bytesFromString hooks str enc).length :=
  List.length_map _

theorem length_hexPairs (text : Text) : (hexPairs text).length = text.length / 2 := by
  induction text using hexPairs.induct with
  | case1 a b rest ih =>
    rw [hexPairs, List.length_cons, ih, List.length_cons, List.length_cons]
    omega
  | case2 text hshort =>
    cases text with
    | nil => rfl
    | cons a rest =>
      cases rest with
      | nil => simp [hexPairs]
      | cons b rest => exact absurd rfl (hshort a b rest)

theorem length_hexDecode (text : Text) :
    (hexDecode text).length = (text.filter fun c => (hexValue c).isSome).length / 2 := by
  rw [hexDecode, length_hexPairs]
  split
  next hodd =>
    rw [List.length_take]
    omega
  next => rfl

theorem length_utf16le (hooks : Hooks) (str : Text) :
    (bytesFromString hooks str .utf16le).length = str.length * 2 := by
  induction str with
  | nil => rfl
  | cons u str ih =>
    simp only [bytesFromString] at ih ⊢
    rw [List.flatMap_cons, List.length_append, ih, List.length_cons]
    simp only [List.length_cons, List.length_nil]
    omega

/-! ## Foreign characters -/

/-- How many characters of the alphabet the text has. -/
def letterCount (alphabet text : Text) : Nat :=
  (symbols alphabet text).length

/-- How many characters it has that are neither of the alphabet nor cleaned away. -/
def foreignCount (alphabet text : Text) : Nat :=
  (b64Clean text).countP fun c => (alphabet.idxOf? c).isNone

theorem length_b64Clean (alphabet text : Text) :
    (b64Clean text).length = letterCount alphabet (b64Clean text) + foreignCount alphabet text := by
  unfold foreignCount letterCount
  induction b64Clean text with
  | nil => rfl
  | cons c rest ih =>
    rw [List.length_cons, List.countP_cons, symbols, List.filterMap_cons]
    cases hc : alphabet.idxOf? c with
    | none =>
      simp only [Option.isNone_none, if_true, ih, symbols]
      omega
    | some v =>
      simp only [Option.isNone_some, Bool.false_eq_true, if_false, List.length_cons, ih, symbols]
      omega

theorem length_b64Decode {alphabet : Text} (h : IsAlphabet alphabet) (text : Text) :
    (b64Decode alphabet text).length = letterCount alphabet (b64Clean text) * 3 / 4 := by
  rw [b64Decode_eq_toOctets h, Sextets.length_toOctets]
  rfl

/-- No character is foreign, or there is a single one beside groups of four letters, for which
the formula rounds off. -/
def Counted (alphabet text : Text) : Prop :=
  foreignCount alphabet text = 0 ∨
    (foreignCount alphabet text = 1 ∧ letterCount alphabet (b64Clean text) % 4 = 0)

theorem round_off (letters foreign : Nat) :
    (letters + foreign) * 3 / 4 = letters * 3 / 4 ↔
      foreign = 0 ∨ (foreign = 1 ∧ letters % 4 = 0) := by
  by_cases hone : foreign = 1
  · subst hone
    have hcases : letters % 4 = 0 ∨ letters % 4 = 1 ∨ letters % 4 = 2 ∨ letters % 4 = 3 := by omega
    rcases hcases with h | h | h | h <;> omega
  · omega

theorem counted_iff {alphabet : Text} (h : IsAlphabet alphabet) (text : Text) :
    (b64Clean text).length * 3 / 4 = (b64Decode alphabet text).length ↔ Counted alphabet text := by
  rw [length_b64Decode h, length_b64Clean alphabet text]
  exact round_off _ _

/-- The condition on a text, by its encoding. -/
def LengthPredicted (text : Text) : Encoding → Prop
  | .base64 => Counted B64 text
  | .base64url => Counted B64URL text
  | _ => True

/-- `byteLength` is the length of the buffer exactly if no foreign character is counted. -/
theorem byteLength_predicts_iff (hooks : Hooks) (str : Text) (enc : Encoding) :
    byteLengthOf hooks str enc = (bufferFrom hooks str enc).length ↔ LengthPredicted str enc := by
  rw [length_bufferFrom]
  cases enc with
  | utf8 => exact iff_of_true rfl trivial
  | utf16le => exact iff_of_true (length_utf16le hooks str).symm trivial
  | ascii => exact iff_of_true (List.length_map _).symm trivial
  | latin1 => exact iff_of_true (List.length_map _).symm trivial
  | hex => exact iff_of_true (length_hexDecode str).symm trivial
  | base64 => exact counted_iff isAlphabet_B64 str
  | base64url => exact counted_iff isAlphabet_B64URL str

/-- `'QQ!?'` is counted as four letters and decoded as two; in base64url the same happens to the
letters that only base64 has. -/
theorem byteLength_counts_foreign :
    byteLengthOf ⟨id, id⟩ (units "QQ!?") .base64 = 3 ∧
      bufferFrom ⟨id, id⟩ (units "QQ!?") .base64 = [0x41] ∧
      byteLengthOf ⟨id, id⟩ (units "+/+/") .base64url = 3 ∧
      bufferFrom ⟨id, id⟩ (units "+/+/") .base64url = [] := by
  simp only [bufferFrom, bytesFromString, B64_eq, B64URL_eq]
  decide +kernel

end Codec
