import QuickjsRuntime.Codec.ByteLength
import QuickjsRuntime.Url.FormCodec

/-!
# Base64 for URLs

What `toString('base64url')` has to do with `toString('base64')` in `node_compat_buffer.dart`. One
encoder writes both and fills the last group in both, and one decoder reads both and passes over
the two letters of the other alphabet. So the texts are as they should be exactly where neither
shows: for whole groups of three bytes in which the last two letters do not occur.
-/

namespace Codec

open Utf16 (Text units)

/-! ## The URL-safe form -/

def urlLetter (c : Nat) : Nat :=
  if c = 0x2B then 0x2D else if c = 0x2F then 0x5F else c

/-- `'+'` replaced by `'-'`, `'/'` by `'_'`, and the padding removed. -/
def urlSafe (text : Text) : Text :=
  (text.filter (· ≠ equalsSign)).map urlLetter

/-- The two texts of a buffer are forms of each other, the one for URLs is written in a form as it
is, and either is decoded in either encoding. -/
structure Interchangeable (hooks : Hooks) (bytes : List UInt8) : Prop where
  safe : bufferToString hooks bytes .base64url = urlSafe (bufferToString hooks bytes .base64)
  unchanged : ∀ c ∈ bufferToString hooks bytes .base64url, Url.isFormSafe c = true
  decoded : ∀ written ∈ [Encoding.base64, .base64url], ∀ read ∈ [Encoding.base64, .base64url],
    bufferFrom hooks (bufferToString hooks bytes written) read = bytes

/-! ## The two alphabets -/

theorem letter_alphanumerics {v : Nat} (hv : v < 62) :
    letter B64 v = letter B64URL v ∧ Url.isFormSafe (letter B64 v) = true ∧
      letter B64 v ≠ equalsSign ∧ urlLetter (letter B64 v) = letter B64 v := by
  rw [B64_eq, B64URL_eq]
  revert v
  decide

theorem idxOf_foreign {v : Nat} (hv : v < 64) :
    B64URL.idxOf? (letter B64 v) = if v < 62 then some v else none := by
  split
  next hsame =>
    rw [(letter_alphanumerics hsame).1]
    exact isAlphabet_B64URL.idxOf_letter v hv
  next hforeign =>
    rw [B64_eq, B64URL_eq]
    obtain rfl | rfl : v = 62 ∨ v = 63 := by omega
    · decide
    · decide

/-- What the decoder for URLs finds in a text of the other encoding. -/
theorem symbols_letters_B64 {ss : List Nat} (hss : ∀ s ∈ ss, s < 64) :
    symbols B64URL (ss.map (letter B64)) = ss.filter (· < 62) := by
  induction ss with
  | nil => rfl
  | cons s ss ih =>
    simp only [List.forall_mem_cons] at hss
    rw [symbols, List.map_cons, List.filterMap_cons, idxOf_foreign hss.1]
    by_cases hs : s < 62
    · rw [if_pos hs, List.filter_cons_of_pos (by simpa using hs)]
      exact congrArg (s :: ·) (ih hss.2)
    · rw [if_neg hs, List.filter_cons_of_neg (by simpa using hs)]
      exact ih hss.2

/-! ## When they can be interchanged -/

variable {hooks : Hooks} {bytes : List UInt8}

theorem bufferToString_base64 (hooks : Hooks) (bytes : List UInt8) :
    bufferToString hooks bytes .base64 = b64Encode B64 bytes :=
  bufferToString_eq ..

theorem bufferToString_base64url (hooks : Hooks) (bytes : List UInt8) :
    bufferToString hooks bytes .base64url = b64Encode B64URL bytes :=
  bufferToString_eq ..

theorem padding_eq_zero_iff : Sextets.padding bytes = 0 ↔ bytes.length % 3 = 0 := by
  unfold Sextets.padding
  omega

theorem Interchangeable.whole (h : Interchangeable hooks bytes) : bytes.length % 3 = 0 := by
  rw [← padding_eq_zero_iff]
  by_contra hpadding
  have hmem : equalsSign ∈ bufferToString hooks bytes .base64url := by
    rw [bufferToString_base64url, b64Encode_eq, List.mem_append, List.mem_replicate]
    exact Or.inr ⟨hpadding, rfl⟩
  exact absurd (h.unchanged _ hmem) (by decide)

theorem Interchangeable.letters (h : Interchangeable hooks bytes) :
    ∀ v ∈ Sextets.ofBytes bytes, v < 62 := by
  have hdecoded := h.decoded .base64 (by simp) .base64url (by simp)
  have hlength := congrArg List.length hdecoded
  rw [length_bufferFrom, bytesFromString, length_b64Decode isAlphabet_B64URL, letterCount,
    bufferToString_base64, b64Encode_eq, b64Clean_letters isAlphabet_B64 Sextets.ofBytes_lt,
    symbols_letters_B64 Sextets.ofBytes_lt] at hlength
  -- a letter that is passed over leaves a buffer that is too short
  have hwhole := h.whole
  have hsextets := Sextets.length_ofBytes_eq bytes
  have hall :
      ((Sextets.ofBytes bytes).filter (· < 62)).length = (Sextets.ofBytes bytes).length := by
    have hle := List.length_filter_le (fun v => decide (v < 62)) (Sextets.ofBytes bytes)
    omega
  intro v hv
  simpa using List.length_filter_eq_length_iff.mp hall v hv

theorem texts_eq (hletters : ∀ v ∈ Sextets.ofBytes bytes, v < 62) :
    b64Encode B64URL bytes = b64Encode B64 bytes := by
  have hsame : (Sextets.ofBytes bytes).map (letter B64URL) =
      (Sextets.ofBytes bytes).map (letter B64) := by
    apply List.map_congr_left
    intro v hv
    exact (letter_alphanumerics (hletters v hv)).1.symm
  rw [b64Encode_eq, b64Encode_eq, hsame]

theorem text_eq_of_whole (hwhole : bytes.length % 3 = 0) :
    b64Encode B64 bytes = (Sextets.ofBytes bytes).map (letter B64) := by
  rw [b64Encode_eq, padding_eq_zero_iff.mpr hwhole, List.replicate_zero, List.append_nil]

theorem urlSafe_text (hwhole : bytes.length % 3 = 0)
    (hletters : ∀ v ∈ Sextets.ofBytes bytes, v < 62) :
    urlSafe (b64Encode B64 bytes) = b64Encode B64 bytes := by
  have hkept : ∀ c ∈ b64Encode B64 bytes, c ≠ equalsSign ∧ urlLetter c = c := by
    rw [text_eq_of_whole hwhole]
    intro c hc
    obtain ⟨v, hv, rfl⟩ := List.mem_map.mp hc
    exact (letter_alphanumerics (hletters v hv)).2.2
  have hfilter : (b64Encode B64 bytes).filter (· ≠ equalsSign) = b64Encode B64 bytes :=
    List.filter_eq_self.mpr fun c hc => by simpa using (hkept c hc).1
  have hmap : (b64Encode B64 bytes).map urlLetter = (b64Encode B64 bytes).map id :=
    List.map_congr_left fun c hc => (hkept c hc).2
  rw [urlSafe, hfilter, hmap, List.map_id]

theorem interchangeable_of_letters (hwhole : bytes.length % 3 = 0)
    (hletters : ∀ v ∈ Sextets.ofBytes bytes, v < 62) : Interchangeable hooks bytes := by
  have htexts := texts_eq hletters
  have hurl : bufferToString hooks bytes .base64url = b64Encode B64 bytes := by
    rw [bufferToString_base64url, htexts]
  have hplain := bufferToString_base64 hooks bytes
  constructor
  case safe => rw [hurl, hplain, urlSafe_text hwhole hletters]
  case unchanged =>
    rw [hurl, text_eq_of_whole hwhole]
    intro c hc
    obtain ⟨v, hv, rfl⟩ := List.mem_map.mp hc
    exact (letter_alphanumerics (hletters v hv)).2.1
  case decoded =>
    have hread : bufferFrom hooks (b64Encode B64 bytes) .base64 = bytes := by
      rw [bufferFrom, bytesFromString, b64Decode_b64Encode isAlphabet_B64, map_ofNat_toNat]
    have hread' : bufferFrom hooks (b64Encode B64 bytes) .base64url = bytes := by
      rw [bufferFrom, bytesFromString, ← htexts, b64Decode_b64Encode isAlphabet_B64URL,
        map_ofNat_toNat]
    simp [hurl, hplain, hread, hread']

/-- The texts of the two encodings can be interchanged exactly if the bytes come in whole groups
that have neither of the last two letters. -/
theorem base64url_interchangeable_iff (hooks : Hooks) (bytes : List UInt8) :
    Interchangeable hooks bytes ↔ bytes.length % 3 = 0 ∧ ∀ v ∈ Sextets.ofBytes bytes, v < 62 :=
  ⟨fun h => ⟨h.whole, h.letters⟩, fun h => interchangeable_of_letters h.1 h.2⟩

/-- The byte `0xFB` is written `'-w=='` for URLs, which has padding, and its base64 text `'+w=='`
is decoded to nothing as base64url. -/
theorem base64url_padded :
    bufferToString ⟨id, id⟩ [0xFB] .base64url = units "-w==" ∧
      urlSafe (bufferToString ⟨id, id⟩ [0xFB] .base64) = units "-w" ∧
      Url.isFormSafe equalsSign = false ∧
      bufferFrom ⟨id, id⟩ (bufferToString ⟨id, id⟩ [0xFB] .base64) .base64url = [] := by
  simp only [bufferToString_base64, bufferToString_base64url, bufferFrom, bytesFromString, B64_eq,
    B64URL_eq]
  decide

end Codec
