import QuickjsRuntime.Codec.Buffer
import QuickjsRuntime.Foundation.Unicode

/-!
# The default codecs of the host

What `node_compat_fallbacks.dart` puts in place of the hooks that are not configured: UTF-8 by
`dart:convert`, and a base64 codec of its own behind `btoa` and `atob`. Integers of Dart are 64
bits wide.
-/

namespace Codec

open Utf16 (Text units isSpace)

namespace Fallback

/-! ## UTF-8 -/

/-- `utf8.encode`, in which a lone surrogate is U+FFFD. -/
def utf8Bytes (text : Text) : List UInt8 :=
  Utf8.encode (Utf16.decode text)

/-- U+FEFF, the byte order mark. -/
def byteOrderMark : Char := Char.ofNat 0xFEFF

/-- One mark at the beginning is discarded. -/
def discardMark : List Char → List Char
  | [] => []
  | c :: cs => if c = byteOrderMark then cs else c :: cs

/-- What is not a byte is read as one that no character contains. -/
def byteOf (n : Int) : UInt8 :=
  if 0 ≤ n ∧ n ≤ 0xFF then UInt8.ofNat n.toNat else 0xFF

/-- `utf8.decode` with `allowMalformed` -/
def utf8String (bytes : List Int) : Text :=
  Utf16.encode (discardMark (Utf8.decode (bytes.map byteOf)))

/-- `__ncUtf8Encode` and `__ncUtf8Decode` where no hook is configured. -/
def hooks : Hooks where
  utf8Encode text := (utf8Bytes text).map fun b => b.toNat &&& 0xFF
  utf8Decode bytes := utf8String (bytes.map Int.ofNat)

/-! ## Base64 -/

def b64alphabet : Text :=
  units "ABCDEFGHIJKLMNOPQRSTUVWXYZabcdefghijklmnopqrstuvwxyz0123456789+/"

def b64QuadMask : Nat := 0x0F

/-- The letters of one round of the encoder. -/
def b64Group (b0 : UInt8) (b1 b2 : Option UInt8) : Text :=
  [letter b64alphabet (b0.toNat >>> 2),
    letter b64alphabet (((b0.toNat &&& 0x03) <<< 4) ||| ((b1.map UInt8.toNat).getD 0 >>> 4)),
    match b1 with
    | none => equalsSign
    | some b1 =>
      letter b64alphabet
        (((b1.toNat &&& b64QuadMask) <<< 2) ||| ((b2.map UInt8.toNat).getD 0 >>> 6)),
    match b2 with
    | none => equalsSign
    | some b2 => letter b64alphabet (b2.toNat &&& 0x3F)]

def b64EncodeBytes : List UInt8 → Text
  | b0 :: b1 :: b2 :: rest => b64Group b0 (some b1) (some b2) ++ b64EncodeBytes rest
  | [b0, b1] => b64Group b0 (some b1) none
  | [b0] => b64Group b0 none none
  | [] => []

def b64Encode (text : Text) : Text :=
  b64EncodeBytes (utf8Bytes text)

def b64Clean (text : Text) : Text :=
  (text.filter fun c => c ≠ equalsSign).filter fun c => !isSpace c

/-- `_b64alphabet.indexOf`, -1 for what is no letter -/
def indexOf (c : Nat) : BitVec 64 :=
  match b64alphabet.idxOf? c with
  | some v => BitVec.ofNat 64 v
  | none => -1

def octet0 (n0 n1 : BitVec 64) : BitVec 64 :=
  (n0 <<< 2) ||| n1.sshiftRight 4

def octet1 (n1 n2 : BitVec 64) : BitVec 64 :=
  ((n1 &&& BitVec.ofNat 64 b64QuadMask) <<< 4) ||| n2.sshiftRight 2

def octet2 (n2 n3 : BitVec 64) : BitVec 64 :=
  ((n2 &&& 0x03#64) <<< 6) ||| n3

/-- The bytes collected from a cleaned text; the values of letters that are missing from the
last group are 0, and its first byte is added in any case. -/
def b64DecodeBytes : Text → List (BitVec 64)
  | c0 :: c1 :: c2 :: c3 :: rest =>
    octet0 (indexOf c0) (indexOf c1) :: octet1 (indexOf c1) (indexOf c2) ::
      octet2 (indexOf c2) (indexOf c3) :: b64DecodeBytes rest
  | [c0, c1, c2] => [octet0 (indexOf c0) (indexOf c1), octet1 (indexOf c1) (indexOf c2)]
  | [c0, c1] => [octet0 (indexOf c0) (indexOf c1)]
  | [c0] => [octet0 (indexOf c0) 0]
  | [] => []

def b64Decode (text : Text) : Text :=
  utf8String ((b64DecodeBytes (b64Clean text)).map BitVec.toInt)

end Fallback

/-- `btoa` without a hook -/
def btoa (text : Text) : Text :=
  Fallback.b64Encode text

/-- `atob` without a hook -/
def atob (text : Text) : Text :=
  Fallback.b64Decode text

namespace Fallback

/-! ## The default UTF-8 path -/

theorem byteOf_toNat (b : UInt8) : byteOf (Int.ofNat b.toNat) = b := by
  have hb := b.toNat_lt
  rw [byteOf, if_pos ⟨Int.natCast_nonneg _, by simp only [Int.ofNat_eq_natCast]; omega⟩]
  exact UInt8.ofNat_toNat

theorem map_byteOf_toNat (bytes : List UInt8) :
    ((bytes.map UInt8.toNat).map Int.ofNat).map byteOf = bytes := by
  induction bytes with
  | nil => rfl
  | cons b bytes ih => rw [List.map_cons, List.map_cons, List.map_cons, byteOf_toNat, ih]

theorem bufferFrom_utf8 (text : Text) : bufferFrom hooks text .utf8 = utf8Bytes text := by
  have hmask := map_masked_byte (utf8Bytes text)
  rw [List.map_map] at hmask
  rw [bufferFrom, bytesFromString]
  exact (congrArg (List.map UInt8.ofNat) hmask).trans (map_ofNat_toNat _)

theorem bufferToString_utf8 (bytes : List UInt8) :
    bufferToString hooks bytes .utf8 = Utf16.encode (discardMark (Utf8.decode bytes)) := by
  rw [bufferToString_eq]
  simp only [hooks, utf8String, map_byteOf_toNat]

theorem bufferFromArray_bytes (bytes : List UInt8) :
    bufferFromArray (bytes.map UInt8.toNat) = bytes := by
  have hmask := map_masked_byte bytes
  rw [bufferFromArray, ← map_ofNat_toNat bytes]
  simpa using congrArg (List.map UInt8.ofNat) hmask

theorem discardMark_eq_self_iff {cs : List Char} :
    discardMark cs = cs ↔ cs.head? ≠ some byteOrderMark := by
  cases cs with
  | nil => simp [discardMark]
  | cons c cs =>
    rw [discardMark]
    split
    next hc =>
      simp only [List.head?_cons, hc, ne_eq, not_true_eq_false, iff_false]
      intro h
      simpa using congrArg List.length h
    next hc => simpa using hc

/-- With the default hooks a well-formed string survives `Buffer.from` and `toString`, and valid
UTF-8 survives `toString` and `Buffer.from`, exactly where no byte order mark comes first. -/
theorem utf8_lossless_iff {s : Text} (hs : Utf16.WellFormed s) {bs : List UInt8}
    (hbs : Utf8.Valid bs) :
    (bufferToString hooks (bufferFrom hooks s .utf8) .utf8 = s ↔ s.head? ≠ some 0xFEFF) ∧
      (bufferFrom hooks (bufferToString hooks (bufferFromArray (bs.map UInt8.toNat)) .utf8) .utf8 =
        bs ↔ ¬ [0xEF, 0xBB, 0xBF] <+: bs) := by
  obtain ⟨cs, rfl⟩ := hs
  obtain ⟨ds, rfl⟩ := hbs
  constructor
  · have hmark : (0xFEFF : Nat) = byteOrderMark.toNat := by decide
    rw [bufferFrom_utf8, bufferToString_utf8, utf8Bytes, Utf16.decode_encode, Utf8.decode_encode,
      hmark, Ne, Utf16.head_encode_iff (by decide), ← Ne, ← discardMark_eq_self_iff]
    constructor
    · exact Utf16.encode_injective
    · intro h
      rw [h]
  · have hmark : [0xEF, 0xBB, 0xBF] = String.utf8EncodeChar byteOrderMark := by decide
    rw [bufferFromArray_bytes, bufferToString_utf8, bufferFrom_utf8, utf8Bytes,
      Utf16.decode_encode, Utf8.decode_encode, hmark, Utf8.utf8EncodeChar_prefix_iff, ← Ne,
      ← discardMark_eq_self_iff]
    constructor
    · exact Utf8.encode_injective
    · intro h
      rw [h]

theorem utf8_lossless_letter :
    bufferToString hooks (bufferFrom hooks [0x61] .utf8) .utf8 = [0x61] ∧
      bufferFrom hooks (bufferToString hooks (bufferFromArray [0x61]) .utf8) .utf8 = [0x61] := by
  have htext : Utf16.WellFormed [0x61] := ⟨['a'], by decide⟩
  have hbytes : Utf8.Valid [0x61] := ⟨['a'], by decide⟩
  obtain ⟨hstring, hbuffer⟩ := utf8_lossless_iff htext hbytes
  exact ⟨hstring.mpr (by decide), hbuffer.mpr (by decide)⟩

/-- `'\uFEFFa'` comes back as `'a'`, in both directions. -/
theorem byteOrderMark_lost :
    bufferToString hooks (bufferFrom hooks [0xFEFF, 0x61] .utf8) .utf8 = [0x61] ∧
      bufferFrom hooks (bufferToString hooks (bufferFromArray [0xEF, 0xBB, 0xBF, 0x61]) .utf8)
        .utf8 = [0x61] := by
  decide

/-! ## The base64 codec of the host -/

theorem b64alphabet_eq : b64alphabet = B64 := rfl

theorem and_low (n k : Nat) : n &&& (2 ^ k - 1) = n % 2 ^ k :=
  Nat.and_two_pow_sub_one_eq_mod n k

/-- The indices of a round are the sextets of its bytes. -/
theorem b64Group_cut (b0 : Nat) {b1 b2 : Nat} (h1 : b1 < 256) (h2 : b2 < 256) :
    b0 >>> 2 = b0 / 4 ∧ ((b0 &&& 0x03) <<< 4) ||| (b1 >>> 4) = b0 % 4 * 16 + b1 / 16 ∧
      ((b1 &&& b64QuadMask) <<< 2) ||| (b2 >>> 6) = b1 % 16 * 4 + b2 / 64 ∧
      b2 &&& 0x3F = b2 % 64 := by
  have hb1 : b1 >>> 4 = b1 / 16 := Nat.shiftRight_eq_div_pow b1 4
  have hb2 : b2 >>> 6 = b2 / 64 := Nat.shiftRight_eq_div_pow b2 6
  refine ⟨Nat.shiftRight_eq_div_pow b0 2, ?_, ?_, and_low b2 6⟩
  · rw [hb1, show b0 &&& 0x03 = b0 % 4 from and_low b0 2]
    exact shiftLeft_or (by omega)
  · rw [hb2, show b1 &&& b64QuadMask = b1 % 16 from and_low b1 4]
    exact shiftLeft_or (by omega)

/-- The encoder of the host and that of `Buffer` write the same text. -/
theorem b64EncodeBytes_eq (bytes : List UInt8) :
    b64EncodeBytes bytes = Codec.b64Encode B64 bytes := by
  rw [b64Encode_eq]
  induction bytes using Sextets.ofBytes.induct with
  | case1 b0 b1 b2 rest ih =>
    obtain ⟨hi, hmid, hmid', hlo⟩ := b64Group_cut b0.toNat b1.toNat_lt b2.toNat_lt
    simp only [b64EncodeBytes, b64Group, Option.map_some, Option.getD_some, hi, hmid, hmid', hlo,
      ih, Sextets.padding_cons_three, b64alphabet_eq]
    rfl
  | case2 b0 b1 =>
    obtain ⟨hi, hmid, hmid', -⟩ := b64Group_cut b0.toNat b1.toNat_lt (by decide : 0 < 256)
    simp only [b64EncodeBytes, b64Group, Option.map_some, Option.getD_some, Option.map_none,
      Option.getD_none, hi, hmid, hmid', b64alphabet_eq]
    rfl
  | case3 b0 =>
    obtain ⟨hi, hmid, -⟩ := b64Group_cut b0.toNat (by decide : 0 < 256)
      (by decide : 0 < 256)
    simp only [b64EncodeBytes, b64Group, Option.map_none, Option.getD_none, hi, hmid,
      b64alphabet_eq]
    rfl
  | case4 => rfl

/-- Sextets are far from the sign of a 64-bit integer. -/
theorem sshiftRight_ofNat {n : Nat} (hn : n < 64) (k : Nat) :
    (BitVec.ofNat 64 n).sshiftRight k = BitVec.ofNat 64 (n >>> k) := by
  have hmsb : (BitVec.ofNat 64 n).msb = false := by
    rw [BitVec.msb_eq_false_iff_two_mul_lt, BitVec.toNat_ofNat]
    omega
  have hle : n >>> k ≤ n := by
    rw [Nat.shiftRight_eq_div_pow]
    exact Nat.div_le_self _ _
  rw [BitVec.sshiftRight_eq_of_msb_false hmsb]
  apply BitVec.eq_of_toNat_eq
  rw [BitVec.toNat_ushiftRight, BitVec.toNat_ofNat, BitVec.toNat_ofNat,
    Nat.mod_eq_of_lt (by omega), Nat.mod_eq_of_lt (by omega)]

/-- A sextet shifted up and a value below it, as one number. -/
theorem shiftLeft_or_ofNat {a v i : Nat} (ha : a < 64) (hi : i ≤ 6) (hv : v < 2 ^ i) :
    (BitVec.ofNat 64 a <<< i) ||| BitVec.ofNat 64 v = BitVec.ofNat 64 (a * 2 ^ i + v) := by
  have hpow : 2 ^ i ≤ 2 ^ 6 := Nat.pow_le_pow_right (by decide) hi
  have hprod : a * 2 ^ i ≤ 63 * 2 ^ 6 := Nat.mul_le_mul (by omega) hpow
  apply BitVec.eq_of_toNat_eq
  rw [BitVec.toNat_or, BitVec.toNat_shiftLeft, BitVec.toNat_ofNat, BitVec.toNat_ofNat,
    BitVec.toNat_ofNat, Nat.mod_eq_of_lt (a := a) (by omega), Nat.shiftLeft_eq,
    Nat.mod_eq_of_lt (a := a * 2 ^ i) (by omega), Nat.mod_eq_of_lt (a := v) (by omega),
    Nat.mod_eq_of_lt (by omega), ← Nat.shiftLeft_eq, shiftLeft_or hv, Nat.shiftLeft_eq]

theorem and_ofNat (n : Nat) {k : Nat} (hk : k ≤ 6) (hn : n < 64) :
    BitVec.ofNat 64 n &&& BitVec.ofNat 64 (2 ^ k - 1) = BitVec.ofNat 64 (n % 2 ^ k) := by
  have hpow : 2 ^ k ≤ 2 ^ 6 := Nat.pow_le_pow_right (by decide) hk
  have hle : n % 2 ^ k ≤ n := Nat.mod_le _ _
  apply BitVec.eq_of_toNat_eq
  rw [BitVec.toNat_and, BitVec.toNat_ofNat, BitVec.toNat_ofNat, BitVec.toNat_ofNat,
    Nat.mod_eq_of_lt (a := n) (by omega), Nat.mod_eq_of_lt (a := 2 ^ k - 1) (by omega),
    Nat.mod_eq_of_lt (a := n % 2 ^ k) (by omega), and_low]

section Octets

variable {s0 s1 s2 s3 : Nat}

theorem octet0_ofNat (h0 : s0 < 64) (h1 : s1 < 64) :
    octet0 (BitVec.ofNat 64 s0) (BitVec.ofNat 64 s1) = BitVec.ofNat 64 (s0 * 4 + s1 / 16) := by
  have hshift : s1 >>> 4 = s1 / 16 := Nat.shiftRight_eq_div_pow s1 4
  rw [octet0, sshiftRight_ofNat h1, hshift]
  exact shiftLeft_or_ofNat (i := 2) h0 (by decide) (by omega)

theorem octet1_ofNat (h1 : s1 < 64) (h2 : s2 < 64) :
    octet1 (BitVec.ofNat 64 s1) (BitVec.ofNat 64 s2) = BitVec.ofNat 64 (s1 % 16 * 16 + s2 / 4) := by
  have hshift : s2 >>> 2 = s2 / 4 := Nat.shiftRight_eq_div_pow s2 2
  have hmask : BitVec.ofNat 64 s1 &&& BitVec.ofNat 64 b64QuadMask = BitVec.ofNat 64 (s1 % 16) :=
    and_ofNat s1 (k := 4) (by decide) h1
  rw [octet1, sshiftRight_ofNat h2, hshift, hmask]
  exact shiftLeft_or_ofNat (i := 4) (by omega) (by decide) (by omega)

theorem octet2_ofNat (h2 : s2 < 64) (h3 : s3 < 64) :
    octet2 (BitVec.ofNat 64 s2) (BitVec.ofNat 64 s3) = BitVec.ofNat 64 (s2 % 4 * 64 + s3) := by
  have hmask : BitVec.ofNat 64 s2 &&& 0x03#64 = BitVec.ofNat 64 (s2 % 4) :=
    and_ofNat s2 (k := 2) (by decide) h2
  rw [octet2, hmask]
  exact shiftLeft_or_ofNat (i := 6) (by omega) (by decide) h3

end Octets

theorem indexOf_letter {s : Nat} (hs : s < 64) : indexOf (letter B64 s) = BitVec.ofNat 64 s := by
  have hindex : b64alphabet.idxOf? (letter B64 s) = some s := by
    rw [b64alphabet_eq, isAlphabet_B64.idxOf_letter s hs]
  unfold indexOf
  rw [hindex]

/-- On letters, and with no last group of one letter, the decoder regroups their values. -/
theorem b64DecodeBytes_letters {ss : List Nat} (hss : ∀ s ∈ ss, s < 64)
    (hlength : ss.length % 4 ≠ 1) :
    b64DecodeBytes (ss.map (letter B64)) = (Sextets.toOctets ss).map (BitVec.ofNat 64) := by
  induction ss using Sextets.toOctets.induct with
  | case1 s0 s1 s2 s3 rest ih =>
    simp only [List.forall_mem_cons] at hss
    obtain ⟨h0, h1, h2, h3, hrest⟩ := hss
    have hlast : rest.length % 4 ≠ 1 := by
      simp only [List.length_cons] at hlength
      omega
    simp only [List.map_cons, b64DecodeBytes, Sextets.toOctets, indexOf_letter, h0, h1, h2, h3,
      octet0_ofNat, octet1_ofNat, octet2_ofNat, ih hrest hlast]
  | case2 s0 s1 s2 =>
    simp only [List.forall_mem_cons] at hss
    obtain ⟨h0, h1, h2, -⟩ := hss
    simp only [List.map_cons, List.map_nil, b64DecodeBytes, Sextets.toOctets, indexOf_letter, h0,
      h1, h2, octet0_ofNat, octet1_ofNat]
  | case3 s0 s1 =>
    simp only [List.forall_mem_cons] at hss
    obtain ⟨h0, h1, -⟩ := hss
    simp only [List.map_cons, List.map_nil, b64DecodeBytes, Sextets.toOctets, indexOf_letter, h0,
      h1, octet0_ofNat]
  | case4 => simp at hlength
  | case5 => rfl

theorem b64Clean_eq (text : Text) : b64Clean text = Codec.b64Clean text := by
  rw [b64Clean, Codec.b64Clean, List.filter_filter]
  congr 1
  funext c
  simp

/-- On a text that `Buffer` wrote the decoder collects the bytes. -/
theorem b64DecodeBytes_b64Encode (bytes : List UInt8) :
    b64DecodeBytes (b64Clean (Codec.b64Encode B64 bytes)) =
      bytes.map fun b => BitVec.ofNat 64 b.toNat := by
  rw [b64Clean_eq, b64Encode_eq, b64Clean_letters isAlphabet_B64 Sextets.ofBytes_lt,
    b64DecodeBytes_letters Sextets.ofBytes_lt (Sextets.length_ofBytes bytes),
    Sextets.toOctets_ofBytes, List.map_map]
  rfl

theorem toInt_ofNat_byte {n : Nat} (hn : n < 256) : (BitVec.ofNat 64 n).toInt = Int.ofNat n := by
  rw [BitVec.toInt_eq_toNat_of_lt, BitVec.toNat_ofNat, Nat.mod_eq_of_lt (by omega)]
  · rfl
  · rw [BitVec.toNat_ofNat]
    omega

theorem byteOf_toInt (b : UInt8) : byteOf (BitVec.ofNat 64 b.toNat).toInt = b := by
  rw [toInt_ofNat_byte b.toNat_lt, byteOf_toNat]

/-! ## `btoa` and `atob` -/

theorem btoa_eq (s : Text) : btoa s = Codec.b64Encode B64 (utf8Bytes s) :=
  b64EncodeBytes_eq _

theorem atob_b64Encode (bytes : List UInt8) :
    atob (Codec.b64Encode B64 bytes) = Utf16.encode (discardMark (Utf8.decode bytes)) := by
  have hbytes : (bytes.map fun b => byteOf (BitVec.ofNat 64 b.toNat).toInt) = bytes := by
    simp only [byteOf_toInt, List.map_id']
  rw [atob, b64Decode, b64DecodeBytes_b64Encode, utf8String, List.map_map, List.map_map]
  exact congrArg (fun l => Utf16.encode (discardMark (Utf8.decode l))) hbytes

theorem b64Encode_injective {a b : List UInt8}
    (h : Codec.b64Encode B64 a = Codec.b64Encode B64 b) : a = b := by
  have hdecoded := congrArg (Codec.b64Decode B64) h
  rw [b64Decode_b64Encode isAlphabet_B64, b64Decode_b64Encode isAlphabet_B64] at hdecoded
  rw [← map_ofNat_toNat a, hdecoded, map_ofNat_toNat]

/-- The UTF-8 bytes of a binary string are its units only in ASCII. -/
theorem utf8Bytes_eq_latin1_iff {s : Text} (hs : ∀ u ∈ s, u ≤ 0xFF) :
    utf8Bytes s = s.map UInt8.ofNat ↔ ∀ u ∈ s, u < 0x80 := by
  have hsmall : ∀ u ∈ s, u < 0xD800 := by
    intro u hu
    have := hs u hu
    omega
  rw [utf8Bytes, Utf16.decode_of_lt hsmall]
  constructor
  · intro h u hu
    have hlength := (Utf8.length_encode (s.map Char.ofNat)).2
    rw [Utf16.encode_map_ofNat hsmall, h, List.length_map] at hlength
    have hchar := hlength rfl (Char.ofNat u) (List.mem_map_of_mem hu)
    rw [Char.toNat_ofNat_of_valid (.inl (hsmall u hu))] at hchar
    omega
  · intro h
    induction s with
    | nil => rfl
    | cons u s ih =>
      simp only [List.forall_mem_cons] at hs hsmall h
      have hu : (UInt8.ofNat u).toNat = u := Utf8.toNat_byte (by omega)
      have hbyte := Utf8.utf8EncodeChar_ascii (b := UInt8.ofNat u) (by omega)
      rw [hu] at hbyte
      rw [List.map_cons, Utf8.encode_cons, hbyte, ih hs.2 hsmall.2 h.2]
      rfl

/-- Discarding a mark shortens the text, and a mark is not a replacement. -/
theorem discardMark_cases (cs : List Char) :
    discardMark cs = cs ∨ cs = byteOrderMark :: discardMark cs := by
  cases cs with
  | nil => exact .inl rfl
  | cons c cs =>
    rw [discardMark]
    split
    next hc => exact .inr (by rw [hc])
    next => exact .inl rfl

/-- Decoded bytes are their own units only in ASCII. -/
theorem decoded_eq_latin1_iff {bytes : List UInt8} :
    Utf16.encode (discardMark (Utf8.decode bytes)) = bytes.map UInt8.toNat ↔
      ∀ b ∈ bytes, b.toNat < 0x80 := by
  constructor
  · intro h
    -- no unit reaches U+FFFD, so nothing was replaced and the bytes can be counted
    have hsmall : ∀ c ∈ discardMark (Utf8.decode bytes), c.toNat < 0x100 := by
      apply Utf16.toNat_lt_of_encode (by decide)
      intro u hu
      rw [h] at hu
      obtain ⟨b, -, rfl⟩ := List.mem_map.mp hu
      exact b.toNat_lt
    have hkept : Utf16.replacement ∉ discardMark (Utf8.decode bytes) := by
      intro hmem
      exact absurd (hsmall _ hmem) (by decide)
    have hcount := congrArg List.length h
    rw [List.length_map] at hcount
    rcases discardMark_cases (Utf8.decode bytes) with hsame | hmark
    · rw [hsame] at hkept hcount
      have hbytes := Utf8.encode_decode hkept
      have hascii := (Utf8.length_encode (Utf8.decode bytes)).2 (by rw [hcount, hbytes])
      rw [← hbytes]
      exact Utf8.encode_ascii hascii
    · have hkept' : Utf16.replacement ∉ Utf8.decode bytes := by
        rw [hmark, List.mem_cons, not_or]
        exact ⟨by decide, hkept⟩
      have hbytes := congrArg List.length (Utf8.encode_decode hkept')
      have hle := (Utf8.length_encode (discardMark (Utf8.decode bytes))).1
      have hthree : (String.utf8EncodeChar byteOrderMark).length = 3 := by decide
      rw [hmark, Utf8.encode_cons, List.length_append, hthree] at hbytes
      omega
  · intro h
    have hdecoded : Utf8.decode bytes = (bytes.map UInt8.toNat).map Char.ofNat := by
      rw [Utf8.decode_ascii fun b hb => Nat.le_of_lt_succ (h b hb), List.map_map]
      rfl
    have hunits : ∀ u ∈ bytes.map UInt8.toNat, u < 0x80 := by
      intro u hu
      obtain ⟨b, hb, rfl⟩ := List.mem_map.mp hu
      exact h b hb
    have hhead : (Utf8.decode bytes).head? ≠ some byteOrderMark := by
      intro hmark
      rw [hdecoded] at hmark
      obtain ⟨u, hu, hchar⟩ := List.mem_map.mp (List.mem_of_head? hmark)
      have hvalue := congrArg Char.toNat hchar
      have hlt := hunits u hu
      rw [Char.toNat_ofNat_of_valid (.inl (by omega))] at hvalue
      rw [hvalue] at hlt
      exact absurd hlt (by decide)
    rw [discardMark_eq_self_iff.mpr hhead, hdecoded, Utf16.encode_map_ofNat]
    intro u hu
    have := hunits u hu
    omega

/-- Without hooks `btoa` and `atob` go through UTF-8, so they agree with the latin-1 view of
`Buffer` exactly on ASCII. -/
theorem base64_agrees_iff {s : Text} (hs : ∀ u ∈ s, u ≤ 0xFF) (bs : List UInt8) :
    (btoa s = bufferToString hooks (bufferFrom hooks s .latin1) .base64 ↔ ∀ u ∈ s, u < 0x80) ∧
      (atob (bufferToString hooks bs .base64) =
          bufferToString hooks (bufferFrom hooks (bufferToString hooks bs .base64) .base64)
            .latin1 ∧
        atob (bufferToString hooks bs .base64) = bs.map UInt8.toNat ↔
        ∀ b ∈ bs, b.toNat < 0x80) := by
  constructor
  · have hlatin : bufferFrom hooks s .latin1 = s.map UInt8.ofNat := by
      rw [bufferFrom, bytesFromString, List.map_map]
      apply List.map_congr_left
      intro u hu
      rw [Function.comp, and_255, Nat.mod_eq_of_lt (by have := hs u hu; omega)]
    rw [btoa_eq, bufferToString_eq, hlatin, ← utf8Bytes_eq_latin1_iff hs]
    constructor
    · exact b64Encode_injective
    · intro h
      rw [h]
  · have hback : bufferFrom hooks (Codec.b64Encode B64 bs) .base64 = bs := by
      rw [bufferFrom, bytesFromString, b64Decode_b64Encode isAlphabet_B64, map_ofNat_toNat]
    simp only [bufferToString_eq, hback, and_self]
    rw [atob_b64Encode, decoded_eq_latin1_iff]

theorem base64_agrees_letter :
    btoa [0x61] = bufferToString hooks (bufferFrom hooks [0x61] .latin1) .base64 ∧
      atob (bufferToString hooks [0x61] .base64) = [0x61] := by
  have hbinary : ∀ u ∈ ([0x61] : Text), u ≤ 0xFF := by decide
  obtain ⟨hencoded, hdecoded⟩ := base64_agrees_iff hbinary [0x61]
  exact ⟨hencoded.mpr (by decide), (hdecoded.mpr (by simp)).2⟩

/-- `btoa('é')` is `w6k=` and not `6Q==`, and `atob('6Q==')` is U+FFFD. -/
theorem base64_disagrees :
    btoa [0xE9] = units "w6k=" ∧
      bufferToString hooks (bufferFrom hooks [0xE9] .latin1) .base64 = units "6Q==" ∧
      bufferToString hooks [0xE9] .base64 = units "6Q==" ∧ atob (units "6Q==") = [0xFFFD] := by
  decide

/-! ## The two base64 codecs -/

/-- A text over the alphabet, with what cleaning takes away anywhere in it. -/
def Base64Text (text : Text) : Prop :=
  ∀ c ∈ text, c ∈ B64 ∨ c = equalsSign ∨ isSpace c = true

instance (text : Text) : Decidable (Base64Text text) :=
  inferInstanceAs (Decidable (∀ c ∈ text, _))

theorem letter_of_mem {c : Nat} (hc : c ∈ B64) : ∃ s < 64, letter B64 s = c := by
  obtain ⟨s, hs, hget⟩ := List.mem_iff_getElem.mp hc
  refine ⟨s, by rwa [isAlphabet_B64.length_eq] at hs, ?_⟩
  rw [letter, List.getD_eq_getElem _ _ hs, hget]

/-- Cleaning leaves the letters. -/
theorem b64Clean_base64Text {text : Text} (htext : Base64Text text) :
    b64Clean text = text.filter (· ∈ B64) := by
  rw [b64Clean_eq]
  apply List.filter_congr
  intro c hc
  by_cases hletter : c ∈ B64
  · obtain ⟨s, hs, rfl⟩ := letter_of_mem hletter
    rw [isAlphabet_B64.kept s hs, decide_eq_true hletter]
    rfl
  · have hcleaned : (isSpace c || c = equalsSign) = true := by
      rcases htext c hc with hmem | hequals | hspace
      · exact absurd hmem hletter
      · simp [hequals]
      · simp [hspace]
    rw [hcleaned, decide_eq_false hletter]
    rfl

theorem map_letter_symbols {clean : Text} (hclean : ∀ c ∈ clean, c ∈ B64) :
    (symbols B64 clean).map (letter B64) = clean := by
  induction clean with
  | nil => rfl
  | cons c clean ih =>
    rw [List.forall_mem_cons] at hclean
    obtain ⟨s, hs, rfl⟩ := letter_of_mem hclean.1
    have hsymbols : symbols B64 (letter B64 s :: clean) = s :: symbols B64 clean := by
      rw [symbols, List.filterMap_cons]
      simp only [isAlphabet_B64.idxOf_letter s hs]
      rfl
    rw [hsymbols, List.map_cons, ih hclean.2]

theorem length_b64DecodeBytes (clean : Text) :
    (b64DecodeBytes clean).length = (clean.length * 3 + 1) / 4 := by
  induction clean using b64DecodeBytes.induct with
  | case1 c0 c1 c2 c3 rest ih =>
    simp only [b64DecodeBytes, List.length_cons, ih]
    omega
  | case2 | case3 | case4 | case5 => simp [b64DecodeBytes]

/-- On a text of letters the decoders collect the same bytes, but for a letter that is left over
behind the groups of four: the host makes a byte of its six bits, `Buffer` makes none. -/
theorem decoders_agree_iff {clean : Text} (hclean : ∀ c ∈ clean, c ∈ B64) :
    (b64DecodeBytes clean).map BitVec.toInt =
        (Sextets.toOctets (symbols B64 clean)).map Int.ofNat ↔
      clean.length % 4 ≠ 1 := by
  have hletters := map_letter_symbols hclean
  have hcount : (symbols B64 clean).length = clean.length := by
    rw [← congrArg List.length hletters, List.length_map]
  have hlt := isAlphabet_B64.symbols_lt clean
  constructor
  · intro hsame
    have hlength := congrArg List.length hsame
    rw [List.length_map, List.length_map, length_b64DecodeBytes, Sextets.length_toOctets,
      hcount] at hlength
    omega
  · intro hlast
    have hbytes := b64DecodeBytes_letters hlt (by rwa [hcount])
    rw [hletters] at hbytes
    rw [hbytes, List.map_map]
    apply List.map_congr_left
    intro n hn
    exact toInt_ofNat_byte (Sextets.toOctets_lt hlt n hn)

/-- The base64 codec of the host and that of `Buffer` coincide exactly on texts whose letters do
not leave a single one behind the groups of four. -/
theorem base64_codecs_coincide_iff (bytes : List UInt8) {text : Text} (htext : Base64Text text) :
    (b64EncodeBytes bytes = Codec.b64Encode B64 bytes ∧
      (b64DecodeBytes (b64Clean text)).map BitVec.toInt =
        (Codec.b64Decode B64 text).map Int.ofNat) ↔
      text.countP (· ∈ B64) % 4 ≠ 1 := by
  have hclean := b64Clean_base64Text htext
  have hletters : ∀ c ∈ b64Clean text, c ∈ B64 := by
    intro c hc
    rw [hclean] at hc
    exact of_decide_eq_true (List.mem_filter.mp hc).2
  rw [b64Decode_eq_toOctets isAlphabet_B64, ← b64Clean_eq, decoders_agree_iff hletters, hclean,
    ← List.countP_eq_length_filter]
  exact and_iff_right (b64EncodeBytes_eq bytes)

/-- `'QU I=\n'` -/
theorem base64_codecs_coincide_padded :
    (b64DecodeBytes (b64Clean (units "QU I=\n"))).map BitVec.toInt =
      (Codec.b64Decode B64 (units "QU I=\n")).map Int.ofNat :=
  ((base64_codecs_coincide_iff [] (by decide +kernel)).mpr (by decide +kernel)).2

/-- Of `'A'` the host makes a byte. -/
theorem base64_single_letter :
    Base64Text (units "A") ∧ b64DecodeBytes (b64Clean (units "A")) = [0] ∧
      Codec.b64Decode B64 (units "A") = [] := by
  decide +kernel

end Fallback

end Codec
