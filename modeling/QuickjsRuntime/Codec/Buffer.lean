import QuickjsRuntime.Foundation.Sextets
import QuickjsRuntime.Foundation.Text

/-!
# The codecs of `Buffer`

`bytesFromString` and `stringFromBytes` of `node_compat_buffer.dart`, with the encoders and
decoders they use, and `Buffer.from` and `toString` over them. The contents of a buffer are
bytes; the arrays of numbers that the decoders make are stored into one modulo 256.

The accumulator of `b64Decode` is a 32-bit integer that loses its high bits. Beside it stands
the same loop without a bound on the accumulator, and the two collect the same bytes.
-/

namespace Codec

open Utf16 (Text units isSpace)

/-- The UTF-8 hooks of the host: `__ncUtf8Encode` and `__ncUtf8Decode`. -/
structure Hooks where
  utf8Encode : Text → List Nat
  utf8Decode : List Nat → Text

/-- The names that `normEnc` arrives at. -/
inductive Encoding where
  | utf8
  | utf16le
  | ascii
  | latin1
  | hex
  | base64
  | base64url
deriving DecidableEq, Repr

/-! ## Base64 -/

def B64 : Text :=
  units "ABCDEFGHIJKLMNOPQRSTUVWXYZabcdefghijklmnopqrstuvwxyz0123456789+/"

def B64URL : Text :=
  units "ABCDEFGHIJKLMNOPQRSTUVWXYZabcdefghijklmnopqrstuvwxyz0123456789-_"

def equalsSign : Nat := 0x3D

/-- `alphabet[i]` for an index below 64 -/
def letter (alphabet : Text) (i : Nat) : Nat :=
  alphabet.getD i 0

def b64Encode (alphabet : Text) : List UInt8 → Text
  | b0 :: b1 :: b2 :: rest =>
    let n := (b0.toNat <<< 16) ||| (b1.toNat <<< 8) ||| b2.toNat
    letter alphabet ((n >>> 18) &&& 63) :: letter alphabet ((n >>> 12) &&& 63) ::
      letter alphabet ((n >>> 6) &&& 63) :: letter alphabet (n &&& 63) ::
      b64Encode alphabet rest
  | [b0, b1] =>
    let n := (b0.toNat <<< 16) ||| (b1.toNat <<< 8)
    [letter alphabet ((n >>> 18) &&& 63), letter alphabet ((n >>> 12) &&& 63),
      letter alphabet ((n >>> 6) &&& 63), equalsSign]
  | [b0] =>
    let n := b0.toNat <<< 16
    [letter alphabet ((n >>> 18) &&& 63), letter alphabet ((n >>> 12) &&& 63), equalsSign,
      equalsSign]
  | [] => []

/-- `replace(/[\s=]/g, '')` -/
def b64Clean (text : Text) : Text :=
  text.filter fun c => !(isSpace c || c = equalsSign)

/-- The loop of `b64Decode`: `buf` is a 32-bit integer and `>>` shifts its sign in. -/
def b64Loop (alphabet : Text) : BitVec 32 → Nat → Text → List Nat
  | _, _, [] => []
  | buf, bits, c :: rest =>
    match alphabet.idxOf? c with
    | none => b64Loop alphabet buf bits rest
    | some v =>
      let buf := (buf <<< 6) ||| BitVec.ofNat 32 v
      if 8 ≤ bits + 6 then
        ((buf.sshiftRight (bits + 6 - 8)) &&& 0xFF#32).toNat ::
          b64Loop alphabet buf (bits + 6 - 8) rest
      else b64Loop alphabet buf (bits + 6) rest

def b64Decode (alphabet text : Text) : List Nat :=
  b64Loop alphabet 0 0 (b64Clean text)

/-- The same loop over an accumulator that keeps all its bits. -/
def b64LoopUnbounded (alphabet : Text) : Nat → Nat → Text → List Nat
  | _, _, [] => []
  | buf, bits, c :: rest =>
    match alphabet.idxOf? c with
    | none => b64LoopUnbounded alphabet buf bits rest
    | some v =>
      let buf := (buf <<< 6) ||| v
      if 8 ≤ bits + 6 then
        ((buf >>> (bits + 6 - 8)) &&& 0xFF) :: b64LoopUnbounded alphabet buf (bits + 6 - 8) rest
      else b64LoopUnbounded alphabet buf (bits + 6) rest

def b64DecodeUnbounded (alphabet text : Text) : List Nat :=
  b64LoopUnbounded alphabet 0 0 (b64Clean text)

/-! ## Hexadecimal -/

def HX : Text := units "0123456789abcdef"

def hexEncode (bytes : List UInt8) : Text :=
  bytes.flatMap fun b => [letter HX (b.toNat >>> 4), letter HX (b.toNat &&& 15)]

/-- The value of a hexadecimal digit. -/
def hexValue (c : Nat) : Option Nat :=
  if 0x30 ≤ c ∧ c ≤ 0x39 then some (c - 0x30)
  else if 0x61 ≤ c ∧ c ≤ 0x66 then some (c - 0x57)
  else if 0x41 ≤ c ∧ c ≤ 0x46 then some (c - 0x37)
  else none

/-- `parseInt` of each pair of digits. -/
def hexPairs : Text → List Nat
  | a :: b :: rest => ((hexValue a).getD 0 * 16 + (hexValue b).getD 0) :: hexPairs rest
  | _ => []

def hexDecode (text : Text) : List Nat :=
  let clean := text.filter fun c => (hexValue c).isSome
  hexPairs (if clean.length % 2 = 1 then clean.take (clean.length - 1) else clean)

/-! ## Strings and bytes -/

/-- The units of little-endian pairs of bytes; an odd last byte is dropped. -/
def unitsOfPairs : List UInt8 → Text
  | a :: b :: rest => (a.toNat ||| (b.toNat <<< 8)) :: unitsOfPairs rest
  | _ => []

def bytesFromString (hooks : Hooks) (str : Text) : Encoding → List Nat
  | .utf8 => hooks.utf8Encode str
  | .utf16le => str.flatMap fun u =>
    let c := u &&& 0xFFFF
    [c &&& 0xFF, c >>> 8]
  | .ascii => str.map (· &&& 0x7F)
  | .latin1 => str.map (· &&& 0xFF)
  | .hex => hexDecode str
  | .base64 => b64Decode B64 str
  | .base64url => b64Decode B64URL str

def stringFromBytes (hooks : Hooks) (bytes : List UInt8) (start stop : Nat) (enc : Encoding) :
    Text :=
  let slice := (bytes.take stop).drop start
  match enc with
  | .utf8 => hooks.utf8Decode (slice.map UInt8.toNat)
  | .utf16le => unitsOfPairs slice
  | .ascii => slice.map (·.toNat &&& 0x7F)
  | .latin1 => slice.map UInt8.toNat
  | .hex => hexEncode slice
  | .base64 => b64Encode B64 slice
  | .base64url => b64Encode B64URL slice

/-- `Buffer.from(str, enc)` -/
def bufferFrom (hooks : Hooks) (str : Text) (enc : Encoding) : List UInt8 :=
  (bytesFromString hooks str enc).map UInt8.ofNat

/-- `Buffer.from` of an array of numbers or of another buffer. -/
def bufferFromArray (values : List Nat) : List UInt8 :=
  values.map fun v => UInt8.ofNat (v &&& 0xFF)

/-- `buf.toString(enc)` -/
def bufferToString (hooks : Hooks) (bytes : List UInt8) (enc : Encoding) : Text :=
  stringFromBytes hooks bytes 0 bytes.length enc

/-! ## The accumulator of `b64Decode` -/

theorem ofNat_push (acc v : Nat) :
    (BitVec.ofNat 32 acc <<< 6) ||| BitVec.ofNat 32 v = BitVec.ofNat 32 ((acc <<< 6) ||| v) := by
  apply BitVec.eq_of_getLsbD_eq
  intro i hi
  simp only [BitVec.getLsbD_or, BitVec.getLsbD_shiftLeft, BitVec.getLsbD_ofNat, hi,
    Nat.testBit_or, Nat.testBit_shiftLeft, decide_true, Bool.true_and]
  by_cases h6 : 6 ≤ i
  · have hsub : i - 6 < 32 := by omega
    simp [h6, hsub, Nat.not_lt.mpr h6]
  · simp [h6, Nat.lt_of_not_le h6]

/-- A byte that is read within the 32 bits is not touched by the sign. -/
theorem lowByte_ofNat (acc : Nat) {k : Nat} (hk : k ≤ 24) :
    (((BitVec.ofNat 32 acc).sshiftRight k) &&& 0xFF#32).toNat = (acc >>> k) &&& 0xFF := by
  apply Nat.eq_of_testBit_eq
  intro i
  have hmask : Nat.testBit 0xFF i = decide (i < 8) := Nat.testBit_two_pow_sub_one 8 i
  rw [BitVec.testBit_toNat, BitVec.getLsbD_and, BitVec.getLsbD_sshiftRight,
    BitVec.getLsbD_ofNat, BitVec.getLsbD_ofNat, Nat.testBit_and, Nat.testBit_shiftRight, hmask]
  by_cases hi : i < 8
  · have h32 : i < 32 := by omega
    have hki : k + i < 32 := by omega
    simp [hi, hki, Nat.not_le.mpr h32, h32]
  · simp [hi]

/-- After every symbol fewer than eight bits wait, far from the end of the word. -/
theorem b64Loop_eq_unbounded (alphabet : Text) (text : Text) {acc bits : Nat} (hbits : bits < 8) :
    b64Loop alphabet (BitVec.ofNat 32 acc) bits text = b64LoopUnbounded alphabet acc bits text := by
  induction text generalizing acc bits with
  | nil => rfl
  | cons c rest ih =>
    rw [b64Loop, b64LoopUnbounded]
    cases alphabet.idxOf? c with
    | none => exact ih hbits
    | some v =>
      simp only [ofNat_push]
      by_cases hfull : 8 ≤ bits + 6
      · rw [if_pos hfull, if_pos hfull, lowByte_ofNat _ (by omega), ih (by omega)]
      · rw [if_neg hfull, if_neg hfull, ih (by omega)]

theorem b64Decode_eq_unbounded (alphabet text : Text) :
    b64Decode alphabet text = b64DecodeUnbounded alphabet text :=
  b64Loop_eq_unbounded alphabet _ (by decide)

/-! ## Base64 as sextets -/

/-- What encoder and decoder need of an alphabet. -/
structure IsAlphabet (alphabet : Text) : Prop where
  length_eq : alphabet.length = 64
  idxOf_letter : ∀ i < 64, alphabet.idxOf? (letter alphabet i) = some i
  kept : ∀ i < 64, (isSpace (letter alphabet i) || letter alphabet i = equalsSign) = false

/-- The letters and digits that both alphabets begin with. -/
def alphanumerics : Text := List.range' 0x41 26 ++ List.range' 0x61 26 ++ List.range' 0x30 10

theorem B64_eq : B64 = alphanumerics ++ [0x2B, 0x2F] := by
  simp [B64, alphanumerics, units, List.range']

theorem B64URL_eq : B64URL = alphanumerics ++ [0x2D, 0x5F] := by
  simp [B64URL, alphanumerics, units, List.range']

theorem nodup_alphanumerics : alphanumerics.Nodup := by
  simp only [alphanumerics, List.nodup_append, List.mem_append, List.mem_range'_1]
  refine ⟨⟨List.nodup_range' .., List.nodup_range' .., ?_⟩, List.nodup_range' .., ?_⟩
  · omega
  · omega

/-- Sixty-four different letters that the decoder does not drop are an alphabet. -/
theorem isAlphabet_of_nodup {alphabet : Text} (hlength : alphabet.length = 64)
    (hnodup : alphabet.Nodup)
    (hkept : ∀ c ∈ alphabet, (isSpace c || c = equalsSign) = false) : IsAlphabet alphabet := by
  have hletter : ∀ i, ∀ hi : i < alphabet.length, letter alphabet i = alphabet[i] := by
    intro i hi
    rw [letter, List.getD_eq_getElem?_getD, List.getElem?_eq_getElem hi, Option.getD_some]
  refine ⟨hlength, ?_, ?_⟩
  · intro i hi
    rw [← hlength] at hi
    rw [hletter i hi, List.idxOf?_eq_some_iff]
    refine ⟨hi, rfl, ?_⟩
    intro j hj
    exact List.pairwise_iff_getElem.mp hnodup j i (hj.trans hi) hi hj
  · intro i hi
    rw [← hlength] at hi
    rw [hletter i hi]
    exact hkept _ (List.getElem_mem hi)

/-- Two further letters complete the alphabet. -/
theorem isAlphabet_append {x y : Nat} (hnew : x ∉ alphanumerics ∧ y ∉ alphanumerics) (hxy : x ≠ y)
    (hkept : ∀ c ∈ alphanumerics ++ [x, y], (isSpace c || c = equalsSign) = false) :
    IsAlphabet (alphanumerics ++ [x, y]) := by
  refine isAlphabet_of_nodup rfl ?_ hkept
  refine List.nodup_append.mpr ⟨nodup_alphanumerics, by simpa using hxy, ?_⟩
  rintro c hc d hd rfl
  rcases List.mem_pair.mp hd with rfl | rfl
  · exact hnew.1 hc
  · exact hnew.2 hc

theorem isAlphabet_B64 : IsAlphabet B64 := by
  rw [B64_eq]
  exact isAlphabet_append ⟨by decide, by decide⟩ (by decide) (by decide)

theorem isAlphabet_B64URL : IsAlphabet B64URL := by
  rw [B64URL_eq]
  exact isAlphabet_append ⟨by decide, by decide⟩ (by decide) (by decide)

/-- The values of the symbols of a text. -/
def symbols (alphabet text : Text) : List Nat :=
  text.filterMap alphabet.idxOf?

theorem IsAlphabet.idxOf_lt {alphabet : Text} (h : IsAlphabet alphabet) {c v : Nat}
    (hv : alphabet.idxOf? c = some v) : v < 64 := by
  rw [List.idxOf?_eq_some_iff] at hv
  obtain ⟨hlt, -⟩ := hv
  rwa [h.length_eq] at hlt

theorem IsAlphabet.symbols_lt {alphabet : Text} (h : IsAlphabet alphabet) (text : Text) :
    ∀ v ∈ symbols alphabet text, v < 64 := by
  intro v hv
  obtain ⟨c, -, hc⟩ := List.mem_filterMap.mp hv
  exact h.idxOf_lt hc

theorem shiftLeft_or {a v i : Nat} (hv : v < 2 ^ i) : (a <<< i) ||| v = a * 2 ^ i + v := by
  rw [← Nat.shiftLeft_add_eq_or_of_lt hv, Nat.shiftLeft_eq]

theorem and_255 (n : Nat) : n &&& 0xFF = n % 256 :=
  Nat.and_two_pow_sub_one_eq_mod n 8

theorem and_63 (n : Nat) : n &&& 63 = n % 64 :=
  Nat.and_two_pow_sub_one_eq_mod n 6

theorem b64LoopUnbounded_eq_pour {alphabet : Text} (h : IsAlphabet alphabet) (text : Text)
    (acc bits : Nat) :
    b64LoopUnbounded alphabet acc bits text = Sextets.pour acc bits (symbols alphabet text) := by
  induction text generalizing acc bits with
  | nil => rfl
  | cons c rest ih =>
    rw [b64LoopUnbounded, symbols, List.filterMap_cons]
    cases hc : alphabet.idxOf? c with
    | none => exact ih acc bits
    | some v =>
      have hpush : (acc <<< 6) ||| v = acc * 64 + v := shiftLeft_or (h.idxOf_lt hc)
      simp only [hpush, and_255, Nat.shiftRight_eq_div_pow, ih]
      rfl

/-- The decoder regroups the symbols that are left after cleaning. -/
theorem b64Decode_eq_toOctets {alphabet : Text} (h : IsAlphabet alphabet) (text : Text) :
    b64Decode alphabet text = Sextets.toOctets (symbols alphabet (b64Clean text)) := by
  rw [b64Decode_eq_unbounded, b64DecodeUnbounded, b64LoopUnbounded_eq_pour h,
    Sextets.pour_eq_toOctets (h.symbols_lt _)]

theorem group_eq (b0 : Nat) {b1 b2 : Nat} (h1 : b1 < 256) (h2 : b2 < 256) :
    (b0 <<< 16) ||| (b1 <<< 8) ||| b2 = b0 * 65536 + b1 * 256 + b2 := by
  have hlow : b1 <<< 8 = b1 * 256 := Nat.shiftLeft_eq _ _
  have hhigh : (b0 <<< 16) ||| (b1 <<< 8) = (b0 * 256 + b1) <<< 8 := by
    rw [hlow, shiftLeft_or (by omega), Nat.shiftLeft_eq]
    omega
  rw [hhigh, shiftLeft_or h2]
  omega

/-- The four indices that a group of three bytes is cut into. -/
theorem group_cut {b0 b1 b2 n : Nat} (h0 : b0 < 256) (h1 : b1 < 256) (h2 : b2 < 256)
    (hn : n = (b0 <<< 16) ||| (b1 <<< 8) ||| b2) :
    (n >>> 18) &&& 63 = b0 / 4 ∧ (n >>> 12) &&& 63 = b0 % 4 * 16 + b1 / 16 ∧
      (n >>> 6) &&& 63 = b1 % 16 * 4 + b2 / 64 ∧ n &&& 63 = b2 % 64 := by
  rw [group_eq b0 h1 h2] at hn
  simp only [and_63, Nat.shiftRight_eq_div_pow, Nat.reducePow]
  exact ⟨by omega, by omega, by omega, by omega⟩

/-- The encoder writes the sextets and fills the last group of four. -/
theorem b64Encode_eq (alphabet : Text) (bytes : List UInt8) :
    b64Encode alphabet bytes = (Sextets.ofBytes bytes).map (letter alphabet) ++
      List.replicate (Sextets.padding bytes) equalsSign := by
  induction bytes using Sextets.ofBytes.induct with
  | case1 b0 b1 b2 rest ih =>
    obtain ⟨hi, hmid, hmid', hlo⟩ := group_cut b0.toNat_lt b1.toNat_lt b2.toNat_lt rfl
    simp only [b64Encode, hi, hmid, hmid', hlo, ih, Sextets.padding_cons_three]
    rfl
  | case2 b0 b1 =>
    obtain ⟨hi, hmid, hmid', -⟩ := group_cut b0.toNat_lt b1.toNat_lt (by decide : 0 < 256) rfl
    rw [Nat.or_zero] at hi hmid hmid'
    simp only [b64Encode, hi, hmid, hmid']
    rfl
  | case3 b0 =>
    obtain ⟨hi, hmid, -⟩ := group_cut b0.toNat_lt (by decide : 0 < 256) (by decide : 0 < 256) rfl
    rw [Nat.zero_shiftLeft, Nat.or_zero, Nat.or_zero] at hi hmid
    simp only [b64Encode, hi, hmid]
    rfl
  | case4 => rfl

theorem b64Clean_letters {alphabet : Text} (h : IsAlphabet alphabet) {ss : List Nat}
    (hss : ∀ s ∈ ss, s < 64) (n : Nat) :
    b64Clean (ss.map (letter alphabet) ++ List.replicate n equalsSign) =
      ss.map (letter alphabet) := by
  have hletters : b64Clean (ss.map (letter alphabet)) = ss.map (letter alphabet) := by
    apply List.filter_eq_self.mpr
    intro c hc
    obtain ⟨s, hs, rfl⟩ := List.mem_map.mp hc
    rw [h.kept s (hss s hs)]
    rfl
  have hpadding : b64Clean (List.replicate n equalsSign) = [] := by
    simp [b64Clean]
  rw [b64Clean] at hletters hpadding ⊢
  rw [List.filter_append, hletters, hpadding, List.append_nil]

theorem symbols_letters {alphabet : Text} (h : IsAlphabet alphabet) {ss : List Nat}
    (hss : ∀ s ∈ ss, s < 64) : symbols alphabet (ss.map (letter alphabet)) = ss := by
  induction ss with
  | nil => rfl
  | cons s ss ih =>
    simp only [List.forall_mem_cons] at hss
    rw [symbols, List.map_cons, List.filterMap_cons, h.idxOf_letter s hss.1]
    exact congrArg _ (ih hss.2)

theorem b64Decode_b64Encode {alphabet : Text} (h : IsAlphabet alphabet) (bytes : List UInt8) :
    b64Decode alphabet (b64Encode alphabet bytes) = bytes.map UInt8.toNat := by
  rw [b64Decode_eq_toOctets h, b64Encode_eq, b64Clean_letters h Sextets.ofBytes_lt,
    symbols_letters h Sextets.ofBytes_lt, Sextets.toOctets_ofBytes]

/-! ## Hexadecimal -/

theorem hexValue_letter : ∀ i < 16, hexValue (letter HX i) = some i := by
  decide

theorem byte_halves (b : UInt8) :
    b.toNat >>> 4 < 16 ∧ b.toNat &&& 15 < 16 ∧
      (b.toNat >>> 4) * 16 + (b.toNat &&& 15) = b.toNat := by
  have hb := b.toNat_lt
  have hlow : b.toNat &&& 15 = b.toNat % 16 := Nat.and_two_pow_sub_one_eq_mod b.toNat 4
  rw [hlow, Nat.shiftRight_eq_div_pow]
  omega

theorem hexEncode_cons (b : UInt8) (bytes : List UInt8) :
    hexEncode (b :: bytes) =
      letter HX (b.toNat >>> 4) :: letter HX (b.toNat &&& 15) :: hexEncode bytes :=
  rfl

theorem hexEncode_digits (bytes : List UInt8) :
    ∀ c ∈ hexEncode bytes, (hexValue c).isSome = true := by
  induction bytes with
  | nil => simp [hexEncode]
  | cons b bytes ih =>
    obtain ⟨hhigh, hlow, -⟩ := byte_halves b
    rw [hexEncode_cons]
    simp only [List.forall_mem_cons]
    refine ⟨?_, ?_, ih⟩
    · rw [hexValue_letter _ hhigh]
      rfl
    · rw [hexValue_letter _ hlow]
      rfl

theorem length_hexEncode (bytes : List UInt8) : (hexEncode bytes).length = 2 * bytes.length := by
  induction bytes with
  | nil => rfl
  | cons b bytes ih =>
    rw [hexEncode_cons, List.length_cons, List.length_cons, ih, List.length_cons]
    omega

theorem hexPairs_hexEncode (bytes : List UInt8) :
    hexPairs (hexEncode bytes) = bytes.map UInt8.toNat := by
  induction bytes with
  | nil => rfl
  | cons b bytes ih =>
    obtain ⟨hhigh, hlow, hsum⟩ := byte_halves b
    rw [hexEncode_cons, hexPairs, hexValue_letter _ hhigh, hexValue_letter _ hlow, ih]
    simp only [Option.getD_some, hsum, List.map_cons]

theorem hexDecode_hexEncode (bytes : List UInt8) :
    hexDecode (hexEncode bytes) = bytes.map UInt8.toNat := by
  have hclean : (hexEncode bytes).filter (fun c => (hexValue c).isSome) = hexEncode bytes :=
    List.filter_eq_self.mpr (hexEncode_digits bytes)
  have heven : ¬ (hexEncode bytes).length % 2 = 1 := by
    rw [length_hexEncode]
    omega
  simp only [hexDecode, hclean, if_neg heven, hexPairs_hexEncode]

/-! ## Round trips -/

theorem map_ofNat_toNat (bytes : List UInt8) :
    (bytes.map UInt8.toNat).map UInt8.ofNat = bytes := by
  induction bytes with
  | nil => rfl
  | cons b bytes ih => rw [List.map_cons, List.map_cons, UInt8.ofNat_toNat, ih]

theorem bufferToString_eq (hooks : Hooks) (bytes : List UInt8) (enc : Encoding) :
    bufferToString hooks bytes enc =
      match enc with
      | .utf8 => hooks.utf8Decode (bytes.map UInt8.toNat)
      | .utf16le => unitsOfPairs bytes
      | .ascii => bytes.map (·.toNat &&& 0x7F)
      | .latin1 => bytes.map UInt8.toNat
      | .hex => hexEncode bytes
      | .base64 => b64Encode B64 bytes
      | .base64url => b64Encode B64URL bytes := by
  simp only [bufferToString, stringFromBytes, List.take_length, List.drop_zero]

theorem map_masked {m : Nat} (k : Nat) (hm : m = 2 ^ k - 1) (bytes : List UInt8)
    (h : ∀ b ∈ bytes, b.toNat < 2 ^ k) :
    (bytes.map UInt8.toNat).map (· &&& m) = bytes.map UInt8.toNat := by
  rw [List.map_map]
  apply List.map_congr_left
  intro b hb
  rw [Function.comp, hm, Nat.and_two_pow_sub_one_eq_mod, Nat.mod_eq_of_lt (h b hb)]

theorem map_masked_byte (bytes : List UInt8) :
    (bytes.map UInt8.toNat).map (· &&& 0xFF) = bytes.map UInt8.toNat :=
  map_masked 8 rfl bytes fun b _ => b.toNat_lt

theorem unit_bytes (a b : UInt8) :
    ((a.toNat ||| (b.toNat <<< 8)) &&& 0xFFFF) &&& 0xFF = a.toNat ∧
      ((a.toNat ||| (b.toNat <<< 8)) &&& 0xFFFF) >>> 8 = b.toNat := by
  have ha := a.toNat_lt
  have hb := b.toNat_lt
  have hunit : a.toNat ||| (b.toNat <<< 8) = b.toNat * 256 + a.toNat := by
    exact (Nat.or_comm _ _).trans (shiftLeft_or ha)
  have hmask : (b.toNat * 256 + a.toNat) &&& 0xFFFF = (b.toNat * 256 + a.toNat) % 65536 :=
    Nat.and_two_pow_sub_one_eq_mod _ 16
  rw [hunit, hmask, and_255, Nat.shiftRight_eq_div_pow]
  omega

theorem utf16le_unitsOfPairs (hooks : Hooks) {bytes : List UInt8} (h : bytes.length % 2 = 0) :
    bytesFromString hooks (unitsOfPairs bytes) .utf16le = bytes.map UInt8.toNat := by
  induction bytes using unitsOfPairs.induct with
  | case1 a b rest ih =>
    have hrest : rest.length % 2 = 0 := by
      simp only [List.length_cons] at h
      omega
    obtain ⟨hlow, hhigh⟩ := unit_bytes a b
    simp only [bytesFromString] at ih ⊢
    rw [unitsOfPairs, List.flatMap_cons, ih hrest, hlow, hhigh]
    rfl
  | case2 bytes hshort =>
    match bytes, hshort with
    | [], _ => rfl
    | [_], _ => simp at h
    | a :: b :: rest, hshort => exact absurd rfl (hshort a b rest)

/-- What `toString` writes, `Buffer.from` reads back in the same encoding, and the decoder of
base64 collects what it would collect with an accumulator of any size. -/
theorem bufferFrom_bufferToString (hooks : Hooks) (bytes : List UInt8) :
    (∀ enc ∈ [Encoding.hex, .base64, .base64url, .latin1],
        bufferFrom hooks (bufferToString hooks bytes enc) enc = bytes) ∧
      (bytes.length % 2 = 0 →
        bufferFrom hooks (bufferToString hooks bytes .utf16le) .utf16le = bytes) ∧
      ((∀ b ∈ bytes, b.toNat < 0x80) →
        bufferFrom hooks (bufferToString hooks bytes .ascii) .ascii = bytes) ∧
      ∀ alphabet text, b64Decode alphabet text = b64DecodeUnbounded alphabet text := by
  simp only [bufferToString_eq, bufferFrom]
  refine ⟨?_, ?_, ?_, b64Decode_eq_unbounded⟩
  · simp only [List.forall_mem_cons, bytesFromString]
    refine ⟨?_, ?_, ?_, ?_, by simp⟩
    · rw [hexDecode_hexEncode, map_ofNat_toNat]
    · rw [b64Decode_b64Encode isAlphabet_B64, map_ofNat_toNat]
    · rw [b64Decode_b64Encode isAlphabet_B64URL, map_ofNat_toNat]
    · rw [map_masked_byte, map_ofNat_toNat]
  · intro heven
    rw [utf16le_unitsOfPairs hooks heven, map_ofNat_toNat]
  · intro hascii
    have hwritten : bytes.map (·.toNat &&& 0x7F) = bytes.map UInt8.toNat := by
      rw [← map_masked (m := 0x7F) 7 rfl _ hascii, List.map_map]
      rfl
    rw [hwritten, bytesFromString, map_masked (m := 0x7F) 7 rfl _ hascii, map_ofNat_toNat]

theorem bufferFrom_bufferToString_az :
    bufferFrom ⟨id, id⟩ (bufferToString ⟨id, id⟩ [0x61, 0x7A] .utf16le) .utf16le = [0x61, 0x7A] ∧
      bufferFrom ⟨id, id⟩ (bufferToString ⟨id, id⟩ [0x61, 0x7A] .ascii) .ascii = [0x61, 0x7A] := by
  obtain ⟨-, hpairs, hascii, -⟩ := bufferFrom_bufferToString ⟨id, id⟩ [0x61, 0x7A]
  exact ⟨hpairs rfl, hascii (by simp)⟩

end Codec
