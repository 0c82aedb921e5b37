import QuickjsRuntime.Bridge.Stringify
import QuickjsRuntime.Codec.Fallbacks
import QuickjsRuntime.Foundation.JsonFormats

/-!
# Texts that cross the bridge

Every text between Dart and the engine is a C string on its way: bytes of UTF-8 that end at
the first zero byte. The engine writes one with `JS_ToCString`, which keeps a lone surrogate
as three bytes, and Dart reads it with `toDartString`, which throws on them; Dart writes one
with `toNativeUtf8`, in which a lone surrogate is U+FFFD.

So not every text arrives as it was sent. JSON texts do: they escape control characters and
lone surrogates, and they begin with an ASCII character.
-/

namespace Bridge

open Utf16 (Text units WellFormed)
open Codec.Fallback (byteOrderMark discardMark utf8Bytes)

/-! ## Writing and reading C strings -/

/-- `unicode_to_utf8` of `cutils.c`, for the values of up to 21 bits. -/
def unicodeToUtf8 (c : Nat) : List UInt8 :=
  if c < 0x80 then [UInt8.ofNat c]
  else if c < 0x800 then [UInt8.ofNat (c >>> 6 ||| 0xC0), UInt8.ofNat (c &&& 0x3F ||| 0x80)]
  else if c < 0x10000 then
    [UInt8.ofNat (c >>> 12 ||| 0xE0), UInt8.ofNat (c >>> 6 &&& 0x3F ||| 0x80),
      UInt8.ofNat (c &&& 0x3F ||| 0x80)]
  else
    [UInt8.ofNat (c >>> 18 ||| 0xF0), UInt8.ofNat (c >>> 12 &&& 0x3F ||| 0x80),
      UInt8.ofNat (c >>> 6 &&& 0x3F ||| 0x80), UInt8.ofNat (c &&& 0x3F ||| 0x80)]

/-- The loop of `JS_ToCStringLen2`: a surrogate that is not part of a pair is kept. -/
def utf8Units : Text → List UInt8
  | [] => []
  | [u] => unicodeToUtf8 u
  | u :: v :: rest =>
    if Utf16.isPair u v then
      unicodeToUtf8 (((u &&& 0x3FF) <<< 10 ||| (v &&& 0x3FF)) + 0x10000) ++ utf8Units rest
    else unicodeToUtf8 u ++ utf8Units (v :: rest)

/-- The loop of `JS_ToCStringLen2` for a string that is stored in bytes. -/
def utf8Narrow (text : Text) : List UInt8 :=
  text.flatMap fun c =>
    if c < 0x80 then [UInt8.ofNat c]
    else [UInt8.ofNat (c >>> 6 ||| 0xC0), UInt8.ofNat (c &&& 0x3F ||| 0x80)]

/-- A string as the engine stores it, in units of 16 or of 8 bits. -/
structure JsString where
  isWideChar : Bool
  text : Text
  text_lt : ∀ u ∈ text, u < if isWideChar then 0x10000 else 0x100

/-- The string of a text, if its units are of 16 bits. -/
def JsString.ofText (text : Text) : Option JsString :=
  if h : ∀ u ∈ text, u < 0x10000 then some ⟨true, text, h⟩ else none

/-- `JS_ToCString` of a string. -/
def toCString (s : JsString) : List UInt8 :=
  (if s.isWideChar then utf8Units s.text else utf8Narrow s.text) ++ [0]

/-- What `strlen` counts. -/
def upToNul (bytes : List UInt8) : List UInt8 :=
  bytes.takeWhile (· ≠ 0)

/-- `toDartString`: `utf8.decode` of the bytes before the first zero; `none` is its
`FormatException` for bytes that are not UTF-8. -/
def toDartString (bytes : List UInt8) : Option Text :=
  let chars := Utf8.decode (upToNul bytes)
  if Utf8.encode chars = upToNul bytes then some (Utf16.encode (discardMark chars)) else none

/-- `toNativeUtf8` -/
def toNativeUtf8 (text : Text) : List UInt8 :=
  utf8Bytes text ++ [0]

/-- What the engine reads of a C string that Dart wrote. -/
def ofNativeUtf8 (bytes : List UInt8) : Text :=
  Utf16.encode (Utf8.decode (upToNul bytes))

/-- A text of the engine as Dart gets it; `none` is an exception. A list with a unit of more than
16 bits is no text, and is left alone here and in `toJs`. -/
def toDart (text : Text) : Option Text :=
  (JsString.ofText text).elim (some text) fun s => toDartString (toCString s)

/-- A text of Dart as the engine gets it. -/
def toJs (text : Text) : Text :=
  if ∀ u ∈ text, u < 0x10000 then ofNativeUtf8 (toNativeUtf8 text) else text

/-! ## Code points and their bytes -/

theorem or_marks :
    (∀ a < 0x40, a ||| 0x80 = 0x80 + a) ∧ (∀ a < 0x20, a ||| 0xC0 = 0xC0 + a) ∧
      (∀ a < 0x10, a ||| 0xE0 = 0xE0 + a) ∧ (∀ a < 0x08, a ||| 0xF0 = 0xF0 + a) := by
  decide

/-- The bytes of a value of up to 21 bits, without bit operations. -/
theorem unicodeToUtf8_cases {c : Nat} (hc : c < 0x200000) :
    (c < 0x80 ∧ unicodeToUtf8 c = [UInt8.ofNat c]) ∨
    (0x80 ≤ c ∧ c < 0x800 ∧
      unicodeToUtf8 c = [UInt8.ofNat (0xC0 + c / 0x40), UInt8.ofNat (0x80 + c % 0x40)]) ∨
    (0x800 ≤ c ∧ c < 0x10000 ∧
      unicodeToUtf8 c = [UInt8.ofNat (0xE0 + c / 0x1000),
        UInt8.ofNat (0x80 + c / 0x40 % 0x40), UInt8.ofNat (0x80 + c % 0x40)]) ∨
    (0x10000 ≤ c ∧
      unicodeToUtf8 c = [UInt8.ofNat (0xF0 + c / 0x40000),
        UInt8.ofNat (0x80 + c / 0x1000 % 0x40), UInt8.ofNat (0x80 + c / 0x40 % 0x40),
        UInt8.ofNat (0x80 + c % 0x40)]) := by
  obtain ⟨hmark, htwo, hthree, hfour⟩ := or_marks
  have hmask : ∀ n : Nat, n &&& 0x3F = n % 0x40 := fun n => Nat.and_two_pow_sub_one_eq_mod n 6
  unfold unicodeToUtf8
  simp only [hmask, Nat.shiftRight_eq_div_pow, Nat.reducePow]
  by_cases h1 : c < 0x80
  · exact .inl ⟨h1, if_pos h1⟩
  by_cases h2 : c < 0x800
  · refine .inr (.inl ⟨by omega, h2, ?_⟩)
    rw [if_neg h1, if_pos h2, htwo _ (by omega), hmark _ (by omega)]
  by_cases h3 : c < 0x10000
  · refine .inr (.inr (.inl ⟨by omega, h3, ?_⟩))
    rw [if_neg h1, if_neg h2, if_pos h3, hthree _ (by omega), hmark _ (by omega),
      hmark _ (by omega)]
  · refine .inr (.inr (.inr ⟨by omega, ?_⟩))
    rw [if_neg h1, if_neg h2, if_neg h3, hfour _ (by omega), hmark _ (by omega),
      hmark _ (by omega), hmark _ (by omega)]

theorem byte_inj {m n : Nat} : UInt8.ofNat m = UInt8.ofNat n ↔ m % 0x100 = n % 0x100 := by
  rw [← UInt8.toNat_inj]
  simp

/-- The code is prefix-free, also at the surrogates. -/
theorem unicodeToUtf8_append_inj {c d : Nat} (hc : c < 0x200000) (hd : d < 0x200000)
    {as bs : List UInt8} (h : unicodeToUtf8 c ++ as = unicodeToUtf8 d ++ bs) :
    c = d ∧ as = bs := by
  rcases unicodeToUtf8_cases hc with ⟨h1, hce⟩ | ⟨h1, h2, hce⟩ | ⟨h1, h2, hce⟩ | ⟨h1, hce⟩ <;>
  rcases unicodeToUtf8_cases hd with ⟨g1, hde⟩ | ⟨g1, g2, hde⟩ | ⟨g1, g2, hde⟩ | ⟨g1, hde⟩ <;>
  simp only [hce, hde, List.cons_append, List.nil_append, List.cons.injEq, byte_inj] at h <;>
  -- the first byte tells the lengths apart, and equal lengths make equal values
  first
    | (exfalso; omega)
    | exact ⟨by omega, by tauto⟩

theorem unicodeToUtf8_char (c : Char) : unicodeToUtf8 c.toNat = String.utf8EncodeChar c := by
  have hvalid := c.toNat_cases
  have hc : c.toNat < 0x200000 := by omega
  rcases unicodeToUtf8_cases hc with ⟨h1, hce⟩ | ⟨h1, h2, hce⟩ | ⟨h1, h2, hce⟩ | ⟨h1, hce⟩ <;>
  rcases Utf8.utf8EncodeChar_cases c with ⟨g1, henc⟩ | ⟨g1, g2, henc⟩ | ⟨g1, g2, henc⟩ |
    ⟨g1, g2, henc⟩ <;>
  first
    | (exfalso; omega)
    | rw [hce, henc]

theorem zero_mem_unicodeToUtf8 {c : Nat} (hc : c < 0x200000) :
    0 ∈ unicodeToUtf8 c ↔ c = 0 := by
  have hzero : ∀ n : Nat, (0 : UInt8) = UInt8.ofNat n ↔ n % 0x100 = 0 := by
    intro n
    rw [show (0 : UInt8) = UInt8.ofNat 0 from rfl, byte_inj]
    omega
  rcases unicodeToUtf8_cases hc with ⟨h1, hce⟩ | ⟨h1, h2, hce⟩ | ⟨h1, h2, hce⟩ | ⟨h1, hce⟩ <;>
  simp only [hce, List.mem_cons, List.not_mem_nil, or_false, hzero] <;>
  omega

/-! ## The loop over the units -/

/-- A value of the loop: a surrogate pair is one value and any other unit is one. -/
theorem utf8Units_cons {u : Nat} (rest : Text) (hu : ∀ v, rest.head? = some v →
    Utf16.isPair u v = false) : utf8Units (u :: rest) = unicodeToUtf8 u ++ utf8Units rest := by
  cases rest with
  | nil => simp [utf8Units]
  | cons v rest => rw [utf8Units, if_neg (by simp [hu v rfl])]

/-- The value of a surrogate pair. -/
theorem pair_value {u v : Nat} (h : Utf16.isPair u v = true) :
    ((u &&& 0x3FF) <<< 10 ||| (v &&& 0x3FF)) + 0x10000 =
      0x10000 + (u - 0xD800) * 0x400 + (v - 0xDC00) := by
  have hmask : ∀ n : Nat, n &&& 0x3FF = n % 0x400 := fun n => Nat.and_two_pow_sub_one_eq_mod n 10
  simp only [Utf16.isPair, Bool.and_eq_true, decide_eq_true_eq] at h
  rw [hmask, hmask, ← Nat.shiftLeft_add_eq_or_of_lt (by omega), Nat.shiftLeft_eq]
  omega

theorem utf8Units_encodeChar (c : Char) (rest : Text) :
    utf8Units (Utf16.encodeChar c ++ rest) = String.utf8EncodeChar c ++ utf8Units rest := by
  have hvalid := c.toNat_cases
  rw [← unicodeToUtf8_char]
  unfold Utf16.encodeChar
  split
  next hsmall =>
    refine utf8Units_cons rest ?_
    intro v _
    simp only [Utf16.isPair, Bool.and_eq_false_iff, decide_eq_false_iff_not]
    omega
  next hlarge =>
    have hpair : Utf16.isPair (0xD800 + (c.toNat - 0x10000) / 0x400)
        (0xDC00 + (c.toNat - 0x10000) % 0x400) = true := by
      simp only [Utf16.isPair, Bool.and_eq_true, decide_eq_true_eq]
      omega
    have hvalue := pair_value hpair
    rw [show 0x10000 + (0xD800 + (c.toNat - 0x10000) / 0x400 - 0xD800) * 0x400 +
      (0xDC00 + (c.toNat - 0x10000) % 0x400 - 0xDC00) = c.toNat by omega] at hvalue
    rw [List.cons_append, List.cons_append, List.nil_append, utf8Units, if_pos hpair, hvalue]

theorem utf8Units_encode (cs : List Char) : utf8Units (Utf16.encode cs) = Utf8.encode cs := by
  induction cs with
  | nil => rfl
  | cons c cs ih => rw [Utf16.encode_cons, utf8Units_encodeChar, ih, Utf8.encode_cons]

/-- UTF-8 that begins with the bytes of a value begins with that value's character. -/
theorem cons_of_encode_eq {p : Nat} (hp : p < 0x200000) {rest : List UInt8} {cs : List Char}
    (h : unicodeToUtf8 p ++ rest = Utf8.encode cs) :
    ∃ c ds, cs = c :: ds ∧ p = c.toNat ∧ rest = Utf8.encode ds := by
  cases cs with
  | nil =>
    exfalso
    have hnil : unicodeToUtf8 p = [] := (List.append_eq_nil_iff.mp h).1
    rcases unicodeToUtf8_cases hp with ⟨_, hce⟩ | ⟨_, _, hce⟩ | ⟨_, _, hce⟩ | ⟨_, hce⟩ <;>
    simp [hce] at hnil
  | cons c ds =>
    have hvalid := c.toNat_cases
    rw [Utf8.encode_cons, ← unicodeToUtf8_char] at h
    obtain ⟨hvalue, hrest⟩ := unicodeToUtf8_append_inj hp (by omega) h
    exact ⟨c, ds, rfl, hvalue, hrest⟩

/-- Units of 16 bits that are written as UTF-8 have no lone surrogate. -/
theorem eq_encode_of_utf8Units {t : Text} (ht : ∀ u ∈ t, u < 0x10000) {cs : List Char}
    (h : utf8Units t = Utf8.encode cs) : t = Utf16.encode cs := by
  induction t using utf8Units.induct generalizing cs with
  | case1 =>
    have hnil : cs = [] := Utf8.encode_injective h.symm
    rw [hnil]
    rfl
  | case2 u =>
    have hu : u < 0x10000 := ht u List.mem_cons_self
    rw [utf8Units, ← List.append_nil (unicodeToUtf8 u)] at h
    obtain ⟨c, ds, rfl, rfl, hrest⟩ := cons_of_encode_eq (by omega) h
    have hds : ds = [] := Utf8.encode_injective hrest.symm
    rw [hds, Utf16.encode_cons, Utf16.encodeChar, if_pos hu]
    rfl
  | case3 u v rest hpair ih =>
    simp only [List.forall_mem_cons] at ht
    rw [utf8Units, if_pos hpair, pair_value hpair] at h
    simp only [Utf16.isPair, Bool.and_eq_true, decide_eq_true_eq] at hpair
    obtain ⟨c, ds, rfl, hvalue, hrest⟩ := cons_of_encode_eq (by omega) h
    have hhigh : 0xD800 + (c.toNat - 0x10000) / 0x400 = u := by omega
    have hlow : 0xDC00 + (c.toNat - 0x10000) % 0x400 = v := by omega
    rw [ih ht.2.2 hrest, Utf16.encode_cons, Utf16.encodeChar, if_neg (by omega), hhigh, hlow]
    rfl
  | case4 u v rest hpair ih =>
    have hu : u < 0x10000 := ht u List.mem_cons_self
    rw [utf8Units, if_neg hpair] at h
    obtain ⟨c, ds, rfl, rfl, hrest⟩ := cons_of_encode_eq (by omega) h
    rw [ih (fun w hw => ht w (List.mem_cons_of_mem _ hw)) hrest, Utf16.encode_cons,
      Utf16.encodeChar, if_pos hu]
    rfl

/-- The text that is read before the first zero byte. -/
theorem upToNul_utf8Units {t : Text} (ht : ∀ u ∈ t, u < 0x10000) :
    upToNul (utf8Units t ++ [0]) = utf8Units (t.takeWhile (· ≠ 0)) := by
  have hkept : ∀ {p : Nat}, p < 0x200000 → p ≠ 0 → ∀ rest,
      upToNul (unicodeToUtf8 p ++ rest) = unicodeToUtf8 p ++ upToNul rest := by
    intro p hp hne rest
    refine List.takeWhile_append_of_pos ?_
    intro b hb
    have hb0 : b ≠ 0 := by
      rintro rfl
      exact hne ((zero_mem_unicodeToUtf8 hp).mp hb)
    simpa using hb0
  induction t using utf8Units.induct with
  | case1 => rfl
  | case2 u =>
    have hu : u < 0x10000 := ht u List.mem_cons_self
    by_cases hzero : u = 0
    · subst hzero
      rfl
    · rw [utf8Units, hkept (by omega) hzero, List.takeWhile_cons_of_pos (by simpa using hzero)]
      simp [upToNul, utf8Units]
  | case3 u v rest hpair ih =>
    simp only [List.forall_mem_cons] at ht
    have hvalue := pair_value hpair
    have hunits := hpair
    simp only [Utf16.isPair, Bool.and_eq_true, decide_eq_true_eq] at hunits
    rw [utf8Units, if_pos hpair, List.append_assoc, hkept (by omega) (by omega), ih ht.2.2,
      List.takeWhile_cons_of_pos (by simp; omega), List.takeWhile_cons_of_pos (by simp; omega),
      utf8Units, if_pos hpair]
  | case4 u v rest hpair ih =>
    have hu : u < 0x10000 := ht u List.mem_cons_self
    by_cases hzero : u = 0
    · subst hzero
      rw [utf8Units, if_neg hpair]
      rfl
    · have htake : (u :: v :: rest).takeWhile (· ≠ 0) = u :: (v :: rest).takeWhile (· ≠ 0) :=
        List.takeWhile_cons_of_pos (by simpa using hzero)
      have hfirst : ∀ w, ((v :: rest).takeWhile (· ≠ 0)).head? = some w →
          Utf16.isPair u w = false := by
        intro w hw
        -- cutting the rest leaves its first unit or nothing
        rw [List.takeWhile_cons] at hw
        split at hw
        · simp only [List.head?_cons, Option.some.injEq] at hw
          rw [← hw]
          exact Bool.eq_false_iff.mpr hpair
        · cases hw
      rw [utf8Units, if_neg hpair, List.append_assoc, hkept (by omega) hzero,
        ih (fun w hw => ht w (List.mem_cons_of_mem _ hw)), htake, utf8Units_cons _ hfirst]

/-- The loop over bytes writes what the loop over units writes. -/
theorem utf8Narrow_eq {t : Text} (ht : ∀ u ∈ t, u < 0x100) : utf8Narrow t = utf8Units t := by
  induction t with
  | nil => rfl
  | cons u t ih =>
    simp only [List.forall_mem_cons] at ht
    have hpair : ∀ v, t.head? = some v → Utf16.isPair u v = false := by
      intro v _
      simp only [Utf16.isPair, Bool.and_eq_false_iff, decide_eq_false_iff_not]
      omega
    rw [utf8Units_cons t hpair, ← ih ht.2, utf8Narrow, List.flatMap_cons, utf8Narrow]
    congr 1
    unfold unicodeToUtf8
    by_cases hsmall : u < 0x80
    · rw [if_pos hsmall, if_pos hsmall]
    · rw [if_neg hsmall, if_neg hsmall, if_pos (by omega)]

theorem JsString.unit_lt (s : JsString) : ∀ u ∈ s.text, u < 0x10000 := by
  intro u hu
  have hlt := s.text_lt u hu
  split at hlt <;> omega

theorem JsString.text_ofText {t : Text} {s : JsString} (h : JsString.ofText t = some s) :
    s.text = t := by
  unfold JsString.ofText at h
  split at h
  · cases h
    rfl
  · cases h

theorem toCString_eq (s : JsString) : toCString s = utf8Units s.text ++ [0] := by
  unfold toCString
  split
  next => rfl
  next hnarrow =>
    have hlt : ∀ u ∈ s.text, u < 0x100 := by
      simpa only [hnarrow, if_false, Bool.false_eq_true] using s.text_lt
    rw [utf8Narrow_eq hlt]

/-! ## What arrives -/

theorem zero_notMem_encodeChar {c : Char} (hc : c ≠ Char.ofNat 0) : 0 ∉ Utf16.encodeChar c := by
  rw [Ne, ← Char.toNat_inj, show (Char.ofNat 0).toNat = 0 from rfl] at hc
  rw [Utf16.encodeChar]
  split <;> simp only [List.mem_cons, List.not_mem_nil, or_false] <;> omega

/-- Dart reads the text before the first NUL, provided that it has no lone surrogate, and
drops a byte order mark. -/
theorem toDartString_toCString_iff (s : JsString) (t : Text) :
    toDartString (toCString s) = some t ↔
      ∃ cs, s.text.takeWhile (· ≠ 0) = Utf16.encode cs ∧ t = Utf16.encode (discardMark cs) := by
  have hcut : ∀ u ∈ s.text.takeWhile (· ≠ 0), u < 0x10000 := by
    intro u hu
    exact s.unit_lt u (List.takeWhile_subset _ hu)
  rw [toCString_eq, toDartString, upToNul_utf8Units s.unit_lt]
  constructor
  · intro h
    split at h
    next hvalid =>
      exact ⟨_, eq_encode_of_utf8Units hcut hvalid.symm, (Option.some.inj h).symm⟩
    next => cases h
  · rintro ⟨cs, htext, rfl⟩
    rw [htext, utf8Units_encode, Utf8.decode_encode, if_pos rfl]

theorem takeWhile_ne_eq_self_iff {t : Text} : t.takeWhile (· ≠ 0) = t ↔ 0 ∉ t := by
  rw [List.takeWhile_eq_self_iff]
  simp only [decide_eq_true_eq]
  exact ⟨fun h hzero => h 0 hzero rfl, fun h u hu heq => h (heq ▸ hu)⟩

theorem encode_lt (cs : List Char) : ∀ u ∈ Utf16.encode cs, u < 0x10000 := by
  intro u hu
  obtain ⟨c, _, huc⟩ := List.mem_flatMap.mp hu
  have hvalid := c.toNat_cases
  rw [Utf16.encodeChar] at huc
  split at huc <;> simp only [List.mem_cons, List.not_mem_nil, or_false] at huc <;> omega

theorem takeWhile_encode (cs : List Char) :
    (Utf16.encode cs).takeWhile (· ≠ 0) = Utf16.encode (cs.takeWhile (· ≠ Char.ofNat 0)) := by
  induction cs with
  | nil => rfl
  | cons c cs ih =>
    by_cases hc : c = Char.ofNat 0
    · subst hc
      rfl
    · have hunits : ∀ u ∈ Utf16.encodeChar c, decide (u ≠ 0) = true := by
        intro u hu
        have hne : u ≠ 0 := fun heq => zero_notMem_encodeChar hc (heq ▸ hu)
        simpa using hne
      rw [Utf16.encode_cons, List.takeWhile_append_of_pos hunits, ih,
        List.takeWhile_cons_of_pos (by simpa using hc), Utf16.encode_cons]

/-- The engine reads the text before the first NUL, with U+FFFD for a lone surrogate. -/
theorem ofNativeUtf8_toNativeUtf8 (t : Text) :
    ofNativeUtf8 (toNativeUtf8 t) = (Utf16.encode (Utf16.decode t)).takeWhile (· ≠ 0) := by
  rw [ofNativeUtf8, toNativeUtf8, utf8Bytes, ← utf8Units_encode,
    upToNul_utf8Units (encode_lt _), takeWhile_encode, utf8Units_encode, Utf8.decode_encode]

theorem head_encode_mark_iff {cs : List Char} :
    (Utf16.encode cs).head? = some 0xFEFF ↔ cs.head? = some byteOrderMark := by
  rw [← Utf16.head_encode_iff (by decide)]
  rfl

theorem toDartString_eq_self_iff (s : JsString) :
    toDartString (toCString s) = some s.text ↔
      WellFormed s.text ∧ 0 ∉ s.text ∧ s.text.head? ≠ some 0xFEFF := by
  rw [toDartString_toCString_iff]
  constructor
  · rintro ⟨cs, hcs, htext⟩
    have hcut : (discardMark cs).takeWhile (· ≠ Char.ofNat 0) = cs := by
      rw [htext, takeWhile_encode] at hcs
      exact Utf16.encode_injective hcs
    have hlength := (List.takeWhile_prefix (l := discardMark cs) (· ≠ Char.ofNat 0)).length_le
    rw [hcut] at hlength
    have hsame : discardMark cs = cs := by
      refine (Codec.Fallback.discardMark_cases cs).resolve_right ?_
      intro hmark
      -- with a mark the text would be longer than what is left of it
      have hlonger := congrArg List.length hmark
      rw [List.length_cons] at hlonger
      omega
    rw [hsame] at hcut htext
    refine ⟨⟨cs, htext⟩, ?_, ?_⟩
    · rw [← takeWhile_ne_eq_self_iff, htext, takeWhile_encode, hcut]
    · rwa [htext, Ne, head_encode_mark_iff, ← Ne, ← Codec.Fallback.discardMark_eq_self_iff]
  · rintro ⟨⟨cs, hcs⟩, hzero, hhead⟩
    refine ⟨cs, (takeWhile_ne_eq_self_iff.mpr hzero).trans hcs, ?_⟩
    rw [hcs, Ne, head_encode_mark_iff] at hhead
    rw [Codec.Fallback.discardMark_eq_self_iff.mpr hhead, hcs]

theorem ofNativeUtf8_eq_self_iff (t : Text) :
    ofNativeUtf8 (toNativeUtf8 t) = t ↔ WellFormed t ∧ 0 ∉ t := by
  rw [ofNativeUtf8_toNativeUtf8]
  constructor
  · intro h
    have hwell : WellFormed t := by
      rw [takeWhile_encode] at h
      exact ⟨_, h.symm⟩
    rw [hwell.encode_decode] at h
    exact ⟨hwell, takeWhile_ne_eq_self_iff.mp h⟩
  · rintro ⟨hwell, hzero⟩
    rw [hwell.encode_decode, takeWhile_ne_eq_self_iff.mpr hzero]

/-- Which texts cross the bridge. The engine's text is refused by Dart when it has a lone
surrogate before its first NUL, and arrives as it is when it has no lone surrogate and no NUL and
does not begin with a byte order mark. Dart's text arrives as it is when it has no lone surrogate
and no NUL. -/
theorem text_crosses_iff (s : JsString) (t : Text) :
    (toDartString (toCString s) = none ↔ ¬ WellFormed (s.text.takeWhile (· ≠ 0))) ∧
      (toDartString (toCString s) = some s.text ↔
        WellFormed s.text ∧ 0 ∉ s.text ∧ s.text.head? ≠ some 0xFEFF) ∧
      (ofNativeUtf8 (toNativeUtf8 t) = t ↔ WellFormed t ∧ 0 ∉ t) := by
  refine ⟨?_, toDartString_eq_self_iff s, ofNativeUtf8_eq_self_iff t⟩
  rw [Option.eq_none_iff_forall_ne_some]
  constructor
  · rintro hnone ⟨cs, hcs⟩
    exact hnone _ ((toDartString_toCString_iff s _).mpr ⟨cs, hcs, rfl⟩)
  · intro hill t ht
    obtain ⟨cs, hcs, _⟩ := (toDartString_toCString_iff s t).mp ht
    exact hill ⟨cs, hcs⟩

/-! ## JSON texts -/

/-- A text of 16-bit units that crosses in both directions, a byte order mark apart. -/
def Plain (t : Text) : Prop :=
  (∀ u ∈ t, u < 0x10000) → WellFormed t ∧ 0 ∉ t

theorem toJs_of_plain {t : Text} (ht : Plain t) : toJs t = t := by
  unfold toJs
  split
  next hunits => exact (ofNativeUtf8_eq_self_iff t).mpr (ht hunits)
  next => rfl

theorem plain_append {s t : Text} (hs : Plain s) (ht : Plain t) : Plain (s ++ t) := by
  intro hlt
  simp only [List.forall_mem_append] at hlt
  obtain ⟨⟨cs, rfl⟩, hzeros⟩ := hs hlt.1
  obtain ⟨⟨ds, rfl⟩, hzerot⟩ := ht hlt.2
  refine ⟨⟨cs ++ ds, ?_⟩, by simp [hzeros, hzerot]⟩
  rw [Utf16.encode, Utf16.encode, Utf16.encode, List.flatMap_append]

theorem plain_of_lt {t : Text} (ht : ∀ u ∈ t, 0 < u ∧ u < 0xD800) : Plain t := by
  intro _
  refine ⟨⟨_, (Utf16.encode_map_ofNat fun u hu => (ht u hu).2).symm⟩, ?_⟩
  intro hzero
  exact absurd (ht 0 hzero).1 (by omega)

theorem plain_composes : Json.Composes Plain where
  ascii t ht := plain_of_lt fun u hu => ⟨(ht u hu).1, Nat.lt_trans (ht u hu).2 (by decide)⟩
  append _ _ := plain_append

/-- A lone surrogate is escaped, and a pair is a character. -/
theorem plain_quote (s : Text) : Plain (Json.quote s) := by
  refine plain_composes.quote (plain_composes.escapeUnits ?_ ?_)
  · intro u _ hcontrol hhigh hlow hlt
    have hu : u < 0x10000 := hlt u List.mem_cons_self
    simp only [Json.isHigh, Json.isLow, Bool.and_eq_false_iff, decide_eq_false_iff_not]
      at hhigh hlow
    have hvalue : (Char.ofNat u).toNat = u := Char.toNat_ofNat_of_valid (by omega)
    refine ⟨⟨[Char.ofNat u], ?_⟩, by simp; omega⟩
    rw [Utf16.encode_cons, Utf16.encodeChar, hvalue, if_pos hu]
    rfl
  · intro u _ v _ hhigh hlow _
    simp only [Json.isHigh, Json.isLow, Bool.and_eq_true, decide_eq_true_eq] at hhigh hlow
    have hvalue : (Char.ofNat (0x10000 + (u - 0xD800) * 0x400 + (v - 0xDC00))).toNat =
        0x10000 + (u - 0xD800) * 0x400 + (v - 0xDC00) :=
      Char.toNat_ofNat_of_valid (by omega)
    refine ⟨⟨[Char.ofNat (0x10000 + (u - 0xD800) * 0x400 + (v - 0xDC00))], ?_⟩, by simp; omega⟩
    have hu : 0xD800 + (0x10000 + (u - 0xD800) * 0x400 + (v - 0xDC00) - 0x10000) / 0x400 = u := by
      omega
    have hv : 0xDC00 + (0x10000 + (u - 0xD800) * 0x400 + (v - 0xDC00) - 0x10000) % 0x400 = v := by
      omega
    rw [Utf16.encode_cons, Utf16.encodeChar, hvalue, if_neg (by omega), hu, hv]
    rfl

section Render

variable {N : Type} {fmt : Json.NumberFormat N}

/-- Numbers apart, a JSON text begins with a quotation mark, a bracket, a brace or a letter of
a literal name. -/
theorem head_render_ne {u : Nat} (hu : u ∉ units "ntf\"[\x7b")
    (hnumbers : ∀ n, (fmt.toText n).head? ≠ some u) (x : Json N) :
    (x.render fmt).head? ≠ some u := by
  rcases x with _ | (_ | _) | n | s | (_ | _) | (_ | ⟨⟨_, _⟩, _⟩) <;>
  rw [Json.render]
  case number => exact hnumbers n
  all_goals
    intro h
    apply hu
    rw [← Option.some.inj h]
    decide

end Render

section Numbers

variable {Num : Type} {fmt : JsNumberFormat Num}

theorem tokens_ascii (n : JsNumber Num) :
    ∀ u ∈ (tokens fmt).toText n, 0 < u ∧ u < 0xD800 := by
  have hunit : ∀ u, Json.isNumberUnit u = true → 0 < u ∧ u < 0xD800 := by
    intro u hu
    simp only [Json.isNumberUnit, Bool.or_eq_true, Bool.and_eq_true, decide_eq_true_eq] at hu
    omega
  rcases n with n | _ | (_ | _)
  · intro u hu
    exact hunit u (fmt.toText_units n u hu)
  · exact (by decide : ∀ u ∈ units "NaN", 0 < u ∧ u < 0xD800)
  · exact (by decide : ∀ u ∈ units "Infinity", 0 < u ∧ u < 0xD800)
  · exact (by decide : ∀ u ∈ units "-Infinity", 0 < u ∧ u < 0xD800)

theorem tokens_plain (x : Json (JsNumber Num)) :
    Plain (x.render (tokens fmt)) ∧ (x.render (tokens fmt)).head? ≠ some 0xFEFF := by
  refine ⟨plain_composes.render (fun n => plain_of_lt (tokens_ascii n)) plain_quote x,
    head_render_ne (by decide) ?_ x⟩
  intro n hn
  have hlt := (tokens_ascii n 0xFEFF (List.mem_of_head? hn)).2
  omega

@[simp]
theorem toDart_render (x : Json (JsNumber Num)) :
    toDart (x.render (tokens fmt)) = some (x.render (tokens fmt)) := by
  unfold toDart JsString.ofText
  split
  next hunits =>
    obtain ⟨hplain, hhead⟩ : Plain (x.render (tokens fmt)) ∧ _ := tokens_plain x
    exact (toDartString_eq_self_iff _).mpr ⟨(hplain hunits).1, (hplain hunits).2, hhead⟩
  next => rfl

@[simp]
theorem toJs_render (x : Json (JsNumber Num)) :
    toJs (x.render (tokens fmt)) = x.render (tokens fmt) :=
  toJs_of_plain (tokens_plain x).1

/-- JSON crosses the bridge as bytes, whatever strings it holds: Dart decodes the serialiser's
C string to the JSON value of what was serialised, and the engine parses Dart's C string to the
value that Dart encoded. -/
theorem json_value_crosses {v : JsValue Num} {s : JsString} (hkept : v.isDropped = false)
    (hfinite : v.boxesFinite = true) (hs : jsonToStr fmt v = some s.text)
    {x : Json (JsNumber Num)} (hx : x.allNumbers JsNumber.isFinite = true)
    (hunits : ∀ u ∈ x.render (tokens fmt), u < 0x10000) :
    (toDartString (toCString s)).bind (Json.decode (tokens fmt)) = some v.jsonValue ∧
      Json.decode (tokens fmt) (ofNativeUtf8 (toNativeUtf8 (x.render (tokens fmt)))) = some x := by
  constructor
  · have hrender : s.text = v.written.render (tokens fmt) := jsonToStr_eq v s.text hs hkept
    obtain ⟨hplain, hhead⟩ : Plain s.text ∧ s.text.head? ≠ some 0xFEFF := by
      rw [hrender]
      exact tokens_plain _
    obtain ⟨hwell, hzero⟩ := hplain s.unit_lt
    rw [(toDartString_eq_self_iff s).mpr ⟨hwell, hzero, hhead⟩, Option.bind_some,
      decode_jsonToStr hs hkept, if_pos hfinite]
  · rw [(ofNativeUtf8_eq_self_iff _).mpr ((tokens_plain x).1 hunits), decode_tree, if_pos hx]

end Numbers

/-- A NUL and a lone surrogate, quoted by the serialiser. -/
def awkwardJson : JsString where
  isWideChar := false
  text := Json.quote [0, 0xD800]
  text_lt := by decide

theorem awkward_json_crosses :
    (toDartString (toCString awkwardJson)).bind (Json.decode (tokens decimalFormat)) =
        some (.string [0, 0xD800]) ∧
      Json.decode (tokens decimalFormat) (ofNativeUtf8 (toNativeUtf8
        (Json.render (tokens decimalFormat) (.string [0, 0xD800])))) =
          some (.string [0, 0xD800]) := by
  have hserialised : jsonToStr decimalFormat (.string [0, 0xD800]) = some awkwardJson.text := by
    rw [jsonToStr]
    rfl
  have hunits : ∀ u ∈ Json.render (tokens decimalFormat) (.string [0, 0xD800]), u < 0x10000 := by
    rw [Json.render]
    decide
  have hcrosses := json_value_crosses (v := .string [0, 0xD800]) rfl (by simp [JsValue.boxesFinite])
    hserialised (x := .string [0, 0xD800]) (by simp [Json.allNumbers]) hunits
  rwa [JsValue.jsonValue, JsValue.tree] at hcrosses

end Bridge
