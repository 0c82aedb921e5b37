import QuickjsRuntime.Url.FormCodec

/-!
# `decodeURIComponent`

The engine's `decodeURIComponent` (`js_global_decodeURI` of `quickjs.c`), and what it makes of a
text that `encodeSet` has encoded. Every sign `%` is read as the beginning of an escape, also one
that `encodeSet` has left as it was. Such a sign and the two units behind it count as one byte, so
that the text that comes out is too short.
-/

namespace Url

open Utf16 (Text units isSurrogate)
open Codec (hexValue)

/-! ## The loop -/

/-- `hex_decode`: the byte of the escape that a text begins with. -/
def hexDecode : Text → Option Nat
  | [] => none
  | c :: rest => if c = percent then escaped rest else none

/-- The first byte of a sequence: how many bytes follow, the least code point of that many, and
the bits that it brings. -/
def leadByte (c : Nat) : Nat × Nat × Nat :=
  if 0xC0 ≤ c ∧ c ≤ 0xDF then (1, 0x80, c - 0xC0)
  else if 0xE0 ≤ c ∧ c ≤ 0xEF then (2, 0x800, c - 0xE0)
  else if 0xF0 ≤ c ∧ c ≤ 0xF7 then (3, 0x10000, c - 0xF0)
  else (0, 1, 0)

/-- The loop over the bytes that follow, with the number of escapes that it reads. A byte that
does not continue a sequence makes the value 0 and ends the loop. -/
def continuation : Nat → Nat → Text → Option (Nat × Nat)
  | 0, c, _ => some (c, 0)
  | n + 1, c, s =>
    (hexDecode s).bind fun c1 =>
      if 0x80 ≤ c1 ∧ c1 ≤ 0xBF then
        (continuation n (c * 0x40 + (c1 - 0x80)) (s.drop 3)).map fun q => (q.1, q.2 + 1)
      else some (0, 1)

def isMalformed (cMin c : Nat) : Bool :=
  c < cMin || 0x10FFFF < c || (0xD800 ≤ c && c < 0xE000)

/-- The code point of the escapes that a text begins with, and their number. -/
def escapeSequence (s : Text) : Option (Nat × Nat) :=
  (hexDecode s).bind fun c =>
    if c < 0x80 then some (c, 1)
    else
      (continuation (leadByte c).1 (leadByte c).2.2 (s.drop 3)).bind fun q =>
        if isMalformed (leadByte c).2.1 q.1 then none else some (q.1, q.2 + 1)

/-- `string_buffer_putc` -/
def putc (c : Nat) : Text :=
  if c < 0x10000 then [c]
  else [0xD800 + (c - 0x10000) / 0x400, 0xDC00 + (c - 0x10000) % 0x400]

/-- The loop of `js_global_decodeURI`, of which the next `skip` units are passed over. -/
def decodeLoop : Nat → Text → Option Text
  | _, [] => some []
  | skip + 1, _ :: rest => decodeLoop skip rest
  | 0, c :: rest =>
    if c = percent then
      (escapeSequence (c :: rest)).bind fun q =>
        (decodeLoop (3 * q.2 - 1) rest).map (putc q.1 ++ ·)
    else (decodeLoop 0 rest).map (c :: ·)

/-- `decodeURIComponent`; `none` where it throws a `URIError`. -/
def decodeURIComponent (s : Text) : Option Text :=
  decodeLoop 0 s

theorem decodeLoop_eq_drop (n : Nat) (s : Text) :
    decodeLoop n s = decodeURIComponent (s.drop n) := by
  induction s generalizing n with
  | nil => cases n <;> rfl
  | cons c s ih =>
    cases n with
    | zero => rfl
    | succ n => exact ih n

theorem decodeURIComponent_cons {c : Nat} (hc : c ≠ percent) (s : Text) :
    decodeURIComponent (c :: s) = (decodeURIComponent s).map (c :: ·) := by
  rw [decodeURIComponent, decodeLoop, if_neg hc, decodeLoop_eq_drop, List.drop_zero]

theorem decodeURIComponent_percent (s : Text) :
    decodeURIComponent (percent :: s) =
      (escapeSequence (percent :: s)).bind fun q =>
        (decodeURIComponent (s.drop (3 * q.2 - 1))).map (putc q.1 ++ ·) := by
  rw [decodeURIComponent, decodeLoop, if_pos rfl]
  simp only [decodeLoop_eq_drop]

/-! ## Escapes of characters -/

theorem hexDecode_pctEncodeByte {b : Nat} (hb : b < 0x100) (s : Text) :
    hexDecode (pctEncodeByte b ++ s) = some b := by
  have hhigh := hexValue_hexDigit (b / 16 % 16) (Nat.mod_lt _ (by decide))
  have hlow := hexValue_hexDigit (b % 16) (Nat.mod_lt _ (by decide))
  have hbyte : b / 16 % 16 * 16 + b % 16 = b := by omega
  simp only [pctEncodeByte, List.cons_append, List.nil_append, hexDecode, if_true, escaped, hhigh,
    hlow, hbyte]

theorem drop_pctEncodeByte (b : Nat) (s : Text) : (pctEncodeByte b ++ s).drop 3 = s :=
  rfl

theorem continuation_byte {b : Nat} (hb : 0x80 ≤ b ∧ b ≤ 0xBF) (n c : Nat) (s : Text) :
    continuation (n + 1) c (pctEncodeByte b ++ s) =
      (continuation n (c * 0x40 + (b - 0x80)) s).map fun q => (q.1, q.2 + 1) := by
  rw [continuation, hexDecode_pctEncodeByte (by omega), Option.bind_some, if_pos hb,
    drop_pctEncodeByte]

theorem escapeSequence_ascii {b : Nat} (hb : b < 0x80) (s : Text) :
    escapeSequence (pctEncodeByte b ++ s) = some (b, 1) := by
  rw [escapeSequence, hexDecode_pctEncodeByte (by omega), Option.bind_some, if_pos hb]

theorem escapeSequence_lead {b n cMin c v k : Nat} (hb : 0x80 ≤ b ∧ b < 0x100)
    (hlead : leadByte b = (n, cMin, c)) {s : Text} (hrest : continuation n c s = some (v, k))
    (hvalid : isMalformed cMin v = false) :
    escapeSequence (pctEncodeByte b ++ s) = some (v, k + 1) := by
  rw [escapeSequence, hexDecode_pctEncodeByte hb.2, Option.bind_some, if_neg (by omega), hlead,
    drop_pctEncodeByte]
  simp only [hrest, Option.bind_some, hvalid, Bool.false_eq_true, if_false]

theorem isMalformed_eq_false {cMin c : Nat} (hmin : cMin ≤ c)
    (hvalid : c < 0xD800 ∨ (0xDFFF < c ∧ c < 0x110000)) : isMalformed cMin c = false := by
  simp only [isMalformed, Bool.or_eq_false_iff, Bool.and_eq_false_iff, decide_eq_false_iff_not]
  omega

/-- The bytes of a character as numbers. -/
def charBytes (c : Char) : List Nat :=
  (String.utf8EncodeChar c).map UInt8.toNat

theorem charBytes_ascii {c : Char} (hc : c.toNat < 0x80) : charBytes c = [c.toNat] := by
  rcases Utf8.utf8EncodeChar_cases c with ⟨-, h⟩ | ⟨h, -⟩ | ⟨h, -⟩ | ⟨h, -⟩
  · rw [charBytes, h]
    simp only [List.map_cons, List.map_nil, Utf8.toNat_byte (show c.toNat < 0x100 by omega)]
  all_goals omega

/-- The escapes of a character that is not ASCII are read as the character. -/
theorem escapeSequence_char {c : Char} (hc : 0x80 ≤ c.toNat) (s : Text) :
    escapeSequence ((charBytes c).flatMap pctEncodeByte ++ s) =
      some (c.toNat, (charBytes c).length) := by
  have hvalid := c.toNat_cases
  rcases Utf8.utf8EncodeChar_cases c with ⟨h, -⟩ | ⟨hl, hu, h⟩ | ⟨hl, hu, h⟩ | ⟨hl, hu, h⟩
  · omega
  all_goals
    simp only [charBytes, h, List.map_cons, List.map_nil, List.flatMap_cons, List.flatMap_nil,
      List.append_nil, List.append_assoc, List.length_cons, List.length_nil]
    repeat rw [Utf8.toNat_byte (by omega)]
  · have hlead : leadByte (0xC0 + c.toNat / 0x40) = (1, 0x80, c.toNat / 0x40) := by
      rw [leadByte, if_pos (by omega), Nat.add_sub_cancel_left]
    refine escapeSequence_lead (by omega) hlead ?_ (isMalformed_eq_false hl hvalid)
    rw [continuation_byte (by omega)]
    simp only [continuation, Option.map_some, Option.some.injEq, Prod.mk.injEq, and_true]
    omega
  · have hlead : leadByte (0xE0 + c.toNat / 0x1000) = (2, 0x800, c.toNat / 0x1000) := by
      rw [leadByte, if_neg (by omega), if_pos (by omega), Nat.add_sub_cancel_left]
    refine escapeSequence_lead (by omega) hlead ?_ (isMalformed_eq_false hl hvalid)
    rw [continuation_byte (by omega), continuation_byte (by omega)]
    simp only [continuation, Option.map_some, Option.some.injEq, Prod.mk.injEq, and_true]
    omega
  · have hlead : leadByte (0xF0 + c.toNat / 0x40000) = (3, 0x10000, c.toNat / 0x40000) := by
      rw [leadByte, if_neg (by omega), if_neg (by omega), if_pos (by omega),
        Nat.add_sub_cancel_left]
    refine escapeSequence_lead (by omega) hlead ?_ (isMalformed_eq_false hl hvalid)
    rw [continuation_byte (by omega), continuation_byte (by omega), continuation_byte (by omega)]
    simp only [continuation, Option.map_some, Option.some.injEq, Prod.mk.injEq, and_true]
    omega

theorem putc_char (c : Char) : putc c.toNat = Utf16.encodeChar c :=
  rfl

/-! ## Texts without percent signs -/

/-- What `encodeSet` makes of bytes for a path. -/
def encodeBytes (bs : List Nat) : Text :=
  bs.flatMap (encodeByte true)

theorem encodeBytes_cons (b : Nat) (bs : List Nat) :
    encodeBytes (b :: bs) = encodeByte true b ++ encodeBytes bs :=
  List.flatMap_cons

theorem encodeByte_high {b : Nat} (hb : 0x80 ≤ b) : encodeByte true b = pctEncodeByte b := by
  rw [encodeByte, if_pos]
  simp only [must, Bool.or_eq_true, decide_eq_true_eq]
  omega

theorem charBytes_high {c : Char} (hc : 0x80 ≤ c.toNat) : ∀ b ∈ charBytes c, 0x80 ≤ b := by
  rcases Utf8.utf8EncodeChar_cases c with ⟨h, -⟩ | ⟨hl, hu, h⟩ | ⟨hl, hu, h⟩ | ⟨hl, hu, h⟩
  · omega
  all_goals
    simp only [charBytes, h, List.map_cons, List.map_nil, List.forall_mem_cons, List.not_mem_nil,
      false_implies, implies_true, and_true]
    repeat rw [Utf8.toNat_byte (by omega)]
    omega

/-- Reading back one encoded character. -/
theorem decodeURIComponent_char {c : Char} (hc : c.toNat ≠ percent) (s : Text) :
    decodeURIComponent (encodeBytes (charBytes c) ++ s) =
      (decodeURIComponent s).map (Utf16.encodeChar c ++ ·) := by
  by_cases hascii : c.toNat < 0x80
  · have hput : Utf16.encodeChar c = [c.toNat] := if_pos (by omega)
    rw [charBytes_ascii hascii, encodeBytes_cons, encodeByte, hput]
    split
    · have hsequence := escapeSequence_ascii hascii s
      change decodeURIComponent (pctEncodeByte c.toNat ++ s) = _
      rw [pctEncodeByte, List.cons_append, decodeURIComponent_percent]
      rw [pctEncodeByte, List.cons_append] at hsequence
      rw [hsequence, Option.bind_some, putc_char, hput]
      rfl
    · exact decodeURIComponent_cons hc s
  · have hhigh : 0x80 ≤ c.toNat := by omega
    have hescapes : encodeBytes (charBytes c) = (charBytes c).flatMap pctEncodeByte :=
      List.flatMap_congr fun b hb => encodeByte_high (charBytes_high hhigh b hb)
    have hsequence := escapeSequence_char hhigh s
    have hlength : ∀ bs : List Nat, (bs.flatMap pctEncodeByte).length = 3 * bs.length := by
      intro bs
      induction bs with
      | nil => rfl
      | cons b bs ih =>
        rw [List.flatMap_cons, List.length_append, ih, List.length_cons]
        change 3 + 3 * bs.length = _
        omega
    -- the text begins with a percent sign, and all escapes of the character are passed over
    obtain ⟨b, bs, hbytes⟩ : ∃ b bs, charBytes c = b :: bs := by
      rcases Utf8.utf8EncodeChar_cases c with ⟨-, h⟩ | ⟨-, -, h⟩ | ⟨-, -, h⟩ | ⟨-, -, h⟩ <;>
        exact ⟨_, _, by rw [charBytes, h, List.map_cons]⟩
    obtain ⟨t, ht⟩ : ∃ t, (charBytes c).flatMap pctEncodeByte = percent :: t :=
      ⟨_, by rw [hbytes]; rfl⟩
    have hskip : t.length = 3 * (charBytes c).length - 1 := by
      have hall := hlength (charBytes c)
      rw [ht, List.length_cons] at hall
      omega
    rw [hescapes, ht, List.cons_append, decodeURIComponent_percent, ← List.cons_append, ← ht,
      hsequence, Option.bind_some, ← hskip, List.drop_left, putc_char]

theorem decodeURIComponent_encodeBytes {cs : List Char} (hcs : ∀ c ∈ cs, c.toNat ≠ percent) :
    decodeURIComponent (encodeBytes (cs.flatMap charBytes)) = some (Utf16.encode cs) := by
  induction cs with
  | nil => rfl
  | cons c cs ih =>
    simp only [List.forall_mem_cons] at hcs
    rw [List.flatMap_cons, encodeBytes, List.flatMap_append]
    refine (decodeURIComponent_char hcs.1 _).trans ?_
    change (decodeURIComponent (encodeBytes (cs.flatMap charBytes))).map _ = _
    rw [ih hcs.2, Option.map_some, Utf16.encode_cons]

/-! ## Texts with percent signs -/

/-- How many bytes the units of a text take; each half of a pair takes two. -/
def unitBytes (u : Nat) : Nat :=
  if u < 0x80 then 1 else if u < 0x800 then 2 else if isSurrogate u then 2 else 3

def byteCount (s : Text) : Nat :=
  (s.map unitBytes).sum

theorem byteCount_append (s t : Text) : byteCount (s ++ t) = byteCount s + byteCount t := by
  rw [byteCount, List.map_append, List.sum_append]
  rfl

/-- After `k` bytes have been read from `bs`, `bs'` is left. Where a percent sign stood among them,
fewer bytes came out than were there. -/
structure Reads (bs bs' : List Nat) (k : Nat) : Prop where
  length_le : bs'.length + k ≤ bs.length
  shorter : percent ∈ bs → percent ∈ bs' ∨ bs'.length + k < bs.length

theorem Reads.refl (bs : List Nat) : Reads bs bs 0 :=
  ⟨Nat.le_refl _, fun h => Or.inl h⟩

theorem Reads.trans {as bs cs : List Nat} {j k : Nat} (hab : Reads as bs j) (hbc : Reads bs cs k) :
    Reads as cs (k + j) := by
  have hle := hab.length_le
  have hle' := hbc.length_le
  refine ⟨by omega, fun hmem => ?_⟩
  rcases hab.shorter hmem with hmem | hlt
  · rcases hbc.shorter hmem with hmem | hlt
    · exact Or.inl hmem
    · exact Or.inr (by omega)
  · exact Or.inr (by omega)

theorem hexValue_ne_percent {c d : Nat} (h : hexValue c = some d) : c ≠ percent := by
  rintro rfl
  have hnone : hexValue percent = none := by decide
  rw [hnone] at h
  cases h

/-- A unit of an encoded text that is no percent sign is a byte that was kept. -/
theorem encodeBytes_eq_cons {bs : List Nat} {c : Nat} {s : Text} (h : encodeBytes bs = c :: s)
    (hc : c ≠ percent) : ∃ bs', bs = c :: bs' ∧ s = encodeBytes bs' ∧ must true c = false := by
  cases bs with
  | nil => cases h
  | cons b bs =>
    rw [encodeBytes_cons, encodeByte] at h
    split at h
    · exact absurd (List.cons.inj h).1.symm hc
    next hkept =>
      obtain ⟨rfl, rfl⟩ := List.cons.inj h
      exact ⟨bs, rfl, rfl, by simpa using hkept⟩

theorem escaped_eq_some {s : Text} {v : Nat} (h : escaped s = some v) :
    ∃ x y t, s = x :: y :: t ∧ x ≠ percent ∧ y ≠ percent := by
  match s, h with
  | x :: y :: t, h =>
    rw [escaped] at h
    split at h
    next hx hy => exact ⟨x, y, t, rfl, hexValue_ne_percent hx, hexValue_ne_percent hy⟩
    · cases h

/-- An escape in an encoded text is one byte, or a percent sign and two bytes that were kept. -/
theorem reads_hexDecode {bs : List Nat} {v : Nat} (h : hexDecode (encodeBytes bs) = some v) :
    ∃ bs', (encodeBytes bs).drop 3 = encodeBytes bs' ∧ Reads bs bs' 1 := by
  cases bs with
  | nil => cases h
  | cons b bs =>
    rw [encodeBytes_cons] at h ⊢
    by_cases hmust : must true b = true
    · rw [encodeByte, if_pos hmust, drop_pctEncodeByte]
      refine ⟨bs, rfl, Nat.le_refl _, fun hmem => ?_⟩
      rcases List.mem_cons.mp hmem with rfl | hmem
      · exact absurd hmust (by decide)
      · exact Or.inl hmem
    · rw [encodeByte, if_neg hmust, List.singleton_append] at h ⊢
      rw [hexDecode] at h
      split at h
      · obtain ⟨x, y, t, htext, hx, hy⟩ := escaped_eq_some h
        obtain ⟨bs₁, rfl, hrest, -⟩ := encodeBytes_eq_cons htext hx
        obtain ⟨bs₂, rfl, rfl, -⟩ := encodeBytes_eq_cons hrest.symm hy
        refine ⟨bs₂, by rw [htext]; rfl, ?_, fun _ => Or.inr ?_⟩ <;>
          simp only [List.length_cons] <;> omega
      · cases h

/-- The value of a sequence has no more bits than its bytes bring, unless it is broken off. -/
theorem reads_continuation {n c v k : Nat} {bs : List Nat}
    (h : continuation n c (encodeBytes bs) = some (v, k)) :
    (v = 0 ∨ (k = n ∧ v < (c + 1) * 0x40 ^ n)) ∧
      ∃ bs', (encodeBytes bs).drop (3 * k) = encodeBytes bs' ∧ Reads bs bs' k := by
  induction n generalizing c k bs with
  | zero =>
    cases h
    exact ⟨Or.inr ⟨rfl, by omega⟩, bs, rfl, Reads.refl bs⟩
  | succ n ih =>
    rw [continuation] at h
    obtain ⟨c1, hc1, h⟩ := Option.bind_eq_some_iff.mp h
    obtain ⟨bs₁, hdrop, hreads⟩ := reads_hexDecode hc1
    split at h
    next hcontinues =>
      obtain ⟨⟨v', k'⟩, hrest, heq⟩ := Option.map_eq_some_iff.mp h
      cases heq
      rw [hdrop] at hrest
      obtain ⟨hvalue, bs₂, hdrop', hreads'⟩ := ih hrest
      refine ⟨hvalue.imp_right fun hv => ⟨by omega, ?_⟩, bs₂, ?_, hreads.trans hreads'⟩
      · calc v' < (c * 0x40 + (c1 - 0x80) + 1) * 0x40 ^ n := hv.2
          _ ≤ ((c + 1) * 0x40) * 0x40 ^ n := Nat.mul_le_mul_right _ (by omega)
          _ = (c + 1) * 0x40 ^ (n + 1) := by rw [Nat.mul_assoc, ← Nat.pow_succ']
      · rw [← hdrop', ← hdrop, List.drop_drop]
        congr 1
        omega
    · cases h
      exact ⟨Or.inl rfl, bs₁, hdrop, hreads⟩

theorem byteCount_pair {high low : Nat} (hhigh : isSurrogate high = true)
    (hlow : isSurrogate low = true) : byteCount [high, low] = 4 := by
  have hunit : ∀ u, isSurrogate u = true → unitBytes u = 2 := by
    intro u hu
    have hrange : 0xD800 ≤ u ∧ u ≤ 0xDFFF := by simpa [isSurrogate] using hu
    rw [unitBytes, if_neg (by omega), if_neg (by omega), if_pos hu]
  simp [byteCount, hunit high hhigh, hunit low hlow]

theorem surrogates_putc {v : Nat} (hlow : 0x10000 ≤ v) (hhigh : v ≤ 0x10FFFF) :
    isSurrogate (0xD800 + (v - 0x10000) / 0x400) = true ∧
      isSurrogate (0xDC00 + (v - 0x10000) % 0x400) = true := by
  simp only [isSurrogate, Bool.and_eq_true, decide_eq_true_eq]
  omega

/-- A code point takes no more than the bytes of its range. -/
theorem byteCount_putc_le {v k : Nat} (hv : v ≤ 0x10FFFF) (hone : 1 ≤ k)
    (htwo : 0x80 ≤ v → 2 ≤ k) (hthree : 0x800 ≤ v → 3 ≤ k) (hfour : 0x10000 ≤ v → 4 ≤ k) :
    byteCount (putc v) ≤ k := by
  unfold putc
  split
  · simp only [byteCount, List.map_cons, List.map_nil, List.sum_cons, List.sum_nil, unitBytes]
    repeat' split
    all_goals omega
  · obtain ⟨hhigh, hlow⟩ := surrogates_putc (show 0x10000 ≤ v by omega) hv
    rw [byteCount_pair hhigh hlow]
    omega

theorem reads_escapeSequence {bs : List Nat} {v k : Nat}
    (h : escapeSequence (encodeBytes bs) = some (v, k)) :
    1 ≤ k ∧ byteCount (putc v) ≤ k ∧
      ∃ bs', (encodeBytes bs).drop (3 * k) = encodeBytes bs' ∧ Reads bs bs' k := by
  obtain ⟨c, hc, h⟩ := Option.bind_eq_some_iff.mp h
  obtain ⟨bs₁, hdrop, hreads⟩ := reads_hexDecode hc
  split at h
  · cases h
    exact ⟨Nat.le_refl _, byteCount_putc_le (by omega) (by omega) (by omega) (by omega) (by omega),
      bs₁, hdrop, hreads⟩
  · obtain ⟨⟨v', k'⟩, hrest, h⟩ := Option.bind_eq_some_iff.mp h
    split at h
    · cases h
    next hvalid =>
      cases h
      rw [hdrop] at hrest
      obtain ⟨hvalue, bs₂, hdrop', hreads'⟩ := reads_continuation hrest
      refine ⟨by omega, ?_, bs₂, ?_, hreads.trans hreads'⟩
      · simp only [isMalformed, Bool.or_eq_true, Bool.and_eq_true, decide_eq_true_eq,
          not_or] at hvalid
        -- the bits of the bytes bound the code point from above
        unfold leadByte at hvalue hvalid
        repeat' split at hvalue
        all_goals
          simp only [*, if_true, if_false, and_self] at hvalue hvalid
          apply byteCount_putc_le <;> omega
      · rw [← hdrop', ← hdrop, List.drop_drop]
        congr 1
        omega

/-- What comes out takes no more bytes than went in, and fewer where there was a percent sign. -/
theorem byteCount_decoded {bs : List Nat} {y : Text}
    (h : decodeURIComponent (encodeBytes bs) = some y) :
    byteCount y ≤ bs.length ∧ (percent ∈ bs → byteCount y < bs.length) := by
  induction hn : bs.length using Nat.strong_induction_on generalizing bs y with
  | _ n ih =>
    cases htext : encodeBytes bs with
    | nil =>
      rw [htext] at h
      cases h
      cases bs with
      | nil => simp [byteCount]
      | cons b bs =>
        refine absurd htext ?_
        rw [encodeBytes_cons, encodeByte]
        split <;> simp [pctEncodeByte]
    | cons c s =>
      rw [htext] at h
      by_cases hc : c = percent
      · subst hc
        rw [decodeURIComponent_percent] at h
        obtain ⟨⟨v, k⟩, hsequence, h⟩ := Option.bind_eq_some_iff.mp h
        obtain ⟨y', hrest, rfl⟩ := Option.map_eq_some_iff.mp h
        rw [← htext] at hsequence
        obtain ⟨hk, hcount, bs', hdrop, hreads⟩ := reads_escapeSequence hsequence
        have hskip : s.drop (3 * k - 1) = encodeBytes bs' := by
          rw [← hdrop, htext, show 3 * k = (3 * k - 1) + 1 by omega, List.drop_succ_cons,
            Nat.add_sub_cancel]
        rw [hskip] at hrest
        have hle := hreads.length_le
        obtain ⟨hbound, hstrict⟩ := ih bs'.length (by omega) hrest rfl
        rw [byteCount_append]
        dsimp only
        refine ⟨by omega, fun hmem => ?_⟩
        rcases hreads.shorter hmem with hmem | hlt
        · have hlt := hstrict hmem
          omega
        · omega
      · obtain ⟨bs', rfl, rfl, hkept⟩ := encodeBytes_eq_cons htext hc
        rw [decodeURIComponent_cons hc] at h
        obtain ⟨y', hrest, rfl⟩ := Option.map_eq_some_iff.mp h
        rw [List.length_cons] at hn
        obtain ⟨hbound, hstrict⟩ := ih bs'.length (by omega) hrest rfl
        have hunit : unitBytes c = 1 := by
          simp only [must, Bool.or_eq_false_iff, decide_eq_false_iff_not] at hkept
          exact if_pos (by omega)
        have hcount : byteCount (c :: y') = 1 + byteCount y' := by
          rw [byteCount, List.map_cons, List.sum_cons, hunit]
          rfl
        rw [hcount]
        refine ⟨by omega, fun hmem => ?_⟩
        have hlt := hstrict ((List.mem_cons.mp hmem).resolve_left (Ne.symm hc))
        omega

/-! ## When an encoded text is decoded to itself -/

theorem byteCount_encodeChar (c : Char) :
    byteCount (Utf16.encodeChar c) = (charBytes c).length := by
  have hvalid := c.toNat_cases
  rw [← putc_char, charBytes, List.length_map]
  have hunit : c.toNat < 0x10000 → byteCount (putc c.toNat) = unitBytes c.toNat := by
    intro hsmall
    rw [putc, if_pos hsmall]
    rfl
  have hlone : isSurrogate c.toNat = false := by
    simp only [isSurrogate, Bool.and_eq_false_iff, decide_eq_false_iff_not]
    omega
  rcases Utf8.utf8EncodeChar_cases c with ⟨hu, h⟩ | ⟨hl, hu, h⟩ | ⟨hl, hu, h⟩ | ⟨hl, hu, h⟩
  · rw [h, hunit (by omega), unitBytes, if_pos (by omega)]
    rfl
  · rw [h, hunit (by omega), unitBytes, if_neg (by omega), if_pos (by omega)]
    rfl
  · rw [h, hunit (by omega), unitBytes, if_neg (by omega), if_neg (by omega),
      if_neg (by simp [hlone])]
    rfl
  · obtain ⟨hhigh, hlow⟩ := surrogates_putc hl (by omega)
    rw [h, putc, if_neg (by omega), byteCount_pair hhigh hlow]
    rfl

theorem byteCount_encode (cs : List Char) :
    byteCount (Utf16.encode cs) = (cs.flatMap charBytes).length := by
  induction cs with
  | nil => rfl
  | cons c cs ih =>
    rw [Utf16.encode_cons, byteCount_append, byteCount_encodeChar, ih, List.flatMap_cons,
      List.length_append]

theorem percent_mem_encode_iff {cs : List Char} :
    percent ∈ Utf16.encode cs ↔ ∃ c ∈ cs, c.toNat = percent := by
  rw [Utf16.encode, List.mem_flatMap]
  refine exists_congr fun c => and_congr_right fun _ => ?_
  unfold Utf16.encodeChar percent
  split
  · simp [eq_comm]
  · simp only [List.mem_cons, List.not_mem_nil, or_false]
    omega

/-- An encoded text is decoded to itself exactly if it has no percent sign. -/
theorem decodeURIComponent_encodeBytes_iff (cs : List Char) :
    decodeURIComponent (encodeBytes (cs.flatMap charBytes)) = some (Utf16.encode cs) ↔
      percent ∉ Utf16.encode cs := by
  rw [percent_mem_encode_iff]
  constructor
  · rintro hdecode ⟨c, hc, hpercent⟩
    have hmem : percent ∈ cs.flatMap charBytes := by
      refine List.mem_flatMap.mpr ⟨c, hc, ?_⟩
      rw [charBytes_ascii (by rw [hpercent]; decide), hpercent]
      exact List.mem_cons_self
    have hlt := (byteCount_decoded hdecode).2 hmem
    rw [byteCount_encode] at hlt
    omega
  · intro hnone
    exact decodeURIComponent_encodeBytes fun c hc hpercent => hnone ⟨c, hc, hpercent⟩

end Url
