import QuickjsRuntime.Url.SearchParams

/-!
# Unescaped text in a query

`pctDecode` of `node_compat_url.dart` on text that is not percent-encoded. The loop goes over code
units and encodes each one that is not ASCII by itself, so that the two halves of a surrogate pair
are encoded as lone surrogates and are lost. Everything else comes back.
-/

namespace Url

open Utf16 (Text units isSurrogate)
open Codec (Hooks equalsSign)

/-- ASCII units are their own bytes, a lone surrogate is encoded as U+FFFD, and the bytes of a
well-formed text are decoded to it, whatever bytes follow. -/
structure DecodingHooks extends LosslessHooks where
  encode_ascii : ∀ u, u < 0x80 → utf8Encode [u] = [u]
  encode_lone : ∀ u, isSurrogate u = true → utf8Encode [u] = utf8Encode [0xFFFD]
  decode_append : ∀ s bs, Utf16.WellFormed s → utf8Decode (utf8Encode s ++ bs) = s ++ utf8Decode bs

instance : Coe DecodingHooks Hooks := ⟨(·.toHooks)⟩

/-! ## Units -/

theorem unit_lt_of_wellFormed {s : Text} (hs : Utf16.WellFormed s) : ∀ u ∈ s, u < 0x10000 := by
  obtain ⟨cs, rfl⟩ := hs
  intro u hu
  obtain ⟨c, -, hc⟩ := List.mem_flatMap.mp hu
  have hvalid := c.toNat_cases
  unfold Utf16.encodeChar at hc
  split at hc
  next hsmall => rwa [List.mem_singleton.mp hc]
  next =>
    simp only [List.mem_cons, List.not_mem_nil, or_false] at hc
    omega

theorem wellFormed_unit {u : Nat} (hu : u < 0x10000) (hlone : isSurrogate u = false) :
    Utf16.WellFormed [u] := by
  have hvalid : u < 0xD800 ∨ (0xDFFF < u ∧ u < 0x110000) := by
    simp only [isSurrogate, Bool.and_eq_false_iff, decide_eq_false_iff_not] at hlone
    omega
  have hvalue : (Char.ofNat u).toNat = u := Char.toNat_ofNat_of_valid hvalid
  refine ⟨[Char.ofNat u], ?_⟩
  rw [Utf16.encode_cons, Utf16.encodeChar, hvalue, if_pos hu]
  rfl

/-- What is made of one unit: `+` is a blank, and half a character is U+FFFD. -/
def rawUnit (u : Nat) : Nat :=
  if u = plusSign then 0x20 else if isSurrogate u then 0xFFFD else u

theorem rawUnit_eq_self_iff {u : Nat} (hplus : u ≠ plusSign) :
    rawUnit u = u ↔ isSurrogate u = false := by
  rw [rawUnit, if_neg hplus]
  cases hlone : isSurrogate u with
  | false => simp
  | true =>
    have hne : ¬ 0xFFFD = u := by
      rintro rfl
      exact absurd hlone (by decide)
    simp [hne]

/-! ## Decoding -/

section Decode

variable (hooks : DecodingHooks) {s x : Text}

theorem pctDecode_nil : pctDecode hooks [] = [] := by
  have happend := hooks.decode_append [] [] (Utf16.wellFormed_encode [])
  rw [List.append_nil, hooks.decode_encode [] (Utf16.wellFormed_encode [])] at happend
  exact happend.symm

theorem decode_unit {u : Nat} (hu : u < 0x10000) (hlone : isSurrogate u = false) (bs : List Nat) :
    hooks.utf8Decode (hooks.utf8Encode [u] ++ bs) = u :: hooks.utf8Decode bs :=
  hooks.decode_append [u] bs (wellFormed_unit hu hlone)

theorem pctDecode_cons {u : Nat} (hu : u < 0x10000) (hpercent : u ≠ percent) (rest : Text) :
    pctDecode hooks (u :: rest) = rawUnit u :: pctDecode hooks rest := by
  rw [pctDecode, pctBytes, pctLoop, if_neg hpercent]
  by_cases hplus : u = plusSign
  · have hblank := decode_unit hooks (u := 0x20) (by decide) (by decide)
      (pctBytes hooks rest)
    rw [hooks.encode_ascii 0x20 (by decide)] at hblank
    rw [if_pos hplus, rawUnit, if_pos hplus]
    exact hblank
  rw [if_neg hplus, rawUnit, if_neg hplus]
  by_cases hascii : u < 0x80
  · have hlone : isSurrogate u = false := by
      simp only [isSurrogate, Bool.and_eq_false_iff, decide_eq_false_iff_not]
      omega
    have hself := decode_unit hooks hu hlone (pctBytes hooks rest)
    rw [hooks.encode_ascii u hascii] at hself
    rw [if_pos hascii, if_neg (by simp [hlone])]
    exact hself
  rw [if_neg hascii]
  cases hlone : isSurrogate u with
  | false => exact decode_unit hooks hu hlone _
  | true =>
    rw [hooks.encode_lone u hlone]
    exact decode_unit hooks (u := 0xFFFD) (by decide) (by decide) _

/-- Text without a percent sign is decoded unit by unit, in front of whatever follows. -/
theorem pctDecode_append_map (hx : ∀ u ∈ x, u < 0x10000) (hpercent : percent ∉ x) (y : Text) :
    pctDecode hooks (x ++ y) = x.map rawUnit ++ pctDecode hooks y := by
  induction x with
  | nil => rfl
  | cons u x ih =>
    simp only [List.mem_cons, not_or] at hpercent
    simp only [List.forall_mem_cons] at hx
    rw [List.cons_append, pctDecode_cons hooks hx.1 (Ne.symm hpercent.1), ih hx.2 hpercent.2]
    rfl

theorem pctDecode_raw (hx : ∀ u ∈ x, u < 0x10000) (hpercent : percent ∉ x) :
    pctDecode hooks x = x.map rawUnit := by
  have happend := pctDecode_append_map hooks hx hpercent []
  rwa [List.append_nil, pctDecode_nil, List.append_nil] at happend

theorem pctDecode_append (hx : ∀ u ∈ x, u < 0x10000) (hpercent : percent ∉ x) (y : Text) :
    pctDecode hooks (x ++ y) = pctDecode hooks x ++ pctDecode hooks y := by
  rw [pctDecode_append_map hooks hx hpercent, pctDecode_raw hooks hx hpercent]

/-! ## The value of a query -/

/-- `new URLSearchParams('k=' + s).get('k')` -/
def queriedValue (hooks : Hooks) (s : Text) : SearchParams.Answer :=
  ((newSearchParams hooks (units "k=" ++ s)).call hooks (.get (units "k"))).1

theorem queriedValue_eq (hampersand : ampersand ∉ s) :
    queriedValue hooks s = .text (some (pctDecode hooks s)) := by
  have hname : pctDecode hooks (units "k") = units "k" :=
    pctDecode_raw hooks (by decide) (by decide)
  have hparts : (units "k=" ++ s).splitOn ampersand = [units "k=" ++ s] := by
    apply List.splitOnP_eq_singleton
    intro c hc
    rw [beq_eq_false_iff_ne]
    rintro rfl
    rcases List.mem_append.mp hc with hc | hc
    · exact absurd hc (by decide)
    · exact hampersand hc
  have hsplit : Split.splitFirst equalsSign (units "k=" ++ s) = some (units "k", s) :=
    Split.splitFirst_append (a := units "k") (by decide)
  have hpart : parsePart hooks (units "k=" ++ s) =
      some (units "k", pctDecode hooks s) := by
    rw [parsePart, if_neg (by simp [units]), hsplit]
    simp only [hname]
  have hpairs : parseParams hooks (units "k=" ++ s) =
      [(units "k", pctDecode hooks s)] := by
    rw [parseParams, if_neg (by simp [units]), hparts, List.filterMap_cons, hpart]
    rfl
  simp only [queriedValue, newSearchParams, SearchParams.call, SearchParams.reload, hpairs,
    SearchParams.getLoop, if_true]

theorem map_rawUnit_eq_self_iff (hplus : plusSign ∉ s) :
    s.map rawUnit = s ↔ ∀ u ∈ s, isSurrogate u = false := by
  induction s with
  | nil => simp
  | cons u s ih =>
    simp only [List.mem_cons, not_or] at hplus
    rw [List.map_cons, List.cons.injEq, rawUnit_eq_self_iff (Ne.symm hplus.1), ih hplus.2,
      List.forall_mem_cons]

end Decode

/-- Raw text in a query comes back exactly if it has no surrogates, and text without a percent
sign is decoded apart from what follows it. -/
theorem rawText_survives_iff (hooks : DecodingHooks) {s x y : Text} (hs : Utf16.WellFormed s)
    (hfree : ∀ c ∈ [percent, plusSign, ampersand, equalsSign], c ∉ s) (hx : Utf16.WellFormed x)
    (hpercent : percent ∉ x) :
    (queriedValue hooks s = .text (some s) ∧
        pctDecode hooks (x ++ y) = pctDecode hooks x ++ pctDecode hooks y) ↔
      ∀ u ∈ s, isSurrogate u = false := by
  simp only [List.forall_mem_cons] at hfree
  obtain ⟨hpercent', hplus, hampersand, -⟩ := hfree
  rw [queriedValue_eq hooks hampersand, pctDecode_raw hooks (unit_lt_of_wellFormed hs) hpercent',
    ← map_rawUnit_eq_self_iff hplus, SearchParams.Answer.text.injEq, Option.some.injEq]
  exact and_iff_left (pctDecode_append hooks (unit_lt_of_wellFormed hx) hpercent y)

/-! ## Standard UTF-8 -/

theorem encode_unit (u : Nat) :
    SearchParams.standardHooks.utf8Encode [u] =
      (String.utf8EncodeChar (Utf16.unitChar u)).map UInt8.toNat := by
  have hencode : Utf8.encode [Utf16.unitChar u] = String.utf8EncodeChar (Utf16.unitChar u) := by
    rw [Utf8.encode_cons]
    exact List.append_nil _
  exact congrArg (List.map UInt8.toNat) hencode

theorem run_encode (cs : List Char) (bs : List UInt8) :
    Utf8.decode (Utf8.encode cs ++ bs) = cs ++ Utf8.decode bs := by
  induction cs with
  | nil => rfl
  | cons c cs ih =>
    rw [Utf8.encode_cons, List.append_assoc, Utf8.decode, Utf8.run_utf8EncodeChar]
    exact congrArg (c :: ·) ih

theorem encode_ascii_unit (u : Nat) (hu : u < 0x80) :
    SearchParams.standardHooks.utf8Encode [u] = [u] := by
  have hbyte : (UInt8.ofNat u).toNat = u := Utf8.toNat_byte (by omega)
  have hchar : Utf16.unitChar u = Char.ofNat (UInt8.ofNat u).toNat := by
    rw [Utf16.unitChar, if_neg, hbyte]
    simp only [isSurrogate, Bool.and_eq_true, decide_eq_true_eq]
    omega
  rw [encode_unit, hchar, Utf8.utf8EncodeChar_ascii (by omega)]
  simp [hbyte]

theorem encode_lone_unit (u : Nat) (hu : isSurrogate u = true) :
    SearchParams.standardHooks.utf8Encode [u] = SearchParams.standardHooks.utf8Encode [0xFFFD] := by
  rw [encode_unit, encode_unit, Utf16.unitChar, if_pos hu]
  rfl

/-- The standard hooks decode what stands in front of other bytes. -/
def standardDecoding : DecodingHooks where
  toLosslessHooks := SearchParams.standardHooks.toLosslessHooks
  encode_ascii := encode_ascii_unit
  encode_lone := encode_lone_unit
  decode_append s bs hs := by
    obtain ⟨cs, rfl⟩ := hs
    have hbytes : ((Utf8.encode cs).map UInt8.toNat ++ bs).map UInt8.ofNat =
        Utf8.encode cs ++ bs.map UInt8.ofNat := by
      rw [List.map_append, Codec.map_ofNat_toNat]
    have hdecode : Utf16.encode (Utf8.decode (Utf8.encode cs ++ bs.map UInt8.ofNat)) =
        Utf16.encode cs ++ Utf16.encode (Utf8.decode (bs.map UInt8.ofNat)) := by
      rw [run_encode, Utf16.encode, List.flatMap_append]
      rfl
    simp only [SearchParams.standardHooks, Utf16.decode_encode, hbytes, hdecode]

/-- `'é'` alone, and in front of the same character percent-encoded. -/
theorem rawText_survives_accent :
    queriedValue standardDecoding [0xE9] = .text (some [0xE9]) ∧
      pctDecode standardDecoding ([0xE9] ++ units "%C3%A9") =
        pctDecode standardDecoding [0xE9] ++ pctDecode standardDecoding (units "%C3%A9") :=
  (rawText_survives_iff standardDecoding (wellFormed_unit (by decide) (by decide)) (by decide)
    (wellFormed_unit (by decide) (by decide)) (by decide)).mpr (by decide)

/-- U+1F600 is a pair of surrogates, each of which is replaced. -/
theorem rawText_pair_lost :
    Utf16.WellFormed [0xD83D, 0xDE00] ∧
      queriedValue standardDecoding [0xD83D, 0xDE00] = .text (some [0xFFFD, 0xFFFD]) := by
  refine ⟨⟨[Char.ofNat 0x1F600], by decide⟩, ?_⟩
  rw [queriedValue_eq standardDecoding (by decide),
    pctDecode_raw standardDecoding (by decide) (by decide)]
  decide

end Url
