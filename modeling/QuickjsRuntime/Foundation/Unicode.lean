import QuickjsRuntime.Foundation.Text

/-!
# UTF-16 and UTF-8

Texts as the two encoding forms see them. Encoding is per character; decoding never fails and
puts U+FFFD where the input is malformed, in UTF-8 once for each maximal part that could have
been the beginning of a character.
-/

/-- U+FFFD, which stands for what could not be decoded. -/
def Utf16.replacement : Char := Char.ofNat 0xFFFD

/-- The values that are characters. -/
theorem Char.toNat_cases (c : Char) :
    c.toNat < 0xD800 ∨ (0xDFFF < c.toNat ∧ c.toNat < 0x110000) :=
  c.valid

theorem Char.toNat_ofNat_of_valid {n : Nat} (h : n < 0xD800 ∨ (0xDFFF < n ∧ n < 0x110000)) :
    (Char.ofNat n).toNat = n := by
  have hvalid : n.isValidChar := h
  rw [Char.ofNat, dif_pos hvalid]
  rfl

/-! ## UTF-16 -/

namespace Utf16

/-- Two units that stand for one character. -/
def isPair (high low : Nat) : Bool :=
  0xD800 ≤ high && high ≤ 0xDBFF && 0xDC00 ≤ low && low ≤ 0xDFFF

def isSurrogate (u : Nat) : Bool :=
  0xD800 ≤ u && u ≤ 0xDFFF

def encodeChar (c : Char) : Text :=
  if c.toNat < 0x10000 then [c.toNat]
  else [0xD800 + (c.toNat - 0x10000) / 0x400, 0xDC00 + (c.toNat - 0x10000) % 0x400]

def encode (cs : List Char) : Text :=
  cs.flatMap encodeChar

/-- The character of one unit; a surrogate has none. -/
def unitChar (u : Nat) : Char :=
  if isSurrogate u then replacement else Char.ofNat u

def decode : Text → List Char
  | [] => []
  | [u] => [unitChar u]
  | u :: v :: rest =>
    if isPair u v then
      Char.ofNat (0x10000 + (u - 0xD800) * 0x400 + (v - 0xDC00)) :: decode rest
    else unitChar u :: decode (v :: rest)

/-- Texts without lone surrogates. -/
def WellFormed (s : Text) : Prop :=
  ∃ cs, s = encode cs

theorem encode_cons (c : Char) (cs : List Char) : encode (c :: cs) = encodeChar c ++ encode cs :=
  List.flatMap_cons

theorem wellFormed_encode (cs : List Char) : WellFormed (encode cs) :=
  ⟨cs, rfl⟩

theorem decode_cons_of_not_surrogate {u : Nat} (hu : isSurrogate u = false) (rest : Text) :
    decode (u :: rest) = Char.ofNat u :: decode rest := by
  have hunit : unitChar u = Char.ofNat u := by
    rw [unitChar, if_neg (by simp [hu])]
  have hpair : ∀ v, isPair u v = false := by
    intro v
    simp only [isSurrogate, isPair, Bool.and_eq_false_iff, decide_eq_false_iff_not] at hu ⊢
    omega
  cases rest with
  | nil => simp only [decode, hunit]
  | cons v rest => rw [decode, if_neg (by simp [hpair]), hunit]

theorem decode_encodeChar (c : Char) (rest : Text) :
    decode (encodeChar c ++ rest) = c :: decode rest := by
  have hvalid := c.toNat_cases
  unfold encodeChar
  split
  next hsmall =>
    have hunit : isSurrogate c.toNat = false := by
      simp only [isSurrogate, Bool.and_eq_false_iff, decide_eq_false_iff_not]
      omega
    rw [List.singleton_append, decode_cons_of_not_surrogate hunit, Char.ofNat_toNat]
  next hlarge =>
    have hpair : isPair (0xD800 + (c.toNat - 0x10000) / 0x400)
        (0xDC00 + (c.toNat - 0x10000) % 0x400) = true := by
      simp only [isPair, Bool.and_eq_true, decide_eq_true_eq]
      omega
    have hvalue : 0x10000 + (0xD800 + (c.toNat - 0x10000) / 0x400 - 0xD800) * 0x400 +
        (0xDC00 + (c.toNat - 0x10000) % 0x400 - 0xDC00) = c.toNat := by
      omega
    rw [List.cons_append, List.cons_append, List.nil_append, decode, if_pos hpair, hvalue,
      Char.ofNat_toNat]

theorem decode_encode (cs : List Char) : decode (encode cs) = cs := by
  induction cs with
  | nil => rfl
  | cons c cs ih => rw [encode_cons, decode_encodeChar, ih]

theorem encode_injective {cs ds : List Char} (h : encode cs = encode ds) : cs = ds := by
  rw [← decode_encode cs, h, decode_encode]

theorem WellFormed.encode_decode {s : Text} (h : WellFormed s) : encode (decode s) = s := by
  obtain ⟨cs, rfl⟩ := h
  rw [decode_encode]

/-- A unit that is no surrogate begins a text when its character does. -/
theorem head_encode_iff {c : Char} (hc : c.toNat < 0x10000) {cs : List Char} :
    (encode cs).head? = some c.toNat ↔ cs.head? = some c := by
  cases cs with
  | nil => simp [encode]
  | cons d cs =>
    have hvalid := c.toNat_cases
    have hd := d.toNat_cases
    rw [encode_cons, encodeChar]
    split
    next => simp [Char.toNat_inj]
    next hlarge =>
      have hne : d ≠ c := by
        rintro rfl
        exact hlarge hc
      simp only [List.cons_append, List.head?_cons, Option.some.injEq, hne, iff_false]
      omega

theorem decode_of_lt {s : Text} (hs : ∀ u ∈ s, u < 0xD800) : decode s = s.map Char.ofNat := by
  induction s with
  | nil => rfl
  | cons u s ih =>
    simp only [List.forall_mem_cons] at hs
    have hunit : isSurrogate u = false := by
      simp only [isSurrogate, Bool.and_eq_false_iff, decide_eq_false_iff_not]
      omega
    rw [decode_cons_of_not_surrogate hunit, ih hs.2, List.map_cons]

theorem encode_map_ofNat {s : Text} (hs : ∀ u ∈ s, u < 0xD800) : encode (s.map Char.ofNat) = s := by
  induction s with
  | nil => rfl
  | cons u s ih =>
    simp only [List.forall_mem_cons] at hs
    have hvalue : (Char.ofNat u).toNat = u := Char.toNat_ofNat_of_valid (.inl hs.1)
    rw [List.map_cons, encode_cons, encodeChar, hvalue, if_pos (by omega), ih hs.2]
    rfl

/-- The characters of a text whose units are all small. -/
theorem toNat_lt_of_encode {cs : List Char} {n : Nat} (hn : n ≤ 0xD800)
    (h : ∀ u ∈ encode cs, u < n) : ∀ c ∈ cs, c.toNat < n := by
  intro c hc
  have hunits : ∀ u ∈ encodeChar c, u < n := by
    intro u hu
    exact h u (List.mem_flatMap.mpr ⟨c, hc, hu⟩)
  unfold encodeChar at hunits
  split at hunits
  next => exact hunits _ List.mem_cons_self
  next =>
    have hhigh := hunits _ List.mem_cons_self
    omega

end Utf16

/-! ## UTF-8 -/

namespace Utf8

open Utf16 (replacement)

def encode (cs : List Char) : List UInt8 :=
  cs.flatMap String.utf8EncodeChar

/-- Where the decoder stands: between characters, or inside one of which `needed` bytes are
missing. The bytes so far give `value`, and the next one must lie between the bounds. -/
inductive State where
  | start
  | inside (needed value lower upper : Nat)
deriving DecidableEq, Repr

/-- The first byte of a character; no character starts with a byte that is left over. -/
def first (b : Nat) : List Char × State :=
  if b ≤ 0x7F then ([Char.ofNat b], .start)
  else if 0xC2 ≤ b ∧ b ≤ 0xDF then ([], .inside 1 (b - 0xC0) 0x80 0xBF)
  else if 0xE0 ≤ b ∧ b ≤ 0xEF then
    ([], .inside 2 (b - 0xE0) (if b = 0xE0 then 0xA0 else 0x80) (if b = 0xED then 0x9F else 0xBF))
  else if 0xF0 ≤ b ∧ b ≤ 0xF4 then
    ([], .inside 3 (b - 0xF0) (if b = 0xF0 then 0x90 else 0x80) (if b = 0xF4 then 0x8F else 0xBF))
  else ([replacement], .start)

/-- One byte: what it completes, and where the decoder stands then. A byte that does not
continue a character ends it and may start the next one. -/
def feed : State → Nat → List Char × State
  | .start, b => first b
  | .inside needed value lower upper, b =>
    if lower ≤ b ∧ b ≤ upper then
      let value := value * 0x40 + (b - 0x80)
      if needed ≤ 1 then ([Char.ofNat value], .start)
      else ([], .inside (needed - 1) value 0x80 0xBF)
    else (replacement :: (first b).1, (first b).2)

def run : State → List UInt8 → List Char
  | .start, [] => []
  | .inside .., [] => [replacement]
  | s, b :: bs => (feed s b.toNat).1 ++ run (feed s b.toNat).2 bs

def decode (bs : List UInt8) : List Char :=
  run .start bs

/-- Byte sequences that some text is encoded as. -/
def Valid (bs : List UInt8) : Prop :=
  ∃ cs, bs = encode cs

theorem encode_cons (c : Char) (cs : List Char) :
    encode (c :: cs) = String.utf8EncodeChar c ++ encode cs :=
  List.flatMap_cons

theorem run_cons (s : State) (b : UInt8) (bs : List UInt8) :
    run s (b :: bs) = (feed s b.toNat).1 ++ run (feed s b.toNat).2 bs := by
  cases s <;> rfl

/-! ### Reading an encoded character -/

/-- The bytes of a character, by their number. -/
theorem utf8EncodeChar_cases (c : Char) :
    (c.toNat ≤ 0x7F ∧ String.utf8EncodeChar c = [UInt8.ofNat c.toNat]) ∨
    (0x80 ≤ c.toNat ∧ c.toNat ≤ 0x7FF ∧ String.utf8EncodeChar c =
      [UInt8.ofNat (0xC0 + c.toNat / 0x40), UInt8.ofNat (0x80 + c.toNat % 0x40)]) ∨
    (0x800 ≤ c.toNat ∧ c.toNat ≤ 0xFFFF ∧ String.utf8EncodeChar c =
      [UInt8.ofNat (0xE0 + c.toNat / 0x1000), UInt8.ofNat (0x80 + c.toNat / 0x40 % 0x40),
        UInt8.ofNat (0x80 + c.toNat % 0x40)]) ∨
    (0x10000 ≤ c.toNat ∧ c.toNat < 0x110000 ∧ String.utf8EncodeChar c =
      [UInt8.ofNat (0xF0 + c.toNat / 0x40000), UInt8.ofNat (0x80 + c.toNat / 0x1000 % 0x40),
        UInt8.ofNat (0x80 + c.toNat / 0x40 % 0x40), UInt8.ofNat (0x80 + c.toNat % 0x40)]) := by
  have hvalid := c.toNat_cases
  have hval : c.val.toNat = c.toNat := rfl
  unfold String.utf8EncodeChar
  simp only [hval]
  split
  next h => exact .inl ⟨h, rfl⟩
  next h1 =>
    split
    next h =>
      refine .inr (.inl ⟨by omega, h, ?_⟩)
      rw [show c.toNat / 64 % 0x20 + 0xc0 = 0xC0 + c.toNat / 0x40 by omega,
        show c.toNat % 0x40 + 0x80 = 0x80 + c.toNat % 0x40 by omega]
    next h2 =>
      split
      next h =>
        refine .inr (.inr (.inl ⟨by omega, h, ?_⟩))
        rw [show c.toNat / 4096 % 0x10 + 0xe0 = 0xE0 + c.toNat / 0x1000 by omega,
          show c.toNat / 64 % 0x40 + 0x80 = 0x80 + c.toNat / 0x40 % 0x40 by omega,
          show c.toNat % 0x40 + 0x80 = 0x80 + c.toNat % 0x40 by omega]
      next h3 =>
        refine .inr (.inr (.inr ⟨by omega, by omega, ?_⟩))
        rw [show c.toNat / 262144 % 0x08 + 0xf0 = 0xF0 + c.toNat / 0x40000 by omega,
          show c.toNat / 4096 % 0x40 + 0x80 = 0x80 + c.toNat / 0x1000 % 0x40 by omega,
          show c.toNat / 64 % 0x40 + 0x80 = 0x80 + c.toNat / 0x40 % 0x40 by omega,
          show c.toNat % 0x40 + 0x80 = 0x80 + c.toNat % 0x40 by omega]

theorem toNat_byte {n : Nat} (h : n < 0x100) : (UInt8.ofNat n).toNat = n := by
  rw [UInt8.toNat_ofNat']
  exact Nat.mod_eq_of_lt h

/-- A byte that continues a character, with more to come. -/
theorem run_inside_more {needed value lower upper n : Nat} (bs : List UInt8)
    (hn : lower ≤ n ∧ n ≤ upper) (hlt : n < 0x100) (hmore : 1 < needed) :
    run (.inside needed value lower upper) (UInt8.ofNat n :: bs) =
      run (.inside (needed - 1) (value * 0x40 + (n - 0x80)) 0x80 0xBF) bs := by
  rw [run_cons, toNat_byte hlt, feed, if_pos hn]
  simp only [if_neg (Nat.not_le.mpr hmore), List.nil_append]

/-- The byte that completes a character. -/
theorem run_inside_last {value n : Nat} (c : Char) (bs : List UInt8)
    (hn : 0x80 ≤ n ∧ n ≤ 0xBF) (hvalue : value * 0x40 + (n - 0x80) = c.toNat) :
    run (.inside 1 value 0x80 0xBF) (UInt8.ofNat n :: bs) = c :: run .start bs := by
  rw [run_cons, toNat_byte (by omega), feed, if_pos hn]
  simp only [hvalue, Nat.le_refl, if_true, Char.ofNat_toNat, List.singleton_append]

theorem run_utf8EncodeChar (c : Char) (bs : List UInt8) :
    run .start (String.utf8EncodeChar c ++ bs) = c :: run .start bs := by
  have hvalid := c.toNat_cases
  rcases utf8EncodeChar_cases c with ⟨h, henc⟩ | ⟨hl, hu, henc⟩ | ⟨hl, hu, henc⟩ | ⟨hl, hu, henc⟩
  · rw [henc, List.singleton_append, run_cons, toNat_byte (by omega), feed, first, if_pos h,
      Char.ofNat_toNat]
    rfl
  · rw [henc, List.cons_append, run_cons, toNat_byte (by omega), feed, first, if_neg (by omega),
      if_pos (by omega)]
    exact run_inside_last c bs (by omega) (by omega)
  · rw [henc, List.cons_append, run_cons, toNat_byte (by omega), feed, first, if_neg (by omega),
      if_neg (by omega), if_pos (by omega)]
    rw [List.nil_append, List.cons_append, run_inside_more _ (by split <;> split <;> omega)
      (by omega) (by omega)]
    exact run_inside_last c bs (by omega) (by omega)
  · rw [henc, List.cons_append, run_cons, toNat_byte (by omega), feed, first, if_neg (by omega),
      if_neg (by omega), if_neg (by omega), if_pos (by omega)]
    rw [List.nil_append, List.cons_append, run_inside_more _ (by split <;> split <;> omega)
      (by omega) (by omega), List.cons_append, run_inside_more _ (by omega) (by omega) (by omega)]
    exact run_inside_last c bs (by omega) (by omega)

theorem decode_encode (cs : List Char) : decode (encode cs) = cs := by
  induction cs with
  | nil => rfl
  | cons c cs ih =>
    rw [encode_cons, decode, run_utf8EncodeChar]
    exact congrArg _ ih

theorem encode_injective {cs ds : List Char} (h : encode cs = encode ds) : cs = ds := by
  rw [← decode_encode cs, h, decode_encode]

/-- A text begins with a character when its bytes begin with those of the character. -/
theorem utf8EncodeChar_prefix_iff {c : Char} {cs : List Char} :
    String.utf8EncodeChar c <+: encode cs ↔ cs.head? = some c := by
  constructor
  · rintro ⟨bs, hbs⟩
    rw [← decode_encode cs, ← hbs, decode, run_utf8EncodeChar]
    rfl
  · intro hhead
    obtain ⟨rest, rfl⟩ := List.head?_eq_some_iff.mp hhead
    rw [encode_cons]
    exact List.prefix_append _ _

/-! ### Decoding without replacement -/

/-- What has been read of a character that is `needed` bytes short: all ways to complete it
give a character that is encoded as what was read. -/
def Owes : Nat → List UInt8 → Nat → Nat → Nat → Prop
  | 0, _, _, _, _ => False
  | needed + 1, read, value, lower, upper => ∀ b : UInt8, lower ≤ b.toNat → b.toNat ≤ upper →
      if needed = 0 then
        String.utf8EncodeChar (Char.ofNat (value * 0x40 + (b.toNat - 0x80))) = read ++ [b]
      else Owes needed (read ++ [b]) (value * 0x40 + (b.toNat - 0x80)) 0x80 0xBF

/-- The bytes that the state stands for. -/
def Pending (read : List UInt8) : State → Prop
  | .start => read = []
  | .inside needed value lower upper => Owes needed read value lower upper

theorem pending_start : Pending [] .start := rfl

theorem byte_eq {b : UInt8} {n : Nat} (h : n = b.toNat) : UInt8.ofNat n = b := by
  rw [h, UInt8.ofNat_toNat]

theorem owes_two {b : UInt8} (hb : 0xC2 ≤ b.toNat ∧ b.toNat ≤ 0xDF) :
    Owes 1 [b] (b.toNat - 0xC0) 0x80 0xBF := by
  intro x hlower hupper
  rw [if_pos rfl]
  have hvalue := Char.toNat_ofNat_of_valid
    (n := (b.toNat - 0xC0) * 0x40 + (x.toNat - 0x80)) (by omega)
  rcases utf8EncodeChar_cases (Char.ofNat ((b.toNat - 0xC0) * 0x40 + (x.toNat - 0x80))) with
    ⟨h, -⟩ | ⟨-, -, henc⟩ | ⟨h, -⟩ | ⟨h, -⟩
  case inr.inl => rw [henc, hvalue, byte_eq (b := b) (by omega), byte_eq (b := x) (by omega)]; rfl
  all_goals omega

theorem owes_three {b : UInt8} (hb : 0xE0 ≤ b.toNat ∧ b.toNat ≤ 0xEF) :
    Owes 2 [b] (b.toNat - 0xE0) (if b.toNat = 0xE0 then 0xA0 else 0x80)
      (if b.toNat = 0xED then 0x9F else 0xBF) := by
  intro x hlower hupper
  rw [if_neg (by decide)]
  intro y hlower' hupper'
  rw [if_pos rfl]
  have hx : 0x80 ≤ x.toNat ∧ x.toNat ≤ 0xBF ∧ (b.toNat = 0xE0 → 0xA0 ≤ x.toNat) ∧
      (b.toNat = 0xED → x.toNat ≤ 0x9F) := by
    split at hlower <;> split at hupper <;> omega
  generalize hn : ((b.toNat - 0xE0) * 0x40 + (x.toNat - 0x80)) * 0x40 + (y.toNat - 0x80) = n
  have hvalue : (Char.ofNat n).toNat = n := Char.toNat_ofNat_of_valid (by omega)
  rcases utf8EncodeChar_cases (Char.ofNat n) with ⟨h, -⟩ | ⟨-, h, -⟩ | ⟨-, -, henc⟩ | ⟨h, -⟩
  case inr.inr.inl =>
    rw [henc, hvalue, byte_eq (b := b) (by omega), byte_eq (b := x) (by omega),
      byte_eq (b := y) (by omega)]
    rfl
  all_goals omega

theorem owes_four {b : UInt8} (hb : 0xF0 ≤ b.toNat ∧ b.toNat ≤ 0xF4) :
    Owes 3 [b] (b.toNat - 0xF0) (if b.toNat = 0xF0 then 0x90 else 0x80)
      (if b.toNat = 0xF4 then 0x8F else 0xBF) := by
  intro x hlower hupper
  rw [if_neg (by decide)]
  intro y hlower' hupper'
  rw [if_neg (by decide)]
  intro z hlower'' hupper''
  rw [if_pos rfl]
  have hx : 0x80 ≤ x.toNat ∧ x.toNat ≤ 0xBF ∧ (b.toNat = 0xF0 → 0x90 ≤ x.toNat) ∧
      (b.toNat = 0xF4 → x.toNat ≤ 0x8F) := by
    split at hlower <;> split at hupper <;> omega
  generalize hn : (((b.toNat - 0xF0) * 0x40 + (x.toNat - 0x80)) * 0x40 + (y.toNat - 0x80)) * 0x40 +
    (z.toNat - 0x80) = n
  have hvalue : (Char.ofNat n).toNat = n := Char.toNat_ofNat_of_valid (by omega)
  rcases utf8EncodeChar_cases (Char.ofNat n) with ⟨h, -⟩ | ⟨-, h, -⟩ | ⟨-, h, -⟩ | ⟨-, -, henc⟩
  case inr.inr.inr =>
    rw [henc, hvalue, byte_eq (b := b) (by omega), byte_eq (b := x) (by omega),
      byte_eq (b := y) (by omega), byte_eq (b := z) (by omega)]
    rfl
  all_goals omega

/-- The first byte of a character is replaced, stands for itself, or is pending. -/
theorem first_cases (b : UInt8) :
    replacement ∈ (first b.toNat).1 ∨
      (b.toNat ≤ 0x7F ∧ first b.toNat = ([Char.ofNat b.toNat], .start)) ∨
      ((first b.toNat).1 = [] ∧ Pending [b] (first b.toNat).2) := by
  unfold first
  split
  next h => exact .inr (.inl ⟨h, rfl⟩)
  split
  next h => exact .inr (.inr ⟨rfl, owes_two h⟩)
  split
  next h => exact .inr (.inr ⟨rfl, owes_three h⟩)
  split
  next h => exact .inr (.inr ⟨rfl, owes_four h⟩)
  · exact .inl List.mem_cons_self

theorem utf8EncodeChar_ascii {b : UInt8} (hb : b.toNat ≤ 0x7F) :
    String.utf8EncodeChar (Char.ofNat b.toNat) = [b] := by
  have hvalue : (Char.ofNat b.toNat).toNat = b.toNat := Char.toNat_ofNat_of_valid (by omega)
  rcases utf8EncodeChar_cases (Char.ofNat b.toNat) with ⟨-, henc⟩ | ⟨h, -⟩ | ⟨h, -⟩ | ⟨h, -⟩
  case inl => rw [henc, hvalue, UInt8.ofNat_toNat]
  all_goals omega

/-- Where nothing is replaced, encoding the output gives what was read. -/
theorem encode_run {read bs : List UInt8} {s : State} (hs : Pending read s)
    (hbs : replacement ∉ run s bs) : encode (run s bs) = read ++ bs := by
  induction bs generalizing read s with
  | nil =>
    cases s with
    | start =>
      rw [show read = [] from hs]
      rfl
    | inside => exact absurd List.mem_cons_self hbs
  | cons b bs ih =>
    rw [run_cons] at hbs ⊢
    rw [List.mem_append, not_or] at hbs
    cases s with
    | start =>
      rw [show read = [] from hs]
      rcases first_cases b with hfirst | ⟨hascii, hfirst⟩ | ⟨hfirst, hpending⟩
      · exact absurd hfirst hbs.1
      · simp only [feed, hfirst] at hbs ⊢
        rw [List.singleton_append, encode_cons, utf8EncodeChar_ascii hascii, ih pending_start hbs.2]
        rfl
      · simp only [feed] at hbs ⊢
        rw [hfirst, List.nil_append, ih hpending hbs.2]
        rfl
    | inside needed value lower upper =>
      cases needed with
      | zero => cases hs
      | succ needed =>
        rw [feed] at hbs ⊢
        by_cases hb : lower ≤ b.toNat ∧ b.toNat ≤ upper
        · rw [if_pos hb] at hbs ⊢
          have hnext := hs b hb.1 hb.2
          by_cases hlast : needed = 0
          · rw [if_pos hlast] at hnext
            simp only [hlast, Nat.zero_add, Nat.le_refl, if_true] at hbs ⊢
            rw [List.singleton_append, encode_cons, hnext, ih pending_start hbs.2]
            simp
          · rw [if_neg hlast] at hnext
            simp only [show ¬ needed + 1 ≤ 1 by omega, if_false] at hbs ⊢
            have hpending : Pending (read ++ [b]) (.inside needed
                (value * 0x40 + (b.toNat - 0x80)) 0x80 0xBF) := hnext
            rw [List.nil_append, Nat.add_sub_cancel, ih hpending hbs.2]
            simp
        · rw [if_neg hb] at hbs
          exact absurd List.mem_cons_self hbs.1

theorem encode_decode {bs : List UInt8} (h : replacement ∉ decode bs) : encode (decode bs) = bs :=
  encode_run pending_start h

/-! ### Sizes -/

/-- A character has at most as many UTF-16 units as UTF-8 bytes, and as many only in ASCII. -/
theorem length_encodeChar (c : Char) :
    (Utf16.encodeChar c).length ≤ (String.utf8EncodeChar c).length ∧
      ((Utf16.encodeChar c).length = (String.utf8EncodeChar c).length → c.toNat ≤ 0x7F) := by
  unfold Utf16.encodeChar
  rcases utf8EncodeChar_cases c with ⟨h, henc⟩ | ⟨hl, hu, henc⟩ | ⟨hl, hu, henc⟩ | ⟨hl, hu, henc⟩
  · rw [henc, if_pos (by omega)]
    exact ⟨by simp, fun _ => h⟩
  · rw [henc, if_pos (by omega)]
    exact ⟨by simp, by simp⟩
  · rw [henc, if_pos (by omega)]
    exact ⟨by simp, by simp⟩
  · rw [henc, if_neg (by omega)]
    exact ⟨by simp, by simp⟩

theorem length_encode (cs : List Char) :
    (Utf16.encode cs).length ≤ (encode cs).length ∧
      ((Utf16.encode cs).length = (encode cs).length → ∀ c ∈ cs, c.toNat ≤ 0x7F) := by
  induction cs with
  | nil => simp [Utf16.encode, encode]
  | cons c cs ih =>
    obtain ⟨hle, heq⟩ := length_encodeChar c
    rw [Utf16.encode_cons, encode_cons, List.length_append, List.length_append]
    refine ⟨by omega, fun hsame => ?_⟩
    intro d hd
    rcases List.mem_cons.mp hd with rfl | hd
    · exact heq (by omega)
    · exact ih.2 (by omega) d hd

/-! ### ASCII -/

theorem decode_ascii {bs : List UInt8} (h : ∀ b ∈ bs, b.toNat ≤ 0x7F) :
    decode bs = bs.map fun b => Char.ofNat b.toNat := by
  induction bs with
  | nil => rfl
  | cons b bs ih =>
    have hb := h b List.mem_cons_self
    rw [decode, run_cons, feed, first, if_pos hb, List.map_cons, ← ih]
    · rfl
    · intro x hx
      exact h x (List.mem_cons_of_mem _ hx)

theorem encode_ascii {cs : List Char} (h : ∀ c ∈ cs, c.toNat ≤ 0x7F) :
    ∀ b ∈ encode cs, b.toNat < 0x80 := by
  intro b hb
  obtain ⟨c, hc, hb⟩ := List.mem_flatMap.mp hb
  have hsmall := h c hc
  rcases utf8EncodeChar_cases c with ⟨-, henc⟩ | ⟨hl, -⟩ | ⟨hl, -⟩ | ⟨hl, -⟩
  case inl =>
    rw [henc, List.mem_singleton] at hb
    rw [hb, toNat_byte (by omega)]
    omega
  all_goals omega

end Utf8
