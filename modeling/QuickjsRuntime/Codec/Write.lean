import QuickjsRuntime.Codec.Buffer
import QuickjsRuntime.Codec.Copy

/-!
# `Buffer.write`

`parseWriteArgs` and `write` of `node_compat_buffer.dart`, over a buffer that is a view. The
documented forms are `write(str)`, `write(str, enc)` and `write(str, offset[, length][, enc])`. The
code looks for the length in the third argument and for the encoding in the fourth whatever is
there, so that an encoding behind an offset is read as the length 0. A length is reduced to 32
bits, which may make it negative.
-/

namespace Codec

open Utf16 (Text units)

/-! ## Arguments -/

inductive Arg where
  | undefined
  | null
  | number (n : Int)
  | string (s : Text)
deriving DecidableEq, Repr

/-- The table of the names of encodings. -/
def ENC : List (Text × Encoding) :=
  [(units "utf8", .utf8), (units "utf-8", .utf8), (units "utf16le", .utf16le),
    (units "utf-16le", .utf16le), (units "ucs2", .utf16le), (units "ucs-2", .utf16le),
    (units "utf16", .utf16le), (units "latin1", .latin1), (units "binary", .latin1),
    (units "ascii", .ascii), (units "hex", .hex), (units "base64", .base64),
    (units "base64url", .base64url)]

/-- What the code uses of the engine: lower-casing, which leaves lower-case ASCII alone, and the
integer that `s | 0` makes of a text, which is 0 for the name of an encoding. -/
structure Engine where
  toLowerCase : Text → Text
  stringToInt32 : Text → Int
  lower_self : ∀ s, (∀ c ∈ s, c < 0x80 ∧ ¬ (0x41 ≤ c ∧ c ≤ 0x5A)) → toLowerCase s = s
  name_not_number : ∀ s enc, ENC.lookup (toLowerCase s) = some enc → stringToInt32 s = 0

/-- `normEnc`, `none` where it throws. What the table inherits as an object is refused as well,
only later. -/
def normEnc (engine : Engine) : Arg → Option Encoding
  | .undefined | .null => some .utf8
  | .number _ => none
  | .string name => if name = [] then some .utf8 else ENC.lookup (engine.toLowerCase name)

/-- `arg | 0`, unless the argument is missing. -/
def Arg.toInt32 (engine : Engine) : Arg → Option Int
  | .undefined | .null => none
  | .number n => some (Codec.toInt32 n)
  | .string s => some (engine.stringToInt32 s)

/-! ## `write` -/

structure WriteArgs where
  offset : Int
  length : Int
  enc : Encoding
deriving DecidableEq, Repr

/-- The last lines of `parseWriteArgs`. -/
def clampArgs (engine : Engine) (offset length : Int) (encName : Arg) (len : Nat) :
    Option WriteArgs :=
  let offset := if offset < 0 then 0 else offset
  let offset := if offset > len then (len : Int) else offset
  let length := if length > len - offset then len - offset else length
  (normEnc engine encName).map fun enc => { offset := offset, length := length, enc := enc }

/-- `parseWriteArgs`, of the arguments after the string -/
def parseWriteArgs (engine : Engine) (args : List Arg) (len : Nat) : Option WriteArgs :=
  match args.getD 0 .undefined with
  | .string name => clampArgs engine 0 len (.string name) len
  | first =>
    clampArgs engine ((first.toInt32 engine).getD 0)
      (((args.getD 1 .undefined).toInt32 engine).getD len) (args.getD 2 .undefined) len

/-- The rounds of `write` before round `n`. -/
def writeRounds (v : View) (offset : Int) (bytes : List Nat) (m : Memory) : Nat → Memory
  | 0 => m
  | n + 1 =>
    v.set (writeRounds v offset bytes m n) (offset + n) (UInt8.ofNat (bytes.getD n 0))

/-- `v.write(str, ...args)`, where a string that is missing is empty. -/
def write (hooks : Hooks) (engine : Engine) (v : View) (str : Option Text) (args : List Arg)
    (m : Memory) : Option (Int × Memory) :=
  (parseWriteArgs engine args v.length).map fun p =>
    let bytes := bytesFromString hooks (str.getD []) p.enc
    let count := min (bytes.length : Int) p.length
    (count, writeRounds v p.offset bytes m count.toNat)

/-! ## The documented forms -/

/-- A name that stands for an encoding. -/
structure EncodingName (engine : Engine) where
  name : Text
  enc : Encoding
  named : ENC.lookup (engine.toLowerCase name) = some enc

/-- A call of one of the six forms: with nothing or an encoding behind the string, or with an
offset within the buffer, and behind it a length, an encoding, both or nothing. -/
inductive WriteForm (engine : Engine) (v : View) where
  | plain (enc : Option (EncodingName engine))
  | positioned (offset : Nat) (offset_le : offset ≤ v.length) (length : Option Nat)
      (enc : Option (EncodingName engine))

namespace WriteForm

variable {engine : Engine} {v : View}

def encArgs (enc : Option (EncodingName engine)) : List Arg :=
  (enc.map fun e => Arg.string e.name).toList

def args : WriteForm engine v → List Arg
  | plain enc => encArgs enc
  | positioned offset _ length enc =>
    .number offset :: ((length.map fun l => Arg.number l).toList ++ encArgs enc)

def offset : WriteForm engine v → Nat
  | plain _ => 0
  | positioned offset _ _ _ => offset

def length : WriteForm engine v → Option Nat
  | plain _ => none
  | positioned _ _ length _ => length

def enc : WriteForm engine v → Encoding
  | plain enc | positioned _ _ _ enc => (enc.map EncodingName.enc).getD .utf8

/-- The bytes that there are for the room behind the offset. -/
def available (form : WriteForm engine v) (hooks : Hooks) (s : Text) : Nat :=
  min (v.length - form.offset) (bytesFromString hooks s form.enc).length

/-- How many bytes are to be written. -/
def count (form : WriteForm engine v) (hooks : Hooks) (s : Text) : Nat :=
  min (form.length.getD v.length) (form.available hooks s)

/-- The first bytes of the encoded string are written at the offset, their number is returned, and
all other bytes are unchanged. -/
def Honoured (form : WriteForm engine v) (hooks : Hooks) (s : Text) (m : Memory) : Prop :=
  ∃ m', write hooks engine v (some s) form.args m = some ((form.count hooks s : Int), m') ∧
    (∀ i < form.count hooks s,
      m' (v.address (form.offset + i)) = (bufferFrom hooks s form.enc).getD i 0) ∧
    ∀ a, (∀ i < form.count hooks s, v.address (form.offset + i) ≠ a) → m' a = m a

/-- An encoding directly behind an offset has nothing to write, and a length is not reduced below
what there is to write. -/
def Resolved (form : WriteForm engine v) (hooks : Hooks) (s : Text) : Prop :=
  match form with
  | positioned offset h none (some e) =>
    (positioned offset h none (some e)).available hooks s = 0
  | positioned offset h (some l) enc =>
    l ≤ maxByteLength ∨
      ((positioned offset h (some l) enc).available hooks s : Int) ≤ Codec.toInt32 l
  | _ => True

/-! ## The rounds -/

theorem writeRounds_eq (form : WriteForm engine v) (bytes : List Nat) (m : Memory) {n : Nat}
    (hn : n ≤ v.length - form.offset) :
    writeRounds v form.offset bytes m n =
      Copying.storeLoop (fun i => v.address (form.offset + i))
        (fun i _ => UInt8.ofNat (bytes.getD i 0)) m n := by
  induction n with
  | zero => rfl
  | succ n ih =>
    have hroom : form.offset + n < v.length := by omega
    rw [writeRounds, ih (by omega), ← Int.natCast_add, v.set_natCast _ hroom]
    rfl

theorem address_offset_injective (form : WriteForm engine v) :
    Function.Injective fun i => v.address (form.offset + i) := by
  intro i j h
  exact Nat.add_left_cancel (v.address_injective h)

theorem getD_bufferFrom (hooks : Hooks) (s : Text) (enc : Encoding) {i : Nat}
    (hi : i < (bytesFromString hooks s enc).length) :
    UInt8.ofNat ((bytesFromString hooks s enc).getD i 0) = (bufferFrom hooks s enc).getD i 0 := by
  simp [bufferFrom, List.getD, hi]

/-- Once the arguments are parsed, only the number of bytes can be wrong. -/
theorem honoured_iff (form : WriteForm engine v) (hooks : Hooks) (s : Text) (m : Memory)
    {p : WriteArgs} (hparse : parseWriteArgs engine form.args v.length = some p)
    (hoffset : p.offset = form.offset) (henc : p.enc = form.enc ∨ p.length = 0) :
    form.Honoured hooks s m ↔
      min ((bytesFromString hooks s p.enc).length : Int) p.length = form.count hooks s := by
  have hwrite : write hooks engine v (some s) form.args m =
      some (min ((bytesFromString hooks s p.enc).length : Int) p.length,
        writeRounds v form.offset (bytesFromString hooks s p.enc) m
          (min ((bytesFromString hooks s p.enc).length : Int) p.length).toNat) := by
    rw [write, hparse, ← hoffset]
    rfl
  have hroom : form.count hooks s ≤ v.length - form.offset := by
    unfold count available
    omega
  constructor
  · rintro ⟨m', hm', -⟩
    rw [hwrite] at hm'
    exact congrArg Prod.fst (Option.some.inj hm')
  · intro hcount
    rw [hcount, Int.toNat_natCast, writeRounds_eq form _ m hroom] at hwrite
    refine ⟨_, hwrite, ?_, fun a ha => Copying.storeLoop_frame ha⟩
    intro i hi
    refine (Copying.storeLoop_dest form.address_offset_injective hi).trans ?_
    rcases henc with henc | hzero
    · rw [henc]
      apply getD_bufferFrom
      unfold count available at hi
      omega
    · -- nothing is written under the wrong encoding
      omega

/-! ## How the forms are parsed -/

theorem name_ne_nil (e : EncodingName engine) : e.name ≠ [] := by
  intro hnil
  have hnamed := e.named
  rw [hnil, engine.lower_self [] (by simp)] at hnamed
  have hnone : ENC.lookup ([] : Text) = none := by decide
  rw [hnone] at hnamed
  exact absurd hnamed (by simp)

theorem normEnc_encArgs (enc : Option (EncodingName engine)) :
    normEnc engine ((encArgs enc).getD 0 .undefined) =
      some ((enc.map EncodingName.enc).getD .utf8) := by
  cases enc with
  | none => rfl
  | some e =>
    simp only [encArgs, Option.map_some, Option.toList_some, List.getD_cons_zero, normEnc,
      if_neg (name_ne_nil e), e.named, Option.getD_some]

theorem clampArgs_eq {offset : Nat} (hoffset : offset ≤ v.length) (length : Int)
    {encName : Arg} {enc : Encoding} (henc : normEnc engine encName = some enc) :
    clampArgs engine offset length encName v.length =
      some ⟨offset, min length ((v.length - offset : Nat) : Int), enc⟩ := by
  have hlength :
      (if length > (v.length : Int) - offset then (v.length : Int) - offset else length) =
        min length ((v.length - offset : Nat) : Int) := by
    split <;> omega
  simp only [clampArgs, henc, Option.map_some]
  rw [if_neg (by omega), if_neg (by omega), hlength]

theorem parse_plain (enc : Option (EncodingName engine)) :
    parseWriteArgs engine (plain (v := v) enc).args v.length =
      some ⟨0, v.length, (plain (v := v) enc).enc⟩ := by
  have hclamp := clampArgs_eq (Nat.zero_le v.length) v.length (normEnc_encArgs enc)
  rw [Nat.sub_zero, Int.min_self] at hclamp
  cases enc with
  | none => exact hclamp
  | some e => exact hclamp

theorem offset_toInt32 {o : Nat} (ho : o ≤ v.length) : Codec.toInt32 o = o := by
  have hfits := v.fits
  exact toInt32_natCast (by omega)

theorem parse_number {o : Nat} (ho : o ≤ v.length) (rest : List Arg) :
    parseWriteArgs engine (.number o :: rest) v.length =
      clampArgs engine o (((rest.getD 0 .undefined).toInt32 engine).getD v.length)
        (rest.getD 1 .undefined) v.length := by
  simp only [parseWriteArgs, Arg.toInt32, List.getD_cons_zero, List.getD_cons_succ,
    Option.getD_some, offset_toInt32 ho]

/-- Behind an offset alone there is the rest of the buffer. -/
theorem parse_offset {o : Nat} (ho : o ≤ v.length) :
    parseWriteArgs engine (positioned o ho none (none : Option (EncodingName engine))).args
        v.length =
      some ⟨o, min (v.length : Int) ((v.length - o : Nat) : Int), .utf8⟩ :=
  (parse_number ho []).trans (clampArgs_eq ho v.length rfl)

theorem parse_length {o : Nat} (ho : o ≤ v.length) (l : Nat)
    (enc : Option (EncodingName engine)) :
    parseWriteArgs engine (positioned o ho (some l) enc).args v.length =
      some ⟨o, min (Codec.toInt32 l) ((v.length - o : Nat) : Int),
        (positioned o ho (some l) enc).enc⟩ := by
  have hclamp := clampArgs_eq ho (Codec.toInt32 l) (normEnc_encArgs enc)
  refine (parse_number ho (.number l :: encArgs enc)).trans ?_
  rw [List.getD_cons_zero, List.getD_cons_succ, Arg.toInt32, Option.getD_some, hclamp,
    WriteForm.enc]

/-- An encoding behind an offset is read as the length, and the encoding is missing. -/
theorem parse_offset_enc {o : Nat} (ho : o ≤ v.length) (e : EncodingName engine) :
    parseWriteArgs engine (positioned o ho none (some e)).args v.length = some ⟨o, 0, .utf8⟩ := by
  have hclamp : clampArgs engine o 0 .undefined v.length =
      some ⟨o, min 0 ((v.length - o : Nat) : Int), .utf8⟩ := clampArgs_eq ho 0 rfl
  rw [Int.min_eq_left (Int.natCast_nonneg _)] at hclamp
  refine (parse_number ho [.string e.name]).trans ?_
  rw [List.getD_cons_zero, Arg.toInt32, Option.getD_some,
    engine.name_not_number e.name e.enc e.named]
  exact hclamp

/-! ## When a call is honoured -/

/-- A length that is reduced only beyond `bound`, which no room exceeds, limits as it should unless
it is reduced below what there is to write. -/
theorem limited_iff {l room total bound : Nat} {reduced : Int}
    (hreduced : l ≤ bound → reduced = l) (hroom : room ≤ bound) :
    min (total : Int) (min reduced room) = (min l (min room total) : Nat) ↔
      l ≤ bound ∨ ((min room total : Nat) : Int) ≤ reduced := by
  by_cases hl : l ≤ bound
  · rw [hreduced hl]
    exact iff_of_true (by omega) (Or.inl hl)
  · omega

/-- A call writes what its form says exactly if its arguments are resolved as documented. -/
theorem write_honoured_iff (form : WriteForm engine v) (hooks : Hooks) (s : Text) (m : Memory) :
    form.Honoured hooks s m ↔ form.Resolved hooks s := by
  have hfits := v.fits
  cases form with
  | plain enc =>
    rw [honoured_iff _ hooks s m (parse_plain enc) rfl (Or.inl rfl)]
    refine iff_of_true ?_ trivial
    simp only [count, available, offset, length, Option.getD_none]
    omega
  | positioned o ho length enc =>
    match length, enc with
    | none, none =>
      rw [honoured_iff _ hooks s m (parse_offset ho) rfl (Or.inl rfl)]
      refine iff_of_true ?_ trivial
      change min ((bytesFromString hooks s .utf8).length : Int)
          (min (v.length : Int) ((v.length - o : Nat) : Int)) =
        ((min v.length (min (v.length - o) (bytesFromString hooks s .utf8).length) : Nat) : Int)
      omega
    | none, some e =>
      rw [honoured_iff _ hooks s m (parse_offset_enc ho e) rfl (Or.inr rfl)]
      have havailable : (positioned o ho none (some e)).available hooks s ≤ v.length :=
        Nat.le_trans (Nat.min_le_left _ _) (Nat.sub_le _ _)
      simp only [Resolved, count, WriteForm.length, Option.getD_none]
      omega
    | some l, enc =>
      rw [honoured_iff _ hooks s m (parse_length ho l enc) rfl (Or.inl rfl)]
      exact limited_iff toInt32_natCast (by omega)

end WriteForm

/-! ## A call that writes nothing -/

def isDecimal (c : Nat) : Bool :=
  0x30 ≤ c && c ≤ 0x39

/-- `s | 0` of decimal digits; other texts are not numbers here. -/
def digitsToInt32 (s : Text) : Int :=
  if s.all isDecimal then toInt32 (s.foldl (fun n c => 10 * n + (c - 0x30)) 0 : Nat) else 0

theorem lookup_digits {s : Text} (hs : s.all isDecimal) : ENC.lookup s = none := by
  rw [List.lookup_eq_none_iff]
  intro entry hentry
  have hkeys : ∀ entry ∈ ENC, entry.1.all isDecimal = false := by decide
  have hkey := hkeys entry hentry
  apply bne_iff_ne.mpr
  rintro rfl
  rw [hs] at hkey
  exact absurd hkey (by simp)

def lowerUnit (c : Nat) : Nat :=
  if 0x41 ≤ c ∧ c ≤ 0x5A then c + 0x20 else c

theorem isDecimal_lowerUnit {c : Nat} (hc : isDecimal c = true) :
    isDecimal (lowerUnit c) = true := by
  have hrange : 0x30 ≤ c ∧ c ≤ 0x39 := by simpa [isDecimal] using hc
  rw [lowerUnit, if_neg (by omega), hc]

/-- An engine of ASCII texts. -/
def decimalEngine : Engine where
  toLowerCase := List.map lowerUnit
  stringToInt32 := digitsToInt32
  lower_self := by
    intro s hs
    conv_rhs => rw [← List.map_id s]
    apply List.map_congr_left
    intro c hc
    exact if_neg (hs c hc).2
  name_not_number := by
    intro s enc hnamed
    apply if_neg
    intro hdigits
    have hlower : (s.map lowerUnit).all isDecimal = true := by
      simp only [List.all_map, List.all_eq_true] at hdigits ⊢
      exact fun c hc => isDecimal_lowerUnit (hdigits c hc)
    rw [lookup_digits hlower] at hnamed
    exact absurd hnamed (by simp)

def latin1Name : EncodingName decimalEngine := ⟨units "latin1", .latin1, by decide⟩

/-- `write('hi', 1, 'latin1')` of four bytes writes nothing, and `write('hi', 0, 2147483648)`
returns a negative number. -/
theorem write_offset_enc_lost :
    write ⟨id, id⟩ decimalEngine fourBytes (some (units "hi")) [.number 1, .string (units "latin1")]
        (fun _ => 7) = some (0, fun _ => 7) ∧
      ¬ (WriteForm.positioned (v := fourBytes) 1 (by decide) none (some latin1Name)).Honoured
        ⟨id, id⟩ (units "hi") (fun _ => 7) ∧
      write ⟨id, id⟩ decimalEngine fourBytes (some (units "hi")) [.number 0, .number 2147483648]
        (fun _ => 7) = some (-2147483648, fun _ => 7) := by
  have hlost : write ⟨id, id⟩ decimalEngine fourBytes (some (units "hi"))
      [.number 1, .string (units "latin1")] (fun _ => 7) = some (0, fun _ => 7) := rfl
  refine ⟨hlost, ?_, rfl⟩
  rintro ⟨m', hwrite, -⟩
  have hcount : (0 : Int) = 2 :=
    congrArg (fun result => (result.map Prod.fst).getD 0) (hlost.symm.trans hwrite)
  exact absurd hcount (by decide)

end Codec
