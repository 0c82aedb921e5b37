import QuickjsRuntime.Foundation.Congruential
import QuickjsRuntime.Foundation.Text

/-!
# The UUIDs of the fallback generator

`_pseudoRandom` and `_pseudoUuid` of `node_compat_fallbacks.dart`, behind `crypto.randomUUID`
where no hook is configured. The state is below `2 ^ 31` and its product with the multiplier
below `2 ^ 62`, so that natural numbers stand for the 64-bit integers of Dart.

A byte is the low end of the state, and the low end of such a generator repeats early: the bytes
come back after 256 draws, and the UUIDs after 16 calls.
-/

namespace Crypto

open Utf16 (Text units)

/-! ## Model -/

def uuidNibbleMask : Nat := 0x0F
def uuidVersion4 : Nat := 0x40
def uuidVariantMask : Nat := 0x3F
def uuidVariantBits : Nat := 0x80

def pseudoSeed : Nat := 0x2545F491
def pseudoMask : Nat := 0x7FFFFFFF

/-- The assignment to `_pseudoState` for one byte. -/
def pseudoNext (state : Nat) : Nat :=
  (state * 1103515245 + 12345) &&& pseudoMask

/-- `List.generate` over the low bytes of a state that each of them advances. -/
def generate (next : Nat → Nat) : Nat → Nat → List Nat × Nat
  | 0, state => ([], state)
  | count + 1, state =>
    let state := next state
    let (bytes, last) := generate next count state
    ((state &&& 0xFF) :: bytes, last)

/-- `_pseudoRandom`: the bytes and the state after them. -/
def pseudoRandom (count state : Nat) : List Nat × Nat :=
  generate pseudoNext count state

/-- The version and the variant, written over the bytes 6 and 8. -/
def stamp (bytes : List Nat) : List Nat :=
  let bytes := bytes.set 6 ((bytes.getD 6 0 &&& uuidNibbleMask) ||| uuidVersion4)
  bytes.set 8 ((bytes.getD 8 0 &&& uuidVariantMask) ||| uuidVariantBits)

/-- `b.toRadixString(16).padLeft(2, '0')` -/
def hex (b : Nat) : Text :=
  ((Nat.toDigits 16 b).leftpad 2 '0').map Char.toNat

def hyphen : Nat := 0x2D

/-- `s.substring(start, stop)` -/
def substring (s : Text) (start stop : Nat) : Text :=
  (s.take stop).drop start

/-- The five groups of digits. -/
def groups (s : Text) : Text :=
  substring s 0 8 ++ hyphen :: substring s 8 12 ++ hyphen :: substring s 12 16 ++
    hyphen :: substring s 16 20 ++ hyphen :: s.drop 20

/-- `_pseudoUuid`: the text and the state after it. -/
def pseudoUuid (state : Nat) : Text × Nat :=
  let draw := pseudoRandom 16 state
  (groups ((stamp draw.1).flatMap hex), draw.2)

/-- The state after a call of `crypto.randomUUID`. -/
def afterUuid (state : Nat) : Nat :=
  (pseudoUuid state).2

/-- What the call number `i` returns, counted from a state with nothing but these calls after
it. -/
def uuidAt (state i : Nat) : Text :=
  (pseudoUuid (afterUuid^[i] state)).1

/-- A state of the isolate: some number of bytes has been drawn. -/
def isolateState (drawn : Nat) : Nat :=
  pseudoNext^[drawn] pseudoSeed

/-- The version nibble is 4, the digit behind the second hyphen. -/
def HasVersion4 (uuid : Text) : Prop :=
  uuid[14]? = some 0x34

/-- The variant bits are 10, in the digit behind the third hyphen. -/
def HasVariant10 (uuid : Text) : Prop :=
  ∃ d ∈ units "89ab", uuid[19]? = some d

/-! ## The bytes -/

theorem pseudoNext_lt (state : Nat) : pseudoNext state < 2 ^ 31 :=
  Nat.lt_of_le_of_lt Nat.and_le_right (by decide)

theorem isolateState_lt (drawn : Nat) : isolateState drawn < 2 ^ 31 := by
  cases drawn with
  | zero => decide
  | succ drawn =>
    rw [isolateState, Function.iterate_succ_apply']
    exact pseudoNext_lt _

/-- The product stays within the 64 bits of the host's integers. -/
theorem isolateState_product_lt (drawn : Nat) :
    isolateState drawn * 1103515245 + 12345 < 2 ^ 63 := by
  have hstate := isolateState_lt drawn
  omega

theorem pseudoNext_eq_mod (state : Nat) :
    pseudoNext state = (state * 1103515245 + 12345) % 2 ^ 31 :=
  Nat.and_two_pow_sub_one_eq_mod _ 31

/-- The state follows the generator without a modulus, up to multiples of the modulus. -/
theorem iterate_pseudoNext_modEq (n state : Nat) :
    (pseudoNext^[n] state : ℤ) ≡
      (Congruential.step 1103515245 12345)^[n] state [ZMOD 2 ^ 31] := by
  induction n with
  | zero => exact Int.ModEq.refl _
  | succ n ih =>
    rw [Function.iterate_succ_apply', Function.iterate_succ_apply', pseudoNext_eq_mod,
      Congruential.step]
    push_cast
    refine (Int.mod_modEq _ _).trans ?_
    rw [mul_comm (1103515245 : ℤ)]
    exact (ih.mul_right _).add_right _

/-- The byte drawn in step `n`. -/
def byteAt (state n : Nat) : Nat :=
  pseudoNext^[n] state &&& 0xFF

theorem byteAt_eq_mod (state n : Nat) : byteAt state n = pseudoNext^[n] state % 2 ^ 8 :=
  Nat.and_two_pow_sub_one_eq_mod _ 8

theorem byteAt_lt (state n : Nat) : byteAt state n < 256 := by
  rw [byteAt_eq_mod]
  exact Nat.mod_lt _ (by decide)

/-- Bytes repeat after 256 draws and not before. -/
theorem byteAt_eq_iff (state i j : Nat) :
    byteAt state i = byteAt state j ↔ i ≡ j [MOD 2 ^ 8] := by
  have hlow (n : Nat) : (pseudoNext^[n] state : ℤ) ≡
      (Congruential.step 1103515245 12345)^[n] state [ZMOD 2 ^ 8] :=
    (iterate_pseudoNext_modEq n state).of_dvd (by decide)
  rw [← Congruential.iterate_modEq_iff (a := 1103515245) (c := 12345) (by decide) (by decide) 8 i j
    (state : ℤ), byteAt_eq_mod, byteAt_eq_mod]
  constructor
  · intro heq
    have hbytes : (pseudoNext^[i] state : ℤ) ≡ pseudoNext^[j] state [ZMOD 2 ^ 8] :=
      mod_cast Int.natCast_modEq_iff.mpr heq
    exact (hlow i).symm.trans (hbytes.trans (hlow j))
  · intro heq
    have hbytes : (pseudoNext^[i] state : ℤ) ≡ pseudoNext^[j] state [ZMOD 2 ^ 8] :=
      (hlow i).trans (heq.trans (hlow j).symm)
    exact Int.natCast_modEq_iff.mp (mod_cast hbytes)

theorem generate_eq (next : Nat → Nat) (count state : Nat) :
    generate next count state =
      ((List.range count).map fun k => next^[k + 1] state &&& 0xFF, next^[count] state) := by
  induction count generalizing state with
  | zero => rfl
  | succ count ih =>
    rw [generate, ih, List.range_succ_eq_map, List.map_cons, List.map_map]
    rfl

theorem iterate_afterUuid (state i : Nat) : afterUuid^[i] state = pseudoNext^[16 * i] state := by
  have hcall : afterUuid = pseudoNext^[16] := by
    funext state
    exact congrArg Prod.snd (generate_eq pseudoNext 16 state)
  rw [hcall, Function.iterate_mul]

/-- The call number `i` draws the bytes from `16 * i + 1` on. -/
def bytesAt (state i : Nat) : List Nat :=
  (List.range 16).map fun k => byteAt state (16 * i + (k + 1))

theorem uuidAt_eq (state i : Nat) :
    uuidAt state i = groups ((stamp (bytesAt state i)).flatMap hex) := by
  have hbytes (k : Nat) :
      byteAt (pseudoNext^[16 * i] state) (k + 1) = byteAt state (16 * i + (k + 1)) := by
    rw [byteAt, byteAt, ← Function.iterate_add_apply, Nat.add_comm (16 * i)]
  have hdraw : (pseudoRandom 16 (pseudoNext^[16 * i] state)).1 = bytesAt state i := by
    rw [pseudoRandom, generate_eq, bytesAt]
    exact List.map_congr_left fun k _ => hbytes k
  rw [uuidAt, iterate_afterUuid, ← hdraw]
  rfl

/-! ## The text -/

/-- A digit of a byte in hexadecimal. -/
def digit (d : Nat) : Nat :=
  (Nat.digitChar d).toNat

theorem hex_eq {b : Nat} (hb : b < 256) : hex b = [digit (b / 16), digit (b % 16)] := by
  have hall : ∀ b < 256, hex b = [digit (b / 16), digit (b % 16)] := by decide +kernel
  exact hall b hb

theorem digit_injective {d d' : Nat} (hd : d < 16) (hd' : d' < 16) (h : digit d = digit d') :
    d = d' := by
  have hall : ∀ d < 16, ∀ d' < 16, digit d = digit d' → d = d' := by decide
  exact hall d hd d' hd' h

theorem version_lt (b : Nat) : (b &&& uuidNibbleMask) ||| uuidVersion4 < 256 :=
  Nat.or_lt_two_pow (n := 8) (Nat.lt_of_le_of_lt Nat.and_le_right (by decide)) (by decide)

theorem variant_lt (b : Nat) : (b &&& uuidVariantMask) ||| uuidVariantBits < 256 :=
  Nat.or_lt_two_pow (n := 8) (Nat.lt_of_le_of_lt Nat.and_le_right (by decide)) (by decide)

theorem stamp_lt {bytes : List Nat} (hbytes : ∀ b ∈ bytes, b < 256) :
    ∀ b ∈ stamp bytes, b < 256 := by
  intro b hb
  rcases List.mem_or_eq_of_mem_set hb with hb | rfl
  · rcases List.mem_or_eq_of_mem_set hb with hb | rfl
    · exact hbytes b hb
    · exact version_lt _
  · exact variant_lt _

theorem length_flatMap_hex {bytes : List Nat} (hbytes : ∀ b ∈ bytes, b < 256) :
    (bytes.flatMap hex).length = 2 * bytes.length := by
  induction bytes with
  | nil => rfl
  | cons b bytes ih =>
    rw [List.flatMap_cons, List.length_append, hex_eq (hbytes b List.mem_cons_self),
      ih fun b hb => hbytes b (List.mem_cons_of_mem _ hb)]
    simp only [List.length_cons, List.length_nil]
    omega

/-- Every byte has its two digits. -/
theorem getElem?_flatMap_hex {bytes : List Nat} (hbytes : ∀ b ∈ bytes, b < 256) (k : Nat) :
    (bytes.flatMap hex)[2 * k]? = bytes[k]?.map (fun b => digit (b / 16)) ∧
      (bytes.flatMap hex)[2 * k + 1]? = bytes[k]?.map fun b => digit (b % 16) := by
  induction bytes generalizing k with
  | nil => simp
  | cons b bytes ih =>
    rw [List.flatMap_cons, hex_eq (hbytes b List.mem_cons_self)]
    cases k with
    | zero => simp
    | succ k => simpa [Nat.mul_succ] using ih (fun b hb => hbytes b (List.mem_cons_of_mem _ hb)) k

/-- Where the first digits of a UUID come from, and those behind the second and the third
hyphen. -/
theorem getElem?_groups {s : Text} (hs : s.length = 32) :
    (groups s)[0]? = s[0]? ∧ (groups s)[1]? = s[1]? ∧ (groups s)[14]? = s[12]? ∧
      (groups s)[19]? = s[16]? := by
  simp [groups, substring, hs]

theorem getElem?_stamp {bytes : List Nat} (hbytes : bytes.length = 16) :
    (stamp bytes)[0]? = bytes[0]? ∧
      (stamp bytes)[6]? = some ((bytes.getD 6 0 &&& uuidNibbleMask) ||| uuidVersion4) ∧
      (stamp bytes)[8]? = some ((bytes.getD 8 0 &&& uuidVariantMask) ||| uuidVariantBits) := by
  simp [stamp, hbytes]

/-! ## Calls -/

theorem bytesAt_lt (state i : Nat) : ∀ b ∈ bytesAt state i, b < 256 := by
  intro b hb
  obtain ⟨k, -, rfl⟩ := List.mem_map.mp hb
  exact byteAt_lt _ _

theorem length_bytesAt (state i : Nat) : (bytesAt state i).length = 16 := by
  simp [bytesAt]

/-- The digits of a UUID that are looked at. -/
theorem getElem?_uuidAt (state i : Nat) :
    (uuidAt state i)[0]? = some (digit (byteAt state (16 * i + 1) / 16)) ∧
      (uuidAt state i)[1]? = some (digit (byteAt state (16 * i + 1) % 16)) ∧
      (∃ b, (uuidAt state i)[14]? = some (digit (((b &&& uuidNibbleMask) ||| uuidVersion4) / 16))) ∧
      ∃ b, (uuidAt state i)[19]? =
        some (digit (((b &&& uuidVariantMask) ||| uuidVariantBits) / 16)) := by
  have hstamp := stamp_lt (bytesAt_lt state i)
  have hlength : (stamp (bytesAt state i)).length = 16 := by
    rw [stamp, List.length_set, List.length_set, length_bytesAt]
  have hdigits := getElem?_flatMap_hex hstamp
  obtain ⟨h0, h1, h14, h19⟩ := getElem?_groups (s := (stamp (bytesAt state i)).flatMap hex)
    (by rw [length_flatMap_hex hstamp, hlength])
  obtain ⟨hfirst, hversion, hvariant⟩ := getElem?_stamp (length_bytesAt state i)
  have hhead : (bytesAt state i)[0]? = some (byteAt state (16 * i + 1)) := by simp [bytesAt]
  rw [uuidAt_eq, h0, h1, h14, h19]
  refine ⟨?_, ?_, ⟨(bytesAt state i).getD 6 0, ?_⟩, ⟨(bytesAt state i).getD 8 0, ?_⟩⟩
  · rw [(hdigits 0).1, hfirst, hhead, Option.map_some]
  · rw [(hdigits 0).2, hfirst, hhead, Option.map_some]
  · rw [(hdigits 6).1, hversion, Option.map_some]
  · rw [(hdigits 8).1, hvariant, Option.map_some]

/-- The digit with the version, and the digit with the variant. -/
theorem digit_version (b : Nat) :
    digit (((b &&& uuidNibbleMask) ||| uuidVersion4) / 16) = 0x34 := by
  have hall : ∀ n < 16, digit ((n ||| uuidVersion4) / 16) = 0x34 := by decide
  exact hall _ (Nat.lt_of_le_of_lt Nat.and_le_right (by decide))

theorem digit_variant (b : Nat) :
    digit (((b &&& uuidVariantMask) ||| uuidVariantBits) / 16) ∈ units "89ab" := by
  have hall : ∀ n < 64, digit ((n ||| uuidVariantBits) / 16) ∈ units "89ab" := by decide
  exact hall _ (Nat.lt_of_le_of_lt Nat.and_le_right (by decide))

theorem uuidAt_marked (state i : Nat) :
    HasVersion4 (uuidAt state i) ∧ HasVariant10 (uuidAt state i) := by
  obtain ⟨-, -, ⟨b, hversion⟩, ⟨b', hvariant⟩⟩ := getElem?_uuidAt state i
  rw [digit_version] at hversion
  exact ⟨hversion, _, digit_variant b', hvariant⟩

theorem byte_eq_of_digits {b b' : Nat} (hb : b < 256) (hb' : b' < 256)
    (hhigh : digit (b / 16) = digit (b' / 16)) (hlow : digit (b % 16) = digit (b' % 16)) :
    b = b' := by
  have h1 := digit_injective (by omega) (by omega) hhigh
  have h2 := digit_injective (by omega) (by omega) hlow
  omega

/-- Two calls return the same UUID exactly when their numbers differ by a multiple of 16. -/
theorem uuidAt_eq_iff (state i j : Nat) : uuidAt state i = uuidAt state j ↔ i % 16 = j % 16 := by
  constructor
  · intro heq
    obtain ⟨hhigh, hlow, -⟩ := getElem?_uuidAt state i
    obtain ⟨hhigh', hlow', -⟩ := getElem?_uuidAt state j
    rw [heq, hhigh'] at hhigh
    rw [heq, hlow'] at hlow
    have hbyte := byte_eq_of_digits (byteAt_lt _ _) (byteAt_lt _ _) (Option.some.inj hhigh)
      (Option.some.inj hlow)
    have hmod : 16 * j + 1 ≡ 16 * i + 1 [MOD 2 ^ 8] := (byteAt_eq_iff _ _ _).mp hbyte
    unfold Nat.ModEq at hmod
    omega
  · intro hmod
    have hbytes : bytesAt state i = bytesAt state j := by
      apply List.map_congr_left
      intro k _
      apply (byteAt_eq_iff _ _ _).mpr
      unfold Nat.ModEq
      omega
    rw [uuidAt_eq, uuidAt_eq, hbytes]

/-- UUIDs carry their version and variant, and two of them differ exactly when the numbers of
their calls do not differ by a multiple of 16. -/
theorem uuids_differ_iff (drawn i j : Nat) :
    (uuidAt (isolateState drawn) i ≠ uuidAt (isolateState drawn) j ∧
      ∀ k, HasVersion4 (uuidAt (isolateState drawn) k) ∧
        HasVariant10 (uuidAt (isolateState drawn) k)) ↔ i % 16 ≠ j % 16 := by
  rw [Ne, uuidAt_eq_iff]
  exact and_iff_left fun k => uuidAt_marked _ k

/-- The seventeenth UUID is the first one again. -/
theorem uuid_repeats : uuidAt (isolateState 0) 0 = uuidAt (isolateState 0) 16 :=
  (uuidAt_eq_iff _ _ _).mpr rfl

example : uuidAt (isolateState 0) 0 = units "f6f764cd-8293-40c9-8eef-fc85da0be801" := by decide

end Crypto
