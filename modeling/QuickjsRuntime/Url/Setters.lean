import QuickjsRuntime.Url.Reread

/-!
# URL components and their setters

The getters and setters of `URLRecord` in `node_compat_url.dart`, over the state object. A
setter is *contained* when the new `href` parses again and nothing but the assigned
component has changed; the claim of the accessors is that this holds for every URL whose
`href` parses back to its own components (`Stable`).
-/

namespace Url

open Utf16 (Text units isSpace isDigit decimal digitsValue decimal_ne_nil digitsValue_decimal)
open Split (splitFirst splitLast)

variable {env : Platform}

/-! ## Getters -/

inductive Component where
  | protocol
  | username
  | password
  | hostname
  | port
  | pathname
  | search
  | hash
deriving DecidableEq, Repr

/-- The value of a getter. -/
def Record.component (r : Record) : Component → Text
  | .protocol => r.scheme ++ [colon]
  | .username => r.username
  | .password => r.password
  | .hostname => r.host
  | .port => (r.port.map decimal).getD []
  | .pathname => r.pathname
  | .search => optionalText questionMark (r.search.getD [])
  | .hash => optionalText numberSign (r.hash.getD [])

theorem forall_component {p : Component → Prop} :
    (∀ c, p c) ↔ p .protocol ∧ p .username ∧ p .password ∧ p .hostname ∧ p .port ∧
      p .pathname ∧ p .search ∧ p .hash := by
  constructor
  · intro h
    exact ⟨h _, h _, h _, h _, h _, h _, h _, h _⟩
  · rintro ⟨h1, h2, h3, h4, h5, h6, h7, h8⟩ c
    cases c <;> assumption

theorem decimal_inj {m n : Nat} : decimal m = decimal n ↔ m = n := by
  constructor
  · intro h
    rw [← digitsValue_decimal m, h, digitsValue_decimal]
  · rintro rfl
    rfl

theorem portValue_inj {p q : Option Nat} :
    (p.map decimal).getD [] = (q.map decimal).getD [] ↔ p = q := by
  cases p with
  | none => cases q <;> simp [(decimal_ne_nil _).symm]
  | some m => cases q <;> simp [decimal_ne_nil, decimal_inj]

/-! ## Setters -/

inductive Setter where
  | username
  | password
  | hostname
  | host
  | port
  | pathname
  | search
  | hash
deriving DecidableEq, Repr

/-- The components a setter is meant for. -/
def Setter.assigns : Setter → Component → Bool
  | .username, c => c = .username
  | .password, c => c = .password
  | .hostname, c => c = .hostname
  | .host, c => c = .hostname || c = .port
  | .port, c => c = .port
  | .pathname, c => c = .pathname
  | .search, c => c = .search
  | .hash, c => c = .hash

/-- `parseInt(s, 10)`; `none` is `NaN`. -/
def parseInt (s : Text) : Option Int :=
  let s := s.dropWhile isSpace
  let negative := s.head? = some 0x2D
  let s := if s.head? = some 0x2D ∨ s.head? = some 0x2B then s.tail else s
  let digits := s.takeWhile isDigit
  if digits = [] then none
  else if negative then some (-(digitsValue digits : Int)) else some (digitsValue digits)

/-- The port after an assignment of `v`. -/
def assignedPort (scheme : Text) (port : Option Nat) (v : Text) : Option Nat :=
  if v = [] then none
  else
    match parseInt v with
    | none => port
    | some n =>
      if n < 0 ∨ 65535 < n then port
      else if defaultPortOf scheme = some n.toNat then none
      else some n.toNat

/-- A value without the sign that introduces the component. -/
def dropMark (c : Nat) (v : Text) : Text :=
  if v.head? = some c then v.tail else v

/-- The path after an assignment of `v`. -/
def assignedPath (env : Platform) (scheme v : Text) : Text :=
  if v = [] then (if isSpecial scheme then [slash] else []) else encodePath env v

/-- A query or fragment after an assignment of `v`. -/
def assignedPart (env : Platform) (c : Nat) (v : Text) : Option Text :=
  if v = [] then none else some (encodeSet env (dropMark c v) false)

def assign (env : Platform) (setter : Setter) (v : Text) (r : Record) : Record :=
  match setter with
  | .username => { r with username := encodeSet env v false }
  | .password => { r with password := encodeSet env v false }
  | .hostname => { r with host := env.toLowerCase v }
  | .host =>
    match parseUrl env (units "x-scheme://" ++ v) none with
    | none => r
    | some st => { r with host := st.host, port := st.port }
  | .port => { r with port := assignedPort r.scheme r.port v }
  | .pathname => { r with pathname := assignedPath env r.scheme v }
  | .search => { r with search := assignedPart env questionMark v }
  | .hash => { r with hash := assignedPart env numberSign v }

/-- The state object itself keeps its other components. -/
theorem assign_component (setter : Setter) (v : Text) (r : Record) {c : Component}
    (hc : setter.assigns c = false) : (assign env setter v r).component c = r.component c := by
  cases setter
  case host =>
    rw [assign]
    split
    · rfl
    · cases c <;> first | rfl | exact absurd hc (by decide)
  all_goals cases c <;> first | rfl | exact absurd hc (by decide)

/-! ## Credentials in the text -/

/-- The credentials of a URL, with the texts that are printed for them. -/
def credentialsText (username password : Text) : Text :=
  if username ≠ [] ∨ password ≠ [] then username ++ (optionalText colon password ++ [atSign])
  else []

theorem userinfoText_eq_credentialsText (username password : Text) :
    userinfoText env username password =
      credentialsText (encodeSet env username false) (encodeSet env password false) := by
  simp only [userinfoText, credentialsText, optionalText, ne_eq, encodeSet_eq_nil_iff]

/-- The text of a URL in which these texts are printed for its credentials. -/
def Record.printedWith (r : Record) (username password : Text) : Text :=
  r.scheme ++ colon :: ((if r.showsAuthority then [slash, slash] else []) ++
    (credentialsText username password ++ hostText r.host r.port ++ r.tailText))

theorem serialize_eq_printedWith (r : Record) :
    serialize env r =
      r.printedWith (encodeSet env r.username false) (encodeSet env r.password false) := by
  rw [serialize, Record.restText, Record.authorityText, userinfoText_eq_credentialsText]
  rfl

/-- Which characters an encoded text consists of. -/
theorem mem_encodeSet {isPath : Bool} {s : Text} {c : Nat} (hc : c ∈ encodeSet env s isPath) :
    0x21 ≤ c ∧ c ≤ 0x7E ∧ c ≠ 0x22 ∧ c ≠ 0x3C ∧ c ≠ 0x3E ∧ c ≠ 0x60 ∧
      (isPath = true → c ≠ questionMark ∧ c ≠ numberSign) := by
  have hkept := must_of_mem_encodeSet hc
  simp only [must, Bool.or_eq_false_iff, decide_eq_false_iff_not, Bool.and_eq_false_imp] at hkept
  obtain ⟨⟨⟨⟨⟨⟨hlow, hhigh⟩, hquote⟩, hless⟩, hgreater⟩, hbackquote⟩, hdelimiter⟩ := hkept
  exact ⟨by omega, by omega, hquote, hless, hgreater, hbackquote, hdelimiter⟩

/-- Encoding an encoded text changes nothing, since all its characters are printable and none
needs encoding; so `serialize` prints credentials as their setters have stored them. -/
theorem encodeSet_settles (env : Platform) (s : Text) (isPath : Bool) :
    encodeSet env (encodeSet env s isPath) isPath = encodeSet env s isPath ∧
      (∀ c ∈ encodeSet env s isPath,
        0x21 ≤ c ∧ c ≤ 0x7E ∧ c ≠ 0x22 ∧ c ≠ 0x3C ∧ c ≠ 0x3E ∧ c ≠ 0x60 ∧
          (isPath = true → c ≠ questionMark ∧ c ≠ numberSign)) ∧
      ∀ r : Record,
        serialize env (assign env .username s r) =
            (assign env .username s r).printedWith (assign env .username s r).username
              (encodeSet env r.password false) ∧
          serialize env (assign env .password s r) =
            (assign env .password s r).printedWith (encodeSet env r.username false)
              (assign env .password s r).password := by
  refine ⟨encodeSet_encodeSet, fun _ => mem_encodeSet, ?_⟩
  intro r
  have hagain : encodeSet env (encodeSet env s false) false = encodeSet env s false :=
    encodeSet_encodeSet
  constructor
  · rw [serialize_eq_printedWith]
    simp only [assign, hagain]
  · rw [serialize_eq_printedWith]
    simp only [assign, hagain]

/-! ## The frame property -/

/-- The `href` parses back to the URL's own components. -/
def Stable (env : Platform) (r : Record) : Prop :=
  ∃ w, parseUrl env (serialize env r) none = some w ∧ ∀ c, w.component c = r.component c

/-- After the assignment `href` parses, and all other components are as before, in the
object and in what is parsed. -/
def Contained (env : Platform) (setter : Setter) (v : Text) (r : Record) : Prop :=
  ∃ w, parseUrl env (serialize env (assign env setter v r)) none = some w ∧
    ∀ c, setter.assigns c = false →
      w.component c = r.component c ∧ (assign env setter v r).component c = r.component c

/-- The components that the setter does not assign are the same. -/
def Setter.Leaves (setter : Setter) (w r : Record) : Prop :=
  ∀ c, setter.assigns c = false → w.component c = r.component c

theorem contained_iff {setter : Setter} {v : Text} {r : Record} :
    Contained env setter v r ↔
      ∃ w, parseUrl env (serialize env (assign env setter v r)) none = some w ∧
        setter.Leaves w r := by
  constructor
  · rintro ⟨w, hparse, hkept⟩
    exact ⟨w, hparse, fun c hc => (hkept c hc).1⟩
  · rintro ⟨w, hparse, hkept⟩
    exact ⟨w, hparse, fun c hc => ⟨hkept c hc, assign_component setter v r hc⟩⟩

/-- What a setter has to leave, field by field. -/
theorem kept_fields_iff {w r : Record} (setter : Setter) (hscheme : w.scheme = r.scheme) :
    setter.Leaves w r ↔
      (setter.assigns .username = false → w.username = r.username) ∧
        (setter.assigns .password = false → w.password = r.password) ∧
        (setter.assigns .hostname = false → w.host = r.host) ∧
        (setter.assigns .port = false → w.port = r.port) ∧
        (setter.assigns .pathname = false → w.pathname = r.pathname) ∧
        (setter.assigns .search = false → w.search.getD [] = r.search.getD []) ∧
        (setter.assigns .hash = false → w.hash.getD [] = r.hash.getD []) := by
  rw [Setter.Leaves, forall_component]
  simp only [Record.component, hscheme, portValue_inj, optionalText_inj, implies_true, true_and]

end Url
