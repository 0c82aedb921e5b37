import QuickjsRuntime.Url.Fixpoint
import QuickjsRuntime.Url.RecordInvariant

/-!
# The entry points of `URL`

The constructor, `URL.canParse` and `URL.parse` of `node_compat_url.dart`. The first two take the
base in the same way. `URL.parse` makes a string of it before it calls the constructor: of `null`
the text `null`, which is no URL, and of a URL object its `href`, which need not parse back to the
object.
-/

namespace Url

open Utf16 (Text units)

/-! ## Bases -/

/-- A URL object. Whatever is assigned to it, its scheme is one that can be read. -/
structure UrlObject (env : Engine) where
  state : Record
  scheme : ValidScheme env state.scheme

inductive Base (env : Engine) where
  | undefined
  | null
  | text (s : Text)
  | object (u : UrlObject env)

variable {env : Engine}

/-- The record of the base, if there is one; `none` where the constructor of `URLRecord` throws. -/
def baseRecord (env : Engine) : Base env → Option (Option Record)
  | .undefined | .null => some none
  | .text s => if s = [] then some none else (parseUrl env s none).map some
  | .object u => some (some u.state)

/-- `new URL(input, base)`; `none` where it throws. -/
def URL (env : Engine) (input : Text) (base : Base env) : Option Record :=
  (baseRecord env base).bind fun b => parseUrl env input b

def URL.canParse (env : Engine) (input : Text) (base : Base env) : Bool :=
  match baseRecord env base with
  | none => false
  | some b => (parseUrl env input b).isSome

/-- The base that `URL.parse` gives to the constructor. -/
def stringBase : Base env → Base env
  | .undefined => .undefined
  | .null => .text (units "null")
  | .text s => .text s
  | .object u => .text (serialize env u.state)

/-- `URL.parse(input, base)`; `none` where it throws, `some none` where it returns `null`. -/
def URL.parse (env : Engine) (input : Text) (base : Base env) : Option (Option Record) :=
  if URL.canParse env input base = false then some none
  else (URL env input (stringBase base)).map some

theorem validScheme_parseUrl {input : Text} {base : Option Record} {r : Record}
    (hbase : ∀ b ∈ base, ValidScheme env b.scheme)
    (h : parseUrl env input base = some r) :
    ValidScheme env r.scheme := by
  unfold parseUrl at h
  cases hsplit : splitScheme (stripC0 input) with
  | some q =>
    rw [hsplit] at h
    rw [readRest_scheme h]
    exact validScheme_lower env hsplit
  | none =>
    rw [hsplit] at h
    obtain ⟨b, hb, hresolve⟩ := Option.bind_eq_some_iff.mp h
    have hscheme := hbase b hb
    cases ht : stripC0 input with
    | nil =>
      rw [ht, resolveAgainst] at hresolve
      cases hresolve
      exact hscheme
    | cons c rest =>
      rw [ht, resolveAgainst] at hresolve
      split at hresolve
      · rw [readRest_scheme hresolve]
        exact hscheme
      · -- the other branches keep the scheme of the base
        repeat' split at hresolve
        all_goals
          cases hresolve
          exact hscheme

theorem validScheme_protocol {r : Record} (h : ValidScheme env r.scheme) (v : Text) :
    ValidScheme env (assignProtocol env v r).scheme := by
  unfold assignProtocol
  split
  · exact h
  · next name hname =>
      dsimp only
      split
      · exact h
      · cases v with
        | nil => cases hname
        | cons c v =>
          rw [protocolName] at hname
          split at hname
          next hletter =>
            cases hname
            -- the name is read like the scheme of a text that starts with it
            have hchar : isSchemeChar c = true := by simp [isSchemeChar, hletter]
            have hchars : ∀ x ∈ (c :: v).takeWhile isSchemeChar, isSchemeChar x = true :=
              fun x hx => List.mem_takeWhile_imp hx
            have hsplit := splitScheme_append
              ⟨c, v.takeWhile isSchemeChar, List.takeWhile_cons_of_pos hchar, hletter⟩ hchars []
            exact validScheme_lower env hsplit
          · cases hname

theorem assign_scheme (setter : Setter) (v : Text) (r : Record) :
    (assign env setter v r).scheme = r.scheme := by
  cases setter <;> simp only [assign]
  all_goals
    repeat' split
    all_goals rfl

/-- Every URL object that a script makes and assigns to has a scheme that can be read. -/
theorem Script.validScheme (script : Script) {r : Record}
    (h : script.eval env = some r) : ValidScheme env r.scheme := by
  induction script generalizing r with
  | new input => exact validScheme_parseUrl (by simp) h
  | resolve input base ih =>
    obtain ⟨b, hb, hparse⟩ := Option.bind_eq_some_iff.mp h
    apply validScheme_parseUrl _ hparse
    intro b' hb'
    cases hb'
    exact ih hb
  | assign target accessor v ih =>
    obtain ⟨t, ht, rfl⟩ := Option.map_eq_some_iff.mp h
    have hscheme := ih ht
    cases accessor with
    | href =>
      change ValidScheme env ((parseUrl env v none).getD t).scheme
      cases hparse : parseUrl env v none with
      | none => exact hscheme
      | some w => exact validScheme_parseUrl (by simp) hparse
    | protocol => exact validScheme_protocol hscheme v
    | part setter =>
      change ValidScheme env (Url.assign env setter v t).scheme
      rw [assign_scheme]
      exact hscheme

/-! ## Objects that are read back -/

/-- An authority whose text is read as it. -/
structure Authority.Canonical (env : Platform) (scheme : Text) (a : Authority) : Prop where
  username : ∀ c ∈ a.username, notDelimiter c = true ∧ c ≠ colon ∧ must false c = false
  password : ∀ c ∈ a.password, notDelimiter c = true ∧ must false c = false
  host : ∀ c ∈ a.host, notDelimiter c = true ∧ c ≠ atSign
  host_lower : env.toLowerCase a.host = a.host
  not_local : ¬ (isFile scheme = true ∧ a.host = units "localhost")
  port : ∀ n ∈ a.port, n ≤ 65535 ∧ defaultPortOf scheme ≠ some n
  /-- a port stands behind a host, and not behind brackets -/
  portless : a.host = [] → a.port = none
  host_with_port : a.port ≠ none → splitBracket a.host = none
  /-- a host without a port does not end in something that looks like one -/
  host_alone : a.port = none → splitHostPort a.host = (a.host, [])

def Authority.text (env : Platform) (a : Authority) : Text :=
  userinfoText env a.username a.password ++ hostText a.host a.port

/-- Records that are printed as a text which is cut where they are put together. The credentials,
the host and the port may be cut differently if that makes no difference to their text. -/
structure Record.Rereadable (env : Platform) (r : Record) : Prop where
  authority : ∃ a : Authority, a.Canonical env r.scheme ∧ a.text env = r.authorityText env
  shown : r.showsAuthority = true →
    isSpecial r.scheme = true ∨ isFile r.scheme = true ∨ r.authorityText env ≠ []
  fits : r.PathFits
  path : storedPath env r.scheme r.pathname = r.pathname
  search : numberSign ∉ r.search.getD []
  ends : Ends (r.authorityText env ++ r.tailText)

/-- Records that are printed alike, part by part. -/
structure Record.Alike (env : Platform) (w r : Record) : Prop where
  scheme : w.scheme = r.scheme
  shown : w.showsAuthority = r.showsAuthority
  authority : w.authorityText env = r.authorityText env
  pathname : w.pathname = r.pathname
  search : w.search.getD [] = r.search.getD []
  hash : w.hash.getD [] = r.hash.getD []

section Alike

variable {env : Platform} {w r x : Record}

theorem Record.Alike.tailText_eq (h : w.Alike env r) : w.tailText = r.tailText := by
  rw [Record.tailText, Record.tailText, h.pathname, h.search, h.hash]

theorem Record.Alike.serialize_eq (h : w.Alike env r) : serialize env w = serialize env r := by
  rw [serialize, serialize, Record.restText, Record.restText, h.shown, h.authority, h.tailText_eq,
    h.scheme]

theorem keptHost_eq_self_iff {scheme host : Text} :
    keptHost scheme host = host ↔ ¬ (isFile scheme = true ∧ host = units "localhost") := by
  unfold keptHost
  split
  next hlocal => simp [hlocal, units]
  next hlocal => simpa using hlocal

theorem keptPort_eq_self_iff {scheme : Text} {port : Option Nat} :
    keptPort scheme port = port ↔ ∀ n ∈ port, defaultPortOf scheme ≠ some n := by
  cases port with
  | none => simp [keptPort_none]
  | some n =>
    by_cases hdefault : defaultPortOf scheme = some n
    · simp [keptPort, isSpecial, hdefault]
    · simp [keptPort, Ne.symm hdefault, hdefault]

theorem Authority.Canonical.text_eq_nil_iff {scheme : Text} {a : Authority}
    (h : a.Canonical env scheme) : a.text env = [] ↔ a = emptyAuthority := by
  obtain ⟨username, password, host, port⟩ := a
  rw [Authority.text, List.append_eq_nil_iff, userinfoText_eq_nil_iff, hostText_eq_nil_iff]
  have hportless : host = [] → port = none := h.portless
  simp only [emptyAuthority, Authority.mk.injEq]
  tauto

def Record.withAuthority (r : Record) (a : Authority) : Record :=
  { r with username := a.username, password := a.password, host := a.host, port := a.port }

theorem Record.Rereadable.alike (h : r.Rereadable env) {a : Authority}
    (ha : a.Canonical env r.scheme) (htext : a.text env = r.authorityText env) :
    (r.withAuthority a).Alike env r := by
  refine ⟨rfl, ?_, htext, rfl, rfl, rfl⟩
  cases hshown : r.showsAuthority with
  | false =>
    rw [authorityText_of_hidden hshown, ha.text_eq_nil_iff] at htext
    obtain ⟨hspecial, hfile, -⟩ := showsAuthority_eq_false_iff.mp hshown
    subst htext
    exact showsAuthority_eq_false_iff.mpr ⟨hspecial, hfile, rfl, rfl, rfl, rfl⟩
  | true =>
    by_contra hhidden
    rw [Bool.not_eq_true] at hhidden
    obtain ⟨hspecial, hfile, -⟩ := showsAuthority_eq_false_iff.mp hhidden
    rcases h.shown hshown with hs | hf | hne
    · exact absurd hs (Bool.eq_false_iff.mp hspecial)
    · exact absurd hf (Bool.eq_false_iff.mp hfile)
    · exact hne (htext.symm.trans (authorityText_of_hidden hhidden))

theorem Record.Rereadable.settled (h : r.Rereadable env) (hscheme : ValidScheme env r.scheme)
    {a : Authority} (ha : a.Canonical env r.scheme) (htext : a.text env = r.authorityText env) :
    SettledRecord env (r.withAuthority a) := by
  have halike := h.alike ha htext
  have hparsed : ParsedRecord env (r.withAuthority a) := by
    constructor
    case username => exact fun c hc => (ha.username c hc).1
    case username_colon => exact fun hc => (ha.username _ hc).2.1 rfl
    case password => exact fun c hc => (ha.password c hc).1
    case host => exact fun c hc => (ha.host c hc).1
    case host_at => exact fun hc => (ha.host _ hc).2 rfl
    case host_lower => exact ha.host_lower
    case port_le => exact fun n hn => (ha.port n hn).1
    case path_kept =>
      intro c hc
      rw [halike.pathname, ← h.path] at hc
      exact must_of_mem_storedPath hc
    case search =>
      intro q hq
      have hsearch := h.search
      rwa [show r.search = some q from hq, Option.getD_some] at hsearch
  have hread : readHost env r.scheme (hostText a.host a.port) = some (a.host, a.port) := by
    refine (readHost_self_iff ha.host_lower (keptHost_eq_self_iff.mpr ha.not_local)
      (keptPort_eq_self_iff.mpr fun n hn => (ha.port n hn).2) hparsed.port_le).mpr ?_
    exact ⟨ha.portless, fun _ => ha.host_with_port, fun _ => ha.host_alone⟩
  constructor
  case toParsedRecord => exact hparsed
  case scheme => exact hscheme
  case fits =>
    rw [Record.PathFits, halike.shown]
    exact h.fits
  case ends =>
    rw [halike.authority]
    exact h.ends
  case authority =>
    exact hparsed.authority_iff.mpr ⟨fun c hc => (ha.username c hc).2.2,
      fun c hc => (ha.password c hc).2, hread⟩
  case path => exact h.path

/-- Of a base that is printed alike an input makes what is printed alike. -/
theorem Record.Alike.resolve (h : w.Alike env r) (reference : Text) :
    (resolveAgainst env w reference).map (serialize env) =
      (resolveAgainst env r reference).map (serialize env) := by
  cases reference with
  | nil => exact congrArg some h.serialize_eq
  | cons c rest =>
    simp only [resolveAgainst]
    repeat' split
    · rw [h.scheme]
    · exact congrArg some
        (serialize_eq ⟨h.scheme, h.shown, h.authority, h.pathname, h.search, rfl⟩)
    · exact congrArg some (serialize_eq ⟨h.scheme, h.shown, h.authority, h.pathname, rfl, rfl⟩)
    · exact congrArg some (serialize_eq ⟨h.scheme, h.shown, h.authority, rfl, rfl, rfl⟩)
    · rw [h.pathname]
      exact congrArg some (serialize_eq ⟨h.scheme, h.shown, h.authority, rfl, rfl, rfl⟩)

theorem Record.Alike.parse (h : w.Alike env r) (input : Text) :
    (parseUrl env input (some w)).map (serialize env) =
      (parseUrl env input (some r)).map (serialize env) := by
  unfold parseUrl
  cases splitScheme (stripC0 input) with
  | some q => rfl
  | none => exact h.resolve (stripC0 input)

/-- The text up to the path. -/
def Record.front (env : Platform) (r : Record) : Text :=
  r.scheme ++ colon :: ((if r.showsAuthority then [slash, slash] else []) ++ r.authorityText env)

end Alike

/-! ## Accepted inputs -/

end Url
