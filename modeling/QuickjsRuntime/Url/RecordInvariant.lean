import QuickjsRuntime.Url.Resolve
import QuickjsRuntime.Url.Setters
import QuickjsRuntime.Url.Stable
import QuickjsRuntime.Url.Pieces
import QuickjsRuntime.Url.RelativePath

/-!
# What holds of every URL object

A script makes URL objects with the constructor, with or without a base, and assigns to their
accessors. The state object is to stay well formed throughout: lower-case scheme and host, a
port in range that is not the default one, and for the special schemes a host and an absolute
path. Each step that can break this is named with the condition under which it does not.
-/

namespace Url

open Utf16 (Text units digitsValue)
open Split (splitFirst splitLast)

variable {env : Platform} {r : Record}

/-! ## All setters -/

/-- `/^([a-zA-Z][a-zA-Z0-9+.-]*):?/`: the name that is assigned to `protocol`. -/
def protocolName (v : Text) : Option Text :=
  match v with
  | [] => none
  | c :: _ => if isLetter c then some (v.takeWhile isSchemeChar) else none

/-- The setter of `protocol`: a special scheme stays special, and the port is kept unless it
is the default one of the new scheme. -/
def assignProtocol (env : Platform) (v : Text) (r : Record) : Record :=
  match protocolName v with
  | none => r
  | some name =>
    let scheme := env.toLowerCase name
    if isSpecial scheme ≠ isSpecial r.scheme then r
    else { r with scheme := scheme, port := keptPort scheme r.port }

/-- The setter of `href`: a text that does not parse is ignored. -/
def assignHref (env : Platform) (v : Text) (r : Record) : Record :=
  (parseUrl env v none).getD r

inductive Accessor where
  | href
  | protocol
  | part (setter : Setter)
deriving DecidableEq, Repr

def Accessor.set (env : Platform) (v : Text) (r : Record) : Accessor → Record
  | .href => assignHref env v r
  | .protocol => assignProtocol env v r
  | .part setter => assign env setter v r

/-! ## Scripts -/

/-- How a URL object has come about: constructor calls, where the base is a URL object or the
text of one, and assignments. -/
inductive Script where
  | new (input : Text)
  | resolve (input : Text) (base : Script)
  | assign (target : Script) (accessor : Accessor) (v : Text)
deriving DecidableEq, Repr

/-- The state object; `none` when a constructor throws. -/
def Script.eval (env : Platform) : Script → Option Record
  | .new input => parseUrl env input none
  | .resolve input base => (base.eval env).bind fun b => parseUrl env input (some b)
  | .assign target accessor v => (target.eval env).map fun r => accessor.set env v r

structure WellFormed (env : Platform) (r : Record) : Prop where
  scheme_lower : env.toLowerCase r.scheme = r.scheme
  host_lower : env.toLowerCase r.host = r.host
  port_le : ∀ n ∈ r.port, n ≤ 65535
  port_kept : ∀ n ∈ r.port, defaultPortOf r.scheme ≠ some n
  host_ne_nil : isSpecial r.scheme = true → r.host ≠ []
  path_absolute : isSpecial r.scheme = true → r.pathname.head? = some slash

/-- Every URL object on the way is well formed. -/
def Script.Sound (env : Platform) : Script → Prop
  | .new input => ∀ r, (Script.new input).eval env = some r → WellFormed env r
  | .resolve input base =>
    base.Sound env ∧ ∀ r, (Script.resolve input base).eval env = some r → WellFormed env r
  | .assign target accessor v =>
    target.Sound env ∧ ∀ r, (Script.assign target accessor v).eval env = some r → WellFormed env r

/-! ## The conditions on the steps -/

/-- A text for a special scheme that is accepted names a host. -/
def Pieces.HostGiven (p : Pieces) : Prop :=
  readPort p.portStr ≠ none → isSpecial p.scheme = true → p.host ≠ []

/-- The condition on the input of the constructor. -/
def InputAllowed (env : Platform) (input : Text) (base : Option Record) : Prop :=
  match splitScheme (stripC0 input) with
  | some (scheme, rest) => (restPieces env (env.toLowerCase scheme) rest).HostGiven
  | none => ∀ b ∈ base, ∀ rest, stripC0 input = slash :: slash :: rest →
      (restPieces env b.scheme rest).HostGiven

/-- The condition on a value that is assigned. -/
def ValueAllowed (env : Platform) (v : Text) (r : Record) : Accessor → Prop
  | .href => InputAllowed env v none
  | .part .hostname => isSpecial r.scheme = true → v ≠ []
  | .part .host => ∀ p ∈ pieces env (units "x-scheme://" ++ v), readPort p.portStr ≠ none →
      (isSpecial r.scheme = true → p.host ≠ []) ∧
        (p.portStr ≠ [] → defaultPortOf r.scheme ≠ some (digitsValue p.portStr))
  | .part .pathname => isSpecial r.scheme = true → v = [] ∨ v.head? = some slash
  | _ => True

/-- Every step of the script meets its condition. -/
def Script.Allowed (env : Platform) : Script → Prop
  | .new input => InputAllowed env input none
  | .resolve input base =>
    base.Allowed env ∧ ∀ b, base.eval env = some b → InputAllowed env input (some b)
  | .assign target accessor v =>
    target.Allowed env ∧ ∀ r, target.eval env = some r → ValueAllowed env v r accessor

/-! ## The constructor -/

theorem restPieces_scheme (scheme rest : Text) : (restPieces env scheme rest).scheme = scheme :=
  rfl

/-- What is read behind a lowered scheme is well formed exactly if it has a host where one is
needed. -/
theorem wellFormed_readRest_iff {scheme rest : Text} (hlower : env.toLowerCase scheme = scheme)
    (hread : readRest env scheme rest = some r) :
    WellFormed env r ↔ (restPieces env scheme rest).HostGiven := by
  have hparsed := parsedRecord_of_readRest hread
  have hscheme := readRest_scheme hread
  have hrecord := hread
  rw [readRest_eq_record] at hrecord
  obtain ⟨port, hport, hr⟩ := Option.map_eq_some_iff.mp hrecord
  have hhost : isSpecial scheme = true → r.host = (restPieces env scheme rest).host := by
    intro hspecial
    rw [← hr]
    exact keptHost_special hspecial _
  have hgiven : (restPieces env scheme rest).HostGiven ↔
      (isSpecial scheme = true → (restPieces env scheme rest).host ≠ []) := by
    simp [Pieces.HostGiven, hport, restPieces_scheme]
  rw [hgiven]
  constructor
  · intro hwell hspecial
    rw [← hhost hspecial]
    exact hwell.host_ne_nil (hscheme ▸ hspecial)
  · intro hne
    constructor
    case scheme_lower => rw [hscheme, hlower]
    case host_lower => exact hparsed.host_lower
    case port_le => exact hparsed.port_le
    case port_kept =>
      intro n hn
      rw [← hr] at hn
      rw [hscheme]
      intro hdefault
      have hspecial : isSpecial scheme = true := by rw [isSpecial, hdefault]; rfl
      exact (keptPort_eq_some hn).2 hspecial hdefault
    case host_ne_nil =>
      rw [hscheme]
      intro hspecial
      rw [hhost hspecial]
      exact hne hspecial
    case path_absolute =>
      rw [hscheme]
      intro hspecial
      exact (specialRecord_of_readRest hspecial hread).path_absolute

/-- Scheme, host and port decide, and the path for the special schemes. -/
theorem WellFormed.congr_authority {w : Record} (h : WellFormed env r)
    (hscheme : w.scheme = r.scheme) (hhost : w.host = r.host) (hport : w.port = r.port)
    (hpath : isSpecial r.scheme = true → w.pathname.head? = some slash) : WellFormed env w := by
  constructor
  case scheme_lower => rw [hscheme, h.scheme_lower]
  case host_lower => rw [hhost, h.host_lower]
  case port_le => exact hport ▸ h.port_le
  case port_kept => exact hport ▸ hscheme ▸ h.port_kept
  case host_ne_nil => exact hhost ▸ hscheme ▸ h.host_ne_nil
  case path_absolute => exact hscheme ▸ hpath

/-- A reference leaves a well-formed base well formed unless it names an authority without a
host. -/
theorem wellFormed_resolveAgainst_iff {base : Record} {input : Text} (hbase : WellFormed env base)
    (hresolve : resolveAgainst env base input = some r) :
    WellFormed env r ↔
      ∀ rest, input = slash :: slash :: rest → (restPieces env base.scheme rest).HostGiven := by
  -- all branches but the first keep the authority of the base
  have hkept : (∀ rest, input ≠ slash :: slash :: rest) → WellFormed env r →
      (WellFormed env r ↔ ∀ rest, input = slash :: slash :: rest →
        (restPieces env base.scheme rest).HostGiven) := by
    intro hnone hwell
    exact iff_of_true hwell fun rest hrest => absurd hrest (hnone rest)
  cases input with
  | nil =>
    cases hresolve
    exact hkept (by simp) hbase
  | cons c rest =>
    rw [resolveAgainst] at hresolve
    by_cases hslashes : c = slash ∧ rest.head? = some slash
    · rw [if_pos hslashes] at hresolve
      obtain ⟨text, rfl⟩ := List.head?_eq_some_iff.mp hslashes.2
      rw [wellFormed_readRest_iff hbase.scheme_lower hresolve, hslashes.1]
      simp
    have hnone : ∀ text, c :: rest ≠ slash :: slash :: text := by
      intro text heq
      cases heq
      exact hslashes ⟨rfl, rfl⟩
    apply hkept hnone
    rw [if_neg hslashes] at hresolve
    split at hresolve
    · cases hresolve
      exact hbase.congr_authority rfl rfl rfl hbase.path_absolute
    split at hresolve
    · cases hresolve
      exact hbase.congr_authority rfl rfl rfl hbase.path_absolute
    split at hresolve
    next hslash =>
      cases hresolve
      refine hbase.congr_authority rfl rfl rfl ?_
      intro _
      exact head_encodePath (by rw [hslash]; rfl)
    next =>
      cases hresolve
      refine hbase.congr_authority rfl rfl rfl ?_
      intro hspecial
      exact head_encodePath (head_directory (hbase.path_absolute hspecial) _)

theorem wellFormed_parseUrl_iff {input : Text} {base : Option Record}
    (hbase : ∀ b ∈ base, WellFormed env b) (hparse : parseUrl env input base = some r) :
    WellFormed env r ↔ InputAllowed env input base := by
  unfold parseUrl at hparse
  unfold InputAllowed
  cases hsplit : splitScheme (stripC0 input) with
  | some q =>
    rw [hsplit] at hparse
    exact wellFormed_readRest_iff (env.lower_lower q.1) hparse
  | none =>
    rw [hsplit] at hparse
    obtain ⟨b, rfl, hresolve⟩ := Option.bind_eq_some_iff.mp hparse
    rw [wellFormed_resolveAgainst_iff (hbase b rfl) hresolve]
    simp

/-- An input that is not accepted makes no object, and its condition holds. -/
theorem inputAllowed_of_none {input : Text} {base : Option Record}
    (h : parseUrl env input base = none) : InputAllowed env input base := by
  have hrest : ∀ scheme rest, readRest env scheme rest = none →
      (restPieces env scheme rest).HostGiven := by
    intro scheme rest hnone hport
    rw [readRest_eq_record, Pieces.record, Option.map_eq_none_iff] at hnone
    exact absurd hnone hport
  unfold parseUrl at h
  unfold InputAllowed
  cases hsplit : splitScheme (stripC0 input) with
  | some q =>
    rw [hsplit] at h
    exact hrest _ _ h
  | none =>
    rw [hsplit] at h
    rintro b rfl rest hinput
    rw [Option.bind_some, hinput, resolveAgainst, if_pos ⟨rfl, rfl⟩] at h
    exact hrest _ _ h

theorem wellFormed_of_parse_iff {input : Text} {base : Option Record}
    (hbase : ∀ b ∈ base, WellFormed env b) :
    (∀ r, parseUrl env input base = some r → WellFormed env r) ↔ InputAllowed env input base := by
  cases hparse : parseUrl env input base with
  | none => simp [inputAllowed_of_none hparse]
  | some r =>
    rw [← wellFormed_parseUrl_iff hbase hparse]
    simp

/-! ## The setters -/

theorem wellFormed_assignProtocol (h : WellFormed env r) (v : Text) :
    WellFormed env (assignProtocol env v r) := by
  unfold assignProtocol
  split
  · exact h
  next name _ =>
    dsimp only
    split
    · exact h
    next hspecial =>
      rw [ne_eq, not_not] at hspecial
      constructor
      case scheme_lower => exact env.lower_lower name
      case host_lower => exact h.host_lower
      case port_le =>
        intro n hn
        exact h.port_le n (keptPort_eq_some hn).1
      case port_kept =>
        intro n hn hdefault
        refine (keptPort_eq_some hn).2 ?_ hdefault
        rw [isSpecial, hdefault]
        rfl
      case host_ne_nil =>
        intro hnew
        exact h.host_ne_nil (hspecial ▸ hnew)
      case path_absolute =>
        intro hnew
        exact h.path_absolute (hspecial ▸ hnew)

theorem wellFormed_assignPort (h : WellFormed env r) (v : Text) :
    WellFormed env { r with port := assignedPort r.scheme r.port v } := by
  have hport : ∀ n ∈ assignedPort r.scheme r.port v,
      n ≤ 65535 ∧ defaultPortOf r.scheme ≠ some n := by
    intro n hn
    unfold assignedPort at hn
    split at hn
    · cases hn
    split at hn
    · exact ⟨h.port_le n hn, h.port_kept n hn⟩
    next m _ =>
      split at hn
      · exact ⟨h.port_le n hn, h.port_kept n hn⟩
      next hrange =>
        split at hn
        · cases hn
        next hdefault =>
          obtain rfl : m.toNat = n := Option.some.inj hn
          exact ⟨by omega, hdefault⟩
  exact ⟨h.scheme_lower, h.host_lower, fun n hn => (hport n hn).1, fun n hn => (hport n hn).2,
    h.host_ne_nil, h.path_absolute⟩

theorem wellFormed_assignPath_iff (h : WellFormed env r) (v : Text) :
    WellFormed env { r with pathname := assignedPath env r.scheme v } ↔
      (isSpecial r.scheme = true → v = [] ∨ v.head? = some slash) := by
  have hpath : isSpecial r.scheme = true →
      ((assignedPath env r.scheme v).head? = some slash ↔ v = [] ∨ v.head? = some slash) := by
    intro hspecial
    unfold assignedPath
    by_cases hv : v = []
    · simp [hv, hspecial]
    · simp [hv, head_encodePath_iff]
  constructor
  · intro hwell hspecial
    exact (hpath hspecial).mp (hwell.path_absolute hspecial)
  · intro hv
    refine h.congr_authority rfl rfl rfl ?_
    intro hspecial
    exact (hpath hspecial).mpr (hv hspecial)

theorem wellFormed_assignHostname_iff (h : WellFormed env r) (v : Text) :
    WellFormed env { r with host := env.toLowerCase v } ↔ (isSpecial r.scheme = true → v ≠ []) := by
  constructor
  · rintro hwell hspecial rfl
    exact hwell.host_ne_nil hspecial env.lower_nil
  · intro hv
    exact ⟨h.scheme_lower, env.lower_lower v, h.port_le, h.port_kept,
      fun hspecial => env.lower_ne_nil v (hv hspecial), h.path_absolute⟩

/-- The pieces of the text that the setter of `host` parses. -/
def hostPieces (env : Platform) (v : Text) : Pieces :=
  restPieces env (units "x-scheme") ((slash :: slash :: v).rdropWhile isC0)

theorem pieces_xScheme (v : Text) :
    pieces env (units "x-scheme://" ++ v) = some (hostPieces env v) := by
  have hstarts : ∃ c t, units "x-scheme" = c :: t ∧ isLetter c = true := ⟨_, _, rfl, by decide⟩
  have hvisible : ∃ c t, units "x-scheme" = c :: t ∧ isC0 c = false := ⟨_, _, rfl, by decide⟩
  have hstrip := stripC0_append hvisible (slash :: slash :: v)
  have hsplit := splitScheme_append hstarts (by decide) ((slash :: slash :: v).rdropWhile isC0)
  have hlower : env.toLowerCase (units "x-scheme") = units "x-scheme" :=
    env.lower_ascii _ (by decide)
  have htext : units "x-scheme://" ++ v = units "x-scheme" ++ colon :: slash :: slash :: v := rfl
  rw [pieces, htext, hstrip, hsplit, Option.map_some, hlower, hostPieces]

theorem wellFormed_assignHost_iff (h : WellFormed env r) (v : Text) :
    WellFormed env (assign env .host v r) ↔ ValueAllowed env v r (.part .host) := by
  have hassign : assign env .host v r =
      ((hostPieces env v).record env).elim r
        fun st => { r with host := st.host, port := st.port } := by
    rw [assign, parseUrl_eq_pieces, pieces_xScheme, Option.bind_some]
    cases (hostPieces env v).record env <;> rfl
  have hallowed : ValueAllowed env v r (.part .host) ↔
      (readPort (hostPieces env v).portStr ≠ none →
        (isSpecial r.scheme = true → (hostPieces env v).host ≠ []) ∧
          ((hostPieces env v).portStr ≠ [] →
            defaultPortOf r.scheme ≠ some (digitsValue (hostPieces env v).portStr))) := by
    simp only [ValueAllowed, pieces_xScheme, Option.mem_def, Option.some.injEq, forall_eq']
  rw [hassign, hallowed, Pieces.record]
  cases hport : readPort (hostPieces env v).portStr with
  | none => simpa using h
  | some port =>
    -- for a scheme that is not special nothing of host and port is left out
    have hhost : keptHost (units "x-scheme") (hostPieces env v).host = (hostPieces env v).host :=
      if_neg fun hfile => absurd hfile.1 (by decide)
    have hkept : keptPort (units "x-scheme") port = port :=
      if_neg fun hspecial => absurd hspecial.1 (by decide)
    have hlower : env.toLowerCase (hostPieces env v).host = (hostPieces env v).host :=
      env.lower_lower _
    have hdigits : ∀ n ∈ port, n ≤ 65535 ∧ (hostPieces env v).portStr ≠ [] ∧
        digitsValue (hostPieces env v).portStr = n := by
      rintro n rfl
      obtain ⟨hle, -, hvalue⟩ := readPort_le hport
      refine ⟨hle, ?_, hvalue⟩
      intro hnil
      rw [readPort_none_iff.mpr hnil] at hport
      cases hport
    have hscheme : (hostPieces env v).scheme = units "x-scheme" := rfl
    simp only [Option.map_some, Option.elim_some, hscheme, hhost, hkept, ne_eq, reduceCtorEq,
      not_false_eq_true, true_imp_iff]
    constructor
    · intro hwell
      refine ⟨hwell.host_ne_nil, fun hne => ?_⟩
      cases hcase : port with
      | none =>
        rw [hcase, readPort_none_iff] at hport
        exact absurd hport hne
      | some n =>
        rw [(hdigits n hcase).2.2]
        exact hwell.port_kept n hcase
    · rintro ⟨hne, hdefault⟩
      refine ⟨h.scheme_lower, hlower, fun n hn => (hdigits n hn).1, ?_, hne, h.path_absolute⟩
      intro n hn
      obtain ⟨-, hstr, hvalue⟩ := hdigits n hn
      rw [← hvalue]
      exact hdefault hstr

/-- An assignment keeps a record well formed exactly where its condition holds. -/
theorem wellFormed_set_iff (h : WellFormed env r) (v : Text) (accessor : Accessor) :
    WellFormed env (accessor.set env v r) ↔ ValueAllowed env v r accessor := by
  cases accessor with
  | href =>
    rw [Accessor.set, assignHref, ValueAllowed, ← wellFormed_of_parse_iff (by simp)]
    cases parseUrl env v none with
    | none => simpa using h
    | some w => simp
  | protocol => exact iff_of_true (wellFormed_assignProtocol h v) trivial
  | part setter =>
    cases setter with
    | host => exact wellFormed_assignHost_iff h v
    | hostname => exact wellFormed_assignHostname_iff h v
    | pathname => exact wellFormed_assignPath_iff h v
    | port => exact iff_of_true (wellFormed_assignPort h v) trivial
    | username => exact iff_of_true (h.congr_authority rfl rfl rfl h.path_absolute) trivial
    | password => exact iff_of_true (h.congr_authority rfl rfl rfl h.path_absolute) trivial
    | search => exact iff_of_true (h.congr_authority rfl rfl rfl h.path_absolute) trivial
    | hash => exact iff_of_true (h.congr_authority rfl rfl rfl h.path_absolute) trivial

/-! ## Whole scripts -/

theorem Script.Sound.wellFormed {s : Script} (h : s.Sound env) (heval : s.eval env = some r) :
    WellFormed env r := by
  cases s with
  | new input => exact h r heval
  | resolve input base => exact h.2 r heval
  | assign target accessor v => exact h.2 r heval

/-- All URL objects of a script are well formed exactly if all its steps meet their
conditions. -/
theorem script_sound_iff (env : Platform) (s : Script) : s.Sound env ↔ s.Allowed env := by
  induction s with
  | new input => exact wellFormed_of_parse_iff (by simp)
  | resolve input base ih =>
    rw [Script.Sound, Script.Allowed, ← ih]
    apply and_congr_right
    intro hsound
    rw [Script.eval]
    cases hbase : base.eval env with
    | none => simp
    | some b =>
      have hb : ∀ b' ∈ some b, WellFormed env b' := by
        intro b' hb'
        cases hb'
        exact hsound.wellFormed hbase
      simpa using wellFormed_of_parse_iff hb
  | assign target accessor v ih =>
    rw [Script.Sound, Script.Allowed, ← ih]
    apply and_congr_right
    intro hsound
    rw [Script.eval]
    cases htarget : target.eval env with
    | none => simp
    | some r => simpa using wellFormed_set_iff (hsound.wellFormed htarget) v accessor

/-- `new URL('http://')` has no host; from `http://h/`, assigning `h:80` to `host` stores the
default port, the empty text to `hostname` removes the host, and `a` to `pathname` stores a
path without a slash. -/
theorem records_not_wellFormed :
    ¬ (Script.new (units "http://")).Sound asciiPlatform ∧
      ¬ (Script.assign (.new (units "http://h/")) (.part .host) (units "h:80")).Sound
        asciiPlatform ∧
      ¬ (Script.assign (.new (units "http://h/")) (.part .hostname) []).Sound asciiPlatform ∧
      ¬ (Script.assign (.new (units "http://h/")) (.part .pathname) (units "a")).Sound
        asciiPlatform := by
  refine ⟨?_, ?_, ?_, ?_⟩
  · intro h
    exact (h.wellFormed (r := ⟨units "http", [], [], [], none, units "/", none, none⟩)
      (by decide)).host_ne_nil (by decide) rfl
  · intro h
    exact (h.wellFormed (r := ⟨units "http", [], [], units "h", some 80, units "/", none, none⟩)
      (by decide)).port_kept 80 rfl (by decide)
  · intro h
    exact (h.wellFormed (r := ⟨units "http", [], [], [], none, units "/", none, none⟩)
      (by decide)).host_ne_nil (by decide) rfl
  · intro h
    exact absurd ((h.wellFormed (r := ⟨units "http", [], [], units "h", none, units "a", none,
      none⟩) (by decide)).path_absolute (by decide)) (by decide)

end Url
