import QuickjsRuntime.Url.HostSetters
import QuickjsRuntime.Url.Pieces
import QuickjsRuntime.Url.RelativePath

/-!
# Parsing a printed URL again

When the record made from an input is printed as a text that parses back to it, said of the
pieces of the input. Credentials are printed encoded but stored as they are; a port is printed
only behind a host, and not in a form that is read behind brackets; a host may look as if it had
a port; and with the signs of an empty query or fragment what keeps the end of the text from
being stripped is lost.
-/

namespace Url

open Utf16 (Text units isDigit)
open Split (splitFirst splitLast)

/-- An engine that lowers ASCII texts letter by letter. -/
structure Engine extends Platform where
  lower_letters : ∀ s, (∀ c ∈ s, c < 0x80) → toLowerCase s = s.map asciiLower

instance : Coe Engine Platform := ⟨Engine.toPlatform⟩

def asciiEngine : Engine where
  toPlatform := asciiPlatform
  lower_letters := fun _ _ => rfl

/-! ## What holds of the pieces of every input -/

/-- The lowered scheme of an input is one that is read as it is. -/
theorem validScheme_lower (env : Engine) {input scheme rest : Text}
    (h : splitScheme input = some (scheme, rest)) :
    ValidScheme env (env.toLowerCase scheme) := by
  obtain ⟨-, ⟨c, t, rfl, hletter⟩, hchars⟩ := splitScheme_eq_some h
  have hascii : ∀ x ∈ c :: t, x < 0x80 := by
    intro x hx
    have hchar := hchars x hx
    simp only [isSchemeChar, isLetter, isDigit, Bool.or_eq_true, Bool.and_eq_true,
      decide_eq_true_eq] at hchar
    unfold dot at hchar
    omega
  have hlower : ∀ x, isLetter x = true → isLetter (asciiLower x) = true := by
    intro x hx
    simp only [isLetter, asciiLower, isUpper, Bool.or_eq_true, Bool.and_eq_true,
      decide_eq_true_eq] at hx ⊢
    split <;> omega
  refine ⟨⟨asciiLower c, t.map asciiLower, ?_, hlower c hletter⟩, ?_, env.lower_lower _⟩
  · exact env.lower_letters _ hascii
  · rw [env.lower_letters _ hascii]
    intro x hx
    obtain ⟨y, hy, rfl⟩ := List.mem_map.mp hx
    have hchar := hchars y hy
    by_cases hyletter : isLetter y = true
    · simp [isSchemeChar, hlower y hyletter]
    · have hsame : asciiLower y = y := by
        apply asciiLower_of_not_upper
        simp only [isLetter, isUpper, Bool.or_eq_true, Bool.and_eq_true, decide_eq_true_eq,
          Bool.and_eq_false_iff, decide_eq_false_iff_not] at hyletter ⊢
        omega
      rwa [hsame]

theorem ends_stripC0 (input : Text) : Ends (stripC0 input) := by
  have hend : Ends (input.rdropWhile isC0) := by
    apply ends_of_strip
    exact List.rdropWhile_idempotent isC0 input
  obtain ⟨front, hfront⟩ := List.dropWhile_suffix (p := isC0) (l := input.rdropWhile isC0)
  rw [stripC0]
  rw [← hfront] at hend
  exact hend.of_append

theorem splitRest_spec (scheme rest : Text) :
    ∃ front, rest = front ++ (splitRest scheme rest).2 ∧
      (((∀ c ∈ (splitRest scheme rest).2.head?, notDelimiter c = false) ∧
          ∀ c ∈ (splitRest scheme rest).1, notDelimiter c = true) ∨
        (isSpecial scheme = false ∧ isFile scheme = false ∧ (splitRest scheme rest).1 = [] ∧
          (splitRest scheme rest).2.take 2 ≠ [slash, slash])) := by
  unfold splitRest
  dsimp only
  by_cases hslashes : rest.take 2 = [slash, slash]
  · rw [if_pos (Or.inl hslashes), if_pos hslashes]
    refine ⟨rest.take 2 ++ (rest.drop 2).takeWhile notDelimiter, ?_, Or.inl ⟨?_, ?_⟩⟩
    · rw [List.append_assoc, List.takeWhile_append_dropWhile, List.take_append_drop]
    · exact Split.head_dropWhile
    · exact fun c hc => List.mem_takeWhile_imp hc
  · by_cases hscheme : isSpecial scheme = true ∨ isFile scheme = true
    · rw [if_pos (Or.inr hscheme), if_neg hslashes]
      refine ⟨rest.takeWhile notDelimiter, ?_, Or.inl ⟨?_, ?_⟩⟩
      · exact List.takeWhile_append_dropWhile.symm
      · exact Split.head_dropWhile
      · exact fun c hc => List.mem_takeWhile_imp hc
    · rw [if_neg (by simp [hslashes, hscheme]), if_neg hslashes]
      rw [not_or, Bool.not_eq_true, Bool.not_eq_true] at hscheme
      exact ⟨[], rfl, Or.inr ⟨hscheme.1, hscheme.2, rfl, hslashes⟩⟩

/-- What holds of the pieces of every input. -/
structure Pieces.Cut (env : Platform) (p : Pieces) : Prop where
  scheme : ValidScheme env p.scheme
  tail : Tail p.path p.query p.fragment
  fragment_ends : Ends (p.fragment.getD [])
  query_ends : p.fragment = none → Ends (p.query.getD [])
  path : (p.path ≠ [] → p.path.head? = some slash) ∨
    (isSpecial p.scheme = false ∧ isFile p.scheme = false ∧ p.username = [] ∧ p.password = [] ∧
      p.host = [] ∧ p.portStr = [] ∧ p.path.take 2 ≠ [slash, slash])

theorem cut_eq_of_tail {path : Text} {query fragment : Option Text} (h : Tail path query fragment) :
    cut numberSign (path ++ (marked questionMark query ++ marked numberSign fragment)) =
        (path ++ marked questionMark query, fragment) ∧
      cut questionMark (path ++ marked questionMark query) = (path, query) := by
  refine ⟨?_, cut_marked h.path_query query⟩
  rw [← List.append_assoc, cut_marked h.numberSign_not_mem]

theorem ends_marked {front part : Text} {c : Nat} (h : Ends (front ++ marked c (some part))) :
    Ends part := by
  have hmarked := h.of_append
  exact Ends.of_append (s := [c]) hmarked

theorem splitUserinfo_nil : splitUserinfo [] = ([], [], []) := rfl

theorem splitHostPort_nil : splitHostPort [] = ([], []) := rfl

theorem pieces_cut (env : Engine) {input : Text} {p : Pieces}
    (h : pieces env input = some p) : p.Cut env := by
  obtain ⟨⟨scheme, rest⟩, hscheme, rfl⟩ := Option.map_eq_some_iff.mp h
  have hends : Ends rest := by
    have hstripped := ends_stripC0 input
    rw [(splitScheme_eq_some hscheme).1] at hstripped
    exact Ends.of_append (s := [colon]) hstripped.of_append
  obtain ⟨front, hrest, hsplit⟩ := splitRest_spec (env.toLowerCase scheme) rest
  rw [hrest] at hends
  generalize hauthority : (splitRest (env.toLowerCase scheme) rest).1 = authority at hsplit
  generalize htext : (splitRest (env.toLowerCase scheme) rest).2 = text at hsplit hends
  have hpair : splitRest (env.toLowerCase scheme) rest = (authority, text) := by
    rw [← hauthority, ← htext]
  obtain ⟨path, query, fragment, htail, rfl⟩ := exists_tail text
  obtain ⟨hfragment, hquery⟩ := cut_eq_of_tail htail
  simp only [restPieces, hpair, hfragment, hquery]
  constructor
  case scheme => exact validScheme_lower env hscheme
  case tail => exact htail
  case fragment_ends =>
    cases fragment with
    | none => exact ends_nil
    | some f =>
      rw [← List.append_assoc, ← List.append_assoc] at hends
      exact ends_marked hends
  case query_ends =>
    intro hnone
    rw [show fragment = none from hnone] at hends
    cases query with
    | none => exact ends_nil
    | some q =>
      rw [marked, List.append_nil, ← List.append_assoc] at hends
      exact ends_marked hends
  case path =>
    rcases hsplit with ⟨hstops, -⟩ | ⟨hspecial, hfile, hnil, hslashes⟩
    · exact Or.inl (head_path htail hstops)
    · right
      -- without an authority there is nothing to read from it
      simp only [hnil, splitUserinfo_nil, splitHostPort_nil, env.lower_nil, true_and]
      refine ⟨hspecial, hfile, fun hpath => hslashes ?_⟩
      obtain ⟨q, rfl, hq⟩ := take_two_iff.mp hpath
      obtain ⟨r, rfl⟩ := List.head?_eq_some_iff.mp hq
      rfl

/-! ## Canonical inputs -/

/-- Nothing is stored that makes `serialize` print the slashes of an authority. -/
def Pieces.Hidden (p : Pieces) : Prop :=
  isSpecial p.scheme = false ∧ isFile p.scheme = false ∧ p.username = [] ∧ p.password = [] ∧
    p.host = [] ∧ p.Portless

/-- Inputs that are printed as a text with the same pieces. -/
structure Pieces.Canonical (p : Pieces) : Prop where
  /-- nothing in the credentials needs encoding -/
  username : ∀ c ∈ p.username, must false c = false
  password : ∀ c ∈ p.password, must false c = false
  /-- a port stands behind a host, and not behind brackets -/
  portless : p.Hostless → p.Portless
  host_with_port : ¬ p.Hostless → ¬ p.Portless → splitBracket p.host = none
  /-- a host without a port does not end in something that looks like one -/
  host_alone : ¬ p.Hostless → p.Portless → splitHostPort p.host = (p.host, [])
  /-- a path without an authority does not look like one -/
  path : p.Hidden → (normalizeDots p.path).take 2 ≠ [slash, slash]
  /-- what ends the text is not stripped -/
  query_ends : p.fragment.getD [] = [] → Ends (p.query.getD [])
  host_ends : isSpecial p.scheme = false → ¬ p.Hostless → p.portStr = [] → p.path = [] →
    p.query.getD [] = [] → p.fragment.getD [] = [] → Ends p.host

section Canonical

variable {env : Platform} {p : Pieces} {r : Record}

/-- When a printed host is read back with its port. -/
theorem readHost_self_iff {scheme host : Text} {port : Option Nat}
    (hlower : env.toLowerCase host = host) (hhost : keptHost scheme host = host)
    (hport : keptPort scheme port = port) (hle : ∀ n ∈ port, n ≤ 65535) :
    readHost env scheme (hostText host port) = some (host, port) ↔
      (host = [] → port = none) ∧ (host ≠ [] → port ≠ none → splitBracket host = none) ∧
        (host ≠ [] → port = none → splitHostPort host = (host, [])) := by
  by_cases hempty : host = []
  · simp [hempty, hostText, readHost_nil, eq_comm]
  rw [hostText_of_ne_nil hempty]
  cases port with
  | none =>
    have hkeeps : readHost env scheme host = some (host, none) ↔
        splitHostPort host = (host, []) := by
      constructor
      · intro hread
        exact (readHost_keeps_iff hlower hhost).mp ⟨_, hread, rfl⟩
      · intro hsplit
        rw [readHost, hsplit]
        simp only [readPort_none_iff.mpr, Option.map_some, hlower, hhost, keptPort_none]
    rw [portText, List.append_nil, hkeeps]
    simp [hempty]
  | some n =>
    by_cases hbracket : splitBracket host = none
    · rw [portText, readHost_port scheme hbracket (hle n rfl), hlower, hhost, hport]
      simp [hempty, hbracket]
    · rw [portText, readHost_bracket_port scheme hbracket]
      simp [hempty, hbracket]

theorem ParsedRecord.authority_iff (h : ParsedRecord env r) :
    readAuthority env r.scheme (r.authorityText env) = some r.authority ↔
      (∀ c ∈ r.username, must false c = false) ∧ (∀ c ∈ r.password, must false c = false) ∧
        readHost env r.scheme (hostText r.host r.port) = some (r.host, r.port) := by
  have hkept : ∀ s : Text, encodeSet env s false = s ↔ ∀ c ∈ s, must false c = false := by
    intro s
    constructor
    · intro hfixed c hc
      rw [← hfixed] at hc
      exact must_of_mem_encodeSet hc
    · exact encodeSet_of_kept
  rw [← hkept, ← hkept, Record.authorityText, readAuthority_append _ h.username_colon h.at_not_mem]
  constructor
  · intro hread
    obtain ⟨q, hq, hauthority⟩ := Option.map_eq_some_iff.mp hread
    simp only [Record.authority, Authority.mk.injEq] at hauthority
    obtain ⟨husername, hpassword, hhost, hport⟩ := hauthority
    exact ⟨husername, hpassword, by rw [hq, ← hhost, ← hport]⟩
  · rintro ⟨husername, hpassword, hread⟩
    rw [hread, husername, hpassword]
    rfl

theorem storedPath_eq_nil_iff {scheme path : Text} (habs : path ≠ [] → path.head? = some slash) :
    storedPath env scheme path = [] ↔ isSpecial scheme = false ∧ path = [] := by
  constructor
  · intro hnil
    have hpath : path = [] := by
      by_contra hne
      have hhead : (encodePath env path).head? = some slash := head_encodePath (habs hne)
      rw [storedPath_of_ne_nil hne] at hnil
      rw [hnil] at hhead
      cases hhead
    refine ⟨?_, hpath⟩
    by_contra hspecial
    rw [Bool.not_eq_false] at hspecial
    -- the empty path of a special scheme is stored as a slash
    rw [hpath, storedPath_special hspecial, if_pos rfl, encodePath, encodeSet_eq_nil_iff] at hnil
    exact absurd hnil (by decide)
  · rintro ⟨hspecial, rfl⟩
    exact storedPath_nil hspecial

theorem Pieces.Cut.storedPath_storedPath (h : p.Cut env) :
    storedPath env p.scheme (storedPath env p.scheme p.path) = storedPath env p.scheme p.path := by
  by_cases hspecial : isSpecial p.scheme = true
  · have habs : p.path ≠ [] → p.path.head? = some slash := by
      rcases h.path with habs | ⟨hother, -⟩
      · exact habs
      · rw [hspecial] at hother
        cases hother
    have hne : storedPath env p.scheme p.path ≠ [] := by
      rw [ne_eq, storedPath_eq_nil_iff habs, hspecial]
      simp
    rw [storedPath_of_ne_nil hne, storedPath_special hspecial, encodePath_idem]
  · rw [Bool.not_eq_true] at hspecial
    by_cases hpath : p.path = []
    · rw [hpath, storedPath_nil hspecial, storedPath_nil hspecial]
    · rw [storedPath_of_ne_nil hpath]
      by_cases hnil : encodePath env p.path = []
      · rw [hnil, storedPath_nil hspecial]
      · rw [storedPath_of_ne_nil hnil, encodePath_idem]

/-- The record that is made from the pieces, with what is known of its host and its port. -/
structure Pieces.Makes (env : Platform) (p : Pieces) (r : Record) : Prop where
  scheme : r.scheme = p.scheme
  username : r.username = p.username
  password : r.password = p.password
  host : r.host = keptHost p.scheme p.host
  port_none : r.port = none ↔ p.Portless
  port_kept : keptPort r.scheme r.port = r.port
  pathname : r.pathname = storedPath env p.scheme p.path
  search : r.search = p.query
  hash : r.hash = p.fragment

theorem Pieces.makes_of_record (h : p.record env = some r) : p.Makes env r := by
  obtain ⟨port, hport, rfl⟩ := Option.map_eq_some_iff.mp h
  exact ⟨rfl, rfl, rfl, rfl, keptPort_eq_none_iff hport, keptPort_keptPort _ _, rfl, rfl, rfl⟩

theorem Pieces.Makes.host_nil (h : p.Makes env r) : r.host = [] ↔ p.Hostless := by
  rw [h.host]
  exact keptHost_eq_nil_iff

theorem Pieces.Makes.host_eq (h : p.Makes env r) (hhost : ¬ p.Hostless) : r.host = p.host := by
  rw [← h.host_nil] at hhost
  rw [h.host] at hhost ⊢
  exact keptHost_of_ne_nil hhost

theorem Pieces.Makes.hidden_iff (h : p.Makes env r) : r.showsAuthority = false ↔ p.Hidden := by
  rw [showsAuthority_eq_false_iff, h.scheme, h.username, h.password, h.port_none, h.host_nil]
  unfold Pieces.Hidden Pieces.Hostless
  constructor
  · rintro ⟨hspecial, hfile, hhost, husername, hpassword, hport⟩
    have hnil : p.host = [] := by simpa [hfile] using hhost
    exact ⟨hspecial, hfile, husername, hpassword, hnil, hport⟩
  · rintro ⟨hspecial, hfile, husername, hpassword, hhost, hport⟩
    exact ⟨hspecial, hfile, Or.inl hhost, husername, hpassword, hport⟩

theorem Pieces.Makes.fits_iff (h : p.Makes env r) (hcut : p.Cut env) :
    r.PathFits ↔ (p.Hidden → (normalizeDots p.path).take 2 ≠ [slash, slash]) := by
  cases hshown : r.showsAuthority with
  | true =>
    have hseen : ¬ p.Hidden := fun hhidden => by
      rw [h.hidden_iff.mpr hhidden] at hshown
      cases hshown
    rw [pathFits_shown_iff hshown, h.pathname]
    simp only [hseen, false_imp_iff, iff_true]
    rcases hcut.path with habs | ⟨hspecial, hfile, husername, hpassword, hhost, hport, -⟩
    · exact storedPath_absolute habs
    · exact absurd ⟨hspecial, hfile, husername, hpassword, hhost, Or.inl hport⟩ hseen
  | false =>
    have hhidden := h.hidden_iff.mp hshown
    rw [pathFits_hidden_iff hshown, h.pathname]
    simp only [hhidden, true_imp_iff]
    by_cases hpath : p.path = []
    · rw [hpath, storedPath_nil hhidden.1]
      decide
    · rw [storedPath_of_ne_nil hpath, ne_eq, ne_eq, take_two_encodePath]

theorem Pieces.Makes.authority_iff (h : p.Makes env r) (hparsed : ParsedRecord env r) :
    readAuthority env r.scheme (r.authorityText env) = some r.authority ↔
      (∀ c ∈ p.username, must false c = false) ∧ (∀ c ∈ p.password, must false c = false) ∧
        (p.Hostless → p.Portless) ∧
        (¬ p.Hostless → ¬ p.Portless → splitBracket p.host = none) ∧
        (¬ p.Hostless → p.Portless → splitHostPort p.host = (p.host, [])) := by
  have hkept : keptHost r.scheme r.host = r.host := by
    rw [h.scheme, h.host, keptHost_keptHost]
  rw [hparsed.authority_iff, h.username, h.password,
    readHost_self_iff hparsed.host_lower hkept h.port_kept hparsed.port_le, h.port_none, ne_eq,
    h.host_nil, ne_eq, h.port_none]
  by_cases hhost : p.Hostless
  · simp [hhost]
  · simp only [hhost, not_false_eq_true, true_imp_iff, h.host_eq hhost]

/-- Without a tail the text ends with the authority. -/
theorem Pieces.Makes.tail_nil_iff (h : p.Makes env r) (hcut : p.Cut env) (hhost : ¬ p.Hostless) :
    r.tailText = [] ↔ isSpecial p.scheme = false ∧ p.path = [] ∧ p.query.getD [] = [] ∧
      p.fragment.getD [] = [] := by
  rw [Record.tailText, tailText_eq_nil_iff, h.pathname, h.search, h.hash]
  have habs : p.path ≠ [] → p.path.head? = some slash := by
    rcases hcut.path with habs | ⟨-, -, -, -, hnil, -⟩
    · exact habs
    · exact absurd (Or.inl hnil) hhost
  rw [storedPath_eq_nil_iff habs, and_assoc]

theorem Pieces.Makes.ends_iff (h : p.Makes env r) (hparsed : ParsedRecord env r)
    (hcut : p.Cut env) :
    Ends (r.authorityText env ++ r.tailText) ↔
      (p.fragment.getD [] = [] → Ends (p.query.getD [])) ∧
        (isSpecial p.scheme = false → ¬ p.Hostless → p.portStr = [] → p.path = [] →
          p.query.getD [] = [] → p.fragment.getD [] = [] → Ends p.host) := by
  constructor
  · intro hends
    constructor
    · intro hfragment
      by_cases hquery : p.query.getD [] = []
      · rw [hquery]
        exact ends_nil
      · have htext : r.tailText = r.pathname ++ questionMark :: p.query.getD [] := by
          rw [Record.tailText, tailText, h.search, h.hash, hfragment]
          simp [optionalText, hquery]
        rw [htext] at hends
        exact Ends.of_append (s := [questionMark]) hends.of_append.of_append
    · intro hspecial hhost hport hpath hquery hfragment
      have hport' : r.port = none := h.port_none.mpr (Or.inl hport)
      rw [(h.tail_nil_iff hcut hhost).mpr ⟨hspecial, hpath, hquery, hfragment⟩, List.append_nil,
        Record.authorityText, hport', hostText_of_ne_nil (fun hnil => hhost (h.host_nil.mp hnil)),
        portText, List.append_nil, h.host_eq hhost] at hends
      exact hends.of_append
  · rintro ⟨hquery, hhost⟩
    by_cases htail : r.tailText = []
    · rw [htail, List.append_nil, Record.authorityText]
      by_cases hnil : r.host = []
      · simpa [hnil, hostText] using ends_userinfoText r.username r.password
      · have hhostless : ¬ p.Hostless := fun hless => hnil (h.host_nil.mpr hless)
        obtain ⟨hspecial, hpath, hquery, hfragment⟩ := (h.tail_nil_iff hcut hhostless).mp htail
        rw [hostText_of_ne_nil hnil]
        cases hport : r.port with
        | some n =>
          rw [portText, ← List.append_assoc]
          exact ends_hostText_port n
        | none =>
          have hportStr : p.portStr = [] := by
            rcases h.port_none.mp hport with hstr | hdefault
            · exact hstr
            · rw [isSpecial, hdefault] at hspecial
              cases hspecial
          rw [portText, List.append_nil, h.host_eq hhostless]
          exact (hhost hspecial hhostless hportStr hpath hquery hfragment).append _
            fun hempty => hhostless (Or.inl hempty)
    · apply ends_tailText _ _ _ hparsed.path_kept htail
      · rw [h.hash]
        exact hcut.fragment_ends
      · rw [h.hash, h.search]
        exact hquery

/-- The record of an input is settled exactly for a canonical one. -/
theorem Pieces.Makes.settled_iff (h : p.Makes env r) (hparsed : ParsedRecord env r)
    (hcut : p.Cut env) : SettledRecord env r ↔ p.Canonical := by
  constructor
  · intro hsettled
    obtain ⟨husername, hpassword, hportless, hbracket, halone⟩ :=
      (h.authority_iff hparsed).mp hsettled.authority
    obtain ⟨hquery, hhost⟩ := (h.ends_iff hparsed hcut).mp hsettled.ends
    exact ⟨husername, hpassword, hportless, hbracket, halone, (h.fits_iff hcut).mp hsettled.fits,
      hquery, hhost⟩
  · intro hcanonical
    constructor
    case toParsedRecord => exact hparsed
    case scheme => exact h.scheme ▸ hcut.scheme
    case fits => exact (h.fits_iff hcut).mpr hcanonical.path
    case ends =>
      exact (h.ends_iff hparsed hcut).mpr ⟨hcanonical.query_ends, hcanonical.host_ends⟩
    case authority =>
      exact (h.authority_iff hparsed).mpr ⟨hcanonical.username, hcanonical.password,
        hcanonical.portless, hcanonical.host_with_port, hcanonical.host_alone⟩
    case path =>
      rw [h.scheme, h.pathname]
      exact hcut.storedPath_storedPath

end Canonical

/-! ## The fixpoint -/

/-- `href` is accepted, and the URL made from it has the same `href` and the same components. -/
def Reparses (env : Platform) (u : Record) : Prop :=
  ∃ w, parseUrl env (serialize env u) none = some w ∧ serialize env w = serialize env u ∧
    ∀ c, w.component c = u.component c

theorem serialize_congr {env : Platform} {w r : Record} (h : ∀ c, w.component c = r.component c) :
    serialize env w = serialize env r := by
  obtain ⟨hscheme, husername, hpassword, hhost, hport, hpath, hsearch, hhash⟩ :=
    components_eq_iff.mp h
  have hauthority : w.authority = r.authority := by
    rw [Record.authority, Record.authority, husername, hpassword, hhost, hport]
  have htail : w.tailText = r.tailText := by
    rw [Record.tailText, Record.tailText, hpath, hsearch, hhash]
  rw [serialize, serialize, Record.restText, Record.restText,
    showsAuthority_congr hscheme hauthority, authorityText_congr hauthority, htail, hscheme]

theorem reparses_iff_stable {env : Platform} {u : Record} : Reparses env u ↔ Stable env u := by
  constructor
  · rintro ⟨w, hparse, -, hsame⟩
    exact ⟨w, hparse, hsame⟩
  · rintro ⟨w, hparse, hsame⟩
    exact ⟨w, hparse, serialize_congr hsame, hsame⟩

/-- The input is one whose pieces are canonical. -/
def CanonicalInput (env : Platform) (input : Text) : Prop :=
  ∃ p ∈ pieces env input, p.Canonical

/-- Printing is a fixpoint of parsing exactly on the canonical inputs. -/
theorem href_reparses_iff (env : Engine) {input : Text} {u : Record}
    (hparse : parseUrl env input none = some u) :
    Reparses env u ↔ CanonicalInput env input := by
  have hparsed : ParsedRecord env u := by
    obtain ⟨scheme, rest, -, hread⟩ := parseUrl_eq_some hparse
    exact parsedRecord_of_readRest hread
  rw [parseUrl_eq_pieces] at hparse
  obtain ⟨p, hp, hrecord⟩ := Option.bind_eq_some_iff.mp hparse
  have hsettled := (Pieces.makes_of_record hrecord).settled_iff hparsed (pieces_cut env hp)
  rw [reparses_iff_stable, CanonicalInput, hp]
  constructor
  · intro hstable
    exact ⟨p, rfl, hsettled.mp (settled_of_stable hstable)⟩
  · rintro ⟨q, hq, hcanonical⟩
    cases hq
    exact (hsettled.mpr hcanonical).parse_self

/-- `http://h/a` is printed as it was given. -/
theorem href_reparses_plain : Reparses asciiEngine plainRecord := by
  have hparse : parseUrl asciiEngine (units "http://h/a") none = some plainRecord := by
    decide
  apply (href_reparses_iff asciiEngine hparse).mpr
  refine ⟨⟨units "http", [], [], units "h", [], units "/a", none, none⟩, by decide, ?_⟩
  constructor
  case username => simp
  case password => simp
  case portless => exact fun _ => Or.inl rfl
  case host_with_port => exact fun _ hport => absurd (Or.inl rfl) hport
  case host_alone => exact fun _ _ => by decide
  case path => exact fun hhidden => absurd hhidden.1 (by decide)
  case query_ends => exact fun _ => ends_nil
  case host_ends => exact fun hspecial => absurd hspecial (by decide)

/-- The user name of `http://a b@h/` is `a b`, and `a%20b` after a round through `href`. -/
theorem username_not_fixed :
    ∃ u, parseUrl asciiEngine (units "http://a b@h/") none = some u ∧ ¬ Reparses asciiEngine u := by
  refine ⟨⟨units "http", units "a b", [], units "h", none, units "/", none, none⟩, by decide, ?_⟩
  rintro ⟨w, hparse, -, hsame⟩
  have hread : (parseUrl asciiEngine (serialize asciiEngine
      ⟨units "http", units "a b", [], units "h", none, units "/", none, none⟩) none).map
      (·.component .username) = some (units "a%20b") := by decide
  rw [hparse, Option.map_some, hsame .username] at hread
  exact absurd hread (by decide)

end Url
