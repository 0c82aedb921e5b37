import QuickjsRuntime.Url.Setters

/-!
# Stable records

What it means for a record that its `href` parses back to its own components: its scheme is
valid, each part is free of the characters that would end it, and the text does not end in
a character that `parseUrl` strips (`SettledRecord`). The setters are judged from there.
-/

namespace Url

open Utf16 (Text units isDigit decimal isDigit_of_mem_decimal)
open Split (splitFirst splitLast)

variable {env : Platform}

/-! ## Parsing `href` -/

theorem showsAuthority_eq_false_iff {r : Record} :
    r.showsAuthority = false ↔ isSpecial r.scheme = false ∧ isFile r.scheme = false ∧
      r.host = [] ∧ r.username = [] ∧ r.password = [] ∧ r.port = none := by
  simp [Record.showsAuthority, and_assoc]

theorem authorityText_of_hidden {r : Record} (h : r.showsAuthority = false) :
    r.authorityText env = [] := by
  obtain ⟨-, -, hhost, husername, hpassword, -⟩ := showsAuthority_eq_false_iff.mp h
  simp [Record.authorityText, userinfoText, hostText, hhost, husername, hpassword]

theorem parse_shown {r : Record} (hscheme : ValidScheme env r.scheme)
    (hshown : r.showsAuthority = true) :
    parseUrl env (serialize env r) none =
      readFull env r.scheme ((r.authorityText env ++ r.tailText).rdropWhile isC0) := by
  have hstrip := strip_append_cons [slash] (r.authorityText env ++ r.tailText)
    (show isC0 slash = false by decide)
  rw [serialize, parseUrl_append hscheme, Record.restText, if_pos hshown]
  exact (congrArg _ hstrip).trans (readRest_slashes _ _)

theorem parse_hidden {r : Record} (hscheme : ValidScheme env r.scheme)
    (hhidden : r.showsAuthority = false) :
    parseUrl env (serialize env r) none = readRest env r.scheme (r.tailText.rdropWhile isC0) := by
  rw [serialize, parseUrl_append hscheme, Record.restText, authorityText_of_hidden hhidden,
    if_neg (by simp [hhidden])]
  rfl

theorem splitScheme_eq_some {s scheme rest : Text} (h : splitScheme s = some (scheme, rest)) :
    s = scheme ++ colon :: rest ∧ (∃ c r, scheme = c :: r ∧ isLetter c = true) ∧
      ∀ c ∈ scheme, isSchemeChar c = true := by
  cases s with
  | nil => cases h
  | cons c s =>
    rw [splitScheme] at h
    by_cases hletter : isLetter c = true
    · rw [if_pos hletter] at h
      have hchar : isSchemeChar c = true := by simp [isSchemeChar, hletter]
      split at h
      · next x rest' hdrop =>
          by_cases hx : x = colon
          · rw [if_pos hx] at h
            cases h
            subst hx
            refine ⟨?_, ⟨c, s.takeWhile isSchemeChar, ?_, hletter⟩,
              fun x hx => List.mem_takeWhile_imp hx⟩
            · rw [← hdrop, List.takeWhile_append_dropWhile]
            · rw [List.takeWhile_cons_of_pos hchar]
          · rw [if_neg hx] at h
            cases h
      · cases h
    · rw [if_neg hletter] at h
      cases h

theorem not_schemeChar_of_C0 : ∀ c < 0x21, isLetter c = false ∧ isSchemeChar c = false := by
  decide

theorem not_mem_of_schemeChars {scheme : Text} {c : Nat}
    (hscheme : ∀ c ∈ scheme, isSchemeChar c = true) (hc : c < 0x80)
    (hletter : isLetter c = false) (hchar : isSchemeChar c = false) :
    c ∉ env.toLowerCase scheme := by
  intro hmem
  have := hscheme c ((env.mem_lower_iff _ _ hc hletter).mp hmem)
  rw [hchar] at this
  cases this

/-- A scheme that is read back is a valid one. -/
theorem validScheme_of_parse {r w : Record} (h : parseUrl env (serialize env r) none = some w)
    (hscheme : w.scheme = r.scheme) : ValidScheme env r.scheme := by
  obtain ⟨scheme, rest, hsplit, hread⟩ := parseUrl_eq_some h
  obtain ⟨htext, hstarts, hchars⟩ := splitScheme_eq_some hsplit
  have hlower : r.scheme = env.toLowerCase scheme := by rw [← hscheme, readRest_scheme hread]
  have hcolon : colon ∉ r.scheme := by
    rw [hlower]
    exact not_mem_of_schemeChars hchars (by decide) (by decide) (by decide)
  have hvisible : ∃ c t, r.scheme = c :: t ∧ isC0 c = false := by
    have hne : r.scheme ≠ [] := by
      obtain ⟨c, t, rfl, -⟩ := hstarts
      rw [hlower]
      exact env.lower_ne_nil _ (by simp)
    obtain ⟨c, t, hcons⟩ := List.exists_cons_of_ne_nil hne
    refine ⟨c, t, hcons, ?_⟩
    by_contra hc
    have hmem : c ∈ env.toLowerCase scheme := by rw [← hlower, hcons]; exact List.mem_cons_self
    simp only [isC0, Bool.not_eq_false, decide_eq_true_eq] at hc
    obtain ⟨hletter, hchar⟩ := not_schemeChar_of_C0 c (by omega)
    exact not_mem_of_schemeChars hchars (by omega) hletter hchar hmem
  -- both readings of the text end the scheme at its first colon
  rw [serialize, stripC0_append hvisible] at htext
  have hsame : r.scheme = scheme := by
    have hcolon' : colon ∉ scheme := fun hmem => absurd (hchars _ hmem) (by decide)
    have hfirst := Split.splitFirst_append hcolon (b := (r.restText env).rdropWhile isC0)
    rw [htext, Split.splitFirst_append hcolon'] at hfirst
    exact (congrArg Prod.fst (Option.some.inj hfirst)).symm
  refine ⟨hsame ▸ hstarts, hsame ▸ hchars, ?_⟩
  rw [hlower, env.lower_lower]

/-! ## Hosts that are not read back -/

/-- A host that is stripped is not read back. -/
theorem ends_of_readHost {scheme host : Text} {q : Text × Option Nat}
    (hlower : env.toLowerCase host = host)
    (h : readHost env scheme (host.rdropWhile isC0) = some q) (hq : q.1 = host) : Ends host := by
  by_contra hends
  have hne : host.rdropWhile isC0 ≠ host := fun heq => hends (ends_of_strip heq)
  obtain ⟨t, ht, hstripped⟩ := Split.exists_rdropWhile isC0 host
  cases t with
  | nil => exact hne (by simpa using ht.symm)
  | cons c t =>
    have hascii : c < 0x80 := by
      have hc := hstripped c List.mem_cons_self
      simp only [isC0, decide_eq_true_eq] at hc
      omega
    have hlower' : env.toLowerCase (host.rdropWhile isC0) = host.rdropWhile isC0 := by
      rw [ht] at hlower
      exact (env.lower_parts _ _ _ hascii hlower).1
    have hlen := readHost_length hlower' h
    have hle := (splitHostPort_length (host.rdropWhile isC0)).1
    have hlong := congrArg List.length ht
    rw [hq] at hlen
    simp only [List.length_append, List.length_cons] at hlong
    omega

/-- A printed host without a port is read back exactly when nothing of it looks like one. -/
theorem readHost_keeps_iff {scheme host : Text} (hlower : env.toLowerCase host = host)
    (hkept : keptHost scheme host = host) :
    (∃ q, readHost env scheme host = some q ∧ q.1 = host) ↔ splitHostPort host = (host, []) := by
  constructor
  · rintro ⟨q, hread, hq⟩
    have hlen := readHost_length hlower hread
    rw [hq] at hlen
    exact (splitHostPort_length host).2 (Nat.le_antisymm (splitHostPort_length host).1 hlen)
  · intro hsplit
    refine ⟨(host, none), ?_, rfl⟩
    rw [readHost, hsplit]
    simp only [readPort_none_iff.mpr, Option.map_some, hlower, hkept, keptPort_none]

/-! ## Tails -/

theorem not_mem_nonempty {c : Nat} {s : Text} (hs : c ∉ s) : ∀ q ∈ nonempty s, c ∉ q := by
  intro q hq
  unfold nonempty at hq
  split at hq
  · cases hq
  · rw [← Option.some.inj hq]
    exact hs

/-- What stripping leaves of a printed tail is a tail with the same path. The query and the
fragment are the printed ones only if nothing was stripped. -/
theorem strip_tailText {y path search : Text} (hash : Text)
    (hpath : ∀ c ∈ path, must true c = false) (hsearch : numberSign ∉ search)
    (hends : tailText path search hash = [] → Ends y) :
    ∃ query fragment,
      (y ++ tailText path search hash).rdropWhile isC0 =
        y ++ (path ++ (marked questionMark query ++ marked numberSign fragment)) ∧
      Tail path query fragment ∧
      ((hash = [] → query.getD [] = search) → (hash ≠ [] → fragment.getD [] = hash) →
        Ends (y ++ tailText path search hash)) := by
  obtain ⟨hclean, hclean'⟩ := not_mem_of_must hpath
  by_cases hhash : hash = []
  · by_cases hsearchNil : search = []
    · have hwhole : Ends (y ++ tailText path search hash) := by
        subst hhash hsearchNil
        by_cases hempty : path = []
        · subst hempty
          simpa [tailText, optionalText] using hends rfl
        · simpa [tailText, optionalText] using (ends_of_kept hpath).append y hempty
      refine ⟨none, none, ?_, ⟨hclean, hclean', by simp⟩, fun _ _ => hwhole⟩
      rw [hwhole.strip]
      simp [tailText, optionalText, marked, hhash, hsearchNil]
    · have htext : y ++ tailText path search hash = (y ++ path) ++ questionMark :: search := by
        simp [tailText, optionalText, hhash, hsearchNil]
      refine ⟨some (search.rdropWhile isC0), none, ?_, ⟨hclean, hclean', ?_⟩, ?_⟩
      · rw [htext, strip_append_cons _ _ (by decide)]
        simp [marked]
      · rintro q hq hmem
        rw [← Option.some.inj hq] at hmem
        have hinit := List.rdropWhile_prefix isC0 search
        exact hsearch (hinit.subset hmem)
      · intro hsame _
        rw [htext]
        exact (ends_of_strip (hsame hhash)).append_cons _ (by decide)
  · have htext : y ++ tailText path search hash =
        (y ++ (path ++ optionalText questionMark search)) ++ numberSign :: hash := by
      simp [tailText, optionalText, hhash]
    refine ⟨nonempty search, some (hash.rdropWhile isC0), ?_,
      ⟨hclean, hclean', not_mem_nonempty hsearch⟩, ?_⟩
    · rw [htext, strip_append_cons _ _ (by decide), optionalText_eq]
      simp [marked]
    · intro _ hsame
      rw [htext]
      exact (ends_of_strip (hsame hhash)).append_cons _ (by decide)

/-! ## Settled records -/

theorem components_eq_iff {w r : Record} :
    (∀ c, w.component c = r.component c) ↔
      w.scheme = r.scheme ∧ w.username = r.username ∧ w.password = r.password ∧
        w.host = r.host ∧ w.port = r.port ∧ w.pathname = r.pathname ∧
        w.search.getD [] = r.search.getD [] ∧ w.hash.getD [] = r.hash.getD [] := by
  rw [forall_component]
  simp only [Record.component, List.append_cancel_right_eq, portValue_inj, optionalText_inj]

def Record.authority (r : Record) : Authority where
  username := r.username
  password := r.password
  host := r.host
  port := r.port

/-- The path goes with what is printed before it: behind an authority it is empty or
absolute, and without one it does not look like an authority. -/
def Record.PathFits (r : Record) : Prop :=
  if r.showsAuthority then r.pathname = [] ∨ r.pathname.head? = some slash
  else r.pathname.take 2 ≠ [slash, slash]

/-- A path that may stand behind an authority. -/
def Rooted (path : Text) : Prop := path = [] ∨ path.head? = some slash

theorem pathFits_shown_iff {x : Record} (h : x.showsAuthority = true) :
    x.PathFits ↔ Rooted x.pathname := by
  rw [Record.PathFits, if_pos h, Rooted]

theorem pathFits_hidden_iff {x : Record} (h : x.showsAuthority = false) :
    x.PathFits ↔ x.pathname.take 2 ≠ [slash, slash] := by
  rw [Record.PathFits, if_neg (by simp [h])]

/-- What is known of a stable record. -/
structure SettledRecord (env : Platform) (r : Record) : Prop extends ParsedRecord env r where
  scheme : ValidScheme env r.scheme
  fits : r.PathFits
  ends : Ends (r.authorityText env ++ r.tailText)
  authority : readAuthority env r.scheme (r.authorityText env) = some r.authority
  path : storedPath env r.scheme r.pathname = r.pathname

theorem parsedRecord_of_readRest {scheme text : Text} {r : Record}
    (h : readRest env scheme text = some r) : ParsedRecord env r := by
  rcases take_two_cases text with ⟨rest, rfl⟩ | hslashes
  · rw [readRest_slashes] at h
    exact (parsedRecord_of_readFull h).1
  · by_cases hfull : isSpecial scheme = true ∨ isFile scheme = true
    · rw [readRest_full hfull hslashes] at h
      exact (parsedRecord_of_readFull h).1
    · rw [not_or, Bool.not_eq_true, Bool.not_eq_true] at hfull
      obtain ⟨path, query, fragment, htail, rfl⟩ := exists_tail text
      rw [readRest_bare hfull.1 hfull.2 hslashes, readTail_append scheme htail] at h
      rw [← Option.some.inj h]
      exact parsedRecord_mkRecord (a := []) (by simp) (readAuthority_nil scheme) htail

theorem ParsedRecord.of_components {w r : Record} (h : ParsedRecord env w)
    (hsame : ∀ c, w.component c = r.component c) : ParsedRecord env r := by
  obtain ⟨-, husername, hpassword, hhost, hport, hpath, hsearch, -⟩ := components_eq_iff.mp hsame
  constructor
  case username => exact husername ▸ h.username
  case username_colon => exact husername ▸ h.username_colon
  case password => exact hpassword ▸ h.password
  case host => exact hhost ▸ h.host
  case host_at => exact hhost ▸ h.host_at
  case host_lower => exact hhost ▸ h.host_lower
  case port_le => exact hport ▸ h.port_le
  case path_kept => exact hpath ▸ h.path_kept
  case search =>
    intro q hq
    rw [Option.mem_def.mp hq, Option.getD_some] at hsearch
    cases hw : w.search with
    | none =>
      rw [hw, Option.getD_none] at hsearch
      simp [← hsearch]
    | some q' =>
      rw [hw, Option.getD_some] at hsearch
      exact hsearch ▸ h.search q' hw

theorem ParsedRecord.numberSign_not_mem {r : Record} (h : ParsedRecord env r) :
    numberSign ∉ r.search.getD [] := by
  cases hsearch : r.search with
  | none => simp
  | some q => exact h.search q hsearch

theorem ends_userinfoText (username password : Text) :
    Ends (userinfoText env username password) := by
  unfold userinfoText
  split
  · rw [← List.append_assoc]
    exact ends_nil.append_cons _ (by decide)
  · exact ends_nil

theorem ends_decimal (n : Nat) : Ends (decimal n) := by
  apply ends_of_forall
  intro c hc
  have hdigit := isDigit_of_mem_decimal hc
  simp only [isDigit, Bool.and_eq_true, decide_eq_true_eq] at hdigit
  simp only [isC0, decide_eq_false_iff_not]
  omega

theorem ParsedRecord.at_not_mem {r : Record} (h : ParsedRecord env r) :
    atSign ∉ hostText r.host r.port :=
  not_mem_hostText h.host_at (by decide) (by decide)

/-- Reading an authority that is all there is, and of which the end may be stripped. -/
theorem readFull_authority {scheme authority : Text}
    (h : ∀ c ∈ authority, notDelimiter c = true) :
    readFull env scheme authority =
      (readAuthority env scheme authority).map fun a =>
        mkRecord scheme a (storedPath env scheme [], none, none) := by
  have hfull : readFull env scheme (authority ++ []) = _ := readFull_append h (by simp)
  rw [List.append_nil] at hfull
  exact hfull

/-- An authority without a tail keeps its host only if nothing is stripped. -/
theorem ends_authorityText {r w : Record} (h : ParsedRecord env r)
    (hread : readFull env r.scheme ((r.authorityText env).rdropWhile isC0) = some w)
    (hhost : w.host = r.host) : Ends (r.authorityText env) := by
  have huser : Ends (userinfoText env r.username r.password) := ends_userinfoText _ _
  by_cases hempty : r.host = []
  · rw [Record.authorityText, hempty]
    simpa [hostText] using huser
  cases hport : r.port with
  | some n =>
    rw [Record.authorityText, hostText_of_ne_nil hempty, hport, portText, ← List.append_assoc]
    exact (ends_decimal n).append_cons _ (by decide)
  | none =>
    have htext : r.authorityText env = userinfoText env r.username r.password ++ r.host := by
      rw [Record.authorityText, hostText_of_ne_nil hempty, hport, portText, List.append_nil]
    have hinit := List.rdropWhile_prefix isC0 (r.authorityText env)
    rw [readFull_authority fun c hc => h.authorityText_delimiter c (hinit.subset hc)] at hread
    obtain ⟨a, hauthority, rfl⟩ := Option.map_eq_some_iff.mp hread
    rw [htext, strip_append huser, readAuthority_append _ h.username_colon] at hauthority
    · obtain ⟨q, hq, rfl⟩ := Option.map_eq_some_iff.mp hauthority
      rw [htext]
      exact (ends_of_readHost h.host_lower hq hhost).append _ hempty
    · have hinit := List.rdropWhile_prefix isC0 r.host
      exact fun hmem => h.host_at (hinit.subset hmem)

theorem storedPath_absolute {scheme path : Text} (h : path ≠ [] → path.head? = some slash) :
    Rooted (storedPath env scheme path) := by
  by_cases hempty : path = []
  · by_cases hspecial : isSpecial scheme = true
    · rw [storedPath_special hspecial, if_pos hempty]
      exact Or.inr (head_encodePath rfl)
    · rw [hempty, storedPath_nil (by simpa using hspecial)]
      exact Or.inl rfl
  · rw [storedPath_of_ne_nil hempty]
    exact Or.inr (head_encodePath (h hempty))

/-- A printed tail ends an authority if its path is empty or absolute. -/
theorem stops_tail {path : Text} (hpath : Rooted path) (query fragment : Option Text) :
    ∀ c ∈ (path ++ (marked questionMark query ++ marked numberSign fragment)).head?,
      notDelimiter c = false := by
  rcases hpath with rfl | hslash
  · intro c hc
    cases query <;> cases fragment <;> simp [marked] at hc <;> subst hc <;> decide
  · apply stops_of_slash
    rw [List.head?_append, hslash, Option.some_or]

theorem settled_of_shown {r w : Record} (hscheme : ValidScheme env r.scheme)
    (hparsed : ParsedRecord env r) (hshown : r.showsAuthority = true)
    (hread : readFull env r.scheme ((r.authorityText env ++ r.tailText).rdropWhile isC0) = some w)
    (hsame : ∀ c, w.component c = r.component c) : SettledRecord env r := by
  obtain ⟨-, husername, hpassword, hhost, hport, hpathname, hsearch, hhash⟩ :=
    components_eq_iff.mp hsame
  have hpath : Rooted r.pathname := by
    obtain ⟨-, -, -, path, habs, hstored⟩ := parsedRecord_of_readFull hread
    rw [← hpathname, hstored]
    exact storedPath_absolute habs
  have hbare : r.tailText = [] → Ends (r.authorityText env) := by
    intro hnil
    rw [hnil, List.append_nil] at hread
    exact ends_authorityText hparsed hread hhost
  obtain ⟨query, fragment, hstrip, htail, hends⟩ :=
    strip_tailText (r.hash.getD []) hparsed.path_kept hparsed.numberSign_not_mem hbare
  rw [Record.tailText, hstrip, readFull_append hparsed.authorityText_delimiter
    (stops_tail hpath query fragment), readTail_append _ htail] at hread
  obtain ⟨a, hauthority, rfl⟩ := Option.map_eq_some_iff.mp hread
  constructor
  case toParsedRecord => exact hparsed
  case scheme => exact hscheme
  case fits => exact (pathFits_shown_iff hshown).mpr hpath
  case ends => exact hends (fun _ => hsearch) fun _ => hhash
  case authority =>
    rw [hauthority]
    obtain ⟨u, p, h, n⟩ := a
    simp only [mkRecord] at husername hpassword hhost hport
    simp [Record.authority, husername, hpassword, hhost, hport]
  case path => exact hpathname

/-- The first delimiter of a stored path is a slash. -/
theorem path_of_stops {path : Text} (hpath : ∀ c ∈ path, must true c = false)
    (hstops : ∀ c ∈ path.head?, notDelimiter c = false) : Rooted path := by
  cases path with
  | nil => exact Or.inl rfl
  | cons c path =>
    have hclean := not_mem_of_must hpath
    rcases notDelimiter_eq_false_iff.mp (hstops c rfl) with rfl | rfl | rfl
    · exact Or.inr rfl
    · exact absurd List.mem_cons_self hclean.1
    · exact absurd List.mem_cons_self hclean.2

/-- Without an authority a path that starts with two slashes is not read back. -/
theorem readRest_slashes_path {scheme path : Text} {query fragment : Option Text} {w : Record}
    (hscheme : isSpecial scheme = false) (hpath : ∀ c ∈ path, must true c = false)
    (htail : Tail path query fragment)
    (hread : readRest env scheme
      (path ++ (marked questionMark query ++ marked numberSign fragment)) = some w)
    (hw : w.pathname = path) : path.take 2 ≠ [slash, slash] := by
  rcases take_two_cases path with ⟨rest, rfl⟩ | hslashes
  · exfalso
    obtain ⟨a, x, rfl, ha, hx⟩ := Split.exists_span notDelimiter rest
    have hkept : ∀ c ∈ x, must true c = false := fun c hc => hpath c (by simp [hc])
    have hxpath := path_of_stops hkept hx
    have htail' : Tail x query fragment :=
      ⟨(not_mem_of_must hkept).1, (not_mem_of_must hkept).2, htail.query_fragment⟩
    rw [List.cons_append, List.cons_append, readRest_slashes, List.append_assoc,
      readFull_append ha (stops_tail hxpath query fragment), readTail_append scheme htail'] at hread
    obtain ⟨au, -, rfl⟩ := Option.map_eq_some_iff.mp hread
    rcases hxpath with rfl | hslash
    · rw [mkRecord, storedPath_nil hscheme] at hw
      cases hw
    · have hne : x ≠ [] := by
        rintro rfl
        cases hslash
      rw [mkRecord, storedPath_of_ne_nil hne] at hw
      exact encodePath_ne_slashes hslash hkept hw
  · exact hslashes

theorem take_two_tail {path : Text} (h : path.take 2 ≠ [slash, slash])
    (query fragment : Option Text) :
    (path ++ (marked questionMark query ++ marked numberSign fragment)).take 2 ≠
      [slash, slash] := by
  have hmarks : (marked questionMark query ++ marked numberSign fragment).head? ≠ some slash := by
    cases query <;> cases fragment <;> simp [marked, questionMark, numberSign, slash]
  generalize marked questionMark query ++ marked numberSign fragment = marks at hmarks
  cases path with
  | nil => cases marks <;> simp_all
  | cons c path =>
    cases path with
    | nil => cases marks <;> simp_all
    | cons d path => simpa using h

theorem readRest_hidden {scheme path : Text} {query fragment : Option Text}
    (hspecial : isSpecial scheme = false) (hfile : isFile scheme = false)
    (htail : Tail path query fragment) (hslashes : path.take 2 ≠ [slash, slash]) :
    readRest env scheme (path ++ (marked questionMark query ++ marked numberSign fragment)) =
      some (mkRecord scheme emptyAuthority (storedPath env scheme path, query, fragment)) := by
  rw [readRest_bare hspecial hfile (take_two_tail hslashes query fragment),
    readTail_append scheme htail]

theorem settled_of_hidden {r w : Record} (hscheme : ValidScheme env r.scheme)
    (hparsed : ParsedRecord env r) (hhidden : r.showsAuthority = false)
    (hread : readRest env r.scheme (r.tailText.rdropWhile isC0) = some w)
    (hsame : ∀ c, w.component c = r.component c) : SettledRecord env r := by
  obtain ⟨-, -, -, -, -, hpathname, hsearch, hhash⟩ := components_eq_iff.mp hsame
  obtain ⟨hspecial, hfile, hhost, husername, hpassword, hport⟩ :=
    showsAuthority_eq_false_iff.mp hhidden
  obtain ⟨query, fragment, hstrip, htail, hends⟩ :=
    strip_tailText (y := []) (r.hash.getD []) hparsed.path_kept hparsed.numberSign_not_mem
      fun _ => ends_nil
  rw [List.nil_append] at hstrip
  rw [Record.tailText, hstrip, List.nil_append] at hread
  have hslashes := readRest_slashes_path hspecial hparsed.path_kept htail hread hpathname
  rw [readRest_hidden hspecial hfile htail hslashes] at hread
  cases hread
  constructor
  case toParsedRecord => exact hparsed
  case scheme => exact hscheme
  case fits => exact (pathFits_hidden_iff hhidden).mpr hslashes
  case ends =>
    rw [authorityText_of_hidden hhidden]
    exact hends (fun _ => hsearch) fun _ => hhash
  case authority =>
    rw [authorityText_of_hidden hhidden, readAuthority_nil, Record.authority, hhost, husername,
      hpassword, hport]
    rfl
  case path => exact hpathname

theorem settled_of_stable {r : Record} (h : Stable env r) : SettledRecord env r := by
  obtain ⟨w, hparse, hsame⟩ := h
  have hscheme := validScheme_of_parse hparse (components_eq_iff.mp hsame).1
  cases hshown : r.showsAuthority with
  | true =>
    rw [parse_shown hscheme hshown] at hparse
    have hparsed := (parsedRecord_of_readFull hparse).1.of_components hsame
    exact settled_of_shown hscheme hparsed hshown hparse hsame
  | false =>
    rw [parse_hidden hscheme hshown] at hparse
    have hparsed := (parsedRecord_of_readRest hparse).of_components hsame
    exact settled_of_hidden hscheme hparsed hshown hparse hsame

end Url
