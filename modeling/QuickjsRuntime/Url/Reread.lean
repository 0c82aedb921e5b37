import QuickjsRuntime.Url.Reading

/-!
# Parsed records and their printed authorities

What holds of every state object that `parseUrl` makes, and when the authority that
`serialize` prints for one is read back as the same text.
-/

namespace Url

open Utf16 (Text units isDigit decimal isDigit_of_mem_decimal)
open Split (splitFirst splitLast)

variable {env : Platform}

/-! ## What a parsed record looks like -/

theorem splitUserinfo_spec {authority u p rest : Text}
    (h : splitUserinfo authority = (u, p, rest)) :
    (∀ c ∈ u, c ∈ authority) ∧ (∀ c ∈ p, c ∈ authority) ∧ (∀ c ∈ rest, c ∈ authority) ∧
      colon ∉ u ∧ atSign ∉ rest := by
  unfold splitUserinfo at h
  cases hlast : splitLast atSign authority with
  | none =>
    rw [hlast] at h
    cases h
    exact ⟨by simp, by simp, fun _ hc => hc, by simp, Split.splitLast_eq_none_iff.mp hlast⟩
  | some q =>
    obtain ⟨userinfo, r⟩ := q
    obtain ⟨rfl, hr⟩ := Split.splitLast_eq_some_iff.mp hlast
    rw [hlast] at h
    cases hfirst : splitFirst colon userinfo with
    | none =>
      simp only [hfirst] at h
      cases h
      exact ⟨fun c hc => by simp [hc], by simp, fun c hc => by simp [hc],
        Split.splitFirst_eq_none_iff.mp hfirst, hr⟩
    | some q =>
      obtain ⟨a, b⟩ := q
      obtain ⟨rfl, ha⟩ := Split.splitFirst_eq_some_iff.mp hfirst
      simp only [hfirst] at h
      cases h
      exact ⟨fun c hc => by simp [hc], fun c hc => by simp [hc], fun c hc => by simp [hc], ha, hr⟩

theorem splitBracket_spec {s h t : Text} (hsplit : splitBracket s = some (h, t)) :
    s = h ++ t ∧ h ≠ [] := by
  obtain ⟨heq, a, rfl, -⟩ := splitBracket_eq_some_iff.mp hsplit
  exact ⟨heq, List.cons_ne_nil _ _⟩

/-- The host text is the whole, or what stands before the port text or its colon. -/
theorem splitHostPort_cases (s : Text) :
    (∃ h t, splitBracket s = some (h, t) ∧ splitHostPort s = (h, t)) ∨
      (splitBracket s = none ∧ colon ∉ s ∧ splitHostPort s = (s, [])) ∨
      ∃ h t, splitBracket s = none ∧ s = h ++ colon :: t ∧ colon ∉ t ∧
        splitHostPort s = (h, t) := by
  unfold splitHostPort
  cases hbracket : splitBracket s with
  | some q => exact Or.inl ⟨q.1, q.2, rfl, rfl⟩
  | none =>
    right
    cases hlast : splitLast colon s with
    | none => exact Or.inl ⟨rfl, Split.splitLast_eq_none_iff.mp hlast, rfl⟩
    | some q =>
      obtain ⟨h, t⟩ := q
      obtain ⟨rfl, ht⟩ := Split.splitLast_eq_some_iff.mp hlast
      exact Or.inr ⟨h, t, rfl, rfl, ht, rfl⟩

theorem mem_of_mem_host {s h t : Text} (hsplit : splitHostPort s = (h, t)) :
    ∀ c ∈ h, c ∈ s := by
  intro c hc
  rcases splitHostPort_cases s with ⟨h', t', hbracket, heq⟩ | ⟨-, -, heq⟩ | ⟨h', t', -, rfl, -, heq⟩
  · rw [hsplit] at heq
    cases heq
    rw [(splitBracket_spec hbracket).1]
    exact List.mem_append_left _ hc
  · rw [hsplit] at heq
    cases heq
    exact hc
  · rw [hsplit] at heq
    cases heq
    exact List.mem_append_left _ hc

/-- What reading an authority amounts to. -/
theorem readAuthority_eq_some {scheme authority : Text} {a : Authority}
    (h : readAuthority env scheme authority = some a) :
    ∃ rest, splitUserinfo authority = (a.username, a.password, rest) ∧
      readHost env scheme rest = some (a.host, a.port) := by
  unfold readAuthority at h
  obtain ⟨q, hread, hq⟩ := Option.map_eq_some_iff.mp h
  cases hq
  exact ⟨_, rfl, hread⟩

theorem readHost_eq_some {scheme rest : Text} {q : Text × Option Nat}
    (h : readHost env scheme rest = some q) :
    ∃ p, readPort (splitHostPort rest).2 = some p ∧
      q.1 = keptHost scheme (env.toLowerCase (splitHostPort rest).1) ∧
      q.2 = keptPort scheme p := by
  unfold readHost at h
  obtain ⟨p, hread, hp⟩ := Option.map_eq_some_iff.mp h
  cases hp
  exact ⟨p, hread, rfl, rfl⟩

/-- What holds of every state object that `parseUrl` makes. -/
structure ParsedRecord (env : Platform) (r : Record) : Prop where
  username : ∀ c ∈ r.username, notDelimiter c = true
  username_colon : colon ∉ r.username
  password : ∀ c ∈ r.password, notDelimiter c = true
  host : ∀ c ∈ r.host, notDelimiter c = true
  host_at : atSign ∉ r.host
  host_lower : env.toLowerCase r.host = r.host
  port_le : ∀ n ∈ r.port, n ≤ 65535
  path_kept : ∀ c ∈ r.pathname, must true c = false
  search : ∀ q ∈ r.search, numberSign ∉ q

/-- What holds of those it makes for the special schemes. -/
structure SpecialRecord (env : Platform) (r : Record) : Prop extends ParsedRecord env r where
  special : isSpecial r.scheme = true
  port_kept : ∀ n ∈ r.port, defaultPortOf r.scheme ≠ some n
  path_absolute : r.pathname.head? = some slash
  path_encoded : encodePath env r.pathname = r.pathname

theorem isFile_of_special {scheme : Text} (h : isSpecial scheme = true) :
    isFile scheme = false := by
  rcases isSpecial_cases h with rfl | rfl | rfl | rfl | rfl <;> decide

theorem keptHost_special {scheme : Text} (h : isSpecial scheme = true) (host : Text) :
    keptHost scheme host = host := by
  simp [keptHost, isFile_of_special h]

theorem keptPort_eq_some {scheme : Text} {p : Option Nat} {n : Nat}
    (h : keptPort scheme p = some n) :
    p = some n ∧ (isSpecial scheme = true → defaultPortOf scheme ≠ some n) := by
  unfold keptPort at h
  split at h
  · cases h
  · next hkept =>
      subst h
      exact ⟨rfl, fun hspecial hdefault => hkept ⟨hspecial, hdefault.symm⟩⟩

/-- A non-letter below `0x80` in the lowered host stands in the text it was read from. -/
theorem mem_of_mem_host_lower {s : Text} {c : Nat} (hc : c < 0x80) (hletter : isLetter c = false)
    (hmem : c ∈ env.toLowerCase (splitHostPort s).1) : c ∈ s :=
  mem_of_mem_host rfl c ((env.mem_lower_iff _ _ hc hletter).mp hmem)

theorem notDelimiter_host {s : Text} (hs : ∀ c ∈ s, notDelimiter c = true) :
    ∀ c ∈ env.toLowerCase (splitHostPort s).1, notDelimiter c = true := by
  intro c hc
  rw [notDelimiter_iff]
  refine ⟨?_, ?_, ?_⟩ <;> rintro rfl <;>
    exact absurd (hs _ (mem_of_mem_host_lower (by decide) (by decide) hc)) (by decide)

theorem stops_of_slash {t : Text} (h : t.head? = some slash) :
    ∀ c ∈ t.head?, notDelimiter c = false := by
  intro c hc
  rw [h] at hc
  rw [← Option.some.inj hc]
  decide

/-- A path that is read behind an authority is empty or absolute. -/
theorem head_path {path : Text} {query fragment : Option Text} (h : Tail path query fragment)
    (ht : ∀ c ∈ (path ++ (marked questionMark query ++ marked numberSign fragment)).head?,
      notDelimiter c = false) (hpath : path ≠ []) : path.head? = some slash := by
  cases path with
  | nil => exact absurd rfl hpath
  | cons c r =>
    have hc := notDelimiter_eq_false_iff.mp (ht c rfl)
    rcases hc with rfl | rfl | rfl
    · rfl
    · exact absurd (List.mem_cons_self) h.path_query
    · exact absurd (List.mem_cons_self) h.path_fragment

theorem lower_keptHost (scheme host : Text) :
    env.toLowerCase (keptHost scheme (env.toLowerCase host)) =
      keptHost scheme (env.toLowerCase host) := by
  unfold keptHost
  split
  · exact env.lower_nil
  · exact env.lower_lower host

theorem mem_of_mem_keptHost {scheme host : Text} {c : Nat} (hc : c ∈ keptHost scheme host) :
    c ∈ host := by
  unfold keptHost at hc
  split at hc
  · cases hc
  · exact hc

/-- An authority and a tail that are read make a record of that form. -/
theorem parsedRecord_mkRecord {scheme a path : Text} {query fragment : Option Text}
    {au : Authority} (ha : ∀ c ∈ a, notDelimiter c = true)
    (hread : readAuthority env scheme a = some au) (htail : Tail path query fragment) :
    ParsedRecord env (mkRecord scheme au (storedPath env scheme path, query, fragment)) := by
  obtain ⟨rest, hsplit, hhost⟩ := readAuthority_eq_some hread
  obtain ⟨p, hport, hhost, hkept⟩ := readHost_eq_some hhost
  obtain ⟨husername, hpassword, hrest, hcolon, hat⟩ := splitUserinfo_spec hsplit
  replace hhost : au.host = keptHost scheme (env.toLowerCase (splitHostPort rest).1) := hhost
  constructor
  case username => exact fun c hc => ha c (husername c hc)
  case username_colon => exact hcolon
  case password => exact fun c hc => ha c (hpassword c hc)
  case host =>
    rw [mkRecord, hhost]
    exact fun c hc =>
      notDelimiter_host (fun c hc => ha c (hrest c hc)) c (mem_of_mem_keptHost hc)
  case host_at =>
    rw [mkRecord, hhost]
    exact fun hmem =>
      hat (mem_of_mem_host_lower (by decide) (by decide) (mem_of_mem_keptHost hmem))
  case host_lower =>
    rw [mkRecord, hhost]
    exact lower_keptHost _ _
  case port_le =>
    intro n hn
    obtain ⟨rfl, -⟩ := keptPort_eq_some (hkept.symm.trans hn)
    exact (readPort_le hport).1
  case path_kept => exact fun c hc => must_of_mem_storedPath hc
  case search => exact htail.query_fragment

/-- The path of a text with an authority is empty or absolute before it is stored. -/
theorem parsedRecord_of_readFull {scheme text : Text} {r : Record}
    (h : readFull env scheme text = some r) :
    ParsedRecord env r ∧ r.scheme = scheme ∧
      (∃ a, readAuthority env scheme (text.takeWhile notDelimiter) = some a ∧ a.port = r.port) ∧
      ∃ path, (path ≠ [] → path.head? = some slash) ∧ r.pathname = storedPath env scheme path := by
  obtain ⟨a, t, rfl, ha, ht⟩ := Split.exists_span notDelimiter text
  obtain ⟨path, query, fragment, htail, rfl⟩ := exists_tail t
  rw [readFull_append ha ht, readTail_append scheme htail] at h
  obtain ⟨au, hread, rfl⟩ := Option.map_eq_some_iff.mp h
  rw [Split.takeWhile_append_stop ha ht]
  exact ⟨parsedRecord_mkRecord ha hread htail, rfl, ⟨au, hread, rfl⟩, path, head_path htail ht, rfl⟩

theorem specialRecord_of_readFull {scheme text : Text} {r : Record}
    (hspecial : isSpecial scheme = true) (h : readFull env scheme text = some r) :
    SpecialRecord env r := by
  obtain ⟨hparsed, rfl, ⟨au, hread, hau⟩, path, habs, hpath⟩ := parsedRecord_of_readFull h
  have hslash : (if path = [] then [slash] else path).head? = some slash := by
    by_cases hempty : path = []
    · rw [if_pos hempty, List.head?_cons]
    · rw [if_neg hempty]
      exact habs hempty
  rw [storedPath_special hspecial] at hpath
  constructor
  case toParsedRecord => exact hparsed
  case special => exact hspecial
  case port_kept =>
    intro n hn
    obtain ⟨rest, -, hhost⟩ := readAuthority_eq_some hread
    obtain ⟨p, -, -, hkept⟩ := readHost_eq_some hhost
    exact (keptPort_eq_some (hkept.symm.trans (hau.trans hn))).2 hspecial
  case path_absolute =>
    rw [hpath]
    exact head_encodePath hslash
  case path_encoded =>
    rw [hpath]
    exact encodePath_encodePath hslash

theorem readRest_scheme {scheme text : Text} {r : Record}
    (h : readRest env scheme text = some r) : r.scheme = scheme := by
  unfold readRest at h
  simp only at h
  split at h
  · cases h
  · cases h
    rfl

/-- Two leading slashes are dropped; what else there is of them stays. -/
theorem take_two_cases (text : Text) :
    (∃ rest, text = slash :: slash :: rest) ∨ text.take 2 ≠ [slash, slash] := by
  by_cases h : text.take 2 = [slash, slash]
  · left
    refine ⟨text.drop 2, ?_⟩
    rw [← List.take_append_drop 2 text, h]
    simp
  · exact Or.inr h

theorem specialRecord_of_readRest {scheme text : Text} {r : Record}
    (hspecial : isSpecial scheme = true) (h : readRest env scheme text = some r) :
    SpecialRecord env r := by
  rcases take_two_cases text with ⟨rest, rfl⟩ | hslashes
  · rw [readRest_slashes] at h
    exact specialRecord_of_readFull hspecial h
  · rw [readRest_full (Or.inl hspecial) hslashes] at h
    exact specialRecord_of_readFull hspecial h

/-- What `parseUrl` reads without a base starts with a scheme. -/
theorem parseUrl_eq_some {input : Text} {r : Record} (h : parseUrl env input none = some r) :
    ∃ scheme rest, splitScheme (stripC0 input) = some (scheme, rest) ∧
      readRest env (env.toLowerCase scheme) rest = some r := by
  unfold parseUrl at h
  cases hsplit : splitScheme (stripC0 input) with
  | none =>
    rw [hsplit] at h
    cases h
  | some q =>
    rw [hsplit] at h
    exact ⟨q.1, q.2, rfl, h⟩

theorem specialRecord_of_parseUrl {input : Text} {r : Record}
    (h : parseUrl env input none = some r) (hspecial : isSpecial r.scheme = true) :
    SpecialRecord env r := by
  obtain ⟨scheme, rest, -, hread⟩ := parseUrl_eq_some h
  rw [readRest_scheme hread] at hspecial
  exact specialRecord_of_readRest hspecial hread

/-! ## Reading a printed authority again -/

/-- Hosts that are read back, with their port, from the text printed for them. -/
def HostReadable (r : Record) : Prop :=
  r.host = [] ∨
    match r.port with
    | some _ => splitBracket r.host = none
    | none => splitHostPort r.host = (r.host, []) ∨
        ∃ h n, splitBracket r.host = none ∧ r.host = h ++ colon :: decimal n ∧ h ≠ [] ∧
          n ≤ 65535 ∧ defaultPortOf r.scheme ≠ some n

theorem keptPort_some {scheme : Text} {n : Nat} (h : defaultPortOf scheme ≠ some n) :
    keptPort scheme (some n) = some n := by
  unfold keptPort
  rw [if_neg]
  exact fun hdefault => h hdefault.2.symm

theorem hostText_of_ne_nil {host : Text} (h : host ≠ []) (port : Option Nat) :
    hostText host port = host ++ portText port := by
  simp [hostText, h]

theorem hostText_length_le {host : Text} {port : Option Nat} (h : host = [] ∨ port = none) :
    (hostText host port).length ≤ host.length := by
  rcases h with rfl | rfl
  · simp [hostText]
  · unfold hostText portText
    split <;> simp

/-- A host that looks as if it had a port of its own is printed the same only when it has. -/
theorem host_with_colon {scheme host t : Text} {port p : Option Nat}
    (hspecial : isSpecial scheme = true) (hport : readPort t = some p)
    (hp : port = keptPort scheme p) (hprint : hostText host port = host ++ colon :: t) :
    ∃ n, t = decimal n ∧ host ≠ [] ∧ n ≤ 65535 ∧ defaultPortOf scheme ≠ some n := by
  have hshown : ¬ (host = [] ∨ port = none) := by
    intro hnone
    have hle := hostText_length_le hnone
    rw [hprint, List.length_append, List.length_cons] at hle
    omega
  rw [not_or] at hshown
  obtain ⟨n, rfl⟩ := Option.ne_none_iff_exists'.mp hshown.2
  obtain ⟨rfl, hdefault⟩ := keptPort_eq_some hp.symm
  rw [hostText_of_ne_nil hshown.1, portText] at hprint
  have ht : colon :: decimal n = colon :: t := List.append_cancel_left hprint
  exact ⟨n, (List.cons.inj ht).2.symm, hshown.1, (readPort_le hport).1, hdefault hspecial⟩

theorem splitHostPort_length (x : Text) :
    (splitHostPort x).1.length ≤ x.length ∧
      ((splitHostPort x).1.length = x.length → splitHostPort x = (x, [])) := by
  rcases splitHostPort_cases x with ⟨h, t, hbracket, hsplit⟩ | ⟨-, -, hsplit⟩ |
    ⟨h, t, -, rfl, -, hsplit⟩
  · obtain ⟨rfl, -⟩ := splitBracket_spec hbracket
    rw [hsplit, List.length_append]
    refine ⟨by simp, fun hlen => ?_⟩
    have ht : t = [] := by simpa using hlen
    simp [ht]
  · simp [hsplit]
  · rw [hsplit, List.length_append, List.length_cons]
    exact ⟨by simp, fun hlen => by simp at hlen⟩

theorem ascii_of_digit {c : Nat} (h : isDigit c = true) : c < 0x80 := by
  simp only [isDigit, Bool.and_eq_true, decide_eq_true_eq] at h
  omega

theorem digits_of_readPort {t : Text} {p : Option Nat} (h : readPort t = some p) :
    ∀ c ∈ t, isDigit c = true := by
  cases p with
  | none => simp [readPort_none_iff.mp h]
  | some n => exact List.all_eq_true.mp (readPort_le h).2.1

/-- The host within a lowered text is lowered. -/
theorem lower_splitHostPort {x : Text} {p : Option Nat} (hlower : env.toLowerCase x = x)
    (hport : readPort (splitHostPort x).2 = some p) :
    env.toLowerCase (splitHostPort x).1 = (splitHostPort x).1 := by
  rcases splitHostPort_cases x with ⟨h, t, hbracket, hsplit⟩ | ⟨-, -, hsplit⟩ |
    ⟨h, t, -, rfl, -, hsplit⟩
  · obtain ⟨rfl, -⟩ := splitBracket_spec hbracket
    rw [hsplit] at hport ⊢
    cases t with
    | nil => simpa using hlower
    | cons c t =>
      have hdigit := digits_of_readPort hport c List.mem_cons_self
      exact (env.lower_parts _ _ _ (ascii_of_digit hdigit) hlower).1
  · rw [hsplit]
    exact hlower
  · rw [hsplit]
    exact (env.lower_parts _ _ _ (by decide) hlower).1

theorem keptHost_length (scheme host : Text) : (keptHost scheme host).length ≤ host.length := by
  unfold keptHost
  split <;> simp

theorem readHost_length {scheme x : Text} {q : Text × Option Nat} (hlower : env.toLowerCase x = x)
    (h : readHost env scheme x = some q) : q.1.length ≤ (splitHostPort x).1.length := by
  obtain ⟨p, hport, hhost, -⟩ := readHost_eq_some h
  rw [hhost, lower_splitHostPort hlower hport]
  exact keptHost_length _ _

/-- What follows a bracketed literal is a port without a colon, so it is never printed back. -/
theorem bracket_tail_nil {scheme host h t : Text} {q : Text × Option Nat}
    (hlower : env.toLowerCase host = host) (hspecial : isSpecial scheme = true)
    (hbracket : splitBracket host = some (h, t)) (hread : readHost env scheme host = some q)
    (hprint : hostText q.1 q.2 = host) : t = [] := by
  have hsplit : splitHostPort host = (h, t) := by rw [splitHostPort, hbracket]
  obtain ⟨p, hport, hhost, -⟩ := readHost_eq_some hread
  rw [keptHost_special hspecial, lower_splitHostPort hlower hport, hsplit] at hhost
  rw [hsplit] at hport
  obtain ⟨rfl, hne⟩ := splitBracket_spec hbracket
  rw [hhost, hostText_of_ne_nil hne] at hprint
  have htail : portText q.2 = t := List.append_cancel_left hprint
  cases t with
  | nil => rfl
  | cons c t =>
    have hdigit := digits_of_readPort hport c List.mem_cons_self
    cases hq : q.2 with
    | none =>
      rw [hq] at htail
      cases htail
    | some m =>
      rw [hq, portText] at htail
      rw [← (List.cons.inj htail).1] at hdigit
      exact absurd hdigit (by decide)

theorem readHost_bare_iff {scheme host : Text} (hspecial : isSpecial scheme = true)
    (hempty : host ≠ []) (hlower : env.toLowerCase host = host) :
    (∃ q, readHost env scheme host = some q ∧ hostText q.1 q.2 = host) ↔
      splitHostPort host = (host, []) ∨
        ∃ h n, splitBracket host = none ∧ host = h ++ colon :: decimal n ∧ h ≠ [] ∧
          n ≤ 65535 ∧ defaultPortOf scheme ≠ some n := by
  constructor
  · rintro ⟨q, hread, hprint⟩
    rcases splitHostPort_cases host with ⟨h, t, hbracket, hsplit⟩ | ⟨-, -, hsplit⟩ |
      ⟨h, t, hbracket, rfl, -, hsplit⟩
    · have ht := bracket_tail_nil hlower hspecial hbracket hread hprint
      obtain ⟨hwhole, -⟩ := splitBracket_spec hbracket
      rw [ht, List.append_nil] at hwhole
      left
      rw [hsplit, ht, hwhole]
    · exact Or.inl hsplit
    · obtain ⟨p, hport, hhost, hkept⟩ := readHost_eq_some hread
      rw [hsplit, keptHost_special hspecial, (env.lower_parts _ _ _ (by decide) hlower).1] at hhost
      rw [hsplit] at hport
      rw [hhost] at hprint
      obtain ⟨n, rfl, hne, hle, hdefault⟩ := host_with_colon hspecial hport hkept hprint
      exact Or.inr ⟨h, n, hbracket, rfl, hne, hle, hdefault⟩
  · rintro (hsplit | ⟨h, n, hbracket, rfl, hne, hle, hdefault⟩)
    · have hread : readHost env scheme host = some (host, none) := by
        rw [readHost, hsplit]
        simp only [readPort_none_iff.mpr, Option.map_some, hlower, keptHost_special hspecial,
          keptPort_none]
      exact ⟨_, hread, by simp [hostText_of_ne_nil hempty, portText]⟩
    · have hbracket' : splitBracket h = none := by
        cases hh : splitBracket h with
        | none => rfl
        | some q =>
          rw [splitBracket_append _ hh] at hbracket
          cases hbracket
      have hread : readHost env scheme (h ++ colon :: decimal n) = some (h, some n) := by
        rw [readHost_port scheme hbracket' hle, keptHost_special hspecial,
          keptPort_some hdefault, (env.lower_parts _ _ _ (by decide) hlower).1]
      exact ⟨_, hread, hostText_of_ne_nil hne _⟩

/-- A printed authority gives the text it was printed from exactly for a readable host. -/
theorem readHost_hostText_iff {r : Record} (h : SpecialRecord env r) :
    (∃ q, readHost env r.scheme (hostText r.host r.port) = some q ∧
        hostText q.1 q.2 = hostText r.host r.port) ↔ HostReadable r := by
  unfold HostReadable
  by_cases hempty : r.host = []
  · simp only [hempty, true_or, iff_true]
    exact ⟨_, readHost_nil _, by simp [hostText]⟩
  have hkept : ∀ n ∈ r.port, keptPort r.scheme (some n) = some n :=
    fun n hn => keptPort_some (h.port_kept n hn)
  have hle := h.port_le
  rw [hostText_of_ne_nil hempty]
  cases hport : r.port with
  | some n =>
    rw [hport] at hkept hle
    by_cases hbracket : splitBracket r.host = none
    · have hread : readHost env r.scheme (r.host ++ portText (some n)) =
          some (r.host, some n) := by
        rw [portText, readHost_port _ hbracket (hle n rfl), keptHost_special h.special,
          h.host_lower, hkept n rfl]
      simp only [hbracket, or_true, iff_true]
      exact ⟨_, hread, hostText_of_ne_nil hempty _⟩
    · have hread : readHost env r.scheme (r.host ++ colon :: decimal n) = none :=
        readHost_bracket_port r.scheme hbracket
      simp [portText, hread, hbracket, hempty]
  | none =>
    rw [portText, List.append_nil]
    simp only [hempty, false_or]
    exact readHost_bare_iff h.special hempty h.host_lower

theorem userinfoText_encode_username (username password : Text) :
    userinfoText env (encodeSet env username false) password =
      userinfoText env username password := by
  simp only [userinfoText, ne_eq, encodeSet_eq_nil_iff, encodeSet_encodeSet]

theorem userinfoText_encode_password (username password : Text) :
    userinfoText env username (encodeSet env password false) =
      userinfoText env username password := by
  simp only [userinfoText, ne_eq, encodeSet_eq_nil_iff, encodeSet_encodeSet]

theorem userinfoText_eq_nil_iff {username password : Text} :
    userinfoText env username password = [] ↔ username = [] ∧ password = [] := by
  unfold userinfoText
  split
  · next hshown =>
      have hnone : ¬ (username = [] ∧ password = []) := by
        rw [not_and_or]
        exact hshown
      simp [hnone]
  · next hshown => simpa using hshown

theorem notDelimiter_encodeSet {s : Text} (hs : ∀ c ∈ s, notDelimiter c = true) :
    ∀ c ∈ encodeSet env s false, notDelimiter c = true := by
  intro c hc
  rw [notDelimiter_iff]
  refine ⟨?_, ?_, ?_⟩ <;> rintro rfl
  · exact absurd (hs _ (inert_slash.mem_encodeSet.mp hc)) (by decide)
  · exact absurd (hs _ (inert_questionMark.mem_encodeSet.mp hc)) (by decide)
  · exact absurd (hs _ (inert_numberSign.mem_encodeSet.mp hc)) (by decide)

/-- A character of a host text is one of the host, of a port, or the colon between them. -/
theorem mem_hostText {host : Text} {port : Option Nat} {c : Nat} (hc : c ∈ hostText host port) :
    c ∈ host ∨ c = colon ∨ isDigit c = true := by
  unfold hostText at hc
  split at hc
  · rcases List.mem_append.mp hc with hc | hc
    · exact Or.inl hc
    · cases port with
      | none => cases hc
      | some n =>
        rcases List.mem_cons.mp hc with hc | hc
        · exact Or.inr (Or.inl hc)
        · exact Or.inr (Or.inr (isDigit_of_mem_decimal hc))
  · cases hc

theorem not_mem_hostText {host : Text} {port : Option Nat} {c : Nat} (hhost : c ∉ host)
    (hcolon : c ≠ colon) (hdigit : isDigit c = false) : c ∉ hostText host port := by
  intro hc
  rcases mem_hostText hc with hc | hc | hc
  · exact hhost hc
  · exact hcolon hc
  · exact absurd hc (by simp [hdigit])

theorem notDelimiter_hostText {host : Text} (port : Option Nat)
    (hhost : ∀ c ∈ host, notDelimiter c = true) :
    ∀ c ∈ hostText host port, notDelimiter c = true := by
  intro c hc
  rw [notDelimiter_iff]
  refine ⟨?_, ?_, ?_⟩ <;> rintro rfl <;>
    exact not_mem_hostText (fun hmem => absurd (hhost _ hmem) (by decide)) (by decide)
      (by decide) hc

theorem notDelimiter_userinfoText {username password : Text}
    (husername : ∀ c ∈ username, notDelimiter c = true)
    (hpassword : ∀ c ∈ password, notDelimiter c = true) :
    ∀ c ∈ userinfoText env username password, notDelimiter c = true := by
  have hu : ∀ c ∈ encodeSet env username false, notDelimiter c = true :=
    notDelimiter_encodeSet husername
  have hp : ∀ c ∈ encodeSet env password false, notDelimiter c = true :=
    notDelimiter_encodeSet hpassword
  have hcolon : notDelimiter colon = true := by decide
  have hat : notDelimiter atSign = true := by decide
  intro c hc
  unfold userinfoText at hc
  split at hc
  · split at hc <;> simp at hc <;> grind
  · cases hc

/-- A printed authority has none of the characters that end one. -/
theorem notDelimiter_authority {username password host : Text} (port : Option Nat)
    (husername : ∀ c ∈ username, notDelimiter c = true)
    (hpassword : ∀ c ∈ password, notDelimiter c = true)
    (hhost : ∀ c ∈ host, notDelimiter c = true) :
    ∀ c ∈ userinfoText env username password ++ hostText host port, notDelimiter c = true := by
  exact List.forall_mem_append.mpr
    ⟨notDelimiter_userinfoText husername hpassword, notDelimiter_hostText port hhost⟩

theorem ParsedRecord.authorityText_delimiter {r : Record} (h : ParsedRecord env r) :
    ∀ c ∈ r.authorityText env, notDelimiter c = true :=
  notDelimiter_authority r.port h.username h.password h.host

/-- A printed authority is read as one with the same text exactly for a readable host. -/
theorem readAuthority_authorityText_iff {r : Record} (h : SpecialRecord env r) :
    (∃ a, readAuthority env r.scheme (r.authorityText env) = some a ∧
        userinfoText env a.username a.password ++ hostText a.host a.port =
          r.authorityText env) ↔ HostReadable r := by
  have hat : atSign ∉ hostText r.host r.port := not_mem_hostText h.host_at (by decide) (by decide)
  rw [← readHost_hostText_iff h, Record.authorityText,
    readAuthority_append r.scheme h.username_colon hat]
  constructor
  · rintro ⟨a, hread, hprint⟩
    obtain ⟨q, hq, rfl⟩ := Option.map_eq_some_iff.mp hread
    rw [userinfoText_encode_username, userinfoText_encode_password] at hprint
    exact ⟨q, hq, List.append_cancel_left hprint⟩
  · rintro ⟨q, hq, hprint⟩
    refine ⟨_, by rw [hq, Option.map_some], ?_⟩
    rw [userinfoText_encode_username, userinfoText_encode_password, hprint]

/-- `new URL('http://h/a')` -/
def plainRecord : Record where
  scheme := units "http"
  username := []
  password := []
  host := units "h"
  port := none
  pathname := units "/a"
  search := none
  hash := none

end Url
