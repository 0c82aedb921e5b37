import QuickjsRuntime.Url.AuthoritySetters

/-!
# Setters of host and port

When assigning `port`, `host` or `hostname` is contained.
-/

namespace Url

open Utf16 (Text units decimal)
open Split (splitFirst splitLast)

variable {env : Platform} {r x : Record}

/-! ## Hosts behind unchanged credentials -/

/-- The printed credentials of a record. -/
def Record.userinfo (env : Platform) (r : Record) : Text :=
  userinfoText env r.username r.password

theorem SettledRecord.readAuthority_host (h : SettledRecord env r) {y : Text} (hy : atSign ∉ y) :
    readAuthority env r.scheme (r.userinfo env ++ y) =
      (readHost env r.scheme y).map fun q => ⟨r.username, r.password, q.1, q.2⟩ := by
  obtain ⟨husername, hpassword, -⟩ := h.credentials
  rw [Record.userinfo, readAuthority_append _ h.username_colon hy, husername, hpassword]

theorem SettledRecord.userinfo_delimiter (h : SettledRecord env r) :
    ∀ c ∈ r.userinfo env, notDelimiter c = true :=
  notDelimiter_userinfoText h.username h.password

theorem SettledRecord.host_delimiter (h : SettledRecord env r) {y : Text}
    (hy : ∀ c ∈ y, notDelimiter c = true) : ∀ c ∈ r.userinfo env ++ y, notDelimiter c = true := by
  exact List.forall_mem_append.mpr ⟨h.userinfo_delimiter, hy⟩

theorem keptHost_keptHost (scheme host : Text) :
    keptHost scheme (keptHost scheme host) = keptHost scheme host := by
  unfold keptHost
  split
  · split <;> rfl
  · rfl

theorem SettledRecord.keptHost_host (h : SettledRecord env r) :
    keptHost r.scheme r.host = r.host := by
  obtain ⟨-, -, hread⟩ := h.credentials
  obtain ⟨p, -, hhost, -⟩ := readHost_eq_some hread
  replace hhost : r.host = keptHost r.scheme _ := hhost
  rw [hhost, keptHost_keptHost]

/-- What is left of a host text in front of the tail. -/
def strippedHost (r : Record) (y : Text) : Text :=
  if r.tailText = [] then y.rdropWhile isC0 else y

theorem SettledRecord.strip_host (h : SettledRecord env r) (y : Text) :
    (r.userinfo env ++ y ++ r.tailText).rdropWhile isC0 =
      r.userinfo env ++ strippedHost r y ++ r.tailText := by
  unfold strippedHost
  by_cases htail : r.tailText = []
  · rw [htail, List.append_nil, List.append_nil, if_pos rfl]
    exact strip_append (ends_userinfoText _ _) y
  · rw [if_neg htail]
    exact (h.ends.of_append.append _ htail).strip

theorem strippedHost_of_ends {y : Text} (hy : Ends y) : strippedHost r y = y := by
  unfold strippedHost
  split
  · exact hy.strip
  · rfl

theorem mem_of_mem_strippedHost {y : Text} {c : Nat} (hc : c ∈ strippedHost r y) : c ∈ y := by
  unfold strippedHost at hc
  split at hc
  · have hinit := List.rdropWhile_prefix isC0 y
    exact hinit.subset hc
  · exact hc

theorem ends_hostText_port {host : Text} (n : Nat) : Ends (host ++ colon :: decimal n) :=
  (ends_decimal n).append_cons _ (by decide)

/-- A host text without delimiters in front of the old tail. -/
theorem SettledRecord.exists_host_iff (h : SettledRecord env r)
    (hpath : Rooted r.pathname) {y : Text}
    (hy : ∀ c ∈ y, notDelimiter c = true) (hat : atSign ∉ y) {p : Record → Prop} :
    (∃ w, readFull env r.scheme (r.userinfo env ++ y ++ r.tailText) = some w ∧ p w) ↔
      ∃ q, readHost env r.scheme y = some q ∧
        p (mkRecord r.scheme ⟨r.username, r.password, q.1, q.2⟩
          (readTail env r.scheme r.tailText)) := by
  rw [exists_readFull_iff (h.host_delimiter hy) (stops_tailText hpath), h.readAuthority_host hat]
  constructor
  · rintro ⟨au, hread, hp⟩
    obtain ⟨q, hq, rfl⟩ := Option.map_eq_some_iff.mp hread
    exact ⟨q, hq, hp⟩
  · rintro ⟨q, hq, hp⟩
    exact ⟨_, by rw [hq, Option.map_some], hp⟩

/-- A bracketed host with a port is not read; any other is. -/
theorem exists_readHost_port_iff {scheme host : Text} {n : Nat} (hn : n ≤ 65535)
    {p : Text × Option Nat → Prop}
    (hp : p (keptHost scheme (env.toLowerCase host), keptPort scheme (some n))) :
    (∃ q, readHost env scheme (host ++ colon :: decimal n) = some q ∧ p q) ↔
      splitBracket host = none := by
  constructor
  · rintro ⟨q, hread, -⟩
    by_contra hbracket
    rw [readHost_bracket_port scheme hbracket] at hread
    cases hread
  · intro hbracket
    exact ⟨_, readHost_port scheme hbracket hn, hp⟩

/-! ## `port` -/

/-- The host of a record goes with a port. Without a port the host is read alone, and with
one a bracketed host is not read at all. -/
def PortFits (env : Platform) (r : Record) : Option Nat → Prop
  | some _ => splitBracket r.host = none
  | none => splitHostPort r.host = (r.host, []) ∧ Ends (r.userinfo env ++ r.host ++ r.tailText)

/-- The rule for `port`. -/
def PortAllowed (env : Platform) (r : Record) (v : Text) : Prop :=
  { r with port := assignedPort r.scheme r.port v }.PathFits ∧
    (r.host ≠ [] → PortFits env r (assignedPort r.scheme r.port v))

theorem kept_of_port {w : Record} (hscheme : w.scheme = r.scheme) :
    Setter.port.Leaves w r ↔
      w.username = r.username ∧ w.password = r.password ∧ w.host = r.host ∧ SameTail w r := by
  rw [kept_fields_iff _ hscheme]
  simp [Setter.assigns, SameTail]

theorem assignedPort_le {scheme v : Text} {port : Option Nat} (hport : ∀ n ∈ port, n ≤ 65535) :
    ∀ n ∈ assignedPort scheme port v, n ≤ 65535 := by
  intro n hn
  unfold assignedPort at hn
  split at hn
  · cases hn
  · split at hn
    · exact hport n hn
    · next m _ =>
        split at hn
        · exact hport n hn
        · next hrange =>
            split at hn
            · cases hn
            · rw [← Option.some.inj hn]
              omega

/-- A host that is printed alone comes back only if nothing of it is stripped or looks like a
port. -/
theorem SettledRecord.bare_host_iff (h : SettledRecord env r) (hempty : r.host ≠ []) :
    (∃ q, readHost env r.scheme (strippedHost r r.host) = some q ∧ q.1 = r.host) ↔
      splitHostPort r.host = (r.host, []) ∧ Ends (r.userinfo env ++ r.host ++ r.tailText) := by
  rw [← readHost_keeps_iff h.host_lower h.keptHost_host]
  by_cases htail : r.tailText = []
  · rw [strippedHost, if_pos htail, htail, List.append_nil]
    constructor
    · rintro ⟨q, hread, hq⟩
      have hends := ends_of_readHost h.host_lower hread hq
      rw [hends.strip] at hread
      exact ⟨⟨q, hread, hq⟩, hends.append _ hempty⟩
    · rintro ⟨⟨q, hread, hq⟩, hends⟩
      exact ⟨q, by rwa [hends.of_append.strip], hq⟩
  · rw [strippedHost, if_neg htail]
    exact (and_iff_left (h.ends.of_append.append _ htail)).symm

theorem SettledRecord.kept_port_iff (h : SettledRecord env r)
    (hpath : Rooted r.pathname) {port : Option Nat}
    (hport : ∀ n ∈ port, n ≤ 65535) :
    (∃ w, readFull env r.scheme
        ((r.userinfo env ++ hostText r.host port ++ r.tailText).rdropWhile isC0) = some w ∧
        Setter.port.Leaves w r) ↔
      (r.host ≠ [] → PortFits env r port) := by
  have hdelim := notDelimiter_hostText port h.host
  have hat : atSign ∉ hostText r.host port := not_mem_hostText h.host_at (by decide) (by decide)
  by_cases hempty : r.host = []
  · -- without a host no port is printed, whatever it is
    have htext : hostText r.host port = hostText r.host r.port := by simp [hostText, hempty]
    simp only [hempty, ne_eq, not_true_eq_false, false_imp_iff, iff_true]
    obtain ⟨-, -, hread⟩ := h.credentials
    rw [← hempty, htext, Record.userinfo, ← Record.authorityText, h.ends.strip,
      Record.authorityText, ← Record.userinfo]
    rw [htext] at hdelim hat
    rw [h.exists_host_iff hpath hdelim hat]
    exact ⟨_, hread, (kept_of_port (r := r) (w := mkRecord r.scheme _ _) rfl).mpr
      ⟨rfl, rfl, rfl, sameTail_mkRecord.mpr h.readsTail⟩⟩
  rw [imp_iff_right hempty]
  cases port with
  | some n =>
    have htext : hostText r.host (some n) = r.host ++ colon :: decimal n :=
      hostText_of_ne_nil hempty _
    rw [htext] at hdelim hat ⊢
    rw [h.strip_host, strippedHost_of_ends (ends_hostText_port n),
      h.exists_host_iff hpath hdelim hat, PortFits]
    apply exists_readHost_port_iff (hport n rfl)
    rw [h.host_lower, h.keptHost_host]
    exact (kept_of_port (r := r) (w := mkRecord r.scheme _ _) rfl).mpr
      ⟨rfl, rfl, rfl, sameTail_mkRecord.mpr h.readsTail⟩
  | none =>
    have htext : hostText r.host none = r.host := by
      rw [hostText_of_ne_nil hempty, portText, List.append_nil]
    rw [htext, h.strip_host, h.exists_host_iff hpath
      (fun c hc => h.host c (mem_of_mem_strippedHost hc))
      (fun hmem => h.host_at (mem_of_mem_strippedHost hmem)), PortFits]
    refine Iff.trans (exists_congr fun q => and_congr_right fun _ => ?_) (h.bare_host_iff hempty)
    rw [kept_of_port (r := r) (w := mkRecord r.scheme _ _) rfl, sameTail_mkRecord]
    simp [mkRecord, h.readsTail]

theorem contained_port_iff (h : SettledRecord env r) (v : Text) :
    Contained env .port v r ↔ PortAllowed env r v := by
  apply h.contained_rule_iff ⟨rfl, rfl, rfl, rfl⟩ rfl
  · intro _ hpath
    exact h.kept_port_iff hpath (assignedPort_le h.port_le)
  · intro hhidden hhost
    obtain ⟨-, -, hnil, -⟩ := showsAuthority_eq_false_iff.mp hhidden
    exact absurd hnil hhost

/-! ## `host` -/

/-- A new host goes with its port in front of the tail of a record. -/
def HostFits (r : Record) (host : Text) : Option Nat → Prop
  | some _ => splitBracket host = none
  | none => readPort (splitHostPort (strippedHost r host)).2 ≠ none

/-- The rule for `host`. A value that cannot be parsed is ignored. -/
def HostAllowed (env : Platform) (r : Record) (v : Text) : Prop :=
  match parseUrl env (units "x-scheme://" ++ v) none with
  | none => True
  | some st =>
    { r with host := st.host, port := st.port }.PathFits ∧
      (st.host ≠ [] → HostFits r st.host st.port)

theorem kept_of_host {w : Record} (hscheme : w.scheme = r.scheme) :
    Setter.host.Leaves w r ↔ w.username = r.username ∧ w.password = r.password ∧ SameTail w r := by
  rw [kept_fields_iff _ hscheme]
  simp [Setter.assigns, SameTail]

theorem exists_readHost_iff (env : Platform) {scheme y : Text} :
    (∃ q, readHost env scheme y = some q) ↔ readPort (splitHostPort y).2 ≠ none := by
  rw [Option.ne_none_iff_exists']
  constructor
  · rintro ⟨q, hread⟩
    obtain ⟨p, hport, -⟩ := readHost_eq_some hread
    exact ⟨p, hport⟩
  · rintro ⟨p, hport⟩
    simp [readHost, hport]

theorem SettledRecord.kept_host_iff (h : SettledRecord env r)
    (hpath : Rooted r.pathname) {st : Record}
    (hst : ParsedRecord env st) :
    (∃ w, readFull env r.scheme
        ((r.userinfo env ++ hostText st.host st.port ++ r.tailText).rdropWhile isC0) = some w ∧
        Setter.host.Leaves w r) ↔
      (st.host ≠ [] → HostFits r st.host st.port) := by
  have hkept : ∀ q : Text × Option Nat,
      Setter.host.Leaves (mkRecord r.scheme ⟨r.username, r.password, q.1, q.2⟩
        (readTail env r.scheme r.tailText)) r := by
    intro q
    rw [kept_of_host (r := r) (w := mkRecord r.scheme _ _) rfl]
    exact ⟨rfl, rfl, sameTail_mkRecord.mpr h.readsTail⟩
  have hdelim : ∀ c ∈ strippedHost r (hostText st.host st.port), notDelimiter c = true :=
    fun c hc => notDelimiter_hostText _ hst.host c (mem_of_mem_strippedHost hc)
  have hat : atSign ∉ strippedHost r (hostText st.host st.port) :=
    fun hmem => hst.at_not_mem (mem_of_mem_strippedHost hmem)
  rw [h.strip_host, h.exists_host_iff hpath hdelim hat]
  by_cases hempty : st.host = []
  · have htext : strippedHost r (hostText st.host st.port) = [] := by
      rw [hostText, if_neg (by simp [hempty]), strippedHost_of_ends ends_nil]
    rw [htext]
    simp only [hempty, ne_eq, not_true_eq_false, false_imp_iff, iff_true]
    exact ⟨_, readHost_nil _, hkept _⟩
  rw [imp_iff_right hempty, hostText_of_ne_nil hempty]
  cases hport : st.port with
  | some n =>
    rw [portText, strippedHost_of_ends (ends_hostText_port n), HostFits]
    exact exists_readHost_port_iff (hst.port_le n hport) (hkept _)
  | none =>
    rw [portText, List.append_nil, HostFits, ← exists_readHost_iff env]
    constructor
    · rintro ⟨q, hread, -⟩
      exact ⟨q, hread⟩
    · rintro ⟨q, hread⟩
      exact ⟨q, hread, hkept q⟩

theorem SettledRecord.parse_self (h : SettledRecord env r) :
    ∃ w, parseUrl env (serialize env r) none = some w ∧ ∀ c, w.component c = r.component c := by
  refine ⟨_, h.parse_tail rfl rfl h.fits h.ends, ?_⟩
  rw [components_eq_iff]
  exact ⟨rfl, rfl, rfl, rfl, rfl, h.readsTail⟩

theorem contained_host_iff (h : SettledRecord env r) (v : Text) :
    Contained env .host v r ↔ HostAllowed env r v := by
  unfold HostAllowed
  cases hparse : parseUrl env (units "x-scheme://" ++ v) none with
  | none =>
    have hassign : assign env .host v r = r := by rw [assign, hparse]
    simp only [iff_true]
    rw [contained_iff, hassign]
    obtain ⟨w, hparse, hsame⟩ := h.parse_self
    exact ⟨w, hparse, fun c _ => hsame c⟩
  | some st =>
    have hassign : assign env .host v r = { r with host := st.host, port := st.port } := by
      rw [assign, hparse]
    have hst : ParsedRecord env st := by
      obtain ⟨scheme, rest, -, hread⟩ := parseUrl_eq_some hparse
      exact parsedRecord_of_readRest hread
    have hx : SameRest (assign env .host v r) r := by
      rw [hassign]
      exact ⟨rfl, rfl, rfl, rfl⟩
    simp only [← hassign]
    apply h.contained_rule_iff hx rfl
    · intro _ hpath
      have hkept := h.kept_host_iff hpath hst
      rw [hassign]
      exact hkept
    · intro hhidden hhost
      rw [hassign] at hhidden
      obtain ⟨-, -, hnil, -⟩ := showsAuthority_eq_false_iff.mp hhidden
      exact absurd hnil hhost

/-! ## `hostname` -/

/-- A host text is read with the port that a record has. -/
def KeepsPort (r : Record) (host : Text) : Prop :=
  match r.port with
  | some _ => splitBracket host = none
  | none => ∃ p, readPort (splitHostPort host).2 = some p ∧ keptPort r.scheme p = none

/-- A text in the place of the host that brings no credentials along and keeps the port. -/
def CleanHost (r : Record) (text : Text) : Prop :=
  ∃ host, splitUserinfo text = ([], [], host) ∧
    (atSign ∈ text → r.username = [] ∧ r.password = []) ∧ KeepsPort r host

/-- The rule for `hostname`. What is printed may end the authority early only without a port
and only in front of a tail that absorbs the rest. -/
def HostnameAllowed (env : Platform) (r : Record) (v : Text) : Prop :=
  let host := env.toLowerCase v
  let text := if r.port = none then strippedHost r host else host
  { r with host := host }.PathFits ∧ (host = [] → r.port = none) ∧
    (host ≠ [] → CleanHost r (text.takeWhile notDelimiter) ∧
      ∀ d b, text.dropWhile notDelimiter = d :: b → r.port = none ∧ Absorbed env r d b)

theorem kept_of_hostname {w : Record} (hscheme : w.scheme = r.scheme) :
    Setter.hostname.Leaves w r ↔
      (w.username = r.username ∧ w.password = r.password ∧ w.port = r.port) ∧ SameTail w r := by
  rw [kept_fields_iff _ hscheme]
  simp [Setter.assigns, SameTail, and_assoc]

theorem keptPort_keptPort (scheme : Text) (port : Option Nat) :
    keptPort scheme (keptPort scheme port) = keptPort scheme port := by
  unfold keptPort
  split
  · split <;> rfl
  · rfl

theorem SettledRecord.keptPort_port (h : SettledRecord env r) :
    keptPort r.scheme r.port = r.port := by
  obtain ⟨-, -, hread⟩ := h.credentials
  obtain ⟨p, -, -, hport⟩ := readHost_eq_some hread
  replace hport : r.port = keptPort r.scheme p := hport
  rw [hport, keptPort_keptPort]

theorem SettledRecord.keepsPort_iff (h : SettledRecord env r) (host : Text) :
    (∃ q, readHost env r.scheme (host ++ portText r.port) = some q ∧ q.2 = r.port) ↔
      KeepsPort r host := by
  unfold KeepsPort
  cases hport : r.port with
  | some n =>
    apply exists_readHost_port_iff (p := fun q => q.2 = some n) (h.port_le n hport)
    have hkept := h.keptPort_port
    rwa [hport] at hkept
  | none =>
    rw [portText, List.append_nil]
    constructor
    · rintro ⟨q, hread, hq⟩
      obtain ⟨p, hp, -, hkept⟩ := readHost_eq_some hread
      exact ⟨p, hp, hkept.symm.trans hq⟩
    · rintro ⟨p, hp, hkept⟩
      simp [readHost, hp, hkept]

theorem atSign_not_mem_portText (port : Option Nat) : atSign ∉ portText port := by
  cases port with
  | none => simp [portText]
  | some n => exact not_mem_portText (by decide) (by decide)

/-- Text without an at sign behind an authority does not change its credentials. -/
theorem splitUserinfo_append_right {z t u p b : Text} (hsplit : splitUserinfo z = (u, p, b))
    (ht : atSign ∉ t) : splitUserinfo (z ++ t) = (u, p, b ++ t) := by
  unfold splitUserinfo at hsplit ⊢
  cases hlast : splitLast atSign z with
  | none =>
    have hz := Split.splitLast_eq_none_iff.mp hlast
    rw [hlast] at hsplit
    cases hsplit
    rw [Split.splitLast_eq_none_iff.mpr (by simp [hz, ht])]
  | some q =>
    obtain ⟨y, b'⟩ := q
    obtain ⟨rfl, hb⟩ := Split.splitLast_eq_some_iff.mp hlast
    have hlast' : splitLast atSign (y ++ atSign :: b' ++ t) = some (y, b' ++ t) := by
      rw [List.append_assoc, List.cons_append]
      exact Split.splitLast_append (by simp [hb, ht])
    rw [hlast] at hsplit
    rw [hlast']
    cases hfirst : splitFirst colon y with
    | none =>
      simp only [hfirst] at hsplit ⊢
      cases hsplit
      rfl
    | some q =>
      simp only [hfirst] at hsplit ⊢
      cases hsplit
      rfl

/-- Credentials in front of a text with credentials of its own are not read back. -/
theorem splitUserinfo_twice {u p y rest u' p' rest' : Text} (hrest : atSign ∉ rest)
    (hsplit : splitUserinfo (u ++ optionalText colon p ++ atSign :: y ++ atSign :: rest) =
      (u', p', rest')) : ¬ (u' = u ∧ p' = p) := by
  rintro ⟨rfl, rfl⟩
  unfold splitUserinfo at hsplit
  rw [Split.splitLast_append hrest] at hsplit
  simp only at hsplit
  cases hfirst : splitFirst colon (u' ++ optionalText colon p' ++ atSign :: y) with
  | none =>
    rw [hfirst] at hsplit
    have hlen := congrArg List.length (congrArg Prod.fst hsplit)
    simp only [List.length_append, List.length_cons] at hlen
    omega
  | some q =>
    obtain ⟨a, b⟩ := q
    rw [hfirst] at hsplit
    cases hsplit
    obtain ⟨heq, -⟩ := Split.splitFirst_eq_some_iff.mp hfirst
    rw [List.append_assoc] at heq
    have hrest := List.append_cancel_left heq
    unfold optionalText at hrest
    split at hrest
    · have hlen := congrArg List.length hrest
      simp at hlen
    · simp [colon, atSign] at hrest

theorem userinfo_of_none (hcredentials : r.username = [] ∧ r.password = []) :
    r.userinfo env = [] := by
  rw [Record.userinfo, userinfoText_eq_nil_iff]
  exact hcredentials

/-- The credentials are read back in front of a text that brings none along. -/
theorem SettledRecord.splitUserinfo_iff (h : SettledRecord env r) {y rest : Text} :
    splitUserinfo (r.userinfo env ++ y) = (r.username, r.password, rest) ↔
      splitUserinfo y = ([], [], rest) ∧ (atSign ∈ y → r.username = [] ∧ r.password = []) := by
  by_cases hcredentials : r.username = [] ∧ r.password = []
  · simp [userinfo_of_none hcredentials, hcredentials]
  obtain ⟨husername, hpassword, -⟩ := h.credentials
  by_cases hy : atSign ∈ y
  · -- the old credentials would have to be read across an at sign
    simp only [hy, hcredentials, true_imp_iff, and_false, iff_false]
    intro hsplit
    obtain ⟨⟨a, b⟩, hlast⟩ : ∃ q, splitLast atSign y = some q := by
      apply Option.ne_none_iff_exists'.mp
      rw [ne_eq, Split.splitLast_eq_none_iff]
      exact not_not.mpr hy
    obtain ⟨rfl, hb⟩ := Split.splitLast_eq_some_iff.mp hlast
    rw [Record.userinfo, userinfoText_shown (not_and_or.mp hcredentials), husername, hpassword,
      List.append_assoc _ [atSign], List.singleton_append, ← List.cons_append,
      ← List.append_assoc] at hsplit
    exact splitUserinfo_twice hb hsplit ⟨rfl, rfl⟩
  · rw [Record.userinfo, splitUserinfo_append h.username_colon hy, husername, hpassword,
      splitUserinfo, Split.splitLast_eq_none_iff.mpr hy]
    simp [hy]

theorem SettledRecord.readAuthority_iff (h : SettledRecord env r) {y : Text} (host : Text)
    (port : Option Nat) :
    readAuthority env r.scheme (r.userinfo env ++ y) =
        some ⟨r.username, r.password, host, port⟩ ↔
      ∃ rest, splitUserinfo y = ([], [], rest) ∧
        (atSign ∈ y → r.username = [] ∧ r.password = []) ∧
        readHost env r.scheme rest = some (host, port) := by
  constructor
  · intro hread
    obtain ⟨rest, hsplit, hhost⟩ := readAuthority_eq_some hread
    obtain ⟨hy, hcredentials⟩ := h.splitUserinfo_iff.mp hsplit
    exact ⟨rest, hy, hcredentials, hhost⟩
  · rintro ⟨rest, hy, hcredentials, hhost⟩
    rw [readAuthority, h.splitUserinfo_iff.mpr ⟨hy, hcredentials⟩]
    simp only [hhost, Option.map_some]

/-- When an authority with another host text is read with the same credentials and port. -/
theorem SettledRecord.cleanHost_iff (h : SettledRecord env r) (z : Text) :
    (∃ au, readAuthority env r.scheme (r.userinfo env ++ (z ++ portText r.port)) = some au ∧
        au.username = r.username ∧ au.password = r.password ∧ au.port = r.port) ↔
      CleanHost r z := by
  have hport := atSign_not_mem_portText r.port
  rcases hsplit : splitUserinfo z with ⟨u, p, b⟩
  have hread := fun host => h.readAuthority_iff (y := z ++ portText r.port) host r.port
  simp only [splitUserinfo_append_right hsplit hport, List.mem_append, hport, or_false] at hread
  rw [CleanHost, hsplit]
  constructor
  · rintro ⟨⟨_, _, host, _⟩, hau, rfl, rfl, rfl⟩
    obtain ⟨rest, hrest, hcredentials, hhost⟩ := (hread host).mp hau
    cases hrest
    exact ⟨b, rfl, hcredentials, (h.keepsPort_iff b).mp ⟨_, hhost, rfl⟩⟩
  · rintro ⟨rest, hrest, hcredentials, hkeeps⟩
    cases hrest
    obtain ⟨⟨host, port⟩, hhost, rfl⟩ := (h.keepsPort_iff b).mpr hkeeps
    exact ⟨_, (hread host).mpr ⟨_, rfl, hcredentials, hhost⟩, rfl, rfl, rfl⟩

/-- The text that is read in the place of a new host. -/
theorem strippedHost_portText (host : Text) :
    strippedHost r (host ++ portText r.port) =
      (if r.port = none then strippedHost r host else host) ++ portText r.port := by
  cases hport : r.port with
  | none => simp [portText]
  | some n =>
    rw [portText, strippedHost_of_ends (ends_hostText_port n), if_neg (by simp)]

theorem notDelimiter_portText (port : Option Nat) :
    ∀ c ∈ portText port, notDelimiter c = true := by
  intro c hc
  cases port with
  | none => cases hc
  | some n =>
    rw [notDelimiter_iff]
    refine ⟨?_, ?_, ?_⟩ <;> rintro rfl <;>
      exact not_mem_portText (by decide) (by decide) hc

/-- A host text is read behind the credentials up to its first delimiter. -/
theorem SettledRecord.kept_host_text_iff (h : SettledRecord env r)
    (hpath : Rooted r.pathname) (text : Text) :
    (∃ w, readFull env r.scheme
        (r.userinfo env ++ (text ++ portText r.port) ++ r.tailText) = some w ∧
        Setter.hostname.Leaves w r) ↔
      CleanHost r (text.takeWhile notDelimiter) ∧
        ∀ d b, text.dropWhile notDelimiter = d :: b → r.port = none ∧ Absorbed env r d b := by
  have hport := notDelimiter_portText r.port
  obtain ⟨a, t, rfl, ha, ht⟩ := Split.exists_span notDelimiter text
  rw [Split.takeWhile_append_stop ha ht, Split.dropWhile_append_stop ha ht]
  cases t with
  | nil =>
    have hauthority : ∀ c ∈ a ++ portText r.port, notDelimiter c = true := by
      exact List.forall_mem_append.mpr ⟨ha, hport⟩
    rw [List.append_nil, exists_readFull_iff (h.host_delimiter hauthority) (stops_tailText hpath),
      ← h.cleanHost_iff]
    simp only [reduceCtorEq, false_imp_iff, implies_true, and_true]
    refine exists_congr fun au => and_congr_right fun _ => ?_
    rw [kept_of_hostname (r := r) (w := mkRecord r.scheme _ _) rfl, sameTail_mkRecord]
    exact and_iff_left h.readsTail
  | cons d b =>
    have hd := ht d rfl
    simp only [List.cons.injEq]
    cases hnone : r.port with
    | some n =>
      constructor
      · rintro ⟨w, hread, hkept⟩
        exfalso
        have htext : r.userinfo env ++ (a ++ d :: b ++ portText (some n)) ++ r.tailText =
            (r.userinfo env ++ (a ++ d :: b)) ++ colon :: decimal n ++ r.tailText := by
          simp [portText]
        rw [htext] at hread
        exact h.not_sameTail_of_delimiter hpath ⟨d, by simp, hd⟩ (by decide) (by decide)
          (not_mem_portText (by decide) (by decide)) hread
          ((kept_of_hostname (readFull_scheme hread)).mp hkept).2
      · rintro ⟨-, hall⟩
        cases (hall d b ⟨rfl, rfl⟩).1
    | none =>
      have htext : r.userinfo env ++ (a ++ d :: b ++ portText none) ++ r.tailText =
          (r.userinfo env ++ a) ++ d :: (b ++ r.tailText) := by
        simp [portText]
      have hstop : ∀ c ∈ (d :: (b ++ r.tailText)).head?, notDelimiter c = false :=
        fun c hc => Option.some.inj hc ▸ hd
      have hclean := h.cleanHost_iff a
      rw [hnone, portText, List.append_nil] at hclean
      rw [htext, exists_readFull_iff (h.host_delimiter ha) hstop, ← hclean]
      constructor
      · rintro ⟨au, hread, hkept⟩
        rw [kept_of_hostname (r := r) (w := mkRecord r.scheme _ _) rfl, sameTail_mkRecord,
          h.absorbed_iff hd, hnone] at hkept
        refine ⟨⟨au, hread, hkept.1⟩, ?_⟩
        rintro d' b' ⟨rfl, rfl⟩
        exact ⟨rfl, hkept.2⟩
      · rintro ⟨⟨au, hread, hfields⟩, hall⟩
        refine ⟨au, hread, ?_⟩
        rw [kept_of_hostname (r := r) (w := mkRecord r.scheme _ _) rfl, sameTail_mkRecord,
          h.absorbed_iff hd, hnone]
        exact ⟨hfields, (hall d b ⟨rfl, rfl⟩).2⟩

theorem SettledRecord.kept_hostname_iff (h : SettledRecord env r)
    (hpath : Rooted r.pathname) (host : Text) :
    (∃ w, readFull env r.scheme
        ((r.userinfo env ++ hostText host r.port ++ r.tailText).rdropWhile isC0) = some w ∧
        Setter.hostname.Leaves w r) ↔
      (host = [] → r.port = none) ∧
        (host ≠ [] →
          CleanHost r
              ((if r.port = none then strippedHost r host else host).takeWhile notDelimiter) ∧
            ∀ d b, (if r.port = none then strippedHost r host else host).dropWhile notDelimiter =
              d :: b → r.port = none ∧ Absorbed env r d b) := by
  rw [h.strip_host]
  by_cases hempty : host = []
  · have htext : strippedHost r (hostText host r.port) = [] := by
      rw [hostText, if_neg (by simp [hempty]), strippedHost_of_ends ends_nil]
    rw [htext, h.exists_host_iff hpath (by simp) (by simp), readHost_nil]
    simp only [hempty, true_imp_iff, ne_eq, not_true_eq_false, false_imp_iff, and_true,
      Option.some.injEq, exists_eq_left', sameTail_mkRecord, h.readsTail,
      kept_of_hostname (r := r) (w := mkRecord r.scheme _ _) rfl]
    simp [mkRecord, eq_comm]
  · rw [hostText_of_ne_nil hempty, strippedHost_portText, h.kept_host_text_iff hpath]
    simp [hempty]

theorem contained_hostname_iff (h : SettledRecord env r) (v : Text) :
    Contained env .hostname v r ↔ HostnameAllowed env r v := by
  apply h.contained_rule_iff ⟨rfl, rfl, rfl, rfl⟩ rfl
  · intro _ hpath
    exact h.kept_hostname_iff hpath _
  · intro hhidden
    obtain ⟨-, -, hhost, -, -, hport⟩ := showsAuthority_eq_false_iff.mp hhidden
    exact ⟨fun _ => hport, fun hne => absurd hhost hne⟩

end Url
