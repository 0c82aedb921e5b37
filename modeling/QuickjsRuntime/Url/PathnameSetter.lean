import QuickjsRuntime.Url.HostSetters
import QuickjsRuntime.Url.Pieces

/-!
# The setter of the path

When assigning `pathname` is contained. Behind an authority a path that is not absolute is
glued to it, and its text up to the first slash must be one that the authority does not show:
a default port, more zeros of the port `0`, or what stands for no credentials and no host.
With that the frame property of all setters: it holds exactly where the rule of the setter
does.
-/

namespace Url

open Utf16 (Text units isDigit decimal digitsValue decimal_ne_nil isDigit_of_mem_decimal
  digitsValue_append digitsValue_decimal digitsValue_eq_zero_iff)
open Split (splitFirst splitLast)

variable {env : Platform} {r x : Record}

/-! ## Text behind an authority -/

/-- A port text for which no port is stored. -/
def NoPort (scheme text : Text) : Prop :=
  text = [] ∨ (∀ c ∈ text, isDigit c = true) ∧ defaultPortOf scheme = some (digitsValue text)

/-- What may follow a host for which no port is stored. -/
def NoPortText (scheme text : Text) : Prop :=
  text = [] ∨ ∃ digits, text = colon :: digits ∧ NoPort scheme digits

/-- Text of an authority for which no host and no port is stored. -/
def NoHostText (env : Platform) (scheme text : Text) : Prop :=
  ∃ name port, text = name ++ port ∧ NoPortText scheme port ∧
    (name = [] ∨ isFile scheme = true ∧ env.toLowerCase name = units "localhost")

/-- Text behind the printed authority of a record that makes no difference to it. -/
def Record.Ignores (env : Platform) (r : Record) (text : Text) : Prop :=
  match r.port with
  | some n => text = [] ∨ n = 0 ∧ ∀ c ∈ text, c = 0x30
  | none =>
    if r.host = [] then
      ∃ front rest, text = front ++ rest ∧ NoHostText env r.scheme rest ∧
        (front = [] ∨ (r.username = [] ∧ r.password = []) ∧
          (front = [atSign] ∨ front = [colon, atSign]))
    else if splitBracket r.host = none then NoPortText r.scheme text
    else NoPort r.scheme text

theorem defaultPortOf_le {scheme : Text} {n : Nat} (h : defaultPortOf scheme = some n) :
    n ≤ 65535 := by
  unfold defaultPortOf at h
  split_ifs at h <;> (cases h; decide)

theorem noPort_iff {scheme text : Text} :
    NoPort scheme text ↔ ∃ p, readPort text = some p ∧ keptPort scheme p = none := by
  constructor
  · intro h
    by_cases hempty : text = []
    · exact ⟨none, readPort_none_iff.mpr hempty, keptPort_none scheme⟩
    · obtain ⟨hdigits, hdefault⟩ := h.resolve_left hempty
      have hread : readPort text = some (some (digitsValue text)) := by
        rw [readPort, if_neg hempty, if_neg (by simpa using hdigits),
          if_neg (Nat.not_lt.mpr (defaultPortOf_le hdefault))]
      exact ⟨_, hread, (keptPort_eq_none_iff hread).mpr (Or.inr hdefault)⟩
  · rintro ⟨p, hread, hkept⟩
    refine ((keptPort_eq_none_iff hread).mp hkept).imp_right fun hdefault => ⟨?_, hdefault⟩
    exact digits_of_readPort hread

/-- A host that is no bracketed literal is read back in front of nothing or of a port. -/
theorem readHost_append_iff {scheme host : Text} {port : Option Nat} (hne : host ≠ [])
    (hlower : env.toLowerCase host = host) (hkept : keptHost scheme host = host)
    (hbracket : splitBracket host = none) (text : Text) :
    readHost env scheme (host ++ text) = some (host, port) ↔
      (text = [] ∧ colon ∉ host ∧ port = none) ∨
        ∃ t p, text = colon :: t ∧ readPort t = some p ∧ keptPort scheme p = port := by
  constructor
  · intro hread
    obtain ⟨p, hport, hhost, hp⟩ := readHost_eq_some hread
    replace hhost : host = keptHost scheme _ := hhost
    rw [keptHost_of_ne_nil (hhost ▸ hne)] at hhost
    -- the text that is lowered is not longer than the host
    have hnil : ∀ t, (splitHostPort (host ++ text)).1 = host ++ t → t = [] := by
      intro t ht
      by_contra hne
      exact env.lower_append_ne host t hlower hne (by rw [← ht, ← hhost])
    rcases splitHostPort_cases (host ++ text) with ⟨h, t, hliteral, hsplit⟩ | ⟨-, hcolon, hsplit⟩ |
      ⟨h, t, -, htext, hcolon, hsplit⟩
    · exfalso
      obtain ⟨htext, hform⟩ := splitBracket_eq_some_iff.mp hliteral
      rcases List.append_eq_append_iff.mp htext with ⟨a, rfl, -⟩ | ⟨a, rfl, -⟩
      · have ha := hnil a (by rw [hsplit])
        rw [ha, List.append_nil] at hform
        rw [splitBracket_eq_some_iff.mpr ⟨(List.append_nil host).symm, hform⟩] at hbracket
        cases hbracket
      · rw [splitBracket_eq_some_iff.mpr ⟨rfl, hform⟩] at hbracket
        cases hbracket
    · have htext := hnil text (by rw [hsplit])
      rw [hsplit] at hport
      cases readPort_none_iff.mpr rfl ▸ hport
      rw [htext, List.append_nil] at hcolon
      exact Or.inl ⟨htext, hcolon, hp.trans (keptPort_none scheme)⟩
    · rw [hsplit] at hport hhost
      rcases List.append_eq_append_iff.mp htext with ⟨a, ha, rfl⟩ | ⟨a, ha, hrest⟩
      · cases hnil a (by rw [hsplit, ha])
        exact Or.inr ⟨t, p, rfl, hport, hp.symm⟩
      · cases a with
        | nil => exact Or.inr ⟨t, p, hrest.symm, hport, hp.symm⟩
        | cons c a =>
          -- the last colon would stand in the host, and the host would be what precedes it
          obtain ⟨rfl, -⟩ := List.cons.inj hrest
          rw [ha] at hlower hhost
          rw [(env.lower_parts _ _ _ (by decide) hlower).1] at hhost
          simp at hhost
  · rintro (⟨rfl, hcolon, rfl⟩ | ⟨t, p, rfl, hport, rfl⟩)
    · have hsplit : splitHostPort host = (host, []) := by
        rw [splitHostPort, hbracket]
        simp only [Split.splitLast_eq_none_iff.mpr hcolon, Option.getD_none]
      rw [List.append_nil, readHost, hsplit]
      simp only [readPort_none_iff.mpr, Option.map_some, hlower, hkept, keptPort_none]
    · rw [readHost, splitHostPort_port hbracket (digits_of_readPort hport)]
      simp only [hport, Option.map_some, hlower, hkept]

/-- What follows a bracketed literal is read as a port. -/
theorem readHost_literal_iff {scheme host text : Text} (hlower : env.toLowerCase host = host)
    (hkept : keptHost scheme host = host) (hliteral : splitBracket host = some (host, [])) :
    readHost env scheme (host ++ text) = some (host, none) ↔ NoPort scheme text := by
  rw [noPort_iff, readHost, splitHostPort, splitBracket_append _ hliteral]
  simp [hlower, hkept]

theorem not_mem_name {scheme name : Text} {c : Nat}
    (hname : name = [] ∨ isFile scheme = true ∧ env.toLowerCase name = units "localhost")
    (hc : c ∉ units "localhost") (hascii : c < 0x80) (hletter : isLetter c = false) :
    c ∉ name := by
  intro hmem
  rcases hname with rfl | ⟨-, hlocal⟩
  · cases hmem
  · rw [← env.mem_lower_iff _ _ hascii hletter, hlocal] at hmem
    exact hc hmem

theorem readHost_empty_iff {scheme text : Text} :
    readHost env scheme text = some ([], none) ↔ NoHostText env scheme text := by
  constructor
  · intro hread
    obtain ⟨p, hport, hhost, hp⟩ := readHost_eq_some hread
    have hname : (splitHostPort text).1 = [] ∨
        isFile scheme = true ∧ env.toLowerCase (splitHostPort text).1 = units "localhost" := by
      refine (keptHost_eq_nil_iff.mp hhost.symm).imp_left fun hnil => ?_
      by_contra hne
      exact env.lower_ne_nil _ hne hnil
    have hdigits := noPort_iff.mpr ⟨p, hport, hp.symm⟩
    rcases splitHostPort_cases text with ⟨h, t, hliteral, hsplit⟩ | ⟨-, -, hsplit⟩ |
      ⟨h, t, -, rfl, -, hsplit⟩
    · -- no literal is lowered to nothing or to `localhost`
      exfalso
      obtain ⟨-, a, rfl, -⟩ := splitBracket_eq_some_iff.mp hliteral
      rw [hsplit] at hname
      obtain ⟨-, hlocal⟩ := hname.resolve_left (List.cons_ne_nil _ _)
      have hmem := (env.mem_lower_iff (openBracket :: (a ++ [closeBracket])) openBracket (by decide)
        (by decide)).mpr List.mem_cons_self
      rw [hlocal] at hmem
      exact absurd hmem (by decide)
    · rw [hsplit] at hname
      exact ⟨text, [], (List.append_nil text).symm, Or.inl rfl, hname⟩
    · rw [hsplit] at hname hdigits
      exact ⟨h, colon :: t, rfl, Or.inr ⟨t, rfl, hdigits⟩, hname⟩
  · rintro ⟨name, port, rfl, hport, hname⟩
    have hbracket : splitBracket name = none := by
      by_contra hne
      obtain ⟨⟨h, t⟩, hliteral⟩ := Option.ne_none_iff_exists'.mp hne
      obtain ⟨rfl, a, rfl, -⟩ := splitBracket_eq_some_iff.mp hliteral
      exact not_mem_name hname (c := openBracket) (by decide) (by decide) (by decide) (by simp)
    have hkept : keptHost scheme (env.toLowerCase name) = [] := by
      refine keptHost_eq_nil_iff.mpr (hname.imp_left ?_)
      rintro rfl
      exact env.lower_nil
    rcases hport with rfl | ⟨t, rfl, hport⟩
    · have hcolon := not_mem_name hname (c := colon) (by decide) (by decide) (by decide)
      rw [List.append_nil, readHost, splitHostPort, hbracket]
      simp only [Split.splitLast_eq_none_iff.mpr hcolon, Option.getD_none, readPort_none_iff.mpr,
        Option.map_some, hkept, keptPort_none]
    · obtain ⟨p, hread, hp⟩ := noPort_iff.mp hport
      rw [readHost, splitHostPort_port hbracket (digits_of_readPort hread)]
      simp only [hread, Option.map_some, hkept, hp]

/-- More digits behind a port leave it as it is only if all of them are zeros. -/
theorem readPort_append_iff {n : Nat} {text : Text} (hn : n ≤ 65535) :
    readPort (decimal n ++ text) = some (some n) ↔ text = [] ∨ n = 0 ∧ ∀ c ∈ text, c = 0x30 := by
  have hvalue : digitsValue (decimal n ++ text) = n * 10 ^ text.length + digitsValue text := by
    rw [digitsValue_append, digitsValue_decimal]
  constructor
  · intro hread
    rw [or_iff_not_imp_left]
    intro hne
    obtain ⟨-, -, hn⟩ := readPort_le hread
    have hdigits : ∀ c ∈ text, isDigit c = true :=
      fun c hc => digits_of_readPort hread c (List.mem_append_right _ hc)
    have hten : 10 ≤ 10 ^ text.length :=
      Nat.le_self_pow (by simpa using hne) 10
    have hzero : n * 10 ≤ n * 10 ^ text.length := Nat.mul_le_mul_left n hten
    rw [← digitsValue_eq_zero_iff hdigits]
    omega
  · rintro (rfl | ⟨rfl, hzeros⟩)
    · rw [List.append_nil, readPort_decimal hn]
    · have hdigits : ∀ c ∈ text, isDigit c = true := by
        intro c hc
        rw [hzeros c hc]
        decide
      have hall : (decimal 0 ++ text).all isDigit = true := by
        rw [List.all_append, Bool.and_eq_true, List.all_eq_true, List.all_eq_true]
        exact ⟨fun c hc => isDigit_of_mem_decimal hc, hdigits⟩
      rw [(digitsValue_eq_zero_iff hdigits).mpr hzeros, Nat.zero_mul] at hvalue
      rw [readPort, if_neg (by simp [decimal_ne_nil]), if_neg (by rw [hall]; decide), hvalue]
      rfl

/-- Empty credentials are printed as nothing, an at sign, or a colon and an at sign. -/
theorem splitUserinfo_empty_iff {text rest : Text} :
    splitUserinfo text = ([], [], rest) ↔
      atSign ∉ rest ∧ ∃ front, text = front ++ rest ∧
        (front = [] ∨ front = [atSign] ∨ front = [colon, atSign]) := by
  constructor
  · intro hsplit
    obtain ⟨-, -, -, -, hrest⟩ := splitUserinfo_spec hsplit
    refine ⟨hrest, ?_⟩
    unfold splitUserinfo at hsplit
    cases hlast : splitLast atSign text with
    | none =>
      rw [hlast] at hsplit
      cases hsplit
      exact ⟨[], rfl, Or.inl rfl⟩
    | some q =>
      obtain ⟨userinfo, b⟩ := q
      obtain ⟨rfl, -⟩ := Split.splitLast_eq_some_iff.mp hlast
      rw [hlast] at hsplit
      cases hfirst : splitFirst colon userinfo with
      | none =>
        simp only [hfirst] at hsplit
        cases hsplit
        exact ⟨[atSign], rfl, Or.inr (Or.inl rfl)⟩
      | some q =>
        obtain ⟨a, p⟩ := q
        simp only [hfirst] at hsplit
        cases hsplit
        obtain ⟨rfl, -⟩ := Split.splitFirst_eq_some_iff.mp hfirst
        exact ⟨[colon, atSign], rfl, Or.inr (Or.inr rfl)⟩
  · rintro ⟨hrest, front, rfl, rfl | rfl | rfl⟩
    · rw [List.nil_append, splitUserinfo, Split.splitLast_eq_none_iff.mpr hrest]
    · rw [splitUserinfo, List.singleton_append, ← List.nil_append (atSign :: rest),
        Split.splitLast_append hrest]
      rfl
    · have hlast : splitLast atSign ([colon, atSign] ++ rest) = some ([colon], rest) :=
        Split.splitLast_append (a := [colon]) hrest
      rw [splitUserinfo, hlast]
      rfl

theorem NoPort.not_mem {scheme text : Text} {c : Nat} (h : NoPort scheme text)
    (hc : isDigit c = false) : c ∉ text := by
  intro hmem
  rcases h with rfl | ⟨hdigits, -⟩
  · cases hmem
  · rw [hdigits c hmem] at hc
    cases hc

theorem NoPortText.atSign_not_mem {scheme text : Text} (h : NoPortText scheme text) :
    atSign ∉ text := by
  rcases h with rfl | ⟨digits, rfl, hdigits⟩
  · simp
  · rw [List.mem_cons, not_or]
    exact ⟨by decide, hdigits.not_mem (by decide)⟩

theorem NoHostText.atSign_not_mem {scheme text : Text} (h : NoHostText env scheme text) :
    atSign ∉ text := by
  obtain ⟨name, port, rfl, hport, hname⟩ := h
  rw [List.mem_append, not_or]
  exact ⟨not_mem_name hname (by decide) (by decide) (by decide), hport.atSign_not_mem⟩

theorem Record.Ignores.atSign_not_mem {text : Text} (h : r.Ignores env text)
    (hne : r.host ≠ []) : atSign ∉ text := by
  unfold Record.Ignores at h
  split at h
  · rcases h with rfl | ⟨-, hzeros⟩
    · simp
    · exact fun hmem => absurd (hzeros _ hmem) (by decide)
  · rw [if_neg hne] at h
    split at h
    · exact h.atSign_not_mem
    · exact h.not_mem (by decide)

/-- Text behind a host is read as part of its port. -/
theorem SettledRecord.readHost_append_iff (h : SettledRecord env r) (hne : r.host ≠ [])
    (text : Text) :
    readHost env r.scheme (hostText r.host r.port ++ text) = some (r.host, r.port) ↔
      r.Ignores env text := by
  obtain ⟨-, -, hself⟩ := h.credentials
  rw [hostText_of_ne_nil hne] at hself ⊢
  unfold Record.Ignores
  cases hport : r.port with
  | some n =>
    rw [hport] at hself
    have hbracket : splitBracket r.host = none := by
      by_contra hliteral
      rw [portText, readHost_bracket_port r.scheme hliteral] at hself
      cases hself
    have hkept := h.keptPort_port
    rw [hport] at hkept
    dsimp only
    rw [portText, List.append_assoc, List.cons_append,
      Url.readHost_append_iff hne h.host_lower h.keptHost_host hbracket,
      ← readPort_append_iff (h.port_le n hport)]
    constructor
    · rintro (⟨hnil, -⟩ | ⟨t, p, heq, hread, hp⟩)
      · cases hnil
      · cases heq
        rw [hread, (keptPort_eq_some hp).1]
    · exact fun hread => Or.inr ⟨_, _, rfl, hread, hkept⟩
  | none =>
    rw [hport, portText, List.append_nil] at hself
    dsimp only
    rw [portText, List.append_nil, if_neg hne]
    split
    · next hbracket =>
        have hcolon : colon ∉ r.host := by
          have hself' := (Url.readHost_append_iff hne h.host_lower h.keptHost_host hbracket []).mp
            (by rwa [List.append_nil])
          rcases hself' with ⟨-, hcolon, -⟩ | ⟨t, p, hnil, -⟩
          · exact hcolon
          · cases hnil
        rw [Url.readHost_append_iff hne h.host_lower h.keptHost_host hbracket, NoPortText]
        simp only [hcolon, not_false_eq_true, and_self, and_true, noPort_iff, exists_and_left]
    · next hbracket =>
        obtain ⟨⟨a, t⟩, hliteral⟩ := Option.ne_none_iff_exists'.mp hbracket
        have hsplit := (readHost_keeps_iff h.host_lower h.keptHost_host).mp ⟨_, hself, rfl⟩
        rw [splitHostPort, hliteral] at hsplit
        cases hsplit
        exact readHost_literal_iff h.host_lower h.keptHost_host hliteral

/-- Text behind a host does not turn it into a sign of empty credentials. -/
theorem SettledRecord.not_empty_credentials (h : SettledRecord env r) (hne : r.host ≠ [])
    {front text rest : Text} (htext : hostText r.host r.port ++ text = front ++ rest) :
    ¬ (front = [atSign] ∨ front = [colon, atSign]) := by
  have hat := h.host_at
  obtain ⟨c, host, hhost⟩ := List.exists_cons_of_ne_nil hne
  rw [hostText_of_ne_nil hne, hhost] at htext
  rw [hhost, List.mem_cons, not_or] at hat
  rintro (rfl | rfl)
  · exact hat.1 (List.cons.inj htext).1.symm
  · obtain ⟨rfl, hrest⟩ := List.cons.inj htext
    cases host with
    | cons d host =>
      obtain ⟨rfl, -⟩ := List.cons.inj hrest
      simp at hat
    | nil =>
      cases hport : r.port with
      | some n =>
        rw [hport] at hrest
        cases (List.cons.inj hrest).1
      | none =>
        -- a colon alone is read as the sign of a port
        obtain ⟨-, -, hself⟩ := h.credentials
        have hsplit := (readHost_keeps_iff h.host_lower h.keptHost_host).mp
          ⟨_, by rwa [hostText_of_ne_nil hne, hport, portText, List.append_nil] at hself, rfl⟩
        rw [hhost] at hsplit
        cases hsplit

/-- Which texts behind the printed authority of a settled record leave it as it is. -/
theorem SettledRecord.readAuthority_append_iff (h : SettledRecord env r) (text : Text) :
    readAuthority env r.scheme (r.authorityText env ++ text) = some r.authority ↔
      r.Ignores env text := by
  rw [Record.authorityText, List.append_assoc, ← Record.userinfo]
  refine (h.readAuthority_iff r.host r.port).trans ?_
  simp only [splitUserinfo_empty_iff]
  by_cases hempty : r.host = []
  · have hport : r.port = none := by
      obtain ⟨-, -, hself⟩ := h.credentials
      rw [hempty, hostText, if_neg (by simp), readHost_nil] at hself
      simpa using hself.symm
    rw [Record.Ignores, hport, hempty, hostText, if_neg (by simp), List.nil_append]
    simp only [if_true, readHost_empty_iff]
    constructor
    · rintro ⟨rest, ⟨-, front, rfl, hfront⟩, hcredentials, hrest⟩
      refine ⟨front, rest, rfl, hrest, hfront.imp_right fun hfront => ⟨hcredentials ?_, hfront⟩⟩
      rcases hfront with rfl | rfl <;> simp
    · rintro ⟨front, rest, rfl, hrest, hfront⟩
      have hat := hrest.atSign_not_mem
      refine ⟨rest, ⟨hat, front, rfl, hfront.imp_right And.right⟩, fun hmem => ?_, hrest⟩
      rcases hfront with rfl | ⟨hnone, -⟩
      · exact absurd hmem hat
      · exact hnone
  · rw [← h.readHost_append_iff hempty]
    constructor
    · rintro ⟨rest, ⟨-, front, htext, rfl | hfront⟩, -, hread⟩
      · rwa [htext]
      · exact absurd hfront (h.not_empty_credentials hempty htext)
    · intro hread
      have hat : atSign ∉ hostText r.host r.port ++ text := by
        rw [List.mem_append, not_or]
        exact ⟨h.at_not_mem, ((h.readHost_append_iff hempty text).mp hread).atSign_not_mem hempty⟩
      exact ⟨_, ⟨hat, [], rfl, Or.inl rfl⟩, fun hmem => absurd hmem hat, hread⟩

/-! ## `pathname` -/

/-- The rule for `pathname`. Behind an authority a path that is not absolute is read as part
of it up to its first slash; without one, what follows two slashes at its start is read as an
authority. -/
def PathnameAllowed (env : Platform) (r : Record) (v : Text) : Prop :=
  let path := assignedPath env r.scheme v
  if r.showsAuthority then
    (path = [] →
        Ends (r.authorityText env ++ tailText [] (r.search.getD []) (r.hash.getD []))) ∧
      (path ≠ [] → path.head? ≠ some slash → r.Ignores env (path.takeWhile notDelimiter))
  else
    path.take 2 = [slash, slash] → r.Ignores env ((path.drop 2).takeWhile notDelimiter)

theorem must_of_mem_assignedPath {scheme v : Text} {c : Nat}
    (hc : c ∈ assignedPath env scheme v) : must true c = false := by
  unfold assignedPath at hc
  split at hc
  · split at hc
    · rw [List.mem_singleton.mp hc]
      decide
    · cases hc
  · exact must_of_mem_encodePath hc

theorem kept_of_pathname (a : Authority) (t : Text × Option Text × Option Text) :
    Setter.pathname.Leaves (mkRecord r.scheme a t) r ↔
      a = r.authority ∧ t.2.1.getD [] = r.search.getD [] ∧ t.2.2.getD [] = r.hash.getD [] := by
  obtain ⟨u, p, h, n⟩ := a
  rw [kept_fields_iff (w := mkRecord r.scheme _ t) (r := r) _ rfl]
  simp [Setter.assigns, mkRecord, Record.authority, and_assoc]

/-- The text of the record with another path is read with its other components. -/
def Record.KeepsWith (env : Platform) (r : Record) (path : Text) : Prop :=
  ∃ w, parseUrl env (serialize env { r with pathname := path }) none = some w ∧
    Setter.pathname.Leaves w r

section Pathname

variable {path : Text}

theorem SettledRecord.ends_pathname (h : SettledRecord env r)
    (hkept : ∀ c ∈ path, must true c = false) (y : Text)
    (hne : tailText path (r.search.getD []) (r.hash.getD []) ≠ []) :
    Ends (y ++ tailText path (r.search.getD []) (r.hash.getD [])) :=
  ends_tailText y h.ends_hash h.ends_search hkept hne

theorem tailText_ne_nil (hpath : path ≠ []) (search hash : Text) :
    tailText path search hash ≠ [] := by
  simp [tailText, hpath]

/-- A path that fits leaves the rest alone, unless the end of the text is stripped. -/
theorem SettledRecord.contained_path_of_fits (h : SettledRecord env r)
    (hkept : ∀ c ∈ path, must true c = false) (hfits : { r with pathname := path }.PathFits) :
    r.KeepsWith env path ↔
      Ends (r.authorityText env ++ tailText path (r.search.getD []) (r.hash.getD [])) := by
  constructor
  · rintro ⟨w, hparse, hsame⟩
    have hhost : w.host = r.host := hsame .hostname rfl
    have hsearch : w.search.getD [] = r.search.getD [] := optionalText_inj.mp (hsame .search rfl)
    have hhash : w.hash.getD [] = r.hash.getD [] := optionalText_inj.mp (hsame .hash rfl)
    exact h.ends_of_parse (x := { r with pathname := path }) rfl rfl hfits hkept
      h.numberSign_not_mem hparse hhost (fun _ => hsearch) fun _ => hhash
  · intro hends
    refine ⟨_, h.parse_tail (x := { r with pathname := path }) rfl rfl hfits hends, ?_⟩
    rw [kept_of_pathname, Record.tailText, readTail_tailText _ (not_mem_of_must hkept)
      h.numberSign_not_mem]
    exact ⟨rfl, nonempty_getD _, nonempty_getD _⟩

theorem tailText_append (a path search hash : Text) :
    tailText (a ++ path) search hash = a ++ tailText path search hash := by
  rw [tailText, tailText, List.append_assoc]

/-- A path that is read behind the text of the authority, and as part of it. -/
theorem SettledRecord.contained_path_of_glued (h : SettledRecord env r) {text : Text}
    (htext : ∀ c ∈ text, must true c = false)
    (hparse : parseUrl env (serialize env { r with pathname := path }) none =
      readFull env r.scheme
        (r.authorityText env ++ tailText text (r.search.getD []) (r.hash.getD []))) :
    r.KeepsWith env path ↔ r.Ignores env (text.takeWhile notDelimiter) := by
  obtain ⟨a, rest, rfl, ha, hstops⟩ := Split.exists_span notDelimiter text
  have hrest : ∀ c ∈ rest, must true c = false :=
    fun c hc => htext c (List.mem_append_right a hc)
  have hauthority : ∀ c ∈ r.authorityText env ++ a, notDelimiter c = true := by
    exact List.forall_mem_append.mpr ⟨h.authorityText_delimiter, ha⟩
  have hstops' := stops_tail (path_of_stops hrest hstops) (nonempty (r.search.getD []))
    (nonempty (r.hash.getD []))
  rw [← tailText_eq_marked] at hstops'
  rw [Record.KeepsWith, hparse, Split.takeWhile_append_stop ha hstops, ← h.readAuthority_append_iff,
    tailText_append, ← List.append_assoc, readFull_append hauthority hstops',
    readTail_tailText _ (not_mem_of_must hrest) h.numberSign_not_mem]
  constructor
  · rintro ⟨w, hread, hsame⟩
    obtain ⟨au, hau, rfl⟩ := Option.map_eq_some_iff.mp hread
    rw [hau, (kept_of_pathname _ _).mp hsame |>.1]
  · intro hread
    refine ⟨_, by rw [hread, Option.map_some], ?_⟩
    exact (kept_of_pathname _ _).mpr ⟨rfl, nonempty_getD _, nonempty_getD _⟩

theorem SettledRecord.contained_path_shown (h : SettledRecord env r)
    (hkept : ∀ c ∈ path, must true c = false) (hshown : r.showsAuthority = true) :
    r.KeepsWith env path ↔
      (path = [] → Ends (r.authorityText env ++ tailText [] (r.search.getD []) (r.hash.getD []))) ∧
      (path ≠ [] → path.head? ≠ some slash → r.Ignores env (path.takeWhile notDelimiter)) := by
  have hfits : Rooted path → { r with pathname := path }.PathFits :=
    (pathFits_shown_iff (x := { r with pathname := path }) hshown).mpr
  by_cases hempty : path = []
  · rw [h.contained_path_of_fits hkept (hfits (Or.inl hempty))]
    simp [hempty]
  have hends := h.ends_pathname hkept (r.authorityText env)
    (tailText_ne_nil hempty (r.search.getD []) (r.hash.getD []))
  by_cases hslash : path.head? = some slash
  · rw [h.contained_path_of_fits hkept (hfits (Or.inr hslash))]
    simp [hempty, hslash, hends]
  · rw [h.contained_path_of_glued hkept]
    · simp [hempty, hslash]
    · rw [← hends.strip]
      exact parse_shown (r := { r with pathname := path }) h.scheme hshown

theorem SettledRecord.contained_path_hidden (h : SettledRecord env r)
    (hkept : ∀ c ∈ path, must true c = false) (hhidden : r.showsAuthority = false) :
    r.KeepsWith env path ↔
      (path.take 2 = [slash, slash] → r.Ignores env ((path.drop 2).takeWhile notDelimiter)) := by
  have hends : Ends (r.authorityText env ++ tailText path (r.search.getD []) (r.hash.getD [])) := by
    by_cases hnil : tailText path (r.search.getD []) (r.hash.getD []) = []
    · rw [hnil, authorityText_of_hidden hhidden]
      exact ends_nil
    · exact h.ends_pathname hkept _ hnil
  rcases take_two_cases path with ⟨path, rfl⟩ | hslashes
  · rw [h.contained_path_of_glued fun c hc => hkept c (List.mem_of_mem_drop (i := 2) hc)]
    · simp
    · rw [authorityText_of_hidden hhidden, List.nil_append, ← readRest_slashes,
        parse_hidden (r := { r with pathname := slash :: slash :: path }) h.scheme hhidden,
        Record.tailText, hends.of_append.strip]
      rfl
  · have hfits : { r with pathname := path }.PathFits :=
      (pathFits_hidden_iff (x := { r with pathname := path }) hhidden).mpr hslashes
    rw [h.contained_path_of_fits hkept hfits]
    simp [hslashes, hends]

end Pathname

theorem contained_pathname_iff (h : SettledRecord env r) (v : Text) :
    Contained env .pathname v r ↔ PathnameAllowed env r v := by
  rw [contained_iff, PathnameAllowed]
  have hkept : ∀ c ∈ assignedPath env r.scheme v, must true c = false :=
    fun c hc => must_of_mem_assignedPath hc
  cases hshown : r.showsAuthority with
  | true => exact h.contained_path_shown hkept hshown
  | false => exact h.contained_path_hidden hkept hshown

/-! ## The frame property of the setters -/

/-- The rules of the setters. -/
def Allowed (env : Platform) (setter : Setter) (v : Text) (r : Record) : Prop :=
  match setter with
  | .username => UsernameAllowed r v
  | .password => PasswordAllowed r v
  | .hostname => HostnameAllowed env r v
  | .host => HostAllowed env r v
  | .port => PortAllowed env r v
  | .pathname => PathnameAllowed env r v
  | .search => SearchAllowed env r v
  | .hash => HashAllowed env r v

/-- A setter leaves the other components of a stable URL alone exactly where its rule holds. -/
theorem setter_contained_iff (setter : Setter) (v : Text) (hstable : Stable env r) :
    Contained env setter v r ↔ Allowed env setter v r := by
  have h := settled_of_stable hstable
  cases setter with
  | username => exact contained_username_iff h v
  | password => exact contained_password_iff h v
  | hostname => exact contained_hostname_iff h v
  | host => exact contained_host_iff h v
  | port => exact contained_port_iff h v
  | pathname => exact contained_pathname_iff h v
  | search => exact contained_search_iff h v
  | hash => exact contained_hash_iff h v

theorem stable_plainRecord : Stable asciiPlatform plainRecord :=
  ⟨plainRecord, by decide, fun _ => rfl⟩

/-- `me` may become the user name of `http://h/a`. -/
theorem setter_contained_plain :
    Contained asciiPlatform .username (units "me") plainRecord := by
  apply (setter_contained_iff .username (units "me") stable_plainRecord).mpr
  refine ⟨?_, by decide, Or.inl (by decide)⟩
  exact (pathFits_shown_iff (by decide)).mpr (Or.inr (by decide))

/-- The user name `x/y` turns `http://h/a` into `http://x/y@h/a`, whose host is `x`. -/
theorem username_slash_leaks :
    Stable asciiPlatform plainRecord ∧
      ¬ Contained asciiPlatform .username (units "x/y") plainRecord := by
  refine ⟨stable_plainRecord, ?_⟩
  rintro ⟨w, hparse, hkept⟩
  have hread : (parseUrl asciiPlatform
      (serialize asciiPlatform (assign asciiPlatform .username (units "x/y") plainRecord))
      none).map (·.component .hostname) = some (units "x") := by decide
  rw [hparse, Option.map_some, (hkept .hostname rfl).1] at hread
  exact absurd hread (by decide)

end Url
