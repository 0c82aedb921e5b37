import QuickjsRuntime.Url.Reread

/-!
# Authorities that were put together

A scheme, credentials, a host and a port that are written one after the other, with a slash
behind them, and what `parseUrl` makes of the text. The parts are free of the characters that
separate them.

Every combination is read back except two. What follows a bracketed host is taken for the port
text with its colon, so that no port is accepted there, and the host `localhost` of a file URL is
stored as no host.
-/

namespace Url

open Utf16 (Text units isDigit)
open Split (splitFirst splitLast)

/-! ## The parts -/

/-- A character of a user name or a password. -/
def isUserChar (c : Nat) : Bool :=
  notDelimiter c && c ≠ atSign && c ≠ colon && !must false c

/-- A character of a host name. -/
def isNameChar (c : Nat) : Bool :=
  notDelimiter c && c ≠ atSign && c ≠ colon && c ≠ openBracket

/-- A character between the brackets of a literal. -/
def isLiteralChar (c : Nat) : Bool :=
  notDelimiter c && c ≠ atSign && c ≠ closeBracket

/-- A host is a name or a bracketed literal. -/
def HostForm (host : Text) : Prop :=
  (host ≠ [] ∧ ∀ c ∈ host, isNameChar c = true) ∨
    ∃ literal, host = openBracket :: (literal ++ [closeBracket]) ∧
      ∀ c ∈ literal, isLiteralChar c = true

/-- A special scheme (a file URL included), possibly a user name with or without a password, a
host in lower case, and possibly a port. -/
structure AuthorityParts (env : Platform) where
  scheme : Text
  credentials : Option (Text × Option Text)
  host : Text
  port : Option Nat
  scheme_known : isSpecial scheme = true ∨ isFile scheme = true
  username_clean : ∀ p ∈ credentials, ∀ c ∈ p.1, isUserChar c = true
  password_clean : ∀ p ∈ credentials, ∀ password ∈ p.2, ∀ c ∈ password, isUserChar c = true
  host_lower : env.toLowerCase host = host
  host_form : HostForm host
  port_le : ∀ n ∈ port, n ≤ 65535

namespace AuthorityParts

variable {env : Platform} (a : AuthorityParts env)

def username : Text :=
  (a.credentials.map Prod.fst).getD []

def password : Text :=
  (a.credentials.bind Prod.snd).getD []

def userinfo : Text :=
  match a.credentials with
  | none => []
  | some (username, none) => username ++ [atSign]
  | some (username, some password) => username ++ colon :: (password ++ [atSign])

/-- `scheme://[user[:password]@]host[:port]/` -/
def text : Text :=
  a.scheme ++ colon :: slash :: slash :: (a.userinfo ++ (a.host ++ portText a.port) ++ [slash])

/-- The port, unless it is the default one. -/
def keptPort : Option Nat :=
  if a.port = defaultPortOf a.scheme then none else a.port

/-- The text is accepted, and its parts are those that were put together. -/
def Recovered : Prop :=
  ∃ r, parseUrl env a.text none = some r ∧ r.username = a.username ∧ r.password = a.password ∧
    r.host = a.host ∧ r.port = a.keptPort

/-! ## Reading the text -/

theorem validScheme : ValidScheme env a.scheme := by
  rcases a.scheme_known with hspecial | hfile
  · exact validScheme_of_special hspecial
  · rw [of_decide_eq_true hfile]
    exact validScheme_file

theorem not_mem_host {c : Nat} (hc : c = atSign ∨ notDelimiter c = false) : c ∉ a.host := by
  have hname : isNameChar c = false := by
    rcases hc with rfl | hc
    · decide
    · simp [isNameChar, hc]
  have hliteral : isLiteralChar c = false := by
    rcases hc with rfl | hc
    · decide
    · simp [isLiteralChar, hc]
  have hbracket : c ≠ openBracket ∧ c ≠ closeBracket := by
    constructor <;> rintro rfl <;> rcases hc with hc | hc <;> exact absurd hc (by decide)
  intro hmem
  rcases a.host_form with ⟨-, hclean⟩ | ⟨literal, hhost, hclean⟩
  · rw [hclean c hmem] at hname
    cases hname
  · rw [hhost] at hmem
    simp only [List.mem_cons, List.mem_append, List.not_mem_nil, or_false, hbracket.1, hbracket.2,
      false_or] at hmem
    rw [hclean c hmem] at hliteral
    cases hliteral

theorem not_mem_portText {c : Nat} (hc : c = atSign ∨ notDelimiter c = false) :
    c ∉ portText a.port := by
  have hcolon : isDigit c = false ∧ c ≠ colon := by
    rcases hc with rfl | hc
    · decide
    · rcases notDelimiter_eq_false_iff.mp hc with rfl | rfl | rfl <;> decide
  cases a.port with
  | none => simp [portText]
  | some n => exact Url.not_mem_portText hcolon.1 hcolon.2

theorem atSign_not_mem : atSign ∉ a.host ++ portText a.port := by
  rw [List.mem_append, not_or]
  exact ⟨a.not_mem_host (Or.inl rfl), a.not_mem_portText (Or.inl rfl)⟩

theorem not_mem_of_userChar {s : Text} {c : Nat} (hs : ∀ x ∈ s, isUserChar x = true)
    (hc : isUserChar c = false) : c ∉ s := by
  intro hmem
  rw [hs c hmem] at hc
  cases hc

theorem splitUserinfo_text :
    splitUserinfo (a.userinfo ++ (a.host ++ portText a.port)) =
      (a.username, a.password, a.host ++ portText a.port) := by
  have hat := a.atSign_not_mem
  have husername := a.username_clean
  unfold userinfo username password
  cases hcredentials : a.credentials with
  | none => simp [splitUserinfo, Split.splitLast_eq_none_iff.mpr hat]
  | some p =>
    obtain ⟨username, password⟩ := p
    have hcolon : colon ∉ username :=
      not_mem_of_userChar (husername _ hcredentials) (by decide)
    cases password with
    | none =>
      simp only [List.append_assoc, List.singleton_append, splitUserinfo,
        Split.splitLast_append hat, Split.splitFirst_eq_none_iff.mpr hcolon]
      rfl
    | some password =>
      have hsplit := Split.splitLast_append (a := username ++ colon :: password) hat
      simp only [List.append_assoc, List.cons_append, List.nil_append] at hsplit ⊢
      simp only [splitUserinfo, hsplit, Split.splitFirst_append hcolon]
      rfl

theorem delimiter_not_mem_userinfo {c : Nat} (hc : notDelimiter c = false) : c ∉ a.userinfo := by
  have hsigns : c ≠ atSign ∧ c ≠ colon := by
    constructor <;> rintro rfl <;> exact absurd hc (by decide)
  have huser : isUserChar c = false := by simp [isUserChar, hc]
  have husername := a.username_clean
  have hpassword := a.password_clean
  unfold userinfo
  cases hcredentials : a.credentials with
  | none => simp
  | some p =>
    obtain ⟨username, password⟩ := p
    have hnot := not_mem_of_userChar (husername _ hcredentials) huser
    cases password with
    | none => simp [hnot, hsigns]
    | some password =>
      have hnot' := not_mem_of_userChar (hpassword _ hcredentials _ rfl) huser
      simp [hnot, hnot', hsigns]

theorem notDelimiter_of_mem {c : Nat}
    (hc : c ∈ a.userinfo ++ (a.host ++ portText a.port)) : notDelimiter c = true := by
  by_contra hdelimiter
  rw [Bool.not_eq_true] at hdelimiter
  rw [List.mem_append, List.mem_append] at hc
  rcases hc with hc | hc | hc
  · exact a.delimiter_not_mem_userinfo hdelimiter hc
  · exact a.not_mem_host (Or.inr hdelimiter) hc
  · exact a.not_mem_portText (Or.inr hdelimiter) hc

/-- What is read is decided by host and port. -/
theorem parseUrl_text :
    parseUrl env a.text none =
      (readHost env a.scheme (a.host ++ portText a.port)).map fun p =>
        mkRecord a.scheme
          { username := a.username, password := a.password, host := p.1, port := p.2 }
          (readTail env a.scheme [slash]) := by
  have hends : Ends (slash :: slash :: (a.userinfo ++ (a.host ++ portText a.port) ++ [slash])) := by
    intro c hc
    rw [← List.cons_append, ← List.cons_append, List.getLast?_concat] at hc
    rw [← Option.some.inj hc]
    decide
  have hstop : ∀ c ∈ ([slash] : Text).head?, notDelimiter c = false := stops_of_slash rfl
  rw [text, parseUrl_append a.validScheme, hends.strip, readRest_slashes,
    readFull_append (fun c hc => a.notDelimiter_of_mem hc) hstop, readAuthority,
    a.splitUserinfo_text, Option.map_map]
  rfl

/-! ## Host and port -/

/-- A name is not taken for a literal, and a literal is one as a whole. -/
theorem host_cases :
    (a.host.head? ≠ some openBracket ∧ splitBracket a.host = none ∧
        splitHostPort a.host = (a.host, [])) ∨
      (a.host.head? = some openBracket ∧ splitBracket a.host = some (a.host, [])) := by
  rcases a.host_form with ⟨-, hclean⟩ | ⟨literal, hhost, hclean⟩
  · left
    have hhead : a.host.head? ≠ some openBracket := by
      intro hhead
      exact absurd (hclean _ (List.mem_of_mem_head? hhead)) (by decide)
    have hcolon : colon ∉ a.host := by
      intro hmem
      exact absurd (hclean _ hmem) (by decide)
    have hbracket : splitBracket a.host = none := by
      by_contra hne
      obtain ⟨⟨h, t⟩, hliteral⟩ := Option.ne_none_iff_exists'.mp hne
      obtain ⟨hhost, literal, rfl, -⟩ := splitBracket_eq_some_iff.mp hliteral
      exact hhead (by rw [hhost]; rfl)
    refine ⟨hhead, hbracket, ?_⟩
    rw [splitHostPort, hbracket]
    simp only [Split.splitLast_eq_none_iff.mpr hcolon, Option.getD_none]
  · right
    have hclose : closeBracket ∉ literal := fun hmem => absurd (hclean _ hmem) (by decide)
    refine ⟨by rw [hhost]; rfl, splitBracket_eq_some_iff.mpr ⟨?_, literal, hhost, hclose⟩⟩
    rw [List.append_nil]

theorem keptPort_eq : Url.keptPort a.scheme a.port = a.keptPort := by
  unfold Url.keptPort keptPort
  by_cases hdefault : a.port = defaultPortOf a.scheme
  · rw [if_pos hdefault]
    split
    next => rfl
    next hspecial =>
      -- only a special scheme has a default port
      rw [hdefault]
      simpa [hdefault, isSpecial] using hspecial
  · rw [if_neg hdefault, if_neg (by simp [hdefault])]

theorem readHost_text :
    readHost env a.scheme (a.host ++ portText a.port) =
      if a.host.head? = some openBracket ∧ a.port ≠ none then none
      else some (keptHost a.scheme a.host, a.keptPort) := by
  rw [← a.keptPort_eq]
  cases hport : a.port with
  | none =>
    have hsplit : splitHostPort a.host = (a.host, []) := by
      rcases a.host_cases with ⟨-, -, hsplit⟩ | ⟨-, hbracket⟩
      · exact hsplit
      · rw [splitHostPort, hbracket]
    rw [if_neg (by simp), portText, List.append_nil, readHost, hsplit]
    simp only [readPort_none_iff.mpr, Option.map_some, a.host_lower]
  | some n =>
    rcases a.host_cases with ⟨hhead, hbracket, -⟩ | ⟨hhead, hbracket⟩
    · rw [if_neg (by simp [hhead]), portText,
        readHost_port a.scheme hbracket (a.port_le n hport), a.host_lower]
    · rw [if_pos ⟨hhead, by simp⟩, portText, readHost_bracket_port a.scheme (by simp [hbracket])]

theorem host_ne_nil : a.host ≠ [] := by
  rcases a.host_form with ⟨hne, -⟩ | ⟨literal, hhost, -⟩
  · exact hne
  · simp [hhost]

theorem keptHost_eq_iff :
    keptHost a.scheme a.host = a.host ↔
      ¬ (isFile a.scheme = true ∧ a.host = units "localhost") := by
  unfold keptHost
  split
  next h => exact iff_of_false a.host_ne_nil.symm fun hnot => hnot h
  next h => exact iff_of_true rfl h

/-- Exactly which texts are read back as they were put together. -/
theorem authority_recovered_iff :
    a.Recovered ↔
      (a.host.head? = some openBracket → a.port = none) ∧
        ¬ (isFile a.scheme = true ∧ a.host = units "localhost") := by
  rw [← a.keptHost_eq_iff, Recovered, a.parseUrl_text, a.readHost_text]
  by_cases hrejected : a.host.head? = some openBracket ∧ a.port ≠ none
  · rw [if_pos hrejected]
    simp only [Option.map_none, reduceCtorEq, false_and, exists_false, false_iff, not_and]
    intro hallowed
    exact absurd (hallowed hrejected.1) hrejected.2
  · rw [if_neg hrejected]
    have hallowed : a.host.head? = some openBracket → a.port = none := by
      simpa using hrejected
    simp only [mkRecord, Option.map_some, Option.some.injEq, exists_eq_left', true_and, and_true]
    exact ⟨fun hhost => ⟨hallowed, hhost⟩, And.right⟩

end AuthorityParts

/-- The parts of `http://u:p@[::1]:8080/`. -/
def bracketedParts : AuthorityParts asciiPlatform where
  scheme := units "http"
  credentials := some (units "u", some (units "p"))
  host := units "[::1]"
  port := some 8080
  scheme_known := Or.inl (by decide)
  username_clean := by decide
  password_clean := by decide
  host_lower := by decide
  host_form := Or.inr ⟨units "::1", by decide, by decide⟩
  port_le := by decide

theorem bracketed_port_rejected :
    bracketedParts.text = units "http://u:p@[::1]:8080/" ∧
      parseUrl asciiPlatform bracketedParts.text none = none ∧ ¬ bracketedParts.Recovered := by
  have hparse : parseUrl asciiPlatform bracketedParts.text none = none := by decide
  refine ⟨by decide, hparse, ?_⟩
  rintro ⟨r, hr, -⟩
  rw [hparse] at hr
  cases hr

end Url
