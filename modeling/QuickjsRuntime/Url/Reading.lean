import QuickjsRuntime.Url.Parse

/-!
# Reading assembled texts

What the steps of `parseUrl` make of texts that are put together from parts: a scheme and
its rest, credentials before a host, a host before a port, and a path before a query and a
fragment.
-/

namespace Url

open Utf16 (Text units isDigit decimal digitsValue isDigit_of_mem_decimal decimal_ne_nil
  digitsValue_decimal)
open Split (splitFirst splitLast)

variable {env : Platform}

/-! ## Characters -/

theorem notDelimiter_iff {c : Nat} :
    notDelimiter c = true ↔ c ≠ slash ∧ c ≠ questionMark ∧ c ≠ numberSign := by
  simp [notDelimiter, isDelimiter, and_assoc]

theorem notDelimiter_eq_false_iff {c : Nat} :
    notDelimiter c = false ↔ c = slash ∨ c = questionMark ∨ c = numberSign := by
  rw [← Bool.not_eq_true, notDelimiter_iff]
  tauto

/-! ## The scheme -/

/-- A scheme as a record stores it. -/
structure ValidScheme (env : Platform) (scheme : Text) : Prop where
  starts : ∃ c rest, scheme = c :: rest ∧ isLetter c = true
  chars : ∀ c ∈ scheme, isSchemeChar c = true
  lower : env.toLowerCase scheme = scheme

theorem splitScheme_append {scheme : Text} (hstarts : ∃ c r, scheme = c :: r ∧ isLetter c = true)
    (hchars : ∀ c ∈ scheme, isSchemeChar c = true) (rest : Text) :
    splitScheme (scheme ++ colon :: rest) = some (scheme, rest) := by
  have hstop : ∀ x ∈ (colon :: rest).head?, isSchemeChar x = false := by
    intro x hx
    rw [← Option.some.inj hx]
    decide
  have htake := Split.takeWhile_append_stop hchars hstop
  have hdrop := Split.dropWhile_append_stop hchars hstop
  obtain ⟨c, r, rfl, hletter⟩ := hstarts
  simp only [splitScheme, List.cons_append] at htake hdrop ⊢
  rw [if_pos hletter, hdrop, htake]
  simp

theorem isC0_of_letter {c : Nat} (hc : isLetter c = true) : isC0 c = false := by
  simp only [isLetter, Bool.or_eq_true, Bool.and_eq_true, decide_eq_true_eq] at hc
  simp only [isC0, decide_eq_false_iff_not]
  omega

theorem stripC0_append {scheme : Text} (hstarts : ∃ c r, scheme = c :: r ∧ isC0 c = false)
    (rest : Text) :
    stripC0 (scheme ++ colon :: rest) = scheme ++ colon :: rest.rdropWhile isC0 := by
  have hcolon : isC0 colon = false := by decide
  rw [stripC0, Split.rdropWhile_append_cons hcolon]
  obtain ⟨c, r, rfl, hvisible⟩ := hstarts
  rw [List.cons_append, List.dropWhile_cons_of_neg (by simp [hvisible])]

/-- A text that starts with a scheme is read from its colon on. -/
theorem parseUrl_append {scheme : Text} (hscheme : ValidScheme env scheme) (rest : Text)
    (base : Option Record) :
    parseUrl env (scheme ++ colon :: rest) base = readRest env scheme (rest.rdropWhile isC0) := by
  have hvisible : ∃ c r, scheme = c :: r ∧ isC0 c = false := by
    obtain ⟨c, r, hcons, hletter⟩ := hscheme.starts
    exact ⟨c, r, hcons, isC0_of_letter hletter⟩
  rw [parseUrl, stripC0_append hvisible, splitScheme_append hscheme.starts hscheme.chars]
  simp only [hscheme.lower]

theorem isSpecial_cases {scheme : Text} (h : isSpecial scheme = true) :
    scheme = units "http" ∨ scheme = units "https" ∨ scheme = units "ws" ∨
      scheme = units "wss" ∨ scheme = units "ftp" := by
  simp only [isSpecial, defaultPortOf] at h
  grind

theorem validScheme_of_special {scheme : Text} (h : isSpecial scheme = true) :
    ValidScheme env scheme := by
  rcases isSpecial_cases h with rfl | rfl | rfl | rfl | rfl <;>
    exact ⟨⟨_, _, rfl, by decide⟩, by decide, env.lower_ascii _ (by decide)⟩

theorem validScheme_file : ValidScheme env (units "file") :=
  ⟨⟨_, _, rfl, by decide⟩, by decide, env.lower_ascii _ (by decide)⟩

/-! ## The rest, by whether it has an authority -/

/-- Reading an authority up to its delimiter, and the rest from there. -/
def readFull (env : Platform) (scheme text : Text) : Option Record :=
  (readAuthority env scheme (text.takeWhile notDelimiter)).map fun a =>
    mkRecord scheme a (readTail env scheme (text.dropWhile notDelimiter))

theorem readRest_slashes (scheme text : Text) :
    readRest env scheme (slash :: slash :: text) = readFull env scheme text := by
  have htake : (slash :: slash :: text).take 2 = [slash, slash] := rfl
  have hdrop : (slash :: slash :: text).drop 2 = text := rfl
  simp only [readRest, readFull, htake, hdrop, true_or, if_true]
  cases readAuthority env scheme (text.takeWhile notDelimiter) <;> rfl

theorem readRest_full {scheme text : Text}
    (hscheme : isSpecial scheme = true ∨ isFile scheme = true)
    (htext : text.take 2 ≠ [slash, slash]) :
    readRest env scheme text = readFull env scheme text := by
  simp only [readRest, readFull, htext, hscheme, false_or, if_true, if_false]
  cases readAuthority env scheme (text.takeWhile notDelimiter) <;> rfl

def emptyAuthority : Authority where
  username := []
  password := []
  host := []
  port := none

theorem keptHost_nil (scheme : Text) : keptHost scheme [] = [] := by
  unfold keptHost
  split <;> rfl

theorem keptPort_none (scheme : Text) : keptPort scheme none = none := by
  unfold keptPort
  split <;> rfl

theorem readHost_nil (scheme : Text) : readHost env scheme [] = some ([], none) := by
  simp [readHost, splitHostPort, splitBracket, splitLast, readPort, env.lower_nil, keptHost_nil,
    keptPort_none]

theorem readAuthority_nil (scheme : Text) :
    readAuthority env scheme [] = some emptyAuthority := by
  simp [readAuthority, splitUserinfo, splitLast, readHost_nil, emptyAuthority]

theorem readRest_bare {scheme text : Text} (hspecial : isSpecial scheme = false)
    (hfile : isFile scheme = false) (htext : text.take 2 ≠ [slash, slash]) :
    readRest env scheme text =
      some (mkRecord scheme emptyAuthority (readTail env scheme text)) := by
  simp only [readRest, htext, hspecial, hfile, Bool.false_eq_true, or_self, if_false,
    readAuthority_nil]

/-- Reading an authority that is followed by nothing, or by a delimiter. -/
theorem readFull_append {scheme a t : Text} (ha : ∀ c ∈ a, notDelimiter c = true)
    (ht : ∀ c ∈ t.head?, notDelimiter c = false) :
    readFull env scheme (a ++ t) =
      (readAuthority env scheme a).map fun au => mkRecord scheme au (readTail env scheme t) := by
  rw [readFull, Split.takeWhile_append_stop ha ht, Split.dropWhile_append_stop ha ht]

theorem readFull_of_delimiter (scheme : Text) {t : Text}
    (ht : ∀ c ∈ t.head?, notDelimiter c = false) :
    readFull env scheme t = some (mkRecord scheme emptyAuthority (readTail env scheme t)) := by
  have hfull : readFull env scheme ([] ++ t) = _ := readFull_append (by simp) ht
  rw [List.nil_append, readAuthority_nil] at hfull
  exact hfull

/-! ## Path, query and fragment -/

theorem cut_of_not_mem {c : Nat} {s : Text} (hs : c ∉ s) : cut c s = (s, none) := by
  rw [cut, Split.splitFirst_eq_none_iff.mpr hs]

theorem cut_append {c : Nat} {a : Text} (ha : c ∉ a) (b : Text) :
    cut c (a ++ c :: b) = (a, some b) := by
  rw [cut, Split.splitFirst_append ha]

/-- A part with the character that introduces it. -/
def marked (c : Nat) : Option Text → Text
  | none => []
  | some s => c :: s

theorem cut_marked {c : Nat} {a : Text} (ha : c ∉ a) (part : Option Text) :
    cut c (a ++ marked c part) = (a, part) := by
  cases part with
  | none =>
    rw [marked, List.append_nil]
    exact cut_of_not_mem ha
  | some b => exact cut_append ha b

theorem exists_cut (c : Nat) (s : Text) :
    ∃ a part, s = a ++ marked c part ∧ c ∉ a := by
  cases hsplit : splitFirst c s with
  | none => exact ⟨s, none, by simp [marked], Split.splitFirst_eq_none_iff.mp hsplit⟩
  | some p =>
    obtain ⟨a, b⟩ := p
    obtain ⟨rfl, ha⟩ := Split.splitFirst_eq_some_iff.mp hsplit
    exact ⟨a, some b, rfl, ha⟩

/-- A text that is split into path, query and fragment. -/
structure Tail (path : Text) (query fragment : Option Text) : Prop where
  path_query : questionMark ∉ path
  path_fragment : numberSign ∉ path
  query_fragment : ∀ q ∈ query, numberSign ∉ q

theorem Tail.numberSign_not_mem {path : Text} {query fragment : Option Text}
    (h : Tail path query fragment) : numberSign ∉ path ++ marked questionMark query := by
  rw [List.mem_append, not_or]
  refine ⟨h.path_fragment, ?_⟩
  cases query with
  | none => simp [marked]
  | some q =>
    have hq := h.query_fragment q rfl
    simp only [marked, List.mem_cons, not_or]
    exact ⟨by decide, hq⟩

theorem readTail_append {path : Text} {query fragment : Option Text} (scheme : Text)
    (h : Tail path query fragment) :
    readTail env scheme (path ++ (marked questionMark query ++ marked numberSign fragment)) =
      (storedPath env scheme path, query, fragment) := by
  rw [readTail, ← List.append_assoc, cut_marked h.numberSign_not_mem]
  simp only [cut_marked h.path_query]

theorem exists_tail (text : Text) :
    ∃ path query fragment, Tail path query fragment ∧
      text = path ++ (marked questionMark query ++ marked numberSign fragment) := by
  obtain ⟨front, fragment, rfl, hfront⟩ := exists_cut numberSign text
  obtain ⟨path, query, rfl, hpath⟩ := exists_cut questionMark front
  rw [List.mem_append, not_or] at hfront
  refine ⟨path, query, fragment, ⟨hpath, hfront.1, ?_⟩, by rw [List.append_assoc]⟩
  rintro q rfl
  exact fun hq => hfront.2 (List.mem_cons_of_mem _ hq)

/-- What an optional part is read back as: an empty one is not printed. -/
def nonempty (s : Text) : Option Text :=
  if s = [] then none else some s

theorem optionalText_eq (c : Nat) (s : Text) : optionalText c s = marked c (nonempty s) := by
  unfold optionalText nonempty
  by_cases hs : s = [] <;> simp [hs, marked]

theorem optionalText_inj {c : Nat} {s t : Text} : optionalText c s = optionalText c t ↔ s = t := by
  unfold optionalText
  by_cases hs : s = [] <;> by_cases ht : t = [] <;> simp [hs, ht, eq_comm]

theorem nonempty_getD (s : Text) : (nonempty s).getD [] = s := by
  unfold nonempty
  by_cases hs : s = [] <;> simp [hs]

theorem tailText_nil (path : Text) : tailText path [] [] = path := by
  simp [tailText, optionalText]

/-- The printed path, query and fragment are read back. -/
theorem readTail_tailText {path query fragment : Text} (scheme : Text)
    (hpath : questionMark ∉ path ∧ numberSign ∉ path) (hquery : numberSign ∉ query) :
    readTail env scheme (tailText path query fragment) =
      (storedPath env scheme path, nonempty query, nonempty fragment) := by
  rw [tailText, optionalText_eq, optionalText_eq]
  apply readTail_append
  refine ⟨hpath.1, hpath.2, ?_⟩
  intro q hq
  unfold nonempty at hq
  split at hq
  · cases hq
  · rw [← Option.some.inj hq]
    exact hquery

/-! ## Stored paths -/

theorem storedPath_of_ne_nil {scheme path : Text} (hpath : path ≠ []) :
    storedPath env scheme path = encodePath env path := by
  simp [storedPath, hpath]

theorem storedPath_nil {scheme : Text} (hscheme : isSpecial scheme = false) :
    storedPath env scheme [] = [] := by
  simp [storedPath, hscheme]

theorem storedPath_special {scheme : Text} (hscheme : isSpecial scheme = true) (path : Text) :
    storedPath env scheme path = encodePath env (if path = [] then [slash] else path) := by
  by_cases hpath : path = [] <;> simp [storedPath, hscheme, hpath]

theorem must_of_mem_storedPath {scheme path : Text} {c : Nat}
    (hc : c ∈ storedPath env scheme path) : must true c = false := by
  rw [storedPath] at hc
  generalize (if isSpecial scheme = true ∧ path = [] then [slash] else path) = stored at hc
  by_cases hstored : stored = []
  · simp [hstored] at hc
  · rw [if_neg hstored] at hc
    exact must_of_mem_encodePath hc

theorem not_mem_of_must {text : Text} (h : ∀ c ∈ text, must true c = false) :
    questionMark ∉ text ∧ numberSign ∉ text := by
  constructor <;> intro hmem <;> exact absurd (h _ hmem) (by decide)

theorem encodePath_clean (path : Text) :
    questionMark ∉ encodePath env path ∧ numberSign ∉ encodePath env path :=
  not_mem_of_must fun _ hc => must_of_mem_encodePath hc

/-! ## Credentials -/

/-- Printed credentials are read back encoded, whatever host text follows. -/
theorem splitUserinfo_append {username password rest : Text} (husername : colon ∉ username)
    (hrest : atSign ∉ rest) :
    splitUserinfo (userinfoText env username password ++ rest) =
      (encodeSet env username false, encodeSet env password false, rest) := by
  have hcolon : colon ∉ encodeSet env username false :=
    fun h => husername (inert_colon.mem_encodeSet.mp h)
  by_cases hshown : username ≠ [] ∨ password ≠ []
  · rw [userinfoText, if_pos hshown]
    by_cases hpassword : password = []
    · have hsplit := Split.splitLast_append (a := encodeSet env username false) hrest
      simp only [hpassword, ne_eq, not_true_eq_false, if_false, List.nil_append,
        List.append_assoc, List.cons_append, encodeSet_nil]
      rw [splitUserinfo, hsplit]
      simp only [Split.splitFirst_eq_none_iff.mpr hcolon]
    · have hsplit := Split.splitLast_append
        (a := encodeSet env username false ++ colon :: encodeSet env password false) hrest
      simp only [List.append_assoc, List.cons_append] at hsplit
      simp only [ne_eq, hpassword, not_false_eq_true, if_true, List.append_assoc,
        List.cons_append, List.nil_append]
      rw [splitUserinfo, hsplit]
      simp only [Split.splitFirst_append hcolon]
  · have hnone : username = [] ∧ password = [] := by simpa using hshown
    rw [userinfoText, if_neg hshown, List.nil_append, splitUserinfo,
      Split.splitLast_eq_none_iff.mpr hrest]
    simp [hnone]

theorem readAuthority_append {username password rest : Text} (scheme : Text)
    (husername : colon ∉ username) (hrest : atSign ∉ rest) :
    readAuthority env scheme (userinfoText env username password ++ rest) =
      (readHost env scheme rest).map fun p =>
        { username := encodeSet env username false
          password := encodeSet env password false
          host := p.1
          port := p.2 } := by
  rw [readAuthority, splitUserinfo_append husername hrest]

/-! ## Ports -/

theorem readPort_decimal {n : Nat} (hn : n ≤ 65535) : readPort (decimal n) = some (some n) := by
  have hdigits : (decimal n).all isDigit = true := by
    rw [List.all_eq_true]
    exact fun c hc => isDigit_of_mem_decimal hc
  rw [readPort, if_neg (decimal_ne_nil n), if_neg (by simp [hdigits]), digitsValue_decimal,
    if_neg (Nat.not_lt.mpr hn)]

theorem readPort_le {portStr : Text} {n : Nat} (h : readPort portStr = some (some n)) :
    n ≤ 65535 ∧ portStr.all isDigit = true ∧ digitsValue portStr = n := by
  unfold readPort at h
  split at h
  · cases h
  · split at h
    · cases h
    · next hdigits =>
        split at h
        · cases h
        · next hle =>
            cases h
            exact ⟨Nat.not_lt.mp hle, by simpa using hdigits, rfl⟩

theorem readPort_none_iff {portStr : Text} : readPort portStr = some none ↔ portStr = [] := by
  unfold readPort
  by_cases hempty : portStr = []
  · simp [hempty]
  · rw [if_neg hempty]
    constructor
    · intro h
      split at h
      · cases h
      · split at h <;> cases h
    · intro h
      exact absurd h hempty

/-! ## Hosts -/

theorem splitBracket_eq_some_iff {s h t : Text} :
    splitBracket s = some (h, t) ↔
      s = h ++ t ∧ ∃ a, h = openBracket :: (a ++ [closeBracket]) ∧ closeBracket ∉ a := by
  cases s with
  | nil => simp +contextual [splitBracket]
  | cons c s =>
    rw [splitBracket]
    split
    · next hc =>
        simp only [Option.map_eq_some_iff, Prod.exists, Split.splitFirst_eq_some_iff, Prod.mk.injEq]
        constructor
        · rintro ⟨a, b, ⟨rfl, ha⟩, rfl, rfl⟩
          exact ⟨by simp [hc], a, rfl, ha⟩
        · rintro ⟨heq, a, rfl, ha⟩
          exact ⟨a, t, ⟨by simpa using (List.cons.inj heq).2, ha⟩, rfl, rfl⟩
    · next hc =>
        refine iff_of_false (by simp) ?_
        rintro ⟨heq, a, rfl, -⟩
        exact hc (List.cons.inj heq).1

theorem splitBracket_append {host h t : Text} (x : Text)
    (hsplit : splitBracket host = some (h, t)) :
    splitBracket (host ++ x) = some (h, t ++ x) := by
  rw [splitBracket_eq_some_iff] at hsplit ⊢
  exact ⟨by rw [hsplit.1, List.append_assoc], hsplit.2⟩

theorem splitBracket_append_none {host x : Text} (hsplit : splitBracket host = none)
    (hx : closeBracket ∉ x) (hhead : x.head? ≠ some openBracket) :
    splitBracket (host ++ x) = none := by
  cases host with
  | nil =>
    cases x with
    | nil => rfl
    | cons c r =>
      rw [List.nil_append, splitBracket, if_neg (by simpa using hhead)]
  | cons c r =>
    rw [splitBracket] at hsplit
    rw [List.cons_append, splitBracket]
    by_cases hc : c = openBracket
    · rw [if_pos hc] at hsplit ⊢
      have hnone : splitFirst closeBracket r = none := by simpa using hsplit
      have hnot : closeBracket ∉ r ++ x := by
        rw [List.mem_append, not_or]
        exact ⟨Split.splitFirst_eq_none_iff.mp hnone, hx⟩
      rw [Split.splitFirst_eq_none_iff.mpr hnot]
      rfl
    · rw [if_neg hc]

theorem not_mem_portText {n c : Nat} (hc : isDigit c = false) (hcolon : c ≠ colon) :
    c ∉ colon :: decimal n := by
  intro hmem
  rcases List.mem_cons.mp hmem with heq | hmem
  · exact hcolon heq
  · rw [isDigit_of_mem_decimal hmem] at hc
    cases hc

/-- A port text behind a host that is no bracketed literal. -/
theorem splitHostPort_port {host t : Text} (hbracket : splitBracket host = none)
    (ht : ∀ c ∈ t, isDigit c = true) : splitHostPort (host ++ colon :: t) = (host, t) := by
  have hcolon : colon ∉ t := fun hmem => absurd (ht _ hmem) (by decide)
  have hclose : closeBracket ∉ colon :: t := by
    rintro (_ | ⟨_, hmem⟩)
    exact absurd (ht _ hmem) (by decide)
  have hnone : splitBracket (host ++ colon :: t) = none :=
    splitBracket_append_none hbracket hclose (by rw [List.head?_cons]; decide)
  rw [splitHostPort, hnone]
  simp only [Split.splitLast_append hcolon, Option.getD_some]

/-- A host with a port is read back unless the host is a bracketed literal. -/
theorem readHost_port {host : Text} {n : Nat} (scheme : Text) (hbracket : splitBracket host = none)
    (hn : n ≤ 65535) :
    readHost env scheme (host ++ colon :: decimal n) =
      some (keptHost scheme (env.toLowerCase host), keptPort scheme (some n)) := by
  rw [readHost, splitHostPort_port hbracket fun _ => isDigit_of_mem_decimal]
  simp only [readPort_decimal hn, Option.map_some]

theorem readHost_bracket_port {host : Text} {n : Nat} (scheme : Text)
    (hbracket : splitBracket host ≠ none) :
    readHost env scheme (host ++ colon :: decimal n) = none := by
  obtain ⟨⟨h, t⟩, hsplit⟩ := Option.ne_none_iff_exists'.mp hbracket
  have hport : readPort (t ++ colon :: decimal n) = none := by
    rw [readPort, if_neg (by simp), if_pos]
    rw [List.all_eq_false]
    exact ⟨colon, by simp, by decide⟩
  rw [readHost, splitHostPort, splitBracket_append _ hsplit]
  simp only [hport, Option.map_none]

/-! ## Ends of texts -/

/-- Nothing is stripped from the end of the text. -/
def Ends (s : Text) : Prop :=
  ∀ c ∈ s.getLast?, isC0 c = false

theorem Ends.strip {s : Text} (h : Ends s) : s.rdropWhile isC0 = s :=
  Split.rdropWhile_of_last h

theorem ends_of_strip {s : Text} (h : s.rdropWhile isC0 = s) : Ends s := by
  intro c hc
  have hne : s ≠ [] := by
    rintro rfl
    cases hc
  have hlast := (List.rdropWhile_eq_self_iff.mp h) hne
  rw [List.getLast?_eq_some_getLast hne] at hc
  rw [← Option.some.inj hc]
  simpa using hlast

theorem ends_nil : Ends [] := by
  intro c hc
  cases hc

theorem Ends.append {t : Text} (s : Text) (h : Ends t) (ht : t ≠ []) : Ends (s ++ t) := by
  intro c hc
  rw [List.getLast?_append_of_ne_nil _ ht] at hc
  exact h c hc

theorem Ends.append_cons {s : Text} {c : Nat} (a : Text) (h : Ends s) (hc : isC0 c = false) :
    Ends (a ++ c :: s) := by
  cases s with
  | nil =>
    intro x hx
    rw [List.getLast?_concat] at hx
    rw [← Option.some.inj hx]
    exact hc
  | cons d s =>
    have happend := Ends.append (a ++ [c]) h (by simp)
    rwa [List.append_assoc] at happend

theorem Ends.of_append {s t : Text} (h : Ends (s ++ t)) : Ends t := by
  intro c hc
  have hne : t ≠ [] := by
    rintro rfl
    cases hc
  exact h c (by rw [List.getLast?_append_of_ne_nil _ hne]; exact hc)

theorem ends_of_forall {s : Text} (h : ∀ c ∈ s, isC0 c = false) : Ends s :=
  fun c hc => h c (List.mem_of_getLast? hc)

theorem isC0_of_must {isPath : Bool} {c : Nat} (h : must isPath c = false) : isC0 c = false := by
  by_contra hc
  simp only [isC0, Bool.not_eq_false, decide_eq_true_eq] at hc
  simp [must, hc] at h

theorem ends_of_kept {isPath : Bool} {s : Text} (h : ∀ c ∈ s, must isPath c = false) : Ends s :=
  ends_of_forall fun c hc => isC0_of_must (h c hc)

theorem ends_encodeSet (s : Text) : Ends (encodeSet env s false) :=
  ends_of_kept fun _ hc => must_of_mem_encodeSet hc

/-- Stripping stops at a character that is not stripped. -/
theorem strip_append_cons {x : Nat} (a b : Text) (hx : isC0 x = false) :
    (a ++ x :: b).rdropWhile isC0 = a ++ x :: b.rdropWhile isC0 :=
  Split.rdropWhile_append_cons hx a b

theorem strip_append {a : Text} (ha : Ends a) (b : Text) :
    (a ++ b).rdropWhile isC0 = a ++ b.rdropWhile isC0 := by
  rcases List.eq_nil_or_concat' a with rfl | ⟨a, x, rfl⟩
  · rfl
  · have hx : isC0 x = false := ha x (by simp)
    rw [List.append_assoc, List.append_assoc]
    exact strip_append_cons a b hx

end Url
