import QuickjsRuntime.Url.Reread

/-!
# Relative references

A relative reference abbreviates an absolute text: the beginning of the base's `href`, as
far as the reference does not replace it, followed by the reference. `parseUrl` resolves
references in branches of their own; the main result says for which references and bases
they agree with parsing the absolute text.

The `href` of a special URL falls apart uniquely into the authority, which has no delimiter,
and a tail that starts with a slash. So the comparison splits in two: whether the base's
authority is read back from its own text, and what the tail becomes.
-/

namespace Url

open Utf16 (Text units)
open Split (splitFirst splitLast)

variable {env : Platform}

/-! ## Parsing a printed authority with some tail -/

/-- The text that is printed for what is read from `text` behind an authority. -/
def printedTail (env : Platform) (scheme text : Text) : Text :=
  let tail := readTail env scheme text
  tailText tail.1 (tail.2.1.getD []) (tail.2.2.getD [])

theorem printedTail_append {path : Text} {query fragment : Option Text} (scheme : Text)
    (h : Tail path query fragment) :
    printedTail env scheme (path ++ (marked questionMark query ++ marked numberSign fragment)) =
      tailText (storedPath env scheme path) (query.getD []) (fragment.getD []) := by
  rw [printedTail, readTail_append scheme h]

theorem serialize_special {r : Record} (h : isSpecial r.scheme = true) :
    serialize env r =
      r.scheme ++ colon :: slash :: slash :: (r.authorityText env ++ r.tailText) := by
  simp [serialize, Record.restText, Record.showsAuthority, h]

theorem head_tailText {path search hash : Text} (h : path.head? = some slash) :
    (tailText path search hash).head? = some slash := by
  rw [tailText, List.head?_append, h, Option.some_or]

/-- `href` as far as the end of the authority, followed by some text. -/
def afterAuthority (env : Platform) (r : Record) (text : Text) : Text :=
  r.scheme ++ colon :: slash :: slash :: (r.authorityText env ++ text)

/-- Parsing the authority of a record with a new tail prints that authority and some tail
exactly when the host is readable and the tail is what the new one becomes. -/
theorem parse_afterAuthority_iff {r : Record} (h : SpecialRecord env r) {text tail : Text}
    (htext : text.head? = some slash) (hlast : Ends text)
    (htail : tail.head? = some slash) :
    some (afterAuthority env r tail) =
        (parseUrl env (afterAuthority env r text) none).map (serialize env) ↔
      HostReadable r ∧ tail = printedTail env r.scheme text := by
  have hne : text ≠ [] := by
    rintro rfl
    cases htext
  have hstrip : (slash :: slash :: (r.authorityText env ++ text)).rdropWhile isC0 =
      slash :: slash :: (r.authorityText env ++ text) :=
    (hlast.append (slash :: slash :: r.authorityText env) hne).strip
  have hstop := stops_of_slash htext
  rw [afterAuthority, afterAuthority, parseUrl_append (validScheme_of_special h.special), hstrip,
    readRest_slashes, ← readAuthority_authorityText_iff h]
  have hfull : readFull env r.scheme (r.authorityText env ++ text) =
      (readAuthority env r.scheme (r.authorityText env)).map fun a =>
        mkRecord r.scheme a (readTail env r.scheme text) :=
    readFull_append h.authorityText_delimiter hstop
  rw [hfull]
  constructor
  · intro heq
    rw [Option.map_map] at heq
    obtain ⟨a, hread, hprint⟩ := Option.map_eq_some_iff.mp heq.symm
    have hnew : SpecialRecord env (mkRecord r.scheme a (readTail env r.scheme text)) :=
      specialRecord_of_readFull h.special (hfull.trans (by rw [hread]; rfl))
    simp only [Function.comp] at hprint
    rw [serialize_special hnew.special] at hprint
    have hrest := List.append_cancel_left hprint
    simp only [List.cons.injEq, true_and] at hrest
    obtain ⟨hauthority, htails⟩ := Split.append_inj_of_stop hrest hnew.authorityText_delimiter
      h.authorityText_delimiter (stops_of_slash (head_tailText hnew.path_absolute))
      (stops_of_slash htail)
    exact ⟨⟨a, hread, hauthority⟩, htails.symm⟩
  · rintro ⟨⟨a, hread, hauthority⟩, rfl⟩
    have hspecial : isSpecial (mkRecord r.scheme a (readTail env r.scheme text)).scheme = true :=
      h.special
    rw [hread, Option.map_some, Option.map_some, serialize_special hspecial, ← hauthority]
    rfl

/-! ## The text a reference abbreviates -/

/-- The absolute text that a reference abbreviates against a base. -/
def absoluteText (env : Platform) (base : Record) (reference : Text) : Text :=
  match reference with
  | [] => serialize env base
  | c :: rest =>
    if c = slash ∧ rest.head? = some slash then base.scheme ++ colon :: reference
    else if c = numberSign then
      afterAuthority env base
        (base.pathname ++ (optionalText questionMark (base.search.getD []) ++ reference))
    else if c = questionMark then afterAuthority env base (base.pathname ++ reference)
    else if c = slash then afterAuthority env base reference
    else afterAuthority env base (directory base.pathname ++ reference)

/-- The characters `encodeSet` leaves as they are in a query and in a fragment. -/
def Kept (text : Text) : Prop :=
  ∀ c ∈ text, must false c = false

/-- Query and fragment of a text, if it has a fragment, are both there. -/
def FragmentSplits (text : Text) : Prop :=
  ∀ query fragment, splitFirst numberSign text = some (query, fragment) → query ≠ [] ∧ fragment ≠ []

/-- The part of a text before its query and its fragment. -/
def pathText (text : Text) : Text :=
  (cut questionMark (cut numberSign text).1).1

/-- Authorities of which nothing is printed: no credentials and no host. -/
def BlankAuthority (authority : Text) : Prop :=
  ∃ rest, splitUserinfo authority = ([], [], rest) ∧ (splitHostPort rest).1 = [] ∧
    readPort (splitHostPort rest).2 ≠ none

/-- A network reference `//text` whose own text starts with two slashes again loses them: it
agrees only when nothing of the authority behind them is printed and the path is the same. -/
def SlashesKept (env : Platform) (text : Text) : Prop :=
  text.take 2 = [slash, slash] →
    let authority := (text.drop 2).takeWhile notDelimiter
    let path := pathText ((text.drop 2).dropWhile notDelimiter)
    BlankAuthority authority ∧
      encodePath env (if path = [] then [slash] else path) =
        encodePath env (slash :: slash :: (authority ++ path))

/-- The references that resolve like the text they abbreviate. -/
def ResolvesAsText (env : Platform) (base : Record) (reference : Text) : Prop :=
  match reference with
  | [] => True
  | c :: rest =>
    if c = slash ∧ rest.head? = some slash then SlashesKept env (rest.drop 1)
    else if c = numberSign then HostReadable base ∧ Kept rest
    else if c = questionMark then HostReadable base ∧ Kept rest ∧ FragmentSplits rest
    else HostReadable base ∧ questionMark ∉ reference ∧ numberSign ∉ reference

/-! ## Paths -/

theorem mem_optionalText {c : Nat} {s : Text} (hs : s ≠ []) : c ∈ optionalText c s := by
  simp [optionalText, hs]

/-- Path, query and fragment that are printed without `?` and `#` are just a path. -/
theorem tailText_clean {path search hash : Text}
    (h : questionMark ∉ tailText path search hash ∧ numberSign ∉ tailText path search hash) :
    search = [] ∧ hash = [] := by
  simp only [tailText, List.mem_append, not_or] at h
  constructor
  · by_contra hsearch
    exact h.1.2.1 (mem_optionalText hsearch)
  · by_contra hhash
    exact h.2.2.2 (mem_optionalText hhash)

/-- A path with a query or a fragment is stored as a whole only when it has neither. -/
theorem encodePath_eq_printedTail_iff {scheme text : Text} (htext : text.head? = some slash) :
    encodePath env text = printedTail env scheme text ↔
      questionMark ∉ text ∧ numberSign ∉ text := by
  obtain ⟨path, query, fragment, htail, rfl⟩ := exists_tail text
  have hpath : path ≠ [] := by
    rintro rfl
    cases query <;> cases fragment <;> simp [marked] at htext <;> revert htext <;> decide
  have hslash := head_path htail (stops_of_slash htext) hpath
  rw [printedTail_append scheme htail, storedPath_of_ne_nil hpath]
  constructor
  · intro heq
    obtain ⟨hquery, hfragment⟩ := tailText_clean (heq ▸ encodePath_clean _)
    rw [hquery, hfragment, tailText_nil] at heq
    -- whatever is left of an empty query or fragment makes the stored path longer
    cases query with
    | none =>
      cases fragment with
      | none => simpa [marked] using And.intro htail.path_query htail.path_fragment
      | some f =>
        cases hfragment
        exact absurd heq (encodePath_extend_ne hslash (by decide) (by decide) (by decide))
    | some q =>
      cases hquery
      cases fragment with
      | none => exact absurd heq (encodePath_extend_ne hslash (by decide) (by decide) (by decide))
      | some f =>
        cases hfragment
        exact absurd heq (encodePath_extend_ne hslash (by decide) (by decide) (by decide))
  · rintro ⟨hquery, hfragment⟩
    cases query with
    | some q => simp [marked] at hquery
    | none =>
      cases fragment with
      | some f => simp [marked] at hfragment
      | none => simp [marked, tailText_nil]

/-! ## Queries and fragments -/

theorem kept_iff (env : Platform) {text : Text} : Kept text ↔ encodeSet env text false = text := by
  constructor
  · exact encodeSet_of_kept
  · intro h c hc
    rw [← h] at hc
    exact must_of_mem_encodeSet hc

theorem SpecialRecord.path_ne_nil {r : Record} (h : SpecialRecord env r) : r.pathname ≠ [] := by
  intro hempty
  have hslash := h.path_absolute
  rw [hempty] at hslash
  cases hslash

theorem SpecialRecord.storedPath {r : Record} (h : SpecialRecord env r) :
    storedPath env r.scheme r.pathname = r.pathname := by
  rw [storedPath_of_ne_nil h.path_ne_nil, h.path_encoded]

theorem SpecialRecord.path_clean {r : Record} (h : SpecialRecord env r) :
    questionMark ∉ r.pathname ∧ numberSign ∉ r.pathname :=
  h.path_encoded ▸ encodePath_clean _

theorem SpecialRecord.printedTail_path {r : Record} (h : SpecialRecord env r)
    (query fragment : Option Text) (hquery : ∀ q ∈ query, numberSign ∉ q) :
    printedTail env r.scheme
        (r.pathname ++ (marked questionMark query ++ marked numberSign fragment)) =
      tailText r.pathname (query.getD []) (fragment.getD []) := by
  rw [printedTail_append r.scheme ⟨h.path_clean.1, h.path_clean.2, hquery⟩, h.storedPath]

/-- A text with a fragment sign that is stored as a query is printed like query and fragment
only when both are there. -/
theorem encoded_eq_query_fragment_iff {query fragment stored : Text} (hquery : numberSign ∉ query)
    (hstored : numberSign ∈ stored) :
    optionalText questionMark stored ++ optionalText numberSign [] =
        optionalText questionMark query ++ optionalText numberSign fragment ↔
      stored = query ++ numberSign :: fragment ∧ query ≠ [] ∧ fragment ≠ [] := by
  have hne : stored ≠ [] := List.ne_nil_of_mem hstored
  by_cases hq : query = []
  · have hdiffer : questionMark :: stored ≠ optionalText numberSign fragment := by
      unfold optionalText
      split <;> simp [questionMark, numberSign]
    simpa [optionalText, hne, hq] using hdiffer
  · by_cases hf : fragment = []
    · have hdiffer : stored ≠ query := fun heq => hquery (heq ▸ hstored)
      simp [optionalText, hne, hq, hf, hdiffer]
    · simp [optionalText, hne, hq, hf]

/-- A new query, which may bring a fragment along. -/
theorem query_eq_printedTail_iff {r : Record} (h : SpecialRecord env r) (text : Text) :
    tailText r.pathname (encodeSet env text false) [] =
        printedTail env r.scheme (r.pathname ++ questionMark :: text) ↔
      Kept text ∧ FragmentSplits text := by
  obtain ⟨query, fragment, rfl, hquery⟩ := exists_cut numberSign text
  have hprint : printedTail env r.scheme
      (r.pathname ++ questionMark :: (query ++ marked numberSign fragment)) =
        tailText r.pathname query (fragment.getD []) :=
    h.printedTail_path (some query) fragment fun q hq => Option.some.inj hq ▸ hquery
  rw [hprint, kept_iff env]
  cases fragment with
  | none =>
    have hsplits : FragmentSplits query := by
      intro q f hsplit
      rw [Split.splitFirst_eq_none_iff.mpr hquery] at hsplit
      cases hsplit
    simp [marked, tailText, optionalText_inj, hsplits]
  | some fragment =>
    have hsplits : FragmentSplits (query ++ numberSign :: fragment) ↔
        query ≠ [] ∧ fragment ≠ [] := by
      simp [FragmentSplits, Split.splitFirst_append hquery]
    have hmem : numberSign ∈ encodeSet env (query ++ numberSign :: fragment) false :=
      inert_numberSign.mem_encodeSet.mpr (by simp)
    rw [marked, hsplits]
    simp only [tailText, List.append_cancel_left_eq, Option.getD_some]
    exact encoded_eq_query_fragment_iff hquery hmem

/-- A new fragment. -/
theorem fragment_eq_printedTail_iff {r : Record} (h : SpecialRecord env r) (text : Text) :
    tailText r.pathname (r.search.getD []) (encodeSet env text false) =
        printedTail env r.scheme (r.pathname ++
          (optionalText questionMark (r.search.getD []) ++ numberSign :: text)) ↔
      Kept text := by
  have hsearch : ∀ q ∈ nonempty (r.search.getD []), numberSign ∉ q := by
    intro q hq
    unfold nonempty at hq
    split at hq
    · cases hq
    · cases hsearch : r.search with
      | none => simp_all
      | some search =>
        rw [hsearch] at hq
        exact h.search q (hsearch.trans hq)
  have hprint : printedTail env r.scheme (r.pathname ++
      (optionalText questionMark (r.search.getD []) ++ numberSign :: text)) =
        tailText r.pathname (r.search.getD []) text := by
    have hread := h.printedTail_path _ (some text) hsearch
    rw [nonempty_getD, ← optionalText_eq] at hread
    exact hread
  rw [hprint, kept_iff env]
  simp [tailText, optionalText_inj]

/-! ## The branches of `parseUrl` -/

theorem parseUrl_relative {reference : Text} (base : Record)
    (hscheme : splitScheme reference = none)
    (hfirst : ∀ c ∈ reference.head?, isC0 c = false)
    (hlast : ∀ c ∈ reference.getLast?, isC0 c = false) :
    parseUrl env reference (some base) = resolveAgainst env base reference := by
  have hstrip : stripC0 reference = reference := by
    rw [stripC0, Split.rdropWhile_of_last hlast]
    cases reference with
    | nil => rfl
    | cons c rest => exact List.dropWhile_cons_of_neg (by simp [hfirst c rfl])
  rw [parseUrl, hstrip, hscheme]
  rfl

theorem mem_of_mem_directory {pathname : Text} {c : Nat} (hc : c ∈ directory pathname) :
    c ∈ pathname := by
  have hinit := List.rdropWhile_prefix (· ≠ slash) pathname
  exact hinit.subset hc

theorem head_directory {pathname : Text} (h : pathname.head? = some slash) (t : Text) :
    (directory pathname ++ t).head? = some slash := by
  obtain ⟨rest, rfl⟩ := List.head?_eq_some_iff.mp h
  have hkeep : (slash :: rest).rdropWhile (· ≠ slash) = slash :: rest.rdropWhile (· ≠ slash) :=
    Split.rdropWhile_append_cons (by simp) [] rest
  rw [directory, hkeep]
  rfl

theorem hostText_eq_nil_iff {host : Text} {port : Option Nat} :
    hostText host port = [] ↔ host = [] := by
  unfold hostText
  split
  · next hhost => simp [hhost]
  · next hhost => simpa using hhost

theorem blankAuthority_iff (env : Platform) {scheme authority : Text}
    (hspecial : isSpecial scheme = true) :
    (∃ a, readAuthority env scheme authority = some a ∧
        userinfoText env a.username a.password ++ hostText a.host a.port = []) ↔
      BlankAuthority authority := by
  constructor
  · rintro ⟨a, hread, hprint⟩
    obtain ⟨rest, hsplit, hhost⟩ := readAuthority_eq_some hread
    obtain ⟨p, hport, hhost, -⟩ := readHost_eq_some hhost
    rw [List.append_eq_nil_iff, userinfoText_eq_nil_iff, hostText_eq_nil_iff] at hprint
    obtain ⟨⟨husername, hpassword⟩, hnil⟩ := hprint
    rw [husername, hpassword] at hsplit
    refine ⟨rest, hsplit, ?_, by simp [hport]⟩
    by_contra hne
    apply env.lower_ne_nil _ hne
    rw [← keptHost_special hspecial (env.toLowerCase _), ← hhost]
    exact hnil
  · rintro ⟨rest, hsplit, hhost, hport⟩
    obtain ⟨p, hport⟩ := Option.ne_none_iff_exists'.mp hport
    have hread : readHost env scheme rest = some ([], keptPort scheme p) := by
      unfold readHost
      simp only [hport, hhost, Option.map_some, env.lower_nil, keptHost_nil]
    refine ⟨⟨[], [], [], keptPort scheme p⟩, ?_, by simp [userinfoText, hostText]⟩
    unfold readAuthority
    simp only [hsplit, hread, Option.map_some]

theorem pathText_append {path : Text} {query fragment : Option Text}
    (h : Tail path query fragment) :
    pathText (path ++ (marked questionMark query ++ marked numberSign fragment)) = path := by
  rw [pathText, ← List.append_assoc, cut_marked h.numberSign_not_mem, cut_marked h.path_query]

/-- Two slashes in front of an authority without text for them are part of the path. -/
theorem readFull_two_slashes {scheme a path : Text} {query fragment : Option Text}
    (ha : ∀ c ∈ a, notDelimiter c = true) (h : Tail path query fragment) :
    readFull env scheme (slash :: slash ::
        (a ++ (path ++ (marked questionMark query ++ marked numberSign fragment)))) =
      some (mkRecord scheme emptyAuthority
        (encodePath env (slash :: slash :: (a ++ path)), query, fragment)) := by
  have htail : Tail (slash :: slash :: (a ++ path)) query fragment := by
    have hclean : questionMark ∉ a ∧ numberSign ∉ a :=
      ⟨fun hmem => absurd (ha _ hmem) (by decide), fun hmem => absurd (ha _ hmem) (by decide)⟩
    refine ⟨?_, ?_, h.query_fragment⟩
    · simp only [List.mem_cons, List.mem_append, not_or]
      exact ⟨by decide, by decide, hclean.1, h.path_query⟩
    · simp only [List.mem_cons, List.mem_append, not_or]
      exact ⟨by decide, by decide, hclean.2, h.path_fragment⟩
  have htext : slash :: slash ::
      (a ++ (path ++ (marked questionMark query ++ marked numberSign fragment))) =
        slash :: slash :: (a ++ path) ++
          (marked questionMark query ++ marked numberSign fragment) := by
    simp
  rw [readFull_of_delimiter scheme (stops_of_slash rfl), htext, readTail_append scheme htail,
    storedPath_of_ne_nil (by simp)]

theorem authorityText_emptyAuthority (scheme : Text) (tail : Text × Option Text × Option Text) :
    (mkRecord scheme emptyAuthority tail).authorityText env = [] := by
  simp [Record.authorityText, mkRecord, emptyAuthority, userinfoText, hostText]

/-- The branch for a reference that starts with two slashes. -/
theorem network_iff {scheme text : Text} (hspecial : isSpecial scheme = true)
    (hlast : Ends (slash :: slash :: text)) :
    (readRest env scheme text).map (serialize env) =
        (parseUrl env (scheme ++ colon :: slash :: slash :: text) none).map (serialize env) ↔
      SlashesKept env text := by
  rw [parseUrl_append (validScheme_of_special hspecial), hlast.strip, readRest_slashes]
  rcases take_two_cases text with ⟨text, rfl⟩ | hslashes
  · obtain ⟨a, t, rfl, ha, ht⟩ := Split.exists_span notDelimiter text
    obtain ⟨path, query, fragment, htail, rfl⟩ := exists_tail t
    have hfull : readFull env scheme
        (a ++ (path ++ (marked questionMark query ++ marked numberSign fragment))) = _ :=
      readFull_append ha ht
    have hkept : SlashesKept env (slash :: slash ::
        (a ++ (path ++ (marked questionMark query ++ marked numberSign fragment)))) ↔
          BlankAuthority a ∧ storedPath env scheme path =
            encodePath env (slash :: slash :: (a ++ path)) := by
      simp only [SlashesKept, List.take_succ_cons, List.take_zero, List.drop_succ_cons,
        List.drop_zero, Split.takeWhile_append_stop ha ht, Split.dropWhile_append_stop ha ht,
        pathText_append htail, storedPath_special hspecial, true_imp_iff]
    rw [readRest_slashes, readFull_two_slashes ha htail, hkept, hfull,
      ← blankAuthority_iff env hspecial, Option.map_some,
      serialize_special (r := mkRecord scheme _ _) hspecial]
    constructor
    · intro heq
      rw [Option.map_map] at heq
      obtain ⟨au, hread, hprint⟩ := Option.map_eq_some_iff.mp heq
      have hnew : SpecialRecord env (mkRecord scheme au (readTail env scheme _)) :=
        specialRecord_of_readFull hspecial (hfull.trans (by rw [hread]; rfl))
      simp only [Function.comp] at hprint
      rw [serialize_special hnew.special] at hprint
      have hrest := List.append_cancel_left hprint
      simp only [List.cons.injEq, true_and] at hrest
      obtain ⟨hauthority, htails⟩ := Split.append_inj_of_stop hrest hnew.authorityText_delimiter
        (by simp [authorityText_emptyAuthority])
        (stops_of_slash (head_tailText hnew.path_absolute))
        (stops_of_slash (head_tailText (head_encodePath rfl)))
      refine ⟨⟨au, hread, hauthority.trans (authorityText_emptyAuthority _ _)⟩, ?_⟩
      rw [readTail_append scheme htail] at htails
      exact List.append_cancel_right htails
    · rintro ⟨⟨au, hread, hauthority⟩, hpath⟩
      have hshown : (mkRecord scheme au (readTail env scheme
          (path ++ (marked questionMark query ++ marked numberSign fragment)))).authorityText env =
            [] := hauthority
      rw [hread, Option.map_some, Option.map_some,
        serialize_special (r := mkRecord scheme _ _) hspecial, hshown,
        authorityText_emptyAuthority, readTail_append scheme htail, hpath]
      rfl
  · rw [readRest_full (Or.inl hspecial) hslashes]
    simp [SlashesKept, hslashes]

/-- Every branch but the first gives the base another tail. -/
theorem branch_iff {base : Record} {pathname text : Text} (search hash : Option Text)
    (h : SpecialRecord env base) (hpath : pathname.head? = some slash)
    (htext : text.head? = some slash) (hlast : Ends text) :
    (some { base with pathname := pathname, search := search, hash := hash }).map
          (serialize env) =
        (parseUrl env (afterAuthority env base text) none).map (serialize env) ↔
      HostReadable base ∧ tailText pathname (search.getD []) (hash.getD []) =
        printedTail env base.scheme text := by
  have hprint : serialize env
      { base with pathname := pathname, search := search, hash := hash } =
        afterAuthority env base (tailText pathname (search.getD []) (hash.getD [])) :=
    serialize_special h.special
  rw [Option.map_some, hprint]
  exact parse_afterAuthority_iff h htext hlast (head_tailText hpath)

/-- A path branch keeps nothing of the base's tail but, perhaps, its directory. -/
theorem path_branch_iff {base : Record} {text : Text} (h : SpecialRecord env base)
    (htext : text.head? = some slash) (hlast : Ends text) :
    (some { base with pathname := encodePath env text, search := none, hash := none }).map
          (serialize env) =
        (parseUrl env (afterAuthority env base text) none).map (serialize env) ↔
      HostReadable base ∧ questionMark ∉ text ∧ numberSign ∉ text := by
  rw [branch_iff none none h (head_encodePath htext) htext hlast, Option.getD_none, tailText_nil,
    encodePath_eq_printedTail_iff htext]

/-- When resolving a reference gives the same `href` as parsing the text it abbreviates. -/
theorem resolves_like_text_iff {input reference : Text} {base : Record}
    (hbase : parseUrl env input none = some base) (hspecial : isSpecial base.scheme = true)
    (hne : reference ≠ []) (hscheme : splitScheme reference = none)
    (hfirst : ∀ c ∈ reference.head?, isC0 c = false)
    (hlast : ∀ c ∈ reference.getLast?, isC0 c = false) :
    (parseUrl env reference (some base)).map (serialize env) =
        (parseUrl env (absoluteText env base reference) none).map (serialize env) ↔
      ResolvesAsText env base reference := by
  have h := specialRecord_of_parseUrl hbase hspecial
  rw [parseUrl_relative base hscheme hfirst hlast]
  cases reference with
  | nil => exact absurd rfl hne
  | cons c rest =>
    have hlast' : ∀ a, Ends (a ++ c :: rest) := fun a => Ends.append a hlast hne
    have hslash : ∀ t, (base.pathname ++ t).head? = some slash := by
      intro t
      rw [List.head?_append, h.path_absolute, Option.some_or]
    simp only [resolveAgainst, absoluteText, ResolvesAsText]
    by_cases hnetwork : c = slash ∧ rest.head? = some slash
    · simp only [if_pos hnetwork]
      obtain ⟨rfl, hhead⟩ := hnetwork
      obtain ⟨text, rfl⟩ : ∃ text, rest = slash :: text := List.head?_eq_some_iff.mp hhead
      exact network_iff hspecial hlast
    by_cases hfragment : c = numberSign
    · simp only [if_neg hnetwork, if_pos hfragment]
      subst hfragment
      have hend := hlast' (base.pathname ++ optionalText questionMark (base.search.getD []))
      rw [List.append_assoc] at hend
      rw [branch_iff _ _ h h.path_absolute (hslash _) hend, Option.getD_some,
        fragment_eq_printedTail_iff h]
    by_cases hquery : c = questionMark
    · simp only [if_neg hnetwork, if_neg hfragment, if_pos hquery]
      subst hquery
      rw [branch_iff _ _ h h.path_absolute (hslash _) (hlast' _), Option.getD_some,
        Option.getD_none, query_eq_printedTail_iff h]
    by_cases habsolute : c = slash
    · simp only [if_neg hnetwork, if_neg hfragment, if_neg hquery, if_pos habsolute]
      subst habsolute
      exact path_branch_iff h rfl hlast
    · simp only [if_neg hnetwork, if_neg hfragment, if_neg hquery, if_neg habsolute]
      have hdirectory : questionMark ∉ directory base.pathname ∧
          numberSign ∉ directory base.pathname :=
        ⟨fun hmem => h.path_clean.1 (mem_of_mem_directory hmem),
          fun hmem => h.path_clean.2 (mem_of_mem_directory hmem)⟩
      rw [path_branch_iff h (head_directory h.path_absolute _) (hlast' _)]
      simp only [List.mem_append, hdirectory, false_or]

/-- The reference `b` resolves like `http://h/b`. -/
theorem resolves_like_text_plain :
    (parseUrl asciiPlatform (units "b") (some plainRecord)).map (serialize asciiPlatform) =
      (parseUrl asciiPlatform (absoluteText asciiPlatform plainRecord (units "b")) none).map
        (serialize asciiPlatform) := by
  have hbase : parseUrl asciiPlatform (units "http://h/a") none = some plainRecord := by decide
  apply (resolves_like_text_iff hbase (by decide) (by decide) (by decide) (by decide)
    (by decide)).mpr
  exact ⟨Or.inr (Or.inl (by decide)), by decide, by decide⟩

/-- The reference `b?c` does not resolve like `http://h/b?c`: the question mark is encoded. -/
theorem reference_query_encoded :
    parseUrl asciiPlatform (units "http://h/a") none = some plainRecord ∧
      splitScheme (units "b?c") = none ∧
      (parseUrl asciiPlatform (units "b?c") (some plainRecord)).map (serialize asciiPlatform) =
        some (units "http://h/b%3Fc") ∧
      (parseUrl asciiPlatform (absoluteText asciiPlatform plainRecord (units "b?c")) none).map
        (serialize asciiPlatform) = some (units "http://h/b?c") := by
  decide

end Url
