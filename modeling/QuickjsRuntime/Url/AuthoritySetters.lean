import QuickjsRuntime.Url.TailSetters

/-!
# Setters of the authority

When assigning `username`, `password`, `port`, `host` or `hostname` is contained. A value
with a delimiter ends the authority early: what follows it is read together with the old
tail, and `Absorbed` says when the old tail comes out nevertheless.
-/

namespace Url

open Utf16 (Text units)
open Split (splitFirst splitLast segments_last)

variable {env : Platform} {r x : Record}

/-! ## Text between an authority and a tail -/

/-- The tail of a record is read from a text. -/
def ReadsTail (env : Platform) (r : Record) (text : Text) : Prop :=
  (readTail env r.scheme text).1 = r.pathname ∧
    (readTail env r.scheme text).2.1.getD [] = r.search.getD [] ∧
    (readTail env r.scheme text).2.2.getD [] = r.hash.getD []

theorem SettledRecord.readsTail (h : SettledRecord env r) : ReadsTail env r r.tailText := by
  rw [ReadsTail, Record.tailText,
    readTail_tailText _ (not_mem_of_must h.path_kept) h.numberSign_not_mem]
  exact ⟨h.path, nonempty_getD _, nonempty_getD _⟩

/-- A delimiter and some text in front of the tail of a record that the tail absorbs. -/
def Absorbed (env : Platform) (r : Record) (d : Nat) (b : Text) : Prop :=
  if d = slash then
    questionMark ∉ b ∧ numberSign ∉ b ∧ encodePath env (slash :: (b ++ r.pathname)) = r.pathname
  else if d = questionMark then
    r.pathname = [] ∧ r.search.getD [] = [] ∧ (b = [] ∨ b = [numberSign] ∧ r.hash.getD [] = [])
  else r.tailText = [] ∧ b = []

section Delimiter

variable {b : Text} {query fragment : Option Text}

theorem optionalText_eq_nil_iff {c : Nat} {s : Text} : optionalText c s = [] ↔ s = [] := by
  unfold optionalText
  by_cases hs : s = [] <;> simp [hs]

theorem tailText_eq_nil_iff {path search hash : Text} :
    tailText path search hash = [] ↔ path = [] ∧ search = [] ∧ hash = [] := by
  simp [tailText, optionalText_eq_nil_iff]

/-- A fragment that ends with a whole tail is the fragment of that tail only if both are empty. -/
theorem append_tailText_eq_hash_iff {y path search hash : Text} :
    y ++ tailText path search hash = hash ↔ y = [] ∧ path = [] ∧ search = [] ∧ hash = [] := by
  have hassoc : y ++ tailText path search hash =
      (y ++ (path ++ optionalText questionMark search)) ++ optionalText numberSign hash := by
    simp [tailText]
  rw [hassoc, append_optionalText_eq_iff, List.append_eq_nil_iff, List.append_eq_nil_iff,
    optionalText_eq_nil_iff]
  tauto

theorem storedPath_slash_ne_nil (scheme : Text) (p : Text) :
    storedPath env scheme (slash :: p) ≠ [] := by
  intro hnil
  rw [storedPath_of_ne_nil (by simp)] at hnil
  have hhead : (encodePath env (slash :: p)).head? = some slash := head_encodePath rfl
  rw [hnil] at hhead
  cases hhead

/-- A text with a question mark in front of a tail takes the path into the query. -/
theorem SettledRecord.readTail_query (h : SettledRecord env r) {path : Text}
    (htail : Tail path (some b) none) :
    readTail env r.scheme (path ++ (questionMark :: (b ++ r.tailText))) =
      (storedPath env r.scheme path,
        some (b ++ r.pathname ++ optionalText questionMark (r.search.getD [])),
        nonempty (r.hash.getD [])) := by
  have hclean := not_mem_of_must h.path_kept
  have htail' : Tail path
      (some (b ++ r.pathname ++ optionalText questionMark (r.search.getD [])))
      (nonempty (r.hash.getD [])) := by
    refine ⟨htail.path_query, htail.path_fragment, ?_⟩
    intro q hq
    rw [← Option.some.inj hq]
    have hopt : numberSign ∉ optionalText questionMark (r.search.getD []) := by
      unfold optionalText
      split
      · simpa [numberSign, questionMark] using h.numberSign_not_mem
      · simp
    simp only [List.mem_append, not_or]
    exact ⟨⟨htail.query_fragment b rfl, hclean.2⟩, hopt⟩
  rw [← readTail_append r.scheme htail', ← optionalText_eq]
  simp [Record.tailText, tailText, marked]

/-- A text with a fragment sign in front of a tail takes the whole tail into the fragment. -/
theorem readTail_fragment (env : Platform) {path y : Text} (scheme t : Text)
    (htail : Tail path query (some y)) :
    readTail env scheme (path ++ (marked questionMark query ++ numberSign :: (y ++ t))) =
      (storedPath env scheme path, query, some (y ++ t)) := by
  have htail' : Tail path query (some (y ++ t)) :=
    ⟨htail.path_query, htail.path_fragment, htail.query_fragment⟩
  rw [← readTail_append scheme htail']
  rfl

theorem tail_nil (query : Option Text) (fragment : Option Text)
    (hquery : ∀ q ∈ query, numberSign ∉ q) : Tail [] query fragment :=
  ⟨by simp, by simp, hquery⟩

theorem SettledRecord.readsTail_questionMark_iff (h : SettledRecord env r) (b : Text) :
    ReadsTail env r (questionMark :: (b ++ r.tailText)) ↔
      r.pathname = [] ∧ r.search.getD [] = [] ∧
        (b = [] ∨ b = [numberSign] ∧ r.hash.getD [] = []) := by
  have hpath : r.pathname = [] → storedPath env r.scheme [] = r.pathname := by
    intro hnil
    have hstored := h.path
    rwa [hnil] at hstored ⊢
  obtain ⟨query, fragment, rfl, hquery⟩ := exists_cut numberSign b
  rw [ReadsTail]
  cases fragment with
  | none =>
    have htail : Tail [] (some query) none := tail_nil _ _ fun q hq => Option.some.inj hq ▸ hquery
    have hread := h.readTail_query htail
    rw [List.nil_append] at hread
    rw [marked, List.append_nil, hread]
    simp only [Option.getD_some, nonempty_getD, and_true, append_optionalText_eq_iff,
      List.append_eq_nil_iff]
    have hne : query ≠ [numberSign] := fun heq => hquery (by simp [heq])
    constructor
    · rintro ⟨-, hsearch, hq, hp⟩
      exact ⟨hp, hsearch, Or.inl hq⟩
    · rintro ⟨hp, hsearch, hq | ⟨hq, -⟩⟩
      · exact ⟨hpath hp, hsearch, hq, hp⟩
      · exact absurd hq hne
  | some y =>
    have htail : Tail [] (some query) (some y) :=
      tail_nil _ _ fun q hq => Option.some.inj hq ▸ hquery
    have hread := readTail_fragment env r.scheme r.tailText htail
    rw [List.nil_append, marked, List.cons_append] at hread
    rw [marked, List.append_assoc, List.cons_append, hread, Record.tailText]
    simp only [Option.getD_some, append_tailText_eq_hash_iff]
    constructor
    · rintro ⟨-, hq, hy, hp, hsearch, hhash⟩
      rw [hsearch] at hq
      exact ⟨hp, hsearch, Or.inr ⟨by rw [hq, hy]; rfl, hhash⟩⟩
    · rintro ⟨hp, hsearch, hq | ⟨hq, hhash⟩⟩
      · simp at hq
      · have hsplit := List.append_eq_singleton_iff.mp hq
        simp only [List.cons.injEq, true_and, reduceCtorEq, and_false, or_false] at hsplit
        exact ⟨hpath hp, by rw [hsplit.1, hsearch], hsplit.2, hp, hsearch, hhash⟩

theorem SettledRecord.readsTail_numberSign_iff (h : SettledRecord env r) (b : Text) :
    ReadsTail env r (numberSign :: (b ++ r.tailText)) ↔ r.tailText = [] ∧ b = [] := by
  have htail : Tail [] none (some b) := tail_nil _ _ (by simp)
  have hread := readTail_fragment env r.scheme r.tailText htail
  rw [List.nil_append, marked, List.nil_append] at hread
  rw [ReadsTail, hread, Record.tailText, tailText_eq_nil_iff]
  simp only [Option.getD_none, Option.getD_some, append_tailText_eq_hash_iff]
  constructor
  · rintro ⟨-, -, hb, hp, hsearch, hhash⟩
    exact ⟨⟨hp, hsearch, hhash⟩, hb⟩
  · rintro ⟨⟨hp, hsearch, hhash⟩, hb⟩
    have hstored := h.path
    rw [hp] at hstored ⊢
    exact ⟨hstored, hsearch.symm, hb, rfl, hsearch, hhash⟩

theorem SettledRecord.readsTail_slash_iff (h : SettledRecord env r) (b : Text) :
    ReadsTail env r (slash :: (b ++ r.tailText)) ↔
      questionMark ∉ b ∧ numberSign ∉ b ∧
        encodePath env (slash :: (b ++ r.pathname)) = r.pathname := by
  have hclean := not_mem_of_must h.path_kept
  obtain ⟨path, query, fragment, htail, rfl⟩ := exists_tail b
  have htail' : Tail (slash :: path) query fragment := by
    refine ⟨?_, ?_, htail.query_fragment⟩
    · simpa [slash, questionMark] using htail.path_query
    · simpa [slash, numberSign] using htail.path_fragment
  -- a query or a fragment of its own takes the old path along
  have hsome : r.pathname = [] → storedPath env r.scheme (slash :: path) ≠ r.pathname := by
    intro hnil
    rw [hnil]
    exact storedPath_slash_ne_nil _ _
  rw [ReadsTail]
  cases fragment with
  | some y =>
    have hread := readTail_fragment env r.scheme r.tailText htail'
    have htext : slash :: (path ++ (marked questionMark query ++ marked numberSign (some y)) ++
        r.tailText) = slash :: path ++
          (marked questionMark query ++ numberSign :: (y ++ r.tailText)) := by
      simp [marked]
    rw [htext, hread, Record.tailText]
    simp only [Option.getD_some, append_tailText_eq_hash_iff]
    constructor
    · rintro ⟨hstored, -, -, hp, -⟩
      exact absurd hstored (hsome hp)
    · rintro ⟨-, hfragment, -⟩
      simp [marked] at hfragment
  | none =>
    cases query with
    | some q =>
      have hread := h.readTail_query htail'
      have htext : slash :: (path ++ (marked questionMark (some q) ++ marked numberSign none) ++
          r.tailText) = slash :: path ++ (questionMark :: (q ++ r.tailText)) := by
        simp [marked]
      rw [htext, hread]
      simp only [Option.getD_some, append_optionalText_eq_iff, List.append_eq_nil_iff]
      constructor
      · rintro ⟨hstored, ⟨-, -, hp⟩, -⟩
        exact absurd hstored (hsome hp)
      · rintro ⟨hquery, -⟩
        simp [marked] at hquery
    | none =>
      have hpath : questionMark ∉ path ∧ numberSign ∉ path :=
        ⟨htail.path_query, htail.path_fragment⟩
      have hwhole : questionMark ∉ slash :: (path ++ r.pathname) ∧
          numberSign ∉ slash :: (path ++ r.pathname) := by
        simp only [List.mem_cons, List.mem_append, not_or]
        exact ⟨⟨by decide, hpath.1, hclean.1⟩, by decide, hpath.2, hclean.2⟩
      have htext : slash :: (path ++ (marked questionMark none ++ marked numberSign none) ++
          r.tailText) = tailText (slash :: (path ++ r.pathname)) (r.search.getD [])
            (r.hash.getD []) := by
        simp [marked, Record.tailText, tailText]
      rw [htext, readTail_tailText _ hwhole h.numberSign_not_mem, storedPath_of_ne_nil (by simp)]
      simp [marked, nonempty_getD, hpath]

/-- When the old tail is read again behind an authority that ends early. -/
theorem SettledRecord.absorbed_iff (h : SettledRecord env r) {d : Nat}
    (hd : notDelimiter d = false) (b : Text) :
    ReadsTail env r (d :: (b ++ r.tailText)) ↔ Absorbed env r d b := by
  rcases notDelimiter_eq_false_iff.mp hd with rfl | rfl | rfl
  · rw [h.readsTail_slash_iff, Absorbed, if_pos rfl]
  · rw [h.readsTail_questionMark_iff, Absorbed, if_neg (by decide), if_pos rfl]
  · rw [h.readsTail_numberSign_iff, Absorbed, if_neg (by decide), if_neg (by decide)]

end Delimiter

/-! ## Authorities that end early -/

/-- Text that ends in a segment of its own is not absorbed by the tail behind it. -/
theorem SettledRecord.not_absorbed (h : SettledRecord env r)
    (hpath : Rooted r.pathname) {d c : Nat} {b z : Text}
    (hdot : c ≠ dot) (hsign : c ≠ numberSign) (hz : slash ∉ c :: z) :
    ¬ Absorbed env r d (b ++ c :: z) := by
  unfold Absorbed
  split
  · rintro ⟨-, -, hsame⟩
    obtain ⟨a, l, heq, hl, -⟩ := segments_last (p := slash :: b) List.mem_cons_self
    have hlong : Ordinary (l ++ c :: z) ∧ slash ∉ l ++ c :: z := by
      refine ⟨⟨by simp, fun hseg => ?_, fun hseg => ?_⟩, ?_⟩
      · have hmem : c ∈ [dot] := hseg ▸ List.mem_append_right l List.mem_cons_self
        exact hdot (List.mem_singleton.mp hmem)
      · have hmem : c ∈ [dot, dot] := hseg ▸ List.mem_append_right l List.mem_cons_self
        simp [hdot] at hmem
      · rw [List.mem_append, not_or]
        exact ⟨hl, hz⟩
    have hq : r.pathname = [] ∨
        (r.pathname.head? = some slash ∧ encodePath env r.pathname = r.pathname) := by
      rcases hpath with hnil | hslash
      · exact Or.inl hnil
      · have hne : r.pathname ≠ [] := by
          intro hnil
          rw [hnil] at hslash
          cases hslash
        exact Or.inr ⟨hslash, (storedPath_of_ne_nil hne).symm.trans h.path⟩
    have htext : slash :: (b ++ c :: z ++ r.pathname) =
        a ++ slash :: (l ++ c :: z) ++ r.pathname := by
      have hcons := congrArg (· ++ (c :: z ++ r.pathname)) heq
      simpa using hcons
    rw [htext] at hsame
    refine encodePath_append_ne ?_ hlong hq hsame
    have hhead := congrArg List.head? heq
    cases a with
    | nil => rfl
    | cons y a => simpa using hhead.symm
  · split
    · rintro ⟨-, -, hnil | ⟨hone, -⟩⟩
      · simp at hnil
      · have hmem : c ∈ [numberSign] := hone ▸ List.mem_append_right b List.mem_cons_self
        exact hsign (List.mem_singleton.mp hmem)
    · rintro ⟨-, hnil⟩
      simp at hnil

theorem exists_readFull_iff {scheme a t : Text} {p : Record → Prop}
    (ha : ∀ c ∈ a, notDelimiter c = true) (ht : ∀ c ∈ t.head?, notDelimiter c = false) :
    (∃ w, readFull env scheme (a ++ t) = some w ∧ p w) ↔
      ∃ au, readAuthority env scheme a = some au ∧
        p (mkRecord scheme au (readTail env scheme t)) := by
  rw [readFull_append ha ht]
  constructor
  · rintro ⟨w, hread, hw⟩
    obtain ⟨au, hau, rfl⟩ := Option.map_eq_some_iff.mp hread
    exact ⟨au, hau, hw⟩
  · rintro ⟨au, hau, hw⟩
    exact ⟨_, by rw [hau, Option.map_some], hw⟩

/-- The parts of a record behind its authority are those of another. -/
def SameTail (w r : Record) : Prop :=
  w.pathname = r.pathname ∧ w.search.getD [] = r.search.getD [] ∧ w.hash.getD [] = r.hash.getD []

theorem sameTail_mkRecord {au : Authority} {t : Text} :
    SameTail (mkRecord r.scheme au (readTail env r.scheme t)) r ↔ ReadsTail env r t :=
  Iff.rfl

/-- A delimiter before the last text in front of the tail makes the tail another one. -/
theorem SettledRecord.not_sameTail_of_delimiter (h : SettledRecord env r)
    (hpath : Rooted r.pathname) {y z : Text} {c : Nat} {w : Record}
    (hy : ∃ d ∈ y, notDelimiter d = false) (hdot : c ≠ dot) (hsign : c ≠ numberSign)
    (hz : slash ∉ c :: z)
    (hread : readFull env r.scheme (y ++ c :: z ++ r.tailText) = some w) : ¬ SameTail w r := by
  obtain ⟨a, t, rfl, ha, ht⟩ := Split.exists_span notDelimiter y
  cases t with
  | nil =>
    obtain ⟨d, hd, hdelim⟩ := hy
    rw [List.append_nil] at hd
    rw [ha d hd] at hdelim
    cases hdelim
  | cons d b =>
    have hd := ht d rfl
    have htext : a ++ d :: b ++ c :: z ++ r.tailText =
        a ++ d :: (b ++ c :: z ++ r.tailText) := by simp
    rw [htext] at hread
    intro hsame
    have hstop : ∀ x ∈ (d :: (b ++ c :: z ++ r.tailText)).head?, notDelimiter x = false :=
      fun x hx => Option.some.inj hx ▸ hd
    obtain ⟨au, -, hsame⟩ :=
      (exists_readFull_iff (p := fun w => SameTail w r) ha hstop).mp ⟨w, hread, hsame⟩
    rw [sameTail_mkRecord, h.absorbed_iff hd] at hsame
    exact h.not_absorbed hpath hdot hsign hz hsame

/-! ## What an authority setter has to leave -/

/-- A record that differs from a settled one in its authority only. -/
structure SameRest (x r : Record) : Prop where
  scheme : x.scheme = r.scheme
  pathname : x.pathname = r.pathname
  search : x.search = r.search
  hash : x.hash = r.hash

theorem SameRest.tailText_eq (hx : SameRest x r) : x.tailText = r.tailText := by
  rw [Record.tailText, Record.tailText, hx.pathname, hx.search, hx.hash]

/-- A path that is read back goes with what is printed before it. -/
theorem SettledRecord.fits_of_parse {w : Record} (h : SettledRecord env r) (hx : SameRest x r)
    (hparse : parseUrl env (serialize env x) none = some w) (hpath : w.pathname = r.pathname) :
    x.PathFits := by
  have hvalid : ValidScheme env x.scheme := hx.scheme ▸ h.scheme
  cases hshown : x.showsAuthority with
  | true =>
    rw [parse_shown hvalid hshown] at hparse
    obtain ⟨-, -, -, path, habs, hstored⟩ := parsedRecord_of_readFull hparse
    rw [pathFits_shown_iff hshown, hx.pathname, ← hpath, hstored]
    exact storedPath_absolute habs
  | false =>
    obtain ⟨hspecial, -⟩ := showsAuthority_eq_false_iff.mp hshown
    rw [parse_hidden hvalid hshown, hx.tailText_eq, h.ends.of_append.strip, Record.tailText,
      tailText_eq_marked] at hparse
    rw [pathFits_hidden_iff hshown, hx.pathname]
    have hclean := not_mem_of_must h.path_kept
    exact readRest_slashes_path hspecial h.path_kept
      ⟨hclean.1, hclean.2, not_mem_nonempty h.numberSign_not_mem⟩ hparse hpath

/-- Without an authority nothing but the path matters. -/
theorem SettledRecord.parse_hidden_rest (h : SettledRecord env r) (hx : SameRest x r)
    (hhidden : x.showsAuthority = false) (hfits : x.PathFits) :
    ∃ w, parseUrl env (serialize env x) none = some w ∧ ∀ c, w.component c = x.component c := by
  obtain ⟨hspecial, hfile, -⟩ := showsAuthority_eq_false_iff.mp hhidden
  have hclean := not_mem_of_must h.path_kept
  have hslashes := (pathFits_hidden_iff hhidden).mp hfits
  have hstored : storedPath env x.scheme r.pathname = r.pathname := hx.scheme ▸ h.path
  rw [hx.pathname] at hslashes
  refine ⟨mkRecord x.scheme emptyAuthority
    (r.pathname, nonempty (r.search.getD []), nonempty (r.hash.getD [])), ?_, ?_⟩
  · rw [parse_hidden (hx.scheme ▸ h.scheme) hhidden, hx.tailText_eq, h.ends.of_append.strip,
      Record.tailText, tailText_eq_marked, readRest_hidden hspecial hfile
        ⟨hclean.1, hclean.2, not_mem_nonempty h.numberSign_not_mem⟩ hslashes, hstored]
  · have hauthority := authority_of_hidden hhidden
    simp only [Record.authority, emptyAuthority, Authority.mk.injEq] at hauthority
    rw [components_eq_iff, hx.pathname, hx.search, hx.hash]
    simp [mkRecord, emptyAuthority, nonempty_getD, hauthority]

/-- An authority setter is judged by the path and, where an authority is printed, by what is
read from it. -/
theorem SettledRecord.contained_authority_iff (h : SettledRecord env r) {setter : Setter} {v : Text}
    (hx : SameRest (assign env setter v r) r) (hsetter : setter.assigns .pathname = false) :
    Contained env setter v r ↔
      (assign env setter v r).PathFits ∧
        ((assign env setter v r).showsAuthority = true →
          ∃ w, readFull env r.scheme
              (((assign env setter v r).authorityText env ++ r.tailText).rdropWhile isC0) = some w ∧
            setter.Leaves w r) := by
  rw [contained_iff]
  have hvalid : ValidScheme env (assign env setter v r).scheme := hx.scheme ▸ h.scheme
  constructor
  · rintro ⟨w, hparse, hkept⟩
    refine ⟨h.fits_of_parse hx hparse (hkept .pathname hsetter), fun hshown => ⟨w, ?_, hkept⟩⟩
    rw [parse_shown hvalid hshown, hx.tailText_eq, hx.scheme] at hparse
    exact hparse
  · rintro ⟨hfits, hread⟩
    cases hshown : (assign env setter v r).showsAuthority with
    | true =>
      obtain ⟨w, hread, hkept⟩ := hread hshown
      refine ⟨w, ?_, hkept⟩
      rw [parse_shown hvalid hshown, hx.tailText_eq, hx.scheme, hread]
    | false =>
      obtain ⟨w, hparse, hsame⟩ := h.parse_hidden_rest hx hshown hfits
      exact ⟨w, hparse, fun c hc => (hsame c).trans (assign_component setter v r hc)⟩

/-- The rule of an authority setter is what is read from a printed authority, and holds by
itself where none is printed. -/
theorem SettledRecord.contained_rule_iff (h : SettledRecord env r) {setter : Setter} {v : Text}
    {rule : Prop} (hx : SameRest (assign env setter v r) r)
    (hsetter : setter.assigns .pathname = false)
    (hshown : (assign env setter v r).showsAuthority = true →
      Rooted r.pathname →
        ((∃ w, readFull env r.scheme
            (((assign env setter v r).authorityText env ++ r.tailText).rdropWhile isC0) = some w ∧
            setter.Leaves w r) ↔ rule))
    (hhidden : (assign env setter v r).showsAuthority = false → rule) :
    Contained env setter v r ↔ (assign env setter v r).PathFits ∧ rule := by
  rw [h.contained_authority_iff hx hsetter]
  apply and_congr_right
  intro hfits
  cases hshows : (assign env setter v r).showsAuthority with
  | true =>
    have hpath := (pathFits_shown_iff hshows).mp hfits
    rw [hx.pathname] at hpath
    rw [imp_iff_right rfl]
    exact hshown hshows hpath
  | false =>
    have hrule := hhidden hshows
    simp [hrule]

/-! ## Credentials -/

theorem SettledRecord.credentials (h : SettledRecord env r) :
    encodeSet env r.username false = r.username ∧ encodeSet env r.password false = r.password ∧
      readHost env r.scheme (hostText r.host r.port) = some (r.host, r.port) := by
  have hread := h.authority
  rw [Record.authorityText, readAuthority_append _ h.username_colon h.at_not_mem] at hread
  obtain ⟨q, hq, hauthority⟩ := Option.map_eq_some_iff.mp hread
  simp only [Record.authority, Authority.mk.injEq] at hauthority
  obtain ⟨husername, hpassword, hhost, hport⟩ := hauthority
  exact ⟨husername, hpassword, by rw [hq, ← hhost, ← hport]⟩

theorem SettledRecord.slash_not_mem_host (h : SettledRecord env r) :
    slash ∉ hostText r.host r.port := by
  intro hmem
  exact absurd (notDelimiter_hostText r.port h.host _ hmem) (by decide)

/-- New credentials leave the end of the text alone. -/
theorem SettledRecord.ends_credentials (h : SettledRecord env r) {userinfo : Text}
    (huserinfo : Ends userinfo) :
    Ends (userinfo ++ hostText r.host r.port ++ r.tailText) := by
  by_cases htail : r.tailText = []
  · rw [htail, List.append_nil]
    by_cases hhost : hostText r.host r.port = []
    · rw [hhost, List.append_nil]
      exact huserinfo
    · have hends := h.ends
      rw [htail, List.append_nil, Record.authorityText] at hends
      exact hends.of_append.append _ hhost
  · exact h.ends.of_append.append _ htail

theorem exists_delimiter_encodeSet (env : Platform) {v : Text}
    (hv : ¬ ∀ c ∈ v, notDelimiter c = true) :
    ∃ c ∈ encodeSet env v false, notDelimiter c = false := by
  push Not at hv
  obtain ⟨c, hc, hdelim⟩ := hv
  replace hdelim : notDelimiter c = false := by simpa using hdelim
  refine ⟨c, ?_, hdelim⟩
  rcases notDelimiter_eq_false_iff.mp hdelim with rfl | rfl | rfl
  · exact inert_slash.mem_encodeSet.mpr hc
  · exact inert_questionMark.mem_encodeSet.mpr hc
  · exact inert_numberSign.mem_encodeSet.mpr hc

theorem kept_of_username {w : Record} (hscheme : w.scheme = r.scheme) :
    Setter.username.Leaves w r ↔
      w.password = r.password ∧ w.host = r.host ∧ w.port = r.port ∧ SameTail w r := by
  rw [kept_fields_iff _ hscheme]
  simp [Setter.assigns, SameTail]

theorem kept_of_password {w : Record} (hscheme : w.scheme = r.scheme) :
    Setter.password.Leaves w r ↔
      w.username = r.username ∧ w.host = r.host ∧ w.port = r.port ∧ SameTail w r := by
  rw [kept_fields_iff _ hscheme]
  simp [Setter.assigns, SameTail]

theorem readFull_scheme {scheme text : Text} {w : Record}
    (h : readFull env scheme text = some w) : w.scheme = scheme :=
  (parsedRecord_of_readFull h).2.1

/-- The text of credentials that are shown. -/
theorem userinfoText_shown {username password : Text} (h : username ≠ [] ∨ password ≠ []) :
    userinfoText env username password =
      encodeSet env username false ++
        optionalText colon (encodeSet env password false) ++ [atSign] := by
  rw [userinfoText, if_pos h, optionalText, List.append_assoc]
  by_cases hpassword : password = []
  · simp [hpassword]
  · have hne : encodeSet env password false ≠ [] :=
      fun hnil => hpassword (encodeSet_eq_nil_iff.mp hnil)
    simp [hpassword, hne]

/-- Credentials with a delimiter end the authority before the host. -/
theorem SettledRecord.not_sameTail_of_credentials (h : SettledRecord env r)
    (hpath : Rooted r.pathname) {username password : Text}
    {w : Record} (hv : ¬ ((∀ c ∈ username, notDelimiter c = true) ∧
      ∀ c ∈ password, notDelimiter c = true))
    (hread : readFull env r.scheme
      (userinfoText env username password ++ hostText r.host r.port ++ r.tailText) = some w) :
    ¬ SameTail w r := by
  have hdelim : ∃ d ∈ encodeSet env username false ++
      optionalText colon (encodeSet env password false), notDelimiter d = false := by
    rcases not_and_or.mp hv with hv | hv
    · obtain ⟨d, hd, hdelim⟩ := exists_delimiter_encodeSet env hv
      exact ⟨d, List.mem_append_left _ hd, hdelim⟩
    · obtain ⟨d, hd, hdelim⟩ := exists_delimiter_encodeSet env hv
      refine ⟨d, List.mem_append_right _ ?_, hdelim⟩
      rw [optionalText, if_pos (List.ne_nil_of_mem hd)]
      exact List.mem_cons_of_mem _ hd
  have hshown : username ≠ [] ∨ password ≠ [] := by
    by_contra hnone
    simp only [not_or, not_not] at hnone
    simp [hnone] at hv
  rw [userinfoText_shown hshown, List.append_assoc _ [atSign]] at hread
  exact h.not_sameTail_of_delimiter hpath hdelim (c := atSign) (by decide) (by decide)
    (by simpa [slash, atSign] using h.slash_not_mem_host) hread

/-- The rule for `username`: no delimiter, and no colon except for one at its end where there
is no password. -/
def UsernameAllowed (r : Record) (v : Text) : Prop :=
  { r with username := v }.PathFits ∧ (∀ c ∈ v, notDelimiter c = true) ∧
    (colon ∉ v ∨ r.password = [] ∧ ∃ t, v = t ++ [colon] ∧ colon ∉ t)

/-- The rule for `password`: no delimiter. -/
def PasswordAllowed (r : Record) (v : Text) : Prop :=
  { r with password := v }.PathFits ∧ ∀ c ∈ v, notDelimiter c = true

/-- A user name with a colon is read as one with the beginning of a password. -/
theorem splitUserinfo_colon {a b rest : Text} (ha : colon ∉ a) (hrest : atSign ∉ rest) :
    splitUserinfo (a ++ colon :: b ++ atSign :: rest) = (a, b, rest) := by
  rw [splitUserinfo, Split.splitLast_append hrest]
  simp only [Split.splitFirst_append ha]

theorem SettledRecord.kept_username_iff (h : SettledRecord env r) {v : Text}
    (hpath : Rooted r.pathname) :
    (∃ w, readFull env r.scheme
        (userinfoText env v r.password ++ hostText r.host r.port ++ r.tailText) = some w ∧
        Setter.username.Leaves w r) ↔
      (∀ c ∈ v, notDelimiter c = true) ∧
        (colon ∉ v ∨ r.password = [] ∧ ∃ t, v = t ++ [colon] ∧ colon ∉ t) := by
  obtain ⟨-, hpassword, hhost⟩ := h.credentials
  by_cases hv : ∀ c ∈ v, notDelimiter c = true
  · rw [and_iff_right hv]
    rw [exists_readFull_iff (notDelimiter_authority r.port hv h.password h.host)
      (stops_tailText hpath)]
    simp only [kept_of_username (r := r) (w := mkRecord r.scheme _ _) rfl, sameTail_mkRecord,
      h.readsTail, and_true]
    obtain ⟨a, b, rfl, ha⟩ := exists_cut colon v
    cases b with
    | none =>
      rw [marked, List.append_nil, readAuthority_append _ ha h.at_not_mem, hhost, Option.map_some,
        hpassword]
      simp [ha, mkRecord]
    | some b =>
      have hcolon : colon ∉ encodeSet env a false :=
        fun hmem => ha (inert_colon.mem_encodeSet.mp hmem)
      have hread : readAuthority env r.scheme
          (userinfoText env (a ++ colon :: b) r.password ++ hostText r.host r.port) =
            some ⟨encodeSet env a false,
              encodeSet env b false ++ optionalText colon r.password, r.host, r.port⟩ := by
        have htext : userinfoText env (a ++ colon :: b) r.password ++ hostText r.host r.port =
            encodeSet env a false ++ colon ::
              (encodeSet env b false ++ optionalText colon r.password) ++
                atSign :: hostText r.host r.port := by
          rw [userinfoText_shown (by simp), inert_colon.encodeSet_append, hpassword]
          simp
        rw [htext, readAuthority, splitUserinfo_colon hcolon h.at_not_mem]
        simp only [hhost, Option.map_some]
      rw [marked, hread, ends_with_first_iff ha]
      simp [mkRecord, append_optionalText_eq_iff, encodeSet_eq_nil_iff]
  · constructor
    · rintro ⟨w, hread, hkept⟩
      exact absurd ((kept_of_username (readFull_scheme hread)).mp hkept).2.2.2
        (h.not_sameTail_of_credentials hpath (fun hboth => hv hboth.1) hread)
    · rintro ⟨hclean, -⟩
      exact absurd hclean hv

theorem SettledRecord.kept_password_iff (h : SettledRecord env r) {v : Text}
    (hpath : Rooted r.pathname) :
    (∃ w, readFull env r.scheme
        (userinfoText env r.username v ++ hostText r.host r.port ++ r.tailText) = some w ∧
        Setter.password.Leaves w r) ↔
      ∀ c ∈ v, notDelimiter c = true := by
  obtain ⟨husername, -, hhost⟩ := h.credentials
  constructor
  · rintro ⟨w, hread, hkept⟩
    by_contra hv
    exact h.not_sameTail_of_credentials hpath (fun hboth => hv hboth.2) hread
      ((kept_of_password (readFull_scheme hread)).mp hkept).2.2.2
  · intro hv
    rw [exists_readFull_iff (notDelimiter_authority r.port h.username hv h.host)
      (stops_tailText hpath), readAuthority_append _ h.username_colon h.at_not_mem, hhost,
      Option.map_some, husername]
    refine ⟨_, rfl, (kept_of_password (r := r) (w := mkRecord r.scheme _ _) rfl).mpr ?_⟩
    exact ⟨rfl, rfl, rfl, sameTail_mkRecord.mpr h.readsTail⟩

theorem showsAuthority_assign_username (v : Text) :
    { r with username := encodeSet env v false }.showsAuthority =
      { r with username := v }.showsAuthority := by
  simp [Record.showsAuthority, encodeSet_eq_nil_iff]

theorem showsAuthority_assign_password (v : Text) :
    { r with password := encodeSet env v false }.showsAuthority =
      { r with password := v }.showsAuthority := by
  simp [Record.showsAuthority, encodeSet_eq_nil_iff]

theorem contained_username_iff (h : SettledRecord env r) (v : Text) :
    Contained env .username v r ↔ UsernameAllowed r v := by
  have hfits : (assign env .username v r).PathFits ↔ { r with username := v }.PathFits := by
    rw [Record.PathFits, Record.PathFits, assign, showsAuthority_assign_username]
  rw [UsernameAllowed, ← hfits]
  apply h.contained_rule_iff ⟨rfl, rfl, rfl, rfl⟩ rfl
  · intro _ hpath
    have htext : (assign env .username v r).authorityText env =
        userinfoText env v r.password ++ hostText r.host r.port := by
      rw [Record.authorityText, assign, userinfoText_encode_username]
    rw [htext, (h.ends_credentials (ends_userinfoText v r.password)).strip]
    exact h.kept_username_iff hpath
  · intro hhidden
    obtain ⟨-, -, -, husername, -⟩ := showsAuthority_eq_false_iff.mp hhidden
    have hv : v = [] := encodeSet_eq_nil_iff.mp husername
    simp [hv]

theorem contained_password_iff (h : SettledRecord env r) (v : Text) :
    Contained env .password v r ↔ PasswordAllowed r v := by
  have hfits : (assign env .password v r).PathFits ↔ { r with password := v }.PathFits := by
    rw [Record.PathFits, Record.PathFits, assign, showsAuthority_assign_password]
  rw [PasswordAllowed, ← hfits]
  apply h.contained_rule_iff ⟨rfl, rfl, rfl, rfl⟩ rfl
  · intro _ hpath
    have htext : (assign env .password v r).authorityText env =
        userinfoText env r.username v ++ hostText r.host r.port := by
      rw [Record.authorityText, assign, userinfoText_encode_password]
    rw [htext, (h.ends_credentials (ends_userinfoText r.username v)).strip]
    exact h.kept_password_iff hpath
  · intro hhidden
    obtain ⟨-, -, -, -, hpassword, -⟩ := showsAuthority_eq_false_iff.mp hhidden
    have hv : v = [] := encodeSet_eq_nil_iff.mp hpassword
    simp [hv]

end Url
