import QuickjsRuntime.Url.Stable

/-!
# Setters of the tail

When assigning `search` or `hash` is contained. The authority and the path are printed as
before, so the question is where the new text ends up among query and fragment, and whether
the end of the `href` is still stripped by nobody.
-/

namespace Url

open Utf16 (Text units)
open Split (splitFirst splitLast)

variable {env : Platform} {r x : Record}

/-! ## Parsing with another tail -/

theorem authorityText_congr (h : x.authority = r.authority) :
    x.authorityText env = r.authorityText env := by
  simp only [Record.authority, Authority.mk.injEq] at h
  simp only [Record.authorityText, h]

theorem showsAuthority_congr (hscheme : x.scheme = r.scheme) (h : x.authority = r.authority) :
    x.showsAuthority = r.showsAuthority := by
  simp only [Record.authority, Authority.mk.injEq] at h
  simp only [Record.showsAuthority, hscheme, h]

theorem tailText_eq_marked (path search hash : Text) :
    tailText path search hash =
      path ++ (marked questionMark (nonempty search) ++ marked numberSign (nonempty hash)) := by
  rw [tailText, optionalText_eq, optionalText_eq]

theorem authority_of_hidden (h : r.showsAuthority = false) : r.authority = emptyAuthority := by
  obtain ⟨-, -, hhost, husername, hpassword, hport⟩ := showsAuthority_eq_false_iff.mp h
  rw [Record.authority, hhost, husername, hpassword, hport]
  rfl

theorem stops_tailText (hpath : Rooted x.pathname) :
    ∀ c ∈ x.tailText.head?, notDelimiter c = false := by
  rw [Record.tailText, tailText_eq_marked]
  exact stops_tail hpath _ _

theorem take_two_tailText (hpath : x.pathname.take 2 ≠ [slash, slash]) :
    x.tailText.take 2 ≠ [slash, slash] := by
  rw [Record.tailText, tailText_eq_marked]
  exact take_two_tail hpath _ _

/-- A fitting tail behind the authority of a settled record is read as a tail. -/
theorem SettledRecord.parse_tail (h : SettledRecord env r) (hscheme : x.scheme = r.scheme)
    (hauthority : x.authority = r.authority) (hfits : x.PathFits)
    (hends : Ends (r.authorityText env ++ x.tailText)) :
    parseUrl env (serialize env x) none =
      some (mkRecord r.scheme r.authority (readTail env r.scheme x.tailText)) := by
  have hvalid : ValidScheme env x.scheme := hscheme ▸ h.scheme
  cases hshown : x.showsAuthority with
  | true =>
    rw [pathFits_shown_iff hshown] at hfits
    rw [parse_shown hvalid hshown, authorityText_congr hauthority, hends.strip, hscheme,
      readFull_append h.authorityText_delimiter (stops_tailText hfits), h.authority]
    rfl
  | false =>
    rw [pathFits_hidden_iff hshown] at hfits
    obtain ⟨hspecial, hfile, -⟩ := showsAuthority_eq_false_iff.mp hshown
    have hempty : r.authority = emptyAuthority := hauthority ▸ authority_of_hidden hshown
    rw [hscheme] at hspecial hfile
    rw [parse_hidden hvalid hshown, hends.of_append.strip, hscheme,
      readRest_bare hspecial hfile (take_two_tailText hfits), hempty]

/-- Without a tail the end of the authority matters. -/
theorem SettledRecord.ends_of_bare {w : Record} (h : SettledRecord env r)
    (hscheme : x.scheme = r.scheme) (hauthority : x.authority = r.authority)
    (hbare : x.tailText = []) (hparse : parseUrl env (serialize env x) none = some w)
    (hhost : w.host = r.host) : Ends (r.authorityText env) := by
  cases hshown : x.showsAuthority with
  | true =>
    rw [parse_shown (hscheme ▸ h.scheme) hshown, authorityText_congr hauthority, hbare,
      List.append_nil, hscheme] at hparse
    exact ends_authorityText h.toParsedRecord hparse hhost
  | false =>
    have hnil : r.authorityText env = [] :=
      (authorityText_congr hauthority).symm.trans (authorityText_of_hidden hshown)
    rw [hnil]
    exact ends_nil

/-- A text that is read back with its query and its fragment has not been stripped. -/
theorem SettledRecord.ends_of_parse {w : Record} (h : SettledRecord env r)
    (hscheme : x.scheme = r.scheme) (hauthority : x.authority = r.authority) (hfits : x.PathFits)
    (hkept : ∀ c ∈ x.pathname, must true c = false) (hclean : numberSign ∉ x.search.getD [])
    (hparse : parseUrl env (serialize env x) none = some w) (hhost : w.host = r.host)
    (hsearch : x.hash.getD [] = [] → w.search.getD [] = x.search.getD [])
    (hhash : x.hash.getD [] ≠ [] → w.hash.getD [] = x.hash.getD []) :
    Ends (r.authorityText env ++ x.tailText) := by
  obtain ⟨query, fragment, hstrip, htail, hends⟩ := strip_tailText (x.hash.getD []) hkept hclean
    fun hnil => h.ends_of_bare hscheme hauthority hnil hparse hhost
  suffices hread : w.search = query ∧ w.hash = fragment by
    rw [← hread.1, ← hread.2] at hends
    exact hends hsearch hhash
  have hvalid : ValidScheme env x.scheme := hscheme ▸ h.scheme
  cases hshown : x.showsAuthority with
  | true =>
    rw [pathFits_shown_iff hshown] at hfits
    rw [parse_shown hvalid hshown, authorityText_congr hauthority, Record.tailText, hstrip,
      readFull_append h.authorityText_delimiter (stops_tail hfits query fragment),
      readTail_append _ htail] at hparse
    obtain ⟨a, -, rfl⟩ := Option.map_eq_some_iff.mp hparse
    exact ⟨rfl, rfl⟩
  | false =>
    rw [pathFits_hidden_iff hshown] at hfits
    obtain ⟨hspecial, hfile, -⟩ := showsAuthority_eq_false_iff.mp hshown
    have hnil : r.authorityText env = [] :=
      (authorityText_congr hauthority).symm.trans (authorityText_of_hidden hshown)
    rw [hnil, List.nil_append, List.nil_append] at hstrip
    rw [parse_hidden hvalid hshown, Record.tailText, hstrip,
      readRest_hidden hspecial hfile htail hfits] at hparse
    cases hparse
    exact ⟨rfl, rfl⟩

theorem SettledRecord.ends_hash (h : SettledRecord env r) : Ends (r.hash.getD []) := by
  by_cases hhash : r.hash.getD [] = []
  · rw [hhash]
    exact ends_nil
  · have hends := h.ends
    rw [Record.tailText, tailText, optionalText, optionalText, if_pos hhash] at hends
    have htail := (Ends.of_append (Ends.of_append (Ends.of_append hends)))
    exact Ends.of_append (s := [numberSign]) htail

theorem SettledRecord.ends_search (h : SettledRecord env r) (hhash : r.hash.getD [] = []) :
    Ends (r.search.getD []) := by
  by_cases hsearch : r.search.getD [] = []
  · rw [hsearch]
    exact ends_nil
  · have hends := h.ends
    rw [Record.tailText, tailText, hhash, optionalText, optionalText, if_pos hsearch] at hends
    have htail := Ends.of_append (Ends.of_append hends)
    rw [if_neg (by simp), List.append_nil] at htail
    exact Ends.of_append (s := [questionMark]) htail

/-- Where the end of a tail comes from. -/
theorem ends_tailText {path search hash : Text} (y : Text) (hhash : Ends hash)
    (hsearch : hash = [] → Ends search) (hpath : ∀ c ∈ path, must true c = false)
    (hne : tailText path search hash ≠ []) : Ends (y ++ tailText path search hash) := by
  by_cases hhashNil : hash = []
  · by_cases hsearchNil : search = []
    · subst hhashNil hsearchNil
      rw [tailText_nil] at hne ⊢
      exact (ends_of_kept hpath).append y hne
    · have htext : y ++ tailText path search hash = (y ++ path) ++ questionMark :: search := by
        simp [tailText, optionalText, hhashNil, hsearchNil]
      rw [htext]
      exact (hsearch hhashNil).append_cons _ (by decide)
  · have htext : y ++ tailText path search hash =
        (y ++ (path ++ optionalText questionMark search)) ++ numberSign :: hash := by
      simp [tailText, optionalText, hhashNil]
    rw [htext]
    exact hhash.append_cons _ (by decide)

/-! ## `search` and `hash` -/

theorem assignedPart_getD (c : Nat) (v : Text) :
    (assignedPart env c v).getD [] = encodeSet env (dropMark c v) false := by
  unfold assignedPart
  by_cases hv : v = []
  · simp [hv, dropMark]
  · rw [if_neg hv, Option.getD_some]

theorem SettledRecord.fits_congr (h : SettledRecord env r) (hscheme : x.scheme = r.scheme)
    (hauthority : x.authority = r.authority) (hpath : x.pathname = r.pathname) : x.PathFits := by
  have hfits := h.fits
  rw [Record.PathFits] at hfits ⊢
  rw [showsAuthority_congr hscheme hauthority, hpath]
  exact hfits

/-- The rule for `hash`: clearing it must not bare an end that is stripped. -/
def HashAllowed (env : Platform) (r : Record) (v : Text) : Prop :=
  dropMark numberSign v = [] →
    Ends (r.authorityText env ++ tailText r.pathname (r.search.getD []) [])

theorem kept_of_hash (t : Text × Option Text × Option Text) :
    Setter.hash.Leaves (mkRecord r.scheme r.authority t) r ↔
      t.1 = r.pathname ∧ t.2.1.getD [] = r.search.getD [] := by
  rw [kept_fields_iff (w := mkRecord r.scheme _ t) (r := r) _ rfl]
  simp [Setter.assigns, mkRecord, Record.authority]

theorem contained_hash_iff (h : SettledRecord env r) (v : Text) :
    Contained env .hash v r ↔ HashAllowed env r v := by
  rw [contained_iff, HashAllowed]
  have hhash : (assign env .hash v r).hash.getD [] =
      encodeSet env (dropMark numberSign v) false := assignedPart_getD numberSign v
  have htext : (assign env .hash v r).tailText = tailText r.pathname (r.search.getD [])
      (encodeSet env (dropMark numberSign v) false) := by
    rw [← hhash]
    rfl
  have hfits : (assign env .hash v r).PathFits := h.fits_congr rfl rfl rfl
  constructor
  · rintro ⟨w, hparse, hkept⟩ hempty
    rw [hempty, encodeSet_nil] at hhash htext
    have hhost : w.host = r.host := hkept .hostname rfl
    have hsearch : w.search.getD [] = r.search.getD [] :=
      optionalText_inj.mp (hkept .search rfl)
    rw [← htext]
    exact h.ends_of_parse rfl rfl hfits h.path_kept h.numberSign_not_mem hparse hhost
      (fun _ => hsearch) fun hne => absurd hhash hne
  · intro hallowed
    have hends : Ends (r.authorityText env ++ (assign env .hash v r).tailText) := by
      rw [htext]
      by_cases hempty : dropMark numberSign v = []
      · rw [hempty, encodeSet_nil]
        exact hallowed hempty
      · have hne : encodeSet env (dropMark numberSign v) false ≠ [] :=
          fun hnil => hempty (encodeSet_eq_nil_iff.mp hnil)
        apply ends_tailText _ (ends_encodeSet _) (fun hnil => absurd hnil hne) h.path_kept
        simp [tailText, optionalText, hne]
    refine ⟨_, h.parse_tail rfl rfl hfits hends, ?_⟩
    rw [kept_of_hash, htext, readTail_tailText _ (not_mem_of_must h.path_kept) h.numberSign_not_mem]
    exact ⟨h.path, nonempty_getD _⟩

/-- The rule for `search`: the value may bring no fragment along, except for the sign alone
where there is no fragment; and clearing it must not bare an end that is stripped. -/
def SearchAllowed (env : Platform) (r : Record) (v : Text) : Prop :=
  let text := dropMark questionMark v
  (numberSign ∉ text ∨
      r.hash.getD [] = [] ∧ ∃ query, text = query ++ [numberSign] ∧ numberSign ∉ query) ∧
    (text = [] → Ends (r.authorityText env ++ tailText r.pathname [] (r.hash.getD [])))

theorem kept_of_search (t : Text × Option Text × Option Text) :
    Setter.search.Leaves (mkRecord r.scheme r.authority t) r ↔
      t.1 = r.pathname ∧ t.2.2.getD [] = r.hash.getD [] := by
  rw [kept_fields_iff (w := mkRecord r.scheme _ t) (r := r) _ rfl]
  simp [Setter.assigns, mkRecord, Record.authority]

theorem append_optionalText_eq_iff {c : Nat} {s t : Text} :
    s ++ optionalText c t = t ↔ t = [] ∧ s = [] := by
  unfold optionalText
  by_cases ht : t = []
  · simp [ht]
  · simp only [if_pos ht, ht, false_and, iff_false]
    intro heq
    have hlen := congrArg List.length heq
    simp only [List.length_append, List.length_cons] at hlen
    omega

/-- A text that ends with its first `c` has nothing behind it. -/
theorem ends_with_first_iff {c : Nat} {a b : Text} (ha : c ∉ a) :
    (∃ t, a ++ c :: b = t ++ [c] ∧ c ∉ t) ↔ b = [] := by
  constructor
  · rintro ⟨t, heq, ht⟩
    have hsplit := Split.splitFirst_append ha (b := b)
    rw [heq, Split.splitFirst_append ht] at hsplit
    exact (congrArg Prod.snd (Option.some.inj hsplit)).symm
  · rintro rfl
    exact ⟨a, rfl, ha⟩

theorem tailText_assign_search (v : Text) :
    (assign env .search v r).tailText = tailText r.pathname
      (encodeSet env (dropMark questionMark v) false) (r.hash.getD []) := by
  rw [← assignedPart_getD]
  rfl

/-- Only a value of `search` that is empty can leave an end to be stripped. -/
theorem SettledRecord.ends_search_assigned (h : SettledRecord env r) {v : Text}
    (hallowed : dropMark questionMark v = [] →
      Ends (r.authorityText env ++ tailText r.pathname [] (r.hash.getD []))) :
    Ends (r.authorityText env ++ (assign env .search v r).tailText) := by
  rw [tailText_assign_search]
  by_cases hempty : dropMark questionMark v = []
  · rw [hempty, encodeSet_nil]
    exact hallowed hempty
  · have hne : encodeSet env (dropMark questionMark v) false ≠ [] :=
      fun hnil => hempty (encodeSet_eq_nil_iff.mp hnil)
    apply ends_tailText _ h.ends_hash (fun _ => ends_encodeSet _) h.path_kept
    simp [tailText, optionalText, hne]

/-- What is read after an assignment to `search`. -/
theorem SettledRecord.parse_search (h : SettledRecord env r) {v : Text}
    (hends : Ends (r.authorityText env ++ (assign env .search v r).tailText)) :
    Contained env .search v r ↔
      numberSign ∉ dropMark questionMark v ∨ r.hash.getD [] = [] ∧
        ∃ query, dropMark questionMark v = query ++ [numberSign] ∧ numberSign ∉ query := by
  have hfits : (assign env .search v r).PathFits := h.fits_congr rfl rfl rfl
  have hclean := not_mem_of_must h.path_kept
  rw [contained_iff, h.parse_tail (x := assign env .search v r) rfl rfl hfits hends]
  simp only [Option.some.injEq, exists_eq_left']
  rw [kept_of_search, tailText_assign_search]
  obtain ⟨query, fragment, htext, hquery⟩ := exists_cut numberSign (dropMark questionMark v)
  have hencoded : numberSign ∉ encodeSet env query false :=
    fun hmem => hquery (inert_numberSign.mem_encodeSet.mp hmem)
  cases fragment with
  | none =>
    rw [marked, List.append_nil] at htext
    rw [htext, readTail_tailText _ hclean hencoded]
    simp [h.path, nonempty_getD, hquery]
  | some fragment =>
    have htail : Tail r.pathname (some (encodeSet env query false))
        (some (encodeSet env fragment false ++ optionalText numberSign (r.hash.getD []))) :=
      ⟨hclean.1, hclean.2, fun q hq => Option.some.inj hq ▸ hencoded⟩
    have hprinted : tailText r.pathname (encodeSet env (dropMark questionMark v) false)
        (r.hash.getD []) = r.pathname ++
          (marked questionMark (some (encodeSet env query false)) ++ marked numberSign (some
            (encodeSet env fragment false ++ optionalText numberSign (r.hash.getD [])))) := by
      rw [htext, marked, inert_numberSign.encodeSet_append]
      simp [tailText, optionalText, marked]
    rw [hprinted, readTail_append _ htail, htext, marked, ends_with_first_iff hquery]
    simp [h.path, append_optionalText_eq_iff, encodeSet_eq_nil_iff]

theorem contained_search_iff (h : SettledRecord env r) (v : Text) :
    Contained env .search v r ↔ SearchAllowed env r v := by
  rw [SearchAllowed]
  constructor
  · intro hcontained
    have hends : dropMark questionMark v = [] →
        Ends (r.authorityText env ++ tailText r.pathname [] (r.hash.getD [])) := by
      intro hempty
      obtain ⟨w, hparse, hkept⟩ := contained_iff.mp hcontained
      have hhost : w.host = r.host := hkept .hostname rfl
      have htext : (assign env .search v r).tailText = _ := tailText_assign_search v
      rw [hempty, encodeSet_nil] at htext
      by_cases hbare : tailText r.pathname [] (r.hash.getD []) = []
      · rw [hbare, List.append_nil]
        exact h.ends_of_bare (x := assign env .search v r) rfl rfl (htext.trans hbare) hparse hhost
      · exact ends_tailText _ h.ends_hash (fun _ => ends_nil) h.path_kept hbare
    exact ⟨(h.parse_search (h.ends_search_assigned hends)).mp hcontained, hends⟩
  · rintro ⟨htext, hends⟩
    exact (h.parse_search (h.ends_search_assigned hends)).mpr htext

end Url
