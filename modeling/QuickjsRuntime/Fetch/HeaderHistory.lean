import QuickjsRuntime.Fetch.Headers

/-!
# Histories of headers

A history is a tree of constructor calls and operations, since the input of a constructor may be
another `Headers` with a history of its own. A `Headers` is the multimap of its history as long
as neither `constructor` nor `__proto__` is written to it or asked for, in any case of letters.
-/

namespace Fetch

open Utf16 (Text units)
open PlainObject (arrayIndex)

namespace Headers

/-! ## Model -/

/-- How a `Headers` came about. -/
inductive History where
  | empty
  | record (init : PlainObject Text Text)
  | pairs (init : List (Text × Text))
  | copy (source : History)
  | set (before : History) (name value : Text)
  | append (before : History) (name value : Text)
  | delete (before : History) (name : Text)

/-- The `__map` after a history, if nothing was thrown. -/
def History.evaluate (fold : CaseFolding) : History → Except JsError HeaderMap
  | .empty => .ok .fresh
  | .record init => construct fold (init.ordered arrayIndex)
  | .pairs init => construct fold init
  | .copy source => do construct fold (← forEach (← source.evaluate fold))
  | .set before name value => do return Headers.set fold (← before.evaluate fold) name value
  | .append before name value => do Headers.append fold (← before.evaluate fold) name value
  | .delete before name => do return Headers.delete fold (← before.evaluate fold) name

/-! ## What a history stands for -/

/-- The multimap a history stands for, under lower-cased names. -/
def History.contents (fold : CaseFolding) : History → List (Text × Text)
  | .empty => []
  | .record init => (init.ordered arrayIndex).map fun p => (fold.lower p.1, p.2)
  | .pairs init => init.map fun p => (fold.lower p.1, p.2)
  | .copy source => source.contents fold
  | .set before name value => Multimap.set (before.contents fold) (fold.lower name) value
  | .append before name value => Multimap.append (before.contents fold) (fold.lower name) value
  | .delete before name => Multimap.delete (before.contents fold) (fold.lower name)

/-- The histories of the objects a history goes through. -/
def History.stages : History → List History
  | .empty => [.empty]
  | .record init => [.record init]
  | .pairs init => [.pairs init]
  | .copy source => .copy source :: source.stages
  | .set before name value => .set before name value :: before.stages
  | .append before name value => .append before name value :: before.stages
  | .delete before name => .delete before name :: before.stages

/-- The names under which values are written. -/
def History.names : History → List Text
  | .empty => []
  | .record init => (init.ordered arrayIndex).map Prod.fst
  | .pairs init => init.map Prod.fst
  | .copy source => source.names
  | .set before name _ => name :: before.names
  | .append before name _ => name :: before.names
  | .delete before _ => before.names

/-- The object of a history, asked for the name `n`, answers as the multimap does, lists what the
multimap stores and is copied faithfully. -/
structure Agrees (fold : CaseFolding) (history : History) (n : Text) (m : HeaderMap) : Prop where
  evaluated : history.evaluate fold = .ok m
  has : Headers.has fold m n = Multimap.has (history.contents fold) (fold.lower n)
  get : Headers.get fold m n = .ok (joined (history.contents fold) (fold.lower n))
  forEach : ∃ listing, Headers.forEach m = .ok listing ∧ Lists (history.contents fold) listing
  entries : (Headers.entries m).collect m = Headers.forEach m
  copy : ∃ c, (History.copy history).evaluate fold = .ok c ∧
    Headers.has fold c n = Headers.has fold m n ∧ Headers.get fold c n = Headers.get fold m n

/-- Throughout a history the object is the multimap. -/
def Faithful (fold : CaseFolding) (history : History) (n : Text) : Prop :=
  ∀ stage ∈ history.stages, ∃ m, Agrees fold stage n m

/-! ## Plain names -/

variable {fold : CaseFolding} {m m' : HeaderMap} {key n : Text} {contents : List (Text × Text)}

namespace History

variable {history : History}

/-- A stored name was written. -/
theorem exists_name_of_mem_contents (h : key ∈ (history.contents fold).map Prod.fst) :
    ∃ name ∈ history.names, key = fold.lower name := by
  induction history with
  | empty => cases h
  | record init | pairs init =>
    rw [contents, List.map_map] at h
    obtain ⟨p, hp, rfl⟩ := List.mem_map.mp h
    exact ⟨p.1, List.mem_map_of_mem hp, rfl⟩
  | copy source ih => exact ih h
  | set before name value ih =>
    rw [contents, Multimap.mem_names_iff, Multimap.getAll_set] at h
    by_cases hkey : key = fold.lower name
    · exact ⟨name, List.mem_cons_self, hkey⟩
    · rw [if_neg hkey, ← Multimap.mem_names_iff] at h
      obtain ⟨name', hname', hkey'⟩ := ih h
      exact ⟨name', List.mem_cons_of_mem name hname', hkey'⟩
  | append before name value ih =>
    rw [contents, Multimap.mem_names_iff, Multimap.getAll_append] at h
    by_cases hkey : key = fold.lower name
    · exact ⟨name, List.mem_cons_self, hkey⟩
    · rw [if_neg hkey, List.append_nil, ← Multimap.mem_names_iff] at h
      obtain ⟨name', hname', hkey'⟩ := ih h
      exact ⟨name', List.mem_cons_of_mem name hname', hkey'⟩
  | delete before name ih =>
    rw [contents, Multimap.mem_names_iff, Multimap.getAll_delete] at h
    split at h
    · exact absurd rfl h
    · exact ih (Multimap.mem_names_iff.mpr h)

/-- Under plain names, what is stored is lower-cased and plain. -/
theorem lower_of_mem_contents (history : History)
    (hplain : ∀ name ∈ history.names, Plain fold name)
    (h : key ∈ (history.contents fold).map Prod.fst) : fold.lower key = key ∧ Plain fold key := by
  obtain ⟨name, hname, rfl⟩ := exists_name_of_mem_contents h
  exact ⟨fold.lower_lower name, plain_lower_iff.mpr (hplain name hname)⟩

theorem represents (history : History) (hplain : ∀ name ∈ history.names, Plain fold name) :
    ∃ m, history.evaluate fold = .ok m ∧ Represents m (history.contents fold) := by
  induction history with
  | empty => exact ⟨.fresh, rfl, .fresh⟩
  | record init | pairs init =>
    exact represents_construct fun p hp => hplain p.1 (List.mem_map_of_mem hp)
  | copy source ih =>
    obtain ⟨m, hm, hrep⟩ := ih hplain
    obtain ⟨c, hc, hcopy⟩ := hrep.copy fun _ hkey => source.lower_of_mem_contents hplain hkey
    refine ⟨c, ?_, hcopy⟩
    rw [evaluate, hm]
    simp only [bind, Except.bind, forEach_eq, hc]
  | set before name value ih =>
    obtain ⟨m, hm, hrep⟩ := ih fun name' hname' => hplain name' (List.mem_cons_of_mem name hname')
    refine ⟨Headers.set fold m name value, ?_, hrep.set (hplain name List.mem_cons_self) value⟩
    rw [evaluate, hm]
    rfl
  | append before name value ih =>
    obtain ⟨m, hm, hrep⟩ := ih fun name' hname' => hplain name' (List.mem_cons_of_mem name hname')
    obtain ⟨m', hm', hpushed⟩ :=
      append_pushed hrep.proto (hplain name List.mem_cons_self) value
    refine ⟨m', ?_, hrep.pushed hpushed⟩
    rw [evaluate, hm]
    exact hm'
  | delete before name ih =>
    obtain ⟨m, hm, hrep⟩ := ih hplain
    refine ⟨Headers.delete fold m name, ?_, hrep.delete name⟩
    rw [evaluate, hm]
    rfl

theorem self_mem_stages (history : History) : history ∈ history.stages := by
  cases history <;> exact List.mem_cons_self

theorem names_of_mem_stages {stage : History} (h : stage ∈ history.stages) :
    ∀ name ∈ stage.names, name ∈ history.names := by
  induction history with
  | empty | record init | pairs init =>
    obtain rfl := List.mem_singleton.mp h
    exact fun _ hname => hname
  | copy source ih | delete source name ih =>
    rcases List.mem_cons.mp h with rfl | h
    · exact fun _ hname => hname
    · exact ih h
  | set before name value ih | append before name value ih =>
    rcases List.mem_cons.mp h with rfl | h
    · exact fun _ hname => hname
    · exact fun name' hname' => List.mem_cons_of_mem name (ih h name' hname')

end History

theorem agrees_of_plain {history : History} (hnames : ∀ name ∈ history.names, Plain fold name)
    (hn : Plain fold n) : ∃ m, Agrees fold history n m := by
  obtain ⟨m, hm, hrep⟩ := history.represents hnames
  obtain ⟨c, hc, hcopy⟩ := (History.copy history).represents hnames
  refine ⟨m, hm, hrep.has_eq hn, hrep.get_eq hn, ⟨_, forEach_eq m, hrep.lists⟩,
    collect_entries m, c, hc, ?_, ?_⟩
  · rw [hcopy.has_eq hn, hrep.has_eq hn]
    rfl
  · rw [hcopy.get_eq hn, hrep.get_eq hn]
    rfl

/-! ## Inherited names -/

/-- After plain names, an inherited name is not an own property. -/
theorem Represents.own_inherited {history : History}
    (hplain : ∀ name ∈ history.names, Plain fold name)
    (h : Represents m (history.contents fold)) {name : Text} (hname : ¬Plain fold name) :
    m.own.get (fold.lower name) = none := by
  rw [h.own_eq_none_iff]
  intro hmem
  exact hname (plain_lower_iff.mp (history.lower_of_mem_contents hplain hmem).2)

/-- A `set` of an inherited name replaces the prototype, or makes a property that a copy does not
take. -/
theorem not_agrees_set {before : History} (hplain : ∀ name ∈ before.names, Plain fold name)
    {name value : Text} (hname : ¬Plain fold name) :
    ¬Agrees fold (.set before name value) n m' := by
  obtain ⟨m, hm, hrep⟩ := before.represents hplain
  have hown := hrep.own_inherited hplain hname
  intro hagrees
  have hm' : m' = Headers.set fold m name value := by
    have hevaluated := hagrees.evaluated
    rw [History.evaluate, hm] at hevaluated
    cases hevaluated
    rfl
  by_cases hproto : fold.lower name = units "__proto__"
  · -- the name is stored, and is not listed
    have hkeys : m'.own = m.own := by
      rw [hm', Headers.set, HeaderMap.assign, if_pos hproto]
    obtain ⟨listed, hlisted, hlists⟩ := hagrees.forEach
    rw [forEach_eq] at hlisted
    cases hlisted
    have hstored : fold.lower name ∈
        ((History.set before name value).contents fold).map Prod.fst := by
      rw [History.contents, Multimap.mem_names_iff, Multimap.getAll_set, if_pos rfl]
      exact List.cons_ne_nil _ _
    rw [← hlists.names, mem_keys_listing, hkeys] at hstored
    exact hstored hown
  · -- the name is listed, and the copy throws at it
    have hget : m'.own.get (fold.lower name) = some [value] := by
      rw [hm', Headers.set, HeaderMap.assign, if_neg hproto, PlainObject.get_put, if_pos rfl]
    obtain ⟨c, hc, -, -⟩ := hagrees.copy
    have hlisted : (fold.lower name, joinValues [value]) ∈ listing m' :=
      mem_listing.mpr ⟨[value], hget, rfl⟩
    have hthrows := construct_inherited hlisted (plain_lower_iff.not.mpr hname)
    rw [History.evaluate, hagrees.evaluated] at hc
    simp only [bind, Except.bind, forEach_eq, hthrows] at hc
    cases hc

theorem names_plain_of_faithful {history : History} (h : Faithful fold history n) :
    ∀ name ∈ history.names, Plain fold name := by
  induction history with
  | empty => exact fun _ => nofun
  | record init | pairs init =>
    intro name hname
    obtain ⟨m, hagrees⟩ := h _ (History.self_mem_stages _)
    obtain ⟨p, hp, rfl⟩ := List.mem_map.mp hname
    by_contra hnot
    exact nomatch hagrees.evaluated.symm.trans (construct_inherited hp hnot)
  | copy before ih | delete before name ih =>
    exact ih fun stage hstage => h stage (List.mem_cons_of_mem _ hstage)
  | set before name value ih =>
    have hbefore := ih fun stage hstage => h stage (List.mem_cons_of_mem _ hstage)
    obtain ⟨m, hagrees⟩ := h _ (History.self_mem_stages _)
    have hname : Plain fold name := by
      by_contra hnot
      exact not_agrees_set hbefore hnot hagrees
    exact List.forall_mem_cons.mpr ⟨hname, hbefore⟩
  | append before name value ih =>
    have hbefore := ih fun stage hstage => h stage (List.mem_cons_of_mem _ hstage)
    obtain ⟨m', hagrees⟩ := h _ (History.self_mem_stages _)
    obtain ⟨m, hm, hrep⟩ := before.represents hbefore
    have hname : Plain fold name := by
      by_contra hnot
      have hthrows := append_inherited hrep.proto value
        (hrep.own_inherited hbefore hnot) hnot
      have hevaluated := hagrees.evaluated
      rw [History.evaluate, hm] at hevaluated
      exact nomatch hevaluated.symm.trans hthrows
    exact List.forall_mem_cons.mpr ⟨hname, hbefore⟩

/-- Throughout a history, and asked for `n`, a `Headers` is the multimap it stands for exactly if
neither a name that is written nor `n` is `constructor` or `__proto__` when lower-cased. -/
theorem faithful_iff (fold : CaseFolding) (history : History) (n : Text) :
    Faithful fold history n ↔ Plain fold n ∧ ∀ name ∈ history.names, Plain fold name := by
  constructor
  · intro h
    have hnames := names_plain_of_faithful h
    refine ⟨?_, hnames⟩
    by_contra hnot
    obtain ⟨m, hagrees⟩ := h history (History.self_mem_stages history)
    obtain ⟨m₁, hm, hrep⟩ := history.represents hnames
    obtain rfl : m = m₁ := by
      have heq := hagrees.evaluated.symm.trans hm
      cases heq
      rfl
    have hown := hrep.own_inherited hnames hnot
    have hmem := not_not.mp (plain_iff.not.mp hnot)
    have hfound : Headers.has fold m n = true := by
      rw [has, HeaderMap.contains, read_inherited hrep.proto hown hmem, Option.isSome_some]
    have hstored := hagrees.has.symm.trans hfound
    exact hrep.own_eq_none_iff.mp hown (Multimap.has_eq_true_iff.mp hstored)
  · rintro ⟨hn, hnames⟩ stage hstage
    exact agrees_of_plain
      (fun name hname => hnames name (History.names_of_mem_stages hstage name hname)) hn

/-- What `toLowerCase` does to ASCII texts. -/
def asciiFolding : CaseFolding where
  lower t := t.map fun u => if 0x41 ≤ u ∧ u ≤ 0x5A then u + 0x20 else u
  lower_lower t := by
    rw [List.map_map]
    apply List.map_congr_left
    intro u _
    dsimp only [Function.comp]
    split
    · rw [if_neg (by omega)]
    · rfl
  no_capital t u hu := by
    obtain ⟨v, -, rfl⟩ := List.mem_map.mp hu
    split <;> omega

/-- `new Headers()` has the name `constructor`, cannot be asked for its value, and the header
`Constructor: x` cannot be given to the constructor. -/
theorem constructor_found_unstored :
    has asciiFolding .fresh (units "constructor") = true ∧
      get asciiFolding .fresh (units "constructor") = .error notAFunction ∧
      (History.pairs [(units "Constructor", units "x")]).evaluate asciiFolding =
        .error notAFunction ∧
      ¬Faithful asciiFolding .empty (units "constructor") := by
  refine ⟨by decide, by decide, ?_, ?_⟩
  · exact construct_inherited List.mem_cons_self fun h => h.1 (by decide)
  · intro h
    obtain ⟨m, hagrees⟩ := h .empty List.mem_cons_self
    obtain rfl : HeaderMap.fresh = m := Except.ok.inj hagrees.evaluated
    exact absurd hagrees.has (by decide)

end Headers

end Fetch
