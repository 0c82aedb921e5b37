import QuickjsRuntime.Foundation.Multimap
import QuickjsRuntime.Foundation.Transition
import QuickjsRuntime.Url.FormCodec
import QuickjsRuntime.Url.Setters
import Mathlib.Data.List.Lex

/-!
# `URLSearchParams`

The operations of `URLSearchParamsObj` in `node_compat_url.dart`, alone or bound to a URL. A
bound object reads its pairs from the URL before each operation and writes them back after each
change. Both answer as an ordered multimap does that starts with the pairs of the query.
-/

namespace Url

open Utf16 (Text units)
open Codec (Hooks)

abbrev Pairs := List (Text × Text)

/-- A `URLSearchParamsObj`: its pairs, and the state object of its URL if it is bound. -/
structure SearchParams where
  pairs : Pairs
  url : Option Record
deriving DecidableEq, Repr

/-! ## The code -/

/-- `new URLSearchParams(init)` of a text -/
def newSearchParams (hooks : Hooks) (init : Text) : SearchParams :=
  ⟨parseParams hooks init, none⟩

/-- `u.searchParams` -/
def boundSearchParams (hooks : Hooks) (r : Record) : SearchParams :=
  ⟨parseParams hooks (r.search.getD []), some r⟩

namespace SearchParams

/-- `__reload` -/
def reload (hooks : Hooks) (o : SearchParams) : SearchParams :=
  match o.url with
  | none => o
  | some r => { o with pairs := parseParams hooks (r.search.getD []) }

/-- The callback that stores a query in the state object. -/
def writeSearch (v : Text) (r : Record) : Record :=
  { r with search := if v = [] then none else some v }

/-- `__commit` -/
def commit (hooks : Hooks) (o : SearchParams) : SearchParams :=
  match o.url with
  | none => o
  | some r => { o with url := some (writeSearch (serializePairs hooks o.pairs) r) }

/-- What the operations that change the pairs have in common. -/
def update (hooks : Hooks) (f : Pairs → Pairs) (o : SearchParams) : SearchParams :=
  let o := o.reload hooks
  commit hooks { o with pairs := f o.pairs }

def deleteLoop (name : Text) : Pairs → Pairs
  | [] => []
  | p :: rest => if p.1 ≠ name then p :: deleteLoop name rest else deleteLoop name rest

/-- The loop of `set`; `found` once a pair of the name has been replaced. -/
def setLoop (name value : Text) : Bool → Pairs → Pairs
  | found, [] => if found then [] else [(name, value)]
  | found, p :: rest =>
    if p.1 = name then
      if found then setLoop name value found rest
      else (name, value) :: setLoop name value true rest
    else p :: setLoop name value found rest

/-- The comparison that `sort` is called with. -/
def compareNames (a b : Text × Text) : Int :=
  if a.1 < b.1 then -1 else if a.1 > b.1 then 1 else 0

def getLoop (name : Text) : Pairs → Option Text
  | [] => none
  | p :: rest => if p.1 = name then some p.2 else getLoop name rest

def getAllLoop (name : Text) : Pairs → List Text
  | [] => []
  | p :: rest => if p.1 = name then p.2 :: getAllLoop name rest else getAllLoop name rest

def hasLoop (name : Text) : Pairs → Bool
  | [] => false
  | p :: rest => if p.1 = name then true else hasLoop name rest

/-- The method calls; `next i` is `next` of an iterator of `entries()` that has reached `i`. -/
inductive Call where
  | append (name value : Text)
  | delete (name : Text)
  | set (name value : Text)
  | sort
  | get (name : Text)
  | getAll (name : Text)
  | has (name : Text)
  | size
  | next (i : Nat)
  | toString
deriving DecidableEq, Repr

inductive Answer where
  | undefined
  | text (t : Option Text)
  | texts (ts : List Text)
  | bool (b : Bool)
  | number (n : Nat)
  | entry (p : Option (Text × Text))
deriving DecidableEq, Repr

def call (hooks : Hooks) (o : SearchParams) : Call → Answer × SearchParams
  | .append name value => (.undefined, o.update hooks fun pairs => pairs ++ [(name, value)])
  | .delete name => (.undefined, o.update hooks (deleteLoop name))
  | .set name value => (.undefined, o.update hooks (setLoop name value false))
  | .sort =>
    (.undefined, o.update hooks fun pairs => pairs.mergeSort fun a b => compareNames a b ≤ 0)
  | .get name => (.text (getLoop name (o.reload hooks).pairs), o.reload hooks)
  | .getAll name => (.texts (getAllLoop name (o.reload hooks).pairs), o.reload hooks)
  | .has name => (.bool (hasLoop name (o.reload hooks).pairs), o.reload hooks)
  | .size => (.number (o.reload hooks).pairs.length, o.reload hooks)
  | .next i => (.entry (o.reload hooks).pairs[i]?, o.reload hooks)
  | .toString => (.text (some (serializePairs hooks (o.reload hooks).pairs)), o.reload hooks)

/-! ## The multimap -/

/-- What the calls mean for the list of pairs. -/
def reference (hooks : Hooks) (m : Pairs) : Call → Answer × Pairs
  | .append name value => (.undefined, Multimap.append m name value)
  | .delete name => (.undefined, Multimap.delete m name)
  | .set name value => (.undefined, Multimap.set m name value)
  | .sort => (.undefined, Multimap.sortBy Prod.fst m)
  | .get name => (.text (Multimap.get m name), m)
  | .getAll name => (.texts (Multimap.getAll m name), m)
  | .has name => (.bool (Multimap.has m name), m)
  | .size => (.number m.length, m)
  | .next i => (.entry m[i]?, m)
  | .toString => (.text (some (serializePairs hooks m)), m)

/-- Calls whose new names and values are well-formed text. -/
def Call.WellFormed : Call → Prop
  | .append name value => Utf16.WellFormed name ∧ Utf16.WellFormed value
  | .set name value => Utf16.WellFormed name ∧ Utf16.WellFormed value
  | .delete name => Utf16.WellFormed name
  | _ => True

/-! ### The loops -/

theorem deleteLoop_eq (name : Text) (pairs : Pairs) :
    deleteLoop name pairs = Multimap.delete pairs name := by
  induction pairs with
  | nil => rfl
  | cons p rest ih =>
    rw [deleteLoop, Multimap.delete_cons, ih]
    exact ite_not _ _ _

theorem setLoop_found (name value : Text) (pairs : Pairs) :
    setLoop name value true pairs = Multimap.delete pairs name := by
  rw [← deleteLoop_eq]
  induction pairs with
  | nil => rfl
  | cons p rest ih =>
    rw [setLoop, deleteLoop, ih]
    by_cases hp : p.1 = name
    · simp [hp]
    · simp [hp]

theorem setLoop_eq (name value : Text) (pairs : Pairs) :
    setLoop name value false pairs = Multimap.set pairs name value := by
  induction pairs with
  | nil => rfl
  | cons p rest ih =>
    rw [setLoop, Multimap.set_cons]
    by_cases hp : p.1 = name
    · -- the pair that is replaced: all that follows loses the name
      simp [hp, setLoop_found]
    · simp [hp, ih]

theorem getLoop_eq (name : Text) (pairs : Pairs) :
    getLoop name pairs = Multimap.get pairs name := by
  induction pairs with
  | nil => rfl
  | cons p rest ih =>
    rw [getLoop, Multimap.get, List.find?_cons]
    by_cases hp : p.1 = name
    · simp [hp]
    · simp [hp, ih, Multimap.get]

theorem getAllLoop_eq (name : Text) (pairs : Pairs) :
    getAllLoop name pairs = Multimap.getAll pairs name := by
  induction pairs with
  | nil => rfl
  | cons p rest ih =>
    rw [getAllLoop, Multimap.getAll_cons, ih]

theorem hasLoop_eq (name : Text) (pairs : Pairs) :
    hasLoop name pairs = Multimap.has pairs name := by
  induction pairs with
  | nil => rfl
  | cons p rest ih =>
    rw [hasLoop, ih, Multimap.has, Multimap.has]
    by_cases hp : p.1 = name
    · simp [hp]
    · simp [hp, Ne.symm hp]

/-- The comparison says no more than the order of the names. -/
theorem compareNames_le (a b : Text × Text) :
    decide (compareNames a b ≤ 0) = decide (a.1 ≤ b.1) := by
  unfold compareNames
  rcases lt_trichotomy a.1 b.1 with h | h | h
  · simp [h, h.le]
  · simp [h]
  · simp [h, h.not_gt, h.not_ge]

theorem sort_eq (pairs : Pairs) :
    (pairs.mergeSort fun a b => compareNames a b ≤ 0) = Multimap.sortBy Prod.fst pairs := by
  have hle : (fun a b : Text × Text => decide (compareNames a b ≤ 0)) =
      fun a b => decide (a.1 ≤ b.1) := by
    funext a b
    exact compareNames_le a b
  rw [hle, Multimap.mergeSort_eq_sortBy]

/-! ### The simulation -/

/-- The object stands for the multimap: its pairs are the entries, or are read from its URL. -/
structure Represents (hooks : Hooks) (o : SearchParams) (m : Pairs) : Prop where
  wellFormed : PairsWellFormed m
  reload_pairs : (o.reload hooks).pairs = m

variable {hooks : Utf8Hooks} {o : SearchParams} {m : Pairs}

theorem reload_reload (hooks : Hooks) (o : SearchParams) :
    (o.reload hooks).reload hooks = o.reload hooks := by
  cases o with
  | mk pairs url => cases url <;> rfl

theorem Represents.reload (h : Represents hooks o m) :
    Represents hooks (o.reload hooks) m :=
  ⟨h.wellFormed, by rw [reload_reload, h.reload_pairs]⟩

/-- Committed pairs are read back, from the object itself or from the query. -/
theorem represents_commit (hooks : Utf8Hooks) (url : Option Record) (hm : PairsWellFormed m) :
    Represents hooks (commit hooks ⟨m, url⟩) m := by
  refine ⟨hm, ?_⟩
  cases url with
  | none => rfl
  | some r =>
    have hsearch : (writeSearch (serializePairs hooks m) r).search.getD [] =
        serializePairs hooks m := by
      unfold writeSearch
      split
      next hnil => exact hnil.symm
      next => rfl
    simp only [commit, SearchParams.reload]
    rw [hsearch, parseParams_serializePairs hooks hm]

theorem Represents.update (h : Represents hooks o m) {f : Pairs → Pairs}
    (hf : PairsWellFormed (f m)) :
    Represents hooks (o.update hooks f) (f m) := by
  rw [SearchParams.update, h.reload_pairs]
  exact represents_commit hooks _ hf

/-- The entries stay well-formed text. -/
theorem reference_wellFormed (hooks : Hooks) (hm : PairsWellFormed m) {c : Call}
    (hc : c.WellFormed) : PairsWellFormed (reference hooks m c).2 := by
  cases c with
  | append name value =>
    intro p hp
    rcases List.mem_append.mp hp with hp | hp
    · exact hm p hp
    · rw [List.mem_singleton.mp hp]
      exact hc
  | delete name =>
    intro p hp
    exact hm p (List.mem_of_mem_filter hp)
  | set name value =>
    intro p hp
    rcases List.mem_append.mp hp with hp | hp
    · exact hm p ((List.takeWhile_subset _) hp)
    · rcases List.mem_cons.mp hp with rfl | hp
      · exact hc
      · exact hm p ((List.dropWhile_subset _) (List.mem_of_mem_filter hp))
  | sort =>
    intro p hp
    obtain ⟨k, -, hp⟩ := List.mem_flatMap.mp hp
    exact hm p (List.mem_of_mem_filter hp)
  | get | getAll | has | size | next | toString => exact hm

theorem call_simulates (h : Represents hooks o m) {c : Call} (hc : c.WellFormed) :
    (o.call hooks c).1 = (reference hooks m c).1 ∧
      Represents hooks (o.call hooks c).2 (reference hooks m c).2 := by
  have hm := reference_wellFormed hooks h.wellFormed hc
  cases c with
  | append name value =>
    refine ⟨rfl, ?_⟩
    exact h.update (f := fun pairs => pairs ++ [(name, value)]) hm
  | delete name =>
    refine ⟨rfl, ?_⟩
    have hupdate := h.update (f := deleteLoop name) (by rw [deleteLoop_eq]; exact hm)
    rwa [deleteLoop_eq] at hupdate
  | set name value =>
    refine ⟨rfl, ?_⟩
    have hupdate := h.update (f := setLoop name value false) (by rw [setLoop_eq]; exact hm)
    rwa [setLoop_eq] at hupdate
  | sort =>
    refine ⟨rfl, ?_⟩
    have hupdate := h.update (f := fun pairs => pairs.mergeSort fun a b => compareNames a b ≤ 0)
      (by rw [sort_eq]; exact hm)
    rwa [sort_eq] at hupdate
  | get name =>
    refine ⟨?_, h.reload⟩
    rw [call, reference, h.reload_pairs, getLoop_eq]
  | getAll name =>
    refine ⟨?_, h.reload⟩
    rw [call, reference, h.reload_pairs, getAllLoop_eq]
  | has name =>
    refine ⟨?_, h.reload⟩
    rw [call, reference, h.reload_pairs, hasLoop_eq]
  | size | next | toString =>
    refine ⟨?_, h.reload⟩
    rw [call, reference, h.reload_pairs]

/-! ### Whole runs -/

/-- The answers of the object to a list of calls, and the object after them. -/
def run (hooks : Hooks) (o : SearchParams) (calls : List Call) : List Answer × SearchParams :=
  Transition.answers (call hooks) o calls

/-- The same for the multimap. -/
def referenceRun (hooks : Hooks) (m : Pairs) (calls : List Call) : List Answer × Pairs :=
  Transition.answers (reference hooks) m calls

theorem run_simulates (h : Represents hooks o m) {calls : List Call}
    (hcalls : ∀ c ∈ calls, c.WellFormed) :
    (run hooks o calls).1 = (referenceRun hooks m calls).1 ∧
      Represents hooks (run hooks o calls).2
        (referenceRun hooks m calls).2 := by
  apply Transition.answers_simulation _ hcalls h
  intro o m c hrepresents hc
  exact call_simulates hrepresents hc

theorem represents_new (hooks : Utf8Hooks) (q : Text) :
    Represents hooks (newSearchParams hooks q) (parseParams hooks q) :=
  ⟨parseParams_wellFormed hooks q, rfl⟩

theorem represents_bound (hooks : Utf8Hooks) (r : Record) :
    Represents hooks (boundSearchParams hooks r)
      (parseParams hooks (r.search.getD [])) :=
  ⟨parseParams_wellFormed hooks _, rfl⟩

/-- A bound object stays bound. -/
theorem call_bound (hooks : Hooks) {o : SearchParams} {r : Record} (h : o.url = some r)
    (c : Call) : ∃ r', (o.call hooks c).2.url = some r' := by
  cases o with
  | mk pairs url =>
    cases h
    cases c with
    | append | delete | set | sort => exact ⟨_, rfl⟩
    | get | getAll | has | size | next | toString => exact ⟨r, rfl⟩

theorem run_bound (hooks : Hooks) {o : SearchParams} {r : Record} (h : o.url = some r)
    (calls : List Call) : ∃ r', (run hooks o calls).2.url = some r' := by
  induction calls generalizing o r with
  | nil => exact ⟨r, h⟩
  | cons c calls ih =>
    obtain ⟨r', hr'⟩ := call_bound hooks h c
    exact ih hr'

theorem dropMark_search (r : Record) :
    dropMark questionMark (r.component .search) = r.search.getD [] := by
  rw [Record.component, optionalText]
  by_cases hnil : r.search.getD [] = []
  · simp [hnil, dropMark]
  · simp [hnil, dropMark]

end SearchParams

/-- A query that contains no number sign and is not cut at its end is the query of a URL. -/
theorem parseUrl_query (env : Platform) {q : Text} (hhash : numberSign ∉ q) (hends : Ends q) :
    ∃ r, parseUrl env (units "http://h/?" ++ q) none = some r ∧ r.search = some q := by
  have htext : units "http://h/?" ++ q =
      units "http" ++ colon :: (slash :: slash :: (units "h" ++ slash :: questionMark :: q)) := rfl
  have hrest : Ends (slash :: slash :: (units "h" ++ slash :: questionMark :: q)) :=
    hends.append_cons (units "//h/") (by decide)
  have hparts : Tail [slash] (some q) none := by
    refine ⟨by decide, by decide, ?_⟩
    intro q' hq'
    cases hq'
    exact hhash
  have htail : readTail env (units "http") (slash :: questionMark :: q) =
      (storedPath env (units "http") [slash], some q, none) := by
    have hmarks : slash :: questionMark :: q =
        [slash] ++ (marked questionMark (some q) ++ marked numberSign none) := by
      simp [marked]
    rw [hmarks, readTail_append _ hparts]
  have hauthority : ∃ a, readAuthority env (units "http") (units "h") = some a := by
    have huserinfo : splitUserinfo (units "h") = ([], [], units "h") := by decide
    have hhost : splitHostPort (units "h") = (units "h", []) := by decide
    rw [readAuthority, huserinfo]
    simp only [readHost, hhost]
    exact ⟨_, rfl⟩
  obtain ⟨a, ha⟩ := hauthority
  rw [htext, parseUrl_append (validScheme_of_special (by decide)), hrest.strip, readRest_slashes,
    readFull_append (by decide) (by simp [notDelimiter, isDelimiter, slash]), ha, htail]
  exact ⟨_, rfl, rfl⟩

namespace SearchParams

/-- Alone and bound to a URL with the query, the object answers as the multimap does that starts
with the pairs of the query, and the query of the URL is always that of the multimap. -/
theorem searchParams_refine (hooks : Utf8Hooks) (env : Platform) {q : Text}
    (hhash : numberSign ∉ q) (hends : Ends q) {calls : List Call}
    (hcalls : ∀ c ∈ calls, c.WellFormed) :
    (run hooks (newSearchParams hooks q) calls).1 =
        (referenceRun hooks (parseParams hooks q) calls).1 ∧
      (∃ r, parseUrl env (units "http://h/?" ++ q) none = some r ∧ r.search = some q) ∧
      ∀ r : Record, r.search.getD [] = q →
        (run hooks (boundSearchParams hooks r) calls).1 =
            (referenceRun hooks (parseParams hooks q) calls).1 ∧
          ∃ r', (run hooks (boundSearchParams hooks r) calls).2.url = some r' ∧
            parseParams hooks (dropMark questionMark (r'.component .search)) =
              (referenceRun hooks (parseParams hooks q) calls).2 := by
  refine ⟨(run_simulates (represents_new hooks q) hcalls).1, parseUrl_query env hhash hends, ?_⟩
  rintro r rfl
  obtain ⟨hanswers, hrepresents⟩ := run_simulates (represents_bound hooks r) hcalls
  obtain ⟨r', hr'⟩ := run_bound hooks (o := boundSearchParams hooks r) rfl calls
  refine ⟨hanswers, r', hr', ?_⟩
  have hpairs := hrepresents.reload_pairs
  rw [dropMark_search]
  simpa [SearchParams.reload, hr'] using hpairs

/-- Hooks that encode and decode standard UTF-8. -/
def standardHooks : Utf8Hooks where
  utf8Encode s := (Utf8.encode (Utf16.decode s)).map UInt8.toNat
  utf8Decode bs := Utf16.encode (Utf8.decode (bs.map UInt8.ofNat))
  encode_lt s b hb := by
    obtain ⟨x, -, rfl⟩ := List.mem_map.mp hb
    exact x.toNat_lt
  decode_wellFormed bs := Utf16.wellFormed_encode _
  decode_encode s hs := by
    rw [Codec.map_ofNat_toNat, Utf8.decode_encode, hs.encode_decode]

/-- After `append('k', 'b')` the URL of the query `k=a` has two pairs of the name. -/
theorem searchParams_refine_append :
    ∃ r', (run standardHooks (boundSearchParams standardHooks
        ⟨units "http", [], [], units "h", none, units "/", some (units "k=a"), none⟩)
        [.append (units "k") (units "b")]).2.url = some r' ∧
      parseParams standardHooks (dropMark questionMark (r'.component .search)) =
        [(units "k", units "a"), (units "k", units "b")] := by
  have hcalls : ∀ c ∈ [Call.append (units "k") (units "b")], c.WellFormed := by
    intro c hc
    rw [List.mem_singleton.mp hc]
    exact ⟨⟨['k'], rfl⟩, ⟨['b'], rfl⟩⟩
  have hends : Ends (units "k=a") := ends_of_forall (by decide)
  obtain ⟨-, -, hbound⟩ := searchParams_refine standardHooks asciiPlatform
    (q := units "k=a") (by decide) hends hcalls
  exact (hbound _ rfl).2

end SearchParams

end Url
