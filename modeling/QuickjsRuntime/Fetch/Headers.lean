import QuickjsRuntime.Foundation.Multimap
import QuickjsRuntime.Foundation.PlainObject

/-!
# Headers

`Headers` of `lib/src/node_compat_fetch.dart` keeps the values of each lower-cased name in an
array that is a property of the plain object `__map`. A plain object has more properties than
those that were written: it inherits the ones of `Object.prototype`, and a write to `__proto__`
makes no property but replaces the prototype, here by an array. The model has the own
properties, the prototype, and what a read finds in either.

What the class is for is a multimap, and for names that no plain object inherits each operation
does to the map what the multimap does.
-/

namespace Fetch

open Utf16 (Text units)
open PlainObject (arrayIndex)

/-! ## Model -/

/-- `String.prototype.toLowerCase`, of which two facts are used: what is lower-cased stays, and
no capital of ASCII is left. -/
structure CaseFolding where
  lower : Text → Text
  lower_lower : ∀ t, lower (lower t) = lower t
  no_capital : ∀ t, ∀ u ∈ lower t, ¬(0x41 ≤ u ∧ u ≤ 0x5A)

inductive JsError where
  | typeError (message : String)
  | syntaxError
deriving DecidableEq, Repr

def notAFunction : JsError := .typeError "not a function"

/-- The names of the properties of `Object.prototype`. -/
def objectPrototype : List Text :=
  PlainObject.prototype.map fun p => units p.1

/-- The names of the methods of `Array.prototype`, and of its constructor. -/
def arrayPrototype : List Text :=
  ["constructor", "at", "with", "concat", "every", "some", "forEach", "map", "filter", "reduce",
    "reduceRight", "fill", "find", "findIndex", "findLast", "findLastIndex", "indexOf",
    "lastIndexOf", "includes", "join", "toString", "toLocaleString", "pop", "push", "shift",
    "unshift", "reverse", "toReversed", "sort", "toSorted", "slice", "splice", "toSpliced",
    "copyWithin", "flatMap", "flat", "values", "keys", "entries"].map units

/-- The prototype of `__map`: the one of every plain object, or the array that was assigned to
`__proto__`. -/
inductive Proto where
  | object
  | array (values : List Text)
deriving DecidableEq, Repr

/-- What a read of a property finds; a `builtin` is a function, or `Object.prototype`. -/
inductive Slot where
  | array (values : List Text)
  | text (value : Text)
  | number (value : Nat)
  | builtin
deriving DecidableEq, Repr

def Slot.truthy : Slot → Bool
  | .array _ => true
  | .text value => !value.isEmpty
  | .number value => value != 0
  | .builtin => true

def joinValues (values : List Text) : Text :=
  (units ", ").intercalate values

/-- `slot.join(', ')`, which only an array has. -/
def Slot.join : Slot → Except JsError Text
  | .array values => .ok (joinValues values)
  | _ => .error notAFunction

/-- What is found along the chain of prototypes. -/
def Proto.read : Proto → Text → Option Slot
  | .object, key => if key ∈ objectPrototype then some .builtin else none
  | .array values, key =>
    -- the getter of `Object.prototype` answers with the prototype
    if key = units "__proto__" then some (.array values)
    else match arrayIndex key with
      | some i => values[i]?.map .text
      | none =>
        if key = units "length" then some (.number values.length)
        else if key ∈ arrayPrototype ∨ key ∈ objectPrototype then some .builtin
        else none

structure HeaderMap where
  own : PlainObject Text (List Text)
  proto : Proto

namespace HeaderMap

/-- `{}` -/
def fresh : HeaderMap := ⟨.empty, .object⟩

/-- `map[key]` -/
def read (m : HeaderMap) (key : Text) : Option Slot :=
  match m.own.get key with
  | some values => some (.array values)
  | none => m.proto.read key

/-- `key in map` -/
def contains (m : HeaderMap) (key : Text) : Bool :=
  (m.read key).isSome

/-- `map[key] = values`, where `__proto__` reaches the setter of `Object.prototype`. -/
def assign (m : HeaderMap) (key : Text) (values : List Text) : HeaderMap :=
  if key = units "__proto__" then { m with proto := .array values }
  else { m with own := m.own.put key values }

/-- `map[key].push(value)` -/
def push (m : HeaderMap) (key value : Text) : Except JsError HeaderMap :=
  match m.own.get key with
  | some values => .ok { m with own := m.own.put key (values ++ [value]) }
  | none =>
    match m.proto.read key with
    | some (.array values) => .ok { m with proto := .array (values ++ [value]) }
    | some _ => .error notAFunction
    | none => .error (.typeError "cannot read property 'push' of undefined")

/-- `Object.keys(map)` -/
def keys (m : HeaderMap) : List Text :=
  (m.own.ordered arrayIndex).map Prod.fst

/-- The key with `map[key].join(', ')`. -/
def entry (m : HeaderMap) (key : Text) : Except JsError (Text × Text) :=
  match m.read key with
  | some slot => slot.join.map fun joined => (key, joined)
  | none => .error (.typeError "cannot read property 'join' of undefined")

end HeaderMap

namespace Headers

/-- `add` of the constructor. -/
def add (fold : CaseFolding) (m : HeaderMap) (p : Text × Text) : Except JsError HeaderMap :=
  let name := fold.lower p.1
  let m := if m.contains name then m else m.assign name []
  m.push name p.2

/-- The constructor, given the pairs that its input yields. -/
def construct (fold : CaseFolding) (pairs : List (Text × Text)) : Except JsError HeaderMap :=
  pairs.foldlM (add fold) .fresh

def get (fold : CaseFolding) (m : HeaderMap) (name : Text) : Except JsError (Option Text) :=
  match m.read (fold.lower name) with
  | some slot => if slot.truthy then slot.join.map some else .ok none
  | none => .ok none

def has (fold : CaseFolding) (m : HeaderMap) (name : Text) : Bool :=
  m.contains (fold.lower name)

def set (fold : CaseFolding) (m : HeaderMap) (name value : Text) : HeaderMap :=
  m.assign (fold.lower name) [value]

def append (fold : CaseFolding) (m : HeaderMap) (name value : Text) : Except JsError HeaderMap :=
  let key := fold.lower name
  let m := if (m.read key).any Slot.truthy then m else m.assign key []
  m.push key value

def delete (fold : CaseFolding) (m : HeaderMap) (name : Text) : HeaderMap :=
  { m with own := m.own.remove (fold.lower name) }

/-- The calls that `forEach` makes, each with the key and the value. -/
def forEach (m : HeaderMap) : Except JsError (List (Text × Text)) :=
  m.keys.mapM m.entry

/-- The iterator of `entries`, over the keys there were when it was made. -/
structure Iterator where
  keys : List Text
  i : Nat

def entries (m : HeaderMap) : Iterator := ⟨m.keys, 0⟩

/-- What `next` gives, with `none` for `done`. -/
def Iterator.next (m : HeaderMap) (it : Iterator) : Except JsError (Option (Text × Text)) :=
  match it.keys[it.i]? with
  | some key => (m.entry key).map some
  | none => .ok none

/-- The values of the iterator until it is done. -/
def Iterator.collect (m : HeaderMap) (it : Iterator) : Except JsError (List (Text × Text)) :=
  if it.i < it.keys.length then do
    match ← it.next m with
    | some entry => return entry :: (← Iterator.collect m ⟨it.keys, it.i + 1⟩)
    | none => return []
  else .ok []
termination_by it.keys.length - it.i

/-- `new Headers(pairs).forEach((v, k) => h.set(k, v))` -/
def overlay (fold : CaseFolding) (h : HeaderMap) (pairs : List (Text × Text)) :
    Except JsError HeaderMap := do
  let listing ← forEach (← construct fold pairs)
  return listing.foldl (fun h p => set fold h p.1 p.2) h

/-- `headerInit`, given the pairs that `input.headers` and `init.headers` yield. -/
def headerInit (fold : CaseFolding) (inputHeaders initHeaders : Option (List (Text × Text))) :
    Except JsError HeaderMap := do
  let h ← match inputHeaders with
    | some pairs => overlay fold .fresh pairs
    | none => .ok .fresh
  match initHeaders with
    | some pairs => overlay fold h pairs
    | none => return h

/-! ## What a `Headers` is for -/

/-- The values of a name as one text. -/
def joined (contents : List (Text × Text)) (key : Text) : Option Text :=
  match Multimap.getAll contents key with
  | [] => none
  | values => some (joinValues values)

/-- Each stored name once, with its values. -/
structure Lists (contents listing : List (Text × Text)) : Prop where
  once : (listing.map Prod.fst).Nodup
  names : ∀ key, key ∈ listing.map Prod.fst ↔ key ∈ contents.map Prod.fst
  values : ∀ p ∈ listing, joined contents p.1 = some p.2

/-- A name that no plain object inherits. -/
def Plain (fold : CaseFolding) (name : Text) : Prop :=
  fold.lower name ≠ units "constructor" ∧ fold.lower name ≠ units "__proto__"

/-! ## Joined values -/

theorem joinValues_append_singleton {values : List Text} (h : values ≠ []) (value : Text) :
    joinValues (values ++ [value]) = joinValues values ++ units ", " ++ value := by
  induction values with
  | nil => exact absurd rfl h
  | cons first rest ih =>
    cases rest with
    | nil => simp [joinValues, List.intercalate]
    | cons second rest =>
      have hrest := ih (List.cons_ne_nil second rest)
      simp only [joinValues, List.intercalate, List.cons_append, List.intersperse_cons_cons,
        List.flatten_cons] at hrest ⊢
      rw [hrest]
      simp only [List.append_assoc]

theorem joinValues_singleton (value : Text) : joinValues [value] = value := by
  simp [joinValues, List.intercalate]

/-- An array of the map, if there is one, reads as the values of a name. It need not be the list
of them: a copy holds the values of a name as one. -/
inductive Reads : Option (List Text) → List Text → Prop where
  | absent : Reads none []
  | present {array values : List Text} (harray : array ≠ []) (hvalues : values ≠ [])
      (hjoin : joinValues array = joinValues values) : Reads (some array) values

theorem Reads.push {slot : Option (List Text)} {values : List Text} (h : Reads slot values)
    (value : Text) : Reads (slot.getD [] ++ [value]) (values ++ [value]) := by
  cases h with
  | absent => exact .present (by simp) (by simp) rfl
  | present harray hvalues hjoin =>
    refine .present (by simp) (by simp) ?_
    rw [Option.getD_some, joinValues_append_singleton harray,
      joinValues_append_singleton hvalues, hjoin]

/-- What reads as the joined values reads as the values. -/
theorem Reads.of_joined {slot copied : Option (List Text)} {values : List Text}
    (h : Reads slot values) (hcopied : Reads copied (slot.map joinValues).toList) :
    Reads copied values := by
  cases h with
  | absent => exact hcopied
  | present harray hvalues hjoin =>
    cases hcopied with
    | present harray' _ hjoin' =>
      refine .present harray' hvalues ?_
      rw [hjoin', ← hjoin]
      exact joinValues_singleton _

theorem Reads.eq_none_iff {slot : Option (List Text)} {values : List Text}
    (h : Reads slot values) : slot = none ↔ values = [] := by
  cases h with
  | absent => exact iff_of_true rfl rfl
  | present harray hvalues hjoin => exact iff_of_false nofun hvalues

theorem Reads.joined_eq {slot : Option (List Text)} {contents : List (Text × Text)} {key : Text}
    (h : Reads slot (Multimap.getAll contents key)) :
    joined contents key = slot.map joinValues := by
  unfold joined
  cases slot with
  | none => rw [h.eq_none_iff.mp rfl, Option.map_none]
  | some array =>
    split
    next hnone => exact absurd (h.eq_none_iff.mpr hnone) nofun
    next =>
      cases h with
      | present harray hvalues hjoin => rw [Option.map_some, hjoin]

/-! ## Inherited names -/

variable {fold : CaseFolding} {m m' : HeaderMap} {key n : Text}

/-- All other names of `Object.prototype` have a capital. -/
theorem plain_iff : Plain fold n ↔ fold.lower n ∉ objectPrototype := by
  have hcapital : ∀ key ∈ objectPrototype, (∃ u ∈ key, 0x41 ≤ u ∧ u ≤ 0x5A) ∨
      key = units "constructor" ∨ key = units "__proto__" := by decide
  constructor
  · rintro ⟨hconstructor, hproto⟩ hmem
    rcases hcapital _ hmem with ⟨u, hu, hcapital⟩ | h | h
    · exact fold.no_capital n u hu hcapital
    · exact hconstructor h
    · exact hproto h
  · intro hmem
    constructor
    · intro h
      exact hmem (h ▸ by decide)
    · intro h
      exact hmem (h ▸ by decide)

theorem Plain.ne_proto (h : Plain fold n) : fold.lower n ≠ units "__proto__" := h.2

theorem plain_lower_iff : Plain fold (fold.lower n) ↔ Plain fold n := by
  rw [Plain, Plain, fold.lower_lower]

theorem read_of_own {values : List Text} (h : m.own.get key = some values) :
    m.read key = some (.array values) := by
  rw [HeaderMap.read, h]

theorem read_plain (hproto : m.proto = .object) (hkey : key ∉ objectPrototype) :
    m.read key = (m.own.get key).map .array := by
  rw [HeaderMap.read, hproto, Proto.read, if_neg hkey]
  cases m.own.get key with
  | none => rfl
  | some values => rfl

theorem read_inherited (hproto : m.proto = .object) (hown : m.own.get key = none)
    (hkey : key ∈ objectPrototype) : m.read key = some .builtin := by
  rw [HeaderMap.read, hown, hproto, Proto.read, if_pos hkey]

theorem push_own {values : List Text} {value : Text} (h : m.own.get key = some values) :
    m.push key value = .ok { m with own := m.own.put key (values ++ [value]) } := by
  rw [HeaderMap.push, h]

theorem push_inherited {value : Text} (hproto : m.proto = .object) (hown : m.own.get key = none)
    (hkey : key ∈ objectPrototype) : m.push key value = .error notAFunction := by
  rw [HeaderMap.push, hown, hproto, Proto.read, if_pos hkey]

/-! ## Operations on the map -/

/-- The value stands behind those the key has. -/
structure Pushed (m : HeaderMap) (key value : Text) (m' : HeaderMap) : Prop where
  proto : m'.proto = m.proto
  own : ∀ k, m'.own.get k =
    if k = key then some ((m.own.get key).getD [] ++ [value]) else m.own.get k

/-- Both `add` and `append` make an empty array first if they find nothing. -/
theorem push_ensured (hkey : key ≠ units "__proto__") (value : Text) :
    ∃ m', (if (m.own.get key).isSome then m else m.assign key []).push key value = .ok m' ∧
      Pushed m key value m' := by
  cases hown : m.own.get key with
  | some values =>
    rw [Option.isSome_some, if_pos rfl]
    refine ⟨_, push_own hown, rfl, ?_⟩
    intro k
    rw [PlainObject.get_put, hown, Option.getD_some]
  | none =>
    have hassign : m.assign key [] = { m with own := m.own.put key [] } := if_neg hkey
    have hget : (m.assign key []).own.get key = some [] := by
      rw [hassign, PlainObject.get_put, if_pos rfl]
    rw [Option.isSome_none, if_neg Bool.false_ne_true]
    refine ⟨_, push_own hget, by rw [hassign], ?_⟩
    intro k
    rw [PlainObject.get_put, hown, Option.getD_none, hassign, PlainObject.get_put]
    split <;> rfl

theorem add_pushed (hproto : m.proto = .object) {p : Text × Text} (hname : Plain fold p.1) :
    ∃ m', add fold m p = .ok m' ∧ Pushed m (fold.lower p.1) p.2 m' := by
  have hcontains : m.contains (fold.lower p.1) = (m.own.get (fold.lower p.1)).isSome := by
    rw [HeaderMap.contains, read_plain hproto (plain_iff.mp hname), Option.isSome_map]
  rw [add, hcontains]
  exact push_ensured hname.ne_proto p.2

theorem append_pushed (hproto : m.proto = .object) (hname : Plain fold n) (value : Text) :
    ∃ m', append fold m n value = .ok m' ∧ Pushed m (fold.lower n) value m' := by
  have htruthy : (m.read (fold.lower n)).any Slot.truthy =
      (m.own.get (fold.lower n)).isSome := by
    rw [read_plain hproto (plain_iff.mp hname)]
    cases m.own.get (fold.lower n) with
    | none => rfl
    | some values => rfl
  rw [append, htruthy]
  exact push_ensured hname.ne_proto value

theorem add_inherited (hproto : m.proto = .object) {p : Text × Text}
    (hown : m.own.get (fold.lower p.1) = none) (hname : ¬Plain fold p.1) :
    add fold m p = .error notAFunction := by
  have hmem := not_not.mp (plain_iff.not.mp hname)
  have hcontains : m.contains (fold.lower p.1) = true := by
    rw [HeaderMap.contains, read_inherited hproto hown hmem, Option.isSome_some]
  rw [add, hcontains, if_pos rfl]
  exact push_inherited hproto hown hmem

theorem append_inherited (hproto : m.proto = .object) (value : Text)
    (hown : m.own.get (fold.lower n) = none) (hname : ¬Plain fold n) :
    append fold m n value = .error notAFunction := by
  have hmem := not_not.mp (plain_iff.not.mp hname)
  have htruthy : (m.read (fold.lower n)).any Slot.truthy = true := by
    rw [read_inherited hproto hown hmem]
    rfl
  rw [append, htruthy, if_pos rfl]
  exact push_inherited hproto hown hmem

/-! ## Listing -/

theorem mapM_entry {l : List (Text × List Text)}
    (h : ∀ p ∈ l, m.own.get p.1 = some p.2) :
    (l.map Prod.fst).mapM m.entry = .ok (l.map fun p => (p.1, joinValues p.2)) := by
  induction l with
  | nil => rfl
  | cons p l ih =>
    have hentry : m.entry p.1 = .ok (p.1, joinValues p.2) := by
      rw [HeaderMap.entry, read_of_own (h p List.mem_cons_self)]
      rfl
    rw [List.map_cons, List.mapM_cons, hentry, ih fun q hq => h q (List.mem_cons_of_mem p hq)]
    rfl

/-- The own properties, each with its values as one text. -/
def listing (m : HeaderMap) : List (Text × Text) :=
  (m.own.ordered arrayIndex).map fun p => (p.1, joinValues p.2)

/-- `forEach` gives the own properties and throws nothing. -/
theorem forEach_eq (m : HeaderMap) : forEach m = .ok (listing m) :=
  mapM_entry fun _ hp => PlainObject.mem_ordered.mp hp

theorem mem_listing {value : Text} :
    (key, value) ∈ listing m ↔ ∃ array, m.own.get key = some array ∧ joinValues array = value := by
  rw [listing, List.mem_map]
  constructor
  · rintro ⟨⟨k, array⟩, hmem, heq⟩
    cases heq
    exact ⟨array, PlainObject.mem_ordered.mp hmem, rfl⟩
  · rintro ⟨array, hget, rfl⟩
    exact ⟨(key, array), PlainObject.mem_ordered.mpr hget, rfl⟩

theorem mem_keys_listing : key ∈ (listing m).map Prod.fst ↔ m.own.get key ≠ none := by
  rw [List.mem_map, Option.ne_none_iff_exists']
  constructor
  · rintro ⟨⟨k, value⟩, hmem, rfl⟩
    obtain ⟨array, hget, -⟩ := mem_listing.mp hmem
    exact ⟨array, hget⟩
  · rintro ⟨array, hget⟩
    exact ⟨(key, joinValues array), mem_listing.mpr ⟨array, hget, rfl⟩, rfl⟩

theorem nodup_listing (m : HeaderMap) : ((listing m).map Prod.fst).Nodup := by
  rw [listing, List.map_map]
  exact PlainObject.nodup_ordered arrayIndex m.own

/-- As a multimap, the listing has one value for each own property. -/
theorem getAll_listing (m : HeaderMap) (key : Text) :
    Multimap.getAll (listing m) key = ((m.own.get key).map joinValues).toList := by
  cases hget : m.own.get key with
  | some array =>
    exact Multimap.getAll_eq_singleton (nodup_listing m) (mem_listing.mpr ⟨array, hget, rfl⟩)
  | none =>
    by_contra hne
    exact mem_keys_listing.mp (Multimap.mem_names_iff.mpr hne) hget

theorem collect_eq (m : HeaderMap) (it : Iterator) :
    it.collect m = (it.keys.drop it.i).mapM m.entry := by
  fun_induction Iterator.collect m it with
  | case1 it hlt ih =>
    have hkey : it.keys[it.i]? = some it.keys[it.i] := List.getElem?_eq_getElem hlt
    rw [Iterator.next, hkey, List.drop_eq_getElem_cons hlt, List.mapM_cons, ih]
    cases hentry : m.entry it.keys[it.i] with
    | error e =>
      simp only [hentry]
      rfl
    | ok entry =>
      simp only [hentry]
      rfl
  | case2 it hge =>
    rw [List.drop_eq_nil_of_le (Nat.le_of_not_lt hge)]
    rfl

/-- The iterator gives what `forEach` gives. -/
theorem collect_entries (m : HeaderMap) : (entries m).collect m = forEach m :=
  collect_eq m (entries m)

/-! ## The map represents the multimap -/

/-- A plain object whose arrays read as the values of the multimap. -/
structure Represents (m : HeaderMap) (contents : List (Text × Text)) : Prop where
  proto : m.proto = .object
  reads : ∀ key, Reads (m.own.get key) (Multimap.getAll contents key)

variable {contents : List (Text × Text)}

theorem Represents.fresh : Represents .fresh [] := ⟨rfl, fun _ => .absent⟩

theorem Represents.own_eq_none_iff (h : Represents m contents) :
    m.own.get key = none ↔ key ∉ contents.map Prod.fst := by
  rw [Multimap.mem_names_iff, not_not]
  exact (h.reads key).eq_none_iff

theorem Represents.pushed (h : Represents m contents) {value : Text}
    (hpushed : Pushed m key value m') : Represents m' (Multimap.append contents key value) := by
  refine ⟨hpushed.proto.trans h.proto, ?_⟩
  intro k
  rw [hpushed.own, Multimap.getAll_append]
  by_cases hk : k = key
  · rw [if_pos hk, if_pos hk, hk]
    exact (h.reads key).push value
  · rw [if_neg hk, if_neg hk, List.append_nil]
    exact h.reads k

theorem Represents.set (h : Represents m contents) (hname : Plain fold n) (value : Text) :
    Represents (set fold m n value) (Multimap.set contents (fold.lower n) value) := by
  have hset : Headers.set fold m n value = { m with own := m.own.put (fold.lower n) [value] } :=
    if_neg hname.ne_proto
  rw [hset]
  refine ⟨h.proto, ?_⟩
  intro k
  rw [PlainObject.get_put, Multimap.getAll_set]
  by_cases hk : k = fold.lower n
  · rw [if_pos hk, if_pos hk]
    exact .present (List.cons_ne_nil _ _) (List.cons_ne_nil _ _) rfl
  · rw [if_neg hk, if_neg hk]
    exact h.reads k

theorem Represents.delete (h : Represents m contents) (name : Text) :
    Represents (delete fold m name) (Multimap.delete contents (fold.lower name)) := by
  refine ⟨h.proto, ?_⟩
  intro k
  rw [Headers.delete, PlainObject.get_remove, Multimap.getAll_delete]
  by_cases hk : k = fold.lower name
  · rw [if_pos hk, if_pos hk]
    exact .absent
  · rw [if_neg hk, if_neg hk]
    exact h.reads k

/-- Adding plain names appends them in turn. -/
theorem Represents.foldlM_add (h : Represents m contents) {pairs : List (Text × Text)}
    (hpairs : ∀ p ∈ pairs, Plain fold p.1) :
    ∃ m', pairs.foldlM (add fold) m = .ok m' ∧
      Represents m' (contents ++ pairs.map fun p => (fold.lower p.1, p.2)) := by
  induction pairs generalizing m contents with
  | nil => exact ⟨m, rfl, by rwa [List.map_nil, List.append_nil]⟩
  | cons p pairs ih =>
    obtain ⟨m₁, hadd, hpushed⟩ := add_pushed h.proto (hpairs p List.mem_cons_self)
    obtain ⟨m', hrest, hm'⟩ := ih (h.pushed hpushed) fun q hq =>
      hpairs q (List.mem_cons_of_mem p hq)
    refine ⟨m', ?_, ?_⟩
    · rw [List.foldlM_cons, hadd]
      exact hrest
    · rw [Multimap.append, List.append_assoc] at hm'
      exact hm'

theorem represents_construct {pairs : List (Text × Text)} (hpairs : ∀ p ∈ pairs, Plain fold p.1) :
    ∃ m, construct fold pairs = .ok m ∧ Represents m (pairs.map fun p => (fold.lower p.1, p.2)) :=
  Represents.fresh.foldlM_add hpairs

/-- A copy has the values of each name as one, which reads the same. -/
theorem Represents.copy (h : Represents m contents)
    (hnames : ∀ key ∈ contents.map Prod.fst, fold.lower key = key ∧ Plain fold key) :
    ∃ c, construct fold (listing m) = .ok c ∧ Represents c contents := by
  have hlisted : ∀ p ∈ listing m, fold.lower p.1 = p.1 ∧ Plain fold p.1 := by
    intro p hp
    apply hnames
    by_contra hkey
    exact mem_keys_listing.mp (List.mem_map_of_mem hp) (h.own_eq_none_iff.mpr hkey)
  have hlower : ((listing m).map fun p => (fold.lower p.1, p.2)) = listing m := by
    conv_rhs => rw [← List.map_id (listing m)]
    apply List.map_congr_left
    intro p hp
    exact Prod.ext (hlisted p hp).1 rfl
  obtain ⟨c, hc, hrep⟩ := represents_construct fun p hp => (hlisted p hp).2
  rw [hlower] at hrep
  refine ⟨c, hc, hrep.proto, ?_⟩
  intro key
  have hcopied := hrep.reads key
  rw [getAll_listing] at hcopied
  exact (h.reads key).of_joined hcopied

/-! ## Answers -/

theorem Represents.has_eq (h : Represents m contents) (hn : Plain fold n) :
    has fold m n = Multimap.has contents (fold.lower n) := by
  rw [has, HeaderMap.contains, read_plain h.proto (plain_iff.mp hn), Option.isSome_map,
    Multimap.has]
  cases hown : m.own.get (fold.lower n) with
  | none => simp [h.own_eq_none_iff.mp hown]
  | some values =>
    have hmem : fold.lower n ∈ contents.map Prod.fst := by
      by_contra hnot
      rw [h.own_eq_none_iff.mpr hnot] at hown
      cases hown
    simp only [Option.isSome_some, hmem, decide_true]

theorem Represents.get_eq (h : Represents m contents) (hn : Plain fold n) :
    get fold m n = .ok (joined contents (fold.lower n)) := by
  rw [get, read_plain h.proto (plain_iff.mp hn)]
  rw [(h.reads (fold.lower n)).joined_eq]
  cases m.own.get (fold.lower n) with
  | none => rfl
  | some array => rfl

theorem Represents.lists (h : Represents m contents) : Lists contents (listing m) where
  once := nodup_listing m
  names key := mem_keys_listing.trans (h.own_eq_none_iff.not.trans not_not)
  values := by
    rintro ⟨key, value⟩ hp
    obtain ⟨array, hget, hjoin⟩ := mem_listing.mp hp
    rw [(h.reads key).joined_eq, hget, Option.map_some, hjoin]

/-! ## Inherited names are refused -/

/-- No inherited name is an own property. -/
structure Bare (fold : CaseFolding) (m : HeaderMap) : Prop where
  proto : m.proto = .object
  own : ∀ name, ¬Plain fold name → m.own.get (fold.lower name) = none

theorem Bare.pushed (h : Bare fold m) {name value : Text} (hname : Plain fold name)
    (hpushed : Pushed m (fold.lower name) value m') : Bare fold m' := by
  refine ⟨hpushed.proto.trans h.proto, ?_⟩
  intro other hother
  have hne : fold.lower other ≠ fold.lower name := by
    intro heq
    rw [Plain, heq] at hother
    exact hother hname
  rw [hpushed.own, if_neg hne]
  exact h.own other hother

/-- The constructor throws if it is given an inherited name. -/
theorem foldlM_add_inherited (h : Bare fold m) {pairs : List (Text × Text)} {p : Text × Text}
    (hp : p ∈ pairs) (hname : ¬Plain fold p.1) :
    pairs.foldlM (add fold) m = .error notAFunction := by
  induction pairs generalizing m with
  | nil => cases hp
  | cons q pairs ih =>
    rw [List.foldlM_cons]
    by_cases hq : Plain fold q.1
    · obtain ⟨m₁, hadd, hpushed⟩ := add_pushed h.proto hq
      have hp' : p ∈ pairs := by
        rcases List.mem_cons.mp hp with rfl | hp'
        · exact absurd hq hname
        · exact hp'
      rw [hadd]
      exact ih (h.pushed hq hpushed) hp'
    · rw [add_inherited h.proto (h.own q.1 hq) hq]
      rfl

theorem construct_inherited {pairs : List (Text × Text)} {p : Text × Text} (hp : p ∈ pairs)
    (hname : ¬Plain fold p.1) : construct fold pairs = .error notAFunction :=
  foldlM_add_inherited ⟨rfl, fun _ _ => rfl⟩ hp hname

end Headers

end Fetch
