import Mathlib.Logic.Function.Basic
import QuickjsRuntime.Timers.Numbering

/-! # Handles across reinstalls

Every call of `installNodeCompat` evaluates the preludes again: the functions it puts on the
global object have a counter, a map of pending timers and a list of immediates of their own. The
functions and the handles of earlier installations stay alive in the variables of scripts.

A run is a list of events: an installation, a call of a function of some installation, and the
two halves of a turn of its pass, between which the callback makes its calls. Registrations are
numbered through the whole run, and a handle is known by the number of the registration that
returned it.
-/

namespace Timers

variable {τ Cb : Type} [LinearOrder τ] [Add τ] [Zero τ]

/-! ## Model -/

/-- The variables of one evaluation of the prelude. -/
structure Layer (τ Cb : Type) where
  timerSeq : Nat := 1
  pendingTimers : List (Nat × Timer τ Cb) := []
  immediates : List (Option (Immediate Cb)) := []

/-- A runtime: the layers, of which the first `installs` have been installed, what they share,
and the handles returned so far with the layers they are from. Of `shared` the three variables
that each layer has for itself are not looked at. -/
structure Runtime (τ Cb : Type) where
  installs : Nat := 0
  layer : Nat → Layer τ Cb := fun _ => {}
  shared : World τ Cb := {}
  registered : List (Nat × Handle) := []

namespace Runtime

/-- The scheduler as the functions of a layer see it. -/
def world (rt : Runtime τ Cb) (k : Nat) : World τ Cb :=
  { rt.shared with
    timerSeq := (rt.layer k).timerSeq
    pendingTimers := (rt.layer k).pendingTimers
    immediates := (rt.layer k).immediates }

/-- A function of layer `k` has left the scheduler as `w` and returned `new`. -/
def put (rt : Runtime τ Cb) (k : Nat) (w : World τ Cb) (new : Option Handle) : Runtime τ Cb :=
  { rt with
    layer := Function.update rt.layer k ⟨w.timerSeq, w.pendingTimers, w.immediates⟩
    shared := w
    registered := rt.registered ++ new.toList.map fun handle => (k, handle) }

/-- `handle._ncImmEntry.cancelled = true`, in whichever list the entry is. -/
def cancelEntry (rt : Runtime τ Cb) (entry : Nat) : Runtime τ Cb :=
  { rt with
    layer := fun k => { rt.layer k with
      immediates := (rt.layer k).immediates.map (Option.map fun im =>
        if im.entry = entry then { im with cancelled := true } else im) } }

/-- What a registration returns. -/
def returned (w : World τ Cb) : Op τ Cb → Option Handle
  | .setTimeout _ _ => some (.timer w.timerSeq)
  | .setInterval _ _ => some (.timer w.timerSeq)
  | .setImmediate _ => some (.immediate w.entries)
  | _ => none

/-- A call of a function of layer `k`. Its `__clear` reads the id of a handle and looks for it in
its own map; the entry of an immediate is an object, known in every layer. -/
def call (env : Env τ Cb) (rt : Runtime τ Cb) (k : Nat) (op : Op τ Cb) : Runtime τ Cb :=
  match op with
  | .clear (.immediate entry) => rt.cancelEntry entry
  | op => rt.put k (applyOp env (rt.world k) op) (returned (rt.world k) op)

/-- The layer whose functions are on the global object. -/
def current (rt : Runtime τ Cb) : Nat :=
  rt.installs - 1

/-- The installed `clearTimeout`, or `clearInterval`, with the handle that the registration
number `n` returned. -/
def clearTimeout (env : Env τ Cb) (rt : Runtime τ Cb) (n : Nat) : Runtime τ Cb :=
  match rt.registered[n]? with
  | some (_, handle) => rt.call env rt.current (.clear handle)
  | none => rt

end Runtime

inductive Event (τ Cb : Type) where
  | install
  | call (k : Nat) (op : Op τ Cb)
  | enter (k : Nat) (t : Turn τ Cb)
  | leave (k : Nat) (t : Turn τ Cb) (ending : Ending)

/-- Only installed layers have functions. -/
def Runtime.step (env : Env τ Cb) (rt : Runtime τ Cb) : Event τ Cb → Runtime τ Cb
  | .install => { rt with installs := rt.installs + 1 }
  | .call k op => if k < rt.installs then rt.call env k op else rt
  | .enter k t => if k < rt.installs then rt.put k (t.enter env (rt.world k)) none else rt
  | .leave k t ending =>
    if k < rt.installs then rt.put k (t.leave ending (rt.world k)) none else rt

/-- The runtime after a list of events. -/
def Runtime.after (env : Env τ Cb) (events : List (Event τ Cb)) : Runtime τ Cb :=
  events.foldl (Runtime.step env) {}

/-! ## What clearing should do -/

/-- What a registration has put in place and is still there: a timer in the map of its layer, or
an immediate that has neither run nor been cancelled. -/
def Runtime.Holds (rt : Runtime τ Cb) : Nat × Handle → Prop
  | (k, .timer id) => ∃ t, (id, t) ∈ (rt.layer k).pendingTimers
  | (k, .immediate entry) =>
    ∃ im, some im ∈ (rt.layer k).immediates ∧ im.entry = entry ∧ im.cancelled = false

/-- The timer of the registration number `n` is pending. -/
def Runtime.Pending (rt : Runtime τ Cb) (n : Nat) : Prop :=
  ∃ source, rt.registered[n]? = some source ∧ rt.Holds source

/-- Clearing with the handle of the registration number `n` cancels no other timer. -/
def Runtime.ClearsOnly (env : Env τ Cb) (rt : Runtime τ Cb) (n : Nat) : Prop :=
  ∀ m, rt.Pending m → ¬(rt.clearTimeout env n).Pending m → m = n

/-- The handle is of the installed layer, or its id is of no timer that is pending there. -/
def Runtime.Unmistaken (rt : Runtime τ Cb) (n : Nat) : Prop :=
  ∀ k id, rt.registered[n]? = some (k, .timer id) →
    k = rt.current ∨ ∀ t, (id, t) ∉ (rt.layer rt.current).pendingTimers

/-! ## The numbers of a run -/

/-- Two registrations are told apart within a layer by their ids, and everywhere by their
entries. -/
def Apart : Nat × Handle → Nat × Handle → Prop
  | (k, .timer id), (k', .timer id') => k ≠ k' ∨ id ≠ id'
  | (_, .immediate entry), (_, .immediate entry') => entry ≠ entry'
  | _, _ => True

/-- Whatever is in a layer was registered there, and what will be registered is new. -/
structure Runtime.Sound (rt : Runtime τ Cb) : Prop where
  timers : ∀ k, ∀ p ∈ (rt.layer k).pendingTimers, (k, .timer p.1) ∈ rt.registered
  immediates : ∀ k im, some im ∈ (rt.layer k).immediates → (k, .immediate im.entry) ∈ rt.registered
  ids_lt : ∀ k id, (k, .timer id) ∈ rt.registered → id < (rt.layer k).timerSeq
  entries_lt : ∀ k entry, (k, .immediate entry) ∈ rt.registered → entry < rt.shared.entries
  apart : rt.registered.Pairwise Apart

/-- What a step that returns `new` may do to the scheduler of its layer. -/
structure Grows (w : World τ Cb) (new : Option Handle) (w' : World τ Cb) : Prop where
  timers : ∀ p ∈ w'.pendingTimers, (∃ t, (p.1, t) ∈ w.pendingTimers) ∨ new = some (.timer p.1)
  immediates : ∀ im, some im ∈ w'.immediates →
    (∃ im₀, some im₀ ∈ w.immediates ∧ im₀.entry = im.entry) ∨ new = some (.immediate im.entry)
  timerSeq : w.timerSeq ≤ w'.timerSeq
  entries : w.entries ≤ w'.entries
  id_new : ∀ id, new = some (.timer id) → id = w.timerSeq ∧ id < w'.timerSeq
  entry_new : ∀ entry, new = some (.immediate entry) → entry = w.entries ∧ entry < w'.entries

variable {env : Env τ Cb} {rt : Runtime τ Cb} {k : Nat} {w : World τ Cb} {new : Option Handle}

section

omit [LinearOrder τ] [Add τ] [Zero τ]

theorem Runtime.layer_put_self :
    (rt.put k w new).layer k = ⟨w.timerSeq, w.pendingTimers, w.immediates⟩ :=
  Function.update_self k _ rt.layer

theorem Runtime.layer_put_of_ne {j : Nat} (hj : j ≠ k) :
    (rt.put k w new).layer j = rt.layer j :=
  Function.update_of_ne hj _ rt.layer

theorem Runtime.mem_registered_put {source : Nat × Handle} :
    source ∈ (rt.put k w new).registered ↔
      source ∈ rt.registered ∨ source.1 = k ∧ new = some source.2 := by
  obtain ⟨j, handle⟩ := source
  cases new with
  | none => simp [Runtime.put]
  | some h =>
    simp only [Runtime.put, Option.toList_some, List.map_cons, List.map_nil, List.mem_append,
      List.mem_singleton, Prod.mk.injEq, Option.some.injEq]
    exact or_congr_right (and_congr_right fun _ => eq_comm)

/-- A new handle is not one that was returned before. -/
theorem Runtime.Sound.apart_new (h : rt.Sound) (hw : Grows (rt.world k) new w)
    {source : Nat × Handle} {handle : Handle} (hsource : source ∈ rt.registered)
    (hnew : new = some handle) : Apart source (k, handle) := by
  obtain ⟨j, old⟩ := source
  cases old with
  | timer id =>
    cases handle with
    | timer id' =>
      by_cases hj : j = k
      · subst hj
        have hlt := h.ids_lt j id hsource
        have hid' : id' = (rt.layer j).timerSeq := (hw.id_new id' hnew).1
        exact .inr (hid' ▸ Nat.ne_of_lt hlt)
      · exact .inl hj
    | immediate entry => trivial
  | immediate entry =>
    cases handle with
    | timer id => trivial
    | immediate entry' =>
      have hlt := h.entries_lt j entry hsource
      have hentry' : entry' = rt.shared.entries := (hw.entry_new entry' hnew).1
      exact hentry' ▸ Nat.ne_of_lt hlt

theorem Runtime.Sound.put (h : rt.Sound) (hw : Grows (rt.world k) new w) :
    (rt.put k w new).Sound where
  timers := by
    intro j p hp
    rw [Runtime.mem_registered_put]
    by_cases hj : j = k
    · subst hj
      rw [Runtime.layer_put_self] at hp
      rcases hw.timers p hp with ⟨t, ht⟩ | hnew
      · exact .inl (h.timers j (p.1, t) ht)
      · exact .inr ⟨rfl, hnew⟩
    · rw [Runtime.layer_put_of_ne hj] at hp
      exact .inl (h.timers j p hp)
  immediates := by
    intro j im him
    rw [Runtime.mem_registered_put]
    by_cases hj : j = k
    · subst hj
      rw [Runtime.layer_put_self] at him
      rcases hw.immediates im him with ⟨im₀, him₀, hentry⟩ | hnew
      · exact .inl (hentry ▸ h.immediates j im₀ him₀)
      · exact .inr ⟨rfl, hnew⟩
    · rw [Runtime.layer_put_of_ne hj] at him
      exact .inl (h.immediates j im him)
  ids_lt := by
    intro j id hmem
    rcases Runtime.mem_registered_put.mp hmem with hold | ⟨rfl, hnew⟩
    · by_cases hj : j = k
      · subst hj
        rw [Runtime.layer_put_self]
        exact Nat.lt_of_lt_of_le (h.ids_lt j id hold) hw.timerSeq
      · rw [Runtime.layer_put_of_ne hj]
        exact h.ids_lt j id hold
    · rw [Runtime.layer_put_self]
      exact (hw.id_new id hnew).2
  entries_lt := by
    intro j entry hmem
    rcases Runtime.mem_registered_put.mp hmem with hold | ⟨rfl, hnew⟩
    · exact Nat.lt_of_lt_of_le (h.entries_lt j entry hold) hw.entries
    · exact (hw.entry_new entry hnew).2
  apart := by
    refine List.pairwise_append.mpr ⟨h.apart, ?_, ?_⟩
    · cases new with
      | none => exact .nil
      | some handle => exact List.pairwise_singleton _ _
    · intro source hsource added hadded
      obtain ⟨handle, hhandle, rfl⟩ := List.mem_map.mp hadded
      exact h.apart_new hw hsource (Option.mem_toList.mp hhandle)

end

/-! ## Steps -/

theorem grows_applyOp (w : World τ Cb) (op : Op τ Cb) :
    Grows w (Runtime.returned w op) (applyOp env w op) where
  timers := by
    intro p hp
    rcases mem_pendingTimers_applyOp hp with ⟨hp, -⟩ | ⟨fn, ms, repeats, hnew, rfl⟩ |
        ⟨t, unref, -, ht, -⟩ | ⟨t, -, ht, -⟩
    · exact .inl ⟨p.2, hp⟩
    · right
      cases op <;> first | rfl | cases hnew
    · exact .inl ⟨t, ht⟩
    · exact .inl ⟨t, ht⟩
  immediates := by
    intro im him
    rcases mem_immediates_applyOp him with him | ⟨fn, rfl, rfl⟩ | ⟨im₀, him₀, -, rfl⟩
    · exact .inl ⟨im, him, rfl⟩
    · exact .inr rfl
    · exact .inl ⟨im₀, him₀, rfl⟩
  timerSeq := timerSeq_le_applyOp env w op
  entries := (counters_applyOp env w op).2.1
  id_new := by
    intro id hid
    cases op with
    | setTimeout fn ms | setInterval fn ms =>
      cases hid
      exact ⟨rfl, Nat.lt_succ_self _⟩
    | _ => cases hid
  entry_new := by
    intro entry hentry
    cases op with
    | setImmediate fn =>
      cases hentry
      exact ⟨rfl, Nat.lt_succ_self _⟩
    | _ => cases hentry

omit [LinearOrder τ] [Zero τ] in
theorem grows_enter (w : World τ Cb) (t : Turn τ Cb) : Grows w none (t.enter env w) where
  timers := by
    intro p hp
    rcases mem_pendingTimers_enter hp with ⟨hp, -⟩ | ⟨t₀, t₁, -, -, ht₁, -⟩
    · exact .inl ⟨p.2, hp⟩
    · exact .inl ⟨t₁, ht₁⟩
  immediates := fun im him => .inl ⟨im, mem_immediates_enter him, rfl⟩
  timerSeq := (counters_enter env w t).1.ge
  entries := (counters_enter env w t).2.1.ge
  id_new := nofun
  entry_new := nofun

section

omit [LinearOrder τ] [Add τ] [Zero τ]

theorem grows_leave (w : World τ Cb) (t : Turn τ Cb) (ending : Ending) :
    Grows w none (t.leave ending w) := by
  have hself : Grows w none w :=
    { timers := fun p hp => .inl ⟨p.2, hp⟩
      immediates := fun im him => .inl ⟨im, him, rfl⟩
      timerSeq := Nat.le_refl _
      entries := Nat.le_refl _
      id_new := nofun
      entry_new := nofun }
  cases t with
  | immediate slot im =>
    cases ending with
    | returns => exact { hself with
        immediates := fun im him => .inl ⟨im, mem_immediates_consume him, rfl⟩ }
    | throws _ => exact hself
  | _ => exact hself

theorem Runtime.mem_immediates_cancelEntry {entry : Nat} {im : Immediate Cb} :
    some im ∈ ((rt.cancelEntry entry).layer k).immediates ↔
      ∃ im₀, some im₀ ∈ (rt.layer k).immediates ∧
        (if im₀.entry = entry then { im₀ with cancelled := true } else im₀) = im := by
  simp [Runtime.cancelEntry, List.mem_map]

theorem Runtime.Sound.cancelEntry (h : rt.Sound) (entry : Nat) : (rt.cancelEntry entry).Sound where
  timers := h.timers
  immediates := by
    intro j im him
    obtain ⟨im₀, him₀, rfl⟩ := Runtime.mem_immediates_cancelEntry.mp him
    have hentry := h.immediates j im₀ him₀
    split <;> exact hentry
  ids_lt := h.ids_lt
  entries_lt := h.entries_lt
  apart := h.apart

end

theorem Runtime.Sound.call (h : rt.Sound) (k : Nat) (op : Op τ Cb) : (rt.call env k op).Sound := by
  unfold Runtime.call
  split
  · exact h.cancelEntry _
  · exact h.put (grows_applyOp _ op)

theorem Runtime.Sound.step (h : rt.Sound) (event : Event τ Cb) : (rt.step env event).Sound := by
  cases event with
  | install => exact { h with }
  | call k op =>
    rw [Runtime.step]
    split
    · exact h.call k op
    · exact h
  | enter k t =>
    rw [Runtime.step]
    split
    · exact h.put (grows_enter _ t)
    · exact h
  | leave k t ending =>
    rw [Runtime.step]
    split
    · exact h.put (grows_leave _ t ending)
    · exact h

omit [LinearOrder τ] [Add τ] [Zero τ] in
theorem Runtime.Sound.fresh : ({} : Runtime τ Cb).Sound where
  timers := nofun
  immediates := nofun
  ids_lt := nofun
  entries_lt := nofun
  apart := .nil

theorem Runtime.sound_after (env : Env τ Cb) (events : List (Event τ Cb)) :
    (Runtime.after env events).Sound :=
  List.foldlRecOn events _ .fresh fun _ h event _ => h.step event

/-! ## Which registrations a handle names -/

section

omit [LinearOrder τ] [Add τ] [Zero τ]

theorem Runtime.Sound.apart_of_lt (h : rt.Sound) {m n : Nat} (hlt : m < n)
    {a b : Nat × Handle} (hm : rt.registered[m]? = some a) (hn : rt.registered[n]? = some b) :
    Apart a b := by
  obtain ⟨hml, rfl⟩ := List.getElem?_eq_some_iff.mp hm
  obtain ⟨hnl, rfl⟩ := List.getElem?_eq_some_iff.mp hn
  exact List.pairwise_iff_getElem.mp h.apart m n hml hnl hlt

theorem Runtime.Sound.eq_of_not_apart (h : rt.Sound) {m n : Nat} {a b : Nat × Handle}
    (hm : rt.registered[m]? = some a) (hn : rt.registered[n]? = some b)
    (hab : ¬Apart a b) (hba : ¬Apart b a) : m = n := by
  rcases Nat.lt_trichotomy m n with hlt | heq | hlt
  · exact absurd (h.apart_of_lt hlt hm hn) hab
  · exact heq
  · exact absurd (h.apart_of_lt hlt hn hm) hba

/-- What is pending in a layer is pending for some registration. -/
theorem Runtime.Sound.exists_pending (h : rt.Sound) {id : Nat} {t : Timer τ Cb}
    (ht : (id, t) ∈ (rt.layer k).pendingTimers) :
    ∃ m, rt.registered[m]? = some (k, .timer id) ∧ rt.Pending m := by
  obtain ⟨m, hm⟩ := List.mem_iff_getElem?.mp (h.timers k (id, t) ht)
  exact ⟨m, hm, (k, .timer id), hm, t, ht⟩

end

/-! ## What the installed function cancels -/

/-- Clearing by an id takes that id from the map of the installed layer and leaves everything
else. -/
theorem Runtime.holds_clear_timer (rt : Runtime τ Cb) (id : Nat) (source : Nat × Handle) :
    (rt.call env rt.current (.clear (.timer id))).Holds source ↔
      rt.Holds source ∧ source ≠ (rt.current, .timer id) := by
  obtain ⟨k, handle⟩ := source
  have hcall : rt.call env rt.current (.clear (.timer id)) =
      rt.put rt.current (deleteTimer (rt.world rt.current) id) none := rfl
  rw [hcall]
  by_cases hk : k = rt.current
  · cases handle with
    | timer id' =>
      rw [hk, Runtime.Holds, Runtime.Holds, Runtime.layer_put_self]
      simp [deleteTimer, Runtime.world, List.mem_filter]
    | immediate entry =>
      rw [hk, Runtime.Holds, Runtime.Holds, Runtime.layer_put_self]
      simp [deleteTimer, Runtime.world]
  · have hne : (k, handle) ≠ (rt.current, .timer id) := fun h => hk (congrArg Prod.fst h)
    cases handle <;>
      simp only [Runtime.Holds, Runtime.layer_put_of_ne hk, ne_eq, hne, not_false_iff, and_true]

/-- Clearing by an entry cancels that entry, wherever it is. -/
theorem Runtime.holds_clear_immediate (rt : Runtime τ Cb) (entry : Nat) (source : Nat × Handle) :
    (rt.call env rt.current (.clear (.immediate entry))).Holds source ↔
      rt.Holds source ∧ source.2 ≠ .immediate entry := by
  obtain ⟨k, handle⟩ := source
  have hcall : rt.call env rt.current (.clear (.immediate entry)) = rt.cancelEntry entry := rfl
  rw [hcall]
  cases handle with
  | timer id => simp [Runtime.Holds, Runtime.cancelEntry]
  | immediate entry' =>
    simp only [Runtime.Holds, Runtime.mem_immediates_cancelEntry, ne_eq, Handle.immediate.injEq]
    constructor
    · rintro ⟨im, ⟨im₀, him₀, rfl⟩, hentry, hlive⟩
      split at hlive
      · cases hlive
      · next hne =>
          rw [if_neg hne] at hentry
          exact ⟨⟨im₀, him₀, hentry, hlive⟩, fun heq => hne (hentry.trans heq)⟩
    · rintro ⟨⟨im, him, hentry, hlive⟩, hne⟩
      exact ⟨im, ⟨im, him, if_neg fun heq => hne (hentry.symm.trans heq)⟩, hentry, hlive⟩

theorem Runtime.registered_clear (rt : Runtime τ Cb) (handle : Handle) :
    (rt.call env rt.current (.clear handle)).registered = rt.registered := by
  cases handle with
  | timer id => exact List.append_nil _
  | immediate entry => rfl

/-- A handle of a timer takes the timer with its id from the installed layer. -/
theorem Runtime.clearsOnly_timer_iff (h : rt.Sound) {n id : Nat}
    (hn : rt.registered[n]? = some (k, .timer id)) :
    rt.ClearsOnly env n ↔ k = rt.current ∨ ∀ t, (id, t) ∉ (rt.layer rt.current).pendingTimers := by
  have hclear : rt.clearTimeout env n = rt.call env rt.current (.clear (.timer id)) := by
    rw [Runtime.clearTimeout, hn]
  constructor
  · intro honly
    by_contra hcond
    obtain ⟨hk, hsome⟩ := not_or.mp hcond
    obtain ⟨t, ht⟩ := not_forall_not.mp hsome
    obtain ⟨m, hm, hpending⟩ := h.exists_pending ht
    have hgone : ¬(rt.clearTimeout env n).Pending m := by
      rintro ⟨source, hsource, hholds⟩
      rw [hclear, Runtime.registered_clear, hm] at hsource
      cases hsource
      rw [hclear, Runtime.holds_clear_timer] at hholds
      exact hholds.2 rfl
    obtain rfl := honly m hpending hgone
    rw [hm] at hn
    cases hn
    exact hk rfl
  · rintro hcond m ⟨source, hm, hholds⟩ hgone
    have hsource : source = (rt.current, .timer id) := by
      by_contra hne
      refine hgone ⟨source, ?_, ?_⟩
      · rw [hclear, Runtime.registered_clear]
        exact hm
      · rw [hclear, Runtime.holds_clear_timer]
        exact ⟨hholds, hne⟩
    subst hsource
    rcases hcond with rfl | hnone
    · exact h.eq_of_not_apart hm hn (by simp [Apart]) (by simp [Apart])
    · obtain ⟨t, ht⟩ := hholds
      exact absurd ht (hnone t)

theorem Runtime.clearsOnly_immediate (h : rt.Sound) {n entry : Nat}
    (hn : rt.registered[n]? = some (k, .immediate entry)) : rt.ClearsOnly env n := by
  have hclear : rt.clearTimeout env n = rt.call env rt.current (.clear (.immediate entry)) := by
    rw [Runtime.clearTimeout, hn]
  rintro m ⟨⟨j, handle⟩, hm, hholds⟩ hgone
  have hhandle : handle = .immediate entry := by
    by_contra hne
    refine hgone ⟨(j, handle), ?_, ?_⟩
    · rw [hclear, Runtime.registered_clear]
      exact hm
    · rw [hclear, Runtime.holds_clear_immediate]
      exact ⟨hholds, hne⟩
  subst hhandle
  exact h.eq_of_not_apart hm hn (by simp [Apart]) (by simp [Apart])

/-- After any run, the installed `clearTimeout` with the handle of any registration cancels no
timer of another registration exactly if the handle is not mistaken for one of the installed
layer. -/
theorem Runtime.clearsOnly_iff (env : Env τ Cb) (events : List (Event τ Cb)) (n : Nat) :
    (Runtime.after env events).ClearsOnly env n ↔ (Runtime.after env events).Unmistaken n := by
  have hsound := Runtime.sound_after env events
  generalize Runtime.after env events = rt at hsound ⊢
  cases hn : rt.registered[n]? with
  | none =>
    have hclear : rt.clearTimeout env n = rt := by rw [Runtime.clearTimeout, hn]
    refine iff_of_true ?_ ?_
    · intro m hpending hgone
      rw [hclear] at hgone
      exact absurd hpending hgone
    · intro k id hid
      rw [hn] at hid
      cases hid
  | some source =>
    obtain ⟨k, handle⟩ := source
    cases handle with
    | timer id =>
      rw [Runtime.clearsOnly_timer_iff hsound hn]
      constructor
      · intro hcond k' id' hid
        rw [hn] at hid
        cases hid
        exact hcond
      · exact fun hcond => hcond k id hn
    | immediate entry =>
      refine iff_of_true (Runtime.clearsOnly_immediate hsound hn) ?_
      intro k' id' hid
      rw [hn] at hid
      cases hid

/-- A clock that stands still, and callbacks that do nothing. -/
def reinstalledEnv : Env Nat Nat where
  now _ := 0
  elapsed _ := 0
  behave _ _ := ⟨[], .returns⟩
  isFinite _ := true
  maxTimerCallbacks := 1000
  autoDrainMicrotasks := true

/-- Two installations, each followed by a `setTimeout(fn, 5)`. -/
def reinstalled : Runtime Nat Nat :=
  Runtime.after reinstalledEnv
    [.install, .call 0 (.setTimeout 0 (some 5)), .install, .call 1 (.setTimeout 1 (some 5))]

/-- A script keeps the handle of a timer, the host installs again and the script starts another
timer: the counter has started again at one, and clearing with the kept handle cancels the new
timer. -/
theorem Runtime.kept_handle_clears_new_timer :
    reinstalled.registered = [(0, .timer 1), (1, .timer 1)] ∧ reinstalled.Pending 1 ∧
      ¬(reinstalled.clearTimeout reinstalledEnv 0).Pending 1 ∧
      ¬reinstalled.ClearsOnly reinstalledEnv 0 := by
  have hlayer : (reinstalled.layer 1).pendingTimers = [(1, ⟨1, 0, 5, false, false⟩)] := by
    decide
  have hpending : reinstalled.Pending 1 :=
    ⟨(1, .timer 1), rfl, ⟨1, 0, 5, false, false⟩, hlayer ▸ List.mem_singleton.mpr rfl⟩
  have hgone : ¬(reinstalled.clearTimeout reinstalledEnv 0).Pending 1 := by
    rintro ⟨source, hsource, hholds⟩
    cases hsource
    obtain ⟨t, ht⟩ := hholds
    cases ht
  exact ⟨rfl, hpending, hgone, fun honly => absurd (honly 1 hpending hgone) (by decide)⟩

end Timers
