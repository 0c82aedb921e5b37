import QuickjsRuntime.Timers.Turns

/-! # Calls within a run, and the numbers of timers and immediates

What holds of every state of a run is shown for one call and for the parts of a turn (`Kept`).
What a call and a turn do to the two queues is said once for each. The first invariant is that
ids and entries are never used again.
-/

namespace Timers

open Transition (Follows follows_append follows_iff_split)

variable {τ Cb : Type} [LinearOrder τ] [Add τ] [Zero τ] {env : Env τ Cb} {w w' : World τ Cb}
  {ts : List (Turn τ Cb)}

/-! ## Calls within a run -/

/-- A call that is made in a run: the turn that makes it, and the turns and calls around it. -/
structure Call (env : Env τ Cb) (w : World τ Cb) (ts : List (Turn τ Cb)) where
  before : List (Turn τ Cb)
  turn : Turn τ Cb
  after : List (Turn τ Cb)
  opsBefore : List (Op τ Cb)
  op : Op τ Cb
  opsAfter : List (Op τ Cb)
  turns_eq : ts = before ++ turn :: after
  ops_eq : (turn.act env (before.foldl (Turn.apply env) w)).ops = opsBefore ++ op :: opsAfter

/-- The state in which the call is made. -/
def Call.state {ts : List (Turn τ Cb)} (c : Call env w ts) : World τ Cb :=
  c.opsBefore.foldl (applyOp env) (c.turn.enter env (c.before.foldl (Turn.apply env) w))

/-- The state after the call. -/
def Call.result {ts : List (Turn τ Cb)} (c : Call env w ts) : World τ Cb :=
  applyOp env c.state c.op

/-- The state after the turn that makes the call. -/
def Call.next {ts : List (Turn τ Cb)} (c : Call env w ts) : World τ Cb :=
  c.turn.apply env (c.before.foldl (Turn.apply env) w)

theorem Call.follows {enabled : World τ Cb → Turn τ Cb → Prop}
    (c : Call env w ts) (h : Follows (Turn.apply env) enabled w ts) :
    Follows (Turn.apply env) enabled w c.before ∧
      enabled (c.before.foldl (Turn.apply env) w) c.turn ∧
      Follows (Turn.apply env) enabled c.next c.after := by
  rw [c.turns_eq, follows_append] at h
  exact h

theorem Call.foldl_after (c : Call env w ts) :
    c.after.foldl (Turn.apply env) c.next = ts.foldl (Turn.apply env) w := by
  have hts := congrArg (List.foldl (Turn.apply env) w) c.turns_eq
  rw [hts, List.foldl_append, List.foldl_cons, Call.next]

/-- What holds of every call of a run, turn by turn. -/
theorem forall_call_iff {P : Turn τ Cb → World τ Cb → World τ Cb → Op τ Cb → Prop} :
    (∀ c : Call env w ts, P c.turn (c.before.foldl (Turn.apply env) w) c.state c.op) ↔
      Follows (Turn.apply env)
        (fun v t => Follows (applyOp env) (P t v) (t.enter env v) (t.act env v).ops) w ts := by
  simp only [follows_iff_split]
  constructor
  · intro h before t after hts opsBefore op opsAfter hops
    exact h ⟨before, t, after, opsBefore, op, opsAfter, hts, hops⟩
  · intro h c
    exact h c.before c.turn c.after c.turns_eq c.opsBefore c.op c.opsAfter c.ops_eq

/-- A property of states that no call destroys, and that does not need an immediate. -/
structure KeptByCalls (env : Env τ Cb) (P : World τ Cb → Prop) : Prop where
  op : ∀ w op, P w → P (applyOp env w op)
  consume : ∀ w slot, P w → P { w with immediates := w.immediates.set slot none }

/-- A property of states that no call and no part of a turn destroys. -/
structure Kept (env : Env τ Cb) (P : World τ Cb → Prop) : Prop extends KeptByCalls env P where
  enter : ∀ (w) (t : Turn τ Cb), t.Enabled env w → P w → P (t.enter env w)

section Kept

variable {P Q : World τ Cb → Prop}

theorem KeptByCalls.ops (h : KeptByCalls env P) (ops : List (Op τ Cb)) (hw : P w) :
    P (ops.foldl (applyOp env) w) :=
  applyOps_rule P (fun op _ v hv => h.op v op hv) hw

theorem KeptByCalls.leave (h : KeptByCalls env P) (t : Turn τ Cb) (ending : Ending) (hw : P w) :
    P (t.leave ending w) := by
  cases t with
  | immediate slot im =>
    cases ending with
    | returns => exact h.consume w slot hw
    | throws text => exact hw
  | _ => exact hw

/-- What holds after a call and is kept holds at the end of the turn. -/
theorem KeptByCalls.call_next (h : KeptByCalls env P) (c : Call env w ts)
    (hresult : P c.result) : P c.next := by
  rw [Call.next, Turn.apply, c.ops_eq, List.foldl_append, List.foldl_cons]
  exact h.leave _ _ (h.ops _ hresult)

theorem Kept.apply (h : Kept env P) {t : Turn τ Cb} (ht : t.Enabled env w) (hw : P w) :
    P (t.apply env w) :=
  h.leave t _ (h.ops _ (h.enter w t ht hw))

theorem Kept.leads (h : Kept env P) (hleads : Leads env w ts w') (hw : P w) : P w' := by
  rw [← hleads.2]
  exact hleads.1.invariant P (fun v t hv ht => h.apply ht hv) hw

/-- A property that is kept holds where a call is made. -/
theorem Kept.call_state (h : Kept env P) (c : Call env w ts)
    (hleads : Leads env w ts w') (hw : P w) : P c.state := by
  obtain ⟨hbefore, hturn, -⟩ := c.follows hleads.1
  exact h.ops _ (h.enter _ _ hturn (h.leads ⟨hbefore, rfl⟩ hw))

/-- What holds after a call and is kept holds at the end of the run. -/
theorem Kept.of_call (h : Kept env P) (c : Call env w ts)
    (hleads : Leads env w ts w') (hresult : P c.result) : P w' := by
  obtain ⟨-, -, hafter⟩ := c.follows hleads.1
  exact h.leads ⟨hafter, c.foldl_after.trans hleads.2⟩ (h.call_next c hresult)

end Kept

/-! ## What a turn does to the queues -/

section

omit [LinearOrder τ] [Zero τ]

/-- A timer that is pending when the calls of a turn begin was pending before and does not
fire, or is the interval that fires, armed again. -/
theorem mem_pendingTimers_enter {t : Turn τ Cb} {p : Nat × Timer τ Cb}
    (hp : p ∈ (t.enter env w).pendingTimers) :
    p ∈ w.pendingTimers ∧ (∀ t₀, t ≠ .timer p.1 t₀) ∨
      ∃ t₀ t₁, t = .timer p.1 t₀ ∧ t₀.repeats = true ∧ (p.1, t₁) ∈ w.pendingTimers ∧
        p.2 = { t₁ with due := env.now w.reads + t₁.ms } := by
  cases t with
  | timer id t₀ =>
    rcases mem_rearm hp with ⟨hp, hid⟩ | ⟨t₁, hrepeats, ht₁, rfl⟩
    · refine .inl ⟨hp, ?_⟩
      rintro t₁ ⟨⟩
      exact hid rfl
    · exact .inr ⟨t₀, t₁, rfl, hrepeats, ht₁, rfl⟩
  | script | start | immediate | sweep | idle | reaction => exact .inl ⟨hp, fun _ => nofun⟩

/-- No slot is added before the calls of a turn begin. -/
theorem slots_enter (env : Env τ Cb) (w : World τ Cb) (t : Turn τ Cb) :
    List.Sublist (t.enter env w).immediates w.immediates := by
  cases t with
  | sweep => exact List.filter_sublist
  | timer id t₀ =>
    simp only [Turn.enter, started, rearm]
    split <;> exact List.Sublist.refl _
  | _ => exact List.Sublist.refl _

theorem mem_immediates_enter {t : Turn τ Cb} {im : Immediate Cb}
    (him : some im ∈ (t.enter env w).immediates) : some im ∈ w.immediates :=
  (slots_enter env w t).subset him

end

omit [LinearOrder τ] [Add τ] [Zero τ] in
theorem mem_immediates_consume {slot : Nat} {im : Immediate Cb}
    (him : some im ∈ w.immediates.set slot none) : some im ∈ w.immediates := by
  rcases List.mem_or_eq_of_mem_set him with h | h
  · exact h
  · cases h

omit [LinearOrder τ] [Zero τ] in
/-- The counters when the calls of a turn begin, and the invocation that is recorded. -/
theorem counters_enter (env : Env τ Cb) (w : World τ Cb) (t : Turn τ Cb) :
    (t.enter env w).timerSeq = w.timerSeq ∧ (t.enter env w).entries = w.entries ∧
      ((t.source = none ∧ (t.enter env w).invocations = w.invocations) ∨
        ∃ source fn, t.source = some source ∧
          (t.enter env w).invocations = ⟨w.calls, source, fn⟩ :: w.invocations) := by
  cases t with
  | timer id t₀ =>
    simp only [Turn.enter, started, rearm, readClock]
    split
    · exact ⟨rfl, rfl, .inr ⟨_, _, rfl, rfl⟩⟩
    · exact ⟨rfl, rfl, .inr ⟨_, _, rfl, rfl⟩⟩
  | immediate | reaction => exact ⟨rfl, rfl, .inr ⟨_, _, rfl, rfl⟩⟩
  | script | start | sweep | idle => exact ⟨rfl, rfl, .inl ⟨rfl, rfl⟩⟩

/-! ## Numbers are used once -/

/-- Timers and immediates stand in the order of their numbers, and all numbers in use are below
the counters. -/
structure Numbered (w : World τ Cb) : Prop where
  ids_lt : ∀ p ∈ w.pendingTimers, p.1 < w.timerSeq
  ids_increasing : (w.pendingTimers.map Prod.fst).Pairwise (· < ·)
  entries_lt : ∀ im, some im ∈ w.immediates → im.entry < w.entries
  entries_increasing : w.immediates.Pairwise fun a b =>
    ∀ im, a = some im → ∀ im', b = some im' → im.entry < im'.entry
  invoked_lt : ∀ inv ∈ w.invocations,
    (∀ id, inv.source = .timer id → id < w.timerSeq) ∧
      ∀ entry, inv.source = .immediate entry → entry < w.entries

omit [LinearOrder τ] [Add τ] [Zero τ] in
theorem numbered_initial : Numbered ({} : World τ Cb) where
  ids_lt := by simp
  ids_increasing := List.Pairwise.nil
  entries_lt := by simp
  entries_increasing := List.Pairwise.nil
  invoked_lt := by simp

omit [LinearOrder τ] [Add τ] [Zero τ] in
theorem ids_updateTimer (w : World τ Cb) (id : Nat) (f : Timer τ Cb → Timer τ Cb) :
    (updateTimer w id f).pendingTimers.map Prod.fst = w.pendingTimers.map Prod.fst := by
  rw [updateTimer, List.map_map]
  apply List.map_congr_left
  intro p _
  rw [Function.comp]
  split <;> rfl

/-- The ids after a call: those before it in the same order, perhaps with a new one behind. -/
theorem ids_applyOp (w : World τ Cb) (op : Op τ Cb) :
    List.Sublist ((applyOp env w op).pendingTimers.map Prod.fst)
      (w.pendingTimers.map Prod.fst ++ [w.timerSeq]) := by
  have hsame : List.Sublist (w.pendingTimers.map Prod.fst)
      (w.pendingTimers.map Prod.fst ++ [w.timerSeq]) := List.sublist_append_left _ _
  cases op with
  | setTimeout | setInterval => simp [applyOp, addTimer, readClock]
  | clear handle =>
    cases handle with
    | timer id => exact (List.filter_sublist.map _).trans hsame
    | immediate entry => exact hsame
  | ref id | unref id =>
    rw [applyOp, ids_updateTimer]
    exact hsame
  | refresh id =>
    rw [applyOp, refresh]
    split
    · rw [ids_updateTimer]
      exact hsame
    · exact hsame
  | setImmediate | queueJob => exact hsame

omit [LinearOrder τ] [Zero τ] in
theorem ids_enter (w : World τ Cb) (t : Turn τ Cb) :
    List.Sublist ((t.enter env w).pendingTimers.map Prod.fst) (w.pendingTimers.map Prod.fst) := by
  cases t with
  | timer id t₀ =>
    simp only [Turn.enter, started, rearm]
    split
    · rw [ids_updateTimer]
      exact List.Sublist.refl _
    · exact List.filter_sublist.map _
  | _ => exact List.Sublist.refl _

theorem Numbered.applyOp (h : Numbered w) (op : Op τ Cb) : Numbered (applyOp env w op) := by
  obtain ⟨hseq, hentries, hinvocations⟩ := counters_applyOp env w op
  have hseq' := timerSeq_le_applyOp env w op
  constructor
  case ids_lt =>
    intro p hp
    rcases mem_pendingTimers_applyOp hp with ⟨hp, -⟩ | ⟨fn, ms, repeats, hop, rfl⟩ |
        ⟨t, unref, -, ht, -⟩ | ⟨t, -, ht, -⟩
    · exact Nat.lt_of_lt_of_le (h.ids_lt p hp) hseq'
    · rw [hop] at hseq
      exact hseq ▸ Nat.lt_succ_self _
    · exact Nat.lt_of_lt_of_le (h.ids_lt (p.1, t) ht) hseq'
    · exact Nat.lt_of_lt_of_le (h.ids_lt (p.1, t) ht) hseq'
  case ids_increasing =>
    apply List.Pairwise.sublist (ids_applyOp w op)
    rw [List.pairwise_append]
    refine ⟨h.ids_increasing, List.pairwise_singleton _ _, ?_⟩
    intro id hid id' hid'
    obtain ⟨p, hp, rfl⟩ := List.mem_map.mp hid
    rw [List.mem_singleton.mp hid']
    exact h.ids_lt p hp
  case entries_lt =>
    intro im him
    rcases mem_immediates_applyOp him with him | ⟨fn, rfl, rfl⟩ | ⟨im₀, him₀, -, rfl⟩
    · exact Nat.lt_of_lt_of_le (h.entries_lt im him) hentries
    · exact Nat.lt_succ_self _
    · exact Nat.lt_of_lt_of_le (h.entries_lt im₀ him₀) hentries
  case entries_increasing =>
    obtain ⟨f, hf, hslots⟩ := slots_applyOp env w op
    have hold : (w.immediates.map (Option.map f)).Pairwise fun a b =>
        ∀ im, a = some im → ∀ im', b = some im' → im.entry < im'.entry := by
      rw [List.pairwise_map]
      apply h.entries_increasing.imp
      rintro a b hab im him im' him'
      obtain ⟨x, rfl, rfl⟩ := Option.map_eq_some_iff.mp him
      obtain ⟨y, rfl, rfl⟩ := Option.map_eq_some_iff.mp him'
      rw [(hf x).1, (hf y).1]
      exact hab x rfl y rfl
    rcases hslots with ⟨hslots, -⟩ | ⟨fn, hslots, -⟩
    · rw [hslots]
      exact hold
    · rw [hslots, List.pairwise_append]
      refine ⟨hold, List.pairwise_singleton _ _, ?_⟩
      rintro a ha b hb im rfl im' rfl
      obtain ⟨slot, hslot, hmap⟩ := List.mem_map.mp ha
      obtain ⟨x, rfl, rfl⟩ := Option.map_eq_some_iff.mp hmap
      rw [(hf x).1]
      cases List.mem_singleton.mp hb
      exact h.entries_lt x hslot
  case invoked_lt =>
    intro inv hinv
    rw [hinvocations] at hinv
    obtain ⟨htimer, himmediate⟩ := h.invoked_lt inv hinv
    exact ⟨fun id hid => Nat.lt_of_lt_of_le (htimer id hid) hseq',
      fun entry hentry => Nat.lt_of_lt_of_le (himmediate entry hentry) hentries⟩

omit [Zero τ] in
theorem Numbered.enter (h : Numbered w) {t : Turn τ Cb} (ht : t.Enabled env w) :
    Numbered (t.enter env w) := by
  obtain ⟨hseq, hentries, hinvocations⟩ := counters_enter env w t
  constructor
  case ids_lt =>
    intro p hp
    rw [hseq]
    rcases mem_pendingTimers_enter hp with ⟨hp, -⟩ | ⟨-, t₁, -, -, ht₁, -⟩
    · exact h.ids_lt p hp
    · exact h.ids_lt (p.1, t₁) ht₁
  case ids_increasing => exact h.ids_increasing.sublist (ids_enter w t)
  case entries_lt =>
    intro im him
    rw [hentries]
    exact h.entries_lt im (mem_immediates_enter him)
  case entries_increasing => exact h.entries_increasing.sublist (slots_enter env w t)
  case invoked_lt =>
    rw [hseq, hentries]
    rcases hinvocations with ⟨-, hsame⟩ | ⟨source, fn, hsource, hnew⟩
    · rw [hsame]
      exact h.invoked_lt
    · rw [hnew]
      simp only [List.forall_mem_cons]
      refine ⟨?_, h.invoked_lt⟩
      -- the callback that is invoked is that of a pending timer or of a queued immediate
      cases t with
      | timer id t₀ =>
        cases hsource
        refine ⟨?_, fun _ h => (nomatch h)⟩
        rintro id' ⟨⟩
        exact h.ids_lt _ (bestDue_mem ht)
      | immediate slot im =>
        cases hsource
        refine ⟨fun _ h => (nomatch h), ?_⟩
        rintro entry ⟨⟩
        exact h.entries_lt im (List.mem_of_getElem? ht.1)
      | reaction job =>
        cases hsource
        exact ⟨fun _ h => (nomatch h), fun _ h => (nomatch h)⟩
      | script | start | sweep | idle => cases hsource

theorem kept_numbered (env : Env τ Cb) : Kept env Numbered where
  op _ op h := h.applyOp op
  enter _ _ ht h := h.enter ht
  consume w slot h := by
    refine ⟨h.ids_lt, h.ids_increasing, fun im him => h.entries_lt im (mem_immediates_consume him),
      ?_, h.invoked_lt⟩
    have hincreasing := h.entries_increasing
    rw [List.pairwise_iff_getElem] at hincreasing ⊢
    intro i j hi hj hij im him im' him'
    rw [List.getElem_set] at him him'
    split at him
    · cases him
    split at him'
    · cases him'
    exact hincreasing i j _ _ hij im him im' him'

/-- What every turn of a kind keeps, from a state with numbers in order, holds at the end. -/
theorem Leads.rule {P : World τ Cb → Prop} {kind : World τ Cb → Turn τ Cb → Prop}
    (hleads : Leads env w ts w')
    (hkind : Follows (Turn.apply env) kind w ts) (hnumbered : Numbered w)
    (hstep : ∀ v t, Numbered v → t.Enabled env v → kind v t → P v → P (t.apply env v))
    (hw : P w) : P w' := by
  rw [← hleads.2]
  refine ((hleads.1.and hkind).invariant (fun v => Numbered v ∧ P v) ?_ ⟨hnumbered, hw⟩).2
  rintro v t ⟨hv, hP⟩ ⟨ht, hkind⟩
  exact ⟨(kept_numbered env).apply ht hv, hstep v t hv ht hkind hP⟩

theorem numbered_run (env : Env τ Cb) (moves : List (Move τ Cb)) : Numbered (run env {} moves) :=
  (kept_numbered env).leads (leads_turns env {} moves) numbered_initial

omit [LinearOrder τ] [Add τ] [Zero τ] in
/-- What is left in the queue when a slot is set to null stands before that slot with a smaller
entry, or behind it with a greater one. -/
theorem Numbered.of_mem_consumed (h : Numbered w) {slot : Nat} {im im' : Immediate Cb}
    (hslot : w.immediates[slot]? = some (some im)) (him' : some im' ∈ w.immediates.set slot none) :
    ∃ k, w.immediates[k]? = some (some im') ∧
      (slot < k ∧ im.entry < im'.entry ∨ k < slot ∧ im'.entry < im.entry) := by
  obtain ⟨hlt, hget⟩ := List.getElem?_eq_some_iff.mp hslot
  obtain ⟨k, hk, hget'⟩ := List.getElem_of_mem him'
  rw [List.getElem_set] at hget'
  split at hget'
  next => cases hget'
  next hne =>
    have hk' : k < w.immediates.length := by simpa using hk
    have hincreasing := List.pairwise_iff_getElem.mp h.entries_increasing
    refine ⟨k, List.getElem?_eq_some_iff.mpr ⟨hk', hget'⟩, ?_⟩
    rcases Nat.lt_or_gt_of_ne hne with hafter | hbefore
    · exact .inl ⟨hafter, hincreasing slot k hlt hk' hafter im hget im' hget'⟩
    · exact .inr ⟨hbefore, hincreasing k slot hk' hlt hbefore im' hget' im hget⟩

/-- A slot keeps its entry through the calls of a callback. -/
theorem slot_entry_ops (env : Env τ Cb) (w : World τ Cb) {slot entry : Nat} (ops : List (Op τ Cb))
    (hslot : ∃ im, w.immediates[slot]? = some (some im) ∧ im.entry = entry) :
    ∃ im, (ops.foldl (applyOp env) w).immediates[slot]? = some (some im) ∧ im.entry = entry := by
  refine applyOps_rule (fun w => ∃ im, w.immediates[slot]? = some (some im) ∧ im.entry = entry)
    ?_ hslot
  rintro op - v ⟨im, hget, hentry⟩
  obtain ⟨f, hf, hslots⟩ := slots_applyOp env v op
  have hmap : (v.immediates.map (Option.map f))[slot]? = some (some (f im)) := by
    rw [List.getElem?_map, hget]
    rfl
  refine ⟨f im, ?_, (hf im).1.trans hentry⟩
  rcases hslots with ⟨hslots, -⟩ | ⟨fn, hslots, -⟩
  · rw [hslots, hmap]
  · rw [hslots, List.getElem?_append_left (List.getElem?_eq_some_iff.mp hmap).1, hmap]

end Timers
