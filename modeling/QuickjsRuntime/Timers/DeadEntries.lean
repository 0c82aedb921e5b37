import Mathlib.Data.Set.Card
import QuickjsRuntime.Timers.FiringOrder
import QuickjsRuntime.Timers.Lifetimes

/-! # What stays in the queue of immediates

An immediate leaves the queue by its slot being set to null; `__ncTimerDrain` filters the null
slots out after its first loop. `__clear` only sets a flag, and nothing removes a flagged entry:
it is passed over in every later pass and stands in the queue for ever. The queue is exact after
a pass when no immediate of the run was cancelled while it was pending, except by its own
callback, whose slot is set to null when it returns.
-/

namespace Timers

open Transition (Follows follows_append follows_iff_split)

variable {τ Cb : Type} [LinearOrder τ] [Add τ] [Zero τ] {env : Env τ Cb} {w w' : World τ Cb}
  {ts : List (Turn τ Cb)}

/-- A call of the run has cleared the handle of the immediate. -/
def Cancelled (env : Env τ Cb) (ts : List (Turn τ Cb)) (entry : Nat) : Prop :=
  ∃ c : Call env {} ts, c.op = .clear (.immediate entry) ∧ (Handle.immediate entry).Issued c.state

/-- The immediates of the run that are still to be run. -/
def unrun (env : Env τ Cb) (ts : List (Turn τ Cb)) (w' : World τ Cb) : Set Nat :=
  {entry | (Handle.immediate entry).Issued w' ∧ invoked (.immediate entry) w' = 0 ∧
    ¬ Cancelled env ts entry}

/-- After the turns of a run that ends in `w'` the queue holds the immediates that have been
neither run nor cancelled, and nothing else; it is as long as there are such immediates, and
this is their part in the pending count. -/
structure NoDeadEntries (env : Env τ Cb) (ts : List (Turn τ Cb)) (w' : World τ Cb) : Prop where
  filled : none ∉ w'.immediates
  exact : ∀ entry, (∃ im, some im ∈ w'.immediates ∧ im.entry = entry) ↔ entry ∈ unrun env ts w'
  length_eq : w'.immediates.length = (unrun env ts w').ncard
  counted : ncTimerPendingCount w' = w'.pendingTimers.length + w'.immediates.length

/-- A call that clears an immediate finds nothing left of it, or comes from its own callback,
which returns. The turn `t` that makes the call begins in `v`, the call is made in `w`. -/
def Op.Tidy (env : Env τ Cb) (t : Turn τ Cb) (v w : World τ Cb) : Op τ Cb → Prop
  | .clear (.immediate entry) =>
    (Handle.immediate entry).Gone w ∨ t.entry = some entry ∧ t.Returns env v
  | _ => True

def Call.Tidy {ts : List (Turn τ Cb)} (c : Call env w ts) : Prop :=
  c.op.Tidy env c.turn (c.before.foldl (Turn.apply env) w) c.state

/-- All calls of the turn are tidy. -/
def Turn.Tidy (env : Env τ Cb) (v : World τ Cb) (t : Turn τ Cb) : Prop :=
  Follows (applyOp env) (Op.Tidy env t v) (t.enter env v) (t.act env v).ops

theorem forall_tidy_iff :
    (∀ c : Call env w ts, c.Tidy) ↔ Follows (Turn.apply env) (Turn.Tidy env) w ts :=
  forall_call_iff

omit [LinearOrder τ] [Add τ] [Zero τ] in
theorem source_eq_iff {t : Turn τ Cb} {entry : Nat} :
    t.source = some (.immediate entry) ↔ t.entry = some entry := by
  cases t <;> simp [Turn.source, Turn.entry]

/-! ## Nothing in the queue is cancelled -/

/-- No immediate in the queue is cancelled. -/
def Clean (w : World τ Cb) : Prop := ∀ im, some im ∈ w.immediates → im.cancelled = false

/-- Within a turn that begins in `v`, only its own immediate is cancelled, and that slot is
about to be set to null. -/
def CleanBut (env : Env τ Cb) (t : Turn τ Cb) (v w : World τ Cb) : Prop :=
  ∀ im, some im ∈ w.immediates → im.cancelled = true → t.entry = some im.entry ∧ t.Returns env v

theorem CleanBut.applyOp {t : Turn τ Cb} {v : World τ Cb} {op : Op τ Cb}
    (h : CleanBut env t v w) (hop : op.Tidy env t v w) : CleanBut env t v (applyOp env w op) := by
  intro im him hcancelled
  rcases mem_immediates_applyOp him with him | ⟨fn, -, rfl⟩ | ⟨im₀, him₀, rfl, rfl⟩
  · exact h im him hcancelled
  · cases hcancelled
  · rcases hop with hgone | hown
    · exact h im₀ him₀ (hgone im₀ him₀ rfl)
    · exact hown

omit [LinearOrder τ] [Add τ] [Zero τ] in
theorem mem_immediates_leave {t : Turn τ Cb} {ending : Ending} {im : Immediate Cb}
    (him : some im ∈ (t.leave ending w).immediates) : some im ∈ w.immediates := by
  cases t with
  | immediate slot im₀ =>
    cases ending with
    | returns => exact mem_immediates_consume him
    | throws text => exact him
  | script | start | timer | sweep | idle | reaction => exact him

/-- The run stays clean through turns whose calls are tidy. -/
theorem Clean.apply {t : Turn τ Cb} (h : Clean w) (hnumbered : Numbered w)
    (ht : t.Enabled env w) (htidy : t.Tidy env w) : Clean (t.apply env w) := by
  have henter : CleanBut env t w (t.enter env w) := by
    intro im him hcancelled
    rw [h im (mem_immediates_enter him)] at hcancelled
    cases hcancelled
  have hops := Follows.invariant (CleanBut env t w) (fun _ _ hv hop => hv.applyOp hop) htidy henter
  intro im him
  rw [← Bool.not_eq_true]
  intro hcancelled
  obtain ⟨hentry, hreturns⟩ := hops im (mem_immediates_leave him) hcancelled
  cases t with
  | immediate slot im₀ =>
    -- the slot that is set to null is the only one with this entry
    obtain ⟨im', hslot, hentry'⟩ := slot_entry_ops env ((Turn.immediate slot im₀).enter env w)
      ((Turn.immediate slot im₀).act env w).ops ⟨im₀, ht.1, rfl⟩
    rw [Turn.apply, hreturns] at him
    have hafter := (kept_numbered env).ops ((Turn.immediate slot im₀).act env w).ops
      (hnumbered.enter ht)
    obtain ⟨k, -, hcases⟩ := hafter.of_mem_consumed hslot him
    have hsame : im₀.entry = im.entry := Option.some.inj hentry
    omega
  | script | start | timer | sweep | idle | reaction => cases hentry

theorem Clean.leads (h : Clean w) (hnumbered : Numbered w)
    (hleads : Leads env w ts w') (htidy : Follows (Turn.apply env) (Turn.Tidy env) w ts) :
    Clean w' :=
  hleads.rule htidy hnumbered (fun _ _ hv ht htidy hclean => hclean.apply hv ht htidy) h

/-! ## Nothing in the queue has run -/

/-- Every slot holds an immediate that has not run. -/
def Fresh (w : World τ Cb) : Prop :=
  ∀ slot ∈ w.immediates, ∃ im, slot = some im ∧ invoked (.immediate im.entry) w = 0

theorem Fresh.applyOp (h : Fresh w) (hnumbered : Numbered w) (op : Op τ Cb) :
    Fresh (applyOp env w op) := by
  obtain ⟨f, hf, hslots⟩ := slots_applyOp env w op
  have hold : ∀ slot ∈ w.immediates.map (Option.map f),
      ∃ im, slot = some im ∧ invoked (.immediate im.entry) w = 0 := by
    intro slot hslot
    obtain ⟨slot₀, hslot₀, rfl⟩ := List.mem_map.mp hslot
    obtain ⟨im, rfl, hzero⟩ := h slot₀ hslot₀
    refine ⟨f im, rfl, ?_⟩
    rw [(hf im).1]
    exact hzero
  intro slot hslot
  simp only [invoked_applyOp]
  rcases hslots with ⟨hslots, -⟩ | ⟨fn, hslots, -⟩
  · exact hold slot (hslots ▸ hslot)
  · rw [hslots, List.mem_append, List.mem_singleton] at hslot
    rcases hslot with hslot | rfl
    · exact hold slot hslot
    · -- the entry of a new immediate has not been used before
      exact ⟨_, rfl, hnumbered.invoked_eq_zero (h := .immediate w.entries) (Nat.lt_irrefl _)⟩

theorem Fresh.apply {t : Turn τ Cb} (h : Fresh w) (hnumbered : Numbered w)
    (ht : t.Enabled env w) (hentry : t.entry = none) : Fresh (t.apply env w) := by
  have henter : Fresh (t.enter env w) := by
    intro slot hslot
    obtain ⟨im, rfl, hzero⟩ := h slot ((slots_enter env w t).subset hslot)
    refine ⟨im, rfl, ?_⟩
    have hsource : t.source ≠ some (.immediate im.entry) := by
      rw [ne_eq, source_eq_iff, hentry]
      nofun
    rw [invoked_enter, hzero, if_neg hsource]
  have hops : Numbered ((t.act env w).ops.foldl (Timers.applyOp env) (t.enter env w)) ∧
      Fresh ((t.act env w).ops.foldl (Timers.applyOp env) (t.enter env w)) :=
    applyOps_rule (fun v => Numbered v ∧ Fresh v)
      (fun op _ _ hv => ⟨hv.1.applyOp op, hv.2.applyOp hv.1 op⟩) ⟨hnumbered.enter ht, henter⟩
  cases t with
  | immediate slot im => cases hentry
  | script | start | timer | sweep | idle | reaction => exact hops.2

theorem Fresh.leads (h : Fresh w) (hnumbered : Numbered w)
    (hleads : Leads env w ts w') (hentry : ∀ t ∈ ts, t.entry = none) : Fresh w' := by
  have hother : Follows (Turn.apply env) (fun _ t => t.entry = none) w ts := by
    rw [follows_iff_split]
    rintro before t after rfl
    exact hentry t (by simp)
  exact hleads.rule hother hnumbered (fun _ _ hv ht hnone hfresh => hfresh.apply hv ht hnone) h

/-- After a pass over a clean queue no slot is null and nothing in the queue has run: the first
loop and the filter empty the queue, and what the callbacks of timers add to it stays. -/
theorem fresh_of_pass (hnumbered : Numbered w) {ran : Nat} {nextDue : Option τ}
    (h : ncTimerDrain env w = (.ok ⟨ran, false, nextDue⟩, w')) (hclean : Clean w)
    (htidy : Follows (Turn.apply env) (Turn.Tidy env) w (passTurns env w)) : Fresh w' := by
  obtain ⟨ran₁, w₁, himmediates, htimers, -⟩ := ncTimerDrain_uncapped h
  change runTimers env (env.maxTimerCallbacks - ran₁) ran₁ (Turn.sweep.apply env w₁) = _ at htimers
  have hfirst : Leads env w (.start ::
      immediateTurns env env.maxTimerCallbacks 0 { w with passStart := w.calls }) w₁ := by
    have hloop : Leads env { w with passStart := w.calls }
        (immediateTurns env env.maxTimerCallbacks 0 { w with passStart := w.calls }) _ :=
      leads_immediateTurns env.maxTimerCallbacks 0 0 (deadBefore_zero _)
    rw [himmediates] at hloop
    exact Leads.cons trivial hloop
  have hsecond : Leads env (Turn.sweep.apply env w₁)
      (timerTurns env (env.maxTimerCallbacks - ran₁) (Turn.sweep.apply env w₁)) _ :=
    leads_timerTurns (env.maxTimerCallbacks - ran₁) ran₁
  rw [passTurns, himmediates, ← List.cons_append, follows_append] at htidy
  have hclean₁ := hclean.leads hnumbered hfirst htidy.1
  have hnumbered₁ := (kept_numbered env).leads hfirst hnumbered
  have hdead := runImmediates_done (deadBefore_zero _) himmediates
  have hswept : Fresh (Turn.sweep.apply env w₁) := by
    intro slot hslot
    obtain ⟨hmem, hsome⟩ := List.mem_filter.mp hslot
    obtain ⟨im, rfl⟩ := Option.isSome_iff_exists.mp hsome
    have hcancelled := hdead im hmem
    rw [hclean₁ im hmem] at hcancelled
    cases hcancelled
  refine hswept.leads ((kept_numbered env).apply (t := .sweep) trivial hnumbered₁)
    (htimers ▸ hsecond) ?_
  obtain ⟨fired, hfired, hkind⟩ := timerTurns_done htimers
  intro t ht
  rw [hfired, List.mem_append, List.mem_singleton] at ht
  rcases ht with ht | rfl
  · obtain ⟨id, t₀, rfl⟩ := hkind t ht
    rfl
  · rfl

/-! ## What is cancelled stays -/

omit [LinearOrder τ] [Add τ] [Zero τ] in
theorem Accounted.queued {entry : Nat} (h : Accounted entry w)
    (hissued : (Handle.immediate entry).Issued w) :
    ∃ im, some im ∈ w.immediates ∧ im.entry = entry :=
  h.resolve_right (Nat.not_le.mpr hissued)

/-- A cancelled immediate that is in the queue stays in it. -/
theorem dead_leads {entry n : Nat} (hleads : Leads env w ts w')
    (hdead : ((Handle.immediate entry).Issued w ∧
      invoked (Handle.immediate entry).source w = n) ∧ (Handle.immediate entry).Gone w)
    (haccounted : Accounted entry w) : ∃ im, some im ∈ w'.immediates ∧ im.entry = entry := by
  have hkept := kept_gone env (.immediate entry) n
  have hlast := hleads.1.invariant (fun v => (((Handle.immediate entry).Issued v ∧
    invoked (Handle.immediate entry).source v = n) ∧ (Handle.immediate entry).Gone v) ∧
    Accounted entry v) ?_ ⟨hdead, haccounted⟩
  · rw [hleads.2] at hlast
    exact hlast.2.queued hlast.1.1.1
  · rintro v t ⟨hv, haccounted⟩ ht
    refine ⟨hkept.apply ht hv, haccounted.apply ht ?_⟩
    intro hentry
    exact absurd (source_eq_iff.mpr hentry) (hv.2.source_ne ht)

omit [LinearOrder τ] [Add τ] [Zero τ] in
theorem Op.not_tidy {t : Turn τ Cb} {v : World τ Cb} {op : Op τ Cb} (h : ¬ op.Tidy env t v w) :
    ∃ entry, op = .clear (.immediate entry) ∧ ¬ (Handle.immediate entry).Gone w ∧
      (t.entry = some entry → ¬ t.Returns env v) := by
  cases op with
  | clear handle =>
    cases handle with
    | timer id => exact absurd trivial h
    | immediate entry =>
      obtain ⟨hlive, hother⟩ := not_or.mp h
      exact ⟨entry, rfl, hlive, not_and.mp hother⟩
  | setTimeout | setInterval | setImmediate | ref | unref | refresh | queueJob =>
    exact absurd trivial h

/-- The immediate that a call cancels while it is pending is in the queue at the end of the run,
unless the call comes from its own callback and that returns. -/
theorem queued_of_not_tidy (hleads : Leads env {} ts w') (c : Call env {} ts) (htidy : ¬ c.Tidy) :
    ∃ entry, Cancelled env ts entry ∧ ∃ im, some im ∈ w'.immediates ∧ im.entry = entry := by
  obtain ⟨entry, hop, hlive, hother⟩ := Op.not_tidy htidy
  obtain ⟨im, him, hentry⟩ : ∃ im, some im ∈ c.state.immediates ∧ im.entry = entry := by
    by_contra hnone
    exact hlive fun im him hentry => absurd ⟨im, him, hentry⟩ hnone
  have hnumbered := (kept_numbered env).call_state c hleads numbered_initial
  have hissued : (Handle.immediate entry).Issued c.state := hentry ▸ hnumbered.entries_lt im him
  refine ⟨entry, ⟨c, hop, hissued⟩, ?_⟩
  have hdead := (kept_gone env (.immediate entry) _).call_next c (c.gone_result hop hissued)
  have haccounted : Accounted entry c.next := by
    obtain ⟨-, hturn, -⟩ := c.follows hleads.1
    refine Accounted.leave ?_ hturn hother
    rw [c.ops_eq, List.foldl_append, List.foldl_cons]
    exact applyOps_rule (Accounted entry) (fun op _ _ hv => hv.applyOp op)
      (Accounted.applyOp (.inl ⟨im, him, hentry⟩) c.op)
  obtain ⟨-, -, hafter⟩ := c.follows hleads.1
  exact dead_leads ⟨hafter, c.foldl_after.trans hleads.2⟩ hdead haccounted

/-! ## The queue after a pass -/

theorem gone_of_cancelled {entry : Nat} (hleads : Leads env {} ts w')
    (h : Cancelled env ts entry) : (Handle.immediate entry).Gone w' := by
  obtain ⟨c, hop, hissued⟩ := h
  exact ((kept_gone env (.immediate entry) _).of_call c hleads (c.gone_result hop hissued)).2

/-- An immediate that has not run is in the queue. -/
theorem queued_of_not_invoked {entry : Nat} (hleads : Leads env {} ts w')
    (hissued : (Handle.immediate entry).Issued w') (hzero : invoked (.immediate entry) w' = 0) :
    ∃ im, some im ∈ w'.immediates ∧ im.entry = entry := by
  have hstart : Accounted entry ({} : World τ Cb) := .inr (Nat.zero_le entry)
  rcases hstart.leads hleads with hran | haccounted
  · obtain ⟨t, ht, hentry⟩ := List.mem_filterMap.mp hran
    have hsource : Source.immediate entry ∈ w'.invocations.map Invocation.source := by
      rw [hleads.sources]
      refine List.mem_append_left _ (List.mem_reverse.mpr (List.mem_filterMap.mpr ?_))
      exact ⟨t, ht, source_eq_iff.mpr hentry⟩
    obtain ⟨inv, hinv, hsame⟩ := List.mem_map.mp hsource
    rw [invoked, List.countP_eq_zero] at hzero
    exact absurd (decide_eq_true hsame) (hzero inv hinv)
  · exact haccounted.queued hissued

omit [LinearOrder τ] [Add τ] [Zero τ] in
/-- A queue without null slots is as long as the set of its entries is large. -/
theorem Numbered.length_eq_ncard (h : Numbered w) (hfilled : none ∉ w.immediates) {s : Set Nat}
    (hs : ∀ entry, (∃ im, some im ∈ w.immediates ∧ im.entry = entry) ↔ entry ∈ s) :
    w.immediates.length = s.ncard := by
  have hnodup : (w.immediates.filterMap (Option.map Immediate.entry)).Nodup := by
    rw [List.Nodup, List.pairwise_filterMap]
    apply h.entries_increasing.imp
    intro a b hab entry hentry entry' hentry'
    obtain ⟨im, rfl, rfl⟩ := Option.map_eq_some_iff.mp hentry
    obtain ⟨im', rfl, rfl⟩ := Option.map_eq_some_iff.mp hentry'
    exact (hab im rfl im' rfl).ne
  have hlength : (w.immediates.filterMap (Option.map Immediate.entry)).length =
      w.immediates.length := by
    rw [List.length_filterMap_eq_countP, List.countP_eq_length]
    intro slot hslot
    cases slot with
    | none => exact absurd hslot hfilled
    | some im => rfl
  have hset : s = (w.immediates.filterMap (Option.map Immediate.entry)).toFinset := by
    ext entry
    rw [← hs]
    simp
  rw [hset, Set.ncard_coe_finset, List.toFinset_card_of_nodup hnodup, hlength]

theorem noDeadEntries_of_fresh (hleads : Leads env {} ts w')
    (hclean : Clean w') (hfresh : Fresh w') : NoDeadEntries env ts w' := by
  have hnumbered := (kept_numbered env).leads hleads numbered_initial
  have hfilled : none ∉ w'.immediates := by
    intro hnone
    obtain ⟨im, him, -⟩ := hfresh none hnone
    cases him
  have hexact : ∀ entry, (∃ im, some im ∈ w'.immediates ∧ im.entry = entry) ↔
      entry ∈ unrun env ts w' := by
    intro entry
    constructor
    · rintro ⟨im, him, rfl⟩
      obtain ⟨im', him', hzero⟩ := hfresh (some im) him
      cases him'
      refine ⟨hnumbered.entries_lt im him, hzero, ?_⟩
      intro hcancelled
      have hdead := gone_of_cancelled hleads hcancelled im him rfl
      rw [hclean im him] at hdead
      cases hdead
    · rintro ⟨hissued, hzero, -⟩
      exact queued_of_not_invoked hleads hissued hzero
  refine ⟨hfilled, hexact, hnumbered.length_eq_ncard hfilled hexact, ?_⟩
  rw [ncTimerPendingCount, List.countP_eq_length.mpr]
  intro slot hslot
  obtain ⟨im, rfl, -⟩ := hfresh slot hslot
  simp [hclean im hslot]

/-- After a pass that returns `capped: false` the queue of immediates is exact if and only if no
call of the run has cancelled an immediate while it was pending, other than a call of its own
callback that returned. -/
theorem noDeadEntries_iff (env : Env τ Cb) (moves : List (Move τ Cb)) {ran : Nat}
    {nextDue : Option τ}
    (h : ncTimerDrain env (run env {} moves) = (.ok ⟨ran, false, nextDue⟩, w')) :
    NoDeadEntries env (turns env {} (moves ++ [.pass])) w' ↔
      ∀ c : Call env {} (turns env {} (moves ++ [.pass])), c.Tidy := by
  have hbefore := leads_turns env {} moves
  have hpass := leads_passTurns env (run env {} moves)
  rw [h] at hpass
  have hturns : turns env {} (moves ++ [.pass]) =
      turns env {} moves ++ passTurns env (run env {} moves) := by
    rw [turns_append, turns, turns, List.append_nil, Move.turns]
  rw [hturns]
  have hleads := hbefore.append hpass
  constructor
  · intro hexact c
    by_contra htidy
    obtain ⟨entry, hcancelled, hqueued⟩ := queued_of_not_tidy hleads c htidy
    exact ((hexact.exact entry).mp hqueued).2.2 hcancelled
  · intro htidy
    rw [forall_tidy_iff] at htidy
    have hinitial : Clean ({} : World τ Cb) := by
      intro im him
      cases him
    have hclean := hinitial.leads numbered_initial hleads htidy
    rw [follows_append, hbefore.2] at htidy
    have hcleanBefore := hinitial.leads numbered_initial hbefore htidy.1
    exact noDeadEntries_of_fresh hleads hclean
      (fresh_of_pass (numbered_run env moves) h hcleanBefore htidy.2)

/-- The first callback clears its own handle, the second queues an immediate. -/
def clearsItself : Nat → Act Nat Nat
  | 0 => ⟨[.clear (.immediate 0)], .returns⟩
  | _ => ⟨[.setImmediate 2], .returns⟩

/-- An immediate that clears itself leaves the queue, and one that the callback of a timer adds
after the filter stays in it. -/
theorem noDeadEntries_clearsItself :
    ∃ w', ncTimerDrain (tickingEnv clearsItself) (run (tickingEnv clearsItself) {}
        [.script (.setImmediate 0), .script (.setTimeout 1 none)]) =
        (.ok ⟨2, false, none⟩, w') ∧
      NoDeadEntries (tickingEnv clearsItself) (turns (tickingEnv clearsItself) {}
        [.script (.setImmediate 0), .script (.setTimeout 1 none), .pass]) w' ∧
      w'.immediates = [some ⟨1, 2, false⟩] := by
  obtain ⟨w', h, hqueue⟩ : ∃ w', ncTimerDrain (tickingEnv clearsItself)
      (run (tickingEnv clearsItself) {}
        [.script (.setImmediate 0), .script (.setTimeout 1 none)]) =
        (.ok ⟨2, false, none⟩, w') ∧ w'.immediates = [some ⟨1, 2, false⟩] := ⟨_, rfl, rfl⟩
  have htidy : Follows (Turn.apply (tickingEnv clearsItself))
      (Turn.Tidy (tickingEnv clearsItself)) {}
      [.script (.setImmediate 0), .script (.setTimeout 1 none), .start,
        .immediate 0 ⟨0, 0, false⟩, .sweep, .timer 1 ⟨1, 0, 0, false, false⟩, .idle] :=
    ⟨⟨trivial, trivial⟩, ⟨trivial, trivial⟩, trivial, ⟨.inr ⟨rfl, rfl⟩, trivial⟩, trivial,
      ⟨trivial, trivial⟩, trivial, trivial⟩
  exact ⟨w', h, (noDeadEntries_iff _ _ h).mpr (forall_tidy_iff.mpr htidy), hqueue⟩

/-- An immediate that is cancelled before the pass is in the queue after it, where nothing is
pending. -/
theorem cancelled_immediate_queued :
    ∃ w', ncTimerDrain (tickingEnv callbackChain) (run (tickingEnv callbackChain) {}
        [.script (.setImmediate 0), .script (.clear (.immediate 0))]) =
        (.ok ⟨0, false, none⟩, w') ∧
      w'.immediates = [some ⟨0, 0, true⟩] ∧ ncTimerPendingCount w' = 0 ∧
      ¬ NoDeadEntries (tickingEnv callbackChain) (turns (tickingEnv callbackChain) {}
        [.script (.setImmediate 0), .script (.clear (.immediate 0)), .pass]) w' := by
  refine ⟨_, rfl, rfl, rfl, ?_⟩
  intro hexact
  exact absurd hexact.counted (by decide)

end Timers
