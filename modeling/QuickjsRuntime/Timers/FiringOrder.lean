import QuickjsRuntime.Timers.Numbering

/-! # The order in which a pass invokes callbacks

Immediates come first, in the order of their registration, then the timers, each the earliest
that is due. That no timer fires with an earlier due time than one before it, also in a later
pass, needs that the readings of the clock do not decrease: a timer is armed at a reading that
is no earlier than the due time of any timer that has fired.
-/

namespace Timers

open Transition (Follows follows_append)

variable {τ Cb : Type} [LinearOrder τ] [Add τ] [Zero τ] {env : Env τ Cb} {w w' : World τ Cb}
  {ts : List (Turn τ Cb)}

namespace Turn

/-- The due time of the timer that fires. -/
def due : Turn τ Cb → Option τ
  | .timer _ t => some t.due
  | _ => none

/-- The entry of the immediate that runs. -/
def entry : Turn τ Cb → Option Nat
  | .immediate _ im => some im.entry
  | _ => none

/-- A timer that fires is due, and is the least by due time and id of the timers that are. -/
def Earliest (env : Env τ Cb) (w : World τ Cb) : Turn τ Cb → Prop
  | .timer id t =>
    (id, t) ∈ w.pendingTimers ∧ t.due ≤ env.now w.reads ∧
      ∀ p ∈ w.pendingTimers, p.2.due ≤ env.now w.reads → toLex (t.due, id) ≤ toLex (p.2.due, p.1)
  | _ => True

/-- The callback of the turn returns. -/
def Returns (env : Env τ Cb) (w : World τ Cb) (t : Turn τ Cb) : Prop :=
  (t.act env w).ending = .returns

end Turn

/-- The readings of the clock do not decrease, and adding a delay to one does not either. -/
structure Env.Steady (env : Env τ Cb) : Prop where
  monotone : Monotone env.now
  le_add : ∀ (n : Nat) (delay : τ), 0 ≤ delay → env.now n ≤ env.now n + delay

/-! ## Due times do not decrease -/

omit [LinearOrder τ] [Zero τ] in
theorem reads_le_enter (env : Env τ Cb) (w : World τ Cb) (t : Turn τ Cb) :
    w.reads ≤ (t.enter env w).reads := by
  cases t with
  | timer id t₀ =>
    simp only [Turn.enter, started, rearm]
    split <;> exact Nat.le_succ _
  | idle => exact Nat.le_succ _
  | _ => exact Nat.le_refl _

/-- The delays that are kept for `refresh` and for intervals are not negative. -/
def Periods (w : World τ Cb) : Prop := ∀ p ∈ w.pendingTimers, 0 ≤ p.2.ms

omit [Add τ] in
theorem delayOf_nonneg (ms : Option τ) : 0 ≤ delayOf ms := le_max_left _ _

theorem kept_periods (env : Env τ Cb) : Kept env Periods where
  op w op h := by
    intro p hp
    rcases mem_pendingTimers_applyOp hp with ⟨hp, -⟩ | ⟨fn, ms, repeats, -, rfl⟩ |
        ⟨t, unref, -, ht, heq⟩ | ⟨t, -, ht, heq⟩
    · exact h p hp
    · cases repeats
      · exact le_refl _
      · exact delayOf_nonneg ms
    · rw [heq]
      exact h _ ht
    · rw [heq]
      exact h _ ht
  enter w t _ h := by
    intro p hp
    rcases mem_pendingTimers_enter hp with ⟨hp, -⟩ | ⟨-, t₁, -, -, ht₁, heq⟩
    · exact h p hp
    · rw [heq]
      exact h _ ht₁
  consume _ _ h := h

theorem periods_run (env : Env τ Cb) (moves : List (Move τ Cb)) : Periods (run env {} moves) :=
  (kept_periods env).leads (leads_turns env {} moves) (by simp [Periods])

/-- No timer is due before the given time, and none that is armed from now on will be. -/
structure NotBefore (env : Env τ Cb) (due : τ) (w : World τ Cb) : Prop where
  pending : ∀ p ∈ w.pendingTimers, due ≤ p.2.due
  now : due ≤ env.now w.reads

/-- An arming at the next reading. -/
theorem NotBefore.armed {due delay : τ} (h : NotBefore env due w) (hsteady : env.Steady)
    (hdelay : 0 ≤ delay) : due ≤ env.now w.reads + delay :=
  h.now.trans (hsteady.le_add w.reads delay hdelay)

theorem kept_notBefore (hsteady : env.Steady) (due : τ) :
    Kept env fun w => Periods w ∧ NotBefore env due w where
  op w op h := by
    refine ⟨(kept_periods env).op w op h.1, ?_, ?_⟩
    · intro p hp
      rcases mem_pendingTimers_applyOp hp with ⟨hp, -⟩ | ⟨fn, ms, repeats, -, rfl⟩ |
          ⟨t, unref, -, ht, heq⟩ | ⟨t, -, ht, heq⟩
      · exact h.2.pending p hp
      · exact h.2.armed hsteady (delayOf_nonneg ms)
      · rw [heq]
        exact h.2.pending _ ht
      · rw [heq]
        exact h.2.armed hsteady (h.1 _ ht)
    · exact h.2.now.trans (hsteady.monotone (reads_le_applyOp env w op))
  enter w t ht h := by
    refine ⟨(kept_periods env).enter w t ht h.1, ?_, ?_⟩
    · intro p hp
      rcases mem_pendingTimers_enter hp with ⟨hp, -⟩ | ⟨-, t₁, -, -, ht₁, heq⟩
      · exact h.2.pending p hp
      · rw [heq]
        exact h.2.armed hsteady (h.1 _ ht₁)
    · exact h.2.now.trans (hsteady.monotone (reads_le_enter env w t))
  consume _ _ h := ⟨h.1, h.2.pending, h.2.now⟩

/-- When a timer fires, none that is pending then or armed later is due before it. -/
theorem notBefore_fired (hsteady : env.Steady) (hperiods : Periods w) {id : Nat} {t : Timer τ Cb}
    (ht : (Turn.timer id t).Enabled env w) :
    NotBefore env t.due ((Turn.timer id t).apply env w) := by
  have hnow : NotBefore env t.due w := ⟨fun p hp => bestDue_le_due ht hp, bestDue_le ht⟩
  exact ((kept_notBefore hsteady t.due).apply ht ⟨hperiods, hnow⟩).2

theorem dues_pairwise (hsteady : env.Steady) (hleads : Leads env w ts w')
    (hperiods : Periods w) : (ts.filterMap Turn.due).Pairwise (· ≤ ·) := by
  refine hleads.1.pairwise Periods (NotBefore env)
    (fun v t hv ht => (kept_periods env).apply ht hv)
    (fun due v t hv ht h => ((kept_notBefore hsteady due).apply ht ⟨hv, h⟩).2) ?_ ?_ hperiods
  · intro due v t hv ht hdue
    cases t with
    | timer id t₀ =>
      cases hdue
      exact notBefore_fired hsteady hv ht
    | script | start | immediate | sweep | idle | reaction => cases hdue
  · intro due due' v t hv ht hdue
    cases t with
    | timer id t₀ =>
      cases hdue
      exact hv.pending _ (bestDue_mem ht)
    | script | start | immediate | sweep | idle | reaction => cases hdue

omit [Add τ] [Zero τ] in
theorem Turn.Enabled.earliest (hnumbered : Numbered w) {t : Turn τ Cb} (ht : t.Enabled env w) :
    t.Earliest env w := by
  cases t with
  | timer id t₀ =>
    exact ⟨bestDue_mem ht, bestDue_le ht,
      fun p hp hdue => bestDue_least ht hnumbered.ids_increasing hp hdue⟩
  | script | start | immediate | sweep | idle | reaction => trivial

/-! ## Immediates run in the order of their registration -/

/-- The immediates that can still run were registered after the given one. -/
structure Beyond (entry : Nat) (w : World τ Cb) : Prop where
  issued : entry < w.entries
  live : ∀ im, some im ∈ w.immediates → im.cancelled = false → entry < im.entry

theorem kept_beyond (env : Env τ Cb) (entry : Nat) : Kept env (Beyond entry) where
  op w op h := by
    refine ⟨Nat.lt_of_lt_of_le h.issued (counters_applyOp env w op).2.1, ?_⟩
    intro im him hlive
    rcases mem_immediates_applyOp him with him | ⟨fn, -, rfl⟩ | ⟨im₀, -, -, rfl⟩
    · exact h.live im him hlive
    · exact h.issued
    · cases hlive
  enter w t _ h := by
    refine ⟨?_, fun im him => h.live im (mem_immediates_enter him)⟩
    rw [(counters_enter env w t).2.1]
    exact h.issued
  consume w slot h := ⟨h.issued, fun im him => h.live im (mem_immediates_consume him)⟩

omit [LinearOrder τ] [Add τ] [Zero τ] in
/-- Where the slots before one are dead and it is set to null, those that are left were
registered later. -/
theorem Numbered.beyond_of_consumed (h : Numbered w) {slot : Nat} {im : Immediate Cb}
    (hslot : w.immediates[slot]? = some (some im)) (hdead : DeadBefore slot w) :
    Beyond im.entry { w with immediates := w.immediates.set slot none } := by
  refine ⟨h.entries_lt im (List.mem_of_getElem? hslot), ?_⟩
  intro im' him' hlive
  obtain ⟨k, hget, hcases⟩ := h.of_mem_consumed hslot him'
  rcases hcases with ⟨-, hlt⟩ | ⟨hbefore, -⟩
  · exact hlt
  · have hcancelled := hdead.2 k hbefore im' hget
    rw [hlive] at hcancelled
    cases hcancelled

/-- After an immediate has run and returned, those that can still run were registered later. -/
theorem beyond_ran (hnumbered : Numbered w) {slot : Nat} {im : Immediate Cb}
    (ht : (Turn.immediate slot im).Enabled env w)
    (hreturns : (Turn.immediate slot im).Returns env w) :
    Beyond im.entry ((Turn.immediate slot im).apply env w) := by
  obtain ⟨im', hslot, hentry⟩ := slot_entry_ops env ((Turn.immediate slot im).enter env w)
    ((Turn.immediate slot im).act env w).ops ⟨im, ht.1, rfl⟩
  have hdead : DeadBefore slot (((Turn.immediate slot im).act env w).ops.foldl (applyOp env)
      ((Turn.immediate slot im).enter env w)) :=
    applyOps_rule (DeadBefore slot) (fun op _ v hv => (hv.applyOp env op).1) ht.2.2
  have hnumbered' := (kept_numbered env).ops ((Turn.immediate slot im).act env w).ops
    (hnumbered.enter ht)
  rw [Turn.apply, hreturns, ← hentry]
  exact hnumbered'.beyond_of_consumed hslot hdead

theorem entries_pairwise (hleads : Leads env w ts w')
    (hreturns : Follows (Turn.apply env) (Turn.Returns env) w ts) (hnumbered : Numbered w) :
    (ts.filterMap Turn.entry).Pairwise (· < ·) := by
  refine (hleads.1.and hreturns).pairwise Numbered Beyond
    (fun v t hv ht => (kept_numbered env).apply ht.1 hv)
    (fun entry v t _ ht h => (kept_beyond env entry).apply ht.1 h) ?_ ?_ hnumbered
  · intro entry v t hv ht hentry
    cases t with
    | immediate slot im =>
      cases hentry
      exact beyond_ran hv ht.1 ht.2
    | script | start | timer | sweep | idle | reaction => cases hentry
  · intro entry entry' v t hv ht hentry
    cases t with
    | immediate slot im =>
      cases hentry
      exact hv.live im (List.mem_of_getElem? ht.1.1) ht.1.2.1
    | script | start | timer | sweep | idle | reaction => cases hentry

/-! ## Every immediate runs -/

/-- The entry is in the queue, or has not been registered yet. -/
def Accounted (entry : Nat) (w : World τ Cb) : Prop :=
  (∃ im, some im ∈ w.immediates ∧ im.entry = entry) ∨ w.entries ≤ entry

theorem Accounted.applyOp {entry : Nat} (h : Accounted entry w) (op : Op τ Cb) :
    Accounted entry (applyOp env w op) := by
  obtain ⟨f, hf, hslots⟩ := slots_applyOp env w op
  rcases h with ⟨im, him, hentry⟩ | hnew
  · refine .inl ⟨f im, ?_, (hf im).1.trans hentry⟩
    have hmem : some (f im) ∈ w.immediates.map (Option.map f) := List.mem_map_of_mem him
    rcases hslots with ⟨hslots, -⟩ | ⟨fn, hslots, -⟩
    · rw [hslots]
      exact hmem
    · rw [hslots]
      exact List.mem_append_left _ hmem
  · rcases hslots with ⟨-, hentries⟩ | ⟨fn, hslots, hentries⟩
    · exact .inr (hentries ▸ hnew)
    · rcases hnew.lt_or_eq with hlt | heq
      · exact .inr (hentries ▸ hlt)
      · refine .inl ⟨⟨w.entries, fn, false⟩, ?_, heq⟩
        rw [hslots]
        exact List.mem_append_right _ (List.mem_singleton_self _)

omit [LinearOrder τ] [Zero τ] in
theorem Accounted.enter {entry : Nat} (h : Accounted entry w) (t : Turn τ Cb) :
    Accounted entry (t.enter env w) := by
  cases t with
  | sweep =>
    rcases h with ⟨im, him, hentry⟩ | hnew
    · exact .inl ⟨im, List.mem_filter.mpr ⟨him, rfl⟩, hentry⟩
    · exact .inr hnew
  | timer id t₀ =>
    simp only [Turn.enter, started, rearm]
    split <;> exact h
  | _ => exact h

/-- At its end a turn takes no entry out of account but its own, and that only when the
callback returns. -/
theorem Accounted.leave {entry : Nat} {t : Turn τ Cb}
    (h : Accounted entry ((t.act env w).ops.foldl (Timers.applyOp env) (t.enter env w)))
    (ht : t.Enabled env w) (hother : t.entry = some entry → ¬ t.Returns env w) :
    Accounted entry (t.apply env w) := by
  cases t with
  | immediate slot im =>
    obtain ⟨im', hslot, hentry'⟩ := slot_entry_ops env ((Turn.immediate slot im).enter env w)
      ((Turn.immediate slot im).act env w).ops ⟨im, ht.1, rfl⟩
    rw [Turn.apply]
    cases hending : ((Turn.immediate slot im).act env w).ending with
    | throws text => exact h
    | returns =>
      rcases h with ⟨im₁, him₁, hentry₁⟩ | hnew
      · obtain ⟨k, hk⟩ := List.mem_iff_getElem?.mp him₁
        by_cases hkslot : k = slot
        · subst hkslot
          rw [hk] at hslot
          cases hslot
          exact absurd hending (hother (congrArg some (hentry'.symm.trans hentry₁)))
        · refine .inl ⟨im₁, List.mem_of_getElem? (i := k) ?_, hentry₁⟩
          exact (List.getElem?_set_ne (Ne.symm hkslot)).trans hk
      · exact .inr hnew
  | script | start | timer | sweep | idle | reaction => exact h

theorem Accounted.apply {entry : Nat} {t : Turn τ Cb} (h : Accounted entry w)
    (ht : t.Enabled env w) (hother : t.entry = some entry → ¬ t.Returns env w) :
    Accounted entry (t.apply env w) :=
  Accounted.leave
    (applyOps_rule (Accounted entry) (fun op _ _ hv => hv.applyOp op) (h.enter t)) ht hother

/-- Through a list of turns every entry runs or stays in account. -/
theorem Accounted.leads {entry : Nat} (h : Accounted entry w) (hleads : Leads env w ts w') :
    entry ∈ ts.filterMap Turn.entry ∨ Accounted entry w' := by
  induction ts generalizing w with
  | nil =>
    obtain ⟨-, rfl⟩ := hleads
    exact .inr h
  | cons t ts ih =>
    by_cases hown : t.entry = some entry
    · rw [List.filterMap_cons_some hown]
      exact .inl List.mem_cons_self
    · have hnext := h.apply hleads.1.1 (fun hentry => absurd hentry hown)
      rcases ih hnext ⟨hleads.1.2, hleads.2⟩ with hmem | hlast
      · refine .inl ?_
        rw [List.mem_filterMap] at hmem ⊢
        obtain ⟨t', ht', hentry⟩ := hmem
        exact ⟨t', List.mem_cons_of_mem _ ht', hentry⟩
      · exact .inr hlast

/-! ## The phases of a pass that is not cut off -/

/-- A phase that ends normally has run immediates whose callbacks all returned. -/
theorem immediateTurns_done {budget i ran ran' : Nat}
    (h : runImmediates env budget i ran w = .done ran' w') :
    (∀ t ∈ immediateTurns env budget i w, ∃ slot im, t = .immediate slot im) ∧
      Follows (Turn.apply env) (Turn.Returns env) w (immediateTurns env budget i w) := by
  induction budget generalizing i ran w with
  | zero => exact ⟨by simp [immediateTurns], trivial⟩
  | succ budget ih =>
    rw [immediateTurns]
    rw [runImmediates] at h
    cases hnext : nextImmediate (w.immediates.drop i) i with
    | none => exact ⟨by simp, trivial⟩
    | some p =>
      obtain ⟨j, im⟩ := p
      rw [hnext] at h
      dsimp only at h ⊢
      have hreturns : (Turn.immediate j im).Returns env w ↔
          (invoke env w (.immediate im.entry) im.fn).1 = .returns := Iff.rfl
      rw [List.forall_mem_cons, Follows, hreturns, apply_immediate]
      cases hinvoke : invoke env w (.immediate im.entry) im.fn with
      | mk ending w₁ =>
        rw [hinvoke] at h
        cases ending with
        | throws text => cases h
        | returns =>
          obtain ⟨hkind, hrest⟩ := ih h
          exact ⟨⟨⟨j, im, rfl⟩, hkind⟩, rfl, hrest⟩

/-- A phase that ends normally has fired timers, and has found none that is due at last. -/
theorem timerTurns_done {budget ran ran' : Nat} (h : runTimers env budget ran w = .done ran' w') :
    ∃ fired, timerTurns env budget w = fired ++ [.idle] ∧
      ∀ t ∈ fired, ∃ id t₀, t = .timer id t₀ := by
  induction budget generalizing ran w with
  | zero => cases h
  | succ budget ih =>
    rw [runTimers_succ] at h
    rw [timerTurns]
    cases hbest : bestDue (env.now w.reads) w.pendingTimers with
    | none => exact ⟨[], rfl, by simp⟩
    | some p =>
      obtain ⟨id, t⟩ := p
      rw [hbest] at h
      dsimp only at h ⊢
      cases hinvoke : invoke env (rearm (readClock env w).2 (env.now w.reads) id t) (.timer id)
          t.fn with
      | mk ending w₁ =>
        rw [hinvoke] at h
        cases ending with
        | throws text => cases h
        | returns =>
          obtain ⟨fired, hfired, hkind⟩ := ih h
          refine ⟨.timer id t :: fired, ?_, ?_⟩
          · rw [List.cons_append, ← hfired]
          · rw [List.forall_mem_cons]
            exact ⟨⟨id, t, rfl⟩, hkind⟩

/-- What a pass that returns `capped: false` has gone through. -/
theorem ncTimerDrain_uncapped {ran : Nat} {nextDue : Option τ}
    (h : ncTimerDrain env w = (.ok ⟨ran, false, nextDue⟩, w')) :
    ∃ ran₁ w₁, runImmediates env env.maxTimerCallbacks 0 0 { w with passStart := w.calls } =
        .done ran₁ w₁ ∧
      runTimers env (env.maxTimerCallbacks - ran₁) ran₁
        { w₁ with immediates := w₁.immediates.filter Option.isSome } = .done ran w' ∧
      nextDue = earliestRef w'.pendingTimers := by
  rw [ncTimerDrain] at h
  split at h
  next => cases h
  next => cases h
  next ran₁ w₁ himmediates =>
    split at h
    next => cases h
    next => cases h
    next htimers =>
      cases h
      exact ⟨ran₁, w₁, himmediates, htimers, rfl⟩

/-- The record of invocations grows by the sources of the turns. -/
theorem sources_apply (env : Env τ Cb) (w : World τ Cb) (t : Turn τ Cb) :
    (t.apply env w).invocations.map Invocation.source =
      t.source.toList ++ w.invocations.map Invocation.source := by
  have hsame : KeptByCalls env fun v => v.invocations = (t.enter env w).invocations :=
    ⟨fun v op hv => (counters_applyOp env v op).2.2.trans hv, fun _ _ hv => hv⟩
  have hlast : (t.apply env w).invocations = (t.enter env w).invocations :=
    hsame.leave t _ (hsame.ops _ rfl)
  rw [hlast]
  rcases (counters_enter env w t).2.2 with ⟨hnone, hold⟩ | ⟨source, fn, hsource, hnew⟩
  · rw [hold, hnone]
    rfl
  · rw [hnew, hsource]
    rfl

theorem Leads.sources (h : Leads env w ts w') :
    w'.invocations.map Invocation.source =
      (ts.filterMap Turn.source).reverse ++ w.invocations.map Invocation.source := by
  obtain ⟨-, rfl⟩ := h
  induction ts generalizing w with
  | nil => rfl
  | cons t ts ih =>
    rw [List.foldl_cons, ih, sources_apply]
    cases hsource : t.source with
    | none =>
      rw [List.filterMap_cons_none hsource]
      rfl
    | some source =>
      rw [List.filterMap_cons_some hsource, List.reverse_cons, List.append_assoc]
      rfl

/-- What a pass does that returns `capped: false` with the given `nextDue`: the immediates that
it runs, and the timers that it fires. -/
structure PassOrder (env : Env τ Cb) (w : World τ Cb) (nextDue : Option τ) (w' : World τ Cb)
    (immediates timers : List (Turn τ Cb)) : Prop where
  turns_eq : passTurns env w = .start :: (immediates ++ .sweep :: (timers ++ [.idle]))
  leads : Leads env w (passTurns env w) w'
  recorded : w'.invocations.map Invocation.source =
    ((passTurns env w).filterMap Turn.source).reverse ++ w.invocations.map Invocation.source
  only_immediates : ∀ t ∈ immediates, ∃ slot im, t = .immediate slot im
  only_timers : ∀ t ∈ timers, ∃ id t₀, t = .timer id t₀
  registration_order : (immediates.filterMap Turn.entry).Pairwise (· < ·)
  /-- An immediate that was queued before the phase or during it runs, unless it is in the queue
  after the phase and cancelled. -/
  all_run : ∀ entry, Accounted entry w →
    entry < (immediates.foldl (Turn.apply env) (Turn.start.apply env w)).entries →
    entry ∈ immediates.filterMap Turn.entry ∨
      ∃ im, some im ∈ (immediates.foldl (Turn.apply env) (Turn.start.apply env w)).immediates ∧
        im.entry = entry ∧ im.cancelled = true
  earliest_first : Follows (Turn.apply env) (Turn.Earliest env) w (passTurns env w)
  none_due : ∃ n, w.reads ≤ n ∧ w'.reads = n + 1 ∧ ∀ p ∈ w'.pendingTimers, env.now n < p.2.due
  nextDue_least :
    match nextDue with
    | none => ∀ p ∈ w'.pendingTimers, p.2.unref = true
    | some due => IsLeast {due | ∃ p ∈ w'.pendingTimers, p.2.unref = false ∧ p.2.due = due} due

theorem kept_reads (env : Env τ Cb) (n : Nat) : Kept env fun w => n ≤ w.reads where
  op w op h := Nat.le_trans h (reads_le_applyOp env w op)
  enter w t _ h := Nat.le_trans h (reads_le_enter env w t)
  consume _ _ h := h

/-- A turn that finds no timer to fire has read the clock last. -/
theorem none_due_of_idle (h : Leads env w (ts ++ [.idle]) w') :
    ∃ n, w.reads ≤ n ∧ w'.reads = n + 1 ∧ ∀ p ∈ w'.pendingTimers, env.now n < p.2.due := by
  obtain ⟨hfollows, rfl⟩ := h
  rw [follows_append] at hfollows
  rw [List.foldl_append]
  refine ⟨(ts.foldl (Turn.apply env) w).reads, ?_, rfl, ?_⟩
  · exact (kept_reads env w.reads).leads ⟨hfollows.1, rfl⟩ (Nat.le_refl _)
  · exact bestDue_eq_none_iff.mp hfollows.2.1

theorem exists_passOrder (hnumbered : Numbered w) {ran : Nat} {nextDue : Option τ}
    (h : ncTimerDrain env w = (.ok ⟨ran, false, nextDue⟩, w')) :
    ∃ immediates timers, PassOrder env w nextDue w' immediates timers := by
  have hpass := leads_passTurns env w
  rw [h] at hpass
  obtain ⟨ran₁, w₁, himmediates, htimers, hnextDue⟩ := ncTimerDrain_uncapped h
  have hphase : Leads env (Turn.start.apply env w)
      (immediateTurns env env.maxTimerCallbacks 0 (Turn.start.apply env w)) _ :=
    leads_immediateTurns env.maxTimerCallbacks 0 0 (deadBefore_zero _)
  have hstart : Turn.start.apply env w = { w with passStart := w.calls } := rfl
  obtain ⟨hkind, hreturns⟩ := immediateTurns_done himmediates
  obtain ⟨fired, hfired, hfiredKind⟩ := timerTurns_done htimers
  rw [hstart, himmediates] at hphase
  have hturns : passTurns env w = .start ::
      (immediateTurns env env.maxTimerCallbacks 0 { w with passStart := w.calls } ++
        .sweep :: (fired ++ [.idle])) := by
    rw [passTurns, himmediates, ← hfired]
  refine ⟨_, fired, hturns, hpass, hpass.sources, hkind, hfiredKind, ?_, ?_, ?_, ?_, ?_⟩
  · have hnumbered' := (kept_numbered env).apply (t := .start) trivial hnumbered
    exact entries_pairwise hphase hreturns hnumbered'
  · intro entry haccounted hentry
    rw [hstart, hphase.2] at hentry ⊢
    have hstarted : Accounted entry { w with passStart := w.calls } := haccounted
    rcases hstarted.leads hphase with hran | ⟨im, him, heq⟩ | hnew
    · exact .inl hran
    · exact .inr ⟨im, him, heq, runImmediates_done (deadBefore_zero _) himmediates im him⟩
    · exact absurd hentry (Nat.not_lt.mpr hnew)
  · exact hpass.1.imp Numbered (fun v t hv ht => (kept_numbered env).apply ht hv)
      (fun v t hv ht => ht.earliest hv) hnumbered
  · have hlast : passTurns env w = (.start ::
        (immediateTurns env env.maxTimerCallbacks 0 { w with passStart := w.calls } ++
          .sweep :: fired)) ++ [.idle] := by
      rw [hturns, List.cons_append, List.append_assoc, List.cons_append]
    exact none_due_of_idle (hlast ▸ hpass)
  · rw [hnextDue]
    exact earliestRef_spec w'.pendingTimers

/-- In every pass that returns `capped: false` the immediates run first, in the order of their
registration, and then the timers, always the earliest; all that is due has fired at the end,
and `nextDue` is the next due time. The due times at which timers fire do not decrease, in the
pass and over all passes. -/
theorem pass_in_order (hsteady : env.Steady) (moves : List (Move τ Cb)) {ran : Nat}
    {nextDue : Option τ}
    (h : ncTimerDrain env (run env {} moves) = (.ok ⟨ran, false, nextDue⟩, w')) :
    (∃ immediates timers, PassOrder env (run env {} moves) nextDue w' immediates timers) ∧
      ((turns env {} (moves ++ [.pass])).filterMap Turn.due).Pairwise (· ≤ ·) := by
  refine ⟨exists_passOrder (numbered_run env moves) h, ?_⟩
  exact dues_pairwise hsteady (leads_turns env {} (moves ++ [.pass])) (by simp [Periods])

theorem steady_tickingEnv (behave : Nat → Act Nat Nat) : (tickingEnv behave).Steady where
  monotone := monotone_id
  le_add n delay _ := Nat.le_add_right n delay

/-- A timeout and an immediate: `setTimeout(cb, 0)`, then `setImmediate(cb)`. -/
theorem pass_in_order_two :
    ∃ w' immediates timers, PassOrder (tickingEnv callbackChain)
      (run (tickingEnv callbackChain) {} [.script (.setTimeout 0 none), .script (.setImmediate 1)])
      (some 4) w' immediates timers := by
  obtain ⟨w', h⟩ : ∃ w', ncTimerDrain (tickingEnv callbackChain)
      (run (tickingEnv callbackChain) {}
        [.script (.setTimeout 0 none), .script (.setImmediate 1)]) =
        (.ok ⟨2, false, some 4⟩, w') := ⟨_, rfl⟩
  exact ⟨w', (pass_in_order (steady_tickingEnv _) _ h).1⟩

end Timers
