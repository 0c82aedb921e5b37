import QuickjsRuntime.Timers.Numbering

/-! # How long callbacks live

A handle that was cleared stays without effect, and a timeout that has fired is gone. An
immediate is gone once its slot is null or it is cancelled; one whose callback throws is
neither, unless the callback clears its own handle.
-/

namespace Timers

open Transition (Follows)

variable {τ Cb : Type} [LinearOrder τ] [Add τ] [Zero τ] {env : Env τ Cb} {w w' : World τ Cb}

/-- How often the callback of a source has been invoked. -/
def invoked (source : Source) (w : World τ Cb) : Nat :=
  w.invocations.countP fun inv => inv.source = source

def Handle.source : Handle → Source
  | .timer id => .timer id
  | .immediate entry => .immediate entry

/-- The handle has been returned by a call. -/
def Handle.Issued (w : World τ Cb) : Handle → Prop
  | .timer id => id < w.timerSeq
  | .immediate entry => entry < w.entries

/-- Nothing that could be invoked is left of the handle. -/
def Handle.Gone (w : World τ Cb) : Handle → Prop
  | .timer id => ∀ p ∈ w.pendingTimers, p.1 ≠ id
  | .immediate entry => ∀ im, some im ∈ w.immediates → im.entry = entry → im.cancelled = true

theorem invoked_applyOp (env : Env τ Cb) (w : World τ Cb) (op : Op τ Cb) (source : Source) :
    invoked source (applyOp env w op) = invoked source w := by
  rw [invoked, invoked, (counters_applyOp env w op).2.2]

omit [LinearOrder τ] [Zero τ] in
/-- A turn adds one invocation, of its own source. -/
theorem invoked_enter (env : Env τ Cb) (w : World τ Cb) (t : Turn τ Cb) (source : Source) :
    invoked source (t.enter env w) =
      invoked source w + if t.source = some source then 1 else 0 := by
  rcases (counters_enter env w t).2.2 with ⟨hnone, hsame⟩ | ⟨source', fn, hsource, hnew⟩
  · rw [invoked, hsame, hnone, if_neg (by simp), invoked, Nat.add_zero]
  · rw [invoked, hnew, List.countP_cons, hsource, invoked]
    simp only [decide_eq_true_eq, Option.some.injEq]

omit [LinearOrder τ] [Add τ] [Zero τ] in
theorem Numbered.invoked_eq_zero (hnumbered : Numbered w) {h : Handle} (hnew : ¬ h.Issued w) :
    invoked h.source w = 0 := by
  rw [invoked, List.countP_eq_zero]
  intro inv hinv hsource
  obtain ⟨htimer, himmediate⟩ := hnumbered.invoked_lt inv hinv
  cases h with
  | timer id => exact hnew (htimer id (of_decide_eq_true hsource))
  | immediate entry => exact hnew (himmediate entry (of_decide_eq_true hsource))

theorem Handle.Issued.applyOp {h : Handle} (hissued : h.Issued w) (op : Op τ Cb) :
    h.Issued (applyOp env w op) := by
  cases h with
  | timer id => exact Nat.lt_of_lt_of_le hissued (timerSeq_le_applyOp env w op)
  | immediate entry => exact Nat.lt_of_lt_of_le hissued (counters_applyOp env w op).2.1

omit [LinearOrder τ] [Zero τ] in
theorem Handle.Issued.enter {h : Handle} (hissued : h.Issued w) (t : Turn τ Cb) :
    h.Issued (t.enter env w) := by
  obtain ⟨hseq, hentries, -⟩ := counters_enter env w t
  cases h with
  | timer id =>
    rw [Handle.Issued, hseq]
    exact hissued
  | immediate entry =>
    rw [Handle.Issued, hentries]
    exact hissued

theorem Handle.Gone.applyOp {h : Handle} (hgone : h.Gone w) (hissued : h.Issued w)
    (op : Op τ Cb) : h.Gone (applyOp env w op) := by
  cases h with
  | timer id =>
    intro p hp
    rcases mem_pendingTimers_applyOp hp with ⟨hp, -⟩ | ⟨fn, ms, repeats, -, rfl⟩ |
        ⟨t, unref, -, ht, -⟩ | ⟨t, -, ht, -⟩
    · exact hgone p hp
    · -- a new timer has an id that no handle has had
      exact Nat.ne_of_gt hissued
    · exact hgone (p.1, t) ht
    · exact hgone (p.1, t) ht
  | immediate entry =>
    intro im him hentry
    rcases mem_immediates_applyOp him with him | ⟨fn, -, rfl⟩ | ⟨im₀, -, -, rfl⟩
    · exact hgone im him hentry
    · exact absurd hentry (Nat.ne_of_gt hissued)
    · rfl

omit [LinearOrder τ] [Zero τ] in
theorem Handle.Gone.enter {h : Handle} (hgone : h.Gone w) (t : Turn τ Cb) :
    h.Gone (t.enter env w) := by
  cases h with
  | timer id =>
    intro p hp
    rcases mem_pendingTimers_enter hp with ⟨hp, -⟩ | ⟨-, t₁, -, -, ht₁, -⟩
    · exact hgone p hp
    · exact hgone (p.1, t₁) ht₁
  | immediate entry =>
    intro im him
    exact hgone im (mem_immediates_enter him)

omit [Add τ] [Zero τ] in
/-- Where nothing is left of a handle, no turn is its own. -/
theorem Handle.Gone.source_ne {h : Handle} (hgone : h.Gone w) {t : Turn τ Cb}
    (ht : t.Enabled env w) : t.source ≠ some h.source := by
  intro hsource
  cases t with
  | timer id t₀ =>
    cases h with
    | timer id' =>
      cases hsource
      exact hgone _ (bestDue_mem ht) rfl
    | immediate entry => cases hsource
  | immediate slot im =>
    cases h with
    | timer id => cases hsource
    | immediate entry =>
      cases hsource
      have hcancelled := hgone im (List.mem_of_getElem? ht.1) rfl
      rw [ht.2.1] at hcancelled
      cases hcancelled
  | reaction job => cases h <;> cases hsource
  | script | start | sweep | idle => cases hsource

theorem keptByCalls_invoked (env : Env τ Cb) (h : Handle) (n : Nat) :
    KeptByCalls env fun w => h.Issued w ∧ invoked h.source w = n where
  op w op hw := by
    refine ⟨hw.1.applyOp op, ?_⟩
    rw [invoked_applyOp]
    exact hw.2
  consume w slot hw := by
    refine ⟨?_, hw.2⟩
    cases h <;> exact hw.1

/-- A handle of which nothing is left stays so, and its callback is not invoked again. -/
theorem kept_gone (env : Env τ Cb) (h : Handle) (n : Nat) :
    Kept env fun w => (h.Issued w ∧ invoked h.source w = n) ∧ h.Gone w where
  op w op hw := ⟨(keptByCalls_invoked env h n).op w op hw.1, hw.2.applyOp hw.1.1 op⟩
  enter w t ht hw := by
    refine ⟨⟨hw.1.1.enter t, ?_⟩, hw.2.enter t⟩
    rw [invoked_enter, if_neg (hw.2.source_ne ht)]
    exact hw.1.2
  consume w slot hw := by
    refine ⟨(keptByCalls_invoked env h n).consume w slot hw.1, ?_⟩
    cases h with
    | timer id => exact hw.2
    | immediate entry =>
      intro im him
      exact hw.2 im (mem_immediates_consume him)

/-! ## Clearing -/

theorem gone_clear (env : Env τ Cb) (w : World τ Cb) (h : Handle) :
    h.Gone (applyOp env w (.clear h)) := by
  cases h with
  | timer id =>
    intro p hp
    exact of_decide_eq_true (List.mem_filter.mp hp).2
  | immediate entry =>
    intro im him hentry
    simp only [applyOp, clear, List.mem_map, Option.map_eq_some_iff] at him
    obtain ⟨slot, -, im₀, -, rfl⟩ := him
    split at hentry
    next heq => rw [if_pos heq]
    next hne => exact absurd hentry hne

/-- Two states differ at most in what belongs to the handle. -/
structure Untouched (h : Handle) (w w' : World τ Cb) : Prop where
  timers : ∀ p, h ≠ .timer p.1 → (p ∈ w'.pendingTimers ↔ p ∈ w.pendingTimers)
  immediates : ∀ (slot : Nat) im, h ≠ .immediate im.entry →
    (w'.immediates[slot]? = some (some im) ↔ w.immediates[slot]? = some (some im))

theorem untouched_clear (env : Env τ Cb) (w : World τ Cb) (h : Handle) :
    Untouched h w (applyOp env w (.clear h)) := by
  cases h with
  | timer id =>
    refine ⟨?_, fun _ _ _ => Iff.rfl⟩
    intro p hne
    have hid : p.1 ≠ id := fun heq => hne (by rw [heq])
    simp [applyOp, clear, deleteTimer, hid]
  | immediate entry =>
    refine ⟨fun _ _ => Iff.rfl, ?_⟩
    intro slot im hne
    have hentry : im.entry ≠ entry := fun heq => hne (by rw [heq])
    simp only [applyOp, clear, List.getElem?_map, Option.map_eq_some_iff]
    constructor
    · rintro ⟨a, ha, im₀, rfl, him₀⟩
      split at him₀
      next heq =>
        rw [← him₀] at hentry
        exact absurd heq hentry
      next => rw [ha, him₀]
    · intro him
      exact ⟨some im, him, im, rfl, if_neg hentry⟩

/-- Nothing is left of a handle after the call that clears it. -/
theorem Call.gone_result {ts : List (Turn τ Cb)} (c : Call env w ts) {h : Handle}
    (hop : c.op = .clear h) (hissued : h.Issued c.state) :
    (h.Issued c.result ∧ invoked h.source c.result = invoked h.source c.state) ∧
      h.Gone c.result := by
  rw [Call.result, hop]
  exact ⟨⟨hissued.applyOp _, invoked_applyOp env c.state _ _⟩, gone_clear env c.state h⟩

/-- After a handle has been cleared, by script code or in any callback, its callback is not
invoked any more, and the call has left all other timers and immediates as they were. -/
theorem clear_effective (env : Env τ Cb) (moves : List (Move τ Cb))
    (c : Call env {} (turns env {} moves)) {h : Handle} (hop : c.op = .clear h)
    (hissued : h.Issued c.state) :
    invoked h.source (run env {} moves) = invoked h.source c.state ∧
      Untouched h c.state c.result := by
  have hlast := (kept_gone env h _).of_call c (leads_turns env {} moves) (c.gone_result hop hissued)
  refine ⟨hlast.1.2, ?_⟩
  rw [Call.result, hop]
  exact untouched_clear env c.state h

/-- The callback of an immediate clears a timeout that is due in the same pass. -/
def clearsTimeout : Nat → Act Nat Nat
  | 0 => ⟨[.clear (.timer 1)], .returns⟩
  | _ => ⟨[], .returns⟩

theorem clear_effective_same_pass :
    invoked (.timer 1) (run (tickingEnv clearsTimeout) {}
      [.script (.setTimeout 0 none), .script (.setImmediate 1), .pass]) = 0 := by
  let c : Call (tickingEnv clearsTimeout) {} (turns (tickingEnv clearsTimeout) {}
      [.script (.setTimeout 0 none), .script (.setImmediate 1), .pass]) :=
    { before := [.script (.setTimeout 0 none), .script (.setImmediate 1), .start]
      turn := .immediate 0 ⟨0, 1, false⟩
      after := [.sweep, .idle]
      opsBefore := []
      op := .clear (.timer 1)
      opsAfter := []
      turns_eq := rfl
      ops_eq := rfl }
  exact (clear_effective _ _ c rfl (Nat.lt_succ_self 1)).1

/-! ## Timeouts -/

/-- A timeout that is pending has not fired, and it fires once. -/
structure OneShot (id : Nat) (w : World τ Cb) : Prop where
  issued : id < w.timerSeq
  pending : ∀ t, (id, t) ∈ w.pendingTimers → t.repeats = false ∧ invoked (.timer id) w = 0
  once : invoked (.timer id) w ≤ 1

theorem OneShot.applyOp {id : Nat} (h : OneShot id w) (op : Op τ Cb) :
    OneShot id (applyOp env w op) where
  issued := Nat.lt_of_lt_of_le h.issued (timerSeq_le_applyOp env w op)
  pending t ht := by
    rw [invoked_applyOp]
    rcases mem_pendingTimers_applyOp ht with ⟨ht, -⟩ | ⟨fn, ms, repeats, -, heq⟩ |
        ⟨t₀, unref, -, ht₀, rfl⟩ | ⟨t₀, -, ht₀, rfl⟩
    · exact h.pending t ht
    · cases heq
      exact absurd h.issued (Nat.lt_irrefl _)
    · exact h.pending t₀ ht₀
    · exact h.pending t₀ ht₀
  once := by
    rw [invoked_applyOp]
    exact h.once

omit [Zero τ] in
theorem OneShot.enter {id : Nat} (h : OneShot id w) {t : Turn τ Cb} (ht : t.Enabled env w) :
    OneShot id (t.enter env w) := by
  have hinvoked := invoked_enter env w t (.timer id)
  by_cases hsource : t.source = some (.timer id)
  case pos =>
    obtain ⟨t₀, rfl⟩ : ∃ t₀, t = .timer id t₀ := by
      cases t with
      | timer id' t₀ =>
        cases hsource
        exact ⟨t₀, rfl⟩
      | script | start | immediate | sweep | idle | reaction => cases hsource
    obtain ⟨hrepeats, hzero⟩ := h.pending t₀ (bestDue_mem ht)
    rw [if_pos hsource, hzero] at hinvoked
    refine ⟨?_, ?_, Nat.le_of_eq hinvoked⟩
    · rw [(counters_enter env w _).1]
      exact h.issued
    · -- the timeout has been removed before its callback is called
      intro t ht'
      rcases mem_pendingTimers_enter ht' with ⟨-, hother⟩ | ⟨t₁, -, heq, hkept, -⟩
      · exact absurd rfl (hother t₀)
      · cases heq
        exact absurd hkept (by rw [hrepeats]; decide)
  case neg =>
    rw [if_neg hsource, Nat.add_zero] at hinvoked
    refine ⟨?_, ?_, hinvoked ▸ h.once⟩
    · rw [(counters_enter env w t).1]
      exact h.issued
    · intro t' ht'
      rw [hinvoked]
      rcases mem_pendingTimers_enter ht' with ⟨ht', -⟩ | ⟨t₀, t₁, rfl, -⟩
      · exact h.pending t' ht'
      · exact absurd rfl hsource

theorem kept_oneShot (env : Env τ Cb) (id : Nat) : Kept env (OneShot id) where
  op _ op h := h.applyOp op
  enter _ _ ht h := h.enter ht
  consume _ _ h := ⟨h.issued, h.pending, h.once⟩

theorem oneShot_setTimeout (h : Numbered w) (env : Env τ Cb) (fn : Cb) (ms : Option τ) :
    OneShot w.timerSeq (applyOp env w (.setTimeout fn ms)) := by
  have hzero : invoked (.timer w.timerSeq) w = 0 :=
    h.invoked_eq_zero (h := .timer w.timerSeq) (Nat.lt_irrefl _)
  refine ⟨Nat.lt_succ_self _, ?_, ?_⟩
  · intro t ht
    rw [invoked_applyOp]
    refine ⟨?_, hzero⟩
    simp only [applyOp, addTimer, readClock, List.mem_append, List.mem_singleton] at ht
    rcases ht with ht | ht
    · exact absurd (h.ids_lt _ ht) (Nat.lt_irrefl _)
    · cases ht
      rfl
  · rw [invoked_applyOp, hzero]
    exact Nat.zero_le _

/-! ## Immediates -/

/-- The callback of an immediate that throws has cleared its own handle. -/
def Turn.Orderly (env : Env τ Cb) (w : World τ Cb) : Turn τ Cb → Prop
  | .immediate _ im =>
    (env.behave w.calls im.fn).ending = .returns ∨
      .clear (.immediate im.entry) ∈ (env.behave w.calls im.fn).ops
  | _ => True

/-- The callback of an immediate has been invoked at most once, and if so the immediate is
gone. -/
structure Once (entry : Nat) (w : World τ Cb) : Prop where
  issued : (Handle.immediate entry).Issued w
  once : invoked (.immediate entry) w ≤ 1
  gone : invoked (.immediate entry) w ≠ 0 → (Handle.immediate entry).Gone w

theorem keptByCalls_once (env : Env τ Cb) (entry : Nat) : KeptByCalls env (Once entry) where
  op w op h := by
    refine ⟨h.issued.applyOp op, ?_, ?_⟩
    · rw [invoked_applyOp]
      exact h.once
    · rw [invoked_applyOp]
      intro hinvoked
      exact (h.gone hinvoked).applyOp h.issued op
  consume w slot h := by
    refine ⟨h.issued, h.once, ?_⟩
    intro hinvoked im him
    exact h.gone hinvoked im (mem_immediates_consume him)

omit [LinearOrder τ] [Zero τ] in
theorem Once.enter {entry : Nat} (h : Once entry w) {t : Turn τ Cb}
    (hsource : t.source ≠ some (.immediate entry)) : Once entry (t.enter env w) := by
  have hinvoked := invoked_enter env w t (.immediate entry)
  rw [if_neg hsource, Nat.add_zero] at hinvoked
  refine ⟨h.issued.enter t, hinvoked ▸ h.once, ?_⟩
  intro hne
  exact (h.gone (hinvoked ▸ hne)).enter t

omit [LinearOrder τ] [Add τ] [Zero τ] in
/-- Where the slot of an entry is set to null, nothing is left of it. -/
theorem Numbered.gone_of_consumed (h : Numbered w) {slot : Nat} {im : Immediate Cb}
    (hslot : w.immediates[slot]? = some (some im)) :
    (Handle.immediate im.entry).Gone { w with immediates := w.immediates.set slot none } := by
  intro im' him' hentry
  obtain ⟨k, -, hcases⟩ := h.of_mem_consumed hslot him'
  rcases hcases with ⟨-, hlt⟩ | ⟨-, hlt⟩
  · exact absurd hentry hlt.ne'
  · exact absurd hentry hlt.ne

theorem gone_of_clear_mem {h : Handle} {ops : List (Op τ Cb)} (hclear : .clear h ∈ ops)
    (hissued : h.Issued w) : h.Gone (ops.foldl (applyOp env) w) := by
  obtain ⟨before, after, rfl⟩ := List.append_of_mem hclear
  rw [List.foldl_append, List.foldl_cons]
  have hbefore : h.Issued (before.foldl (applyOp env) w) :=
    applyOps_rule h.Issued (fun op _ v hv => hv.applyOp op) hissued
  have hcleared := gone_clear env (before.foldl (applyOp env) w) h
  exact (applyOps_rule (fun v => h.Issued v ∧ h.Gone v)
    (fun op _ v hv => ⟨hv.1.applyOp op, hv.2.applyOp hv.1 op⟩)
    ⟨hbefore.applyOp _, hcleared⟩).2

/-- After an orderly turn of its own, nothing is left of an immediate. -/
theorem gone_of_turn (hnumbered : Numbered w) {slot : Nat} {im : Immediate Cb}
    (ht : (Turn.immediate slot im).Enabled env w)
    (horderly : (Turn.immediate slot im).Orderly env w) :
    (Handle.immediate im.entry).Gone ((Turn.immediate slot im).apply env w) := by
  have hissued : (Handle.immediate im.entry).Issued w :=
    hnumbered.entries_lt im (List.mem_of_getElem? ht.1)
  rw [Turn.apply]
  cases hending : ((Turn.immediate slot im).act env w).ending with
  | returns =>
    obtain ⟨im', hslot, hentry⟩ := slot_entry_ops env
      ((Turn.immediate slot im).enter env w) ((Turn.immediate slot im).act env w).ops
      ⟨im, ht.1, rfl⟩
    rw [← hentry]
    exact ((kept_numbered env).ops _ (hnumbered.enter ht)).gone_of_consumed hslot
  | throws text =>
    rcases horderly with hreturns | hclear
    · cases hreturns.symm.trans hending
    · exact gone_of_clear_mem hclear hissued

theorem Once.apply {entry : Nat} (h : Once entry w) (hnumbered : Numbered w) {t : Turn τ Cb}
    (ht : t.Enabled env w) (horderly : t.Orderly env w) : Once entry (t.apply env w) := by
  by_cases hsource : t.source = some (.immediate entry)
  case neg =>
    have hkept := keptByCalls_once env entry
    exact hkept.leave t _ (hkept.ops _ (h.enter hsource))
  case pos =>
    -- its own turn is its first, since an immediate that has run is gone
    have hzero : invoked (.immediate entry) w = 0 := by
      by_contra hne
      exact (h.gone hne).source_ne ht hsource
    have hkept := keptByCalls_invoked env (.immediate entry) 1
    have henter : (Handle.immediate entry).Issued (t.enter env w) ∧
        invoked (.immediate entry) (t.enter env w) = 1 := by
      rw [invoked_enter, hzero, if_pos hsource]
      exact ⟨h.issued.enter t, rfl⟩
    obtain ⟨hissued, hone⟩ := hkept.leave t (t.act env w).ending (hkept.ops _ henter)
    refine ⟨hissued, Nat.le_of_eq hone, fun _ => ?_⟩
    cases t with
    | immediate slot im =>
      cases hsource
      exact gone_of_turn hnumbered ht horderly
    | script | start | timer | sweep | idle | reaction => cases hsource

/-- The callback of a registration with `setTimeout` is invoked at most once in every run, and
so is that of a registration with `setImmediate` in every run in which the callbacks of
immediates return or clear their own handle before they throw. -/
theorem oneShot_invoked_once (env : Env τ Cb) (moves : List (Move τ Cb))
    (horderly : Follows (Turn.apply env) (Turn.Orderly env) {} (turns env {} moves))
    (c : Call env {} (turns env {} moves)) :
    (∀ fn ms, c.op = .setTimeout fn ms →
        invoked (.timer c.state.timerSeq) (run env {} moves) ≤ 1) ∧
      ∀ fn, c.op = .setImmediate fn →
        invoked (.immediate c.state.entries) (run env {} moves) ≤ 1 := by
  have hleads := leads_turns env {} moves
  have hnumbered := (kept_numbered env).call_state c hleads numbered_initial
  constructor
  · intro fn ms hop
    have hresult : OneShot c.state.timerSeq c.result := by
      rw [Call.result, hop]
      exact oneShot_setTimeout hnumbered env fn ms
    exact ((kept_oneShot env _).of_call c hleads hresult).once
  · intro fn hop
    have hresult : (Handle.immediate c.state.entries).Issued c.result ∧
        invoked (.immediate c.state.entries) c.result = 0 := by
      rw [Call.result, invoked_applyOp, hop]
      exact ⟨Nat.lt_succ_self _,
        hnumbered.invoked_eq_zero (h := .immediate c.state.entries) (Nat.lt_irrefl _)⟩
    -- the turn that registers the immediate is not its own, whatever else it calls
    obtain ⟨hissued, hzero⟩ := (keptByCalls_invoked env (.immediate _) 0).call_next c hresult
    have hnext : Once c.state.entries c.next :=
      ⟨hissued, Nat.le_trans (Nat.le_of_eq hzero) (Nat.zero_le 1), fun hne => absurd hzero hne⟩
    have hnumbered' := (kept_numbered env).call_next c (hnumbered.applyOp c.op)
    have hafter : Leads env c.next c.after (run env {} moves) :=
      ⟨(c.follows hleads.1).2.2, c.foldl_after.trans hleads.2⟩
    have hlast := hafter.rule (c.follows horderly).2.2 hnumbered'
      (fun _ _ hv ht horderly honce => honce.apply hv ht horderly) hnext
    exact hlast.once

/-- The first callback throws. -/
def throwsFirst : Nat → Act Nat Nat
  | 0 => ⟨[], .throws none⟩
  | _ => ⟨[], .returns⟩

/-- The first callback clears the first immediate and throws. -/
def clearsAndThrows : Nat → Act Nat Nat
  | 0 => ⟨[.clear (.immediate 0)], .throws none⟩
  | _ => ⟨[], .returns⟩

def throwingRun : List (Move Nat Nat) := [.script (.setImmediate 0), .pass, .pass]

/-- The call with which the run begins. -/
def registration (env : Env Nat Nat) : Call env {} (turns env {} throwingRun) where
  before := []
  turn := .script (.setImmediate 0)
  after := _
  opsBefore := []
  op := .setImmediate 0
  opsAfter := []
  turns_eq := rfl
  ops_eq := rfl

theorem oneShot_invoked_once_cleared :
    invoked (.immediate 0) (run (tickingEnv clearsAndThrows) {} throwingRun) ≤ 1 := by
  have horderly : Follows (Turn.apply (tickingEnv clearsAndThrows))
      (Turn.Orderly (tickingEnv clearsAndThrows)) {}
      [.script (.setImmediate 0), .start, .immediate 0 ⟨0, 0, false⟩, .start, .sweep, .idle] :=
    ⟨trivial, trivial, .inr List.mem_cons_self, trivial, trivial, trivial, trivial⟩
  exact (oneShot_invoked_once _ throwingRun horderly (registration _)).2 0 rfl

/-- An immediate whose callback throws is invoked again in the next pass. -/
theorem immediate_invoked_twice :
    ∃ c : Call (tickingEnv throwsFirst) {} (turns (tickingEnv throwsFirst) {} throwingRun),
      c.op = .setImmediate 0 ∧
        invoked (.immediate c.state.entries)
          (run (tickingEnv throwsFirst) {} throwingRun) = 2 :=
  ⟨registration _, rfl, by decide⟩

end Timers
