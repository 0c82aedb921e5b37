import QuickjsRuntime.Timers.Calls
import QuickjsRuntime.Timers.Drain
import QuickjsRuntime.Timers.Selection

/-! # What a blocking drain leaves behind

A blocking drain that returns has found no ref'd timer at the end of its last pass.
The immediates queued by timer callbacks of that pass, what the promise reactions
after it register or ref, and timers that are never due are not seen by that test.
The queue is empty when the drain returns exactly if nothing of these is left.

Each loop has a rule: what one invocation keeps is kept by the whole loop.
-/

namespace Timers

variable {τ Cb : Type} [LinearOrder τ] [Add τ] [Zero τ] {env : Env τ Cb} {w w' : World τ Cb}

/-! ## Rules for the loops -/

/-- The state a loop of the pass ends in. -/
def Phase.world : Phase τ Cb → World τ Cb
  | .capped _ w => w
  | .threw _ w => w
  | .done _ w => w

theorem applyOps_rule (P : World τ Cb → Prop) {ops : List (Op τ Cb)}
    (hop : ∀ op ∈ ops, ∀ w, P w → P (applyOp env w op)) (h : P w) :
    P (ops.foldl (applyOp env) w) := by
  induction ops generalizing w with
  | nil => exact h
  | cons op ops ih =>
    refine ih ?_ (hop op List.mem_cons_self w h)
    intro op' hop'
    exact hop op' (List.mem_cons_of_mem _ hop')

theorem invoke_rule (P : World τ Cb → Prop) {source : Source} {fn : Cb}
    (hstart : P (started w source fn))
    (hop : ∀ op ∈ (env.behave w.calls fn).ops, ∀ w, P w → P (applyOp env w op)) :
    P (invoke env w source fn).2 :=
  applyOps_rule P hop hstart

theorem nextImmediate_some {slots : List (Option (Immediate Cb))} {i j : Nat} {im : Immediate Cb}
    (h : nextImmediate slots i = some (j, im)) :
    ∃ k, j = i + k ∧ slots[k]? = some (some im) ∧ im.cancelled = false ∧
      ∀ m < k, ∀ im', slots[m]? = some (some im') → im'.cancelled = true := by
  induction slots generalizing i with
  | nil => cases h
  | cons slot rest ih =>
    have hskip : nextImmediate rest (i + 1) = some (j, im) →
        (∀ im', slot = some im' → im'.cancelled = true) →
        ∃ k, j = i + k ∧ (slot :: rest)[k]? = some (some im) ∧ im.cancelled = false ∧
          ∀ m < k, ∀ im', (slot :: rest)[m]? = some (some im') → im'.cancelled = true := by
      intro hrest hslot
      obtain ⟨k, hk, hget, hlive, hdead⟩ := ih hrest
      refine ⟨k + 1, by omega, by simpa using hget, hlive, ?_⟩
      intro m hm im' him'
      cases m with
      | zero => exact hslot im' (by simpa using him')
      | succ m => exact hdead m (by omega) im' (by simpa using him')
    cases slot with
    | none => exact hskip h (by simp)
    | some head =>
      simp only [nextImmediate] at h
      split at h
      next hcancelled => exact hskip h (by simpa using hcancelled)
      next hlive =>
        cases h
        exact ⟨0, rfl, rfl, by simpa using hlive, by simp⟩

theorem nextImmediate_none {slots : List (Option (Immediate Cb))} {i : Nat}
    (h : nextImmediate slots i = none) :
    ∀ im, some im ∈ slots → im.cancelled = true := by
  induction slots generalizing i with
  | nil => simp
  | cons slot rest ih =>
    cases slot with
    | none => simpa using ih h
    | some head =>
      simp only [nextImmediate] at h
      split at h
      next hcancelled => simpa [hcancelled] using ih h
      next => cases h

theorem nextImmediate_eq_none_of_allCancelled {slots : List (Option (Immediate Cb))}
    (h : ∀ im, some im ∈ slots → im.cancelled = true) (i : Nat) : nextImmediate slots i = none := by
  cases hnext : nextImmediate slots i with
  | none => rfl
  | some found =>
    obtain ⟨k, -, hget, hlive, -⟩ := nextImmediate_some hnext
    rw [h found.2 (List.mem_of_getElem? hget)] at hlive
    cases hlive

theorem runImmediates_rule (P : World τ Cb → Prop)
    (hinvoke : ∀ w im, P w → some im ∈ w.immediates →
      P (invoke env w (.immediate im.entry) im.fn).2)
    (hnull : ∀ w j, P w → P { w with immediates := w.immediates.set j none })
    (budget i ran : Nat) (h : P w) : P (runImmediates env budget i ran w).world := by
  induction budget generalizing i ran w with
  | zero =>
    unfold runImmediates
    split <;> exact h
  | succ budget ih =>
    unfold runImmediates
    split
    next => exact h
    next j im hnext =>
      obtain ⟨k, -, hget, -⟩ := nextImmediate_some hnext
      have hmem : some im ∈ w.immediates := List.mem_of_mem_drop (List.mem_of_getElem? hget)
      have hrun := hinvoke w im h hmem
      split
      next text w₁ heq => rwa [heq] at hrun
      next w₁ heq =>
        rw [heq] at hrun
        exact ih _ _ (hnull w₁ j hrun)

theorem runTimers_rule (P : World τ Cb → Prop) (hclock : ∀ w, P w → P (readClock env w).2)
    (hinvoke : ∀ w n id t, P w → (id, t) ∈ w.pendingTimers →
      P (invoke env (rearm w (env.now n) id t) (.timer id) t.fn).2)
    (budget ran : Nat) (h : P w) : P (runTimers env budget ran w).world := by
  induction budget generalizing ran w with
  | zero => exact h
  | succ budget ih =>
    have hread := hclock w h
    simp only [runTimers, readClock] at hread ⊢
    split
    next => exact hread
    next id t hbest =>
      have hrun := hinvoke _ w.reads id t hread (bestDue_mem hbest)
      split
      next text w₁ heq => rwa [heq] at hrun
      next w₁ heq =>
        rw [heq] at hrun
        exact ih _ hrun

/-- Every promise job keeps the property. -/
def KeptByJobs (env : Env τ Cb) (P : World τ Cb → Prop) : Prop :=
  ∀ w job rest, P w → w.jobs = job :: rest → P (invoke env { w with jobs := rest } .reaction job).2

/-- The due time that a registration computes is finite, whatever the clock shows. -/
def Op.FiniteDue (env : Env τ Cb) : Op τ Cb → Prop
  | .setTimeout _ ms => ∀ n, env.isFinite (env.now n + delayOf ms) ∧ env.isFinite (env.now n + 0)
  | .setInterval _ ms => ∀ n, env.isFinite (env.now n + delayOf ms)
  | _ => True

/-- The timer is due at some time, and would be if it were armed again. -/
def Timer.FiniteDue (env : Env τ Cb) (t : Timer τ Cb) : Prop :=
  env.isFinite t.due ∧ ∀ n, env.isFinite (env.now n + t.ms)

def FiniteTimers (env : Env τ Cb) (w : World τ Cb) : Prop :=
  ∀ p ∈ w.pendingTimers, p.2.FiniteDue env

/-- The call registers a timer with this callback, or refs the timer. -/
def Op.HoldsTimer (op : Op τ Cb) (p : Nat × Timer τ Cb) : Prop :=
  (∃ ms repeats, op.registers = some (p.2.fn, ms, repeats)) ∨ op.setsUnref = some (p.1, false)

/-- The calls an invocation makes. -/
def Invocation.ops (env : Env τ Cb) (inv : Invocation Cb) : List (Op τ Cb) :=
  (env.behave inv.number inv.fn).ops

def Invocation.FiniteDue (env : Env τ Cb) (inv : Invocation Cb) : Prop :=
  ∀ op ∈ inv.ops env, op.FiniteDue env

/-- Every recorded invocation from number `since` on meets the condition. -/
def Recorded (ok : Invocation Cb → Prop) (since : Nat) (w : World τ Cb) : Prop :=
  ∀ inv ∈ w.invocations, since ≤ inv.number → ok inv

/-- The two states have the same record. -/
def SameRecord (w w' : World τ Cb) : Prop :=
  w'.invocations = w.invocations ∧ w'.calls = w.calls ∧ w'.passStart = w.passStart

theorem sameRecord_applyOp (w : World τ Cb) (op : Op τ Cb) : SameRecord w (applyOp env w op) := by
  cases op with
  | clear handle => cases handle <;> exact ⟨rfl, rfl, rfl⟩
  | refresh id =>
    simp only [applyOp, refresh]
    split <;> exact ⟨rfl, rfl, rfl⟩
  | _ => exact ⟨rfl, rfl, rfl⟩

omit [LinearOrder τ] [Zero τ] in
theorem sameRecord_rearm (w : World τ Cb) (now : τ) (id : Nat) (t : Timer τ Cb) :
    SameRecord w (rearm w now id t) := by
  unfold rearm
  split <;> exact ⟨rfl, rfl, rfl⟩

/-- An invocation adds itself to the record and nothing else. -/
theorem sameRecord_invoke (env : Env τ Cb) (w : World τ Cb) (source : Source) (fn : Cb) :
    SameRecord (started w source fn) (invoke env w source fn).2 := by
  refine invoke_rule (SameRecord (started w source fn)) ⟨rfl, rfl, rfl⟩ ?_
  intro op _ v hv
  have hkeep : SameRecord v (applyOp env v op) := sameRecord_applyOp v op
  exact ⟨hkeep.1.trans hv.1, hkeep.2.1.trans hv.2.1, hkeep.2.2.trans hv.2.2⟩

variable {since : Nat}

/-- A property of states under the assumption that the invocations so far were fine. -/
def Under (ok : Invocation Cb → Prop) (since : Nat) (Q : World τ Cb → Prop) (w : World τ Cb) :
    Prop :=
  since ≤ w.calls ∧ (Recorded ok since w → Q w)

omit [LinearOrder τ] [Add τ] [Zero τ] in
/-- A step that does not touch the record. -/
theorem Under.same {ok : Invocation Cb → Prop} {Q : World τ Cb → Prop}
    (h : Under ok since Q w) (hinvocations : w'.invocations = w.invocations)
    (hcalls : w'.calls = w.calls) (hQ : Q w → Q w') : Under ok since Q w' := by
  refine ⟨hcalls ▸ h.1, fun hrecorded => hQ (h.2 ?_)⟩
  unfold Recorded at hrecorded
  rwa [hinvocations] at hrecorded

/-- An invocation keeps the property if its own calls do. -/
theorem Under.of_invoke {ok : Invocation Cb → Prop} {Q : World τ Cb → Prop}
    {source : Source} {fn : Cb} (h : Under ok since Q w) (hstart : Q w → Q (started w source fn))
    (hop : ok ⟨w.calls, source, fn⟩ → ∀ op ∈ (env.behave w.calls fn).ops, ∀ w, Q w →
      Q (applyOp env w op)) :
    Under ok since Q (invoke env w source fn).2 := by
  have hsame : SameRecord (started w source fn) (invoke env w source fn).2 :=
    sameRecord_invoke env w source fn
  refine ⟨?_, ?_⟩
  · rw [hsame.2.1]
    exact Nat.le_succ_of_le h.1
  · intro hrecorded
    unfold Recorded at hrecorded
    rw [hsame.1] at hrecorded
    refine invoke_rule Q (hstart (h.2 ?_)) (hop ?_)
    · intro inv hinv hnumber
      exact hrecorded inv (List.mem_cons_of_mem _ hinv) hnumber
    · exact hrecorded _ List.mem_cons_self h.1

/-! ## Finite due times -/

theorem FiniteTimers.applyOp (h : FiniteTimers env w) {op : Op τ Cb} (hop : op.FiniteDue env) :
    FiniteTimers env (applyOp env w op) := by
  intro p hp
  rcases mem_pendingTimers_applyOp hp with ⟨hp, -⟩ | ⟨fn, ms, repeats, hregisters, rfl⟩ |
      ⟨t, unref, -, ht, heq⟩ | ⟨t, -, ht, heq⟩
  · exact h p hp
  · cases op with
    | setTimeout =>
      cases hregisters
      exact ⟨(hop _).1, fun n => (hop n).2⟩
    | setInterval =>
      cases hregisters
      exact ⟨hop _, hop⟩
    | setImmediate | clear | ref | unref | refresh | queueJob => cases hregisters
  · rw [heq]
    exact h _ ht
  · rw [heq]
    exact ⟨(h _ ht).2 _, (h _ ht).2⟩

omit [LinearOrder τ] [Zero τ] in
theorem FiniteTimers.rearm (h : FiniteTimers env w) (n id : Nat) (t : Timer τ Cb) :
    FiniteTimers env (rearm w (env.now n) id t) := by
  intro p hp
  rcases mem_rearm hp with ⟨hp, -⟩ | ⟨t₀, -, ht₀, rfl⟩
  · exact h p hp
  · exact ⟨(h _ ht₀).2 n, (h _ ht₀).2⟩

/-! ## Dead immediates -/

/-- Every immediate in the queue is cancelled. -/
def AllCancelled (w : World τ Cb) : Prop := ∀ im, some im ∈ w.immediates → im.cancelled = true

/-! ## The phases of a pass -/

/-- The slots before `i` hold no uncancelled immediate. -/
def DeadBefore (i : Nat) (w : World τ Cb) : Prop :=
  i ≤ w.immediates.length ∧ ∀ k < i, ∀ im, w.immediates[k]? = some (some im) → im.cancelled = true

/-- Calls cancel immediates in place and append new ones. -/
theorem DeadBefore.applyOp (env : Env τ Cb) {i : Nat} (h : DeadBefore i w) (op : Op τ Cb) :
    DeadBefore i (applyOp env w op) ∧
      w.immediates.length ≤ (applyOp env w op).immediates.length := by
  obtain ⟨f, hf, hslots⟩ := slots_applyOp env w op
  have hdead : ∀ k < i, ∀ im, (w.immediates.map (Option.map f))[k]? = some (some im) →
      im.cancelled = true := by
    intro k hk im him
    rw [List.getElem?_map, Option.map_eq_some_iff] at him
    obtain ⟨slot, hslot, him⟩ := him
    obtain ⟨im₀, rfl, rfl⟩ := Option.map_eq_some_iff.mp him
    exact (hf im₀).2 (h.2 k hk im₀ hslot)
  rcases hslots with ⟨hslots, -⟩ | ⟨fn, hslots, -⟩
  · rw [DeadBefore, hslots, List.length_map]
    exact ⟨⟨h.1, hdead⟩, Nat.le_refl _⟩
  · rw [DeadBefore, hslots, List.length_append, List.length_map]
    refine ⟨⟨Nat.le_add_right_of_le h.1, ?_⟩, Nat.le_add_right _ _⟩
    intro k hk im him
    rw [List.getElem?_append_left (by simpa using Nat.lt_of_lt_of_le hk h.1)] at him
    exact hdead k hk im him

omit [LinearOrder τ] [Add τ] [Zero τ] in
theorem AllCancelled.of_deadBefore {i : Nat} (h : DeadBefore i w)
    (hrest : ∀ im, some im ∈ w.immediates.drop i → im.cancelled = true) : AllCancelled w := by
  intro im him
  obtain ⟨k, hk⟩ := List.mem_iff_getElem?.mp him
  by_cases hlt : k < i
  · exact h.2 k hlt im hk
  · refine hrest im (List.mem_iff_getElem?.mpr ⟨k - i, ?_⟩)
    rw [List.getElem?_drop]
    rwa [Nat.add_sub_cancel' (Nat.le_of_not_lt hlt)]

omit [LinearOrder τ] [Add τ] [Zero τ] in
/-- The slot that is run next, and what is known of the slots before it. -/
theorem DeadBefore.nextImmediate {i j : Nat} {im : Immediate Cb} (h : DeadBefore i w)
    (hnext : nextImmediate (w.immediates.drop i) i = some (j, im)) :
    w.immediates[j]? = some (some im) ∧ im.cancelled = false ∧ DeadBefore j w := by
  obtain ⟨k, rfl, hget, hlive, hskipped⟩ := nextImmediate_some hnext
  rw [List.getElem?_drop] at hget
  refine ⟨hget, hlive, Nat.le_of_lt (List.getElem?_eq_some_iff.mp hget).1, ?_⟩
  intro m hm im' him'
  by_cases hmi : m < i
  · exact h.2 m hmi im' him'
  · refine hskipped (m - i) (by omega) im' ?_
    rw [List.getElem?_drop]
    rwa [Nat.add_sub_cancel' (Nat.le_of_not_lt hmi)]

/-- A callback that returns leaves its slot and those before it dead. -/
theorem DeadBefore.consumed {j : Nat} (h : DeadBefore j w) (env : Env τ Cb)
    (hlt : j < w.immediates.length) (source : Source) (fn : Cb) :
    DeadBefore (j + 1) { (invoke env w source fn).2 with
      immediates := (invoke env w source fn).2.immediates.set j none } := by
  have hafter : DeadBefore j (invoke env w source fn).2 ∧
      j < (invoke env w source fn).2.immediates.length := by
    refine invoke_rule (fun v => DeadBefore j v ∧ j < v.immediates.length) ⟨h, hlt⟩ ?_
    intro op _ v hv
    have hop := hv.1.applyOp env op
    exact ⟨hop.1, Nat.lt_of_lt_of_le hv.2 hop.2⟩
  refine ⟨by simpa using Nat.succ_le_of_lt hafter.2, ?_⟩
  intro m hm im him
  by_cases hmj : m = j
  · subst hmj
    simp [List.getElem?_set_self hafter.2] at him
  · rw [List.getElem?_set_ne (Ne.symm hmj)] at him
    exact hafter.1.2 m (by omega) im him

/-- When the loop over the immediates ends normally, no uncancelled one is left: the
slots before `i` are dead, and those it runs are nulled. -/
theorem runImmediates_done {budget i ran ran' : Nat} (hdead : DeadBefore i w)
    (h : runImmediates env budget i ran w = .done ran' w') : AllCancelled w' := by
  induction budget generalizing i ran w with
  | zero =>
    unfold runImmediates at h
    split at h
    next => cases h
    next hend =>
      cases h
      refine .of_deadBefore hdead ?_
      simp [List.drop_eq_nil_of_le (Nat.le_of_not_lt hend)]
  | succ budget ih =>
    unfold runImmediates at h
    split at h
    next hnone =>
      cases h
      exact .of_deadBefore hdead (nextImmediate_none hnone)
    next j im hnext =>
      obtain ⟨hget, -, hbefore⟩ := hdead.nextImmediate hnext
      split at h
      next => cases h
      next w₁ hreturns =>
        have hlt := (List.getElem?_eq_some_iff.mp hget).1
        have hconsumed := hbefore.consumed env hlt (.immediate im.entry) im.fn
        rw [hreturns] at hconsumed
        exact ih hconsumed h

/-! ## Evaluations -/

theorem ncTimerDrain_rule (P : World τ Cb → Prop)
    (hpass : ∀ w, P w → P { w with passStart := w.calls })
    (himmediate : ∀ w im, P w → some im ∈ w.immediates →
      P (invoke env w (.immediate im.entry) im.fn).2)
    (hnull : ∀ w j, P w → P { w with immediates := w.immediates.set j none })
    (hfilter : ∀ w, P w → P { w with immediates := w.immediates.filter Option.isSome })
    (hclock : ∀ w, P w → P (readClock env w).2)
    (htimer : ∀ w n id t, P w → (id, t) ∈ w.pendingTimers →
      P (invoke env (rearm w (env.now n) id t) (.timer id) t.fn).2)
    (h : P w) : P (ncTimerDrain env w).2 := by
  have hfirst := runImmediates_rule P himmediate hnull env.maxTimerCallbacks 0 0 (hpass w h)
  unfold ncTimerDrain
  split
  next ran v heq => rwa [heq] at hfirst
  next text v heq => rwa [heq] at hfirst
  next ran v heq =>
    rw [heq] at hfirst
    have hsecond := runTimers_rule P hclock htimer (env.maxTimerCallbacks - ran) ran
      (hfilter v hfirst)
    split
    next heq => rwa [heq] at hsecond
    next heq => rwa [heq] at hsecond
    next heq => rwa [heq] at hsecond

/-- The due times are finite as far as those of the recorded registrations were. -/
def Bounded (env : Env τ Cb) (since : Nat) (w : World τ Cb) : Prop :=
  Under (Invocation.FiniteDue env) since (FiniteTimers env) w

theorem Bounded.invoke {source : Source} {fn : Cb} (h : Bounded env since w) :
    Bounded env since (invoke env w source fn).2 :=
  h.of_invoke id fun hinv op hop _ hw => hw.applyOp (hinv op hop)

theorem Bounded.job : KeptByJobs env (Bounded env since) := by
  intro w job rest h _
  have hrest : Bounded env since { w with jobs := rest } := h.same rfl rfl id
  exact hrest.invoke

theorem Bounded.pass (h : Bounded env since w) :
    Bounded env since (ncTimerDrain env w).2 := by
  refine ncTimerDrain_rule (Bounded env since) ?_ ?_ ?_ ?_ ?_ ?_ h
  · exact fun w h => h.same rfl rfl id
  · exact fun w im h _ => h.invoke
  · exact fun w j h => h.same rfl rfl id
  · exact fun w h => h.same rfl rfl id
  · exact fun w h => h.same rfl rfl id
  · intro w n id t h _
    have hsame := sameRecord_rearm w (env.now n) id t
    have hrearmed : Bounded env since (rearm w (env.now n) id t) :=
      h.same hsame.1 hsame.2.1 fun hfinite => hfinite.rearm n id t
    exact hrearmed.invoke

/-! ## The last pass -/

/-- Every ref'd timer was registered or ref'd by a promise reaction from number `since` on. -/
def TracedTimers (env : Env τ Cb) (since : Nat) (w : World τ Cb) : Prop :=
  ∀ p ∈ w.pendingTimers, p.2.unref = false → ∃ inv ∈ w.invocations, since ≤ inv.number ∧
    inv.source = .reaction ∧ ∃ op ∈ inv.ops env, op.HoldsTimer p

/-- Every uncancelled immediate was queued from number `since` on, and not by an immediate. -/
def TracedImmediates (env : Env τ Cb) (since : Nat) (w : World τ Cb) : Prop :=
  ∀ im, some im ∈ w.immediates → im.cancelled = false → ∃ inv ∈ w.invocations,
    since ≤ inv.number ∧ (∀ entry, inv.source ≠ .immediate entry) ∧
      .setImmediate im.fn ∈ inv.ops env

omit [LinearOrder τ] [Add τ] [Zero τ] in
theorem TracedTimers.started (h : TracedTimers env since w) (source : Source)
    (fn : Cb) : TracedTimers env since (started w source fn) := by
  intro p hp href
  obtain ⟨inv, hinv, htraced⟩ := h p hp href
  exact ⟨inv, List.mem_cons_of_mem _ hinv, htraced⟩

omit [LinearOrder τ] [Add τ] [Zero τ] in
theorem TracedImmediates.started (h : TracedImmediates env since w) (source : Source)
    (fn : Cb) : TracedImmediates env since (started w source fn) := by
  intro im him hlive
  obtain ⟨inv, hinv, htraced⟩ := h im him hlive
  exact ⟨inv, List.mem_cons_of_mem _ hinv, htraced⟩

theorem TracedTimers.applyOp (h : TracedTimers env since w) {inv : Invocation Cb}
    (hinv : inv ∈ w.invocations) (hsince : since ≤ inv.number) (hsource : inv.source = .reaction)
    {op : Op τ Cb} (hop : op ∈ inv.ops env) : TracedTimers env since (applyOp env w op) := by
  intro p hp href
  rw [(sameRecord_applyOp w op).1]
  rcases mem_pendingTimers_applyOp hp with ⟨hp, -⟩ | ⟨fn, ms, repeats, hregisters, rfl⟩ |
      ⟨t, unref, hunref, ht, heq⟩ | ⟨t, -, ht, heq⟩
  · exact h p hp href
  · exact ⟨inv, hinv, hsince, hsource, op, hop, .inl ⟨ms, repeats, hregisters⟩⟩
  · obtain rfl : unref = false := by rwa [heq] at href
    exact ⟨inv, hinv, hsince, hsource, op, hop, .inr hunref⟩
  · rw [heq] at href
    obtain ⟨inv', hinv', hsince', hsource', op', hop', hholds⟩ := h _ ht href
    refine ⟨inv', hinv', hsince', hsource', op', hop', ?_⟩
    rwa [Op.HoldsTimer, heq]

theorem TracedImmediates.applyOp (h : TracedImmediates env since w)
    {inv : Invocation Cb} (hinv : inv ∈ w.invocations) (hsince : since ≤ inv.number)
    (hsource : ∀ entry, inv.source ≠ .immediate entry) {op : Op τ Cb} (hop : op ∈ inv.ops env) :
    TracedImmediates env since (applyOp env w op) := by
  intro im him hlive
  rw [(sameRecord_applyOp w op).1]
  rcases mem_immediates_applyOp him with him | ⟨fn, rfl, rfl⟩ | ⟨im₀, -, -, rfl⟩
  · exact h im him hlive
  · exact ⟨inv, hinv, hsince, hsource, hop⟩
  · cases hlive

/-- What the calls of an invocation keep once it is in the record. -/
theorem invoke_recorded_rule (P : World τ Cb → Prop) {source : Source} {fn : Cb}
    (hstart : P (started w source fn))
    (hop : ∀ op ∈ (env.behave w.calls fn).ops, ∀ v, ⟨w.calls, source, fn⟩ ∈ v.invocations →
      P v → P (applyOp env v op)) : P (invoke env w source fn).2 := by
  refine (invoke_rule (fun v => ⟨w.calls, source, fn⟩ ∈ v.invocations ∧ P v)
    ⟨List.mem_cons_self, hstart⟩ ?_).2
  rintro op hmem v ⟨hinv, hv⟩
  refine ⟨?_, hop op hmem v hinv hv⟩
  rwa [(sameRecord_applyOp v op).1]

theorem TracedTimers.invoke {fn : Cb} (h : TracedTimers env since w)
    (hsince : since ≤ w.calls) : TracedTimers env since (invoke env w .reaction fn).2 :=
  invoke_recorded_rule _ (h.started .reaction fn) fun _ hop _ hinv hv =>
    hv.applyOp hinv hsince rfl hop

theorem TracedImmediates.invoke {source : Source} {fn : Cb}
    (h : TracedImmediates env since w) (hsince : since ≤ w.calls)
    (hsource : ∀ entry, source ≠ .immediate entry) :
    TracedImmediates env since (invoke env w source fn).2 :=
  invoke_recorded_rule _ (h.started source fn) fun _ hop _ hinv hv =>
    hv.applyOp hinv hsince hsource hop

/-- What is left is traced to the latest pass, as far as the due times were finite. -/
structure Emptied (env : Env τ Cb) (since : Nat) (w : World τ Cb) : Prop where
  passStart : w.passStart ≤ w.calls
  timers : Recorded (Invocation.FiniteDue env) since w → TracedTimers env w.passStart w
  immediates : TracedImmediates env w.passStart w

theorem Emptied.job : KeptByJobs env (Emptied env since) := by
  intro w job rest h _
  have hsame := sameRecord_invoke env { w with jobs := rest } .reaction job
  have hstart : (invoke env { w with jobs := rest } .reaction job).2.passStart = w.passStart :=
    hsame.2.2
  constructor
  · rw [hstart, hsame.2.1]
    exact Nat.le_succ_of_le h.passStart
  · intro hrecorded
    unfold Recorded at hrecorded
    rw [hsame.1] at hrecorded
    have htraced := h.timers fun inv hinv => hrecorded inv (List.mem_cons_of_mem _ hinv)
    rw [hstart]
    exact TracedTimers.invoke htraced h.passStart
  · rw [hstart]
    exact TracedImmediates.invoke h.immediates h.passStart (by simp)

/-- The evaluation of a pass whose status reaches the host. -/
theorem drainPass_of_error {text : Option String} (h : ncTimerDrain env w = (.error text, w')) :
    (drainPass env w).1 = .error (.drainFailed text) := by
  unfold drainPass eval
  rw [h]
  cases text <;> rfl

theorem drainPass_of_ok {st : Status τ} (h : ncTimerDrain env w = (.ok st, w')) :
    drainPass env w =
      (if st.capped then .error (.maxTimerCallbacks env.maxTimerCallbacks)
        else .ok (st.decoded env),
        if env.autoDrainMicrotasks then (drainMicrotasks env defaultMaxJobs w').2 else w') := by
  unfold drainPass eval
  rw [h]
  dsimp only
  split <;> rfl

/-- A clock that moves on by one at every reading. -/
def tickingEnv (behave : Nat → Act Nat Nat) : Env Nat Nat where
  now n := n
  elapsed _ := 0
  behave n _ := behave n
  isFinite _ := true
  maxTimerCallbacks := 1000
  autoDrainMicrotasks := true

/-- One ref'd timeout that is due. -/
def oneTimer : World Nat Nat where
  timerSeq := 2
  pendingTimers := [(1, { fn := 0, ms := 0, due := 0, repeats := false, unref := false })]

/-- The callback registers the next timer itself. A reaction after the last pass registers one more
and clears it. -/
def callbackChain : Nat → Act Nat Nat
  | 0 => ⟨[.setTimeout 1 (some 3)], .returns⟩
  | 1 => ⟨[.queueJob 2], .returns⟩
  | 2 => ⟨[.setTimeout 3 (some 10), .clear (.timer 3)], .returns⟩
  | _ => ⟨[], .returns⟩

end Timers
