import QuickjsRuntime.Timers.Delays
import QuickjsRuntime.Timers.FiringOrder

/-! # Intervals and the timers that wait beside them

An interval is armed again at the reading at which it fires, so that a timer that was due
before that reading comes first from then on. One that is due at just that reading does not
when the period is zero: the interval is due at the same time then, and among equals the
selection prefers the smaller id. With a clock that stands still such a timer never fires.
-/

namespace Timers

open Transition (Follows follows_append)

variable {τ Cb : Type} [LinearOrder τ] [Add τ] [Zero τ] {env : Env τ Cb} {w w' : World τ Cb}
  {ts : List (Turn τ Cb)}

/-- The calls that are made in a list of turns. -/
def made (env : Env τ Cb) : World τ Cb → List (Turn τ Cb) → List (Op τ Cb)
  | _, [] => []
  | w, t :: ts => (t.act env w).ops ++ made env (t.apply env w) ts

/-- Two successive firings of an interval in a list of turns. -/
structure Refiring (ts : List (Turn τ Cb)) where
  before : List (Turn τ Cb)
  id : Nat
  first : Timer τ Cb
  between : List (Turn τ Cb)
  second : Timer τ Cb
  after : List (Turn τ Cb)
  turns_eq : ts = before ++ .timer id first :: (between ++ .timer id second :: after)
  interval : first.repeats = true
  successive : ∀ t, .timer id t ∉ between

namespace Refiring

/-- The state in which the interval fires first. -/
def start (r : Refiring ts) (env : Env τ Cb) (w : World τ Cb) : World τ Cb :=
  r.before.foldl (Turn.apply env) w

/-- The reading of the clock at which it fires first. -/
def reading (r : Refiring ts) (env : Env τ Cb) (w : World τ Cb) : τ :=
  env.now (r.start env w).reads

/-- The timer is neither cleared nor refreshed from the first firing to the second. -/
def Untouched (r : Refiring ts) (env : Env τ Cb) (w : World τ Cb) (id : Nat) : Prop :=
  ∀ op ∈ made env (r.start env w) (.timer r.id r.first :: r.between),
    op ≠ .clear (.timer id) ∧ op ≠ .refresh id

end Refiring

/-- Between two successive firings of an interval every other timer that was due at the first
of them, and is left alone, fires as well. -/
def Fair (env : Env τ Cb) (w : World τ Cb) (ts : List (Turn τ Cb)) : Prop :=
  ∀ r : Refiring ts, ∀ p ∈ (r.start env w).pendingTimers, p.1 ≠ r.id →
    p.2.due ≤ r.reading env w → r.Untouched env w p.1 → ∃ t, .timer p.1 t ∈ r.between

/-- No interval comes to fire again at the due time of a timer with a greater id that was due
at just the reading of its first firing, and is left alone. -/
def Untied (env : Env τ Cb) (w : World τ Cb) (ts : List (Turn τ Cb)) : Prop :=
  ∀ r : Refiring ts, ∀ p ∈ (r.start env w).pendingTimers, r.id < p.1 →
    p.2.due = r.reading env w → r.Untouched env w p.1 → r.second.due ≠ r.reading env w

/-! ## Timers that are left alone -/

/-- The timer is pending with the given due time. -/
def DueAt (id : Nat) (due : τ) (w : World τ Cb) : Prop :=
  ∃ t, (id, t) ∈ w.pendingTimers ∧ t.due = due

omit [LinearOrder τ] [Add τ] [Zero τ] in
theorem DueAt.updateTimer {id : Nat} {due : τ} (h : DueAt id due w) (id' : Nat)
    {f : Timer τ Cb → Timer τ Cb} (hf : id' = id → ∀ t, (f t).due = t.due) :
    DueAt id due (updateTimer w id' f) := by
  obtain ⟨t, ht, hdue⟩ := h
  by_cases hid : id = id'
  · refine ⟨f t, List.mem_map.mpr ⟨(id, t), ht, if_pos hid⟩, ?_⟩
    rw [hf hid.symm, hdue]
  · exact ⟨t, List.mem_map.mpr ⟨(id, t), ht, if_neg hid⟩, hdue⟩

omit [LinearOrder τ] [Add τ] [Zero τ] in
theorem DueAt.deleteTimer {id id' : Nat} {due : τ} (h : DueAt id due w) (hid : id ≠ id') :
    DueAt id due (deleteTimer w id') := by
  obtain ⟨t, ht, hdue⟩ := h
  exact ⟨t, List.mem_filter.mpr ⟨ht, decide_eq_true hid⟩, hdue⟩

theorem DueAt.applyOp {id : Nat} {due : τ} (h : DueAt id due w) {op : Op τ Cb}
    (hclear : op ≠ .clear (.timer id)) (hrefresh : op ≠ .refresh id) :
    DueAt id due (applyOp env w op) := by
  cases op with
  | setTimeout | setInterval =>
    obtain ⟨t, ht, hdue⟩ := h
    exact ⟨t, List.mem_append_left _ ht, hdue⟩
  | clear handle =>
    cases handle with
    | immediate entry => exact h
    | timer id' =>
      refine h.deleteTimer ?_
      rintro rfl
      exact hclear rfl
  | ref id' | unref id' => exact h.updateTimer id' fun _ _ => rfl
  | refresh id' =>
    simp only [Timers.applyOp, refresh]
    split
    · refine DueAt.updateTimer (w := (readClock env w).2) h id' ?_
      rintro rfl
      exact absurd rfl hrefresh
    · exact h
  | setImmediate | queueJob => exact h

omit [LinearOrder τ] [Zero τ] in
theorem DueAt.rearm {id id' : Nat} {due : τ} (h : DueAt id due w) (hid : id ≠ id') (now : τ)
    (t : Timer τ Cb) : DueAt id due (rearm w now id' t) := by
  unfold Timers.rearm
  split
  · exact h.updateTimer id' fun heq => absurd heq.symm hid
  · exact h.deleteTimer hid

omit [LinearOrder τ] [Zero τ] in
theorem DueAt.enter {id : Nat} {due : τ} (h : DueAt id due w) {t : Turn τ Cb}
    (ht : ∀ t₀, t ≠ .timer id t₀) : DueAt id due (t.enter env w) := by
  cases t with
  | timer id' t₀ =>
    have hread : DueAt id due (readClock env w).2 := h
    refine hread.rearm ?_ (env.now w.reads) t₀
    rintro rfl
    exact ht t₀ rfl
  | script | start | immediate | sweep | idle | reaction => exact h

/-- A timer that is left alone and does not fire stays pending as it is. -/
theorem DueAt.foldl {id : Nat} {due : τ} (h : DueAt id due w) {ts : List (Turn τ Cb)}
    (hfires : ∀ t, .timer id t ∉ ts)
    (halone : ∀ op ∈ made env w ts, op ≠ .clear (.timer id) ∧ op ≠ .refresh id) :
    DueAt id due (ts.foldl (Turn.apply env) w) := by
  induction ts generalizing w with
  | nil => exact h
  | cons t ts ih =>
    have henter : DueAt id due (t.enter env w) := by
      refine h.enter ?_
      rintro t₀ rfl
      exact hfires t₀ List.mem_cons_self
    have hops : DueAt id due ((t.act env w).ops.foldl (Timers.applyOp env) (t.enter env w)) := by
      refine applyOps_rule (DueAt id due) ?_ henter
      intro op hop v hv
      obtain ⟨hclear, hrefresh⟩ := halone op (List.mem_append_left _ hop)
      exact hv.applyOp hclear hrefresh
    refine ih ?_ ?_ ?_
    · rwa [DueAt, Turn.apply, pendingTimers_leave]
    · intro t₀ ht₀
      exact hfires t₀ (List.mem_cons_of_mem _ ht₀)
    · intro op hop
      exact halone op (List.mem_append_right _ hop)

/-! ## The due times of one timer -/

/-- While the timer is pending, its period and its due time meet the condition at the number
of readings so far. -/
structure Holding (id : Nat) (P : Nat → τ → τ → Prop) (w : World τ Cb) : Prop where
  issued : id < w.timerSeq
  pending : ∀ t, (id, t) ∈ w.pendingTimers → P w.reads t.ms t.due

/-- The condition is kept by further readings, and when the timer is armed again. -/
structure Lasts (env : Env τ Cb) (P : Nat → τ → τ → Prop) : Prop where
  later : ∀ m n ms due, m ≤ n → P m ms due → P n ms due
  rearmed : ∀ n ms due, P n ms due → P n ms (env.now n + ms)

theorem Lasts.kept {P : Nat → τ → τ → Prop} (hlasts : Lasts env P) (id : Nat) :
    Kept env (Holding id P) where
  op w op h := by
    have hreads := reads_le_applyOp env w op
    refine ⟨Nat.lt_of_lt_of_le h.issued (timerSeq_le_applyOp env w op), ?_⟩
    intro t ht
    refine hlasts.later _ _ _ _ hreads ?_
    rcases mem_pendingTimers_applyOp ht with ⟨ht, -⟩ | ⟨fn, ms, repeats, -, heq⟩ |
        ⟨t₀, unref, -, ht₀, rfl⟩ | ⟨t₀, -, ht₀, rfl⟩
    · exact h.pending t ht
    · cases heq
      exact absurd h.issued (Nat.lt_irrefl _)
    · exact h.pending t₀ ht₀
    · exact hlasts.rearmed _ _ _ (h.pending t₀ ht₀)
  enter w t _ h := by
    refine ⟨(counters_enter env w t).1 ▸ h.issued, ?_⟩
    intro t₁ ht₁
    refine hlasts.later _ _ _ _ (reads_le_enter env w t) ?_
    rcases mem_pendingTimers_enter ht₁ with ⟨ht₁, -⟩ | ⟨-, t₀, -, -, ht₀, heq⟩
    · exact h.pending t₁ ht₁
    · cases heq
      exact hlasts.rearmed _ _ _ (h.pending t₀ ht₀)
  consume _ _ h := ⟨h.issued, h.pending⟩

/-- What holds of an interval as it is armed again holds after its callback. -/
theorem Lasts.fired {P : Nat → τ → τ → Prop} (hlasts : Lasts env P) (hnumbered : Numbered w)
    {id : Nat} {t : Timer τ Cb} (ht : (Turn.timer id t).Enabled env w)
    (harmed : P w.reads t.ms (env.now w.reads + t.ms)) :
    Holding id P ((Turn.timer id t).apply env w) := by
  have hkept : Kept env (Holding id P) := hlasts.kept id
  have henter : Holding id P ((Turn.timer id t).enter env w) := by
    refine ⟨?_, ?_⟩
    · rw [(counters_enter env w (.timer id t)).1]
      exact hnumbered.ids_lt _ (bestDue_mem ht)
    · intro t₁ ht₁
      refine hlasts.later _ _ _ _ (reads_le_enter env w (.timer id t)) ?_
      rcases mem_pendingTimers_enter ht₁ with ⟨-, hother⟩ | ⟨-, t₀, -, -, ht₀, heq⟩
      · exact absurd rfl (hother t)
      · cases heq
        cases hnumbered.timer_unique ht₀ (bestDue_mem ht)
        exact harmed
  exact hkept.leave _ _ (hkept.ops _ henter)

/-- The timer is due in the given set, and is whenever it is armed again. -/
def DueIn (env : Env τ Cb) (dues : Set τ) (n : Nat) (ms due : τ) : Prop :=
  due ∈ dues ∧ ∀ k, n ≤ k → env.now k + ms ∈ dues

omit [LinearOrder τ] [Zero τ] in
theorem lasts_dueIn (env : Env τ Cb) (dues : Set τ) : Lasts env (DueIn env dues) where
  later _ _ _ _ hmn h := ⟨h.1, fun k hk => h.2 k (Nat.le_trans hmn hk)⟩
  rearmed n _ _ h := ⟨h.2 n (Nat.le_refl n), h.2⟩

/-- Armed again, the timer is not due before its due time now. -/
def Rising (env : Env τ Cb) (n : Nat) (ms due : τ) : Prop :=
  ∀ k, n ≤ k → due ≤ env.now k + ms

omit [Zero τ] in
theorem lasts_rising (hadd : ∀ delay, Monotone (env.now · + delay)) : Lasts env (Rising env) where
  later _ _ _ _ hmn h := fun k hk => h k (Nat.le_trans hmn hk)
  rearmed _ ms _ _ := fun _ hk => hadd ms hk

/-! ## Two successive firings -/

namespace Refiring

/-- The state after the first firing. -/
def fired (r : Refiring ts) (env : Env τ Cb) (w : World τ Cb) : World τ Cb :=
  (Turn.timer r.id r.first).apply env (r.start env w)

/-- The state in which the interval fires for the second time. -/
def again (r : Refiring ts) (env : Env τ Cb) (w : World τ Cb) : World τ Cb :=
  r.between.foldl (Turn.apply env) (r.fired env w)

theorem leads (r : Refiring ts) (h : Leads env w ts w') :
    Leads env w r.before (r.start env w) ∧
      (Turn.timer r.id r.first).Enabled env (r.start env w) ∧
      Leads env (r.fired env w) r.between (r.again env w) ∧
      (Turn.timer r.id r.second).Enabled env (r.again env w) := by
  have hfollows := h.1
  rw [r.turns_eq, follows_append] at hfollows
  obtain ⟨hbefore, hfirst, hrest⟩ := hfollows
  rw [follows_append] at hrest
  exact ⟨⟨hbefore, rfl⟩, hfirst, ⟨hrest.1, rfl⟩, hrest.2.1⟩

/-- A condition that lasts, and holds of the interval as it is armed again, holds of it when
it fires for the second time. -/
theorem second_holds (r : Refiring ts) (h : Leads env w ts w') (hnumbered : Numbered w)
    {P : Nat → τ → τ → Prop} (hlasts : Lasts env P)
    (harmed : P (r.start env w).reads r.first.ms (r.reading env w + r.first.ms)) :
    P (r.again env w).reads r.second.ms r.second.due := by
  obtain ⟨hbefore, hfirst, hbetween, hsecond⟩ := r.leads h
  have hstart := (kept_numbered env).leads hbefore hnumbered
  have hfired : Holding r.id P (r.fired env w) := hlasts.fired hstart hfirst harmed
  exact ((hlasts.kept r.id).leads hbetween hfired).pending _ (bestDue_mem hsecond)

end Refiring

/-- An interval that is not held up by its period stays at its reading. -/
theorem Env.Steady.dueIn_reading (hsteady : env.Steady) {n : Nat} {ms due : τ} (hms : 0 ≤ ms)
    (hdue : env.now n ≤ due) : DueIn env {due | env.now n ≤ due} n ms due :=
  ⟨hdue, fun k hk => (hsteady.monotone hk).trans (hsteady.le_add k ms hms)⟩

theorem reading_le_second (hsteady : env.Steady) (hnumbered : Numbered w) (hperiods : Periods w)
    (h : Leads env w ts w') (r : Refiring ts) : r.reading env w ≤ r.second.due := by
  obtain ⟨hbefore, hfirst, -, -⟩ := r.leads h
  have hms : 0 ≤ r.first.ms := (kept_periods env).leads hbefore hperiods _ (bestDue_mem hfirst)
  have harmed := hsteady.dueIn_reading hms (hsteady.le_add (r.start env w).reads r.first.ms hms)
  exact (r.second_holds h hnumbered (lasts_dueIn env _) harmed).1

theorem reads_start_le_again (h : Leads env w ts w') (r : Refiring ts) :
    (r.start env w).reads ≤ (r.again env w).reads := by
  obtain ⟨-, hfirst, hbetween, -⟩ := r.leads h
  have hkept := kept_reads env (r.start env w).reads
  exact hkept.leads hbetween (hkept.apply hfirst (Nat.le_refl _))

theorem fair_of_untied (hsteady : env.Steady) (hnumbered : Numbered w) (hperiods : Periods w)
    (h : Leads env w ts w') (huntied : Untied env w ts) : Fair env w ts := by
  intro r p hp hne hdue halone
  by_contra hfires
  push Not at hfires
  obtain ⟨hbefore, hfirst, hbetween, hsecond⟩ := r.leads h
  have hagain : Numbered (r.again env w) :=
    (kept_numbered env).leads hbetween
      ((kept_numbered env).apply hfirst ((kept_numbered env).leads hbefore hnumbered))
  -- The timer waits until the second firing, and the interval comes first then.
  have hfires' : ∀ t, .timer p.1 t ∉ Turn.timer r.id r.first :: r.between := by
    intro t ht
    rcases List.mem_cons.mp ht with heq | ht
    · exact hne (Turn.timer.inj heq).1
    · exact hfires t ht
  have hwaits : DueAt p.1 p.2.due (r.again env w) := DueAt.foldl ⟨p.2, hp, rfl⟩ hfires' halone
  obtain ⟨t, ht, htdue⟩ := hwaits
  have hlow := reading_le_second hsteady hnumbered hperiods h r
  have hready : t.due ≤ env.now (r.again env w).reads := by
    rw [htdue]
    exact hdue.trans (hsteady.monotone (reads_start_le_again h r))
  have hleast := bestDue_least hsecond hagain.ids_increasing ht hready
  rw [Prod.Lex.toLex_le_toLex, htdue] at hleast
  -- the interval is due no earlier than the reading, the timer no later: they are due together
  rcases hleast with hlt | ⟨heq, hid⟩
  · exact absurd (hlow.trans_lt hlt) (not_lt.mpr hdue)
  · have hsame : r.second.due = p.2.due := heq
    rw [hsame] at hlow
    have hexact : p.2.due = r.reading env w := le_antisymm hdue hlow
    have hlt : r.id < p.1 := Nat.lt_of_le_of_ne hid (Ne.symm hne)
    exact huntied r p hp hlt hexact halone (hsame.trans hexact)

omit [Add τ] [Zero τ] in
/-- A timer is due later than one of a greater id that fires before it. -/
theorem due_lt_of_fires (hnumbered : Numbered w) {id id' : Nat} {t t' : Timer τ Cb}
    (hfires : (Turn.timer id' t').Enabled env w) (ht : (id, t) ∈ w.pendingTimers) (hid : id < id') :
    t'.due < t.due := by
  rcases le_or_gt t.due (env.now w.reads) with hdue | hlater
  · have hleast := bestDue_least hfires hnumbered.ids_increasing ht hdue
    rw [Prod.Lex.toLex_le_toLex] at hleast
    rcases hleast with hlt | ⟨-, hle⟩
    · exact hlt
    · exact absurd hid (Nat.not_lt.mpr hle)
  · exact (bestDue_le hfires).trans_lt hlater

/-- Where the other timer fires first, the interval is due after the reading at which that
timer was due, and stays so. -/
theorem untied_of_fair (hsteady : env.Steady) (hadd : ∀ delay, Monotone (env.now · + delay))
    (hnumbered : Numbered w) (hperiods : Periods w) (h : Leads env w ts w')
    (hfair : Fair env w ts) : Untied env w ts := by
  intro r p hp hid hdue halone hsecondDue
  obtain ⟨t, ht⟩ := hfair r p hp (Nat.ne_of_gt hid) hdue.le halone
  obtain ⟨pre, post, hsplit⟩ := List.append_of_mem ht
  obtain ⟨hbefore, hfirst, hbetween, hsecond⟩ := r.leads h
  have hstart := (kept_numbered env).leads hbefore hnumbered
  have hms : 0 ≤ p.2.ms := (kept_periods env).leads hbefore hperiods _ hp
  rw [hsplit] at hbetween
  obtain ⟨hfollows, hlast⟩ := hbetween
  rw [follows_append] at hfollows
  obtain ⟨hpre, hother, hpost⟩ := hfollows
  rw [List.foldl_append, List.foldl_cons] at hlast
  -- `v` is the state in which the other timer fires.
  generalize hv : pre.foldl (Turn.apply env) (r.fired env w) = v at hother hpost hlast
  have hkeep {P : World τ Cb → Prop} (hkept : Kept env P) (hP : P (r.fired env w)) : P v :=
    hkept.leads ⟨hpre, hv⟩ hP
  have hnumbered' : Numbered v :=
    hkeep (kept_numbered env) ((kept_numbered env).apply hfirst hstart)
  have hwaits : Holding p.1 (DueIn env {due | r.reading env w ≤ due}) v := by
    have hkept : Kept env (Holding p.1 (DueIn env {due | r.reading env w ≤ due})) :=
      (lasts_dueIn env _).kept p.1
    refine hkeep hkept (hkept.apply hfirst ⟨hstart.ids_lt p hp, ?_⟩)
    intro t₁ ht₁
    cases hstart.timer_unique ht₁ hp
    exact hsteady.dueIn_reading hms hdue.ge
  have hrising : Holding r.id (Rising env) v :=
    hkeep ((lasts_rising hadd).kept r.id)
      ((lasts_rising hadd).fired hstart hfirst fun _ hk => hadd r.first.ms hk)
  -- The interval lost against a greater id, so it is due later, and is no sooner when re-armed.
  have hlate : Holding r.id (DueIn env {due | r.reading env w < due}) v := by
    refine ⟨hrising.issued, ?_⟩
    intro s hs
    have hlow : r.reading env w ≤ t.due := (hwaits.pending t (bestDue_mem hother)).1
    have hlt : r.reading env w < s.due :=
      hlow.trans_lt (due_lt_of_fires hnumbered' hother hs hid)
    exact ⟨hlt, fun k hk => hlt.trans_le (hrising.pending s hs k hk)⟩
  have hkept : Kept env (Holding r.id (DueIn env {due | r.reading env w < due})) :=
    (lasts_dueIn env _).kept r.id
  have hagain := hkept.leads ⟨hpost, hlast⟩ (hkept.apply hother hlate)
  have hafter := (hagain.pending r.second (bestDue_mem hsecond)).1
  exact absurd hsecondDue hafter.ne'

/-! ## A guard on each firing -/

/-- When an interval fires whose period does not take it past the reading, no timer of a
greater id is due at just that reading. -/
def Turn.Unrivalled (env : Env τ Cb) (w : World τ Cb) : Turn τ Cb → Prop
  | .timer id t => t.repeats = true → env.now w.reads + t.ms = env.now w.reads →
      ∀ p ∈ w.pendingTimers, id < p.1 → p.2.due ≠ env.now w.reads
  | _ => True

theorem untied_of_unrivalled (hsteady : env.Steady)
    (hadd : ∀ delay, Monotone (env.now · + delay)) (hnumbered : Numbered w)
    (hperiods : Periods w) (h : Leads env w ts w')
    (hguard : Follows (Turn.apply env) (Turn.Unrivalled env) w ts) : Untied env w ts := by
  intro r p hp hid hdue halone hsecondDue
  obtain ⟨hbefore, hfirst, -, -⟩ := r.leads h
  have hms : 0 ≤ r.first.ms := (kept_periods env).leads hbefore hperiods _ (bestDue_mem hfirst)
  have hpast : r.reading env w ≤ r.reading env w + r.first.ms := hsteady.le_add _ _ hms
  have hlow : r.reading env w + r.first.ms ≤ r.second.due := by
    have harmed : DueIn env {due | r.reading env w + r.first.ms ≤ due} (r.start env w).reads
        r.first.ms (r.reading env w + r.first.ms) := ⟨le_refl _, fun _ hk => hadd r.first.ms hk⟩
    exact (r.second_holds h hnumbered (lasts_dueIn env _) harmed).1
  have hstays : r.reading env w + r.first.ms = r.reading env w :=
    le_antisymm (hlow.trans hsecondDue.le) hpast
  rw [r.turns_eq, follows_append] at hguard
  exact hguard.2.1 r.interval hstays p hp hid hdue

/-! ## Passes -/

/-- A pass is fair to the timers beside its intervals exactly when no interval comes to fire
again at the due time of one that was due at just the reading before. -/
theorem pass_fair_iff (hsteady : env.Steady) (hadd : ∀ delay, Monotone (env.now · + delay))
    (moves : List (Move τ Cb)) :
    Fair env (run env {} moves) (passTurns env (run env {} moves)) ↔
      Untied env (run env {} moves) (passTurns env (run env {} moves)) := by
  have hpass := leads_passTurns env (run env {} moves)
  have hnumbered := numbered_run env moves
  have hperiods := periods_run env moves
  exact ⟨untied_of_fair hsteady hadd hnumbered hperiods hpass,
    fair_of_untied hsteady hnumbered hperiods hpass⟩

/-- `setInterval(f, 0)`, then `setTimeout(g, 0)`. -/
def zeroDelays : List (Move Nat Nat) :=
  [.script (.setInterval 0 (some 0)), .script (.setTimeout 1 (some 0))]

def threeCallbacksEnv : Env Nat Nat :=
  { tickingEnv (fun _ => ⟨[], .returns⟩) with maxTimerCallbacks := 3 }

/-- With a clock that moves on the timeout fires between two firings of the interval. -/
theorem pass_fair_of_ticking_clock :
    Fair threeCallbacksEnv (run threeCallbacksEnv {} zeroDelays)
      [.start, .sweep, .timer 1 ⟨0, 0, 0, true, false⟩, .timer 2 ⟨1, 0, 1, false, false⟩,
        .timer 1 ⟨0, 0, 2, true, false⟩] := by
  have hsteady : threeCallbacksEnv.Steady :=
    ⟨monotone_id, fun n delay _ => Nat.le_add_right n delay⟩
  have hadd : ∀ delay, Monotone (threeCallbacksEnv.now · + delay) :=
    fun delay _ _ hle => Nat.add_le_add_right hle delay
  refine (pass_fair_iff hsteady hadd zeroDelays).mpr ?_
  refine untied_of_unrivalled hsteady hadd (numbered_run _ _) (periods_run _ _)
    (leads_passTurns _ _) ?_
  refine ⟨trivial, trivial, ?_, nofun, ?_, trivial⟩
  · intro _ _ p hp _
    rcases List.mem_pair.mp hp with rfl | rfl <;> decide
  · intro _ _ p hp hid
    cases List.mem_singleton.mp hp
    exact absurd hid (Nat.lt_irrefl 1)

/-- The clock stands still. -/
def stuckEnv (cap : Nat) : Env Nat Nat :=
  { tickingEnv (fun _ => ⟨[], .returns⟩) with now := fun _ => 0, maxTimerCallbacks := cap }

/-- Each round selects the interval. -/
theorem timerTurns_stuck (cap budget : Nat) {w : World Nat Nat}
    (hw : w.pendingTimers = [(1, ⟨0, 0, 0, true, false⟩), (2, ⟨1, 0, 0, false, false⟩)]) :
    timerTurns (stuckEnv cap) budget w =
      List.replicate budget (.timer 1 ⟨0, 0, 0, true, false⟩) := by
  induction budget generalizing w with
  | zero => rfl
  | succ budget ih =>
    have hbest : bestDue ((stuckEnv cap).now w.reads) w.pendingTimers =
        some (1, ⟨0, 0, 0, true, false⟩) := by
      rw [hw]
      rfl
    rw [timerTurns, hbest, List.replicate_succ]
    dsimp only
    congr 1
    apply ih
    simp [rearm, updateTimer, readClock, started, stuckEnv, tickingEnv, hw]

/-- The two firings of the interval in a pass of two callbacks. -/
def stuckRefiring : Refiring (passTurns (stuckEnv 2) (run (stuckEnv 2) {} zeroDelays)) where
  before := [.start, .sweep]
  id := 1
  first := ⟨0, 0, 0, true, false⟩
  between := []
  second := ⟨0, 0, 0, true, false⟩
  after := []
  turns_eq := rfl
  interval := rfl
  successive := fun _ => List.not_mem_nil

/-- The interval fires as often as the cap admits, and the timeout never does. -/
theorem interval_starves_timeout :
    (¬ Fair (stuckEnv 2) (run (stuckEnv 2) {} zeroDelays)
        (passTurns (stuckEnv 2) (run (stuckEnv 2) {} zeroDelays))) ∧
      ∀ cap, passTurns (stuckEnv cap) (run (stuckEnv cap) {} zeroDelays) =
        .start :: .sweep :: List.replicate cap (.timer 1 ⟨0, 0, 0, true, false⟩) := by
  refine ⟨?_, ?_⟩
  · intro hfair
    obtain ⟨t, ht⟩ := hfair stuckRefiring (2, ⟨1, 0, 0, false, false⟩)
      (List.mem_cons_of_mem _ List.mem_cons_self) (by decide) (Nat.le_refl 0) nofun
    cases ht
  · intro cap
    have hturns : passTurns (stuckEnv cap) (run (stuckEnv cap) {} zeroDelays) =
        .start :: .sweep :: timerTurns (stuckEnv cap) cap (run (stuckEnv cap) {} zeroDelays) := by
      cases cap <;> rfl
    rw [hturns, timerTurns_stuck cap cap rfl]

end Timers
