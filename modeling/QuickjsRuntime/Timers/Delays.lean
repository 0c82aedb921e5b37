import Mathlib.Data.List.Nodup
import Mathlib.Logic.Function.Basic
import QuickjsRuntime.Timers.Numbering

/-! # Timers do not fire early

What a timer has to wait for is kept beside the state: the delay that it was registered with,
and the reading at its registration, its last firing or its last `refresh()`. The scheduler
stores the delay of an interval, but not that of a timeout, so that `refresh()` makes a timeout
due at once.
-/

namespace Timers

open Transition (Follows)

variable {τ Cb : Type} [LinearOrder τ] [Add τ] [Zero τ] {env : Env τ Cb}

/-- The delay of a timer and the reading that it counts from. -/
structure Mark (τ : Type) where
  delay : τ
  since : τ
  deriving DecidableEq, Repr

/-- The delay of the timer counts from `now` on. -/
def touch (marks : Nat → Option (Mark τ)) (id : Nat) (now : τ) : Nat → Option (Mark τ) :=
  Function.update marks id ((marks id).map fun mark => { mark with since := now })

/-- The scheduler with the marks of its timers. -/
structure Watched (τ Cb : Type) where
  world : World τ Cb := {}
  marks : Nat → Option (Mark τ) := fun _ => none

variable {s : Watched τ Cb}

/-- A call sets the mark of the timer that it registers, or refreshes while it is pending. -/
def watchOp (env : Env τ Cb) (s : Watched τ Cb) (op : Op τ Cb) : Watched τ Cb where
  world := applyOp env s.world op
  marks :=
    match op with
    | .setTimeout _ ms | .setInterval _ ms =>
      Function.update s.marks s.world.timerSeq (some ⟨delayOf ms, env.now s.world.reads⟩)
    | .refresh id =>
      if s.world.pendingTimers.any (·.1 = id) then touch s.marks id (env.now s.world.reads)
      else s.marks
    | _ => s.marks

namespace Turn

/-- The reading at which a timer fires is the one that it counts from. -/
def watchEnter (env : Env τ Cb) (s : Watched τ Cb) (t : Turn τ Cb) : Watched τ Cb where
  world := t.enter env s.world
  marks :=
    match t with
    | .timer id _ => touch s.marks id (env.now s.world.reads)
    | _ => s.marks

def watchOps (env : Env τ Cb) (s : Watched τ Cb) (t : Turn τ Cb) : Watched τ Cb :=
  (t.act env s.world).ops.foldl (watchOp env) (t.watchEnter env s)

def watch (env : Env τ Cb) (s : Watched τ Cb) (t : Turn τ Cb) : Watched τ Cb where
  world := t.leave (t.act env s.world).ending (t.watchOps env s).world
  marks := (t.watchOps env s).marks

/-- A timer fires at a reading that is its delay after the one that it counts from. -/
def NotEarly (env : Env τ Cb) (s : Watched τ Cb) : Turn τ Cb → Prop
  | .timer id _ =>
    ∃ mark, s.marks id = some mark ∧ mark.since + mark.delay ≤ env.now s.world.reads
  | _ => True

end Turn

/-- A call of `refresh()` is on an interval, or on a timeout without a delay, or has no effect. -/
def Op.RefreshSound (s : Watched τ Cb) : Op τ Cb → Prop
  | .refresh id => ∀ t, (id, t) ∈ s.world.pendingTimers → t.repeats = false →
      ∀ mark, s.marks id = some mark → mark.delay = 0
  | _ => True

/-- The calls of the turn are sound, each where it is made. -/
def Turn.RefreshSound (env : Env τ Cb) (s : Watched τ Cb) (t : Turn τ Cb) : Prop :=
  Follows (watchOp env) Op.RefreshSound (t.watchEnter env s) (t.act env s.world).ops

theorem watchOps_world (env : Env τ Cb) (s : Watched τ Cb) (t : Turn τ Cb) :
    (t.watchOps env s).world = (t.act env s.world).ops.foldl (applyOp env) (t.enter env s.world) :=
  (List.foldl_hom Watched.world fun _ _ => rfl).symm

/-- Watching does not change what happens. -/
theorem watch_world (env : Env τ Cb) (s : Watched τ Cb) (t : Turn τ Cb) :
    (t.watch env s).world = t.apply env s.world := by
  rw [Turn.watch, watchOps_world]
  rfl

/-! ## Due times and marks -/

/-- A pending timer is due its delay after the reading that it counts from, and an interval
keeps its delay. -/
def InTime (s : Watched τ Cb) : Prop :=
  ∀ p ∈ s.world.pendingTimers, ∃ mark, s.marks p.1 = some mark ∧
    p.2.due = mark.since + mark.delay ∧ p.2.ms = if p.2.repeats then mark.delay else 0

omit [LinearOrder τ] [Add τ] [Zero τ] in
theorem touch_self {marks : Nat → Option (Mark τ)} {id : Nat} {mark : Mark τ}
    (h : marks id = some mark) (now : τ) :
    touch marks id now id = some { mark with since := now } := by
  rw [touch, Function.update_self, h]
  rfl

omit [LinearOrder τ] [Add τ] [Zero τ] in
theorem touch_of_ne {id id' : Nat} (h : id' ≠ id) (marks : Nat → Option (Mark τ)) (now : τ) :
    touch marks id now id' = marks id' :=
  Function.update_of_ne h _ _

/-- A call leaves the marks of the other timers. -/
theorem marks_watchOp_of_ne {op : Op τ Cb} {id : Nat} (hid : id < s.world.timerSeq)
    (hop : op ≠ .refresh id) : (watchOp env s op).marks id = s.marks id := by
  cases op with
  | setTimeout | setInterval => exact Function.update_of_ne (Nat.ne_of_lt hid) _ _
  | refresh id' =>
    have hne : id ≠ id' := fun heq => hop (by rw [heq])
    simp only [watchOp]
    split
    · exact touch_of_ne hne _ _
    · rfl
  | setImmediate | clear | ref | unref | queueJob => rfl

theorem marks_watchOp_registers {op : Op τ Cb} {fn : Cb} {ms : Option τ} {repeats : Bool}
    (h : op.registers = some (fn, ms, repeats)) :
    (watchOp env s op).marks s.world.timerSeq = some ⟨delayOf ms, env.now s.world.reads⟩ := by
  cases op with
  | setTimeout | setInterval =>
    cases h
    exact Function.update_self _ _ _
  | setImmediate | clear | ref | unref | refresh | queueJob => cases h

theorem marks_watchOp_refresh {id : Nat} {t : Timer τ Cb} {mark : Mark τ}
    (ht : (id, t) ∈ s.world.pendingTimers) (hmark : s.marks id = some mark) :
    (watchOp env s (.refresh id)).marks id = some { mark with since := env.now s.world.reads } := by
  have hpending : s.world.pendingTimers.any (·.1 = id) :=
    List.any_eq_true.mpr ⟨(id, t), ht, decide_eq_true rfl⟩
  simp only [watchOp, if_pos hpending]
  exact touch_self hmark _

theorem InTime.watchOp (h : InTime s) (hnumbered : Numbered s.world) {op : Op τ Cb}
    (hsound : op.RefreshSound s) : InTime (watchOp env s op) := by
  intro p hp
  rcases mem_pendingTimers_applyOp hp with ⟨hp, hop⟩ | ⟨fn, ms, repeats, hop, rfl⟩ |
      ⟨t, unref, hop, ht, heq⟩ | ⟨t, rfl, ht, heq⟩
  · rw [marks_watchOp_of_ne (hnumbered.ids_lt p hp) hop]
    exact h p hp
  · exact ⟨_, marks_watchOp_registers hop, rfl, rfl⟩
  · have hne : op ≠ .refresh p.1 := by
      rintro rfl
      cases hop
    rw [marks_watchOp_of_ne (hnumbered.ids_lt _ ht) hne, heq]
    exact h _ ht
  · obtain ⟨mark, hmark, -, hms⟩ := h _ ht
    -- the stored period is the delay of an interval and zero for a timeout
    have hdelay : t.ms = mark.delay := by
      dsimp only at hms
      rw [hms]
      split
      next => rfl
      next hrepeats => exact (hsound t ht (by simpa using hrepeats) mark hmark).symm
    refine ⟨_, marks_watchOp_refresh ht hmark, ?_, ?_⟩
    · rw [heq, ← hdelay]
    · rw [heq]
      exact hms

omit [LinearOrder τ] [Add τ] [Zero τ] in
theorem Numbered.timer_unique {w : World τ Cb} (h : Numbered w) {id : Nat} {t t' : Timer τ Cb}
    (ht : (id, t) ∈ w.pendingTimers) (ht' : (id, t') ∈ w.pendingTimers) : t = t' := by
  have hnodup : (w.pendingTimers.map Prod.fst).Nodup := h.ids_increasing.imp Nat.ne_of_lt
  have heq := List.inj_on_of_nodup_map hnodup ht ht' rfl
  exact congrArg Prod.snd heq

theorem InTime.watchEnter (h : InTime s) (hnumbered : Numbered s.world) {t : Turn τ Cb}
    (ht : t.Enabled env s.world) : InTime (t.watchEnter env s) := by
  intro p hp
  rcases mem_pendingTimers_enter hp with ⟨hp, hother⟩ | ⟨t₀, t₁, rfl, hrepeats, ht₁, heq⟩
  · obtain ⟨mark, hmark, hrest⟩ := h p hp
    refine ⟨mark, ?_, hrest⟩
    cases t with
    | timer id t₀ =>
      have hne : p.1 ≠ id := fun heq => hother t₀ (by rw [heq])
      exact (touch_of_ne hne _ _).trans hmark
    | script | start | immediate | sweep | idle | reaction => exact hmark
  · obtain ⟨mark, hmark, -, hms⟩ := h _ ht₁
    obtain rfl := hnumbered.timer_unique (bestDue_mem ht) ht₁
    have hdelay : t₀.ms = mark.delay := hms.trans (if_pos hrepeats)
    refine ⟨_, touch_self hmark _, ?_, ?_⟩
    · rw [heq, ← hdelay]
    · rw [heq]
      exact hms

theorem InTime.watch (h : InTime s) (hnumbered : Numbered s.world) {t : Turn τ Cb}
    (ht : t.Enabled env s.world) (hsound : t.RefreshSound env s) : InTime (t.watch env s) := by
  have hops : Numbered (t.watchOps env s).world ∧ InTime (t.watchOps env s) :=
    hsound.invariant (fun s => Numbered s.world ∧ InTime s)
      (fun s op hs hop => ⟨hs.1.applyOp op, hs.2.watchOp hs.1 hop⟩)
      ⟨hnumbered.enter ht, h.watchEnter hnumbered ht⟩
  intro p hp
  rw [Turn.watch, pendingTimers_leave] at hp
  exact hops.2 p hp

theorem InTime.notEarly (h : InTime s) {t : Turn τ Cb} (ht : t.Enabled env s.world) :
    t.NotEarly env s := by
  cases t with
  | timer id t₀ =>
    obtain ⟨mark, hmark, hdue, -⟩ := h _ (bestDue_mem ht)
    exact ⟨mark, hmark, hdue ▸ bestDue_le ht⟩
  | script | start | immediate | sweep | idle | reaction => trivial

/-- In every run in which `refresh()` is called on a pending timeout only if that was registered
without a delay, no timer fires before its delay has passed since its registration, its last
firing or its last `refresh()`. -/
theorem timers_not_early (env : Env τ Cb) (moves : List (Move τ Cb))
    (hsound : Follows (Turn.watch env) (Turn.RefreshSound env) {} (turns env {} moves)) :
    Follows (Turn.watch env) (Turn.NotEarly env) {} (turns env {} moves) := by
  have hleads := leads_turns env {} moves
  have henabled : Follows (Turn.watch env) (fun s t => t.Enabled env s.world) {}
      (turns env {} moves) :=
    Follows.lift Watched.world (watch_world env) hleads.1
  refine (henabled.and hsound).imp (fun s => Numbered s.world ∧ InTime s) ?_ ?_ ?_
  · intro s t hs ht
    refine ⟨?_, hs.2.watch hs.1 ht.1 ht.2⟩
    rw [watch_world]
    exact (kept_numbered env).apply ht.1 hs.1
  · intro s t hs ht
    exact hs.2.notEarly ht.1
  · exact ⟨numbered_initial, by simp [InTime]⟩

def delayedEnv : Env Nat Nat := tickingEnv fun _ => ⟨[], .returns⟩

/-- An interval of two that is refreshed at reading 1 fires at reading 3. -/
theorem timers_not_early_interval :
    Follows (Turn.watch delayedEnv) (Turn.NotEarly delayedEnv) {}
      [.script (.setInterval 0 (some 2)), .script (.refresh 1), .start, .sweep, .idle, .start,
        .sweep, .timer 1 ⟨0, 2, 3, true, false⟩, .idle] := by
  refine timers_not_early delayedEnv
    [.script (.setInterval 0 (some 2)), .script (.refresh 1), .pass, .pass] ?_
  have hrefresh : Op.RefreshSound (watchOp delayedEnv {} (.setInterval 0 (some 2)))
      (.refresh 1) := by
    intro t ht hrepeats
    cases List.mem_singleton.mp ht
    cases hrepeats
  exact ⟨⟨trivial, trivial⟩, ⟨hrefresh, trivial⟩, trivial, trivial, trivial, trivial, trivial,
    trivial, trivial, trivial⟩

/-- A timeout of ten that is refreshed at reading 1 fires at reading 2. -/
theorem refreshed_timeout_early :
    ¬ Follows (Turn.watch delayedEnv) (Turn.NotEarly delayedEnv) {}
      (turns delayedEnv {} [.script (.setTimeout 0 (some 10)), .script (.refresh 1), .pass]) := by
  intro h
  have hturns : turns delayedEnv {}
      [.script (.setTimeout 0 (some 10)), .script (.refresh 1), .pass] =
      [.script (.setTimeout 0 (some 10)), .script (.refresh 1), .start, .sweep,
        .timer 1 ⟨0, 0, 1, false, false⟩, .idle] := rfl
  rw [hturns] at h
  obtain ⟨-, -, -, -, ⟨mark, hmark, hle⟩, -⟩ := h
  cases hmark
  exact absurd hle (by decide)

end Timers
