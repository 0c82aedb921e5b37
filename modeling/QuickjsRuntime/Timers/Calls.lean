import Mathlib.Data.List.Basic
import QuickjsRuntime.Timers.Scheduler

/-! # What a call does to the queues

Each call on the scheduler is analysed once: which timers are pending after it, which slots are
filled, and how the counters move. What calls keep is derived from that.
-/

namespace Timers

variable {τ Cb : Type} [LinearOrder τ] [Add τ] [Zero τ] {env : Env τ Cb} {w : World τ Cb}

/-- The timer that `__addTimer` makes. -/
def newTimer (env : Env τ Cb) (w : World τ Cb) (fn : Cb) (ms : Option τ) (repeats : Bool) :
    Timer τ Cb where
  fn := fn
  ms := if repeats then delayOf ms else 0
  due := env.now w.reads + delayOf ms
  repeats := repeats
  unref := false

/-- The registration that a call makes. -/
def Op.registers : Op τ Cb → Option (Cb × Option τ × Bool)
  | .setTimeout fn ms => some (fn, ms, false)
  | .setInterval fn ms => some (fn, ms, true)
  | _ => none

/-- The timer whose `unref` flag a call sets. -/
def Op.setsUnref : Op τ Cb → Option (Nat × Bool)
  | .ref id => some (id, false)
  | .unref id => some (id, true)
  | _ => none

omit [LinearOrder τ] [Add τ] [Zero τ] in
theorem mem_updateTimer {id : Nat} {f : Timer τ Cb → Timer τ Cb} {p : Nat × Timer τ Cb}
    (hp : p ∈ (updateTimer w id f).pendingTimers) :
    p ∈ w.pendingTimers ∧ p.1 ≠ id ∨ ∃ t, (id, t) ∈ w.pendingTimers ∧ p = (id, f t) := by
  simp only [updateTimer, List.mem_map] at hp
  obtain ⟨q, hq, rfl⟩ := hp
  by_cases hid : q.1 = id
  · subst hid
    rw [if_pos rfl]
    exact .inr ⟨q.2, hq, rfl⟩
  · rw [if_neg hid]
    exact .inl ⟨hq, hid⟩

/-- A timer that is pending after a call was pending before it, has been registered by it, or
has been changed by it. -/
theorem mem_pendingTimers_applyOp {op : Op τ Cb} {p : Nat × Timer τ Cb}
    (hp : p ∈ (applyOp env w op).pendingTimers) :
    p ∈ w.pendingTimers ∧ op ≠ .refresh p.1 ∨
      (∃ fn ms repeats, op.registers = some (fn, ms, repeats) ∧
        p = (w.timerSeq, newTimer env w fn ms repeats)) ∨
      (∃ t unref, op.setsUnref = some (p.1, unref) ∧ (p.1, t) ∈ w.pendingTimers ∧
        p.2 = { t with unref := unref }) ∨
      ∃ t, op = .refresh p.1 ∧ (p.1, t) ∈ w.pendingTimers ∧
        p.2 = { t with due := env.now w.reads + t.ms } := by
  cases op with
  | setTimeout fn ms =>
    simp only [applyOp, addTimer, readClock, List.mem_append, List.mem_singleton] at hp
    rcases hp with hp | hp
    · exact .inl ⟨hp, nofun⟩
    · exact .inr (.inl ⟨fn, ms, false, rfl, hp⟩)
  | setInterval fn ms =>
    simp only [applyOp, addTimer, readClock, List.mem_append, List.mem_singleton] at hp
    rcases hp with hp | hp
    · exact .inl ⟨hp, nofun⟩
    · exact .inr (.inl ⟨fn, ms, true, rfl, hp⟩)
  | clear handle =>
    cases handle with
    | timer id => exact .inl ⟨(List.mem_filter.mp hp).1, nofun⟩
    | immediate entry => exact .inl ⟨hp, nofun⟩
  | ref id =>
    rcases mem_updateTimer hp with ⟨hp, -⟩ | ⟨t, ht, rfl⟩
    · exact .inl ⟨hp, nofun⟩
    · exact .inr (.inr (.inl ⟨t, false, rfl, ht, rfl⟩))
  | unref id =>
    rcases mem_updateTimer hp with ⟨hp, -⟩ | ⟨t, ht, rfl⟩
    · exact .inl ⟨hp, nofun⟩
    · exact .inr (.inr (.inl ⟨t, true, rfl, ht, rfl⟩))
  | refresh id =>
    simp only [applyOp, refresh] at hp
    split at hp
    next =>
      rcases mem_updateTimer hp with ⟨hp, hid⟩ | ⟨t, ht, rfl⟩
      · refine .inl ⟨hp, ?_⟩
        rintro ⟨⟩
        exact hid rfl
      · exact .inr (.inr (.inr ⟨t, rfl, ht, rfl⟩))
    next hnone =>
      refine .inl ⟨hp, ?_⟩
      rintro ⟨⟩
      exact hnone (List.any_eq_true.mpr ⟨p, hp, decide_eq_true rfl⟩)
  | setImmediate | queueJob => exact .inl ⟨hp, nofun⟩

/-- A slot that is filled after a call was filled before it, perhaps not yet cancelled, or has
been added by it. -/
theorem mem_immediates_applyOp {op : Op τ Cb} {im : Immediate Cb}
    (him : some im ∈ (applyOp env w op).immediates) :
    some im ∈ w.immediates ∨
      (∃ fn, op = .setImmediate fn ∧ im = ⟨w.entries, fn, false⟩) ∨
      ∃ im₀, some im₀ ∈ w.immediates ∧ op = .clear (.immediate im₀.entry) ∧
        im = { im₀ with cancelled := true } := by
  cases op with
  | setImmediate fn =>
    simp only [applyOp, setImmediate, List.mem_append, List.mem_singleton, Option.some.injEq] at him
    rcases him with him | him
    · exact .inl him
    · exact .inr (.inl ⟨fn, rfl, him⟩)
  | clear handle =>
    cases handle with
    | timer id => exact .inl him
    | immediate entry =>
      simp only [applyOp, clear, List.mem_map, Option.map_eq_some_iff] at him
      obtain ⟨slot, hslot, im₀, rfl, him⟩ := him
      by_cases hentry : im₀.entry = entry
      · subst hentry
        rw [if_pos rfl] at him
        exact .inr (.inr ⟨im₀, hslot, rfl, him.symm⟩)
      · rw [if_neg hentry] at him
        exact .inl (him ▸ hslot)
  | refresh id =>
    simp only [applyOp, refresh] at him
    split at him <;> exact .inl him
  | _ => exact .inl him

/-- The counters only grow, and the record is not touched. -/
theorem counters_applyOp (env : Env τ Cb) (w : World τ Cb) (op : Op τ Cb) :
    w.timerSeq + (if op.registers.isSome then 1 else 0) = (applyOp env w op).timerSeq ∧
      w.entries ≤ (applyOp env w op).entries ∧
      (applyOp env w op).invocations = w.invocations := by
  cases op with
  | clear handle => cases handle <;> exact ⟨rfl, Nat.le_refl _, rfl⟩
  | refresh id =>
    rw [applyOp, refresh]
    by_cases hpending : w.pendingTimers.any (·.1 = id)
    · rw [if_pos hpending]
      exact ⟨rfl, Nat.le_refl _, rfl⟩
    · rw [if_neg hpending]
      exact ⟨rfl, Nat.le_refl _, rfl⟩
  | setImmediate fn => exact ⟨rfl, Nat.le_succ _, rfl⟩
  | _ => exact ⟨rfl, Nat.le_refl _, rfl⟩

theorem timerSeq_le_applyOp (env : Env τ Cb) (w : World τ Cb) (op : Op τ Cb) :
    w.timerSeq ≤ (applyOp env w op).timerSeq := by
  rw [← (counters_applyOp env w op).1]
  exact Nat.le_add_right _ _

omit [LinearOrder τ] [Zero τ] in
theorem mem_rearm {now : τ} {id : Nat} {t : Timer τ Cb} {p : Nat × Timer τ Cb}
    (hp : p ∈ (rearm w now id t).pendingTimers) :
    p ∈ w.pendingTimers ∧ p.1 ≠ id ∨
      ∃ t₀, t.repeats = true ∧ (id, t₀) ∈ w.pendingTimers ∧
        p = (id, { t₀ with due := now + t₀.ms }) := by
  unfold rearm at hp
  split at hp
  next hrepeats =>
    rcases mem_updateTimer hp with hp | ⟨t₀, ht₀, rfl⟩
    · exact .inl hp
    · exact .inr ⟨t₀, hrepeats, ht₀, rfl⟩
  next =>
    have hmem := List.mem_filter.mp hp
    exact .inl ⟨hmem.1, of_decide_eq_true hmem.2⟩

theorem reads_le_applyOp (env : Env τ Cb) (w : World τ Cb) (op : Op τ Cb) :
    w.reads ≤ (applyOp env w op).reads := by
  cases op with
  | clear handle => cases handle <;> exact Nat.le_refl _
  | setTimeout | setInterval => exact Nat.le_succ _
  | refresh id =>
    rw [applyOp, refresh]
    split
    · exact Nat.le_succ _
    · exact Nat.le_refl _
  | _ => exact Nat.le_refl _

/-- The slots after a call: the same ones, perhaps cancelled, and perhaps a new one behind. -/
theorem slots_applyOp (env : Env τ Cb) (w : World τ Cb) (op : Op τ Cb) :
    ∃ f : Immediate Cb → Immediate Cb,
      (∀ im, (f im).entry = im.entry ∧ (im.cancelled = true → (f im).cancelled = true)) ∧
      ((applyOp env w op).immediates = w.immediates.map (Option.map f) ∧
          (applyOp env w op).entries = w.entries ∨
        ∃ fn, (applyOp env w op).immediates =
          w.immediates.map (Option.map f) ++ [some ⟨w.entries, fn, false⟩] ∧
          (applyOp env w op).entries = w.entries + 1) := by
  have hid : ∀ im : Immediate Cb, (id im).entry = im.entry ∧
      (im.cancelled = true → (id im).cancelled = true) := fun _ => ⟨rfl, fun h => h⟩
  have hsame : w.immediates = w.immediates.map (Option.map id) := by simp
  cases op with
  | setImmediate fn => exact ⟨id, hid, .inr ⟨fn, by rw [← hsame]; rfl, rfl⟩⟩
  | clear handle =>
    cases handle with
    | timer => exact ⟨id, hid, .inl ⟨hsame, rfl⟩⟩
    | immediate entry =>
      refine ⟨_, ?_, .inl ⟨rfl, rfl⟩⟩
      intro im
      split
      · exact ⟨rfl, fun _ => rfl⟩
      · exact ⟨rfl, fun h => h⟩
  | refresh =>
    rw [applyOp, refresh]
    split <;> exact ⟨id, hid, .inl ⟨hsame, rfl⟩⟩
  | _ => exact ⟨id, hid, .inl ⟨hsame, rfl⟩⟩

end Timers
