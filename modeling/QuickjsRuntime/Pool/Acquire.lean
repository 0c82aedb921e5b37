import QuickjsRuntime.Pool.State

/-! # What claiming a worker can do

`_acquireWorker` performs at most one take: the scan skips busy and dead workers
without touching them and stops at the first other one, and the saturated end
takes from the first busy worker. `AcquireSpec` says what each result means for
the pool it started from, so that later proofs do not unfold the loop.
-/

namespace Pool

theorem take_eq_some {p p' : Pool} {i : Nat} {message : Message}
    (h : p.take i = some (message, p')) :
    ∃ w, p.workers[i]? = some w ∧ w.doneBox = some message ∧
      p' = (p.modifyWorker i ({ · with doneBox := none })).log (.took i message) := by
  unfold take at h
  split at h
  next => cases h
  next found hbox =>
    obtain ⟨w, hw, hfound⟩ := Option.bind_eq_some_iff.mp hbox
    cases h
    exact ⟨w, hw, hfound, rfl⟩

theorem take_eq_none {p : Pool} {i : Nat} {w : Worker} (hw : p.workers[i]? = some w)
    (h : p.take i = none) : w.doneBox = none := by
  unfold take at h
  split at h
  next hbox => simpa [hw] using hbox
  next => cases h

/-- The pool with the mailbox of worker `i` emptied and the worker idle. -/
def taken (p : Pool) (i : Nat) (message : Message) : Pool :=
  ((p.modifyWorker i ({ · with doneBox := none })).log (.took i message)).setState i .idle

/-- Every worker is busy or dead: `_acquireWorker` finds none to claim at once. -/
def Saturated (p : Pool) : Prop :=
  ∀ (k : Nat) (w : Worker), p.workers[k]? = some w → w.state = .busy ∨ w.state = .dead

/-- No worker is left: `_acquireWorker` throws. -/
def AllDead (p : Pool) : Prop :=
  ∀ (k : Nat) (w : Worker), p.workers[k]? = some w → w.state = .dead

/-- The three ways `_acquireWorker` gets hold of the worker at position `i`. -/
inductive Acquired (p : Pool) (i : Nat) : Pool → Prop
  | idle {w : Worker} : p.workers[i]? = some w → w.state = .idle → Acquired p i (p.claim i)
  | settled {w : Worker} : p.workers[i]? = some w → w.state = .booting →
      w.doneBox = some .ready →
      Acquired p i ((p.taken i .ready).claim i)
  | drained {w : Worker} {e : AsyncJobEnvelope} : p.workers[i]? = some w → w.state = .busy →
      w.doneBox = some (.envelope e) → p.Saturated →
      p.workers.findIdx? (·.state = .busy) = some i →
      Acquired p i (((p.taken i (.envelope e)).cache e).claim i)

/-- The ways `_acquireWorker` throws. The last two need a mailbox that holds the
wrong kind of message. -/
inductive AcquireThrew (p : Pool) : PoolError → Pool → Prop
  | noWorkers : p.workers = [] → AcquireThrew p .noWorkers p
  | noLiveWorkers : p.AllDead → AcquireThrew p .noLiveWorkers p
  | unexpectedMessage {i : Nat} {w : Worker} {e : AsyncJobEnvelope} : p.workers[i]? = some w →
      w.state = .booting → w.doneBox = some (.envelope e) →
      AcquireThrew p (.unexpectedMessage (.envelope e))
        ((p.modifyWorker i ({ · with doneBox := none })).log (.took i (.envelope e)))
  | malformedEnvelope {i : Nat} {w : Worker} : p.workers[i]? = some w →
      w.state = .busy → w.doneBox = some .ready →
      AcquireThrew p .malformedEnvelope
        ((p.modifyWorker i ({ · with doneBox := none })).log (.took i .ready))

theorem Acquired.not_allDead {p claimed : Pool} {i : Nat} (hacquired : p.Acquired i claimed) :
    ¬ p.AllDead := by
  intro hdead
  cases hacquired with
  | idle hw hstate => exact absurd (hdead i _ hw) (by simp [hstate])
  | settled hw hstate => exact absurd (hdead i _ hw) (by simp [hstate])
  | drained hw hstate => exact absurd (hdead i _ hw) (by simp [hstate])

/-- Where `_acquireWorker` can be parked. -/
def AcquireParked (p : Pool) (i : Nat) : Prop :=
  ∃ w, p.workers[i]? = some w ∧ w.doneBox = none ∧
    (w.state = .booting ∨ (w.state = .busy ∧ p.Saturated ∧
      p.workers.findIdx? (·.state = .busy) = some i))

/-- What a result of `_acquireWorker` says about the pool it started from. -/
def AcquireSpec (p : Pool) : Blocking Nat → Prop
  | .parked i => p.AcquireParked i
  | .threw error p' => p.AcquireThrew error p'
  | .finished i p' => p.Acquired i p'

theorem firstBusy_spec {p : Pool} {i : Nat}
    (h : p.workers.findIdx? (·.state = .busy) = some i) :
    ∃ w, p.workers[i]? = some w ∧ w.state = .busy := by
  obtain ⟨hlt, hbusy, -⟩ := List.findIdx?_eq_some_iff_getElem.mp h
  exact ⟨p.workers[i], List.getElem?_eq_getElem hlt, by simpa using hbusy⟩

theorem acquireSaturated_spec {p : Pool} (hsat : p.Saturated) :
    p.AcquireSpec p.acquireSaturated := by
  unfold acquireSaturated
  split
  next hnone =>
    apply AcquireThrew.noLiveWorkers
    intro k w hw
    have hnot := List.findIdx?_eq_none_iff.mp hnone w (List.mem_of_getElem? hw)
    exact (hsat k w hw).resolve_left (by simpa using hnot)
  next i hfirst =>
    obtain ⟨w, hw, hbusy⟩ := firstBusy_spec hfirst
    unfold takeEnvelope
    cases htake : p.take i with
    | none => exact ⟨w, hw, take_eq_none hw htake, .inr ⟨hbusy, hsat, hfirst⟩⟩
    | some taken =>
      obtain ⟨message, p'⟩ := taken
      obtain ⟨w', hw', hbox, rfl⟩ := take_eq_some htake
      cases message with
      | ready =>
        obtain rfl : w = w' := Option.some.inj (hw.symm.trans hw')
        exact AcquireThrew.malformedEnvelope hw hbusy hbox
      | envelope e =>
        obtain rfl : w = w' := Option.some.inj (hw.symm.trans hw')
        exact Acquired.drained hw hbusy hbox hsat hfirst

/-- The loop, when every worker it no longer visits is busy or dead. -/
theorem acquireLoop_spec {p : Pool} {rest : List Nat}
    (hvisited : ∀ (k : Nat) (w : Worker), p.workers[k]? = some w → k ∉ rest →
      w.state = .busy ∨ w.state = .dead) :
    p.AcquireSpec (p.acquireLoop rest) := by
  induction rest with
  | nil =>
    refine acquireSaturated_spec ?_
    intro k w hw
    exact hvisited k w hw (List.not_mem_nil)
  | cons i rest ih =>
    -- skipping position `i` is sound once its worker is seen to be busy or dead
    have hskip : (∀ w, p.workers[i]? = some w → w.state = .busy ∨ w.state = .dead) →
        p.AcquireSpec (p.acquireLoop rest) := by
      intro hi
      apply ih
      intro k w hw hk
      by_cases hki : k = i
      · exact hi w (hki ▸ hw)
      · exact hvisited k w hw (by simp [hki, hk])
    unfold acquireLoop settleWorker
    cases hw : p.workers[i]? with
    | none =>
      simp only [hw, Option.map_none, reduceCtorEq, ↓reduceIte]
      exact hskip (by simp [hw])
    | some w =>
      cases hstate : w.state with
      | booting =>
        simp only [hstate, ↓reduceIte]
        cases htake : p.take i with
        | none => exact ⟨w, hw, take_eq_none hw htake, .inl hstate⟩
        | some taken =>
          obtain ⟨message, p'⟩ := taken
          obtain ⟨w', hw', hbox, rfl⟩ := take_eq_some htake
          obtain rfl : w = w' := Option.some.inj (hw.symm.trans hw')
          cases message with
          | ready =>
            have hidle := Acquired.settled hw hstate hbox
            simpa [AcquireSpec, hw, taken] using hidle
          | envelope e => exact AcquireThrew.unexpectedMessage hw hstate hbox
      | idle =>
        have hidle := Acquired.idle hw hstate
        simpa [AcquireSpec, hw, hstate] using hidle
      | busy =>
        simp only [reduceCtorEq, ↓reduceIte, hw, Option.map_some, hstate, Option.some.injEq]
        exact hskip (by simp [hw, hstate])
      | dead =>
        simp only [reduceCtorEq, ↓reduceIte, hw, Option.map_some, hstate, Option.some.injEq]
        exact hskip (by simp [hw, hstate])

theorem acquireWorker_spec (p : Pool) : p.AcquireSpec p.acquireWorker := by
  unfold acquireWorker
  split
  next hempty => exact AcquireThrew.noWorkers (by simpa using hempty)
  next =>
    refine acquireLoop_spec ?_
    intro k w hw hk
    obtain ⟨hlt, -⟩ := List.getElem?_eq_some_iff.mp hw
    exact absurd (List.mem_range.mpr hlt) hk

end Pool
