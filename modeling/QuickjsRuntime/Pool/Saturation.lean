import QuickjsRuntime.Pool.Routing

/-! # Which worker a saturated dispatch waits for

When every live worker is busy, `_acquireWorker` takes from `busy.first`, the busy
worker that stands first in `_workers`. The library documentation says that it blocks
on the oldest busy worker. A busy worker owes exactly one job, and job ids are handed
out in the order of the dispatches, so the oldest busy worker is the one that owes the
smallest id.
-/

namespace Pool

open Utf16 (Text units)

variable {Ctx : Type} {cfg : Config Ctx} {p : Pool} {i : Nat}

/-- A `dispatch` made now is parked on the mailbox of worker `i`, or takes an
envelope from it at once. -/
def BlocksOn (p : Pool) (i : Nat) : Prop :=
  p.acquireWorker = .parked i ∨
    ∃ claimed e, p.acquireWorker = .finished i claimed ∧
      claimed.history = .took i (.envelope e) :: p.history

/-- Worker `i` owes the job that was dispatched longest ago. -/
def Oldest (p : Pool) (i : Nat) : Prop :=
  ∃ j, p.Owes i j ∧ ∀ k j', p.Owes k j' → j ≤ j'

/-- The first worker that is busy, in the order of the workers. -/
def firstBusy (p : Pool) : Option Nat :=
  p.workers.findIdx? (·.state = .busy)

theorem Saturated.claimed {w : Worker} (hsat : p.Saturated) (hw : p.workers[i]? = some w) :
    w.state ≠ .booting ∧ w.state ≠ .idle := by
  rcases hsat i w hw with hbusy | hdead
  · simp [hbusy]
  · simp [hdead]

/-- From a state that meets the invariant a saturated dispatch neither throws, while a
worker lives, nor finds a worker to claim: it blocks on the first busy worker. -/
theorem Inv.blocksOn_iff (hinv : p.Inv) (hsat : p.Saturated) :
    p.BlocksOn i ↔ p.firstBusy = some i := by
  have hspec := acquireWorker_spec p
  unfold BlocksOn
  cases hacquire : p.acquireWorker with
  | parked k =>
    rw [hacquire] at hspec
    obtain ⟨w, hw, -, hstate | ⟨-, -, hfirst⟩⟩ := hspec
    · exact absurd hstate (hsat.claimed hw).1
    · rw [firstBusy, hfirst]
      simp
  | finished k claimed =>
    rw [hacquire] at hspec
    cases hspec with
    | idle hw hstate => exact absurd hstate (hsat.claimed hw).2
    | settled hw hstate => exact absurd hstate (hsat.claimed hw).1
    | @drained w e hw hstate hbox _ hfirst =>
      rw [firstBusy, hfirst]
      constructor
      · rintro (hparked | ⟨claimed', e', hfinished, -⟩)
        · cases hparked
        · cases hfinished
          rfl
      · intro hk
        cases hk
        exact .inr ⟨_, e, rfl, rfl⟩
  | threw error p' =>
    rw [hacquire] at hspec
    have hnone : p.firstBusy ≠ some i := by
      intro hfirst
      obtain ⟨w, hw, hbusy⟩ := firstBusy_spec hfirst
      cases hspec with
      | noWorkers hempty => simp [hempty] at hw
      | noLiveWorkers hdead => simp [hdead i w hw] at hbusy
      | unexpectedMessage hw' hstate => exact (hsat.claimed hw').1 hstate
      | malformedEnvelope hw' hstate hbox =>
        obtain ⟨e, hready, -⟩ := hinv.box_of_busy hw' hstate hbox
        cases hready
    simp [hnone]

theorem firstBusy_of_live (hsat : p.Saturated) (hlive : ¬ p.AllDead) :
    ∃ i, p.firstBusy = some i := by
  cases hfirst : p.firstBusy with
  | some i => exact ⟨i, rfl⟩
  | none =>
    refine absurd ?_ hlive
    intro k w hw
    have hbusy := List.findIdx?_eq_none_iff.mp hfirst w (List.mem_of_getElem? hw)
    exact (hsat k w hw).resolve_left (by simpa using hbusy)

/-- In every reachable state in which all live workers are busy, a dispatch blocks on
the oldest busy worker exactly when the busy worker that stands first in `_workers`
owes a job with a smaller id than all others. -/
theorem saturated_dispatch_oldest_iff {n : Nat}
    (hreach : Transition.Reachable (step cfg) (fun _ _ => True) (afterBoot n) p)
    (hsat : p.Saturated) (hlive : ¬ p.AllDead) :
    (∃ i, p.BlocksOn i ∧ p.Oldest i) ↔
      ∀ i j, p.firstBusy = some i → p.Owes i j → ∀ k j', p.Owes k j' → j ≤ j' := by
  have hinv := inv_of_reachable hreach
  constructor
  · rintro ⟨i, hblocks, j, howes, hleast⟩ i' j' hfirst howes' k m hm
    obtain rfl : i = i' := Option.some.inj (((hinv.blocksOn_iff hsat).mp hblocks).symm.trans hfirst)
    -- a busy worker owes only one job
    obtain ⟨w, hw, -⟩ := firstBusy_spec hfirst
    obtain ⟨-, honly⟩ := hinv.busy_of_owes hw howes
    obtain rfl := (honly j').mp howes'
    exact hleast k m hm
  · intro hleast
    obtain ⟨i, hfirst⟩ := firstBusy_of_live hsat hlive
    obtain ⟨w, hw, hbusy⟩ := firstBusy_spec hfirst
    obtain ⟨-, -, hstate⟩ := hinv.worker i w hw
    simp only [hbusy] at hstate
    obtain ⟨j, honly, -⟩ := hstate
    have howes : p.Owes i j := (honly j).mpr rfl
    exact ⟨i, (hinv.blocksOn_iff hsat).mpr hfirst, j, howes, hleast i j hfirst howes⟩

/-! ## Runs -/

theorem saturated_of_forall (h : ∀ w ∈ p.workers, w.state = .busy) : p.Saturated :=
  fun _ w hw => .inl (h w (List.mem_of_getElem? hw))

/-- Two ready workers and two dispatches. -/
def twoDispatches : List (Label (Option Text)) :=
  [.ready 0, .ready 1, .dispatch (textCall none), .resume, .dispatch (textCall none), .resume]

/-- The next dispatch blocks on worker 0, which has job 0. -/
theorem saturated_dispatch_oldest_of_two :
    ∃ p, Transition.run (step (textConfig 2)) (afterBoot 2) twoDispatches = some p ∧
      ∃ i, p.BlocksOn i ∧ p.Oldest i := by
  obtain ⟨p, hrun, hbusy, hfirst, howes⟩ :
      ∃ p, Transition.run (step (textConfig 2)) (afterBoot 2) twoDispatches = some p ∧
        (∀ w ∈ p.workers, w.state = .busy) ∧ p.firstBusy = some 0 ∧ p.Owes 0 0 :=
    ⟨_, rfl, by decide, rfl, rfl, rfl⟩
  have hreach := Transition.reachable_of_run hrun
  obtain ⟨w, hw, hstate⟩ := firstBusy_spec hfirst
  have hlive : ¬ p.AllDead := fun hdead => by simp [hdead 0 w hw] at hstate
  refine ⟨p, hrun, (saturated_dispatch_oldest_iff hreach (saturated_of_forall hbusy) hlive).mpr ?_⟩
  intro i j hi hj k j' hj'
  obtain rfl : 0 = i := Option.some.inj (hfirst.symm.trans hi)
  obtain ⟨-, honly⟩ := (inv_of_reachable hreach).busy_of_owes hw howes
  rw [(honly j).mp hj]
  exact Nat.zero_le j'

/-- A third dispatch takes the envelope of job 0 and gives job 2 to worker 0. A fourth then
blocks on worker 0, although worker 1 has job 1. -/
theorem saturated_dispatch_skips_oldest :
    ∃ p, Transition.run (step (textConfig 2)) (afterBoot 2)
        (twoDispatches ++ [.receive 0, .answer 0 true (some (units "42")) none,
          .dispatch (textCall none), .resume]) = some p ∧
      p.Saturated ∧ p.BlocksOn 0 ∧ p.Owes 0 2 ∧ p.Owes 1 1 ∧ ¬ p.Oldest 0 := by
  obtain ⟨p, hrun, hbusy, hfirst, howes, howes'⟩ :
      ∃ p, Transition.run (step (textConfig 2)) (afterBoot 2)
          (twoDispatches ++ [.receive 0, .answer 0 true (some (units "42")) none,
            .dispatch (textCall none), .resume]) = some p ∧
        (∀ w ∈ p.workers, w.state = .busy) ∧ p.firstBusy = some 0 ∧ p.Owes 0 2 ∧ p.Owes 1 1 :=
    ⟨_, rfl, by decide, rfl, ⟨rfl, rfl⟩, rfl, rfl⟩
  have hinv := inv_of_reachable (Transition.reachable_of_run hrun)
  have hsat := saturated_of_forall hbusy
  refine ⟨p, hrun, hsat, (hinv.blocksOn_iff hsat).mpr hfirst, howes, howes', ?_⟩
  rintro ⟨j, hj, hleast⟩
  obtain ⟨w, hw, -⟩ := firstBusy_spec hfirst
  obtain ⟨-, honly⟩ := hinv.busy_of_owes hw howes
  have hle := hleast 1 1 howes'
  rw [(honly j).mp hj] at hle
  exact absurd hle (by decide)

end Pool
