import QuickjsRuntime.Pool.Routing

/-! # Booting and disposing of the pool

`_boot` is a coroutine: it suspends at `Isolate.spawn` and at the handshake of
every worker, appends to `_workers` after each handshake and sets `_booted` at
its end. `dispose` resets the same fields at once and does not stop a body that
is suspended. The machine here has any number of suspended bodies next to the
pool, whose own steps may be taken in between. Each body carries the number of
`dispose` calls made before it started.
-/

namespace Pool

open Utf16 (Text)

/-- Where a `_boot` body is suspended. -/
inductive BootPoint where
  | spawning
  | handshaking
  deriving DecidableEq, Repr

/-- A suspended `_boot` body: the worker it is about to add, and the number of
`dispose` calls before its start. -/
structure BootBody where
  index : Nat
  point : BootPoint
  epoch : Nat
  deriving DecidableEq, Repr

/-- The pool with the suspended `_boot` bodies. `released` are the workers that
`dispose` dropped; `disposals` and `finished`, the epochs of the bodies that ran to
their end, are kept for the record. -/
structure Lifecycle where
  pool : Pool := {}
  bodies : List BootBody := []
  released : List Worker := []
  disposals : Nat := 0
  finished : List Nat := []

namespace Lifecycle

variable {Ctx : Type}

/-- `ready` -/
def ready (s : Lifecycle) : Bool := s.pool.booted

/-- The loop of `_boot` at `body.index`: it suspends at the next spawn or it is through. -/
def bootLoop (cfg : Config Ctx) (s : Lifecycle) (body : BootBody) : Lifecycle :=
  if body.index < cfg.workers then
    { s with bodies := s.bodies ++ [{ body with point := .spawning }] }
  else { s with pool := { s.pool with booted := true }, finished := body.epoch :: s.finished }

/-- `boot`: `_booting ??= _boot()`, up to the first suspension of the body. -/
def boot (cfg : Config Ctx) (s : Lifecycle) : Lifecycle :=
  if s.pool.booting then s
  else bootLoop cfg { s with pool := { s.pool with exitPort := true, booting := true } }
    { index := 0, point := .spawning, epoch := s.disposals }

/-- `dispose` asks the live workers to exit and resets the pool. -/
def dispose (s : Lifecycle) : Lifecycle where
  pool := { s.pool with
    workers := []
    jobs := fun _ => none
    completed := fun _ => none
    exitPort := false
    booted := false
    booting := false }
  bodies := s.bodies
  released := s.released ++ s.pool.workers.map fun w =>
    if w.state = .dead then w else { w with inbox := w.inbox ++ [.shutdown] }
  disposals := s.disposals + 1
  finished := s.finished

/-- `Isolate.spawn` completes for the body at position `k`. -/
def spawned (s : Lifecycle) (k : Nat) : Option Lifecycle :=
  match s.bodies[k]? with
  | some ⟨index, .spawning, epoch⟩ =>
    some { s with bodies := s.bodies.set k ⟨index, .handshaking, epoch⟩ }
  | _ => none

/-- `Isolate.spawn` throws: the body ends, and its future stays in `_booting`. -/
def spawnFailed (s : Lifecycle) (k : Nat) : Option Lifecycle :=
  match s.bodies[k]? with
  | some ⟨_, .spawning, _⟩ => some { s with bodies := s.bodies.eraseIdx k }
  | _ => none

/-- The handshake of the body at position `k` arrives: its worker joins the pool. -/
def handshake (cfg : Config Ctx) (s : Lifecycle) (k : Nat) : Option Lifecycle :=
  match s.bodies[k]? with
  | some ⟨index, .handshaking, epoch⟩ =>
    some (bootLoop cfg
      { s with
        bodies := s.bodies.eraseIdx k
        pool := { s.pool with workers := s.pool.workers ++ [{ id := index }] } }
      { index := index + 1, point := .spawning, epoch })
  | _ => none

inductive Step (Ctx : Type) where
  | boot
  | dispose
  | spawned (body : Nat)
  | spawnFailed (body : Nat)
  | handshake (body : Nat)
  | pool (label : Label Ctx)

/-- The calls and the resumptions need the event loop, which a parked main thread blocks. -/
def step (cfg : Config Ctx) (s : Lifecycle) : Step Ctx → Option Lifecycle
  | .pool label => (s.pool.step cfg label).map ({ s with pool := · })
  | .boot => if s.pool.main = .idle then some (s.boot cfg) else none
  | .dispose => if s.pool.main = .idle then some s.dispose else none
  | .spawned k => if s.pool.main = .idle then s.spawned k else none
  | .spawnFailed k => if s.pool.main = .idle then s.spawnFailed k else none
  | .handshake k => if s.pool.main = .idle then s.handshake cfg k else none

variable {cfg : Config Ctx} {s : Lifecycle}

/-! ## What the steps of the pool leave alone -/

/-- The worker ids and the boot flags are the same. -/
def SameBoot (p p' : Pool) : Prop :=
  p'.workers.map Worker.id = p.workers.map Worker.id ∧ p'.booted = p.booted ∧ p'.booting = p.booting

theorem SameBoot.refl (p : Pool) : SameBoot p p := ⟨rfl, rfl, rfl⟩

theorem SameBoot.trans {p₁ p₂ p₃ : Pool} (h : SameBoot p₁ p₂) (h' : SameBoot p₂ p₃) :
    SameBoot p₁ p₃ :=
  ⟨h'.1.trans h.1, h'.2.1.trans h.2.1, h'.2.2.trans h.2.2⟩

theorem SameBoot.modify {p p' : Pool} {i : Nat} {f : Worker → Worker}
    (hworkers : p'.workers = p.workers.modify i f) (hbooted : p'.booted = p.booted)
    (hbooting : p'.booting = p.booting) (hf : ∀ w, (f w).id = w.id) : SameBoot p p' := by
  refine ⟨?_, hbooted, hbooting⟩
  rw [hworkers]
  apply List.ext_getElem?
  intro k
  by_cases hk : i = k
  · subst hk
    cases hw : p.workers[i]? <;> simp [hw, hf]
  · simp [hk]

theorem SameBoot.take {p p' : Pool} {i : Nat} {message : Message}
    (htake : p.take i = some (message, p')) : SameBoot p p' := by
  obtain ⟨w, -, -, rfl⟩ := take_eq_some htake
  exact .modify rfl rfl rfl fun _ => rfl

theorem SameBoot.taken (p : Pool) (i : Nat) (message : Message) :
    SameBoot p (p.taken i message) :=
  have hbox : SameBoot p ((p.modifyWorker i ({ · with doneBox := none })).log (.took i message)) :=
    .modify rfl rfl rfl fun _ => rfl
  hbox.trans (.modify rfl rfl rfl fun _ => rfl)

theorem SameBoot.acquired {p claimed : Pool} {i : Nat} (hacquired : p.Acquired i claimed) :
    SameBoot p claimed := by
  cases hacquired with
  | idle => exact .modify rfl rfl rfl fun _ => rfl
  | settled => exact (SameBoot.taken p i .ready).trans (.modify rfl rfl rfl fun _ => rfl)
  | @drained w e =>
    exact (SameBoot.taken p i (.envelope e)).trans (.modify rfl rfl rfl fun _ => rfl)

theorem SameBoot.finishDispatch (p : Pool) (i : Nat) (fnSource argsJson : Text)
    (context : Option Text) : SameBoot p (p.finishDispatch i fnSource argsJson context) := by
  cases context with
  | none => exact .refl p
  | some json => exact .modify rfl rfl rfl fun _ => rfl

theorem SameBoot.resume {p p' : Pool} (hstep : p.resume = some p') : SameBoot p p' := by
  unfold Pool.resume at hstep
  split at hstep
  next => cases hstep
  next =>
    have hspec := p.acquireWorker_spec
    cases hacquire : p.acquireWorker with
    | parked i => simp [hacquire] at hstep
    | threw error q =>
      rw [hacquire] at hspec hstep
      cases hstep
      cases hspec with
      | noWorkers => exact .refl p
      | noLiveWorkers => exact .refl p
      | unexpectedMessage => exact .modify rfl rfl rfl fun _ => rfl
      | malformedEnvelope => exact .modify rfl rfl rfl fun _ => rfl
    | finished i q =>
      rw [hacquire] at hspec hstep
      cases hstep
      exact (SameBoot.acquired hspec).trans (.finishDispatch q i _ _ _)
  next jobId i hmain =>
    unfold waitRound takeEnvelope at hstep
    cases htake : p.take i with
    | none => simp [htake] at hstep
    | some result =>
      obtain ⟨message, q⟩ := result
      have htaken := SameBoot.take htake
      cases message with
      | ready =>
        simp only [htake, Option.some.injEq] at hstep
        subst hstep
        exact htaken
      | envelope e =>
        have hsettled : SameBoot p (q.setState i .idle) :=
          htaken.trans (.modify rfl rfl rfl fun _ => rfl)
        simp only [htake] at hstep
        split at hstep
        · cases hstep
          exact hsettled
        · cases hstep
          exact hsettled

theorem SameBoot.put (p : Pool) (i : Nat) (message : Message) : SameBoot p (p.put i message) := by
  unfold Pool.put
  split
  · exact .modify rfl rfl rfl fun _ => rfl
  · exact .modify rfl rfl rfl fun _ => rfl

theorem SameBoot.onWorkerExit (p : Pool) (id : Nat) : SameBoot p (p.onWorkerExit id) := by
  unfold Pool.onWorkerExit
  split
  · split
    · exact .refl p
    · exact .modify rfl rfl rfl fun _ => rfl
  · exact .refl p

/-- No step of the pool adds, drops or renames a worker, or touches the boot flags. -/
theorem SameBoot.step {p p' : Pool} {label : Label Ctx}
    (hstep : p.step cfg label = some p') : SameBoot p p' := by
  cases label with
  | dispatch call =>
    simp only [Pool.step, Option.ite_none_right_eq_some, Option.some.injEq] at hstep
    obtain ⟨-, rfl⟩ := hstep
    unfold Pool.dispatch
    split <;> exact .refl p
  | wait j =>
    simp only [Pool.step, Option.ite_none_right_eq_some, Option.some.injEq] at hstep
    obtain ⟨-, rfl⟩ := hstep
    unfold Pool.wait
    split
    · exact .refl p
    · split
      · exact .refl p
      · split <;> exact .refl p
  | resume => exact .resume hstep
  | ready i =>
    simp only [Pool.step, isolateReady] at hstep
    split at hstep
    · cases hstep
      have hset : SameBoot p (p.setIsolate i .listening) := .modify rfl rfl rfl fun _ => rfl
      exact hset.trans (.put _ i .ready)
    · cases hstep
  | receive i =>
    simp only [Pool.step, isolateReceive] at hstep
    split at hstep
    · cases hstep
    · split at hstep
      · cases hstep
        exact .modify rfl rfl rfl fun _ => rfl
      · cases hstep
        exact .modify rfl rfl rfl fun _ => rfl
      · cases hstep
  | answer i ok resultJson error =>
    simp only [Pool.step, isolateAnswer] at hstep
    split at hstep
    · cases hstep
      have hset : SameBoot p (p.setIsolate i .listening) := .modify rfl rfl rfl fun _ => rfl
      exact hset.trans (.put _ i _)
    · cases hstep
  | exit i =>
    simp only [Pool.step, isolateExit] at hstep
    split at hstep
    · cases hstep
    · cases hstep
    · cases hstep
      exact .modify rfl rfl rfl fun _ => rfl
  | exitNotice i =>
    simp only [Pool.step, deliverExit] at hstep
    split at hstep
    · simp only [Option.ite_none_right_eq_some, Option.some.injEq] at hstep
      obtain ⟨-, rfl⟩ := hstep
      have hset : SameBoot p (p.modifyWorker i ({ · with exitNotice := false })) :=
        .modify rfl rfl rfl fun _ => rfl
      exact hset.trans (.onWorkerExit _ _)
    · cases hstep

/-! ## Disposing only of a settled boot -/

/-- The workers have distinct ids and are not too many, and `ready` says that a
boot which started after the last `dispose` has completed. -/
structure Ok (cfg : Config Ctx) (s : Lifecycle) : Prop where
  ids_distinct : (s.pool.workers.map Worker.id).Nodup
  at_most : s.pool.workers.length ≤ cfg.workers
  ready_booted : s.ready = true → s.disposals ∈ s.finished

/-- `dispose` is called when no `_boot` body is suspended. -/
def Step.Settled (s : Lifecycle) : Step Ctx → Prop
  | .dispose => s.bodies = []
  | _ => True

/-- What a run keeps whose disposals are settled: at most one body is suspended, it
belongs to the current epoch and adds the next worker. -/
structure Sound (cfg : Config Ctx) (s : Lifecycle) : Prop where
  ids : s.pool.workers.map Worker.id = List.range s.pool.workers.length
  at_most : s.pool.workers.length ≤ cfg.workers
  bodies : s.bodies = [] ∨ ∃ point, s.bodies = [⟨s.pool.workers.length, point, s.disposals⟩] ∧
    s.pool.workers.length < cfg.workers ∧ s.pool.booting = true ∧ s.pool.booted = false
  unbooted : s.pool.booting = false → s.pool.workers = [] ∧ s.pool.booted = false
  ready_booted : s.pool.booted = true → s.disposals ∈ s.finished
  finished_le : ∀ epoch ∈ s.finished, epoch ≤ s.disposals

theorem Sound.ok (h : s.Sound cfg) : s.Ok cfg where
  ids_distinct := by
    rw [h.ids]
    exact List.nodup_range
  at_most := h.at_most
  ready_booted := h.ready_booted

/-- A body of the current epoch goes on: to its next suspension or to its end. -/
theorem Sound.bootLoop {body : BootBody}
    (hids : s.pool.workers.map Worker.id = List.range s.pool.workers.length)
    (hle : s.pool.workers.length ≤ cfg.workers) (hnone : s.bodies = [])
    (hbooting : s.pool.booting = true) (hbooted : s.pool.booted = false)
    (hindex : body.index = s.pool.workers.length) (hepoch : body.epoch = s.disposals)
    (hfinished : ∀ epoch ∈ s.finished, epoch ≤ s.disposals) :
    (Lifecycle.bootLoop cfg s body).Sound cfg := by
  unfold Lifecycle.bootLoop
  split
  next hlt =>
    rw [hindex] at hlt
    refine ⟨hids, hle, .inr ⟨.spawning, ?_, hlt, hbooting, hbooted⟩, ?_, ?_, hfinished⟩
    · simp [hnone, hindex, hepoch]
    · simp [hbooting]
    · simp [hbooted]
  next hend =>
    refine ⟨hids, hle, .inl hnone, by simp [hbooting], fun _ => ?_, ?_⟩
    · exact hepoch ▸ List.mem_cons_self
    · intro epoch hmem
      rcases List.mem_cons.mp hmem with rfl | hmem
      · exact Nat.le_of_eq hepoch
      · exact hfinished epoch hmem

theorem Sound.pool {p : Pool} (h : s.Sound cfg)
    (hsame : SameBoot s.pool p) : ({ s with pool := p } : Lifecycle).Sound cfg := by
  obtain ⟨hids, hbooted, hbooting⟩ := hsame
  have hlength : p.workers.length = s.pool.workers.length := by
    simpa using congrArg List.length hids
  refine ⟨?_, ?_, ?_, ?_, ?_, h.finished_le⟩
  · rw [hids, hlength]
    exact h.ids
  · rw [hlength]
    exact h.at_most
  · simpa [hlength, hbooted, hbooting] using h.bodies
  · rw [hbooting, hbooted, ← List.length_eq_zero_iff, hlength, List.length_eq_zero_iff]
    exact h.unbooted
  · rw [hbooted]
    exact h.ready_booted

/-- The only body there can be. -/
theorem Sound.body {k : Nat} {body : BootBody}
    (h : s.Sound cfg) (hbody : s.bodies[k]? = some body) :
    k = 0 ∧ s.bodies = [body] ∧ s.pool.workers.length = body.index ∧ s.disposals = body.epoch ∧
      s.pool.workers.length < cfg.workers ∧ s.pool.booting = true ∧ s.pool.booted = false := by
  rcases h.bodies with hnone | ⟨point, hone, hlt, hbooting, hbooted⟩
  · simp [hnone] at hbody
  · rw [hone] at hbody ⊢
    cases k with
    | zero =>
      cases hbody
      exact ⟨rfl, rfl, rfl, rfl, hlt, hbooting, hbooted⟩
    | succ k => simp at hbody

theorem Sound.step {s s' : Lifecycle} {label : Step Ctx} (h : s.Sound cfg)
    (hsettled : label.Settled s) (hstep : s.step cfg label = some s') : s'.Sound cfg := by
  cases label with
  | pool label =>
    simp only [Lifecycle.step, Option.map_eq_some_iff] at hstep
    obtain ⟨p, hpool, rfl⟩ := hstep
    exact h.pool (.step hpool)
  | boot =>
    simp only [Lifecycle.step, Option.ite_none_right_eq_some, Option.some.injEq] at hstep
    obtain ⟨-, rfl⟩ := hstep
    unfold Lifecycle.boot
    split
    next => exact h
    next hnot =>
      have hnot : s.pool.booting = false := by simpa using hnot
      obtain ⟨hempty, hbooted⟩ := h.unbooted hnot
      have hnone : s.bodies = [] := by
        rcases h.bodies with hnone | ⟨-, -, -, hbooting, -⟩
        · exact hnone
        · simp [hnot] at hbooting
      exact Sound.bootLoop h.ids h.at_most hnone rfl hbooted (by simp [hempty]) rfl h.finished_le
  | dispose =>
    simp only [Lifecycle.step, Option.ite_none_right_eq_some, Option.some.injEq] at hstep
    obtain ⟨-, rfl⟩ := hstep
    exact ⟨rfl, Nat.zero_le _, .inl hsettled, fun _ => ⟨rfl, rfl⟩, by simp [Lifecycle.dispose],
      fun epoch hmem => Nat.le_succ_of_le (h.finished_le epoch hmem)⟩
  | spawned k =>
    simp only [Lifecycle.step, Option.ite_none_right_eq_some] at hstep
    obtain ⟨-, hstep⟩ := hstep
    unfold Lifecycle.spawned at hstep
    split at hstep
    next index epoch hbody =>
      cases hstep
      obtain ⟨rfl, hone, rfl, rfl, hlt, hbooting, hbooted⟩ := h.body hbody
      exact ⟨h.ids, h.at_most, .inr ⟨.handshaking, by simp [hone], hlt, hbooting, hbooted⟩,
        h.unbooted, h.ready_booted, h.finished_le⟩
    next => cases hstep
  | spawnFailed k =>
    simp only [Lifecycle.step, Option.ite_none_right_eq_some] at hstep
    obtain ⟨-, hstep⟩ := hstep
    unfold Lifecycle.spawnFailed at hstep
    split at hstep
    next index epoch hbody =>
      cases hstep
      obtain ⟨rfl, hone, -⟩ := h.body hbody
      exact ⟨h.ids, h.at_most, .inl (by simp [hone]), h.unbooted, h.ready_booted, h.finished_le⟩
    next => cases hstep
  | handshake k =>
    simp only [Lifecycle.step, Option.ite_none_right_eq_some] at hstep
    obtain ⟨-, hstep⟩ := hstep
    unfold Lifecycle.handshake at hstep
    split at hstep
    next index epoch hbody =>
      cases hstep
      obtain ⟨rfl, hone, rfl, rfl, hlt, hbooting, hbooted⟩ := h.body hbody
      refine Sound.bootLoop ?_ ?_ ?_ hbooting hbooted ?_ rfl h.finished_le
      · simp [h.ids, List.range_succ]
      · simpa using Nat.succ_le_of_lt hlt
      · simp [hone]
      · simp
    next => cases hstep

theorem sound_of_settled_disposals
    (hreach : Transition.Reachable (step cfg) (fun s l => l.Settled s) {} s) : s.Sound cfg := by
  refine hreach.invariant (Sound cfg) ?_ ?_
  · exact ⟨rfl, Nat.zero_le _, .inl rfl, fun _ => ⟨rfl, rfl⟩, by simp, by simp⟩
  · intro s label s' h hsettled hstep
    exact h.step hsettled hstep

/-- In every run whose disposals all find no suspended `_boot` body, the workers have
distinct ids, are at most `workers` many, and `ready` holds only if a boot started
after the last `dispose` has completed. -/
theorem ok_of_settled_disposals
    (hreach : Transition.Reachable (step cfg) (fun s l => l.Settled s) {} s) : s.Ok cfg :=
  (sound_of_settled_disposals hreach).ok

/-! ## A body on its own -/

/-- The resumptions of the only suspended body that add `k` workers. -/
def resumptions : Nat → List (Step Ctx)
  | 0 => []
  | k + 1 => .spawned 0 :: .handshake 0 :: resumptions k

/-- The workers join the pool, and these bodies stay suspended. -/
def joined (s : Lifecycle) (bodies : List BootBody) (workers : List Worker) : Lifecycle :=
  { s with bodies, pool := { s.pool with workers := s.pool.workers ++ workers } }

/-- The body of the given epoch has run to its end. -/
def through (s : Lifecycle) (epoch : Nat) : Lifecycle :=
  { s with pool := { s.pool with booted := true }, finished := epoch :: s.finished }

/-- A body that is alone runs to its end, whatever happened to the pool since it started. -/
theorem run_resumptions {k index epoch : Nat}
    (hmain : s.pool.main = .idle) (hbodies : s.bodies = [⟨index, .spawning, epoch⟩])
    (hindex : index + (k + 1) = cfg.workers) :
    Transition.run (step cfg) s (resumptions (k + 1)) =
      some ((s.joined [] ((List.range' index (k + 1)).map ({ id := · }))).through epoch) := by
  induction k generalizing s index with
  | zero =>
    have hend : ¬ index + 1 < cfg.workers := by omega
    simp [resumptions, Transition.run, step, spawned, handshake, bootLoop, joined, through,
      hmain, hbodies, hend]
  | succ k ih =>
    have hmore : index + 1 < cfg.workers := by omega
    have hround : Transition.run (step cfg) s (resumptions (k + 2)) =
        Transition.run (step cfg) (s.joined [⟨index + 1, .spawning, epoch⟩] [{ id := index }])
          (resumptions (k + 1)) := by
      rw [resumptions]
      simp [Transition.run_cons, step, spawned, handshake, bootLoop, joined, hmain, hbodies, hmore]
    have hmain' :
        (s.joined [⟨index + 1, .spawning, epoch⟩] [{ id := index }]).pool.main = .idle :=
      hmain
    rw [hround, ih hmain' rfl (by omega)]
    simp [joined, through, List.range'_succ]

/-- A boot that is left alone leads to the pool in which jobs can be dispatched. -/
theorem boot_reaches_afterBoot (cfg : Config Ctx) :
    ∃ s, Transition.run (step cfg) {} (.boot :: resumptions cfg.workers) = some s ∧
      s.pool = afterBoot cfg.workers := by
  cases hn : cfg.workers with
  | zero =>
    refine ⟨_, by simp [resumptions, Transition.run, step, boot, bootLoop, hn]; rfl, ?_⟩
    simp [afterBoot]
  | succ k =>
    have hstart : Transition.run (step cfg) {} (.boot :: resumptions (k + 1)) =
        Transition.run (step cfg)
          { pool := { exitPort := true, booting := true }, bodies := [⟨0, .spawning, 0⟩] }
          (resumptions (k + 1)) := by
      simp [Transition.run_cons, step, boot, bootLoop, hn]
    rw [hstart, run_resumptions rfl rfl (by omega)]
    exact ⟨_, rfl, by simp [joined, through, afterBoot, List.range_eq_range']⟩

/-- The pool is disposed of while its first boot is suspended and booted again. -/
def disposeDuringBoot : List (Step (Option Text)) :=
  [.boot, .dispose, .boot, .spawned 0, .handshake 0]

/-- One worker: the first body makes the pool ready although the boot that was started
after the `dispose` is still suspended; when that one is through too, the pool has two
workers with the same id. -/
theorem dispose_during_boot_duplicates :
    (∃ s, Transition.run (step (textConfig 1)) {} disposeDuringBoot = some s ∧
      s.ready = true ∧ s.disposals = 1 ∧ s.finished = [0]) ∧
    ∃ s, Transition.run (step (textConfig 1)) {}
        (disposeDuringBoot ++ [.spawned 0, .handshake 0]) = some s ∧
      s.pool.workers.map Worker.id = [0, 0] :=
  ⟨⟨_, rfl, rfl, rfl, rfl⟩, _, rfl, rfl⟩

/-- The pool boots, is disposed of, and boots again. -/
def rebooted : List (Step (Option Text)) :=
  [.boot, .spawned 0, .handshake 0, .dispose, .boot, .spawned 0, .handshake 0]

theorem rebooted_ok :
    ∃ s, Transition.run (step (textConfig 1)) {} rebooted = some s ∧ s.ready = true ∧
      s.disposals = 1 ∧ s.Ok (textConfig 1) := by
  obtain ⟨s, hrun, hready, hdisposals⟩ :
      ∃ s, Transition.run (step (textConfig 1)) {} rebooted = some s ∧ s.ready = true ∧
        s.disposals = 1 :=
    ⟨_, rfl, rfl, rfl⟩
  have hsettled : Transition.RunAllowed (step (textConfig 1)) (fun s l => l.Settled s) {}
      rebooted := by
    -- the first body is through when the pool is disposed of
    refine .cons trivial rfl (.cons trivial rfl (.cons trivial rfl (.cons rfl rfl ?_)))
    exact .cons trivial rfl (.cons trivial rfl (.cons trivial rfl trivial))
  have hreach := Transition.Reachable.init.run hsettled hrun
  exact ⟨s, hrun, hready, hdisposals, ok_of_settled_disposals hreach⟩

end Lifecycle

end Pool
