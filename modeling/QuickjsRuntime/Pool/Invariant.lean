import QuickjsRuntime.Pool.Acquire

/-! # What every run of the pool keeps

`Inv` ties the three main-side structures (`_jobs`, `_completed` and the state of
each worker) to the jobs that are under way inside a worker. It survives worker
exits and failed dispatches: a busy worker owes exactly one registered job, and
nothing but that job is under way in it.
-/

namespace Pool

/-- A worker of a modified list is an untouched one or the modified one. -/
theorem getElem?_modify_cases {workers : List Worker} {i k : Nat} {f : Worker → Worker}
    {w : Worker} (h : (workers.modify i f)[k]? = some w) :
    (k ≠ i ∧ workers[k]? = some w) ∨ (k = i ∧ ∃ w₀, workers[i]? = some w₀ ∧ w = f w₀) := by
  rw [List.getElem?_modify] at h
  by_cases hk : i = k
  · subst hk
    simp only [↓reduceIte, Option.map_eq_map, Option.map_eq_some_iff] at h
    obtain ⟨w₀, hw₀, rfl⟩ := h
    exact .inr ⟨rfl, w₀, hw₀, rfl⟩
  · simp only [hk, ↓reduceIte, Option.map_eq_map, Option.map_id'] at h
    exact .inl ⟨Ne.symm hk, h⟩

/-- What holds of every worker still does when it holds of the one that was modified. -/
theorem forall_of_modify {workers workers' : List Worker} {i : Nat} {w : Worker}
    {f : Worker → Worker} {P : Nat → Worker → Prop} (h : ∀ k v, workers[k]? = some v → P k v)
    (hw : workers[i]? = some w) (hworkers : workers' = workers.modify i f) (hf : P i (f w)) :
    ∀ k v, workers'[k]? = some v → P k v := by
  intro k v hv
  rw [hworkers] at hv
  rcases getElem?_modify_cases hv with ⟨-, hv⟩ | ⟨rfl, v₀, hv₀, rfl⟩
  · exact h k v hv
  · obtain rfl : w = v₀ := Option.some.inj (hw.symm.trans hv₀)
    exact hf

/-! ## Jobs under way -/

def Message.jobIds : Message → List Nat
  | .ready => []
  | .envelope e => [e.jobId]

def Inbound.jobIds : Inbound → List Nat
  | .job message => [message.jobId]
  | .shutdown => []

def IsolatePhase.jobIds : IsolatePhase → List Nat
  | .running request => [request.jobId]
  | _ => []

/-- The jobs inside a worker, nearest to the mailbox first: answered, running, sent. -/
def Worker.inFlight (w : Worker) : List Nat :=
  w.doneBox.elim [] Message.jobIds ++ (w.isolate.jobIds ++ w.inbox.flatMap Inbound.jobIds)

/-- Worker `i` has the registered job `j` and its envelope was not taken yet. -/
def Owes (p : Pool) (i j : Nat) : Prop :=
  p.jobs j = some ⟨i⟩ ∧ p.completed j = none

/-- Nothing is under way in the worker: its mailbox and inbox are empty and its
isolate is past the start. -/
def Worker.Free (w : Worker) : Prop :=
  w.inFlight = [] ∧ w.doneBox = none ∧ w.isolate ≠ .starting

/-- How a worker's main-side state, its isolate and the jobs it owes fit together. -/
def Worker.Ok (owes : Nat → Prop) (w : Worker) : Prop :=
  Inbound.shutdown ∉ w.inbox ∧ (w.exitNotice = true → w.isolate = .exited) ∧
  match w.state with
  | .booting => (∀ j, ¬ owes j) ∧ w.inFlight = [] ∧ (w.isolate = .starting → w.doneBox = none)
  | .idle => (∀ j, ¬ owes j) ∧ w.Free
  | .busy => ∃ j, (∀ k, owes k ↔ k = j) ∧ (w.inFlight = [] ∨ w.inFlight = [j]) ∧
      w.doneBox ≠ some .ready ∧ w.isolate ≠ .starting
  | .dead => (∀ j, ¬ owes j) ∧ w.isolate = .exited

structure Inv (p : Pool) : Prop where
  ids : ∀ (i : Nat) (w : Worker), p.workers[i]? = some w → w.id = i
  worker : ∀ (i : Nat) (w : Worker), p.workers[i]? = some w → w.Ok (p.Owes i)
  job_lt : ∀ j job, p.jobs j = some job → j < p.nextJobId ∧ job.workerId < p.workers.length
  completed_lt : ∀ j e, p.completed j = some e → e.jobId = j ∧ j < p.nextJobId
  waiting : ∀ j i, p.main = .waiting j i → p.Owes i j
  exitPort : p.exitPort = true

section Consequences

variable {p : Pool} {i j : Nat} {w : Worker}

/-- Only a busy worker owes a job, and it owes only one. -/
theorem Inv.busy_of_owes (hinv : p.Inv) (hw : p.workers[i]? = some w) (howes : p.Owes i j) :
    w.state = .busy ∧ ∀ k, p.Owes i k ↔ k = j := by
  obtain ⟨-, -, hstate⟩ := hinv.worker i w hw
  cases hs : w.state with
  | booting =>
    simp only [hs] at hstate
    exact absurd howes (hstate.1 j)
  | idle =>
    simp only [hs] at hstate
    exact absurd howes (hstate.1 j)
  | busy =>
    simp only [hs] at hstate
    obtain ⟨j', hiff, -⟩ := hstate
    obtain rfl := (hiff j).mp howes
    exact ⟨rfl, hiff⟩
  | dead =>
    simp only [hs] at hstate
    exact absurd howes (hstate.1 j)

/-- An envelope in a busy worker's mailbox is that of the job it owes, and the
worker is then otherwise empty. -/
theorem Inv.box_of_busy (hinv : p.Inv) (hw : p.workers[i]? = some w) (hbusy : w.state = .busy)
    {message : Message} (hbox : w.doneBox = some message) :
    ∃ e, message = .envelope e ∧ p.Owes i e.jobId ∧ w.isolate.jobIds = [] ∧
      w.inbox.flatMap Inbound.jobIds = [] := by
  obtain ⟨-, -, hstate⟩ := hinv.worker i w hw
  simp only [hbusy] at hstate
  obtain ⟨j, hiff, hflight, hready, -⟩ := hstate
  cases message with
  | ready => exact absurd hbox hready
  | envelope e =>
    simp only [Worker.inFlight, hbox, Option.elim_some, Message.jobIds, List.cons_append,
      List.nil_append, reduceCtorEq, List.cons.injEq, List.append_eq_nil_iff, false_or]
      at hflight
    obtain ⟨rfl, hisolate, hinbox⟩ := hflight
    exact ⟨e, rfl, (hiff e.jobId).mpr rfl, hisolate, hinbox⟩

/-- A worker with a job outside its mailbox is busy with exactly that job. -/
theorem Inv.busy_of_underway (hinv : p.Inv) (hw : p.workers[i]? = some w)
    (hexited : w.isolate ≠ .exited)
    (hj : j ∈ w.isolate.jobIds ++ w.inbox.flatMap Inbound.jobIds) :
    w.state = .busy ∧ p.Owes i j ∧ w.doneBox = none ∧
      w.isolate.jobIds ++ w.inbox.flatMap Inbound.jobIds = [j] := by
  obtain ⟨-, -, hstate⟩ := hinv.worker i w hw
  have hmem : j ∈ w.inFlight := List.mem_append_right _ hj
  cases hs : w.state with
  | booting =>
    simp only [hs] at hstate
    simp [hstate.2.1] at hmem
  | idle =>
    simp only [hs] at hstate
    simp [hstate.2.1] at hmem
  | dead =>
    simp only [hs] at hstate
    exact absurd hstate.2 hexited
  | busy =>
    simp only [hs] at hstate
    obtain ⟨j', hiff, hflight, hready, -⟩ := hstate
    rcases hflight with hflight | hflight
    · simp [hflight] at hmem
    obtain rfl : j = j' := by simpa [hflight] using hmem
    refine ⟨rfl, (hiff j).mpr rfl, ?_, ?_⟩
    · cases hbox : w.doneBox with
      | none => rfl
      | some message =>
        obtain ⟨e, -, -, hisolate, hinbox⟩ := hinv.box_of_busy hw hs hbox
        simp [hisolate, hinbox] at hj
    · cases hbox : w.doneBox with
      | none => simpa [Worker.inFlight, hbox] using hflight
      | some message =>
        obtain ⟨e, -, -, hisolate, hinbox⟩ := hinv.box_of_busy hw hs hbox
        simp [hisolate, hinbox] at hj

/-- An isolate that has not started yet belongs to a booting worker with an empty mailbox. -/
theorem Inv.booting_of_starting (hinv : p.Inv) (hw : p.workers[i]? = some w)
    (hstart : w.isolate = .starting) : w.state = .booting ∧ w.doneBox = none := by
  obtain ⟨-, -, hstate⟩ := hinv.worker i w hw
  cases hs : w.state with
  | booting =>
    simp only [hs] at hstate
    exact ⟨rfl, hstate.2.2 hstart⟩
  | idle =>
    simp only [hs] at hstate
    exact absurd hstart hstate.2.2.2
  | busy =>
    simp only [hs] at hstate
    obtain ⟨_, _, _, _, hne⟩ := hstate
    exact absurd hstart hne
  | dead =>
    simp only [hs] at hstate
    rw [hstart] at hstate
    exact absurd hstate.2 (by simp)

/-- With every worker's id its position, `_workerById` finds the worker at that position. -/
theorem workerById_of_ids (hids : ∀ (k : Nat) (v : Worker), p.workers[k]? = some v → v.id = k)
    (hw : p.workers[i]? = some w) : p.workerById i = some i := by
  obtain ⟨hlt, rfl⟩ := List.getElem?_eq_some_iff.mp hw
  refine List.findIdx?_eq_some_iff_getElem.mpr ⟨hlt, ?_, ?_⟩
  · simpa using hids i _ hw
  · intro k hk
    have hid := hids k _ (List.getElem?_eq_getElem (Nat.lt_trans hk hlt))
    simp only [decide_eq_true_eq]
    omega

theorem Inv.workerById_cases (hinv : p.Inv) (id : Nat) :
    (p.workerById id = none ∧ p.workers[id]? = none) ∨
      ∃ w, p.workers[id]? = some w ∧ p.workerById id = some id := by
  cases hw : p.workers[id]? with
  | some w => exact .inr ⟨w, rfl, workerById_of_ids hinv.ids hw⟩
  | none =>
    refine .inl ⟨List.findIdx?_eq_none_iff.mpr ?_, rfl⟩
    intro w hmem
    obtain ⟨k, hk⟩ := List.mem_iff_getElem?.mp hmem
    have hid := hinv.ids k w hk
    have hlt := (List.getElem?_eq_some_iff.mp hk).1
    have hle := List.getElem?_eq_none_iff.mp hw
    simp only [decide_eq_false_iff_not]
    omega

end Consequences

end Pool
