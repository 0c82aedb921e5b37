import Mathlib.Data.List.Basic
import QuickjsRuntime.Pool.Move

/-! # The invariant along every run

Each move keeps `Inv`, so it holds in every state reached from a booted pool,
whatever the workers, the exits and the failed dispatches do.
-/

namespace Pool

open Utf16 (Text)

variable {Ctx : Type} {cfg : Config Ctx} {p p' : Pool} {i j : Nat} {w : Worker}

theorem Worker.Ok.congr {owes owes' : Nat → Prop} (hiff : ∀ j, owes' j ↔ owes j)
    (hok : w.Ok owes) : w.Ok owes' := by
  obtain rfl : owes = owes' := funext fun j => propext (hiff j).symm
  exact hok

/-- A state whose workers differ from `p`'s at position `i` only, and where no
other worker owes more or less than before. -/
theorem Inv.modify (hinv : p.Inv) {f : Worker → Worker} (hw : p.workers[i]? = some w)
    (hworkers : p'.workers = p.workers.modify i f) (hid : (f w).id = w.id)
    (howes : ∀ k, k ≠ i → ∀ j, p'.Owes k j ↔ p.Owes k j)
    (hok : (f w).Ok (p'.Owes i))
    (hjob : ∀ j job, p'.jobs j = some job → j < p'.nextJobId ∧ job.workerId < p.workers.length)
    (hcompleted : ∀ j e, p'.completed j = some e → e.jobId = j ∧ j < p'.nextJobId)
    (hwaiting : ∀ j k, p'.main = .waiting j k → p'.Owes k j)
    (hport : p'.exitPort = p.exitPort) : p'.Inv where
  ids := forall_of_modify hinv.ids hw hworkers (hid.trans (hinv.ids i w hw))
  worker k v hv := by
    rw [hworkers] at hv
    rcases getElem?_modify_cases hv with ⟨hne, hv⟩ | ⟨rfl, v₀, hv₀, rfl⟩
    · exact (hinv.worker k v hv).congr (howes k hne)
    · obtain rfl : w = v₀ := Option.some.inj (hw.symm.trans hv₀)
      exact hok
  job_lt j job hj := by
    rw [hworkers, List.length_modify]
    exact hjob j job hj
  completed_lt := hcompleted
  waiting := hwaiting
  exitPort := hport.trans hinv.exitPort

theorem Inv.log (hinv : p.Inv) (event : Event) : (p.log event).Inv :=
  ⟨hinv.ids, hinv.worker, hinv.job_lt, hinv.completed_lt, hinv.waiting, hinv.exitPort⟩

/-- An isolate that ends loses at most the job it was running. -/
theorem Worker.inFlight_exited_sublist (w : Worker) :
    ({ w with isolate := .exited, exitNotice := true } : Worker).inFlight.Sublist w.inFlight := by
  simp only [Worker.inFlight, IsolatePhase.jobIds, List.nil_append]
  exact (List.Sublist.refl _).append (List.sublist_append_right _ _)

/-- A worker's own step: no main-side structure changes. -/
theorem Inv.isolateStep (hinv : p.Inv) {f : Worker → Worker} (hw : p.workers[i]? = some w)
    (hid : (f w).id = w.id) (hok : (f w).Ok (p.Owes i)) : (p.modifyWorker i f).Inv :=
  hinv.modify hw rfl hid (fun _ _ _ => Iff.rfl) hok hinv.job_lt hinv.completed_lt
    hinv.waiting rfl

/-! ## Emptying a mailbox -/

theorem taken_workers (message : Message) :
    (p.taken i message).workers =
      p.workers.modify i ({ · with doneBox := none, state := .idle }) := by
  simp [taken, List.modify_modify_eq, Function.comp_def]

/-- A settled worker is idle and the invariant holds again. -/
theorem Inv.settled (hinv : p.Inv) (hw : p.workers[i]? = some w) (hbooting : w.state = .booting)
    (hbox : w.doneBox = some .ready) : (p.taken i .ready).Inv := by
  obtain ⟨hshutdown, hnotice, hstate⟩ := hinv.worker i w hw
  simp only [hbooting] at hstate
  obtain ⟨hnone, hflight, hstarting⟩ := hstate
  refine hinv.modify hw (taken_workers _) rfl (fun _ _ _ => Iff.rfl) ?_ hinv.job_lt
    hinv.completed_lt hinv.waiting rfl
  refine ⟨hshutdown, hnotice, hnone, ?_, rfl, ?_⟩
  · simpa [Worker.inFlight, hbox, Message.jobIds] using hflight
  · intro hstart
    simp [hstarting hstart] at hbox

/-- With its envelope taken, a busy worker is free. -/
theorem Inv.free_of_taken (hinv : p.Inv) (hw : p.workers[i]? = some w) (hbusy : w.state = .busy)
    {e : AsyncJobEnvelope} (hbox : w.doneBox = some (.envelope e)) :
    Inbound.shutdown ∉ w.inbox ∧ (w.exitNotice = true → w.isolate = .exited) ∧
      Worker.Free { w with doneBox := none, state := .idle } ∧ ∀ j, p.Owes i j ↔ j = e.jobId := by
  obtain ⟨e', he, howes, hisolate, hinbox⟩ := hinv.box_of_busy hw hbusy hbox
  cases he
  obtain ⟨hshutdown, hnotice, hstate⟩ := hinv.worker i w hw
  simp only [hbusy] at hstate
  obtain ⟨_, _, _, _, hstart⟩ := hstate
  refine ⟨hshutdown, hnotice, ⟨?_, rfl, hstart⟩, (hinv.busy_of_owes hw howes).2⟩
  simp [Worker.inFlight, hisolate, hinbox]

/-- A saturated `_acquireWorker` has drained and cached the first busy worker's envelope. -/
theorem Inv.drained (hinv : p.Inv) (hw : p.workers[i]? = some w) (hbusy : w.state = .busy)
    {e : AsyncJobEnvelope} (hbox : w.doneBox = some (.envelope e))
    (hmain : ∀ j k, p.main ≠ .waiting j k) : ((p.taken i (.envelope e)).cache e).Inv := by
  obtain ⟨hshutdown, hnotice, hfree, howes⟩ := hinv.free_of_taken hw hbusy hbox
  have hown := (howes e.jobId).mpr rfl
  refine hinv.modify hw (taken_workers _) rfl ?_ ⟨hshutdown, hnotice, ?_, hfree⟩ hinv.job_lt ?_
    (fun j k hwaiting => absurd hwaiting (hmain j k)) rfl
  · intro k hne j
    by_cases hj : j = e.jobId
    · subst hj
      -- the job belongs to worker `i`, so worker `k` owed it neither before nor after
      have hother : ∀ q : Pool, q.jobs = p.jobs → ¬ q.Owes k e.jobId := by
        rintro q hjobs ⟨hk, -⟩
        rw [hjobs, hown.1] at hk
        simp only [Option.some.injEq, PendingJob.mk.injEq] at hk
        exact hne hk.symm
      exact iff_of_false (hother _ rfl) (hother _ rfl)
    · simp [Owes, taken, Function.update_of_ne hj]
  · rintro j ⟨hjob, hcompleted⟩
    by_cases hj : j = e.jobId
    · subst hj
      simp at hcompleted
    · refine hj ((howes j).mp ⟨hjob, ?_⟩)
      simpa [taken, Function.update_of_ne hj] using hcompleted
  · intro j e' he'
    by_cases hj : j = e.jobId
    · subst hj
      simp only [taken, cache, Function.update_self, Option.some.injEq] at he'
      subst he'
      exact ⟨rfl, (hinv.job_lt _ _ hown.1).1⟩
    · exact hinv.completed_lt j e' (by simpa [taken, Function.update_of_ne hj] using he')

/-- `wait` has taken the envelope it waits for. -/
theorem Inv.collected (hinv : p.Inv) (hw : p.workers[i]? = some w) (hbusy : w.state = .busy)
    {e : AsyncJobEnvelope} (hbox : w.doneBox = some (.envelope e)) :
    ({ p.taken i (.envelope e) with main := .idle }.forget e.jobId).Inv := by
  obtain ⟨hshutdown, hnotice, hfree, howes⟩ := hinv.free_of_taken hw hbusy hbox
  have hown := (howes e.jobId).mpr rfl
  refine hinv.modify hw (taken_workers (.envelope e)) rfl ?_ ⟨hshutdown, hnotice, ?_, hfree⟩ ?_
    hinv.completed_lt (fun j k hwaiting => by simp at hwaiting) rfl
  · intro k hne j
    by_cases hj : j = e.jobId
    · subst hj
      refine iff_of_false (by simp [Owes]) ?_
      rintro ⟨hk, -⟩
      rw [hown.1] at hk
      simp only [Option.some.injEq, PendingJob.mk.injEq] at hk
      exact hne hk.symm
    · simp [Owes, taken, Function.update_of_ne hj]
  · rintro j ⟨hjob, hcompleted⟩
    by_cases hj : j = e.jobId
    · subst hj
      simp at hjob
    · refine hj ((howes j).mp ⟨?_, hcompleted⟩)
      simpa [taken, Function.update_of_ne hj] using hjob
  · intro j job hjob
    by_cases hj : j = e.jobId
    · subst hj
      simp at hjob
    · exact hinv.job_lt j job (by simpa [taken, Function.update_of_ne hj] using hjob)

/-! ## Dispatching -/

/-- The next job id is not in use. -/
theorem Inv.fresh (hinv : p.Inv) :
    p.jobs p.nextJobId = none ∧ p.completed p.nextJobId = none := by
  constructor
  · cases hjob : p.jobs p.nextJobId with
    | none => rfl
    | some job => exact absurd (hinv.job_lt _ _ hjob).1 (Nat.lt_irrefl _)
  · cases hdone : p.completed p.nextJobId with
    | none => rfl
    | some e => exact absurd (hinv.completed_lt _ _ hdone).2 (Nat.lt_irrefl _)

/-- Registering the next job on an idle worker, whether or not it can be sent. -/
theorem Inv.finishDispatch (hinv : p.Inv) (hw : p.workers[i]? = some w) (hidle : w.state = .idle)
    (fnSource argsJson : Text) (context : Option Text) :
    ((p.claim i).finishDispatch i fnSource argsJson context).Inv := by
  obtain ⟨hshutdown, hnotice, hstate⟩ := hinv.worker i w hw
  simp only [hidle] at hstate
  obtain ⟨hnone, hflight, hbox, hstart⟩ := hstate
  obtain ⟨hfresh, huncached⟩ := hinv.fresh
  -- both ends of `dispatch` differ only in the inbox and the record
  have hregistered : ∀ (q : Pool) (f : Worker → Worker) (inbox : List Inbound),
      q.workers = p.workers.modify i f → f w = { w with state := .busy, inbox } →
      Inbound.shutdown ∉ inbox →
      (inbox.flatMap Inbound.jobIds = [] ∨ inbox.flatMap Inbound.jobIds = [p.nextJobId]) →
      q.jobs = Function.update p.jobs p.nextJobId (some ⟨i⟩) → q.completed = p.completed →
      q.nextJobId = p.nextJobId + 1 → q.main = .idle → q.exitPort = p.exitPort → q.Inv := by
    intro q f inbox hworkers hf hclean hjobIds hjobs hdone hnext hmain hport
    refine hinv.modify hw hworkers (by rw [hf]) ?_ (hf ▸ ⟨hclean, hnotice, ?_⟩) ?_ ?_ ?_ hport
    · intro k hne j
      by_cases hj : j = p.nextJobId
      · subst hj
        simp [Owes, hjobs, hfresh, Ne.symm hne]
      · simp [Owes, hjobs, hdone, Function.update_of_ne hj]
    · refine ⟨p.nextJobId, ?_, ?_, by simp [hbox], hstart⟩
      · intro k
        by_cases hk : k = p.nextJobId
        · subst hk
          simp [Owes, hjobs, hdone, huncached]
        · simpa [Owes, hjobs, hdone, Function.update_of_ne hk, hk] using hnone k
      · simp only [Worker.inFlight, List.append_eq_nil_iff] at hflight
        simpa [Worker.inFlight, hbox, hflight.2.1] using hjobIds
    · intro j job hjob
      by_cases hj : j = p.nextJobId
      · subst hj
        simp only [hjobs, Function.update_self, Option.some.injEq] at hjob
        subst hjob
        exact ⟨by omega, (List.getElem?_eq_some_iff.mp hw).1⟩
      · rw [hjobs, Function.update_of_ne hj] at hjob
        obtain ⟨hlt, hworker⟩ := hinv.job_lt j job hjob
        exact ⟨by omega, hworker⟩
    · intro j e he
      rw [hdone] at he
      obtain ⟨hid, hlt⟩ := hinv.completed_lt j e he
      exact ⟨hid, by omega⟩
    · intro j k hwaiting
      simp [hmain] at hwaiting
  have hid := hinv.ids i w hw
  have hempty : w.inbox.flatMap Inbound.jobIds = [] := by
    simp only [Worker.inFlight, List.append_eq_nil_iff] at hflight
    exact hflight.2.2
  cases context with
  | none =>
    refine hregistered _ _ w.inbox rfl rfl hshutdown (.inl hempty) ?_ rfl rfl rfl rfl
    simp [Pool.finishDispatch, hw, hid]
  | some json =>
    refine hregistered _ _ (w.inbox ++ [.job ⟨p.nextJobId, fnSource, argsJson, json⟩])
      (List.modify_modify_eq _ _ _ _) rfl (by simpa using hshutdown) (.inr ?_) ?_ rfl rfl rfl rfl
    · simp [hempty, Inbound.jobIds]
    · simp [Pool.finishDispatch, hw, hid]

/-! ## The whole machine -/

theorem Inv.buried (hinv : p.Inv) (hidle : p.main = .idle) (hw : p.workers[i]? = some w)
    (hnotice : w.exitNotice = true) : (p.buried i).Inv := by
  obtain ⟨hshutdown, hexited, -⟩ := hinv.worker i w hw
  refine hinv.modify hw rfl rfl ?_ ⟨hshutdown, by simp, ?_, hexited hnotice⟩ ?_ ?_ ?_ rfl
  · intro k hne j
    by_cases hj : p.jobs j = some ⟨i⟩
    · refine iff_of_false (by simp [Owes, Pool.buried, hj]) ?_
      rintro ⟨hk, -⟩
      rw [hj] at hk
      simp only [Option.some.injEq, PendingJob.mk.injEq] at hk
      exact hne hk.symm
    · simp [Owes, Pool.buried, hj]
  · rintro j ⟨hjob, -⟩
    by_cases hj : p.jobs j = some ⟨i⟩
    · simp [Pool.buried, hj] at hjob
    · simp [Pool.buried, hj] at hjob
  · intro j job hjob
    by_cases hj : p.jobs j = some ⟨i⟩
    · simp [Pool.buried, hj] at hjob
    · exact hinv.job_lt j job (by simpa [Pool.buried, hj] using hjob)
  · intro j e he
    by_cases hj : p.jobs j = some ⟨i⟩
    · simp only [Pool.buried, hj, ↓reduceIte, Option.some.injEq] at he
      subst he
      exact ⟨rfl, (hinv.job_lt j _ hj).1⟩
    · exact hinv.completed_lt j e (by simpa [Pool.buried, hj] using he)
  · intro j k hwaiting
    simp [Pool.buried, hidle] at hwaiting

theorem Inv.acquired (hinv : p.Inv) (hmain : ∀ j k, p.main ≠ .waiting j k) {claimed : Pool}
    (hacquired : p.Acquired i claimed) :
    ∃ (q : Pool) (w : Worker), q.Inv ∧ q.workers[i]? = some w ∧ w.state = .idle ∧
      claimed = q.claim i := by
  cases hacquired with
  | @idle w hw hstate => exact ⟨p, w, hinv, hw, hstate, rfl⟩
  | @settled w hw hstate hbox =>
    refine ⟨p.taken i .ready, { w with doneBox := none, state := .idle },
      hinv.settled hw hstate hbox, ?_, rfl, rfl⟩
    simp [taken_workers, hw]
  | @drained w e hw hstate hbox =>
    refine ⟨(p.taken i (.envelope e)).cache e, { w with doneBox := none, state := .idle },
      hinv.drained hw hstate hbox hmain, ?_, rfl, rfl⟩
    simp [taken_workers, hw]

theorem Inv.move {label : Label Ctx} (hinv : p.Inv) (hmove : Move cfg p label p') : p'.Inv := by
  cases hmove with
  | refuse call => exact hinv.log _
  | call call hidle hbooted =>
    exact ⟨hinv.ids, hinv.worker, hinv.job_lt, hinv.completed_lt, by simp, hinv.exitPort⟩
  | @serve j e hidle hcached =>
    refine Inv.log (p := { p with completed := Function.update p.completed j none }.forget j)
      ⟨hinv.ids, ?_, ?_, ?_, by simp [hidle], hinv.exitPort⟩ _
    · intro k v hv
      refine (hinv.worker k v hv).congr ?_
      intro j'
      by_cases hj : j' = j
      · subst hj
        simp [Owes, hcached]
      · simp [Owes, Function.update_of_ne hj]
    · intro j' job hjob
      by_cases hj : j' = j
      · subst hj
        simp at hjob
      · exact hinv.job_lt j' job (by simpa [Function.update_of_ne hj] using hjob)
    · intro j' e' he'
      by_cases hj : j' = j
      · subst hj
        simp at he'
      · exact hinv.completed_lt j' e' (by simpa [Function.update_of_ne hj] using he')
  | reject => exact hinv.log _
  | @park j i w hidle howes hw =>
    refine ⟨hinv.ids, hinv.worker, hinv.job_lt, hinv.completed_lt, ?_, hinv.exitPort⟩
    intro j' k hwaiting
    cases hwaiting
    exact howes
  | giveUp =>
    exact Inv.log (p := { p with main := .idle })
      ⟨hinv.ids, hinv.worker, hinv.job_lt, hinv.completed_lt, by simp, hinv.exitPort⟩ _
  | send hmain hacquired =>
    obtain ⟨q, w, hq, hw, hidle, rfl⟩ := hinv.acquired (by simp [hmain]) hacquired
    exact hq.finishDispatch hw hidle _ _ _
  | collect hmain hw hbusy hbox hid =>
    subst hid
    exact (hinv.collected hw hbusy hbox).log _
  | @ready i w hw hstart hbooting hbox =>
    refine (hinv.isolateStep hw rfl ?_).log _
    obtain ⟨hshutdown, hnotice, hstate⟩ := hinv.worker i w hw
    simp only [hbooting] at hstate
    refine ⟨hshutdown, fun hn => absurd (hnotice hn) (by simp [hstart]), ?_⟩
    simpa [hbooting, Worker.inFlight, hbox, hstart, Message.jobIds, IsolatePhase.jobIds]
      using hstate
  | @receive i w message rest hw hlistening hinbox =>
    refine hinv.isolateStep hw rfl ?_
    obtain ⟨hbusy, -, hbox, hunderway⟩ := hinv.busy_of_underway hw (j := message.jobId)
      (by simp [hlistening]) (by simp [hinbox, Inbound.jobIds])
    obtain ⟨hshutdown, hnotice, hstate⟩ := hinv.worker i w hw
    refine ⟨fun hmem => hshutdown (by simp [hinbox, hmem]),
      fun hn => absurd (hnotice hn) (by simp [hlistening]), ?_⟩
    simp only [hbusy] at hstate ⊢
    obtain ⟨j, hiff, hflight, hready, -⟩ := hstate
    refine ⟨j, hiff, ?_, hready, by simp⟩
    simpa [Worker.inFlight, hbox, hlistening, hinbox, Inbound.jobIds, IsolatePhase.jobIds]
      using hflight
  | @answer i w request ok resultJson error hw hrunning hbusy hbox howes =>
    refine (hinv.isolateStep hw rfl ?_).log _
    obtain ⟨hshutdown, hnotice, hstate⟩ := hinv.worker i w hw
    refine ⟨hshutdown, fun hn => absurd (hnotice hn) (by simp [hrunning]), ?_⟩
    simp only [hbusy] at hstate ⊢
    obtain ⟨j, hiff, hflight, -, -⟩ := hstate
    refine ⟨j, hiff, ?_, by simp, by simp⟩
    simpa [Worker.inFlight, hbox, hrunning, Message.jobIds, IsolatePhase.jobIds] using hflight
  | @exit i w hw hrunning =>
    refine hinv.isolateStep hw rfl ?_
    obtain ⟨hshutdown, -, hstate⟩ := hinv.worker i w hw
    refine ⟨hshutdown, fun _ => rfl, ?_⟩
    have hless := w.inFlight_exited_sublist
    cases hs : w.state with
    | booting =>
      simp only [hs] at hstate ⊢
      obtain ⟨hnone, hflight, -⟩ := hstate
      exact ⟨hnone, List.sublist_nil.mp (hflight ▸ hless), by simp⟩
    | idle =>
      simp only [hs] at hstate ⊢
      obtain ⟨hnone, hflight, hbox, -⟩ := hstate
      exact ⟨hnone, List.sublist_nil.mp (hflight ▸ hless), hbox, by simp⟩
    | busy =>
      simp only [hs] at hstate ⊢
      obtain ⟨j, hiff, hflight, hready, -⟩ := hstate
      refine ⟨j, hiff, ?_, hready, by simp⟩
      rcases hflight with hflight | hflight
      · exact .inl (List.sublist_nil.mp (hflight ▸ hless))
      · exact List.sublist_singleton.mp (hflight ▸ hless)
    | dead =>
      simp only [hs] at hstate ⊢
      exact ⟨hstate.1, trivial⟩
  | exitNotice hidle hw hnotice => exact hinv.buried hidle hw hnotice

/-- The invariant holds when the boot has completed. -/
theorem inv_afterBoot (n : Nat) : (afterBoot n).Inv where
  ids i w hw := by
    simp only [afterBoot, List.getElem?_map, Option.map_eq_some_iff] at hw
    obtain ⟨k, hk, rfl⟩ := hw
    exact (List.getElem?_eq_some_iff.mp hk).2 ▸ by simp
  worker i w hw := by
    simp only [afterBoot, List.getElem?_map, Option.map_eq_some_iff] at hw
    obtain ⟨k, hk, rfl⟩ := hw
    simp [Worker.Ok, Owes, afterBoot, Worker.inFlight, IsolatePhase.jobIds]
  job_lt j job hjob := by simp [afterBoot] at hjob
  completed_lt j e he := by simp [afterBoot] at he
  waiting j i hwaiting := by simp [afterBoot] at hwaiting
  exitPort := rfl

/-- Every state of every run from a booted pool meets the invariant. -/
theorem inv_of_reachable {n : Nat} {allowed : Pool → Label Ctx → Prop}
    (hreach : Transition.Reachable (step cfg) allowed (afterBoot n) p) : p.Inv :=
  hreach.invariant Inv (inv_afterBoot n) fun _ _ _ hinv _ hstep =>
    hinv.move (move_of_step hinv hstep)

end Pool
