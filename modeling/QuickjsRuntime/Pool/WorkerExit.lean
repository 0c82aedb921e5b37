import QuickjsRuntime.Pool.Routing

/-! # Answers and the exit of the worker that gave them

`_onWorkerExit` completes every registered job of the worker with an error
envelope. A job stays registered until `wait` returns for it, also while its
envelope lies in the mailbox or was cached by a saturated `dispatch`: the exit
then replaces the worker's answer. As long as no exit notification meets such a
job, an envelope that was put is the one that `wait` returns.
-/

namespace Pool

open Utf16 (Text units)

variable {Ctx : Type} {cfg : Config Ctx} {p p' : Pool} {i j : Nat}

/-- The mailbox of worker `i` holds the envelope. -/
def InBox (p : Pool) (i : Nat) (e : AsyncJobEnvelope) : Prop :=
  ∃ w, p.workers[i]? = some w ∧ w.doneBox = some (.envelope e)

/-- Job `j` is registered to worker `i` and its envelope is cached or in the mailbox. -/
def Answered (p : Pool) (i j : Nat) : Prop :=
  p.jobs j = some ⟨i⟩ ∧ ((∃ e, p.completed j = some e) ∨ ∃ e, e.jobId = j ∧ p.InBox i e)

/-- No exit notification is delivered for a worker with an answered registered job. -/
def Label.SparesAnswers (p : Pool) : Label Ctx → Prop
  | .exitNotice i => ∀ j, ¬ p.Answered i j
  | _ => True

/-- The record has no `wait(j)` that returned. -/
def NotReturned (p : Pool) (j : Nat) : Prop := ∀ event ∈ p.history, ¬ event.isReturnOf j

/-- A `wait(j)` that is called now, or that is parked now, returns `e`: at once
from the cache, or with the next resumption of the main thread, which is enabled. -/
structure WaitReturns (cfg : Config Ctx) (p : Pool) (j : Nat) (e : AsyncJobEnvelope) : Prop where
  called : p.main = .idle → ∃ p', p.step cfg (.wait j) = some p' ∧
    (p'.history = .returned j e :: p.history ∨
      (p'.history = p.history ∧ ∃ i, p'.main = .waiting j i))
  parked : ∀ i, p.main = .waiting j i → ∃ p', p.step cfg .resume = some p' ∧
    p'.history = .returned j e :: .took i (.envelope e) :: p.history

/-- Every envelope that was put has been returned, or is cached, or is in the
mailbox of the worker that owes it. -/
def Keeps (p : Pool) : Prop :=
  ∀ i e, .put i (.envelope e) ∈ p.history →
    ¬ p.NotReturned e.jobId ∨ p.completed e.jobId = some e ∨ (p.Owes i e.jobId ∧ p.InBox i e)

theorem NotReturned.of_append (events : List Event) (hhistory : p'.history = events ++ p.history)
    (h : p'.NotReturned j) : p.NotReturned j := by
  intro event hevent
  exact h event (hhistory ▸ List.mem_append_right _ hevent)

/-- A step that adds no envelope to the record and moves none. -/
theorem Keeps.frame (h : p.Keeps) (events : List Event)
    (hhistory : p'.history = events ++ p.history)
    (hput : ∀ i e, Event.put i (.envelope e) ∉ events)
    (hkeep : ∀ i e, .put i (.envelope e) ∈ p.history → p'.NotReturned e.jobId →
      (p.completed e.jobId = some e → p'.completed e.jobId = some e) ∧
      (p.Owes i e.jobId → p.InBox i e →
        p'.completed e.jobId = some e ∨ (p'.Owes i e.jobId ∧ p'.InBox i e))) : p'.Keeps := by
  intro i e hmem
  rw [hhistory, List.mem_append] at hmem
  have hmem := hmem.resolve_left (hput i e)
  by_cases hreturned : p'.NotReturned e.jobId
  · obtain ⟨hcached, hbox⟩ := hkeep i e hmem hreturned
    rcases h i e hmem with hold | hold | ⟨howes, hin⟩
    · exact absurd (hreturned.of_append events hhistory) hold
    · exact .inr (.inl (hcached hold))
    · exact .inr (hbox howes hin)
  · exact .inl hreturned

/-- The same when the main-side maps stay as they are. -/
theorem Keeps.frame_maps (h : p.Keeps) (events : List Event)
    (hhistory : p'.history = events ++ p.history)
    (hput : ∀ i e, Event.put i (.envelope e) ∉ events) (hjobs : p'.jobs = p.jobs)
    (hcompleted : p'.completed = p.completed)
    (hbox : ∀ i e, p.InBox i e → p'.InBox i e) : p'.Keeps := by
  refine h.frame events hhistory hput ?_
  intro i e _ _
  rw [hcompleted]
  refine ⟨id, fun howes hin => .inr ⟨?_, hbox i e hin⟩⟩
  simpa [Owes, hjobs, hcompleted] using howes

/-- A worker is modified and keeps an envelope that is in its mailbox. -/
theorem InBox.modify {f : Worker → Worker} {k : Nat} {e : AsyncJobEnvelope}
    (hworkers : p'.workers = p.workers.modify k f)
    (hf : ∀ w, p.workers[k]? = some w → w.doneBox = some (.envelope e) →
      (f w).doneBox = some (.envelope e))
    (h : p.InBox i e) : p'.InBox i e := by
  obtain ⟨w, hw, hbox⟩ := h
  by_cases hk : k = i
  · subst hk
    exact ⟨f w, by simp [hworkers, hw], hf w hw hbox⟩
  · exact ⟨w, by simp [hworkers, hw, hk], hbox⟩

/-- Claiming a worker moves its envelope, if it has one, into the cache. -/
theorem Keeps.acquired (hinv : p.Inv) (h : p.Keeps) {claimed : Pool}
    (hacquired : p.Acquired i claimed) : claimed.Keeps := by
  cases hacquired with
  | idle =>
    refine h.frame_maps [] rfl (by simp) rfl rfl ?_
    intro k e hin
    exact hin.modify rfl fun _ _ hbox => hbox
  | @settled w hw hbooting hready =>
    refine h.frame_maps [.took i .ready] rfl (by simp) rfl rfl ?_
    intro k e hin
    obtain ⟨v, hv, hbox⟩ := hin
    have hk : i ≠ k := by
      rintro rfl
      obtain rfl : w = v := Option.some.inj (hw.symm.trans hv)
      simp [hready] at hbox
    exact ⟨v, by simp [Pool.taken, hk, hv], hbox⟩
  | @drained w taken hw hbusy hbox =>
    have howes := hinv.owes_of_drained hw hbusy hbox
    refine h.frame [.took i (.envelope taken)] rfl (by simp) ?_
    intro k e hput hreturned
    by_cases he : e.jobId = taken.jobId
    · refine ⟨?_, ?_⟩
      · intro hcached
        rw [he, howes.2] at hcached
        cases hcached
      · rintro howes' ⟨v, hv, hbox'⟩
        -- both envelopes are in the mailbox of the worker that owes the job
        rw [he] at howes'
        have hsame := howes'.1.symm.trans howes.1
        simp only [Option.some.injEq, PendingJob.mk.injEq] at hsame
        subst hsame
        obtain rfl : w = v := Option.some.inj (hw.symm.trans hv)
        obtain rfl : taken = e := by simpa [hbox] using hbox'
        exact .inl (by simp)
    · refine ⟨?_, ?_⟩
      · intro hcached
        simpa [Pool.taken, he] using hcached
      · rintro howes' ⟨v, hv, hbox'⟩
        have hk : i ≠ k := by
          rintro rfl
          obtain rfl : w = v := Option.some.inj (hw.symm.trans hv)
          obtain rfl : taken = e := by simpa [hbox] using hbox'
          exact he rfl
        refine .inr ⟨by simpa [Owes, Pool.taken, he] using howes', v, ?_, hbox'⟩
        simp [Pool.taken, hk, hv]

theorem Keeps.finishDispatch (hanswers : p.Answers) (h : p.Keeps) (fnSource argsJson : Text)
    (context : Option Text) : (p.finishDispatch i fnSource argsJson context).Keeps := by
  have howes : ∀ k e, .put k (.envelope e) ∈ p.history → p.Owes k e.jobId →
      (p.finishDispatch i fnSource argsJson context).Owes k e.jobId := by
    intro k e hput
    simp [Owes, Nat.ne_of_lt (hanswers.put_lt k e hput)]
  cases context with
  | none =>
    refine h.frame [.dispatchThrew .contextFailed] rfl (by simp) ?_
    intro k e hput _
    exact ⟨id, fun ho hin => .inr ⟨howes k e hput ho, hin⟩⟩
  | some json =>
    refine h.frame [.dispatched p.nextJobId, .sent i p.nextJobId] rfl (by simp) ?_
    intro k e hput _
    exact ⟨id, fun ho hin => .inr ⟨howes k e hput ho, hin.modify rfl fun _ _ hbox => hbox⟩⟩

theorem notReturned_cons_returned {k : Nat} {e : AsyncJobEnvelope}
    (hhistory : p'.history = .returned j e :: p.history) (hreturned : p'.NotReturned k) :
    k ≠ j := by
  rintro rfl
  exact hreturned (.returned k e) (hhistory ▸ List.mem_cons_self) (by simp [Event.isReturnOf])

theorem Keeps.move {label : Label Ctx} (hspares : label.SparesAnswers p) (hinv : p.Inv)
    (hanswers : p.Answers) (h : p.Keeps) (hmove : Move cfg p label p') : p'.Keeps := by
  cases hmove with
  | refuse => exact h.frame_maps [_] rfl (by simp) rfl rfl fun _ _ => id
  | call => exact h.frame_maps [] rfl (by simp) rfl rfl fun _ _ => id
  | @serve j served =>
    refine h.frame [.returned j served] rfl (by simp) ?_
    intro i e _ hreturned
    have hne : e.jobId ≠ j := notReturned_cons_returned (p := p) rfl hreturned
    refine ⟨?_, fun howes hin => .inr ⟨?_, hin⟩⟩
    · intro hcached
      simpa [hne] using hcached
    · simpa [Owes, hne] using howes
  | reject => exact h.frame_maps [.waitThrew _ _] rfl (by simp) rfl rfl fun _ _ => id
  | park => exact h.frame_maps [] rfl (by simp) rfl rfl fun _ _ => id
  | giveUp => exact h.frame_maps [.dispatchThrew _] rfl (by simp) rfl rfl fun _ _ => id
  | send hmain hacquired =>
    exact (h.acquired hinv hacquired).finishDispatch (hanswers.acquired hacquired) _ _ _
  | @collect j k w taken hmain hw hbusy hbox hid =>
    refine h.frame [.returned j taken, .took k (.envelope taken)] rfl (by simp) ?_
    intro i e _ hreturned
    have hne : e.jobId ≠ j := notReturned_cons_returned
      (p := p.taken k (.envelope taken)) rfl hreturned
    refine ⟨id, ?_⟩
    rintro howes ⟨v, hv, hbox'⟩
    have hk : k ≠ i := by
      rintro rfl
      obtain rfl : w = v := Option.some.inj (hw.symm.trans hv)
      obtain rfl : taken = e := by simpa [hbox] using hbox'
      exact hne hid
    refine .inr ⟨by simpa [Owes, Pool.taken, hne] using howes, v, ?_, hbox'⟩
    simp [Pool.taken, hk, hv]
  | @ready k w hw hstart hbooting hempty =>
    refine h.frame_maps [.put k .ready] rfl (by simp) rfl rfl ?_
    intro i e hin
    refine hin.modify rfl ?_
    intro v hv hbox
    obtain rfl : w = v := Option.some.inj (hw.symm.trans hv)
    simp [hempty] at hbox
  | receive =>
    refine h.frame_maps [] rfl (by simp) rfl rfl ?_
    intro i e hin
    exact hin.modify rfl fun _ _ hbox => hbox
  | @answer k w request ok resultJson error hw hrunning hbusy hempty howes =>
    intro i e hput
    rcases List.mem_cons.mp hput with heq | hput
    · cases heq
      exact .inr (.inr ⟨howes, by simp [InBox, hw]⟩)
    · rcases h i e hput with hold | hold | ⟨hold, hin⟩
      · refine .inl fun hreturned => hold ?_
        exact hreturned.of_append [_] rfl
      · exact .inr (.inl hold)
      · refine .inr (.inr ⟨hold, hin.modify rfl ?_⟩)
        intro v hv hbox
        obtain rfl : w = v := Option.some.inj (hw.symm.trans hv)
        simp [hempty] at hbox
  | exit =>
    refine h.frame_maps [] rfl (by simp) rfl rfl ?_
    intro i e hin
    exact hin.modify rfl fun _ _ hbox => hbox
  | @exitNotice k w hidle hw hnotice =>
    refine h.frame [] rfl (by simp) ?_
    intro i e _ _
    -- the guard says that none of the buried jobs had an answer
    refine ⟨?_, ?_⟩
    · intro hcached
      have hjob : p.jobs e.jobId ≠ some ⟨k⟩ := by
        intro hjob
        exact hspares e.jobId ⟨hjob, .inl ⟨e, hcached⟩⟩
      simpa [buried, hjob] using hcached
    · intro howes hin
      have hjob : p.jobs e.jobId ≠ some ⟨k⟩ := by
        intro hjob
        have hsame := howes.1.symm.trans hjob
        simp only [Option.some.injEq, PendingJob.mk.injEq] at hsame
        subst hsame
        exact hspares e.jobId ⟨hjob, .inr ⟨e, rfl, hin⟩⟩
      refine .inr ⟨by simpa [Owes, buried, hjob] using howes, ?_⟩
      exact hin.modify rfl fun _ _ hbox => hbox

/-- An envelope that is kept and was not returned yet is what `wait` returns. -/
theorem Keeps.waitReturns (hinv : p.Inv) (h : p.Keeps) {e : AsyncJobEnvelope}
    (hput : .put i (.envelope e) ∈ p.history) (hreturned : p.NotReturned e.jobId) :
    p.WaitReturns cfg e.jobId e := by
  have hkept := (h i e hput).resolve_left (not_not_intro hreturned)
  constructor
  · intro hidle
    refine ⟨p.wait e.jobId, by simp [step, hidle], ?_⟩
    rcases hkept with hcached | ⟨howes, w, hw, hbox⟩
    · exact .inl (by simp [wait, hcached])
    · have hfound := workerById_of_ids hinv.ids hw
      exact .inr (by simp [wait, howes.1, howes.2, hfound])
  · intro k hmain
    have hparked := hinv.waiting e.jobId k hmain
    rcases hkept with hcached | ⟨howes, w, hw, hbox⟩
    · simp [hparked.2] at hcached
    · have hsame := hparked.1.symm.trans howes.1
      simp only [Option.some.injEq, PendingJob.mk.injEq] at hsame
      subst hsame
      simp [step, resume, hmain, waitRound, takeEnvelope, take, hw, hbox]

/-- In every run in which no exit notification meets an answered registered job, an
envelope that a worker put is returned by the next `wait` for its job, whether
the worker has exited since or not. -/
theorem answer_survives_exit {n : Nat}
    (hreach : Transition.Reachable (step cfg) (fun q l => l.SparesAnswers q) (afterBoot n) p)
    {e : AsyncJobEnvelope} (hput : .put i (.envelope e) ∈ p.history)
    (hreturned : p.NotReturned e.jobId) : p.WaitReturns cfg e.jobId e := by
  have hkeeps : p.Inv ∧ p.Answers ∧ p.Keeps := by
    refine hreach.invariant (fun q => q.Inv ∧ q.Answers ∧ q.Keeps) ?_ ?_
    · refine ⟨inv_afterBoot n, (settled_afterBoot n).answers, ?_⟩
      simp [Keeps, afterBoot]
    · rintro q label q' ⟨hinv, hanswers, hkeeps⟩ hspares hstep
      have hmove := move_of_step hinv hstep
      exact ⟨hinv.move hmove, hanswers.move hinv hmove, hkeeps.move hspares hinv hanswers hmove⟩
  exact hkeeps.2.2.waitReturns hkeeps.1 hput hreturned

/-- A cached envelope is the only one that `wait` can return. -/
theorem WaitReturns.eq_of_cached {e cached : AsyncJobEnvelope} (h : p.WaitReturns cfg j e)
    (hidle : p.main = .idle) (hcached : p.completed j = some cached) : cached = e := by
  obtain ⟨p', hstep, hreturn⟩ := h.called hidle
  simp only [step, hidle, ↓reduceIte, wait, hcached, log, forget, Option.some.injEq] at hstep
  subst hstep
  rcases hreturn with hreturn | ⟨-, k, hmain⟩
  · simpa using hreturn
  · simp at hmain

def answer42 : AsyncJobEnvelope := { jobId := 0, ok := true, resultJson := some (units "42") }

/-- Worker 1 exits and its notification is delivered before job 0 is dispatched;
worker 0 answers and exits, with its notification still to come. -/
def exitBeforeNotice : List (Label (Option Text)) :=
  [.exit 1, .exitNotice 1, .dispatch (textCall none), .ready 0, .resume, .receive 0,
    .answer 0 true (some (units "42")) none, .exit 0]

theorem answer_survives_exit_of_both :
    ∃ p, Transition.run (step (textConfig 2)) (afterBoot 2) exitBeforeNotice = some p ∧
      p.main = .idle ∧ p.WaitReturns (textConfig 2) 0 answer42 := by
  obtain ⟨p, hrun, hput, hreturned, hidle⟩ :
      ∃ p, Transition.run (step (textConfig 2)) (afterBoot 2) exitBeforeNotice = some p ∧
        .put 0 (.envelope answer42) ∈ p.history ∧ p.NotReturned 0 ∧ p.main = .idle :=
    ⟨_, rfl, by decide, by unfold NotReturned; decide, rfl⟩
  refine ⟨p, hrun, hidle,
    answer_survives_exit (Transition.Reachable.init.run ?_ hrun) hput hreturned⟩
  refine ⟨trivial, fun q hq => ⟨?_, fun q' _ => Transition.RunAllowed.of_forall ?_⟩⟩
  · -- no job is registered yet when the notification arrives
    cases hq
    simp [Label.SparesAnswers, Answered, afterBoot]
  · intro label hlabel s
    simp only [List.mem_cons, List.not_mem_nil, or_false] at hlabel
    rcases hlabel with rfl | rfl | rfl | rfl | rfl | rfl <;> trivial

/-- Worker 0 answers job 0, exits, and the notification is delivered. -/
def noticeWithFullMailbox : List (Label (Option Text)) :=
  [.dispatch (textCall none), .ready 0, .resume, .receive 0,
    .answer 0 true (some (units "42")) none, .exit 0, .exitNotice 0]

/-- The same after a saturated dispatch has moved the answer of job 0 into the cache. -/
def noticeAfterCaching : List (Label (Option Text)) :=
  [.dispatch (textCall none), .ready 0, .resume, .receive 0,
    .answer 0 true (some (units "42")) none, .dispatch (textCall none), .resume, .exit 0,
    .exitNotice 0]

/-- After the labels the answer of job 0 was put and not returned, and `wait(0)` does not
return it. -/
def LosesAnswer (labels : List (Label (Option Text))) : Prop :=
  ∃ p, Transition.Reachable (step (textConfig 1)) (fun _ _ => True) (afterBoot 1) p ∧
    Transition.run (step (textConfig 1)) (afterBoot 1) labels = some p ∧
    .put 0 (.envelope answer42) ∈ p.history ∧ p.NotReturned 0 ∧ p.main = .idle ∧
    ¬ p.WaitReturns (textConfig 1) 0 answer42

theorem losesAnswer_of_cached {labels : List (Label (Option Text))} {p : Pool}
    (hrun : Transition.run (step (textConfig 1)) (afterBoot 1) labels = some p)
    (hput : .put 0 (.envelope answer42) ∈ p.history) (hreturned : p.NotReturned 0)
    (hidle : p.main = .idle) (hcached : p.completed 0 = some (exitedEnvelope 0 0)) :
    LosesAnswer labels := by
  refine ⟨p, Transition.reachable_of_run hrun, hrun, hput, hreturned, hidle, ?_⟩
  intro hwait
  exact absurd (hwait.eq_of_cached hidle hcached) (by simp [exitedEnvelope, answer42])

theorem exit_discards_answer :
    LosesAnswer noticeWithFullMailbox ∧ LosesAnswer noticeAfterCaching := by
  constructor
  · exact losesAnswer_of_cached rfl (by decide) (by unfold NotReturned; decide) rfl rfl
  · exact losesAnswer_of_cached rfl (by decide) (by unfold NotReturned; decide) rfl rfl

end Pool
