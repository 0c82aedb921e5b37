import QuickjsRuntime.Pool.Preservation

/-! # The record of a run

The history of a run is compared with the pool's own structures: `Answers` for the
envelopes that workers put, in any run; `Owed` for the jobs a worker owes, in runs
without failed dispatches; `Accounted` and `Returns` for what was sent, taken and
returned, in runs without exits either.
-/

namespace Pool

open Utf16 (Text)

variable {Ctx : Type} {cfg : Config Ctx} {p p' : Pool} {i j : Nat} {w : Worker}

/-- The jobs that are in a worker but not yet answered. -/
def Worker.unanswered (w : Worker) : List Nat :=
  w.isolate.jobIds ++ w.inbox.flatMap Inbound.jobIds

/-- What the record says about the envelopes that workers have put. -/
structure Answers (p : Pool) : Prop where
  put_lt : ∀ i e, .put i (.envelope e) ∈ p.history → e.jobId < p.nextJobId
  box_put : ∀ (i : Nat) (w : Worker) e, p.workers[i]? = some w →
    w.doneBox = some (.envelope e) → .put i (.envelope e) ∈ p.history
  unanswered : ∀ (i : Nat) (w : Worker) j, p.workers[i]? = some w → w.isolate ≠ .exited →
    j ∈ w.unanswered → ∀ k e, .put k (.envelope e) ∈ p.history → e.jobId ≠ j
  unique : ∀ i e i' e', .put i (.envelope e) ∈ p.history → .put i' (.envelope e') ∈ p.history →
    e.jobId = e'.jobId → i = i' ∧ e = e'

/-- A move that adds no envelope: boxes only lose envelopes, and a job that is
new in a worker has a fresh id. -/
theorem Answers.frame (h : p.Answers) (events : List Event)
    (hhistory : p'.history = events ++ p.history)
    (hevents : ∀ i e, Event.put i (.envelope e) ∉ events) (hnext : p.nextJobId ≤ p'.nextJobId)
    (hworkers : ∀ (k : Nat) (v : Worker), p'.workers[k]? = some v → ∃ v₀, p.workers[k]? = some v₀ ∧
      (∀ e, v.doneBox = some (.envelope e) → v₀.doneBox = some (.envelope e)) ∧
      (v.isolate ≠ .exited → v₀.isolate ≠ .exited ∧
        ∀ j ∈ v.unanswered, j ∈ v₀.unanswered ∨ p.nextJobId ≤ j)) : p'.Answers := by
  have hput : ∀ i e, Event.put i (.envelope e) ∈ p'.history →
      Event.put i (.envelope e) ∈ p.history := by
    intro i e he
    rw [hhistory] at he
    exact (List.mem_append.mp he).resolve_left (hevents i e)
  refine ⟨?_, ?_, ?_, fun i e i' e' he he' => h.unique i e i' e' (hput i e he) (hput i' e' he')⟩
  · intro i e he
    exact Nat.lt_of_lt_of_le (h.put_lt i e (hput i e he)) hnext
  · intro i v e hv hbox
    obtain ⟨v₀, hv₀, hboxes, -⟩ := hworkers i v hv
    rw [hhistory]
    exact List.mem_append_right _ (h.box_put i v₀ e hv₀ (hboxes e hbox))
  · intro i v j hv hlive hj k e he
    obtain ⟨v₀, hv₀, -, hjobs⟩ := hworkers i v hv
    obtain ⟨hlive₀, hjobs⟩ := hjobs hlive
    rcases hjobs j hj with hold | hfresh
    · exact h.unanswered i v₀ j hv₀ hlive₀ hold k e (hput k e he)
    · have hlt := h.put_lt k e (hput k e he)
      omega

/-- The same when no worker changes. -/
theorem Answers.frame_main (h : p.Answers) (events : List Event)
    (hhistory : p'.history = events ++ p.history)
    (hevents : ∀ i e, Event.put i (.envelope e) ∉ events) (hnext : p.nextJobId ≤ p'.nextJobId)
    (hworkers : p'.workers = p.workers) : p'.Answers :=
  h.frame events hhistory hevents hnext fun _ v hv =>
    ⟨v, hworkers ▸ hv, fun _ he => he, fun hlive => ⟨hlive, fun _ hj => .inl hj⟩⟩

/-- The same when one worker is modified. -/
theorem Answers.frame_modify (h : p.Answers) (events : List Event)
    (hhistory : p'.history = events ++ p.history)
    (hevents : ∀ i e, Event.put i (.envelope e) ∉ events) (hnext : p.nextJobId ≤ p'.nextJobId)
    {f : Worker → Worker} (hworkers : p'.workers = p.workers.modify i f)
    (hbox : ∀ w e, (f w).doneBox = some (.envelope e) → w.doneBox = some (.envelope e))
    (hjobs : ∀ w, p.workers[i]? = some w → (f w).isolate ≠ .exited → w.isolate ≠ .exited ∧
      ∀ j ∈ (f w).unanswered, j ∈ w.unanswered ∨ p.nextJobId ≤ j) : p'.Answers := by
  refine h.frame events hhistory hevents hnext ?_
  intro k v hv
  rw [hworkers] at hv
  rcases getElem?_modify_cases hv with ⟨-, hv⟩ | ⟨rfl, v₀, hv₀, rfl⟩
  · exact ⟨v, hv, fun _ he => he, fun hlive => ⟨hlive, fun _ hj => .inl hj⟩⟩
  · exact ⟨v₀, hv₀, hbox v₀, hjobs v₀ hv₀⟩

theorem Answers.taken (h : p.Answers) (message : Message) : (p.taken i message).Answers :=
  h.frame_modify [.took i message] rfl (by simp) (Nat.le_refl _) (taken_workers message) (by simp)
    (fun _ _ hlive => ⟨hlive, fun _ hj => .inl hj⟩)

theorem Answers.claim (h : p.Answers) : (p.claim i).Answers :=
  h.frame_modify [] rfl (by simp) (Nat.le_refl _) rfl (fun _ _ he => he)
    (fun _ _ hlive => ⟨hlive, fun _ hj => .inl hj⟩)

theorem Answers.acquired (h : p.Answers) {claimed : Pool} (hacquired : p.Acquired i claimed) :
    claimed.Answers := by
  cases hacquired with
  | idle => exact h.claim
  | settled => exact (h.taken .ready).claim
  | drained =>
    refine Answers.claim ?_
    exact (h.taken (.envelope _)).frame_main [] rfl (by simp) (Nat.le_refl _) rfl

theorem Answers.finishDispatch (h : p.Answers) (fnSource argsJson : Text)
    (context : Option Text) : (p.finishDispatch i fnSource argsJson context).Answers := by
  cases context with
  | none =>
    exact h.frame_main [.dispatchThrew .contextFailed] rfl (by simp) (Nat.le_succ _) rfl
  | some json =>
    refine h.frame_modify [.dispatched p.nextJobId, .sent i p.nextJobId] rfl (by simp)
      (Nat.le_succ _) rfl (fun _ _ he => he) ?_
    refine fun w _ hlive => ⟨hlive, ?_⟩
    intro j hj
    simp only [Worker.unanswered, List.flatMap_append, List.flatMap_cons, List.flatMap_nil,
      Inbound.jobIds, List.append_nil, List.mem_append, List.mem_singleton] at hj ⊢
    rcases hj with hj | hj | hj
    · exact .inl (.inl hj)
    · exact .inl (.inr hj)
    · exact .inr (Nat.le_of_eq hj.symm)

/-- The worker that answers puts the only envelope of its job. -/
theorem Answers.answer (hinv : p.Inv) (h : p.Answers) {request : AsyncJobRequest}
    (hw : p.workers[i]? = some w) (hrunning : w.isolate = .running request)
    (howes : p.Owes i request.jobId) {e : AsyncJobEnvelope} (hid : e.jobId = request.jobId) :
    ((p.modifyWorker i ({ · with isolate := .listening, doneBox := some (.envelope e) })).log
      (.put i (.envelope e))).Answers := by
  have hmem : request.jobId ∈ w.unanswered := by simp [Worker.unanswered, hrunning,
    IsolatePhase.jobIds]
  have hnew : ∀ k e', .put k (.envelope e') ∈ p.history → e'.jobId ≠ e.jobId := by
    intro k e' he'
    rw [hid]
    exact h.unanswered i w _ hw (by simp [hrunning]) hmem k e' he'
  refine ⟨?_, ?_, ?_, ?_⟩
  · intro k e' he'
    rcases List.mem_cons.mp he' with heq | he'
    · cases heq
      rw [hid]
      exact (hinv.job_lt _ _ howes.1).1
    · exact h.put_lt k e' he'
  · intro k v e' hv hbox
    rcases getElem?_modify_cases hv with ⟨-, hv⟩ | ⟨rfl, v₀, hv₀, rfl⟩
    · exact List.mem_cons_of_mem _ (h.box_put k v e' hv hbox)
    · cases hbox
      exact List.mem_cons_self
  · intro k v j hv hlive hj k' e' he'
    rcases getElem?_modify_cases hv with ⟨hne, hv⟩ | ⟨rfl, v₀, hv₀, rfl⟩
    · -- a job under way in another worker is owed by that worker, not by worker `i`
      obtain ⟨-, howes', -, -⟩ := hinv.busy_of_underway hv hlive hj
      rcases List.mem_cons.mp he' with heq | he'
      · cases heq
        rintro rfl
        rw [hid] at howes'
        have hsame := howes'.1.symm.trans howes.1
        simp only [Option.some.injEq, PendingJob.mk.injEq] at hsame
        exact hne hsame
      · exact h.unanswered k v j hv hlive hj k' e' he'
    · -- the worker itself had nothing else under way
      obtain rfl : w = v₀ := Option.some.inj (hw.symm.trans hv₀)
      obtain ⟨-, -, -, honly⟩ := hinv.busy_of_underway hw (by simp [hrunning]) hmem
      simp only [hrunning, IsolatePhase.jobIds, List.cons_append, List.nil_append,
        List.cons.injEq, true_and] at honly
      simp [Worker.unanswered, IsolatePhase.jobIds, honly] at hj
  · intro k e₁ k' e₂ he₁ he₂ heq
    rcases List.mem_cons.mp he₁ with h₁ | he₁ <;> rcases List.mem_cons.mp he₂ with h₂ | he₂
    · cases h₁
      cases h₂
      exact ⟨rfl, rfl⟩
    · cases h₁
      exact absurd heq.symm (hnew k' e₂ he₂)
    · cases h₂
      exact absurd heq (hnew k e₁ he₁)
    · exact h.unique k e₁ k' e₂ he₁ he₂ heq

theorem Answers.move {label : Label Ctx} (hinv : p.Inv) (h : p.Answers)
    (hmove : Move cfg p label p') : p'.Answers := by
  cases hmove with
  | refuse => exact h.frame_main [_] rfl (by simp) (Nat.le_refl _) rfl
  | call => exact h.frame_main [] rfl (by simp) (Nat.le_refl _) rfl
  | serve => exact h.frame_main [.returned _ _] rfl (by simp) (Nat.le_refl _) rfl
  | reject => exact h.frame_main [.waitThrew _ _] rfl (by simp) (Nat.le_refl _) rfl
  | park => exact h.frame_main [] rfl (by simp) (Nat.le_refl _) rfl
  | giveUp => exact h.frame_main [.dispatchThrew _] rfl (by simp) (Nat.le_refl _) rfl
  | send hmain hacquired => exact (h.acquired hacquired).finishDispatch _ _ _
  | collect =>
    exact h.frame_modify [.returned _ _, .took _ (.envelope _)] rfl (by simp) (Nat.le_refl _)
      (taken_workers _) (by simp) (fun _ _ hlive => ⟨hlive, fun _ hj => .inl hj⟩)
  | @ready i w hw hstart =>
    refine h.frame_modify [.put _ .ready] rfl (by simp) (Nat.le_refl _) rfl (by simp)
      ?_
    intro v hv _
    obtain rfl : w = v := Option.some.inj (hw.symm.trans hv)
    refine ⟨by simp [hstart], fun j hj => .inl ?_⟩
    simpa [Worker.unanswered, hstart, IsolatePhase.jobIds] using hj
  | @receive i w message rest hw hlistening hinbox =>
    refine h.frame_modify [] rfl (by simp) (Nat.le_refl _) rfl (fun _ _ he => he) ?_
    intro v hv _
    obtain rfl : w = v := Option.some.inj (hw.symm.trans hv)
    refine ⟨by simp [hlistening], fun j hj => .inl ?_⟩
    simpa [Worker.unanswered, hlistening, hinbox, IsolatePhase.jobIds, Inbound.jobIds] using hj
  | @answer i w request ok resultJson error hw hrunning hbusy hbox howes =>
    exact h.answer hinv hw hrunning howes rfl
  | exit =>
    exact h.frame_modify [] rfl (by simp) (Nat.le_refl _) rfl (fun _ _ he => he)
      (fun _ _ hlive => absurd rfl hlive)
  | exitNotice hidle hw hnotice =>
    exact h.frame_modify [] rfl (by simp) (Nat.le_refl _) rfl (fun _ _ he => he)
      (fun _ _ hlive => ⟨hlive, fun _ hj => .inl hj⟩)

/-! ## Contexts that can be sent -/

/-- The context of a dispatch can be encoded, unless no worker is left to send it to. -/
def Label.Encodable (cfg : Config Ctx) (p : Pool) : Label Ctx → Prop
  | .dispatch call => (call.encodedContext cfg).isSome ∨ p.AllDead
  | _ => True

/-- A parked `dispatch` will be able to send. -/
def Sendable (p : Pool) : Prop :=
  ∀ fnSource argsJson context, p.main = .acquiring fnSource argsJson context →
    context.isSome ∨ p.AllDead

theorem AllDead.modify {f : Worker → Worker} (hworkers : p'.workers = p.workers.modify i f)
    (hf : ∀ w, (f w).state = w.state) (h : p.AllDead) : p'.AllDead := by
  intro k v hv
  rw [hworkers] at hv
  rcases getElem?_modify_cases hv with ⟨-, hv⟩ | ⟨rfl, v₀, hv₀, rfl⟩
  · exact h k v hv
  · rw [hf]
    exact h k v₀ hv₀

theorem Sendable.modify (h : p.Sendable) {f : Worker → Worker} (hmain : p'.main = p.main)
    (hworkers : p'.workers = p.workers.modify i f) (hf : ∀ w, (f w).state = w.state) :
    p'.Sendable := by
  intro fnSource argsJson context heq
  rcases h fnSource argsJson context (hmain ▸ heq) with hsome | hdead
  · exact .inl hsome
  · exact .inr (hdead.modify hworkers hf)

theorem Sendable.move {label : Label Ctx} (hencodable : label.Encodable cfg p) (h : p.Sendable)
    (hmove : Move cfg p label p') : p'.Sendable := by
  cases hmove with
  | refuse call hidle => simp [Sendable, hidle]
  | call call =>
    intro fnSource argsJson context heq
    cases heq
    exact hencodable
  | serve hidle => simp [Sendable, hidle]
  | reject hidle => simp [Sendable, hidle]
  | park => simp [Sendable]
  | giveUp => simp [Sendable]
  | send => simp [Sendable]
  | collect => simp [Sendable]
  | ready => exact h.modify rfl rfl fun _ => rfl
  | receive => exact h.modify rfl rfl fun _ => rfl
  | answer => exact h.modify rfl rfl fun _ => rfl
  | exit => exact h.modify rfl rfl fun _ => rfl
  | exitNotice hidle =>
    intro fnSource argsJson context heq
    exact absurd (heq.symm.trans hidle) (by simp)

/-- A parked `dispatch` that claims a worker has the text of its context. -/
theorem Sendable.context_isSome (h : p.Sendable) {fnSource argsJson : Text}
    {context : Option Text} (hmain : p.main = .acquiring fnSource argsJson context)
    {claimed : Pool} (hacquired : p.Acquired i claimed) : ∃ json, context = some json :=
  Option.isSome_iff_exists.mp
    ((h _ _ _ hmain).resolve_right hacquired.not_allDead)

/-! ## What a worker owes -/

theorem Inv.owes_of_drained (hinv : p.Inv) (hw : p.workers[i]? = some w)
    (hbusy : w.state = .busy) {e : AsyncJobEnvelope} (hbox : w.doneBox = some (.envelope e)) :
    p.Owes i e.jobId := by
  obtain ⟨e', he, howes, -⟩ := hinv.box_of_busy hw hbusy hbox
  cases he
  exact howes

theorem Owes.worker_unique {k : Nat} (hi : p.Owes i j) (hk : p.Owes k j) : k = i := by
  have hsame := hk.1.symm.trans hi.1
  simpa using hsame

/-- A taken envelope that goes into the cache is no longer owed. -/
theorem owes_drained {e : AsyncJobEnvelope} (k j : Nat) :
    (((p.taken i (.envelope e)).cache e).claim i).Owes k j ↔ p.Owes k j ∧ j ≠ e.jobId := by
  by_cases hj : j = e.jobId
  · subst hj
    simp [Owes]
  · simp [Owes, Pool.taken, hj]

theorem owes_collected {e : AsyncJobEnvelope} (k j : Nat) :
    (({ p.taken i (.envelope e) with main := .idle }.forget e.jobId).log
      (.returned e.jobId e)).Owes k j ↔ p.Owes k j ∧ j ≠ e.jobId := by
  by_cases hj : j = e.jobId
  · subst hj
    simp [Owes]
  · simp [Owes, Pool.taken, hj]

theorem owes_buried (k j : Nat) : (p.buried i).Owes k j ↔ p.Owes k j ∧ k ≠ i := by
  by_cases hj : p.jobs j = some ⟨i⟩
  · simp only [Owes, buried, hj, ↓reduceIte, reduceCtorEq, false_and, Option.some.injEq,
      PendingJob.mk.injEq, false_iff, not_and, not_not]
    exact fun h => h.1.symm
  · simp only [Owes, buried, hj, ↓reduceIte]
    refine ⟨fun h => ⟨h, ?_⟩, And.left⟩
    rintro rfl
    exact hj h.1

theorem owes_finishDispatch (hinv : p.Inv) (hw : p.workers[i]? = some w)
    (fnSource argsJson : Text) (context : Option Text) (k j : Nat) :
    ((p.claim i).finishDispatch i fnSource argsJson context).Owes k j ↔
      (p.claim i).Owes k j ∨ (k = i ∧ j = p.nextJobId) := by
  by_cases hj : j = p.nextJobId
  · subst hj
    simp [Owes, hw, hinv.fresh, hinv.ids i w hw, eq_comm]
  · simp [Owes, hj]

/-- Job `j` was sent to worker `i` and its envelope has not been taken from it. -/
def Outstanding (history : List Event) (i j : Nat) : Prop :=
  .sent i j ∈ history ∧ ∀ e, .took i (.envelope e) ∈ history → e.jobId ≠ j

/-- A job that a worker owes was sent to it, and its envelope was not taken. -/
structure Owed (p : Pool) : Prop where
  sent : ∀ i j, p.Owes i j → .sent i j ∈ p.history
  untaken : ∀ i j, p.Owes i j → ∀ k e, .took k (.envelope e) ∈ p.history → e.jobId ≠ j
  took_lt : ∀ k e, .took k (.envelope e) ∈ p.history → e.jobId < p.nextJobId

theorem Owed.outstanding (h : p.Owed) (howes : p.Owes i j) : Outstanding p.history i j :=
  ⟨h.sent i j howes, h.untaken i j howes i⟩

/-- A step that registers no job: what it takes is no longer owed. -/
theorem Owed.frame (h : p.Owed) (events : List Event)
    (hhistory : p'.history = events ++ p.history) (hnext : p'.nextJobId = p.nextJobId)
    (howes : ∀ i j, p'.Owes i j → p.Owes i j)
    (htook : ∀ k e, .took k (.envelope e) ∈ events →
      e.jobId < p.nextJobId ∧ ∀ i, ¬ p'.Owes i e.jobId) : p'.Owed := by
  refine ⟨?_, ?_, ?_⟩
  · intro i j hj
    rw [hhistory]
    exact List.mem_append_right _ (h.sent i j (howes i j hj))
  · intro i j hj k e he
    rw [hhistory, List.mem_append] at he
    rcases he with he | he
    · rintro rfl
      exact (htook k e he).2 i hj
    · exact h.untaken i j (howes i j hj) k e he
  · intro k e he
    rw [hhistory, List.mem_append] at he
    rw [hnext]
    rcases he with he | he
    · exact (htook k e he).1
    · exact h.took_lt k e he

theorem Owed.acquired (hinv : p.Inv) (h : p.Owed) {claimed : Pool}
    (hacquired : p.Acquired i claimed) : claimed.Owed := by
  cases hacquired with
  | idle => exact h.frame [] rfl rfl (fun _ _ => id) (by simp)
  | settled => exact h.frame [.took i .ready] rfl rfl (fun _ _ => id) (by simp)
  | @drained w e hw hbusy hbox =>
    have howes := hinv.owes_of_drained hw hbusy hbox
    refine h.frame [.took i (.envelope e)] rfl rfl ?_ ?_
    · intro k j hj
      exact ((owes_drained k j).mp hj).1
    · intro k e' he'
      simp only [List.mem_singleton, Event.took.injEq, Message.envelope.injEq] at he'
      obtain ⟨-, rfl⟩ := he'
      exact ⟨(hinv.job_lt _ _ howes.1).1, fun k hk => ((owes_drained k _).mp hk).2 rfl⟩

/-- The next job is registered and sent. -/
theorem Owed.send (hinv : p.Inv) (hw : p.workers[i]? = some w) (h : (p.claim i).Owed)
    (fnSource argsJson json : Text) :
    ((p.claim i).finishDispatch i fnSource argsJson (some json)).Owed := by
  have hhistory : ((p.claim i).finishDispatch i fnSource argsJson (some json)).history =
      .dispatched p.nextJobId :: .sent i p.nextJobId :: p.history := rfl
  have htook : ∀ k e, .took k (.envelope e) ∈
      ((p.claim i).finishDispatch i fnSource argsJson (some json)).history →
      .took k (.envelope e) ∈ p.history := by
    intro k e he
    rw [hhistory] at he
    simpa using he
  refine ⟨?_, ?_, ?_⟩
  · intro k j hj
    rw [hhistory]
    rcases (owes_finishDispatch hinv hw _ _ _ k j).mp hj with hold | ⟨rfl, rfl⟩
    · exact List.mem_cons_of_mem _ (List.mem_cons_of_mem _ (h.sent k j hold))
    · exact List.mem_cons_of_mem _ List.mem_cons_self
  · intro k j hj k' e he
    rcases (owes_finishDispatch hinv hw _ _ _ k j).mp hj with hold | ⟨rfl, rfl⟩
    · exact h.untaken k j hold k' e (htook k' e he)
    · exact Nat.ne_of_lt (h.took_lt k' e (htook k' e he))
  · intro k e he
    exact Nat.lt_succ_of_lt (h.took_lt k e (htook k e he))

theorem Owed.move {label : Label Ctx} (hinv : p.Inv) (hsendable : p.Sendable) (h : p.Owed)
    (hmove : Move cfg p label p') : p'.Owed := by
  cases hmove with
  | refuse => exact h.frame [_] rfl rfl (fun _ _ => id) (by simp)
  | call => exact h.frame [] rfl rfl (fun _ _ => id) (by simp)
  | @serve j e hidle hcached =>
    refine h.frame [.returned j e] rfl rfl ?_ (by simp)
    intro k j' hj'
    by_cases hj : j' = j
    · subst hj
      simp [Owes] at hj'
    · simpa [Owes, hj] using hj'
  | reject => exact h.frame [.waitThrew _ _] rfl rfl (fun _ _ => id) (by simp)
  | park => exact h.frame [] rfl rfl (fun _ _ => id) (by simp)
  | giveUp => exact h.frame [.dispatchThrew _] rfl rfl (fun _ _ => id) (by simp)
  | @send fnSource argsJson context i claimed hmain hacquired =>
    obtain ⟨json, rfl⟩ := hsendable.context_isSome hmain hacquired
    have hclaimed := h.acquired hinv hacquired
    obtain ⟨q, w, hq, hw, -, rfl⟩ := hinv.acquired (by simp [hmain]) hacquired
    exact hclaimed.send hq hw _ _ _
  | @collect j i w e hmain hw hbusy hbox hid =>
    have howes := hinv.owes_of_drained hw hbusy hbox
    subst hid
    refine h.frame [.returned e.jobId e, .took i (.envelope e)] rfl rfl ?_ ?_
    · intro k j hj
      exact ((owes_collected k j).mp hj).1
    · intro k e' he'
      simp only [List.mem_cons, reduceCtorEq, List.not_mem_nil, or_false, false_or,
        Event.took.injEq, Message.envelope.injEq] at he'
      obtain ⟨-, rfl⟩ := he'
      exact ⟨(hinv.job_lt _ _ howes.1).1, fun k hk => ((owes_collected k _).mp hk).2 rfl⟩
  | ready => exact h.frame [.put _ .ready] rfl rfl (fun _ _ => id) (by simp)
  | receive => exact h.frame [] rfl rfl (fun _ _ => id) (by simp)
  | answer => exact h.frame [.put _ (.envelope _)] rfl rfl (fun _ _ => id) (by simp)
  | exit => exact h.frame [] rfl rfl (fun _ _ => id) (by simp)
  | exitNotice =>
    refine h.frame [] rfl rfl ?_ (by simp)
    intro k j hj
    exact ((owes_buried k j).mp hj).1

/-! ## Quiet runs -/

/-- The labels of a run in which every context can be encoded and no worker exits. -/
def Label.Quiet (cfg : Config Ctx) : Label Ctx → Prop
  | .dispatch call => (call.encodedContext cfg).isSome
  | .exit _ => False
  | .exitNotice _ => False
  | _ => True

theorem Label.Quiet.encodable {label : Label Ctx} (h : label.Quiet cfg) (p : Pool) :
    label.Encodable cfg p := by
  cases label with
  | dispatch call => exact .inl h
  | _ => trivial

/-- Conversely, without exits, a job that was sent and not taken is owed. -/
structure Accounted (p : Pool) : Prop where
  owes : ∀ i j, Outstanding p.history i j → p.Owes i j
  sent_lt : ∀ i j, .sent i j ∈ p.history → j < p.nextJobId

/-- A step that sends nothing: a job is still owed unless its envelope is taken. -/
theorem Accounted.frame (h : p.Accounted) (events : List Event)
    (hhistory : p'.history = events ++ p.history) (hnext : p'.nextJobId = p.nextJobId)
    (hsent : ∀ i j, Event.sent i j ∉ events)
    (howes : ∀ i j, p.Owes i j →
      p'.Owes i j ∨ ∃ e, .took i (.envelope e) ∈ events ∧ e.jobId = j) : p'.Accounted := by
  refine ⟨?_, ?_⟩
  · rintro i j ⟨hmem, huntaken⟩
    rw [hhistory] at hmem huntaken
    have hold : Outstanding p.history i j :=
      ⟨(List.mem_append.mp hmem).resolve_left (hsent i j),
        fun e he => huntaken e (List.mem_append_right _ he)⟩
    rcases howes i j (h.owes i j hold) with hj | ⟨e, he, hid⟩
    · exact hj
    · exact absurd hid (huntaken e (List.mem_append_left _ he))
  · intro i j hj
    rw [hhistory] at hj
    rw [hnext]
    exact h.sent_lt i j ((List.mem_append.mp hj).resolve_left (hsent i j))

theorem Accounted.acquired (hinv : p.Inv) (h : p.Accounted) {claimed : Pool}
    (hacquired : p.Acquired i claimed) : claimed.Accounted := by
  cases hacquired with
  | idle => exact h.frame [] rfl rfl (by simp) (fun _ _ => .inl)
  | settled => exact h.frame [.took i .ready] rfl rfl (by simp) (fun _ _ => .inl)
  | @drained w e hw hbusy hbox =>
    refine h.frame [.took i (.envelope e)] rfl rfl (by simp) ?_
    intro k j hj
    by_cases hid : j = e.jobId
    · subst hid
      obtain rfl := hj.worker_unique (hinv.owes_of_drained hw hbusy hbox)
      exact .inr ⟨e, List.mem_singleton_self _, rfl⟩
    · exact .inl ((owes_drained k j).mpr ⟨hj, hid⟩)

theorem Accounted.send (hinv : p.Inv) (hw : p.workers[i]? = some w) (h : (p.claim i).Accounted)
    (fnSource argsJson json : Text) :
    ((p.claim i).finishDispatch i fnSource argsJson (some json)).Accounted := by
  have hhistory : ((p.claim i).finishDispatch i fnSource argsJson (some json)).history =
      .dispatched p.nextJobId :: .sent i p.nextJobId :: p.history := rfl
  refine ⟨?_, ?_⟩
  · rintro k j ⟨hmem, huntaken⟩
    rw [owes_finishDispatch hinv hw]
    simp only [hhistory, List.mem_cons, reduceCtorEq, Event.sent.injEq, false_or] at hmem huntaken
    rcases hmem with hnew | hold
    · exact .inr hnew
    · exact .inl (h.owes k j ⟨hold, huntaken⟩)
  · intro k j hj
    simp only [hhistory, List.mem_cons, reduceCtorEq, Event.sent.injEq, false_or] at hj
    rw [finishDispatch_nextJobId]
    rcases hj with ⟨-, rfl⟩ | hj
    · exact Nat.lt_succ_self _
    · exact Nat.lt_succ_of_lt (h.sent_lt k j hj)

theorem Accounted.move {label : Label Ctx} (hquiet : label.Quiet cfg) (hinv : p.Inv)
    (hsendable : p.Sendable) (h : p.Accounted) (hmove : Move cfg p label p') : p'.Accounted := by
  cases hmove with
  | refuse => exact h.frame [_] rfl rfl (by simp) (fun _ _ => .inl)
  | call => exact h.frame [] rfl rfl (by simp) (fun _ _ => .inl)
  | @serve j e hidle hcached =>
    refine h.frame [.returned j e] rfl rfl (by simp) ?_
    intro k j' hj'
    have hj : j' ≠ j := by
      rintro rfl
      simp [hj'.2] at hcached
    exact .inl (by simpa [Owes, hj] using hj')
  | reject => exact h.frame [.waitThrew _ _] rfl rfl (by simp) (fun _ _ => .inl)
  | park => exact h.frame [] rfl rfl (by simp) (fun _ _ => .inl)
  | giveUp => exact h.frame [.dispatchThrew _] rfl rfl (by simp) (fun _ _ => .inl)
  | @send fnSource argsJson context i claimed hmain hacquired =>
    obtain ⟨json, rfl⟩ := hsendable.context_isSome hmain hacquired
    have hclaimed := h.acquired hinv hacquired
    obtain ⟨q, w, hq, hw, -, rfl⟩ := hinv.acquired (by simp [hmain]) hacquired
    exact hclaimed.send hq hw _ _ _
  | @collect j i w e hmain hw hbusy hbox hid =>
    subst hid
    refine h.frame [.returned e.jobId e, .took i (.envelope e)] rfl rfl (by simp) ?_
    intro k j hj
    by_cases hid : j = e.jobId
    · subst hid
      obtain rfl := hj.worker_unique (hinv.owes_of_drained hw hbusy hbox)
      exact .inr ⟨e, by simp, rfl⟩
    · exact .inl ((owes_collected k j).mpr ⟨hj, hid⟩)
  | ready => exact h.frame [.put _ .ready] rfl rfl (by simp) (fun _ _ => .inl)
  | receive => exact h.frame [] rfl rfl (by simp) (fun _ _ => .inl)
  | answer => exact h.frame [.put _ (.envelope _)] rfl rfl (by simp) (fun _ _ => .inl)
  | exit => exact absurd hquiet id
  | exitNotice => exact absurd hquiet id

/-! ## What `wait` returns -/

/-- The event is a `wait` for `j` that returned. -/
def Event.isReturnOf (j : Nat) : Event → Bool
  | .returned k _ => k = j
  | _ => false

/-- What the record says about the envelopes that were cached or returned. -/
structure Returns (p : Pool) : Prop where
  completed_put : ∀ j e, p.completed j = some e →
    ∃ i, .sent i j ∈ p.history ∧ .put i (.envelope e) ∈ p.history
  returned_put : ∀ j e, .returned j e ∈ p.history →
    e.jobId = j ∧ ∃ i, .sent i j ∈ p.history ∧ .put i (.envelope e) ∈ p.history
  returned_gone : ∀ j e, .returned j e ∈ p.history →
    p.jobs j = none ∧ p.completed j = none ∧ j < p.nextJobId
  returned_once : ∀ j, p.history.countP (Event.isReturnOf j) ≤ 1

theorem Returns.not_returned (h : p.Returns) (hj : p.jobs j ≠ none ∨ p.completed j ≠ none) :
    p.history.countP (Event.isReturnOf j) = 0 := by
  rw [List.countP_eq_zero]
  intro event hevent hreturn
  cases event <;> simp only [Event.isReturnOf, decide_eq_true_eq, Bool.false_eq_true] at hreturn
  subst hreturn
  obtain ⟨hjob, hdone, -⟩ := h.returned_gone _ _ hevent
  rcases hj with hj | hj
  · exact hj hjob
  · exact hj hdone

/-- A step after which the record has no new return. -/
theorem Returns.frame (h : p.Returns) (events : List Event)
    (hhistory : p'.history = events ++ p.history)
    (hevents : ∀ j e, Event.returned j e ∉ events) (hnext : p.nextJobId ≤ p'.nextJobId)
    (hcompleted : ∀ j e, p'.completed j = some e → p.completed j = some e ∨
      ∃ i, .sent i j ∈ p.history ∧ .put i (.envelope e) ∈ p.history)
    (hgone : ∀ j, j < p.nextJobId → p.jobs j = none → p.completed j = none →
      p'.jobs j = none ∧ p'.completed j = none) : p'.Returns := by
  have hkeep : ∀ event, event ∈ p.history → event ∈ p'.history := by
    intro event hevent
    rw [hhistory]
    exact List.mem_append_right _ hevent
  have hreturned : ∀ j e, Event.returned j e ∈ p'.history → Event.returned j e ∈ p.history := by
    intro j e he
    rw [hhistory] at he
    exact (List.mem_append.mp he).resolve_left (hevents j e)
  refine ⟨?_, ?_, ?_, ?_⟩
  · intro j e he
    rcases hcompleted j e he with hold | ⟨i, hsent, hput⟩
    · obtain ⟨i, hsent, hput⟩ := h.completed_put j e hold
      exact ⟨i, hkeep _ hsent, hkeep _ hput⟩
    · exact ⟨i, hkeep _ hsent, hkeep _ hput⟩
  · intro j e he
    obtain ⟨hid, i, hsent, hput⟩ := h.returned_put j e (hreturned j e he)
    exact ⟨hid, i, hkeep _ hsent, hkeep _ hput⟩
  · intro j e he
    obtain ⟨hjob, hdone, hlt⟩ := h.returned_gone j e (hreturned j e he)
    obtain ⟨hjob', hdone'⟩ := hgone j hlt hjob hdone
    exact ⟨hjob', hdone', Nat.lt_of_lt_of_le hlt hnext⟩
  · intro j
    have hzero : events.countP (Event.isReturnOf j) = 0 := by
      rw [List.countP_eq_zero]
      intro event hevent hreturn
      cases event <;> simp only [Event.isReturnOf, decide_eq_true_eq, Bool.false_eq_true] at hreturn
      exact hevents _ _ hevent
    rw [hhistory, List.countP_append, hzero, Nat.zero_add]
    exact h.returned_once j

/-- A `wait` for a job that was cached or owed returns the envelope put for it. -/
theorem Returns.returned (h : p.Returns) {e : AsyncJobEnvelope} (hid : e.jobId = j)
    (hlt : j < p.nextJobId) (hj : p.jobs j ≠ none ∨ p.completed j ≠ none)
    (hput : ∃ i, .sent i j ∈ p.history ∧ .put i (.envelope e) ∈ p.history)
    (events : List Event) (hhistory : p'.history = .returned j e :: (events ++ p.history))
    (hevents : ∀ j e, Event.returned j e ∉ events) (hnext : p'.nextJobId = p.nextJobId)
    (hjobs : p'.jobs = Function.update p.jobs j none)
    (hcompleted : p'.completed = Function.update p.completed j none) : p'.Returns := by
  have hkeep : ∀ event, event ∈ p.history → event ∈ p'.history := by
    intro event hevent
    rw [hhistory]
    exact List.mem_cons_of_mem _ (List.mem_append_right _ hevent)
  have hreturned : ∀ j' e', Event.returned j' e' ∈ p'.history →
      (j' = j ∧ e' = e) ∨ Event.returned j' e' ∈ p.history := by
    intro j' e' he'
    rw [hhistory, List.mem_cons, List.mem_append] at he'
    rcases he' with heq | he' | he'
    · cases heq
      exact .inl ⟨rfl, rfl⟩
    · exact absurd he' (hevents j' e')
    · exact .inr he'
  refine ⟨?_, ?_, ?_, ?_⟩
  · intro j' e' he'
    by_cases hj' : j' = j
    · subst hj'
      simp [hcompleted] at he'
    · rw [hcompleted, Function.update_of_ne hj'] at he'
      obtain ⟨i, hsent, hput'⟩ := h.completed_put j' e' he'
      exact ⟨i, hkeep _ hsent, hkeep _ hput'⟩
  · intro j' e' he'
    rcases hreturned j' e' he' with ⟨rfl, rfl⟩ | hold
    · obtain ⟨i, hsent, hput'⟩ := hput
      exact ⟨hid, i, hkeep _ hsent, hkeep _ hput'⟩
    · obtain ⟨hid', i, hsent, hput'⟩ := h.returned_put j' e' hold
      exact ⟨hid', i, hkeep _ hsent, hkeep _ hput'⟩
  · intro j' e' he'
    rw [hjobs, hcompleted, hnext]
    rcases hreturned j' e' he' with ⟨rfl, rfl⟩ | hold
    · simpa using hlt
    · obtain ⟨hjob, hdone, hlt'⟩ := h.returned_gone j' e' hold
      by_cases hj' : j' = j
      · subst hj'
        simpa using hlt
      · simpa [hj'] using ⟨hjob, hdone, hlt'⟩
  · intro j'
    have hzero : events.countP (Event.isReturnOf j') = 0 := by
      rw [List.countP_eq_zero]
      intro event hevent hreturn
      cases event <;> simp only [Event.isReturnOf, decide_eq_true_eq, Bool.false_eq_true] at hreturn
      exact hevents _ _ hevent
    rw [hhistory, List.countP_cons, List.countP_append, hzero, Nat.zero_add]
    by_cases hj' : j' = j
    · subst hj'
      rw [h.not_returned hj]
      simp [Event.isReturnOf]
    · have hne : j ≠ j' := Ne.symm hj'
      simpa [Event.isReturnOf, hne] using h.returned_once j'

theorem Returns.acquired (hinv : p.Inv) (hanswers : p.Answers) (howed : p.Owed)
    (h : p.Returns) {claimed : Pool} (hacquired : p.Acquired i claimed) : claimed.Returns := by
  cases hacquired with
  | idle =>
    exact h.frame [] rfl (by simp) (Nat.le_refl _) (fun _ _ he => .inl he)
      (fun _ _ hjob hdone => ⟨hjob, hdone⟩)
  | settled =>
    exact h.frame [.took i .ready] rfl (by simp) (Nat.le_refl _) (fun _ _ he => .inl he)
      (fun _ _ hjob hdone => ⟨hjob, hdone⟩)
  | @drained w e hw hbusy hbox =>
    have howes := hinv.owes_of_drained hw hbusy hbox
    refine h.frame [.took i (.envelope e)] rfl (by simp) (Nat.le_refl _) ?_ ?_
    · intro j e' he'
      by_cases hj : j = e.jobId
      · subst hj
        simp only [Pool.claim, Pool.setState, Pool.modifyWorker, Pool.cache,
          Function.update_self, Option.some.injEq] at he'
        subst he'
        exact .inr ⟨i, howed.sent i _ howes, hanswers.box_put i w e hw hbox⟩
      · exact .inl (by simpa [Pool.taken, hj] using he')
    · intro j hlt hjob hdone
      have hj : j ≠ e.jobId := by
        rintro rfl
        simp [howes.1] at hjob
      exact ⟨hjob, by simpa [Pool.taken, hj] using hdone⟩

theorem Returns.finishDispatch (h : p.Returns) (fnSource argsJson : Text)
    (context : Option Text) : (p.finishDispatch i fnSource argsJson context).Returns := by
  have hgone : ∀ j, j < p.nextJobId → p.jobs j = none → p.completed j = none →
      (p.finishDispatch i fnSource argsJson context).jobs j = none ∧
        (p.finishDispatch i fnSource argsJson context).completed j = none := by
    intro j hlt hjob hdone
    simpa [Nat.ne_of_lt hlt] using ⟨hjob, hdone⟩
  cases context with
  | none =>
    exact h.frame [.dispatchThrew .contextFailed] rfl (by simp) (Nat.le_succ _)
      (fun _ _ he => .inl he) hgone
  | some json =>
    exact h.frame [.dispatched p.nextJobId, .sent i p.nextJobId] rfl (by simp) (Nat.le_succ _)
      (fun _ _ he => .inl he) hgone

theorem Returns.move {label : Label Ctx} (hquiet : label.Quiet cfg) (hinv : p.Inv)
    (hanswers : p.Answers) (howed : p.Owed) (h : p.Returns)
    (hmove : Move cfg p label p') : p'.Returns := by
  have hsame : ∀ {q : Pool} (events : List Event), q.history = events ++ p.history →
      (∀ j e, Event.returned j e ∉ events) → q.nextJobId = p.nextJobId → q.jobs = p.jobs →
      q.completed = p.completed → q.Returns := by
    intro q events hhistory hevents hnext hjobs hcompleted
    exact h.frame events hhistory hevents (Nat.le_of_eq hnext.symm)
      (fun _ _ he => .inl (hcompleted ▸ he))
      (fun _ _ hjob hdone => ⟨hjobs ▸ hjob, hcompleted ▸ hdone⟩)
  cases hmove with
  | refuse => exact hsame [_] rfl (by simp) rfl rfl rfl
  | call => exact hsame [] rfl (by simp) rfl rfl rfl
  | @serve j e hidle hcached =>
    obtain ⟨hid, hlt⟩ := hinv.completed_lt j e hcached
    exact h.returned hid hlt (.inr (by simp [hcached])) (h.completed_put j e hcached) [] rfl
      (by simp) rfl rfl rfl
  | reject => exact hsame [.waitThrew _ _] rfl (by simp) rfl rfl rfl
  | park => exact hsame [] rfl (by simp) rfl rfl rfl
  | giveUp => exact hsame [.dispatchThrew _] rfl (by simp) rfl rfl rfl
  | send hmain hacquired => exact (h.acquired hinv hanswers howed hacquired).finishDispatch _ _ _
  | @collect j i w e hmain hw hbusy hbox hid =>
    have howes := hinv.owes_of_drained hw hbusy hbox
    subst hid
    refine h.returned rfl (hinv.job_lt _ _ howes.1).1 (.inl (by simp [howes.1]))
      ⟨i, howed.sent i _ howes, hanswers.box_put i w e hw hbox⟩
      [.took i (.envelope e)] rfl (by simp) rfl rfl ?_
    exact (Function.update_eq_self_iff.mpr howes.2.symm).symm
  | ready => exact hsame [.put _ .ready] rfl (by simp) rfl rfl rfl
  | receive => exact hsame [] rfl (by simp) rfl rfl rfl
  | answer => exact hsame [.put _ (.envelope _)] rfl (by simp) rfl rfl rfl
  | exit => exact absurd hquiet id
  | exitNotice => exact absurd hquiet id

end Pool
