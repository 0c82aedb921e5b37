import QuickjsRuntime.Pool.Progress

/-! # The pool as remote evaluation

What the calls of `dispatch` and `wait` see of the pool does not depend on the number of
workers, on which of them runs a job, or on how their steps interleave. `Remote` says what
they see: a job is a request under the next free number, and a `wait` evaluates it on the
spot, once. The pool refines it, as long as no isolate ends, contexts can be encoded and the
workers answer a request by evaluating it.
-/

namespace Pool

open Utf16 (Text units)

variable {Ctx : Type} {cfg : Config Ctx} {p p' : Pool} {i j : Nat} {w : Worker}

/-! ## What the caller sees -/

/-- What a job asks a worker to do. -/
structure Request where
  fnSource : Text
  argsJson : Text
  context : Text
deriving DecidableEq, Repr

/-- What an answer says besides the number of the job. -/
structure Verdict where
  ok : Bool
  resultJson : Option Text := none
  error : Option Text := none
deriving DecidableEq, Repr

/-- A call of the main thread. -/
inductive Call where
  | dispatch (request : Request)
  | wait (jobId : Nat)
deriving DecidableEq, Repr

/-- How a call ends. -/
inductive Observed where
  | dispatched (jobId : Nat)
  | returned (jobId : Nat) (envelope : AsyncJobEnvelope)
  | threw
deriving DecidableEq, Repr

def JobMessage.request (message : JobMessage) : Request :=
  ⟨message.fnSource, message.argsJson, message.context⟩

def AsyncJobRequest.request (request : AsyncJobRequest) : Request :=
  ⟨request.fnSource, request.argsJson, request.context⟩

def Label.toCall (cfg : Config Ctx) : Label Ctx → Option Call
  | .dispatch call =>
    (call.encodedContext cfg).map fun context => .dispatch ⟨call.fnSource, call.argsJson, context⟩
  | .wait jobId => some (.wait jobId)
  | _ => none

def Event.observed : Event → Option Observed
  | .dispatched jobId => some (.dispatched jobId)
  | .returned jobId envelope => some (.returned jobId envelope)
  | .dispatchThrew _ => some .threw
  | .waitThrew _ _ => some .threw
  | _ => none

/-- How the calls so far have ended, in their order. -/
def observed (history : List Event) : List Observed :=
  (history.filterMap Event.observed).reverse

/-! ## Remote evaluation -/

/-- The requests by their numbers, and the jobs that were waited for. -/
structure Remote where
  requests : List Request := []
  collected : List Nat := []
deriving Repr

/-- The envelope of a job, by evaluating its request. -/
def envelopeOf (evaluate : Request → Verdict) (requests : List Request) (jobId : Nat) :
    Option AsyncJobEnvelope :=
  requests[jobId]?.map fun request =>
    { jobId, ok := (evaluate request).ok, resultJson := (evaluate request).resultJson
      error := (evaluate request).error }

namespace Remote

def step (evaluate : Request → Verdict) (r : Remote) : Call → Observed × Remote
  | .dispatch request =>
    (.dispatched r.requests.length, { r with requests := r.requests ++ [request] })
  | .wait jobId =>
    match envelopeOf evaluate r.requests jobId with
    | none => (.threw, r)
    | some envelope =>
      if jobId ∈ r.collected then (.threw, r)
      else (.returned jobId envelope, { r with collected := jobId :: r.collected })

end Remote

/-- No isolate ends, contexts can be encoded, and a worker answers by evaluating its request. -/
def Label.Honest (cfg : Config Ctx) (evaluate : Request → Verdict) (p : Pool) (label : Label Ctx) :
    Prop :=
  label.Quiet cfg ∧
    match label with
    | .answer i ok resultJson error => ∀ w request, p.workers[i]? = some w →
        w.isolate = .running request → evaluate request.request = ⟨ok, resultJson, error⟩
    | _ => True

/-! ## Payloads -/

section Payloads

variable {evaluate : Request → Verdict} {requests : List Request}

theorem envelopeOf_append {e : AsyncJobEnvelope} (request : Request)
    (h : envelopeOf evaluate requests j = some e) :
    envelopeOf evaluate (requests ++ [request]) j = some e := by
  obtain ⟨found, hfound, rfl⟩ := Option.map_eq_some_iff.mp h
  rw [envelopeOf, List.getElem?_append_left (List.getElem?_eq_some_iff.mp hfound).1, hfound]
  rfl

/-- What a worker holds of a job is what was asked for under its number, or its evaluation. -/
structure Worker.Carries (evaluate : Request → Verdict) (requests : List Request) (w : Worker) :
    Prop where
  inbox : ∀ message, .job message ∈ w.inbox → requests[message.jobId]? = some message.request
  running : ∀ request, w.isolate = .running request →
    requests[request.jobId]? = some request.request
  box : ∀ e, w.doneBox = some (.envelope e) → envelopeOf evaluate requests e.jobId = some e

structure Carries (evaluate : Request → Verdict) (requests : List Request) (p : Pool) : Prop where
  worker : ∀ (i : Nat) (w : Worker), p.workers[i]? = some w → w.Carries evaluate requests
  completed : ∀ j e, p.completed j = some e → envelopeOf evaluate requests j = some e

theorem Worker.Carries.append (h : w.Carries evaluate requests) (request : Request) :
    w.Carries evaluate (requests ++ [request]) where
  inbox message hmem := by
    have hfound := h.inbox message hmem
    rwa [List.getElem?_append_left (List.getElem?_eq_some_iff.mp hfound).1]
  running running hrunning := by
    have hfound := h.running running hrunning
    rwa [List.getElem?_append_left (List.getElem?_eq_some_iff.mp hfound).1]
  box e hbox := envelopeOf_append request (h.box e hbox)

theorem Carries.append (h : p.Carries evaluate requests) (request : Request) :
    p.Carries evaluate (requests ++ [request]) :=
  ⟨fun i w hw => (h.worker i w hw).append request,
    fun j e he => envelopeOf_append request (h.completed j e he)⟩

theorem Carries.modify (h : p.Carries evaluate requests) {f : Worker → Worker}
    (hw : p.workers[i]? = some w) (hworkers : p'.workers = p.workers.modify i f)
    (hf : (f w).Carries evaluate requests)
    (hcompleted : ∀ j e, p'.completed j = some e → envelopeOf evaluate requests j = some e) :
    p'.Carries evaluate requests :=
  ⟨forall_of_modify h.worker hw hworkers hf, hcompleted⟩

theorem Worker.Carries.emptied (h : w.Carries evaluate requests) (state : WorkerState) :
    Worker.Carries evaluate requests { w with doneBox := none, state } :=
  ⟨h.inbox, h.running, by simp⟩

theorem Carries.acquired (h : p.Carries evaluate requests) {claimed : Pool}
    (hacquired : p.Acquired i claimed) : claimed.Carries evaluate requests := by
  have htaken {w : Worker} {message : Message} (hw : p.workers[i]? = some w) :
      (p.taken i message).Carries evaluate requests :=
    h.modify hw (taken_workers _) ((h.worker i w hw).emptied .idle) h.completed
  have hclaim {q : Pool} (hq : q.Carries evaluate requests) :
      (q.claim i).Carries evaluate requests := by
    refine ⟨?_, hq.completed⟩
    intro k v hv
    rcases getElem?_modify_cases hv with ⟨-, hv⟩ | ⟨rfl, v₀, hv₀, rfl⟩
    · exact hq.worker k v hv
    · exact ⟨(hq.worker k v₀ hv₀).inbox, (hq.worker k v₀ hv₀).running, (hq.worker k v₀ hv₀).box⟩
  cases hacquired with
  | idle => exact hclaim h
  | settled hw => exact hclaim (htaken hw)
  | @drained w e hw hbusy hbox =>
    refine hclaim ⟨(htaken hw).worker, ?_⟩
    intro k e' he'
    by_cases hk : k = e.jobId
    · subst hk
      obtain rfl : e = e' := by simpa [taken] using he'
      exact (h.worker i w hw).box e hbox
    · exact h.completed k e' (by simpa [taken, Function.update_of_ne hk] using he')

theorem Carries.finishDispatch (h : p.Carries evaluate requests) (hw : p.workers[i]? = some w)
    {fnSource argsJson context : Text}
    (hrequest : requests[p.nextJobId]? = some ⟨fnSource, argsJson, context⟩) :
    (p.finishDispatch i fnSource argsJson (some context)).Carries evaluate requests := by
  refine h.modify hw rfl ?_ h.completed
  obtain ⟨hinbox, hrunning, hbox⟩ := h.worker i w hw
  refine ⟨?_, hrunning, hbox⟩
  intro message hmem
  rcases List.mem_append.mp hmem with hmem | hmem
  · exact hinbox message hmem
  · cases List.mem_singleton.mp hmem
    exact hrequest

end Payloads

/-! ## The simulation -/

section Simulation

variable {evaluate : Request → Verdict} {trace : List Observed} {r : Remote}

/-- Remote evaluation, which has ended the call in progress already, and the pool. -/
structure Simulates (evaluate : Request → Verdict) (trace : List Observed) (r : Remote)
    (p : Pool) : Prop where
  inv : p.Inv
  booted : p.booted = true
  alive : ¬ p.AllDead
  carries : p.Carries evaluate r.requests
  cached : ∀ j e, p.completed j = some e → p.jobs j ≠ none
  collected : ∀ j, j ∈ r.collected ↔
    j < p.nextJobId ∧ (p.jobs j = none ∨ ∃ i, p.main = .waiting j i)
  main : match p.main with
    | .idle => trace = observed p.history ∧ r.requests.length = p.nextJobId
    | .acquiring fnSource argsJson context => ∃ text, context = some text ∧
        trace = observed p.history ++ [.dispatched p.nextJobId] ∧
        r.requests.length = p.nextJobId + 1 ∧
        r.requests[p.nextJobId]? = some ⟨fnSource, argsJson, text⟩
    | .waiting j _ => ∃ e, envelopeOf evaluate r.requests j = some e ∧
        trace = observed p.history ++ [.returned j e] ∧ r.requests.length = p.nextJobId

theorem observed_cons (event : Event) (history : List Event) :
    observed (event :: history) = observed history ++ event.observed.toList := by
  rw [observed, List.filterMap_cons, observed]
  cases event.observed <;> simp

/-- A step that is no call and leaves the main side alone. -/
theorem Simulates.isolate (h : Simulates evaluate trace r p) {f : Worker → Worker}
    (hw : p.workers[i]? = some w) (hinv : p'.Inv) (hworkers : p'.workers = p.workers.modify i f)
    (hstate : (f w).state = w.state) (hf : (f w).Carries evaluate r.requests)
    (hmain : p'.main = p.main ∧ p'.jobs = p.jobs ∧ p'.completed = p.completed ∧
      p'.nextJobId = p.nextJobId ∧ p'.booted = p.booted)
    (hobserved : observed p'.history = observed p.history) : Simulates evaluate trace r p' := by
  obtain ⟨hmain, hjobs, hcompleted, hnext, hbooted⟩ := hmain
  refine ⟨hinv, hbooted.trans h.booted, ?_, ?_, ?_, ?_, ?_⟩
  · intro hdead
    apply h.alive
    intro k v hv
    by_cases hk : i = k
    · subst hk
      obtain rfl : w = v := Option.some.inj (hw.symm.trans hv)
      rw [← hstate]
      exact hdead i (f w) (by simp [hworkers, hw])
    · exact hdead k v (by simp [hworkers, hk, hv])
  · exact h.carries.modify hw hworkers hf (hcompleted ▸ h.carries.completed)
  · rw [hcompleted, hjobs]
    exact h.cached
  · rw [hjobs, hmain, hnext]
    exact h.collected
  · rw [hmain, hobserved, hnext]
    exact h.main

/-- What claiming a worker leaves alone; what it caches belongs to a registered job. -/
theorem Acquired.frame {claimed : Pool} (hinv : p.Inv) (hacquired : p.Acquired i claimed) :
    claimed.jobs = p.jobs ∧ claimed.nextJobId = p.nextJobId ∧ claimed.booted = p.booted ∧
      observed claimed.history = observed p.history ∧
      ∀ j e, claimed.completed j = some e → p.completed j = some e ∨ p.jobs j ≠ none := by
  cases hacquired with
  | idle => exact ⟨rfl, rfl, rfl, rfl, fun _ _ => .inl⟩
  | settled => exact ⟨rfl, rfl, rfl, (observed_cons (.took i .ready) _).trans (List.append_nil _),
      fun _ _ => .inl⟩
  | @drained w e hw hbusy hbox =>
    refine ⟨rfl, rfl, rfl, (observed_cons (.took i (.envelope e)) _).trans (List.append_nil _), ?_⟩
    intro k e' he'
    by_cases hk : k = e.jobId
    · subst hk
      obtain ⟨_, hsome, howes, -⟩ := hinv.box_of_busy hw hbusy hbox
      cases hsome
      exact .inr (by simp [howes.1])
    · exact .inl (by simpa [taken, Function.update_of_ne hk] using he')

theorem Simulates.send (h : Simulates evaluate trace r p) {fnSource argsJson : Text}
    {context : Option Text} {claimed : Pool}
    (hmain : p.main = .acquiring fnSource argsJson context) (hacquired : p.Acquired i claimed)
    (hinv : (claimed.finishDispatch i fnSource argsJson context).Inv) :
    Simulates evaluate trace r (claimed.finishDispatch i fnSource argsJson context) := by
  have hthread := h.main
  rw [hmain] at hthread
  obtain ⟨text, rfl, rfl, hlength, hrequest⟩ := hthread
  obtain ⟨hjobs, hnext, hbooted, hobserved, hcompleted⟩ := hacquired.frame h.inv
  obtain ⟨w, f, hw, hworkers, hbusy, -, -⟩ := hacquired.modify
  have hclaimed : claimed.workers[i]? = some (f w) := by simp [hworkers, hw]
  have hregistered : (claimed.finishDispatch i fnSource argsJson (some text)).jobs =
      Function.update p.jobs p.nextJobId (some ⟨(f w).id⟩) := by
    rw [finishDispatch_jobs, hjobs, hnext, hclaimed]
    rfl
  refine ⟨hinv, hbooted.trans h.booted, ?_, ?_, ?_, ?_, ?_⟩
  · intro hdead
    have hdead := hdead i _ (by simpa [finishDispatch] using ⟨f w, hclaimed, rfl⟩)
    exact absurd hdead (by simp [hbusy])
  · exact (h.carries.acquired hacquired).finishDispatch hclaimed (hnext ▸ hrequest)
  · intro k e he
    rw [finishDispatch_completed] at he
    rw [hregistered]
    by_cases hk : k = p.nextJobId
    · subst hk
      simp
    · rw [Function.update_of_ne hk]
      rcases hcompleted k e he with hold | hjob
      · exact h.cached k e hold
      · exact hjob
  · intro k
    rw [hregistered, finishDispatch_nextJobId, finishDispatch_main, hnext]
    have hcollected := h.collected k
    by_cases hk : k = p.nextJobId
    · subst hk
      simpa using hcollected
    · simp only [Function.update_of_ne hk, reduceCtorEq, exists_false, or_false]
      simp only [hmain, reduceCtorEq, exists_false, or_false] at hcollected
      rw [hcollected, Nat.lt_succ_iff_lt_or_eq]
      simp [hk]
  · rw [finishDispatch_main, finishDispatch_nextJobId, hnext]
    have hhistory : (claimed.finishDispatch i fnSource argsJson (some text)).history =
        .dispatched p.nextJobId :: .sent i p.nextJobId :: claimed.history := by
      rw [← hnext]
      rfl
    rw [hhistory, observed_cons, observed_cons, hobserved]
    exact ⟨by simp [Event.observed], hlength⟩

theorem Simulates.step {label : Label Ctx} (h : Simulates evaluate trace r p)
    (hhonest : label.Honest cfg evaluate p) (hmove : Move cfg p label p') :
    match label.toCall cfg with
    | none => Simulates evaluate trace r p'
    | some call => Simulates evaluate (trace ++ [(r.step evaluate call).1])
        (r.step evaluate call).2 p' := by
  have hinv := h.inv.move hmove
  have hthread := h.main
  cases hmove with
  | refuse call hidle hbooted => exact absurd h.booted (by simp [hbooted])
  | call call hidle =>
    obtain ⟨context, hcontext⟩ := Option.isSome_iff_exists.mp hhonest.1
    rw [hidle] at hthread
    obtain ⟨rfl, hlength⟩ := hthread
    simp only [Label.toCall, hcontext, Option.map_some, Remote.step]
    obtain ⟨hworker, hcompleted⟩ := h.carries.append ⟨call.fnSource, call.argsJson, context⟩
    refine ⟨by simpa [hcontext] using hinv, h.booted, h.alive, ⟨hworker, hcompleted⟩, h.cached,
      ?_, ?_⟩
    · simpa [hidle] using h.collected
    · refine ⟨context, rfl, by rw [hlength], by simp [hlength], ?_⟩
      rw [← hlength, List.getElem?_concat_length]
  | @serve j e hidle hcached =>
    rw [hidle] at hthread
    obtain ⟨rfl, hlength⟩ := hthread
    have hfresh : j ∉ r.collected := by
      rw [h.collected]
      simp [h.cached j e hcached, hidle]
    have hlt := (h.inv.completed_lt j e hcached).2
    simp only [Label.toCall, Remote.step, h.carries.completed j e hcached, hfresh, if_false]
    refine ⟨hinv, h.booted, h.alive, ⟨h.carries.worker, ?_⟩, ?_, ?_, ?_⟩
    · intro k e' he'
      by_cases hk : k = j
      · subst hk
        simp at he'
      · exact h.carries.completed k e' (by simpa [Function.update_of_ne hk] using he')
    · intro k e' he'
      by_cases hk : k = j
      · subst hk
        simp at he'
      · simpa [Function.update_of_ne hk] using
          h.cached k e' (by simpa [Function.update_of_ne hk] using he')
    · intro k
      by_cases hk : k = j
      · subst hk
        simp [hlt]
      · simpa [Function.update_of_ne hk, hk, hidle] using h.collected k
    · simp only [log, forget, hidle]
      exact ⟨(observed_cons (.returned j e) p.history).symm, hlength⟩
  | @reject j error hidle hcached habsent =>
    rw [hidle] at hthread
    obtain ⟨rfl, hlength⟩ := hthread
    have hjob : p.jobs j = none := by
      cases hjob : p.jobs j with
      | none => rfl
      | some job =>
        have hlt := (h.inv.job_lt j job hjob).2
        exact absurd hjob (habsent job.workerId _ (List.getElem?_eq_getElem hlt))
    have hthrows : r.step evaluate (.wait j) = (.threw, r) := by
      by_cases hlt : j < p.nextJobId
      · have hmem : j ∈ r.collected := (h.collected j).mpr ⟨hlt, .inl hjob⟩
        rw [Remote.step]
        split <;> simp [hmem]
      · rw [Remote.step, envelopeOf, List.getElem?_eq_none (by omega)]
        rfl
    simp only [Label.toCall, hthrows]
    refine ⟨hinv, h.booted, h.alive, ⟨h.carries.worker, h.carries.completed⟩, h.cached,
      h.collected, ?_⟩
    simp only [log, hidle]
    exact ⟨(observed_cons (.waitThrew j error) p.history).symm, hlength⟩
  | @park j i w hidle howes hw =>
    rw [hidle] at hthread
    obtain ⟨rfl, hlength⟩ := hthread
    have hlt := (h.inv.job_lt j _ howes.1).1
    obtain ⟨e, he⟩ : ∃ e, envelopeOf evaluate r.requests j = some e := by
      rw [envelopeOf, List.getElem?_eq_getElem (by omega)]
      exact ⟨_, rfl⟩
    have hfresh : j ∉ r.collected := by
      rw [h.collected]
      simp [howes.1, hidle]
    simp only [Label.toCall, Remote.step, he, hfresh, if_false]
    refine ⟨hinv, h.booted, h.alive, ⟨h.carries.worker, h.carries.completed⟩, h.cached, ?_,
      e, he, rfl, hlength⟩
    intro k
    by_cases hk : k = j
    · subst hk
      simp [hlt]
    · simpa [hk, Ne.symm hk, hidle] using h.collected k
  | giveUp hmain hdead => exact absurd hdead h.alive
  | send hmain hacquired => exact h.send hmain hacquired hinv
  | @collect j i w e hmain hw hbusy hbox hid =>
    rw [hmain] at hthread
    obtain ⟨e', he', rfl, hlength⟩ := hthread
    have hcarries := h.carries.worker i w hw
    obtain rfl : e' = e := Option.some.inj (he'.symm.trans (hid ▸ hcarries.box e hbox))
    refine ⟨hinv, h.booted, ?_, ?_, ?_, ?_, ?_⟩
    · intro hdead
      exact absurd (hdead i { w with doneBox := none, state := .idle }
        (by simp [taken_workers, hw])) (by simp)
    · exact h.carries.modify hw (taken_workers _) (hcarries.emptied .idle) h.carries.completed
    · intro k e he
      have hcompleted : p.completed k = some e := he
      by_cases hk : k = j
      · subst hk
        exact absurd hcompleted (by simp [(h.inv.waiting k i hmain).2])
      · simpa [taken, Function.update_of_ne hk] using h.cached k e hcompleted
    · intro k
      have hcollected := h.collected k
      by_cases hk : k = j
      · subst hk
        simpa [taken, hmain] using hcollected
      · simpa [taken, Function.update_of_ne hk, hmain, Ne.symm hk] using hcollected
    · exact ⟨(observed_cons (.returned j e') _).symm, hlength⟩
  | @ready i w hw hstart =>
    exact h.isolate hw hinv rfl rfl
      ⟨(h.carries.worker i w hw).inbox, by simp, by simp⟩ ⟨rfl, rfl, rfl, rfl, rfl⟩
      ((observed_cons (.put i .ready) p.history).trans (List.append_nil _))
  | @receive i w message rest hw hlistening hinbox =>
    have hcarries := h.carries.worker i w hw
    refine h.isolate hw hinv rfl rfl ⟨?_, ?_, hcarries.box⟩ ⟨rfl, rfl, rfl, rfl, rfl⟩ rfl
    · intro message' hmem
      exact hcarries.inbox message' (by simp [hinbox, hmem])
    · intro request hrunning
      cases hrunning
      exact hcarries.inbox message (by simp [hinbox])
  | @answer i w request ok resultJson error hw hrunning =>
    have hcarries := h.carries.worker i w hw
    have hverdict := hhonest.2 w request hw hrunning
    refine h.isolate hw hinv rfl rfl ⟨hcarries.inbox, by simp, ?_⟩ ⟨rfl, rfl, rfl, rfl, rfl⟩
      ((observed_cons (.put i _) p.history).trans (List.append_nil _))
    intro e he
    cases he
    rw [envelopeOf, hcarries.running request hrunning, Option.map_some, hverdict]
  | exit => exact absurd hhonest.1 id
  | exitNotice => exact absurd hhonest.1 id

/-- A whole run, with remote evaluation given the calls that are made in it. -/
theorem Simulates.run {labels : List (Label Ctx)} (h : Simulates evaluate trace r p)
    (hhonest : Transition.RunAllowed (Pool.step cfg) (fun q l => l.Honest cfg evaluate q) p labels)
    (hrun : Transition.run (Pool.step cfg) p labels = some p') :
    Simulates evaluate
      (trace ++ (Transition.answers (Remote.step evaluate) r
        (labels.filterMap (Label.toCall cfg))).1)
      (Transition.answers (Remote.step evaluate) r (labels.filterMap (Label.toCall cfg))).2 p' := by
  induction labels generalizing p trace r with
  | nil =>
    cases hrun
    simpa [Transition.answers] using h
  | cons label labels ih =>
    rw [Transition.run_cons] at hrun
    obtain ⟨middle, hmiddle, hrest⟩ := Option.bind_eq_some_iff.mp hrun
    have hnext := h.step hhonest.1 (move_of_step h.inv hmiddle)
    cases hcall : label.toCall cfg with
    | none =>
      simp only [hcall] at hnext
      rw [List.filterMap_cons_none hcall]
      exact ih hnext (hhonest.2 middle hmiddle) hrest
    | some call =>
      simp only [hcall] at hnext
      have htail := ih hnext (hhonest.2 middle hmiddle) hrest
      rw [List.filterMap_cons_some hcall, Transition.answers]
      rwa [List.append_assoc, List.singleton_append] at htail

theorem simulates_afterBoot {n : Nat} (hn : 0 < n) :
    Simulates evaluate [] {} (afterBoot n) where
  inv := inv_afterBoot n
  booted := rfl
  alive hdead := by
    have hfirst := hdead 0 { id := 0 } (by simp [afterBoot, hn])
    exact absurd hfirst (by simp)
  carries := by
    refine ⟨?_, by simp [afterBoot]⟩
    intro i w hw
    simp only [afterBoot, List.getElem?_map, Option.map_eq_some_iff] at hw
    obtain ⟨k, -, rfl⟩ := hw
    constructor <;> simp
  cached := by simp [afterBoot]
  collected := by simp [afterBoot]
  main := ⟨rfl, rfl⟩

end Simulation

/-- With any number of workers and any interleaving of their steps, the calls of `dispatch`
and `wait` end as with remote evaluation; the last one may not have ended yet. -/
theorem pool_refines_remote {evaluate : Request → Verdict} {n : Nat} (hn : 0 < n)
    {labels : List (Label Ctx)}
    (hhonest : Transition.RunAllowed (step cfg) (fun q l => l.Honest cfg evaluate q) (afterBoot n)
      labels)
    (hrun : Transition.run (step cfg) (afterBoot n) labels = some p) :
    ∃ pending, (Transition.answers (Remote.step evaluate) {}
        (labels.filterMap (Label.toCall cfg))).1 = observed p.history ++ pending ∧
      pending.length = if p.main = .idle then 0 else 1 := by
  have hmain := ((simulates_afterBoot hn).run hhonest hrun).main
  rw [List.nil_append] at hmain
  cases hthread : p.main with
  | idle =>
    rw [hthread] at hmain
    exact ⟨[], by rw [hmain.1, List.append_nil], rfl⟩
  | acquiring fnSource argsJson context =>
    rw [hthread] at hmain
    obtain ⟨text, -, htrace, -⟩ := hmain
    exact ⟨_, htrace, rfl⟩
  | waiting j i =>
    rw [hthread] at hmain
    obtain ⟨e, -, htrace, -⟩ := hmain
    exact ⟨_, htrace, rfl⟩

/-- Every job evaluates to 42. -/
def fortyTwo : Request → Verdict := fun _ => { ok := true, resultJson := some (units "42") }

theorem lateWait_honest (s : Pool) :
    Transition.RunAllowed (step (textConfig 1)) (fun q l => l.Honest (textConfig 1) fortyTwo q) s
      lateWait := by
  apply Transition.RunAllowed.of_forall
  intro label hlabel _
  simp only [lateWait, List.mem_cons, List.not_mem_nil, or_false] at hlabel
  rcases hlabel with rfl | rfl | rfl | rfl | rfl | rfl | rfl | rfl
  all_goals refine ⟨by trivial, ?_⟩
  all_goals first | trivial | exact fun _ _ _ _ => rfl

theorem lateWait_refines_remote :
    ∃ p, Transition.run (step (textConfig 1)) (afterBoot 1) lateWait = some p ∧ p.main = .idle ∧
      (Transition.answers (Remote.step fortyTwo) {}
        (lateWait.filterMap (Label.toCall (textConfig 1)))).1 = observed p.history := by
  obtain ⟨p, hrun, hidle⟩ :
      ∃ p, Transition.run (step (textConfig 1)) (afterBoot 1) lateWait = some p ∧
        p.main = .idle := ⟨_, rfl, rfl⟩
  obtain ⟨pending, htrace, hlength⟩ :=
    pool_refines_remote Nat.zero_lt_one (lateWait_honest (afterBoot 1)) hrun
  rw [if_pos hidle, List.length_eq_zero_iff] at hlength
  exact ⟨p, hrun, hidle, by rw [htrace, hlength, List.append_nil]⟩

end Pool
