import Mathlib.Algebra.GroupWithZero.Nat
import QuickjsRuntime.Foundation.Quiescence
import QuickjsRuntime.Pool.FailedDispatch

/-! # When a call returns

`dispatch` and `wait` park the thread that calls them on the mailbox of a worker. While they
are parked, the isolates go on by themselves; nothing else is called on the pool, and the
event loop delivers no exit notification.

Whatever the order of these steps, there are at most as many of them as the isolates and the
call have to do. When none is left, the call has returned, with one exception: the isolate of the
worker it is parked on has ended and has put nothing into the mailbox.
-/

namespace Pool

open Utf16 (Text)

variable {Ctx : Type} {cfg : Config Ctx} {p p' : Pool} {i j : Nat} {w : Worker}

/-- The steps taken while the main thread is inside a call: its own and those of isolates. -/
def Label.Inner : Label Ctx → Prop
  | .resume => True
  | .ready _ => True
  | .receive _ => True
  | .answer _ _ _ _ => True
  | _ => False

/-- The worker whose mailbox the call in progress is parked on. -/
def ParkedOn (p : Pool) (i : Nat) : Prop :=
  match p.main with
  | .idle => False
  | .acquiring _ _ _ => p.acquireWorker = .parked i
  | .waiting _ k => k = i ∧ p.take i = none

/-- The call in progress is parked on a worker whose isolate has ended. -/
def Lost (p : Pool) : Prop :=
  ∃ i w, p.ParkedOn i ∧ p.workers[i]? = some w ∧ w.isolate = .exited

/-- A main thread that cannot go on is parked on an empty mailbox. -/
theorem exists_parkedOn (hinv : p.Inv) (hcall : p.main ≠ .idle) (hstuck : p.resume = none) :
    ∃ i w, p.ParkedOn i ∧ p.workers[i]? = some w ∧ w.doneBox = none ∧
      (w.state = .booting ∨ w.state = .busy) := by
  unfold ParkedOn
  unfold resume at hstuck
  cases hmain : p.main with
  | idle => exact absurd hmain hcall
  | acquiring fnSource argsJson context =>
    have hspec := p.acquireWorker_spec
    cases hacquire : p.acquireWorker with
    | parked i =>
      rw [hacquire] at hspec
      obtain ⟨w, hw, hbox, hstate⟩ := hspec
      exact ⟨i, w, rfl, hw, hbox, hstate.imp_right And.left⟩
    | threw error q => simp [hmain, hacquire] at hstuck
    | finished i q => simp [hmain, hacquire] at hstuck
  | waiting j i =>
    have howes := hinv.waiting j i hmain
    have hw := List.getElem?_eq_getElem (hinv.job_lt _ _ howes.1).2
    have htake : p.take i = none := by
      cases htake : p.take i with
      | none => rfl
      | some taken =>
        obtain ⟨message, q⟩ := taken
        simp only [hmain, waitRound, takeEnvelope, htake] at hstuck
        cases message with
        | ready => simp at hstuck
        | envelope e => by_cases hid : e.jobId = j <;> simp [hid] at hstuck
    exact ⟨i, _, ⟨rfl, htake⟩, hw, take_eq_none hw htake, .inr (hinv.busy_of_owes hw howes).1⟩

/-! ## What there is to do -/

/-- The steps an isolate takes before it waits for messages again. -/
def Worker.toDo (w : Worker) : Nat :=
  match w.isolate with
  | .exited => 0
  | .starting => 1 + 2 * w.inbox.length
  | .listening => 2 * w.inbox.length
  | .running _ => 1 + 2 * w.inbox.length

/-- The steps a call takes, with those of the isolate it sends a job to. -/
def MainThread.toDo : MainThread → Nat
  | .idle => 0
  | .acquiring _ _ _ => 3
  | .waiting _ _ => 1

def toDo (p : Pool) : Nat := p.main.toDo + (p.workers.map Worker.toDo).sum

theorem sum_map_modify {α : Type} (g : α → Nat) {l : List α} {k : Nat} {a : α} (f : α → α)
    (ha : l[k]? = some a) : ((l.modify k f).map g).sum + g a = (l.map g).sum + g (f a) := by
  induction l generalizing k with
  | nil => simp at ha
  | cons b l ih =>
    cases k with
    | zero =>
      obtain rfl : b = a := by simpa using ha
      simp only [List.modify_zero_cons, List.map_cons, List.sum_cons]
      omega
    | succ k =>
      have htail := ih (by simpa using ha)
      simp only [List.modify_succ_cons, List.map_cons, List.sum_cons]
      omega

/-- There is less to do when the main thread and one worker have less to do. -/
theorem toDo_lt {f : Worker → Worker} (hw : p.workers[i]? = some w)
    (hworkers : p'.workers = p.workers.modify i f)
    (hless : p'.main.toDo + (f w).toDo < p.main.toDo + w.toDo) : p'.toDo < p.toDo := by
  have hsum := sum_map_modify Worker.toDo f hw
  simp only [toDo, hworkers]
  omega

/-- Claiming a worker makes it busy and leaves its isolate as it is. -/
theorem Acquired.modify {claimed : Pool} (hacquired : p.Acquired i claimed) :
    ∃ (w : Worker) (f : Worker → Worker), p.workers[i]? = some w ∧
      claimed.workers = p.workers.modify i f ∧
      (f w).state = .busy ∧ (f w).isolate = w.isolate ∧ (f w).inbox = w.inbox := by
  have htaken (message : Message) : ((p.taken i message).claim i).workers =
      p.workers.modify i ({ · with doneBox := none, state := .busy }) := by
    rw [claim, setState, modifyWorker, taken_workers, List.modify_modify_eq]
    rfl
  cases hacquired with
  | idle hw => exact ⟨_, _, hw, rfl, rfl, rfl, rfl⟩
  | settled hw => exact ⟨_, _, hw, htaken _, rfl, rfl, rfl⟩
  | drained hw => exact ⟨_, _, hw, htaken _, rfl, rfl, rfl⟩

/-- The worker that a job is sent to. -/
theorem Acquired.sent {claimed : Pool} (hacquired : p.Acquired i claimed)
    (fnSource argsJson json : Text) :
    ∃ (w : Worker) (f : Worker → Worker) (message : JobMessage), p.workers[i]? = some w ∧
      (claimed.finishDispatch i fnSource argsJson (some json)).workers = p.workers.modify i f ∧
      (f w).state = .busy ∧ (f w).isolate = w.isolate ∧
      (f w).inbox = w.inbox ++ [.job message] := by
  obtain ⟨w, f, hw, hworkers, hbusy, hisolate, hinbox⟩ := hacquired.modify
  refine ⟨w, fun v => { f v with
    inbox := (f v).inbox ++ [.job ⟨claimed.nextJobId, fnSource, argsJson, json⟩] }, _, hw, ?_,
    hbusy, hisolate, congrArg (· ++ _) hinbox⟩
  exact (congrArg (List.modify · _ _) hworkers).trans (List.modify_modify_eq _ _ _ _)

/-- Every inner step leaves less to do. -/
theorem Move.toDo_lt {label : Label Ctx} (hsendable : p.Sendable) (hinner : label.Inner)
    (hmove : Move cfg p label p') : p'.toDo < p.toDo := by
  cases hmove with
  | giveUp hmain => simp [toDo, hmain, MainThread.toDo]
  | send hmain hacquired =>
    obtain ⟨json, rfl⟩ := hsendable.context_isSome hmain hacquired
    obtain ⟨w, f, message, hw, hworkers, -, hisolate, hinbox⟩ := hacquired.sent _ _ json
    refine Pool.toDo_lt hw hworkers ?_
    rw [hmain, finishDispatch_main, Worker.toDo, Worker.toDo, hisolate, hinbox]
    cases w.isolate <;> simp only [MainThread.toDo, List.length_append, List.length_singleton] <;>
      omega
  | @collect j i w e hmain hw =>
    refine Pool.toDo_lt hw (taken_workers _) ?_
    rw [hmain]
    exact Nat.add_lt_add_right Nat.zero_lt_one _
  | ready hw hstart =>
    refine Pool.toDo_lt hw rfl (Nat.add_lt_add_left ?_ _)
    simp [Worker.toDo, hstart]
  | receive hw hlistening hinbox =>
    refine Pool.toDo_lt hw rfl (Nat.add_lt_add_left ?_ _)
    simp only [Worker.toDo, hlistening, hinbox, List.length_cons]
    omega
  | answer ok resultJson error hw hrunning =>
    refine Pool.toDo_lt hw rfl (Nat.add_lt_add_left ?_ _)
    simp [Worker.toDo, hrunning]
  | _ => exact absurd hinner id

/-! ## Isolates that are not done -/

/-- A worker that lives and that the main thread may be parked on has something to put into
its mailbox, or has put it there. -/
def Alert (p : Pool) : Prop :=
  ∀ (i : Nat) (w : Worker), p.workers[i]? = some w → w.isolate ≠ .exited →
    (w.state = .booting → w.isolate = .starting ∨ w.doneBox = some .ready) ∧
      (w.state = .busy → w.inFlight ≠ [])

theorem Alert.modify (h : p.Alert) {f : Worker → Worker} (hw : p.workers[i]? = some w)
    (hworkers : p'.workers = p.workers.modify i f)
    (hf : (f w).isolate ≠ .exited →
      ((f w).state = .booting → (f w).isolate = .starting ∨ (f w).doneBox = some .ready) ∧
        ((f w).state = .busy → (f w).inFlight ≠ [])) : p'.Alert :=
  forall_of_modify h hw hworkers hf

theorem Alert.move {label : Label Ctx} (hinv : p.Inv) (hsendable : p.Sendable) (h : p.Alert)
    (hmove : Move cfg p label p') : p'.Alert := by
  cases hmove with
  | refuse | call | serve | reject | park | giveUp => exact h
  | send hmain hacquired =>
    obtain ⟨json, rfl⟩ := hsendable.context_isSome hmain hacquired
    obtain ⟨w, f, message, hw, hworkers, hbusy, -, hinbox⟩ := hacquired.sent _ _ json
    refine h.modify hw hworkers fun _ => ?_
    simp [hbusy, Worker.inFlight, hinbox, Inbound.jobIds]
  | collect hmain hw => exact h.modify hw (taken_workers _) (by simp)
  | ready hw => exact h.modify hw rfl (by simp_all)
  | receive hw hlistening hinbox =>
    obtain ⟨hbusy, -⟩ := hinv.busy_of_underway hw (by simp [hlistening])
      (List.mem_append_right _ (by rw [hinbox]; exact List.mem_cons_self))
    exact h.modify hw rfl (by simp [hbusy, Worker.inFlight, IsolatePhase.jobIds])
  | answer ok resultJson error hw hrunning hbusy =>
    exact h.modify hw rfl (by simp [hbusy, Worker.inFlight, Message.jobIds])
  | exit hw => exact h.modify hw rfl (by simp)
  | exitNotice hidle hw hnotice =>
    obtain ⟨-, hexited, -⟩ := hinv.worker _ _ hw
    exact h.modify hw rfl (by simp [hexited hnotice])

theorem alert_afterBoot (n : Nat) : (afterBoot n).Alert := by
  intro i w hw _
  simp only [afterBoot, List.getElem?_map, Option.map_eq_some_iff] at hw
  obtain ⟨k, -, rfl⟩ := hw
  simp

/-- A live worker with an empty mailbox that the main thread may be parked on has a step. -/
theorem Inv.exists_step (hinv : p.Inv) (halert : p.Alert) (hw : p.workers[i]? = some w)
    (hlive : w.isolate ≠ .exited) (hbox : w.doneBox = none)
    (hstate : w.state = .booting ∨ w.state = .busy) :
    ∃ label : Label Ctx, label.Inner ∧ p.step cfg label ≠ none := by
  obtain ⟨hbooting, hbusy⟩ := halert i w hw hlive
  rcases hstate with hstate | hstate
  · have hstart : w.isolate = .starting := (hbooting hstate).resolve_right (by simp [hbox])
    exact ⟨.ready i, trivial, by simp [step, isolateReady, hw, hstart]⟩
  · have hflight := hbusy hstate
    obtain ⟨hshutdown, -, hok⟩ := hinv.worker i w hw
    simp only [hstate] at hok
    obtain ⟨j, -, -, -, hstart⟩ := hok
    cases hisolate : w.isolate with
    | starting => exact absurd hisolate hstart
    | exited => exact absurd hisolate hlive
    | running request =>
      exact ⟨.answer i true none none, trivial, by simp [step, isolateAnswer, hw, hisolate]⟩
    | listening =>
      refine ⟨.receive i, trivial, ?_⟩
      cases hinbox : w.inbox with
      | nil => simp [Worker.inFlight, hbox, hisolate, hinbox, IsolatePhase.jobIds] at hflight
      | cons message rest =>
        cases message with
        | shutdown => simp [hinbox] at hshutdown
        | job message => simp [step, isolateReceive, hw, hisolate, hinbox]

/-! ## Runs -/

/-- What a run whose contexts can be encoded keeps, also when isolates end. -/
structure Going (p : Pool) : Prop where
  inv : p.Inv
  sendable : p.Sendable
  alert : p.Alert

theorem Going.step {label : Label Ctx} (h : p.Going) (hencodable : label.Encodable cfg p)
    (hstep : p.step cfg label = some p') : p'.Going :=
  have hmove := move_of_step h.inv hstep
  ⟨h.inv.move hmove, h.sendable.move hencodable hmove, h.alert.move h.inv h.sendable hmove⟩

theorem going_of_reachable {n : Nat}
    (hreach : Transition.Reachable (Pool.step cfg) (fun q l => l.Encodable cfg q) (afterBoot n) p) :
    p.Going :=
  hreach.invariant Going ⟨inv_afterBoot n, by simp [Sendable, afterBoot], alert_afterBoot n⟩
    fun _ _ _ h hencodable hstep => h.step hencodable hstep

/-- Inner steps come to an end. -/
theorem settling : Transition.Settling (Pool.step cfg) Label.Inner Going toDo where
  keeps q label q' h hinner hstep := by
    refine h.step ?_ hstep
    cases label with
    | dispatch => exact absurd hinner id
    | _ => trivial
  decreases _ _ _ h hinner hstep := (move_of_step h.inv hstep).toDo_lt h.sendable hinner

/-- Nothing is left to do only where no call is parked on a live isolate. -/
theorem Going.idle_or_lost (h : p.Going)
    (hrest : Transition.AtRest (Pool.step cfg) Label.Inner p) : p.main = .idle ∨ p.Lost := by
  by_contra hnot
  rw [not_or] at hnot
  obtain ⟨i, w, hparked, hw, hbox, hstate⟩ :=
    exists_parkedOn h.inv hnot.1 (hrest .resume trivial)
  obtain ⟨label, hinner, hstep⟩ : ∃ label : Label Ctx, label.Inner ∧ p.step cfg label ≠ none :=
    h.inv.exists_step h.alert hw (fun hexited => hnot.2 ⟨i, w, hparked, hw, hexited⟩) hbox hstate
  exact hstep (hrest label hinner)

/-- Runs of inner steps are short, however the isolates are scheduled, and at the end of each of
them that cannot be continued no call is in progress, unless it is parked on the empty mailbox of
an isolate that has ended. -/
theorem call_returns_or_lost {n : Nat}
    (hreach : Transition.Reachable (step cfg) (fun q l => l.Encodable cfg q) (afterBoot n) p)
    {labels : List (Label Ctx)} (hinner : ∀ label ∈ labels, label.Inner)
    (hrun : Transition.run (step cfg) p labels = some p') :
    labels.length ≤ p.toDo ∧
      (Transition.AtRest (step cfg) Label.Inner p' → p'.main = .idle ∨ p'.Lost) := by
  obtain ⟨hgoing, hpaid⟩ := settling.run hinner hrun (going_of_reachable hreach)
  exact ⟨by omega, hgoing.idle_or_lost⟩

/-- The only worker starts while a first `dispatch` is parked on it, and the `dispatch` returns;
or the worker ends, and the `dispatch` is lost. -/
theorem first_dispatch_returns_or_lost :
    ∃ p, Transition.run (step (textConfig 1)) (afterBoot 1) [.dispatch (textCall none)] = some p ∧
      p.toDo = 4 ∧ p.main ≠ .idle ∧
      ∀ labels p', (∀ label ∈ labels, label.Inner) →
        Transition.run (step (textConfig 1)) p labels = some p' →
        Transition.AtRest (step (textConfig 1)) Label.Inner p' →
        labels.length ≤ 4 ∧ (p'.main = .idle ∨ p'.Lost) := by
  obtain ⟨p, hrun, htoDo, hcall⟩ : ∃ p : Pool,
      Transition.run (step (textConfig 1)) (afterBoot 1) [.dispatch (textCall none)] = some p ∧
        p.toDo = 4 ∧ p.main ≠ .idle := ⟨_, rfl, rfl, by decide⟩
  have hallowed : Transition.RunAllowed (step (textConfig 1))
      (fun q l => l.Encodable (textConfig 1) q) (afterBoot 1) [.dispatch (textCall none)] :=
    .cons (.inl rfl) hrun trivial
  refine ⟨p, hrun, htoDo, hcall, ?_⟩
  intro labels p' hinner hrun' hrest
  have hreturns := call_returns_or_lost (Transition.Reachable.init.run hallowed hrun) hinner hrun'
  exact ⟨htoDo ▸ hreturns.1, hreturns.2 hrest⟩

end Pool
