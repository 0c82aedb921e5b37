import QuickjsRuntime.Pool.Remote

/-! # Code that calls the pool

The code of the main engine calls the pool through its host functions and goes on with how each
call has ended. While it is parked in a call, only the call and the isolates take steps. `Yields`
says that the code comes to an end in whatever order they do, and with a result that meets a
condition. By `Serves.yields` that is a matter of remote evaluation alone.
-/

namespace Pool

open Utf16 (Text)

variable {Ctx α β : Type} {cfg : Config Ctx} {p p' : Pool} {i j : Nat} {w : Worker}

/-- A call of a host function to the pool. The context of a job is added by the providers. -/
inductive HostCall where
  | dispatch (fnSource argsJson : Text)
  | wait (jobId : Nat)
deriving DecidableEq, Repr

/-- Code, cut where it calls the pool. -/
inductive Caller (α : Type) where
  | ends (result : α)
  | calls (call : HostCall) (next : Observed → Caller α)

protected def Caller.bind : Caller α → (α → Caller β) → Caller β
  | .ends result, f => f result
  | .calls call next, f => .calls call fun outcome => (next outcome).bind f

instance : Monad Caller where
  pure := .ends
  bind := Caller.bind

/-! ## Runs of the code -/

def Live (p : Pool) : Prop :=
  ∀ (i : Nat) (w : Worker), p.workers[i]? = some w → w.isolate ≠ .exited

theorem Live.modify (h : p.Live) {f : Worker → Worker} (hw : p.workers[i]? = some w)
    (hworkers : p'.workers = p.workers.modify i f) (hf : (f w).isolate ≠ .exited) : p'.Live :=
  forall_of_modify h hw hworkers hf

theorem Live.move {label : Label Ctx} (h : p.Live) (hsendable : p.Sendable)
    (hquiet : label.Quiet cfg) (hmove : Move cfg p label p') : p'.Live := by
  cases hmove with
  | refuse | call | serve | reject | park | giveUp => exact h
  | send hmain hacquired =>
    obtain ⟨json, rfl⟩ := hsendable.context_isSome hmain hacquired
    obtain ⟨w, f, message, hw, hworkers, -, hisolate, -⟩ := hacquired.sent _ _ json
    exact h.modify hw hworkers (hisolate ▸ h _ w hw)
  | @collect j i w e hmain hw => exact h.modify hw (taken_workers _) (h i w hw)
  | ready hw | receive hw | answer _ _ _ hw => exact h.modify hw rfl (by simp)
  | exit | exitNotice => exact absurd hquiet id

/-! ## Pools that serve -/

section Serves

variable {evaluate : Request → Verdict} {trace : List Observed} {r : Remote} {label : Label Ctx}

/-- The pool stands for remote evaluation, and all its isolates live. -/
structure Serves (evaluate : Request → Verdict) (trace : List Observed) (r : Remote) (p : Pool) :
    Prop extends Simulates evaluate trace r p, Going p where
  live : p.Live

theorem Serves.of_simulates (h : Serves evaluate trace r p) (hhonest : label.Honest cfg evaluate p)
    (hstep : p.step cfg label = some p') {trace' : List Observed} {r' : Remote}
    (hsimulates : Simulates evaluate trace' r' p') : Serves evaluate trace' r' p' :=
  have hgoing := h.toGoing.step (hhonest.1.encodable p) hstep
  ⟨hsimulates, hgoing.sendable, hgoing.alert,
    h.live.move h.sendable hhonest.1 (move_of_step h.inv hstep)⟩

theorem Serves.call (h : Serves evaluate trace r p) {c : Call} (hcall : label.toCall cfg = some c)
    (hhonest : label.Honest cfg evaluate p) (hstep : p.step cfg label = some p') :
    Serves evaluate (trace ++ [(r.step evaluate c).1]) (r.step evaluate c).2 p' := by
  have hnext := h.toSimulates.step hhonest (move_of_step h.inv hstep)
  simp only [hcall] at hnext
  exact h.of_simulates hhonest hstep hnext

end Serves

/-! ## Jobs that were not waited for -/

/-- The job asks for the request, and nobody has waited for it. -/
structure Remote.Pending (r : Remote) (jobId : Nat) (request : Request) : Prop where
  request : r.requests[jobId]? = some request
  fresh : jobId ∉ r.collected

section Pending

variable {evaluate : Request → Verdict} {trace : List Observed} {r : Remote} {request : Request}

theorem Remote.Pending.step (h : r.Pending j request) {c : Call} (hc : c ≠ .wait j) :
    (r.step evaluate c).2.Pending j request := by
  cases c with
  | dispatch asked =>
    refine ⟨?_, h.fresh⟩
    have hlt := (List.getElem?_eq_some_iff.mp h.request).1
    exact (List.getElem?_append_left hlt).trans h.request
  | wait k =>
    have hk : j ≠ k := fun heq => hc (congrArg Call.wait heq.symm)
    rw [Remote.step]
    split
    · exact h
    · split
      · exact h
      · exact ⟨h.request, by simp [hk, h.fresh]⟩

theorem Remote.Pending.wait (h : r.Pending j request) :
    (r.step evaluate (.wait j)).1 = .returned j
      { jobId := j, ok := (evaluate request).ok, resultJson := (evaluate request).resultJson
        error := (evaluate request).error } := by
  simp [Remote.step, envelopeOf, h.request, h.fresh]

/-- A `dispatch` by an idle thread makes such a job, under the next number. -/
theorem Serves.dispatch (h : Serves evaluate trace r p) (hidle : p.main = .idle)
    (request : Request) :
    (r.step evaluate (.dispatch request)).1 = .dispatched p.nextJobId ∧
      (r.step evaluate (.dispatch request)).2.Pending p.nextJobId request := by
  have hmain := h.main
  rw [hidle] at hmain
  obtain ⟨-, hlength⟩ := hmain
  refine ⟨congrArg Observed.dispatched hlength, ?_, ?_⟩
  · rw [← hlength]
    exact List.getElem?_concat_length
  · intro hcollected
    exact Nat.lt_irrefl _ ((h.collected p.nextJobId).mp hcollected).1

end Pending

end Pool
