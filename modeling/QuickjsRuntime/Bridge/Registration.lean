import Mathlib
import QuickjsRuntime.Bridge.CallbackTable
import QuickjsRuntime.Foundation.Threads
import QuickjsRuntime.Foundation.Transition

/-!
# Registering from several threads

`qjs_register_host_fn` of `native/quickjs_bridge.c` one shared access at a time: the plain
read of `g_callback_count`, the atomic fetch-and-add, the check of the index, the store to
`g_callbacks` and the creation of the function. The counter is an `int`, and the fetch-and-add
wraps around. Between two accesses of one thread any other thread may take steps.

`CallbackTable.register` is the run of one thread that no other interrupts
(`register_uninterrupted`).
-/

namespace Bridge.Interleaved

variable {Thread Cb : Type}

/-- Where a thread is in its call. Calls are numbered in the order in which they begin. -/
inductive Pc (Cb : Type) where
  | idle
  | reading (call : Nat) (callback : Option Cb)
  | adding (call : Nat) (callback : Option Cb)
  | checking (call : Nat) (callback : Option Cb) (index : Int)
  | storing (call : Nat) (callback : Option Cb) (index : Int)
  | creating (call : Nat)
deriving DecidableEq, Repr

/-- What is remembered of the calls. -/
inductive Event (Cb : Type) where
  | stored (call : Nat) (index : Int) (callback : Option Cb)
  /-- The call returned `-1` because of the limit. -/
  | refused (call : Nat)
  /-- The call returned from the creation of the function. -/
  | returned (call : Nat) (code : Int)
deriving DecidableEq, Repr

/-- `callbacks` is the memory at and around the table. -/
structure State (Thread Cb : Type) where
  count : BitVec 32
  callbacks : Int → Option Cb
  pc : Thread → Pc Cb
  nextCall : Nat
  log : List (Event Cb)

inductive Label (Thread Cb : Type) where
  | call (thread : Thread) (callback : Option Cb)
  | next (thread : Thread)
  /-- The engine creates the function and sets the global, or fails. -/
  | create (thread : Thread) (ok : Bool)

def State.fresh : State Thread Cb where
  count := 0
  callbacks _ := none
  pc _ := .idle
  nextCall := 0
  log := []

section Model

variable [DecidableEq Thread]

def State.goto (s : State Thread Cb) (t : Thread) (pc : Pc Cb) : State Thread Cb :=
  { s with pc := Function.update s.pc t pc }

/-- `return -1` at one of the two checks of the limit. -/
def State.refuse (s : State Thread Cb) (t : Thread) (call : Nat) : State Thread Cb :=
  { s.goto t .idle with log := s.log ++ [.refused call] }

def State.step (s : State Thread Cb) : Label Thread Cb → Option (State Thread Cb)
  | .call t callback =>
    match s.pc t with
    | .idle => some { s.goto t (.reading s.nextCall callback) with nextCall := s.nextCall + 1 }
    | _ => none
  | .next t =>
    match s.pc t with
    | .reading call callback =>
      if (maxHostFns : Int) ≤ s.count.toInt then some (s.refuse t call)
      else some (s.goto t (.adding call callback))
    | .adding call callback =>
      some { s.goto t (.checking call callback s.count.toInt) with count := s.count + 1 }
    | .checking call callback index =>
      if (maxHostFns : Int) ≤ index then some (s.refuse t call)
      else some (s.goto t (.storing call callback index))
    | .storing call callback index =>
      some { s.goto t (.creating call) with
        callbacks := Function.update s.callbacks index callback
        log := s.log ++ [.stored call index callback] }
    | _ => none
  | .create t ok =>
    match s.pc t with
    | .creating call =>
      some { s.goto t .idle with log := s.log ++ [.returned call (if ok then 0 else -1)] }
    | _ => none

abbrev Reachable (s : State Thread Cb) : Prop :=
  Transition.Reachable State.step (fun _ _ => True) State.fresh s

omit [DecidableEq Thread] in
/-- The index check of `qjs_dispatch`. -/
def State.indexCheck (s : State Thread Cb) (magic : Int) : Bool :=
  !(decide (magic < 0) || decide (s.count.toInt ≤ magic))

end Model

/-- The index a store wrote to. -/
def Event.index : Event Cb → Option Int
  | .stored _ index _ => some index
  | _ => none

/-- The call whose store or refusal this is. -/
def Event.settled : Event Cb → Option Nat
  | .stored call _ _ => some call
  | .refused call => some call
  | .returned _ _ => none

/-- What the table promises at every moment. -/
structure State.Safe (s : State Thread Cb) : Prop where
  inTable : ∀ (call : Nat) (index : Int) (callback : Option Cb),
    .stored call index callback ∈ s.log → 0 ≤ index ∧ index < maxHostFns
  once : (s.log.filterMap Event.index).Nodup
  kept : ∀ (call : Nat) (index : Int) (callback : Option Cb), .stored call index callback ∈ s.log →
    s.callbacks index = callback
  refusedStoresNothing : ∀ call, .refused call ∈ s.log →
    ∀ index callback, .stored call index callback ∉ s.log
  dispatched : ∀ (call : Nat) (index : Int) (callback : Option Cb),
    .stored call index callback ∈ s.log → s.indexCheck index = true

/-! ## Places of a thread -/

/-- The index a thread has drawn and not yet written to. -/
def Pc.index : Pc Cb → Option Int
  | .checking _ _ index => some index
  | .storing _ _ index => some index
  | _ => none

/-- The call a thread is in, before its store or refusal. -/
def Pc.pending : Pc Cb → Option Nat
  | .reading call _ => some call
  | .adding call _ => some call
  | .checking call _ _ => some call
  | .storing call _ _ => some call
  | _ => none

def Pc.isAdding : Pc Cb → Bool
  | .adding _ _ => true
  | _ => false

/-- What the checks behind a thread have shown of its index. -/
def Pc.Checked : Pc Cb → Prop
  | .checking _ _ index => 0 ≤ index
  | .storing _ _ index => 0 ≤ index ∧ index < maxHostFns
  | _ => True

section Proofs

variable [DecidableEq Thread] {s s' : State Thread Cb} {t : Thread}

@[simp] theorem goto_pc (s : State Thread Cb) (t : Thread) (pc : Pc Cb) :
    (s.goto t pc).pc = Function.update s.pc t pc := rfl

@[simp] theorem goto_count (s : State Thread Cb) (t : Thread) (pc : Pc Cb) :
    (s.goto t pc).count = s.count := rfl

/-- The steps, each with where its thread stands before and after. -/
inductive Step (s : State Thread Cb) (t : Thread) : State Thread Cb → Prop
  | call (callback : Option Cb) (hpc : s.pc t = .idle) :
      Step s t { s.goto t (.reading s.nextCall callback) with nextCall := s.nextCall + 1 }
  | full (call : Nat) (callback : Option Cb) (hpc : s.pc t = .reading call callback)
      (hfull : (maxHostFns : Int) ≤ s.count.toInt) : Step s t (s.refuse t call)
  | room (call : Nat) (callback : Option Cb) (hpc : s.pc t = .reading call callback)
      (hroom : s.count.toInt < maxHostFns) : Step s t (s.goto t (.adding call callback))
  | add (call : Nat) (callback : Option Cb) (hpc : s.pc t = .adding call callback) :
      Step s t { s.goto t (.checking call callback s.count.toInt) with count := s.count + 1 }
  | late (call : Nat) (callback : Option Cb) (index : Int)
      (hpc : s.pc t = .checking call callback index) (hfull : (maxHostFns : Int) ≤ index) :
      Step s t (s.refuse t call)
  | fits (call : Nat) (callback : Option Cb) (index : Int)
      (hpc : s.pc t = .checking call callback index) (hroom : index < maxHostFns) :
      Step s t (s.goto t (.storing call callback index))
  | store (call : Nat) (callback : Option Cb) (index : Int)
      (hpc : s.pc t = .storing call callback index) :
      Step s t { s.goto t (.creating call) with
        callbacks := Function.update s.callbacks index callback
        log := s.log ++ [.stored call index callback] }
  | create (call : Nat) (code : Int) (hpc : s.pc t = .creating call) :
      Step s t { s.goto t .idle with log := s.log ++ [.returned call code] }

theorem step_cases {l : Label Thread Cb} (h : s.step l = some s') : ∃ t, Step s t s' := by
  cases l with
  | call t callback =>
    simp only [State.step] at h
    split at h
    · next hpc =>
        cases h
        exact ⟨t, .call callback hpc⟩
    · cases h
  | next t =>
    simp only [State.step] at h
    split at h
    · next call callback hpc =>
        split at h
        · next hfull =>
            cases h
            exact ⟨t, .full call callback hpc hfull⟩
        · next hroom =>
            cases h
            exact ⟨t, .room call callback hpc (Int.not_le.mp hroom)⟩
    · next call callback hpc =>
        cases h
        exact ⟨t, .add call callback hpc⟩
    · next call callback index hpc =>
        split at h
        · next hfull =>
            cases h
            exact ⟨t, .late call callback index hpc hfull⟩
        · next hroom =>
            cases h
            exact ⟨t, .fits call callback index hpc (Int.not_le.mp hroom)⟩
    · next call callback index hpc =>
        cases h
        exact ⟨t, .store call callback index hpc⟩
    · cases h
  | create t ok =>
    simp only [State.step] at h
    split at h
    · next call hpc =>
        cases h
        exact ⟨t, .create call _ hpc⟩
    · cases h

/-! ## The invariant -/

omit [DecidableEq Thread] in
/-- The counter counts the fetch-and-adds, of which there are at most as many beyond the
limit as there are threads; indices and calls are drawn like keys; and a slot holds what
was stored to it. -/
structure Sound [Fintype Thread] (s : State Thread Cb) (adds : Nat) : Prop where
  count : s.count = BitVec.ofNat 32 adds
  crowded : adds + Threads.crowd Pc.isAdding s.pc < maxHostFns + Fintype.card Thread
  checked : ∀ t, (s.pc t).Checked
  indices : Threads.Ledger Pc.index s.pc Event.index s.log (adds : Int)
  calls : Threads.Ledger Pc.pending s.pc Event.settled s.log s.nextCall
  stores : ∀ (call : Nat) (index : Int) (callback : Option Cb),
    .stored call index callback ∈ s.log →
      (0 ≤ index ∧ index < maxHostFns) ∧ s.callbacks index = callback

theorem checked_update {place : Thread → Pc Cb} (h : ∀ t, (place t).Checked) (t : Thread)
    {pc : Pc Cb} (hpc : pc.Checked) (u : Thread) : (Function.update place t pc u).Checked := by
  by_cases hu : u = t
  · subst hu
    rwa [Function.update_self]
  · rw [Function.update_of_ne hu]
    exact h u

section Invariant

variable [Fintype Thread] {adds : Nat}

omit [DecidableEq Thread] in
theorem Sound.fresh : Sound (State.fresh : State Thread Cb) 0 where
  count := rfl
  crowded := by
    have hnone : Threads.crowd Pc.isAdding (fun _ : Thread => (.idle : Pc Cb)) = 0 := by
      simp [Threads.crowd, Pc.isAdding]
    rw [State.fresh, hnone]
    unfold maxHostFns
    omega
  checked _ := trivial
  indices := .empty fun _ => rfl
  calls := .empty fun _ => rfl
  stores _ _ _ h := nomatch h

theorem add_one_of_count {count : BitVec 32} {n : Nat} (h : count = BitVec.ofNat 32 n) :
    count + 1 = BitVec.ofNat 32 (n + 1) := by
  rw [h, BitVec.ofNat_add]
  rfl

theorem toInt_ofNat {n : Nat} (hn : n < 2147483648) : (BitVec.ofNat 32 n).toInt = n := by
  rw [BitVec.toInt_eq_toNat_of_lt, BitVec.toNat_ofNat, Nat.mod_eq_of_lt (by omega)]
  rw [BitVec.toNat_ofNat, Nat.mod_eq_of_lt (by omega)]
  omega

omit [DecidableEq Thread] in
/-- Few enough threads keep the counter from wrapping around. -/
theorem Sound.toInt (h : Sound s adds) (hcard : Fintype.card Thread ≤ 2147418112) :
    s.count.toInt = adds := by
  have hcrowded := h.crowded
  unfold maxHostFns at hcrowded
  rw [h.count]
  exact toInt_ofNat (by omega)

theorem Sound.crowded_goto (h : Sound s adds) {pc : Pc Cb} (hpc : pc.isAdding = false) :
    adds + Threads.crowd Pc.isAdding (Function.update s.pc t pc) <
      maxHostFns + Fintype.card Thread := by
  have hcrowd := Threads.crowd_update Pc.isAdding s.pc t pc
  have hcrowded := h.crowded
  rw [hpc] at hcrowd
  simp only [Bool.false_eq_true, if_false] at hcrowd
  omega

omit [DecidableEq Thread] in
theorem Sound.stores_concat (h : Sound s adds) {e : Event Cb} (he : e.index = none)
    (call : Nat) (index : Int) (callback : Option Cb)
    (hmem : .stored call index callback ∈ s.log ++ [e]) :
    (0 ≤ index ∧ index < maxHostFns) ∧ s.callbacks index = callback := by
  rcases List.mem_append.mp hmem with hmem | hmem
  · exact h.stores call index callback hmem
  · rw [← List.mem_singleton.mp hmem] at he
    cases he

theorem Sound.refuse (h : Sound s adds) {call : Nat} (hcall : (s.pc t).pending = some call) :
    Sound (s.refuse t call) adds where
  count := h.count
  crowded := h.crowded_goto rfl
  checked := checked_update h.checked t trivial
  indices := (h.indices.drop rfl).record rfl
  calls := h.calls.spend hcall rfl rfl
  stores := h.stores_concat rfl

theorem Sound.call (h : Sound s adds) (callback : Option Cb) :
    Sound { s.goto t (.reading s.nextCall callback) with nextCall := s.nextCall + 1 } adds where
  count := h.count
  crowded := h.crowded_goto rfl
  checked := checked_update h.checked t trivial
  indices := h.indices.drop rfl
  calls := h.calls.draw rfl (Nat.lt_succ_self _)
  stores := h.stores

/-- Only a thread that still read a count below the limit comes to the fetch-and-add. -/
theorem Sound.room (h : Sound s adds) (hcard : Fintype.card Thread ≤ 2147418112) {call : Nat}
    {callback : Option Cb} (hpc : s.pc t = .reading call callback)
    (hroom : s.count.toInt < maxHostFns) : Sound (s.goto t (.adding call callback)) adds where
  count := h.count
  crowded := by
    -- the count was below the limit, and this thread was not yet among those about to add
    have hcrowd := Threads.crowd_update Pc.isAdding s.pc t (.adding call callback)
    have hlt : Threads.crowd Pc.isAdding s.pc < Fintype.card Thread :=
      Threads.crowd_lt_card (a := t) (by rw [hpc]; rfl)
    rw [h.toInt hcard] at hroom
    simp only [hpc, Pc.isAdding, Bool.false_eq_true, if_false, if_true] at hcrowd
    simp only [goto_pc]
    omega
  checked := checked_update h.checked t trivial
  indices := h.indices.drop rfl
  calls := h.calls.keep (by rw [hpc]; rfl)
  stores := h.stores

theorem Sound.add (h : Sound s adds) (hcard : Fintype.card Thread ≤ 2147418112) {call : Nat}
    {callback : Option Cb} (hpc : s.pc t = .adding call callback) :
    Sound { s.goto t (.checking call callback s.count.toInt) with count := s.count + 1 }
      (adds + 1) where
  count := add_one_of_count h.count
  crowded := by
    -- one more add, and one thread less that is about to add
    have hcrowd := Threads.crowd_update Pc.isAdding s.pc t (.checking call callback s.count.toInt)
    have hcrowded := h.crowded
    simp only [hpc, Pc.isAdding, Bool.false_eq_true, if_false, if_true] at hcrowd
    simp only [goto_pc]
    omega
  checked := checked_update h.checked t (by rw [h.toInt hcard]; exact Int.natCast_nonneg _)
  indices := h.indices.draw (by rw [← h.toInt hcard]; rfl) (by omega)
  calls := h.calls.keep (by rw [hpc]; rfl)
  stores := h.stores

theorem Sound.fits (h : Sound s adds) {call : Nat} {callback : Option Cb} {index : Int}
    (hpc : s.pc t = .checking call callback index) (hroom : index < maxHostFns) :
    Sound (s.goto t (.storing call callback index)) adds where
  count := h.count
  crowded := h.crowded_goto rfl
  checked := by
    have hchecked := h.checked t
    rw [hpc] at hchecked
    exact checked_update h.checked t ⟨hchecked, hroom⟩
  indices := h.indices.keep (by rw [hpc]; rfl)
  calls := h.calls.keep (by rw [hpc]; rfl)
  stores := h.stores

theorem Sound.store (h : Sound s adds) {call : Nat} {callback : Option Cb} {index : Int}
    (hpc : s.pc t = .storing call callback index) :
    Sound { s.goto t (.creating call) with
      callbacks := Function.update s.callbacks index callback
      log := s.log ++ [.stored call index callback] } adds where
  count := h.count
  crowded := h.crowded_goto rfl
  checked := checked_update h.checked t trivial
  indices := h.indices.spend (by rw [hpc]; rfl) rfl rfl
  calls := h.calls.spend (by rw [hpc]; rfl) rfl rfl
  stores call' index' callback' hmem := by
    have hchecked := h.checked t
    rw [hpc] at hchecked
    rcases List.mem_append.mp hmem with hold | hnew
    · -- an index that is held has not been stored to, so the old slots stay
      have hne : index' ≠ index := by
        rintro rfl
        refine h.indices.unspent t index' (by rw [hpc]; rfl) ?_
        exact List.mem_filterMap.mpr ⟨.stored call' index' callback', hold, rfl⟩
      obtain ⟨htable, hslot⟩ := h.stores call' index' callback' hold
      exact ⟨htable, (Function.update_of_ne hne _ _).trans hslot⟩
    · cases List.mem_singleton.mp hnew
      exact ⟨hchecked, Function.update_self ..⟩

theorem Sound.create (h : Sound s adds) (call : Nat) (code : Int) :
    Sound { s.goto t .idle with log := s.log ++ [.returned call code] } adds where
  count := h.count
  crowded := h.crowded_goto rfl
  checked := checked_update h.checked t trivial
  indices := (h.indices.drop rfl).record rfl
  calls := (h.calls.drop rfl).record rfl
  stores := h.stores_concat rfl

theorem Sound.step (h : Sound s adds) (hcard : Fintype.card Thread ≤ 2147418112)
    (hstep : Step s t s') : ∃ adds', Sound s' adds' := by
  cases hstep with
  | call callback hpc => exact ⟨adds, h.call callback⟩
  | full call callback hpc hfull => exact ⟨adds, h.refuse (by rw [hpc]; rfl)⟩
  | room call callback hpc hroom => exact ⟨adds, h.room hcard hpc hroom⟩
  | add call callback hpc => exact ⟨adds + 1, h.add hcard hpc⟩
  | late call callback index hpc hfull => exact ⟨adds, h.refuse (by rw [hpc]; rfl)⟩
  | fits call callback index hpc hroom => exact ⟨adds, h.fits hpc hroom⟩
  | store call callback index hpc => exact ⟨adds, h.store hpc⟩
  | create call code hpc => exact ⟨adds, h.create call code⟩

theorem Reachable.sound (hcard : Fintype.card Thread ≤ 2147418112) (hreach : Reachable s) :
    ∃ adds, Sound s adds := by
  refine hreach.invariant (fun s => ∃ adds, Sound s adds) ⟨0, .fresh⟩ ?_
  rintro s l s' ⟨adds, h⟩ - hstep
  obtain ⟨t, hstep⟩ := step_cases hstep
  exact h.step hcard hstep

omit [DecidableEq Thread] in
theorem Sound.safe (h : Sound s adds) (hcard : Fintype.card Thread ≤ 2147418112) : s.Safe where
  inTable call index callback hmem := (h.stores call index callback hmem).1
  once := h.indices.nodup
  kept call index callback hmem := (h.stores call index callback hmem).2
  refusedStoresNothing call hrefused index callback hstored := by
    cases h.calls.eq_of_spent hrefused hstored rfl rfl
  dispatched call index callback hmem := by
    have hbelow := h.indices.spentBelow index (List.mem_filterMap.mpr ⟨_, hmem, rfl⟩)
    have hnonneg := (h.stores call index callback hmem).1.1
    rw [State.indexCheck, h.toInt hcard]
    simp only [Bool.not_or, Bool.and_eq_true, Bool.not_eq_true', decide_eq_false_iff_not]
    omega

/-- With at most `2 ^ 31 - 2 ^ 16` threads the table is safe in every interleaving. -/
theorem registration_safe (hcard : Fintype.card Thread ≤ 2147418112) (hreach : Reachable s) :
    s.Safe := by
  obtain ⟨adds, hsound⟩ := hreach.sound hcard
  exact hsound.safe hcard

end Invariant

/-! ## A call that is not interrupted -/

theorem update_idle (hidle : s.pc t = .idle) :
    Function.update s.pc t .idle = s.pc := by
  rw [← hidle, Function.update_eq_self]

theorem run_full (hidle : s.pc t = .idle) (hfull : (maxHostFns : Int) ≤ s.count.toInt)
    (callback : Option Cb) :
    Transition.run State.step s [.call t callback, .next t] =
      some { s with nextCall := s.nextCall + 1, log := s.log ++ [.refused s.nextCall] } := by
  simp [Transition.run, State.step, hidle, hfull, State.refuse, State.goto, update_idle]

theorem run_room (hidle : s.pc t = .idle) (hroom : s.count.toInt < maxHostFns)
    (callback : Option Cb) (ok : Bool) :
    Transition.run State.step s
        [.call t callback, .next t, .next t, .next t, .next t, .create t ok] =
      some { s with
        count := s.count + 1
        callbacks := Function.update s.callbacks s.count.toInt callback
        nextCall := s.nextCall + 1
        log := s.log ++ [.stored s.nextCall s.count.toInt callback,
          .returned s.nextCall (if ok then 0 else -1)] } := by
  have hroom := Int.not_le.mpr hroom
  simp only [Transition.run, State.step, hidle, State.goto, Option.bind_fun_some, Option.bind_some,
    Function.update_self, hroom, if_false, Function.update_idem, update_idle, List.append_assoc,
    List.cons_append, List.nil_append]

section Sequential

variable {Ctx Name : Type} [DecidableEq Ctx] [DecidableEq Name]
variable {process : Process Ctx Name Cb}

section

omit [DecidableEq Thread] [DecidableEq Ctx] [DecidableEq Name]

/-- The threads see the table of a process. -/
structure Agrees (s : State Thread Cb) (process : Process Ctx Name Cb) : Prop where
  fits : process.callbackCount ≤ maxHostFns
  count : s.count = BitVec.ofNat 32 process.callbackCount
  callbacks : ∀ i : Nat, s.callbacks i = process.callbacks i

theorem Agrees.toInt (h : Agrees s process) : s.count.toInt = process.callbackCount := by
  have hfits := h.fits
  unfold maxHostFns at hfits
  rw [h.count]
  exact toInt_ofNat (by omega)

end

theorem register_code {r : Registration Ctx Name Cb} (hroom : process.callbackCount < maxHostFns) :
    (register process r).1 = if r.created && r.stored then 0 else -1 := by
  rw [register, if_neg (Nat.not_le.mpr hroom)]
  simp only [if_neg (Nat.not_le.mpr hroom)]
  cases r.created <;> cases r.stored <;> rfl

omit [DecidableEq Thread] in
def Label.thread : Label Thread Cb → Thread
  | .call t _ => t
  | .next t => t
  | .create t _ => t

/-- A call that no other thread interrupts does what `register` does, and returns the same
code. -/
theorem register_uninterrupted (h : Agrees s process) (hidle : s.pc t = .idle)
    (r : Registration Ctx Name Cb) :
    ∃ ls s', (∀ l ∈ ls, Label.thread l = t) ∧ Transition.run State.step s ls = some s' ∧
      Agrees s' (register process r).2 ∧ s'.pc = s.pc ∧
      s'.log.getLast? =
        some (if maxHostFns ≤ process.callbackCount then .refused s.nextCall
          else .returned s.nextCall (register process r).1) := by
  have hfits := h.fits
  have hcount := h.toInt
  by_cases hroom : process.callbackCount < maxHostFns
  · obtain ⟨hnext, hslots⟩ := register_room (r := r) hroom
    refine ⟨_, _, ?_, run_room hidle (by omega) r.callback (r.created && r.stored), ?_, rfl, ?_⟩
    · simp [Label.thread]
    · refine ⟨by omega, ?_, ?_⟩
      · rw [hnext]
        exact add_one_of_count h.count
      · intro i
        rw [hslots, hcount]
        dsimp only
        by_cases hi : i = process.callbackCount
        · rw [hi, Function.update_self, Function.update_self]
        · rw [Function.update_of_ne hi, Function.update_of_ne (by omega)]
          exact h.callbacks i
    · rw [if_neg (Nat.not_le.mpr hroom), register_code hroom]
      simp
  · refine ⟨_, _, ?_, run_full hidle (by omega) r.callback, ?_, rfl, ?_⟩
    · simp [Label.thread]
    · rw [register_full (Nat.not_lt.mp hroom)]
      exact ⟨hfits, h.count, h.callbacks⟩
    · rw [if_pos (Nat.not_lt.mp hroom)]
      simp

end Sequential

/-! ## Too many threads -/

section Overflow

variable {T : Nat}

theorem reachable_counting (Cb : Type) (hT : 0 < T) (k : Nat) (hk : k < maxHostFns) :
    ∃ s : State (Fin T) Cb, Reachable s ∧ s.count = BitVec.ofNat 32 k ∧ ∀ t, s.pc t = .idle := by
  induction k with
  | zero => exact ⟨.fresh, .init, rfl, fun _ => rfl⟩
  | succ k ih =>
    obtain ⟨s, hreach, hcount, hidle⟩ := ih (by omega)
    have hroom : s.count.toInt < maxHostFns := by
      unfold maxHostFns at hk ⊢
      rw [hcount, toInt_ofNat (by omega)]
      omega
    refine ⟨_, hreach.run (.of_forall fun _ _ _ => trivial)
      (run_room (hidle ⟨0, hT⟩) hroom none true), add_one_of_count hcount, hidle⟩

/-- Threads read the last count below the limit, one after the other. -/
theorem reachable_reading (Cb : Type) (hT : 0 < T) (j : Nat) (hj : j ≤ T) :
    ∃ s : State (Fin T) Cb, Reachable s ∧ s.count = BitVec.ofNat 32 65535 ∧
      ∀ t, if t.val < j then ∃ call callback, s.pc t = .adding call callback
        else s.pc t = .idle := by
  induction j with
  | zero =>
    obtain ⟨s, hreach, hcount, hidle⟩ := reachable_counting Cb hT 65535 (by decide)
    exact ⟨s, hreach, hcount, by simpa using hidle⟩
  | succ j ih =>
    obtain ⟨s, hreach, hcount, hpc⟩ := ih (by omega)
    have hidle : s.pc ⟨j, hj⟩ = .idle := by simpa using hpc ⟨j, hj⟩
    have hroom : ¬ (maxHostFns : Int) ≤ s.count.toInt := by
      rw [hcount]
      decide
    have hrun : Transition.run State.step s [.call ⟨j, hj⟩ none, .next ⟨j, hj⟩] =
        some { s.goto ⟨j, hj⟩ (.adding s.nextCall none) with nextCall := s.nextCall + 1 } := by
      simp [Transition.run, State.step, hidle, hroom, State.goto]
    refine ⟨_, hreach.run (.of_forall fun _ _ _ => trivial) hrun, hcount, ?_⟩
    intro t
    by_cases ht : t = ⟨j, hj⟩
    · subst ht
      rw [if_pos (Nat.lt_succ_self j)]
      exact ⟨s.nextCall, none, Function.update_self ..⟩
    · have hstay : Function.update s.pc ⟨j, hj⟩ (.adding s.nextCall none) t = s.pc t :=
        Function.update_of_ne ht ..
      have hval : t.val ≠ j := fun h => ht (Fin.ext h)
      have hpct := hpc t
      simp only [goto_pc, hstay]
      split
      · rwa [if_pos (by omega)] at hpct
      · rwa [if_neg (by omega)] at hpct

/-- Then they draw their indices, the first of them the last slot of the table. -/
theorem reachable_adding (Cb : Type) (hT : 0 < T) (j : Nat) (hj : j < T) :
    ∃ s : State (Fin T) Cb, Reachable s ∧ s.count = BitVec.ofNat 32 (65536 + j) ∧
      (∃ call callback, s.pc ⟨0, hT⟩ = .checking call callback 65535) ∧
      ∀ t, j < t.val → ∃ call callback, s.pc t = .adding call callback := by
  induction j with
  | zero =>
    obtain ⟨s, hreach, hcount, hpc⟩ := reachable_reading Cb hT T (Nat.le_refl T)
    have hadding : ∀ t, ∃ call callback, s.pc t = .adding call callback := by
      intro t
      simpa [t.isLt] using hpc t
    obtain ⟨call, callback, hzero⟩ := hadding ⟨0, hT⟩
    have hstep : s.step (.next ⟨0, hT⟩) =
        some { s.goto ⟨0, hT⟩ (.checking call callback s.count.toInt) with
          count := s.count + 1 } := by
      simp [State.step, hzero]
    refine ⟨_, hreach.next _ trivial hstep, add_one_of_count hcount, ⟨call, callback, ?_⟩, ?_⟩
    · simp only [goto_pc, Function.update_self, hcount]
      rfl
    · intro t ht
      have hne : t ≠ ⟨0, hT⟩ := fun h => by simp [h] at ht
      simp only [goto_pc, Function.update_of_ne hne]
      exact hadding t
  | succ j ih =>
    obtain ⟨s, hreach, hcount, ⟨call, callback, hzero⟩, hadding⟩ := ih (by omega)
    obtain ⟨call', callback', hj'⟩ := hadding ⟨j + 1, hj⟩ (Nat.lt_succ_self j)
    have hstep : s.step (.next ⟨j + 1, hj⟩) =
        some { s.goto ⟨j + 1, hj⟩ (.checking call' callback' s.count.toInt) with
          count := s.count + 1 } := by
      simp [State.step, hj']
    refine ⟨_, hreach.next _ trivial hstep, add_one_of_count hcount, ⟨call, callback, ?_⟩, ?_⟩
    · have hne : (⟨0, hT⟩ : Fin T) ≠ ⟨j + 1, hj⟩ := fun h => by simp at h
      simp only [goto_pc, Function.update_of_ne hne]
      exact hzero
    · intro t ht
      have hne : t ≠ ⟨j + 1, hj⟩ := fun h => by simp [h] at ht
      simp only [goto_pc, Function.update_of_ne hne]
      exact hadding t (by omega)

/-- One thread more than `registration_safe` admits can take the counter around to the least
`int`, while the thread with the last slot has yet to store to it. -/
theorem exists_not_safe (hT : 2147418113 ≤ T) :
    ∃ s : State (Fin T) Cb, Reachable s ∧ ¬ s.Safe := by
  have hpos : 0 < T := by omega
  obtain ⟨s, hreach, hcount, ⟨call, callback, hzero⟩, -⟩ :=
    reachable_adding Cb hpos 2147418112 (by omega)
  have hrun : Transition.run State.step s [.next ⟨0, hpos⟩, .next ⟨0, hpos⟩] =
      some { s.goto ⟨0, hpos⟩ (.creating call) with
        callbacks := Function.update s.callbacks 65535 callback
        log := s.log ++ [.stored call 65535 callback] } := by
    simp [Transition.run, State.step, hzero, State.goto, maxHostFns]
  refine ⟨_, hreach.run (.of_forall fun _ _ _ => trivial) hrun, ?_⟩
  intro hsafe
  have hcheck := hsafe.dispatched call 65535 callback (by simp)
  rw [State.indexCheck] at hcheck
  simp only [goto_count, hcount] at hcheck
  exact absurd hcheck (by decide)

end Overflow

end Proofs

/-! ## Runs -/

/-- Two threads that both read the count before either adds to it. -/
theorem registration_safe_of_two_threads :
    ∃ s : State (Fin 2) Nat, Transition.run State.step State.fresh
        [.call 0 (some 7), .call 1 (some 8), .next 0, .next 1, .next 1, .next 0, .next 0, .next 0,
          .next 1, .next 1] = some s ∧
      s.log = [.stored 0 1 (some 7), .stored 1 0 (some 8)] ∧ s.Safe := by
  obtain ⟨s, hrun, hlog⟩ : ∃ s : State (Fin 2) Nat, Transition.run State.step State.fresh
      [.call 0 (some 7), .call 1 (some 8), .next 0, .next 1, .next 1, .next 0, .next 0, .next 0,
        .next 1, .next 1] = some s ∧ s.log = [.stored 0 1 (some 7), .stored 1 0 (some 8)] :=
    ⟨_, rfl, rfl⟩
  exact ⟨s, hrun, hlog, registration_safe (by simp) (Transition.reachable_of_run hrun)⟩

theorem registration_overflow :
    ∃ s : State (Fin 2147418113) Unit, Reachable s ∧ ¬ s.Safe :=
  exists_not_safe (Nat.le_refl _)

end Bridge.Interleaved
