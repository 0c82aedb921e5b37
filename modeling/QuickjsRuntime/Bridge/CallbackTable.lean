import Mathlib.Data.List.Count
import Mathlib.Logic.Function.Basic

/-!
# The host callback table

Host functions live in one table of the process, shared by all runtimes. A registration
takes the next index, stores its callback there and installs a C function on the global
object of its context; the index reaches `qjs_dispatch` again through the `magic` field of
that C function, which the engine keeps in sixteen bits and passes back sign-extended.

Names follow `native/quickjs_bridge.c` (`g_callbacks`, `g_callback_count`, `qjs_dispatch`,
`qjs_register_host_fn`) and the `cfunc` part of a function object in `quickjs.c`.
-/

namespace Bridge

/-- `MAX_HOST_FNS`. -/
def maxHostFns : Nat := 65536

/-- The `u.cfunc` part of a function object whose C function is `qjs_dispatch`. -/
structure CFunction where
  magic : BitVec 16
deriving DecidableEq, Repr

/-- `JS_NewCFunction2` with `JS_CFUNC_generic_magic`: the index is cut to `int16_t`. -/
def newCFunction (index : Nat) : CFunction where
  magic := BitVec.ofNat 16 index

/-- The `int magic` argument a call of the function passes. -/
def CFunction.magicArg (fn : CFunction) : Int :=
  fn.magic.toInt

/-- What a property of a global object holds, as far as host functions go. -/
inductive GlobalValue where
  | hostFn (fn : CFunction)
  | other
deriving DecidableEq, Repr

/-- The state of the process that registration and dispatch read. A `none` slot of the
table is a null pointer, the initial contents of the static array. -/
structure Process (Ctx Name Cb : Type) where
  callbacks : Nat → Option Cb
  callbackCount : Nat
  globals : Ctx → Name → Option GlobalValue

/-- A call of `qjs_register_host_fn`. The engine decides whether the function object can
be created and whether the property of the global object can be set. -/
structure Registration (Ctx Name Cb : Type) where
  ctx : Ctx
  name : Name
  callback : Option Cb
  created : Bool
  stored : Bool

/-- What happens to the table and to the global objects, over all runtimes. -/
inductive TableOp (Ctx Name Cb : Type) where
  | register (r : Registration Ctx Name Cb)
  /-- A script or a `setGlobal` call writes or deletes a global. -/
  | assign (ctx : Ctx) (name : Name) (value : Option GlobalValue)
  /-- `qjs_reset_callbacks`, which every new runtime calls. -/
  | resetCallbacks

section Model

variable {Ctx Name Cb : Type} [DecidableEq Ctx] [DecidableEq Name]

/-- A process in which nothing has been registered. -/
def Process.start : Process Ctx Name Cb where
  callbacks _ := none
  callbackCount := 0
  globals _ _ := none

def Process.setGlobal (s : Process Ctx Name Cb) (ctx : Ctx) (name : Name)
    (value : Option GlobalValue) : Process Ctx Name Cb :=
  { s with
    globals := Function.update s.globals ctx (Function.update (s.globals ctx) name value) }

/-- `qjs_register_host_fn`, with its return code. -/
def register (s : Process Ctx Name Cb) (r : Registration Ctx Name Cb) :
    Int × Process Ctx Name Cb :=
  if maxHostFns ≤ s.callbackCount then (-1, s)
  else
    let index := s.callbackCount
    let s := { s with callbackCount := s.callbackCount + 1 }
    if maxHostFns ≤ index then (-1, s)
    else
      let s := { s with callbacks := Function.update s.callbacks index r.callback }
      -- the index stays taken when the engine fails from here on
      if r.created = false then (-1, s)
      else if r.stored = false then (-1, s)
      else (0, s.setGlobal r.ctx r.name (some (.hostFn (newCFunction index))))

def applyOp (s : Process Ctx Name Cb) : TableOp Ctx Name Cb → Process Ctx Name Cb
  | .register r => (register s r).2
  | .assign ctx name value => s.setGlobal ctx name value
  | .resetCallbacks => s

def applyOps (s : Process Ctx Name Cb) (ops : List (TableOp Ctx Name Cb)) :
    Process Ctx Name Cb :=
  ops.foldl applyOp s

omit [DecidableEq Ctx] [DecidableEq Name] in
/-- The index check of `qjs_dispatch`: the callback the call goes to, or the text of the
`TypeError`. -/
def dispatchTarget (s : Process Ctx Name Cb) (magic : Int) : Except String Cb :=
  if magic < 0 ∨ s.callbackCount ≤ magic then
    .error ("invalid host callback index " ++ toString magic)
  else
    match s.callbacks magic.toNat with
    | some callback => .ok callback
    | none => .error ("invalid host callback index " ++ toString magic)

omit [DecidableEq Ctx] [DecidableEq Name] in
/-- Calling the global `name` of a context; `none` when it holds no host function. -/
def callGlobal (s : Process Ctx Name Cb) (ctx : Ctx) (name : Name) :
    Option (Except String Cb) :=
  match s.globals ctx name with
  | some (.hostFn fn) => some (dispatchTarget s fn.magicArg)
  | _ => none

/-- The operation writes the global `name` of the context. -/
def TableOp.Writes (ctx : Ctx) (name : Name) : TableOp Ctx Name Cb → Prop
  | .register r => r.ctx = ctx ∧ r.name = name
  | .assign c n _ => c = ctx ∧ n = name
  | .resetCallbacks => False

def TableOp.isRegister : TableOp Ctx Name Cb → Bool
  | .register _ => true
  | _ => false

/-- The number of registrations among the operations, failed ones included. -/
def registrations (ops : List (TableOp Ctx Name Cb)) : Nat :=
  ops.countP TableOp.isRegister

end Model

/-! ## The index in sixteen bits -/

/-- The upper half of the table's indices comes back negative. -/
theorem magicArg_newCFunction {index : Nat} (hindex : index < maxHostFns) :
    (newCFunction index).magicArg =
      if index < 32768 then (index : Int) else (index : Int) - 65536 := by
  unfold maxHostFns at hindex
  have hmod : index % 2 ^ 16 = index := Nat.mod_eq_of_lt hindex
  simp only [CFunction.magicArg, newCFunction, BitVec.toInt_eq_toNat_cond, BitVec.toNat_ofNat, hmod]
  by_cases hlow : index < 32768
  · rw [if_pos hlow, if_pos (by omega)]
  · rw [if_neg hlow, if_neg (by omega)]
    rfl

section Proofs

variable {Ctx Name Cb : Type} [DecidableEq Ctx] [DecidableEq Name]
variable {s : Process Ctx Name Cb} {r : Registration Ctx Name Cb}
variable {ctx : Ctx} {name : Name}

/-! ## One registration -/

theorem register_full (hfull : maxHostFns ≤ s.callbackCount) : register s r = (-1, s) :=
  if_pos hfull

/-- While there is room a registration takes the next index, whether or not it succeeds. -/
theorem register_room (hroom : s.callbackCount < maxHostFns) :
    (register s r).2.callbackCount = s.callbackCount + 1 ∧
      (register s r).2.callbacks = Function.update s.callbacks s.callbackCount r.callback := by
  rw [register, if_neg (Nat.not_le.mpr hroom)]
  simp only [if_neg (Nat.not_le.mpr hroom)]
  split
  · exact ⟨rfl, rfl⟩
  · split <;> exact ⟨rfl, rfl⟩

theorem room_of_register_ok (hok : (register s r).1 = 0) : s.callbackCount < maxHostFns := by
  by_contra hfull
  rw [register_full (Nat.not_lt.mp hfull)] at hok
  cases hok

theorem register_ok (hroom : s.callbackCount < maxHostFns) (hcreated : r.created = true)
    (hstored : r.stored = true) : (register s r).1 = 0 := by
  rw [register, if_neg (Nat.not_le.mpr hroom)]
  simp [Nat.not_le.mpr hroom, hcreated, hstored]

theorem register_globals_ok (hok : (register s r).1 = 0) :
    (register s r).2.globals r.ctx r.name = some (.hostFn (newCFunction s.callbackCount)) := by
  have hroom := Nat.not_le.mpr (room_of_register_ok hok)
  rw [register, if_neg hroom] at hok ⊢
  simp only [if_neg hroom] at hok ⊢
  split at hok
  · cases hok
  · split at hok
    · cases hok
    · next hcreated hstored => simp [hcreated, hstored, Process.setGlobal]

theorem setGlobal_globals_of_ne {c : Ctx} {n : Name} {value : Option GlobalValue}
    (hne : ¬ (c = ctx ∧ n = name)) :
    (s.setGlobal c n value).globals ctx name = s.globals ctx name := by
  simp only [Process.setGlobal]
  by_cases hctx : ctx = c
  · subst hctx
    have hname : name ≠ n := fun h => hne ⟨rfl, h.symm⟩
    rw [Function.update_self, Function.update_of_ne hname]
  · rw [Function.update_of_ne hctx]

theorem register_globals_of_ne (hne : ¬ (r.ctx = ctx ∧ r.name = name)) :
    (register s r).2.globals ctx name = s.globals ctx name := by
  unfold register
  split
  · rfl
  · dsimp only
    split
    · rfl
    · split
      · rfl
      · split
        · rfl
        · exact setGlobal_globals_of_ne hne

/-! ## Runs -/

theorem applyOps_append (xs ys : List (TableOp Ctx Name Cb)) :
    applyOps s (xs ++ ys) = applyOps (applyOps s xs) ys :=
  List.foldl_append

/-- A registration has taken `index`: the slot holds its callback and the global the
function made for that index. -/
structure Installed (s : Process Ctx Name Cb) (index : Nat) (ctx : Ctx) (name : Name)
    (callback : Option Cb) : Prop where
  taken : index < s.callbackCount
  slot : s.callbacks index = callback
  function : s.globals ctx name = some (.hostFn (newCFunction index))

theorem installed_of_register (hok : (register s r).1 = 0) :
    Installed (register s r).2 s.callbackCount r.ctx r.name r.callback := by
  obtain ⟨hcount, hcallbacks⟩ := register_room (r := r) (room_of_register_ok hok)
  refine ⟨?_, ?_, register_globals_ok hok⟩
  · rw [hcount]
    exact Nat.lt_succ_self _
  · rw [hcallbacks, Function.update_self]

/-- Indices are never handed out again, so only a write to the global undoes a
registration. -/
theorem Installed.applyOp {index : Nat} {callback : Option Cb} {op : TableOp Ctx Name Cb}
    (h : Installed s index ctx name callback) (hop : ¬ op.Writes ctx name) :
    Installed (applyOp s op) index ctx name callback := by
  cases op with
  | resetCallbacks => exact h
  | assign c n value =>
    exact ⟨h.taken, h.slot, (setGlobal_globals_of_ne hop).trans h.function⟩
  | register r =>
    have hglobal := (register_globals_of_ne (s := s) hop).trans h.function
    by_cases hfull : maxHostFns ≤ s.callbackCount
    · have hsame : (register s r).2 = s := by rw [register_full hfull]
      simpa only [Bridge.applyOp, hsame] using h
    · obtain ⟨hcount, hcallbacks⟩ := register_room (r := r) (Nat.not_le.mp hfull)
      refine ⟨?_, ?_, hglobal⟩
      · rw [Bridge.applyOp, hcount]
        exact Nat.lt_succ_of_lt h.taken
      · rw [Bridge.applyOp, hcallbacks, Function.update_of_ne (Nat.ne_of_lt h.taken)]
        exact h.slot

theorem Installed.applyOps {index : Nat} {callback : Option Cb}
    {ops : List (TableOp Ctx Name Cb)} (h : Installed s index ctx name callback)
    (hops : ∀ op ∈ ops, ¬ op.Writes ctx name) :
    Installed (applyOps s ops) index ctx name callback := by
  induction ops generalizing s with
  | nil => exact h
  | cons op ops ih =>
    exact ih (h.applyOp (hops op List.mem_cons_self))
      fun o ho => hops o (List.mem_cons_of_mem _ ho)

theorem applyOp_callbackCount (op : TableOp Ctx Name Cb) (hle : s.callbackCount ≤ maxHostFns) :
    (applyOp s op).callbackCount =
      min maxHostFns (s.callbackCount + if op.isRegister then 1 else 0) := by
  cases op with
  | resetCallbacks => exact (Nat.min_eq_right hle).symm
  | assign c n value => exact (Nat.min_eq_right hle).symm
  | register r =>
    simp only [applyOp, TableOp.isRegister, if_true]
    by_cases hfull : maxHostFns ≤ s.callbackCount
    · rw [register_full hfull]
      dsimp only
      omega
    · rw [(register_room (Nat.not_le.mp hfull)).1]
      omega

/-- The counter counts the registrations of all runtimes until the table is full. -/
theorem applyOps_callbackCount (ops : List (TableOp Ctx Name Cb))
    (hle : s.callbackCount ≤ maxHostFns) :
    (applyOps s ops).callbackCount = min maxHostFns (s.callbackCount + registrations ops) := by
  induction ops generalizing s with
  | nil => exact (Nat.min_eq_right hle).symm
  | cons op ops ih =>
    have hstep := applyOp_callbackCount op hle
    have hcons : registrations (op :: ops) =
        registrations ops + if op.isRegister then 1 else 0 := List.countP_cons
    rw [applyOps, List.foldl_cons, ← applyOps, ih (by omega), hstep, hcons]
    omega

/-! ## Dispatch -/

omit [DecidableEq Ctx] [DecidableEq Name] in
theorem Installed.callGlobal_of_low {index : Nat} {callback : Cb}
    (h : Installed s index ctx name (some callback)) (hlow : index < 32768) :
    callGlobal s ctx name = some (.ok callback) := by
  have hmagic : (newCFunction index).magicArg = index := by
    rw [magicArg_newCFunction (Nat.lt_trans hlow (by decide)), if_pos hlow]
  have htaken := h.taken
  simp only [callGlobal, h.function, dispatchTarget, hmagic]
  rw [if_neg (by omega), Int.toNat_natCast, h.slot]

omit [DecidableEq Ctx] [DecidableEq Name] in
theorem Installed.callGlobal_of_high {index : Nat} {callback : Option Cb}
    (h : Installed s index ctx name callback) (hindex : index < maxHostFns)
    (hhigh : 32768 ≤ index) :
    callGlobal s ctx name =
      some (.error ("invalid host callback index " ++ toString ((index : Int) - 65536))) := by
  have hmagic : (newCFunction index).magicArg = (index : Int) - 65536 := by
    rw [magicArg_newCFunction hindex, if_neg (Nat.not_lt.mpr hhigh)]
  unfold maxHostFns at hindex
  simp only [callGlobal, h.function, dispatchTarget, hmagic]
  rw [if_pos (Or.inl (by omega))]

/-- The function a successful registration installed calls the registration's own callback
exactly when the callback is not null and fewer than `2 ^ 15` registrations were made in
the process before it. -/
theorem callGlobal_own_iff (before after : List (TableOp Ctx Name Cb))
    (r : Registration Ctx Name Cb) (hok : (register (applyOps .start before) r).1 = 0)
    (hafter : ∀ op ∈ after, ¬ op.Writes r.ctx r.name) :
    (∃ callback, r.callback = some callback ∧
        callGlobal (applyOps .start (before ++ .register r :: after)) r.ctx r.name =
          some (.ok callback)) ↔
      r.callback.isSome ∧ registrations before < 32768 := by
  have hinstalled : Installed (applyOps (applyOps .start before) (.register r :: after)) _
      r.ctx r.name r.callback := (installed_of_register hok).applyOps hafter
  have hroom := room_of_register_ok hok
  have hcount : (applyOps .start before : Process Ctx Name Cb).callbackCount =
      registrations before := by
    have hmin := applyOps_callbackCount (s := .start) before (Nat.zero_le _)
    have hzero : (Process.start : Process Ctx Name Cb).callbackCount = 0 := rfl
    omega
  rw [hcount] at hinstalled hroom
  rw [applyOps_append]
  constructor
  · rintro ⟨callback, hcallback, hcall⟩
    refine ⟨by simp [hcallback], ?_⟩
    by_contra hhigh
    rw [hinstalled.callGlobal_of_high hroom (Nat.not_lt.mp hhigh)] at hcall
    cases hcall
  · rintro ⟨hsome, hlow⟩
    obtain ⟨callback, hcallback⟩ := Option.isSome_iff_exists.mp hsome
    rw [hcallback] at hinstalled
    exact ⟨callback, hcallback, hinstalled.callGlobal_of_low hlow⟩

end Proofs

/-! ## Full runs -/

/-- A registration that the engine lets through, in the only context. -/
def plainRegistration (callback : Nat) : Registration Unit String Nat where
  ctx := ()
  name := "hook"
  callback := some callback
  created := true
  stored := true

theorem callGlobal_own_of_two_registrations :
    (∃ callback, (plainRegistration 7).callback = some callback ∧
      callGlobal (applyOps .start
          ([.register (plainRegistration 3), .resetCallbacks] ++
            .register (plainRegistration 7) :: [.assign () "other" none])) () "hook" =
        some (.ok callback)) := by
  have hafter : ∀ op ∈ ([.assign () "other" none] : List (TableOp Unit String Nat)),
      ¬ op.Writes () "hook" := by
    intro op hop
    rw [List.mem_singleton.mp hop]
    exact fun h => absurd h.2 (by decide)
  exact (callGlobal_own_iff _ _ (plainRegistration 7) (by decide) hafter).mpr
    ⟨rfl, by decide⟩

theorem registrations_replicate (n : Nat) (r : Registration Unit String Nat) :
    registrations (List.replicate n (.register r)) = n := by
  rw [registrations, List.countP_replicate]
  rfl

theorem callGlobal_of_count_32768 {s : Process Unit String Nat}
    (hcount : s.callbackCount = 32768) :
    (register s (plainRegistration 7)).1 = 0 ∧
      callGlobal (applyOps s [.register (plainRegistration 7)]) () "hook" =
        some (.error "invalid host callback index -32768") := by
  have hok : (register s (plainRegistration 7)).1 = 0 :=
    register_ok (by rw [hcount]; decide) rfl rfl
  have hinstalled := installed_of_register hok
  rw [hcount] at hinstalled
  exact ⟨hok, hinstalled.callGlobal_of_high (by decide) (Nat.le_refl _)⟩

/-- The registration with number `2 ^ 15` succeeds, and calling the function it installed
raises the error for an invalid index. -/
theorem registration_32768_unreachable :
    (register (applyOps .start (List.replicate 32768 (.register (plainRegistration 3))))
        (plainRegistration 7)).1 = 0 ∧
      callGlobal (applyOps .start
          (List.replicate 32768 (.register (plainRegistration 3)) ++
            [.register (plainRegistration 7)])) () "hook" =
        some (.error "invalid host callback index -32768") := by
  rw [applyOps_append]
  apply callGlobal_of_count_32768
  rw [applyOps_callbackCount _ (Nat.zero_le _), registrations_replicate]
  decide

end Bridge
