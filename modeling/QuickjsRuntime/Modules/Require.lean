import Mathlib.Algebra.Group.Nat.Defs
import QuickjsRuntime.Bridge.Marshal
import QuickjsRuntime.Foundation.PlainObject

/-!
# Consumer modules and `require`

`installNodeCompatModule` of `lib/src/node_compat.dart` and the prelude's `compatRequire`.
A name is used twice: as it is for the key of the registry object, and with every other
code unit than a letter, a digit or `_` replaced for the global that holds the host
function. The registry's function calls the host function through that global.

Factories are values of a type of their own, with what they do when they are called given
by the `Host`, so that it can be said which factory a call of `require` reached.
-/

namespace Modules

open Utf16 (Text units)
open Bridge

/-- What a call of a factory comes to; `noModule` is the answer `null`. -/
inductive FactoryResult where
  | exports (json : Text)
  | noModule
  | threw
deriving DecidableEq, Repr

/-- The host functions of the table: the closures `installNodeCompatModule` registers, and
all others, by name. -/
inductive HostCallback (Factory : Type) where
  | module (factory : Factory)
  | other (name : Text)
deriving DecidableEq, Repr

/-- What lies outside the registry: how numbers are written, what factories and other host
functions answer, and whether `require` was a function when the layer was installed. -/
structure Host (Factory Num : Type) where
  fmt : JsNumberFormat Num
  run : Factory → Text → FactoryResult
  answer : Text → Text → Option Text
  baseRequire : Bool

/-- An own property of the registry: a function of a prelude, which returns a built-in
module, or the function `installNodeCompatModule` makes for a host function. -/
inductive RegistryEntry where
  | prelude
  | consumer (hostName : Text)
deriving DecidableEq, Repr

/-- A runtime with the compat layer installed. -/
structure Runtime (Ctx Factory : Type) where
  process : Process Ctx Text (HostCallback Factory)
  registry : PlainObject Text RegistryEntry

/-- A call of `installNodeCompatModule`. -/
structure Install (Factory : Type) where
  name : Text
  factory : Factory

inductive JsError where
  | error (message : Text)
  | typeError (message : String)
  /-- The global of that name is not defined. -/
  | referenceError (name : Text)
deriving DecidableEq, Repr

inductive Result (Num : Type) where
  /-- A value read from JSON, or `undefined`. -/
  | value (exports : Option (Json (JsNumber Num)))
  | builtin (name : Text)
  /-- What the pre-existing `require` does with the name. -/
  | loaded (name : Text)
  | raised (error : JsError)

/-- A call of `require`: the factories it reached, with the names they were given, and how
it ended. -/
structure Outcome (Factory Num : Type) where
  invoked : List (Factory × Text)
  result : Result Num

/-! ## Installing -/

def isWordUnit (u : Nat) : Bool :=
  (0x41 ≤ u && u ≤ 0x5A) || (0x61 ≤ u && u ≤ 0x7A) || (0x30 ≤ u && u ≤ 0x39) || u == 0x5F

/-- `_safeName` -/
def safeName (name : Text) : Text :=
  name.map fun u => if isWordUnit u then u else 0x5F

def moduleGlobal (safe : Text) : Text :=
  units "__ncModule_" ++ safe

section Model

variable {Ctx Factory Num : Type} [DecidableEq Ctx]

/-- The registration of a module's host function, whose return code is not looked at. -/
def moduleRegistration (ctx : Ctx) (install : Install Factory) :
    Registration Ctx Text (HostCallback Factory) where
  ctx := ctx
  name := moduleGlobal (safeName install.name)
  callback := some (.module install.factory)
  created := true
  stored := true

end Model

section Proofs

variable {Ctx Factory Num : Type} [DecidableEq Ctx]
variable {ctx : Ctx} {process : Process Ctx Text (HostCallback Factory)}
variable {host : Host Factory Num}

/-! ## Sequences of calls -/

theorem moduleGlobal_injective : Function.Injective moduleGlobal :=
  fun _ _ h => List.append_cancel_left h

/-- What the global of a host function holds after the calls. -/
def Holds (ctx : Ctx) (process : Process Ctx Text (HostCallback Factory)) (safe : Text) :
    Option (Install Factory × Nat) → Prop
  | none => process.globals ctx (moduleGlobal safe) = none
  | some (install, index) =>
    index < maxHostFns ∧
      Installed process index ctx (moduleGlobal safe) (some (.module install.factory))

theorem Holds.register {safe : Text} {held : Option (Install Factory × Nat)}
    (h : Holds ctx process safe held) (install : Install Factory) :
    Holds ctx (register process (moduleRegistration ctx install)).2 safe
      (if safeName install.name = safe ∧ process.callbackCount < maxHostFns then
        some (install, process.callbackCount) else held) := by
  by_cases hroom : process.callbackCount < maxHostFns
  · by_cases hsafe : safeName install.name = safe
    · rw [if_pos ⟨hsafe, hroom⟩]
      subst hsafe
      exact ⟨hroom, installed_of_register (register_ok hroom rfl rfl)⟩
    · rw [if_neg (fun hw => hsafe hw.1)]
      have hother : ¬ (TableOp.register (moduleRegistration ctx install)).Writes ctx
          (moduleGlobal safe) :=
        fun hw => hsafe (moduleGlobal_injective hw.2)
      cases held with
      | none => exact (register_globals_of_ne hother).trans h
      | some held => exact ⟨h.1, h.2.applyOp hother⟩
  · rw [if_neg (fun hw => hroom hw.2), register_full (Nat.not_lt.mp hroom)]
    exact h

end Proofs

/-! ## Runs -/

end Modules
