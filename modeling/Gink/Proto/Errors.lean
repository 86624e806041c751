/-
  Gink.Proto.Errors — the exceptions the modelled code raises.

  Each constructor is one Python exception class; the text is the fixed part of
  the message the source passes to it (interpolated values are left out).
-/
import Mathlib

namespace Gink

inductive Error where
  | valueError (message : String)
  | keyError (message : String)
  | typeError (message : String)
  | assertionError (message : String)
  | notImplementedError (message : String)
  | indexError
  /-- `struct.error`: a number does not fit its packed field. -/
  | structError
  /-- `google.protobuf.message.DecodeError`. -/
  | decodeError
  /-- `nacl.exceptions.BadSignatureError`. -/
  | badSignatureError
  /-- `nacl.exceptions.CryptoError`. -/
  | cryptoError
  /-- `lmdb.BadValsizeError`. -/
  | badValsizeError (message : String)
  /-- Whatever the callback handed to the store raises. -/
  | callbackError
  | runtimeError (message : String)
  /-- `BrokenPipeError`. -/
  | brokenPipeError
  /-- Any other `OSError` of a socket, such as `ConnectionResetError`. -/
  | connectionError
  /-- `Finished` (typedefs.py): the selectable is done and is to be closed. -/
  | finished
  deriving DecidableEq, Repr

/-- `assert condition, message`. -/
def ensure (condition : Bool) (e : Error) : Except Error Unit :=
  if condition then .ok () else .error e

@[simp] theorem ensure_true (e : Error) : ensure true e = .ok () := rfl

@[simp] theorem ensure_false (e : Error) : ensure false e = .error e := rfl

/-- The value of an optional, or an exception. -/
def orRaise {α : Type} (e : Error) : Option α → Except Error α
  | some a => .ok a
  | none => .error e

@[simp] theorem orRaise_some {α : Type} (e : Error) (a : α) : orRaise e (some a) = .ok a := rfl

@[simp] theorem orRaise_none {α : Type} (e : Error) :
    orRaise e (none : Option α) = .error e := rfl

/-! ## Inverting a computation that succeeded. -/

theorem bind_eq_ok {α β : Type} {x : Except Error α} {f : α → Except Error β} {b : β} :
    (x >>= f) = .ok b ↔ ∃ a, x = .ok a ∧ f a = .ok b := by
  cases x with
  | error e => simp [bind, Except.bind]
  | ok a => simp [bind, Except.bind]

theorem map_eq_ok {α β : Type} {x : Except Error α} {f : α → β} {b : β} :
    f <$> x = .ok b ↔ ∃ a, x = .ok a ∧ f a = b := by
  cases x with
  | error e => simp [Functor.map, Except.map]
  | ok a => simp [Functor.map, Except.map]

theorem pure_eq_ok {α : Type} {a b : α} : (pure a : Except Error α) = .ok b ↔ a = b := by
  simp [pure, Except.pure]

theorem ensure_eq_ok {c : Bool} {e : Error} {u : Unit} : ensure c e = .ok u ↔ c = true := by
  cases c <;> simp [ensure]

theorem orRaise_eq_ok {α : Type} {e : Error} {o : Option α} {a : α} :
    orRaise e o = .ok a ↔ o = some a := by
  cases o <;> simp [orRaise]

theorem throw_ne_ok {α : Type} {e : Error} {a : α} :
    (throw e : Except Error α) ≠ .ok a := by
  simp [throw, throwThe, MonadExceptOf.throw]

theorem toOption_eq_some {α : Type} {x : Except Error α} {a : α} :
    x.toOption = some a ↔ x = .ok a := by
  cases x <;> simp [Except.toOption]

end Gink
