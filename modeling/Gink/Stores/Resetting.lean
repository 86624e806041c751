/-
  Gink.Stores.Resetting — what the `get_reset_changes` of both stores have in common.

  The method is a generator of changes.  It goes through containers depth first; the set
  `seen` of the containers it has gone through, when it recurses at all, is kept as a list,
  the latest in front.
-/
import Gink.Proto.Occupant
import Gink.Machine.Generator

namespace Gink

open Machine (Generator)

/-- How a reset may stop: with an exception, or out of fuel. -/
inductive Halt where
  | raised (e : Error)
  | spent
  deriving DecidableEq, Repr

/-- `{}` or `None`: a reset that does not recurse keeps no set. -/
abbrev Seen := Option (List Muid)

/-- A computation that may raise, in a generator. -/
def attempt {σ α : Type} (x : Except Error α) : Generator Halt σ ChangeBuilder α :=
  Generator.of (x.mapError Halt.raised)

section
variable {σ α β : Type} {P : σ → Prop} {Q : ChangeBuilder → Prop} {R : α → Prop}

/-- What raises is not out of fuel. -/
theorem mapError_ne_spent {x : Except Error α} (e : Halt)
    (h : x.mapError Halt.raised = .error e) : e ≠ .spent := by
  cases x with
  | error err =>
      injection h with h
      rw [← h]
      exact Halt.noConfusion
  | ok a => cases h

theorem mapError_eq_ok {x : Except Error α} {a : α} :
    x.mapError Halt.raised = .ok a ↔ x = .ok a := by
  cases x <;> simp [Except.mapError]

theorem attempt_holds (x : Except Error α) :
    Generator.Holds P Q (· ≠ .spent) (attempt x : Generator Halt σ ChangeBuilder α) :=
  Generator.Holds.of mapError_ne_spent

theorem attempt_bind_holds {x : Except Error α} {f : α → Generator Halt σ ChangeBuilder β}
    (hf : ∀ a, x = .ok a → Generator.Holds P Q (· ≠ .spent) (f a)) :
    Generator.Holds P Q (· ≠ .spent) (attempt x >>= f) :=
  Generator.Holds.of_bind mapError_ne_spent fun a ha => hf a (mapError_eq_ok.mp ha)

theorem attempt_returns {x : Except Error α} (h : ∀ a, x = .ok a → R a) :
    Generator.Returns R (attempt x : Generator Halt σ ChangeBuilder α) :=
  Generator.Returns.of fun a ha => h a (mapError_eq_ok.mp ha)

end

/-- `if container in seen: return`, else `seen.add(container)`; whether to go on. -/
def enter (container : Muid) (seen : Seen) : Bool × Seen :=
  match seen with
  | none => (true, none)
  | some l => if container ∈ l then (false, some l) else (true, some (container :: l))

theorem enter_isSome (container : Muid) (seen : Seen) : (enter container seen).2.isSome = seen.isSome := by
  cases seen with
  | none => rfl
  | some l =>
      show (if container ∈ l then (false, some l) else (true, some (container :: l))).2.isSome = true
      split_ifs <;> rfl

/-- `if single_user_key:` -/
def UserKey.truthy : UserKey → Bool
  | .number n => decide (n ≠ 0)
  | .octets b => decide (b ≠ [])
  | .characters s => decide (s ≠ "")

/-- `serialize(encode_key(single_user_key))`, or nothing for `None`. -/
def userKeyBytes : Option UserKey → Except Error Bytes
  | none => .ok []
  | some k => encodeKey k

/-- The changes that remove an entry or bring it back to a position. -/
def movementOf (container entryMuid : Muid) (dest : Int) : ChangeBuilder :=
  .movement { container := container.putInto, entry := entryMuid.putInto, dest }

/-- The entry that restores the liveness of a vertex. -/
def vertexEntry (container : Muid) (wasDeleted : Bool) : EntryBuilder where
  behavior := .vertex
  container := some container.putInto
  contains := some (.deletion wasDeleted)

/-- `_get_accumulator_reset(container, to_time)`, of the two sums. -/
def accumulatorEntry (container : Muid) (previous current : Int) : EntryBuilder where
  behavior := .accumulator
  container := some container.putInto
  contains := some (.value (.integer (toString (-current + previous))))

end Gink
