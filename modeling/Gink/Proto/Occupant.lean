/-
  Gink.Proto.Occupant — what an entry says its container holds (coding.py).

  A reset compares what a key held at a time with what it holds now, as Python compares
  them, and writes the difference out as entries: a deleting entry, or an earlier entry
  with its references made absolute.
-/
import Gink.Proto.Coding
import Gink.Proto.Value
import Gink.Proto.Action

namespace Gink

/-! ## §1. Python's `==` on user values. -/

/-- The number a double's bits spell; NaN and the infinities spell none. -/
def doubleNumber (bits : U64) : Option ℚ :=
  let sign : ℚ := if bits.val < 2 ^ 63 then 1 else -1
  let exponent : Nat := bits.val / 2 ^ 52 % 2 ^ 11
  let fraction : Nat := bits.val % 2 ^ 52
  if exponent = 2 ^ 11 - 1 then none
  else if exponent = 0 then some (sign * fraction / 2 ^ 1074)
  else some (sign * (2 ^ 52 + fraction) * 2 ^ exponent / 2 ^ 1075)

/-- The bits spell an infinity. -/
def isInfinite (bits : U64) : Bool := decide (bits.val % 2 ^ 63 = (2 ^ 11 - 1) * 2 ^ 52)

/-- The number a bool, an int or a double stands for in a comparison. -/
def UserValue.number? : UserValue → Option ℚ
  | .bool b => some (if b then 1 else 0)
  | .int n => some n
  | .float bits => doubleNumber bits
  | _ => Option.none

mutual

/-- `a == b` of two user values: numbers are compared across their types, tuples item by
item and dicts key by key.  A NaN is equal to nothing. -/
def UserValue.pyEq : UserValue → UserValue → Bool
  | .none, .none => true
  | .str s, .str t => decide (s = t)
  | .bytes a, .bytes b => decide (a = b)
  | .datetime m, .datetime n => decide (m = n)
  | .float x, .float y => (isInfinite x && decide (x = y)) ||
      ((doubleNumber x).isSome && decide (doubleNumber x = doubleNumber y))
  | .tuple xs, .tuple ys => pyEqItems xs ys
  | .dict xs, .dict ys => decide (xs.length = ys.length) && pyEqFields xs ys
  | x, y => (UserValue.number? x).isSome && decide (UserValue.number? x = UserValue.number? y)

/-- Tuples have equal items in the same places. -/
def pyEqItems : List UserValue → List UserValue → Bool
  | [], [] => true
  | x :: xs, y :: ys => UserValue.pyEq x y && pyEqItems xs ys
  | _, _ => false

/-- Every item of the first dict is in the second one. -/
def pyEqFields : List (UserKey × UserValue) → List (UserKey × UserValue) → Bool
  | [], _ => true
  | (k, x) :: rest, ys =>
      (match ys.find? (fun item => item.1 = k) with
        | some item => UserValue.pyEq x item.2
        | none => false) && pyEqFields rest ys

end

/-! ## §2. Occupants. -/

/-- What `decode_entry_occupant` returns. -/
inductive Occupant where
  | value (v : UserValue)
  | muid (m : Muid)
  | pair (left rite : Muid)
  /-- `Deletion()` -/
  | deletion
  /-- `Inclusion()` -/
  | inclusion

/-- `a == b`. -/
def Occupant.pyEq : Occupant → Occupant → Bool
  | .value v, .value w => v.pyEq w
  | .muid m, .muid n => decide (m = n)
  | .pair l r, .pair l' r' => decide (l = l' ∧ r = r')
  | .deletion, .deletion => true
  | .inclusion, .inclusion => true
  | _, _ => false

/-- `isinstance(occupant, Muid)`, with the muid. -/
def Occupant.muid? : Occupant → Option Muid
  | .muid m => some m
  | _ => none

/-- `isinstance(occupant, Deletion)`. -/
def Occupant.isDeletion : Occupant → Bool
  | .deletion => true
  | _ => false

/-- `decode_entry_occupant(entry_muid, builder)`. -/
def decodeEntryOccupant (entryMuid : Muid) (builder : EntryBuilder) : Except Error Occupant :=
  if builder.deletion then .ok .deletion
  else match builder.pointee?, builder.value?, builder.pair? with
    | some pointee, _, _ => (resolve entryMuid.context pointee).map .muid
    | none, some value, _ => (decodeValue value).map .value
    | none, none, some pair => do
        let left ← resolve entryMuid.context pair.left
        let rite ← resolve entryMuid.context pair.rite
        return .pair left rite
    | none, none, none =>
        if builder.behavior = .group ∨ builder.behavior = .keySet then .ok .inclusion
        else .error (.valueError "can't interpret")

/-! ## §3. Entries a reset writes. -/

/-- `muid.put_into(builder)`. -/
def Muid.putInto (m : Muid) : MuidBuilder := ⟨m.timestamp, m.medallion, m.offset⟩

/-- `create_deleting_entry(muid, key, behavior)`. -/
def createDeletingEntry (muid : Muid) (key : MiddleKey) (behavior : Behavior) :
    Except Error EntryBuilder :=
  let entry : EntryBuilder :=
    { behavior, container := some muid.putInto, contains := some (.deletion true) }
  match behavior with
  | .directory | .keySet =>
      match key with
      | .key k => (encodeKey k).map fun _ => { entry with subject := some (.key (some k)) }
      | _ => .error (.assertionError "isinstance(key, (int, str, bytes))")
  | .box =>
      match key with
      | .none => .ok entry
      | _ => .error (.assertionError "key is None")
  | .property | .group =>
      match key with
      | .muid m => .ok { entry with subject := some (.describing m.putInto) }
      | _ => .error (.assertionError "isinstance(key, Muid)")
  | .pairSet | .pairMap =>
      match key with
      | .pair l r => .ok { entry with subject := some (.pair ⟨l.putInto, r.putInto⟩) }
      | _ => .error (.assertionError "isinstance(key, tuple)")
  | _ => .error (.runtimeError "don't know how to creating a deleting entry for behavior")

/-- `normalize_entry_builder(entry_builder, entry_muid)`: the references are made absolute
one after the other, in the builder itself. -/
def normalizeEntryBuilder (entryMuid : Muid) : Action EntryBuilder Unit := do
  let containerMuid ← Action.of (resolve entryMuid.context (← get).containerField)
  modify fun e => { e with container := some containerMuid.putInto }
  match (← get).describing? with
  | none => pure ()
  | some describing => do
      let describes ← Action.of (resolve entryMuid.context describing)
      modify fun e => { e with subject := some (.describing describes.putInto) }
  match (← get).pointee? with
  | none => pure ()
  | some pointee => do
      let pointeeMuid ← Action.of (resolve entryMuid.context pointee)
      modify fun e => { e with contains := some (.pointee pointeeMuid.putInto) }
  match (← get).pair? with
  | none => pure ()
  | some pair => do
      let left ← Action.of (resolve entryMuid.context pair.left)
      modify fun e => { e with subject := some (.pair { pair with left := left.putInto }) }
      let rite ← Action.of (resolve entryMuid.context pair.rite)
      modify fun e => { e with subject := some (.pair ⟨left.putInto, rite.putInto⟩) }

/-- The normalised copy of an entry. -/
def normalized (entryMuid : Muid) (builder : EntryBuilder) : Except Error EntryBuilder :=
  match normalizeEntryBuilder entryMuid builder with
  | .ok _ e => .ok e
  | .error err _ => .error err

end Gink
