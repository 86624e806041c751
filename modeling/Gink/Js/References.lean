/-
  Gink.Js.References — reading the references of a change in JavaScript (utils.ts,
  store_utils.ts).

  Both JavaScript stores take a change apart with the functions below.  A `Muid` object
  and a `MuidTuple` are the same three numbers, so they are one type here; numbers are
  integers, exact as far as a double is.  The builders give a reference that is not set
  and one set to an empty message the same value in a pair, a movement and a clearance:
  it is read as the one that is not set, `undefined` to these functions.
-/
import Gink.Proto.Coding

namespace Gink

namespace Js

/-! ## §1. Addresses. -/

/-- What is thrown: an `Error`, or the `TypeError` of the language. -/
structure JsError where
  message : String
  deriving DecidableEq, Repr

theorem bind_eq_ok {α β : Type} {x : Except JsError α} {f : α → Except JsError β} {b : β} :
    (x >>= f) = .ok b ↔ ∃ a, x = .ok a ∧ f a = .ok b := by
  cases x with
  | error e => simp [bind, Except.bind]
  | ok a => simp [bind, Except.bind]

theorem pure_eq_ok {α : Type} {a b : α} : (pure a : Except JsError α) = .ok b ↔ a = b := by
  simp [pure, Except.pure]

/-- `MuidTuple`, and the fields of a `Muid`. -/
structure MuidTuple where
  timestamp : Int
  medallion : Int
  offset : Int
  deriving DecidableEq, Repr

/-- The address a tuple spells, in its canonical form: `muidTupleToString` writes each
number in the digits of its field, negative ones in two's complement. -/
def MuidTuple.address (t : MuidTuple) : Muid :=
  ⟨Muid.field _ t.timestamp, Muid.field _ t.medallion, Muid.field _ t.offset⟩

/-- `{ timestamp, medallion, offset }` of the change being applied. -/
def changeAddress (info : BundleInfo) (offset : Nat) : MuidTuple :=
  ⟨info.timestamp.val, info.medallion.val, offset⟩

/-- `ensure(x, msg)` of a number. -/
def ensureNumber (x : Int) (msg : String) : Except JsError Int :=
  if x = 0 then .error ⟨msg⟩ else .ok x

/-- The methods of a submessage: `undefined` has none. -/
def message (b : MuidBuilder) : Except JsError MuidBuilder :=
  if b = {} then .error ⟨"Cannot read properties of undefined"⟩ else .ok b

/-- `builder.getTimestamp() || timestamp` and the same for the medallion; the offset as
it stands. -/
def filled (b : MuidBuilder) (timestamp medallion : Int) : MuidTuple :=
  ⟨orElse b.timestamp timestamp, orElse b.medallion medallion, b.offset⟩

/-- `builderToMuid(muidBuilder, relativeTo)`. -/
def builderToMuid (b : MuidBuilder) (relativeTo : MuidTuple) : Except JsError MuidTuple := do
  let offset ← ensureNumber b.offset "zero offset"
  return { filled b relativeTo.timestamp relativeTo.medallion with offset }

/-- The same three lines against the bundle, which `extractMovement` and the `build…List`
functions spell out. -/
def ofBundle (b : MuidBuilder) (info : BundleInfo) : MuidTuple :=
  filled b info.timestamp.val info.medallion.val

/-! ## §2. Movements and entries. -/

/-- `Movement`. -/
structure Movement where
  entryId : MuidTuple
  movementId : MuidTuple
  containerId : MuidTuple
  dest : Int
  purge : Bool
  deriving DecidableEq, Repr

/-- `extractMovement(changeBuilder, bundleInfo, offset)`. -/
def extractMovement (movementBuilder : MovementBuilder) (info : BundleInfo) (offset : Nat) :
    Except JsError Movement := do
  let entryMuid ← message movementBuilder.entry
  return {
    entryId := ofBundle entryMuid info
    movementId := changeAddress info offset
    containerId :=
      if movementBuilder.container = {} then ⟨0, 0, 0⟩ else ofBundle movementBuilder.container info
    dest := movementBuilder.dest
    purge := movementBuilder.purge }

/-- `extractContainerMuid(entryBuilder, bundleInfo)`. -/
def extractContainerMuid (entryBuilder : EntryBuilder) (info : BundleInfo) :
    Except JsError MuidTuple := do
  match entryBuilder.container with
  | none => throw ⟨"Cannot read properties of undefined"⟩
  | some srcMuid => return ofBundle srcMuid info

/-- `buildPointeeList(entryBuilder, bundleInfo)`. -/
def buildPointeeList (pointee : MuidBuilder) (info : BundleInfo) : List MuidTuple :=
  [ofBundle pointee info]

/-- `buildPairLists(entryBuilder, bundleInfo)`. -/
def buildPairLists (pair : Pair) (info : BundleInfo) :
    Except JsError (List MuidTuple × List MuidTuple) := do
  let left ← message pair.left
  let rite ← message pair.rite
  return ([ofBundle left info], [ofBundle rite info])

/-! ## §3. Storage keys. -/

/-- `StorageKey`: a scalar, a muid tuple, a pair of them, or `[]`. -/
inductive StorageKey where
  | number (n : Int)
  | characters (s : String)
  | octets (b : Bytes)
  | empty
  | muid (m : MuidTuple)
  | pair (left rite : MuidTuple)
  deriving DecidableEq, Repr

/-- `unwrapKey(keyBuilder)`. -/
def unwrapKey : Option UserKey → Except JsError StorageKey
  | some (.characters s) => .ok (.characters s)
  | some (.number n) => .ok (.number n)
  | some (.octets b) => .ok (.octets b)
  | none => .error ⟨"value isn't a number or string!"⟩

/-- `getStorageKey(entryBuilder, entryMuid)`. -/
def getStorageKey (entryBuilder : EntryBuilder) (entryMuid : MuidTuple) :
    Except JsError StorageKey :=
  match entryBuilder.behavior with
  | .directory | .keySet =>
      match entryBuilder.subject with
      | some (.key key) => unwrapKey key
      | _ => .error ⟨"assert failed"⟩
  | .sequence | .edgeType => .ok (.number (orElse entryBuilder.effective entryMuid.timestamp))
  | .box | .vertex | .accumulator => .ok .empty
  | .property | .group =>
      match entryBuilder.describing? with
      | some describing => (builderToMuid describing entryMuid).map .muid
      | none => .error ⟨"assert failed"⟩
  | .pairSet | .pairMap =>
      match entryBuilder.pair? with
      | some pair => do
          let left ← builderToMuid (← message pair.left) entryMuid
          let rite ← builderToMuid (← message pair.rite) entryMuid
          return .pair left rite
      | none => .error ⟨"assert failed"⟩
  | _ => .error ⟨"unexpected behavior"⟩

end Js

end Gink
