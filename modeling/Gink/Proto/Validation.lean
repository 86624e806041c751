/-
  Gink.Proto.Validation — `validate_bundle` (utilities.py).

  A relay checks the shape of every entry before it hands a bundle to its store: which
  members of the two `oneof`s an entry may and must have is decided by its behavior.
-/
import Gink.Proto.Value

namespace Gink

/-- A member of the value's `oneof` is set. -/
def EntryBuilder.hasUserValue (e : EntryBuilder) : Bool :=
  match e.value? with
  | none | some .unset => false
  | some _ => true

/-- A member of the key's `oneof` is set. -/
def EntryBuilder.hasUserKey (e : EntryBuilder) : Bool := e.key.isSome

/-- `change.entry.HasField("key")`. -/
def EntryBuilder.hasKey (e : EntryBuilder) : Bool :=
  match e.subject with
  | some (.key _) => true
  | _ => false

/-- `fullmatch(r"-?\d+", text)`. -/
def isDecimal (text : String) : Bool :=
  let digits := match text.toList with
    | '-' :: rest => rest
    | rest => rest
  !digits.isEmpty && digits.all Char.isDigit

/-- A value, or a reference. -/
def EntryBuilder.hasContents (e : EntryBuilder) : Bool := e.hasUserValue || e.pointee?.isSome

/-- Whether an entry has the members its behavior asks for. -/
def EntryBuilder.wellFormed (e : EntryBuilder) : Bool :=
  match e.behavior with
  | .box | .sequence => !e.hasKey && e.hasContents
  | .pairMap => e.pair?.isSome && (e.hasContents || e.deletion)
  | .directory => e.hasUserKey && (e.hasContents || e.deletion)
  | .keySet => e.hasUserKey && e.value?.isNone
  | .group => e.describing?.isSome && e.value?.isNone
  | .pairSet => e.pair?.isSome && e.value?.isNone
  | .property => e.describing?.isSome && (e.hasContents || e.deletion)
  | .braid => e.describing?.isSome &&
      ((match e.value? with
        | some (.integer _) | some (.floating _) => true
        | _ => false) || e.deletion)
  | .vertex => e.container.isSome
  | .edgeType => e.pair?.isSome
  | .accumulator => match e.value? with
      | some (.integer digits) => isDecimal digits
      | _ => false
  | _ => false

/-- The text of the exception, which names an unknown behavior. -/
def EntryBuilder.validationError (e : EntryBuilder) : Error :=
  match e.behavior with
  | .unspecified | .eventType | .table | .unrecognized _ => .valueError "unknown behavior"
  | _ => .valueError "Bundle validation failed."

/-- `validate_bundle(bundle_builder)`: the changes that are entries are looked at. -/
def validateBundle (builder : BundleBuilder) : Except Error Unit :=
  builder.changes.forM fun change =>
    match change with
    | .entry e => ensure e.wellFormed e.validationError
    | _ => .ok ()

end Gink
