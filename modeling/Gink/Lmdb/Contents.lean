/-
  Gink.Lmdb.Contents — the tables that hold what the changes say, and the reads the
  writers rest on (lmdb_store.py).

  LMDB keeps every table sorted by key bytes.  Keys are bytes here too, because the
  scans depend on how the packed keys sort; values are kept as the messages they
  serialise.  A read takes the tables it reads from, so that one made inside a
  write transaction can be given the committed tables, which is what it sees.
-/
import Gink.Lmdb.Cursor
import Gink.Proto.Coding

namespace Gink

namespace Lmdb

/-- The secondary indexes of the entries. -/
structure Indexes where
  byDescribing : Table Bytes Bytes := ∅
  byPointee : Table Bytes Bytes := ∅
  byName : Table Bytes Bytes := ∅
  bySide : Table Bytes Bytes := ∅
  byValue : Table Bytes Bytes := ∅
  deriving Inhabited

/-- The named databases filled by `_add_entry`, `_apply_movement` and
`_apply_clearance`, and the container definitions. -/
structure Contents where
  entries : Table Bytes EntryBuilder := ∅
  /-- removal key to the movement, or `b""` (none) for a replacing entry -/
  removals : Table Bytes (Option MovementBuilder) := ∅
  removalsByTime : Table Bytes Bytes := ∅
  containers : Table Bytes ContainerBuilder := ∅
  /-- location key to placement, or `b""` once deleted -/
  locations : Table Bytes Bytes := ∅
  clearances : Table Bytes ClearanceBuilder := ∅
  /-- placement to entry muid -/
  placements : Table Bytes Bytes := ∅
  totals : Table Bytes Int := ∅
  indexes : Indexes := {}
  deriving Inhabited

/-- `data[start:stop]` of a key. -/
def slice (data : Bytes) (start stop : Nat) : Bytes := (data.take stop).drop start

/-- `EntryBuilder.FromString(txn.get(entry_muid_bytes, db=self._entries))`. -/
def readEntry (c : Contents) (entryMuidBytes : Bytes) : Except Error EntryBuilder :=
  orRaise (.typeError "a bytes-like object is required, not 'NoneType'")
    (c.entries.get? entryMuidBytes)

/-- `_get_time_of_prior_clear(trxn, container, as_of)`. -/
def timeOfPriorClear (c : Contents) (container : Muid) (asOf : Int) : Except Error Int := do
  let asOfMuid ← Muid.instant asOf
  match toLastSuffix c.clearances container.toBytes asOfMuid.toBytes with
  | some found =>
      let clearanceMuid ← Muid.fromBytes (slice found.1 16 32)
      return clearanceMuid.timestamp
  | none => return 0

/-- The serialised key of a lookup, and the behavior the found key is parsed with. -/
def lookupKey : MiddleKey → Except Error (Bytes × Behavior)
  | .muid m => .ok (m.toBytes, .property)
  | .pair l r => .ok (l.toBytes ++ r.toBytes, .pairMap)
  | .key k => (encodeKey k).map fun bytes => (bytes, .directory)
  | .none => .ok ([], .box)
  | .queue _ => .error (.typeError "tuple keys must be Muid tuples")

/-- `get_entry_by_key(container, key, as_of)`. -/
def getEntryByKey (c : Contents) (container : Muid) (key : MiddleKey) (asOf : Int) :
    Except Error (Option FoundEntry) :=
  -- an uncommitted container is reported as empty before anything is looked at
  if container.timestamp = 0 then .ok none
  else do
    let clearanceTime ← timeOfPriorClear c container asOf
    let (serializedKey, behavior) ← lookupKey key
    let asOfMuid ← Muid.instant asOf
    match toLastSuffix c.placements (container.toBytes ++ serializedKey) asOfMuid.toBytes with
    | none => return none
    | some found =>
        let placement ← Placement.fromBytes found.1 behavior
        if placement.placer.timestamp < clearanceTime then return none
        else
          let builder ← readEntry c found.2
          return some ⟨placement.placer, builder⟩

/-- `_get_location(txn, entry_muid, as_of)`. -/
def getLocation (c : Contents) (entryMuid : Muid) (asOf : Int) : Except Error (Option Placement) := do
  let asOfMuid ← Muid.instant asOf
  match toLastSuffix c.locations entryMuid.toBytes asOfMuid.toBytes with
  | none => return none
  | some found =>
      if found.2 = [] then return none
      else
        let placement ← Placement.fromBytes found.2 .sequence
        return some placement

end Lmdb

end Gink
