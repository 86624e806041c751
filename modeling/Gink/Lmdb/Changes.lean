/-
  Gink.Lmdb.Changes — applying the changes of a bundle (lmdb_store.py).

  One definition for each method the change loop of `apply_bundle` calls.  They run
  inside the write transaction, which rolls back when something is raised, so each
  returns the new tables or an exception.  `self.get_entry_by_key` and
  `self.get_container` open a transaction of their own and see what was committed
  before the bundle: those tables are the argument `committed`.
-/
import Gink.Lmdb.Contents

namespace Gink

namespace Lmdb

/-! ## §1. Rows. -/

/-- `max_key_size` of an LMDB environment. -/
def maxKeySize : Nat := 511

/-- `txn.put(key, value, db=table)`. -/
def putRow {V : Type} (t : Table Bytes V) (k : Bytes) (v : V) : Except Error (Table Bytes V) :=
  if k.length ≤ maxKeySize then .ok (t.put k v)
  else .error (.badValsizeError "mdb_put: MDB_BAD_VALSIZE")

/-- `txn.delete(key, db=table)`: an empty key is refused, a missing one is not. -/
def deleteRow {V : Type} (t : Table Bytes V) (k : Bytes) : Except Error (Table Bytes V) :=
  if k = [] then .error (.badValsizeError "mdb_del: MDB_BAD_VALSIZE") else .ok (t.erase k)

/-- `while to_last_with_prefix(cursor, prefix): cursor.delete()`, at most `fuel` times. -/
def deleteLastRows {V : Type} (pre : Bytes) : Nat → Table Bytes V → Table Bytes V
  | 0, t => t
  | fuel + 1, t =>
      match toLast t pre with
      | none => t
      | some r => deleteLastRows pre fuel (t.erase r.1)

/-- The same loop run to its end. -/
def deleteWithPrefix {V : Type} (t : Table Bytes V) (pre : Bytes) : Table Bytes V :=
  deleteLastRows pre t.rows.length t

/-! ## §2. The indexes of an entry. -/

/-- The value a property entry is indexed under, if it has one. -/
def indexedValue (lib : Externals) (builder : EntryBuilder) : Except Error (Option Bytes) :=
  match builder.contains with
  | some (.value (.document _ _)) => .ok none
  | some (.value value) => .ok (some (lib.serializeValue value))
  | some (.pointee pointee) => .ok (some (lib.serializeMuid pointee))
  | some (.deletion _) => .ok none
  | none => .error (.valueError
      "property entry must have either value or pointee or deletion field set")

namespace Indexes

/-- Bring the index of described containers up to date: `update` puts or erases. -/
def onDescribing (update : Table Bytes Bytes → Bytes → Table Bytes Bytes) (builder : EntryBuilder)
    (entryMuid : Muid) (ix : Indexes) : Except Error Indexes :=
  match builder.describing? with
  | none => .ok ix
  | some describing => do
      let describingMuid ← resolve entryMuid.context describing
      return { ix with
        byDescribing := update ix.byDescribing (describingMuid.toBytes ++ entryMuid.toBytes) }

/-- The same for pointees. -/
def onPointee (update : Table Bytes Bytes → Bytes → Table Bytes Bytes) (builder : EntryBuilder)
    (entryMuid : Muid) (ix : Indexes) : Except Error Indexes :=
  match builder.pointee? with
  | none => .ok ix
  | some pointee => do
      let pointeeMuid ← resolve entryMuid.context pointee
      return { ix with byPointee := update ix.byPointee (pointeeMuid.toBytes ++ entryMuid.toBytes) }

/-- The same for the two sides of a pair. -/
def onSides (update : Table Bytes Bytes → Bytes → Table Bytes Bytes) (builder : EntryBuilder)
    (entryMuid : Muid) (ix : Indexes) : Except Error Indexes :=
  match builder.pair? with
  | none => .ok ix
  | some pair => do
      let left ← resolve entryMuid.context pair.left
      let rite ← resolve entryMuid.context pair.rite
      let bySide := update ix.bySide (left.toBytes ++ entryMuid.toBytes)
      return { ix with bySide := update bySide (rite.toBytes ++ entryMuid.toBytes) }

/-- The names given by the global property. -/
def addName (newInfo : BundleInfo) (builder : EntryBuilder) (containerMuid entryMuid : Muid)
    (ix : Indexes) : Except Error Indexes :=
  if containerMuid = globalMuid .property then
    match builder.value?, builder.describing? with
    | some _, some describing => do
        let describingMuid ← resolve newInfo.context describing
        match ← nameOf builder with
        | none => return ix
        | some name => do
            let byName ← putRow ix.byName (byNameKey name entryMuid) describingMuid.toBytes
            return { ix with byName }
    | _, _ => .ok ix
  else .ok ix

/-- The values of properties. -/
def addValue (lib : Externals) (builder : EntryBuilder) (containerMuid entryMuid : Muid)
    (ix : Indexes) : Except Error Indexes :=
  if builder.behavior = .property then do
    let describing ← orRaise (.valueError "property entry must have describing field set")
      builder.describing?
    let describingMuid ← resolve entryMuid.context describing
    match ← indexedValue lib builder with
    | none => return ix
    | some encodedValue =>
        -- a value too large for a key is left out of the index
        if encodedValue.length > maxKeySize - 32 then return ix
        else
          let byValueKey := containerMuid.toBytes ++ encodedValue ++ entryMuid.toBytes
          return { ix with byValue := ix.byValue.put byValueKey describingMuid.toBytes }
  else .ok ix

/-- What `_add_entry` writes into the indexes. -/
def add (lib : Externals) (newInfo : BundleInfo) (builder : EntryBuilder)
    (containerMuid entryMuid : Muid) (ix : Indexes) : Except Error Indexes := do
  let ix ← ix.onDescribing (fun t k => t.put k containerMuid.toBytes) builder entryMuid
  let ix ← ix.onPointee (fun t k => t.put k containerMuid.toBytes) builder entryMuid
  let ix ← ix.onSides (fun t k => t.put k entryMuid.toBytes) builder entryMuid
  let ix ← ix.addName newInfo builder containerMuid entryMuid
  ix.addValue lib builder containerMuid entryMuid

/-- Take a name out again. -/
def removeName (builder : EntryBuilder) (containerMuid entryMuid : Muid) (ix : Indexes) :
    Except Error Indexes :=
  if containerMuid = globalMuid .property then do
    match ← nameOf builder with
    | none => return ix
    | some name => return { ix with byName := ix.byName.erase (byNameKey name entryMuid) }
  else .ok ix

/-- What `_remove_entry` takes out of the indexes; rows by value stay. -/
def remove (builder : EntryBuilder) (containerMuid entryMuid : Muid) (ix : Indexes) :
    Except Error Indexes := do
  let ix ← ix.onSides Table.erase builder entryMuid
  let ix ← ix.onDescribing Table.erase builder entryMuid
  let ix ← ix.onPointee Table.erase builder entryMuid
  ix.removeName builder containerMuid entryMuid

end Indexes

/-! ## §3. `_remove_entry`. -/

/-- The loop over an entry's locations, on the rows from the first of them on.
Deleting under a cursor moves it to the next row and `next()` moves it once more,
so every other location is deleted. -/
def removeLocations (entryMuidBytes : Bytes) : List (Bytes × Bytes) → Contents →
    Except Error Contents
  | [], c => .ok c
  | row :: rest, c =>
      if entryMuidBytes.isPrefixOf row.1 then do
        let placements ← deleteRow c.placements row.2
        let c' := { c with placements, locations := c.locations.erase row.1 }
        match rest with
        | [] => return c'
        | _ :: rest' => removeLocations entryMuidBytes rest' c'
      else .ok c

/-- `_remove_entry(entry_muid, trxn)`. -/
def removeEntry (entryMuid : Muid) (c : Contents) : Except Error Contents :=
  match c.entries.get? entryMuid.toBytes with
  | none => .ok c  -- entry already gone
  | some builder => do
      let rows := c.locations.rows.filter (fun r => decide (entryMuid.toBytes ≤ r.1))
      let c ← removeLocations entryMuid.toBytes rows
        { c with entries := c.entries.erase entryMuid.toBytes }
      let containerMuid ← resolve entryMuid.context builder.containerField
      let indexes ← c.indexes.remove builder containerMuid entryMuid
      return { c with indexes }

/-! ## §4. `_add_entry`. -/

/-- The removal a replacing entry or a movement leaves behind when history is kept. -/
def recordRemoval (key : RemovalKey) (time : Int) (value : Option MovementBuilder) (c : Contents) :
    Except Error Contents := do
  let time ← encodeMuts time
  return { c with
    removals := c.removals.put key.toBytes value
    removalsByTime := c.removalsByTime.put time key.toBytes }

/-- The part that replaces what `get_entry_by_key` finds. -/
def replaceFound (committed : Contents) (retaining : Bool) (newInfo : BundleInfo)
    (builder : EntryBuilder) (placement : Placement) (c : Contents) : Except Error Contents :=
  if newEntriesReplace builder.behavior then do
    match ← getEntryByKey committed placement.container placement.middle (-1) with
    | none => return c
    | some found =>
        if retaining then
          recordRemoval ⟨placement.container, found.address, placement.placer⟩
            newInfo.timestamp.val none c
        else removeEntry found.address c
  else .ok c

/-- The running total of an accumulator. -/
def addToTotal (container : Muid) (builder : EntryBuilder) (c : Contents) : Except Error Contents :=
  if builder.behavior = .accumulator then do
    let amount ← integerOf builder
    let total := (c.totals.get? container.toBytes).getD 0 + amount
    return { c with totals := c.totals.put container.toBytes total }
  else .ok c

/-- The rows of an entry in the three main tables, and its index rows. -/
def storeEntry (lib : Externals) (newInfo : BundleInfo) (builder : EntryBuilder)
    (placement : Placement) (placementBytes : Bytes) (c : Contents) : Except Error Contents := do
  let entryMuid := placement.placer
  let placements ← putRow c.placements placementBytes entryMuid.toBytes
  let indexes ← c.indexes.add lib newInfo builder placement.container entryMuid
  return { c with
    entries := c.entries.put entryMuid.toBytes builder
    placements
    locations := c.locations.put (locationKey entryMuid entryMuid) placementBytes
    indexes }

/-- `_add_entry(new_info, txn, offset, builder)`. -/
def addEntry (lib : Externals) (committed : Contents) (retaining : Bool) (newInfo : BundleInfo)
    (offset : Nat) (builder : EntryBuilder) (c : Contents) : Except Error Contents := do
  ensureEntryIsValid builder newInfo offset
  let placement ← Placement.fromBuilder builder newInfo offset
  let c ← addToTotal placement.container builder c
  if builder.behavior = .accumulator ∧ retaining = false then return c
  else
    let placementBytes ← placement.toBytes
    let c ← replaceFound committed retaining newInfo builder placement c
    storeEntry lib newInfo builder placement placementBytes c

/-! ## §5. `_apply_movement`. -/

/-- The entry's row at its new place; a deletion leaves a mark when history is kept. -/
def placeMoved (retaining : Bool) (dest : Int) (container entryMuid movementMuid : Muid)
    (expiry : Option Int) (c : Contents) : Except Error Contents :=
  if dest ≠ 0 then do
    let serialized ← (Placement.mk container (.queue dest) movementMuid expiry).toBytes
    return { c with
      placements := c.placements.put serialized entryMuid.toBytes
      locations := c.locations.put (locationKey entryMuid movementMuid) serialized }
  else if retaining then
    .ok { c with locations := c.locations.put (locationKey entryMuid movementMuid) [] }
  else .ok c

/-- Without history the row at the old place goes, and a deleted entry with it.
`existing` is the entry's row in the locations table. -/
def dropMoved (dest : Int) (entryMuid : Muid) (existing : Bytes × Bytes) (c : Contents) : Contents :=
  { c with
    placements := c.placements.erase existing.2
    locations := c.locations.erase existing.1
    entries := if dest = 0 then c.entries.erase entryMuid.toBytes else c.entries }

/-- The writes of a movement that is carried out: `existing` is the entry's current
row in the locations table and `placed` the placement it holds. -/
def relocate (retaining : Bool) (builder : MovementBuilder) (container entryMuid movementMuid : Muid)
    (existing : Bytes × Bytes) (placed : Placement) (c : Contents) : Except Error Contents :=
  if retaining then do
    let c ← recordRemoval ⟨container, placed.placer, movementMuid⟩ movementMuid.timestamp
      (some builder) c
    placeMoved true builder.dest container entryMuid movementMuid placed.expiry c
  else do
    let c ← placeMoved false builder.dest container entryMuid movementMuid placed.expiry c
    return dropMoved builder.dest entryMuid existing c

/-- `_apply_movement(new_info, txn, offset, builder)`. -/
def applyMovement (retaining : Bool) (newInfo : BundleInfo) (offset : Nat)
    (builder : MovementBuilder) (c : Contents) : Except Error Contents := do
  let container ← resolve newInfo.context builder.container
  let entryMuid ← resolve newInfo.context builder.entry
  let movementMuid ← changeMuid newInfo offset
  match c.entries.get? entryMuid.toBytes, toLast c.locations entryMuid.toBytes with
  | some entryBuilder, some existing =>
      let existingPlacer ← Muid.fromBytes (slice existing.1 16 32)
      -- a past (re)move that shows up after a later one is ignored
      if existingPlacer.timestamp > movementMuid.timestamp then return c
      else if existing.2 = [] then return c  -- already has been deleted
      else
        let placed ← Placement.fromBytes existing.2 entryBuilder.behavior
        -- refuse to move an entry that's already expired
        if placed.expiry.any (fun expiry => decide (movementMuid.timestamp > expiry)) then return c
        else relocate retaining builder container entryMuid movementMuid existing placed c
  | _, _ => return c  -- can't move something I don't know about

/-! ## §6. `_apply_clearance`. -/

/-- The loop over the entries table when history is not retained. -/
def purgeEntries (containerBytes : Bytes) : Nat → Contents → Except Error Contents
  | 0, c => .ok c
  | fuel + 1, c =>
      match toLast c.entries containerBytes with
      | none => .ok c
      | some r => do
          let placement ← Placement.fromBytes r.1 r.2.behavior
          purgeEntries containerBytes fuel { c with
            locations := deleteWithPrefix c.locations placement.placer.toBytes
            entries := c.entries.erase r.1 }

/-- What a clearance deletes when history is not retained. -/
def purgeCleared (retaining : Bool) (container : Muid) (c : Contents) : Except Error Contents :=
  if retaining then .ok c
  else do
    let c ← purgeEntries container.toBytes c.entries.rows.length
      { c with clearances := deleteWithPrefix c.clearances container.toBytes }
    return { c with removals := deleteWithPrefix c.removals container.toBytes }

/-- `_apply_clearance(new_info, trxn, offset, builder)`. -/
def applyClearance (retaining : Bool) (newInfo : BundleInfo) (offset : Nat)
    (builder : ClearanceBuilder) (c : Contents) : Except Error Contents := do
  let containerMuid ← resolve newInfo.context builder.container
  let clearanceMuid ← changeMuid newInfo offset
  let c ← purgeCleared retaining containerMuid c
  return { c with
    clearances := c.clearances.put (containerMuid.toBytes ++ clearanceMuid.toBytes) builder }

/-! ## §7. The change loop. -/

/-- The definition of a container that is created by being written to: what the loop
adds to `_seen_containers` and to the containers table before an entry. -/
def noteContainer (committed : Contents) (entry : EntryBuilder) (muid : Muid)
    (seen : List Muid) (c : Contents) : List Muid × Contents :=
  if muid ∈ seen then (seen, c)
  else if (committed.containers.get? muid.toBytes).isSome ∨ entry.containerField.timestamp = -1 then
    (seen, c)
  else (muid :: seen,
    { c with containers := c.containers.put muid.toBytes ⟨entry.behavior⟩ })

/-- One turn of the loop; `_seen_containers` is outside the transaction and keeps
what the turn added also when it raises. -/
def applyChange (lib : Externals) (committed : Contents) (retaining : Bool) (newInfo : BundleInfo)
    (offset : Nat) (seen : List Muid) (c : Contents) :
    ChangeBuilder → List Muid × Except Error Contents
  | .container container =>
      (seen, (Muid.make newInfo.timestamp.val newInfo.medallion.val offset).map fun muid =>
        { c with containers := c.containers.put muid.toBytes container })
  | .entry entry =>
      match entry.containerField.literal with
      | .error e => (seen, .error e)
      | .ok muid =>
          let noted := noteContainer committed entry muid seen c
          (noted.1, addEntry lib committed retaining newInfo offset entry noted.2)
  | .movement movement => (seen, applyMovement retaining newInfo offset movement c)
  | .clearance clearance => (seen, applyClearance retaining newInfo offset clearance c)
  | .unset => (seen, .error (.valueError "Can't process change"))

/-- The loop, from the change with the given offset on. -/
def applyChangesFrom (lib : Externals) (committed : Contents) (retaining : Bool)
    (newInfo : BundleInfo) :
    Nat → List ChangeBuilder → List Muid → Contents → List Muid × Except Error Contents
  | _, [], seen, c => (seen, .ok c)
  | offset, change :: rest, seen, c =>
      match applyChange lib committed retaining newInfo offset seen c change with
      | (seen', .error e) => (seen', .error e)
      | (seen', .ok c') => applyChangesFrom lib committed retaining newInfo (offset + 1) rest seen' c'

end Lmdb

end Gink
