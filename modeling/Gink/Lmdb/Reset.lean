/-
  Gink.Lmdb.Reset — `get_reset_changes` of `LmdbStore` (lmdb_store.py).

  The method is a generator: the changes it yields stand even when it raises later.  It
  walks containers depth first over a read transaction, so the tables do not change under
  it.  Its loops and its recursion take fuel, and `spent` is the way a run ends that has
  used it up.
-/
import Gink.Lmdb.Contents
import Gink.Stores.Resetting

namespace Gink

open Machine (Generator)

namespace Lmdb

/-- What yields the changes of a reset. -/
abbrev Resetting := Generator Halt Seen ChangeBuilder

/-- `_get_behavior(container, trxn)`. -/
def getBehavior (c : Contents) (container : Muid) : Except Error Behavior :=
  if container.timestamp = -1 then .ok (behaviorOfCode container.offset)
  else (orRaise (.assertionError "isinstance(container_definition_bytes, bytes)")
    (c.containers.get? container.toBytes)).map (·.behavior)

/-! ## §1. Vertices and accumulators. -/

/-- `entry_builder.deletion` of the entry under the cursor, if the seek found one. -/
def deletedAt (c : Contents) : Option (Bytes × Bytes) → Except Error Bool
  | none => .ok false
  | some row => (readEntry c row.2).map (·.deletion)

/-- `_get_vertex_reset_changes(container, to_time, trxn)`. -/
def vertexReset (c : Contents) (container : Muid) (toTime : Int) : Resetting Unit := do
  let instant ← attempt (Muid.instant toTime)
  let previous ← attempt (deletedAt c
    (toLastSuffix c.placements container.toBytes instant.toBytes))
  let wasDeleted := decide (container.timestamp > toTime) || previous
  let isDeleted ← attempt (deletedAt c (toLast c.placements container.toBytes))
  if isDeleted ≠ wasDeleted then Generator.yielding (.entry (vertexEntry container wasDeleted))
  else pure ()

/-- The loop of `get_billionths` with an as-of time. -/
def billionthsLoop (c : Contents) (accumulator : Bytes) (asOf : Int) :
    List (Bytes × Bytes) → Int → Except Error Int
  | [], total => .ok total
  | row :: rest, total =>
      if !accumulator.isPrefixOf row.1 then .ok total
      else do
        let placement ← Placement.fromBytes row.1 .accumulator
        if asOf > 0 ∧ placement.placer.timestamp > asOf then return total
        else
          let builder ← orRaise (.assertionError "entry_bytes should be bytes")
            (c.entries.get? row.2)
          ensure (builder.behavior = .accumulator)
            (.assertionError "entry_builder.behavior == Behavior.ACCUMULATOR")
          let amount ← integerOf builder
          billionthsLoop c accumulator asOf rest (total + amount)

/-- `get_billionths(accumulator, as_of)`. -/
def getBillionths (c : Contents) (accumulator : Muid) (asOf : Int) : Except Error Int :=
  if asOf = -1 then .ok ((c.totals.get? accumulator.toBytes).getD 0)
  else billionthsLoop c accumulator.toBytes asOf
    (c.placements.rows.filter (fun r => decide (accumulator.toBytes ≤ r.1))) 0

/-- `yield self._get_accumulator_reset(container, to_time)`. -/
def accumulatorReset (c : Contents) (container : Muid) (toTime : Int) : Resetting Unit := do
  let previous ← attempt (getBillionths c container toTime)
  let current ← attempt (getBillionths c container (-1))
  Generator.yielding (.entry (accumulatorEntry container previous current))

/-! ## §2. Keyed containers. -/

/-- What the loop over the keys of a container does not change. -/
structure KeyedReset where
  container : Muid
  toTime : Int
  behavior : Behavior
  singleUserKey : Option UserKey
  lastClearTime : Int

/-- What a key held at `to_time`: the last entry before it, if there is one, and what that
says unless a clearance came between. -/
def containedThen (c : Contents) (q : KeyedReset) (row : Bytes × Bytes) (key : MiddleKey) :
    Except Error (Option EntryBuilder × Occupant) := do
  let lastClear ← timeOfPriorClear c q.container q.toTime
  let instant ← Muid.instant q.toTime
  let limit ← (Placement.mk q.container key instant none).toBytes
  let throughMiddle := row.1.take (row.1.length - 24)
  ensure (limit.take (limit.length - 24) = throughMiddle)
    (.assertionError "bytes(limit)[:-24] == through_middle")
  match toLastBefore c.placements throughMiddle limit with
  | none => return (none, .deletion)
  | some found => do
      let placement ← Placement.fromBytes found.1 q.behavior
      let builder ← readEntry c found.2
      if placement.placer.timestamp > lastClear then
        let occupant ← decodeEntryOccupant placement.placer builder
        return (some builder, occupant)
      else return (some builder, .deletion)

/-- The change that makes a key hold again what it held then. -/
def restoreKey (q : KeyedReset) (key : MiddleKey) (builderThen : Option EntryBuilder)
    (contained : Occupant) : Resetting Unit :=
  match contained, builderThen with
  | .deletion, _ => do
      let entry ← attempt (createDeletingEntry q.container key q.behavior)
      Generator.yielding (.entry entry)
  | _, some builder => Generator.yielding (.entry builder)
  | _, none => pure ()

/-- What a key held then is compared with what it holds now; what to recurse on. -/
def settleKey (c : Contents) (q : KeyedReset) (row : Bytes × Bytes) (key : MiddleKey)
    (containedNow : Occupant) : Resetting Occupant := do
  let past ← attempt (containedThen c q row key)
  if past.2.pyEq containedNow then pure past.2
  else do
    restoreKey q key past.1 past.2
    pure past.2

/-- The body of the loop up to the recursion: what to recurse on. -/
def resetKey (c : Contents) (q : KeyedReset) (row : Bytes × Bytes) (placement : Placement)
    (builder : EntryBuilder) : Resetting Occupant :=
  if placement.placer.timestamp < q.toTime ∧ q.lastClearTime < q.toTime then
    -- no updates to this key and no clears since to_time
    attempt (decodeEntryOccupant placement.placer builder)
  else if q.lastClearTime ≤ placement.placer.timestamp then do
    let containedNow ← attempt (decodeEntryOccupant placement.placer builder)
    settleKey c q row placement.middle containedNow
  else settleKey c q row placement.middle .deletion

/-- `if seen is not None and isinstance(occupant, Muid):` recurse. -/
def recurseOn (recurse : Muid → Resetting Unit) (occupant : Occupant) : Resetting Unit := do
  let seen ← Generator.read
  match seen, occupant.muid? with
  | some _, some muid => recurse muid
  | _, _ => pure ()

/-- The loop of `_get_keyed_reset_changes`, one turn for each distinct key. -/
def keyedResetLoop (c : Contents) (q : KeyedReset) (recurse : Muid → Resetting Unit) :
    Nat → Option (Bytes × Bytes) → Resetting Unit
  | _, none => pure ()
  | 0, some _ => Generator.stop .spent
  | fuel + 1, some row => do
      let placement ← attempt (Placement.fromBytes row.1 q.behavior)
      let builder ← attempt (readEntry c row.2)
      let occupant ← resetKey c q row placement builder
      recurseOn recurse occupant
      if q.singleUserKey.any UserKey.truthy then pure ()
      else do
        let limit ← attempt (Placement.mk q.container placement.middle ⟨0, 0, 0⟩ none).toBytes
        keyedResetLoop c q recurse fuel (toLastBefore c.placements q.container.toBytes limit)

/-- `_get_keyed_reset_changes(container, to_time, trxn, seen, single_user_key, behavior)`. -/
def keyedReset (c : Contents) (container : Muid) (toTime : Int) (recurse : Muid → Resetting Unit)
    (singleUserKey : Option UserKey) (behavior : Behavior) (fuel : Nat) : Resetting Unit := do
  let entered := enter container (← Generator.read)
  if !entered.1 then pure ()
  else do
    Generator.write entered.2
    let lastClearTime ← attempt (timeOfPriorClear c container (-1))
    let keyBytes ← attempt (userKeyBytes singleUserKey)
    keyedResetLoop c ⟨container, toTime, behavior, singleUserKey, lastClearTime⟩ recurse fuel
      (toLast c.placements (container.toBytes ++ keyBytes))

/-! ## §3. Ordered containers. -/

/-- The loop of `_reissue_properties`, downwards; `offset` is that of the last one issued. -/
def reissueLoop (c : Contents) (describing : Bytes) :
    List (Bytes × Bytes) → List Bytes → Int → Resetting Unit
  | [], _, _ => pure ()
  | row :: rest, issued, offset =>
      if !describing.isPrefixOf row.1 then pure ()
      else if row.2 ∈ issued then reissueLoop c describing rest issued offset
      else do
        let describerEntry := row.1.drop 16
        let builder ← attempt (readEntry c describerEntry)
        let describerMuid ← attempt (Muid.fromBytes describerEntry)
        let builder ← attempt (normalized describerMuid builder)
        let back ← attempt (Muid.make 0 0 (offset - 1))
        Generator.yielding (.entry { builder with subject := some (.describing back.putInto) })
        reissueLoop c describing rest (row.2 :: issued) (offset - 1)

/-- `_reissue_properties(trxn, describing_muid_bytes, to_time)`. -/
def reissueProperties (c : Contents) (describing : Bytes) (toTime : Int) : Resetting Unit := do
  let instant ← attempt (Muid.instant toTime)
  match toLastSuffix c.indexes.byDescribing describing instant.toBytes with
  | none => pure ()
  | some found =>
      reissueLoop c describing
        (c.indexes.byDescribing.rows.filter (fun r => decide (r.1 ≤ found.1))).reverse [] 0

/-- What the loop over the placements of a container does not change. -/
structure OrderedReset where
  container : Muid
  toTime : Int
  lastClearTime : Int
  clearBeforeTo : Int

/-- What was put there since `to_time` and is still there goes back to where it was, if it
was anywhere. -/
def undoPlacement (q : OrderedReset) (entryMuid : Muid) (placement : Placement)
    (location previous : Option Placement) : Resetting Unit :=
  if placement.placedTime ≥ q.toTime ∧ q.lastClearTime < placement.placedTime ∧
      location = some placement then
    match previous with
    | none => Generator.yielding (movementOf q.container entryMuid 0)
    | some previous => do
        let positionThen ← attempt previous.middle.position
        let positionNow ← attempt placement.middle.position
        if positionThen ≠ positionNow then
          Generator.yielding (movementOf q.container entryMuid positionThen)
        else pure ()
  else pure ()

/-- What was there at `to_time` is added again if it is not there any longer. -/
def restorePlacement (c : Contents) (q : OrderedReset) (recurse : Muid → Resetting Unit)
    (entryBytes : Bytes) (entryMuid : Muid) (placement : Placement)
    (location previous : Option Placement) : Resetting Unit :=
  if previous = some placement ∧ q.clearBeforeTo < placement.placedTime then do
    let builder ← attempt (readEntry c entryBytes)
    let occupant ← attempt (decodeEntryOccupant entryMuid builder)
    recurseOn recurse occupant
    if location = none ∨ q.lastClearTime > placement.placedTime then do
      let builder ← attempt (normalized entryMuid builder)
      let position ← attempt placement.middle.position
      Generator.yielding (.entry { builder with effective := position })
      if builder.behavior = .edgeType then reissueProperties c entryBytes q.toTime
      else pure ()
    else pure ()
  else pure ()

/-- The loop of `_get_ordered_reset_changes`. -/
def orderedResetLoop (c : Contents) (q : OrderedReset) (recurse : Muid → Resetting Unit) :
    List (Bytes × Bytes) → Resetting Unit
  | [] => pure ()
  | row :: rest =>
      if !q.container.toBytes.isPrefixOf row.1 then pure ()
      else do
        let placement ← attempt (Placement.fromBytes row.1 .sequence)
        let entryMuid ← attempt (Muid.fromBytes row.2)
        let location ← attempt (getLocation c entryMuid (-1))
        let previous ← attempt (getLocation c entryMuid q.toTime)
        undoPlacement q entryMuid placement location previous
        restorePlacement c q recurse row.2 entryMuid placement location previous
        orderedResetLoop c q recurse rest

/-- `_get_ordered_reset_changes(container, to_time, trxn, seen)`. -/
def orderedReset (c : Contents) (container : Muid) (toTime : Int)
    (recurse : Muid → Resetting Unit) : Resetting Unit := do
  let entered := enter container (← Generator.read)
  if !entered.1 then pure ()
  else do
    Generator.write entered.2
    let lastClearTime ← attempt (timeOfPriorClear c container (-1))
    let clearBeforeTo ← attempt (timeOfPriorClear c container toTime)
    orderedResetLoop c ⟨container, toTime, lastClearTime, clearBeforeTo⟩ recurse
      (c.placements.rows.filter (fun r => decide (container.toBytes ≤ r.1)))

/-! ## §4. Any container. -/

/-- `_container_reset_changes(to_time, container, seen, trxn)`, recursing at most `fuel`
deep. -/
def containerReset (c : Contents) (toTime : Int) : Nat → Muid → Resetting Unit
  | 0, _ => Generator.stop .spent
  | fuel + 1, container => do
      let behavior ← attempt (getBehavior c container)
      match behavior with
      | .vertex => vertexReset c container toTime
      | .directory | .box | .group | .keySet | .property | .pairMap | .pairSet =>
          keyedReset c container toTime (containerReset c toTime fuel) none behavior fuel
      | .sequence | .edgeType | .eventType =>
          orderedReset c container toTime (containerReset c toTime fuel)
      | .accumulator => accumulatorReset c container toTime
      | _ => Generator.stop (.raised (.notImplementedError
          "don't know how to reset container of type"))

/-- The behaviors whose global containers are reset with the whole store. -/
def globalBehaviors : List Behavior :=
  [.box, .sequence, .pairMap, .directory, .keySet, .group, .vertex, .pairSet, .eventType,
    .property, .edgeType, .accumulator]

/-- The containers that are reset with the whole store, in order. -/
def allContainers (c : Contents) : List (Except Error Muid) :=
  c.containers.rows.map (fun r => Muid.fromBytes r.1) ++
    globalBehaviors.map fun behavior => .ok (globalMuid behavior)

/-- `get_reset_changes(to_time, container, user_key, recursive)` run to its end. -/
def getResetChanges (c : Contents) (fuel : Nat) (toTime : Int) (container : Option Muid)
    (userKey : Option UserKey) (recursive : Bool) : Machine.Generated Halt Seen ChangeBuilder Unit :=
  match container, userKey with
  | none, some _ =>
      ⟨[], none, .error (.raised (.valueError "can't specify key without specifying container"))⟩
  | none, none =>
      Generator.forEach (fun found => do
        let muid ← attempt found
        containerReset c toTime fuel muid) (allContainers c) none
  | some container, some userKey =>
      keyedReset c container toTime (containerReset c toTime fuel) (some userKey) .directory fuel
        (if recursive then some [] else none)
  | some container, none =>
      containerReset c toTime fuel container (if recursive then some [] else none)

end Lmdb

end Gink
