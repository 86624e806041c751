/-
  Gink.Memory.Reset — `get_reset_changes` of `MemoryStore` (memory_store.py).

  The same walk as that of `LmdbStore`, over dictionaries that hold the entries as live
  objects: ordered containers and reissued properties normalise and edit the stored
  builder itself.  The dictionaries are therefore part of the generator's state.
-/
import Gink.Memory.Contents
import Gink.Stores.Resetting

namespace Gink

open Machine (Generator)

namespace Memory

/-- The set `seen`, and the dictionaries. -/
structure ResetState where
  seen : Seen
  contents : Contents

/-- What yields the changes of a reset. -/
abbrev Resetting := Generator Halt ResetState ChangeBuilder

/-- A read of the dictionaries. -/
def consult {α : Type} (f : Contents → Except Error α) : Resetting α := do
  let s ← Generator.read
  attempt (f s.contents)

/-- Statements that edit the builder stored under a muid. -/
def editEntry (muid : Muid) (edit : Action EntryBuilder Unit) : Resetting Unit := do
  let s ← Generator.read
  let builder ← attempt (readEntry s.contents muid)
  let store (e : EntryBuilder) : Resetting Unit := Generator.write
    { s with contents := { s.contents with entries := s.contents.entries.put muid e } }
  match edit builder with
  | .ok _ e => store e
  | .error err e => do
      store e
      Generator.stop (.raised err)

/-- `yield wrap_change(entry_builder)`: a copy of the stored builder. -/
def yieldEntry (muid : Muid) : Resetting Unit := do
  let builder ← consult (readEntry · muid)
  Generator.yielding (.entry builder)

/-- `_get_behavior(container)`. -/
def getBehavior (c : Contents) (container : Muid) : Except Error Behavior :=
  if container.timestamp = -1 then .ok (behaviorOfCode container.offset)
  else (orRaise (.assertionError "isinstance(container_builder, ContainerBuilder)")
    (c.containers.get? container)).map (·.behavior)

/-- `_get_last(sorted_dict, max=maximum)`. -/
def getLastRow {V : Type} (t : Table Bytes V) (maximum : Bytes) : Option (Bytes × V) :=
  t.lastWhere (fun k => decide (k ≤ maximum))

/-! ## §1. Vertices and accumulators. -/

/-- `entry_builder.deletion` of the entry of a row, if there is one. -/
def deletedAt (c : Contents) : Option (Bytes × Muid) → Except Error Bool
  | none => .ok false
  | some row => (readEntry c row.2).map (·.deletion)

/-- `_get_vertex_reset_changes(container, to_time)`: neither scan is bounded to the rows
of the container on both sides. -/
def vertexReset (container : Muid) (toTime : Int) : Resetting Unit := do
  let instant ← attempt (Muid.instant toTime)
  let previous ← consult fun c =>
    deletedAt c (irange c.placements container.toBytes instant.toBytes).getLast?
  let wasDeleted := decide (container.timestamp > toTime) || previous
  let isDeleted ← consult fun c =>
    deletedAt c (getLastRow c.placements (container.toBytes ++ ones 16))
  if isDeleted ≠ wasDeleted then Generator.yielding (.entry (vertexEntry container wasDeleted))
  else pure ()

/-- The loop of `get_billionths` with an as-of time. -/
def billionthsLoop (c : Contents) : List (Bytes × Muid) → Int → Except Error Int
  | [], total => .ok total
  | row :: rest, total => do
      let builder ← readEntry c row.2
      ensure (builder.behavior = .accumulator)
        (.assertionError "entry_builder.behavior == ACCUMULATOR")
      let amount ← integerOf builder
      billionthsLoop c rest (total + amount)

/-- `get_billionths(accumulator, as_of)`. -/
def getBillionths (c : Contents) (accumulator : Muid) (asOf : Int) : Except Error Int :=
  if asOf = -1 then .ok ((c.totals.get? accumulator.toBytes).getD 0)
  else do
    let minimum ← (Placement.mk accumulator .none epoch none).toBytes
    let last ← Muid.make asOf (-1) (-1)
    let maximum ← (Placement.mk accumulator .none last none).toBytes
    billionthsLoop c (irange c.placements minimum maximum) 0

/-- `yield self._get_accumulator_reset(container, to_time)`. -/
def accumulatorReset (container : Muid) (toTime : Int) : Resetting Unit := do
  let previous ← consult (getBillionths · container toTime)
  let current ← consult (getBillionths · container (-1))
  Generator.yielding (.entry (accumulatorEntry container previous current))

/-! ## §2. Keyed containers. -/

/-- What the loop over the keys of a container does not change. -/
structure KeyedReset where
  container : Muid
  toTime : Int
  behavior : Behavior
  singleUserKey : Option UserKey
  lastClearTime : Int

/-- What a key held at `to_time`: the last entry before it, if there is one, and what that
says unless a clearance came between. -/
def containedThen (c : Contents) (q : KeyedReset) (row : Bytes × Muid) (key : MiddleKey) :
    Except Error (Option EntryBuilder × Occupant) := do
  let lastClear ← timeOfPriorClear c q.container q.toTime
  let instant ← Muid.instant q.toTime
  let limit ← (Placement.mk q.container key instant none).toBytes
  let throughMiddle := row.1.take (row.1.length - 24)
  ensure (limit.take (limit.length - 24) = throughMiddle)
    (.assertionError "bytes(limit)[:-24] == through_middle")
  match (irange c.placements throughMiddle limit).getLast? with
  | none => return (none, .deletion)
  | some found => do
      let placement ← Placement.fromBytes found.1 q.behavior
      let builder ← readEntry c found.2
      if placement.placer.timestamp > lastClear then
        let occupant ← decodeEntryOccupant placement.placer builder
        return (some builder, occupant)
      else return (some builder, .deletion)

/-- The change that makes a key hold again what it held then. -/
def restoreKey (q : KeyedReset) (key : MiddleKey) (builderThen : Option EntryBuilder)
    (contained : Occupant) : Resetting Unit :=
  match contained, builderThen with
  | .deletion, _ => do
      let entry ← attempt (createDeletingEntry q.container key q.behavior)
      Generator.yielding (.entry entry)
  | _, some builder => Generator.yielding (.entry builder)
  | _, none => pure ()

/-- What a key held then is compared with what it holds now; what to recurse on. -/
def settleKey (q : KeyedReset) (row : Bytes × Muid) (key : MiddleKey)
    (containedNow : Occupant) : Resetting Occupant := do
  let past ← consult (containedThen · q row key)
  if past.2.pyEq containedNow then pure past.2
  else do
    restoreKey q key past.1 past.2
    pure past.2

/-- The body of the loop up to the recursion: what to recurse on. -/
def resetKey (q : KeyedReset) (row : Bytes × Muid) (placement : Placement)
    (builder : EntryBuilder) : Resetting Occupant :=
  if placement.placer.timestamp < q.toTime ∧ q.lastClearTime < q.toTime then
    -- no updates to this key and no clears since to_time
    attempt (decodeEntryOccupant placement.placer builder)
  else if q.lastClearTime ≤ placement.placer.timestamp then do
    let containedNow ← attempt (decodeEntryOccupant placement.placer builder)
    settleKey q row placement.middle containedNow
  else settleKey q row placement.middle .deletion

/-- `if seen is not None and isinstance(occupant, Muid):` recurse. -/
def recurseOn (recurse : Muid → Resetting Unit) (occupant : Occupant) : Resetting Unit := do
  let s ← Generator.read
  match s.seen, occupant.muid? with
  | some _, some muid => recurse muid
  | _, _ => pure ()

/-- The loop of `_get_keyed_reset_changes`, one turn for each distinct key. -/
def keyedResetLoop (q : KeyedReset) (recurse : Muid → Resetting Unit) :
    Nat → Option (Bytes × Muid) → Resetting Unit
  | _, none => pure ()
  | 0, some _ => Generator.stop .spent
  | fuel + 1, some row =>
      if row.1.take 16 ≠ q.container.toBytes then pure ()
      else do
        let placement ← attempt (Placement.fromBytes row.1 q.behavior)
        let builder ← consult (readEntry · row.2)
        let occupant ← resetKey q row placement builder
        recurseOn recurse occupant
        if q.singleUserKey.any UserKey.truthy then pure ()
        else do
          let limit ← attempt (Placement.mk q.container placement.middle epoch none).toBytes
          let s ← Generator.read
          keyedResetLoop q recurse fuel (getLastRow s.contents.placements limit)

/-- `_get_keyed_reset_changes(container, to_time, seen, single_user_key, behavior)`: a key
that is not truthy is taken for none. -/
def keyedReset (container : Muid) (toTime : Int) (recurse : Muid → Resetting Unit)
    (singleUserKey : Option UserKey) (behavior : Behavior) (fuel : Nat) : Resetting Unit := do
  let s ← Generator.read
  let entered := enter container s.seen
  if !entered.1 then pure ()
  else do
    Generator.write { s with seen := entered.2 }
    let lastClearTime ← consult (timeOfPriorClear · container (-1))
    let keyBytes ← attempt (userKeyBytes (singleUserKey.filter UserKey.truthy))
    keyedResetLoop ⟨container, toTime, behavior, singleUserKey, lastClearTime⟩ recurse fuel
      (getLastRow s.contents.placements (container.toBytes ++ keyBytes ++ ones 16))

/-! ## §3. Ordered containers. -/

/-- The loop of `_reissue_properties`, downwards; `offset` is that of the last one issued.
The entry is looked up under the muid of the property. -/
def reissueLoop (describing : Bytes) : List (Bytes × Bytes) → List Bytes → Int → Resetting Unit
  | [], _, _ => pure ()
  | row :: rest, issued, offset =>
      if !describing.isPrefixOf row.1 then pure ()
      else if row.2 ∈ issued then reissueLoop describing rest issued offset
      else do
        let property ← attempt (Muid.fromBytes row.2)
        let _ ← consult (readEntry · property)
        let describerMuid ← attempt (Muid.fromBytes (row.1.drop 16))
        editEntry property (normalizeEntryBuilder describerMuid)
        let back ← attempt (Muid.make 0 0 (offset - 1))
        editEntry property (modify fun e => { e with subject := some (.describing back.putInto) })
        yieldEntry property
        reissueLoop describing rest (row.2 :: issued) (offset - 1)

/-- `_reissue_properties(describing_muid_bytes, to_time)`. -/
def reissueProperties (describing : Bytes) (toTime : Int) : Resetting Unit := do
  let instant ← attempt (Muid.instant toTime)
  let s ← Generator.read
  reissueLoop describing
    (irange s.contents.byDescribing describing (describing ++ instant.toBytes)).reverse [] 0

/-- What the loop over the placements of a container does not change. -/
structure OrderedReset where
  container : Muid
  toTime : Int
  behavior : Behavior
  lastClearTime : Int
  clearBeforeTo : Int

/-- `Placement.from_bytes(location, behavior) if location else None`. -/
def parseLocation (behavior : Behavior) : Option Bytes → Except Error (Option Placement)
  | none => .ok none
  | some location =>
      if location = [] then .ok none
      else (Placement.fromBytes location behavior).map some

/-- What was put there since `to_time` and is still there goes back to where it was, if it
was anywhere. -/
def undoPlacement (q : OrderedReset) (entryMuid : Muid) (placement : Placement)
    (location previous : Option Placement) : Resetting Unit :=
  if placement.placedTime ≥ q.toTime ∧ q.lastClearTime < placement.placedTime ∧
      location = some placement then
    match previous with
    | none => Generator.yielding (movementOf q.container entryMuid 0)
    | some previous => do
        let positionThen ← attempt previous.middle.position
        let positionNow ← attempt placement.middle.position
        if positionThen ≠ positionNow then
          Generator.yielding (movementOf q.container entryMuid positionThen)
        else pure ()
  else pure ()

/-- What was there at `to_time` is added again if it is not there any longer; the stored
builder is normalised and its `effective` set on the way. -/
def restorePlacement (q : OrderedReset) (recurse : Muid → Resetting Unit) (entryMuid : Muid)
    (placement : Placement) (location previous : Option Placement) : Resetting Unit :=
  if previous = some placement ∧ q.clearBeforeTo < placement.placedTime then do
    let builder ← consult (readEntry · entryMuid)
    let occupant ← attempt (decodeEntryOccupant entryMuid builder)
    recurseOn recurse occupant
    if location = none ∨ q.lastClearTime > placement.placedTime then do
      editEntry entryMuid (normalizeEntryBuilder entryMuid)
      let position ← attempt placement.middle.position
      editEntry entryMuid (modify fun e => { e with effective := position })
      yieldEntry entryMuid
      if builder.behavior = .edgeType then reissueProperties entryMuid.toBytes q.toTime
      else pure ()
    else pure ()
  else pure ()

/-- The loop of `_get_ordered_reset_changes`. -/
def orderedResetLoop (q : OrderedReset) (recurse : Muid → Resetting Unit) :
    List (Bytes × Muid) → Resetting Unit
  | [] => pure ()
  | row :: rest =>
      if row.1.take 16 ≠ q.container.toBytes then pure ()
      else do
        let placement ← attempt (Placement.fromBytes row.1 q.behavior)
        let location ← consult fun c =>
          getLocation c row.2 (-1) >>= parseLocation q.behavior
        let previous ← consult fun c =>
          getLocation c row.2 q.toTime >>= parseLocation q.behavior
        undoPlacement q row.2 placement location previous
        restorePlacement q recurse row.2 placement location previous
        orderedResetLoop q recurse rest

/-- `_get_ordered_reset_changes(container, to_time, seen, behavior)`. -/
def orderedReset (container : Muid) (toTime : Int) (recurse : Muid → Resetting Unit)
    (behavior : Behavior) : Resetting Unit := do
  let s ← Generator.read
  let entered := enter container s.seen
  if !entered.1 then pure ()
  else do
    Generator.write { s with seen := entered.2 }
    let lastClearTime ← consult (timeOfPriorClear · container (-1))
    let clearBeforeTo ← consult (timeOfPriorClear · container toTime)
    orderedResetLoop ⟨container, toTime, behavior, lastClearTime, clearBeforeTo⟩ recurse
      (irangeFrom s.contents.placements container.toBytes)

/-! ## §4. Any container. -/

/-- `_container_reset_changes(to_time, container, seen)`, recursing at most `fuel` deep. -/
def containerReset (toTime : Int) : Nat → Muid → Resetting Unit
  | 0, _ => Generator.stop .spent
  | fuel + 1, container => do
      let behavior ← consult (getBehavior · container)
      match behavior with
      | .vertex => vertexReset container toTime
      | .directory | .box | .group | .keySet | .property | .pairMap | .pairSet =>
          keyedReset container toTime (containerReset toTime fuel) none behavior fuel
      | .sequence | .edgeType =>
          orderedReset container toTime (containerReset toTime fuel) behavior
      | .braid => pure ()
      | .accumulator => accumulatorReset container toTime
      | _ => Generator.stop (.raised (.notImplementedError
          "don't know how to reset container of type"))

/-- The behaviors whose global containers are reset with the whole store: the keys of
`container_classes`. -/
def globalBehaviors : List Behavior :=
  [.box, .sequence, .pairMap, .directory, .keySet, .group, .vertex, .pairSet, .edgeType,
    .property, .braid, .accumulator]

/-- The containers that are reset with the whole store, in order. -/
def allContainers (c : Contents) : List Muid :=
  c.containers.rows.map Prod.fst ++ globalBehaviors.map globalMuid

/-- `get_reset_changes(to_time, container, user_key, recursive)` run to its end. -/
def getResetChanges (c : Contents) (fuel : Nat) (toTime : Int) (container : Option Muid)
    (userKey : Option UserKey) (recursive : Bool) :
    Machine.Generated Halt ResetState ChangeBuilder Unit :=
  match container, userKey with
  | none, some _ => ⟨[], ⟨none, c⟩,
      .error (.raised (.valueError "can't specify key without specifying container"))⟩
  | none, none => Generator.forEach (containerReset toTime fuel) (allContainers c) ⟨none, c⟩
  | some container, some userKey =>
      keyedReset container toTime (containerReset toTime fuel) (some userKey) .directory fuel
        ⟨if recursive then some [] else none, c⟩
  | some container, none =>
      containerReset toTime fuel container ⟨if recursive then some [] else none, c⟩

end Memory

end Gink
