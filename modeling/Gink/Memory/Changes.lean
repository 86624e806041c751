/-
  Gink.Memory.Changes — applying the changes of a bundle (memory_store.py).

  The methods of `MemoryStore` that the change loop calls.  They assign to plain
  dictionaries, so whatever was assigned before an exception stays.
-/
import Gink.Memory.Contents
import Gink.Proto.Action

namespace Gink

namespace Memory

/-! ## §1. `_remove_entry`. -/

/-- `table.pop(key)`. -/
def popRow {K V : Type} [LinearOrder K] (t : Table K V) (k : K) : Except Error (V × Table K V) :=
  match t.get? k with
  | some v => .ok (v, t.erase k)
  | none => .error (.keyError "pop")

/-- `self._entries.pop(entry_muid)`. -/
def popEntry (entryMuid : Muid) : Action Contents EntryBuilder := do
  let c ← get
  let (builder, entries) ← Action.of (popRow c.entries entryMuid)
  set { c with entries }
  return builder

/-- `self._placements.pop(...)`; `None` is no key of the dictionary. -/
def popPlacement (location : Option Bytes) : Action Contents Unit := do
  let c ← get
  let key ← Action.of (orRaise (.keyError "pop") location)
  let (_, placements) ← Action.of (popRow c.placements key)
  set { c with placements }

/-- `self._by_name.pop(by_name_key)`. -/
def popName (key : Bytes) : Action Contents Unit := do
  let c ← get
  let (_, byName) ← Action.of (popRow c.byName key)
  set { c with byName }

/-- `self._by_describing.pop(key)`. -/
def popDescribing (key : Bytes) : Action Contents Unit := do
  let c ← get
  let (_, byDescribing) ← Action.of (popRow c.byDescribing key)
  set { c with byDescribing }

/-- Drop the first location at or after the entry's own, with its placement. -/
def removeFirstLocation (entryMuid : Muid) : Action Contents Unit := do
  let c ← get
  match irangeFrom c.locations (toLex (entryMuid, epoch)) with
  | [] => pure ()
  | row :: _ => do
      Action.of (ensure ((ofLex row.1).1 = entryMuid)
        (.assertionError "location_key.entry_muid == entry_muid"))
      popPlacement row.2
      modify fun c => { c with locations := c.locations.erase row.1 }

/-- Take the name of a removed entry out of the index. -/
def removeName (entryMuid containerMuid : Muid) (builder : EntryBuilder) :
    Action Contents Unit :=
  if containerMuid = globalMuid .property then do
    match ← Action.of (nameOf builder) with
    | none => pure ()
    | some name => popName (byNameKey name entryMuid)
  else pure ()

/-- `_remove_entry(entry_muid)`. -/
def removeEntry (entryMuid : Muid) : Action Contents Unit := do
  let builder ← popEntry entryMuid
  removeFirstLocation entryMuid
  let containerMuid ← Action.of (resolve entryMuid.context builder.containerField)
  removeName entryMuid containerMuid builder

/-! ## §2. `_add_entry`. -/

/-- The running total of an accumulator. -/
def addToTotal (container : Muid) (builder : EntryBuilder) : Action Contents Unit :=
  if builder.behavior = .accumulator then do
    let c ← get
    let amount ← Action.of (integerOf builder)
    let total := (c.totals.get? container.toBytes).getD 0 + amount
    set { c with totals := c.totals.put container.toBytes total }
  else pure ()

/-- The part that replaces what `get_entry_by_key` finds at the time `now`. -/
def replaceFound (retaining : Bool) (now : Int) (builder : EntryBuilder) (placement : Placement) :
    Action Contents Unit :=
  if newEntriesReplace builder.behavior then do
    let c ← get
    Action.of (ensure (placement.middle.position.toOption.isNone)
      (.assertionError "not isinstance(key, QueueMiddleKey)"))
    match ← Action.of (getEntryByKey c placement.container placement.middle now) with
    | none => pure ()
    | some found =>
        if retaining then
          let removalKey := RemovalKey.mk placement.container found.address placement.placer
          modify fun c => { c with removals := c.removals.put removalKey.toBytes none }
        else removeEntry found.address
  else pure ()

/-- The rows of the entry in the three main dictionaries. -/
def storeEntry (builder : EntryBuilder) (placement : Placement) (placementBytes : Bytes) :
    Action Contents Unit :=
  let entryMuid := placement.placer
  modify fun c => { c with
    entries := c.entries.put entryMuid builder
    placements := c.placements.put placementBytes entryMuid
    locations := c.locations.put (toLex (entryMuid, entryMuid)) (some placementBytes) }

/-- The row by described container. -/
def addDescribing (newInfo : BundleInfo) (builder : EntryBuilder) (containerMuid entryMuid : Muid) :
    Action Contents Unit :=
  match builder.describing? with
  | none => pure ()
  | some describing => do
      let describingMuid ← Action.of (resolve newInfo.context describing)
      let descriptorKey := describingMuid.toBytes ++ entryMuid.toBytes
      modify fun c => { c with
        byDescribing := c.byDescribing.put descriptorKey containerMuid.toBytes }

/-- The row by name. -/
def addName (newInfo : BundleInfo) (builder : EntryBuilder) (containerMuid entryMuid : Muid) :
    Action Contents Unit :=
  if containerMuid = globalMuid .property then
    match builder.value?, builder.describing? with
    | some _, some describing => do
        let describingMuid ← Action.of (resolve newInfo.context describing)
        match ← Action.of (nameOf builder) with
        | none => pure ()
        | some name => modify fun c => { c with
            byName := c.byName.put (byNameKey name entryMuid) describingMuid.toBytes }
    | _, _ => pure ()
  else pure ()

/-- A deletion of a property drops the last name in the range the source spells, and
its own row by described container. -/
def dropDescribed (newInfo : BundleInfo) (builder : EntryBuilder) (containerMuid entryMuid : Muid) :
    Action Contents Unit :=
  match builder.describing?, builder.hasDeletion with
  | some describing, true => do
      if containerMuid = globalMuid .property then do
        let c ← get
        match (irange c.byName ([0] ++ entryMuid.toBytes)
            (ones 16 ++ [0] ++ entryMuid.toBytes)).getLast? with
        | none => pure ()
        | some row => popName row.1
      let describingMuid ← Action.of (resolve newInfo.context describing)
      popDescribing (describingMuid.toBytes ++ entryMuid.toBytes)
  | _, _ => pure ()

/-- `_add_entry(new_info, offset, entry_builder)`; `now` is what `generate_timestamp()`
returns when the entry is replaced. -/
def addEntry (retaining : Bool) (now : Int) (newInfo : BundleInfo) (offset : Nat)
    (builder : EntryBuilder) : Action Contents Unit := do
  let placement ← Action.of (Placement.fromBuilder builder newInfo offset)
  addToTotal placement.container builder
  if builder.behavior = .accumulator ∧ retaining = false then pure ()
  else do
    let placementBytes ← Action.of placement.toBytes
    replaceFound retaining now builder placement
    storeEntry builder placement placementBytes
    addDescribing newInfo builder placement.container placement.placer
    addName newInfo builder placement.container placement.placer
    dropDescribed newInfo builder placement.container placement.placer

/-! ## §3. `_add_movement` and `_add_clearance`. -/

/-- The row of a moved entry at its new place, or the mark of a deleted one. -/
def placeMoved (dest : Int) (container entryMuid movementMuid : Muid) (expiry : Option Int)
    (oldPlacement : Bytes) : Action Contents Unit :=
  if dest ≠ 0 then do
    let serialized ←
      Action.of (Placement.mk container (.queue dest) movementMuid expiry).toBytes
    let c ← get
    let moved ← Action.of (orRaise (.keyError "placements") (c.placements.get? oldPlacement))
    set { c with
      placements := c.placements.put serialized moved
      locations := c.locations.put (toLex (entryMuid, movementMuid)) (some serialized) }
  else modify fun c => { c with
      locations := c.locations.put (toLex (entryMuid, movementMuid)) none }

/-- `_add_movement(new_info, offset, builder)`. -/
def addMovement (newInfo : BundleInfo) (offset : Nat) (builder : MovementBuilder) :
    Action Contents Unit := do
  let container ← Action.of (resolve newInfo.context builder.container)
  let entryMuid ← Action.of (resolve newInfo.context builder.entry)
  let movementMuid ← Action.of (changeMuid newInfo offset)
  let c ← get
  match ← Action.of (getLocation c entryMuid (-1)) with
  | none => pure ()  -- could not find a location
  | some oldPlacement => do
      let old ← Action.of (Placement.fromBytes oldPlacement .sequence)
      -- refuse to move an entry that's expired
      if old.expiry.any (fun expiry => decide (expiry < movementMuid.timestamp)) then pure ()
      -- a past (re)move that shows up after a later one is ignored
      else if movementMuid.timestamp < old.placedTime then pure ()
      else do
        let removalKey := RemovalKey.mk container old.placer movementMuid
        modify fun c => { c with removals := c.removals.put removalKey.toBytes (some builder) }
        placeMoved builder.dest container entryMuid movementMuid old.expiry oldPlacement

/-- `_add_clearance(new_info, offset, builder)`. -/
def addClearance (newInfo : BundleInfo) (offset : Nat) (builder : ClearanceBuilder) :
    Action Contents Unit := do
  let containerMuid ← Action.of (resolve newInfo.context builder.container)
  let clearanceMuid ← Action.of (changeMuid newInfo offset)
  modify fun c => { c with
    clearances := c.clearances.put (containerMuid.toBytes ++ clearanceMuid.toBytes) builder }

/-! ## §4. The change loop. -/

/-- A container that is written to without being defined gets a definition. -/
def noteContainer (muid : Muid) (entry : EntryBuilder) : Action Contents Unit := do
  let c ← get
  if muid.timestamp ≠ -1 ∧ c.containers.get? muid = none then
    set { c with containers := c.containers.put muid ⟨entry.behavior⟩ }
  else pure ()

/-- One turn of the loop. -/
def applyChange (retaining : Bool) (now : Int) (newInfo : BundleInfo) (offset : Nat) :
    ChangeBuilder → Action Contents Unit
  | .container container => do
      let containerMuid ← Action.of (changeMuid newInfo offset)
      modify fun c => { c with containers := c.containers.put containerMuid container }
  | .entry entry => do
      let muid ← Action.of entry.containerField.literal
      noteContainer muid entry
      addEntry retaining now newInfo offset entry
  | .movement movement => addMovement newInfo offset movement
  | .clearance clearance => addClearance newInfo offset clearance
  | .unset => Action.of (.error (.valueError "didn't recognize change"))

/-- The loop, from the change with the given offset on.  `clock offset` is the time
the change with that offset is applied at. -/
def applyChangesFrom (retaining : Bool) (clock : Nat → Int) (newInfo : BundleInfo) :
    Nat → List ChangeBuilder → Action Contents Unit
  | _, [] => pure ()
  | offset, change :: rest => do
      applyChange retaining (clock offset) newInfo offset change
      applyChangesFrom retaining clock newInfo (offset + 1) rest

end Memory

end Gink
