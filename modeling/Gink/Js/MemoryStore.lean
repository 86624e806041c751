/-
  Gink.Js.MemoryStore — the tables of the JavaScript `MemoryStore`, what applying a
  bundle's changes does to them, and the reads of ordered containers (MemoryStore.ts).

  The tables are `TreeMap`s with strings for keys.  Where an iterator stands after its row
  was erased is known to `jstreemap` alone: the rows that an erasing walk gets to are a
  parameter here.  The indexes by name, by key and by the ends of an edge, and the totals of
  accumulators, are read by no function below and left out.  What a raised error leaves
  behind is not followed further.
-/
import Gink.Js.IndexedDbReads
import Gink.Js.Strings

namespace Gink

namespace Js

namespace MemoryStore

/-! ## §1. Keys. -/

/-- A code unit inside a JSON string. -/
def escapeUnit (u : Int) : Str :=
  if u = 34 ∨ u = 92 then [92, u]
  else if u = 8 then [92, 98]
  else if u = 9 then [92, 116]
  else if u = 10 then [92, 110]
  else if u = 12 then [92, 102]
  else if u = 13 then [92, 114]
  else if u < 32 then [92, 117] ++ padStart ((Nat.digits 16 u.toNat).reverse.map fun d =>
    if d < 10 then 48 + d else 87 + d) 4
  else [u]

/-- `JSON.stringify(s)`. -/
def jsonString (s : String) : Str := [34] ++ (Idb.units s).flatMap escapeUnit ++ [34]

/-- `JSON.stringify(n)`. -/
def decimal (n : Int) : Str :=
  if n = 0 then [48]
  else (if n < 0 then dash else []) ++ (Nat.digits 10 n.natAbs).reverse.map fun d => 48 + (d : Int)

/-- `array.toString()`. -/
def joined : List Int → Str
  | [] => []
  | [n] => decimal n
  | n :: rest => decimal n ++ comma ++ joined rest

/-- `storageKeyToString(storageKey)`. -/
def storageKeyToString : StorageKey → Str
  | .number n => decimal n
  | .characters s => jsonString s
  | .octets b => [40] ++ joined (b.map fun x => (x.val : Int)) ++ [41]
  | .empty => []
  | .muid m => muidTupleToString m
  | .pair left rite =>
      joined [left.timestamp, left.medallion, left.offset,
        rite.timestamp, rite.medallion, rite.offset]

/-- `containerId,key,placementId`. -/
def placementKey (e : Entry) : Str :=
  muidTupleToString e.containerId ++ comma ++ storageKeyToString e.storageKey ++ comma ++
    muidTupleToString e.placementId

/-- Two muids with a comma between. -/
def joinedIds (a b : Str) : Str := a ++ comma ++ b

/-- `s.slice(-34)`. -/
def lastUnits (s : Str) : Str := s.drop (s.length - 34)

/-! ## §2. Tables. -/

structure Contents where
  /-- `ContainerID,Key,PlacementId => Entry` -/
  placements : Table Str Entry := ∅
  /-- `entryId,placementId => containerId,key,placementId` -/
  locations : Table Str Str := ∅
  /-- `placementId,removalId => ""` -/
  removals : Table Str Unit := ∅
  /-- `ContainerId,ClearanceId => Clearance` -/
  clearances : Table Str Clearance := ∅
  /-- `ContainerId => bytes` -/
  containers : Table Str ContainerBuilder := ∅
  deriving Inhabited

/-- The keys a walk erases which erases each row it stands on, given those it may get to. -/
structure Walks where
  /-- with `next()` after `erase`, over the keys with a prefix -/
  forwards : List Str → List Str
  /-- with `prev()` -/
  backwards : List Str → List Str

/-- `toLastWithPrefixBeforeSuffix(map, prefix, suffix)`: the row the iterator stands on. -/
def toLastWithPrefixBeforeSuffix {V : Type} (t : Table Str V) (pre suffix : Str) :
    Option (Str × V) :=
  match t.lastWhere fun k => decide (k ≤ pre ++ suffix) with
  | none => none
  | some row => if pre.isPrefixOf row.1 then some row else none

/-- The rows a walk from there visits with `prev()`, while the keys start with the prefix. -/
def backFrom {V : Type} (t : Table Str V) (pre suffix : Str) : List (Str × V) :=
  (t.rowsWhere fun k => decide (k ≤ pre ++ suffix)).reverse.takeWhile fun r => pre.isPrefixOf r.1

/-! ## §3. Entries. -/

/-- The object made of an entry. -/
def buildEntry (entryBuilder : EntryBuilder) (info : BundleInfo) (offset : Nat) :
    Except JsError Entry := do
  let pairLists ← IndexedDb.pairListsOf entryBuilder info
  let containerId ← extractContainerMuid entryBuilder info
  let storageKey ← getStorageKey entryBuilder (changeAddress info offset)
  return {
    behavior := entryBuilder.behavior
    containerId
    storageKey
    entryId := changeAddress info offset
    pointeeList := IndexedDb.pointeeListOf entryBuilder info
    value := entryBuilder.value?
    expiry := if entryBuilder.expiry.val = 0 then none else some entryBuilder.expiry.val
    deletion := entryBuilder.deletion
    placementId := changeAddress info offset
    sourceList := pairLists.1
    targetList := pairLists.2 }

/-- Where entries of an ordered container stand, and what a keyed one replaces. -/
def makeRoom (walks : Walks) (keepingHistory purging : Bool) (entry : Entry) (c : Contents) :
    Contents :=
  let entryIdStr := muidTupleToString entry.entryId
  let placementIdStr := muidTupleToString entry.placementId
  if entry.behavior = .sequence ∨ entry.behavior = .edgeType then
    { c with locations := c.locations.put (joinedIds entryIdStr placementIdStr) (placementKey entry) }
  else
    let pre := muidTupleToString entry.containerId ++ comma ++ storageKeyToString entry.storageKey
    let found := (backFrom c.placements pre tilde).map Prod.fst
    if purging || !keepingHistory then
      { c with placements := (walks.backwards found).foldl Table.erase c.placements }
    else
      let removals := found.foldl (fun t k => t.put (joinedIds (lastUnits k) entryIdStr) ()) c.removals
      { c with removals }

/-- The increment of an accumulator is an integer. -/
def isBigint : Option ValueBuilder → Bool
  | some (.integer _) => true
  | _ => false

/-- `addEntry(entry)`; `purging` is a field of the entry there. -/
def addEntry (walks : Walks) (keepingHistory purging : Bool) (entry : Entry) (c : Contents) :
    Except JsError Contents :=
  let c := makeRoom walks keepingHistory purging entry c
  let c := { c with placements := c.placements.put (placementKey entry) entry }
  if entry.behavior = .accumulator ∧ !isBigint entry.value then
    .error ⟨"Accumulator increment not an integer?"⟩
  else .ok c

/-! ## §4. Movements and clearances. -/

/-- The places of an entry erased one after the other; with them the entry found last. -/
def eraseLocations (keys : List Str) (c : Contents) : Option Entry × Contents :=
  keys.foldl (fun (found, c) k =>
    match c.locations.get? k with
    | none => (found, c)
    | some location => (c.placements.get? location,
        { c with
          placements := c.placements.erase location
          locations := c.locations.erase k })) (none, c)

/-- The entry placed anew, unless it is deleted. -/
def replaceMoved (walks : Walks) (keepingHistory : Bool) (movement : Movement)
    (found : Option Entry) (c : Contents) : Except JsError Contents :=
  if movement.dest ≠ 0 then
    match found with
    | some entry =>
        addEntry walks keepingHistory false (IndexedDb.Entry.movedTo entry movement) c
    | none => .error ⟨"Cannot read properties of undefined"⟩
  else .ok c

/-- `applyMovement(movement)`. -/
def applyMovement (walks : Walks) (keepingHistory : Bool) (movement : Movement) (c : Contents) :
    Except JsError Contents :=
  let entryIdStr := muidTupleToString movement.entryId
  let movementIdStr := muidTupleToString movement.movementId
  if movement.purge || !keepingHistory then
    let keys := (c.locations.rows.map Prod.fst).filter fun k => entryIdStr.isPrefixOf k
    let erased := eraseLocations (walks.forwards keys) c
    replaceMoved walks keepingHistory movement erased.1 erased.2
  else
    match toLastWithPrefixBeforeSuffix c.locations entryIdStr tilde with
    | none => .ok c  -- something it has no record of
    | some location =>
        let entry := c.placements.get? location.2
        let removal := joinedIds (lastUnits location.2) movementIdStr
        replaceMoved walks keepingHistory movement entry
          { c with removals := c.removals.put removal () }

/-- What a purging clearance erases. -/
def purge (walks : Walks) (containerIdStr : Str) (c : Contents) : Contents :=
  let upper := containerIdStr ++ comma ++ tilde ++ comma ++ tilde
  let clearances := (c.clearances.rows.map Prod.fst).filter fun k =>
    decide (containerIdStr ≤ k) && decide (k ≤ containerIdStr ++ comma ++ tilde)
  { c with
    placements := c.placements.eraseWhere fun k => decide (containerIdStr ≤ k) && decide (k ≤ upper)
    clearances := (walks.forwards clearances).foldl Table.erase c.clearances }

/-- `changeBuilder.hasClearance()`. -/
def applyClearance (walks : Walks) (info : BundleInfo) (offset : Nat)
    (clearanceBuilder : ClearanceBuilder) (c : Contents) : Except JsError Contents := do
  let container ←
    builderToMuid (← message clearanceBuilder.container) (changeAddress info offset)
  let containerIdStr := muidTupleToString container
  let c := if clearanceBuilder.purge then purge walks containerIdStr c else c
  let clearance : Clearance := ⟨container, changeAddress info offset, clearanceBuilder.purge⟩
  let key := joinedIds containerIdStr (muidTupleToString clearance.clearanceId)
  return { c with clearances := c.clearances.put key clearance }

/-! ## §5. The change loop. -/

/-- One turn of the loop. -/
def applyChange (walks : Walks) (keepingHistory : Bool) (info : BundleInfo) (offset : Nat)
    (c : Contents) : ChangeBuilder → Except JsError Contents
  | .container container =>
      .ok { c with containers :=
        c.containers.put (muidTupleToString (changeAddress info offset)) container }
  | .entry entryBuilder => do
      let entry ← buildEntry entryBuilder info offset
      addEntry walks keepingHistory entryBuilder.purge entry c
  | .movement movementBuilder => do
      let movement ← extractMovement movementBuilder info offset
      applyMovement walks keepingHistory movement c
  | .clearance clearance => applyClearance walks info offset clearance c
  | .unset => .error ⟨"don't know how to apply this kind of change"⟩

/-- The loop, from the change with the given offset on. -/
def applyChangesFrom (walks : Walks) (keepingHistory : Bool) (info : BundleInfo) :
    Nat → List ChangeBuilder → Contents → Except JsError Contents
  | _, [], c => .ok c
  | offset, change :: rest, c => do
      let c ← applyChange walks keepingHistory info offset c change
      applyChangesFrom walks keepingHistory info (offset + 1) rest c

/-- Bundles applied one after the other to an empty store. -/
inductive History (walks : Walks) (keepingHistory : Bool) : List OpenBundle → Contents → Prop
  | start : History walks keepingHistory [] {}
  | next {past : List OpenBundle} {c c' : Contents} {b : OpenBundle}
      (before : History walks keepingHistory past c)
      (applied : applyChangesFrom walks keepingHistory b.info 1 b.changes c = .ok c') :
      History walks keepingHistory (past ++ [b]) c'

/-- The same as a function. -/
def applyAll (walks : Walks) (keepingHistory : Bool) :
    List OpenBundle → Contents → Except JsError Contents
  | [], c => .ok c
  | b :: rest, c => do
      let c ← applyChangesFrom walks keepingHistory b.info 1 b.changes c
      applyAll walks keepingHistory rest c

theorem History.applyAll {walks : Walks} {keepingHistory : Bool} {bundles : List OpenBundle} :
    ∀ {past : List OpenBundle} {c c' : Contents}, History walks keepingHistory past c →
      MemoryStore.applyAll walks keepingHistory bundles c = .ok c' →
      History walks keepingHistory (past ++ bundles) c' := by
  induction bundles with
  | nil =>
      intro past c c' h happly
      injection happly with happly
      rw [List.append_nil, ← happly]
      exact h
  | cons b rest ih =>
      intro past c c' h happly
      obtain ⟨c1, hone, hrest⟩ := bind_eq_ok.mp happly
      have hall := ih (.next h hone) hrest
      rwa [List.append_assoc] at hall

/-! ## §6. Reads of ordered containers. -/

/-- `asOfToTimestamp(asOf)`; `trxns` are the timestamps of the stored bundles, from the
last key of `trxns` down. -/
def asOfToTimestamp (trxns : List Int) (asOf : Int) : Except JsError Int :=
  IndexedDb.asOfToTimestamp trxns asOf

/-- `getLastClearanceTime(containerId, asOf)`. -/
def getLastClearanceTime (c : Contents) (containerId : Str) (asOf : Int) : Int :=
  let asOfStr := if asOf = 0 then tilde else muidTupleToString ⟨asOf, 0, 0⟩
  match c.clearances.lastWhere fun k => decide (k ≤ joinedIds containerId asOfStr) with
  | some (_, clearance) =>
      if containerId = muidTupleToString clearance.containerId then clearance.clearanceId.timestamp
      else 0
  | none => 0

/-- Whether the loop passes over a placement. -/
def passesOver (c : Contents) (clearanceTime asOfTs : Int) (k : Str) : Bool :=
  let asOfTsStr := muidTupleToString ⟨asOfTs, 0, 0⟩
  let clearanceTimeStr := muidTupleToString ⟨clearanceTime, 0, 0⟩
  let placementIdStr := lastUnits k
  decide (placementIdStr < clearanceTimeStr) || decide (placementIdStr > asOfTsStr) ||
    (toLastWithPrefixBeforeSuffix c.removals placementIdStr (comma ++ asOfTsStr)).isSome

/-- The loop over the rows an iterator gets to: the keys and entries of the map, up to
`needed` of them (none is `Infinity`). -/
def collect (c : Contents) (containerIdStr : Str) (clearanceTime asOfTs : Int) :
    Option Nat → List (Str × Entry) → Except JsError (List (Str × Entry))
  | _, [] => .ok []
  | needed, (k, entry) :: rest =>
      if needed = some 0 then .ok []
      else if k.take 34 ≠ containerIdStr then .ok []
      else if passesOver c clearanceTime asOfTs k then
        collect c containerIdStr clearanceTime asOfTs needed rest
      else if muidTupleToString entry.containerId ≠ containerIdStr then .error ⟨"assert failed"⟩
      else do
        let more ← collect c containerIdStr clearanceTime asOfTs (needed.map (· - 1)) rest
        return (k.drop 35, entry) :: more

/-- `getOrderedEntriesSync(container, through, asOf)`; `through` is none for `Infinity`, and
`now` is what `generateTimestamp()` returns. -/
def getOrderedEntries (c : Contents) (trxns : List Int) (now : Int) (container : MuidTuple)
    (through asOf : Option Int) : Except JsError (List (Str × Entry)) := do
  let asOfTs ← match asOf with
    | none => pure now
    | some t => if t = 0 then pure now else asOfToTimestamp trxns t
  let containerIdStr := muidTupleToString container
  let clearanceTime := getLastClearanceTime c containerIdStr asOfTs
  let upwards := c.placements.rowsWhere fun k => decide (containerIdStr ≤ k)
  let downwards :=
    (c.placements.rowsWhere fun k => decide (k ≤ joinedIds containerIdStr (decimal asOfTs))).reverse
  match through with
  | none => collect c containerIdStr clearanceTime asOfTs none upwards
  | some n =>
      if n < 0 then collect c containerIdStr clearanceTime asOfTs (some (-n).toNat) downwards
      else collect c containerIdStr clearanceTime asOfTs (some (n + 1).toNat) upwards

end MemoryStore

end Js

end Gink
