/-
  Gink.Js.IndexedDb — the object stores of `IndexedDbStore`, and what applying a bundle's
  changes does to them (IndexedDbStore.ts).

  All writes of a bundle belong to one transaction: whatever is thrown aborts it, so each
  step returns the new stores or the error.  The running totals of accumulators are read
  by `getBillionths` only and left out; so is the unwrapping of values, which rejects some
  messages and is read by no store.
-/
import Gink.Idb.ObjectStore
import Gink.Js.References
import Gink.Proto.Ops

namespace Gink

namespace Js

open Gink.Idb (Key Range add index visited lastIn)

/-! ## §1. Keys. -/

/-- The array key of a muid tuple. -/
def MuidTuple.key (m : MuidTuple) : Key :=
  .array [.number m.timestamp, .number m.medallion, .number m.offset]

/-- The key a storage key is. -/
def StorageKey.key : StorageKey → Key
  | .number n => .number n
  | .characters s => .string s
  | .octets b => .binary b
  | .empty => .array []
  | .muid m => m.key
  | .pair left rite => .array [left.key, rite.key]

/-- A time in a bound: a number, or `Infinity` (none). -/
def timeKey : Option Int → Key
  | some t => .number t
  | none => .infinity

/-! ## §2. Records. -/

/-- `Entry`. -/
structure Entry where
  behavior : Behavior
  containerId : MuidTuple
  storageKey : StorageKey
  entryId : MuidTuple
  pointeeList : List MuidTuple
  value : Option ValueBuilder
  expiry : Option Int
  deletion : Bool
  placementId : MuidTuple
  sourceList : List MuidTuple
  targetList : List MuidTuple
  deriving Repr

/-- `Removal`. -/
structure Removal where
  removing : MuidTuple
  removalId : MuidTuple
  containerId : MuidTuple
  dest : Int
  entryId : MuidTuple
  deriving DecidableEq, Repr

/-- `Clearance`. -/
structure Clearance where
  containerId : MuidTuple
  clearanceId : MuidTuple
  purging : Bool
  deriving DecidableEq, Repr

/-- The index keys `[containerId, storageKey, placementId]`, `[entryId, placementId]`,
`[removing, removalId]` and `[containerId, removalId]`. -/
def Entry.byContainerKeyPlacement (e : Entry) : Key :=
  .array [e.containerId.key, e.storageKey.key, e.placementId.key]

def Entry.location (e : Entry) : Key := .array [e.entryId.key, e.placementId.key]

def Removal.byRemoving (r : Removal) : Key := .array [r.removing.key, r.removalId.key]

def Removal.byContainerMovement (r : Removal) : Key := .array [r.containerId.key, r.removalId.key]

/-- The primary key `["containerId", "clearanceId"]`. -/
def Clearance.key (c : Clearance) : Key := .array [c.containerId.key, c.clearanceId.key]

namespace IndexedDb

/-- The object stores that the changes of a bundle write. -/
structure Contents where
  /-- by `placementId` -/
  entries : Table Key Entry := ∅
  /-- by `removalId` -/
  removals : Table Key Removal := ∅
  clearances : Table Key Clearance := ∅
  containers : Table Key ContainerBuilder := ∅
  deriving Inhabited

/-- `store.add(...)` inside the transaction. -/
def addRecord {V : Type} (t : Table Key V) (k : Key) (v : V) : Except JsError (Table Key V) :=
  match add t k v with
  | some t' => .ok t'
  | none => .error ⟨"ConstraintError"⟩

/-! ## §3. Entries. -/

/-- `containerId` of an entry; one that names no container gets zeros. -/
def containerIdOf (entryBuilder : EntryBuilder) (info : BundleInfo) : Except JsError MuidTuple :=
  match entryBuilder.container with
  | some _ => extractContainerMuid entryBuilder info
  | none => .ok ⟨0, 0, 0⟩

/-- `pointeeList`. -/
def pointeeListOf (entryBuilder : EntryBuilder) (info : BundleInfo) : List MuidTuple :=
  match entryBuilder.pointee? with
  | some pointee => buildPointeeList pointee info
  | none => []

/-- `[sourceList, targetList]`. -/
def pairListsOf (entryBuilder : EntryBuilder) (info : BundleInfo) :
    Except JsError (List MuidTuple × List MuidTuple) :=
  match entryBuilder.pair? with
  | some pair => buildPairLists pair info
  | none => .ok ([], [])

/-- The record made of an entry. -/
def buildEntry (entryBuilder : EntryBuilder) (info : BundleInfo) (offset : Nat) :
    Except JsError Entry := do
  let containerId ← containerIdOf entryBuilder info
  let storageKey ← getStorageKey entryBuilder (changeAddress info offset)
  let pairLists ← pairListsOf entryBuilder info
  return {
    behavior := entryBuilder.behavior
    containerId
    storageKey
    entryId := changeAddress info offset
    pointeeList := pointeeListOf entryBuilder info
    value := entryBuilder.value?
    expiry := if entryBuilder.expiry.val = 0 then none else some entryBuilder.expiry.val
    deletion := entryBuilder.deletion
    placementId := changeAddress info offset
    sourceList := pairLists.1
    targetList := pairLists.2 }

/-- Behaviors whose entries stand beside one another. -/
def accumulates : Behavior → Bool
  | .sequence | .edgeType | .accumulator => true
  | _ => false

/-- The entry a new one replaces: the last under its container and key up to its own
placement. -/
def replacedBy (c : Contents) (e : Entry) : Option Entry :=
  lastIn (index c.entries Entry.byContainerKeyPlacement)
    ⟨.array [e.containerId.key, e.storageKey.key],
      .array [e.containerId.key, e.storageKey.key, e.placementId.key]⟩

/-- What happens to it. -/
def replaceFound (keepingHistory : Bool) (e : Entry) (c : Contents) : Except JsError Contents :=
  if accumulates e.behavior then .ok c
  else match replacedBy c e with
    | none => .ok c
    | some search =>
        if keepingHistory then do
          let removals ← addRecord c.removals e.placementId.key {
            removing := search.placementId
            removalId := e.placementId
            containerId := e.containerId
            dest := 0
            entryId := search.entryId }
          return { c with removals }
        else .ok { c with entries := c.entries.erase search.placementId.key }

/-- `changeBuilder.hasEntry()`. -/
def applyEntry (keepingHistory : Bool) (info : BundleInfo) (offset : Nat)
    (entryBuilder : EntryBuilder) (c : Contents) : Except JsError Contents := do
  let entry ← buildEntry entryBuilder info offset
  let c ← replaceFound keepingHistory entry c
  let entries ← addRecord c.entries entry.placementId.key entry
  return { c with entries }

/-! ## §4. Movements and clearances. -/

/-- The last placement of an entry, over `[entryId, [0]]` to `[entryId, [Infinity]]`. -/
def lastLocation (c : Contents) (entryId : MuidTuple) : Option Entry :=
  lastIn (index c.entries Entry.location)
    ⟨.array [entryId.key, .array [.number 0]], .array [entryId.key, .array [.infinity]]⟩

/-- The record of a moved entry at its new place. -/
def Entry.movedTo (found : Entry) (movement : Movement) : Entry :=
  { found with storageKey := .number movement.dest, placementId := movement.movementId }

/-- The new place of a moved entry, unless it is deleted. -/
def placeMoved (movement : Movement) (found : Entry) (c : Contents) : Except JsError Contents :=
  if movement.dest ≠ 0 then do
    let entries ←
      addRecord c.entries movement.movementId.key (Entry.movedTo found movement)
    return { c with entries }
  else .ok c

/-- The old place of a moved entry: deleted, or recorded as removed. -/
def leaveOld (keepingHistory : Bool) (movement : Movement) (found : Entry) (c : Contents) :
    Except JsError Contents :=
  if movement.purge || !keepingHistory then
    .ok { c with entries := c.entries.erase found.placementId.key }
  else do
    let removals ← addRecord c.removals movement.movementId.key {
      containerId := movement.containerId
      removalId := movement.movementId
      dest := movement.dest
      entryId := movement.entryId
      removing := found.placementId }
    return { c with removals }

/-- `changeBuilder.hasMovement()`. -/
def applyMovement (keepingHistory : Bool) (info : BundleInfo) (offset : Nat)
    (movementBuilder : MovementBuilder) (c : Contents) : Except JsError Contents := do
  let movement ← extractMovement movementBuilder info offset
  match lastLocation c movement.entryId with
  | none => return c  -- nothing found to remove
  | some found =>
      let c ← placeMoved movement found c
      leaveOld keepingHistory movement found c

/-- What a purging clearance deletes: everything of the container. -/
def purge (container : MuidTuple) (c : Contents) : Contents where
  entries := c.entries.eraseWhere fun k =>
    (c.entries.get? k).any fun e => e.containerId = container
  removals := c.removals.eraseWhere fun k =>
    (c.removals.get? k).any fun r => r.containerId = container
  clearances := c.clearances.eraseWhere fun k =>
    (c.clearances.get? k).any fun z => z.containerId = container
  containers := c.containers

/-- `changeBuilder.hasClearance()`. -/
def applyClearance (info : BundleInfo) (offset : Nat) (clearanceBuilder : ClearanceBuilder)
    (c : Contents) : Except JsError Contents := do
  let container ←
    builderToMuid (← message clearanceBuilder.container) (changeAddress info offset)
  let c := if clearanceBuilder.purge then purge container c else c
  let clearance : Clearance := ⟨container, changeAddress info offset, clearanceBuilder.purge⟩
  let clearances ← addRecord c.clearances clearance.key clearance
  return { c with clearances }

/-! ## §5. The change loop. -/

/-- One turn of the loop. -/
def applyChange (keepingHistory : Bool) (info : BundleInfo) (offset : Nat) (c : Contents) :
    ChangeBuilder → Except JsError Contents
  | .container container => do
      let containers ← addRecord c.containers (changeAddress info offset).key container
      return { c with containers }
  | .entry entry => applyEntry keepingHistory info offset entry c
  | .movement movement => applyMovement keepingHistory info offset movement c
  | .clearance clearance => applyClearance info offset clearance c
  | .unset => .error ⟨"don't know how to apply this kind of change"⟩

/-- The loop, from the change with the given offset on. -/
def applyChangesFrom (keepingHistory : Bool) (info : BundleInfo) :
    Nat → List ChangeBuilder → Contents → Except JsError Contents
  | _, [], c => .ok c
  | offset, change :: rest, c => do
      let c ← applyChange keepingHistory info offset c change
      applyChangesFrom keepingHistory info (offset + 1) rest c

/-- Bundles applied one after the other to empty stores. -/
inductive History (keepingHistory : Bool) : List OpenBundle → Contents → Prop
  | start : History keepingHistory [] {}
  | next {past : List OpenBundle} {c c' : Contents} {b : OpenBundle}
      (before : History keepingHistory past c)
      (applied : applyChangesFrom keepingHistory b.info 1 b.changes c = .ok c') :
      History keepingHistory (past ++ [b]) c'

/-- The same as a function. -/
def applyAll (keepingHistory : Bool) : List OpenBundle → Contents → Except JsError Contents
  | [], c => .ok c
  | b :: rest, c => do
      let c ← applyChangesFrom keepingHistory b.info 1 b.changes c
      applyAll keepingHistory rest c

theorem History.applyAll {keepingHistory : Bool} {bundles : List OpenBundle} :
    ∀ {past : List OpenBundle} {c c' : Contents}, History keepingHistory past c →
      IndexedDb.applyAll keepingHistory bundles c = .ok c' →
      History keepingHistory (past ++ bundles) c' := by
  induction bundles with
  | nil =>
      intro past c c' h happly
      injection happly with happly
      rw [List.append_nil, ← happly]
      exact h
  | cons b rest ih =>
      intro past c c' h happly
      obtain ⟨c1, hone, hrest⟩ := bind_eq_ok.mp happly
      have hall := ih (.next h hone) hrest
      rwa [List.append_assoc] at hall

end IndexedDb

end Js

end Gink
