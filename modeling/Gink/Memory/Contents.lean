/-
  Gink.Memory.Contents — the dictionaries of `MemoryStore` that hold what the changes
  say, and the reads over them (memory_store.py).

  `SortedDict.irange(minimum, maximum, reverse)` is a filter of the rows in key
  order, both bounds included.
-/
import Gink.Table.Sorted
import Gink.Proto.Coding
import Mathlib

namespace Gink

namespace Memory

/-- `LocationKey`: named tuples compare field by field. -/
abbrev LocationKey := Muid ×ₗ Muid

/-- The dictionaries written by `_add_entry`, `_add_movement` and `_add_clearance`,
and the container definitions. -/
structure Contents where
  entries : Table Muid EntryBuilder := ∅
  containers : Table Muid ContainerBuilder := ∅
  placements : Table Bytes Muid := ∅
  /-- `None` once deleted -/
  locations : Table LocationKey (Option Bytes) := ∅
  /-- the movement, or `b""` (none) for a replacing entry -/
  removals : Table Bytes (Option MovementBuilder) := ∅
  clearances : Table Bytes ClearanceBuilder := ∅
  byName : Table Bytes Bytes := ∅
  byDescribing : Table Bytes Bytes := ∅
  totals : Table Bytes Int := ∅
  deriving Inhabited

/-- `irange(minimum, maximum)`. -/
def irange {K V : Type} [LinearOrder K] (t : Table K V) (minimum maximum : K) : List (K × V) :=
  t.rows.filter (fun r => decide (minimum ≤ r.1) && decide (r.1 ≤ maximum))

/-- `irange(minimum)`. -/
def irangeFrom {K V : Type} [LinearOrder K] (t : Table K V) (minimum : K) : List (K × V) :=
  t.rows.filter (fun r => decide (minimum ≤ r.1))

/-- `b"\xFF" * n`. -/
def ones (n : Nat) : Bytes := List.replicate n 255

/-- `Muid(0, 0, 0)`. -/
def epoch : Muid := ⟨0, 0, 0⟩

/-- `self._entries[muid]`. -/
def readEntry (c : Contents) (muid : Muid) : Except Error EntryBuilder :=
  orRaise (.keyError "entries") (c.entries.get? muid)

/-! ## §1. The reads the writers rest on. -/

/-- `_get_time_of_prior_clear(container, as_of)`: the loop has no `break`, so the
value left is that of the last key it visits. -/
def timeOfPriorClear (c : Contents) (container : Muid) (asOf : Int) : Except Error Int := do
  let asOfMuid ← Muid.instant asOf
  let rows := irange c.clearances container.toBytes (container.toBytes ++ asOfMuid.toBytes)
  rows.reverse.foldlM
    (fun _ r => (Muid.fromBytes ((r.1.take 32).drop 16)).map Muid.timestamp) 0

/-- `get_entry_by_key(container, key, as_of)`. -/
def getEntryByKey (c : Contents) (container : Muid) (key : MiddleKey) (asOf : Int) :
    Except Error (Option FoundEntry) := do
  let asOfMuid ← Muid.instant asOf
  let clearanceTime ← timeOfPriorClear c container asOf
  let minimum ← (Placement.mk container key epoch none).toBytes
  let maximum ← (Placement.mk container key asOfMuid none).toBytes
  match (irange c.placements minimum maximum).getLast? with
  | none => return none
  | some row =>
      let builder ← readEntry c row.2
      let placement ← Placement.fromBytes row.1 builder.behavior
      if clearanceTime > placement.placer.timestamp then return none
      else return some ⟨placement.placer, builder⟩

/-- `_get_location(entry_muid, as_of)`. -/
def getLocation (c : Contents) (entryMuid : Muid) (asOf : Int) : Except Error (Option Bytes) := do
  let asOfMuid ← Muid.instant asOf
  match (irange c.locations (toLex (entryMuid, epoch)) (toLex (entryMuid, asOfMuid))).getLast? with
  | none => return none
  | some row => return row.2

/-- `_get_last_removal_before_placer(container, placer)`. -/
def lastRemoval (c : Contents) (container placer : Muid) : Option Bytes :=
  let pre := container.toBytes ++ placer.toBytes
  (irange c.removals pre (pre ++ ones 16)).getLast?.map Prod.fst

/-! ## §2. Reads. -/

/-- `get_positioned_entry(entry, as_of)`. -/
def getPositionedEntry (c : Contents) (entry : Muid) (asOf : Int) :
    Except Error (Option PositionedEntry) := do
  match ← getLocation c entry asOf with
  | none => return none
  | some location =>
      let entryMuid ← orRaise (.keyError "placements") (c.placements.get? location)
      let builder ← readEntry c entryMuid
      let placement ← Placement.fromBytes location builder.behavior
      let position ← placement.middle.position
      return some ⟨position, placement.placer, placement.placer, builder⟩

/-- Whether the entry placed by `placer` was (re)moved before the as-of time. -/
def removedBy (c : Contents) (container placer : Muid) (asOf : Int) : Except Error Bool :=
  match lastRemoval c container placer with
  | none => .ok false
  | some key => (Muid.fromBytes (key.drop 32)).map fun movement =>
      decide (movement.timestamp < asOf)

/-- Whether one end of an edge is the wanted one, when one is wanted. -/
def endMatches (entryMuid : Muid) (side : MuidBuilder) : Option Muid → Except Error Bool
  | none => .ok true
  | some wanted => (resolve entryMuid.context side).map fun found => decide (wanted = found)

/-- The loop of `get_ordered_entries`. -/
def orderedLoop (c : Contents) (container : Muid) (asOf clearanceTime : Int) :
    List (Bytes × Muid) → Option Int → Int → Except Error (List PositionedEntry)
  | [], _, _ => .ok []
  | row :: rest, limit, offset =>
      if limit.any (fun n => decide (n ≤ 0)) then .ok []
      else do
        let builder ← readEntry c row.2
        let placement ← Placement.fromBytes row.1 .sequence
        if placement.placedTime ≥ asOf ∨ placement.placedTime < clearanceTime then
          orderedLoop c container asOf clearanceTime rest limit offset
        else if placement.expiry.any (fun expiry => decide (expiry < asOf)) then
          orderedLoop c container asOf clearanceTime rest limit offset
        else
          let removed ← removedBy c container placement.placer asOf
          if removed then orderedLoop c container asOf clearanceTime rest limit offset
          else if offset > 0 then
            orderedLoop c container asOf clearanceTime rest limit (offset - 1)
          else
            let position ← placement.middle.position
            let others ←
              orderedLoop c container asOf clearanceTime rest (limit.map (· - 1)) offset
            return ⟨position, placement.placer, row.2, builder⟩ :: others

/-- `get_ordered_entries(container, as_of, limit, offset, desc, after)`. -/
def getOrderedEntries (c : Contents) (container : Muid) (asOf : Int)
    (limit : Option Int := none) (offset : Int := 0) (desc : Bool := false) (after : Int := 0) :
    Except Error (List PositionedEntry) := do
  let clearanceTime ← timeOfPriorClear c container asOf
  let afterBytes ← encodeMuts after
  let beforeBytes ← encodeMuts asOf
  let rows := irange c.placements (container.toBytes ++ afterBytes)
    (container.toBytes ++ beforeBytes)
  orderedLoop c container asOf clearanceTime (if desc then rows.reverse else rows) limit offset

/-- The loop of `get_keyed_entries`; `last` is the middle of the key dealt with last,
`None` at first. -/
def keyedLoop (c : Contents) (behavior : Behavior) (asOf clearanceTime : Int) :
    List (Bytes × Muid) → MiddleKey → Except Error (List FoundEntry)
  | [], _ => .ok []
  | row :: rest, last => do
      let placement ← Placement.fromBytes row.1 behavior
      if placement.placer.timestamp ≥ asOf ∧ asOf > 0 then
        keyedLoop c behavior asOf clearanceTime rest last
      else if placement.middle = last then keyedLoop c behavior asOf clearanceTime rest last
      else if clearanceTime ≠ 0 ∧ placement.placer.timestamp < clearanceTime then
        keyedLoop c behavior asOf clearanceTime rest placement.middle
      else if placement.expiry.any (fun expiry => decide (expiry < asOf)) then
        keyedLoop c behavior asOf clearanceTime rest placement.middle
      else
        let builder ← readEntry c row.2
        let others ← keyedLoop c behavior asOf clearanceTime rest placement.middle
        return ⟨placement.placer, builder⟩ :: others

/-- `get_keyed_entries(container, behavior, as_of)`. -/
def getKeyedEntries (c : Contents) (container : Muid) (behavior : Behavior) (asOf : Int) :
    Except Error (List FoundEntry) := do
  let clearanceTime ← timeOfPriorClear c container asOf
  let rows := irange c.placements container.toBytes (container.toBytes ++ ones 16)
  keyedLoop c behavior asOf clearanceTime rows.reverse .none

/-- The loop of `get_edge_entries`. -/
def edgeLoop (c : Contents) (edgeType : Muid) (asOf : Int) (source target : Option Muid) :
    List (Bytes × Muid) → Except Error (List FoundEntry)
  | [] => .ok []
  | row :: rest =>
      if !edgeType.toBytes.isPrefixOf row.1 then .ok []
      else do
        let placement ← Placement.fromBytes row.1 .edgeType
        if placement.placer.timestamp > asOf then edgeLoop c edgeType asOf source target rest
        else
          let builder ← readEntry c row.2
          if (lastRemoval c placement.container placement.placer).isSome then
            edgeLoop c edgeType asOf source target rest
          else
            let pair := builder.pair?.getD {}
            let sourceMatches ← endMatches row.2 pair.left source
            if !sourceMatches then edgeLoop c edgeType asOf source target rest
            else
              let targetMatches ← endMatches row.2 pair.rite target
              let others ← edgeLoop c edgeType asOf source target rest
              return if targetMatches then ⟨row.2, builder⟩ :: others else others

/-- `get_edge_entries(as_of, edge_type, source, target)`. -/
def getEdgeEntries (c : Contents) (asOf : Int) (edgeType source target : Option Muid) :
    Except Error (List FoundEntry) :=
  match edgeType with
  | none => .error (.notImplementedError
      "edge scans without an edge type aren't currently supported in memory store")
  | some edgeType =>
      edgeLoop c edgeType asOf source target (irangeFrom c.placements edgeType.toBytes)

/-- The container a name leads to. -/
def namedContainer (c : Contents) (described : Muid) : Except Error ContainerBuilder :=
  if described.timestamp = -1 then
    .ok ⟨behaviorOfCode described.offset⟩
  else orRaise (.keyError "containers") (c.containers.get? described)

/-- The loop of `get_by_name`. -/
def byNameLoop (c : Contents) (clearanceTime : Int) :
    List (Bytes × Bytes) → Except Error (List FoundContainer)
  | [] => .ok []
  | row :: rest => do
      let described ← Muid.fromBytes row.2
      let builder ← namedContainer c described
      let entryMuid ← Muid.fromBytes (row.1.drop (row.1.length - 16))
      let others ← byNameLoop c clearanceTime rest
      return if clearanceTime > entryMuid.timestamp then others else ⟨described, builder⟩ :: others

/-- `get_by_name(name, as_of)`. -/
def getByName (c : Contents) (name : String) (asOf : Int) : Except Error (List FoundContainer) := do
  let asOfMuid ← Muid.make asOf (-1) (-1)
  let keyMin := utf8 name ++ [0]
  let clearanceTime ← timeOfPriorClear c (globalMuid .property) asOf
  byNameLoop c clearanceTime
    (irange c.byName keyMin (keyMin ++ asOfMuid.toBytes ++ ones 16)).reverse

/-- The loop of `get_by_describing`. -/
def byDescribingLoop (c : Contents) (minimum : Bytes) (asOf : Int) :
    List (Bytes × Bytes) → Except Error (List FoundEntry)
  | [] => .ok []
  | row :: rest =>
      if ¬ minimum <:+: row.1 then .ok []
      else do
        let container ← Muid.fromBytes row.2
        let clearanceTime ← timeOfPriorClear c container asOf
        let entryMuid ← Muid.fromBytes (row.1.drop (row.1.length - 16))
        let builder ← readEntry c entryMuid
        let others ← byDescribingLoop c minimum asOf rest
        return if clearanceTime > entryMuid.timestamp then others else ⟨entryMuid, builder⟩ :: others

/-- `get_by_describing(desc, as_of)`. -/
def getByDescribing (c : Contents) (desc : Muid) (asOf : Int) : Except Error (List FoundEntry) := do
  let asOfMuid ← Muid.make asOf (-1) (-1)
  byDescribingLoop c desc.toBytes asOf
    (irange c.byDescribing desc.toBytes (desc.toBytes ++ asOfMuid.toBytes)).reverse

/-- `get_by_value(property, value, as_of)`. -/
def getByValue (_property : Muid) (_value : ValueBuilder ⊕ Muid) (_asOf : Int) :
    Except Error (List FoundContainer) :=
  .error (.notImplementedError "get_by_value is not implemented in MemoryStore")

/-- `get_container(container)`. -/
def getContainer (c : Contents) (container : Muid) : Option ContainerBuilder :=
  c.containers.get? container

/-- `list_containers()`. -/
def listContainers (c : Contents) : List (Muid × ContainerBuilder) := c.containers.rows

end Memory

end Gink
