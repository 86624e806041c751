/-
  Gink.Lmdb.Reads — the scans that answer questions about containers (lmdb_store.py).

  Each read walks a cursor over the placements table (edges by a side walk the side
  index) and decides row by row what to yield.  A read is the list of everything its
  generator yields, or the exception it ends with.
-/
import Gink.Lmdb.Contents

namespace Gink

namespace Lmdb

/-! ## §1. Ordered containers. -/

/-- The arguments of `get_ordered_entries` that its loop does not change. -/
structure OrderedScan where
  container : Muid
  asOf : Int
  desc : Bool
  after : Int
  clearanceTime : Int

/-- Whether an entry at this position was (re)moved by the as-of time. -/
def removedBy (c : Contents) (container placer : Muid) (asOf : Int) : Except Error Bool :=
  match toLast c.removals (container.toBytes ++ placer.toBytes) with
  | none => .ok false
  | some found => (Muid.fromBytes (found.1.drop 32)).map fun movement =>
      decide (movement.timestamp < asOf)

/-- The loop of `get_ordered_entries` over the rows the cursor will visit. -/
def orderedLoop (c : Contents) (q : OrderedScan) :
    List (Bytes × Bytes) → Option Int → Int → Except Error (List PositionedEntry)
  | [], _, _ => .ok []
  | row :: rest, limit, offset =>
      if limit.any (fun n => decide (n ≤ 0)) then .ok []
      else if !q.container.toBytes.isPrefixOf row.1 then .ok []  -- entries of another container
      else do
        let placement ← Placement.fromBytes row.1 .sequence
        let position ← placement.middle.position
        if position > q.asOf then
          if q.desc then orderedLoop c q rest limit offset else return []
        else if position < q.after then
          if q.desc then return []
          else throw (.assertionError "before the after time in ascending order?")
        -- put here after when I'm looking, or a clear happened
        else if placement.placedTime ≥ q.asOf ∨ placement.placedTime < q.clearanceTime then
          orderedLoop c q rest limit offset
        else if placement.expiry.any (fun expiry => decide (expiry < q.asOf)) then
          orderedLoop c q rest limit offset
        else if ← removedBy c q.container placement.placer q.asOf then
          orderedLoop c q rest limit offset
        else if offset > 0 then orderedLoop c q rest limit (offset - 1)
        else
          let builder ← readEntry c row.2
          let entryMuid ← Muid.fromBytes row.2
          let others ← orderedLoop c q rest (limit.map (· - 1)) offset
          return ⟨position, placement.placer, entryMuid, builder⟩ :: others

/-- The rows a scan of the container visits: from the `after` position up, or from
the container's last row down. -/
def orderedRows (c : Contents) (container : Muid) (desc : Bool) (after : Int) :
    Except Error (List (Bytes × Bytes)) :=
  if desc then
    .ok (match toLast c.placements container.toBytes with
      | none => []
      | some last => (c.placements.rows.filter (fun r => decide (r.1 ≤ last.1))).reverse)
  else (encodeMuts after).map fun afterBytes =>
    c.placements.rows.filter (fun r => decide (container.toBytes ++ afterBytes ≤ r.1))

/-- `get_ordered_entries(container, as_of, limit, offset, desc, after)`. -/
def getOrderedEntries (c : Contents) (container : Muid) (asOf : Int)
    (limit : Option Int := none) (offset : Int := 0) (desc : Bool := false) (after : Int := 0) :
    Except Error (List PositionedEntry) := do
  let clearanceTime ← timeOfPriorClear c container asOf
  let rows ← orderedRows c container desc after
  orderedLoop c ⟨container, asOf, desc, after, clearanceTime⟩ rows limit offset

/-- `get_positioned_entry(entry, as_of)`. -/
def getPositionedEntry (c : Contents) (entry : Muid) (asOf : Int) :
    Except Error (Option PositionedEntry) := do
  match ← getLocation c entry asOf with
  | none => return none
  | some placement =>
      let position ← placement.middle.position
      let builder ← readEntry c entry.toBytes
      return some ⟨position, placement.placer, entry, builder⟩

/-! ## §2. Keyed containers. -/

/-- The row for one key that `get_keyed_entries` settles on: the row the cursor was
moved to, with the address and the expiry the source takes from the key it parsed
first.  `none` when the key has no entry before the as-of time. -/
structure KeyedRow where
  /-- the key bytes that the next hop starts from -/
  ckey : Bytes
  /-- `placement_key` -/
  placement : Placement
  /-- the entry muid under the cursor -/
  entryMuidBytes : Bytes

/-- The first half of the loop body: step back to before the as-of time if the row
found is too new. -/
def keyedRow (c : Contents) (behavior : Behavior) (asOf : Int) (asOfMuid : Muid)
    (row : Bytes × Bytes) : Except Error (Option KeyedRow) := do
  let placement ← Placement.fromBytes row.1 behavior
  if placement.placer.timestamp ≥ asOf then
    let throughMiddle := row.1.take (row.1.length - 24)
    match toLastSuffix c.placements throughMiddle asOfMuid.toBytes with
    | some earlier =>
        -- the source parses `ckey` again here, not the earlier key
        let placement ← Placement.fromBytes row.1 behavior
        return some ⟨earlier.1, placement, earlier.2⟩
    | none => return none
  else return some ⟨row.1, placement, row.2⟩

/-- `ckey[16:-24]`. -/
def middleBytes (ckey : Bytes) : Bytes := Placement.middleSlice ckey

/-- The loop of `get_keyed_entries`, hopping from key to key downwards. -/
def keyedLoop (c : Contents) (container : Muid) (behavior : Behavior) (asOf : Int)
    (asOfMuid : Muid) (clearanceTime : Int) :
    Nat → Option (Bytes × Bytes) → Except Error (List FoundEntry)
  | _, none => .ok []
  | 0, some _ => .ok []
  | fuel + 1, some row => do
      let hop (ckey : Bytes) := toLastSuffix c.placements container.toBytes (middleBytes ckey)
      match ← keyedRow c behavior asOf asOfMuid row with
      | none => keyedLoop c container behavior asOf asOfMuid clearanceTime fuel (hop row.1)
      | some found =>
          if clearanceTime ≠ 0 ∧ found.placement.placer.timestamp < clearanceTime then
            keyedLoop c container behavior asOf asOfMuid clearanceTime fuel (hop found.ckey)
          else if found.placement.expiry.any (fun expiry => decide (expiry < asOf)) then
            keyedLoop c container behavior asOf asOfMuid clearanceTime fuel (hop found.ckey)
          else
            let builder ← readEntry c found.entryMuidBytes
            let others ←
              keyedLoop c container behavior asOf asOfMuid clearanceTime fuel (hop found.ckey)
            return ⟨found.placement.placer, builder⟩ :: others

/-- `get_keyed_entries(container, behavior, as_of)`.  Every hop lands on a smaller
key, so the loop turns at most once for each row. -/
def getKeyedEntries (c : Contents) (container : Muid) (behavior : Behavior) (asOf : Int) :
    Except Error (List FoundEntry) := do
  let asOfMuid ← Muid.instant asOf
  let clearanceTime ← timeOfPriorClear c container asOf
  keyedLoop c container behavior asOf asOfMuid clearanceTime c.placements.rows.length
    (toLast c.placements container.toBytes)

/-! ## §3. Edges. -/

/-- Whether an edge found in the side index is yielded: its type, then its removal,
then its two ends. -/
def edgeIncluded (c : Contents) (edgeType source target : Option Muid) (entryMuid : Muid)
    (builder : EntryBuilder) (placerBytes : Bytes) : Except Error Bool := do
  let found ← resolve entryMuid.context builder.containerField
  if !edgeType.all (fun m => decide (found = m)) then return false
  else if (toLast c.removals (found.toBytes ++ placerBytes)).isSome then return false
  else
    let left ← resolve entryMuid.context (builder.pair?.getD {}).left
    let rite ← resolve entryMuid.context (builder.pair?.getD {}).rite
    return source.all (fun m => decide (left = m)) && target.all (fun m => decide (rite = m))

/-- The walk over the side index. -/
def edgesBySide (c : Contents) (sideBytes asOfBytes : Bytes) (edgeType source target : Option Muid) :
    List (Bytes × Bytes) → Except Error (List FoundEntry)
  | [] => .ok []
  | row :: rest =>
      if !sideBytes.isPrefixOf row.1 then .ok []
      else if row.2 > asOfBytes then .ok []
      else do
        ensure (row.2.length = 16) (.assertionError "len(entry_bytes) == 16")
        let builder ← orRaise (.assertionError "entry_builder_bytes should be bytes")
          (c.entries.get? row.2)
        let entryMuid ← Muid.fromBytes row.2
        let included ← edgeIncluded c edgeType source target entryMuid builder
          (row.1.drop (row.1.length - 16))
        let others ← edgesBySide c sideBytes asOfBytes edgeType source target rest
        return if included then ⟨entryMuid, builder⟩ :: others else others

/-- The walk over the placements of an edge type. -/
def edgesByType (c : Contents) (edgeType : Muid) (asOfBytes : Bytes) :
    List (Bytes × Bytes) → Except Error (List FoundEntry)
  | [] => .ok []
  | row :: rest =>
      if !edgeType.toBytes.isPrefixOf row.1 then .ok []
      else if ¬ row.1 < edgeType.toBytes ++ asOfBytes then .ok []
      else do
        let placement ← Placement.fromBytes row.1 .edgeType
        let removed := toLast c.removals (edgeType.toBytes ++ placement.placer.toBytes)
        let builder ← readEntry c row.2
        let entryMuid ← Muid.fromBytes row.2
        let others ← edgesByType c edgeType asOfBytes rest
        return if removed.isNone then ⟨entryMuid, builder⟩ :: others else others

/-- `get_edge_entries(as_of, edge_type, source, target)`. -/
def getEdgeEntries (c : Contents) (asOf : Int) (edgeType source target : Option Muid) :
    Except Error (List FoundEntry) :=
  if edgeType.isNone ∧ source.isNone ∧ target.isNone then
    .error (.valueError "need to specify edge_type or source or target")
  else do
    let asOfMuid ← Muid.make asOf (-1) (-1)
    match target.or source, edgeType with
    | some side, _ =>
        edgesBySide c side.toBytes asOfMuid.toBytes edgeType source target
          (c.indexes.bySide.rows.filter (fun r => decide (side.toBytes ≤ r.1)))
    | none, some edgeType =>
        edgesByType c edgeType asOfMuid.toBytes
          (c.placements.rows.filter (fun r => decide (edgeType.toBytes ≤ r.1)))
    | none, none => return []

end Lmdb

end Gink
