/-
  Gink.Js.IndexedDbReads — reads of an `IndexedDbStore` (IndexedDbStore.ts).

  A bound such as `[container, key, [asOf]]` lies just below every placement made at the
  as-of time, since an array comes after its proper prefixes; a missing as-of reads as
  `Infinity`.
-/
import Gink.Js.IndexedDb

namespace Gink

namespace Js

open Gink.Idb (Key Range index visited lastIn)

namespace IndexedDb

/-! ## §1. As-of arguments. -/

/-- `new Date("2020-01-01").getTime() * 1000`. -/
def year2020 : Int := 1577836800000000

/-- `asOfToTimestamp(asOf)`; `trxns` are the timestamps of the stored bundles, from the
last key of `trxns` down. -/
def asOfToTimestamp (trxns : List Int) (asOf : Int) : Except JsError Int :=
  if asOf > year2020 then .ok asOf
  else if asOf < 0 ∧ asOf > -1000 then
    -- interpreted as a number of bundles in the past
    match trxns[(-asOf - 1).toNat]? with
    | some timestamp => .ok timestamp
    | none => .error ⟨"no bundles that far back"⟩
  else .error ⟨"don't know how to interpret asOf"⟩

/-- `asOf ? await this.asOfToTimestamp(asOf) : otherwise`; none is `Infinity`. -/
def resolveAsOf (trxns : List Int) (asOf otherwise : Option Int) :
    Except JsError (Option Int) :=
  match asOf with
  | none => .ok otherwise
  | some t => if t = 0 then .ok otherwise else (asOfToTimestamp trxns t).map some

/-! ## §2. Reads. -/

/-- The time of the last clearance of a container before the as-of time, or 0. -/
def getClearanceTime (c : Contents) (container : MuidTuple) (asOfTs : Option Int) : Int :=
  match lastIn c.clearances ⟨.array [container.key],
      .array [container.key, .array [timeKey asOfTs]]⟩ with
  | some clearance => clearance.clearanceId.timestamp
  | none => 0

/-- `getEntryByKey(container, key, asOf)`, with the storage key of the key. -/
def getEntryByKey (c : Contents) (trxns : List Int) (container : MuidTuple)
    (storageKey : StorageKey) (asOf : Option Int) : Except JsError (Option Entry) := do
  let asOfTs ← resolveAsOf trxns asOf none
  let clearanceTime := getClearanceTime c container asOfTs
  let upper := Key.array [container.key, storageKey.key, .array [timeKey asOfTs]]
  match lastIn (index c.entries Entry.byContainerKeyPlacement) ⟨.array [container.key], upper⟩ with
  | none => return none
  | some entry =>
      if entry.storageKey ≠ storageKey then return none
      -- a clearance happened after this was placed, so it is treated as gone
      else if entry.placementId.timestamp < clearanceTime then return none
      else return some entry

/-- Whether a placement was removed before the as-of time. -/
def isRemoved (c : Contents) (placementId : MuidTuple) (asOfTs : Option Int) : Bool :=
  !(visited (index c.removals Removal.byRemoving) ⟨.array [placementId.key],
    .array [placementId.key, .array [timeKey asOfTs]]⟩).isEmpty

/-- The entries of a container that stand at the as-of time, in the order of the index. -/
def standing (c : Contents) (container : MuidTuple) (asOfTs : Option Int) : List Entry :=
  let clearanceTime := getClearanceTime c container asOfTs
  (visited (index c.entries Entry.byContainerKeyPlacement)
    ⟨.array [container.key, .number 0], .array [container.key, timeKey asOfTs]⟩).filter fun entry =>
      decide (entry.placementId.timestamp ≥ clearanceTime) &&
        !isRemoved c entry.placementId asOfTs

/-- `getOrderedEntries(container, through, asOf)`: the values of the map it returns, in
order; `through` is none for `Infinity`, and `now` is what `generateTimestamp()` returns. -/
def getOrderedEntries (c : Contents) (trxns : List Int) (now : Int) (container : MuidTuple)
    (through asOf : Option Int) : Except JsError (List Entry) := do
  let asOfTs ← resolveAsOf trxns asOf (some (now + 1))
  let entries := standing c container asOfTs
  match through with
  | none => return entries
  | some n => return if n < 0 then entries.reverse.take (-n).toNat else entries.take (n + 1).toNat

end IndexedDb

end Js

end Gink
