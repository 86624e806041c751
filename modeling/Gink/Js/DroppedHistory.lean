/-
  Gink.Js.DroppedHistory — `dropHistory`, and what the reads of the present lose by it
  (IndexedDbStore.ts).

  A removal names one row of the entries.  Dropping history deletes the rows that the
  removals of before a time name, and these removals with them, whatever the reads make of
  the rows: those by key do not look at removals, and those of sequences and edges look at
  the removals of before the present only.
-/
import Gink.Js.IndexedDbLocation

namespace Gink

namespace Js

open Gink.Idb (Key Range index visited lastIn)
open MemoryStore (noteEntry isKeyed storageKeyToString)

namespace IndexedDb

/-! ## §1. Edges of a vertex. -/

/-- The list that the indexes `sources` and `targets` sort by first. -/
def Entry.ends (source : Bool) (e : Entry) : List MuidTuple :=
  if source then e.sourceList else e.targetList

/-- The index keys `[sourceList, storageKey, placementId]` and
`[targetList, storageKey, placementId]`. -/
def Entry.byEnd (source : Bool) (e : Entry) : Key :=
  .array [.array ((Entry.ends source e).map MuidTuple.key), e.storageKey.key, e.placementId.key]

/-- The entries that a read of the vertex lets through. -/
def attached (c : Contents) (vertex : MuidTuple) (source : Bool) (asOfTs : Option Int) :
    List Entry :=
  let clearanceTime := getClearanceTime c vertex asOfTs
  -- in the lower bound `-Infinity`, which is below every key, is left out
  (visited (index c.entries (Entry.byEnd source))
    ⟨.array [.array [vertex.key]], .array [.array [vertex.key], .infinity]⟩).filter fun entry =>
      asOfTs.all (fun t => decide (entry.placementId.timestamp < t)) &&
        (decide (entry.placementId.timestamp ≥ clearanceTime) &&
          !isRemoved c entry.placementId asOfTs)

/-- `getEntriesBySourceOrTarget(vertex, source, asOf)`. -/
def getEntriesBySourceOrTarget (c : Contents) (trxns : List Int) (now : Int) (vertex : MuidTuple)
    (source : Bool) (asOf : Option Int) : Except JsError (List Entry) := do
  let asOfTs ← resolveAsOf trxns asOf (some (now + 1))
  return attached c vertex source asOfTs

/-! ## §2. Dropping. -/

/-- The removals that the cursor of `dropHistory` visits. -/
def removalsBefore (c : Contents) (container : Option MuidTuple) (beforeTs : Int) :
    List Removal :=
  match container with
  | none => (c.removals.rowsWhere fun k => decide (k ≤ .array [.number beforeTs])).map Prod.snd
  | some id => visited (index c.removals Removal.byContainerMovement)
      ⟨.array [id.key, .array [.number 0]], .array [id.key, .array [.number beforeTs]]⟩

/-- One turn of the loop. -/
def dropRemoval (c : Contents) (removal : Removal) : Contents :=
  { c with
    entries := c.entries.erase removal.removing.key
    removals := c.removals.erase removal.removalId.key }

/-- `dropHistory(container, before)`; `today` is what `generateTimestamp()` returns. -/
def dropHistory (c : Contents) (trxns : List Int) (today : Int) (container : Option MuidTuple)
    (before : Option Int) : Except JsError Contents := do
  let beforeTs ← MemoryStore.asOfTime trxns today before
  -- the bounds of the range are in the wrong order then
  if container.isSome && decide (beforeTs < 0) then .error ⟨"DataError"⟩
  else return (removalsBefore c container beforeTs).foldl dropRemoval c

/-- What a store comes to hold, with history kept or not from bundle to bundle, and dropped at
any times. -/
inductive Reached : List OpenBundle → Contents → Prop
  | start : Reached [] {}
  | bundle {past : List OpenBundle} {c c' : Contents} {b : OpenBundle} {keepingHistory : Bool}
      (before : Reached past c)
      (applied : applyChangesFrom keepingHistory b.info 1 b.changes c = .ok c') :
      Reached (past ++ [b]) c'
  | dropped {past : List OpenBundle} {c c' : Contents} {trxns : List Int} {today : Int}
      {container : Option MuidTuple} {time : Option Int} (before : Reached past c)
      (drop : dropHistory c trxns today container time = .ok c') : Reached past c'

/-- The row is one that gets deleted. -/
def Dropped (c : Contents) (container : Option MuidTuple) (beforeTs : Int) (e : Entry) : Prop :=
  Stored c e ∧ ∃ r ∈ removalsBefore c container beforeTs, r.removing = e.placementId

/-- The row was removed by the present. -/
def RemovedBy (c : Contents) (now : Int) (e : Entry) : Prop :=
  ∃ k r, (k, r) ∈ c.removals.rows ∧ r.removing = e.placementId ∧ r.removalId.timestamp ≤ now

/-! ## §3. The rows that are left. -/

section
variable {c c' : Contents} {q : MuidTuple → Prop} {container : Option MuidTuple} {beforeTs : Int}

theorem mem_erase_iff {V : Type} {t : Table Key V} {k : Key} {r : Key × V} :
    r ∈ (t.erase k).rows ↔ r ∈ t.rows ∧ r.1 ≠ k := by
  unfold Table.erase
  rw [List.mem_filter, decide_eq_true_eq]

/-- What the loop leaves. -/
theorem foldl_dropRemoval (l : List Removal) : ∀ c : Contents,
    (∀ r, r ∈ (l.foldl dropRemoval c).entries.rows ↔
      r ∈ c.entries.rows ∧ ∀ x ∈ l, r.1 ≠ x.removing.key) ∧
    (∀ r, r ∈ (l.foldl dropRemoval c).removals.rows ↔
      r ∈ c.removals.rows ∧ ∀ x ∈ l, r.1 ≠ x.removalId.key) ∧
    (l.foldl dropRemoval c).clearances = c.clearances := by
  induction l with
  | nil => exact fun c => ⟨by simp, by simp, rfl⟩
  | cons x rest ih =>
      intro c
      obtain ⟨hentries, hremovals, hclearances⟩ := ih (dropRemoval c x)
      refine ⟨fun r => ?_, fun r => ?_, hclearances⟩
      · rw [List.foldl_cons, hentries]
        show r ∈ (c.entries.erase x.removing.key).rows ∧ _ ↔ _
        rw [mem_erase_iff, List.forall_mem_cons, and_assoc]
      · rw [List.foldl_cons, hremovals]
        show r ∈ (c.removals.erase x.removalId.key).rows ∧ _ ↔ _
        rw [mem_erase_iff, List.forall_mem_cons, and_assoc]

/-- The row is not deleted, as a test. -/
def isKept (c : Contents) (container : Option MuidTuple) (beforeTs : Int) (e : Entry) : Bool :=
  !(removalsBefore c container beforeTs).any fun r => decide (r.removing = e.placementId)

theorem isKept_iff {e : Entry} (he : Stored c e) :
    isKept c container beforeTs e = true ↔ ¬ Dropped c container beforeTs e := by
  unfold isKept Dropped
  rw [Bool.not_eq_true', ← Bool.not_eq_true, List.any_eq_true]
  simp only [decide_eq_true_eq]
  exact not_congr ⟨fun h => ⟨he, h⟩, fun h => h.2⟩

/-- What `dropHistory` makes of the stores. -/
structure Drops (c c' : Contents) (container : Option MuidTuple) (beforeTs : Int) : Prop where
  entries : ∀ r, r ∈ c'.entries.rows ↔
    r ∈ c.entries.rows ∧ isKept c container beforeTs r.2 = true
  removals : ∀ r, r ∈ c'.removals.rows ↔
    r ∈ c.removals.rows ∧ r.2 ∉ removalsBefore c container beforeTs
  clearances : c'.clearances = c.clearances

/-- The cursor visits removals that are stored. -/
theorem mem_removalsBefore {r : Removal} (h : r ∈ removalsBefore c container beforeTs) :
    ∃ k, (k, r) ∈ c.removals.rows := by
  unfold removalsBefore at h
  cases container with
  | none =>
      obtain ⟨⟨k, x⟩, hrow, rfl⟩ := List.mem_map.mp h
      exact ⟨k, (Table.mem_rowsWhere.mp hrow).1⟩
  | some id =>
      obtain ⟨⟨k, x⟩, hrow, rfl⟩ := List.mem_map.mp h
      exact Idb.of_mem_index (Table.mem_rowsWhere.mp hrow).1

/-- Each was made before the time. -/
theorem Stamped.removalsBefore_lt (h : Stamped q c) {r : Removal}
    (hr : r ∈ removalsBefore c container beforeTs) : r.removalId.timestamp < beforeTs := by
  have htime : r.removalId.key ≤ .array [.number beforeTs] → r.removalId.timestamp < beforeTs :=
    fun hle => (@MuidTuple.key_le_time r.removalId (some beforeTs)).mp hle beforeTs rfl
  obtain ⟨p, hp⟩ := mem_removalsBefore hr
  unfold removalsBefore at hr
  cases container with
  | none =>
      obtain ⟨⟨k, x⟩, hrow, hx⟩ := List.mem_map.mp hr
      obtain rfl : x = r := hx
      obtain ⟨hmem, hle⟩ := Table.mem_rowsWhere.mp hrow
      rw [h.removal_key hmem, decide_eq_true_eq] at hle
      exact htime hle
  | some id =>
      have hseparates : Idb.Separates c.removals Removal.byContainerMovement := by
        intro a ha b hb hkey
        obtain ⟨k, v⟩ := a
        obtain ⟨k', v'⟩ := b
        unfold Removal.byContainerMovement at hkey
        simp only [Key.array.injEq, List.cons.injEq, MuidTuple.key_inj, and_true] at hkey
        have hk : k = k' := by rw [h.removal_key ha, h.removal_key hb, hkey.2]
        subst hk
        exact Table.eq_of_mem_of_mem ha hb
      obtain ⟨-, hin⟩ := (Idb.mem_visited_index hseparates).mp hr
      unfold Range.includes Removal.byContainerMovement at hin
      simp only [Bool.and_eq_true, decide_eq_true_eq] at hin
      rw [← not_lt, ← not_lt] at hin
      simp only [Key.array_cons_lt, Key.not_array_lt_nil, and_false, or_false] at hin
      push Not at hin
      have hsame : r.containerId = id :=
        MuidTuple.key_injective (le_antisymm hin.2.1 hin.1.1)
      exact htime (hin.2.2 (congrArg MuidTuple.key hsame.symm))

/-- **Dropping** deletes the rows named, and the removals that name them. -/
theorem dropHistory_drops (h : Stamped q c) {trxns : List Int} {today : Int} {before : Option Int}
    (hdrop : dropHistory c trxns today container before = .ok c') :
    ∃ beforeTs, MemoryStore.asOfTime trxns today before = .ok beforeTs ∧
      Drops c c' container beforeTs := by
  obtain ⟨beforeTs, htime, h1⟩ := bind_eq_ok.mp hdrop
  refine ⟨beforeTs, htime, ?_⟩
  by_cases hwrong : (container.isSome && decide (beforeTs < 0)) = true
  · rw [if_pos hwrong] at h1
    cases h1
  · rw [if_neg hwrong] at h1
    obtain ⟨hentries, hremovals, hclearances⟩ :=
      foldl_dropRemoval (removalsBefore c container beforeTs) c
    rw [← pure_eq_ok.mp h1]
    refine ⟨fun r => ?_, fun r => ?_, hclearances⟩
    · rw [hentries]
      refine and_congr_right fun hr => ?_
      unfold isKept
      rw [h.entry_key hr, Bool.not_eq_true', ← Bool.not_eq_true, List.any_eq_true]
      simp only [decide_eq_true_eq, not_exists, not_and, ne_eq, MuidTuple.key_inj]
      exact forall₂_congr fun _ _ => not_congr eq_comm
    · rw [hremovals]
      refine and_congr_right fun hr => ?_
      obtain ⟨k, v⟩ := r
      constructor
      · intro hall hin
        exact hall v hin (h.removal_key hr)
      · intro hout x hx hkey
        obtain ⟨p, hp⟩ := mem_removalsBefore hx
        have hk : k = p := hkey.trans (h.removal_key hp).symm
        subst hk
        exact hout (Table.eq_of_mem_of_mem hr hp ▸ hx)

theorem Drops.stamped (h : Drops c c' container beforeTs) (hc : Stamped q c) : Stamped q c' :=
  ⟨fun r hr => hc.entries r ((h.entries r).mp hr).1,
    fun r hr => hc.removals r ((h.removals r).mp hr).1,
    fun r hr => hc.clearances r (h.clearances ▸ hr)⟩

theorem Drops.stored_iff (h : Drops c c' container beforeTs) {e : Entry} :
    Stored c' e ↔ Stored c e ∧ ¬ Dropped c container beforeTs e := by
  constructor
  · intro he
    obtain ⟨k, hk⟩ := he
    obtain ⟨hold, hkept⟩ := (h.entries _).mp hk
    exact ⟨⟨k, hold⟩, (isKept_iff ⟨k, hold⟩).mp hkept⟩
  · intro he
    obtain ⟨⟨k, hk⟩, hkept⟩ := he
    exact ⟨k, (h.entries _).mpr ⟨hk, (isKept_iff ⟨k, hk⟩).mpr hkept⟩⟩

theorem Drops.getClearanceTime_eq (h : Drops c c' container beforeTs) (id : MuidTuple)
    (asOfTs : Option Int) : getClearanceTime c' id asOfTs = getClearanceTime c id asOfTs := by
  unfold getClearanceTime
  rw [h.clearances]

/-- **An index** loses the same rows. -/
theorem Drops.index_rows (h : Drops c c' container beforeTs) {keyOf : Entry → Key}
    (hseparates : Idb.Separates c.entries keyOf) :
    (index c'.entries keyOf).rows =
      (index c.entries keyOf).rows.filter fun r => isKept c container beforeTs r.2 := by
  have hseparates' : Idb.Separates c'.entries keyOf := fun r hr r' hr' =>
    hseparates r ((h.entries r).mp hr).1 r' ((h.entries r').mp hr').1
  refine Table.eq_of_sorted_of_mem_iff (index c'.entries keyOf).sorted
    ((index c.entries keyOf).sorted.filter _) fun r => ?_
  obtain ⟨k, e⟩ := r
  rw [List.mem_filter, Idb.mem_index hseparates, Idb.mem_index hseparates']
  constructor
  · intro hr
    obtain ⟨hk, p, hp⟩ := hr
    obtain ⟨hold, hkept⟩ := (h.entries _).mp hp
    exact ⟨⟨hk, p, hold⟩, hkept⟩
  · intro hr
    obtain ⟨⟨hk, p, hp⟩, hkept⟩ := hr
    exact ⟨hk, p, (h.entries _).mpr ⟨hp, hkept⟩⟩

/-- So do the cursors on it. -/
theorem Drops.visited_eq (h : Drops c c' container beforeTs) {keyOf : Entry → Key}
    (hseparates : Idb.Separates c.entries keyOf) (range : Range) :
    visited (index c'.entries keyOf) range =
      (visited (index c.entries keyOf) range).filter (isKept c container beforeTs) := by
  unfold visited Table.rowsWhere
  rw [h.index_rows hseparates, List.filter_map, List.filter_filter, List.filter_filter]
  congr 1
  exact List.filter_congr fun r _ => Bool.and_comm _ _

/-- What is left is removed as it was. -/
theorem Drops.isRemoved_eq (h : Drops c c' container beforeTs) (hc : Stamped q c) {e : Entry}
    (hkept : isKept c container beforeTs e = true) (t : Int) :
    isRemoved c' e.placementId (some t) = isRemoved c e.placementId (some t) := by
  rw [Bool.eq_iff_iff, hc.isRemoved_iff, (h.stamped hc).isRemoved_iff]
  refine exists₂_congr fun k r => ⟨fun hr => ⟨((h.removals _).mp hr.1).1, hr.2⟩, fun hr => ?_⟩
  refine ⟨(h.removals _).mpr ⟨hr.1, fun hin => ?_⟩, hr.2⟩
  unfold isKept at hkept
  rw [Bool.not_eq_true', ← Bool.not_eq_true, List.any_eq_true] at hkept
  exact hkept ⟨r, hin, by simpa using hr.2.1⟩

end

end IndexedDb

end Js

end Gink
