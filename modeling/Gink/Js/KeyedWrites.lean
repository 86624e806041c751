/-
  Gink.Js.KeyedWrites — histories of entries that stand under keys, as the JavaScript stores
  apply them.

  Entries of sequences, edge types and accumulators stand beside one another; of all others
  the last written to a key of a container is the one that counts.
-/
import Gink.Js.IndexedDbKeyed
import Gink.Js.MemoryStoreKeyed
import Gink.Table.Superseded

namespace Gink

namespace Js

/-! ## §1. The entries of a history. -/

/-- The change makes a container, or writes an entry to a key. -/
def IsKeyedChange : ChangeBuilder → Prop
  | .container _ => True
  | .entry builder => IndexedDb.accumulates builder.behavior = false
  | _ => False

/-- All changes of the history do. -/
def KeyedHistory (history : List OpenBundle) : Prop := ∀ op ∈ allOps history, IsKeyedChange op.change

section
variable (build : EntryBuilder → BundleInfo → Nat → Except JsError Entry)

/-- The record a store makes of the change, when it is an entry. -/
def recordOf (op : Op) : Option Entry :=
  match op.change with
  | .entry builder => (build builder op.info op.offset).toOption
  | _ => none

/-- The records of a history, in the order they are written. -/
def recordsOf (history : List OpenBundle) : List Entry := (allOps history).filterMap (recordOf build)

theorem recordsOf_append (past : List OpenBundle) (b : OpenBundle) :
    recordsOf build (past ++ [b]) = recordsOf build past ++ b.ops.filterMap (recordOf build) := by
  simp [recordsOf, allOps]

theorem recordsOf_cons (info : BundleInfo) (offset : Nat) (change : ChangeBuilder)
    (rest : List ChangeBuilder) :
    (opsFrom info offset (change :: rest)).filterMap (recordOf build) =
      (recordOf build ⟨info, offset, change⟩).toList ++
        (opsFrom info (offset + 1) rest).filterMap (recordOf build) := by
  rw [opsFrom_cons, List.filterMap_cons]
  cases recordOf build ⟨info, offset, change⟩ <;> rfl

end

/-- The newer entry is under the key of the older one and was placed after it. -/
structure Supersedes (newer older : Entry) : Prop where
  container : newer.containerId = older.containerId
  key : newer.storageKey = older.storageKey
  later : older.placementId.Before newer.placementId

theorem before_trans {l m n : MuidTuple} (h : l.Before m) (h' : m.Before n) : l.Before n := by
  unfold MuidTuple.Before at *
  omega

theorem Supersedes.trans (u v w : Entry) (h : Supersedes u v) (h' : Supersedes v w) :
    Supersedes u w :=
  ⟨h.container.trans h'.container, h.key.trans h'.key, before_trans h'.later h.later⟩

/-! ## §2. What a read of all keys makes of the rows. -/

open MemoryStore (noteEntry get?_noteEntries isKeyed storageKeyToString)

/-- The maps of two lists of rows are the same when for each text the last entries are. -/
theorem noted_eq {K : Type} {l m : List (K × Entry)}
    (h : ∀ k : Str, (l.filter fun r => decide (storageKeyToString r.2.storageKey = k)).getLast? =
      (m.filter fun r => decide (storageKeyToString r.2.storageKey = k)).getLast?) :
    l.foldl (fun result r => noteEntry result r.2) ∅ =
      m.foldl (fun result r => noteEntry result r.2) ∅ := by
  refine Table.ext_get? fun k => ?_
  rw [get?_noteEntries, get?_noteEntries, h k]

/-- The key of a keyed entry is not the empty one. -/
theorem key_ne_empty {builder : EntryBuilder} {m : MuidTuple} {key : StorageKey}
    (h : getStorageKey builder m = .ok key) (hkeyed : isKeyed builder.behavior = true) :
    key ≠ .empty := by
  intro hempty
  subst hempty
  cases hbehavior : builder.behavior <;> rw [hbehavior] at hkeyed <;> try cases hkeyed
  all_goals unfold getStorageKey at h; simp only [hbehavior] at h
  case directory | keySet =>
    split at h
    · rename_i key _
      rcases key with _ | key <;> try cases key
      all_goals cases h
    · cases h
  case group | property =>
    split at h
    · rename_i describing _
      cases hmuid : builderToMuid describing m <;> rw [hmuid] at h <;> cases h
    · cases h
  case pairSet | pairMap =>
    split at h
    · obtain ⟨l, -, h⟩ := bind_eq_ok.mp h
      obtain ⟨left, -, h⟩ := bind_eq_ok.mp h
      obtain ⟨r, -, h⟩ := bind_eq_ok.mp h
      obtain ⟨rite, -, h⟩ := bind_eq_ok.mp h
      cases h
    · cases h

/-- That of the others is. -/
theorem key_eq_empty {builder : EntryBuilder} {m : MuidTuple} {key : StorageKey}
    (h : getStorageKey builder m = .ok key) (hkeyed : isKeyed builder.behavior = false)
    (hstands : IndexedDb.accumulates builder.behavior = false) : key = .empty := by
  cases hbehavior : builder.behavior <;> rw [hbehavior] at hkeyed hstands <;> try cases hkeyed
  all_goals try cases hstands
  all_goals unfold getStorageKey at h; simp only [hbehavior] at h
  all_goals cases h
  all_goals rfl

/-! ## §3. Records and their changes. -/

section
variable {build : EntryBuilder → BundleInfo → Nat → Except JsError Entry}

/-- The record of an entry has its behavior, and the address of the change twice. -/
def BuildsRecords (build : EntryBuilder → BundleInfo → Nat → Except JsError Entry) : Prop :=
  ∀ builder info offset e, build builder info offset = .ok e → e.behavior = builder.behavior ∧
    getStorageKey builder (changeAddress info offset) = .ok e.storageKey ∧
      e.entryId = changeAddress info offset ∧ e.placementId = changeAddress info offset

theorem memoryStore_buildsRecords : BuildsRecords MemoryStore.buildEntry := by
  intro builder info offset e h
  obtain ⟨lists, -, h⟩ := bind_eq_ok.mp h
  obtain ⟨container, -, h⟩ := bind_eq_ok.mp h
  obtain ⟨key, hkey, h⟩ := bind_eq_ok.mp h
  rw [← pure_eq_ok.mp h]
  exact ⟨rfl, hkey, rfl, rfl⟩

theorem indexedDb_buildsRecords : BuildsRecords IndexedDb.buildEntry := by
  intro builder info offset e h
  obtain ⟨container, -, h⟩ := bind_eq_ok.mp h
  obtain ⟨key, hkey, h⟩ := bind_eq_ok.mp h
  obtain ⟨lists, -, h⟩ := bind_eq_ok.mp h
  rw [← pure_eq_ok.mp h]
  exact ⟨rfl, hkey, rfl, rfl⟩

/-- A record is that of an entry. -/
theorem recordOf_eq_some {op : Op} {e : Entry} (h : recordOf build op = some e) :
    ∃ builder, op.change = .entry builder ∧ build builder op.info op.offset = .ok e := by
  unfold recordOf at h
  cases hchange : op.change with
  | entry builder =>
      rw [hchange] at h
      exact ⟨builder, rfl, IndexedDb.toOption_eq_some.mp h⟩
  | container container => simp [hchange] at h
  | movement movement => simp [hchange] at h
  | clearance clearance => simp [hchange] at h
  | unset => simp [hchange] at h

variable (hbuild : BuildsRecords build) {history : List OpenBundle}
include hbuild

/-- What supersedes a record is of a keyed container, when that is. -/
theorem isKeyed_of_supersedes (hkeyed : KeyedHistory history) {e e' : Entry}
    (he : e ∈ recordsOf build history) (he' : e' ∈ recordsOf build history)
    (h : Supersedes e' e) : isKeyed e'.behavior = isKeyed e.behavior := by
  have hiff : ∀ x ∈ recordsOf build history, isKeyed x.behavior = true ↔ x.storageKey ≠ .empty := by
    intro x hx
    obtain ⟨op, hop, hrecord⟩ := List.mem_filterMap.mp hx
    obtain ⟨builder, hchange, hbuilt⟩ := recordOf_eq_some hrecord
    obtain ⟨hbehavior, hkey, -, -⟩ := hbuild _ _ _ _ hbuilt
    have hstands : IndexedDb.accumulates builder.behavior = false := by
      have hchanged := hkeyed op hop
      rw [hchange] at hchanged
      exact hchanged
    rw [hbehavior]
    constructor
    · exact key_ne_empty hkey
    · intro hne
      by_contra hother
      exact hne (key_eq_empty hkey (by simpa using hother) hstands)
  rw [Bool.eq_iff_iff, hiff e he, hiff e' he', h.key]

/-- Records of different changes have different placements. -/
theorem placements_apart (hdistinct : DistinctStamps history) :
    (recordsOf build history).Pairwise fun e e' => e.placementId ≠ e'.placementId := by
  refine List.Pairwise.filterMap _ ?_ (MemoryStore.separate_allOps hdistinct)
  intro op op' hne e he e' he'
  obtain ⟨builder, -, hbuilt⟩ := recordOf_eq_some he
  obtain ⟨builder', -, hbuilt'⟩ := recordOf_eq_some he'
  rw [(hbuild _ _ _ _ hbuilt).2.2.2, (hbuild _ _ _ _ hbuilt').2.2.2]
  exact hne

theorem entryId_nonneg {e : Entry} (he : e ∈ recordsOf build history) : 0 ≤ e.entryId.timestamp := by
  obtain ⟨op, -, hrecord⟩ := List.mem_filterMap.mp he
  obtain ⟨builder, -, hbuilt⟩ := recordOf_eq_some hrecord
  rw [(hbuild _ _ _ _ hbuilt).2.2.1]
  exact Int.natCast_nonneg _

end

end Js

end Gink
