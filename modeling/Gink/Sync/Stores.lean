/-
  Gink.Sync.Stores — the two stores as a relay sees them.

  A relay calls `apply_bundle` with its own `_on_bundle` for a callback.  Either store
  calls it last, once everything is written, so the call is the one without a callback
  followed by the callback.
-/
import Gink.Memory.Store
import Gink.Lmdb.Store
import Gink.Sync.Server

namespace Gink

/-- A `MemoryStore` behind a relay. -/
def Memory.bundleStore (lib : Externals) : BundleStore Memory.Store (Nat → Int) where
  applyBundle s d clock :=
    let outcome := Memory.applyBundle lib s d none clock
    (outcome.store, outcome.result)
  getBundles s limitTo := .ok (Memory.getBundles s limitTo)
  lastInfos s := s.chainInfos.rows.map (·.2)

/-- An `LmdbStore` behind a relay; nobody else writes to its file. -/
def Lmdb.bundleStore (lib : Externals) : BundleStore Lmdb.Store Clock where
  applyBundle s d clock :=
    let outcome := Lmdb.applyBundle lib s d none false clock
    (outcome.store, outcome.result)
  getBundles s limitTo := Lmdb.getBundles s.db limitTo
  lastInfos s := s.db.chains.rows.map (·.2)

/-- What the callback adds to a call. -/
def afterCall (callback : Callback) (d : Decomposition) (result : Except Error Bool) :
    List Decomposition × Except Error Bool :=
  match result with
  | .ok true => match callback d with
      | .ok () => ([d], .ok true)
      | .error e => ([], .error e)
  | r => ([], r)

/-- **A `MemoryStore` calls back last.** -/
theorem Memory.applyBundle_callback (lib : Externals) (s : Memory.Store) (d : Decomposition)
    (callback : Callback) (clock : Nat → Int) :
    let outcome := Memory.applyBundle lib s d (some callback) clock
    let called := (Memory.bundleStore lib).applyBundle s d clock
    outcome.store = called.1 ∧ (outcome.delivered, outcome.result) = afterCall callback d called.2 := by
  simp only [Memory.bundleStore, Memory.applyBundle]
  cases d.getBuilder lib with
  | error e => exact ⟨rfl, rfl⟩
  | ok builder =>
      simp only
      generalize BundleInfo.ofBuilder builder (lib.digest d.bundleBytes) = info
      cases isNeeded info (s.chainInfos.get? info.chain) with
      | error e => exact ⟨rfl, rfl⟩
      | ok needed =>
          cases needed with
          | false => exact ⟨rfl, rfl⟩
          | true =>
              simp only
              cases Memory.applyNeeded lib clock d builder info (s.chainInfos.get? info.chain) s with
              | error e s' => exact ⟨rfl, rfl⟩
              | ok u s' =>
                  simp only [afterCall]
                  cases callback d with
                  | error e => exact ⟨rfl, rfl⟩
                  | ok u => exact ⟨rfl, rfl⟩

/-- The store has seen every bundle of its file. -/
def Lmdb.Store.UpToDate (s : Lmdb.Store) : Prop :=
  ∃ start, encodeMuts (s.seenThrough + 1) = .ok start ∧ ∀ row ∈ s.db.bundles.rows, row.1 < start

/-- With nothing new in the file a refresh does nothing. -/
theorem Lmdb.refreshHelper_upToDate {s : Lmdb.Store} (h : s.UpToDate) (callback : Option Callback) :
    Lmdb.refreshHelper s callback = ⟨s, [], .ok 0⟩ := by
  obtain ⟨start, hstart, hbelow⟩ := h
  have hfind : s.db.bundles.rows.find? (fun r => decide (start ≤ r.1)) = none := by
    rw [List.find?_eq_none]
    intro row hrow
    simpa using hbelow row hrow
  unfold Lmdb.refreshHelper Lmdb.refreshLoop
  simp only [hstart, hfind]

/-- **An `LmdbStore` calls back last** when it has seen every bundle of its file. -/
theorem Lmdb.applyBundle_callback (lib : Externals) {s : Lmdb.Store} (h : s.UpToDate)
    (d : Decomposition) (callback : Callback) (clock : Clock) :
    let outcome := Lmdb.applyBundle lib s d (some callback) false clock
    let called := (Lmdb.bundleStore lib).applyBundle s d clock
    outcome.store = called.1 ∧ (outcome.delivered, outcome.result) = afterCall callback d called.2 := by
  simp only [Lmdb.bundleStore, Lmdb.applyBundle, Lmdb.refreshHelper_upToDate h]
  cases d.getBuilder lib with
  | error e => exact ⟨rfl, rfl⟩
  | ok builder =>
      simp only
      generalize BundleInfo.ofBuilder builder (lib.digest d.bundleBytes) = info
      cases isNeeded info (s.db.chains.get? info.chain.toBytes) with
      | error e => exact ⟨rfl, rfl⟩
      | ok needed =>
          cases needed with
          | false => exact ⟨rfl, rfl⟩
          | true =>
              simp only
              cases (Lmdb.writeBundle lib s d builder info (s.db.chains.get? info.chain.toBytes)
                  false clock).db with
              | error e => exact ⟨rfl, rfl⟩
              | ok db =>
                  simp only [afterCall]
                  cases callback d with
                  | error e => exact ⟨rfl, rfl⟩
                  | ok u => exact ⟨rfl, rfl⟩

end Gink
