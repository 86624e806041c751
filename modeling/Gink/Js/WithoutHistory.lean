/-
  Gink.Js.WithoutHistory — stores created with `keepingHistory` false and true, compared by
  what they show of the present.

  An `IndexedDbStore` shows the same either way.  A `MemoryStore` does where each entry, when
  it is written, only sweeps rows of its own key that were placed before it; the number 1
  sweeps the row of the number 12.
-/
import Gink.Js.IndexedDbPresent
import Gink.Js.MemoryStorePresent

namespace Gink

namespace Js

/-! ## §1. Reads of the present. -/

/-- **Without history the present is the same**: always for an `IndexedDbStore`, for a
`MemoryStore` when entries only sweep their own and none is ahead of the clock. -/
theorem present_without_history {history : List OpenBundle} (hkeyed : KeyedHistory history)
    (hdistinct : DistinctStamps history) :
    (∀ walks walks' : MemoryStore.Walks, walks.StayInRange → walks'.StayInRange →
      ∀ c c' : MemoryStore.Contents, MemoryStore.History walks false history c →
      MemoryStore.History walks' true history c' → Fitting history →
      (recordsOf MemoryStore.buildEntry history).Pairwise MemoryStore.SweepsOwn →
      ∀ now : Int, 0 < now ∧ now < 16 ^ 13 →
      (∀ e ∈ recordsOf MemoryStore.buildEntry history, e.placementId.timestamp < now) →
      ∀ (container : MuidTuple) (trxns trxns' : List Int), Named container →
        (∀ key : StorageKey, key.Named →
          MemoryStore.getEntryByKey c trxns now container key none =
            MemoryStore.getEntryByKey c' trxns' now container key none) ∧
        MemoryStore.getKeyedEntries c trxns now container none =
          MemoryStore.getKeyedEntries c' trxns' now container none) ∧
    (∀ c c' : IndexedDb.Contents, IndexedDb.History false history c →
      IndexedDb.History true history c' → ∀ (container : MuidTuple) (trxns trxns' : List Int),
        (∀ key : StorageKey, IndexedDb.getEntryByKey c trxns container key none =
          IndexedDb.getEntryByKey c' trxns' container key none) ∧
        IndexedDb.getKeyedEntries c trxns container none =
          IndexedDb.getKeyedEntries c' trxns' container none) := by
  constructor
  · intro walks walks' hwalks hwalks' c c' h h' hfits hsweeps now hnow hclock container trxns trxns'
      hnamed
    have hshows := h.shows hwalks hkeyed hsweeps
    have hshows' := h'.shows hwalks' hkeyed hsweeps
    refine hshows.reads_eq hshows' (h.spelled hfits) (h'.spelled hfits) hsweeps
      (fun e he => MemoryStore.stands_of_record hfits he) hnow hclock ?_ hnamed trxns trxns'
    exact fun e he e' he' => isKeyed_of_supersedes memoryStore_buildsRecords hkeyed he he'
  · intro c c' h h' container trxns trxns'
    have hapart : IndexedDb.PlacedApart (recordsOf IndexedDb.buildEntry history) :=
      placements_apart indexedDb_buildsRecords hdistinct
    refine (h.shows hkeyed hapart).reads_eq (h'.shows hkeyed hapart) hapart ?_ ?_ trxns trxns'
    · exact fun e he e' he' => isKeyed_of_supersedes indexedDb_buildsRecords hkeyed he he'
    · exact fun e he => entryId_nonneg indexedDb_buildsRecords he

/-! ## §2. Two numbers. -/

/-- An entry of a directory under a number. -/
def numberedEntry (n : Int) : EntryBuilder where
  container := some (globalBuilder .directory)
  behavior := .directory
  subject := some (.key (some (.number n)))
  contains := some (.value (.characters "entry"))

def numbered (bundle : Nat) (n : Int) : OpenBundle := firstOf bundle [.entry (numberedEntry n)]

/-- What a `MemoryStore` holds after the bundles. -/
def keptBy (keepingHistory : Bool) (history : List OpenBundle) : MemoryStore.Contents :=
  ((MemoryStore.applyAll ⟨id, id⟩ keepingHistory history {}).toOption).getD {}

theorem history_keptBy {keepingHistory : Bool} {history : List OpenBundle}
    (h : (MemoryStore.applyAll ⟨id, id⟩ keepingHistory history {}).toOption.isSome) :
    MemoryStore.History ⟨id, id⟩ keepingHistory history (keptBy keepingHistory history) := by
  unfold keptBy
  cases hc : MemoryStore.applyAll ⟨id, id⟩ keepingHistory history {} with
  | error message => simp [hc, Except.toOption] at h
  | ok c => exact MemoryStore.History.start.applyAll hc

/-- The shorter number first. -/
def shorterFirst : List OpenBundle := [numbered 1 1, numbered 2 12]

/-- The longer number first. -/
def longerFirst : List OpenBundle := [numbered 1 12, numbered 2 1]

theorem keyed_numbered {history : List OpenBundle}
    (h : ∀ b ∈ history, ∃ bundle n, b = numbered bundle n) : KeyedHistory history := by
  intro op hop
  obtain ⟨b, hb, hop⟩ := List.mem_flatMap.mp hop
  obtain ⟨bundle, n, rfl⟩ := h b hb
  have hop : op = ⟨(numbered bundle n).info, 1, .entry (numberedEntry n)⟩ := List.mem_singleton.mp hop
  rw [hop]
  rfl

theorem keyed_shorterFirst : KeyedHistory shorterFirst := by
  refine keyed_numbered fun b hb => ?_
  rcases List.mem_cons.mp hb with rfl | hb
  · exact ⟨1, 1, rfl⟩
  · exact ⟨2, 12, List.mem_singleton.mp hb⟩

theorem fitting_shorterFirst : Fitting shorterFirst := by
  intro op hop
  have hops : op = ⟨(numbered 1 1).info, 1, .entry (numberedEntry 1)⟩ ∨
      op = ⟨(numbered 2 12).info, 1, .entry (numberedEntry 12)⟩ := by
    simpa [allOps, shorterFirst, numbered, firstOf, OpenBundle.ops] using hop
  rcases hops with rfl | rfl
  · exact .entry rfl ⟨by decide +kernel, by decide⟩ rfl (Or.inr ⟨rfl, rfl, by decide, by decide⟩) rfl
      trivial
  · exact .entry rfl ⟨by decide +kernel, by decide⟩ rfl (Or.inr ⟨rfl, rfl, by decide, by decide⟩) rfl
      trivial

/-- Both numbers are read alike when the shorter one comes first. -/
theorem present_without_history_shorter :
    (∀ key : StorageKey, key.Named →
      MemoryStore.getEntryByKey (keptBy false shorterFirst) [] 1700000000000000 ⟨-1, -1, 4⟩ key
          none =
        MemoryStore.getEntryByKey (keptBy true shorterFirst) [] 1700000000000000 ⟨-1, -1, 4⟩ key
          none) ∧
      MemoryStore.getKeyedEntries (keptBy false shorterFirst) [] 1700000000000000 ⟨-1, -1, 4⟩
          none =
        MemoryStore.getKeyedEntries (keptBy true shorterFirst) [] 1700000000000000 ⟨-1, -1, 4⟩
          none := by
  have hnamed : Named ⟨-1, -1, 4⟩ := Or.inr ⟨rfl, rfl, by decide, by decide⟩
  have hwalks : MemoryStore.Walks.StayInRange ⟨id, id⟩ := fun _ _ hk => hk
  refine (present_without_history keyed_shorterFirst (by decide +kernel)).1 ⟨id, id⟩ ⟨id, id⟩ hwalks
    hwalks _ _ (history_keptBy (by decide +kernel)) (history_keptBy (by decide +kernel))
    fitting_shorterFirst ?_ 1700000000000000 (by norm_num) (by decide +kernel) ⟨-1, -1, 4⟩ [] []
    hnamed
  -- the text of 12 begins no row of 1
  have hapart : (recordsOf MemoryStore.buildEntry shorterFirst).Pairwise fun older newer =>
      (MemoryStore.sweptStart newer).isPrefixOf (MemoryStore.placementKey older) = false := by
    decide +kernel
  refine hapart.imp ?_
  intro older newer hnot hstarts
  rw [List.isPrefixOf_iff_prefix.mpr hstarts] at hnot
  cases hnot

/-- **Writing the number 1 loses the entry of the number 12**, in a `MemoryStore` without
history. -/
theorem number_sweeps_longer_number :
    ¬ ∀ c c' : MemoryStore.Contents, MemoryStore.History ⟨id, id⟩ false longerFirst c →
      MemoryStore.History ⟨id, id⟩ true longerFirst c' → ∀ key : StorageKey, key.Named →
        MemoryStore.getEntryByKey c [] 1700000000000000 ⟨-1, -1, 4⟩ key none =
          MemoryStore.getEntryByKey c' [] 1700000000000000 ⟨-1, -1, 4⟩ key none := by
  intro h
  have hreads := h _ _ (history_keptBy (by decide +kernel)) (history_keptBy (by decide +kernel))
    (.number 12) trivial
  have hgone : (MemoryStore.getEntryByKey (keptBy false longerFirst) [] 1700000000000000
      ⟨-1, -1, 4⟩ (.number 12) none).toOption.map Option.isSome = some false := by decide +kernel
  have hfound : (MemoryStore.getEntryByKey (keptBy true longerFirst) [] 1700000000000000
      ⟨-1, -1, 4⟩ (.number 12) none).toOption.map Option.isSome = some true := by decide +kernel
  rw [hreads, hfound] at hgone
  cases hgone

end Js

end Gink
