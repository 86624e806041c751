/-
  Gink.Js.OrderedConvergence — when JavaScript replicas agree on ordered containers.

  A movement removes the last placement of its entry, even one that a newer movement made,
  and places the entry anew, even one that was deleted.  Replicas that received two
  movements of one entry in different orders therefore differ for good; those that applied
  the changes of every entry in the same order agree, whatever the order of the rest, and
  deletions may come in any order.
-/
import Gink.Js.IndexedDbOrdered
import Gink.Js.MemoryStoreOrdered
import Gink.Proto.Sample

namespace Gink

namespace Js

/-! ## §1. Orders of application. -/

/-- Every change has an address: the offset of a muid has 32 bits. -/
def Addressed (history : List OpenBundle) : Prop := ∀ op ∈ allOps history, op.offset < 2 ^ 32

instance : DecidablePred Addressed := fun history =>
  inferInstanceAs (Decidable (∀ op ∈ allOps history, op.offset < 2 ^ 32))

/-- The bundles of a chain come in the order of their timestamps. -/
def InChainOrder (history : List OpenBundle) : Prop :=
  history.Pairwise fun a b => (a.info.medallion, a.info.chainStart) = (b.info.medallion, b.info.chainStart) →
    a.info.timestamp < b.info.timestamp

instance : DecidablePred InChainOrder := fun history =>
  inferInstanceAs (Decidable (history.Pairwise fun a b =>
    (a.info.medallion, a.info.chainStart) = (b.info.medallion, b.info.chainStart) →
      a.info.timestamp < b.info.timestamp))

/-- The entry that a change moves. -/
def movedBy (op : Op) : Option MuidTuple :=
  match op.change with
  | .movement b => (extractMovement b op.info op.offset).toOption.map Movement.entryId
  | _ => none

/-- A movement comes after the entry it moves. -/
def MovesAfter (history : List OpenBundle) : Prop :=
  (allOps history).Pairwise fun a b => movedBy a ≠ some (changeAddress b.info b.offset)

instance : DecidablePred MovesAfter := fun history =>
  inferInstanceAs (Decidable ((allOps history).Pairwise fun a b =>
    movedBy a ≠ some (changeAddress b.info b.offset)))

/-- The changes of every entry come in the same order in both histories, or they are its
addition and then deletions; `name` is what a store knows entries by. -/
def SameCourses {ι : Type} [DecidableEq ι] (name : MuidTuple → ι)
    (build : EntryBuilder → BundleInfo → Nat → Except JsError Entry)
    (history history' : List OpenBundle) : Prop :=
  ∀ i, SameTurns (turns name i (eventsOf build history)) (turns name i (eventsOf build history'))

/-! ## §2. Replicas that agree. -/

/-- **Replicas that applied the changes of every entry in the same order** read every ordered
container alike, with both stores. -/
theorem ordered_reads_agree (walks : MemoryStore.Walks) {history history' : List OpenBundle}
    (hperm : history.Perm history') (hdistinct : DistinctStamps history)
    (haddressed : Addressed history) (hordered : OrderedHistory history) :
    (∀ c c', IndexedDb.History true history c → IndexedDb.History true history' c' →
      SameCourses id IndexedDb.buildEntry history history' →
      ∀ trxns now container through asOf,
        IndexedDb.getOrderedEntries c trxns now container through asOf
          = IndexedDb.getOrderedEntries c' trxns now container through asOf) ∧
    (∀ c c', MemoryStore.History walks true history c → MemoryStore.History walks true history' c' →
      SameCourses muidTupleToString MemoryStore.buildEntry history history' →
      ∀ trxns now container through asOf,
        MemoryStore.getOrderedEntries c trxns now container through asOf
          = MemoryStore.getOrderedEntries c' trxns now container through asOf) := by
  constructor
  · intro c c' h h' hcourses
    exact h.getOrderedEntries_eq h' hordered hperm hcourses
  · intro c c' h h' hcourses
    exact h.getOrderedEntries_eq h' hdistinct haddressed hordered hperm hcourses

/-! ## §3. Replicas that do not. -/

/-- A bundle that starts a chain, opened; its timestamp is after 2020. -/
def firstOf (number : Nat) (changes : List ChangeBuilder) : OpenBundle where
  info := .ofBuilder (startingBundle (Fin.ofNat _ (1600000000000000 + number)) (Fin.ofNat _ number) [])
    []
  changes

/-- A sequence entry, in a bundle of its own. -/
def addedEntry : OpenBundle :=
  firstOf 1 [sampleEntry .sequence none "entry"]

/-- Another chain moves it, or deletes it. -/
def movedEntry (number : Nat) (dest : Int) : OpenBundle :=
  firstOf number [.movement {
    container := globalBuilder .sequence
    entry := ⟨1600000000000001, 1, 1⟩
    dest }]

/-- What an `IndexedDbStore` lists after the bundles, by placement. -/
def idbListed (history : List OpenBundle) : Option (List MuidTuple) :=
  ((IndexedDb.applyAll true history {}) >>= fun c =>
    IndexedDb.getOrderedEntries c [] 1700000000000000 ⟨-1, -1, Behavior.sequence.code⟩ none none).toOption.map
      (List.map Entry.placementId)

/-- What a `MemoryStore` lists. -/
def memoryListed (history : List OpenBundle) : Option (List MuidTuple) :=
  ((MemoryStore.applyAll ⟨id, id⟩ true history {}) >>= fun c =>
    MemoryStore.getOrderedEntries c [] 1700000000000000 ⟨-1, -1, Behavior.sequence.code⟩ none none).toOption.map
      (List.map fun r => r.2.placementId)

/-- An entry that is added and then deleted, in two orders. -/
theorem SameTurns.deletions {ι : Type} [DecidableEq ι] {name : MuidTuple → ι} {e : Entry}
    {dels dels' : List Event} (hperm : dels.Perm dels')
    (hdel : ∀ d ∈ dels, d.Deletes ∧ d.subject = e.entryId) (i : ι) :
    SameTurns (turns name i (.placed e :: dels)) (turns name i (.placed e :: dels')) := by
  have hsubject : ∀ d ∈ .placed e :: dels, d.subject = e.entryId := by
    intro d hd
    rcases List.mem_cons.mp hd with rfl | hd
    · rfl
    · exact (hdel d hd).2
  have hsubject' : ∀ d ∈ .placed e :: dels', d.subject = e.entryId := fun d hd =>
    hsubject d ((hperm.cons _).mem_iff.mpr hd)
  unfold turns Machine.concerning
  by_cases hi : name e.entryId = i
  · rw [List.filter_eq_self.mpr fun d hd => by simpa [hsubject d hd] using hi,
      List.filter_eq_self.mpr fun d hd => by simpa [hsubject' d hd] using hi]
    exact Or.inr ⟨e, dels, dels', rfl, rfl, hperm, fun d hd => (hdel d hd).1⟩
  · rw [List.filter_eq_nil_iff.mpr fun d hd => by simpa [hsubject d hd] using hi,
      List.filter_eq_nil_iff.mpr fun d hd => by simpa [hsubject' d hd] using hi]
    exact Or.inl rfl

theorem ok_bind {α β : Type} {a : α} {f : α → Except JsError β} :
    ((Except.ok a : Except JsError α) >>= f) = f a := rfl

/-- Two chains delete the entry, in both orders. -/
theorem ordered_reads_agree_deletions :
    idbListed [addedEntry, movedEntry 2 0, movedEntry 3 0]
        = idbListed [addedEntry, movedEntry 3 0, movedEntry 2 0] ∧
      memoryListed [addedEntry, movedEntry 2 0, movedEntry 3 0]
        = memoryListed [addedEntry, movedEntry 3 0, movedEntry 2 0] := by
  have hperm : List.Perm [addedEntry, movedEntry 2 0, movedEntry 3 0]
      [addedEntry, movedEntry 3 0, movedEntry 2 0] := .cons _ (.swap ..)
  obtain ⟨hidb, hmemory⟩ := ordered_reads_agree ⟨id, id⟩ hperm (by decide +kernel)
    (by decide +kernel) (by decide +kernel)
  constructor
  · obtain ⟨c, hc⟩ : ∃ c, IndexedDb.applyAll true [addedEntry, movedEntry 2 0, movedEntry 3 0] {}
        = .ok c := ⟨_, rfl⟩
    obtain ⟨c', hc'⟩ : ∃ c, IndexedDb.applyAll true [addedEntry, movedEntry 3 0, movedEntry 2 0] {}
        = .ok c := ⟨_, rfl⟩
    have hreads := hidb c c' (IndexedDb.History.start.applyAll hc)
      (IndexedDb.History.start.applyAll hc') (SameTurns.deletions (.swap ..) (by decide +kernel))
    unfold idbListed
    rw [hc, hc', ok_bind, ok_bind, hreads]
  · obtain ⟨c, hc⟩ : ∃ c, MemoryStore.applyAll ⟨id, id⟩ true
        [addedEntry, movedEntry 2 0, movedEntry 3 0] {} = .ok c := ⟨_, rfl⟩
    obtain ⟨c', hc'⟩ : ∃ c, MemoryStore.applyAll ⟨id, id⟩ true
        [addedEntry, movedEntry 3 0, movedEntry 2 0] {} = .ok c := ⟨_, rfl⟩
    have hreads := hmemory c c' (MemoryStore.History.start.applyAll hc)
      (MemoryStore.History.start.applyAll hc') (SameTurns.deletions (.swap ..) (by decide +kernel))
    unfold memoryListed
    rw [hc, hc', ok_bind, ok_bind, hreads]

/-- Two chains move the entry, and the replicas that receive them in different orders
list it at different places. -/
theorem ordered_reads_disagree :
    let history := [addedEntry, movedEntry 2 7, movedEntry 3 9]
    let history' := [addedEntry, movedEntry 3 9, movedEntry 2 7]
    (history.Perm history' ∧ (history.map fun b => b.info.timestamp).Nodup ∧ Addressed history ∧
      OrderedHistory history ∧ InChainOrder history ∧ InChainOrder history' ∧
      MovesAfter history ∧ MovesAfter history') ∧
    (idbListed history = some [⟨1600000000000003, 3, 1⟩] ∧
      idbListed history' = some [⟨1600000000000002, 2, 1⟩]) ∧
    (memoryListed history = some [⟨1600000000000003, 3, 1⟩] ∧
      memoryListed history' = some [⟨1600000000000002, 2, 1⟩]) := by
  refine ⟨⟨.cons _ (.swap ..), ?_⟩, ?_, ?_⟩
  · decide +kernel
  · decide +kernel
  · decide +kernel

end Js

end Gink
