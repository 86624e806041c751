/-
  Gink.Stores.ResetValid — the changes of a reset pass `validate_bundle`.

  The entries of a store come from the bundles it applied, and the reset rewords them or
  writes its own.  Where every entry that came is one the validator accepts, it accepts what
  the reset yields, but for the deletion of what a box holds.
-/
import Gink.Lmdb.ResetValid
import Gink.Lmdb.KeyedConvergence
import Gink.Memory.ResetValid
import Gink.Proto.Sample

namespace Gink

/-- The message that comes with the bundle passes `validate_bundle`. -/
def Passes (lib : Externals) (d : Decomposition) : Prop :=
  ∀ builder, d.getBuilder lib = .ok builder → validateBundle builder = .ok ()

/-- Changes that come encrypted, where the validator does not see them, are valid too. -/
def SealedValid (lib : Externals) (symmetricKey : U64 → Except Error Bytes) (d : Decomposition) :
    Prop :=
  ∀ builder changes, d.getBuilder lib = .ok builder → builder.encrypted ≠ [] →
    openChanges lib symmetricKey builder = .ok changes → ∀ change ∈ changes, change.Valid

/-- Then every entry that is applied is well formed. -/
theorem entriesOf_wellFormed {lib : Externals} {symmetricKey : U64 → Except Error Bytes}
    {d : Decomposition} (hpasses : Passes lib d) (hsealed : SealedValid lib symmetricKey d) :
    EntriesOf (·.wellFormed = true) lib symmetricKey d := by
  intro builder changes hbuilder hopened e he
  by_cases hplain : builder.encrypted = []
  · have hchanges : builder.changes = changes := by
      unfold openChanges at hopened
      rw [if_pos hplain] at hopened
      exact Except.ok.inj hopened
    exact validateBundle_eq_ok.mp (hpasses builder hbuilder) _ (hchanges ▸ he)
  · exact hsealed builder changes hbuilder hplain hopened _ he

/-- **The resetting bundle passes `validate_bundle`**, in every state that either store comes to
by bundles that pass it, unless the reset comes to a box that it would empty, or to an edge
that it would misdescribe. -/
theorem reset_passes_validation (lib : Externals) (fuel : Nat) (toTime : Int)
    (container : Option Muid) (userKey : Option UserKey) (recursive : Bool)
    (bundle : BundleBuilder) :
    (∀ (symmetricKeys : Table Bytes Bytes) (retainBundles retainEntries : Bool)
      (calls : List Lmdb.Call),
      let start := Lmdb.newStore symmetricKeys retainBundles retainEntries
      let c := (Lmdb.runCalls lib start calls).db.contents
      (∀ call ∈ calls, Passes lib call.bundle) →
      (∀ call ∈ calls, SealedValid lib start.db.symmetricKey call.bundle) →
      (∀ m, Lmdb.ComesTo c container userKey recursive m → Lmdb.WritesValid c toTime m) →
      bundle.changes = (Lmdb.getResetChanges c fuel toTime container userKey recursive).yielded →
      validateBundle bundle = .ok ()) ∧
    ∀ (symmetricKeys : List (Nat × Bytes)) (retainEntries : Bool) (calls : List Memory.Call),
      let c := (Memory.runCalls lib (Memory.newStore symmetricKeys retainEntries) calls).contents
      (∀ call ∈ calls, Passes lib call.bundle) →
      (∀ call ∈ calls, SealedValid lib (Memory.keyOf symmetricKeys) call.bundle) →
      (∀ m, Memory.GoesTo c container userKey recursive m → Memory.WritesValid c toTime m) →
      bundle.changes = (Memory.getResetChanges c fuel toTime container userKey recursive).yielded →
      validateBundle bundle = .ok () := by
  constructor
  · intro symmetricKeys retainBundles retainEntries calls start c hpasses hsealed hvalid hchanges
    have hentries : Lmdb.EveryEntry (·.wellFormed = true) c := by
      apply Lmdb.runCalls_every
      · exact fun call hcall => entriesOf_wellFormed (hpasses call hcall) (hsealed call hcall)
      · exact fun row hrow => absurd hrow List.not_mem_nil
    rw [validateBundle_eq_ok, hchanges]
    exact Lmdb.getResetChanges_valid hentries fuel toTime container userKey recursive hvalid
  · intro symmetricKeys retainEntries calls c hpasses hsealed hvalid hchanges
    have hstart : Memory.StoreStocked (·.wellFormed = true) symmetricKeys
        (Memory.newStore symmetricKeys retainEntries) :=
      ⟨rfl, fun row hrow => absurd hrow List.not_mem_nil,
        fun row hrow => absurd hrow List.not_mem_nil⟩
    have hstocked : Memory.StoreStocked (·.wellFormed = true) symmetricKeys
        (Memory.runCalls lib (Memory.newStore symmetricKeys retainEntries) calls) := by
      apply Memory.runCalls_stocked ?_ hstart
      exact fun call hcall => entriesOf_wellFormed (hpasses call hcall) (hsealed call hcall)
    rw [validateBundle_eq_ok, hchanges]
    exact Memory.getResetChanges_valid hstocked.2 fuel toTime container userKey recursive hvalid

/-- A bundle with one entry in the global container of a behavior. -/
def keptBundle (behavior : Behavior) (subject : Option Subject) : BundleBuilder :=
  startingBundle 5 1 [sampleEntry behavior subject "x"]

/-- An `LmdbStore` that has the entry. -/
def keptLmdb (behavior : Behavior) (subject : Option Subject) : Lmdb.Contents :=
  (Lmdb.runCalls (sampleExternals [keptBundle behavior subject]) (Lmdb.newStore ∅ true true)
    [Lmdb.sampleCall 0 1]).db.contents

/-- A `MemoryStore` that has it. -/
def keptMemory (behavior : Behavior) (subject : Option Subject) : Memory.Contents :=
  (Memory.runCalls (sampleExternals [keptBundle behavior subject]) (Memory.newStore [] true)
    [{ bundle := sampleBundle 0 }]).contents

theorem getBuilder_kept {behavior : Behavior} {subject : Option Subject} {builder : BundleBuilder}
    (h : (sampleBundle 0).getBuilder (sampleExternals [keptBundle behavior subject]) = .ok builder) :
    builder = keptBundle behavior subject :=
  (Except.ok.inj (show Except.ok _ = Except.ok builder from h)).symm

/-- The reset of a directory to a time before its entry is written out as a valid bundle. -/
theorem reset_passes_validation_directory :
    let subject := some (Subject.key (some (.characters "k")))
    validateBundle { changes := (Lmdb.getResetChanges (keptLmdb .directory subject) 3 3
      (some (globalMuid .directory)) none false).yielded } = .ok () ∧
    validateBundle { changes := (Memory.getResetChanges (keptMemory .directory subject) 3 3
      (some (globalMuid .directory)) none false).yielded } = .ok () := by
  intro subject
  have hpasses : Passes (sampleExternals [keptBundle .directory subject]) (sampleBundle 0) := by
    intro builder hbuilder
    rw [getBuilder_kept hbuilder]
    decide +kernel
  have hsealed (key : U64 → Except Error Bytes) :
      SealedValid (sampleExternals [keptBundle .directory subject]) key (sampleBundle 0) := by
    intro builder changes hbuilder hencrypted
    rw [getBuilder_kept hbuilder] at hencrypted
    exact absurd rfl hencrypted
  have hvalid := reset_passes_validation (sampleExternals [keptBundle .directory subject]) 3 3
    (some (globalMuid .directory)) none false
  constructor
  · refine (hvalid _).1 ∅ true true [Lmdb.sampleCall 0 1] ?_ ?_ ?_ rfl
    · exact fun call hcall => List.mem_singleton.mp hcall ▸ hpasses
    · exact fun call hcall => List.mem_singleton.mp hcall ▸ hsealed _
    · rintro m (rfl | ⟨hrecursive, -⟩)
      · constructor
        · rintro ⟨hbehavior, -⟩
          cases hbehavior
        · rintro ⟨⟨behavior, hbehavior, hordered⟩, -⟩
          cases hbehavior
          exact absurd hordered (by decide)
      · cases hrecursive
  · refine (hvalid _).2 [] true [{ bundle := sampleBundle 0 }] ?_ ?_ ?_ rfl
    · exact fun call hcall => List.mem_singleton.mp hcall ▸ hpasses
    · exact fun call hcall => List.mem_singleton.mp hcall ▸ hsealed _
    · rintro m (rfl | ⟨hrecursive, -⟩)
      · constructor
        · rintro ⟨hbehavior, -⟩
          cases hbehavior
        · rintro ⟨behavior, row, placement, builder, hbehavior, hordered, -⟩
          cases hbehavior
          rcases hordered with h | h <;> cases h
      · cases hrecursive

/-- A box that was set is emptied by a change that no one accepts. -/
theorem box_reset_refused :
    validateBundle (keptBundle .box none) = .ok () ∧
    validateBundle { changes := (Lmdb.getResetChanges (keptLmdb .box none) 3 3
      (some (globalMuid .box)) none false).yielded } ≠ .ok () ∧
    validateBundle { changes := (Memory.getResetChanges (keptMemory .box none) 3 3
      (some (globalMuid .box)) none false).yielded } ≠ .ok () := by
  decide +kernel

end Gink
