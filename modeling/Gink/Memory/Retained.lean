/-
  Gink.Memory.Retained — what the dictionaries hold while history is retained.

  A call that raises keeps part of its writes, so the invariant is one of every write
  and not only of calls that return.
-/
import Gink.Memory.Aside
import Gink.Memory.Store

namespace Gink

namespace Memory

/-- Every placement is one of a stored entry, placed by an address with a medallion,
and a clearance's key spells the container and an address with a time and a medallion. -/
structure Retained (c : Contents) : Prop where
  entries : ∀ row ∈ c.placements.rows, (c.entries.get? row.2).isSome
  placers : ∀ row ∈ c.placements.rows, ∀ m : Muid, Placement.placerSlice row.1 = m.toBytes →
    m.medallionField.val ≠ 0
  clearances : ∀ row ∈ c.clearances.rows, ∃ container z : Muid,
    row.1 = container.toBytes ++ z.toBytes ∧ z.timeField.val ≠ 0 ∧ z.medallionField.val ≠ 0

/-- Writes to the other dictionaries keep it. -/
theorem Retained.frame {c c' : Contents} (h : Retained c) (he : c'.entries = c.entries)
    (hp : c'.placements = c.placements) (hc : c'.clearances = c.clearances) : Retained c' := by
  refine ⟨?_, ?_, ?_⟩
  · rw [he, hp]
    exact h.entries
  · rw [hp]
    exact h.placers
  · rw [hc]
    exact h.clearances

theorem Retained.aside {c c' : Contents} (h : Retained c) (hsame : SameRows c c') : Retained c' :=
  h.frame hsame.entries hsame.placements hsame.clearances

/-- So does a new placement of a stored entry. -/
theorem Retained.put {c c' : Contents} (h : Retained c) {p : Placement} {bytes : Bytes} {value : Muid}
    (hentries : ∀ k, (c.entries.get? k).isSome → (c'.entries.get? k).isSome)
    (hb : p.toBytes = .ok bytes) (hplacer : p.placer.medallionField.val ≠ 0)
    (hvalue : (c'.entries.get? value).isSome)
    (hp : c'.placements = c.placements.put bytes value) (hc : c'.clearances = c.clearances) :
    Retained c' := by
  refine ⟨?_, ?_, by rw [hc]; exact h.clearances⟩
  · intro row hrow
    rw [hp] at hrow
    rcases Table.mem_rows_put.mp hrow with rfl | ⟨-, hrow⟩
    · exact hvalue
    · exact hentries _ (h.entries row hrow)
  · intro row hrow m hm
    rw [hp] at hrow
    rcases Table.mem_rows_put.mp hrow with rfl | ⟨-, hrow⟩
    · rw [Placement.placer_of_toBytes hb] at hm
      rw [← Muid.toBytes_injective hm]
      exact hplacer
    · exact h.placers row hrow m hm

open Gink.Action

/-! ## §1. Entries. -/

theorem addToTotal_retained (container : Muid) (builder : EntryBuilder) :
    Keeps Retained (addToTotal container builder) := by
  unfold addToTotal
  split_ifs
  · apply Keeps.get_bind
    intro c hc
    cases integerOf builder with
    | error e => exact hc
    | ok amount => exact hc.frame rfl rfl rfl
  · exact Keeps.pure _

theorem storeEntry_retained {builder : EntryBuilder} {placement : Placement} {bytes : Bytes}
    (hb : placement.toBytes = .ok bytes) (hplacer : placement.placer.medallionField.val ≠ 0) :
    Keeps Retained (storeEntry builder placement bytes) := by
  intro c hc
  refine hc.put ?_ hb hplacer ?_ rfl rfl
  · intro k hk
    show ((c.entries.put placement.placer builder).get? k).isSome
    rw [Table.get?_put]
    split_ifs
    · rfl
    · exact hk
  · show ((c.entries.put placement.placer builder).get? placement.placer).isSome
    rw [Table.get?_put_self]
    rfl

theorem addEntry_retained (now : Int) (info : BundleInfo) (offset : Nat) (builder : EntryBuilder) :
    Keeps Retained (addEntry true now info offset builder) := by
  refine addEntry_keeps Retained.aside (fun _ => addToTotal_retained _ _)
    (fun _ => (replaceFound_aside _ _ _).keeps Retained.aside) ?_
  intro placement bytes hp hb
  exact storeEntry_retained hb (changeMuid_medallion (Placement.fromBuilder_eq_ok hp).1)

/-! ## §2. Movements and clearances. -/

theorem placeMoved_retained (dest : Int) (container entryMuid : Muid) {movementMuid : Muid}
    (expiry : Option Int) (old : Bytes) (hm : movementMuid.medallionField.val ≠ 0) :
    Keeps Retained (placeMoved dest container entryMuid movementMuid expiry old) := by
  unfold placeMoved
  split_ifs
  · refine Keeps.of_bind fun bytes hb => Keeps.get_bind fun c hc => ?_
    cases hold : c.placements.get? old with
    | none => exact hc
    | some moved =>
        -- the entry at the old place is stored, and it is the one at the new place
        have hmoved := hc.entries _ (Table.get?_eq_some_iff.mp hold)
        exact hc.put (fun _ hk => hk) hb hm hmoved rfl rfl
  · exact Keeps.modify fun c hc => hc.frame rfl rfl rfl

theorem addMovement_retained (info : BundleInfo) (offset : Nat) (builder : MovementBuilder) :
    Keeps Retained (addMovement info offset builder) :=
  addMovement_keeps Retained.aside fun _ _ _ _ _ _ hm =>
    placeMoved_retained _ _ _ _ _ (changeMuid_medallion hm)

theorem addClearance_retained (info : BundleInfo) (offset : Nat) (builder : ClearanceBuilder) :
    Keeps Retained (addClearance info offset builder) := by
  unfold addClearance
  refine Keeps.of_bind fun container _ => Keeps.of_bind fun clearance hm => Keeps.modify ?_
  intro c hc
  refine ⟨hc.entries, hc.placers, ?_⟩
  intro row hrow
  rcases Table.mem_rows_put.mp hrow with rfl | ⟨-, hrow⟩
  · exact ⟨container, clearance, rfl, create_timeField hm, changeMuid_medallion hm⟩
  · exact hc.clearances row hrow

/-! ## §3. Bundles and runs. -/

theorem applyChange_retained (now : Int) (info : BundleInfo) (offset : Nat)
    (change : ChangeBuilder) : Keeps Retained (applyChange true now info offset change) := by
  cases change with
  | unset => exact Keeps.of (.error (.valueError "didn't recognize change"))
  | container builder =>
      exact Keeps.of_bind fun _ _ => Keeps.modify fun c hc => hc.frame rfl rfl rfl
  | entry builder =>
      refine Keeps.of_bind fun muid _ => Keeps.bind ?_ fun _ => addEntry_retained _ _ _ _
      apply Keeps.get_bind
      intro c hc
      split_ifs
      · exact hc.frame rfl rfl rfl
      · exact hc
  | movement builder => exact addMovement_retained info offset builder
  | clearance builder => exact addClearance_retained info offset builder

/-- An invariant of one turn of the loop is one of the loop. -/
theorem applyChangesFrom_keeps {P : Contents → Prop} {retaining : Bool}
    (hstep : ∀ now info offset change, Keeps P (applyChange retaining now info offset change))
    (clock : Nat → Int) (info : BundleInfo) (changes : List ChangeBuilder) :
    ∀ offset, Keeps P (applyChangesFrom retaining clock info offset changes) := by
  induction changes with
  | nil => exact fun _ => Keeps.pure _
  | cons change rest ih =>
      intro offset
      exact Keeps.bind (hstep _ _ _ _) fun _ => ih (offset + 1)

/-- `_retaining_entries` is as given and the dictionaries are as they should be. -/
def StoreKeeps (retaining : Bool) (P : Contents → Prop) (s : Store) : Prop :=
  s.retainingEntries = retaining ∧ P s.contents

section
variable {P : Contents → Prop} {retaining : Bool}

/-- Applying a bundle keeps that, however the call ends. -/
theorem applyNeeded_keeps
    (hstep : ∀ now info offset change, Keeps P (applyChange retaining now info offset change))
    (lib : Externals) (clock : Nat → Int) (bundle : Decomposition)
    (builder : BundleBuilder) (info : BundleInfo) (old : Option BundleInfo) :
    Keeps (StoreKeeps retaining P) (applyNeeded lib clock bundle builder info old) := by
  have hkey : Keeps (StoreKeeps retaining P) (chainKey builder info old) := by
    unfold chainKey
    split_ifs
    · exact Keeps.bind (Keeps.modify fun s hs => hs) fun _ => Keeps.of_bind fun _ _ =>
        Keeps.bind (Keeps.modify fun s hs => hs) fun _ => Keeps.pure _
    · exact Keeps.get_bind fun s hs => Keeps.of_bind (fun _ _ => Keeps.of_bind fun _ _ =>
        Keeps.of_bind fun _ _ => Keeps.pure _) s hs
  refine Keeps.bind (Keeps.bind hkey fun key => Keeps.of_bind fun _ _ =>
    Keeps.modify fun s hs => hs) fun _ => ?_
  apply Keeps.get_bind
  intro s hs
  refine Keeps.of_bind (fun changes _ => ?_) s hs
  rw [hs.1]
  intro t ht
  have happlied := applyChangesFrom_keeps hstep clock info changes 1 t.contents ht.2
  unfold onContents Action.within
  cases hr : applyChangesFrom retaining clock info 1 changes t.contents with
  | ok u c =>
      rw [hr] at happlied
      exact ⟨ht.1, happlied⟩
  | error e c =>
      rw [hr] at happlied
      exact ⟨ht.1, happlied⟩

/-- **One call** keeps it. -/
theorem applyBundle_keeps
    (hstep : ∀ now info offset change, Keeps P (applyChange retaining now info offset change))
    (lib : Externals) {s : Store} (bundle : Decomposition)
    (callback : Option Callback) (clock : Nat → Int) (h : StoreKeeps retaining P s) :
    StoreKeeps retaining P (applyBundle lib s bundle callback clock).store := by
  unfold applyBundle
  cases hb : bundle.getBuilder lib with
  | error e => exact h
  | ok builder =>
      simp only
      generalize BundleInfo.ofBuilder builder (lib.digest bundle.bundleBytes) = info
      cases isNeeded info (s.chainInfos.get? info.chain) with
      | error e => exact h
      | ok needed =>
          cases needed with
          | false => exact h
          | true =>
              simp only
              have happlied := applyNeeded_keeps hstep lib clock bundle builder info
                (s.chainInfos.get? info.chain) s h
              cases hr : applyNeeded lib clock bundle builder info (s.chainInfos.get? info.chain) s with
              | error e s' =>
                  rw [hr] at happlied
                  exact happlied
              | ok u s' =>
                  rw [hr] at happlied
                  cases callback with
                  | none => exact happlied
                  | some f =>
                      simp only
                      cases f bundle with
                      | error e => exact happlied
                      | ok u => exact happlied

/-- **An invariant of changes holds in every state of every run**, whatever its calls
do: those that raise keep part of their writes. -/
theorem runCalls_keeps
    (hstep : ∀ now info offset change, Keeps P (applyChange retaining now info offset change))
    (lib : Externals) (calls : List Call) :
    ∀ s : Store, StoreKeeps retaining P s → StoreKeeps retaining P (runCalls lib s calls) := by
  induction calls with
  | nil => exact fun _ h => h
  | cons call rest ih =>
      intro s h
      exact ih _ (applyBundle_keeps hstep lib call.bundle call.callback call.clock h)

end

/-- `_retaining_entries` is on and the dictionaries hold what they should. -/
def StoreRetained (s : Store) : Prop := StoreKeeps true Retained s

/-- **It holds in every state of every run.** -/
theorem runCalls_retained (lib : Externals) (calls : List Call) :
    ∀ s : Store, StoreRetained s → StoreRetained (runCalls lib s calls) :=
  runCalls_keeps applyChange_retained lib calls

theorem newStore_retained (symmetricKeys : List (Nat × Bytes)) :
    StoreRetained (newStore symmetricKeys true) :=
  ⟨rfl, by simp [newStore], by simp [newStore], by simp [newStore]⟩

end Memory

end Gink
