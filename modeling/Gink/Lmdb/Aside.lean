/-
  Gink.Lmdb.Aside — the statements of a change that add no entry.

  Replacing, moving and clearing write to the removals, the placements, the locations and the
  indexes, and take entries away.  `Shrunk` says what they leave alone, so that an invariant of
  the entries, the containers, the clearances or the totals is checked where one of these gains
  a row.
-/
import Gink.Lmdb.Effects

namespace Gink

namespace Lmdb

/-! ## §1. What may differ. -/

/-- No entry is new, and containers, clearances and totals are the same. -/
structure Shrunk (c c' : Contents) : Prop where
  entries : ∀ row ∈ c'.entries.rows, row ∈ c.entries.rows
  containers : c'.containers = c.containers
  clearances : c'.clearances = c.clearances
  totals : c'.totals = c.totals

theorem Shrunk.refl (c : Contents) : Shrunk c c := ⟨fun _ h => h, rfl, rfl, rfl⟩

theorem Shrunk.trans {c c' c'' : Contents} (h : Shrunk c c') (h' : Shrunk c' c'') :
    Shrunk c c'' :=
  ⟨fun row hrow => h.entries row (h'.entries row hrow), h'.containers.trans h.containers,
    h'.clearances.trans h.clearances, h'.totals.trans h.totals⟩

/-- Erasing an entry. -/
theorem Shrunk.erase {c c' : Contents} (h : Shrunk c c') (k : Bytes) :
    Shrunk c { c' with entries := c'.entries.erase k } :=
  ⟨fun row hrow => h.entries row (List.mem_filter.mp hrow).1, h.containers, h.clearances,
    h.totals⟩

section
variable {lib : Externals} {committed c c' : Contents} {retaining : Bool} {info : BundleInfo}
  {offset : Nat}

/-! ## §2. Removing and replacing. -/

theorem removeLocations_shrunk (entryMuidBytes : Bytes) (rows : List (Bytes × Bytes))
    (c : Contents) : ∀ c', removeLocations entryMuidBytes rows c = .ok c' → Shrunk c c' := by
  fun_induction removeLocations entryMuidBytes rows c with
  | case1 c =>
      intro c' h
      injection h with h
      rw [h]
      exact .refl _
  | case2 row rest c hpre ih =>
      intro c' h
      obtain ⟨placements, -, h⟩ := bind_eq_ok.mp h
      have hdropped : Shrunk c { c with placements, locations := c.locations.erase row.1 } :=
        ⟨fun _ h => h, rfl, rfl, rfl⟩
      cases rest with
      | nil =>
          rw [← pure_eq_ok.mp h]
          exact hdropped
      | cons skipped rest => exact hdropped.trans (ih placements c' h)
  | case3 row rest c hpre =>
      intro c' h
      injection h with h
      rw [h]
      exact .refl _

theorem removeEntry_shrunk {entryMuid : Muid} (h : removeEntry entryMuid c = .ok c') :
    Shrunk c c' := by
  unfold removeEntry at h
  cases hentry : c.entries.get? entryMuid.toBytes with
  | none =>
      rw [hentry] at h
      injection h with h
      rw [h]
      exact .refl _
  | some builder =>
      rw [hentry] at h
      obtain ⟨c1, h1, h⟩ := bind_eq_ok.mp h
      obtain ⟨container, -, h⟩ := bind_eq_ok.mp h
      obtain ⟨indexes, -, h⟩ := bind_eq_ok.mp h
      have hdropped := ((Shrunk.refl c).erase _).trans (removeLocations_shrunk _ _ _ c1 h1)
      rw [← pure_eq_ok.mp h]
      exact ⟨hdropped.entries, hdropped.containers, hdropped.clearances, hdropped.totals⟩

theorem recordRemoval_shrunk {key : RemovalKey} {time : Int} {value : Option MovementBuilder}
    (h : recordRemoval key time value c = .ok c') : Shrunk c c' := by
  obtain ⟨byTime, rfl⟩ := recordRemoval_ok h
  exact ⟨fun _ h => h, rfl, rfl, rfl⟩

theorem replaceFound_shrunk {builder : EntryBuilder} {placement : Placement}
    (h : replaceFound committed retaining info builder placement c = .ok c') : Shrunk c c' := by
  unfold replaceFound at h
  by_cases hr : newEntriesReplace builder.behavior = true
  · rw [if_pos hr] at h
    obtain ⟨found, -, h⟩ := bind_eq_ok.mp h
    cases found with
    | none =>
        rw [← pure_eq_ok.mp h]
        exact .refl _
    | some found =>
        simp only at h
        split_ifs at h with hkeep
        · exact recordRemoval_shrunk h
        · exact removeEntry_shrunk h
  · rw [if_neg hr] at h
    injection h with h
    rw [h]
    exact .refl _

/-- **An added entry**: its amount goes to the total first, and that is all for an accumulator
without history. -/
theorem addEntry_stages {builder : EntryBuilder}
    (h : addEntry lib committed retaining info offset builder c = .ok c') :
    ∃ placement c₁, Placement.fromBuilder builder info offset = .ok placement ∧
      addToTotal placement.container builder c = .ok c₁ ∧
      ((builder.behavior = .accumulator ∧ retaining = false ∧ c' = c₁) ∨
        ∃ bytes c₂ indexes, placement.toBytes = .ok bytes ∧ Shrunk c₁ c₂ ∧ c' = { c₂ with
          entries := c₂.entries.put placement.placer.toBytes builder
          placements := c₂.placements.put bytes placement.placer.toBytes
          locations := c₂.locations.put (locationKey placement.placer placement.placer) bytes
          indexes }) := by
  unfold addEntry at h
  obtain ⟨-, -, h⟩ := bind_eq_ok.mp h
  obtain ⟨placement, hp, h⟩ := bind_eq_ok.mp h
  obtain ⟨c₁, ht, h⟩ := bind_eq_ok.mp h
  refine ⟨placement, c₁, hp, ht, ?_⟩
  split_ifs at h with htotal
  · exact Or.inl ⟨htotal.1, htotal.2, (pure_eq_ok.mp h).symm⟩
  · obtain ⟨bytes, hb, h⟩ := bind_eq_ok.mp h
    obtain ⟨c₂, hr, h⟩ := bind_eq_ok.mp h
    obtain ⟨indexes, -, rfl⟩ := storeEntry_ok h
    exact Or.inr ⟨bytes, c₂, indexes, hb, replaceFound_shrunk hr, rfl⟩

/-- It is the one entry that may be new; containers and clearances are left alone. -/
theorem addEntry_rows {builder : EntryBuilder}
    (h : addEntry lib committed retaining info offset builder c = .ok c') :
    (∀ row ∈ c'.entries.rows, row ∈ c.entries.rows ∨ row.2 = builder) ∧
      c'.containers = c.containers ∧ c'.clearances = c.clearances := by
  obtain ⟨placement, c₁, -, ht, h⟩ := addEntry_stages h
  obtain ⟨totals, rfl⟩ := addToTotal_ok ht
  rcases h with ⟨-, -, rfl⟩ | ⟨bytes, c₂, indexes, -, hshrunk, rfl⟩
  · exact ⟨fun row hrow => Or.inl hrow, rfl, rfl⟩
  · refine ⟨?_, hshrunk.containers, hshrunk.clearances⟩
    intro row hrow
    rcases Table.mem_rows_put.mp hrow with rfl | ⟨-, hrow⟩
    · exact Or.inr rfl
    · exact Or.inl (hshrunk.entries row hrow)

/-! ## §3. Moving. -/

theorem placeMoved_shrunk {dest : Int} {container entryMuid movementMuid : Muid}
    {expiry : Option Int}
    (h : placeMoved retaining dest container entryMuid movementMuid expiry c = .ok c') :
    Shrunk c c' := by
  unfold placeMoved at h
  split_ifs at h
  · obtain ⟨serialized, -, h⟩ := bind_eq_ok.mp h
    rw [← pure_eq_ok.mp h]
    exact ⟨fun _ h => h, rfl, rfl, rfl⟩
  · injection h with h
    rw [← h]
    exact ⟨fun _ h => h, rfl, rfl, rfl⟩
  · injection h with h
    rw [h]
    exact .refl _

theorem dropMoved_shrunk (dest : Int) (entryMuid : Muid) (existing : Bytes × Bytes)
    (c : Contents) : Shrunk c (dropMoved dest entryMuid existing c) := by
  refine ⟨?_, rfl, rfl, rfl⟩
  intro row hrow
  unfold dropMoved at hrow
  simp only at hrow
  split_ifs at hrow
  · exact (List.mem_filter.mp hrow).1
  · exact hrow

theorem relocate_shrunk {builder : MovementBuilder} {container entryMuid movementMuid : Muid}
    {existing : Bytes × Bytes} {placed : Placement}
    (h : relocate retaining builder container entryMuid movementMuid existing placed c = .ok c') :
    Shrunk c c' := by
  unfold relocate at h
  split_ifs at h
  · obtain ⟨c1, hr, h⟩ := bind_eq_ok.mp h
    exact (recordRemoval_shrunk hr).trans (placeMoved_shrunk h)
  · obtain ⟨c1, hm, h⟩ := bind_eq_ok.mp h
    rw [← pure_eq_ok.mp h]
    exact (placeMoved_shrunk hm).trans (dropMoved_shrunk _ _ _ _)

theorem applyMovement_shrunk {builder : MovementBuilder}
    (h : applyMovement retaining info offset builder c = .ok c') : Shrunk c c' := by
  unfold applyMovement at h
  obtain ⟨container, -, h⟩ := bind_eq_ok.mp h
  obtain ⟨entryMuid, -, h⟩ := bind_eq_ok.mp h
  obtain ⟨movementMuid, -, h⟩ := bind_eq_ok.mp h
  split at h
  · obtain ⟨placer, -, h⟩ := bind_eq_ok.mp h
    split_ifs at h
    · rw [← pure_eq_ok.mp h]
      exact .refl _
    · rw [← pure_eq_ok.mp h]
      exact .refl _
    · obtain ⟨placed, -, h⟩ := bind_eq_ok.mp h
      split_ifs at h
      · rw [← pure_eq_ok.mp h]
        exact .refl _
      · exact relocate_shrunk h
  · rw [← pure_eq_ok.mp h]
    exact .refl _

/-! ## §4. Clearing. -/

theorem purgeEntries_shrunk {containerBytes : Bytes} :
    ∀ (fuel : Nat) {c c' : Contents}, purgeEntries containerBytes fuel c = .ok c' →
      Shrunk c c' := by
  intro fuel
  induction fuel with
  | zero =>
      intro c c' h
      injection h with h
      rw [h]
      exact .refl _
  | succ fuel ih =>
      intro c c' h
      unfold purgeEntries at h
      cases hlast : toLast c.entries containerBytes with
      | none =>
          rw [hlast] at h
          injection h with h
          rw [h]
          exact .refl _
      | some r =>
          rw [hlast] at h
          obtain ⟨placement, -, h⟩ := bind_eq_ok.mp h
          have hrest := ih h
          exact ⟨fun row hrow => (List.mem_filter.mp (hrest.entries row hrow)).1,
            hrest.containers, hrest.clearances, hrest.totals⟩

/-- What is left of the clearances when one of the container comes in. -/
def clearedOut (retaining : Bool) (container : Muid) (t : Table Bytes ClearanceBuilder) :
    Table Bytes ClearanceBuilder :=
  if retaining then t else deleteWithPrefix t container.toBytes

/-- **A clearance** puts its row into what is left of the clearances. -/
theorem applyClearance_rows {builder : ClearanceBuilder}
    (h : applyClearance retaining info offset builder c = .ok c') :
    ∃ container clearance, resolve info.context builder.container = .ok container ∧
      changeMuid info offset = .ok clearance ∧
      Shrunk { c with
        clearances := (clearedOut retaining container c.clearances).put
          (container.toBytes ++ clearance.toBytes) builder } c' := by
  unfold applyClearance at h
  obtain ⟨container, hc, h⟩ := bind_eq_ok.mp h
  obtain ⟨clearance, hm, h⟩ := bind_eq_ok.mp h
  obtain ⟨c1, hpurge, h⟩ := bind_eq_ok.mp h
  refine ⟨container, clearance, hc, hm, ?_⟩
  rw [← pure_eq_ok.mp h]
  have hleft : Shrunk { c with clearances := clearedOut retaining container c.clearances } c1 := by
    unfold purgeCleared at hpurge
    unfold clearedOut
    split_ifs at hpurge ⊢
    · injection hpurge with hpurge
      rw [hpurge]
      exact .refl _
    · obtain ⟨c2, hentries, hpurge⟩ := bind_eq_ok.mp hpurge
      rw [← pure_eq_ok.mp hpurge]
      have hshrunk := purgeEntries_shrunk _ hentries
      exact ⟨hshrunk.entries, hshrunk.containers, hshrunk.clearances, hshrunk.totals⟩
  refine ⟨hleft.entries, hleft.containers, ?_, hleft.totals⟩
  show c1.clearances.put _ _ = _
  rw [hleft.clearances]

end

end Lmdb

end Gink
