/-
  Gink.Lmdb.Positions — where the rows of the placements come from (lmdb_store.py).

  Adding an entry puts a row into the placements, and so does carrying out a movement; all else
  that is done to them is taking rows away.  So every row there is, after any calls, was put
  there by one of the changes taken in.
-/
import Gink.Lmdb.Retention
import Gink.Queue.Scan

namespace Gink

/-- The change puts a row with this key into the placements. -/
def Op.Places (op : Op) (key : Bytes) : Prop :=
  match op.change with
  | .entry builder => ∃ placement, Placement.fromBuilder builder op.info op.offset = .ok placement ∧
      placement.toBytes = .ok key
  | .movement builder => ∃ container placer expiry,
      resolve op.info.context builder.container = .ok container ∧ builder.dest ≠ 0 ∧
        (Placement.mk container (.queue builder.dest) placer expiry).toBytes = .ok key
  | _ => False

namespace Lmdb

section
variable {lib : Externals} {committed c c' : Contents} {retaining : Bool} {info : BundleInfo}
  {offset : Nat}

/-! ## §1. What takes rows away. -/

/-- No placement is new. -/
def Fewer (c c' : Contents) : Prop := ∀ row ∈ c'.placements.rows, row ∈ c.placements.rows

theorem Fewer.refl (c : Contents) : Fewer c c := fun _ h => h

theorem Fewer.trans {c c' c'' : Contents} (h : Fewer c c') (h' : Fewer c' c'') : Fewer c c'' :=
  fun row hrow => h row (h' row hrow)

theorem deleteRow_rows {V : Type} {t t' : Table Bytes V} {k : Bytes}
    (h : deleteRow t k = .ok t') : ∀ row ∈ t'.rows, row ∈ t.rows := by
  unfold deleteRow at h
  split_ifs at h
  injection h with h
  rw [← h]
  exact fun row hrow => (List.mem_filter.mp hrow).1

theorem removeLocations_fewer (entryMuidBytes : Bytes) (rows : List (Bytes × Bytes))
    (c : Contents) : ∀ c', removeLocations entryMuidBytes rows c = .ok c' → Fewer c c' := by
  fun_induction removeLocations entryMuidBytes rows c with
  | case1 c =>
      intro c' h
      injection h with h
      rw [h]
      exact .refl _
  | case2 row rest c hpre ih =>
      intro c' h
      obtain ⟨placements, hdelete, h⟩ := bind_eq_ok.mp h
      have hdropped : Fewer c { c with placements, locations := c.locations.erase row.1 } :=
        deleteRow_rows hdelete
      cases rest with
      | nil =>
          rw [← pure_eq_ok.mp h]
          exact hdropped
      | cons skipped rest => exact hdropped.trans (ih placements c' h)
  | case3 row rest c hpre =>
      intro c' h
      injection h with h
      rw [h]
      exact .refl _

theorem removeEntry_fewer {entryMuid : Muid} (h : removeEntry entryMuid c = .ok c') :
    Fewer c c' := by
  unfold removeEntry at h
  cases hentry : c.entries.get? entryMuid.toBytes with
  | none =>
      rw [hentry] at h
      injection h with h
      rw [h]
      exact .refl _
  | some builder =>
      rw [hentry] at h
      obtain ⟨c1, h1, h⟩ := bind_eq_ok.mp h
      obtain ⟨container, -, h⟩ := bind_eq_ok.mp h
      obtain ⟨indexes, -, h⟩ := bind_eq_ok.mp h
      have hdropped := removeLocations_fewer _ _ _ c1 h1
      rw [← pure_eq_ok.mp h]
      exact hdropped

theorem recordRemoval_fewer {key : RemovalKey} {time : Int} {value : Option MovementBuilder}
    (h : recordRemoval key time value c = .ok c') : Fewer c c' := by
  obtain ⟨byTime, rfl⟩ := recordRemoval_ok h
  exact fun _ hrow => hrow

theorem replaceFound_fewer {builder : EntryBuilder} {placement : Placement}
    (h : replaceFound committed retaining info builder placement c = .ok c') : Fewer c c' := by
  unfold replaceFound at h
  by_cases hr : newEntriesReplace builder.behavior = true
  · rw [if_pos hr] at h
    obtain ⟨found, -, h⟩ := bind_eq_ok.mp h
    cases found with
    | none =>
        rw [← pure_eq_ok.mp h]
        exact .refl _
    | some found =>
        simp only at h
        split_ifs at h with hkeep
        · exact recordRemoval_fewer h
        · exact removeEntry_fewer h
  · rw [if_neg hr] at h
    injection h with h
    rw [h]
    exact .refl _

theorem purgeEntries_fewer {containerBytes : Bytes} :
    ∀ (fuel : Nat) {c c' : Contents}, purgeEntries containerBytes fuel c = .ok c' →
      Fewer c c' := by
  intro fuel
  induction fuel with
  | zero =>
      intro c c' h
      injection h with h
      rw [h]
      exact .refl _
  | succ fuel ih =>
      intro c c' h
      unfold purgeEntries at h
      cases hlast : toLast c.entries containerBytes with
      | none =>
          rw [hlast] at h
          injection h with h
          rw [h]
          exact .refl _
      | some r =>
          rw [hlast] at h
          obtain ⟨placement, -, h⟩ := bind_eq_ok.mp h
          have hrest := ih h
          exact hrest

theorem applyClearance_fewer {builder : ClearanceBuilder}
    (h : applyClearance retaining info offset builder c = .ok c') : Fewer c c' := by
  unfold applyClearance at h
  obtain ⟨container, -, h⟩ := bind_eq_ok.mp h
  obtain ⟨clearance, -, h⟩ := bind_eq_ok.mp h
  obtain ⟨c1, hpurge, h⟩ := bind_eq_ok.mp h
  have hpurged : Fewer c c1 := by
    unfold purgeCleared at hpurge
    split_ifs at hpurge
    · injection hpurge with hpurge
      rw [hpurge]
      exact .refl _
    · obtain ⟨c2, hentries, hpurge⟩ := bind_eq_ok.mp hpurge
      rw [← pure_eq_ok.mp hpurge]
      have hfewer : Fewer _ c2 := purgeEntries_fewer _ hentries
      exact hfewer
  rw [← pure_eq_ok.mp h]
  exact hpurged

/-- Dropping history takes rows away. -/
theorem dropRemovals_fewer (asOf : Int) (rows : List (Bytes × Bytes)) (c : Contents) :
    ∀ c', dropRemovals asOf rows c = .ok c' → Fewer c c' := by
  fun_induction dropRemovals asOf rows c with
  | case1 c =>
      intro c' h
      injection h with h
      rw [h]
      exact .refl _
  | case2 row rest c hempty =>
      intro c' h
      injection h with h
      rw [h]
      exact .refl _
  | case3 row rest c hkey ih =>
      intro c' h
      obtain ⟨decoded, -, h⟩ := bind_eq_ok.mp h
      obtain ⟨timestamp, -, h⟩ := bind_eq_ok.mp h
      split_ifs at h with hlater
      · rw [← pure_eq_ok.mp h]
        exact .refl _
      · obtain ⟨removal, -, h⟩ := bind_eq_ok.mp h
        obtain ⟨c₁, hremove, h⟩ := bind_eq_ok.mp h
        obtain ⟨removals, -, h⟩ := bind_eq_ok.mp h
        have hrest : Fewer c₁ c' := ih c₁ removals c' h
        exact (removeEntry_fewer hremove).trans hrest

/-! ## §2. What puts one. -/

theorem addEntry_placements {builder : EntryBuilder}
    (h : addEntry lib committed retaining info offset builder c = .ok c') :
    ∀ row ∈ c'.placements.rows, row ∈ c.placements.rows ∨
      Op.Places ⟨info, offset, .entry builder⟩ row.1 := by
  unfold addEntry at h
  obtain ⟨_, -, h⟩ := bind_eq_ok.mp h
  obtain ⟨placement, hp, h⟩ := bind_eq_ok.mp h
  obtain ⟨c₁, ht, h⟩ := bind_eq_ok.mp h
  obtain ⟨totals, rfl⟩ := addToTotal_ok ht
  split_ifs at h with htotal
  · rw [← pure_eq_ok.mp h]
    exact fun row hrow => Or.inl hrow
  · obtain ⟨bytes, hb, h⟩ := bind_eq_ok.mp h
    obtain ⟨c₂, hr, h⟩ := bind_eq_ok.mp h
    obtain ⟨indexes, -, rfl⟩ := storeEntry_ok h
    have hfewer := replaceFound_fewer hr
    intro row hrow
    rcases Table.mem_rows_put.mp hrow with rfl | ⟨-, hrow⟩
    · exact Or.inr ⟨placement, hp, hb⟩
    · exact Or.inl (hfewer row hrow)

theorem placeMoved_placements {dest : Int} {container entryMuid movementMuid : Muid}
    {expiry : Option Int}
    (h : placeMoved retaining dest container entryMuid movementMuid expiry c = .ok c') :
    ∀ row ∈ c'.placements.rows, row ∈ c.placements.rows ∨ (dest ≠ 0 ∧
      (Placement.mk container (.queue dest) movementMuid expiry).toBytes = .ok row.1) := by
  unfold placeMoved at h
  split_ifs at h with hdest
  · obtain ⟨serialized, hserialized, h⟩ := bind_eq_ok.mp h
    rw [← pure_eq_ok.mp h]
    intro row hrow
    rcases Table.mem_rows_put.mp hrow with rfl | ⟨-, hrow⟩
    · exact Or.inr ⟨hdest, hserialized⟩
    · exact Or.inl hrow
  · injection h with h
    rw [← h]
    exact fun row hrow => Or.inl hrow
  · injection h with h
    rw [h]
    exact fun row hrow => Or.inl hrow

theorem relocate_placements {builder : MovementBuilder} {container entryMuid movementMuid : Muid}
    {existing : Bytes × Bytes} {placed : Placement}
    (h : relocate retaining builder container entryMuid movementMuid existing placed c = .ok c') :
    ∀ row ∈ c'.placements.rows, row ∈ c.placements.rows ∨ (builder.dest ≠ 0 ∧
      (Placement.mk container (.queue builder.dest) movementMuid placed.expiry).toBytes
        = .ok row.1) := by
  unfold relocate at h
  intro row hrow
  split_ifs at h
  · obtain ⟨c1, hr, h⟩ := bind_eq_ok.mp h
    rcases placeMoved_placements h row hrow with hold | hnew
    · exact Or.inl (recordRemoval_fewer hr row hold)
    · exact Or.inr hnew
  · obtain ⟨c1, hm, h⟩ := bind_eq_ok.mp h
    rw [← pure_eq_ok.mp h] at hrow
    exact placeMoved_placements hm row (List.mem_filter.mp hrow).1

theorem applyMovement_placements {builder : MovementBuilder}
    (h : applyMovement retaining info offset builder c = .ok c') :
    ∀ row ∈ c'.placements.rows, row ∈ c.placements.rows ∨
      Op.Places ⟨info, offset, .movement builder⟩ row.1 := by
  unfold applyMovement at h
  obtain ⟨container, hcontainer, h⟩ := bind_eq_ok.mp h
  obtain ⟨entryMuid, -, h⟩ := bind_eq_ok.mp h
  obtain ⟨movementMuid, -, h⟩ := bind_eq_ok.mp h
  have hsame : ∀ {c' : Contents}, (pure c : Except Error Contents) = .ok c' →
      ∀ row ∈ c'.placements.rows, row ∈ c.placements.rows ∨
        Op.Places ⟨info, offset, .movement builder⟩ row.1 := by
    intro c' h row hrow
    rw [← pure_eq_ok.mp h] at hrow
    exact Or.inl hrow
  split at h
  · obtain ⟨placer, -, h⟩ := bind_eq_ok.mp h
    split_ifs at h
    · exact hsame h
    · exact hsame h
    · obtain ⟨placed, -, h⟩ := bind_eq_ok.mp h
      split_ifs at h
      · exact hsame h
      · intro row hrow
        rcases relocate_placements h row hrow with hold | ⟨hdest, hnew⟩
        · exact Or.inl hold
        · exact Or.inr ⟨container, movementMuid, placed.expiry, hcontainer, hdest, hnew⟩
  · exact hsame h

/-- **One turn of the loop** puts the rows of its change. -/
theorem applyChange_placements {change : ChangeBuilder} {seen seen' : List Muid}
    (h : applyChange lib committed retaining info offset seen c change = (seen', .ok c')) :
    ∀ row ∈ c'.placements.rows, row ∈ c.placements.rows ∨
      Op.Places ⟨info, offset, change⟩ row.1 := by
  have h2 := congrArg Prod.snd h
  cases change with
  | unset => simp [applyChange] at h2
  | container builder =>
      obtain ⟨muid, -, rfl⟩ := map_eq_ok.mp h2
      exact fun row hrow => Or.inl hrow
  | entry builder =>
      cases hm : builder.containerField.literal with
      | error e => simp [applyChange, hm] at h2
      | ok muid =>
          obtain ⟨containers, hnote⟩ := noteContainer_eq committed builder muid seen c
          simp only [applyChange, hm, hnote] at h2
          intro row hrow
          exact addEntry_placements h2 row hrow
  | movement builder => exact applyMovement_placements h2
  | clearance builder => exact fun row hrow => Or.inl (applyClearance_fewer h2 row hrow)

end

/-! ## §3. Runs. -/

/-- **Every placement was put by a change that was taken in**, in every state of every run. -/
theorem runTurns_placements {lib : Externals} {s : Store} (turns : List Turn)
    (happly : s.applyChanges = true) (hempty : s.db.contents.placements = ∅) :
    ∀ row ∈ (runTurns lib s turns).db.contents.placements.rows,
      ∃ op ∈ opsTaken lib s turns, op.Places row.1 := by
  have hstep : ∀ (committed : Contents) (retaining : Bool) (info : BundleInfo) (ops : List Op)
      (offset : Nat) (change : ChangeBuilder) (seen seen' : List Muid) (c c' : Contents), True →
      (∀ row ∈ c.placements.rows, ∃ op ∈ ops, op.Places row.1) →
      applyChange lib committed retaining info offset seen c change = (seen', .ok c') →
      ∀ row ∈ c'.placements.rows, ∃ op ∈ ops ++ [⟨info, offset, change⟩], op.Places row.1 := by
    intro committed retaining info ops offset change seen seen' c c' _ hc happlied row hrow
    rcases applyChange_placements happlied row hrow with hold | hnew
    · obtain ⟨op, hop, hplaces⟩ := hc row hold
      exact ⟨op, List.mem_append_left _ hop, hplaces⟩
    · exact ⟨_, List.mem_append_right _ (List.mem_singleton_self _), hnew⟩
  have hdrop : ∀ (ops : List Op) asOf rows (c c' : Contents),
      (∀ row ∈ c.placements.rows, ∃ op ∈ ops, op.Places row.1) →
      dropRemovals asOf rows c = .ok c' →
      ∀ row ∈ c'.placements.rows, ∃ op ∈ ops, op.Places row.1 :=
    fun ops asOf rows c c' hc hloop row hrow => hc row (dropRemovals_fewer asOf rows c c' hloop row hrow)
  have hstart : ∀ row ∈ s.db.contents.placements.rows, ∃ op ∈ ([] : List Op), op.Places row.1 := by
    rw [hempty]
    exact fun row hrow => absurd hrow List.not_mem_nil
  exact runTurns_along (R := fun _ => True)
    (P := fun ops c => ∀ row ∈ c.placements.rows, ∃ op ∈ ops, op.Places row.1) hstep trivial
    (fun _ => hdrop) (fun _ _ => Or.inr trivial) happly trivial hstart

end Lmdb

end Gink
