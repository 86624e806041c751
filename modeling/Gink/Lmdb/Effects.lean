/-
  Gink.Lmdb.Effects — what each change writes when history is retained.

  One lemma for each method of the change loop says which rows a successful call
  puts; everything proved about runs is derived from these.  Nothing is ever erased
  while history is retained.
-/
import Gink.Lmdb.Changes

namespace Gink

namespace Lmdb

variable {lib : Externals} {committed c c' : Contents} {info : BundleInfo} {offset : Nat}

/-! ## §1. Entries. -/

/-- The removal a replacing entry records: none, or one for the entry that was found. -/
def Replaced (committed : Contents) (placement : Placement)
    (removals removals' : Table Bytes (Option MovementBuilder)) : Prop :=
  removals' = removals ∨ ∃ found,
    getEntryByKey committed placement.container placement.middle (-1) = .ok (some found) ∧
    removals' = removals.put
      (RemovalKey.mk placement.container found.address placement.placer).toBytes none

theorem recordRemoval_ok {key : RemovalKey} {time : Int} {value : Option MovementBuilder}
    (h : recordRemoval key time value c = .ok c') :
    ∃ removalsByTime, c' = { c with removals := c.removals.put key.toBytes value, removalsByTime } := by
  unfold recordRemoval at h
  obtain ⟨t, -, h⟩ := bind_eq_ok.mp h
  exact ⟨_, (pure_eq_ok.mp h).symm⟩

theorem replaceFound_ok {builder : EntryBuilder} {placement : Placement}
    (h : replaceFound committed true info builder placement c = .ok c') :
    ∃ removals removalsByTime, c' = { c with removals, removalsByTime } ∧
      Replaced committed placement c.removals removals ∧
      (newEntriesReplace builder.behavior = false → removals = c.removals) := by
  unfold replaceFound at h
  by_cases hr : newEntriesReplace builder.behavior = true
  · rw [if_pos hr] at h
    obtain ⟨found, hfound, h⟩ := bind_eq_ok.mp h
    cases found with
    | none => exact ⟨c.removals, c.removalsByTime, (pure_eq_ok.mp h).symm, Or.inl rfl, fun _ => rfl⟩
    | some found =>
        simp only at h
        obtain ⟨byTime, rfl⟩ := recordRemoval_ok h
        exact ⟨_, byTime, rfl, Or.inr ⟨found, hfound, rfl⟩, fun hne => by rw [hr] at hne; simp at hne⟩
  · rw [if_neg hr] at h
    injection h with h
    exact ⟨c.removals, c.removalsByTime, h.symm, Or.inl rfl, fun _ => rfl⟩

theorem addToTotal_ok {container : Muid} {builder : EntryBuilder}
    (h : addToTotal container builder c = .ok c') : ∃ totals, c' = { c with totals } := by
  unfold addToTotal at h
  split_ifs at h with hb
  · obtain ⟨amount, -, h⟩ := bind_eq_ok.mp h
    exact ⟨_, (pure_eq_ok.mp h).symm⟩
  · injection h with h
    exact ⟨c.totals, h.symm⟩

theorem putRow_ok {V : Type} {t t' : Table Bytes V} {k : Bytes} {v : V}
    (h : putRow t k v = .ok t') : t' = t.put k v := by
  unfold putRow at h
  split_ifs at h
  injection h with h
  exact h.symm

theorem storeEntry_ok {builder : EntryBuilder} {placement : Placement} {bytes : Bytes}
    (h : storeEntry lib info builder placement bytes c = .ok c') :
    ∃ indexes, c.indexes.add lib info builder placement.container placement.placer = .ok indexes ∧
      c' = { c with
        entries := c.entries.put placement.placer.toBytes builder
        placements := c.placements.put bytes placement.placer.toBytes
        locations := c.locations.put (locationKey placement.placer placement.placer) bytes
        indexes } := by
  unfold storeEntry at h
  obtain ⟨placements, hp, h⟩ := bind_eq_ok.mp h
  obtain ⟨indexes, hi, h⟩ := bind_eq_ok.mp h
  refine ⟨indexes, hi, ?_⟩
  rw [← pure_eq_ok.mp h, putRow_ok hp]

/-- **An added entry** puts its row into the entries, the placements and the
locations, and at most one removal. -/
theorem addEntry_ok {builder : EntryBuilder}
    (h : addEntry lib committed true info offset builder c = .ok c') :
    ∃ placement bytes removals removalsByTime totals indexes,
      ensureEntryIsValid builder info offset = .ok () ∧
      Placement.fromBuilder builder info offset = .ok placement ∧
      placement.toBytes = .ok bytes ∧
      Replaced committed placement c.removals removals ∧
      (newEntriesReplace builder.behavior = false → removals = c.removals) ∧
      c.indexes.add lib info builder placement.container placement.placer = .ok indexes ∧
      c' = { c with
        entries := c.entries.put placement.placer.toBytes builder
        placements := c.placements.put bytes placement.placer.toBytes
        locations := c.locations.put (locationKey placement.placer placement.placer) bytes
        removals, removalsByTime, totals, indexes } := by
  unfold addEntry at h
  obtain ⟨u, hvalid, h1⟩ := bind_eq_ok.mp h
  obtain ⟨placement, hp, h2⟩ := bind_eq_ok.mp h1
  obtain ⟨c1, ht, h3⟩ := bind_eq_ok.mp h2
  obtain ⟨totals, rfl⟩ := addToTotal_ok ht
  simp only [Bool.true_eq_false, and_false, if_false] at h3
  obtain ⟨bytes, hb, h4⟩ := bind_eq_ok.mp h3
  obtain ⟨c2, hr, h5⟩ := bind_eq_ok.mp h4
  obtain ⟨removals, byTime, rfl, hreplaced, hkeep⟩ := replaceFound_ok hr
  obtain ⟨indexes, hi, rfl⟩ := storeEntry_ok h5
  exact ⟨placement, bytes, removals, byTime, totals, indexes, hvalid, hp, hb, hreplaced, hkeep, hi,
    rfl⟩

/-! ## §2. Movements and clearances. -/

/-- The facts under which a movement is carried out: `row` is the entry's last row in
the locations table and `placed` the placement it holds. -/
structure Movable (c : Contents) (info : BundleInfo) (offset : Nat) (builder : MovementBuilder)
    (container entryMuid movementMuid : Muid) (entry : EntryBuilder) (row : Bytes × Bytes)
    (placer : Muid) (placed : Placement) : Prop where
  container_eq : resolve info.context builder.container = .ok container
  entry_eq : resolve info.context builder.entry = .ok entryMuid
  movement_eq : changeMuid info offset = .ok movementMuid
  stored : c.entries.get? entryMuid.toBytes = some entry
  located : toLast c.locations entryMuid.toBytes = some row
  placer_eq : Muid.fromBytes (slice row.1 16 32) = .ok placer
  inOrder : placer.timestamp ≤ movementMuid.timestamp
  present : row.2 ≠ []
  parsed : Placement.fromBytes row.2 entry.behavior = .ok placed
  unexpired : ∀ expiry, placed.expiry = some expiry → movementMuid.timestamp ≤ expiry

/-- What a carried out movement writes with history retained. -/
def Moved (builder : MovementBuilder) (container entryMuid movementMuid : Muid) (placed : Placement)
    (c c' : Contents) : Prop :=
  ∃ removalsByTime,
    (builder.dest = 0 ∧ c' = { c with
      removals := c.removals.put (RemovalKey.mk container placed.placer movementMuid).toBytes
        (some builder)
      locations := c.locations.put (locationKey entryMuid movementMuid) []
      removalsByTime }) ∨
    (builder.dest ≠ 0 ∧ ∃ bytes,
      (Placement.mk container (.queue builder.dest) movementMuid placed.expiry).toBytes = .ok bytes ∧
      c' = { c with
        removals := c.removals.put (RemovalKey.mk container placed.placer movementMuid).toBytes
          (some builder)
        placements := c.placements.put bytes entryMuid.toBytes
        locations := c.locations.put (locationKey entryMuid movementMuid) bytes
        removalsByTime })

theorem relocate_ok {builder : MovementBuilder} {container entryMuid movementMuid : Muid}
    {row : Bytes × Bytes} {placed : Placement}
    (h : relocate true builder container entryMuid movementMuid row placed c = .ok c') :
    Moved builder container entryMuid movementMuid placed c c' := by
  unfold relocate at h
  rw [if_pos rfl] at h
  obtain ⟨c1, hr, h⟩ := bind_eq_ok.mp h
  obtain ⟨byTime, rfl⟩ := recordRemoval_ok hr
  unfold placeMoved at h
  by_cases hd : builder.dest = 0
  · rw [if_neg (not_not.mpr hd), if_pos rfl] at h
    injection h with h
    exact ⟨byTime, Or.inl ⟨hd, h.symm⟩⟩
  · rw [if_pos hd] at h
    obtain ⟨bytes, hb, h⟩ := bind_eq_ok.mp h
    exact ⟨byTime, Or.inr ⟨hd, bytes, hb, (pure_eq_ok.mp h).symm⟩⟩

/-- **A movement** is ignored or carried out. -/
theorem applyMovement_ok {builder : MovementBuilder}
    (h : applyMovement true info offset builder c = .ok c') :
    c' = c ∨ ∃ container entryMuid movementMuid entry row placer placed,
      Movable c info offset builder container entryMuid movementMuid entry row placer placed ∧
      Moved builder container entryMuid movementMuid placed c c' := by
  unfold applyMovement at h
  obtain ⟨container, hc, h1⟩ := bind_eq_ok.mp h
  obtain ⟨entryMuid, he, h2⟩ := bind_eq_ok.mp h1
  obtain ⟨movementMuid, hm, h3⟩ := bind_eq_ok.mp h2
  cases hstored : c.entries.get? entryMuid.toBytes with
  | none =>
      rw [hstored] at h3
      exact Or.inl (pure_eq_ok.mp h3).symm
  | some entry =>
      cases hrow : toLast c.locations entryMuid.toBytes with
      | none =>
          rw [hstored, hrow] at h3
          exact Or.inl (pure_eq_ok.mp h3).symm
      | some row =>
          rw [hstored, hrow] at h3
          obtain ⟨placer, hplacer, h4⟩ := bind_eq_ok.mp h3
          split_ifs at h4 with hlate hgone
          · exact Or.inl (pure_eq_ok.mp h4).symm
          · exact Or.inl (pure_eq_ok.mp h4).symm
          · obtain ⟨placed, hplaced, h5⟩ := bind_eq_ok.mp h4
            split_ifs at h5 with hexpired
            · exact Or.inl (pure_eq_ok.mp h5).symm
            · refine Or.inr ⟨container, entryMuid, movementMuid, entry, row, placer, placed,
                ⟨hc, he, hm, hstored, hrow, hplacer, not_lt.mp hlate, hgone, hplaced, ?_⟩,
                relocate_ok h5⟩
              intro expiry hexpiry
              rw [hexpiry] at hexpired
              simpa using hexpired

/-- **A clearance** puts one row. -/
theorem applyClearance_ok {builder : ClearanceBuilder}
    (h : applyClearance true info offset builder c = .ok c') :
    ∃ container clearanceMuid, resolve info.context builder.container = .ok container ∧
      changeMuid info offset = .ok clearanceMuid ∧
      c' = { c with
        clearances := c.clearances.put (container.toBytes ++ clearanceMuid.toBytes) builder } := by
  unfold applyClearance at h
  obtain ⟨container, hc, h⟩ := bind_eq_ok.mp h
  obtain ⟨clearanceMuid, hm, h⟩ := bind_eq_ok.mp h
  obtain ⟨c1, h1, h⟩ := bind_eq_ok.mp h
  unfold purgeCleared at h1
  simp only [if_true, Except.ok.injEq] at h1
  subst h1
  exact ⟨container, clearanceMuid, hc, hm, (pure_eq_ok.mp h).symm⟩

/-! ## §3. One turn of the loop. -/

/-- Noting a container touches the containers only. -/
theorem noteContainer_eq (committed : Contents) (entry : EntryBuilder) (muid : Muid)
    (seen : List Muid) (c : Contents) :
    ∃ containers, (noteContainer committed entry muid seen c).2 = { c with containers } := by
  unfold noteContainer
  split_ifs
  · exact ⟨c.containers, rfl⟩
  · exact ⟨c.containers, rfl⟩
  · exact ⟨_, rfl⟩

/-- What the four kinds of change do: `c₁` is `c` with a container noted. -/
inductive Effect (lib : Externals) (committed : Contents) (info : BundleInfo) (offset : Nat) :
    ChangeBuilder → Contents → Contents → Prop
  | container (builder : ContainerBuilder) (c : Contents) (containers) :
      Effect lib committed info offset (.container builder) c { c with containers }
  | entry (builder : EntryBuilder) (c c' : Contents) (containers)
      (added : addEntry lib committed true info offset builder { c with containers } = .ok c') :
      Effect lib committed info offset (.entry builder) c c'
  | movement (builder : MovementBuilder) (c c' : Contents)
      (applied : applyMovement true info offset builder c = .ok c') :
      Effect lib committed info offset (.movement builder) c c'
  | clearance (builder : ClearanceBuilder) (c c' : Contents)
      (applied : applyClearance true info offset builder c = .ok c') :
      Effect lib committed info offset (.clearance builder) c c'

/-- **One turn of the loop**, when it does not raise. -/
theorem applyChange_effect {change : ChangeBuilder} {seen seen' : List Muid}
    (h : applyChange lib committed true info offset seen c change = (seen', .ok c')) :
    Effect lib committed info offset change c c' := by
  have h2 := congrArg Prod.snd h
  cases change with
  | unset => simp [applyChange] at h2
  | container builder =>
      obtain ⟨muid, -, rfl⟩ := map_eq_ok.mp h2
      exact .container builder c _
  | entry builder =>
      cases hm : builder.containerField.literal with
      | error e => simp [applyChange, hm] at h2
      | ok muid =>
          obtain ⟨containers, hnote⟩ := noteContainer_eq committed builder muid seen c
          simp only [applyChange, hm, hnote] at h2
          exact .entry builder c c' containers h2
  | movement builder => exact .movement builder c c' h2
  | clearance builder => exact .clearance builder c c' h2

end Lmdb

end Gink
