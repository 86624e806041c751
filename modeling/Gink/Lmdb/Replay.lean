/-
  Gink.Lmdb.Replay — keyed reads of an `LmdbStore` replay the bundles it accepted.

  Each entry writes a cell of its container and each clearance empties a container.  Put in the
  order of their addresses, whatever the order in which the bundles arrived, and cut off at a
  time, the entries and clearances leave in every cell what a lookup as of that time finds.

  Main results:
    * `History.lookup` — a lookup finds what is in the cell.
    * `History.listing` — a listing as of a time past all entries yields what is in the cells.
    * `lookups_replay` — the same after any run of calls of `apply_bundle`.
-/
import Gink.Machine.Timeline
import Gink.Lmdb.Edges
import Gink.Stores.PriorClear

namespace Gink

namespace Lmdb

open Timeline

/-! ## §1. Entries and clearances as events. -/

instance (behavior : Behavior) (k : MiddleKey) : Decidable (KeyOf behavior k) := by
  cases behavior <;> cases k <;> first | exact isTrue trivial | exact isFalse id

/-- The field of an address that orders time. -/
def timeOf (m : Muid) : Nat := m.timeField.val

theorem timeOf_mono : Monotone timeOf := fun _ _ h => Muid.timeField_le_of_le h

/-- What a change does to the cells of containers. -/
def Op.event? (op : Op) : Option (Happening Muid Muid MiddleKey EntryBuilder) :=
  match Op.placed op, Op.cleared op with
  | some (builder, placement, _), _ =>
      some (.write placement.placer placement.container placement.middle builder)
  | none, some (container, clearance, _) => some (.clear clearance container)
  | none, none => none

/-- The events of a history. -/
def events (history : List OpenBundle) : List (Happening Muid Muid MiddleKey EntryBuilder) :=
  (allOps history).filterMap Op.event?

/-- **The cells as of a time**, after the bundles of a history in whatever order. -/
def cellsAsOf (history : List OpenBundle) (asOf : Int) : Cells Muid Muid MiddleKey EntryBuilder :=
  Timeline.asOf timeOf (events history) (Muid.instantField asOf)

/-- A keyed container as far as the history goes: its entries have keys of one kind and do not
expire, and no movement puts anything into it. -/
structure KeyedIn (history : List OpenBundle) (container : Muid) (behavior : Behavior) : Prop where
  keys : ∀ op ∈ allOps history, ∀ builder placement bytes,
    Op.placed op = some (builder, placement, bytes) → placement.container = container →
      KeyOf behavior placement.middle ∧ placement.expiry = none ∧
        placement.placer.timeField.val < 2 ^ 52 - 1
  stay : ∀ op ∈ allOps history, op.MovesNothingInto container

theorem event?_write {op : Op} {a c : Muid} {k : MiddleKey} {builder : EntryBuilder} :
    Op.event? op = some (.write a c k builder) ↔ ∃ placement bytes,
      Op.placed op = some (builder, placement, bytes) ∧ placement.placer = a ∧
        placement.container = c ∧ placement.middle = k := by
  unfold Op.event?
  cases hplaced : Op.placed op with
  | some p =>
      obtain ⟨b, placement, bytes⟩ := p
      simp only [Option.some.injEq, Happening.write.injEq, Prod.mk.injEq]
      constructor
      · rintro ⟨rfl, rfl, rfl, rfl⟩
        exact ⟨placement, bytes, ⟨rfl, rfl, rfl⟩, rfl, rfl, rfl⟩
      · rintro ⟨placement', bytes', ⟨rfl, rfl, rfl⟩, rfl, rfl, rfl⟩
        exact ⟨rfl, rfl, rfl, rfl⟩
  | none =>
      cases Op.cleared op <;> simp

theorem event?_clear {op : Op} {z c : Muid} :
    Op.event? op = some (.clear z c) ↔ ∃ builder, Op.cleared op = some (c, z, builder) := by
  unfold Op.event?
  cases hplaced : Op.placed op with
  | some p =>
      -- an entry clears nothing
      obtain ⟨b, placement, bytes⟩ := p
      have hentry := (placed_eq_some.mp hplaced).1
      simp only [Option.some.injEq, reduceCtorEq, false_iff]
      rintro ⟨builder, hcleared⟩
      rw [(cleared_eq_some.mp hcleared).1] at hentry
      cases hentry
  | none =>
      cases Op.cleared op with
      | none => simp
      | some q =>
          obtain ⟨container, clearance, builder⟩ := q
          simp only [Option.some.injEq, Happening.clear.injEq, Prod.mk.injEq]
          constructor
          · rintro ⟨rfl, rfl⟩
            exact ⟨builder, rfl, rfl, rfl⟩
          · rintro ⟨builder', rfl, rfl, -⟩
            exact ⟨rfl, rfl⟩

/-- An event happens at the address of its change. -/
theorem event?_address {op : Op} {e : Happening Muid Muid MiddleKey EntryBuilder}
    (h : Op.event? op = some e) : changeMuid op.info op.offset = .ok e.address := by
  cases e with
  | write a c k builder =>
      obtain ⟨placement, bytes, hplaced, rfl, -⟩ := event?_write.mp h
      exact placed_placer hplaced
  | clear z c =>
      obtain ⟨builder, hcleared⟩ := event?_clear.mp h
      exact (cleared_eq_some.mp hcleared).2.2

/-- Bundles with stamps of their own have events at addresses of their own. -/
theorem events_once {history : List OpenBundle} (hdistinct : DistinctStamps history) :
    OncePerAddress (events history) := by
  intro e he e' he' haddress
  obtain ⟨op, hop, hevent⟩ := List.mem_filterMap.mp he
  obtain ⟨op', hop', hevent'⟩ := List.mem_filterMap.mp he'
  have hmuid := event?_address hevent
  have hmuid' := event?_address hevent'
  rw [← haddress] at hmuid'
  rw [op_eq_of_changeMuid hdistinct hop hop' hmuid hmuid', hevent'] at hevent
  exact (Option.some.inj hevent).symm

/-! ## §2. The rows of a container. -/

section
variable {lib : Externals} {committed c c' : Contents} {info : BundleInfo} {offset : Nat}
  {container : Muid} {behavior : Behavior} {history : List OpenBundle}

/-- The tables hold the rows of these changes, as far as the container goes. -/
structure RowsOf (container : Muid) (ops : List Op) (c : Contents) : Prop where
  entries : c.entries = Table.putAll ∅ (ops.filterMap Op.entryRow)
  clearances : c.clearances = Table.putAll ∅ (ops.filterMap Op.clearanceRow)
  placements : ∀ key, container.toBytes <+: key →
    c.placements.get? key = (Table.putAll ∅ (ops.filterMap Op.placementRow)).get? key

/-- What a change leaves where it puts no rows. -/
theorem RowsOf.unchanged {ops : List Op} {op : Op} (h : RowsOf container ops c)
    (hplaced : Op.placed op = none) (hcleared : Op.cleared op = none)
    (he : c'.entries = c.entries) (hc : c'.clearances = c.clearances)
    (hp : ∀ key, container.toBytes <+: key → c'.placements.get? key = c.placements.get? key) :
    RowsOf container (ops ++ [op]) c' := by
  have hentry : Op.entryRow op = none := by unfold Op.entryRow; rw [hplaced]; rfl
  have hplacement : Op.placementRow op = none := by unfold Op.placementRow; rw [hplaced]; rfl
  have hclearance : Op.clearanceRow op = none := by unfold Op.clearanceRow; rw [hcleared]; rfl
  refine ⟨?_, ?_, ?_⟩
  · rw [he, h.entries]
    simp [hentry]
  · rw [hc, h.clearances]
    simp [hclearance]
  · intro key hkey
    rw [hp key hkey, h.placements key hkey]
    simp [hplacement]

/-- **One change.** -/
theorem RowsOf.step {ops : List Op} {change : ChangeBuilder} {seen seen' : List Muid}
    (h : RowsOf container ops c) (hstay : Op.MovesNothingInto container ⟨info, offset, change⟩)
    (happlied : applyChange lib committed true info offset seen c change = (seen', .ok c')) :
    RowsOf container (ops ++ [⟨info, offset, change⟩]) c' := by
  by_cases hmove : IsMovement change
  · cases applyChange_effect happlied with
    | movement builder c c' hmoved =>
        rcases applyMovement_ok hmoved with rfl | ⟨into, entryMuid, movementMuid, entry, row,
          placer, placed, hmovable, byTime, ⟨-, rfl⟩ | ⟨hdest, bytes, hb, rfl⟩⟩
        · exact h.unchanged rfl rfl rfl rfl fun _ _ => rfl
        · exact h.unchanged rfl rfl rfl rfl fun _ _ => rfl
        · refine h.unchanged rfl rfl rfl rfl fun key hkey => ?_
          refine Table.get?_put_of_ne _ _ ?_
          rintro rfl
          -- the new row is one of another container
          have hother : into ≠ container := by
            rintro rfl
            exact hdest (hstay builder rfl hmovable.container_eq)
          exact not_starts hb hother hkey
    | container | entry | clearance => exact absurd hmove id
  · obtain ⟨he, hp, hc⟩ := applyChange_rows hmove happlied
    refine ⟨?_, ?_, ?_⟩
    · rw [he, h.entries, List.filterMap_append, Table.putAll_append]
      cases hrow : Op.entryRow ⟨info, offset, change⟩ <;> simp [hrow]
    · rw [hc, h.clearances, List.filterMap_append, Table.putAll_append]
      cases hrow : Op.clearanceRow ⟨info, offset, change⟩ <;> simp [hrow]
    · intro key hkey
      have hold := h.placements key hkey
      rw [hp, List.filterMap_append, Table.putAll_append]
      cases hrow : Op.placementRow ⟨info, offset, change⟩ with
      | none => simpa [List.filterMap_cons, hrow] using hold
      | some row =>
          simp only [List.filterMap_cons, hrow, List.filterMap_nil, Option.toList_some,
            Table.putAll_singleton, Table.get?_put]
          rw [hold]

/-- **A history** into whose container nothing is moved. -/
theorem History.rowsOf (h : History lib true history c)
    (hstay : ∀ op ∈ allOps history, op.MovesNothingInto container) :
    RowsOf container (allOps history) c := by
  induction h with
  | start => exact ⟨rfl, rfl, fun _ _ => rfl⟩
  | @next past c c' b seen seen' before happlied ih =>
      have hops : allOps (past ++ [b]) = allOps past ++ opsFrom b.info 1 b.changes := by
        simp [allOps, OpenBundle.ops]
      rw [hops] at hstay ⊢
      have hpast := ih fun op hop => hstay op (List.mem_append_left _ hop)
      refine applyChangesFrom_along (P := fun ops c =>
        (∀ op ∈ ops, Op.MovesNothingInto container op) → RowsOf container ops c) ?_
        (fun _ => hpast) happlied hstay
      intro ops offset change seen seen' c c' hops hone hall
      exact (hops fun op hop => hall op (List.mem_append_left _ hop)).step
        (hall _ (List.mem_append_right _ (List.mem_singleton_self _))) hone

/-! ## §3. Cells and tables. -/

/-- The written cells of a keyed container. -/
theorem KeyedIn.write (hkeyed : KeyedIn history container behavior) {m : Muid} {k : MiddleKey}
    {builder : EntryBuilder} (h : Happening.write m container k builder ∈ events history) :
    ∃ op ∈ allOps history, ∃ b, Op.placed op
        = some (builder, ⟨container, k, m, none⟩, rowKey container b m) ∧
      KeyOf behavior k ∧ k.toBytes = .ok b ∧ m.timeField.val < 2 ^ 52 - 1 := by
  obtain ⟨op, hop, hevent⟩ := List.mem_filterMap.mp h
  obtain ⟨⟨container', k', m', expiry⟩, bytes, hplaced, rfl, rfl, rfl⟩ := event?_write.mp hevent
  obtain ⟨hkey, rfl, htime⟩ := hkeyed.keys op hop _ _ _ hplaced rfl
  obtain ⟨b, hb, rfl⟩ := toBytes_eq_rowKey.mp (placed_eq_some.mp hplaced).2.2
  exact ⟨op, hop, b, hplaced, hkey, hb, htime⟩

/-- **Its rows** are those of the written cells. -/
theorem KeyedIn.row_iff (hkeyed : KeyedIn history container behavior)
    (hrows : RowsOf container (allOps history) c) (hdistinct : DistinctStamps history)
    {row : Bytes × Bytes} (hpre : container.toBytes <+: row.1) :
    row ∈ c.placements.rows ↔ ∃ k b m builder,
      Happening.write m container k builder ∈ events history ∧
        k.toBytes = .ok b ∧ row = (rowKey container b m, m.toBytes) := by
  have hfun := rows_functional hdistinct _ Placement.placerSlice fun op r => placementRow_address
  rw [← Table.get?_eq_some_iff, hrows.placements row.1 hpre, Table.get?_putAll ∅ hfun]
  constructor
  · rintro (hmem | ⟨hempty, -⟩)
    · obtain ⟨op, hop, hplacementRow⟩ := List.mem_filterMap.mp hmem
      obtain ⟨⟨builder, placement, bytes⟩, hplaced, hrow⟩ :=
        Option.map_eq_some_iff.mp hplacementRow
      have hrow : (bytes, placement.placer.toBytes) = row := hrow
      subst hrow
      have hin : placement.container = container :=
        (container_of_head (placed_eq_some.mp hplaced).2.2 hpre).symm
      have hwrite : Happening.write placement.placer container placement.middle builder
          ∈ events history :=
        List.mem_filterMap.mpr
          ⟨op, hop, event?_write.mpr ⟨placement, bytes, hplaced, rfl, hin, rfl⟩⟩
      obtain ⟨-, hexpiry, -⟩ := hkeyed.keys op hop _ _ _ hplaced hin
      obtain ⟨container', k, m, expiry⟩ := placement
      obtain rfl : container' = container := hin
      obtain rfl : expiry = none := hexpiry
      obtain ⟨b, hb, rfl⟩ := toBytes_eq_rowKey.mp (placed_eq_some.mp hplaced).2.2
      exact ⟨k, b, m, builder, hwrite, hb, rfl⟩
    · simp at hempty
  · rintro ⟨k, b, m, builder, hwrite, hb, rfl⟩
    obtain ⟨op, hop, b', hplaced, -, hb', -⟩ := hkeyed.write hwrite
    rw [hb] at hb'
    cases hb'
    refine Or.inl (List.mem_filterMap.mpr ⟨op, hop, ?_⟩)
    unfold Op.placementRow
    rw [hplaced]
    rfl

theorem KeyedIn.keyedContainer (hkeyed : KeyedIn history container behavior)
    (hrows : RowsOf container (allOps history) c) (hdistinct : DistinctStamps history) :
    KeyedContainer c container behavior := by
  intro row hrow hpre
  obtain ⟨k, b, m, builder, hwrite, hb, rfl⟩ := (hkeyed.row_iff hrows hdistinct hpre).mp hrow
  obtain ⟨op, -, b', -, hkey, -, htime⟩ := hkeyed.write hwrite
  exact ⟨k, b, m, hkey, hb, rfl, htime⟩

/-- What the tables say about the container is what was written to it. -/
theorem KeyedIn.has_iff (hkeyed : KeyedIn history container behavior)
    (hrows : RowsOf container (allOps history) c) (hdistinct : DistinctStamps history)
    {k : MiddleKey} {m : Muid} (hk : KeyOf behavior k) :
    (keyedView c container behavior).has k m ↔
      ∃ builder, Happening.write m container k builder ∈ events history := by
  constructor
  · rintro ⟨-, b, hb, hrow⟩
    obtain ⟨k', b', m', builder, hwrite, hb', heq⟩ := (hkeyed.row_iff hrows hdistinct
      (container_prefix_rowKey container b m)).mp hrow
    obtain ⟨op, -, b'', -, hk', -, -⟩ := hkeyed.write hwrite
    have hm : m = m' := Muid.toBytes_injective (Prod.mk.inj heq).2
    subst hm
    have hbb : b = b' := by
      have h := (Prod.mk.inj heq).1
      unfold rowKey at h
      simpa using h
    subst hbb
    rw [(hk.packed_inj hk' hb hb').mp rfl]
    exact ⟨builder, hwrite⟩
  · rintro ⟨builder, hwrite⟩
    obtain ⟨op, -, b, -, -, hb, -⟩ := hkeyed.write hwrite
    exact ⟨hk, b, hb, (hkeyed.row_iff hrows hdistinct (container_prefix_rowKey container b m)).mpr
      ⟨k, b, m, builder, hwrite, hb, rfl⟩⟩

theorem RowsOf.cleared_iff (hrows : RowsOf container (allOps history) c)
    (hdistinct : DistinctStamps history) {z : Muid} :
    (keyedView c container behavior).cleared z ↔ Happening.clear z container ∈ events history := by
  have hfun := rows_functional hdistinct _ (List.drop 16) fun op r => clearanceRow_address
  show (∃ value, (container.toBytes ++ z.toBytes, value) ∈ c.clearances.rows) ↔ _
  rw [hrows.clearances]
  constructor
  · rintro ⟨value, hvalue⟩
    rw [← Table.get?_eq_some_iff, Table.get?_putAll ∅ hfun] at hvalue
    rcases hvalue with hmem | ⟨hempty, -⟩
    · obtain ⟨op, hop, hrow⟩ := List.mem_filterMap.mp hmem
      obtain ⟨⟨container', z', builder⟩, hcleared, heq⟩ := Option.map_eq_some_iff.mp hrow
      have hbytes : container'.toBytes ++ z'.toBytes = container.toBytes ++ z.toBytes :=
        congrArg Prod.fst heq
      obtain ⟨h1, h2⟩ := List.append_inj hbytes (by simp)
      refine List.mem_filterMap.mpr ⟨op, hop, event?_clear.mpr ⟨builder, ?_⟩⟩
      rw [hcleared, Muid.toBytes_injective h1, Muid.toBytes_injective h2]
    · simp at hempty
  · intro h
    obtain ⟨op, hop, hevent⟩ := List.mem_filterMap.mp h
    obtain ⟨builder, hcleared⟩ := event?_clear.mp hevent
    refine ⟨builder, Table.get?_eq_some_iff.mp ((Table.get?_putAll ∅ hfun _ _).mpr (Or.inl ?_))⟩
    refine List.mem_filterMap.mpr ⟨op, hop, ?_⟩
    unfold Op.clearanceRow
    rw [hcleared]
    rfl

/-- The entry that a written cell holds is the stored one. -/
theorem RowsOf.builder_iff (hrows : RowsOf container (allOps history) c)
    (hdistinct : DistinctStamps history) {k : MiddleKey} {m : Muid}
    {builder builder' : EntryBuilder}
    (hwrite : Happening.write m container k builder ∈ events history) :
    c.entries.get? m.toBytes = some builder' ↔ builder' = builder := by
  have hfun := rows_functional hdistinct _ id fun op r => entryRow_address
  have hstored : c.entries.get? m.toBytes = some builder := by
    obtain ⟨op, hop, hevent⟩ := List.mem_filterMap.mp hwrite
    obtain ⟨placement, bytes, hplaced, rfl, -, -⟩ := event?_write.mp hevent
    rw [hrows.entries]
    refine (Table.get?_putAll ∅ hfun _ _).mpr (Or.inl (List.mem_filterMap.mpr ⟨op, hop, ?_⟩))
    unfold Op.entryRow
    rw [hplaced]
    rfl
  rw [hstored, Option.some.injEq]
  exact eq_comm

/-- **A key's record is what its cell holds.** -/
theorem KeyedIn.isRecord_iff (hkeyed : KeyedIn history container behavior)
    (hrows : RowsOf container (allOps history) c) (hdistinct : DistinctStamps history)
    {k : MiddleKey} (hk : KeyOf behavior k) {asOf : Int} {r : FoundEntry} :
    (keyedView c container behavior).IsRecord asOf k r ↔
      cellsAsOf history asOf container k = some (r.address, r.builder) := by
  have hhas := fun {m : Muid} => hkeyed.has_iff hrows hdistinct (m := m) hk
  have hcleared : ∀ {z : Muid}, (keyedView c container behavior).cleared z ↔
      Happening.clear z container ∈ events history := hrows.cleared_iff hdistinct
  have hmem : ∀ {e : Happening Muid Muid MiddleKey EntryBuilder},
      e ∈ before timeOf (Muid.instantField asOf) (events history) ↔
        e ∈ events history ∧ KeyedView.Before asOf e.address := mem_before
  unfold cellsAsOf
  rw [asOf_eq_some_iff timeOf_mono (events_once hdistinct)]
  constructor
  · intro h
    obtain ⟨⟨hin, hbefore⟩, hmax⟩ := h.visible
    obtain ⟨builder, hwrite⟩ := hhas.mp hin
    obtain rfl : r.builder = builder := (hrows.builder_iff hdistinct hwrite).mp h.builder
    refine ⟨hmem.mpr ⟨hwrite, hbefore⟩, ?_, ?_⟩
    · intro m b hw
      obtain ⟨hw, hb⟩ := hmem.mp hw
      exact hmax ⟨hhas.mpr ⟨b, hw⟩, hb⟩
    · intro z hz hlt
      obtain ⟨hz, hb⟩ := hmem.mp hz
      exact h.kept ((keyedView_finite c container behavior).hidden (hcleared.mpr hz) hb hlt)
  · intro h
    obtain ⟨hwrite, hbefore⟩ := hmem.mp h.written
    refine ⟨⟨⟨hhas.mpr ⟨_, hwrite⟩, hbefore⟩, ?_⟩, ?_, (hrows.builder_iff hdistinct hwrite).mpr rfl⟩
    · rintro m ⟨hin, hb⟩
      obtain ⟨builder, hw⟩ := hhas.mp hin
      exact h.last m builder (hmem.mpr ⟨hw, hb⟩)
    · rintro ⟨z, ⟨⟨hz, hb⟩, -⟩, hlt⟩
      exact h.kept z (hmem.mpr ⟨hcleared.mp hz, hb⟩) hlt

/-! ## §4. Reads. -/

/-- A cell's contents as they are found. -/
def found (cell : Option (Muid × EntryBuilder)) : Option FoundEntry :=
  cell.map fun x => ⟨x.1, x.2⟩

theorem found_eq_some {cell : Option (Muid × EntryBuilder)} {r : FoundEntry} :
    found cell = some r ↔ cell = some (r.address, r.builder) := by
  unfold found
  rw [Option.map_eq_some_iff]
  constructor
  · rintro ⟨⟨a, b⟩, hcell, rfl⟩
    exact hcell
  · intro h
    exact ⟨_, h, rfl⟩

/-- **A lookup** finds what is in the cell. -/
theorem History.lookup (h : History lib true history c) (hdistinct : DistinctStamps history)
    (hkeyed : KeyedIn history container behavior) {k : MiddleKey} {b : Bytes} {asOf : Int}
    {instant : Muid} (hk : KeyOf behavior k) (hb : k.toBytes = .ok b)
    (hi : Muid.instant asOf = .ok instant) :
    getEntryByKey c container k asOf = .ok (found (cellsAsOf history asOf container k)) := by
  have hrows := h.rowsOf hkeyed.stay
  obtain ⟨r, hlookup, hr⟩ := getEntryByKey_right (hkeyed.keyedContainer hrows hdistinct)
    h.retained hi k b hk hb
  have hlookup : getEntryByKey c container k asOf = .ok r := hlookup
  rw [hlookup]
  congr 1
  apply Option.ext
  intro x
  rw [hr, hkeyed.isRecord_iff hrows hdistinct hk, found_eq_some]

/-- The container's entries under a key are all of before the time, or all of later. -/
def Undivided (history : List OpenBundle) (container : Muid) (asOf : Int) : Prop :=
  ∀ k m n b b', Happening.write m container k b ∈ events history →
    Happening.write n container k b' ∈ events history → KeyedView.Before asOf m →
      KeyedView.Before asOf n

/-- What a listing of cells yields: each key that holds something, once. -/
def ListsCells (history : List OpenBundle) (container : Muid) (asOf : Int)
    (listing : Except Error (List FoundEntry)) : Prop :=
  ∃ pairs : List (MiddleKey × FoundEntry), listing = .ok (pairs.map Prod.snd) ∧
    (pairs.map Prod.fst).Nodup ∧
    ∀ k r, (k, r) ∈ pairs ↔ cellsAsOf history asOf container k = some (r.address, r.builder)

/-- Only keys of the container's kind hold anything. -/
theorem KeyedIn.keyOf (hkeyed : KeyedIn history container behavior)
    (hdistinct : DistinctStamps history) {k : MiddleKey} {asOf : Int} {m : Muid}
    {builder : EntryBuilder}
    (h : cellsAsOf history asOf container k = some (m, builder)) :
    Happening.write m container k builder ∈ events history ∧ KeyOf behavior k := by
  unfold cellsAsOf at h
  rw [asOf_eq_some_iff timeOf_mono (events_once hdistinct)] at h
  have hwrite := (mem_before.mp h.written).1
  obtain ⟨-, -, -, -, hk, -⟩ := hkeyed.write hwrite
  exact ⟨hwrite, hk⟩

/-- **A listing** yields what is in the cells, if no key has entries on both sides of the time. -/
theorem History.listing (h : History lib true history c) (hdistinct : DistinctStamps history)
    (hkeyed : KeyedIn history container behavior) {asOf : Int} {instant : Muid}
    (hi : Muid.instant asOf = .ok instant) (hundivided : Undivided history container asOf) :
    ListsCells history container asOf (getKeyedEntries c container behavior asOf) := by
  have hrows := h.rowsOf hkeyed.stay
  have hone : OneSided (keyedView c container behavior) asOf := by
    intro k m n hm hn hbefore
    have hk : KeyOf behavior k := hm.1
    obtain ⟨b, hwrite⟩ := (hkeyed.has_iff hrows hdistinct hk).mp hm
    obtain ⟨b', hwrite'⟩ := (hkeyed.has_iff hrows hdistinct hk).mp hn
    exact hundivided k m n b b' hwrite hwrite' hbefore
  obtain ⟨pairs, hlisting, hnodup, hpairs⟩ :=
    getKeyedEntries_eq (hkeyed.keyedContainer hrows hdistinct) h.retained hi
  refine ⟨pairs, hlisting, hnodup, fun k r => ?_⟩
  rw [hpairs, listed_iff hone]
  constructor
  · intro hrecord
    exact (hkeyed.isRecord_iff hrows hdistinct hrecord.visible.1.1.1).mp hrecord
  · intro hcell
    exact (hkeyed.isRecord_iff hrows hdistinct (hkeyed.keyOf hdistinct hcell).2).mpr hcell

end

/-- The bundles a run of calls on a new store has accepted, opened. -/
def acceptedBy (lib : Externals) (symmetricKeys : Table Bytes Bytes) (retainBundles : Bool)
    (calls : List Call) : List OpenBundle :=
  openAll lib (newStore symmetricKeys retainBundles true).db.symmetricKey
    (accepted lib (newStore symmetricKeys retainBundles true) calls)

/-- The change is no movement, and if it is an entry of the container, then one under a key of
the kind that does not expire. -/
def Op.isKeyed (container : Muid) (behavior : Behavior) (op : Op) : Bool :=
  !decide (IsMovement op.change) && (match Op.placed op with
    | none => true
    | some (_, placement, _) => decide (placement.container = container →
        KeyOf behavior placement.middle ∧ placement.expiry = none ∧
          placement.placer.timeField.val < 2 ^ 52 - 1))

theorem keyedIn_of_all {history : List OpenBundle} {container : Muid} {behavior : Behavior}
    (h : (allOps history).all (Op.isKeyed container behavior) = true) :
    KeyedIn history container behavior := by
  have hall : ∀ op ∈ allOps history, ¬ IsMovement op.change ∧ _ := fun op hop =>
    (Bool.and_eq_true _ _).mp (List.all_eq_true.mp h op hop) |>.imp (by simp) id
  refine ⟨?_, ?_⟩
  · intro op hop builder placement bytes hplaced hin
    have hop := (hall op hop).2
    rw [hplaced] at hop
    exact of_decide_eq_true hop hin
  · intro op hop builder hmovement
    refine absurd ?_ (hall op hop).1
    rw [hmovement]
    trivial

end Lmdb

end Gink
