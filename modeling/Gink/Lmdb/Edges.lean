/-
  Gink.Lmdb.Edges — the two ways `LmdbStore` looks for edges (lmdb_store.py).

  With an end given `get_edge_entries` goes through the index of the sides and compares the
  addresses of the edges with the as-of time; without one it goes through the placements of the
  edge type and compares their positions.  A removal hides an edge in both, whenever it came.

  Main results:
    * `runTurns_edgeRows` — the rows of an edge type whose edges stay where they were put.
    * `EdgeRows.getEdgeEntries_bySide`, `EdgeRows.getEdgeEntries_byType` — what either scan yields.
    * `edge_scans_agree_iff` — when the two yield the same.
-/
import Gink.Lmdb.Reads
import Gink.Lmdb.KeyedConvergence
import Gink.Lmdb.Billionths
import Gink.Keyed.Packing

namespace Gink

/-! ## §1. What edge types are written by. -/

/-- What is put into the edge type is an edge with two ends. -/
def Op.EdgesIn (edgeType : Muid) (op : Op) : Prop :=
  ∀ builder, op.change = .entry builder → ∀ placement,
    Placement.fromBuilder builder op.info op.offset = .ok placement →
      placement.container = edgeType → builder.behavior = .edgeType ∧ builder.pair?.isSome = true

/-- No movement puts anything into the edge type: it removes an edge or has to do with others. -/
def Op.MovesNothingInto (edgeType : Muid) (op : Op) : Prop :=
  ∀ builder, op.change = .movement builder →
    resolve op.info.context builder.container = .ok edgeType → builder.dest = 0

namespace Lmdb

/-! ## §2. The rows of an edge type. -/

/-- The entry is one of the edge type. -/
structure IsEdge (entries : Table Bytes EntryBuilder) (edgeType m : Muid) (builder : EntryBuilder) :
    Prop where
  stored : entries.get? m.toBytes = some builder
  container : resolve m.context builder.containerField = .ok edgeType

/-- The edge leads from and to these. -/
def Leads (m : Muid) (builder : EntryBuilder) (left rite : Muid) : Prop :=
  ∃ pair, builder.pair? = some pair ∧ resolve m.context pair.left = .ok left ∧
    resolve m.context pair.rite = .ok rite

/-- The edge stands in its edge type under this key. -/
structure StandsAt (placements : Table Bytes Bytes) (edgeType m : Muid) (key : Bytes) : Prop where
  row : (key, m.toBytes) ∈ placements.rows
  packed : ∃ position expiry, position ≠ 0 ∧
    (Placement.mk edgeType (.queue position) m expiry).toBytes = .ok key

/-- **The rows of an edge type**: one placement for each edge, and a row for each of its sides. -/
structure EdgeRows (edgeType : Muid) (c : Contents) : Prop where
  placed : ∀ row ∈ c.placements.rows, edgeType.toBytes <+: row.1 → ∃ m builder,
    IsEdge c.entries edgeType m builder ∧ row.2 = m.toBytes ∧ StandsAt c.placements edgeType m row.1
  stands : ∀ m builder, IsEdge c.entries edgeType m builder → (∃ key, StandsAt c.placements edgeType m key) ∧
    ∃ left rite, Leads m builder left rite ∧
      (left.toBytes ++ m.toBytes, m.toBytes) ∈ c.indexes.bySide.rows ∧
      (rite.toBytes ++ m.toBytes, m.toBytes) ∈ c.indexes.bySide.rows
  once : ∀ m key key', StandsAt c.placements edgeType m key →
    StandsAt c.placements edgeType m key' → key = key'
  sides : ∀ row ∈ c.indexes.bySide.rows, ∃ (side m : Muid) (builder : EntryBuilder)
      (container left rite : Muid), row = (side.toBytes ++ m.toBytes, m.toBytes) ∧
    c.entries.get? m.toBytes = some builder ∧
    resolve m.context builder.containerField = .ok container ∧ Leads m builder left rite ∧
    (side = left ∨ side = rite)
  removals : ∀ row ∈ c.removals.rows, row.1.length = 48

theorem EdgeRows.empty (edgeType : Muid) : EdgeRows edgeType {} where
  placed := fun row hrow => absurd hrow List.not_mem_nil
  stands := fun m builder h => absurd h.stored (by simp)
  once := fun m key key' h => absurd h.row List.not_mem_nil
  sides := fun row hrow => absurd hrow List.not_mem_nil
  removals := fun row hrow => absurd hrow List.not_mem_nil

section
variable {lib : Externals} {committed c c' : Contents} {info : BundleInfo} {offset : Nat}
  {edgeType m : Muid} {builder : EntryBuilder}

theorem StandsAt.starts {placements : Table Bytes Bytes} {key : Bytes}
    (h : StandsAt placements edgeType m key) : edgeType.toBytes <+: key := by
  obtain ⟨position, expiry, -, hpacked⟩ := h.packed
  exact List.isPrefixOf_iff_prefix.mp ((isPrefixOf_toBytes hpacked edgeType).mpr rfl)

/-- The key reads back as that of the edge. -/
theorem StandsAt.read {placements : Table Bytes Bytes} {key : Bytes}
    (h : StandsAt placements edgeType m key) : ∃ middle expiry,
      Placement.fromBytes key .edgeType = .ok ⟨edgeType, middle, m, expiry⟩ := by
  obtain ⟨position, expiry, hne, hpacked⟩ := h.packed
  obtain ⟨middle, packed, hmiddle, hexpiry, rfl⟩ := Placement.toBytes_eq_ok hpacked
  have hmiddle : encodeMuts position = .ok middle := hmiddle
  have hlen := length_of_encodeMuts hmiddle
  obtain ⟨time, htime⟩ := decodeMuts_total (length_of_encodeMuts hexpiry)
  obtain ⟨q, hq⟩ : ∃ q, decodeMuts middle = .ok (some q) := by
    unfold encodeMuts at hmiddle
    split_ifs at hmiddle with hinf hfits
    · rw [← Except.ok.inj hmiddle, decodeMuts_signed (by norm_num)]
      exact ⟨intInf, rfl⟩
    · rw [← Except.ok.inj hmiddle, decodeMuts_signed hfits, if_neg hne]
      split_ifs
      · exact ⟨_, rfl⟩
      · exact ⟨_, rfl⟩
  refine ⟨.queue q, time, ?_⟩
  rw [fromBytes_append .edgeType (length_of_encodeMuts hexpiry), htime]
  unfold Placement.middleFromBytes
  simp only [List.take_of_length_le hlen.le, hq, hlen]
  rfl

theorem length_removalKey (k : RemovalKey) : k.toBytes.length = 48 := by
  unfold RemovalKey.toBytes
  simp

/-- What an entry writes into the index of the sides. -/
theorem add_bySide {ix ix' : Indexes} {container : Muid}
    (h : ix.add lib info builder container m = .ok ix') :
    (builder.pair? = none ∧ ix'.bySide = ix.bySide) ∨ ∃ left rite, Leads m builder left rite ∧
      ix'.bySide = (ix.bySide.put (left.toBytes ++ m.toBytes) m.toBytes).put
        (rite.toBytes ++ m.toBytes) m.toBytes := by
  unfold Indexes.add at h
  obtain ⟨ix1, h1, h⟩ := bind_eq_ok.mp h
  obtain ⟨ix2, h2, h⟩ := bind_eq_ok.mp h
  obtain ⟨ix3, h3, h⟩ := bind_eq_ok.mp h
  obtain ⟨ix4, h4, h5⟩ := bind_eq_ok.mp h
  have e1 : ix1.bySide = ix.bySide := by
    unfold Indexes.onDescribing at h1
    split at h1
    · rw [← Except.ok.inj h1]
    · obtain ⟨_, -, h1⟩ := bind_eq_ok.mp h1
      rw [← pure_eq_ok.mp h1]
  have e2 : ix2.bySide = ix1.bySide := by
    unfold Indexes.onPointee at h2
    split at h2
    · rw [← Except.ok.inj h2]
    · obtain ⟨_, -, h2⟩ := bind_eq_ok.mp h2
      rw [← pure_eq_ok.mp h2]
  have e4 : ix4.bySide = ix3.bySide := by
    unfold Indexes.addName at h4
    split_ifs at h4
    · split at h4
      · obtain ⟨_, -, h4⟩ := bind_eq_ok.mp h4
        obtain ⟨name, -, h4⟩ := bind_eq_ok.mp h4
        split at h4
        · rw [← pure_eq_ok.mp h4]
        · obtain ⟨_, -, h4⟩ := bind_eq_ok.mp h4
          rw [← pure_eq_ok.mp h4]
      · rw [← Except.ok.inj h4]
    · rw [← Except.ok.inj h4]
  have e5 : ix'.bySide = ix4.bySide := by
    unfold Indexes.addValue at h5
    split_ifs at h5
    · obtain ⟨_, -, h5⟩ := bind_eq_ok.mp h5
      obtain ⟨_, -, h5⟩ := bind_eq_ok.mp h5
      obtain ⟨value, -, h5⟩ := bind_eq_ok.mp h5
      split at h5
      · rw [← pure_eq_ok.mp h5]
      · split_ifs at h5
        · rw [← pure_eq_ok.mp h5]
        · rw [← pure_eq_ok.mp h5]
    · rw [← Except.ok.inj h5]
  rw [e5, e4]
  unfold Indexes.onSides at h3
  cases hpair : builder.pair? with
  | none =>
      rw [hpair] at h3
      rw [← Except.ok.inj h3, e2, e1]
      exact Or.inl ⟨rfl, rfl⟩
  | some pair =>
      rw [hpair] at h3
      obtain ⟨left, hleft, h3⟩ := bind_eq_ok.mp h3
      obtain ⟨rite, hrite, h3⟩ := bind_eq_ok.mp h3
      rw [← pure_eq_ok.mp h3]
      refine Or.inr ⟨left, rite, ⟨pair, hpair, hleft, hrite⟩, ?_⟩
      show (ix2.bySide.put _ _).put _ _ = _
      rw [e2, e1]

/-- An entry with a new address. -/
theorem EdgeRows.added (h : EdgeRows edgeType c) {placement : Placement} {bytes : Bytes}
    {removals : Table Bytes (Option MovementBuilder)} {containers removalsByTime totals}
    {indexes : Indexes} (hnew : c.entries.get? placement.placer.toBytes = none)
    (hp : Placement.fromBuilder builder info offset = .ok placement)
    (hb : placement.toBytes = .ok bytes)
    (hremovals : ∀ row ∈ removals.rows, row.1.length = 48)
    (hi : c.indexes.add lib info builder placement.container placement.placer = .ok indexes)
    (hedges : placement.container = edgeType →
      builder.behavior = .edgeType ∧ builder.pair?.isSome = true) :
    EdgeRows edgeType { c with
      entries := c.entries.put placement.placer.toBytes builder
      placements := c.placements.put bytes placement.placer.toBytes
      locations := c.locations.put (locationKey placement.placer placement.placer) bytes
      containers, removals, removalsByTime, totals, indexes } := by
  obtain ⟨hmuid, hcontainer, hmiddle, -⟩ := Placement.fromBuilder_eq_ok hp
  -- an edge has a position, its own or that of its timestamp
  have hposition : placement.container = edgeType → ∃ position expiry, position ≠ 0 ∧
      (Placement.mk edgeType (.queue position) placement.placer expiry).toBytes = .ok bytes := by
    intro hin
    unfold Placement.middleOf at hmiddle
    rw [(hedges hin).1] at hmiddle
    refine ⟨orElse builder.effective placement.placer.timestamp, placement.expiry, ?_, ?_⟩
    · have htimestamp : placement.placer.timestamp ≠ 0 := by
        obtain ⟨htime, -, -, hne⟩ := changeMuid_eq_ok hmuid
        unfold Muid.timestamp
        split_ifs <;> omega
      unfold orElse
      split_ifs with hnone
      · exact htimestamp
      · exact hnone
    · rw [← hin, Except.ok.inj hmiddle]
      exact hb
  -- entries of before are kept, and the new one is no edge that was there
  have hkept : ∀ {k b}, c.entries.get? k = some b →
      (c.entries.put placement.placer.toBytes builder).get? k = some b := by
    intro k b hk
    rw [Table.get?_put_of_ne]
    · exact hk
    · rintro rfl
      rw [hnew] at hk
      cases hk
  have hkeptSide : ∀ {row}, row ∈ c.indexes.bySide.rows → row ∈ indexes.bySide.rows := by
    intro row hrow
    obtain ⟨side, m, b, container, left, rite, hkey, hstored, -⟩ := h.sides row hrow
    rcases add_bySide hi with ⟨-, hsame⟩ | ⟨left', rite', -, hput⟩
    · rw [hsame]
      exact hrow
    · have hne : ∀ x : Muid, row.1 ≠ x.toBytes ++ placement.placer.toBytes := by
        intro x heq
        rw [hkey] at heq
        obtain ⟨-, hm⟩ := List.append_inj heq (by simp)
        rw [hm, hnew] at hstored
        cases hstored
      rw [hput]
      exact Table.mem_rows_put.mpr (Or.inr ⟨hne rite',
        Table.mem_rows_put.mpr (Or.inr ⟨hne left', hrow⟩)⟩)
  have hkeptPlacement : ∀ {k e : Bytes}, (k, e) ∈ c.placements.rows → e ≠ placement.placer.toBytes →
      edgeType.toBytes <+: k → (k, e) ∈ (c.placements.put bytes placement.placer.toBytes).rows := by
    intro k e hrow hne hpre
    refine Table.mem_rows_put.mpr (Or.inr ⟨?_, hrow⟩)
    rintro rfl
    obtain ⟨m, b, -, hvalue, hstands⟩ := h.placed _ hrow hpre
    obtain ⟨position, expiry, -, hpacked⟩ := hstands.packed
    have h1 := Placement.placer_of_toBytes hpacked
    have h2 := Placement.placer_of_toBytes hb
    have hvalue : e = m.toBytes := hvalue
    rw [h1] at h2
    exact hne (hvalue.trans h2)
  refine ⟨?_, ?_, ?_, ?_, hremovals⟩
  · intro row hrow hpre
    rcases Table.mem_rows_put.mp hrow with rfl | ⟨hne, hold⟩
    · have hin : edgeType = placement.container := container_of_head hb hpre
      exact ⟨placement.placer, builder, ⟨Table.get?_put_self _ _ _, hin ▸ hcontainer⟩, rfl,
        Table.mem_rows_put.mpr (Or.inl rfl), hposition hin.symm⟩
    · obtain ⟨m, b, hedge, hvalue, hstands⟩ := h.placed row hold hpre
      exact ⟨m, b, ⟨hkept hedge.stored, hedge.container⟩, hvalue,
        Table.mem_rows_put.mpr (Or.inr ⟨hne, hstands.row⟩), hstands.packed⟩
  · intro m b hedge
    by_cases hm : m = placement.placer
    · subst hm
      have hb' : b = builder := by
        have hstored := hedge.stored
        rw [Table.get?_put_self] at hstored
        exact (Option.some.inj hstored).symm
      subst hb'
      have hin : placement.container = edgeType := by
        have hresolved := hedge.container
        rw [hcontainer] at hresolved
        exact Except.ok.inj hresolved
      obtain ⟨-, hpair⟩ := hedges hin
      refine ⟨⟨bytes, Table.mem_rows_put.mpr (Or.inl rfl), hposition hin⟩, ?_⟩
      · rcases add_bySide hi with ⟨hnone, -⟩ | ⟨left, rite, hleads, hput⟩
        · rw [hnone] at hpair
          cases hpair
        · refine ⟨left, rite, hleads, ?_, ?_⟩
          · rw [hput]
            by_cases hsame : left.toBytes ++ placement.placer.toBytes
                = rite.toBytes ++ placement.placer.toBytes
            · rw [hsame]
              exact Table.mem_rows_put.mpr (Or.inl rfl)
            · exact Table.mem_rows_put.mpr (Or.inr ⟨hsame, Table.mem_rows_put.mpr (Or.inl rfl)⟩)
          · rw [hput]
            exact Table.mem_rows_put.mpr (Or.inl rfl)
    · have hne : m.toBytes ≠ placement.placer.toBytes := fun heq => hm (Muid.toBytes_injective heq)
      have hold : IsEdge c.entries edgeType m b := by
        refine ⟨?_, hedge.container⟩
        have hstored := hedge.stored
        rw [Table.get?_put_of_ne _ _ hne] at hstored
        exact hstored
      obtain ⟨⟨key, hstands⟩, left, rite, hleads, hleft, hrite⟩ := h.stands m b hold
      have hpre := hstands.starts
      exact ⟨⟨key, hkeptPlacement hstands.row hne hpre, hstands.packed⟩, left, rite, hleads,
        hkeptSide hleft, hkeptSide hrite⟩
  · intro m key key' hstands hstands'
    -- what stood there before stood there once, and the new edge stood nowhere
    have hcases : ∀ {k}, StandsAt (c.placements.put bytes placement.placer.toBytes) edgeType m k →
        (k = bytes ∧ m = placement.placer) ∨ (StandsAt c.placements edgeType m k ∧
          m ≠ placement.placer) := by
      intro k hk
      rcases Table.mem_rows_put.mp hk.row with heq | ⟨-, hold⟩
      · exact Or.inl ⟨(Prod.mk.inj heq).1, Muid.toBytes_injective (Prod.mk.inj heq).2⟩
      · refine Or.inr ⟨⟨hold, hk.packed⟩, ?_⟩
        rintro rfl
        obtain ⟨m, b, hedge, hvalue, -⟩ := h.placed _ hold hk.starts
        have hvalue : placement.placer.toBytes = m.toBytes := hvalue
        rw [hvalue, hedge.stored] at hnew
        cases hnew
    rcases hcases hstands with ⟨rfl, hm⟩ | ⟨hold, hm⟩
    · rcases hcases hstands' with ⟨rfl, -⟩ | ⟨-, hm'⟩
      · rfl
      · exact absurd hm hm'
    · rcases hcases hstands' with ⟨-, hm'⟩ | ⟨hold', -⟩
      · exact absurd hm' hm
      · exact h.once m key key' hold hold'
  · intro row hrow
    have hrow' : row ∈ c.indexes.bySide.rows ∨ ∃ left rite side, Leads placement.placer builder left rite ∧
        (side = left ∨ side = rite) ∧
        row = (side.toBytes ++ placement.placer.toBytes, placement.placer.toBytes) := by
      rcases add_bySide hi with ⟨-, hsame⟩ | ⟨left, rite, hleads, hput⟩
      · exact Or.inl (hsame ▸ hrow)
      · have hrow : row ∈ indexes.bySide.rows := hrow
        rw [hput] at hrow
        rcases Table.mem_rows_put.mp hrow with rfl | ⟨-, hrow⟩
        · exact Or.inr ⟨left, rite, rite, hleads, Or.inr rfl, rfl⟩
        · rcases Table.mem_rows_put.mp hrow with rfl | ⟨-, hrow⟩
          · exact Or.inr ⟨left, rite, left, hleads, Or.inl rfl, rfl⟩
          · exact Or.inl hrow
    rcases hrow' with hold | ⟨left, rite, side, hleads, hside, rfl⟩
    · obtain ⟨side, m, b, container, left, rite, hkey, hstored, hrest⟩ := h.sides row hold
      exact ⟨side, m, b, container, left, rite, hkey, hkept hstored, hrest⟩
    · exact ⟨side, placement.placer, builder, placement.container, left, rite, rfl,
        Table.get?_put_self _ _ _, hcontainer, hleads, hside⟩

/-- A key that starts with one address of a container starts with no other. -/
theorem not_starts {container : Muid} {middle : MiddleKey} {placer : Muid} {expiry : Option Int}
    {bytes : Bytes} (hb : (Placement.mk container middle placer expiry).toBytes = .ok bytes)
    (hne : container ≠ edgeType) : ¬ edgeType.toBytes <+: bytes := fun hpre =>
  hne (container_of_head hb hpre).symm

/-- A movement that puts nothing into the edge type. -/
theorem EdgeRows.moved (h : EdgeRows edgeType c) {movement : MovementBuilder}
    {container entryMuid movementMuid : Muid} {placed : Placement}
    (hout : container = edgeType → movement.dest = 0)
    (hmoved : Moved movement container entryMuid movementMuid placed c c') : EdgeRows edgeType c' := by
  have hremovals : ∀ {key : RemovalKey} {value},
      ∀ row ∈ (c.removals.put key.toBytes value).rows, row.1.length = 48 := by
    intro key value row hrow
    rcases Table.mem_rows_put.mp hrow with rfl | ⟨-, hold⟩
    · exact length_removalKey key
    · exact h.removals row hold
  obtain ⟨byTime, hcases⟩ := hmoved
  rcases hcases with ⟨-, rfl⟩ | ⟨hdest, bytes, hb, rfl⟩
  · exact ⟨h.placed, h.stands, h.once, h.sides, hremovals⟩
  · have hother := not_starts hb fun hin => hdest (hout hin)
    refine ⟨?_, ?_, ?_, h.sides, hremovals⟩
    · intro row hrow hpre
      rcases Table.mem_rows_put.mp hrow with rfl | ⟨hne, hold⟩
      · exact absurd hpre hother
      · obtain ⟨m, b, hedge, hvalue, hstands⟩ := h.placed row hold hpre
        exact ⟨m, b, hedge, hvalue, Table.mem_rows_put.mpr (Or.inr ⟨hne, hstands.row⟩),
          hstands.packed⟩
    · intro m b hedge
      obtain ⟨⟨key, hstands⟩, hsides⟩ := h.stands m b hedge
      have hpre := hstands.starts
      refine ⟨⟨key, Table.mem_rows_put.mpr (Or.inr ⟨?_, hstands.row⟩), hstands.packed⟩, hsides⟩
      intro heq
      have heq : key = bytes := heq
      exact hother (heq ▸ hpre)
    · intro m key key' hstands hstands'
      have hold : ∀ {k}, StandsAt (c.placements.put bytes entryMuid.toBytes) edgeType m k →
          StandsAt c.placements edgeType m k := by
        intro k hk
        rcases Table.mem_rows_put.mp hk.row with heq | ⟨-, hold⟩
        · exact absurd ((Prod.mk.inj heq).1 ▸ hk.starts) hother
        · exact ⟨hold, hk.packed⟩
      exact h.once m key key' (hold hstands) (hold hstands')

theorem entryMuid_eq {placement : Placement}
    (hp : Placement.fromBuilder builder info offset = .ok placement) :
    Op.entryMuid ⟨info, offset, .entry builder⟩ = some placement.placer := by
  unfold Op.entryMuid
  rw [(Placement.fromBuilder_eq_ok hp).1]
  rfl

/-- One change keeps the rows of the edge type. -/
theorem EdgeRows.step (h : EdgeRows edgeType c) {change : ChangeBuilder} {seen seen' : List Muid}
    (hnew : ∀ a, Op.entryMuid ⟨info, offset, change⟩ = some a → c.entries.get? a.toBytes = none)
    (hedges : Op.EdgesIn edgeType ⟨info, offset, change⟩)
    (hout : Op.MovesNothingInto edgeType ⟨info, offset, change⟩)
    (happlied : applyChange lib committed true info offset seen c change = (seen', .ok c')) :
    EdgeRows edgeType c' := by
  cases applyChange_effect happlied with
  | container builder c containers => exact ⟨h.placed, h.stands, h.once, h.sides, h.removals⟩
  | entry builder c c' containers hadded =>
      obtain ⟨placement, bytes, removals, byTime, totals, indexes, -, hp, hb, hreplaced, -, hi, rfl⟩ :=
        addEntry_ok hadded
      refine h.added (hnew _ (entryMuid_eq hp)) hp hb ?_ hi
        (hedges builder rfl placement hp)
      intro row hrow
      rcases hreplaced with rfl | ⟨found, -, rfl⟩
      · exact h.removals row hrow
      · rcases Table.mem_rows_put.mp hrow with rfl | ⟨-, hold⟩
        · exact length_removalKey _
        · exact h.removals row hold
  | movement builder c c' happlied =>
      rcases applyMovement_ok happlied with rfl | ⟨container, entryMuid, movementMuid, entry, row,
        placer, placed, hmovable, hmoved⟩
      · exact h
      · exact h.moved (fun hin => hout builder rfl (hin ▸ hmovable.container_eq)) hmoved
  | clearance builder c c' happlied =>
      obtain ⟨container, clearanceMuid, -, -, rfl⟩ := applyClearance_ok happlied
      exact ⟨h.placed, h.stands, h.once, h.sides, h.removals⟩

/-- The entries that a change leaves were there before or have its address. -/
theorem applyChange_stored {change : ChangeBuilder} {seen seen' : List Muid}
    (happlied : applyChange lib committed true info offset seen c change = (seen', .ok c')) :
    ∀ row ∈ c'.entries.rows, row ∈ c.entries.rows ∨
      ∃ a, Op.entryMuid ⟨info, offset, change⟩ = some a ∧ row.1 = a.toBytes := by
  intro row hrow
  cases applyChange_effect happlied with
  | container builder c containers => exact Or.inl hrow
  | entry builder c c' containers hadded =>
      obtain ⟨placement, bytes, removals, byTime, totals, indexes, -, hp, -, -, -, -, rfl⟩ :=
        addEntry_ok hadded
      rcases Table.mem_rows_put.mp hrow with rfl | ⟨-, hold⟩
      · exact Or.inr ⟨placement.placer, entryMuid_eq hp, rfl⟩
      · exact Or.inl hold
  | movement builder c c' happlied =>
      rcases applyMovement_ok happlied with rfl | ⟨container, entryMuid, movementMuid, entry, _,
        placer, placed, -, byTime, ⟨-, rfl⟩ | ⟨-, bytes, -, rfl⟩⟩
      · exact Or.inl hrow
      · exact Or.inl hrow
      · exact Or.inl hrow
  | clearance builder c c' happlied =>
      obtain ⟨container, clearanceMuid, -, -, rfl⟩ := applyClearance_ok happlied
      exact Or.inl hrow

/-- The edge type is written to by edges, and no movement puts anything into it. -/
structure EdgesStay (edgeType : Muid) (ops : List Op) : Prop where
  distinct : DistinctEntries ops
  edges : ∀ op ∈ ops, op.EdgesIn edgeType
  stay : ∀ op ∈ ops, op.MovesNothingInto edgeType

/-- **The rows of an edge type**, in every state of a run that retains history. -/
theorem runTurns_edgeRows {s : Store} {turns : List Turn} (hturns : ∀ turn ∈ turns, turn.Retains)
    (happly : s.applyChanges = true) (hretain : s.db.retainEntries = true)
    (hempty : s.db.contents = {}) (hstay : EdgesStay edgeType (opsTaken lib s turns)) :
    EdgeRows edgeType (runTurns lib s turns).db.contents := by
  have hstep : ∀ committed retaining info ops offset change seen seen' c c', retaining = true →
      (EdgesStay edgeType ops → EdgeRows edgeType c ∧ ∀ row ∈ c.entries.rows,
        ∃ op ∈ ops, ∃ a, Op.entryMuid op = some a ∧ row.1 = a.toBytes) →
      applyChange lib committed retaining info offset seen c change = (seen', .ok c') →
      EdgesStay edgeType (ops ++ [⟨info, offset, change⟩]) →
      EdgeRows edgeType c' ∧ ∀ row ∈ c'.entries.rows,
        ∃ op ∈ ops ++ [⟨info, offset, change⟩], ∃ a, Op.entryMuid op = some a ∧
          row.1 = a.toBytes := by
    rintro committed retaining info ops offset change seen seen' c c' rfl hbefore happlied hstay
    have hlast : (⟨info, offset, change⟩ : Op) ∈ ops ++ [⟨info, offset, change⟩] :=
      List.mem_append_right _ (List.mem_singleton_self _)
    obtain ⟨hrows, hstored⟩ := hbefore ⟨hstay.distinct.left,
      fun op hop => hstay.edges op (List.mem_append_left _ hop),
      fun op hop => hstay.stay op (List.mem_append_left _ hop)⟩
    refine ⟨hrows.step ?_ (hstay.edges _ hlast) (hstay.stay _ hlast) happlied, ?_⟩
    · intro a ha
      rw [Table.get?_eq_none_iff]
      intro row hrow hkey
      obtain ⟨op, hop, b, hb, hrowb⟩ := hstored row hrow
      rw [hkey] at hrowb
      obtain rfl := Muid.toBytes_injective hrowb
      exact hstay.distinct.last ha hop hb
    · intro row hrow
      rcases applyChange_stored happlied row hrow with hold | ⟨a, ha, hkey⟩
      · obtain ⟨op, hop, hrest⟩ := hstored row hold
        exact ⟨op, List.mem_append_left _ hop, hrest⟩
      · exact ⟨_, hlast, a, ha, hkey⟩
  have hstart : EdgesStay edgeType [] → EdgeRows edgeType s.db.contents ∧
      ∀ row ∈ s.db.contents.entries.rows, ∃ op ∈ ([] : List Op), ∃ a, Op.entryMuid op = some a ∧
        row.1 = a.toBytes := by
    rw [hempty]
    exact fun _ => ⟨.empty edgeType, fun row hrow => absurd hrow List.not_mem_nil⟩
  have halong := runTurns_along (R := (· = true)) (P := fun ops c => EdgesStay edgeType ops →
    EdgeRows edgeType c ∧ ∀ row ∈ c.entries.rows,
      ∃ op ∈ ops, ∃ a, Op.entryMuid op = some a ∧ row.1 = a.toBytes) hstep rfl
    (fun hfalse => absurd hfalse (by simp)) (fun turn hturn => Or.inl (hturns turn hturn))
    happly hretain hstart
  exact (halong hstay).1

end

/-! ## §3. The two scans. -/

/-- The edge was not removed from its edge type, nor moved. -/
def Unremoved (c : Contents) (edgeType m : Muid) : Prop :=
  ∀ row ∈ c.removals.rows, ¬ edgeType.toBytes ++ m.toBytes <+: row.1

/-- The edge leads from the source to the target, as far as they are given. -/
def Joins (source target : Option Muid) (f : FoundEntry) : Prop :=
  ∃ left rite, Leads f.address f.builder left rite ∧ (∀ s, source = some s → left = s) ∧
    ∀ t, target = some t → rite = t

section
variable {c : Contents} {edgeType m : Muid} {builder : EntryBuilder} {asOfBytes : Bytes}
  {source target : Option Muid}

theorem EdgeRows.unremoved_iff (h : EdgeRows edgeType c) (container : Muid) :
    (toLast c.removals (container.toBytes ++ m.toBytes)).isSome = false ↔
      Unremoved c container m := by
  have hshort : ∀ r ∈ c.removals.rows, ∀ x, r.1 = container.toBytes ++ m.toBytes ++ x →
      x < List.replicate 40 255 := by
    intro r hr x hx
    have hlen := h.removals r hr
    rw [hx, List.length_append, List.length_append, Muid.length_toBytes, Muid.length_toBytes] at hlen
    exact Bytes.lt_replicate_of_length_lt (by omega)
  rw [toLast_eq_lastWhere _ _ hshort, Option.isSome_eq_false_iff, Option.isNone_iff_eq_none,
    Table.lastWhere_eq_none_iff]
  unfold Unremoved
  simp only [← List.isPrefixOf_iff_prefix, Bool.not_eq_true]

/-- Whether the side scan takes an edge in. -/
theorem EdgeRows.included (h : EdgeRows edgeType c) (source target : Option Muid)
    {container left rite : Muid}
    (hcontainer : resolve m.context builder.containerField = .ok container)
    (hleads : Leads m builder left rite) :
    ∃ taken, edgeIncluded c (some edgeType) source target m builder m.toBytes = .ok taken ∧
      (taken = true ↔ container = edgeType ∧ Unremoved c edgeType m ∧
        Joins source target ⟨m, builder⟩) := by
  obtain ⟨pair, hpair, hleft, hrite⟩ := hleads
  have hjoins : Joins source target ⟨m, builder⟩ ↔
      (source.all (fun m => decide (left = m)) && target.all (fun m => decide (rite = m))) = true := by
    rw [Bool.and_eq_true, Option.all_eq_true, Option.all_eq_true]
    simp only [decide_eq_true_eq]
    constructor
    · rintro ⟨left', rite', ⟨pair', hpair', hleft', hrite'⟩, hs, ht⟩
      rw [hpair] at hpair'
      cases hpair'
      rw [hleft] at hleft'
      rw [hrite] at hrite'
      cases hleft'
      cases hrite'
      exact ⟨hs, ht⟩
    · exact fun ⟨hs, ht⟩ => ⟨left, rite, ⟨pair, hpair, hleft, hrite⟩, hs, ht⟩
  unfold edgeIncluded
  rw [hcontainer, hpair]
  by_cases hin : container = edgeType
  · subst hin
    by_cases hunremoved : Unremoved c container m
    · have hnone := (h.unremoved_iff container).mpr hunremoved
      refine ⟨source.all (fun m => decide (left = m)) && target.all (fun m => decide (rite = m)),
        ?_, ?_⟩
      · simp [bind, Except.bind, hnone, hleft, hrite, pure, Except.pure]
      · rw [hjoins]
        simp [hunremoved]
    · have hsome : (toLast c.removals (container.toBytes ++ m.toBytes)).isSome = true := by
        rw [← Bool.not_eq_false, h.unremoved_iff]
        exact hunremoved
      refine ⟨false, ?_, ?_⟩
      · simp [bind, Except.bind, hsome, pure, Except.pure]
      · simp [hunremoved]
  · refine ⟨false, ?_, ?_⟩
    · simp [bind, Except.bind, hin, pure, Except.pure]
    · simp [hin]

/-- **The walk over the side index.** -/
theorem EdgeRows.edgesBySide (h : EdgeRows edgeType c) (side : Muid) :
    ∀ {rows : List (Bytes × Bytes)}, rows.Pairwise (fun a b => a.1 < b.1) →
      (∀ row ∈ rows, row ∈ c.indexes.bySide.rows ∧ side.toBytes ≤ row.1) →
      ∃ found, Lmdb.edgesBySide c side.toBytes asOfBytes (some edgeType) source target rows
        = .ok found ∧ ∀ f, f ∈ found ↔
          (side.toBytes ++ f.address.toBytes, f.address.toBytes) ∈ rows ∧
          f.address.toBytes ≤ asOfBytes ∧ IsEdge c.entries edgeType f.address f.builder ∧
          Unremoved c edgeType f.address ∧ Joins source target f := by
  intro rows
  induction rows with
  | nil => exact fun _ _ => ⟨[], rfl, fun f => by simp⟩
  | cons row rest ih =>
      intro hsorted hrows
      obtain ⟨hfirst, hrest⟩ := List.pairwise_cons.mp hsorted
      obtain ⟨hrow, hfrom⟩ := hrows row List.mem_cons_self
      obtain ⟨side', m, builder, container, left, rite, rfl, hstored, hcontainer, hleads, -⟩ :=
        h.sides row hrow
      unfold Lmdb.edgesBySide
      by_cases hside : side' = side
      · subst hside
        have hpre : side'.toBytes.isPrefixOf (side'.toBytes ++ m.toBytes) = true :=
          List.isPrefixOf_iff_prefix.mpr (List.prefix_append _ _)
        by_cases hlate : m.toBytes > asOfBytes
        · -- the addresses go up within a side
          refine ⟨[], by simp [hpre, hlate], fun f => ?_⟩
          simp only [List.not_mem_nil, false_iff]
          rintro ⟨hmem, hle, -⟩
          rcases List.mem_cons.mp hmem with heq | hmem
          · have hm : f.address.toBytes = m.toBytes := (Prod.mk.inj heq).2
            rw [hm] at hle
            exact absurd hlate (not_lt.mpr hle)
          · have hlt : side'.toBytes ++ m.toBytes < side'.toBytes ++ f.address.toBytes :=
              hfirst _ hmem
            rw [Bytes.append_lt_append_left_iff] at hlt
            exact absurd (hlate.trans hlt) (not_lt.mpr hle)
        · obtain ⟨taken, htaken, hmeans⟩ := h.included source target hcontainer hleads
          obtain ⟨found, hfound, hmem⟩ := ih hrest fun r hr => hrows r (List.mem_cons_of_mem _ hr)
          refine ⟨if taken then ⟨m, builder⟩ :: found else found, ?_, ?_⟩
          · simp [hpre, hlate, ensure, orRaise, hstored, htaken, hfound, bind, Except.bind,
              pure, Except.pure]
          · intro f
            -- the row itself stands for one edge
            have hhere : f.address = m ∧ f.address.toBytes ≤ asOfBytes ∧
                IsEdge c.entries edgeType f.address f.builder ∧ Unremoved c edgeType f.address ∧
                Joins source target f ↔ taken = true ∧ f = ⟨m, builder⟩ := by
              constructor
              · rintro ⟨rfl, -, hedge, hunremoved, hjoins⟩
                have hsame : f.builder = builder := by
                  have hboth := hedge.stored
                  rw [hstored] at hboth
                  exact (Option.some.inj hboth).symm
                have hin := hedge.container
                rw [hsame, hcontainer] at hin
                rw [hmeans, ← hsame]
                exact ⟨⟨Except.ok.inj hin, hunremoved, hjoins⟩, rfl⟩
              · rintro ⟨htrue, rfl⟩
                obtain ⟨rfl, hunremoved, hjoins⟩ := hmeans.mp htrue
                exact ⟨rfl, not_lt.mp hlate, ⟨hstored, hcontainer⟩, hunremoved, hjoins⟩
            have hhead : (side'.toBytes ++ f.address.toBytes, f.address.toBytes)
                = (side'.toBytes ++ m.toBytes, m.toBytes) ↔ f.address = m := by
              simp
            rw [List.mem_cons, hhead, or_and_right, hhere, ← hmem f]
            cases taken with
            | true => simp
            | false => simp
      · -- and the sides go up, so that no later row has this one
        have hother : ¬ side.toBytes <+: side'.toBytes ++ m.toBytes := fun hpre =>
          hside (Muid.toBytes_injective (Bytes.prefix_unique (by simp)
            (List.prefix_append _ _) hpre))
        have hpre : side.toBytes.isPrefixOf (side'.toBytes ++ m.toBytes) = false := by
          rw [← Bool.not_eq_true, List.isPrefixOf_iff_prefix]
          exact hother
        refine ⟨[], by simp [hpre], fun f => ?_⟩
        simp only [List.not_mem_nil, false_iff]
        rintro ⟨hmem, -⟩
        rcases List.mem_cons.mp hmem with heq | hmem
        · have hkey := (Prod.mk.inj heq).1
          exact hother (hkey ▸ List.prefix_append _ _)
        · exact hother (Bytes.prefix_of_le_of_le (List.prefix_refl side.toBytes)
            (List.prefix_append side.toBytes f.address.toBytes) hfrom (hfirst _ hmem).le)

/-- **The walk over the placements.** -/
theorem EdgeRows.edgesByType (h : EdgeRows edgeType c) :
    ∀ {rows : List (Bytes × Bytes)}, rows.Pairwise (fun a b => a.1 < b.1) →
      (∀ row ∈ rows, row ∈ c.placements.rows ∧ edgeType.toBytes ≤ row.1) →
      ∃ found, Lmdb.edgesByType c edgeType asOfBytes rows = .ok found ∧ ∀ f, f ∈ found ↔
        (∃ key, (key, f.address.toBytes) ∈ rows ∧ StandsAt c.placements edgeType f.address key ∧
          key < edgeType.toBytes ++ asOfBytes) ∧
        IsEdge c.entries edgeType f.address f.builder ∧ Unremoved c edgeType f.address := by
  intro rows
  induction rows with
  | nil => exact fun _ _ => ⟨[], rfl, fun f => by simp⟩
  | cons row rest ih =>
      intro hsorted hrows
      obtain ⟨hfirst, hrest⟩ := List.pairwise_cons.mp hsorted
      obtain ⟨hrow, hfrom⟩ := hrows row List.mem_cons_self
      unfold Lmdb.edgesByType
      by_cases hpre : edgeType.toBytes <+: row.1
      · obtain ⟨m, builder, hedge, hvalue, hstands⟩ := h.placed row hrow hpre
        have hpart : edgeType.toBytes.isPrefixOf row.1 = true := List.isPrefixOf_iff_prefix.mpr hpre
        by_cases hlate : row.1 < edgeType.toBytes ++ asOfBytes
        · obtain ⟨found, hfound, hmem⟩ := ih hrest fun r hr => hrows r (List.mem_cons_of_mem _ hr)
          obtain ⟨position, hread⟩ := hstands.read
          refine ⟨if (toLast c.removals (edgeType.toBytes ++ m.toBytes)).isNone
            then ⟨m, builder⟩ :: found else found, ?_, ?_⟩
          · obtain ⟨expiry, hread⟩ := hread
            simp [hpart, hlate, hread, hvalue, readEntry, orRaise, hedge.stored, hfound, bind,
              Except.bind, pure, Except.pure]
          · intro f
            have hun : (toLast c.removals (edgeType.toBytes ++ m.toBytes)).isNone = true ↔
                Unremoved c edgeType m := by
              rw [← h.unremoved_iff edgeType]
              simp
            have hhere : (row.2 = f.address.toBytes ∧ IsEdge c.entries edgeType f.address f.builder ∧
                Unremoved c edgeType f.address) ↔
                (toLast c.removals (edgeType.toBytes ++ m.toBytes)).isNone = true ∧
                  f = ⟨m, builder⟩ := by
              rw [hun, hvalue]
              constructor
              · rintro ⟨haddress, hfound, hunremoved⟩
                obtain rfl := Muid.toBytes_injective haddress
                have hsame : f.builder = builder := by
                  have hboth := hfound.stored
                  rw [hedge.stored] at hboth
                  exact (Option.some.inj hboth).symm
                exact ⟨hunremoved, by rw [← hsame]⟩
              · rintro ⟨hunremoved, rfl⟩
                exact ⟨rfl, hedge, hunremoved⟩
            have hwhere : (∃ key, (key, f.address.toBytes) ∈ row :: rest ∧
                StandsAt c.placements edgeType f.address key ∧
                key < edgeType.toBytes ++ asOfBytes) ↔ row.2 = f.address.toBytes ∨
                ∃ key, (key, f.address.toBytes) ∈ rest ∧
                  StandsAt c.placements edgeType f.address key ∧
                  key < edgeType.toBytes ++ asOfBytes := by
              constructor
              · rintro ⟨key, hin, hthere, hlt⟩
                rcases List.mem_cons.mp hin with heq | hin
                · exact Or.inl (Prod.mk.inj heq).2.symm
                · exact Or.inr ⟨key, hin, hthere, hlt⟩
              · rintro (haddress | ⟨key, hin, hrest⟩)
                · have hm : m = f.address := Muid.toBytes_injective (hvalue.symm.trans haddress)
                  subst hm
                  exact ⟨row.1, by rw [← haddress]; exact List.mem_cons_self, hstands, hlate⟩
                · exact ⟨key, List.mem_cons_of_mem _ hin, hrest⟩
            rw [hwhere, or_and_right, hhere, ← hmem f]
            cases (toLast c.removals (edgeType.toBytes ++ m.toBytes)).isNone with
            | true => simp
            | false => simp
        · refine ⟨[], by simp [hpart, hlate], fun f => ?_⟩
          simp only [List.not_mem_nil, false_iff]
          rintro ⟨⟨key, hmem, -, hlt⟩, -⟩
          rcases List.mem_cons.mp hmem with heq | hmem
          · exact hlate ((Prod.mk.inj heq).1 ▸ hlt)
          · exact hlate ((hfirst _ hmem).trans hlt)
      · have hpart : edgeType.toBytes.isPrefixOf row.1 = false := by
          rw [← Bool.not_eq_true, List.isPrefixOf_iff_prefix]
          exact hpre
        refine ⟨[], by simp [hpart], fun f => ?_⟩
        simp only [List.not_mem_nil, false_iff]
        rintro ⟨⟨key, hmem, hstands, -⟩, -⟩
        rcases List.mem_cons.mp hmem with heq | hmem
        · exact hpre ((Prod.mk.inj heq).1 ▸ hstands.starts)
        · exact hpre (Bytes.prefix_of_le_of_le (List.prefix_refl edgeType.toBytes)
            hstands.starts hfrom (hfirst _ hmem).le)

/-- **With an end given.** -/
theorem EdgeRows.getEdgeEntries_bySide (h : EdgeRows edgeType c) {asOf : Int} {instant : Muid}
    (hmake : Muid.make asOf (-1) (-1) = .ok instant)
    (hside : source.isSome ∨ target.isSome) :
    ∃ found, getEdgeEntries c asOf (some edgeType) source target = .ok found ∧ ∀ f, f ∈ found ↔
      f.address.toBytes ≤ instant.toBytes ∧ IsEdge c.entries edgeType f.address f.builder ∧
      Unremoved c edgeType f.address ∧ Joins source target f := by
  obtain ⟨side, hor⟩ : ∃ side, target.or source = some side := by
    rw [← Option.isSome_iff_exists]
    cases target with
    | none => simpa using hside
    | some t => rfl
  obtain ⟨found, hfound, hmem⟩ := @EdgeRows.edgesBySide c edgeType instant.toBytes source target h
    side (c.indexes.bySide.rows.filter fun r => decide (side.toBytes ≤ r.1))
    (c.indexes.bySide.sorted.filter _) (fun row hrow => by simpa using hrow)
  refine ⟨found, ?_, fun f => (hmem f).trans ?_⟩
  · unfold getEdgeEntries
    rw [hmake, hor]
    exact hfound
  · constructor
    · exact fun hall => hall.2
    · rintro ⟨hle, hedge, hunremoved, hjoins⟩
      refine ⟨?_, hle, hedge, hunremoved, hjoins⟩
      obtain ⟨-, left, rite, ⟨pair, hpair, hleft, hrite⟩, hleftRow, hriteRow⟩ :=
        h.stands f.address f.builder hedge
      obtain ⟨left', rite', ⟨pair', hpair', hleft', hrite'⟩, hs, ht⟩ := hjoins
      rw [hpair] at hpair'
      cases hpair'
      rw [hleft] at hleft'
      rw [hrite] at hrite'
      cases hleft'
      cases hrite'
      -- the side that the scan goes by is an end of the edge
      have hend : side = left ∨ side = rite := by
        cases target with
        | none => exact Or.inl (hs side hor).symm
        | some t => exact Or.inr (by rw [ht t rfl]; exact (Option.some.inj hor).symm)
      have hrow : (side.toBytes ++ f.address.toBytes, f.address.toBytes) ∈ c.indexes.bySide.rows := by
        rcases hend with rfl | rfl
        · exact hleftRow
        · exact hriteRow
      exact List.mem_filter.mpr ⟨hrow, decide_eq_true (Bytes.le_append _ _)⟩

/-- **With the edge type alone.** -/
theorem EdgeRows.getEdgeEntries_byType (h : EdgeRows edgeType c) {asOf : Int} {instant : Muid}
    (hmake : Muid.make asOf (-1) (-1) = .ok instant) :
    ∃ found, getEdgeEntries c asOf (some edgeType) none none = .ok found ∧ ∀ f, f ∈ found ↔
      (∃ key, StandsAt c.placements edgeType f.address key ∧
        key < edgeType.toBytes ++ instant.toBytes) ∧
      IsEdge c.entries edgeType f.address f.builder ∧ Unremoved c edgeType f.address := by
  obtain ⟨found, hfound, hmem⟩ := @EdgeRows.edgesByType c edgeType instant.toBytes h
    (c.placements.rows.filter fun r => decide (edgeType.toBytes ≤ r.1))
    (c.placements.sorted.filter _) (fun row hrow => by simpa using hrow)
  refine ⟨found, ?_, fun f => (hmem f).trans ?_⟩
  · unfold getEdgeEntries
    rw [hmake]
    exact hfound
  · refine and_congr_left fun _ => exists_congr fun key => ⟨fun hall => hall.2, fun hthere => ⟨?_, hthere⟩⟩
    exact List.mem_filter.mpr ⟨hthere.1.row,
      decide_eq_true (Bytes.le_of_isPrefix hthere.1.starts)⟩

end

/-! ## §4. Agreement. -/

/-- The scan by the side finds the edges with these ends that the scan of the edge type finds,
or both refuse the time. -/
def ScansAgree (c : Contents) (asOf : Int) (edgeType : Muid) (source target : Option Muid) : Prop :=
  (∃ e, getEdgeEntries c asOf (some edgeType) source target = .error e ∧
    getEdgeEntries c asOf (some edgeType) none none = .error e) ∨
  ∃ bySide byType, getEdgeEntries c asOf (some edgeType) source target = .ok bySide ∧
    getEdgeEntries c asOf (some edgeType) none none = .ok byType ∧
    ∀ f, f ∈ bySide ↔ f ∈ byType ∧ Joins source target f

/-- The address of the edge is not after the instant exactly when its place is before it. -/
def SeenAlike (edgeType m : Muid) (key : Bytes) (instant : Muid) : Prop :=
  m.toBytes ≤ instant.toBytes ↔ key < edgeType.toBytes ++ instant.toBytes

/-- **The two scans for edges agree** exactly when every edge with these ends that is there lies
on the same side of the time by its address as by its place, for edge types into which nothing is
moved. -/
theorem edge_scans_agree_iff (lib : Externals) (symmetricKeys : Table Bytes Bytes)
    (retainBundles : Bool) (turns : List Turn) (hturns : ∀ turn ∈ turns, turn.Retains)
    (edgeType : Muid)
    (hstay : EdgesStay edgeType (opsTaken lib (newStore symmetricKeys retainBundles true) turns))
    (asOf : Int) (source target : Option Muid) (hside : source.isSome ∨ target.isSome) :
    let c := (runTurns lib (newStore symmetricKeys retainBundles true) turns).db.contents
    ScansAgree c asOf edgeType source target ↔ ∀ instant m builder key,
      Muid.make asOf (-1) (-1) = .ok instant → IsEdge c.entries edgeType m builder →
      Joins source target ⟨m, builder⟩ → Unremoved c edgeType m →
      StandsAt c.placements edgeType m key → SeenAlike edgeType m key instant := by
  intro c
  have h : EdgeRows edgeType c := runTurns_edgeRows hturns rfl rfl rfl hstay
  cases hmake : Muid.make asOf (-1) (-1) with
  | error e =>
      refine iff_of_true (Or.inl ⟨e, ?_, ?_⟩) (fun instant _ _ _ hok => by cases hok)
      · unfold getEdgeEntries
        rw [hmake]
        rfl
      · unfold getEdgeEntries
        rw [hmake]
        rfl
  | ok instant =>
      obtain ⟨bySide, hbySide, hmemSide⟩ := h.getEdgeEntries_bySide hmake hside
      obtain ⟨byType, hbyType, hmemType⟩ := h.getEdgeEntries_byType hmake
      constructor
      · rintro (⟨e, herror, -⟩ | ⟨bySide', byType', hside', htype', hagree⟩)
        · rw [hbySide] at herror
          cases herror
        · rw [hbySide] at hside'
          rw [hbyType] at htype'
          cases hside'
          cases htype'
          rintro instant' m builder key hsame hedge hjoins hunremoved hstands
          cases hsame
          have hboth := hagree ⟨m, builder⟩
          rw [hmemSide, hmemType] at hboth
          constructor
          · intro hle
            obtain ⟨⟨⟨key', hstands', hlt⟩, -⟩, -⟩ := hboth.mp ⟨hle, hedge, hunremoved, hjoins⟩
            rw [h.once m key key' hstands hstands']
            exact hlt
          · intro hlt
            exact (hboth.mpr ⟨⟨⟨key, hstands, hlt⟩, hedge, hunremoved⟩, hjoins⟩).1
      · intro halike
        refine Or.inr ⟨bySide, byType, hbySide, hbyType, fun f => ?_⟩
        rw [hmemSide, hmemType]
        constructor
        · rintro ⟨hle, hedge, hunremoved, hjoins⟩
          obtain ⟨⟨key, hstands⟩, -⟩ := h.stands f.address f.builder hedge
          have hlt := (halike instant f.address f.builder key rfl hedge hjoins hunremoved
            hstands).mp hle
          exact ⟨⟨⟨key, hstands, hlt⟩, hedge, hunremoved⟩, hjoins⟩
        · rintro ⟨⟨⟨key, hstands, hlt⟩, hedge, hunremoved⟩, hjoins⟩
          exact ⟨(halike instant f.address f.builder key rfl hedge hjoins hunremoved
            hstands).mpr hlt, hedge, hunremoved, hjoins⟩

/-! ## §5. One edge. -/

/-- A bundle that makes two vertices and an edge type and joins the vertices by an edge. -/
def joiningBundle : BundleBuilder :=
  startingBundle 5 1 [.container ⟨.vertex⟩, .container ⟨.vertex⟩, .container ⟨.edgeType⟩,
    .entry {
      container := some { offset := 3 }
      behavior := .edgeType
      contains := some (.value (.characters "edge"))
      subject := some (.pair ⟨{ offset := 1 }, { offset := 2 }⟩) }]

/-- The store that took it in. -/
def joinedLmdb : Contents :=
  (runTurns (sampleExternals [joiningBundle]) (newStore ∅ true true)
    [.apply (sampleCall 0 1)]).db.contents

/-- Nothing but the edge is put into the edge type. -/
theorem joined_stays : EdgesStay ⟨5, 1, 3⟩
    (opsTaken (sampleExternals [joiningBundle]) (newStore ∅ true true) [.apply (sampleCall 0 1)]) := by
  have hchange : ∀ op ∈ opsTaken (sampleExternals [joiningBundle]) (newStore ∅ true true)
      [.apply (sampleCall 0 1)], op.change ∈ joiningBundle.changes := by
    intro op hop
    have hop : op ∈ opsFrom ⟨5, 1, 5, 0, List.replicate 31 0 ++ [0], ""⟩ 1 joiningBundle.changes := hop
    exact (mem_opsFrom hop).2.2
  refine ⟨?_, ?_, ?_⟩
  · unfold DistinctEntries
    decide +kernel
  · intro op hop builder hbuilder placement _ _
    have hin := hchange op hop
    rw [hbuilder] at hin
    simp only [joiningBundle, startingBundle, List.mem_cons, List.not_mem_nil, reduceCtorEq,
      or_false, false_or, ChangeBuilder.entry.injEq] at hin
    rw [hin]
    exact ⟨rfl, rfl⟩
  · intro op hop builder hbuilder
    have hin := hchange op hop
    rw [hbuilder] at hin
    simp [joiningBundle, startingBundle] at hin

/-- After the time of the bundle both scans find the edge. -/
theorem edge_scans_agree_iff_joined :
    ScansAgree joinedLmdb 6 ⟨5, 1, 3⟩ (some ⟨5, 1, 1⟩) none := by
  refine (edge_scans_agree_iff (sampleExternals [joiningBundle]) ∅ true [.apply (sampleCall 0 1)]
    (by simp [Turn.Retains]) ⟨5, 1, 3⟩ joined_stays 6 (some ⟨5, 1, 1⟩) none (Or.inl rfl)).mpr ?_
  intro instant m builder key hmake _ _ _ hstands
  have hrows : joinedLmdb.placements.rows =
      [((⟨5, 1, 3⟩ : Muid).toBytes ++ packSigned 5 ++ (⟨5, 1, 4⟩ : Muid).toBytes ++ packSigned 0,
        (⟨5, 1, 4⟩ : Muid).toBytes)] := by decide +kernel
  have hrow : (key, m.toBytes) ∈ joinedLmdb.placements.rows := hstands.row
  rw [hrows, List.mem_singleton, Prod.mk.injEq] at hrow
  obtain ⟨rfl, hm⟩ := hrow
  obtain rfl := Muid.toBytes_injective hm
  have hmake : Except.ok (⟨6, -1, -1⟩ : Muid) = .ok instant := hmake
  rw [← Except.ok.inj hmake]
  unfold SeenAlike
  decide +kernel

/-- **Before it** the scan of the edge type finds the edge already, since it compares the place
with the packed instant; the scan by the side does not. -/
example :
    (getEdgeEntries joinedLmdb 3 (some ⟨5, 1, 3⟩) (some ⟨5, 1, 1⟩) none).map
      (List.map (·.address)) = .ok [] ∧
    (getEdgeEntries joinedLmdb 3 (some ⟨5, 1, 3⟩) none none).map (List.map fun f =>
      (f.address, (resolve f.address.context (f.builder.pair?.getD {}).left).toOption))
        = .ok [(⟨5, 1, 4⟩, some ⟨5, 1, 1⟩)] := by
  constructor
  · decide +kernel
  · decide +kernel

end Lmdb

end Gink
