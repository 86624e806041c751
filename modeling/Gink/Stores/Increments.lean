/-
  Gink.Stores.Increments — what the entries of an accumulator add up to.

  The running total is checked against `billionthsOf`, the sum over the entries that a store
  has taken in.  For a read as of a time the entries have to be found again among the
  placements: `Holds` says that those of the accumulator are the rows there, and
  `Holds.sum` that the sum over the rows is the sum over the entries.
-/
import Gink.Lmdb.History

namespace Gink

/-! ## §1. Sums over changes. -/

/-- What the change adds to the accumulator. -/
def Op.addsTo (acc : Muid) (op : Op) : Int :=
  match op.change with
  | .entry builder =>
      if builder.behavior = .accumulator ∧
          (Placement.fromBuilder builder op.info op.offset).toOption.map (·.container) = some acc
      then (integerOf builder).toOption.getD 0 else 0
  | _ => 0

/-- The sum of the integers of the entries for the accumulator. -/
def billionthsOf (acc : Muid) (ops : List Op) : Int := (ops.map (Op.addsTo acc)).sum

theorem billionthsOf_append (acc : Muid) (ops ops' : List Op) :
    billionthsOf acc (ops ++ ops') = billionthsOf acc ops + billionthsOf acc ops' := by
  unfold billionthsOf
  rw [List.map_append, List.sum_append]

/-- The order of the entries is immaterial to that. -/
theorem billionthsOf_perm (acc : Muid) {ops ops' : List Op} (h : ops.Perm ops') :
    billionthsOf acc ops = billionthsOf acc ops' := (h.map _).sum_eq

/-- The changes with timestamp at most `t`. -/
def upTo (t : Int) (ops : List Op) : List Op :=
  ops.filter fun op => decide ((op.info.timestamp.val : Int) ≤ t)

theorem addsTo_entry {acc : Muid} {builder : EntryBuilder} {info : BundleInfo} {offset : Nat}
    {placement : Placement} (hp : Placement.fromBuilder builder info offset = .ok placement) :
    Op.addsTo acc ⟨info, offset, .entry builder⟩ =
      if builder.behavior = .accumulator ∧ placement.container = acc
      then (integerOf builder).toOption.getD 0 else 0 := by
  simp only [Op.addsTo, hp, Except.toOption, Option.map_some, Option.some.injEq]

/-- The running total is what the entries add up to. -/
def Totals (acc : Muid) (ops : List Op) (totals : Table Bytes Int) : Prop :=
  (totals.get? acc.toBytes).getD 0 = billionthsOf acc ops

/-- A change that adds nothing leaves it alone. -/
theorem Totals.other {acc : Muid} {ops : List Op} {totals : Table Bytes Int} {op : Op}
    (h : Totals acc ops totals) (hop : Op.addsTo acc op = 0) : Totals acc (ops ++ [op]) totals := by
  unfold Totals at h ⊢
  rw [h, billionthsOf_append]
  show _ = _ + (Op.addsTo acc op + 0)
  rw [hop, add_zero, add_zero]

/-- An entry adds its integer, if it is an accumulator entry for the accumulator. -/
theorem Totals.entry {acc : Muid} {ops : List Op} {totals totals' : Table Bytes Int}
    {builder : EntryBuilder} {info : BundleInfo} {offset : Nat} {placement : Placement}
    (h : Totals acc ops totals)
    (hp : Placement.fromBuilder builder info offset = .ok placement)
    (hget : (totals'.get? acc.toBytes).getD 0 = (totals.get? acc.toBytes).getD 0 +
      if builder.behavior = .accumulator ∧ placement.container = acc
      then (integerOf builder).toOption.getD 0 else 0) :
    Totals acc (ops ++ [⟨info, offset, .entry builder⟩]) totals' := by
  unfold Totals at h ⊢
  rw [hget, h, billionthsOf_append]
  show _ = _ + (Op.addsTo acc _ + 0)
  rw [addsTo_entry hp, add_zero]

/-- Writing the sum of the total and an amount. -/
theorem get?_put_total (acc container : Muid) (totals : Table Bytes Int) (amount : Int) :
    ((totals.put container.toBytes ((totals.get? container.toBytes).getD 0 + amount)).get?
      acc.toBytes).getD 0
        = (totals.get? acc.toBytes).getD 0 + if container = acc then amount else 0 := by
  rw [Table.get?_put]
  by_cases hacc : container = acc
  · rw [if_pos (by rw [hacc]), if_pos hacc, hacc]
    rfl
  · rw [if_neg (mt Muid.toBytes_inj.mp (Ne.symm hacc)), if_neg hacc, add_zero]

/-! ## §2. Entries that are apart. -/

/-- The address of an entry. -/
def Op.entryMuid (op : Op) : Option Muid :=
  match op.change with
  | .entry _ => (changeMuid op.info op.offset).toOption
  | _ => none

/-- Different entries have different addresses. -/
def DistinctEntries (ops : List Op) : Prop := (ops.filterMap Op.entryMuid).Nodup

theorem DistinctEntries.left {ops ops' : List Op} (h : DistinctEntries (ops ++ ops')) :
    DistinctEntries ops := by
  unfold DistinctEntries at h ⊢
  rw [List.filterMap_append] at h
  exact h.of_append_left

/-- The last of them has an address of its own. -/
theorem DistinctEntries.last {ops : List Op} {op op' : Op} {m : Muid}
    (h : DistinctEntries (ops ++ [op])) (hop : Op.entryMuid op = some m) (hop' : op' ∈ ops) :
    Op.entryMuid op' ≠ some m := by
  intro hsame
  unfold DistinctEntries at h
  rw [List.filterMap_append, List.nodup_append] at h
  exact h.2.2 m (List.mem_filterMap.mpr ⟨op', hop', hsame⟩) m
    (List.mem_filterMap.mpr ⟨op, List.mem_singleton_self op, hop⟩) rfl

/-- The accumulator is written to by accumulator entries, and nothing is moved to it. -/
def Op.OnlyAdds (acc : Muid) (op : Op) : Prop :=
  match op.change with
  | .entry builder => ∀ placement, Placement.fromBuilder builder op.info op.offset = .ok placement →
      placement.container = acc → builder.behavior = .accumulator
  | .movement builder => resolve op.info.context builder.container ≠ .ok acc
  | _ => True

/-! ## §3. The rows of an accumulator. -/

/-- The timestamp in a placement key. -/
def placedAt (key : Bytes) : Int :=
  match Muid.fromBytes (Placement.placerSlice key) with
  | .ok placer => placer.timeField.val
  | .error _ => 0

theorem placedAt_of_toBytes {p : Placement} {bytes : Bytes} (h : p.toBytes = .ok bytes) :
    placedAt bytes = p.placer.timeField.val := by
  unfold placedAt
  rw [Placement.placer_of_toBytes h, Muid.fromBytes_toBytes]

/-- The slices of the key of an accumulator entry, which has nothing in the middle. -/
theorem accumulator_slices (acc placer : Muid) {expiry : Bytes} (h : expiry.length = 8) :
    let key := acc.toBytes ++ (placer.toBytes ++ expiry)
    key.take 16 = acc.toBytes ∧ Placement.middleSlice key = [] ∧
      Placement.placerSlice key = placer.toBytes ∧ Placement.expirySlice key = expiry := by
  have hslices := @Placement.slices_append _ [] _ _ (Muid.length_toBytes acc)
    (Muid.length_toBytes placer) h
  rw [List.append_nil, List.append_assoc] at hslices
  exact hslices

theorem placedAt_accumulator (acc placer : Muid) {expiry : Bytes} (h : expiry.length = 8) :
    placedAt (acc.toBytes ++ (placer.toBytes ++ expiry)) = placer.timeField.val := by
  unfold placedAt
  rw [(accumulator_slices acc placer h).2.2.1, Muid.fromBytes_toBytes]

/-- A packed placement starts with the address of its container and of no other. -/
theorem isPrefixOf_toBytes {p : Placement} {bytes : Bytes} (h : p.toBytes = .ok bytes)
    (acc : Muid) : acc.toBytes.isPrefixOf bytes = true ↔ p.container = acc := by
  rw [List.isPrefixOf_iff_prefix]
  constructor
  · exact fun hpre => (Lmdb.container_of_head h hpre).symm
  · rintro rfl
    obtain ⟨middle, expiry, -, -, rfl⟩ := Placement.toBytes_eq_ok h
    rw [List.append_assoc, List.append_assoc]
    exact List.prefix_append _ _

section
variable {V : Type} [LinearOrder V] {address : Muid → V} {acc : Muid} {ops : List Op}
  {entries : Table V EntryBuilder} {placements : Table Bytes V}

/-- The integer of the entry that a row leads to. -/
def amountAt (entries : Table V EntryBuilder) (row : Bytes × V) : Int :=
  ((entries.get? row.2).bind fun builder => (integerOf builder).toOption).getD 0

/-- The rows of the accumulator are its entries. -/
structure Holds (address : Muid → V) (acc : Muid) (ops : List Op) (entries : Table V EntryBuilder)
    (placements : Table Bytes V) : Prop where
  packed : ∀ op ∈ ops, ∀ builder, op.change = .entry builder →
    ∃ placement bytes, Lmdb.Op.placed op = some (builder, placement, bytes)
  counted : ∀ op ∈ ops, ∀ builder placement bytes,
    Lmdb.Op.placed op = some (builder, placement, bytes) → placement.container = acc →
      builder.behavior = .accumulator ∧ ∃ amount, integerOf builder = .ok amount
  stored : ∀ op ∈ ops, ∀ builder placement bytes,
    Lmdb.Op.placed op = some (builder, placement, bytes) →
      entries.get? (address placement.placer) = some builder
  rows : ∀ row, acc.toBytes.isPrefixOf row.1 = true → (row ∈ placements.rows ↔
    ∃ op ∈ ops, ∃ builder placement bytes,
      Lmdb.Op.placed op = some (builder, placement, bytes) ∧
        row = (bytes, address placement.placer))

/-- Nothing has been taken in yet. -/
theorem Holds.start (address : Muid → V) (acc : Muid) : Holds address acc [] ∅ ∅ :=
  ⟨by simp, by simp, by simp, by simp⟩

/-- The address of a placed entry. -/
theorem entryMuid_of_placed {op : Op} {builder : EntryBuilder} {placement : Placement}
    {bytes : Bytes} (h : Lmdb.Op.placed op = some (builder, placement, bytes)) :
    Op.entryMuid op = some placement.placer := by
  have hmuid := Lmdb.placed_placer h
  have hchange := (Lmdb.placed_eq_some.mp h).1
  simp only [Op.entryMuid, hchange, hmuid, Except.toOption]

/-- **An entry** adds its rows. -/
theorem Holds.entry {op : Op} {builder : EntryBuilder} {placement : Placement} {bytes : Bytes}
    (h : Holds address acc ops entries placements) (haddress : Function.Injective address)
    (hdistinct : DistinctEntries (ops ++ [op]))
    (hplaced : Lmdb.Op.placed op = some (builder, placement, bytes))
    (hcounted : placement.container = acc →
      builder.behavior = .accumulator ∧ ∃ amount, integerOf builder = .ok amount) :
    Holds address acc (ops ++ [op]) (entries.put (address placement.placer) builder)
      (placements.put bytes (address placement.placer)) := by
  obtain ⟨hchange, -, hbytes⟩ := Lmdb.placed_eq_some.mp hplaced
  refine ⟨?_, ?_, ?_, ?_⟩
  · intro op' hop' builder' hchange'
    rcases List.mem_append.mp hop' with hop' | hop'
    · exact h.packed op' hop' builder' hchange'
    · rw [List.mem_singleton.mp hop', hchange] at hchange'
      rw [List.mem_singleton.mp hop', ← ChangeBuilder.entry.inj hchange']
      exact ⟨placement, bytes, hplaced⟩
  · intro op' hop' builder' placement' bytes' hplaced' hcontainer
    rcases List.mem_append.mp hop' with hop' | hop'
    · exact h.counted op' hop' builder' placement' bytes' hplaced' hcontainer
    · rw [List.mem_singleton.mp hop', hplaced, Option.some.injEq, Prod.mk.injEq,
        Prod.mk.injEq] at hplaced'
      obtain ⟨rfl, rfl, rfl⟩ := hplaced'
      exact hcounted hcontainer
  · intro op' hop' builder' placement' bytes' hplaced'
    rw [Table.get?_put]
    rcases List.mem_append.mp hop' with hop' | hop'
    · -- an earlier entry has another address
      have hne : placement'.placer ≠ placement.placer := by
        intro hsame
        have hmuid := entryMuid_of_placed hplaced'
        rw [hsame] at hmuid
        exact hdistinct.last (entryMuid_of_placed hplaced) hop' hmuid
      rw [if_neg (haddress.ne hne)]
      exact h.stored op' hop' builder' placement' bytes' hplaced'
    · rw [List.mem_singleton.mp hop', hplaced, Option.some.injEq, Prod.mk.injEq,
        Prod.mk.injEq] at hplaced'
      obtain ⟨rfl, rfl, rfl⟩ := hplaced'
      rw [if_pos rfl]
  · intro row hrow
    rw [Table.mem_rows_put]
    constructor
    · rintro (rfl | ⟨-, hold⟩)
      · exact ⟨op, List.mem_append_right _ (List.mem_singleton_self op), builder, placement, bytes,
          hplaced, rfl⟩
      · obtain ⟨op', hop', hrest⟩ := (h.rows row hrow).mp hold
        exact ⟨op', List.mem_append_left _ hop', hrest⟩
    · rintro ⟨op', hop', builder', placement', bytes', hplaced', rfl⟩
      rcases List.mem_append.mp hop' with hop' | hop'
      · by_cases hkey : bytes' = bytes
        · -- the key spells the placer
          have hplacer := Placement.placer_of_toBytes hbytes
          rw [← hkey, Placement.placer_of_toBytes (Lmdb.placed_eq_some.mp hplaced').2.2,
            Muid.toBytes_inj] at hplacer
          exact Or.inl (by rw [hkey, hplacer])
        · exact Or.inr ⟨hkey, (h.rows _ hrow).mpr
            ⟨op', hop', builder', placement', bytes', hplaced', rfl⟩⟩
      · rw [List.mem_singleton.mp hop', hplaced, Option.some.injEq, Prod.mk.injEq,
          Prod.mk.injEq] at hplaced'
        obtain ⟨rfl, rfl, rfl⟩ := hplaced'
        exact Or.inl rfl

/-- **Another change** adds none. -/
theorem Holds.other {op : Op} (h : Holds address acc ops entries placements)
    (hop : ∀ builder, op.change ≠ .entry builder) :
    Holds address acc (ops ++ [op]) entries placements := by
  have hnone : ∀ {p}, Lmdb.Op.placed op ≠ some p := by
    rintro ⟨builder, placement, bytes⟩ hplaced
    exact hop builder (Lmdb.placed_eq_some.mp hplaced).1
  have hold : ∀ {op' p}, op' ∈ ops ++ [op] → Lmdb.Op.placed op' = some p → op' ∈ ops := by
    intro op' p hop' hplaced
    rcases List.mem_append.mp hop' with hop' | hop'
    · exact hop'
    · rw [List.mem_singleton.mp hop'] at hplaced
      exact absurd hplaced hnone
  refine ⟨?_, ?_, ?_, ?_⟩
  · intro op' hop' builder hchange
    rcases List.mem_append.mp hop' with hop' | hop'
    · exact h.packed op' hop' builder hchange
    · rw [List.mem_singleton.mp hop'] at hchange
      exact absurd hchange (hop builder)
  · exact fun op' hop' builder placement bytes hplaced =>
      h.counted op' (hold hop' hplaced) builder placement bytes hplaced
  · exact fun op' hop' builder placement bytes hplaced =>
      h.stored op' (hold hop' hplaced) builder placement bytes hplaced
  · intro row hrow
    rw [h.rows row hrow]
    constructor
    · rintro ⟨op', hop', hrest⟩
      exact ⟨op', List.mem_append_left _ hop', hrest⟩
    · rintro ⟨op', hop', builder, placement, bytes, hplaced, heq⟩
      exact ⟨op', hold hop' hplaced, builder, placement, bytes, hplaced, heq⟩

/-- **A row of another container** is none of the accumulator. -/
theorem Holds.elsewhere {key : Bytes} {v : V} (h : Holds address acc ops entries placements)
    (hkey : acc.toBytes.isPrefixOf key ≠ true) :
    Holds address acc ops entries (placements.put key v) := by
  refine ⟨h.packed, h.counted, h.stored, ?_⟩
  intro row hrow
  have hne : row.1 ≠ key := by
    intro hsame
    rw [hsame] at hrow
    exact hkey hrow
  rw [Table.mem_rows_put, ← h.rows row hrow]
  constructor
  · rintro (rfl | ⟨-, hold⟩)
    · exact absurd rfl hne
    · exact hold
  · exact fun hold => Or.inr ⟨hne, hold⟩

/-- **A row of the accumulator** is that of one of its entries. -/
theorem Holds.row {row : Bytes × V} (h : Holds address acc ops entries placements)
    (hrow : row ∈ placements.rows) (hpre : acc.toBytes.isPrefixOf row.1 = true) :
    ∃ op ∈ ops, ∃ builder placement expiry amount, op.change = .entry builder ∧
      Placement.fromBuilder builder op.info op.offset = .ok placement ∧
      placement.container = acc ∧ encodeMuts (placement.expiry.getD 0) = .ok expiry ∧
      row.1 = acc.toBytes ++ (placement.placer.toBytes ++ expiry) ∧
      entries.get? row.2 = some builder ∧ builder.behavior = .accumulator ∧
      integerOf builder = .ok amount := by
  obtain ⟨op, hop, builder, placement, bytes, hplaced, rfl⟩ := (h.rows row hpre).mp hrow
  obtain ⟨hchange, hp, hbytes⟩ := Lmdb.placed_eq_some.mp hplaced
  have hcontainer := (isPrefixOf_toBytes hbytes acc).mp hpre
  obtain ⟨hbehavior, amount, hamount⟩ := h.counted op hop _ _ _ hplaced hcontainer
  obtain ⟨-, -, hmiddle, -⟩ := Placement.fromBuilder_eq_ok hp
  obtain ⟨middle, expiry, hmiddleBytes, hexpiry, rfl⟩ := Placement.toBytes_eq_ok hbytes
  refine ⟨op, hop, builder, placement, expiry, amount, hchange, hp, hcontainer, hexpiry, ?_,
    h.stored op hop _ _ _ hplaced, hbehavior, hamount⟩
  -- an accumulator entry has nothing in the middle of its key
  have hnone : placement.middle = .none := by
    unfold Placement.middleOf at hmiddle
    rw [hbehavior] at hmiddle
    exact (Except.ok.inj hmiddle).symm
  rw [hnone] at hmiddleBytes
  obtain rfl : ([] : Bytes) = middle := Except.ok.inj hmiddleBytes
  rw [hcontainer, List.append_nil, List.append_assoc]

/-! ## §4. Summing the rows up. -/

/-- The row of an entry of the accumulator. -/
def Op.rowIn (address : Muid → V) (acc : Muid) (op : Op) : Option (Bytes × V) :=
  (Lmdb.Op.placed op).bind fun p =>
    if p.2.1.container = acc then some (p.2.2, address p.2.1.placer) else none

omit [LinearOrder V] in
theorem rowIn_eq_some {op : Op} {row : Bytes × V} :
    Op.rowIn address acc op = some row ↔ ∃ builder placement bytes,
      Lmdb.Op.placed op = some (builder, placement, bytes) ∧ placement.container = acc ∧
        row = (bytes, address placement.placer) := by
  unfold Op.rowIn
  rw [Option.bind_eq_some_iff]
  constructor
  · rintro ⟨⟨builder, placement, bytes⟩, hplaced, hrow⟩
    simp only [Option.ite_none_right_eq_some, Option.some.injEq] at hrow
    exact ⟨builder, placement, bytes, hplaced, hrow.1, hrow.2.symm⟩
  · rintro ⟨builder, placement, bytes, hplaced, hcontainer, rfl⟩
    exact ⟨_, hplaced, if_pos hcontainer⟩

/-- The rows of the accumulator, in the order of the entries. -/
theorem Holds.rows_perm (h : Holds address acc ops entries placements)
    (hdistinct : DistinctEntries ops) :
    (placements.rowsWhere (acc.toBytes.isPrefixOf ·)).Perm
      (ops.filterMap (Op.rowIn address acc)) := by
  have hnodup : (placements.rowsWhere (acc.toBytes.isPrefixOf ·)).Nodup :=
    placements.rows_nodup.filter _
  refine (List.perm_ext_iff_of_nodup hnodup ?_).mpr ?_
  · -- entries with the same row have the same address
    refine List.pairwise_filterMap.mpr ((List.pairwise_filterMap.mp hdistinct).imp ?_)
    intro op op' hne row hrow row' hrow' heq
    obtain ⟨builder, placement, bytes, hplaced, -, rfl⟩ := rowIn_eq_some.mp hrow
    obtain ⟨builder', placement', bytes', hplaced', -, rfl⟩ := rowIn_eq_some.mp hrow'
    have hplacer := Placement.placer_of_toBytes (Lmdb.placed_eq_some.mp hplaced).2.2
    rw [show bytes = bytes' from congrArg Prod.fst heq,
      Placement.placer_of_toBytes (Lmdb.placed_eq_some.mp hplaced').2.2,
      Muid.toBytes_inj] at hplacer
    exact hne _ (entryMuid_of_placed hplaced) _ (entryMuid_of_placed hplaced') hplacer.symm
  · intro row
    rw [Table.mem_rowsWhere, List.mem_filterMap]
    simp only [rowIn_eq_some]
    constructor
    · rintro ⟨hrow, hpre⟩
      obtain ⟨op, hop, builder, placement, bytes, hplaced, rfl⟩ := (h.rows row hpre).mp hrow
      exact ⟨op, hop, builder, placement, bytes, hplaced,
        (isPrefixOf_toBytes (Lmdb.placed_eq_some.mp hplaced).2.2 acc).mp hpre, rfl⟩
    · rintro ⟨op, hop, builder, placement, bytes, hplaced, hcontainer, rfl⟩
      have hpre := (isPrefixOf_toBytes (Lmdb.placed_eq_some.mp hplaced).2.2 acc).mpr hcontainer
      exact ⟨(h.rows _ hpre).mpr ⟨op, hop, builder, placement, bytes, hplaced, rfl⟩, hpre⟩

/-- What the row of an entry holds. -/
theorem Holds.amount (h : Holds address acc ops entries placements) {op : Op} (hop : op ∈ ops) :
    Op.addsTo acc op = ((Op.rowIn address acc op).map (amountAt entries)).getD 0 ∧
      ∀ row, Op.rowIn address acc op = some row → placedAt row.1 = op.info.timestamp.val := by
  cases hrow : Op.rowIn address acc op with
  | some row =>
      obtain ⟨builder, placement, bytes, hplaced, hcontainer, rfl⟩ := rowIn_eq_some.mp hrow
      obtain ⟨hchange, hp, hbytes⟩ := Lmdb.placed_eq_some.mp hplaced
      refine ⟨?_, ?_⟩
      · have hbehavior := (h.counted op hop builder placement bytes hplaced hcontainer).1
        obtain ⟨info, offset, change⟩ := op
        obtain rfl : change = .entry builder := hchange
        rw [addsTo_entry hp, if_pos ⟨hbehavior, hcontainer⟩, Option.map_some, Option.getD_some]
        unfold amountAt
        rw [h.stored _ hop builder placement bytes hplaced]
        rfl
      · intro row' heq
        rw [← Option.some.inj heq, placedAt_of_toBytes hbytes,
          (changeMuid_eq_ok (Lmdb.placed_placer hplaced)).1]
  | none =>
      refine ⟨?_, fun row heq => by cases heq⟩
      obtain ⟨info, offset, change⟩ := op
      cases change with
      | entry builder =>
          obtain ⟨placement, bytes, hplaced⟩ := h.packed _ hop builder rfl
          obtain ⟨-, hp, -⟩ := Lmdb.placed_eq_some.mp hplaced
          rw [addsTo_entry hp, if_neg]
          · rfl
          · rintro ⟨-, hcontainer⟩
            have hsome : Op.rowIn address acc _ = some (bytes, address placement.placer) :=
              rowIn_eq_some.mpr ⟨builder, placement, bytes, hplaced, hcontainer, rfl⟩
            rw [hrow] at hsome
            cases hsome
      | _ => rfl

/-- **The sum over the rows is the sum over the entries.** -/
theorem Holds.sum (h : Holds address acc ops entries placements) (hdistinct : DistinctEntries ops)
    (t : Int) :
    (((placements.rowsWhere (acc.toBytes.isPrefixOf ·)).filter
      (fun row => decide (placedAt row.1 ≤ t))).map (amountAt entries)).sum
        = billionthsOf acc (upTo t ops) := by
  rw [(((h.rows_perm hdistinct).filter _).map _).sum_eq]
  have hamount : ∀ op ∈ ops, Op.addsTo acc op
      = ((Op.rowIn address acc op).map (amountAt entries)).getD 0 ∧
        ∀ row, Op.rowIn address acc op = some row → placedAt row.1 = op.info.timestamp.val :=
    fun op hop => h.amount hop
  clear h hdistinct
  induction ops with
  | nil => rfl
  | cons op rest ih =>
      have hrest := ih fun op' hop' => hamount op' (List.mem_cons_of_mem _ hop')
      obtain ⟨hadds, hplacedAt⟩ := hamount op List.mem_cons_self
      rw [List.filterMap_cons]
      unfold upTo billionthsOf at hrest ⊢
      rw [List.filter_cons]
      cases hrow : Op.rowIn address acc op with
      | none =>
          rw [hrow] at hadds
          simp only
          split_ifs
          · rw [List.map_cons, List.sum_cons, hrest, hadds]
            exact (zero_add _).symm
          · exact hrest
      | some row =>
          rw [hrow] at hadds
          simp only
          rw [List.filter_cons, hplacedAt row hrow]
          split_ifs
          · rw [List.map_cons, List.map_cons, List.sum_cons, List.sum_cons, hrest, hadds]
            rfl
          · exact hrest

end

end Gink
