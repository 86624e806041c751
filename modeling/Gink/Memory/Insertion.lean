/-
  Gink.Memory.Insertion — what adding an entry to a sequence does to what `MemoryStore` lists
  of it (memory_store.py).

  The entry gets one row among those of the container; all that is read of the other rows
  stays as it was.
-/
import Gink.Memory.Aside
import Gink.Memory.Slices
import Gink.Queue.Insertion

namespace Gink

namespace Memory

/-- Nothing in the dictionaries speaks of the muid. -/
structure Unheard (c : Contents) (container entryMuid : Muid) : Prop where
  rows : ∀ row ∈ c.placements.rows, row.2 ≠ entryMuid ∧
    Placement.placerSlice row.1 ≠ entryMuid.toBytes
  unremoved : lastRemoval c container entryMuid = none

section
variable {c : Contents} {container entryMuid : Muid} {contains : Option Contains}
  {retaining : Bool} {now : Int} {info : BundleInfo} {offset : Nat} {p : Int}

/-- The placement of the entry. -/
theorem placement_of_sequenceEntry (hmuid : changeMuid info offset = .ok entryMuid)
    (hcontainer : resolve entryMuid.context container.putInto = .ok container) :
    Placement.fromBuilder (sequenceEntry container contains p) info offset =
      .ok ⟨container, .queue (orElse p entryMuid.timestamp), entryMuid, none⟩ := by
  unfold Placement.fromBuilder
  rw [hmuid]
  show (resolve entryMuid.context container.putInto >>= fun container => _) = _
  rw [hcontainer]
  rfl

/-- **Adding the entry** writes its three rows. -/
theorem addEntry_sequence (hmuid : changeMuid info offset = .ok entryMuid)
    (hcontainer : resolve entryMuid.context container.putInto = .ok container) {key : Bytes}
    (hkey : (Placement.mk container (.queue (orElse p entryMuid.timestamp)) entryMuid none).toBytes =
      .ok key) :
    addEntry retaining now info offset (sequenceEntry container contains p) c = .ok () { c with
      entries := c.entries.put entryMuid (sequenceEntry container contains p)
      placements := c.placements.put key entryMuid
      locations := c.locations.put (toLex (entryMuid, entryMuid)) (some key) } := by
  unfold addEntry
  rw [placement_of_sequenceEntry hmuid hcontainer, Action.of_ok_bind]
  show (Action.of (Placement.toBytes _) >>= fun placementBytes => _) c = _
  rw [hkey, Action.of_ok_bind]
  -- it names nothing, describes nothing and replaces nothing
  have hname : addName info (sequenceEntry container contains p) container entryMuid = pure () := by
    unfold addName
    split_ifs
    · cases (sequenceEntry container contains p).value? <;> rfl
    · rfl
  show (storeEntry (sequenceEntry container contains p) _ key >>= fun _ =>
    addName info (sequenceEntry container contains p) container entryMuid >>= fun _ =>
      pure ()) c = _
  rw [hname]
  rfl

/-- What the dictionaries hold after the entry was added. -/
def withEntry (c : Contents) (entryMuid : Muid) (builder : EntryBuilder) (key : Bytes) : Contents :=
  { c with
    entries := c.entries.put entryMuid builder
    placements := c.placements.put key entryMuid
    locations := c.locations.put (toLex (entryMuid, entryMuid)) (some key) }

/-- The list after the entry was added, if that did not raise. -/
def listedAfter (c : Contents) (retaining : Bool) (now : Int) (info : BundleInfo) (offset : Nat)
    (container : Muid) (contains : Option Contains) (asOf effective : Int) :
    Except Error (List PositionedEntry) :=
  match addEntry retaining now info offset (sequenceEntry container contains effective) c with
  | .ok _ c' => getOrderedEntries c' container asOf
  | .error e _ => .error e

variable {asOf clearanceTime : Int}

/-- What is read of another row. -/
theorem read_other {builder : EntryBuilder} {key : Bytes} {row : Bytes × Muid}
    (hne : row.2 ≠ entryMuid) :
    orderedShows (withEntry c entryMuid builder key) container asOf clearanceTime row =
        orderedShows c container asOf clearanceTime row ∧
      orderedFetch (withEntry c entryMuid builder key) row = orderedFetch c row := by
  have hread : readEntry (withEntry c entryMuid builder key) row.2 = readEntry c row.2 := by
    unfold readEntry withEntry
    rw [Table.get?_put_of_ne _ _ hne]
  unfold orderedShows orderedFetch
  rw [hread]
  exact ⟨rfl, rfl⟩

/-- What is read of the entry's own row. -/
theorem read_own {builder : EntryBuilder} {key : Bytes} {q : Int}
    (hunremoved : lastRemoval c container entryMuid = none)
    (hkey : Placement.fromBytes key .sequence = .ok ⟨container, .queue q, entryMuid, none⟩)
    (hplaced : clearanceTime ≤ entryMuid.timestamp ∧ entryMuid.timestamp < asOf) :
    Paged.Gives (orderedShows (withEntry c entryMuid builder key) container asOf clearanceTime)
      (orderedFetch (withEntry c entryMuid builder key)) (key, entryMuid)
      (some ⟨q, entryMuid, entryMuid, builder⟩) := by
  have hread : readEntry (withEntry c entryMuid builder key) entryMuid = .ok builder := by
    unfold readEntry withEntry
    rw [Table.get?_put_self]
    rfl
  have hunmoved : removedBy (withEntry c entryMuid builder key) container entryMuid asOf =
      .ok false := by
    have hnone : lastRemoval (withEntry c entryMuid builder key) container entryMuid = none :=
      hunremoved
    unfold removedBy
    rw [hnone]
  have htime : ¬ ((Placement.mk container (.queue q) entryMuid none).placedTime ≥ asOf ∨
      (Placement.mk container (.queue q) entryMuid none).placedTime < clearanceTime) :=
    not_or.mpr ⟨not_le.mpr hplaced.2, not_lt.mpr hplaced.1⟩
  constructor
  · have hshows := @orderedShows_eq (withEntry c entryMuid builder key) container asOf clearanceTime
      (key, entryMuid) _ _ hread hkey
    rw [if_neg htime] at hshows
    simp only [Option.any_none, Bool.false_eq_true, if_false, hunmoved] at hshows
    exact hshows
  · exact @orderedFetch_eq (withEntry c entryMuid builder key) (key, entryMuid) _ _ hread hkey

/-- What a row that is shown says of its placer. -/
theorem shown_placer {row : Bytes × Muid} {entry : PositionedEntry}
    (h : Paged.shown (orderedShows c container asOf clearanceTime) (orderedFetch c) row =
      some entry) :
    Placement.placerSlice row.1 = entry.positioner.toBytes ∧
      (clearanceTime ≤ entry.positioner.timestamp ∧ entry.positioner.timestamp < asOf) ∧
      entry.entryMuid = row.2 := by
  obtain ⟨hshows, hfetch⟩ := Paged.gives_of_shown h
  have hread := hshows
  unfold orderedShows at hread
  obtain ⟨builder, hentry, hread⟩ := bind_eq_ok.mp hread
  obtain ⟨placement, hplacement, -⟩ := bind_eq_ok.mp hread
  rw [orderedShows_eq hentry hplacement] at hshows
  rw [orderedFetch_eq hentry hplacement] at hfetch
  obtain ⟨position, -, hfetch⟩ := map_eq_ok.mp hfetch
  rw [← hfetch]
  refine ⟨?_, ?_, rfl⟩
  · unfold Placement.fromBytes at hplacement
    obtain ⟨placer, hplacer, hplacement⟩ := bind_eq_ok.mp hplacement
    obtain ⟨_, -, hplacement⟩ := bind_eq_ok.mp hplacement
    obtain ⟨_, -, hplacement⟩ := bind_eq_ok.mp hplacement
    obtain ⟨_, -, hplacement⟩ := bind_eq_ok.mp hplacement
    rw [← pure_eq_ok.mp hplacement]
    exact (Muid.toBytes_of_fromBytes hplacer).symm
  · by_contra hout
    have hskipped : placement.placedTime ≥ asOf ∨ placement.placedTime < clearanceTime := by
      show placement.placer.timestamp ≥ asOf ∨ placement.placer.timestamp < clearanceTime
      have hout : ¬ (clearanceTime ≤ placement.placer.timestamp ∧
        placement.placer.timestamp < asOf) := hout
      omega
    rw [if_pos hskipped] at hshows
    cases hshows

variable {l : List PositionedEntry}

/-- The rows that a list was read from. -/
theorem getOrderedEntries_rows (h : getOrderedEntries c container asOf = .ok l) :
    ∃ clearanceTime upper, timeOfPriorClear c container asOf = .ok clearanceTime ∧
      encodeMuts asOf = .ok upper ∧ asOf < 2 ^ 52 ∧
      Paged.read (orderedShows c container asOf clearanceTime) (orderedFetch c)
        (irange c.placements (container.toBytes ++ Bytes.beEncode 8 0)
          (container.toBytes ++ upper)) none 0 = .ok l := by
  unfold getOrderedEntries at h
  obtain ⟨clearanceTime, hclear, h⟩ := bind_eq_ok.mp h
  obtain ⟨zero, hzero, h⟩ := bind_eq_ok.mp h
  obtain ⟨upper, hupper, h⟩ := bind_eq_ok.mp h
  have hasOf : asOf < 2 ^ 52 := by
    unfold timeOfPriorClear at hclear
    obtain ⟨instant, hinstant, -⟩ := bind_eq_ok.mp hclear
    exact (Muid.instant_eq_ok.mp hinstant).1.2
  have hfrom : zero = Bytes.beEncode 8 0 := by
    have hseekable : Seekable 0 := Or.inl (by norm_num)
    rw [hseekable.packed] at hzero
    exact (Except.ok.inj hzero).symm
  simp only [Bool.false_eq_true, if_false, orderedLoop_eq, hfrom] at h
  exact ⟨clearanceTime, upper, hclear, hupper, hasOf, h⟩

/-- A row of the range that is shown. -/
theorem shown_of_irange {upper : Bytes} (hupper : encodeMuts asOf = .ok upper) (hasOf : asOf < 2 ^ 52)
    {row : Bytes × Muid} {entry : PositionedEntry}
    (hrow : row ∈ irange c.placements (container.toBytes ++ Bytes.beEncode 8 0)
      (container.toBytes ++ upper))
    (h : Paged.shown (orderedShows c container asOf clearanceTime) (orderedFetch c) row =
      some entry) : Lies container row.1 ∧ entry.position = positionOf row.1 := by
  have hrange := (List.mem_filter.mp hrow).2
  simp only [Bool.and_eq_true, decide_eq_true_eq] at hrange
  exact shown_position hrange.1 hrange.2 hasOf hupper h

/-- **What is listed** stands in the order of the positions. -/
theorem listed_sorted (h : getOrderedEntries c container asOf = .ok l) :
    l.Pairwise (fun a b => a.position ≤ b.position) ∧ ∀ x ∈ l, 0 ≤ x.position := by
  obtain ⟨clearanceTime, upper, -, hupper, hasOf, hread⟩ := getOrderedEntries_rows h
  have hl := (Except.ok.inj (hread.symm.trans (Paged.read_eq (Paged.read_all hread)))).trans
    List.drop_zero
  rw [hl]
  constructor
  · refine List.pairwise_filterMap.mpr ?_
    refine (List.Pairwise.and_mem.mp (c.placements.sorted.filter _)).imp ?_
    intro row row' hrows entry hentry entry' hentry'
    obtain ⟨hrow, hrow', hlt⟩ := hrows
    obtain ⟨hlies, hposition⟩ := shown_of_irange hupper hasOf hrow hentry
    obtain ⟨hlies', hposition'⟩ := shown_of_irange hupper hasOf hrow' hentry'
    have hle := hlies.position_le hlies' hlt
    omega
  · intro x hx
    obtain ⟨row, hrow, hshown⟩ := List.mem_filterMap.mp hx
    rw [(shown_of_irange hupper hasOf hrow hshown).2]
    omega

/-- **The list with the entry**, whose position is in the past. -/
theorem listed_withEntry (h : getOrderedEntries c container asOf = .ok l) (hne : l ≠ [])
    (hunheard : Unheard c container entryMuid) (hlater : ∀ x ∈ l, x.positioner < entryMuid)
    (htime : 0 < entryMuid.timestamp ∧ entryMuid.timestamp < asOf) {q : Int}
    (hq : 0 < q ∧ q < asOf) {key : Bytes} {builder : EntryBuilder}
    (hkey : Placement.fromBytes key .sequence = .ok ⟨container, .queue q, entryMuid, none⟩)
    (hlies : Lies container key) (hposition : (positionOf key : Int) = q)
    (hplacer : Placement.placerSlice key = entryMuid.toBytes) :
    ∃ before after e, l = before ++ after ∧ (e.entryMuid = entryMuid ∧ e.builder = builder) ∧
      (∀ x ∈ before, x.position ≤ q) ∧ (∀ x ∈ after, q < x.position) ∧
      getOrderedEntries (withEntry c entryMuid builder key) container asOf =
        .ok (before ++ e :: after) := by
  obtain ⟨clearanceTime, upper, hclear, hupper, hasOf, hread⟩ := getOrderedEntries_rows h
  have hseekable : Seekable asOf := Or.inl (by omega)
  have hupper' : upper = Bytes.beEncode 8 asOf.toNat := by
    rw [hseekable.packed] at hupper
    exact (Except.ok.inj hupper).symm
  have hnew : ∀ r ∈ c.placements.rows, r.1 ≠ key := by
    intro r hr heq
    exact (hunheard.rows r hr).2 (heq ▸ hplacer)
  have hinRange : (decide (container.toBytes ++ Bytes.beEncode 8 0 ≤ key) &&
      decide (key ≤ container.toBytes ++ upper)) = true := by
    rw [Bool.and_eq_true, decide_eq_true_eq, decide_eq_true_eq, hupper']
    refine ⟨(hlies.from_le_iff (by norm_num)).mpr (by omega), le_of_lt (not_le.mp ?_)⟩
    rw [hlies.from_le_iff hseekable.fits.2]
    omega
  obtain ⟨before, after, hsplit, hput, hbefore, hafter⟩ := c.placements.filter_put entryMuid hnew
    (fun r => decide (container.toBytes ++ Bytes.beEncode 8 0 ≤ r.1) &&
      decide (r.1 ≤ container.toBytes ++ upper)) hinRange
  have hrows : irange c.placements (container.toBytes ++ Bytes.beEncode 8 0)
      (container.toBytes ++ upper) = before ++ after := hsplit
  have hread' := hread
  rw [hrows] at hread'
  have hmem : ∀ r ∈ before ++ after, r ∈ c.placements.rows := by
    intro r hr
    rw [← hrows] at hr
    exact (List.mem_filter.mp hr).1
  -- what is shown was placed before, and not before the last clearance
  have hshown : ∀ r ∈ before ++ after, ∀ e, Paged.shown (orderedShows c container asOf clearanceTime)
      (orderedFetch c) r = some e → e ∈ l := by
    intro r hr e he
    have hl := (Except.ok.inj (hread.symm.trans (Paged.read_eq (Paged.read_all hread)))).trans
      List.drop_zero
    rw [hl, hrows]
    exact List.mem_filterMap.mpr ⟨r, hr, he⟩
  have hcleared : clearanceTime ≤ entryMuid.timestamp := by
    obtain ⟨x, hx⟩ := List.exists_mem_of_ne_nil l hne
    have hl := (Except.ok.inj (hread.symm.trans (Paged.read_eq (Paged.read_all hread)))).trans
      List.drop_zero
    rw [hl] at hx
    obtain ⟨r, hr, he⟩ := List.mem_filterMap.mp hx
    have hbefore := Muid.timestamp_le_of_le (hlater x (hl ▸ hx)).le htime.1.le
    exact (shown_placer he).2.1.1.trans hbefore
  have hordered : ∀ r ∈ before ++ after, ∀ e, Paged.shown
      (orderedShows c container asOf clearanceTime) (orderedFetch c) r = some e →
      (r.1 < key ↔ e.position ≤ q) := by
    intro r hr e he
    obtain ⟨hlies', hposition'⟩ := shown_of_irange hupper hasOf (hrows ▸ hr) he
    have hbytes : Placement.placerSlice r.1 < Placement.placerSlice key := by
      rw [(shown_placer he).1, hplacer, Muid.toBytes_lt_iff]
      exact hlater e (hshown r hr e he)
    rw [hlies'.lt_iff_position_le hlies hbytes]
    omega
  obtain ⟨hl, hread''⟩ := Paged.read_between hread'
    (fun r hr => read_other (hunheard.rows r (hmem r hr)).1)
    (@read_own c container entryMuid asOf clearanceTime builder key q hunheard.unremoved hkey
      ⟨hcleared, htime.2⟩)
  refine ⟨_, _, ⟨q, entryMuid, entryMuid, builder⟩, hl, ⟨rfl, rfl⟩, ?_, ?_, ?_⟩
  · intro x hx
    obtain ⟨r, hr, he⟩ := List.mem_filterMap.mp hx
    exact (hordered r (List.mem_append_left _ hr) x he).mp (hbefore r hr)
  · intro x hx
    obtain ⟨r, hr, he⟩ := List.mem_filterMap.mp hx
    have hnot := mt (hordered r (List.mem_append_right _ hr) x he).mpr (not_lt.mpr (hafter r hr).le)
    omega
  · have hclear' : timeOfPriorClear (withEntry c entryMuid builder key) container asOf =
        .ok clearanceTime := hclear
    have hzero : Seekable 0 := Or.inl (by norm_num)
    unfold getOrderedEntries
    rw [hclear', hzero.packed, hupper]
    show orderedLoop _ container asOf clearanceTime (irange (c.placements.put key entryMuid) _ _)
      none 0 = _
    have hput' : irange (c.placements.put key entryMuid) (container.toBytes ++ Bytes.beEncode 8 0)
        (container.toBytes ++ upper) = before ++ (key, entryMuid) :: after := hput
    rw [orderedLoop_eq, Int.toNat_zero, hput']
    exact hread''

/-- A list that is read after the entry was added is one with its row. -/
theorem listedAfter_eq_ok (hmuid : changeMuid info offset = .ok entryMuid)
    (hcontainer : resolve entryMuid.context container.putInto = .ok container)
    {listed : Except Error (List PositionedEntry)}
    (h : listedAfter c retaining now info offset container contains asOf p = listed) :
    (∃ key, (Placement.mk container (.queue (orElse p entryMuid.timestamp)) entryMuid none).toBytes =
        .ok key ∧
      listed = getOrderedEntries
        (withEntry c entryMuid (sequenceEntry container contains p) key) container asOf) ∨
    ∃ e, listed = .error e := by
  cases hkey : (Placement.mk container (.queue (orElse p entryMuid.timestamp)) entryMuid
      none).toBytes with
  | error e =>
      right
      have hadd : addEntry retaining now info offset (sequenceEntry container contains p) c =
          .error e c := by
        unfold addEntry
        rw [placement_of_sequenceEntry hmuid hcontainer, Action.of_ok_bind]
        show (Action.of (Placement.toBytes _) >>= fun placementBytes => _) c = _
        rw [hkey]
        rfl
      unfold listedAfter at h
      rw [hadd] at h
      exact ⟨e, h.symm⟩
  | ok key =>
      left
      unfold listedAfter at h
      rw [addEntry_sequence hmuid hcontainer hkey] at h
      exact ⟨key, rfl, h.symm⟩

/-- Behind the present no row is listed. -/
theorem not_listed_of_negative (hunheard : Unheard c container entryMuid) (hp : p < 0) {key : Bytes}
    {builder : EntryBuilder} (hkey : (Placement.mk container (.queue p) entryMuid none).toBytes =
      .ok key) {l' : List PositionedEntry}
    (h : getOrderedEntries (withEntry c entryMuid builder key) container asOf = .ok l') :
    ∀ x ∈ l', x.entryMuid ≠ entryMuid := by
  obtain ⟨clearanceTime, upper, -, hupper, hasOf, hread⟩ := getOrderedEntries_rows h
  have hl := (Except.ok.inj (hread.symm.trans (Paged.read_eq (Paged.read_all hread)))).trans
    List.drop_zero
  intro x hx
  rw [hl] at hx
  obtain ⟨row, hrow, hshown⟩ := List.mem_filterMap.mp hx
  rw [(shown_placer hshown).2.2]
  obtain ⟨hmem, hrange⟩ := List.mem_filter.mp hrow
  rcases Table.mem_rows_put.mp hmem with rfl | ⟨-, hold⟩
  · -- the bytes of a negative position sort behind those of any time
    have hasOfNonneg : 0 ≤ asOf := by
      have hafter := x.positioner.timestamp_ge
      have hbefore := (shown_placer hshown).2.1.2
      omega
    have hseekable : Seekable asOf := Or.inl ⟨hasOfNonneg, by omega⟩
    obtain ⟨hlies, hbehind⟩ := lies_of_negative hp hkey
    simp only [Bool.and_eq_true, decide_eq_true_eq] at hrange
    rw [hseekable.packed] at hupper
    rw [← Except.ok.inj hupper] at hrange
    have hlt := hlies.lt_of_le hseekable.fits.2 hrange.2
    omega
  · exact (hunheard.rows row hold).1

/-- What is listed was placed before the time of reading, by rows of the table. -/
theorem listed_placed (h : getOrderedEntries c container asOf = .ok l) :
    ∀ x ∈ l, x.positioner.timestamp < asOf ∧ ∃ row ∈ c.placements.rows, row.2 = x.entryMuid := by
  obtain ⟨clearanceTime, upper, -, -, -, hread⟩ := getOrderedEntries_rows h
  have hl := (Except.ok.inj (hread.symm.trans (Paged.read_eq (Paged.read_all hread)))).trans
    List.drop_zero
  intro x hx
  rw [hl] at hx
  obtain ⟨row, hrow, hshown⟩ := List.mem_filterMap.mp hx
  obtain ⟨-, hplaced, hmuid⟩ := shown_placer hshown
  exact ⟨hplaced.2, row, (List.mem_filter.mp hrow).1, hmuid.symm⟩

/-- Entries at an index are those of the list. -/
theorem getOrderedEntries_at (h : getOrderedEntries c container asOf = .ok l) {i : Nat}
    (hi : i < l.length) : getOrderedEntries c container asOf (some 1) i = .ok [l[i]] := by
  have hpage : getOrderedEntries c container asOf (some 1) i = .ok ((l.drop i).take 1) :=
    (getOrderedEntries_slices h).paged false 1 i
  rw [hpage, List.drop_eq_getElem_cons hi]
  rfl

/-- **An entry that is added** is listed by its position. -/
theorem listedAfter_addsAt (h : getOrderedEntries c container asOf = .ok l) (hne : l ≠ [])
    (hunheard : Unheard c container entryMuid) (hmuid : changeMuid info offset = .ok entryMuid)
    (hcontainer : resolve entryMuid.context container.putInto = .ok container)
    (hlater : ∀ x ∈ l, x.positioner < entryMuid)
    (htime : 0 < entryMuid.timestamp ∧ entryMuid.timestamp < asOf) :
    AddsAt l entryMuid.timestamp asOf entryMuid contains
      (listedAfter c retaining now info offset container contains asOf) where
  placed p hpositive hlate := by
    obtain ⟨-, -, -, -, hasOf, -⟩ := getOrderedEntries_rows h
    obtain ⟨key, hkey, hread, hlies, hposition, hplacer⟩ :=
      exists_key container entryMuid ⟨hpositive, hlate.trans hasOf⟩
    obtain ⟨before, after, e, hl, he, hbefore, hafter, hlisted⟩ :=
      @listed_withEntry c container entryMuid asOf l h hne hunheard hlater htime _
        ⟨hpositive, hlate⟩ key (sequenceEntry container contains p) hread hlies hposition hplacer
    refine ⟨before, after, e, hl, ⟨he.1, ?_⟩, hbefore, hafter, ?_⟩
    · rw [he.2]
      rfl
    unfold listedAfter
    rw [addEntry_sequence hmuid hcontainer hkey]
    exact hlisted
  hidden p hp l' hl' := by
    have hkept : orElse p entryMuid.timestamp = p := if_neg hp.ne
    rcases listedAfter_eq_ok hmuid hcontainer hl' with ⟨key, hkey, hlisted⟩ | ⟨e, he⟩
    · rw [hkept] at hkey
      exact not_listed_of_negative hunheard hp hkey hlisted.symm
    · cases he

end

end Memory

end Gink
