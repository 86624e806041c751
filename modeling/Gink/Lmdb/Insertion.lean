/-
  Gink.Lmdb.Insertion — what adding an entry to a sequence does to what `LmdbStore` lists of
  it (lmdb_store.py).

  The scan ends at the first row of another container or of the future, and raises at a
  position below 0.  A list that was read without an exception has therefore seen nothing but
  rows of the past, and the entry gets its row among these.
-/
import Gink.Lmdb.Aside
import Gink.Lmdb.Slices
import Gink.Queue.Insertion

namespace Gink

namespace Lmdb

/-! ## §1. The rows before the scan ends. -/

section
variable {c : Contents} {q : OrderedScan}

/-- The upward scan does not end at the row. -/
def goesOn (q : OrderedScan) (row : Bytes × Bytes) : Bool :=
  q.container.toBytes.isPrefixOf row.1 &&
    match Placement.fromBytes row.1 .sequence >>= fun placement => placement.middle.position with
    | .ok position => decide (position ≤ q.asOf)
    | .error _ => true

/-- The row is one of an entry at a position from `after` on. -/
def Scannable (q : OrderedScan) (row : Bytes × Bytes) : Prop :=
  ∃ placement position, Placement.fromBytes row.1 .sequence = .ok placement ∧
    placement.middle.position = .ok position ∧ q.after ≤ position

/-- A row that the scan goes on at, and can read. -/
theorem orderedLoop_cons {row : Bytes × Bytes} {rest : List (Bytes × Bytes)} {limit : Option Int}
    {offset : Int} (hdesc : q.desc = false)
    (hlimit : ¬ limit.any (fun n => decide (n ≤ 0)) = true)
    (hgoes : goesOn q row = true) (hscannable : Scannable q row) :
    orderedLoop c q (row :: rest) limit offset =
      match orderedShows c q row with
      | .error e => .error e
      | .ok false => orderedLoop c q rest limit offset
      | .ok true =>
          if offset > 0 then orderedLoop c q rest limit (offset - 1)
          else match orderedFetch c row with
            | .error e => .error e
            | .ok value =>
                (orderedLoop c q rest (limit.map (· - 1)) offset).map (value :: ·) := by
  obtain ⟨placement, position, hread, hposition, hafter⟩ := hscannable
  unfold goesOn at hgoes
  rw [Bool.and_eq_true, hread] at hgoes
  obtain ⟨hpre, hle⟩ := hgoes
  have hle : position ≤ q.asOf := by
    rw [show (Except.ok placement >>= fun placement => placement.middle.position) =
      .ok position from hposition] at hle
    exact of_decide_eq_true hle
  have hshows : orderedShows c q row =
      if placement.placedTime ≥ q.asOf ∨ placement.placedTime < q.clearanceTime then .ok false
      else if placement.expiry.any (fun expiry => decide (expiry < q.asOf)) then .ok false
      else (removedBy c q.container placement.placer q.asOf).map (!·) := by
    unfold orderedShows
    rw [hread]
    rfl
  have hfetch : orderedFetch c row = (readEntry c row.2).bind fun builder =>
      (Muid.fromBytes row.2).map fun entryMuid =>
        ⟨position, placement.placer, entryMuid, builder⟩ := by
    unfold orderedFetch
    rw [hread]
    show (placement.middle.position >>= fun position => _) = _
    rw [hposition]
    rfl
  rw [hshows, hfetch]
  conv_lhs => unfold orderedLoop
  simp only [hlimit, Bool.false_eq_true, if_false, hpre, Bool.not_true, hread, hposition, bind,
    Except.bind, hdesc]
  rw [if_neg (not_lt.mpr hle), if_neg (not_lt.mpr hafter)]
  by_cases hplaced : placement.placedTime ≥ q.asOf ∨ placement.placedTime < q.clearanceTime
  · rw [if_pos hplaced, if_pos hplaced]
  rw [if_neg hplaced, if_neg hplaced]
  by_cases hexpired : placement.expiry.any (fun expiry => decide (expiry < q.asOf)) = true
  · rw [if_pos hexpired, if_pos hexpired]
  rw [if_neg hexpired, if_neg hexpired]
  cases removedBy c q.container placement.placer q.asOf with
  | error e => rfl
  | ok removed =>
      cases removed with
      | true => rfl
      | false =>
          show (if offset > 0 then _ else _) = if offset > 0 then _ else _
          by_cases hoffset : offset > 0
          · rw [if_pos hoffset, if_pos hoffset]
          · rw [if_neg hoffset, if_neg hoffset]
            cases readEntry c row.2 with
            | error e => rfl
            | ok builder => cases Muid.fromBytes row.2 <;> rfl

/-- Where the scan does not go on it ends. -/
theorem orderedLoop_ends {row : Bytes × Bytes} {rest : List (Bytes × Bytes)} {limit : Option Int}
    {offset : Int} (hdesc : q.desc = false) (hends : goesOn q row = false) :
    orderedLoop c q (row :: rest) limit offset = .ok [] := by
  unfold orderedLoop
  by_cases hlimit : limit.any (fun n => decide (n ≤ 0)) = true
  · rw [if_pos hlimit]
  rw [if_neg hlimit]
  unfold goesOn at hends
  cases hpre : q.container.toBytes.isPrefixOf row.1 with
  | false => rfl
  | true =>
      rw [hpre, Bool.true_and] at hends
      rw [if_neg (by simp)]
      -- a row of the future
      cases hread : Placement.fromBytes row.1 .sequence >>= fun placement =>
          placement.middle.position with
      | error e =>
          rw [hread] at hends
          cases hends
      | ok position =>
          rw [hread] at hends
          obtain ⟨placement, hplacement, hposition⟩ := bind_eq_ok.mp hread
          simp only [hplacement, hposition, bind, Except.bind, hdesc]
          rw [if_pos (not_le.mp (of_decide_eq_false hends))]
          rfl

/-- **The loop** is a paged read of the rows before its end, if these can be read. -/
theorem orderedLoop_front (hdesc : q.desc = false) {rows : List (Bytes × Bytes)} :
    ∀ {limit : Option Int} {offset : Int}, (∀ row ∈ rows.takeWhile (goesOn q), Scannable q row) →
      orderedLoop c q rows limit offset =
        Paged.read (orderedShows c q) (orderedFetch c) (rows.takeWhile (goesOn q)) limit offset := by
  induction rows with
  | nil => exact fun _ => rfl
  | cons row rest ih =>
      intro limit offset h
      cases hgoes : goesOn q row with
      | false =>
          rw [orderedLoop_ends hdesc hgoes, List.takeWhile_cons_of_neg (by simp [hgoes])]
          rfl
      | true =>
          rw [List.takeWhile_cons_of_pos hgoes] at h ⊢
          have hrest := fun r hr => h r (List.mem_cons_of_mem _ hr)
          by_cases hlimit : limit.any (fun n => decide (n ≤ 0)) = true
          · rw [Paged.read_of_reached hlimit]
            unfold orderedLoop
            rw [if_pos hlimit]
          · rw [orderedLoop_cons hdesc hlimit hgoes (h row List.mem_cons_self)]
            unfold Paged.read
            rw [if_neg hlimit]
            simp only [ih hrest]
            cases orderedShows c q row with
            | error e => rfl
            | ok isShown =>
                cases isShown with
                | false => rfl
                | true =>
                    show (if offset > 0 then _ else _) = if offset > 0 then _ else _
                    split_ifs
                    · rfl
                    · cases orderedFetch c row <;> rfl

theorem scannable_of_cons (hdesc : q.desc = false) {row : Bytes × Bytes}
    {rest : List (Bytes × Bytes)} (hgoes : goesOn q row = true) {l : List PositionedEntry}
    (h : orderedLoop c q (row :: rest) none 0 = .ok l) : Scannable q row := by
  unfold goesOn at hgoes
  rw [Bool.and_eq_true] at hgoes
  obtain ⟨hpre, hle⟩ := hgoes
  unfold orderedLoop at h
  rw [if_neg (by simp), if_neg (by simp [hpre])] at h
  obtain ⟨placement, hread, h⟩ := bind_eq_ok.mp h
  obtain ⟨position, hposition, h⟩ := bind_eq_ok.mp h
  refine ⟨placement, position, hread, hposition, ?_⟩
  rw [hread, show (Except.ok placement >>= fun placement => placement.middle.position) =
    .ok position from hposition] at hle
  rw [if_neg (not_lt.mpr (of_decide_eq_true hle))] at h
  by_contra hbefore
  rw [if_pos (not_le.mp hbefore), hdesc] at h
  cases h

/-- A scan over everything that does not raise has read all rows before its end. -/
theorem scannable_of_ok (hdesc : q.desc = false) {rows : List (Bytes × Bytes)} :
    ∀ {l : List PositionedEntry}, orderedLoop c q rows none 0 = .ok l →
      ∀ row ∈ rows.takeWhile (goesOn q), Scannable q row := by
  induction rows with
  | nil => exact fun _ _ h => absurd h List.not_mem_nil
  | cons first rest ih =>
      intro l h row hrow
      cases hgoes : goesOn q first with
      | false =>
          rw [List.takeWhile_cons_of_neg (by simp [hgoes])] at hrow
          exact absurd hrow List.not_mem_nil
      | true =>
          rw [List.takeWhile_cons_of_pos hgoes] at hrow
          have hscannable : Scannable q first := scannable_of_cons hdesc hgoes h
          rw [orderedLoop_cons hdesc (by simp) hgoes hscannable] at h
          rcases List.mem_cons.mp hrow with rfl | hrow
          · exact hscannable
          · cases hshows : orderedShows c q first with
            | error e =>
                rw [hshows] at h
                cases h
            | ok isShown =>
                rw [hshows] at h
                cases isShown with
                | false => exact ih h row hrow
                | true =>
                    simp only [gt_iff_lt, lt_self_iff_false, if_false] at h
                    cases hfetch : orderedFetch c first with
                    | error e =>
                        rw [hfetch] at h
                        cases h
                    | ok value =>
                        rw [hfetch] at h
                        obtain ⟨others, hothers, -⟩ := map_eq_ok.mp h
                        exact ih hothers row hrow

end

/-! ## §2. What a list was read from. -/

/-- An upward scan of a container from the beginning. -/
def upward (container : Muid) (asOf clearanceTime : Int) : OrderedScan :=
  ⟨container, asOf, false, 0, clearanceTime⟩

/-- The rows it goes over. -/
def frontRows (c : Contents) (q : OrderedScan) : List (Bytes × Bytes) :=
  (c.placements.rows.filter fun r =>
    decide (q.container.toBytes ++ Bytes.beEncode 8 0 ≤ r.1)).takeWhile (goesOn q)

section
variable {c : Contents} {container entryMuid : Muid} {asOf clearanceTime : Int}
  {l : List PositionedEntry}

theorem orderedRows_up (c : Contents) (container : Muid) : orderedRows c container false 0 =
    .ok (c.placements.rows.filter fun r =>
      decide (container.toBytes ++ Bytes.beEncode 8 0 ≤ r.1)) := by
  have hzero : Seekable 0 := Or.inl (by norm_num)
  unfold orderedRows
  rw [if_neg Bool.false_ne_true, hzero.packed]
  rfl

/-- **A list was read** from the rows before the end of the scan, which can be read. -/
theorem getOrderedEntries_front (h : getOrderedEntries c container asOf = .ok l) :
    ∃ clearanceTime, timeOfPriorClear c container asOf = .ok clearanceTime ∧ asOf < 2 ^ 52 ∧
      (∀ row ∈ frontRows c (upward container asOf clearanceTime),
        Scannable (upward container asOf clearanceTime) row) ∧
      ∀ limit offset, getOrderedEntries c container asOf limit offset =
        Paged.read (orderedShows c (upward container asOf clearanceTime)) (orderedFetch c)
          (frontRows c (upward container asOf clearanceTime)) limit offset := by
  have hall := h
  unfold getOrderedEntries at h
  obtain ⟨clearanceTime, hclear, h⟩ := bind_eq_ok.mp h
  obtain ⟨rows, hrows, h⟩ := bind_eq_ok.mp h
  rw [orderedRows_up] at hrows
  obtain rfl := Except.ok.inj hrows
  have hasOf : asOf < 2 ^ 52 := by
    unfold timeOfPriorClear at hclear
    obtain ⟨instant, hinstant, -⟩ := bind_eq_ok.mp hclear
    exact (Muid.instant_eq_ok.mp hinstant).1.2
  have hscannable := scannable_of_ok rfl h
  refine ⟨clearanceTime, hclear, hasOf, hscannable, ?_⟩
  intro limit offset
  unfold getOrderedEntries
  rw [hclear, orderedRows_up]
  exact orderedLoop_front rfl hscannable

/-- The rows that the scan goes over lie in the container, at positions of the past. -/
theorem front_lies (hasOf : asOf < 2 ^ 52) {row : Bytes × Bytes}
    (hrow : row ∈ frontRows c (upward container asOf clearanceTime))
    (hscannable : Scannable (upward container asOf clearanceTime) row) :
    Lies container row.1 ∧ ∃ placement, Placement.fromBytes row.1 .sequence = .ok placement ∧
      placement.middle.position = .ok (positionOf row.1 : Int) ∧ (positionOf row.1 : Int) ≤ asOf := by
  obtain ⟨placement, position, hread, hposition, hafter⟩ := hscannable
  have hgoes := List.mem_takeWhile_imp hrow
  unfold goesOn at hgoes
  rw [Bool.and_eq_true, hread, show (Except.ok placement >>= fun placement =>
    placement.middle.position) = .ok position from hposition] at hgoes
  obtain ⟨hpre, hle⟩ := hgoes
  have hle : position ≤ asOf := of_decide_eq_true hle
  obtain ⟨hlies, time, hmiddle, htime⟩ := lies_of_fromBytes hread
  have hcontainer : placement.container = container :=
    Muid.toBytes_injective (Bytes.prefix_unique (by simp)
      (List.isPrefixOf_iff_prefix.mp hlies.container_prefix) (List.isPrefixOf_iff_prefix.mp hpre))
  rw [hcontainer] at hlies
  have hsame : time = position := by
    rw [hmiddle] at hposition
    exact Except.ok.inj hposition
  have hafter : 0 ≤ position := hafter
  -- a position that is read as neither negative nor of the future is the one in the key
  have hback : (positionOf row.1 : Int) = position := by
    by_cases hsmall : positionOf row.1 < 2 ^ 63
    · rw [← hsame]
      exact (positionOf_decoded hlies (Or.inl (by omega)) htime).symm
    · rcases decoded_of_behind hlies (not_lt.mp hsmall) htime with hinf | hneg
      · unfold intInf at hinf
        omega
      · omega
  rw [hback]
  exact ⟨hlies, placement, hread, hposition, hle⟩

/-- What a row that is shown gives. -/
theorem front_shown {row : Bytes × Bytes} {placement : Placement} {position : Int}
    (hread : Placement.fromBytes row.1 .sequence = .ok placement)
    (hposition : placement.middle.position = .ok position) {entry : PositionedEntry}
    (h : Paged.shown (orderedShows c (upward container asOf clearanceTime)) (orderedFetch c) row =
      some entry) :
    entry.position = position ∧ Placement.placerSlice row.1 = entry.positioner.toBytes ∧
      (clearanceTime ≤ entry.positioner.timestamp ∧ entry.positioner.timestamp < asOf) ∧
      row.2 = entry.entryMuid.toBytes := by
  obtain ⟨hshows, hfetch⟩ := Paged.gives_of_shown h
  unfold orderedShows at hshows
  unfold orderedFetch at hfetch
  rw [hread] at hshows hfetch
  obtain ⟨placement', hplacement', hfetch⟩ := bind_eq_ok.mp hfetch
  obtain rfl := Except.ok.inj hplacement'
  obtain ⟨position', hposition', hfetch⟩ := bind_eq_ok.mp hfetch
  rw [hposition] at hposition'
  obtain rfl := Except.ok.inj hposition'
  obtain ⟨builder, -, hfetch⟩ := bind_eq_ok.mp hfetch
  obtain ⟨muid, hmuid, hfetch⟩ := map_eq_ok.mp hfetch
  rw [← hfetch]
  refine ⟨rfl, ?_, ?_, (Muid.toBytes_of_fromBytes hmuid).symm⟩
  · unfold Placement.fromBytes at hread
    obtain ⟨placer, hplacer, hread⟩ := bind_eq_ok.mp hread
    obtain ⟨_, -, hread⟩ := bind_eq_ok.mp hread
    obtain ⟨_, -, hread⟩ := bind_eq_ok.mp hread
    obtain ⟨_, -, hread⟩ := bind_eq_ok.mp hread
    rw [← pure_eq_ok.mp hread]
    exact (Muid.toBytes_of_fromBytes hplacer).symm
  · by_contra hout
    have hskipped : placement.placedTime ≥ asOf ∨ placement.placedTime < clearanceTime := by
      show placement.placer.timestamp ≥ asOf ∨ placement.placer.timestamp < clearanceTime
      by_contra hnot
      rw [not_or] at hnot
      exact hout ⟨not_lt.mp hnot.2, not_le.mp hnot.1⟩
    obtain ⟨placement', hplacement', hshows⟩ := bind_eq_ok.mp hshows
    obtain rfl := Except.ok.inj hplacement'
    have hskip : (if placement.placedTime ≥ asOf ∨ placement.placedTime < clearanceTime then
        pure false else _) = Except.ok true := hshows
    rw [if_pos hskipped] at hskip
    cases hskip

end

/-! ## §3. An entry among the rows. -/

/-- Nothing in the tables speaks of the muid. -/
structure Unheard (c : Contents) (container entryMuid : Muid) : Prop where
  rows : ∀ row ∈ c.placements.rows, row.2 ≠ entryMuid.toBytes ∧
    Placement.placerSlice row.1 ≠ entryMuid.toBytes
  unremoved : toLast c.removals (container.toBytes ++ entryMuid.toBytes) = none

/-- What the tables hold after the entry was added. -/
def withEntry (c : Contents) (entryMuid : Muid) (builder : EntryBuilder) (key : Bytes)
    (indexes : Indexes) : Contents :=
  { c with
    entries := c.entries.put entryMuid.toBytes builder
    placements := c.placements.put key entryMuid.toBytes
    locations := c.locations.put (locationKey entryMuid entryMuid) key
    indexes }

section
variable {c : Contents} {container entryMuid : Muid} {asOf clearanceTime q : Int}
  {l : List PositionedEntry} {key : Bytes} {builder : EntryBuilder} {indexes : Indexes}

/-- What is read of another row. -/
theorem read_other {row : Bytes × Bytes} (hne : row.2 ≠ entryMuid.toBytes) (s : OrderedScan) :
    orderedShows (withEntry c entryMuid builder key indexes) s row = orderedShows c s row ∧
      orderedFetch (withEntry c entryMuid builder key indexes) row = orderedFetch c row := by
  have hread : readEntry (withEntry c entryMuid builder key indexes) row.2 = readEntry c row.2 := by
    unfold readEntry withEntry
    rw [Table.get?_put_of_ne _ _ hne]
  refine ⟨rfl, ?_⟩
  unfold orderedFetch
  rw [hread]

/-- What is read of the entry's own row. -/
theorem read_own (hunremoved : toLast c.removals (container.toBytes ++ entryMuid.toBytes) = none)
    (hkey : Placement.fromBytes key .sequence = .ok ⟨container, .queue q, entryMuid, none⟩)
    (hplaced : clearanceTime ≤ entryMuid.timestamp ∧ entryMuid.timestamp < asOf) :
    Paged.Gives
      (orderedShows (withEntry c entryMuid builder key indexes) (upward container asOf clearanceTime))
      (orderedFetch (withEntry c entryMuid builder key indexes)) (key, entryMuid.toBytes)
      (some ⟨q, entryMuid, entryMuid, builder⟩) := by
  have hread : readEntry (withEntry c entryMuid builder key indexes) entryMuid.toBytes =
      .ok builder := by
    unfold readEntry withEntry
    rw [Table.get?_put_self]
    rfl
  have hunmoved : removedBy (withEntry c entryMuid builder key indexes) container entryMuid asOf =
      .ok false := by
    have hnone : toLast (withEntry c entryMuid builder key indexes).removals
        (container.toBytes ++ entryMuid.toBytes) = none := hunremoved
    unfold removedBy
    rw [hnone]
  have htime : ¬ ((Placement.mk container (.queue q) entryMuid none).placedTime ≥ asOf ∨
      (Placement.mk container (.queue q) entryMuid none).placedTime < clearanceTime) :=
    not_or.mpr ⟨not_le.mpr hplaced.2, not_lt.mpr hplaced.1⟩
  constructor
  · unfold orderedShows
    rw [hkey]
    show (if (Placement.mk container (.queue q) entryMuid none).placedTime ≥ asOf ∨
      (Placement.mk container (.queue q) entryMuid none).placedTime < clearanceTime then pure false
      else (removedBy (withEntry c entryMuid builder key indexes) container entryMuid asOf).map
        (!·)) = _
    rw [if_neg htime, hunmoved]
    rfl
  · unfold orderedFetch
    rw [hkey]
    show (readEntry (withEntry c entryMuid builder key indexes) entryMuid.toBytes >>= fun builder =>
      (Muid.fromBytes entryMuid.toBytes).map fun muid => PositionedEntry.mk q entryMuid muid builder) =
        _
    rw [hread, Muid.fromBytes_toBytes]
    rfl

/-- Before a row of the past the scan does not end. -/
theorem goesOn_of_lt (hasOf : asOf < 2 ^ 52) (hlies : Lies container key)
    (hposition : (positionOf key : Int) ≤ asOf) {row : Bytes × Bytes} (hlt : row.1 ≤ key)
    (hbegun : container.toBytes ++ Bytes.beEncode 8 0 ≤ row.1) :
    goesOn (upward container asOf clearanceTime) row = true := by
  have hpre : container.toBytes <+: row.1 :=
    Bytes.prefix_of_le_of_le (List.prefix_append _ _)
      (List.isPrefixOf_iff_prefix.mp hlies.container_prefix) hbegun hlt
  unfold goesOn
  rw [Bool.and_eq_true]
  refine ⟨List.isPrefixOf_iff_prefix.mpr hpre, ?_⟩
  cases hread : Placement.fromBytes row.1 .sequence >>= fun placement =>
      placement.middle.position with
  | error e => rfl
  | ok position =>
      obtain ⟨placement, hplacement, hmiddle⟩ := bind_eq_ok.mp hread
      obtain ⟨hrow, time, hqueue, htime⟩ := lies_of_fromBytes hplacement
      have hcontainer : placement.container = container :=
        Muid.toBytes_injective (Bytes.prefix_unique (by simp)
          (List.isPrefixOf_iff_prefix.mp hrow.container_prefix) hpre)
      rw [hcontainer] at hrow
      have hle : positionOf row.1 ≤ positionOf key := by
        rcases eq_or_lt_of_le hlt with heq | hlt
        · rw [heq]
        · exact hrow.position_le hlies hlt
      have hback := positionOf_decoded hrow (Or.inl (by omega)) htime
      rw [hqueue] at hmiddle
      have hsame : time = position := Except.ok.inj hmiddle
      exact decide_eq_true (by show position ≤ asOf; omega)

/-- **The list with the entry**, whose position is in the past. -/
theorem listed_withEntry (h : getOrderedEntries c container asOf = .ok l) (hne : l ≠ [])
    (hunheard : Unheard c container entryMuid) (hlater : ∀ x ∈ l, x.positioner < entryMuid)
    (htime : 0 < entryMuid.timestamp ∧ entryMuid.timestamp < asOf) (hq : 0 < q ∧ q < asOf)
    (hkey : Placement.fromBytes key .sequence = .ok ⟨container, .queue q, entryMuid, none⟩)
    (hlies : Lies container key) (hposition : (positionOf key : Int) = q)
    (hplacer : Placement.placerSlice key = entryMuid.toBytes) :
    ∃ before after e, l = before ++ after ∧ (e.entryMuid = entryMuid ∧ e.builder = builder) ∧
      (∀ x ∈ before, x.position ≤ q) ∧ (∀ x ∈ after, q < x.position) ∧
      getOrderedEntries (withEntry c entryMuid builder key indexes) container asOf =
        .ok (before ++ e :: after) := by
  obtain ⟨clearanceTime, hclear, hasOf, hscannable, hpages⟩ := getOrderedEntries_front h
  have hread := (hpages none 0).symm.trans h
  have hnew : ∀ r ∈ c.placements.rows, r.1 ≠ key := by
    intro r hr heq
    exact (hunheard.rows r hr).2 (heq ▸ hplacer)
  have hbegun : container.toBytes ++ Bytes.beEncode 8 0 ≤ key :=
    (hlies.from_le_iff (by norm_num)).mpr (by omega)
  obtain ⟨before, after, hsplit, hput, hbefore, hafter⟩ :=
    c.placements.filter_put entryMuid.toBytes hnew
      (fun r => decide (container.toBytes ++ Bytes.beEncode 8 0 ≤ r.1)) (decide_eq_true hbegun)
  have hwithin : (positionOf key : Int) ≤ asOf := by omega
  -- the scan does not end before the entry's row
  have hgoes : ∀ r ∈ before, goesOn (upward container asOf clearanceTime) r = true := by
    intro r hr
    have hin : r ∈ c.placements.rows.filter fun r =>
        decide (container.toBytes ++ Bytes.beEncode 8 0 ≤ r.1) :=
      hsplit ▸ List.mem_append_left _ hr
    exact goesOn_of_lt hasOf hlies hwithin (hbefore r hr).le
      (of_decide_eq_true (List.mem_filter.mp hin).2)
  have hfront : frontRows c (upward container asOf clearanceTime) =
      before ++ after.takeWhile (goesOn (upward container asOf clearanceTime)) := by
    unfold frontRows
    show (c.placements.rows.filter fun r =>
      decide (container.toBytes ++ Bytes.beEncode 8 0 ≤ r.1)).takeWhile _ = _
    rw [hsplit, List.takeWhile_append_of_pos hgoes]
  have hfront' : frontRows (withEntry c entryMuid builder key indexes)
      (upward container asOf clearanceTime) = before ++ (key, entryMuid.toBytes) ::
        after.takeWhile (goesOn (upward container asOf clearanceTime)) := by
    unfold frontRows
    show ((c.placements.put key entryMuid.toBytes).rows.filter fun r =>
      decide (container.toBytes ++ Bytes.beEncode 8 0 ≤ r.1)).takeWhile _ = _
    rw [hput, List.takeWhile_append_of_pos hgoes, List.takeWhile_cons_of_pos
      (goesOn_of_lt hasOf hlies hwithin le_rfl hbegun)]
  have hmem : ∀ r ∈ frontRows c (upward container asOf clearanceTime), r ∈ c.placements.rows :=
    fun r hr => (List.mem_filter.mp (List.takeWhile_subset _ hr)).1
  have hlisted := (Except.ok.inj (hread.symm.trans (Paged.read_eq (Paged.read_all hread)))).trans
    List.drop_zero
  -- what is shown was placed before, and not before the last clearance
  have hshown : ∀ r ∈ frontRows c (upward container asOf clearanceTime), ∀ e,
      Paged.shown (orderedShows c (upward container asOf clearanceTime)) (orderedFetch c) r = some e →
      Lies container r.1 ∧ e.position = positionOf r.1 ∧
        Placement.placerSlice r.1 < Placement.placerSlice key ∧
        clearanceTime ≤ entryMuid.timestamp := by
    intro r hr e he
    obtain ⟨hlies', placement, hplacement, hp, -⟩ := front_lies hasOf hr (hscannable r hr)
    obtain ⟨hpos, hslice, hcleared, -⟩ := front_shown hplacement hp he
    have hin : e ∈ l := by
      rw [hlisted]
      exact List.mem_filterMap.mpr ⟨r, hr, he⟩
    refine ⟨hlies', hpos, ?_, ?_⟩
    · rw [hslice, hplacer, Muid.toBytes_lt_iff]
      exact hlater e hin
    · exact hcleared.1.trans (Muid.timestamp_le_of_le (hlater e hin).le htime.1.le)
  have hcleared : clearanceTime ≤ entryMuid.timestamp := by
    obtain ⟨x, hx⟩ := List.exists_mem_of_ne_nil l hne
    rw [hlisted] at hx
    obtain ⟨r, hr, he⟩ := List.mem_filterMap.mp hx
    exact (hshown r hr x he).2.2.2
  have hordered : ∀ r ∈ frontRows c (upward container asOf clearanceTime), ∀ e,
      Paged.shown (orderedShows c (upward container asOf clearanceTime)) (orderedFetch c) r = some e →
      (r.1 < key ↔ e.position ≤ q) := by
    intro r hr e he
    obtain ⟨hlies', hpos, hbytes, -⟩ := hshown r hr e he
    rw [hlies'.lt_iff_position_le hlies hbytes]
    omega
  rw [hfront] at hread hmem hordered
  obtain ⟨hl, hread'⟩ := Paged.read_between hread
    (fun r hr => @read_other c entryMuid key builder indexes r (hunheard.rows r (hmem r hr)).1
      (upward container asOf clearanceTime))
    (@read_own c container entryMuid asOf clearanceTime q key builder indexes hunheard.unremoved hkey
      ⟨hcleared, htime.2⟩)
  refine ⟨_, _, ⟨q, entryMuid, entryMuid, builder⟩, hl, ⟨rfl, rfl⟩, ?_, ?_, ?_⟩
  · intro x hx
    obtain ⟨r, hr, he⟩ := List.mem_filterMap.mp hx
    exact (hordered r (List.mem_append_left _ hr) x he).mp (hbefore r hr)
  · intro x hx
    obtain ⟨r, hr, he⟩ := List.mem_filterMap.mp hx
    have hbehind := hafter r (List.takeWhile_subset _ hr)
    have hnot := mt (hordered r (List.mem_append_right _ hr) x he).mpr (not_lt.mpr hbehind.le)
    omega
  · have hclear' : timeOfPriorClear (withEntry c entryMuid builder key indexes) container asOf =
        .ok clearanceTime := hclear
    unfold getOrderedEntries
    rw [hclear', orderedRows_up]
    show orderedLoop (withEntry c entryMuid builder key indexes)
      (upward container asOf clearanceTime) _ none 0 = _
    rw [orderedLoop_front rfl]
    · show Paged.read _ _ (frontRows (withEntry c entryMuid builder key indexes)
        (upward container asOf clearanceTime)) none 0 = _
      rw [hfront']
      exact hread'
    · intro r hr
      have hr' : r ∈ frontRows (withEntry c entryMuid builder key indexes)
        (upward container asOf clearanceTime) := hr
      rw [hfront', List.mem_append, List.mem_cons] at hr'
      rw [hfront] at hscannable
      rcases hr' with hr' | rfl | hr'
      · exact hscannable r (List.mem_append_left _ hr')
      · exact ⟨_, q, hkey, rfl, hq.1.le⟩
      · exact hscannable r (List.mem_append_right _ hr')

end

/-! ## §4. Adding the entry. -/

/-- The list after the entry was added, if that did not raise. -/
def listedAfter (lib : Externals) (committed : Contents) (retaining : Bool) (info : BundleInfo)
    (offset : Nat) (c : Contents) (container : Muid) (contains : Option Contains)
    (asOf effective : Int) : Except Error (List PositionedEntry) := do
  let c' ← addEntry lib committed retaining info offset (sequenceEntry container contains effective) c
  getOrderedEntries c' container asOf

section
variable {lib : Externals} {committed c : Contents} {container entryMuid : Muid}
  {contains : Option Contains} {retaining : Bool} {info : BundleInfo} {offset : Nat}
  {asOf p : Int} {l : List PositionedEntry}

/-- What a sequence may be given by a bundle: entries of a container that is not another
instance's, which refer to muids. -/
structure MayAdd (info : BundleInfo) (container entryMuid : Muid) (contains : Option Contains) :
    Prop where
  own : ¬ (container.timestamp = -1 ∧ container.medallion > 0 ∧
    (info.medallion.val : Int) ≠ container.medallion)
  refers : ∀ pointee, contains = some (.pointee pointee) →
    ∃ m, resolve entryMuid.context pointee = .ok m

/-- Its index rows can be written. -/
theorem indexes_add (hmay : MayAdd info container entryMuid contains) (ix : Indexes) :
    ∃ indexes, ix.add lib info (sequenceEntry container contains p) container entryMuid =
      .ok indexes := by
  have hpointee : ∃ ix', ix.onPointee (fun t k => t.put k container.toBytes)
      (sequenceEntry container contains p) entryMuid = .ok ix' := by
    unfold Indexes.onPointee
    cases hfound : (sequenceEntry container contains p).pointee? with
    | none => exact ⟨_, rfl⟩
    | some pointee =>
        have hcontains : contains = some (.pointee pointee) := by
          unfold EntryBuilder.pointee? at hfound
          show (sequenceEntry container contains p).contains = _
          split at hfound
          · rename_i found heq
            rw [heq, Option.some.inj hfound]
          · cases hfound
        obtain ⟨m, hm⟩ := hmay.refers pointee hcontains
        dsimp only
        rw [hm]
        exact ⟨_, rfl⟩
  obtain ⟨ix', hix⟩ := hpointee
  have hname : ix'.addName info (sequenceEntry container contains p) container entryMuid =
      .ok ix' := by
    unfold Indexes.addName
    split_ifs
    · cases (sequenceEntry container contains p).value? <;> rfl
    · rfl
  refine ⟨ix', ?_⟩
  unfold Indexes.add
  show (ix.onPointee (fun t k => t.put k container.toBytes) (sequenceEntry container contains p)
    entryMuid >>= fun ix => ix.addName info (sequenceEntry container contains p) container entryMuid
      >>= fun ix => .ok ix) = _
  rw [hix]
  show (ix'.addName info (sequenceEntry container contains p) container entryMuid >>= fun ix =>
    .ok ix) = _
  rw [hname]
  rfl

theorem ensureEntryIsValid_sequence (hmuid : changeMuid info offset = .ok entryMuid)
    (hcontainer : resolve entryMuid.context container.putInto = .ok container)
    (hmay : MayAdd info container entryMuid contains) :
    ensureEntryIsValid (sequenceEntry container contains p) info offset = .ok () := by
  unfold ensureEntryIsValid
  show (changeMuid info offset >>= fun entryMuid =>
    resolve entryMuid.context container.putInto >>= fun container => _) = _
  rw [hmuid]
  show (resolve entryMuid.context container.putInto >>= fun container => _) = _
  rw [hcontainer]
  refine ensure_eq_ok.mpr ?_
  rw [Bool.not_eq_true', ← Bool.not_eq_true, Bool.and_eq_true, Bool.and_eq_true, decide_eq_true_eq,
    decide_eq_true_eq, decide_eq_true_eq, and_assoc]
  exact hmay.own

/-- **Adding the entry** writes its rows, if its position can be packed. -/
theorem listedAfter_eq (hmuid : changeMuid info offset = .ok entryMuid)
    (hcontainer : resolve entryMuid.context container.putInto = .ok container)
    (hmay : MayAdd info container entryMuid contains) :
    (∃ key indexes,
      (Placement.mk container (.queue (orElse p entryMuid.timestamp)) entryMuid none).toBytes =
        .ok key ∧
      listedAfter lib committed retaining info offset c container contains asOf p =
        getOrderedEntries (withEntry c entryMuid (sequenceEntry container contains p) key indexes)
          container asOf) ∨
    (∃ e, (Placement.mk container (.queue (orElse p entryMuid.timestamp)) entryMuid none).toBytes =
        .error e) ∧
      ∃ e, listedAfter lib committed retaining info offset c container contains asOf p =
        .error e := by
  have hplacement : Placement.fromBuilder (sequenceEntry container contains p) info offset =
      .ok ⟨container, .queue (orElse p entryMuid.timestamp), entryMuid, none⟩ := by
    unfold Placement.fromBuilder
    rw [hmuid]
    show (resolve entryMuid.context container.putInto >>= fun container => _) = _
    rw [hcontainer]
    rfl
  have hadd : addEntry lib committed retaining info offset (sequenceEntry container contains p) c =
      (Placement.mk container (.queue (orElse p entryMuid.timestamp)) entryMuid none).toBytes >>=
        fun bytes => storeEntry lib info (sequenceEntry container contains p)
          ⟨container, .queue (orElse p entryMuid.timestamp), entryMuid, none⟩ bytes c := by
    unfold addEntry
    rw [ensureEntryIsValid_sequence hmuid hcontainer hmay, hplacement]
    rfl
  unfold listedAfter
  rw [hadd]
  cases hkey : (Placement.mk container (.queue (orElse p entryMuid.timestamp)) entryMuid
      none).toBytes with
  | error e => exact Or.inr ⟨⟨e, rfl⟩, e, rfl⟩
  | ok key =>
      left
      have hlength : key.length ≤ maxKeySize := by
        obtain ⟨middle, expiry, hmiddle, hexpiry, rfl⟩ := Placement.toBytes_eq_ok hkey
        have hmiddle : encodeMuts (orElse p entryMuid.timestamp) = .ok middle := hmiddle
        simp [length_of_encodeMuts hmiddle, length_of_encodeMuts hexpiry, maxKeySize]
      obtain ⟨indexes, hindexes⟩ := @indexes_add lib container entryMuid contains info p hmay c.indexes
      have hput : putRow c.placements key entryMuid.toBytes =
          .ok (c.placements.put key entryMuid.toBytes) := if_pos hlength
      have hstore : storeEntry lib info (sequenceEntry container contains p)
          ⟨container, .queue (orElse p entryMuid.timestamp), entryMuid, none⟩ key c =
          .ok (withEntry c entryMuid (sequenceEntry container contains p) key indexes) := by
        unfold storeEntry
        show (putRow c.placements key entryMuid.toBytes >>= fun placements => _) = _
        rw [hput]
        show (c.indexes.add lib info (sequenceEntry container contains p) container entryMuid >>=
          fun indexes => _) = _
        rw [hindexes]
        rfl
      refine ⟨key, indexes, rfl, ?_⟩
      show (storeEntry lib info (sequenceEntry container contains p) _ key c >>= fun c' => _) = _
      rw [hstore]
      rfl

/-- At a negative position no entry is listed. -/
theorem not_listed_of_negative (hunheard : Unheard c container entryMuid) (hp : p < 0) {key : Bytes}
    {builder : EntryBuilder} {indexes : Indexes}
    (hkey : (Placement.mk container (.queue p) entryMuid none).toBytes = .ok key)
    {l' : List PositionedEntry}
    (h : getOrderedEntries (withEntry c entryMuid builder key indexes) container asOf = .ok l') :
    ∀ x ∈ l', x.entryMuid ≠ entryMuid := by
  obtain ⟨clearanceTime, -, hasOf, hscannable, hpages⟩ := getOrderedEntries_front h
  have hread := (hpages none 0).symm.trans h
  have hl := (Except.ok.inj (hread.symm.trans (Paged.read_eq (Paged.read_all hread)))).trans
    List.drop_zero
  intro x hx
  rw [hl] at hx
  obtain ⟨row, hrow, hshown⟩ := List.mem_filterMap.mp hx
  obtain ⟨hlies, placement, hplacement, hp', hpast⟩ := front_lies hasOf hrow (hscannable row hrow)
  obtain ⟨-, -, -, hmuid⟩ := front_shown hplacement hp' hshown
  have hmem : row ∈ (c.placements.put key entryMuid.toBytes).rows :=
    (List.mem_filter.mp (List.takeWhile_subset _ hrow)).1
  rcases Table.mem_rows_put.mp hmem with rfl | ⟨-, hold⟩
  · have hbehind : 2 ^ 63 ≤ positionOf key := (lies_of_negative hp hkey).2
    have hpast : (positionOf key : Int) ≤ asOf := hpast
    omega
  · intro heq
    rw [heq] at hmuid
    exact (hunheard.rows row hold).1 hmuid

/-- **What is listed** stands in the order of the positions. -/
theorem listed_sorted (h : getOrderedEntries c container asOf = .ok l) :
    l.Pairwise (fun a b => a.position ≤ b.position) ∧ ∀ x ∈ l, 0 ≤ x.position := by
  obtain ⟨clearanceTime, -, hasOf, hscannable, hpages⟩ := getOrderedEntries_front h
  have hread := (hpages none 0).symm.trans h
  have hl := (Except.ok.inj (hread.symm.trans (Paged.read_eq (Paged.read_all hread)))).trans
    List.drop_zero
  have hposition : ∀ r ∈ frontRows c (upward container asOf clearanceTime), ∀ e,
      Paged.shown (orderedShows c (upward container asOf clearanceTime)) (orderedFetch c) r = some e →
      Lies container r.1 ∧ e.position = positionOf r.1 := by
    intro r hr e he
    obtain ⟨hlies, placement, hplacement, hp, -⟩ := front_lies hasOf hr (hscannable r hr)
    exact ⟨hlies, (front_shown hplacement hp he).1⟩
  rw [hl]
  constructor
  · refine List.pairwise_filterMap.mpr ?_
    have hsorted : (frontRows c (upward container asOf clearanceTime)).Pairwise
        fun a b => a.1 < b.1 := (c.placements.sorted.filter _).sublist (List.takeWhile_sublist _)
    refine (List.Pairwise.and_mem.mp hsorted).imp ?_
    intro row row' hrows entry hentry entry' hentry'
    obtain ⟨hrow, hrow', hlt⟩ := hrows
    obtain ⟨hlies, hpos⟩ := hposition row hrow entry hentry
    obtain ⟨hlies', hpos'⟩ := hposition row' hrow' entry' hentry'
    have hle := hlies.position_le hlies' hlt
    omega
  · intro x hx
    obtain ⟨row, hrow, hshown⟩ := List.mem_filterMap.mp hx
    rw [(hposition row hrow x hshown).2]
    omega

/-- **An entry that is added** is listed by its position. -/
theorem listedAfter_addsAt (h : getOrderedEntries c container asOf = .ok l) (hne : l ≠ [])
    (hunheard : Unheard c container entryMuid) (hmuid : changeMuid info offset = .ok entryMuid)
    (hcontainer : resolve entryMuid.context container.putInto = .ok container)
    (hmay : MayAdd info container entryMuid contains) (hlater : ∀ x ∈ l, x.positioner < entryMuid)
    (htime : 0 < entryMuid.timestamp ∧ entryMuid.timestamp < asOf) :
    AddsAt l entryMuid.timestamp asOf entryMuid contains
      (listedAfter lib committed retaining info offset c container contains asOf) where
  placed p hpositive hlate := by
    obtain ⟨-, -, hasOf, -, -⟩ := getOrderedEntries_front h
    obtain ⟨key, hkey, hread, hlies, hposition, hplacer⟩ :=
      exists_key container entryMuid ⟨hpositive, hlate.trans hasOf⟩
    rcases @listedAfter_eq lib committed c container entryMuid contains retaining info offset asOf p
        hmuid hcontainer hmay with ⟨key', indexes, hkey', hlisted⟩ | ⟨⟨e, he⟩, -⟩
    · rw [hkey] at hkey'
      obtain rfl := Except.ok.inj hkey'
      obtain ⟨before, after, e, hl, he, hbefore, hafter, hread'⟩ :=
        @listed_withEntry c container entryMuid asOf _ l key (sequenceEntry container contains p)
          indexes h hne hunheard hlater htime ⟨hpositive, hlate⟩ hread hlies hposition hplacer
      refine ⟨before, after, e, hl, ⟨he.1, ?_⟩, hbefore, hafter, hlisted.trans hread'⟩
      rw [he.2]
      rfl
    · rw [hkey] at he
      cases he
  hidden p hp l' hl' := by
    have hkept : orElse p entryMuid.timestamp = p := if_neg hp.ne
    rcases @listedAfter_eq lib committed c container entryMuid contains retaining info offset asOf p
        hmuid hcontainer hmay with ⟨key, indexes, hkey, hlisted⟩ | ⟨-, e, he⟩
    · rw [hkept] at hkey
      exact not_listed_of_negative hunheard hp hkey (hlisted.symm.trans hl')
    · rw [he] at hl'
      cases hl'

/-- What is listed was placed before the time of reading, by rows of the table. -/
theorem listed_placed (h : getOrderedEntries c container asOf = .ok l) :
    ∀ x ∈ l, x.positioner.timestamp < asOf ∧
      ∃ row ∈ c.placements.rows, row.2 = x.entryMuid.toBytes := by
  obtain ⟨clearanceTime, -, hasOf, hscannable, hpages⟩ := getOrderedEntries_front h
  have hread := (hpages none 0).symm.trans h
  have hl := (Except.ok.inj (hread.symm.trans (Paged.read_eq (Paged.read_all hread)))).trans
    List.drop_zero
  intro x hx
  rw [hl] at hx
  obtain ⟨row, hrow, hshown⟩ := List.mem_filterMap.mp hx
  obtain ⟨-, placement, hplacement, hp, -⟩ := front_lies hasOf hrow (hscannable row hrow)
  obtain ⟨-, -, hplaced, hmuid⟩ := front_shown hplacement hp hshown
  exact ⟨hplaced.2, row, (List.mem_filter.mp (List.takeWhile_subset _ hrow)).1, hmuid⟩

/-- Entries at an index are those of the list. -/
theorem getOrderedEntries_at (h : getOrderedEntries c container asOf = .ok l) {i : Nat}
    (hi : i < l.length) : getOrderedEntries c container asOf (some 1) i = .ok [l[i]] := by
  obtain ⟨clearanceTime, -, -, -, hpages⟩ := getOrderedEntries_front h
  have hread := (hpages none 0).symm.trans h
  have hl : l = (frontRows c (upward container asOf clearanceTime)).filterMap
      (Paged.shown (orderedShows c (upward container asOf clearanceTime)) (orderedFetch c)) :=
    (Except.ok.inj (hread.symm.trans (Paged.read_eq (Paged.read_all hread)))).trans List.drop_zero
  rw [hpages, Paged.read_eq (Paged.read_all hread), ← hl]
  show Except.ok ((l.drop (i : Int).toNat).take 1) = _
  rw [Int.toNat_natCast, List.drop_eq_getElem_cons hi]
  rfl

end

end Lmdb

end Gink
