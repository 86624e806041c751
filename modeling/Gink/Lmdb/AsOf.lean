/-
  Gink.Lmdb.AsOf — reads of an ordered container in the past of an `LmdbStore` (lmdb_store.py).

  With history kept a change writes rows under its own address and takes none away, and a scan
  for the state at a time passes over the rows of changes from that time on.

  Main results:
    * `applyChange_agreeBefore` — a change leaves the rows of before its own time alone.
    * `getOrderedEntries_past`, `getPositionedEntry_past` — stores that agree on these rows answer
      alike.
    * `ordered_time_travel` — so later history does not show through, unless a row sorts behind.
-/
import Gink.Lmdb.Courses
import Gink.Lmdb.KeyedConvergence
import Gink.Table.Agreement

namespace Gink

/-! ## §1. Rows that are not shown. -/

namespace Paged

variable {ρ α ε : Type} {shows shows' : ρ → Except ε Bool} {fetch fetch' : ρ → Except ε α}

/-- Rows that are not shown can be left out. -/
theorem read_filter {p : ρ → Bool} {rows : List ρ} :
    ∀ {limit : Option Int} {offset : Int},
      (∀ row ∈ rows, p row = false → shows row = .ok false) →
      read shows fetch rows limit offset = read shows fetch (rows.filter p) limit offset := by
  induction rows with
  | nil => exact fun _ => rfl
  | cons row rest ih =>
      intro limit offset h
      have hrest : ∀ {limit : Option Int} {offset : Int},
          read shows fetch rest limit offset = read shows fetch (rest.filter p) limit offset :=
        ih fun r hr => h r (List.mem_cons_of_mem _ hr)
      cases hp : p row with
      | true =>
          rw [List.filter_cons_of_pos hp]
          unfold read
          simp only [hrest]
      | false =>
          rw [List.filter_cons_of_neg (by rw [hp]; exact Bool.false_ne_true), ← hrest]
          cases hlimit : limit.any (fun n => decide (n ≤ 0)) with
          | true => rw [read_of_reached hlimit, read_of_reached hlimit]
          | false =>
              conv_lhs => unfold read
              rw [hlimit, if_neg Bool.false_ne_true, h row List.mem_cons_self hp]

/-- Only what the rows show matters. -/
theorem read_congr {rows : List ρ} :
    ∀ {limit : Option Int} {offset : Int},
      (∀ row ∈ rows, shows row = shows' row ∧ fetch row = fetch' row) →
      read shows fetch rows limit offset = read shows' fetch' rows limit offset := by
  induction rows with
  | nil => exact fun _ => rfl
  | cons row rest ih =>
      intro limit offset h
      obtain ⟨hshows, hfetch⟩ := h row List.mem_cons_self
      have hrest : ∀ {limit : Option Int} {offset : Int},
          read shows fetch rest limit offset = read shows' fetch' rest limit offset :=
        ih fun r hr => h r (List.mem_cons_of_mem _ hr)
      unfold read
      simp only [hrest, hshows, hfetch]

end Paged

namespace Lmdb

/-! ## §2. What a change writes. -/

/-- The rows that were written by changes before the address are the same. -/
structure AgreeBefore (i : Muid) (c c' : Contents) : Prop where
  entries : Table.AgreeOn (· < i.toBytes) c.entries c'.entries
  placements : Table.AgreeOn (fun k => Placement.placerSlice k < i.toBytes) c.placements c'.placements
  locations : Table.AgreeOn (fun k => k.drop 16 < i.toBytes) c.locations c'.locations
  removals : Table.AgreeOn (fun k => k.drop 32 < i.toBytes) c.removals c'.removals
  clearances : Table.AgreeOn (fun k => k.drop 16 < i.toBytes) c.clearances c'.clearances

theorem AgreeBefore.refl (i : Muid) (c : Contents) : AgreeBefore i c c :=
  ⟨.refl _ _, .refl _ _, .refl _ _, .refl _ _, .refl _ _⟩

theorem AgreeBefore.trans {i : Muid} {c c' c'' : Contents} (h : AgreeBefore i c c')
    (h' : AgreeBefore i c' c'') : AgreeBefore i c c'' :=
  ⟨h.entries.trans h'.entries, h.placements.trans h'.placements, h.locations.trans h'.locations,
    h.removals.trans h'.removals, h.clearances.trans h'.clearances⟩

section
variable {lib : Externals} {committed c c' : Contents} {info : BundleInfo} {offset : Nat}
  {change : ChangeBuilder} {seen seen' : List Muid} {i a : Muid}

theorem drop_locationKey (e m : Muid) : (locationKey e m).drop 16 = m.toBytes :=
  List.drop_left' (Muid.length_toBytes e)

theorem drop_removalKey (k : RemovalKey) : k.toBytes.drop 32 = k.movement.toBytes :=
  List.drop_left' (by simp)

/-- An address from `i` on is not before it. -/
theorem not_toBytes_lt (h : i ≤ a) : ¬ a.toBytes < i.toBytes := by
  rw [Muid.toBytes_lt_iff]
  exact not_lt.mpr h

/-- **A change leaves the rows of before its address alone.** -/
theorem applyChange_agreeBefore (hlate : ∀ a, changeMuid info offset = .ok a → i ≤ a)
    (happlied : applyChange lib committed true info offset seen c change = (seen', .ok c')) :
    AgreeBefore i c c' := by
  cases applyChange_effect happlied with
  | container builder c containers =>
      exact ⟨.refl _ _, .refl _ _, .refl _ _, .refl _ _, .refl _ _⟩
  | entry builder c c' containers hadded =>
      obtain ⟨placement, bytes, removals, byTime, totals, indexes, -, hp, hb, hreplaced, -, -, rfl⟩ :=
        addEntry_ok hadded
      have hnew := not_toBytes_lt (hlate _ (Placement.fromBuilder_eq_ok hp).1)
      refine ⟨Table.agreeOn_put _ _ hnew, Table.agreeOn_put _ _ ?_, Table.agreeOn_put _ _ ?_, ?_,
        .refl _ _⟩
      · rw [Placement.placer_of_toBytes hb]
        exact hnew
      · rw [drop_locationKey]
        exact hnew
      · rcases hreplaced with rfl | ⟨found, -, rfl⟩
        · exact .refl _ _
        · refine Table.agreeOn_put _ _ ?_
          rw [drop_removalKey]
          exact hnew
  | movement builder c c' happlied =>
      rcases applyMovement_ok happlied with rfl | ⟨container, entryMuid, movementMuid, entry, row,
        placer, placed, hmovable, byTime, hcases⟩
      · exact .refl i c'
      · have hnew := not_toBytes_lt (hlate _ hmovable.movement_eq)
        have hlocation : ¬ (locationKey entryMuid movementMuid).drop 16 < i.toBytes := by
          rw [drop_locationKey]
          exact hnew
        have hremoval : ¬ (RemovalKey.mk container placed.placer movementMuid).toBytes.drop 32
            < i.toBytes := by
          rw [drop_removalKey]
          exact hnew
        rcases hcases with ⟨-, rfl⟩ | ⟨-, bytes, hb, rfl⟩
        · exact ⟨.refl _ _, .refl _ _, Table.agreeOn_put _ _ hlocation,
            Table.agreeOn_put _ _ hremoval, .refl _ _⟩
        · refine ⟨.refl _ _, Table.agreeOn_put _ _ ?_, Table.agreeOn_put _ _ hlocation,
            Table.agreeOn_put _ _ hremoval, .refl _ _⟩
          rw [Placement.placer_of_toBytes hb]
          exact hnew
  | clearance builder c c' happlied =>
      obtain ⟨container, clearanceMuid, -, hm, rfl⟩ := applyClearance_ok happlied
      refine ⟨.refl _ _, .refl _ _, .refl _ _, .refl _ _, Table.agreeOn_put _ _ ?_⟩
      rw [List.drop_left' (Muid.length_toBytes container)]
      exact not_toBytes_lt (hlate _ hm)

/-- So do the changes of a bundle. -/
theorem applyChangesFrom_agreeBefore (hlate : ∀ offset a, changeMuid info offset = .ok a → i ≤ a) :
    ∀ {changes : List ChangeBuilder} {offset : Nat} {seen seen' : List Muid} {c c' : Contents},
      applyChangesFrom lib committed true info offset changes seen c = (seen', .ok c') →
      AgreeBefore i c c' := by
  intro changes offset seen seen' c c' h
  refine applyChangesFrom_invariant (P := AgreeBefore i c) ?_ (.refl i c) h
  intro offset change seen seen' c1 c2 hc1 happlied
  exact hc1.trans (applyChange_agreeBefore (hlate offset) happlied)

end

/-! ## §3. The two reads. -/

section
variable {c c₀ : Contents} {i : Muid} {t : Int} {container e m : Muid}

/-- A seek that is bounded by the address finds the same row in both. -/
theorem toLastSuffix_past {V : Type} {s s' : Table Bytes V}
    (h : Table.AgreeOn (fun k => k.drop 16 < i.toBytes) s s') (container : Muid) :
    toLastSuffix s container.toBytes i.toBytes = toLastSuffix s' container.toBytes i.toBytes := by
  have hold : ∀ k : Bytes, (container.toBytes.isPrefixOf k &&
      decide (k < container.toBytes ++ i.toBytes)) = true → k.drop 16 < i.toBytes := by
    intro k hk
    rw [Bool.and_eq_true, decide_eq_true_eq] at hk
    obtain ⟨hpre, hlt⟩ := hk
    obtain ⟨rest, rfl⟩ := List.isPrefixOf_iff_prefix.mp hpre
    rw [List.drop_left' (Muid.length_toBytes container)]
    exact (Bytes.append_lt_append_left_iff _ _ _).mp hlt
  rw [toLastSuffix_eq, toLastSuffix_eq]
  exact Table.lastWhere_eq_of_rowsWhere
    (h.rowsWhere_eq (fun r _ hq => hold r.1 hq) (fun r _ hq => hold r.1 hq))

/-- **Whether a placement was left by the time.** -/
theorem Courses.removedBy_iff (h : Courses c) (container p : Muid) (t : Int) :
    ∃ removed, removedBy c container p t = .ok removed ∧
      (removed = true ↔ ∃ m value, ((RemovalKey.mk container p m).toBytes, value) ∈ c.removals.rows ∧
        (m.timeField.val : Int) < t) := by
  have hrows : ∀ row ∈ c.removals.rows, (container.toBytes ++ p.toBytes).isPrefixOf row.1 = true →
      ∃ m, row.1 = (RemovalKey.mk container p m).toBytes ∧ m.timeField.val < 2 ^ 52 - 1 ∧
        ∃ e, Located c e p ∧ Located c e m ∧ p < m ∧ ∀ q, Located c e q → p < q → m ≤ q := by
    intro row hrow hpre
    obtain ⟨container', p', m, e, hkey, hp, hm, hlt, hnext⟩ := h.removed row hrow
    have hpart := List.isPrefixOf_iff_prefix.mp hpre
    rw [hkey] at hpart
    have hsame : container.toBytes ++ p.toBytes = container'.toBytes ++ p'.toBytes :=
      Bytes.prefix_unique (by simp) hpart (List.prefix_append _ _)
    obtain ⟨hcontainer, hp'⟩ := List.append_inj hsame (by simp)
    obtain rfl := Muid.toBytes_injective hcontainer
    obtain rfl := Muid.toBytes_injective hp'
    exact ⟨m, hkey, (h.located hm).2.1, e, hp, hm, hlt, hnext⟩
  have hshort : ∀ r ∈ c.removals.rows, ∀ x, r.1 = container.toBytes ++ p.toBytes ++ x →
      x < List.replicate 40 255 := by
    intro r hr x hx
    obtain ⟨m, hkey, -⟩ := hrows r hr
      (by rw [hx]; exact List.isPrefixOf_iff_prefix.mpr (List.prefix_append _ _))
    rw [hkey] at hx
    unfold RemovalKey.toBytes at hx
    rw [← List.append_cancel_left hx]
    exact Bytes.lt_replicate_of_length_lt (by simp)
  have hpre : ∀ m : Muid, (container.toBytes ++ p.toBytes).isPrefixOf
      (RemovalKey.mk container p m).toBytes = true := fun m =>
    List.isPrefixOf_iff_prefix.mpr (List.prefix_append _ _)
  unfold removedBy
  rw [toLast_eq_lastWhere _ _ hshort]
  cases hlast : c.removals.lastWhere (fun k => (container.toBytes ++ p.toBytes).isPrefixOf k) with
  | none =>
      refine ⟨false, rfl, ⟨fun hfalse => absurd hfalse Bool.false_ne_true, ?_⟩⟩
      rintro ⟨m, value, hrow, -⟩
      have hnone := Table.lastWhere_eq_none_iff.mp hlast _ hrow
      rw [hpre m] at hnone
      exact absurd hnone (by simp)
  | some found =>
      obtain ⟨hfound, hfoundPre, -⟩ := Table.lastWhere_eq_some_iff.mp hlast
      obtain ⟨m, hkey, hordinary, e, hp, hm, hlt, hnext⟩ := hrows found hfound hfoundPre
      refine ⟨decide (m.timestamp < t), ?_, ?_⟩
      · show (Muid.fromBytes (found.1.drop 32)).map _ = _
        rw [hkey, drop_removalKey, Muid.fromBytes_toBytes]
        rfl
      · rw [decide_eq_true_eq, Muid.timestamp_of_ne (by omega)]
        constructor
        · exact fun hbefore => ⟨m, found.2, hkey ▸ hfound, hbefore⟩
        · rintro ⟨m', value, hrow, hbefore⟩
          -- both removals are by the stop that follows
          obtain ⟨m'', hkey', -, e', hp', hm', hlt', hnext'⟩ := hrows _ hrow (hpre m')
          have heq : m' = m'' := by
            exact Muid.toBytes_injective (List.append_cancel_left hkey')
          subst heq
          obtain rfl := h.owner e e' p hp hp'
          rw [le_antisymm (hnext m' hm' hlt') (hnext' m hm hlt)]
          exact hbefore

/-- What the reads rest on: the courses, and that the rows of the container read back. -/
structure Queue (c : Contents) (container : Muid) : Prop where
  courses : Courses c
  inPlace : ∀ row ∈ c.placements.rows, container.toBytes.isPrefixOf row.1 = true →
    InPlace container row.1

theorem toBytes_lt_instant (hi : Muid.instant t = .ok i) (ht : 0 < t) (m : Muid) :
    m.toBytes < i.toBytes ↔ (m.timeField.val : Int) < t := by
  rw [Muid.toBytes_lt_iff, Muid.lt_instant_iff hi, Fin.lt_def]
  obtain ⟨hrange, rfl⟩ := Muid.instant_eq_ok.mp hi
  have hval := Muid.val_field (2 ^ 52) t
  show m.timeField.val < (Muid.field (2 ^ 52) t).val ↔ _
  omega

/-- The placer that a row reads back with is the one its key spells. -/
theorem placer_of_reads {key : Bytes} {behavior : Behavior} {placement : Placement}
    (hreads : Placement.fromBytes key behavior = .ok placement)
    (hslice : Placement.placerSlice key = m.toBytes) : placement.placer = m := by
  unfold Placement.fromBytes at hreads
  obtain ⟨placer, hplacer, hreads⟩ := bind_eq_ok.mp hreads
  obtain ⟨middle, -, hreads⟩ := bind_eq_ok.mp hreads
  obtain ⟨inside, -, hreads⟩ := bind_eq_ok.mp hreads
  obtain ⟨expiry, -, hreads⟩ := bind_eq_ok.mp hreads
  rw [hslice, Muid.fromBytes_toBytes] at hplacer
  rw [← pure_eq_ok.mp hreads]
  exact (Except.ok.inj hplacer).symm

/-- The row of a change from the time on is not shown. -/
theorem Queue.late {q : OrderedScan} (h : Queue c q.container) (hi : Muid.instant q.asOf = .ok i)
    (ht : 0 < q.asOf) {row : Bytes × Bytes} (hrow : row ∈ c.placements.rows)
    (hpre : q.container.toBytes.isPrefixOf row.1 = true)
    (hnew : ¬ Placement.placerSlice row.1 < i.toBytes) : orderedShows c q row = .ok false := by
  obtain ⟨placer, expiry, hreads⟩ := (h.inPlace row hrow hpre).reads
  obtain ⟨e, m, -, hslice, hl⟩ := h.courses.placed row hrow
  have hplaced : (Placement.mk q.container (.queue (positionOf row.1)) placer expiry).placedTime
      ≥ q.asOf := by
    have hsame : placer = m := placer_of_reads hreads hslice
    rw [hslice, toBytes_lt_instant hi ht] at hnew
    have hordinary := (h.courses.located hl).2.1
    show q.asOf ≤ placer.timestamp
    rw [hsame, Muid.timestamp_of_ne (by omega)]
    omega
  unfold orderedShows
  rw [hreads]
  show (if (Placement.mk q.container (.queue (positionOf row.1)) placer expiry).placedTime ≥ q.asOf ∨
      _ then _ else _) = _
  rw [if_pos (Or.inl hplaced)]
  rfl

/-- What was left by the time was left in both. -/
theorem removedBy_past (h : Courses c) (h₀ : Courses c₀) (hi : Muid.instant t = .ok i) (ht : 0 < t)
    (hagree : AgreeBefore i c₀ c) (container p : Muid) :
    removedBy c container p t = removedBy c₀ container p t := by
  obtain ⟨removed, hr, hiff⟩ := h.removedBy_iff container p t
  obtain ⟨removed₀, hr₀, hiff₀⟩ := h₀.removedBy_iff container p t
  rw [hr, hr₀]
  refine congrArg Except.ok (Bool.eq_iff_iff.mpr (hiff.trans (Iff.trans ?_ hiff₀.symm)))
  refine exists_congr fun m => exists_congr fun value => and_congr_left fun hbefore => ?_
  refine (hagree.removals _ ?_).symm
  show List.drop 32 (RemovalKey.mk container p m).toBytes < i.toBytes
  rw [drop_removalKey, toBytes_lt_instant hi ht]
  exact hbefore

/-- An entry that was somewhere before the time is in both stores. -/
theorem get?_past (h₀ : Courses c₀) (hi : Muid.instant t = .ok i) (ht : 0 < t)
    (hagree : AgreeBefore i c₀ c) (hl : Located c₀ e m) (hbefore : (m.timeField.val : Int) < t) :
    c.entries.get? e.toBytes = c₀.entries.get? e.toBytes := by
  have hle := Muid.timeField_le_of_le (h₀.located hl).1
  rw [Fin.le_def] at hle
  have hold : e.toBytes < i.toBytes := by
    rw [toBytes_lt_instant hi ht]
    omega
  refine Option.ext fun builder => ?_
  rw [Table.get?_eq_some_iff, Table.get?_eq_some_iff]
  exact (hagree.entries _ hold).symm

/-- The rows of before the time are those of the earlier store. -/
theorem rows_past {q : OrderedScan} (h₀ : Courses c₀) (hi : Muid.instant q.asOf = .ok i)
    (ht : 0 < q.asOf) (hagree : AgreeBefore i c₀ c)
    (hpast : ∀ e m, Located c₀ e m → (m.timeField.val : Int) < q.asOf) :
    c.placements.rows.filter
        (fun r => decide (Placement.placerSlice r.1 < i.toBytes) && inScan q r.1)
      = c₀.placements.rows.filter (fun r => inScan q r.1) := by
  have hold : ∀ r ∈ c₀.placements.rows, Placement.placerSlice r.1 < i.toBytes := by
    intro r hr
    obtain ⟨e, m, -, hslice, hl⟩ := h₀.placed r hr
    rw [hslice, toBytes_lt_instant hi ht]
    exact hpast e m hl
  have hsame := hagree.placements.rowsWhere_eq
    (q := fun k => decide (Placement.placerSlice k < i.toBytes) && inScan q k)
    (fun r hr _ => hold r hr) (fun r _ hq => of_decide_eq_true ((Bool.and_eq_true _ _).mp hq).1)
  refine Eq.trans hsame.symm (List.filter_congr fun r hr => ?_)
  show (decide (Placement.placerSlice r.1 < i.toBytes) && inScan q r.1) = inScan q r.1
  rw [decide_eq_true (hold r hr), Bool.true_and]

/-- **The loop in the past** reads the rows of before the time only. -/
theorem orderedLoop_past {q : OrderedScan} (h : Queue c q.container) (h₀ : Queue c₀ q.container)
    (hi : Muid.instant q.asOf = .ok i) (ht : 0 < q.asOf) (hagree : AgreeBefore i c₀ c)
    (hpast : ∀ e m, Located c₀ e m → (m.timeField.val : Int) < q.asOf) :
    Paged.read (orderedShows c q) (orderedFetch c)
        (c.placements.rows.filter (fun r => inScan q r.1)) none 0
      = Paged.read (orderedShows c₀ q) (orderedFetch c₀)
        (c₀.placements.rows.filter (fun r => inScan q r.1)) none 0 := by
  rw [Paged.read_filter (p := fun r => decide (Placement.placerSlice r.1 < i.toBytes)),
    List.filter_filter, rows_past h₀.courses hi ht hagree hpast]
  · refine Paged.read_congr fun row hrow => ?_
    obtain ⟨hmem, -⟩ := List.mem_filter.mp hrow
    obtain ⟨e, m, hvalue, -, hl⟩ := h₀.courses.placed row hmem
    constructor
    · unfold orderedShows
      simp only [removedBy_past h.courses h₀.courses hi ht hagree]
    · unfold orderedFetch readEntry
      rw [hvalue, get?_past h₀.courses hi ht hagree hl (hpast e m hl)]
  · intro row hrow hnew
    obtain ⟨hmem, hin⟩ := List.mem_filter.mp hrow
    unfold inScan at hin
    rw [Bool.and_eq_true] at hin
    exact h.late hi ht hmem hin.1 (of_decide_eq_false hnew)

/-- **`get_ordered_entries` in the past.** -/
theorem getOrderedEntries_past (h : Queue c container) (h₀ : Queue c₀ container)
    (hi : Muid.instant t = .ok i) (ht : 0 < t) (hagree : AgreeBefore i c₀ c)
    (hpast : ∀ e m, Located c₀ e m → (m.timeField.val : Int) < t) :
    getOrderedEntries c container t = getOrderedEntries c₀ container t := by
  have hclear : timeOfPriorClear c container t = timeOfPriorClear c₀ container t := by
    unfold timeOfPriorClear
    simp only [hi, bind, Except.bind, toLastSuffix_past hagree.clearances container]
  unfold getOrderedEntries
  rw [hclear]
  cases htime : timeOfPriorClear c₀ container t with
  | error e => rfl
  | ok clearanceTime =>
      obtain ⟨rows, hrows, hscanned, hfilter⟩ :=
        @scanned_up c container t clearanceTime 0 h.inPlace (Or.inl (by norm_num))
      obtain ⟨rows₀, hrows₀, hscanned₀, hfilter₀⟩ :=
        @scanned_up c₀ container t clearanceTime 0 h₀.inPlace (Or.inl (by norm_num))
      show (orderedRows c container false 0 >>= fun rows =>
          orderedLoop c ⟨container, t, false, 0, clearanceTime⟩ rows none 0) =
        (orderedRows c₀ container false 0 >>= fun rows =>
          orderedLoop c₀ ⟨container, t, false, 0, clearanceTime⟩ rows none 0)
      rw [hrows, hrows₀]
      show orderedLoop c _ rows none 0 = orderedLoop c₀ _ rows₀ none 0
      rw [orderedLoop_eq hscanned, orderedLoop_eq hscanned₀, hfilter, hfilter₀]
      exact orderedLoop_past h h₀ hi ht hagree hpast

/-- An entry that has a location was placed. -/
theorem Courses.located_of_found (h : Courses c) {entry : Muid} {placement : Placement}
    (hfound : getLocation c entry t = .ok (some placement)) : ∃ m, Located c entry m := by
  unfold getLocation at hfound
  cases hi : Muid.instant t with
  | error e =>
      rw [hi] at hfound
      cases hfound
  | ok i =>
      rw [hi] at hfound
      cases hseek : toLastSuffix c.locations entry.toBytes i.toBytes with
      | none =>
          simp only [bind, Except.bind, hseek] at hfound
          cases hfound
      | some row =>
          rw [toLastSuffix_eq] at hseek
          obtain ⟨hrow, hq, -⟩ := Table.lastWhere_eq_some_iff.mp hseek
          obtain ⟨e, m, hkey, -⟩ := h.stops row hrow
          rw [Bool.and_eq_true] at hq
          have hpart := List.isPrefixOf_iff_prefix.mp hq.1
          rw [hkey] at hpart
          obtain rfl : entry = e := Muid.toBytes_injective
            (Bytes.prefix_unique (by simp) hpart (List.prefix_append _ _))
          exact ⟨m, row.2, hkey ▸ hrow⟩

/-- **`get_positioned_entry` in the past** too. -/
theorem getPositionedEntry_past (h₀ : Courses c₀) (hi : Muid.instant t = .ok i) (ht : 0 < t)
    (hagree : AgreeBefore i c₀ c) (hpast : ∀ e m, Located c₀ e m → (m.timeField.val : Int) < t)
    (entry : Muid) : getPositionedEntry c entry t = getPositionedEntry c₀ entry t := by
  have hlocation : getLocation c entry t = getLocation c₀ entry t := by
    unfold getLocation
    simp only [hi, bind, Except.bind, toLastSuffix_past hagree.locations entry]
  unfold getPositionedEntry
  rw [hlocation]
  cases hfound : getLocation c₀ entry t with
  | error e => rfl
  | ok location =>
      cases location with
      | none => rfl
      | some placement =>
          -- an entry that was somewhere then had been added
          have hentry : c.entries.get? entry.toBytes = c₀.entries.get? entry.toBytes := by
            obtain ⟨m, hl⟩ := h₀.located_of_found hfound
            exact get?_past h₀ hi ht hagree hl (hpast entry m hl)
          unfold readEntry
          simp only [bind, Except.bind, hentry]

end

/-! ## §4. Runs. -/

/-- The bundle of the call is stamped before the time, as far as it can be read. -/
def Call.isBefore (lib : Externals) (t : Int) (call : Call) : Bool :=
  match call.bundle.getInfo lib with
  | .ok info => decide ((info.timestamp.val : Int) < t)
  | .error _ => true

/-- The bundles come in the order of their timestamps. -/
def InOrder (lib : Externals) (calls : List Call) : Prop :=
  calls.Pairwise fun a b => ∃ i j, a.bundle.getInfo lib = .ok i ∧ b.bundle.getInfo lib = .ok j ∧
    i.timestamp < j.timestamp

/-- No change of the bundle gives one of the positions that sort behind. -/
def Call.Forward (lib : Externals) (keys : U64 → Except Error Bytes) (call : Call) : Prop :=
  ∀ b, call.bundle.opened lib keys = .ok b → ∀ change ∈ b.changes, PlacesForward change

section
variable {lib : Externals} {calls : List Call} {keys : U64 → Except Error Bytes} {t : Int}

theorem InOrder.distinctTimes (h : InOrder lib calls) : DistinctTimes lib calls := by
  refine h.imp ?_
  rintro a b ⟨i, j, hi, hj, hlt⟩ time ⟨info, hinfo, htime⟩ ⟨info', hinfo', htime'⟩
  rw [hi] at hinfo
  rw [hj] at hinfo'
  obtain rfl := Except.ok.inj hinfo
  obtain rfl := Except.ok.inj hinfo'
  rw [Fin.lt_def] at hlt
  omega

/-- **What came before a time** is the beginning. -/
theorem InOrder.split (h : InOrder lib calls) (t : Int) :
    ∃ late, calls = calls.filter (Call.isBefore lib t) ++ late ∧
      ∀ call ∈ late, ∀ time, call.StampedAt lib time → t ≤ time := by
  induction calls with
  | nil => exact ⟨[], rfl, fun call hcall => absurd hcall List.not_mem_nil⟩
  | cons call rest ih =>
      obtain ⟨hcall, hrest⟩ := List.pairwise_cons.mp h
      cases hearly : call.isBefore lib t with
      | true =>
          obtain ⟨late, hsplit, hlate⟩ := ih hrest
          refine ⟨late, ?_, hlate⟩
          rw [List.filter_cons_of_pos hearly, List.cons_append, ← hsplit]
      | false =>
          -- nothing that follows is earlier
          have hstamp : ∃ info, call.bundle.getInfo lib = .ok info ∧ t ≤ info.timestamp.val := by
            unfold Call.isBefore at hearly
            cases hinfo : call.bundle.getInfo lib with
            | error e =>
                rw [hinfo] at hearly
                cases hearly
            | ok info =>
                rw [hinfo] at hearly
                have hge := of_decide_eq_false hearly
                exact ⟨info, rfl, by omega⟩
          obtain ⟨info, hinfo, hge⟩ := hstamp
          have hlater : ∀ other ∈ rest, ∃ j, other.bundle.getInfo lib = .ok j ∧
              t ≤ j.timestamp.val := by
            intro other hother
            obtain ⟨i, j, hi, hj, hlt⟩ := hcall other hother
            rw [hinfo] at hi
            obtain rfl := Except.ok.inj hi
            rw [Fin.lt_def] at hlt
            exact ⟨j, hj, by omega⟩
          have hnone : (call :: rest).filter (Call.isBefore lib t) = [] := by
            rw [List.filter_cons_of_neg (by rw [hearly]; exact Bool.false_ne_true),
              List.filter_eq_nil_iff]
            intro other hother hbefore
            obtain ⟨j, hj, hge'⟩ := hlater other hother
            unfold Call.isBefore at hbefore
            rw [hj] at hbefore
            have hlt := of_decide_eq_true hbefore
            omega
          refine ⟨call :: rest, by rw [hnone, List.nil_append], ?_⟩
          rintro other hother time ⟨info', hinfo', rfl⟩
          rcases List.mem_cons.mp hother with rfl | hother
          · rw [hinfo] at hinfo'
            rw [← Except.ok.inj hinfo']
            exact hge
          · obtain ⟨j, hj, hge'⟩ := hlater other hother
            rw [hj] at hinfo'
            rw [← Except.ok.inj hinfo']
            exact hge'

theorem runCalls_append (lib : Externals) (calls calls' : List Call) :
    ∀ s, runCalls lib s (calls ++ calls') = runCalls lib (runCalls lib s calls) calls' := by
  induction calls with
  | nil => exact fun _ => rfl
  | cons call rest ih => exact fun s => ih (call.run lib s).store

/-- What a run leaves of the flags and the keys of its store. -/
theorem runCalls_flags (lib : Externals) (calls : List Call) :
    ∀ s : Store, (runCalls lib s calls).applyChanges = s.applyChanges ∧
      (runCalls lib s calls).db.retainEntries = s.db.retainEntries ∧
      (runCalls lib s calls).db.symmetricKeys = s.db.symmetricKeys := by
  induction calls with
  | nil => exact fun _ => ⟨rfl, rfl, rfl⟩
  | cons call rest ih =>
      intro s
      obtain ⟨hflag, hretain, hkeys⟩ := ih (call.run lib s).store
      unfold runCalls
      rw [hflag, hretain, hkeys]
      cases applyBundle_step lib s call.bundle call.callback call.claimChain call.clock with
      | kept hdb hflag' _ =>
          have hdb : (call.run lib s).store.db = s.db := hdb
          exact ⟨hflag', by rw [hdb], by rw [hdb]⟩
      | committed builder _ info _ _ hw hflag' _ => exact ⟨hflag', hw.retainEntries, hw.symmetricKeys⟩

/-- Bundles of later times leave the rows of before the time alone. -/
theorem runCalls_agreeBefore {i : Muid} (hi : Muid.instant t = .ok i) (ht : 0 < t)
    (hlate : ∀ call ∈ calls, ∀ time, call.StampedAt lib time → t ≤ time) {s : Store}
    (happly : s.applyChanges = true) (hretain : s.db.retainEntries = true) :
    AgreeBefore i s.db.contents (runCalls lib s calls).db.contents := by
  refine runCalls_each (P := fun _ c => AgreeBefore i s.db.contents c) ?_ happly hretain rfl
    (.refl i _)
  rintro past call c c' hpart hagree (rfl | ⟨b, seen, seen', hopen, happlied⟩)
  · exact hagree
  · have hafter := hlate call (hpart.subset (by simp)) _ (stampedAt_of_opened hopen)
    refine hagree.trans (applyChangesFrom_agreeBefore ?_ happlied)
    intro offset a hm
    have htime := (changeMuid_eq_ok hm).1
    have hnot : ¬ a.toBytes < i.toBytes := by
      rw [toBytes_lt_instant hi ht]
      omega
    rw [Muid.toBytes_lt_iff] at hnot
    exact not_lt.mp hnot

/-- A row of the placements after the changes of a bundle was there before or was put by one of
them. -/
theorem applyChangesFrom_placements {committed : Contents} {retaining : Bool} {info : BundleInfo}
    {changes : List ChangeBuilder} {offset : Nat} {seen seen' : List Muid} {c c' : Contents}
    (h : applyChangesFrom lib committed retaining info offset changes seen c = (seen', .ok c')) :
    ∀ row ∈ c'.placements.rows,
      row ∈ c.placements.rows ∨ ∃ op ∈ opsFrom info offset changes, op.Places row.1 := by
  have hstart : ∀ row ∈ c.placements.rows,
      row ∈ c.placements.rows ∨ ∃ op ∈ ([] : List Op), op.Places row.1 :=
    fun row hrow => Or.inl hrow
  refine applyChangesFrom_along (P := fun ops now => ∀ row ∈ now.placements.rows,
    row ∈ c.placements.rows ∨ ∃ op ∈ ops, op.Places row.1) ?_ hstart h
  intro ops offset change seen seen' now next hnow hone row hrow
  rcases applyChange_placements hone row hrow with hold | hnew
  · rcases hnow row hold with hold | ⟨op, hop, hplaces⟩
    · exact Or.inl hold
    · exact Or.inr ⟨op, List.mem_append_left _ hop, hplaces⟩
  · exact Or.inr ⟨_, List.mem_append_right _ (List.mem_singleton_self _), hnew⟩

/-- The rows of an ordered container read back, after any calls. -/
theorem runCalls_inPlace (hqueued : ∀ call ∈ calls, call.Queued lib keys)
    (hforward : ∀ call ∈ calls, call.Forward lib keys) {s : Store}
    (happly : s.applyChanges = true) (hretain : s.db.retainEntries = true)
    (hkeys : s.db.symmetricKey = keys) (hempty : s.db.contents = {}) (container : Muid) :
    ∀ row ∈ (runCalls lib s calls).db.contents.placements.rows,
      container.toBytes.isPrefixOf row.1 = true → InPlace container row.1 := by
  refine runCalls_each (P := fun _ c => ∀ row ∈ c.placements.rows,
    container.toBytes.isPrefixOf row.1 = true → InPlace container row.1) ?_ happly hretain hkeys ?_
  · rintro past call c c' hpart hc (rfl | ⟨b, seen, seen', hopen, happlied⟩)
    · exact hc
    · have hcall : call ∈ calls := hpart.subset (by simp)
      intro row hrow hpre
      rcases applyChangesFrom_placements happlied row hrow with hold | ⟨op, hop, hplaces⟩
      · exact hc row hold hpre
      · have hchange := (mem_opsFrom hop).2.2
        have hkind := (hqueued call hcall b hopen).2 op.change hchange
        have hplace := hforward call hcall b hopen op.change hchange
        refine hplaces.inPlace ?_ ?_ hpre
        · obtain ⟨info, offset, change⟩ := op
          cases change with
          | entry builder => exact fun _ _ _ => hkind
          | container builder => trivial
          | movement builder => trivial
          | clearance builder => trivial
          | unset => trivial
        · obtain ⟨info, offset, change⟩ := op
          cases change with
          | entry builder => exact fun _ _ _ => hplace
          | movement builder => exact fun _ => hplace
          | container builder => trivial
          | clearance builder => trivial
          | unset => trivial
  · rw [hempty]
    exact fun row hrow => absurd hrow List.not_mem_nil

end

/-- **Time travel for ordered containers.**  For bundles applied in the order of their
timestamps, none of which is stamped with the reserved time or gives a position that sorts
behind, both reads at a time find what they find when only the bundles of before that time were
applied. -/
theorem ordered_time_travel (lib : Externals) (symmetricKeys : Table Bytes Bytes)
    (retainBundles : Bool) (calls : List Call) (horder : InOrder lib calls)
    (hqueued : ∀ call ∈ calls,
      call.Queued lib (newStore symmetricKeys retainBundles true).db.symmetricKey)
    (hforward : ∀ call ∈ calls,
      call.Forward lib (newStore symmetricKeys retainBundles true).db.symmetricKey)
    (t : Int) (ht : 0 < t) (container entry : Muid) :
    getOrderedEntries (runCalls lib (newStore symmetricKeys retainBundles true) calls).db.contents
        container t
      = getOrderedEntries (runCalls lib (newStore symmetricKeys retainBundles true)
          (calls.filter (Call.isBefore lib t))).db.contents container t ∧
    getPositionedEntry (runCalls lib (newStore symmetricKeys retainBundles true) calls).db.contents
        entry t
      = getPositionedEntry (runCalls lib (newStore symmetricKeys retainBundles true)
          (calls.filter (Call.isBefore lib t))).db.contents entry t := by
  cases hi : Muid.instant t with
  | error e =>
      unfold getOrderedEntries timeOfPriorClear getPositionedEntry getLocation
      rw [hi]
      exact ⟨rfl, rfl⟩
  | ok i =>
      obtain ⟨late, hsplit, hlate⟩ := horder.split t
      have hearly : ∀ call ∈ calls.filter (Call.isBefore lib t), call ∈ calls := fun call hcall =>
        (List.mem_filter.mp hcall).1
      have hcourses := runCalls_courses horder.distinctTimes hqueued
        (s := newStore symmetricKeys retainBundles true) rfl rfl rfl rfl
      have hcourses₀ := runCalls_courses (horder.distinctTimes.sublist List.filter_sublist)
        (fun call hcall => hqueued call (hearly call hcall))
        (s := newStore symmetricKeys retainBundles true) rfl rfl rfl rfl
      have hpast : ∀ e m, Located (runCalls lib (newStore symmetricKeys retainBundles true)
          (calls.filter (Call.isBefore lib t))).db.contents e m → (m.timeField.val : Int) < t := by
        intro e m hl
        obtain ⟨call, hcall, info, hinfo, htime⟩ := hcourses₀.2 e m hl
        have hbefore := (List.mem_filter.mp hcall).2
        unfold Call.isBefore at hbefore
        rw [hinfo] at hbefore
        have hlt := of_decide_eq_true hbefore
        omega
      have hagree : AgreeBefore i (runCalls lib (newStore symmetricKeys retainBundles true)
          (calls.filter (Call.isBefore lib t))).db.contents
          (runCalls lib (newStore symmetricKeys retainBundles true) calls).db.contents := by
        obtain ⟨hflag, hretain, -⟩ := runCalls_flags lib (calls.filter (Call.isBefore lib t))
          (newStore symmetricKeys retainBundles true)
        have h := runCalls_agreeBefore hi ht hlate hflag hretain
        rw [← runCalls_append, ← hsplit] at h
        exact h
      refine ⟨getOrderedEntries_past ⟨hcourses.1, ?_⟩ ⟨hcourses₀.1, ?_⟩ hi ht hagree hpast,
        getPositionedEntry_past hcourses₀.1 hi ht hagree hpast entry⟩
      · exact runCalls_inPlace hqueued hforward rfl rfl rfl rfl container
      · exact runCalls_inPlace (fun call hcall => hqueued call (hearly call hcall))
          (fun call hcall => hforward call (hearly call hcall)) rfl rfl rfl rfl container

/-- One chain adds an entry to the global sequence, another one moves it later on. -/
def movingWriters (dest : Int) : List BundleBuilder :=
  [startingBundle 5 1 [sampleEntry .sequence none "entry"],
    startingBundle 7 2 [.movement {
      container := globalBuilder .sequence, entry := ⟨5, 1, 1⟩, dest }]]

/-- The store with the first of their bundles, or with both. -/
def movedLmdb (dest : Int) (calls : List Call) : Contents :=
  (runCalls (sampleExternals (movingWriters dest)) (newStore ∅ true true) calls).db.contents

theorem inOrder_moving (dest : Int) :
    InOrder (sampleExternals (movingWriters dest)) [sampleCall 0 1, sampleCall 1 2] :=
  List.pairwise_pair.mpr ⟨_, _, rfl, rfl, by show (5 : U64) < 7; decide⟩

/-- What the two bundles open to. -/
theorem opened_moving {dest : Int} {keys : U64 → Except Error Bytes} {call : Call}
    (hcall : call ∈ [sampleCall 0 1, sampleCall 1 2]) {b : OpenBundle}
    (hopen : call.bundle.opened (sampleExternals (movingWriters dest)) keys = .ok b) :
    (b.info.timestamp = 5 ∧ b.changes = [sampleEntry .sequence none "entry"]) ∨
      (b.info.timestamp = 7 ∧ b.changes = [.movement {
        container := globalBuilder .sequence, entry := ⟨5, 1, 1⟩, dest }]) := by
  rcases List.mem_pair.mp hcall with rfl | rfl
  · rw [← Except.ok.inj (hopen : Except.ok _ = _)]
    exact Or.inl ⟨rfl, rfl⟩
  · rw [← Except.ok.inj (hopen : Except.ok _ = _)]
    exact Or.inr ⟨rfl, rfl⟩

theorem queued_moving {dest : Int} {keys : U64 → Except Error Bytes} {call : Call}
    (hcall : call ∈ [sampleCall 0 1, sampleCall 1 2]) :
    call.Queued (sampleExternals (movingWriters dest)) keys := by
  intro b hopen
  rcases opened_moving hcall hopen with ⟨htime, hchanges⟩ | ⟨htime, hchanges⟩
  · rw [htime, hchanges]
    exact ⟨by decide, by simp [sampleEntry, IsQueued]⟩
  · rw [htime, hchanges]
    exact ⟨by decide, by simp [IsQueued]⟩

/-- An entry that is moved forwards is read in its old place at the time before. -/
theorem ordered_time_travel_sample :
    getOrderedEntries (movedLmdb 9 [sampleCall 0 1, sampleCall 1 2]) (globalMuid .sequence) 6
      = getOrderedEntries (movedLmdb 9 ([sampleCall 0 1, sampleCall 1 2].filter
          (Call.isBefore (sampleExternals (movingWriters 9)) 6))) (globalMuid .sequence) 6 ∧
    getPositionedEntry (movedLmdb 9 [sampleCall 0 1, sampleCall 1 2]) ⟨5, 1, 1⟩ 6
      = getPositionedEntry (movedLmdb 9 ([sampleCall 0 1, sampleCall 1 2].filter
          (Call.isBefore (sampleExternals (movingWriters 9)) 6))) ⟨5, 1, 1⟩ 6 := by
  apply ordered_time_travel
  · exact inOrder_moving 9
  · exact fun call hcall => queued_moving hcall
  · intro call hcall b hopen
    rcases opened_moving hcall hopen with ⟨-, hchanges⟩ | ⟨-, hchanges⟩
    · rw [hchanges]
      simp [sampleEntry, PlacesForward]
    · rw [hchanges]
      simp [PlacesForward]
  · norm_num

/-- **Moved behind the infinite position**, the entry is in the way of a scan at any earlier
time: the read raises, which without the movement finds the entry. -/
theorem ordered_time_travel_astray :
    InOrder (sampleExternals (movingWriters (-5))) [sampleCall 0 1, sampleCall 1 2] ∧
    (∀ call ∈ [sampleCall 0 1, sampleCall 1 2],
      call.Queued (sampleExternals (movingWriters (-5))) (newStore ∅ true true).db.symmetricKey) ∧
    (getOrderedEntries (movedLmdb (-5) [sampleCall 0 1, sampleCall 1 2]) (globalMuid .sequence) 6).map
      (List.map (·.entryMuid)) = .error (.assertionError "before the after time in ascending order?") ∧
    (getOrderedEntries (movedLmdb (-5) ([sampleCall 0 1, sampleCall 1 2].filter
        (Call.isBefore (sampleExternals (movingWriters (-5))) 6))) (globalMuid .sequence) 6).map
      (List.map (·.entryMuid)) = .ok [⟨5, 1, 1⟩] := by
  refine ⟨inOrder_moving (-5), fun call hcall => queued_moving hcall, ?_, ?_⟩
  · decide +kernel
  · decide +kernel

end Lmdb

end Gink
