/-
  Gink.Lmdb.Keyed — keyed reads of an `LmdbStore` against the view of the container.

  A lookup makes one seek and finds the key's record.  The listing hops from key to
  key; `getKeyedEntries_eq` says what it yields for each, which is the key's record
  except where the entry the key was parsed from is not the one the cursor was moved
  back to.
-/
import Gink.Lmdb.Reads
import Gink.Lmdb.Clearances
import Gink.Keyed.View

namespace Gink

namespace Lmdb

/-! ## §1. Keyed containers. -/

/-- The container is a keyed one of the behavior: each of its placements is that of an
entry without expiry under a key of the kind.  The all-ones time field, which stands
for -1, is the time of none. -/
def KeyedContainer (c : Contents) (container : Muid) (behavior : Behavior) : Prop :=
  ∀ row ∈ c.placements.rows, container.toBytes <+: row.1 → ∃ k b m, KeyOf behavior k ∧
    k.toBytes = .ok b ∧ row = (rowKey container b m, m.toBytes) ∧ m.timeField.val < 2 ^ 52 - 1

/-- The container is a keyed one of the behavior, with entries that expire. -/
def KeyedRows (c : Contents) (container : Muid) (behavior : Behavior) (expiry : Muid → U64) : Prop :=
  ∀ row ∈ c.placements.rows, container.toBytes <+: row.1 → ∃ k b m, KeyOf behavior k ∧
    k.toBytes = .ok b ∧ row = (expiringKey container b m (expiry m), m.toBytes) ∧
    m.timeField.val < 2 ^ 52 - 1

/-- What the tables say about a container with entries that expire. -/
def viewOf (c : Contents) (container : Muid) (behavior : Behavior) (expiry : Muid → U64) :
    KeyedView where
  has k m := KeyOf behavior k ∧ ∃ b, k.toBytes = .ok b ∧
    (expiringKey container b m (expiry m), m.toBytes) ∈ c.placements.rows
  cleared z := ∃ value, (container.toBytes ++ z.toBytes, value) ∈ c.clearances.rows
  builderOf m := c.entries.get? m.toBytes

/-- What the tables say about it. -/
def keyedView (c : Contents) (container : Muid) (behavior : Behavior) : KeyedView where
  has k m := KeyOf behavior k ∧ ∃ b, k.toBytes = .ok b ∧
    (rowKey container b m, m.toBytes) ∈ c.placements.rows
  cleared z := ∃ value, (container.toBytes ++ z.toBytes, value) ∈ c.clearances.rows
  builderOf m := c.entries.get? m.toBytes

/-- The placements of the container are those of stored entries, and the clearances are in
order. -/
structure Readable (c : Contents) (container : Muid) : Prop where
  entries : ∀ row ∈ c.placements.rows, container.toBytes <+: row.1 → (c.entries.get? row.2).isSome
  container : ∀ row ∈ c.placements.rows, container.toBytes <+: row.1 → container.timeField.val ≠ 0
  clearances : ClearanceKeys c

theorem Retained.readable {c : Contents} (hc : Retained c) (container : Muid) :
    Readable c container :=
  ⟨fun row hrow _ => hc.entries row hrow, fun row hrow => hc.containers row hrow container,
    hc.clearances⟩

theorem Readable.stored {c : Contents} {container : Muid} (hc : Readable c container) {row : Bytes}
    {value : Bytes} (hpre : container.toBytes <+: row) (hrow : (row, value) ∈ c.placements.rows) :
    ∃ builder, c.entries.get? value = some builder :=
  Option.isSome_iff_exists.mp (hc.entries _ hrow hpre)

section
variable {c : Contents} {container : Muid} {behavior : Behavior} {expiry : Muid → U64}
  {asOf : Int} {instant : Muid}

/-! ## §2. The latest clearance. -/

/-- The rows the seek for a clearance ranges over. -/
theorem clearance_row (hc : ClearanceKeys c) {row : Bytes × ClearanceBuilder}
    (hrow : row ∈ c.clearances.rows) (hpre : container.toBytes.isPrefixOf row.1 = true) :
    ∃ z : Muid, row.1 = container.toBytes ++ z.toBytes ∧ z.timeField.val ≠ 0 := by
  obtain ⟨container', z, hkey, hz⟩ := hc row hrow
  have hprefix := List.isPrefixOf_iff_prefix.mp hpre
  rw [hkey] at hprefix
  have hbytes : container.toBytes = container'.toBytes :=
    Bytes.prefix_unique (by simp) hprefix (List.prefix_append _ _)
  exact ⟨z, by rw [hbytes, hkey], hz⟩

theorem slice_clearance (container z : Muid) :
    slice (container.toBytes ++ z.toBytes) 16 32 = z.toBytes := by
  unfold slice
  rw [List.take_of_length_le (by simp), List.drop_left' (Muid.length_toBytes container)]

/-- **`_get_time_of_prior_clear`** finds the latest clearance before the time. -/
theorem timeOfPriorClear_found (container : Muid) (hc : ClearanceKeys c)
    (hi : Muid.instant asOf = .ok instant) :
    (timeOfPriorClear c container asOf = .ok 0 ∧
      ∀ z, Recorded c container z → ¬ KeyedView.Before asOf z) ∨
    ∃ z, timeOfPriorClear c container asOf = .ok z.timestamp ∧
      IsGreatest {z | Recorded c container z ∧ KeyedView.Before asOf z} z := by
  have hlast := toLastSuffix_eq c.clearances container.toBytes instant.toBytes
  have hbelow : ∀ z : Muid, (container.toBytes.isPrefixOf (container.toBytes ++ z.toBytes) &&
      decide (container.toBytes ++ z.toBytes < container.toBytes ++ instant.toBytes)) = true ↔
      KeyedView.Before asOf z := by
    intro z
    have hpre : container.toBytes.isPrefixOf (container.toBytes ++ z.toBytes) = true :=
      List.isPrefixOf_iff_prefix.mpr (List.prefix_append _ _)
    rw [hpre, Bool.true_and, decide_eq_true_eq, Bytes.append_lt_append_left_iff,
      Muid.toBytes_lt_iff, KeyedView.before_iff hi]
  unfold timeOfPriorClear
  rw [hi]
  cases hfound : toLastSuffix c.clearances container.toBytes instant.toBytes with
  | none =>
      rw [hfound] at hlast
      have hnone := Table.lastWhere_eq_none_iff.mp hlast.symm
      refine Or.inl ⟨by simp [hfound, bind, Except.bind, pure, Except.pure], ?_⟩
      rintro z ⟨value, hz⟩ hzb
      have := hnone _ hz
      rw [(hbelow z).mpr hzb] at this
      exact absurd this (by simp)
  | some found =>
      rw [hfound] at hlast
      obtain ⟨hrow, hp, hmax⟩ := Table.lastWhere_eq_some_iff.mp hlast.symm
      obtain ⟨z, hkey, -⟩ := clearance_row hc hrow ((Bool.and_eq_true _ _).mp hp).1
      obtain ⟨key, value⟩ := found
      simp only at hkey hp hmax
      subst hkey
      refine Or.inr ⟨z, ?_, ⟨⟨value, hrow⟩, (hbelow z).mp hp⟩, ?_⟩
      · simp only [bind, Except.bind, hfound, slice_clearance, Muid.fromBytes_toBytes, pure,
          Except.pure]
      · rintro y ⟨⟨value, hy⟩, hyb⟩
        have hle := hmax _ hy ((hbelow y).mpr hyb)
        rw [Bytes.append_le_append_left_iff, Muid.toBytes_le_iff] at hle
        exact hle

/-- What is older than that time is hidden. -/
theorem timeOfPriorClear_eq (container : Muid) (behavior : Behavior) (expiry : Muid → U64) (hc : Readable c container)
    (hi : Muid.instant asOf = .ok instant) :
    ∃ time : Nat, timeOfPriorClear c container asOf = .ok (time : Int) ∧
      ∀ m, (viewOf c container behavior expiry).Hidden asOf m ↔ m.timeField.val < time := by
  rcases timeOfPriorClear_found container hc.clearances hi with ⟨hzero, hnone⟩ | ⟨z, htime, hz⟩
  · refine ⟨0, hzero, fun m => ⟨?_, fun h => absurd h (Nat.not_lt_zero _)⟩⟩
    rintro ⟨z, hz, -⟩
    exact absurd hz.1.2 (hnone z hz.1.1)
  · refine ⟨z.timeField.val, ?_, fun m => ⟨?_, fun hlt => ⟨z, hz, hlt⟩⟩⟩
    · rw [htime, KeyedView.Before.timestamp hi hz.1.2]
    · rintro ⟨y, hy, hlt⟩
      rw [hy.unique hz] at hlt
      exact hlt

/-! ## §3. Lookups. -/

/-- The rows of one key. -/
theorem KeyedRows.row {k : MiddleKey} {b : Bytes} (hkc : KeyedRows c container behavior expiry)
    (hk : KeyOf behavior k) (hb : k.toBytes = .ok b) {row : Bytes × Bytes}
    (hrow : row ∈ c.placements.rows) (hpre : container.toBytes ++ b <+: row.1) :
    ∃ m, row = (expiringKey container b m (expiry m), m.toBytes) ∧ (viewOf c container behavior expiry).has k m := by
  obtain ⟨k', b', m, hk', hb', rfl, -⟩ := hkc row hrow ((List.prefix_append _ _).trans hpre)
  obtain rfl := key_eq_of_head hk hk' hb hb' hpre
  obtain rfl : b = b' := (hk.packed_inj hk' hb hb').mpr rfl
  exact ⟨m, rfl, hk, b, hb, hrow⟩

/-- **The seek for a key** lands on what was last written to it before the time. -/
theorem seek_key (hkc : KeyedRows c container behavior expiry)
    (hi : Muid.instant asOf = .ok instant) {k : MiddleKey} {b : Bytes} (hk : KeyOf behavior k)
    (hb : k.toBytes = .ok b) :
    (toLastSuffix c.placements (container.toBytes ++ b) instant.toBytes = none ∧
      ∀ m, (viewOf c container behavior expiry).has k m → ¬ KeyedView.Before asOf m) ∨
    ∃ m, toLastSuffix c.placements (container.toBytes ++ b) instant.toBytes
        = some (expiringKey container b m (expiry m), m.toBytes) ∧
      (viewOf c container behavior expiry).Visible asOf k m := by
  have hlast := toLastSuffix_eq c.placements (container.toBytes ++ b) instant.toBytes
  have hsel : ∀ m : Muid, ((container.toBytes ++ b).isPrefixOf (expiringKey container b m (expiry m)) &&
      decide (expiringKey container b m (expiry m) < container.toBytes ++ b ++ instant.toBytes)) = true ↔
      KeyedView.Before asOf m := by
    intro m
    have hpre : (container.toBytes ++ b).isPrefixOf (expiringKey container b m (expiry m)) = true :=
      List.isPrefixOf_iff_prefix.mpr (prefix_expiringKey container b m (expiry m))
    rw [hpre, Bool.true_and, decide_eq_true_eq, expiringKey_lt_append, KeyedView.before_iff hi]
  have hrows : ∀ m, (viewOf c container behavior expiry).has k m →
      (expiringKey container b m (expiry m), m.toBytes) ∈ c.placements.rows := by
    rintro m ⟨-, b', hb', hmem⟩
    rw [hb] at hb'
    injection hb' with hb'
    rw [hb']
    exact hmem
  cases hfound : toLastSuffix c.placements (container.toBytes ++ b) instant.toBytes with
  | none =>
      rw [hfound] at hlast
      refine Or.inl ⟨rfl, fun m hm hbefore => ?_⟩
      have := Table.lastWhere_eq_none_iff.mp hlast.symm _ (hrows m hm)
      rw [(hsel m).mpr hbefore] at this
      exact absurd this (by simp)
  | some found =>
      rw [hfound] at hlast
      obtain ⟨hrow, hp, hmax⟩ := Table.lastWhere_eq_some_iff.mp hlast.symm
      have hpre := List.isPrefixOf_iff_prefix.mp ((Bool.and_eq_true _ _).mp hp).1
      obtain ⟨m, rfl, hm⟩ := hkc.row hk hb hrow hpre
      refine Or.inr ⟨m, rfl, ⟨hm, (hsel m).mp hp⟩, ?_⟩
      rintro n ⟨hn, hnb⟩
      exact (expiringKey_le_expiringKey expiry container b).mp (hmax _ (hrows n hn) ((hsel n).mpr hnb))

theorem lookupKey_eq {k : MiddleKey} {b : Bytes} (hk : KeyOf behavior k) (hb : k.toBytes = .ok b) :
    ∃ behavior', lookupKey k = .ok (b, behavior') ∧ KeyOf behavior' k := by
  cases k with
  | none =>
      injection hb with hb
      exact ⟨.box, by rw [← hb]; rfl, trivial⟩
  | key k =>
      refine ⟨.directory, ?_, trivial⟩
      show (encodeKey k).map _ = _
      rw [show encodeKey k = .ok b from hb]
      rfl
  | muid m =>
      injection hb with hb
      exact ⟨.property, by rw [← hb]; rfl, trivial⟩
  | pair l r =>
      injection hb with hb
      exact ⟨.pairMap, by rw [← hb]; rfl, trivial⟩
  | queue t => cases behavior <;> exact absurd hk id

/-- **Lookups are right**: `get_entry_by_key` finds the record of the key. -/
theorem getEntryByKey_looksUp (hkc : KeyedRows c container behavior expiry) (hc : Readable c container)
    (hi : Muid.instant asOf = .ok instant) :
    (viewOf c container behavior expiry).LooksUpRight asOf behavior
      (fun k => getEntryByKey c container k asOf) := by
  intro k b hk hb
  obtain ⟨time, htime, hhidden⟩ := timeOfPriorClear_eq container behavior expiry hc hi
  obtain ⟨behavior', hlookup, hk'⟩ := lookupKey_eq hk hb
  unfold getEntryByKey
  split_ifs with hzero
  · -- nothing is ever written to such a container
    refine ⟨none, rfl, fun r => ⟨by simp, fun hr => ?_⟩⟩
    obtain ⟨-, b', hb', hmem⟩ := hr.visible.1.1
    have hne := hc.container _ hmem (container_prefix_expiringKey _ _ _ _)
    refine absurd ?_ hne
    unfold Muid.timestamp at hzero
    split_ifs at hzero
    omega
  · simp only [htime, hlookup, hi, bind, Except.bind]
    rcases seek_key hkc hi hk hb with ⟨hnone, hno⟩ | ⟨m, hsome, hm⟩
    · rw [hnone]
      refine ⟨none, rfl, fun r => ⟨by simp, fun hr => ?_⟩⟩
      exact absurd hr.visible.before (hno _ hr.visible.1.1)
    · rw [hsome]
      simp only [fromBytes_expiringKey container m _ hk' hb, hm.before.timestamp hi]
      obtain ⟨builder, hbuilder⟩ : ∃ builder, c.entries.get? m.toBytes = some builder := by
        obtain ⟨-, b', -, hmem⟩ := hm.1.1
        exact hc.stored (container_prefix_expiringKey container b' _ _) hmem
      by_cases hold : (m.timeField.val : Int) < (time : Int)
      · rw [if_pos hold]
        refine ⟨none, rfl, fun r => ⟨by simp, fun hr => ?_⟩⟩
        have hkept := hr.kept
        rw [hr.visible.unique hm] at hkept
        exact absurd ((hhidden m).mpr (by omega)) hkept
      · rw [if_neg hold]
        unfold readEntry
        rw [hbuilder]
        refine ⟨some ⟨m, builder⟩, rfl, fun r => ⟨?_, fun hr => ?_⟩⟩
        · intro hr
          injection hr with hr
          subst hr
          exact ⟨hm, fun hh => hold (by have := (hhidden m).mp hh; omega), hbuilder⟩
        · have haddress := hr.visible.unique hm
          have hb' := hr.builder
          rw [haddress] at hb'
          have : some r.builder = some builder := hb'.symm.trans hbuilder
          injection this with this
          rw [← haddress, ← this]

/-! ## §4. The listing, key by key. -/

/-- What the listing yields for a key: the address is always that of the newest entry, and so
is the expiry it looks at; the contents are those of the last one before the time. -/
def ListedAt (c : Contents) (container : Muid) (behavior : Behavior) (expiry : Muid → U64)
    (asOf : Int) (k : MiddleKey) (r : FoundEntry) : Prop :=
  (viewOf c container behavior expiry).Newest k r.address ∧ ¬ Expired asOf (expiry r.address) ∧
    ((KeyedView.Before asOf r.address ∧ (viewOf c container behavior expiry).IsRecord asOf k r) ∨
      (¬ KeyedView.Before asOf r.address ∧ ∃ m, (viewOf c container behavior expiry).Visible asOf k m ∧
        c.entries.get? m.toBytes = some r.builder))

/-- Whether the source finds an entry too new. -/
theorem tooNew_iff (hi : Muid.instant asOf = .ok instant) {m : Muid}
    (hm : m.timeField.val < 2 ^ 52 - 1) :
    m.timestamp ≥ asOf ↔ ¬ KeyedView.Before asOf m ∨ asOf = -1 := by
  obtain ⟨⟨h1, h2⟩, -⟩ := Muid.instant_eq_ok.mp hi
  rw [Muid.timestamp_of_ne (by omega)]
  unfold KeyedView.Before Muid.instantField
  by_cases hneg : asOf = -1
  · subst hneg
    simp only [or_true, iff_true]
    omega
  · simp only [hneg, or_false]
    omega

/-- **The row settled on** for the key whose newest entry is under the cursor. -/
theorem keyedRow_eq (hkc : KeyedRows c container behavior expiry)
    (hi : Muid.instant asOf = .ok instant) {k : MiddleKey} {b : Bytes} {m : Muid}
    (hk : KeyOf behavior k) (hb : k.toBytes = .ok b) (hnew : (viewOf c container behavior expiry).Newest k m)
    (hm : m.timeField.val < 2 ^ 52 - 1) :
    (keyedRow c behavior asOf instant (expiringKey container b m (expiry m), m.toBytes) = .ok none ∧
      ∀ n, ¬ (viewOf c container behavior expiry).Visible asOf k n) ∨
    ∃ n, (viewOf c container behavior expiry).Visible asOf k n ∧
      keyedRow c behavior asOf instant (expiringKey container b m (expiry m), m.toBytes)
        = .ok (some ⟨expiringKey container b n (expiry n), ⟨container, k, m, readExpiry (expiry m)⟩, n.toBytes⟩) := by
  unfold keyedRow
  simp only [fromBytes_expiringKey container m _ hk hb, bind, Except.bind]
  by_cases hnewer : m.timestamp ≥ asOf
  · rw [if_pos hnewer, expiringKey_throughMiddle]
    rcases seek_key hkc hi hk hb with ⟨hnone, hno⟩ | ⟨n, hsome, hn⟩
    · rw [hnone]
      exact Or.inl ⟨rfl, fun n hn => hno n hn.1.1 hn.before⟩
    · rw [hsome]
      exact Or.inr ⟨n, hn, rfl⟩
  · rw [if_neg hnewer]
    rw [tooNew_iff hi hm, not_or, not_not] at hnewer
    exact Or.inr ⟨m, hnew.visible hnewer.1, rfl⟩

/-- **One turn of the loop** yields what is listed for the key and hops below it. -/
theorem keyedLoop_step (hkc : KeyedRows c container behavior expiry) (hc : Readable c container)
    (hi : Muid.instant asOf = .ok instant) {time : Nat}
    (hhidden : ∀ m, (viewOf c container behavior expiry).Hidden asOf m ↔ m.timeField.val < time)
    {k : MiddleKey} {b : Bytes} {m : Muid} (hk : KeyOf behavior k) (hb : k.toBytes = .ok b)
    (hnew : (viewOf c container behavior expiry).Newest k m) (hm : m.timeField.val < 2 ^ 52 - 1) (fuel : Nat)
    {later : List FoundEntry}
    (hlater : keyedLoop c container behavior asOf instant time fuel
      (toLastSuffix c.placements container.toBytes b) = .ok later) :
    ∃ head : Option FoundEntry, keyedLoop c container behavior asOf instant time (fuel + 1)
        (some (expiringKey container b m (expiry m), m.toBytes)) = .ok (head.toList ++ later) ∧
      ∀ r, head = some r ↔ ListedAt c container behavior expiry asOf k r := by
  have hslice : ∀ n, middleBytes (expiringKey container b n (expiry n)) = b := fun n =>
    (expiringKey_slices container b n _).2.1
  unfold keyedLoop
  rcases keyedRow_eq hkc hi hk hb hnew hm with ⟨hrow, hno⟩ | ⟨n, hn, hrow⟩
  · simp only [hrow, bind, Except.bind, hslice]
    refine ⟨none, hlater, fun r => ⟨by simp, ?_⟩⟩
    rintro ⟨-, -, ⟨-, hr⟩ | ⟨-, n, hn, -⟩⟩
    · exact absurd hr.visible (hno _)
    · exact absurd hn (hno n)
  · simp only [hrow, bind, Except.bind, hslice]
    obtain ⟨builder, hbuilder⟩ : ∃ builder, c.entries.get? n.toBytes = some builder := by
      obtain ⟨-, b', -, hmem⟩ := hn.1.1
      exact hc.stored (container_prefix_expiringKey container b' _ _) hmem
    have htime : m.timestamp = m.timeField.val := Muid.timestamp_of_ne (by omega)
    -- a newest entry before the time is the one settled on
    have hsame : KeyedView.Before asOf m → n = m := fun hbefore => hn.unique (hnew.visible hbefore)
    by_cases hold : (time : Int) ≠ 0 ∧ m.timestamp < time
    · rw [if_pos hold]
      have hhide : (viewOf c container behavior expiry).Hidden asOf m := (hhidden m).mpr (by omega)
      refine ⟨none, hlater, fun r => ⟨by simp, ?_⟩⟩
      rintro ⟨hr, -, ⟨-, hrec⟩ | ⟨hnot, -⟩⟩
      · have hkept := hrec.kept
        rw [IsGreatest.unique hr hnew] at hkept
        exact absurd hhide hkept
      · -- a clearance before the time hides only what is before the time
        rw [IsGreatest.unique hr hnew] at hnot
        obtain ⟨z, hz, hlt⟩ := hhide
        exact (hnot (lt_trans (show m.timeField.val < z.timeField.val from hlt) hz.1.2)).elim
    · rw [if_neg hold]
      have hshow : ¬ (viewOf c container behavior expiry).Hidden asOf m := by
        intro hhide
        have := (hhidden m).mp hhide
        exact hold ⟨by omega, by omega⟩
      by_cases hexpired : (readExpiry (expiry m)).any (fun e => decide (e < asOf)) = true
      · rw [if_pos hexpired]
        refine ⟨none, hlater, fun r => ⟨by simp, ?_⟩⟩
        rintro ⟨hr, hnot, -⟩
        rw [IsGreatest.unique hr hnew] at hnot
        exact absurd (expired_iff.mp hexpired) hnot
      · rw [if_neg hexpired]
        rw [expired_iff] at hexpired
        unfold readEntry
        simp only [hbuilder, orRaise_some, hlater, pure, Except.pure]
        refine ⟨some ⟨m, builder⟩, rfl, fun r => ⟨?_, fun hr => ?_⟩⟩
        · intro hr
          rw [← Option.some.inj hr]
          refine ⟨hnew, hexpired, ?_⟩
          by_cases hbefore : KeyedView.Before asOf m
          · rw [hsame hbefore] at hbuilder
            exact Or.inl ⟨hbefore, hnew.visible hbefore, hshow, hbuilder⟩
          · exact Or.inr ⟨hbefore, n, hn, hbuilder⟩
        · obtain ⟨hr, -, hcase⟩ := hr
          obtain ⟨address, contents⟩ := r
          obtain rfl : address = m := IsGreatest.unique hr hnew
          have hcontents : c.entries.get? n.toBytes = some contents := by
            rcases hcase with ⟨hbefore, hrec⟩ | ⟨-, n', hn', hbuilder'⟩
            · rw [hsame hbefore]
              exact hrec.builder
            · rw [hn.unique hn']
              exact hbuilder'
          rw [hbuilder] at hcontents
          injection hcontents with hcontents
          rw [hcontents]

/-- A set of keys to list: rows of one key are all in it or all out, and with a row
all smaller ones are in it. -/
structure Cut (container : Muid) (behavior : Behavior) (q : Bytes → Bool) : Prop where
  key : ∀ k b m n e e', KeyOf behavior k → k.toBytes = .ok b →
    q (expiringKey container b m e) = q (expiringKey container b n e')
  down : ∀ x y, x ≤ y → q y = true → q x = true

theorem Cut.all : Cut container behavior (fun _ => true) := ⟨fun _ _ _ _ _ _ _ _ => rfl, fun _ _ _ _ => rfl⟩

/-- What is below a key. -/
theorem Cut.below {k : MiddleKey} {b : Bytes} (hk : KeyOf behavior k) (hb : k.toBytes = .ok b) :
    Cut container behavior (fun x => decide (x < container.toBytes ++ b)) := by
  refine ⟨?_, ?_⟩
  · intro k' b' m n e e' hk' hb'
    simp only [expiringKey_lt_key hk' hk hb' hb]
  · intro x y hxy hy
    simp only [decide_eq_true_eq] at hy ⊢
    exact lt_of_le_of_lt hxy hy

/-- The key has rows in the cut. -/
def Within (c : Contents) (container : Muid) (behavior : Behavior) (expiry : Muid → U64)
    (q : Bytes → Bool) (k : MiddleKey) : Prop :=
  ∃ b m, KeyOf behavior k ∧ k.toBytes = .ok b ∧
    (expiringKey container b m (expiry m), m.toBytes) ∈ c.placements.rows ∧ q (expiringKey container b m (expiry m)) = true

/-- The rows of the cut. -/
def cutRows (c : Contents) (container : Muid) (q : Bytes → Bool) : List (Bytes × Bytes) :=
  c.placements.rowsWhere (fun k => container.toBytes.isPrefixOf k && q k)

/-- **The last row of a cut** is that of its last key's newest entry, and the keys of
the cut are that key and those below it. -/
theorem Cut.last (hkc : KeyedRows c container behavior expiry) {q : Bytes → Bool}
    (hq : Cut container behavior q) {row : Bytes × Bytes}
    (hlast : c.placements.lastWhere (fun k => container.toBytes.isPrefixOf k && q k) = some row) :
    ∃ k b m, KeyOf behavior k ∧ k.toBytes = .ok b ∧ row = (expiringKey container b m (expiry m), m.toBytes) ∧
      m.timeField.val < 2 ^ 52 - 1 ∧ (viewOf c container behavior expiry).Newest k m ∧
      (∀ k', Within c container behavior expiry q k' ↔
        k' = k ∨ Within c container behavior expiry (fun x => decide (x < container.toBytes ++ b)) k') ∧
      (cutRows c container (fun x => decide (x < container.toBytes ++ b))).length
        < (cutRows c container q).length := by
  obtain ⟨hrow, hp, hmax⟩ := Table.lastWhere_eq_some_iff.mp hlast
  obtain ⟨hpre, hqrow⟩ := (Bool.and_eq_true _ _).mp hp
  obtain ⟨k, b, m, hk, hb, rfl, hm⟩ := hkc row hrow (List.isPrefixOf_iff_prefix.mp hpre)
  have hbelow : expiringKey container b m (expiry m) < container.toBytes ++ b ↔ b < b := expiringKey_lt_key hk hk hb hb
  have hinto : ∀ x, x < container.toBytes ++ b → q x = true := fun x hx =>
    hq.down x _ (hx.le.trans (Bytes.le_of_isPrefix (prefix_expiringKey container b m (expiry m)))) hqrow
  refine ⟨k, b, m, hk, hb, rfl, hm, ⟨⟨hk, b, hb, hrow⟩, ?_⟩, ?_, ?_⟩
  · rintro n ⟨-, b', hb', hn⟩
    rw [hb] at hb'
    injection hb' with hb'
    subst hb'
    refine (expiringKey_le_expiringKey expiry container b).mp (hmax _ hn ?_)
    rw [(Bool.and_eq_true _ _)]
    exact ⟨List.isPrefixOf_iff_prefix.mpr (container_prefix_expiringKey container b n (expiry n)),
      (hq.key k b n m _ _ hk hb).trans hqrow⟩
  · intro k'
    constructor
    · rintro ⟨b', m', hk', hb', hrow', hq'⟩
      by_cases hkk : k' = k
      · exact Or.inl hkk
      · refine Or.inr ⟨b', m', hk', hb', hrow', ?_⟩
        have hle := hmax _ hrow' ((Bool.and_eq_true _ _).mpr
          ⟨List.isPrefixOf_iff_prefix.mpr (container_prefix_expiringKey container b' m' (expiry m')), hq'⟩)
        have hne : expiringKey container b' m' (expiry m') ≠ expiringKey container b m (expiry m) := by
          intro heq
          have hpre' := prefix_expiringKey container b m (expiry m)
          rw [← heq] at hpre'
          exact hkk (key_eq_of_head hk hk' hb hb' hpre').symm
        have hlt := (expiringKey_lt_of_ne hk' hk hb' hb hkk).mp (lt_of_le_of_ne hle hne)
        simpa using (expiringKey_lt_key hk' hk hb' hb).mpr hlt
    · rintro (rfl | ⟨b', m', hk', hb', hrow', hlt⟩)
      · exact ⟨b, m, hk, hb, hrow, hqrow⟩
      · exact ⟨b', m', hk', hb', hrow', hinto _ (by simpa using hlt)⟩
  · have hsub : cutRows c container (fun x => decide (x < container.toBytes ++ b))
        = (cutRows c container q).filter (fun r => decide (r.1 < container.toBytes ++ b)) := by
      unfold cutRows Table.rowsWhere
      rw [List.filter_filter]
      refine List.filter_congr fun r _ => ?_
      by_cases hlt : r.1 < container.toBytes ++ b
      · simp [hlt, hinto r.1 hlt]
      · simp [hlt]
    rw [hsub]
    refine List.length_filter_lt_length_iff_exists.mpr
      ⟨_, Table.mem_rowsWhere.mpr ⟨hrow, hp⟩, ?_⟩
    simp [hbelow]

/-- **The loop**, run from the last row of a cut, yields what is listed for its keys. -/
theorem keyedLoop_eq (hkc : KeyedRows c container behavior expiry) (hc : Readable c container)
    (hi : Muid.instant asOf = .ok instant) {time : Nat}
    (hhidden : ∀ m, (viewOf c container behavior expiry).Hidden asOf m ↔ m.timeField.val < time) :
    ∀ (fuel : Nat) (q : Bytes → Bool), Cut container behavior q →
      (cutRows c container q).length ≤ fuel →
      ∃ pairs : List (MiddleKey × FoundEntry),
        keyedLoop c container behavior asOf instant time fuel
          (c.placements.lastWhere (fun k => container.toBytes.isPrefixOf k && q k))
            = .ok (pairs.map Prod.snd) ∧
        (pairs.map Prod.fst).Nodup ∧
        ∀ k r, (k, r) ∈ pairs ↔ Within c container behavior expiry q k ∧
          ListedAt c container behavior expiry asOf k r := by
  intro fuel
  induction fuel with
  | zero =>
      intro q hq hlen
      have hempty : cutRows c container q = [] := List.length_eq_zero_iff.mp (by omega)
      have hnone : c.placements.lastWhere (fun k => container.toBytes.isPrefixOf k && q k) = none := by
        unfold Table.lastWhere
        rw [show c.placements.rowsWhere (fun k => container.toBytes.isPrefixOf k && q k) = []
          from hempty]
        rfl
      rw [hnone]
      refine ⟨[], rfl, List.nodup_nil, fun k r => ⟨by simp, ?_⟩⟩
      rintro ⟨⟨b, m, -, -, hrow, hqrow⟩, -⟩
      have hmem : (expiringKey container b m (expiry m), m.toBytes) ∈ cutRows c container q :=
        Table.mem_rowsWhere.mpr ⟨hrow, (Bool.and_eq_true _ _).mpr
          ⟨List.isPrefixOf_iff_prefix.mpr (container_prefix_expiringKey container b m (expiry m)), hqrow⟩⟩
      rw [hempty] at hmem
      simp at hmem
  | succ fuel ih =>
      intro q hq hlen
      cases hlast : c.placements.lastWhere (fun k => container.toBytes.isPrefixOf k && q k) with
      | none =>
          refine ⟨[], rfl, List.nodup_nil, fun k r => ⟨by simp, ?_⟩⟩
          rintro ⟨⟨b, m, -, -, hrow, hqrow⟩, -⟩
          have := Table.lastWhere_eq_none_iff.mp hlast _ hrow
          rw [List.isPrefixOf_iff_prefix.mpr (container_prefix_expiringKey container b m (expiry m)), hqrow] at this
          simp at this
      | some row =>
          obtain ⟨k, b, m, hk, hb, rfl, hm, hnew, hwithin, hfewer⟩ := hq.last hkc hlast
          obtain ⟨pairs, hpairs, hnodup, hmem⟩ := ih _ (Cut.below hk hb) (by omega)
          rw [← toLastSuffix_eq] at hpairs
          obtain ⟨head, hloop, hhead⟩ := keyedLoop_step hkc hc hi hhidden hk hb hnew hm fuel hpairs
          have hout : ¬ Within c container behavior expiry
              (fun x => decide (x < container.toBytes ++ b)) k := by
            rintro ⟨b', m', hk', hb', -, hlt⟩
            rw [hb] at hb'
            injection hb' with hb'
            subst hb'
            rw [decide_eq_true_eq, expiringKey_lt_key hk hk hb hb] at hlt
            exact lt_irrefl b hlt
          refine ⟨head.toList.map (fun r => (k, r)) ++ pairs, ?_, ?_, ?_⟩
          · rw [hloop]
            simp
          · rw [List.map_append, List.nodup_append]
            refine ⟨by cases head <;> simp, hnodup, ?_⟩
            intro x hx y hy
            obtain rfl : x = k := by
              cases head <;> simp at hx
              exact hx
            obtain ⟨⟨k', r⟩, hp, rfl⟩ := List.mem_map.mp hy
            rintro rfl
            exact hout ((hmem _ r).mp hp).1
          · intro k' r
            rw [List.mem_append, hmem, hwithin]
            constructor
            · rintro (h | ⟨h, hr⟩)
              · obtain ⟨r', hr', heq⟩ := List.mem_map.mp h
                simp only [Prod.mk.injEq] at heq
                obtain ⟨rfl, rfl⟩ := heq
                exact ⟨Or.inl rfl, (hhead r').mp (by simpa using hr')⟩
              · exact ⟨Or.inr h, hr⟩
            · rintro ⟨rfl | h, hr⟩
              · exact Or.inl (List.mem_map.mpr ⟨r, by simpa using (hhead r).mpr hr, rfl⟩)
              · exact Or.inr ⟨h, hr⟩

/-- What follows the container in a row is below forty bytes of 0xFF: those would spell
the reserved time. -/
theorem expiringKey_lt_ones {k : MiddleKey} {b : Bytes} {m : Muid} (hk : KeyOf behavior k)
    (hb : k.toBytes = .ok b) (hm : m.timeField.val < 2 ^ 52 - 1) (e : U64) :
    b ++ (m.toBytes ++ packSigned e.val) < List.replicate 40 255 := by
  have hlast := placer_lt_reserved hm (packSigned e.val)
  cases hk.packed hb with
  | none =>
      rw [List.nil_append]
      exact hlast.trans (by decide +kernel)
  | key k =>
      cases k with
      | number n => exact Bytes.lt_replicate_of_head (a := 0x08) (by decide)
      | octets o => exact Bytes.lt_replicate_of_head (a := 0x12) (by decide)
      | characters s => exact Bytes.lt_replicate_of_head (a := 0x1a) (by decide)
  | muid l =>
      have h := Bytes.append_lt_replicate (b := l.toBytes) (n := 24) (hlast.trans (by decide +kernel))
      rw [Muid.length_toBytes] at h
      exact h
  | pair l r =>
      have h := Bytes.append_lt_replicate (b := l.toBytes ++ r.toBytes) (n := 8)
        (hlast.trans (by decide +kernel))
      rw [List.length_append, Muid.length_toBytes, Muid.length_toBytes] at h
      exact h

/-- **`get_keyed_entries`** yields what is listed for each key, once. -/
theorem getKeyedEntries_listed (hkc : KeyedRows c container behavior expiry) (hc : Readable c container)
    (hi : Muid.instant asOf = .ok instant) :
    ∃ pairs : List (MiddleKey × FoundEntry),
      getKeyedEntries c container behavior asOf = .ok (pairs.map Prod.snd) ∧
      (pairs.map Prod.fst).Nodup ∧
      ∀ k r, (k, r) ∈ pairs ↔ ListedAt c container behavior expiry asOf k r := by
  obtain ⟨time, htime, hhidden⟩ := timeOfPriorClear_eq container behavior expiry hc hi
  obtain ⟨pairs, hpairs, hnodup, hmem⟩ := keyedLoop_eq hkc hc hi hhidden c.placements.rows.length
    (fun _ => true) Cut.all (List.length_filter_le _ _)
  refine ⟨pairs, ?_, hnodup, fun k r => ?_⟩
  · have hfirst : toLast c.placements container.toBytes
        = c.placements.lastWhere (fun k => container.toBytes.isPrefixOf k && true) := by
      simp only [Bool.and_true]
      apply toLast_eq_lastWhere
      intro row hrow x hx
      obtain ⟨k, b, m, hk, hb, rfl, hm⟩ := hkc row hrow ⟨x, hx.symm⟩
      unfold expiringKey at hx
      simp only [List.append_assoc] at hx
      rw [← List.append_cancel_left hx]
      exact expiringKey_lt_ones hk hb hm (expiry m)
    unfold getKeyedEntries
    simp only [hi, htime, hfirst, bind, Except.bind]
    exact hpairs
  · rw [hmem]
    refine ⟨And.right, fun h => ⟨?_, h⟩⟩
    obtain ⟨hk, b, hb, hrow⟩ := h.1.1
    exact ⟨b, r.address, hk, hb, hrow, rfl⟩

/-! ## §5. Containers without expiry. -/

/-- `m` is the last address that wrote to the key at all. -/
def Newest (c : Contents) (container : Muid) (behavior : Behavior) (k : MiddleKey) (m : Muid) :
    Prop := IsGreatest {m | (keyedView c container behavior).has k m} m

/-- What the listing yields for a key: the address is always that of the newest entry,
the contents are those of the last one before the time. -/
def Listed (c : Contents) (container : Muid) (behavior : Behavior) (asOf : Int) (k : MiddleKey)
    (r : FoundEntry) : Prop :=
  Newest c container behavior k r.address ∧
    ((KeyedView.Before asOf r.address ∧ (keyedView c container behavior).IsRecord asOf k r) ∨
      (¬ KeyedView.Before asOf r.address ∧ ∃ m,
        (keyedView c container behavior).Visible asOf k m ∧ c.entries.get? m.toBytes = some r.builder))

theorem getKeyedEntries_eq (hkc : KeyedContainer c container behavior) (hc : Retained c)
    (hi : Muid.instant asOf = .ok instant) :
    ∃ pairs : List (MiddleKey × FoundEntry),
      getKeyedEntries c container behavior asOf = .ok (pairs.map Prod.snd) ∧
      (pairs.map Prod.fst).Nodup ∧
      ∀ k r, (k, r) ∈ pairs ↔ Listed c container behavior asOf k r := by
  have hrows : KeyedRows c container behavior (fun _ => 0) := hkc
  obtain ⟨pairs, hlisting, hnodup, hpairs⟩ := getKeyedEntries_listed hrows (hc.readable container) hi
  refine ⟨pairs, hlisting, hnodup, fun k r => (hpairs k r).trans ⟨?_, ?_⟩⟩
  · exact fun h => ⟨h.1, h.2.2⟩
  · exact fun h => ⟨h.1, not_expired_zero asOf, h.2⟩

theorem getEntryByKey_right (hkc : KeyedContainer c container behavior) (hc : Retained c)
    (hi : Muid.instant asOf = .ok instant) :
    (keyedView c container behavior).LooksUpRight asOf behavior
      (fun k => getEntryByKey c container k asOf) := by
  have hrows : KeyedRows c container behavior (fun _ => 0) := hkc
  exact getEntryByKey_looksUp hrows (hc.readable container) hi

end

end Lmdb

end Gink
