/-
  Gink.Memory.Keyed — keyed reads of a `MemoryStore` against the view of the container.

  Lookup and listing both take the earliest clearance before the time for the latest
  one.  The listing walks all rows backwards and yields the first fitting one of each
  key, except that it starts out taking `None` for a key it has dealt with and does
  not reach keys past sixteen bytes of 0xFF.
-/
import Gink.Memory.Clearances
import Gink.Keyed.View

namespace Gink

namespace Memory

/-! ## §1. Keyed containers. -/

/-- The container is a keyed one of the behavior: each of its placements is that of an
entry of a keyed behavior without expiry under a key of the kind.  The all-ones time
field, which stands for -1, is the time of none. -/
def KeyedContainer (c : Contents) (container : Muid) (behavior : Behavior) : Prop :=
  ∀ row ∈ c.placements.rows, container.toBytes <+: row.1 → ∃ k b m, KeyOf behavior k ∧
    k.toBytes = .ok b ∧ row = (rowKey container b m, m) ∧ m.timeField.val < 2 ^ 52 - 1 ∧
    ∀ builder, c.entries.get? m = some builder → KeyOf builder.behavior k

/-- The container is a keyed one of the behavior, with entries that expire. -/
def KeyedRows (c : Contents) (container : Muid) (behavior : Behavior) (expiry : Muid → U64) : Prop :=
  ∀ row ∈ c.placements.rows, container.toBytes <+: row.1 → ∃ k b m, KeyOf behavior k ∧
    k.toBytes = .ok b ∧ row = (expiringKey container b m (expiry m), m) ∧
    m.timeField.val < 2 ^ 52 - 1 ∧
    ∀ builder, c.entries.get? m = some builder → KeyOf builder.behavior k

/-- What the dictionaries say about a container with entries that expire. -/
def viewOf (c : Contents) (container : Muid) (behavior : Behavior) (expiry : Muid → U64) :
    KeyedView where
  has k m := KeyOf behavior k ∧ ∃ b, k.toBytes = .ok b ∧
    (expiringKey container b m (expiry m), m) ∈ c.placements.rows
  cleared z := ∃ value, (container.toBytes ++ z.toBytes, value) ∈ c.clearances.rows
  builderOf m := c.entries.get? m

/-- What the dictionaries say about it. -/
def keyedView (c : Contents) (container : Muid) (behavior : Behavior) : KeyedView where
  has k m := KeyOf behavior k ∧ ∃ b, k.toBytes = .ok b ∧
    (rowKey container b m, m) ∈ c.placements.rows
  cleared z := ∃ value, (container.toBytes ++ z.toBytes, value) ∈ c.clearances.rows
  builderOf m := c.entries.get? m

/-- The placements of the container are those of stored entries, placed by addresses with a
medallion, and the clearances are in order. -/
structure Readable (c : Contents) (container : Muid) : Prop where
  entries : ∀ row ∈ c.placements.rows, container.toBytes <+: row.1 → (c.entries.get? row.2).isSome
  placers : ∀ row ∈ c.placements.rows, ∀ m : Muid, Placement.placerSlice row.1 = m.toBytes →
    m.medallionField.val ≠ 0
  clearances : ClearanceKeys c.clearances

theorem Retained.readable {c : Contents} (hc : Retained c) (container : Muid) :
    Readable c container :=
  ⟨fun row hrow _ => hc.entries row hrow, hc.placers, hc.clearances⟩

section
variable {c : Contents} {container : Muid} {behavior : Behavior} {expiry : Muid → U64}
  {asOf : Int} {instant : Muid}

/-- An `irange` with both bounds starting with `p` stays among the keys that do. -/
theorem prefix_of_mem_irange {V : Type} {t : Table Bytes V} {p lo hi : Bytes} {row : Bytes × V}
    (h : row ∈ irange t lo hi) (hlo : p <+: lo) (hhi : p <+: hi) : p <+: row.1 := by
  have hbounds := (List.mem_filter.mp h).2
  simp only [Bool.and_eq_true, decide_eq_true_eq] at hbounds
  exact Bytes.prefix_of_le_of_le hlo hhi hbounds.1 hbounds.2

/-- An instant is not the address of anything. -/
theorem le_instant_iff (hi : Muid.instant asOf = .ok instant) {m : Muid}
    (hm : m.medallionField.val ≠ 0) : m ≤ instant ↔ KeyedView.Before asOf m := by
  rw [KeyedView.before_iff hi, le_iff_lt_or_eq, or_iff_left]
  rintro rfl
  obtain ⟨-, rfl⟩ := Muid.instant_eq_ok.mp hi
  exact hm rfl

/-! ## §2. The earliest clearance. -/

/-- A fold that keeps what it computed last, run backwards, ends on the first row. -/
theorem foldlM_reverse {α β : Type} (g : α → Except Error β) (start : β) {l : List α}
    (hg : ∀ a ∈ l, ∃ b, g a = .ok b) :
    l.reverse.foldlM (fun _ a => g a) start = match l.head? with
      | none => .ok start
      | some a => g a := by
  have hok : ∀ l : List α, (∀ a ∈ l, ∃ b, g a = .ok b) →
      ∃ b, l.reverse.foldlM (fun _ a => g a) start = .ok b := by
    intro l hl
    induction l with
    | nil => exact ⟨start, rfl⟩
    | cons a l ih =>
        obtain ⟨b, hb⟩ := ih fun x hx => hl x (List.mem_cons_of_mem _ hx)
        obtain ⟨b', hb'⟩ := hl a List.mem_cons_self
        rw [List.reverse_cons, List.foldlM_append, hb]
        exact ⟨b', by simp [bind, Except.bind, pure, Except.pure, hb', List.foldlM]⟩
  cases l with
  | nil => rfl
  | cons a l =>
      obtain ⟨b, hb⟩ := hok l fun x hx => hg x (List.mem_cons_of_mem _ hx)
      obtain ⟨b', hb'⟩ := hg a List.mem_cons_self
      rw [List.reverse_cons, List.foldlM_append, hb]
      simp [bind, Except.bind, pure, Except.pure, hb', List.foldlM]

/-- Older than every clearance before the time, of which there is one. -/
def OlderThanAll (v : KeyedView) (t : Int) (m : Muid) : Prop :=
  (∃ z, v.cleared z ∧ KeyedView.Before t z) ∧
    ∀ z, v.cleared z → KeyedView.Before t z → m.timeField < z.timeField

/-- **`_get_time_of_prior_clear`** finds the earliest clearance before the time. -/
theorem timeOfPriorClear_found (container : Muid) (hc : ClearanceKeys c.clearances)
    (hi : Muid.instant asOf = .ok instant) :
    (timeOfPriorClear c container asOf = .ok 0 ∧
      ∀ z, Recorded c container z → ¬ KeyedView.Before asOf z) ∨
    ∃ z, timeOfPriorClear c container asOf = .ok z.timestamp ∧
      IsLeast {z | Recorded c container z ∧ KeyedView.Before asOf z} z := by
  have hkeys : ∀ row ∈ irange c.clearances container.toBytes (container.toBytes ++ instant.toBytes),
      ∃ z : Muid, row.1 = container.toBytes ++ z.toBytes ∧ KeyedView.Before asOf z := by
    intro row hrow
    have hprefix := prefix_of_mem_irange hrow (List.prefix_refl _) (List.prefix_append _ _)
    obtain ⟨hmem, hbounds⟩ := List.mem_filter.mp hrow
    simp only [Bool.and_eq_true, decide_eq_true_eq] at hbounds
    obtain ⟨container', z, hkey, -, hmed⟩ := hc row hmem
    rw [hkey] at hprefix hbounds
    have hbytes : container.toBytes = container'.toBytes :=
      Bytes.prefix_unique (by simp) hprefix (List.prefix_append _ _)
    rw [← hbytes] at hkey hbounds
    refine ⟨z, hkey, (le_instant_iff hi hmed).mp ?_⟩
    rw [← Muid.toBytes_le_iff, ← Bytes.append_le_append_left_iff container.toBytes]
    exact hbounds.2
  have hmem : ∀ z value, (container.toBytes ++ z.toBytes, value) ∈ c.clearances.rows →
      KeyedView.Before asOf z → (container.toBytes ++ z.toBytes, value) ∈
        irange c.clearances container.toBytes (container.toBytes ++ instant.toBytes) := by
    intro z value hz hzb
    refine List.mem_filter.mpr ⟨hz, ?_⟩
    simp only [Bool.and_eq_true, decide_eq_true_eq]
    refine ⟨Bytes.le_append _ _, ?_⟩
    rw [Bytes.append_le_append_left_iff, Muid.toBytes_le_iff]
    exact ((KeyedView.before_iff hi z).mp hzb).le
  have hslice : ∀ z : Muid, ((container.toBytes ++ z.toBytes).take 32).drop 16 = z.toBytes := by
    intro z
    rw [List.take_of_length_le (by simp), List.drop_left' (Muid.length_toBytes container)]
  have hfold := foldlM_reverse
    (fun r : Bytes × ClearanceBuilder =>
      (Muid.fromBytes ((r.1.take 32).drop 16)).map Muid.timestamp) (0 : Int)
    (l := irange c.clearances container.toBytes (container.toBytes ++ instant.toBytes)) (by
      intro row hrow
      obtain ⟨z, hkey, -⟩ := hkeys row hrow
      exact ⟨z.timestamp, by simp only [hkey, hslice, Muid.fromBytes_toBytes]; rfl⟩)
  unfold timeOfPriorClear
  simp only [hi, bind, Except.bind]
  rw [hfold]
  cases hrows : irange c.clearances container.toBytes (container.toBytes ++ instant.toBytes) with
  | nil =>
      refine Or.inl ⟨rfl, ?_⟩
      rintro z ⟨value, hz⟩ hzb
      have := hmem z value hz hzb
      rw [hrows] at this
      simp at this
  | cons row rest =>
      have hrow : row ∈ irange c.clearances container.toBytes (container.toBytes ++ instant.toBytes) := by
        rw [hrows]
        exact List.mem_cons_self
      obtain ⟨z, hkey, hzb⟩ := hkeys row hrow
      refine Or.inr ⟨z, ?_, ⟨⟨row.2, ?_⟩, hzb⟩, ?_⟩
      · simp only [List.head?_cons, hkey, hslice, Muid.fromBytes_toBytes]
        rfl
      · rw [← hkey]
        exact (List.mem_filter.mp hrow).1
      · rintro y ⟨⟨value, hy⟩, hyb⟩
        -- the first row of an ascending list has the least key
        have hsorted := c.clearances.sorted.filter (fun r =>
          decide (container.toBytes ≤ r.1) &&
            decide (r.1 ≤ container.toBytes ++ instant.toBytes))
        have hy' := hmem y value hy hyb
        rw [show c.clearances.rows.filter _ = row :: rest from hrows] at hsorted
        rw [hrows] at hy'
        rw [← Muid.toBytes_le_iff, ← Bytes.append_le_append_left_iff container.toBytes, ← hkey]
        rcases List.mem_cons.mp hy' with heq | hin
        · rw [← heq]
        · exact ((List.pairwise_cons.mp hsorted).1 _ hin).le

/-- What is older than that time is older than every clearance. -/
theorem timeOfPriorClear_eq (container : Muid) (behavior : Behavior) (expiry : Muid → U64) (hc : Readable c container)
    (hi : Muid.instant asOf = .ok instant) :
    ∃ time : Nat, timeOfPriorClear c container asOf = .ok (time : Int) ∧
      ∀ m, OlderThanAll (viewOf c container behavior expiry) asOf m ↔ m.timeField.val < time := by
  rcases timeOfPriorClear_found container hc.clearances hi with ⟨hzero, hnone⟩ | ⟨z, htime, hz⟩
  · refine ⟨0, hzero, fun m => ⟨?_, fun h => absurd h (Nat.not_lt_zero _)⟩⟩
    rintro ⟨⟨z, hcleared, hzb⟩, -⟩
    exact absurd hzb (hnone z hcleared)
  · refine ⟨z.timeField.val, ?_, fun m => ⟨fun h => h.2 z hz.1.1 hz.1.2, fun hlt => ?_⟩⟩
    · rw [htime, KeyedView.Before.timestamp hi hz.1.2]
    · refine ⟨⟨z, hz.1⟩, fun y hy hyb => ?_⟩
      exact lt_of_lt_of_le hlt (Muid.timeField_le_of_le (hz.2 ⟨hy, hyb⟩))

/-! ## §3. Lookups. -/

/-- The address of a stored row has a medallion. -/
theorem has_medallion (hc : Readable c container) {k : MiddleKey} {m : Muid}
    (h : (viewOf c container behavior expiry).has k m) : m.medallionField.val ≠ 0 := by
  obtain ⟨-, b, -, hmem⟩ := h
  exact hc.placers _ hmem m (expiringKey_slices container b m _).2.2.1

/-- **The range of a key** ends on what was last written to it before the time. -/
theorem range_key (hkc : KeyedRows c container behavior expiry) (hc : Readable c container)
    (hi : Muid.instant asOf = .ok instant) {k : MiddleKey} {b : Bytes} (hk : KeyOf behavior k)
    (hb : k.toBytes = .ok b) :
    ((irange c.placements (expiringKey container b epoch 0) (expiringKey container b instant 0)).getLast? = none ∧
      ∀ m, (viewOf c container behavior expiry).has k m → ¬ KeyedView.Before asOf m) ∨
    ∃ m, (irange c.placements (expiringKey container b epoch 0) (expiringKey container b instant 0)).getLast?
        = some (expiringKey container b m (expiry m), m) ∧ (viewOf c container behavior expiry).Visible asOf k m := by
  have hlast : (irange c.placements (expiringKey container b epoch 0) (expiringKey container b instant 0)).getLast?
      = c.placements.lastWhere (fun x => decide (expiringKey container b epoch 0 ≤ x) &&
          decide (x ≤ expiringKey container b instant 0)) := rfl
  have hrows : ∀ m, (viewOf c container behavior expiry).has k m →
      (expiringKey container b m (expiry m), m) ∈ c.placements.rows := by
    rintro m ⟨-, b', hb', hmem⟩
    rw [hb] at hb'
    injection hb' with hb'
    rw [hb']
    exact hmem
  have hsel : ∀ m, (viewOf c container behavior expiry).has k m →
      ((decide (expiringKey container b epoch 0 ≤ expiringKey container b m (expiry m)) &&
        decide (expiringKey container b m (expiry m) ≤ expiringKey container b instant 0)) = true
        ↔ KeyedView.Before asOf m) := by
    intro m hm
    -- neither bound is the address of anything
    have hmedallion := has_medallion hc hm
    have hepoch : ¬ expiringKey container b m (expiry m) < expiringKey container b epoch 0 := by
      rw [expiringKey_lt_iff]
      rintro (h | ⟨rfl, -⟩)
      · rw [Muid.lt_iff_toNat_lt] at h
        exact absurd h (Nat.not_lt_zero _)
      · exact hmedallion rfl
    have hinstant : expiringKey container b instant 0 < expiringKey container b m (expiry m) ↔
        instant < m := by
      rw [expiringKey_lt_iff, or_iff_left]
      rintro ⟨rfl, -⟩
      obtain ⟨-, rfl⟩ := Muid.instant_eq_ok.mp hi
      exact hmedallion rfl
    simp only [Bool.and_eq_true, decide_eq_true_eq]
    rw [and_iff_right (not_lt.mp hepoch), ← not_lt, hinstant, not_lt]
    exact le_instant_iff hi hmedallion
  rw [hlast]
  cases hfound : c.placements.lastWhere (fun x => decide (expiringKey container b epoch 0 ≤ x) &&
      decide (x ≤ expiringKey container b instant 0)) with
  | none =>
      refine Or.inl ⟨rfl, fun m hm hbefore => ?_⟩
      have := Table.lastWhere_eq_none_iff.mp hfound _ (hrows m hm)
      rw [(hsel m hm).mpr hbefore] at this
      exact absurd this (by simp)
  | some row =>
      obtain ⟨hrow, hp, hmax⟩ := Table.lastWhere_eq_some_iff.mp hfound
      have hin : row ∈ irange c.placements (expiringKey container b epoch 0) (expiringKey container b instant 0) :=
        List.mem_filter.mpr ⟨hrow, hp⟩
      have hpre := prefix_of_mem_irange hin (prefix_expiringKey container b _ _) (prefix_expiringKey container b _ _)
      obtain ⟨k', b', m, hk', hb', rfl, -, -⟩ :=
        hkc row hrow ((List.prefix_append _ _).trans hpre)
      obtain rfl := key_eq_of_head hk hk' hb hb' hpre
      obtain rfl : b = b' := (hk.packed_inj hk' hb hb').mpr rfl
      have hm : (viewOf c container behavior expiry).has k m := ⟨hk, b, hb, hrow⟩
      refine Or.inr ⟨m, rfl, ⟨hm, (hsel m hm).mp hp⟩, ?_⟩
      rintro n ⟨hn, hnb⟩
      exact (expiringKey_le_expiringKey expiry container b).mp (hmax _ (hrows n hn) ((hsel n hn).mpr hnb))

/-- A visible entry is stored, under a behavior that reads its key back. -/
theorem visible_stored (hkc : KeyedRows c container behavior expiry) (hc : Readable c container) {k : MiddleKey}
    {m : Muid} (hm : (viewOf c container behavior expiry).has k m) :
    ∃ builder, c.entries.get? m = some builder ∧ KeyOf builder.behavior k := by
  obtain ⟨hk, b, hb, hmem⟩ := hm
  obtain ⟨builder, hbuilder⟩ := Option.isSome_iff_exists.mp
    (hc.entries _ hmem (container_prefix_expiringKey container b m _))
  obtain ⟨k', b', m', hk', hb', heq, -, hbehavior⟩ :=
    hkc _ hmem (container_prefix_expiringKey container b m _)
  simp only [Prod.mk.injEq] at heq
  obtain ⟨hrow, rfl⟩ := heq
  have hpre := prefix_expiringKey container b m (expiry m)
  rw [hrow] at hpre
  obtain rfl := key_eq_of_head hk hk' hb hb' hpre
  exact ⟨builder, hbuilder, hbehavior builder hbuilder⟩

/-- **What a lookup finds**: the last entry before the time, unless it is older than
every clearance before the time. -/
theorem getEntryByKey_found (hkc : KeyedRows c container behavior expiry) (hc : Readable c container)
    (hi : Muid.instant asOf = .ok instant) {k : MiddleKey} {b : Bytes} (hk : KeyOf behavior k)
    (hb : k.toBytes = .ok b) :
    ∃ found, getEntryByKey c container k asOf = .ok found ∧ ∀ r, found = some r ↔
      (viewOf c container behavior expiry).Visible asOf k r.address ∧
        ¬ OlderThanAll (viewOf c container behavior expiry) asOf r.address ∧
        c.entries.get? r.address = some r.builder := by
  obtain ⟨time, htime, holder⟩ := timeOfPriorClear_eq container behavior expiry hc hi
  have hmin : (Placement.mk container k epoch none).toBytes = .ok (expiringKey container b epoch 0) :=
    toBytes_eq_rowKey.mpr ⟨b, hb, rfl⟩
  have hmax : (Placement.mk container k instant none).toBytes = .ok (expiringKey container b instant 0) :=
    toBytes_eq_rowKey.mpr ⟨b, hb, rfl⟩
  unfold getEntryByKey
  simp only [hi, htime, hmin, hmax, bind, Except.bind]
  rcases range_key hkc hc hi hk hb with ⟨hnone, hno⟩ | ⟨m, hsome, hm⟩
  · rw [hnone]
    refine ⟨none, rfl, fun r => ⟨by simp, fun hr => ?_⟩⟩
    exact absurd hr.1.before (hno _ hr.1.1.1)
  · rw [hsome]
    obtain ⟨builder, hbuilder, hkey⟩ := visible_stored hkc hc hm.1.1
    unfold readEntry
    simp only [hbuilder, orRaise_some, fromBytes_expiringKey container m _ hkey hb,
      hm.before.timestamp hi]
    by_cases hold : (time : Int) > (m.timeField.val : Int)
    · rw [if_pos hold]
      refine ⟨none, rfl, fun r => ⟨by simp, fun hr => ?_⟩⟩
      have hkept := hr.2.1
      rw [hr.1.unique hm] at hkept
      exact absurd ((holder m).mpr (by omega)) hkept
    · rw [if_neg hold]
      refine ⟨some ⟨m, builder⟩, rfl, fun r => ⟨?_, fun hr => ?_⟩⟩
      · intro hr
        rw [← Option.some.inj hr]
        exact ⟨hm, fun hh => hold (by have := (holder m).mp hh; omega), hbuilder⟩
      · obtain ⟨address, contents⟩ := r
        obtain rfl : address = m := hr.1.unique hm
        have hcontents : c.entries.get? address = some contents := hr.2.2
        rw [hbuilder] at hcontents
        rw [Option.some.inj hcontents]

/-! ## §4. The listing, row by row. -/

/-- The rows the loop skips for their time. -/
def TooNew (asOf : Int) (m : Muid) : Prop := m.timestamp ≥ asOf ∧ asOf > 0

instance (asOf : Int) (m : Muid) : Decidable (TooNew asOf m) :=
  inferInstanceAs (Decidable (_ ∧ _))

/-- `m` wrote to the key, and its row is among those in `l`. -/
def AmongRows (container : Muid) (behavior : Behavior) (expiry : Muid → U64)
    (l : List (Bytes × Muid)) (k : MiddleKey) (m : Muid) : Prop :=
  KeyOf behavior k ∧ ∃ b, k.toBytes = .ok b ∧ (expiringKey container b m (expiry m), m) ∈ l

/-- What the loop yields for a key out of the rows in `l`. -/
structure Shown (c : Contents) (container : Muid) (behavior : Behavior) (expiry : Muid → U64)
    (asOf : Int) (l : List (Bytes × Muid)) (k : MiddleKey) (r : FoundEntry) : Prop where
  greatest : IsGreatest {m | AmongRows container behavior expiry l k m ∧ ¬ TooNew asOf m} r.address
  kept : ¬ OlderThanAll (viewOf c container behavior expiry) asOf r.address
  unexpired : ¬ Expired asOf (expiry r.address)
  builder : c.entries.get? r.address = some r.builder

/-- In a descending list the rows of `last` come before those of other keys. -/
def Leading (container : Muid) (behavior : Behavior) (expiry : Muid → U64) (last : MiddleKey)
    (l : List (Bytes × Muid)) : Prop :=
  ∀ m, AmongRows container behavior expiry l last m → ∀ k n, AmongRows container behavior expiry l k n → k ≠ last →
    ∀ b b', last.toBytes = .ok b → k.toBytes = .ok b' → expiringKey container b' n (expiry n) < expiringKey container b m (expiry m)

theorem AmongRows.tail {row : Bytes × Muid} {l : List (Bytes × Muid)} {k : MiddleKey} {m : Muid}
    (h : AmongRows container behavior expiry l k m) : AmongRows container behavior expiry (row :: l) k m :=
  ⟨h.1, h.2.imp fun _ hb => ⟨hb.1, List.mem_cons_of_mem _ hb.2⟩⟩

theorem Leading.tail {last : MiddleKey} {row : Bytes × Muid} {l : List (Bytes × Muid)}
    (h : Leading container behavior expiry last (row :: l)) : Leading container behavior expiry last l :=
  fun m hm k n hn => h m hm.tail k n hn.tail

section
variable {k : MiddleKey} {b : Bytes} {m : Muid} {l : List (Bytes × Muid)}

/-- The rows of a list are its first one and those of its tail. -/
theorem amongRows_cons (hk : KeyOf behavior k) (hb : k.toBytes = .ok b) {k' : MiddleKey} {n : Muid} :
    AmongRows container behavior expiry ((expiringKey container b m (expiry m), m) :: l) k' n ↔
      (k' = k ∧ n = m) ∨ AmongRows container behavior expiry l k' n := by
  constructor
  · rintro ⟨hk', b', hb', hmem⟩
    rcases List.mem_cons.mp hmem with heq | hmem
    · simp only [Prod.mk.injEq] at heq
      obtain ⟨hrow, rfl⟩ := heq
      have hpre := prefix_expiringKey container b' n (expiry n)
      rw [hrow] at hpre
      exact Or.inl ⟨key_eq_of_head hk' hk hb' hb hpre, rfl⟩
    · exact Or.inr ⟨hk', b', hb', hmem⟩
  · rintro (⟨rfl, rfl⟩ | h)
    · exact ⟨hk, b, hb, List.mem_cons_self⟩
    · exact h.tail

/-- In a descending list the first row's address is the greatest of its key. -/
theorem le_first (hk : KeyOf behavior k) (hb : k.toBytes = .ok b)
    (hdesc : ((expiringKey container b m (expiry m), m) :: l).Pairwise (fun x y => y.1 < x.1)) {n : Muid}
    (hn : AmongRows container behavior expiry ((expiringKey container b m (expiry m), m) :: l) k n) : n ≤ m := by
  rcases (amongRows_cons hk hb).mp hn with ⟨-, rfl⟩ | ⟨-, b', hb', hmem⟩
  · exact le_refl _
  · rw [hb] at hb'
    injection hb' with hb'
    subst hb'
    have hlt : expiringKey container b n (expiry n) < expiringKey container b m (expiry m) := (List.pairwise_cons.mp hdesc).1 _ hmem
    exact ((expiringKey_lt_expiringKey expiry container b).mp hlt).le

/-- And its key leads the rows that follow. -/
theorem leading_first (hk : KeyOf behavior k) (hb : k.toBytes = .ok b)
    (hdesc : ((expiringKey container b m (expiry m), m) :: l).Pairwise (fun x y => y.1 < x.1)) :
    Leading container behavior expiry k l := by
  intro n hn k' n' hn' hne b₁ b' hb₁ hb'
  rw [hb] at hb₁
  injection hb₁ with hb₁
  subst hb₁
  obtain ⟨hk', b₂, hb₂, hmem⟩ := hn'
  rw [hb'] at hb₂
  injection hb₂ with hb₂
  subst hb₂
  have hlt : expiringKey container b' n' (expiry n') < expiringKey container b m (expiry m) := (List.pairwise_cons.mp hdesc).1 _ hmem
  rw [expiringKey_lt_of_ne hk' hk hb' hb hne] at hlt ⊢
  exact hlt

/-- Under another key than `last` no row of `last` follows. -/
theorem not_amongRows_last (hk : KeyOf behavior k) (hb : k.toBytes = .ok b)
    (hdesc : ((expiringKey container b m (expiry m), m) :: l).Pairwise (fun x y => y.1 < x.1)) {last : MiddleKey}
    (hlead : Leading container behavior expiry last ((expiringKey container b m (expiry m), m) :: l)) (hne : k ≠ last)
    (n : Muid) : ¬ AmongRows container behavior expiry l last n := by
  intro hn
  obtain ⟨-, b', hb', hmem⟩ := id hn
  have hlt : expiringKey container b' n (expiry n) < expiringKey container b m (expiry m) := (List.pairwise_cons.mp hdesc).1 _ hmem
  have hgt := hlead n hn.tail k m ((amongRows_cons hk hb).mpr (Or.inl ⟨rfl, rfl⟩)) hne b' b hb' hb
  exact lt_irrefl _ (hlt.trans hgt)

/-- For the other keys nothing changes. -/
theorem shown_cons_of_ne (hk : KeyOf behavior k) (hb : k.toBytes = .ok b) {k' : MiddleKey}
    (hne : k' ≠ k) {r : FoundEntry} :
    Shown c container behavior expiry asOf ((expiringKey container b m (expiry m), m) :: l) k' r ↔
      Shown c container behavior expiry asOf l k' r := by
  have hset : {n | AmongRows container behavior expiry ((expiringKey container b m (expiry m), m) :: l) k' n ∧ ¬ TooNew asOf n}
      = {n | AmongRows container behavior expiry l k' n ∧ ¬ TooNew asOf n} := by
    ext n
    simp only [Set.mem_ofPred_eq, amongRows_cons hk hb, hne, false_and, false_or]
  constructor
  · rintro ⟨hg, hkept, hunexpired, hbuilder⟩
    exact ⟨hset ▸ hg, hkept, hunexpired, hbuilder⟩
  · rintro ⟨hg, hkept, hunexpired, hbuilder⟩
    exact ⟨hset ▸ hg, hkept, hunexpired, hbuilder⟩

/-- Nor for any key when the row is too new. -/
theorem shown_cons_of_tooNew (hk : KeyOf behavior k) (hb : k.toBytes = .ok b)
    (hnew : TooNew asOf m) {k' : MiddleKey} {r : FoundEntry} :
    Shown c container behavior expiry asOf ((expiringKey container b m (expiry m), m) :: l) k' r ↔
      Shown c container behavior expiry asOf l k' r := by
  have hset : {n | AmongRows container behavior expiry ((expiringKey container b m (expiry m), m) :: l) k' n ∧ ¬ TooNew asOf n}
      = {n | AmongRows container behavior expiry l k' n ∧ ¬ TooNew asOf n} := by
    ext n
    simp only [Set.mem_ofPred_eq, amongRows_cons hk hb]
    constructor
    · rintro ⟨⟨-, rfl⟩ | h, hn⟩
      · exact absurd hnew hn
      · exact ⟨h, hn⟩
    · rintro ⟨h, hn⟩
      exact ⟨Or.inr h, hn⟩
  constructor
  · rintro ⟨hg, hkept, hunexpired, hbuilder⟩
    exact ⟨hset ▸ hg, hkept, hunexpired, hbuilder⟩
  · rintro ⟨hg, hkept, hunexpired, hbuilder⟩
    exact ⟨hset ▸ hg, hkept, hunexpired, hbuilder⟩

end

/-- **The loop** over a descending list of rows yields the last fitting entry of each
key but `last`, unless every clearance hides it. -/
theorem keyedLoop_eq (hkc : KeyedRows c container behavior expiry) (hc : Readable c container) {time : Nat}
    (holder : ∀ m, OlderThanAll (viewOf c container behavior expiry) asOf m ↔ m.timeField.val < time)
    (l : List (Bytes × Muid)) :
    ∀ last : MiddleKey, (∀ row ∈ l, row ∈ c.placements.rows ∧ container.toBytes <+: row.1) →
      l.Pairwise (fun x y => y.1 < x.1) → Leading container behavior expiry last l →
      ∃ pairs : List (MiddleKey × FoundEntry),
        keyedLoop c behavior asOf time l last = .ok (pairs.map Prod.snd) ∧
        (pairs.map Prod.fst).Nodup ∧
        ∀ k r, (k, r) ∈ pairs ↔ k ≠ last ∧ Shown c container behavior expiry asOf l k r := by
  induction l with
  | nil =>
      intro last _ _ _
      refine ⟨[], rfl, List.nodup_nil, fun k r => ⟨by simp, ?_⟩⟩
      rintro ⟨-, ⟨⟨⟨-, b, -, hmem⟩, -⟩, -⟩, -, -, -⟩
      simp at hmem
  | cons row rest ih =>
      intro last hrows hdesc hlead
      obtain ⟨hrow, hpre⟩ := hrows row List.mem_cons_self
      obtain ⟨k, b, m, hk, hb, rfl, hm, -⟩ := hkc row hrow hpre
      have hrest : ∀ row ∈ rest, row ∈ c.placements.rows ∧ container.toBytes <+: row.1 :=
        fun x hx => hrows x (List.mem_cons_of_mem _ hx)
      have hdesc' := (List.pairwise_cons.mp hdesc).2
      have htime : m.timestamp = m.timeField.val := Muid.timestamp_of_ne (by omega)
      unfold keyedLoop
      simp only [fromBytes_expiringKey container m _ hk hb, bind, Except.bind]
      by_cases hnew : m.timestamp ≥ asOf ∧ asOf > 0
      · rw [if_pos hnew]
        obtain ⟨pairs, hpairs, hnodup, hmem⟩ := ih last hrest hdesc' hlead.tail
        exact ⟨pairs, hpairs, hnodup, fun k' r =>
          (hmem k' r).trans (and_congr_right fun _ => (shown_cons_of_tooNew hk hb hnew).symm)⟩
      rw [if_neg hnew]
      by_cases hlast : k = last
      · rw [if_pos hlast]
        obtain ⟨pairs, hpairs, hnodup, hmem⟩ := ih last hrest hdesc' hlead.tail
        refine ⟨pairs, hpairs, hnodup, fun k' r => (hmem k' r).trans (and_congr_right fun hne => ?_)⟩
        exact (shown_cons_of_ne hk hb (hlast ▸ hne)).symm
      rw [if_neg hlast]
      -- the row is the last fitting one of its key, and `last` has no more rows
      have hgreatest : IsGreatest {n | AmongRows container behavior expiry
          ((expiringKey container b m (expiry m), m) :: rest) k n ∧ ¬ TooNew asOf n} m :=
        ⟨⟨(amongRows_cons hk hb).mpr (Or.inl ⟨rfl, rfl⟩), hnew⟩,
          fun n hn => le_first hk hb hdesc hn.1⟩
      obtain ⟨pairs, hpairs, hnodup, hmem⟩ := ih k hrest hdesc' (leading_first hk hb hdesc)
      have hothers : ∀ k' r, (k' ≠ k ∧ Shown c container behavior expiry asOf rest k' r) ↔
          k' ≠ k ∧ k' ≠ last ∧
            Shown c container behavior expiry asOf ((expiringKey container b m (expiry m), m) :: rest) k' r := by
        intro k' r
        refine and_congr_right fun hne => ?_
        rw [shown_cons_of_ne hk hb hne]
        refine ⟨fun h => ⟨?_, h⟩, And.right⟩
        rintro rfl
        exact not_amongRows_last hk hb hdesc hlead hlast _ h.greatest.1.1
      by_cases hold : (time : Int) ≠ 0 ∧ m.timestamp < time
      · rw [if_pos hold]
        refine ⟨pairs, hpairs, hnodup, fun k' r => ?_⟩
        rw [hmem, hothers]
        refine ⟨And.right, fun h => ⟨?_, h⟩⟩
        rintro rfl
        have hkept := h.2.kept
        rw [h.2.greatest.unique hgreatest] at hkept
        exact hkept ((holder m).mpr (by omega))
      · rw [if_neg hold]
        have hshow : ¬ OlderThanAll (viewOf c container behavior expiry) asOf m := by
          intro h
          have := (holder m).mp h
          exact hold ⟨by omega, by omega⟩
        obtain ⟨builder, hbuilder, -⟩ := visible_stored hkc hc ⟨hk, b, hb, hrow⟩
        by_cases hexpired : (readExpiry (expiry m)).any (fun e => decide (e < asOf)) = true
        · rw [if_pos hexpired]
          refine ⟨pairs, hpairs, hnodup, fun k' r => ?_⟩
          rw [hmem, hothers]
          refine ⟨And.right, fun h => ⟨?_, h⟩⟩
          rintro rfl
          have hunexpired := h.2.unexpired
          rw [h.2.greatest.unique hgreatest] at hunexpired
          exact hunexpired (expired_iff.mp hexpired)
        · rw [if_neg hexpired]
          rw [expired_iff] at hexpired
          unfold readEntry
          simp only [hbuilder, orRaise_some, hpairs, pure, Except.pure]
          refine ⟨(k, ⟨m, builder⟩) :: pairs, rfl, ?_, fun k' r => ?_⟩
          · rw [List.map_cons, List.nodup_cons]
            refine ⟨?_, hnodup⟩
            intro hin
            obtain ⟨⟨k', r⟩, hp, hk'⟩ := List.mem_map.mp hin
            exact ((hmem k' r).mp hp).1 hk'
          · rw [List.mem_cons, hmem, hothers, Prod.mk.injEq]
            constructor
            · rintro (⟨rfl, rfl⟩ | h)
              · exact ⟨hlast, hgreatest, hshow, hexpired, hbuilder⟩
              · exact h.2
            · rintro ⟨hne, hy⟩
              by_cases hkk : k' = k
              · subst hkk
                refine Or.inl ⟨rfl, ?_⟩
                obtain ⟨address, contents⟩ := r
                obtain rfl : address = m := hy.greatest.unique hgreatest
                have hcontents : c.entries.get? address = some contents := hy.builder
                rw [hbuilder] at hcontents
                rw [Option.some.inj hcontents]
              · exact Or.inr ⟨hkk, hne, hy⟩

/-! ## §5. The listing. -/

/-- The keys the listing gets to: not `None`, and not past sixteen bytes of 0xFF. -/
def Reached (k : MiddleKey) : Prop := k ≠ .none ∧ ∀ b, k.toBytes = .ok b → ¬ ones 16 <+: b

/-- **The upper bound of the range** leaves out the keys packed to sixteen bytes of 0xFF
and more. -/
theorem expiringKey_le_ones {k : MiddleKey} {b : Bytes} {m : Muid} (hk : KeyOf behavior k)
    (hb : k.toBytes = .ok b) (hm : m.timeField.val < 2 ^ 52 - 1) (e : U64) :
    expiringKey container b m e ≤ container.toBytes ++ ones 16 ↔ ¬ ones 16 <+: b := by
  have hlen : 16 < (b ++ (m.toBytes ++ packSigned e.val)).length := by
    simp only [List.length_append, Muid.length_toBytes, length_packSigned]
    omega
  unfold expiringKey
  simp only [List.append_assoc]
  rw [Bytes.append_le_append_left_iff, ← not_lt]
  show ¬ List.replicate 16 255 < _ ↔ ¬ List.replicate 16 255 <+: b
  rw [Bytes.replicate_lt_iff, and_iff_left hlen, not_iff_not]
  refine ⟨fun h => ?_, fun h => h.trans (List.prefix_append _ _)⟩
  -- only a short key could borrow bytes of 0xFF from the placer
  by_cases hlong : 16 ≤ b.length
  · exact List.prefix_of_prefix_length_le h (List.prefix_append _ _) (by simpa using hlong)
  have hbelow : b ++ (m.toBytes ++ packSigned e.val) < List.replicate 16 255 := by
    cases hk.packed hb with
    | none =>
        rw [List.nil_append]
        exact (placer_lt_reserved hm _).trans (by decide +kernel)
    | key k =>
        cases k with
        | number n => exact Bytes.lt_replicate_of_head (a := 0x08) (by decide)
        | octets o => exact Bytes.lt_replicate_of_head (a := 0x12) (by decide)
        | characters s => exact Bytes.lt_replicate_of_head (a := 0x1a) (by decide)
    | muid l =>
        rw [Muid.length_toBytes] at hlong
        omega
    | pair l r =>
        rw [List.length_append, Muid.length_toBytes] at hlong
        omega
  exact absurd hbelow (not_lt.mpr (Bytes.le_of_isPrefix h))

/-- **`get_keyed_entries`** yields for each key it gets to the last entry that is not
too new, unless every clearance before the time hides it. -/
theorem getKeyedEntries_shown (hkc : KeyedRows c container behavior expiry) (hc : Readable c container)
    (hi : Muid.instant asOf = .ok instant) :
    ∃ pairs : List (MiddleKey × FoundEntry),
      getKeyedEntries c container behavior asOf = .ok (pairs.map Prod.snd) ∧
      (pairs.map Prod.fst).Nodup ∧
      ∀ k r, (k, r) ∈ pairs ↔ Reached k ∧
        Shown c container behavior expiry asOf c.placements.rows k r := by
  obtain ⟨time, htime, holder⟩ := timeOfPriorClear_eq container behavior expiry hc hi
  have hin : ∀ row ∈ irange c.placements container.toBytes (container.toBytes ++ ones 16),
      row ∈ c.placements.rows ∧ container.toBytes <+: row.1 := fun row hrow =>
    ⟨(List.mem_filter.mp hrow).1,
      prefix_of_mem_irange hrow (List.prefix_refl _) (List.prefix_append _ _)⟩
  have hdesc : (irange c.placements container.toBytes (container.toBytes ++ ones 16)).reverse.Pairwise
      (fun x y => y.1 < x.1) :=
    List.pairwise_reverse.mpr (c.placements.sorted.filter _)
  -- `None` leads: where it is a key it is the only one
  have hlead : Leading container behavior expiry .none
      (irange c.placements container.toBytes (container.toBytes ++ ones 16)).reverse := by
    intro m hm k n hn hne b b' hb hb'
    have hnone := hn.1.packed hb'
    obtain ⟨hbox, -⟩ := hm
    obtain ⟨hkn, -⟩ := hn
    cases behavior <;> first | exact absurd hbox id | skip
    cases k <;> first | exact absurd rfl hne | exact absurd hkn id
  obtain ⟨pairs, hpairs, hnodup, hmem⟩ := keyedLoop_eq hkc hc holder
    (irange c.placements container.toBytes (container.toBytes ++ ones 16)).reverse .none
    (fun row hrow => hin row (List.mem_reverse.mp hrow)) hdesc hlead
  refine ⟨pairs, ?_, hnodup, fun k r => ?_⟩
  · unfold getKeyedEntries
    simp only [htime, bind, Except.bind]
    exact hpairs
  -- a key's rows are all in the range, or none is
  have hrows : (∀ b, k.toBytes = .ok b → ¬ ones 16 <+: b) → ∀ m,
      AmongRows container behavior expiry
        (irange c.placements container.toBytes (container.toBytes ++ ones 16)).reverse k m ↔
      AmongRows container behavior expiry c.placements.rows k m := by
    intro hreach m
    constructor
    · rintro ⟨hk, b, hb, hrow⟩
      exact ⟨hk, b, hb, (hin _ (List.mem_reverse.mp hrow)).1⟩
    · rintro ⟨hk, b, hb, hrow⟩
      obtain ⟨k', b', m', hk', hb', heq, hm', -⟩ :=
        hkc _ hrow (container_prefix_expiringKey container b m _)
      simp only [Prod.mk.injEq] at heq
      obtain ⟨-, rfl⟩ := heq
      refine ⟨hk, b, hb, List.mem_reverse.mpr (List.mem_filter.mpr ⟨hrow, ?_⟩)⟩
      simp only [Bool.and_eq_true, decide_eq_true_eq]
      exact ⟨Bytes.le_of_isPrefix (container_prefix_expiringKey container b m _),
        (expiringKey_le_ones hk hb hm' _).mpr (hreach b hb)⟩
  have hcongr : (∀ b, k.toBytes = .ok b → ¬ ones 16 <+: b) →
      (Shown c container behavior expiry asOf
        (irange c.placements container.toBytes (container.toBytes ++ ones 16)).reverse k r ↔
      Shown c container behavior expiry asOf c.placements.rows k r) := by
    intro hreach
    have hset : {m | AmongRows container behavior expiry
          (irange c.placements container.toBytes (container.toBytes ++ ones 16)).reverse k m ∧
            ¬ TooNew asOf m}
        = {m | AmongRows container behavior expiry c.placements.rows k m ∧ ¬ TooNew asOf m} := by
      ext m
      simp only [Set.mem_ofPred_eq, hrows hreach]
    constructor
    · rintro ⟨hg, hkept, hunexpired, hbuilder⟩
      exact ⟨hset ▸ hg, hkept, hunexpired, hbuilder⟩
    · rintro ⟨hg, hkept, hunexpired, hbuilder⟩
      exact ⟨hset ▸ hg, hkept, hunexpired, hbuilder⟩
  rw [hmem]
  constructor
  · rintro ⟨hne, hy⟩
    have hreach : ∀ b, k.toBytes = .ok b → ¬ ones 16 <+: b := by
      intro b hb
      obtain ⟨hk, b', hb', hrow⟩ := hy.greatest.1.1
      rw [hb] at hb'
      injection hb' with hb'
      subst hb'
      have hbounds := (List.mem_filter.mp (List.mem_reverse.mp hrow)).2
      simp only [Bool.and_eq_true, decide_eq_true_eq] at hbounds
      obtain ⟨k', b', m', hk', hb', heq, hm', -⟩ :=
        hkc _ (hin _ (List.mem_reverse.mp hrow)).1 (container_prefix_expiringKey container b r.address _)
      simp only [Prod.mk.injEq] at heq
      obtain ⟨-, heq⟩ := heq
      rw [← heq] at hm'
      exact (expiringKey_le_ones hk hb hm' _).mp hbounds.2
    exact ⟨⟨hne, hreach⟩, (hcongr hreach).mp hy⟩
  · rintro ⟨⟨hne, hreach⟩, hy⟩
    exact ⟨hne, (hcongr hreach).mpr hy⟩

/-! ## §6. Containers without expiry. -/

/-- `m` wrote to the key, and its row is among those in `l`. -/
def InRows (container : Muid) (behavior : Behavior) (l : List (Bytes × Muid)) (k : MiddleKey)
    (m : Muid) : Prop :=
  KeyOf behavior k ∧ ∃ b, k.toBytes = .ok b ∧ (rowKey container b m, m) ∈ l

/-- What the loop yields for a key out of the rows in `l`. -/
structure Yielded (c : Contents) (container : Muid) (behavior : Behavior) (asOf : Int)
    (l : List (Bytes × Muid)) (k : MiddleKey) (r : FoundEntry) : Prop where
  greatest : IsGreatest {m | InRows container behavior l k m ∧ ¬ TooNew asOf m} r.address
  kept : ¬ OlderThanAll (keyedView c container behavior) asOf r.address
  builder : c.entries.get? r.address = some r.builder

/-- A visible entry is stored, under a behavior that reads its key back. -/
theorem visible_entry (hkc : KeyedContainer c container behavior) (hc : Retained c) {k : MiddleKey}
    {m : Muid} (hm : (keyedView c container behavior).has k m) :
    ∃ builder, c.entries.get? m = some builder ∧ KeyOf builder.behavior k := by
  have hrows : KeyedRows c container behavior (fun _ => 0) := hkc
  exact visible_stored hrows (hc.readable container) hm

/-- **What a lookup finds**: the last entry before the time, unless it is older than
every clearance before the time. -/
theorem getEntryByKey_eq (hkc : KeyedContainer c container behavior) (hc : Retained c)
    (hi : Muid.instant asOf = .ok instant) {k : MiddleKey} {b : Bytes} (hk : KeyOf behavior k)
    (hb : k.toBytes = .ok b) :
    ∃ found, getEntryByKey c container k asOf = .ok found ∧ ∀ r, found = some r ↔
      (keyedView c container behavior).Visible asOf k r.address ∧
        ¬ OlderThanAll (keyedView c container behavior) asOf r.address ∧
        c.entries.get? r.address = some r.builder := by
  have hrows : KeyedRows c container behavior (fun _ => 0) := hkc
  exact getEntryByKey_found hrows (hc.readable container) hi hk hb

/-- **`get_keyed_entries`** yields for each key it gets to the last entry that is not
too new, unless every clearance before the time hides it. -/
theorem getKeyedEntries_eq (hkc : KeyedContainer c container behavior) (hc : Retained c)
    (hi : Muid.instant asOf = .ok instant) :
    ∃ pairs : List (MiddleKey × FoundEntry),
      getKeyedEntries c container behavior asOf = .ok (pairs.map Prod.snd) ∧
      (pairs.map Prod.fst).Nodup ∧
      ∀ k r, (k, r) ∈ pairs ↔ Reached k ∧
        Yielded c container behavior asOf c.placements.rows k r := by
  have hrows : KeyedRows c container behavior (fun _ => 0) := hkc
  obtain ⟨pairs, hlisting, hnodup, hpairs⟩ := getKeyedEntries_shown hrows (hc.readable container) hi
  refine ⟨pairs, hlisting, hnodup, fun k r => (hpairs k r).trans (and_congr_right fun _ => ?_)⟩
  constructor
  · exact fun h => ⟨h.greatest, h.kept, h.builder⟩
  · exact fun h => ⟨h.greatest, h.kept, not_expired_zero asOf, h.builder⟩

end

end Memory

end Gink
