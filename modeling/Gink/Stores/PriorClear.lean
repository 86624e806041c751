/-
  Gink.Stores.PriorClear — the latest clearance before a time, and what reads hide by it.

  `_get_time_of_prior_clear` of `LmdbStore` seeks the last clearance before the time; the
  loop of `MemoryStore` runs on to the first one.  A read skips what is older than the time
  found, so it shows nothing older than any clearance where that time is the latest.
-/
import Gink.Stores.KeyedListing

namespace Gink

/-! ## §1. What is asked of the lookup and of a read. -/

/-- The greatest timestamp of a clearance below `asOf`, or 0 when there is none. -/
def IsPriorClear (cleared : Muid → Prop) (asOf time : Int) : Prop :=
  IsGreatest {s | ∃ z, cleared z ∧ KeyedView.Before asOf z ∧ z.timestamp = s} time ∨
    (∀ z, cleared z → ¬ KeyedView.Before asOf z) ∧ time = 0

/-- Nothing of what is shown is older than a clearance before the time. -/
def NothingOlder (cleared : Muid → Prop) (asOf : Int) (shown : List Muid) : Prop :=
  ∀ z, cleared z → KeyedView.Before asOf z → ∀ m ∈ shown, z.timestamp ≤ m.timestamp

section
variable {cleared held : Muid → Prop} {asOf : Int} {instant : Muid}

/-- Timestamps before the time order addresses as their fields do. -/
theorem KeyedView.Before.timestamp_le (hi : Muid.instant asOf = .ok instant) {y z : Muid}
    (hy : KeyedView.Before asOf y) (hz : KeyedView.Before asOf z) (h : y ≤ z) :
    y.timestamp ≤ z.timestamp := by
  rw [hy.timestamp hi, hz.timestamp hi]
  have := Muid.timeField_le_of_le h
  exact_mod_cast this

/-- **The latest clearance that is held** is the prior clear when none that came is later. -/
theorem isPriorClear_greatest (hi : Muid.instant asOf = .ok instant)
    (hsub : ∀ z, held z → cleared z) {z : Muid}
    (hz : IsGreatest {z | held z ∧ KeyedView.Before asOf z} z) :
    IsPriorClear cleared asOf z.timestamp ↔ ∀ y, cleared y → KeyedView.Before asOf y →
      ∃ x, held x ∧ KeyedView.Before asOf x ∧ y.timestamp ≤ x.timestamp := by
  constructor
  · rintro (⟨-, hmax⟩ | ⟨hnone, -⟩) y hy hyb
    · exact ⟨z, hz.1.1, hz.1.2, hmax ⟨y, hy, hyb, rfl⟩⟩
    · exact absurd hyb (hnone y hy)
  · intro h
    refine Or.inl ⟨⟨z, hsub z hz.1.1, hz.1.2, rfl⟩, ?_⟩
    rintro s ⟨y, hy, hyb, rfl⟩
    obtain ⟨x, hx, hxb, hle⟩ := h y hy hyb
    exact hle.trans (hxb.timestamp_le hi hz.1.2 (hz.2 ⟨hx, hxb⟩))

/-- Where none is held, 0 is right when none came. -/
theorem isPriorClear_zero (hi : Muid.instant asOf = .ok instant)
    (htime : ∀ z, cleared z → z.timeField.val ≠ 0)
    (hnone : ∀ z, held z → ¬ KeyedView.Before asOf z) :
    IsPriorClear cleared asOf 0 ↔ ∀ y, cleared y → KeyedView.Before asOf y →
      ∃ x, held x ∧ KeyedView.Before asOf x ∧ y.timestamp ≤ x.timestamp := by
  constructor
  · rintro (⟨⟨z, hz, hzb, hzero⟩, -⟩ | ⟨hno, -⟩) y hy hyb
    · rw [hzb.timestamp hi] at hzero
      exact absurd (by exact_mod_cast hzero) (htime z hz)
    · exact absurd hyb (hno y hy)
  · intro h
    refine Or.inr ⟨fun y hy hyb => ?_, rfl⟩
    obtain ⟨x, hx, hxb, -⟩ := h y hy hyb
    exact hnone x hx hxb

/-- **The earliest clearance** is the prior clear when all have one timestamp. -/
theorem isPriorClear_least (hi : Muid.instant asOf = .ok instant) {z : Muid}
    (hz : IsLeast {z | cleared z ∧ KeyedView.Before asOf z} z) :
    IsPriorClear cleared asOf z.timestamp ↔ ∀ x y, cleared x → KeyedView.Before asOf x →
      cleared y → KeyedView.Before asOf y → x.timestamp = y.timestamp := by
  have hle : ∀ y, cleared y → KeyedView.Before asOf y → z.timestamp ≤ y.timestamp :=
    fun y hy hyb => hz.1.2.timestamp_le hi hyb (hz.2 ⟨hy, hyb⟩)
  constructor
  · rintro (⟨-, hmax⟩ | ⟨hnone, -⟩) x y hx hxb hy hyb
    · have hx' := le_antisymm (hle x hx hxb) (hmax ⟨x, hx, hxb, rfl⟩)
      have hy' := le_antisymm (hle y hy hyb) (hmax ⟨y, hy, hyb, rfl⟩)
      rw [← hx', ← hy']
    · exact absurd hxb (hnone x hx)
  · intro h
    refine Or.inl ⟨⟨z, hz.1.1, hz.1.2, rfl⟩, ?_⟩
    rintro s ⟨y, hy, hyb, rfl⟩
    exact (h y z hy hyb hz.1.1 hz.1.2).le

/-- What a read lets through that skips what is older than the prior clear. -/
theorem IsPriorClear.nothingOlder (hi : Muid.instant asOf = .ok instant)
    (htime : ∀ z, cleared z → z.timeField.val ≠ 0) {time : Int}
    (h : IsPriorClear cleared asOf time) {shown : List Muid}
    (hshown : ∀ m ∈ shown, time ≠ 0 → time ≤ m.timestamp) : NothingOlder cleared asOf shown := by
  intro z hz hzb m hm
  rcases h with ⟨-, hmax⟩ | ⟨hnone, -⟩
  · have hle : z.timestamp ≤ time := hmax ⟨z, hz, hzb, rfl⟩
    have hpos := htime z hz
    have hstamp := hzb.timestamp hi
    exact hle.trans (hshown m hm (by omega))
  · exact absurd hzb (hnone z hz)

end

/-! ## §2. `LmdbStore`. -/

namespace Lmdb

variable {c : Contents} {container : Muid} {asOf : Int}

/-- A lookup shows nothing older than the time found. -/
theorem getEntryByKey_after {time : Int} (htime : timeOfPriorClear c container asOf = .ok time)
    {key : MiddleKey} {found : FoundEntry}
    (h : getEntryByKey c container key asOf = .ok (some found)) : time ≤ found.address.timestamp := by
  unfold getEntryByKey at h
  split_ifs at h with hzero
  · simp at h
  rw [htime] at h
  obtain ⟨time', htime', h⟩ := bind_eq_ok.mp h
  obtain rfl : time = time' := Except.ok.inj htime'
  obtain ⟨⟨serialized, behavior⟩, -, h⟩ := bind_eq_ok.mp h
  obtain ⟨instant, -, h⟩ := bind_eq_ok.mp h
  cases hseek : toLastSuffix c.placements (container.toBytes ++ serialized) instant.toBytes with
  | none => simp [hseek, pure, Except.pure] at h
  | some row =>
      simp only [hseek] at h
      obtain ⟨placement, -, h⟩ := bind_eq_ok.mp h
      split_ifs at h with hold
      · simp [pure, Except.pure] at h
      · obtain ⟨builder, -, h⟩ := bind_eq_ok.mp h
        have heq := Option.some.inj (pure_eq_ok.mp h)
        rw [← heq]
        exact not_lt.mp hold

/-- Neither does the listing. -/
theorem keyedLoop_after {behavior : Behavior} {asOfMuid : Muid} {time : Int} :
    ∀ (fuel : Nat) (row : Option (Bytes × Bytes)) {records : List FoundEntry},
      keyedLoop c container behavior asOf asOfMuid time fuel row = .ok records →
      ∀ r ∈ records, time ≠ 0 → time ≤ r.address.timestamp := by
  intro fuel
  induction fuel with
  | zero =>
      intro row records h r hr
      have hempty : records = [] := by
        cases row <;> exact (Except.ok.inj h).symm
      rw [hempty] at hr
      exact absurd hr List.not_mem_nil
  | succ fuel ih =>
      intro row records h
      cases row with
      | none =>
          intro r hr
          rw [← Except.ok.inj h] at hr
          exact absurd hr List.not_mem_nil
      | some row =>
          unfold keyedLoop at h
          obtain ⟨found, -, h⟩ := bind_eq_ok.mp h
          cases found with
          | none => exact ih _ h
          | some found =>
              simp only at h
              split_ifs at h with hold hexpired
              · exact ih _ h
              · exact ih _ h
              · obtain ⟨builder, -, h⟩ := bind_eq_ok.mp h
                obtain ⟨others, hothers, h⟩ := bind_eq_ok.mp h
                rw [← pure_eq_ok.mp h]
                intro r hr hne
                rcases List.mem_cons.mp hr with rfl | hr
                · have hnot := fun hlt => hold ⟨hne, hlt⟩
                  exact not_lt.mp hnot
                · exact ih _ hothers r hr hne

/-- An ordered read shows no place older than the time found. -/
theorem orderedLoop_after {q : OrderedScan} :
    ∀ (rows : List (Bytes × Bytes)) (limit : Option Int) (offset : Int)
      {records : List PositionedEntry}, orderedLoop c q rows limit offset = .ok records →
      ∀ r ∈ records, q.clearanceTime ≤ r.positioner.timestamp := by
  intro rows
  induction rows with
  | nil =>
      intro limit offset records h r hr
      rw [← Except.ok.inj h] at hr
      exact absurd hr List.not_mem_nil
  | cons row rest ih =>
      have hnothing : ∀ {records : List PositionedEntry},
          (Except.ok [] : Except Error (List PositionedEntry)) = .ok records →
          ∀ r ∈ records, q.clearanceTime ≤ r.positioner.timestamp := by
        intro records h r hr
        rw [← Except.ok.inj h] at hr
        exact absurd hr List.not_mem_nil
      intro limit offset records h
      unfold orderedLoop at h
      by_cases hlimit : limit.any (fun n => decide (n ≤ 0)) = true
      · rw [if_pos hlimit] at h
        exact hnothing h
      rw [if_neg hlimit] at h
      by_cases hother : (!q.container.toBytes.isPrefixOf row.1) = true
      · rw [if_pos hother] at h
        exact hnothing h
      rw [if_neg hother] at h
      obtain ⟨placement, -, h⟩ := bind_eq_ok.mp h
      obtain ⟨position, -, h⟩ := bind_eq_ok.mp h
      by_cases hpast : position > q.asOf
      · rw [if_pos hpast] at h
        cases hdesc : q.desc with
        | true =>
            rw [hdesc] at h
            exact ih _ _ h
        | false =>
            rw [hdesc] at h
            exact hnothing h
      rw [if_neg hpast] at h
      by_cases hbefore : position < q.after
      · rw [if_pos hbefore] at h
        cases hdesc : q.desc with
        | true =>
            rw [hdesc] at h
            exact hnothing h
        | false =>
            rw [hdesc] at h
            exact absurd h (by simp [throw, throwThe, MonadExceptOf.throw])
      rw [if_neg hbefore] at h
      by_cases hcleared : placement.placedTime ≥ q.asOf ∨ placement.placedTime < q.clearanceTime
      · rw [if_pos hcleared] at h
        exact ih _ _ h
      rw [if_neg hcleared] at h
      by_cases hexpired : placement.expiry.any (fun expiry => decide (expiry < q.asOf)) = true
      · rw [if_pos hexpired] at h
        exact ih _ _ h
      rw [if_neg hexpired] at h
      obtain ⟨removed, -, h⟩ := bind_eq_ok.mp h
      cases removed with
      | true => exact ih _ _ h
      | false =>
          simp only [Bool.false_eq_true, if_false] at h
          by_cases hskip : offset > 0
          · rw [if_pos hskip] at h
            exact ih _ _ h
          · rw [if_neg hskip] at h
            obtain ⟨builder, -, h⟩ := bind_eq_ok.mp h
            obtain ⟨entryMuid, -, h⟩ := bind_eq_ok.mp h
            obtain ⟨others, hothers, h⟩ := bind_eq_ok.mp h
            rw [← pure_eq_ok.mp h]
            intro r hr
            rcases List.mem_cons.mp hr with rfl | hr
            · exact not_lt.mp fun hlt => hcleared (Or.inr hlt)
            · exact ih _ _ hothers r hr

/-- The reads of an `LmdbStore` as of the time follow the clearances of the container that
came in.  A place of an ordered container is as old as what put the entry there. -/
structure ClearsRight (retaining : Bool) (cleared : Muid → Prop) (c : Contents) (container : Muid)
    (asOf : Int) : Prop where
  lookup : ∃ time, timeOfPriorClear c container asOf = .ok time ∧ IsPriorClear cleared asOf time
  byKey : ∀ key found, getEntryByKey c container key asOf = .ok (some found) →
    NothingOlder cleared asOf [found.address]
  keyed : ∀ behavior records, getKeyedEntries c container behavior asOf = .ok records →
    NothingOlder cleared asOf (records.map (·.address))
  ordered : ∀ limit offset desc after records,
    getOrderedEntries c container asOf limit offset desc after = .ok records →
      NothingOlder cleared asOf (records.map (·.positioner))
  /-- what was last written to a listed key before the time is not older either -/
  contents : retaining = true → ∀ behavior, KeyedContainer c container behavior → ∀ records,
    getKeyedEntries c container behavior asOf = .ok records → ∀ r ∈ records, ∀ k m,
      (keyedView c container behavior).has k r.address →
      (keyedView c container behavior).Visible asOf k m → NothingOlder cleared asOf [m]

/-- A clearance at least as late as any that came before the time is still held: always with
history, and without it when the one that arrived last is such. -/
def LatestKept (retaining : Bool) (clearances : List Muid) (asOf : Int) : Prop :=
  ∀ z ∈ clearances, KeyedView.Before asOf z →
    ∃ x, Kept retaining clearances x ∧ KeyedView.Before asOf x ∧ z.timestamp ≤ x.timestamp

/-- No key of the container that the latest clearance before the time hides is written again
at or after the time. -/
def HiddenStayUnwritten (c : Contents) (container : Muid) (behavior : Behavior) (asOf : Int) :
    Prop :=
  ∀ k m n, (keyedView c container behavior).Visible asOf k m →
    (keyedView c container behavior).Hidden asOf m →
    (keyedView c container behavior).has k n → KeyedView.Before asOf n

/-- The addresses of clearances have a time. -/
theorem clearings_timeField {ops : List Op} {z : Muid} (h : z ∈ clearings container ops) :
    z.timeField.val ≠ 0 := by
  obtain ⟨op, -, hop⟩ := List.mem_filterMap.mp h
  obtain ⟨⟨container', z', builder⟩, hcleared, hif⟩ := Option.bind_eq_some_iff.mp hop
  simp only [Option.ite_none_right_eq_some, Option.some.injEq] at hif
  rw [← hif.2]
  exact create_timeField (cleared_eq_some.mp hcleared).2.2

theorem Kept.mem {retaining : Bool} {clearances : List Muid} {z : Muid}
    (h : Kept retaining clearances z) : z ∈ clearances := by
  unfold Kept at h
  split_ifs at h
  · exact h
  · exact List.mem_of_getLast? h

/-- A range check of the time is the first thing every read makes. -/
theorem timeOfPriorClear_inRange {time : Int} (h : timeOfPriorClear c container asOf = .ok time) :
    ∃ instant, Muid.instant asOf = .ok instant := by
  obtain ⟨instant, hi, -⟩ := bind_eq_ok.mp h
  exact ⟨instant, hi⟩

/-- **The lookup of an `LmdbStore`** is right exactly when the latest clearance is held. -/
theorem lookup_right_iff {retaining : Bool} {ops : List Op} (hc : ClearancesAre retaining ops c)
    {instant : Muid} (hi : Muid.instant asOf = .ok instant) :
    (∃ time, timeOfPriorClear c container asOf = .ok time ∧
      IsPriorClear (· ∈ clearings container ops) asOf time) ↔
    LatestKept retaining (clearings container ops) asOf := by
  have hrecorded := hc.recorded container
  have hone : ∀ {time : Int}, timeOfPriorClear c container asOf = .ok time →
      ((∃ time, timeOfPriorClear c container asOf = .ok time ∧
        IsPriorClear (· ∈ clearings container ops) asOf time) ↔
      IsPriorClear (· ∈ clearings container ops) asOf time) := by
    intro time htime
    refine ⟨?_, fun h => ⟨time, htime, h⟩⟩
    rintro ⟨time', htime', h⟩
    rw [htime] at htime'
    rw [Except.ok.inj htime']
    exact h
  rcases timeOfPriorClear_found container hc.keys hi with ⟨hzero, hnone⟩ | ⟨z, htime, hz⟩
  · rw [hone hzero]
    refine isPriorClear_zero hi (fun z hz => clearings_timeField hz) fun z hz => ?_
    exact hnone z ((hrecorded z).mpr hz)
  · rw [hone htime]
    refine isPriorClear_greatest hi (fun z hz => Kept.mem hz) ?_
    simpa only [hrecorded] using hz

/-- A listed key shows what was last written to it before the time. -/
theorem listed_contents_iff {behavior : Behavior} {instant : Muid} {history : List OpenBundle}
    (hkc : KeyedContainer c container behavior) (hc : Retained c)
    (hclear : ClearancesAre true (allOps history) c) (hi : Muid.instant asOf = .ok instant) :
    (∀ records, getKeyedEntries c container behavior asOf = .ok records → ∀ r ∈ records, ∀ k m,
      (keyedView c container behavior).has k r.address →
      (keyedView c container behavior).Visible asOf k m →
        NothingOlder (· ∈ clearings container (allOps history)) asOf [m]) ↔
    HiddenStayUnwritten c container behavior asOf := by
  obtain ⟨pairs, hlisting, -, hpairs⟩ := getKeyedEntries_eq hkc hc hi
  have hfinite := keyedView_finite c container behavior
  have hcleared : ∀ z, (keyedView c container behavior).cleared z ↔
      z ∈ clearings container (allOps history) := hclear.recorded container
  have hshown : ∀ m, KeyedView.Before asOf m →
      (NothingOlder (· ∈ clearings container (allOps history)) asOf [m] ↔
        ¬ (keyedView c container behavior).Hidden asOf m) := by
    intro m hm
    constructor
    · rintro h ⟨z, hz, hlt⟩
      have hle := h z ((hcleared z).mp hz.1.1) hz.1.2 m List.mem_cons_self
      rw [hz.1.2.timestamp hi, hm.timestamp hi] at hle
      have : z.timeField.val ≤ m.timeField.val := by exact_mod_cast hle
      exact absurd hlt (not_lt.mpr this)
    · intro h z hz hzb n hn
      rw [List.mem_singleton.mp hn, hzb.timestamp hi, hm.timestamp hi]
      by_contra hlt
      have : m.timeField.val < z.timeField.val := by exact_mod_cast not_le.mp hlt
      exact h (hfinite.hidden ((hcleared z).mpr hz) hzb this)
  constructor
  · intro h k m n hm hhidden hn
    by_contra hafter
    -- the newest entry of the key is listed with the contents of the hidden one
    obtain ⟨newest, hnewest⟩ := KeyedView.exists_greatest (hfinite.has k) ⟨n, hn⟩
    obtain ⟨builder, hbuilder⟩ : ∃ builder, c.entries.get? m.toBytes = some builder := by
      obtain ⟨-, b, -, hrow⟩ := hm.1.1
      exact Option.isSome_iff_exists.mp (hc.entries _ hrow)
    have hpast : ¬ KeyedView.Before asOf newest := fun hb =>
      hafter (lt_of_le_of_lt (Muid.timeField_le_of_le (hnewest.2 hn)) hb)
    have hin := (hpairs k ⟨newest, builder⟩).mpr ⟨hnewest, Or.inr ⟨hpast, m, hm, hbuilder⟩⟩
    have hold := h _ hlisting ⟨newest, builder⟩ (List.mem_map.mpr ⟨_, hin, rfl⟩) k m hnewest.1 hm
    exact (hshown m hm.before).mp hold hhidden
  · intro h records hrecords r hr k m hk hm
    rw [hlisting] at hrecords
    rw [← Except.ok.inj hrecords] at hr
    obtain ⟨⟨k', r'⟩, hin, rfl⟩ := List.mem_map.mp hr
    rw [hshown m hm.before]
    intro hhidden
    have hbefore := h k m r'.address hm hhidden hk
    obtain ⟨-, ⟨-, hrecord⟩ | ⟨hafter, -⟩⟩ := (hpairs k' r').mp hin
    · -- the key's last write is no older than the one shown
      obtain ⟨z, hz, hlt⟩ := hhidden
      have hle := Muid.timeField_le_of_le (hm.2 ⟨hk, hbefore⟩)
      exact hrecord.kept ⟨z, hz, lt_of_le_of_lt hle hlt⟩
    · exact hafter hbefore

/-- What is retained is retained in every history. -/
theorem History.retained {lib : Externals} {history : List OpenBundle}
    (h : History lib true history c) : Retained c := by
  generalize hr : true = retaining at h
  induction h with
  | start => exact ⟨by simp, by simp, by simp⟩
  | next before applied ih =>
      subst hr
      exact applyChangesFrom_invariant (fun _ _ _ _ _ _ hc hone => Retained.step hc hone)
        ih applied

/-- **Reads of an `LmdbStore`** follow the clearances exactly when the latest one is held and
no hidden key is written again past the time. -/
theorem clearsRight_iff {lib : Externals} {retaining : Bool} {history : List OpenBundle}
    (h : History lib retaining history c) :
    ClearsRight retaining (· ∈ clearings container (allOps history)) c container asOf ↔
      (-1 ≤ asOf ∧ asOf < 2 ^ 52) ∧
        LatestKept retaining (clearings container (allOps history)) asOf ∧
        (retaining = true → ∀ behavior, KeyedContainer c container behavior →
          HiddenStayUnwritten c container behavior asOf) := by
  have hclear := h.clearances
  constructor
  · intro hright
    obtain ⟨time, htime, -⟩ := hright.lookup
    obtain ⟨instant, hi⟩ := timeOfPriorClear_inRange htime
    refine ⟨(Muid.instant_eq_ok.mp hi).1, (lookup_right_iff hclear hi).mp hright.lookup, ?_⟩
    rintro rfl behavior hkc
    exact (listed_contents_iff hkc h.retained hclear hi).mp (hright.contents rfl behavior hkc)
  · rintro ⟨hrange, hkept, hunwritten⟩
    have hi : Muid.instant asOf = .ok _ := Muid.instant_eq_ok.mpr ⟨hrange, rfl⟩
    obtain ⟨time, htime, hprior⟩ := (lookup_right_iff hclear hi).mpr hkept
    have hhides : ∀ {shown : List Muid}, (∀ m ∈ shown, time ≠ 0 → time ≤ m.timestamp) →
        NothingOlder (· ∈ clearings container (allOps history)) asOf shown :=
      hprior.nothingOlder hi fun z hz => clearings_timeField hz
    refine ⟨⟨time, htime, hprior⟩, ?_, ?_, ?_, ?_⟩
    · intro key found hfound
      refine hhides fun m hm _ => ?_
      rw [List.mem_singleton.mp hm]
      exact getEntryByKey_after htime hfound
    · intro behavior records hrecords
      refine hhides fun m hm hne => ?_
      obtain ⟨r, hr, rfl⟩ := List.mem_map.mp hm
      unfold getKeyedEntries at hrecords
      simp only [hi, htime, bind, Except.bind] at hrecords
      exact keyedLoop_after _ _ hrecords r hr hne
    · intro limit offset desc after records hrecords
      refine hhides fun m hm _ => ?_
      obtain ⟨r, hr, rfl⟩ := List.mem_map.mp hm
      unfold getOrderedEntries at hrecords
      rw [htime] at hrecords
      obtain ⟨time', htime', hrecords⟩ := bind_eq_ok.mp hrecords
      obtain rfl : time = time' := Except.ok.inj htime'
      obtain ⟨rows, -, hrecords⟩ := bind_eq_ok.mp hrecords
      exact orderedLoop_after rows limit offset hrecords r hr
    · rintro rfl behavior hkc
      exact (listed_contents_iff hkc h.retained hclear hi).mpr (hunwritten rfl behavior hkc)

end Lmdb

/-! ## §3. `MemoryStore`. -/

namespace Memory

variable {c : Contents} {container : Muid} {asOf : Int}

/-- A lookup shows nothing older than the time found. -/
theorem getEntryByKey_after {time : Int} (htime : timeOfPriorClear c container asOf = .ok time)
    {key : MiddleKey} {found : FoundEntry}
    (h : getEntryByKey c container key asOf = .ok (some found)) : time ≤ found.address.timestamp := by
  unfold getEntryByKey at h
  rw [htime] at h
  obtain ⟨instant, -, h⟩ := bind_eq_ok.mp h
  obtain ⟨time', htime', h⟩ := bind_eq_ok.mp h
  obtain rfl : time = time' := Except.ok.inj htime'
  obtain ⟨minimum, -, h⟩ := bind_eq_ok.mp h
  obtain ⟨maximum, -, h⟩ := bind_eq_ok.mp h
  cases hlast : (irange c.placements minimum maximum).getLast? with
  | none => simp [hlast, pure, Except.pure] at h
  | some row =>
      simp only [hlast] at h
      obtain ⟨builder, -, h⟩ := bind_eq_ok.mp h
      obtain ⟨placement, -, h⟩ := bind_eq_ok.mp h
      split_ifs at h with hold
      · simp [pure, Except.pure] at h
      · rw [← Option.some.inj (pure_eq_ok.mp h)]
        exact not_lt.mp hold

/-- Neither does the listing. -/
theorem keyedLoop_after {behavior : Behavior} {time : Int} :
    ∀ (rows : List (Bytes × Muid)) (last : MiddleKey) {records : List FoundEntry},
      keyedLoop c behavior asOf time rows last = .ok records →
      ∀ r ∈ records, time ≠ 0 → time ≤ r.address.timestamp := by
  intro rows
  induction rows with
  | nil =>
      intro last records h r hr
      rw [← Except.ok.inj h] at hr
      exact absurd hr List.not_mem_nil
  | cons row rest ih =>
      intro last records h
      unfold keyedLoop at h
      obtain ⟨placement, -, h⟩ := bind_eq_ok.mp h
      split_ifs at h with hnew hsame hold hexpired
      · exact ih _ h
      · exact ih _ h
      · exact ih _ h
      · exact ih _ h
      · obtain ⟨builder, -, h⟩ := bind_eq_ok.mp h
        obtain ⟨others, hothers, h⟩ := bind_eq_ok.mp h
        rw [← pure_eq_ok.mp h]
        intro r hr hne
        rcases List.mem_cons.mp hr with rfl | hr
        · exact not_lt.mp fun hlt => hold ⟨hne, hlt⟩
        · exact ih _ hothers r hr hne

/-- An ordered read shows no place older than the time found. -/
theorem orderedLoop_after {time : Int} :
    ∀ (rows : List (Bytes × Muid)) (limit : Option Int) (offset : Int)
      {records : List PositionedEntry},
      orderedLoop c container asOf time rows limit offset = .ok records →
      ∀ r ∈ records, time ≤ r.positioner.timestamp := by
  intro rows
  induction rows with
  | nil =>
      intro limit offset records h r hr
      rw [← Except.ok.inj h] at hr
      exact absurd hr List.not_mem_nil
  | cons row rest ih =>
      intro limit offset records h
      unfold orderedLoop at h
      by_cases hlimit : limit.any (fun n => decide (n ≤ 0)) = true
      · rw [if_pos hlimit] at h
        intro r hr
        rw [← Except.ok.inj h] at hr
        exact absurd hr List.not_mem_nil
      rw [if_neg hlimit] at h
      obtain ⟨builder, -, h⟩ := bind_eq_ok.mp h
      obtain ⟨placement, -, h⟩ := bind_eq_ok.mp h
      by_cases hcleared : placement.placedTime ≥ asOf ∨ placement.placedTime < time
      · rw [if_pos hcleared] at h
        exact ih _ _ h
      rw [if_neg hcleared] at h
      by_cases hexpired : placement.expiry.any (fun expiry => decide (expiry < asOf)) = true
      · rw [if_pos hexpired] at h
        exact ih _ _ h
      rw [if_neg hexpired] at h
      obtain ⟨removed, -, h⟩ := bind_eq_ok.mp h
      cases removed with
      | true => exact ih _ _ h
      | false =>
          simp only [Bool.false_eq_true, if_false] at h
          by_cases hskip : offset > 0
          · rw [if_pos hskip] at h
            exact ih _ _ h
          · rw [if_neg hskip] at h
            obtain ⟨position, -, h⟩ := bind_eq_ok.mp h
            obtain ⟨others, hothers, h⟩ := bind_eq_ok.mp h
            rw [← pure_eq_ok.mp h]
            intro r hr
            rcases List.mem_cons.mp hr with rfl | hr
            · exact not_lt.mp fun hlt => hcleared (Or.inr hlt)
            · exact ih _ _ hothers r hr

/-- The reads of a `MemoryStore` as of the time follow the clearances of the container.  A
place of an ordered container is as old as what put the entry there. -/
structure ClearsRight (c : Contents) (container : Muid) (asOf : Int) : Prop where
  lookup : ∃ time, timeOfPriorClear c container asOf = .ok time ∧
    IsPriorClear (Recorded c container) asOf time
  byKey : ∀ key found, getEntryByKey c container key asOf = .ok (some found) →
    NothingOlder (Recorded c container) asOf [found.address]
  keyed : ∀ behavior records, getKeyedEntries c container behavior asOf = .ok records →
    NothingOlder (Recorded c container) asOf (records.map (·.address))
  ordered : ∀ limit offset desc after records,
    getOrderedEntries c container asOf limit offset desc after = .ok records →
      NothingOlder (Recorded c container) asOf (records.map (·.positioner))

/-- The clearances of the container before the time have one timestamp. -/
def OneClearTime (c : Contents) (container : Muid) (asOf : Int) : Prop :=
  ∀ x y, Recorded c container x → KeyedView.Before asOf x →
    Recorded c container y → KeyedView.Before asOf y → x.timestamp = y.timestamp

/-- A range check of the time is the first thing the lookup makes. -/
theorem timeOfPriorClear_inRange {time : Int} (h : timeOfPriorClear c container asOf = .ok time) :
    ∃ instant, Muid.instant asOf = .ok instant := by
  obtain ⟨instant, hi, -⟩ := bind_eq_ok.mp h
  exact ⟨instant, hi⟩

/-- The addresses of recorded clearances have a time. -/
theorem Recorded.timeField {z : Muid} (hc : ClearanceKeys c.clearances) (h : Recorded c container z) :
    z.timeField.val ≠ 0 := by
  obtain ⟨value, hrow⟩ := h
  obtain ⟨container', z', hkey, htime, -⟩ := hc _ hrow
  have hlen : container.toBytes.length = container'.toBytes.length := by simp
  obtain ⟨-, hz⟩ := List.append_inj hkey hlen
  rw [Muid.toBytes_injective hz]
  exact htime

/-- **The lookup of a `MemoryStore`** is right exactly when the clearances before the time
have one timestamp. -/
theorem lookup_right_iff (hc : ClearanceKeys c.clearances) {instant : Muid}
    (hi : Muid.instant asOf = .ok instant) :
    (∃ time, timeOfPriorClear c container asOf = .ok time ∧
      IsPriorClear (Recorded c container) asOf time) ↔ OneClearTime c container asOf := by
  rcases timeOfPriorClear_found container hc hi with ⟨hzero, hnone⟩ | ⟨z, htime, hz⟩
  · constructor
    · intro _ x y hx hxb
      exact absurd hxb (hnone x hx)
    · intro _
      exact ⟨0, hzero, Or.inr ⟨hnone, rfl⟩⟩
  · constructor
    · rintro ⟨time, htime', hprior⟩
      rw [htime] at htime'
      rw [← Except.ok.inj htime'] at hprior
      exact (isPriorClear_least hi hz).mp hprior
    · intro hone
      exact ⟨z.timestamp, htime, (isPriorClear_least hi hz).mpr hone⟩

/-- **Reads of a `MemoryStore`** follow the clearances exactly when those before the time have
one timestamp. -/
theorem clearsRight_iff (hc : ClearanceKeys c.clearances) :
    ClearsRight c container asOf ↔
      (-1 ≤ asOf ∧ asOf < 2 ^ 52) ∧ OneClearTime c container asOf := by
  constructor
  · intro hright
    obtain ⟨time, htime, -⟩ := hright.lookup
    obtain ⟨instant, hi⟩ := timeOfPriorClear_inRange htime
    exact ⟨(Muid.instant_eq_ok.mp hi).1, (lookup_right_iff hc hi).mp hright.lookup⟩
  · rintro ⟨hrange, hone⟩
    have hi : Muid.instant asOf = .ok _ := Muid.instant_eq_ok.mpr ⟨hrange, rfl⟩
    obtain ⟨time, htime, hprior⟩ := (lookup_right_iff hc hi).mpr hone
    have hhides : ∀ {shown : List Muid}, (∀ m ∈ shown, time ≠ 0 → time ≤ m.timestamp) →
        NothingOlder (Recorded c container) asOf shown :=
      hprior.nothingOlder hi fun z hz => hz.timeField hc
    refine ⟨⟨time, htime, hprior⟩, ?_, ?_, ?_⟩
    · intro key found hfound
      refine hhides fun m hm _ => ?_
      rw [List.mem_singleton.mp hm]
      exact getEntryByKey_after htime hfound
    · intro behavior records hrecords
      refine hhides fun m hm hne => ?_
      obtain ⟨r, hr, rfl⟩ := List.mem_map.mp hm
      unfold getKeyedEntries at hrecords
      simp only [htime, bind, Except.bind] at hrecords
      exact keyedLoop_after _ _ hrecords r hr hne
    · intro limit offset desc after records hrecords
      refine hhides fun m hm _ => ?_
      obtain ⟨r, hr, rfl⟩ := List.mem_map.mp hm
      unfold getOrderedEntries at hrecords
      rw [htime] at hrecords
      obtain ⟨time', htime', hrecords⟩ := bind_eq_ok.mp hrecords
      obtain rfl : time = time' := Except.ok.inj htime'
      obtain ⟨afterBytes, -, hrecords⟩ := bind_eq_ok.mp hrecords
      obtain ⟨beforeBytes, -, hrecords⟩ := bind_eq_ok.mp hrecords
      exact orderedLoop_after _ limit offset hrecords r hr

end Memory

/-! ## §4. Both stores. -/

/-- A directory is cleared, written to and cleared again, from four chains. -/
def clearedTwice : List BundleBuilder :=
  [startingBundle 5 1 [.clearance ⟨globalBuilder .directory, false⟩],
    startingBundle 7 2 [sampleEntry .directory (some (.key (some (.characters "a")))) "between"],
    startingBundle 9 3 [.clearance ⟨globalBuilder .directory, false⟩]]

/-- What a `MemoryStore` holds that is given the bundles. -/
def memoryAfter (messages : List BundleBuilder) : Memory.Contents :=
  (Memory.runCalls (sampleExternals messages) (Memory.newStore [] true)
    ((List.range messages.length).map fun n => { bundle := sampleBundle (Fin.ofNat _ n) })).contents

/-- The clearances a `MemoryStore` then holds. -/
theorem memoryAfter_recorded {z : Muid}
    (h : Memory.Recorded (memoryAfter clearedTwice) (globalMuid .directory) z) :
    z = ⟨5, 1, 1⟩ ∨ z = ⟨9, 3, 1⟩ := by
  have hrows : (memoryAfter clearedTwice).clearances.rows.map Prod.fst =
      [(globalMuid .directory).toBytes ++ (⟨5, 1, 1⟩ : Muid).toBytes,
        (globalMuid .directory).toBytes ++ (⟨9, 3, 1⟩ : Muid).toBytes] := by decide +kernel
  obtain ⟨value, hrow⟩ := h
  have hkey := List.mem_map_of_mem (f := Prod.fst) hrow
  rw [hrows] at hkey
  simp only [List.mem_cons, List.append_cancel_left_eq, List.not_mem_nil, or_false] at hkey
  exact hkey.imp (fun heq => Muid.toBytes_injective heq) (fun heq => Muid.toBytes_injective heq)

end Gink
