/-
  Gink.Memory.Slices — `get_ordered_entries` of `MemoryStore` reads slices (memory_store.py).

  The range of keys that the scan goes over is the same in both directions, and `after` raises
  its lower end.  So the loop is a paged read of part of the rows that it goes over without
  `after`, and this holds of any dictionaries.
-/
import Gink.Memory.Contents
import Gink.Queue.Scan

namespace Gink

namespace Memory

/-! ## §1. The loop. -/

/-- Whether the loop shows a row. -/
def orderedShows (c : Contents) (container : Muid) (asOf clearanceTime : Int)
    (row : Bytes × Muid) : Except Error Bool := do
  let _ ← readEntry c row.2
  let placement ← Placement.fromBytes row.1 .sequence
  if placement.placedTime ≥ asOf ∨ placement.placedTime < clearanceTime then return false
  else if placement.expiry.any (fun expiry => decide (expiry < asOf)) then return false
  else (removedBy c container placement.placer asOf).map (!·)

/-- What it yields for one that is shown. -/
def orderedFetch (c : Contents) (row : Bytes × Muid) : Except Error PositionedEntry := do
  let builder ← readEntry c row.2
  let placement ← Placement.fromBytes row.1 .sequence
  placement.middle.position.map fun position => ⟨position, placement.placer, row.2, builder⟩

section
variable {c : Contents} {container : Muid} {asOf clearanceTime : Int}

/-- What the loop makes of a row that can be read. -/
theorem orderedShows_eq {row : Bytes × Muid} {builder : EntryBuilder} {placement : Placement}
    (hentry : readEntry c row.2 = .ok builder)
    (hplacement : Placement.fromBytes row.1 .sequence = .ok placement) :
    orderedShows c container asOf clearanceTime row =
      if placement.placedTime ≥ asOf ∨ placement.placedTime < clearanceTime then .ok false
      else if placement.expiry.any (fun expiry => decide (expiry < asOf)) then .ok false
      else (removedBy c container placement.placer asOf).map (!·) := by
  unfold orderedShows
  rw [hentry, hplacement]
  rfl

theorem orderedFetch_eq {row : Bytes × Muid} {builder : EntryBuilder} {placement : Placement}
    (hentry : readEntry c row.2 = .ok builder)
    (hplacement : Placement.fromBytes row.1 .sequence = .ok placement) :
    orderedFetch c row = placement.middle.position.map
      fun position => ⟨position, placement.placer, row.2, builder⟩ := by
  unfold orderedFetch
  rw [hentry, hplacement]
  rfl

/-- **The loop** is a paged read of the rows. -/
theorem orderedLoop_eq {rows : List (Bytes × Muid)} :
    ∀ {limit : Option Int} {offset : Int},
      orderedLoop c container asOf clearanceTime rows limit offset
        = Paged.read (orderedShows c container asOf clearanceTime) (orderedFetch c) rows limit
            offset := by
  induction rows with
  | nil => exact rfl
  | cons row rest ih =>
      intro limit offset
      unfold orderedLoop Paged.read
      by_cases hlimit : limit.any (fun n => decide (n ≤ 0)) = true
      · rw [if_pos hlimit, if_pos hlimit]
      · rw [if_neg hlimit, if_neg hlimit]
        cases hentry : readEntry c row.2 with
        | error e =>
            have hshows : orderedShows c container asOf clearanceTime row = .error e := by
              unfold orderedShows
              rw [hentry]
              rfl
            rw [hshows]
            rfl
        | ok builder =>
            cases hplacement : Placement.fromBytes row.1 .sequence with
            | error e =>
                have hshows : orderedShows c container asOf clearanceTime row = .error e := by
                  unfold orderedShows
                  rw [hentry, hplacement]
                  rfl
                rw [hshows]
                rfl
            | ok placement =>
                rw [orderedShows_eq hentry hplacement, orderedFetch_eq hentry hplacement]
                simp only [bind, Except.bind, ih]
                by_cases hplaced : placement.placedTime ≥ asOf ∨
                    placement.placedTime < clearanceTime
                · rw [if_pos hplaced, if_pos hplaced]
                · rw [if_neg hplaced, if_neg hplaced]
                  by_cases hexpired :
                      placement.expiry.any (fun expiry => decide (expiry < asOf)) = true
                  · rw [if_pos hexpired, if_pos hexpired]
                  · rw [if_neg hexpired, if_neg hexpired]
                    cases removedBy c container placement.placer asOf with
                    | error e => rfl
                    | ok removed =>
                        cases removed with
                        | true => rfl
                        | false =>
                            show (if offset > 0 then _ else _) = if offset > 0 then _ else _
                            by_cases hoffset : offset > 0
                            · rw [if_pos hoffset, if_pos hoffset]
                            · rw [if_neg hoffset, if_neg hoffset]
                              cases placement.middle.position <;> rfl

/-! ## §2. The rows that are shown. -/

/-- **A row that is shown** lies in the container, and is yielded with the position in its key. -/
theorem shown_position {row : Bytes × Muid} {entry : PositionedEntry} {lower upper : Bytes}
    (hlower : container.toBytes ++ lower ≤ row.1) (hupper : row.1 ≤ container.toBytes ++ upper)
    (hasOf : asOf < 2 ^ 52) (hpacked : encodeMuts asOf = .ok upper)
    (h : Paged.shown (orderedShows c container asOf clearanceTime) (orderedFetch c) row
      = some entry) :
    Lies container row.1 ∧ entry.position = positionOf row.1 := by
  obtain ⟨hshows, hfetch⟩ := Paged.gives_of_shown h
  have hread := hshows
  unfold orderedShows at hread
  obtain ⟨builder, hentry, hread⟩ := bind_eq_ok.mp hread
  obtain ⟨placement, hplacement, -⟩ := bind_eq_ok.mp hread
  rw [orderedShows_eq hentry hplacement] at hshows
  rw [orderedFetch_eq hentry hplacement] at hfetch
  obtain ⟨hlies, time, hmiddle, htime⟩ := lies_of_fromBytes hplacement
  -- the range is that of the container
  have hcontainer : placement.container = container := by
    have hpre := Bytes.prefix_of_le_of_le (List.prefix_append container.toBytes lower)
      (List.prefix_append container.toBytes upper) hlower hupper
    exact Muid.toBytes_injective (Bytes.prefix_unique (by simp)
      (List.isPrefixOf_iff_prefix.mp hlies.container_prefix) hpre)
  rw [hcontainer] at hlies
  -- nothing has been placed before a negative time
  have hnonneg : 0 ≤ asOf := by
    by_contra hneg
    have hplaced : placement.placedTime ≥ asOf := by
      have hge := placement.placer.timestamp_ge
      show asOf ≤ placement.placer.timestamp
      omega
    rw [if_pos (Or.inl hplaced)] at hshows
    cases hshows
  have hseekable : Seekable asOf := Or.inl ⟨hnonneg, by omega⟩
  rw [hseekable.packed] at hpacked
  rw [← Except.ok.inj hpacked] at hupper
  have hsmall := hlies.lt_of_le hseekable.fits.2 hupper
  have hposition := positionOf_decoded hlies (Or.inl (by omega)) htime
  refine ⟨hlies, ?_⟩
  rw [hmiddle] at hfetch
  obtain ⟨position, hp, hfetch⟩ := map_eq_ok.mp hfetch
  rw [← hfetch, ← hposition]
  exact (Except.ok.inj hp).symm

end

/-! ## §3. Slices. -/

/-- A range from further on is part of the range. -/
theorem irange_of_le {K V : Type} [LinearOrder K] (t : Table K V) {minimum minimum' maximum : K}
    (h : minimum ≤ minimum') :
    irange t minimum' maximum
      = (irange t minimum maximum).filter fun r => decide (minimum' ≤ r.1) := by
  unfold irange
  rw [List.filter_filter]
  refine List.filter_congr fun r _ => ?_
  by_cases hle : minimum' ≤ r.1
  · simp [hle, h.trans hle]
  · simp [hle]

/-- **`get_ordered_entries` reads slices**, whatever the dictionaries hold. -/
theorem getOrderedEntries_slices {c : Contents} {container : Muid} {asOf : Int}
    {l : List PositionedEntry} (h : getOrderedEntries c container asOf = .ok l) :
    Slices (@getOrderedEntries c container asOf) l := by
  unfold getOrderedEntries at h
  obtain ⟨clearanceTime, hclear, h⟩ := bind_eq_ok.mp h
  obtain ⟨zero, hzero, h⟩ := bind_eq_ok.mp h
  obtain ⟨upper, hupper, h⟩ := bind_eq_ok.mp h
  have hasOf : asOf < 2 ^ 52 := by
    unfold timeOfPriorClear at hclear
    obtain ⟨instant, hinstant, -⟩ := bind_eq_ok.mp hclear
    exact (Muid.instant_eq_ok.mp hinstant).1.2
  have hfrom : zero = Bytes.beEncode 8 0 := by
    have hseekable : Seekable 0 := Or.inl (by norm_num)
    rw [hseekable.packed] at hzero
    exact (Except.ok.inj hzero).symm
  simp only [Bool.false_eq_true, if_false, orderedLoop_eq] at h
  have hrow : ∀ row ∈ irange c.placements (container.toBytes ++ zero) (container.toBytes ++ upper),
      ∀ entry, Paged.shown (orderedShows c container asOf clearanceTime) (orderedFetch c) row
        = some entry → Lies container row.1 ∧ entry.position = positionOf row.1 := by
    intro row hrow entry hshown
    have hrange := (List.mem_filter.mp hrow).2
    simp only [Bool.and_eq_true, decide_eq_true_eq] at hrange
    exact shown_position hrange.1 hrange.2 hasOf hupper hshown
  refine Slices.of_both ?_ ?_
  · intro entry hentry
    rw [Paged.read_eq (Paged.read_all h)] at h
    rw [← Except.ok.inj h] at hentry
    obtain ⟨row, hmem, hshown⟩ := List.mem_filterMap.mp hentry
    rw [(hrow row hmem entry hshown).2]
    omega
  · intro after hafter desc limit offset
    unfold getOrderedEntries
    have hle : container.toBytes ++ zero ≤ container.toBytes ++ Bytes.beEncode 8 after.toNat := by
      rw [hfrom, Bytes.append_le_append_left_iff, Bytes.beEncode_le_iff (by norm_num) hafter.fits.2]
      omega
    rw [hclear, hafter.packed, hupper]
    simp only [bind, Except.bind]
    rw [irange_of_le _ hle, orderedLoop_eq]
    refine Paged.read_slice h ?_ desc limit offset
    intro row hmem entry hshown
    obtain ⟨hlies, hposition⟩ := hrow row hmem entry hshown
    rw [hposition]
    refine decide_eq_decide.mpr ?_
    rw [hlies.from_le_iff hafter.fits.2]
    omega

end Memory

end Gink
