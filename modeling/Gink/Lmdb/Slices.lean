/-
  Gink.Lmdb.Slices — `get_ordered_entries` of `LmdbStore` reads slices (lmdb_store.py).

  Upwards the scan begins at `after` and ends with the first position past `as_of`; downwards
  it begins at the end, skips what is past `as_of` and ends before `after`.  When no position
  sorts behind the infinite one, both go through the same rows.
-/
import Gink.Lmdb.Positions
import Gink.Lmdb.Reads
import Gink.Lmdb.Billionths

namespace Gink

/-! ## §1. Containers that are scanned by position. -/

/-- An entry for the container has a position. -/
def Op.OrdersIn (container : Muid) (op : Op) : Prop :=
  match op.change with
  | .entry builder => ∀ placement, Placement.fromBuilder builder op.info op.offset = .ok placement →
      placement.container = container →
        builder.behavior = .sequence ∨ builder.behavior = .edgeType
  | _ => True

/-- What is placed in the container is placed at none of the positions -2^63 to -2. -/
def Op.ForwardIn (container : Muid) (op : Op) : Prop :=
  match op.change with
  | .entry builder => ∀ placement, Placement.fromBuilder builder op.info op.offset = .ok placement →
      placement.container = container → -1 ≤ builder.effective
  | .movement builder => resolve op.info.context builder.container = .ok container →
      -1 ≤ builder.dest
  | _ => True

/-- The row lies in the container and reads back with the position in its key. -/
structure InPlace (container : Muid) (key : Bytes) : Prop where
  lies : Lies container key
  reads : ∃ placer expiry, Placement.fromBytes key .sequence
    = .ok ⟨container, .queue (positionOf key), placer, expiry⟩

/-- A placement packed at such a position does. -/
theorem inPlace_of_toBytes {container placer : Muid} {position : Int} {expiry : Option Int}
    {key : Bytes} (hposition : -1 ≤ position) (hzero : position ≠ 0)
    (h : (Placement.mk container (.queue position) placer expiry).toBytes = .ok key) :
    InPlace container key := by
  obtain ⟨middle, packed, hmiddle, hpacked, rfl⟩ := Placement.toBytes_eq_ok h
  have hmiddle : encodeMuts position = .ok middle := hmiddle
  have hisPosition : IsPosition position := by
    have hfits := hmiddle
    unfold encodeMuts at hfits
    split_ifs at hfits with hinf hrange
    · exact Or.inr (Or.inl hinf)
    · unfold IsPosition
      omega
  have hlen := length_of_encodeMuts hmiddle
  have hexpiry := length_of_encodeMuts hpacked
  obtain ⟨time, htime⟩ := Lmdb.decodeMuts_total hexpiry
  have hread := hisPosition.read
  have hfits : (readPosition position).toNat < 256 ^ 8 := by
    unfold intInf at hread
    omega
  have hvalue : Bytes.beDecode middle = (readPosition position).toNat := by
    rw [hisPosition.packed hmiddle]
    exact Bytes.beDecode_beEncode hfits
  have hkey : container.toBytes ++ middle ++ placer.toBytes ++ packed
      = container.toBytes ++ (middle ++ (placer.toBytes ++ packed)) := by
    simp only [List.append_assoc]
  show InPlace container (container.toBytes ++ middle ++ placer.toBytes ++ packed)
  have hpositionOf : (positionOf (container.toBytes ++ middle ++ placer.toBytes ++ packed) : Int)
      = readPosition position := by
    rw [hkey, positionOf_append container hlen, hvalue]
    omega
  refine ⟨⟨middle, placer.toBytes ++ packed, hlen, by simp [hexpiry], hkey⟩, placer, time, ?_⟩
  have hmiddleKey : Placement.middleFromBytes middle .sequence
      = .ok (.queue (readPosition position)) := by
    unfold Placement.middleFromBytes
    rw [List.take_of_length_le (by omega), hisPosition.decode hmiddle, hlen]
    rfl
  rw [hpositionOf, fromBytes_append .sequence hexpiry, hmiddleKey, htime]
  rfl

/-- **What a change puts into the container** lies there and reads back. -/
theorem Op.Places.inPlace {op : Op} {key : Bytes} {container : Muid} (h : op.Places key)
    (hordered : op.OrdersIn container) (hforward : op.ForwardIn container)
    (hpre : container.toBytes.isPrefixOf key = true) : InPlace container key := by
  obtain ⟨info, offset, change⟩ := op
  have hcontainer : ∀ {placement : Placement}, placement.toBytes = .ok key →
      placement.container = container := fun hbytes => (isPrefixOf_toBytes hbytes container).mp hpre
  cases change with
  | entry builder =>
      obtain ⟨placement, hplacement, hbytes⟩ := h
      have hin := hcontainer hbytes
      obtain ⟨hmuid, -, hmiddle, -⟩ := Placement.fromBuilder_eq_ok hplacement
      have hbehavior := hordered placement hplacement hin
      have heffective : -1 ≤ builder.effective := hforward placement hplacement hin
      -- an entry without a position of its own has that of its timestamp, which is not 0
      have htimestamp : -1 ≤ placement.placer.timestamp ∧ placement.placer.timestamp ≠ 0 := by
        obtain ⟨htime, -, -, hne⟩ := changeMuid_eq_ok hmuid
        refine ⟨placement.placer.timestamp_ge, ?_⟩
        unfold Muid.timestamp
        split_ifs <;> omega
      have hqueue : placement.middle = .queue (orElse builder.effective placement.placer.timestamp) := by
        unfold Placement.middleOf at hmiddle
        rcases hbehavior with hb | hb
        · rw [hb] at hmiddle
          exact (Except.ok.inj hmiddle).symm
        · rw [hb] at hmiddle
          exact (Except.ok.inj hmiddle).symm
      obtain ⟨in_, middle, placer, expiry⟩ := placement
      obtain rfl : in_ = container := hin
      have hqueue : middle = .queue (orElse builder.effective placer.timestamp) := hqueue
      subst hqueue
      refine inPlace_of_toBytes ?_ ?_ hbytes
      · unfold orElse
        split_ifs
        · exact htimestamp.1
        · exact heffective
      · unfold orElse
        split_ifs with hnone
        · exact htimestamp.2
        · exact hnone
  | movement builder =>
      obtain ⟨in_, placer, expiry, hresolve, hdest, hbytes⟩ := h
      obtain rfl : in_ = container := hcontainer hbytes
      exact inPlace_of_toBytes (hforward hresolve) hdest hbytes
  | container builder => exact absurd h id
  | clearance builder => exact absurd h id
  | unset => exact absurd h id

namespace Lmdb

/-! ## §2. The loop. -/

/-- Whether the loop shows a row that it does not pass by for its position. -/
def orderedShows (c : Contents) (q : OrderedScan) (row : Bytes × Bytes) : Except Error Bool := do
  let placement ← Placement.fromBytes row.1 .sequence
  if placement.placedTime ≥ q.asOf ∨ placement.placedTime < q.clearanceTime then return false
  else if placement.expiry.any (fun expiry => decide (expiry < q.asOf)) then return false
  else (removedBy c q.container placement.placer q.asOf).map (!·)

/-- What it yields for one that is shown. -/
def orderedFetch (c : Contents) (row : Bytes × Bytes) : Except Error PositionedEntry := do
  let placement ← Placement.fromBytes row.1 .sequence
  let position ← placement.middle.position
  let builder ← readEntry c row.2
  (Muid.fromBytes row.2).map fun entryMuid => ⟨position, placement.placer, entryMuid, builder⟩

/-- Whether a key is one of the container, at a position of those asked for. -/
def inScan (q : OrderedScan) (key : Bytes) : Bool :=
  q.container.toBytes.isPrefixOf key && (decide (q.after ≤ positionOf key) &&
    decide ((positionOf key : Int) ≤ q.asOf))

section
variable {c : Contents} {q : OrderedScan}

/-- The rows in the order of the scan: those of the container stand at the front. -/
structure Scanned (q : OrderedScan) (rows : List (Bytes × Bytes)) : Prop where
  sorted : rows.Pairwise fun a b => if q.desc then b.1 < a.1 else a.1 < b.1
  front : rows.Pairwise fun a b => q.container.toBytes.isPrefixOf b.1 = true →
    q.container.toBytes.isPrefixOf a.1 = true
  inPlace : ∀ row ∈ rows, q.container.toBytes.isPrefixOf row.1 = true → InPlace q.container row.1
  /-- an upward scan has begun at `after` -/
  begun : q.desc = false → ∀ row ∈ rows, q.container.toBytes.isPrefixOf row.1 = true →
    q.after ≤ positionOf row.1

theorem Scanned.tail {row : Bytes × Bytes} {rest : List (Bytes × Bytes)}
    (h : Scanned q (row :: rest)) : Scanned q rest :=
  ⟨(List.pairwise_cons.mp h.sorted).2, (List.pairwise_cons.mp h.front).2,
    fun r hr => h.inPlace r (List.mem_cons_of_mem _ hr),
    fun hdesc r hr => h.begun hdesc r (List.mem_cons_of_mem _ hr)⟩

/-- Where the scan ends, no later row is one that is asked for. -/
theorem Scanned.ended {row : Bytes × Bytes} {rest : List (Bytes × Bytes)}
    (h : Scanned q (row :: rest))
    (hend : q.container.toBytes.isPrefixOf row.1 = true →
      if q.desc then (positionOf row.1 : Int) < q.after else q.asOf < positionOf row.1) :
    (row :: rest).filter (fun r => inScan q r.1) = [] := by
  obtain ⟨hsorted, -⟩ := List.pairwise_cons.mp h.sorted
  obtain ⟨hfront, -⟩ := List.pairwise_cons.mp h.front
  rw [List.filter_eq_nil_iff]
  intro r hr hin
  unfold inScan at hin
  simp only [Bool.and_eq_true, decide_eq_true_eq] at hin
  obtain ⟨hpre, hafter, hasOf⟩ := hin
  rcases List.mem_cons.mp hr with rfl | hrest
  · have hend := hend hpre
    split_ifs at hend <;> omega
  · have hpre' := hfront r hrest hpre
    have hlies := (h.inPlace row List.mem_cons_self hpre').lies
    have hlies' := (h.inPlace r hr hpre).lies
    have hend := hend hpre'
    have hlt := hsorted r hrest
    split_ifs at hend hlt
    · have hle := hlies'.position_le hlies hlt
      omega
    · have hle := hlies.position_le hlies' hlt
      omega

/-- **The loop** is a paged read of the rows asked for. -/
theorem orderedLoop_eq {rows : List (Bytes × Bytes)} :
    ∀ {limit : Option Int} {offset : Int}, Scanned q rows →
      orderedLoop c q rows limit offset = Paged.read (orderedShows c q) (orderedFetch c)
        (rows.filter fun r => inScan q r.1) limit offset := by
  induction rows with
  | nil => exact fun _ => rfl
  | cons row rest ih =>
      intro limit offset h
      unfold orderedLoop
      by_cases hlimit : limit.any (fun n => decide (n ≤ 0)) = true
      · rw [if_pos hlimit, Paged.read_of_reached hlimit]
      rw [if_neg hlimit]
      by_cases hpre : q.container.toBytes.isPrefixOf row.1 = true
      · obtain ⟨placer, expiry, hreads⟩ := (h.inPlace row List.mem_cons_self hpre).reads
        simp only [hpre, Bool.not_true, Bool.false_eq_true, if_false, hreads, bind, Except.bind,
          MiddleKey.position]
        by_cases hlater : (positionOf row.1 : Int) > q.asOf
        · rw [if_pos hlater]
          cases hdesc : q.desc with
          | true =>
              have hout : inScan q row.1 = false := by
                unfold inScan
                rw [decide_eq_false (not_le.mpr hlater), Bool.and_false, Bool.and_false]
              simp only [if_true]
              rw [ih h.tail, List.filter_cons_of_neg (by rw [hout]; exact Bool.false_ne_true)]
          | false =>
              simp only [Bool.false_eq_true, if_false]
              rw [h.ended (fun _ => by rw [hdesc]; exact hlater)]
              rfl
        rw [if_neg hlater]
        by_cases hearlier : (positionOf row.1 : Int) < q.after
        · rw [if_pos hearlier]
          cases hdesc : q.desc with
          | true =>
              simp only [if_true]
              rw [h.ended (fun _ => by rw [hdesc]; exact hearlier)]
              rfl
          | false => exact absurd (h.begun hdesc row List.mem_cons_self hpre) (not_le.mpr hearlier)
        rw [if_neg hearlier]
        have hin : inScan q row.1 = true := by
          unfold inScan
          rw [hpre, decide_eq_true (not_lt.mp hearlier), decide_eq_true (not_lt.mp hlater)]
          rfl
        have hshows : orderedShows c q row =
            if placer.timestamp ≥ q.asOf ∨ placer.timestamp < q.clearanceTime then .ok false
            else if expiry.any (fun expiry => decide (expiry < q.asOf)) then .ok false
            else (removedBy c q.container placer q.asOf).map (!·) := by
          unfold orderedShows
          rw [hreads]
          rfl
        have hfetch : orderedFetch c row = (readEntry c row.2).bind fun builder =>
            (Muid.fromBytes row.2).map fun entryMuid =>
              ⟨positionOf row.1, placer, entryMuid, builder⟩ := by
          unfold orderedFetch
          rw [hreads]
          rfl
        have hkept : (row :: rest).filter (fun r => inScan q r.1)
            = row :: rest.filter fun r => inScan q r.1 := by
          rw [List.filter_cons, if_pos hin]
        rw [hkept]
        unfold Paged.read
        rw [if_neg hlimit, hshows, hfetch]
        simp only [ih h.tail, Placement.placedTime]
        by_cases hplaced : placer.timestamp ≥ q.asOf ∨ placer.timestamp < q.clearanceTime
        · rw [if_pos hplaced, if_pos hplaced]
        rw [if_neg hplaced, if_neg hplaced]
        by_cases hexpired : expiry.any (fun expiry => decide (expiry < q.asOf)) = true
        · rw [if_pos hexpired, if_pos hexpired]
        rw [if_neg hexpired, if_neg hexpired]
        cases removedBy c q.container placer q.asOf with
        | error e => rfl
        | ok removed =>
            cases removed with
            | true => rfl
            | false =>
                show (if offset > 0 then _ else _) = if offset > 0 then _ else _
                by_cases hoffset : offset > 0
                · rw [if_pos hoffset, if_pos hoffset]
                · rw [if_neg hoffset, if_neg hoffset]
                  cases readEntry c row.2 with
                  | error e => rfl
                  | ok builder => cases Muid.fromBytes row.2 <;> rfl
      · have hfalse : q.container.toBytes.isPrefixOf row.1 = false := Bool.eq_false_of_not_eq_true hpre
        simp only [hfalse, Bool.not_false, if_true]
        rw [h.ended fun htrue => absurd htrue hpre]
        rfl

end

/-! ## §3. The rows of a scan. -/

section
variable {c : Contents} {container : Muid} {asOf clearanceTime after : Int}

/-- An upward scan. -/
theorem scanned_up (hrows : ∀ row ∈ c.placements.rows,
      container.toBytes.isPrefixOf row.1 = true → InPlace container row.1)
    (hafter : Seekable after) :
    ∃ rows, orderedRows c container false after = .ok rows ∧
      Scanned ⟨container, asOf, false, after, clearanceTime⟩ rows ∧
      rows.filter (fun r => inScan ⟨container, asOf, false, after, clearanceTime⟩ r.1)
        = c.placements.rows.filter
            fun r => inScan ⟨container, asOf, false, after, clearanceTime⟩ r.1 := by
  refine ⟨c.placements.rows.filter fun r =>
    decide (container.toBytes ++ Bytes.beEncode 8 after.toNat ≤ r.1), ?_, ?_, ?_⟩
  · unfold orderedRows
    rw [hafter.packed]
    rfl
  · have hsorted := c.placements.sorted.filter fun r =>
      decide (container.toBytes ++ Bytes.beEncode 8 after.toNat ≤ r.1)
    refine ⟨hsorted, ?_, ?_, ?_⟩
    · refine hsorted.imp_of_mem ?_
      intro a b ha _ hlt hpre
      have hlower := of_decide_eq_true (List.mem_filter.mp ha).2
      exact List.isPrefixOf_iff_prefix.mpr (Bytes.prefix_of_le_of_le
        (List.prefix_refl container.toBytes) (List.isPrefixOf_iff_prefix.mp hpre)
        ((Bytes.le_append _ _).trans hlower) hlt.le)
    · exact fun row hrow => hrows row (List.mem_filter.mp hrow).1
    · intro _ row hrow hpre
      obtain ⟨hmem, hlower⟩ := List.mem_filter.mp hrow
      have hle := ((hrows row hmem hpre).lies.from_le_iff hafter.fits.2).mp (of_decide_eq_true hlower)
      show after ≤ positionOf row.1
      omega
  · rw [List.filter_filter]
    refine List.filter_congr fun row hrow => ?_
    cases hin : inScan ⟨container, asOf, false, after, clearanceTime⟩ row.1 with
    | false => rfl
    | true =>
        have hparts := hin
        unfold inScan at hparts
        simp only [Bool.and_eq_true, decide_eq_true_eq] at hparts
        obtain ⟨hpre, hle, -⟩ := hparts
        have hlower := ((hrows row hrow hpre).lies.from_le_iff hafter.fits.2).mpr (by omega)
        rw [decide_eq_true hlower]
        rfl

/-- A downward scan. -/
theorem scanned_down (hrows : ∀ row ∈ c.placements.rows,
      container.toBytes.isPrefixOf row.1 = true → InPlace container row.1) :
    ∃ rows, orderedRows c container true after = .ok rows ∧
      Scanned ⟨container, asOf, true, after, clearanceTime⟩ rows ∧
      rows.filter (fun r => inScan ⟨container, asOf, true, after, clearanceTime⟩ r.1)
        = (c.placements.rows.filter
            fun r => inScan ⟨container, asOf, true, after, clearanceTime⟩ r.1).reverse := by
  have hshort : ∀ r ∈ c.placements.rows, ∀ x, r.1 = container.toBytes ++ x →
      x < List.replicate 40 255 := by
    intro r hr x hx
    obtain ⟨middle, rest, hlen, hrest, hkey⟩ := (hrows r hr (by
      rw [hx]
      exact List.isPrefixOf_iff_prefix.mpr (List.prefix_append _ _))).lies
    rw [hx] at hkey
    rw [List.append_cancel_left hkey]
    exact Bytes.lt_replicate_of_length_lt (by rw [List.length_append, hlen, hrest]; norm_num)
  unfold orderedRows
  simp only [if_true]
  rw [toLast_eq_lastWhere _ _ hshort]
  cases hlast : c.placements.lastWhere (fun k => container.toBytes.isPrefixOf k) with
  | none =>
      refine ⟨[], rfl, ⟨List.Pairwise.nil, List.Pairwise.nil, ?_, ?_⟩, ?_⟩
      · exact fun row hrow => absurd hrow List.not_mem_nil
      · exact fun _ row hrow => absurd hrow List.not_mem_nil
      · have hnone := Table.lastWhere_eq_none_iff.mp hlast
        have hempty : c.placements.rows.filter
            (fun r => inScan ⟨container, asOf, true, after, clearanceTime⟩ r.1) = [] := by
          rw [List.filter_eq_nil_iff]
          intro row hrow hin
          unfold inScan at hin
          rw [hnone row hrow] at hin
          cases hin
        rw [hempty]
        rfl
  | some last =>
      obtain ⟨-, hpre, hmax⟩ := Table.lastWhere_eq_some_iff.mp hlast
      have hsorted := c.placements.sorted.filter fun r => decide (r.1 ≤ last.1)
      refine ⟨_, rfl, ⟨?_, ?_, ?_, ?_⟩, ?_⟩
      · exact List.pairwise_reverse.mpr hsorted
      · refine List.pairwise_reverse.mpr (hsorted.imp_of_mem ?_)
        intro a b _ hb hlt ha
        have hle := of_decide_eq_true (List.mem_filter.mp hb).2
        exact List.isPrefixOf_iff_prefix.mpr (Bytes.prefix_of_le_of_le
          (List.isPrefixOf_iff_prefix.mp ha) (List.isPrefixOf_iff_prefix.mp hpre) hlt.le hle)
      · intro row hrow
        exact hrows row (List.mem_filter.mp (List.mem_reverse.mp hrow)).1
      · exact fun hfalse => absurd hfalse Bool.noConfusion
      · rw [List.filter_reverse, List.filter_filter]
        refine congrArg List.reverse (List.filter_congr fun row hrow => ?_)
        cases hin : inScan ⟨container, asOf, true, after, clearanceTime⟩ row.1 with
        | false => rfl
        | true =>
            have hparts := hin
            unfold inScan at hparts
            rw [Bool.and_eq_true] at hparts
            rw [decide_eq_true (hmax row hrow hparts.1)]
            rfl

/-- The rows asked for from a position on are some of those asked for. -/
theorem inScan_after (desc : Bool) (key : Bytes) :
    inScan ⟨container, asOf, desc, after, clearanceTime⟩ key
      = (decide (after ≤ positionOf key) &&
          inScan ⟨container, asOf, false, 0, clearanceTime⟩ key) := by
  unfold inScan
  have hzero : decide ((0 : Int) ≤ positionOf key) = true := decide_eq_true (by omega)
  simp only [hzero, Bool.true_and]
  cases container.toBytes.isPrefixOf key <;> cases decide (after ≤ (positionOf key : Int)) <;> rfl

/-- **`get_ordered_entries` reads slices** when no row of the container sorts behind. -/
theorem getOrderedEntries_slices {l : List PositionedEntry}
    (hrows : ∀ row ∈ c.placements.rows, container.toBytes.isPrefixOf row.1 = true →
      InPlace container row.1)
    (h : getOrderedEntries c container asOf = .ok l) :
    Slices (@getOrderedEntries c container asOf) l := by
  unfold getOrderedEntries at h
  obtain ⟨clearanceTime, hclear, h⟩ := bind_eq_ok.mp h
  obtain ⟨rows, hscan, h⟩ := bind_eq_ok.mp h
  -- what the loop shows depends neither on the direction nor on where it begins
  let q : OrderedScan := ⟨container, asOf, false, 0, clearanceTime⟩
  have hall : Paged.read (orderedShows c q) (orderedFetch c)
      (c.placements.rows.filter fun r => inScan q r.1) none 0 = .ok l := by
    obtain ⟨rows', hscan', hscanned, hfilter⟩ :=
      @scanned_up c container asOf clearanceTime 0 hrows (Or.inl (by norm_num))
    rw [hscan] at hscan'
    obtain rfl := Except.ok.inj hscan'
    rw [orderedLoop_eq hscanned, hfilter] at h
    exact h
  have hposition : ∀ row ∈ c.placements.rows.filter (fun r => inScan q r.1), ∀ entry,
      Paged.shown (orderedShows c q) (orderedFetch c) row = some entry →
      entry.position = positionOf row.1 := by
    intro row hrow entry hshown
    obtain ⟨hmem, hin⟩ := List.mem_filter.mp hrow
    unfold inScan at hin
    rw [Bool.and_eq_true] at hin
    obtain ⟨placer, expiry, hreads⟩ := (hrows row hmem hin.1).reads
    have hfetch := (Paged.gives_of_shown hshown).2
    unfold orderedFetch at hfetch
    rw [hreads] at hfetch
    obtain ⟨placement, hplacement, hfetch⟩ := bind_eq_ok.mp hfetch
    obtain ⟨position, hp, hfetch⟩ := bind_eq_ok.mp hfetch
    obtain ⟨builder, -, hfetch⟩ := bind_eq_ok.mp hfetch
    rw [← Except.ok.inj hplacement] at hp
    obtain ⟨entryMuid, -, hfetch⟩ := map_eq_ok.mp hfetch
    rw [← hfetch]
    exact (Except.ok.inj hp).symm
  refine Slices.of_both ?_ ?_
  · intro entry hentry
    rw [Paged.read_eq (Paged.read_all hall)] at hall
    rw [← Except.ok.inj hall] at hentry
    obtain ⟨row, hmem, hshown⟩ := List.mem_filterMap.mp hentry
    rw [hposition row hmem entry hshown]
    omega
  · intro after hafter desc limit offset
    have hslice := Paged.read_slice (p := fun r => decide (after ≤ (positionOf r.1 : Int)))
      (q := fun e : PositionedEntry => decide (after ≤ e.position)) hall
      (fun row hrow entry hshown => by rw [hposition row hrow entry hshown]) desc limit offset
    rw [List.filter_filter] at hslice
    simp only [q, ← inScan_after desc] at hslice
    unfold getOrderedEntries
    rw [hclear]
    simp only [bind, Except.bind]
    cases desc with
    | true =>
        obtain ⟨rows', hscan', hscanned, hfilter⟩ :=
          @scanned_down c container asOf clearanceTime after hrows
        rw [hscan']
        simp only
        rw [orderedLoop_eq hscanned, hfilter]
        exact hslice
    | false =>
        obtain ⟨rows', hscan', hscanned, hfilter⟩ :=
          @scanned_up c container asOf clearanceTime after hrows hafter
        rw [hscan']
        simp only
        rw [orderedLoop_eq hscanned, hfilter]
        exact hslice

end

end Lmdb

end Gink
