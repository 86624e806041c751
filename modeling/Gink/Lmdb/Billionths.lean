/-
  Gink.Lmdb.Billionths — what `get_billionths` of `LmdbStore` reads.

  The total is written by `_add_entry` alone, before anything else of the entry and with the
  flag on or off, and nothing takes anything off it.  A read as of a time walks the placements
  of the accumulator in the order of their placers and stops at the first later one.
-/
import Gink.Lmdb.Reset
import Gink.Lmdb.Retention
import Gink.Stores.Increments

namespace Gink

namespace Lmdb

variable {lib : Externals} {acc : Muid}

/-! ## §1. The running total. -/

/-- What `_add_entry` makes of the total. -/
theorem addToTotal_get {container : Muid} {builder : EntryBuilder} {c c' : Contents}
    (h : addToTotal container builder c = .ok c') :
    (builder.behavior = .accumulator → ∃ amount, integerOf builder = .ok amount) ∧
      (c'.totals.get? acc.toBytes).getD 0 = (c.totals.get? acc.toBytes).getD 0 +
        if builder.behavior = .accumulator ∧ container = acc
        then (integerOf builder).toOption.getD 0 else 0 := by
  unfold addToTotal at h
  by_cases hb : builder.behavior = .accumulator
  · rw [if_pos hb] at h
    obtain ⟨amount, hamount, h⟩ := bind_eq_ok.mp h
    rw [← pure_eq_ok.mp h]
    refine ⟨fun _ => ⟨amount, hamount⟩, ?_⟩
    simp only [hb, true_and, hamount]
    exact get?_put_total acc container c.totals amount
  · rw [if_neg hb] at h
    injection h with h
    refine ⟨fun hb' => absurd hb' hb, ?_⟩
    rw [h, if_neg (fun hand => hb hand.1), add_zero]

/-- **One change** keeps the total in step, with history or without. -/
theorem totals_step {committed c c' : Contents} {retaining : Bool} {info : BundleInfo}
    {offset : Nat} {change : ChangeBuilder} {seen seen' : List Muid} {ops : List Op}
    (h : Totals acc ops c.totals)
    (happlied : applyChange lib committed retaining info offset seen c change = (seen', .ok c')) :
    Totals acc (ops ++ [⟨info, offset, change⟩]) c'.totals := by
  have h2 := congrArg Prod.snd happlied
  cases change with
  | unset => simp [applyChange] at h2
  | container builder =>
      obtain ⟨muid, -, rfl⟩ := map_eq_ok.mp h2
      exact h.other rfl
  | entry builder =>
      cases hm : builder.containerField.literal with
      | error e => simp [applyChange, hm] at h2
      | ok muid =>
          obtain ⟨containers, hnote⟩ := noteContainer_eq committed builder muid seen c
          simp only [applyChange, hm, hnote] at h2
          obtain ⟨placement, c₁, hp, ht, hrest⟩ := addEntry_stages h2
          -- what follows the total leaves it alone
          have hafter : c'.totals = c₁.totals := by
            rcases hrest with ⟨-, -, rfl⟩ | ⟨bytes, c₂, indexes, -, hshrunk, rfl⟩
            · rfl
            · exact hshrunk.totals
          rw [hafter]
          exact h.entry hp (addToTotal_get ht).2
  | movement builder =>
      rw [(applyMovement_shrunk h2).totals]
      exact h.other rfl
  | clearance builder =>
      obtain ⟨container, clearance, -, -, hshrunk⟩ := applyClearance_rows h2
      rw [hshrunk.totals]
      exact h.other rfl

/-- **The total is the sum of the entries**, in every state of every run. -/
theorem runTurns_totals {s : Store} (turns : List Turn) (happly : s.applyChanges = true)
    (h : Totals acc [] s.db.contents.totals) :
    Totals acc (opsTaken lib s turns) (runTurns lib s turns).db.contents.totals := by
  have hdrop : ∀ (ops : List Op) asOf rows (c c' : Contents), Totals acc ops c.totals →
      dropRemovals asOf rows c = .ok c' → Totals acc ops c'.totals := by
    intro ops asOf rows c c' hc hloop
    rw [(dropRemovals_shrunk asOf rows c c' hloop).totals]
    exact hc
  exact runTurns_along (P := fun ops c => Totals acc ops c.totals) (R := fun _ => True)
    (fun _ _ _ _ _ _ _ _ _ _ _ hc hone => totals_step hc hone) trivial (fun _ => hdrop)
    (fun _ _ => Or.inr trivial) happly trivial h

/-! ## §2. The rows of an accumulator. -/

/-- **One change** keeps the rows of the accumulator its entries, while history is retained. -/
theorem holds_step {committed c c' : Contents} {info : BundleInfo} {offset : Nat}
    {change : ChangeBuilder} {seen seen' : List Muid} {ops : List Op}
    (h : Holds Muid.toBytes acc ops c.entries c.placements)
    (hdistinct : DistinctEntries (ops ++ [⟨info, offset, change⟩]))
    (honly : Op.OnlyAdds acc ⟨info, offset, change⟩)
    (happlied : applyChange lib committed true info offset seen c change = (seen', .ok c')) :
    Holds Muid.toBytes acc (ops ++ [⟨info, offset, change⟩]) c'.entries c'.placements := by
  cases applyChange_effect happlied with
  | container builder c containers => exact h.other fun _ => by simp
  | entry builder c c' containers hadded =>
      obtain ⟨placement, c₁, hp, htotal, -⟩ := addEntry_stages hadded
      obtain ⟨placement', bytes, removals, byTime, totals, indexes, -, hp', hb, -, -, -, rfl⟩ :=
        addEntry_ok hadded
      rw [hp] at hp'
      obtain rfl : placement = placement' := Except.ok.inj hp'
      refine h.entry Muid.toBytes_injective hdistinct (placed_eq_some.mpr ⟨rfl, hp, hb⟩) ?_
      intro hcontainer
      have hbehavior : builder.behavior = .accumulator := honly placement hp hcontainer
      exact ⟨hbehavior, (@addToTotal_get acc _ _ _ _ htotal).1 hbehavior⟩
  | movement builder c c' hmoved =>
      have hsame := @Holds.other _ _ _ _ _ _ _ ⟨info, offset, .movement builder⟩ h
        fun _ => by simp
      rcases applyMovement_ok hmoved with rfl | ⟨container, entryMuid, movementMuid, entry, row,
        placer, placed, hmovable, byTime, ⟨-, rfl⟩ | ⟨-, bytes, hb, rfl⟩⟩
      · exact hsame
      · exact hsame
      · refine hsame.elsewhere fun hpre => honly ?_
        have hcontainer : container = acc := (isPrefixOf_toBytes hb acc).mp hpre
        rw [hmovable.container_eq, hcontainer]
  | clearance builder c c' hcleared =>
      obtain ⟨container, clearance, -, -, rfl⟩ := applyClearance_ok hcleared
      exact h.other fun _ => by simp

/-- What a row of the accumulator looks like to `get_billionths`. -/
structure AccumulatorRow (c : Contents) (acc : Muid) (row : Bytes × Bytes) : Prop where
  key : ∃ (placer : Muid) (expiry : Bytes), row.1 = acc.toBytes ++ (placer.toBytes ++ expiry) ∧
    expiry.length = 8 ∧ placer.timeField.val ≠ 2 ^ 52 - 1
  entry : ∃ builder amount, c.entries.get? row.2 = some builder ∧
    builder.behavior = .accumulator ∧ integerOf builder = .ok amount

theorem decodeMuts_total {data : Bytes} (h : data.length = 8) :
    ∃ time, decodeMuts data = .ok time := by
  unfold decodeMuts
  rw [if_pos h]
  simp only
  split_ifs
  · exact ⟨_, rfl⟩
  · exact ⟨_, rfl⟩
  · exact ⟨_, rfl⟩
  · exact ⟨_, rfl⟩

/-- Its key is read back, and says when the entry was placed. -/
theorem AccumulatorRow.read {c : Contents} {row : Bytes × Bytes} (h : AccumulatorRow c acc row) :
    ∃ placement, Placement.fromBytes row.1 .accumulator = .ok placement ∧
      placement.placer.timestamp = placedAt row.1 := by
  obtain ⟨placer, expiry, hkey, hlen, htime⟩ := h.key
  obtain ⟨time, hexpiry⟩ := decodeMuts_total hlen
  have hplacedAt := placedAt_accumulator acc placer hlen
  obtain ⟨hcontainer, hmiddle, hplacer, hexpirySlice⟩ := accumulator_slices acc placer hlen
  rw [← hkey] at hplacedAt hcontainer hmiddle hplacer hexpirySlice
  refine ⟨⟨acc, .none, placer, time⟩, ?_, ?_⟩
  · unfold Placement.fromBytes
    rw [hplacer, hmiddle, hcontainer, hexpirySlice, hexpiry, Muid.fromBytes_toBytes,
      Muid.fromBytes_toBytes]
    rfl
  · rw [hplacedAt]
    exact Muid.timestamp_of_ne htime

/-- The rows are in the order of the times at which they were placed. -/
theorem AccumulatorRow.placedAt_le {c : Contents} {row row' : Bytes × Bytes}
    (h : AccumulatorRow c acc row) (h' : AccumulatorRow c acc row') (hlt : row.1 < row'.1) :
    placedAt row.1 ≤ placedAt row'.1 := by
  obtain ⟨placer, expiry, hkey, hlen, -⟩ := h.key
  obtain ⟨placer', expiry', hkey', hlen', -⟩ := h'.key
  rw [hkey, hkey', placedAt_accumulator acc placer hlen, placedAt_accumulator acc placer' hlen']
  rw [hkey, hkey', Bytes.append_lt_append_left_iff, Bytes.append_lt_append_iff (by simp)] at hlt
  have hle : placer ≤ placer' := by
    rcases hlt with hlt | ⟨heq, -⟩
    · exact (Muid.toBytes_lt_iff.mp hlt).le
    · exact (Muid.toBytes_injective heq).le
  exact_mod_cast Muid.timeField_le_of_le hle

/-! ## §3. The read as of a time. -/

/-- **The loop** adds up the rows of the accumulator that were placed by the time. -/
theorem billionthsLoop_eq {c : Contents} {t : Int} (ht : 0 < t) {rows : List (Bytes × Bytes)} :
    ∀ {sum : Int}, rows.Pairwise (fun a b => a.1 < b.1) →
      (∀ row ∈ rows, acc.toBytes ≤ row.1) →
      (∀ row ∈ rows, acc.toBytes.isPrefixOf row.1 = true → AccumulatorRow c acc row) →
      billionthsLoop c acc.toBytes t rows sum = .ok (sum +
        ((rows.filter fun row => acc.toBytes.isPrefixOf row.1 && decide (placedAt row.1 ≤ t)).map
          (amountAt c.entries)).sum) := by
  induction rows with
  | nil =>
      intro sum _ _ _
      show Except.ok sum = .ok (sum + 0)
      rw [add_zero]
  | cons row rest ih =>
      intro sum hsorted hge hrows
      obtain ⟨hfirst, hsorted⟩ := List.pairwise_cons.mp hsorted
      have hge' : ∀ row ∈ rest, acc.toBytes ≤ row.1 :=
        fun r hr => hge r (List.mem_cons_of_mem _ hr)
      have hrows' : ∀ row ∈ rest, acc.toBytes.isPrefixOf row.1 = true → AccumulatorRow c acc row :=
        fun r hr => hrows r (List.mem_cons_of_mem _ hr)
      -- where the loop stops, no later row counts
      have hstop : (∀ r ∈ row :: rest, acc.toBytes.isPrefixOf r.1 = true → t < placedAt r.1) →
          (.ok sum : Except Error Int) = .ok (sum + (((row :: rest).filter fun row =>
            acc.toBytes.isPrefixOf row.1 && decide (placedAt row.1 ≤ t)).map
              (amountAt c.entries)).sum) := by
        intro hnone
        rw [List.filter_eq_nil_iff.mpr]
        · show Except.ok sum = .ok (sum + 0)
          rw [add_zero]
        · intro r hr hin
          rw [Bool.and_eq_true, decide_eq_true_eq] at hin
          exact absurd hin.2 (not_le.mpr (hnone r hr hin.1))
      unfold billionthsLoop
      cases hpre : acc.toBytes.isPrefixOf row.1 with
      | false =>
          simp only [Bool.not_false, if_true]
          refine hstop fun r hr hin => ?_
          rcases List.mem_cons.mp hr with rfl | hr
          · rw [hpre] at hin
            cases hin
          · have hbetween := Bytes.prefix_of_le_of_le (List.prefix_refl acc.toBytes)
              (List.isPrefixOf_iff_prefix.mp hin) (hge row List.mem_cons_self) (hfirst r hr).le
            rw [List.isPrefixOf_iff_prefix.mpr hbetween] at hpre
            cases hpre
      | true =>
          have hrow := hrows row List.mem_cons_self hpre
          obtain ⟨placement, hread, htime⟩ := hrow.read
          obtain ⟨builder, amount, hentry, hbehavior, hamount⟩ := hrow.entry
          simp only [Bool.not_true, Bool.false_eq_true, if_false, hread, htime, ht, true_and,
            bind, Except.bind]
          by_cases hlater : placedAt row.1 > t
          · rw [if_pos hlater]
            refine hstop fun r hr hin => ?_
            rcases List.mem_cons.mp hr with rfl | hr
            · exact hlater
            · exact lt_of_lt_of_le hlater (hrow.placedAt_le (hrows' r hr hin) (hfirst r hr))
          · rw [if_neg hlater, hentry]
            simp only [orRaise, ensure, hbehavior, decide_true, if_true, hamount]
            rw [ih hsorted hge' hrows', List.filter_cons, hpre, Bool.true_and,
              if_pos (by simpa using hlater), List.map_cons, List.sum_cons]
            have hsame : amountAt c.entries row = amount := by
              unfold amountAt
              rw [hentry, Option.bind_some, hamount]
              rfl
            rw [hsame, add_assoc]

/-- No entry of the accumulator has the timestamp that a muid reads as -1. -/
def Op.Dated (acc : Muid) (op : Op) : Prop :=
  match op.change with
  | .entry builder => ∀ placement, Placement.fromBuilder builder op.info op.offset = .ok placement →
      placement.container = acc → op.info.timestamp.val ≠ 2 ^ 52 - 1
  | _ => True

/-- **`get_billionths`** as of a time. -/
theorem getBillionths_eq {c : Contents} {ops : List Op} {t : Int} (ht : 0 < t)
    (h : Holds Muid.toBytes acc ops c.entries c.placements) (hdistinct : DistinctEntries ops)
    (hdated : ∀ op ∈ ops, Op.Dated acc op) :
    getBillionths c acc t = .ok (billionthsOf acc (upTo t ops)) := by
  have hrows : ∀ row ∈ c.placements.rows, acc.toBytes.isPrefixOf row.1 = true →
      AccumulatorRow c acc row := by
    intro row hrow hpre
    obtain ⟨op, hop, builder, placement, expiry, amount, hchange, hp, hcontainer, hexpiry, hkey,
      hentry, hbehavior, hamount⟩ := h.row hrow hpre
    refine ⟨⟨placement.placer, expiry, hkey, length_of_encodeMuts hexpiry, ?_⟩, builder, amount,
      hentry, hbehavior, hamount⟩
    have hop' := hdated op hop
    unfold Op.Dated at hop'
    rw [hchange] at hop'
    rw [(changeMuid_eq_ok (Placement.fromBuilder_eq_ok hp).1).1]
    exact hop' placement hp hcontainer
  unfold getBillionths
  rw [if_neg (by omega)]
  rw [billionthsLoop_eq ht (c.placements.sorted.filter _)
    (fun row hrow => by simpa using (List.mem_filter.mp hrow).2)
    (fun row hrow => hrows row (List.mem_filter.mp hrow).1), zero_add, ← h.sum hdistinct t]
  unfold Table.rowsWhere
  rw [List.filter_filter, List.filter_filter]
  congr 3
  refine List.filter_congr fun row _ => ?_
  -- a key that starts with the address is not before it
  cases hpre : acc.toBytes.isPrefixOf row.1 with
  | false => simp only [hpre, Bool.false_and, Bool.and_false]
  | true =>
      have hle := Bytes.le_of_isPrefix (List.isPrefixOf_iff_prefix.mp hpre)
      simp only [hpre, decide_eq_true hle, Bool.true_and, Bool.and_true]

/-- **The rows are the entries**, in every state of a run that retains history. -/
theorem runTurns_holds {s : Store} {turns : List Turn} (hturns : ∀ turn ∈ turns, turn.Retains)
    (happly : s.applyChanges = true) (hretain : s.db.retainEntries = true)
    (hdistinct : DistinctEntries (opsTaken lib s turns))
    (honly : ∀ op ∈ opsTaken lib s turns, Op.OnlyAdds acc op)
    (h : Holds Muid.toBytes acc [] s.db.contents.entries s.db.contents.placements) :
    Holds Muid.toBytes acc (opsTaken lib s turns) (runTurns lib s turns).db.contents.entries
      (runTurns lib s turns).db.contents.placements := by
  have hstep : ∀ committed retaining info ops offset change seen seen' c c', retaining = true →
      (DistinctEntries ops → (∀ op ∈ ops, Op.OnlyAdds acc op) →
        Holds Muid.toBytes acc ops c.entries c.placements) →
      applyChange lib committed retaining info offset seen c change = (seen', .ok c') →
      DistinctEntries (ops ++ [⟨info, offset, change⟩]) →
      (∀ op ∈ ops ++ [⟨info, offset, change⟩], Op.OnlyAdds acc op) →
      Holds Muid.toBytes acc (ops ++ [⟨info, offset, change⟩]) c'.entries c'.placements := by
    rintro committed retaining info ops offset change seen seen' c c' rfl hc hone hd ho
    exact holds_step (hc hd.left fun op hop => ho op (List.mem_append_left _ hop)) hd
      (ho _ (List.mem_append_right _ (List.mem_singleton_self _))) hone
  have halong := runTurns_along (R := (· = true)) (P := fun ops c =>
    DistinctEntries ops → (∀ op ∈ ops, Op.OnlyAdds acc op) →
      Holds Muid.toBytes acc ops c.entries c.placements) hstep rfl
    (fun hfalse => absurd hfalse (by simp)) (fun turn hturn => Or.inl (hturns turn hturn))
    happly hretain fun _ _ => h
  exact halong hdistinct honly

end Lmdb

end Gink
