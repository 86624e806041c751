/-
  Gink.Memory.Billionths — what `get_billionths` of `MemoryStore` reads.

  As in the other store the total is written by `_add_entry` alone.  A read as of a time takes a
  range of placement keys, from no address to the last one of that time.
-/
import Gink.Memory.Keyed
import Gink.Memory.Reset
import Gink.Memory.Retention
import Gink.Stores.Increments

namespace Gink

namespace Memory

open Gink.Action

variable {lib : Externals} {acc : Muid}

/-! ## §1. The running total. -/

/-- What `_add_entry` makes of the total. -/
theorem addToTotal_ok {container : Muid} {builder : EntryBuilder} {c c' : Contents} {u : Unit}
    (h : addToTotal container builder c = .ok u c') :
    (∃ totals, c' = { c with totals }) ∧
      (builder.behavior = .accumulator → ∃ amount, integerOf builder = .ok amount) ∧
      (c'.totals.get? acc.toBytes).getD 0 = (c.totals.get? acc.toBytes).getD 0 +
        if builder.behavior = .accumulator ∧ container = acc
        then (integerOf builder).toOption.getD 0 else 0 := by
  unfold addToTotal at h
  by_cases hb : builder.behavior = .accumulator
  · rw [if_pos hb, get_bind] at h
    cases hamount : integerOf builder with
    | error e =>
        rw [hamount, of_error_bind] at h
        cases h
    | ok amount =>
        rw [hamount, of_ok_bind] at h
        rw [← (EStateM.Result.ok.inj h).2]
        refine ⟨⟨_, rfl⟩, fun _ => ⟨amount, rfl⟩, ?_⟩
        simp only [hb, true_and]
        exact get?_put_total acc container c.totals amount
  · rw [if_neg hb, pure_apply, EStateM.Result.ok.injEq] at h
    obtain ⟨-, rfl⟩ := h
    refine ⟨⟨c.totals, rfl⟩, fun hb' => absurd hb' hb, ?_⟩
    rw [if_neg (fun hand => hb hand.1), add_zero]

/-- A container that is noted is the one thing that changes. -/
theorem noteContainer_ok {muid : Muid} {entry : EntryBuilder} {c c' : Contents} {u : Unit}
    (h : noteContainer muid entry c = .ok u c') : ∃ containers, c' = { c with containers } := by
  unfold noteContainer at h
  rw [get_bind] at h
  split_ifs at h
  · exact ⟨_, ((EStateM.Result.ok.inj h).2).symm⟩
  · exact ⟨c.containers, ((EStateM.Result.ok.inj h).2).symm⟩

/-- An entry that is applied: its container is noted, and it is added. -/
theorem applyEntry_ok {retaining : Bool} {now : Int} {info : BundleInfo} {offset : Nat}
    {builder : EntryBuilder} {c c' : Contents}
    (h : applyChange retaining now info offset (.entry builder) c = .ok () c') :
    ∃ containers, addEntry retaining now info offset builder { c with containers } = .ok () c' := by
  obtain ⟨muid, c₀, hmuid, h1⟩ := Action.bind_eq_ok.mp h
  obtain ⟨-, hc₀⟩ := of_eq_ok.mp hmuid
  obtain ⟨u, c₁, hnote, hadd⟩ := Action.bind_eq_ok.mp h1
  obtain ⟨containers, hc₁⟩ := noteContainer_ok hnote
  rw [hc₁, hc₀] at hadd
  exact ⟨containers, hadd⟩

/-- **One change** keeps the total in step, with history or without. -/
theorem totals_step {c c' : Contents} {retaining : Bool} {now : Int} {info : BundleInfo}
    {offset : Nat} {change : ChangeBuilder} {ops : List Op} (h : Totals acc ops c.totals)
    (happlied : applyChange retaining now info offset change c = .ok () c') :
    Totals acc (ops ++ [⟨info, offset, change⟩]) c'.totals := by
  -- for the changes that are no entries
  have hother : ∀ {op : Op} {x : Action Contents Unit}, Op.addsTo acc op = 0 →
      Keeps (fun c => Totals acc (ops ++ [op]) c.totals) x → x c = .ok () c' →
      Totals acc (ops ++ [op]) c'.totals := fun hop hkeeps hrun => hkeeps.ok hrun (h.other hop)
  cases change with
  | unset => cases happlied
  | container builder =>
      refine hother rfl ?_ happlied
      exact Keeps.of_bind fun muid _ => Keeps.modify fun c hc => hc
  | entry builder =>
      obtain ⟨containers, hadd⟩ := applyEntry_ok happlied
      obtain ⟨placement, c₁, hp, htotal, hrest⟩ := addEntry_stages hadd
      -- what follows the total leaves it alone
      have hafter : c'.totals = c₁.totals := by
        rcases hrest with ⟨-, -, rfl⟩ | ⟨bytes, c₂, -, hshrunk, -, hsame⟩
        · rfl
        · exact hsame.totals.trans hshrunk.totals
      rw [hafter]
      exact h.entry hp (addToTotal_ok htotal).2.2
  | movement builder =>
      refine hother rfl ?_ happlied
      refine addMovement_keeps ?_ fun container entryMuid movementMuid expiry old _ _ => ?_
      · intro c c' hc hsame
        rw [hsame.totals]
        exact hc
      · unfold placeMoved
        split_ifs
        · refine Keeps.of_bind fun bytes _ => Keeps.get_bind fun c hc => ?_
          cases c.placements.get? old with
          | none => exact hc
          | some moved => exact hc
        · exact Keeps.modify fun c hc => hc
  | clearance builder =>
      refine hother rfl ?_ happlied
      exact Keeps.of_bind fun _ _ => Keeps.of_bind fun _ _ => Keeps.modify fun c hc => hc

/-- **The total is the sum of the entries**, in every state of every run whose bundles are applied
to the last. -/
theorem runTurns_totals {s : Store} {turns : List Turn} (hwhole : Whole lib s turns)
    (h : Totals acc [] s.contents.totals) :
    Totals acc (opsTaken lib s turns) (runTurns lib s turns).contents.totals := by
  have hshrunk : ∀ (ops : List Op) (c c' : Contents), Totals acc ops c.totals → Shrunk c c' →
      Totals acc ops c'.totals := by
    intro ops c c' hc hless
    rw [hless.totals]
    exact hc
  exact runTurns_along (P := fun ops c => Totals acc ops c.totals) (R := fun _ => True)
    (fun _ _ _ _ _ _ _ _ _ hc hone => totals_step hc hone) trivial (fun _ => hshrunk)
    (fun _ _ => Or.inr trivial) hwhole trivial h

/-! ## §2. The rows of an accumulator. -/

/-- **One change** keeps the rows of the accumulator its entries, while history is retained. -/
theorem holds_step {c c' : Contents} {now : Int} {info : BundleInfo} {offset : Nat}
    {change : ChangeBuilder} {ops : List Op} (h : Holds id acc ops c.entries c.placements)
    (hdistinct : DistinctEntries (ops ++ [⟨info, offset, change⟩]))
    (honly : Op.OnlyAdds acc ⟨info, offset, change⟩)
    (happlied : applyChange true now info offset change c = .ok () c') :
    Holds id acc (ops ++ [⟨info, offset, change⟩]) c'.entries c'.placements := by
  -- for the changes that are no entries
  have hother : ∀ {op : Op} {x : Action Contents Unit}, (∀ builder, op.change ≠ .entry builder) →
      Keeps (fun c => Holds id acc (ops ++ [op]) c.entries c.placements) x → x c = .ok () c' →
      Holds id acc (ops ++ [op]) c'.entries c'.placements := fun hop hkeeps hrun =>
    hkeeps.ok hrun (h.other hop)
  cases change with
  | unset => cases happlied
  | container builder =>
      refine hother (by simp) ?_ happlied
      exact Keeps.of_bind fun muid _ => Keeps.modify fun c hc => hc
  | entry builder =>
      obtain ⟨containers, hadd⟩ := applyEntry_ok happlied
      obtain ⟨placement, c₁, hp, htotal, hrest⟩ := addEntry_stages hadd
      obtain ⟨⟨totals, rfl⟩, hinteger, -⟩ := @addToTotal_ok acc _ _ _ _ _ htotal
      rcases hrest with ⟨-, hfalse, -⟩ | ⟨bytes, c₂, hb, -, hsame, hstored⟩
      · cases hfalse
      · have hbefore := hsame rfl
        rw [hstored.entries, hstored.placements, hbefore.entries, hbefore.placements]
        refine h.entry Function.injective_id hdistinct (Lmdb.placed_eq_some.mpr ⟨rfl, hp, hb⟩) ?_
        intro hcontainer
        have hbehavior : builder.behavior = .accumulator := honly placement hp hcontainer
        exact ⟨hbehavior, hinteger hbehavior⟩
  | movement builder =>
      refine hother (by simp) ?_ happlied
      refine addMovement_keeps ?_ ?_
      · intro c c' hc hsame
        rw [hsame.entries, hsame.placements]
        exact hc
      · intro container entryMuid movementMuid expiry old hcontainer _
        unfold placeMoved
        split_ifs
        · refine Keeps.of_bind fun bytes hb => Keeps.get_bind fun c hc => ?_
          cases c.placements.get? old with
          | none => exact hc
          | some moved =>
              refine hc.elsewhere fun hpre => honly ?_
              have hsame : container = acc := (isPrefixOf_toBytes hb acc).mp hpre
              rw [hcontainer, hsame]
        · exact Keeps.modify fun c hc => hc
  | clearance builder =>
      refine hother (by simp) ?_ happlied
      exact Keeps.of_bind fun _ _ => Keeps.of_bind fun _ _ => Keeps.modify fun c hc => hc

/-- **The rows are the entries**, in every state of a run that retains history. -/
theorem runTurns_holds {s : Store} {turns : List Turn} (hturns : ∀ turn ∈ turns, turn.Retains)
    (hwhole : Whole lib s turns) (hretain : s.retainingEntries = true)
    (hdistinct : DistinctEntries (opsTaken lib s turns))
    (honly : ∀ op ∈ opsTaken lib s turns, Op.OnlyAdds acc op)
    (h : Holds id acc [] s.contents.entries s.contents.placements) :
    Holds id acc (opsTaken lib s turns) (runTurns lib s turns).contents.entries
      (runTurns lib s turns).contents.placements := by
  have hstep : ∀ retaining info ops now offset change c c', retaining = true →
      (DistinctEntries ops → (∀ op ∈ ops, Op.OnlyAdds acc op) →
        Holds id acc ops c.entries c.placements) →
      applyChange retaining now info offset change c = .ok () c' →
      DistinctEntries (ops ++ [⟨info, offset, change⟩]) →
      (∀ op ∈ ops ++ [⟨info, offset, change⟩], Op.OnlyAdds acc op) →
      Holds id acc (ops ++ [⟨info, offset, change⟩]) c'.entries c'.placements := by
    rintro retaining info ops now offset change c c' rfl hc hone hd ho
    exact holds_step (hc hd.left fun op hop => ho op (List.mem_append_left _ hop)) hd
      (ho _ (List.mem_append_right _ (List.mem_singleton_self _))) hone
  have halong := runTurns_along (R := (· = true)) (P := fun ops c =>
    DistinctEntries ops → (∀ op ∈ ops, Op.OnlyAdds acc op) →
      Holds id acc ops c.entries c.placements) hstep rfl
    (fun hfalse => absurd hfalse (by simp)) (fun turn hturn => Or.inl (hturns turn hturn))
    hwhole hretain fun _ _ => h
  exact halong hdistinct honly

/-! ## §3. The read as of a time. -/

/-- **The loop** adds up the rows that it is given. -/
theorem billionthsLoop_eq {c : Contents} {rows : List (Bytes × Muid)} :
    ∀ {sum : Int}, (∀ row ∈ rows, ∃ builder amount, c.entries.get? row.2 = some builder ∧
        builder.behavior = .accumulator ∧ integerOf builder = .ok amount) →
      billionthsLoop c rows sum = .ok (sum + (rows.map (amountAt c.entries)).sum) := by
  induction rows with
  | nil =>
      intro sum _
      show Except.ok sum = .ok (sum + 0)
      rw [add_zero]
  | cons row rest ih =>
      intro sum hrows
      obtain ⟨builder, amount, hentry, hbehavior, hamount⟩ := hrows row List.mem_cons_self
      have hread : readEntry c row.2 = .ok builder := by
        unfold readEntry
        rw [hentry]
        rfl
      have hsame : amountAt c.entries row = amount := by
        unfold amountAt
        rw [hentry, Option.bind_some, hamount]
        rfl
      unfold billionthsLoop
      simp only [hread, ensure, hbehavior, decide_true, if_true, hamount, bind, Except.bind]
      rw [ih fun r hr => hrows r (List.mem_cons_of_mem _ hr), List.map_cons, List.sum_cons, hsame,
        add_assoc]

/-- An entry of the accumulator that expires does not have the last address of the time. -/
def Op.NotLast (acc : Muid) (t : Int) (op : Op) : Prop :=
  match op.change with
  | .entry builder => ∀ placement, Placement.fromBuilder builder op.info op.offset = .ok placement →
      placement.container = acc → placement.expiry ≠ none →
      ¬ (op.info.timestamp.val = t ∧ op.info.medallion.val = 2 ^ 44 - 1 ∧ op.offset = 2 ^ 32 - 1)
  | _ => True

/-- The last address of a time. -/
theorem make_last {t : Int} (ht : 0 < t) (hlt : t < 2 ^ 52) :
    ∃ last, Muid.make t (-1) (-1) = .ok last ∧ (last.timeField.val : Int) = t ∧
      last.medallionField.val = 2 ^ 44 - 1 ∧ last.offsetField.val = 2 ^ 32 - 1 := by
  have hones : (Muid.field (2 ^ 44) (-1)).val = 2 ^ 44 - 1 ∧
      (Muid.field (2 ^ 32) (-1)).val = 2 ^ 32 - 1 := by decide
  refine ⟨_, Muid.make_eq_ok.mpr ⟨⟨by omega, hlt⟩, by omega, by omega, rfl⟩, ?_, hones⟩
  have hval := Muid.val_field (2 ^ 52) t
  show ((Muid.field (2 ^ 52) t).val : Int) = t
  omega

/-- **The range** takes the rows of the accumulator that were placed by the time. -/
theorem mem_range {c : Contents} {ops : List Op} {t : Int} {last : Muid}
    (h : Holds id acc ops c.entries c.placements) (hlast : ∀ op ∈ ops, Op.NotLast acc t op)
    (htime : (last.timeField.val : Int) = t) (hmedallion : last.medallionField.val = 2 ^ 44 - 1)
    (hoffset : last.offsetField.val = 2 ^ 32 - 1) {row : Bytes × Muid}
    (hrow : row ∈ c.placements.rows) :
    (acc.toBytes ++ (epoch.toBytes ++ packSigned 0) ≤ row.1 ∧
        row.1 ≤ acc.toBytes ++ (last.toBytes ++ packSigned 0)) ↔
      acc.toBytes.isPrefixOf row.1 = true ∧ placedAt row.1 ≤ t := by
  have hpre : (acc.toBytes ++ (epoch.toBytes ++ packSigned 0) ≤ row.1 ∧
      row.1 ≤ acc.toBytes ++ (last.toBytes ++ packSigned 0)) →
      acc.toBytes.isPrefixOf row.1 = true := fun hin =>
    List.isPrefixOf_iff_prefix.mpr (Bytes.prefix_of_le_of_le (List.prefix_append _ _)
      (List.prefix_append _ _) hin.1 hin.2)
  by_cases hacc : acc.toBytes.isPrefixOf row.1 = true
  · obtain ⟨op, hop, builder, placement, expiry, amount, hchange, hp, hcontainer, hexpiry, hkey, -⟩ :=
      h.row hrow hacc
    have hlen := length_of_encodeMuts hexpiry
    obtain ⟨hfield, hmed, hoff, hne⟩ := changeMuid_eq_ok (Placement.fromBuilder_eq_ok hp).1
    -- every address of the time is up to the last
    have hle : placement.placer ≤ last ↔ (placement.placer.timeField.val : Int) ≤ t := by
      constructor
      · intro hle
        have hfields := Muid.timeField_le_of_le hle
        rw [Fin.le_def] at hfields
        omega
      · intro htimes
        rw [← not_lt, Muid.lt_iff_toNat_lt, Muid.toNat_lt_iff]
        simp only [Fin.lt_def, Fin.ext_iff]
        have h1 := placement.placer.medallionField.isLt
        have h2 := placement.placer.offsetField.isLt
        omega
    have hepoch : epoch < placement.placer := by
      rw [Muid.lt_iff_toNat_lt, Muid.toNat_lt_iff]
      refine Or.inl (Fin.lt_def.mpr ?_)
      show 0 < placement.placer.timeField.val
      omega
    -- the row of the last address carries no expiry
    have hzero : placement.placer = last → expiry = packSigned 0 := by
      intro heq
      have hop' := hlast op hop
      unfold Op.NotLast at hop'
      rw [hchange] at hop'
      have hnone : placement.expiry = none := by
        by_contra hsome
        refine hop' placement hp hcontainer hsome ⟨?_, ?_, ?_⟩
        · rw [← hfield, heq]
          exact htime
        · rw [← hmed, heq]
          exact hmedallion
        · rw [← hoff, heq]
          exact hoffset
      rw [hnone] at hexpiry
      exact (Except.ok.inj hexpiry).symm
    rw [hkey, placedAt_accumulator acc _ hlen, Bytes.append_le_append_left_iff,
      Bytes.append_le_append_left_iff, ← not_lt, ← not_lt, Bytes.append_lt_append_iff (by simp),
      Bytes.append_lt_append_iff (by simp), Muid.toBytes_lt_iff, Muid.toBytes_lt_iff, ← hle,
      ← hkey, and_iff_right hacc]
    constructor
    · rintro ⟨-, hmax⟩
      exact not_lt.mp fun hlt => hmax (Or.inl hlt)
    · intro hmax
      refine ⟨?_, ?_⟩
      · rintro (hlt | ⟨heq, -⟩)
        · exact absurd hlt hepoch.not_gt
        · rw [Muid.toBytes_injective heq] at hepoch
          exact absurd hepoch (lt_irrefl _)
      · rintro (hlt | ⟨heq, hlt⟩)
        · exact absurd hlt (not_lt.mpr hmax)
        · rw [hzero (Muid.toBytes_injective heq).symm] at hlt
          exact absurd hlt (lt_irrefl _)
  · exact ⟨fun hin => absurd (hpre hin) hacc, fun hin => absurd hin.1 hacc⟩

/-- **`get_billionths`** as of a time. -/
theorem getBillionths_eq {c : Contents} {ops : List Op} {t : Int} (ht : 0 < t) (hlt : t < 2 ^ 52)
    (h : Holds id acc ops c.entries c.placements) (hdistinct : DistinctEntries ops)
    (hlast : ∀ op ∈ ops, Op.NotLast acc t op) :
    getBillionths c acc t = .ok (billionthsOf acc (upTo t ops)) := by
  obtain ⟨last, hmake, htime, hmedallion, hoffset⟩ := make_last ht hlt
  have hpacked : ∀ m : Muid, (Placement.mk acc .none m none).toBytes
      = .ok (acc.toBytes ++ (m.toBytes ++ packSigned 0)) := by
    intro m
    show Except.ok (acc.toBytes ++ [] ++ m.toBytes ++ packSigned 0) = _
    rw [List.append_nil, List.append_assoc]
  have hrange : irange c.placements (acc.toBytes ++ (epoch.toBytes ++ packSigned 0))
      (acc.toBytes ++ (last.toBytes ++ packSigned 0))
        = (c.placements.rowsWhere (acc.toBytes.isPrefixOf ·)).filter
            (fun row => decide (placedAt row.1 ≤ t)) := by
    unfold irange Table.rowsWhere
    rw [List.filter_filter]
    refine List.filter_congr fun row hrow => ?_
    have hiff := mem_range h hlast htime hmedallion hoffset hrow
    rw [Bool.eq_iff_iff]
    simp only [Bool.and_eq_true, decide_eq_true_eq]
    rw [hiff, and_comm]
  unfold getBillionths
  rw [if_neg (by omega)]
  simp only [hpacked, hmake, hrange, bind, Except.bind]
  rw [billionthsLoop_eq, zero_add, h.sum hdistinct t]
  intro row hrow
  obtain ⟨hrow, hpre⟩ := Table.mem_rowsWhere.mp (List.mem_filter.mp hrow).1
  obtain ⟨op, hop, builder, placement, expiry, amount, -, -, -, -, -, hentry, hbehavior, hamount⟩ :=
    h.row hrow hpre
  exact ⟨builder, amount, hentry, hbehavior, hamount⟩

end Memory

end Gink
