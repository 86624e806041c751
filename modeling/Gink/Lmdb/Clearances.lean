/-
  Gink.Lmdb.Clearances — which clearances an `LmdbStore` holds.

  With history a clearance adds its row.  Without history it first deletes the rows of
  the container that are already there, whether they are older or newer, so that only
  the one that arrived last is left.
-/
import Gink.Lmdb.Aside
import Gink.Lmdb.History

namespace Gink

namespace Lmdb

/-! ## §1. Deleting what starts with a prefix. -/

/-- **The deleting loop** removes every row that starts with the prefix, when no key
goes on past it with forty bytes of 0xFF. -/
theorem deleteLastRows_eq {V : Type} {pre : Bytes} :
    ∀ (fuel : Nat) (t : Table Bytes V),
      (∀ r ∈ t.rows, ∀ x, r.1 = pre ++ x → x < List.replicate 40 255) →
      (t.rowsWhere (fun k => pre.isPrefixOf k)).length ≤ fuel →
      deleteLastRows pre fuel t = t.eraseWhere (fun k => pre.isPrefixOf k) := by
  -- a table without such rows is left as it is
  have hnothing : ∀ t : Table Bytes V, t.rowsWhere (fun k => pre.isPrefixOf k) = [] →
      t = t.eraseWhere (fun k => pre.isPrefixOf k) := by
    intro t hnone
    apply Table.ext_rows
    intro r
    show r ∈ t.rows ↔ r ∈ t.rows.filter (fun r => !pre.isPrefixOf r.1)
    rw [List.mem_filter]
    refine ⟨fun hr => ⟨hr, ?_⟩, And.left⟩
    cases hp : pre.isPrefixOf r.1 with
    | false => rfl
    | true =>
        have hin := Table.mem_rowsWhere (p := fun k => pre.isPrefixOf k) |>.mpr ⟨hr, hp⟩
        rw [hnone] at hin
        exact absurd hin List.not_mem_nil
  intro fuel
  induction fuel with
  | zero =>
      intro t _ hlen
      exact hnothing t (List.length_eq_zero_iff.mp (Nat.le_zero.mp hlen))
  | succ fuel ih =>
      intro t hshort hlen
      unfold deleteLastRows
      rw [toLast_eq_lastWhere t pre hshort]
      cases hlast : t.lastWhere (fun k => pre.isPrefixOf k) with
      | none =>
          refine hnothing t ?_
          unfold Table.lastWhere at hlast
          exact List.getLast?_eq_none_iff.mp hlast
      | some r =>
          obtain ⟨hr, hp, -⟩ := Table.lastWhere_eq_some_iff.mp hlast
          have hsub : (t.erase r.1).rowsWhere (fun k => pre.isPrefixOf k)
              = (t.rowsWhere (fun k => pre.isPrefixOf k)).filter (fun x => decide (x.1 ≠ r.1)) := by
            unfold Table.rowsWhere
            rw [List.filter_filter]
            show (t.rows.filter _).filter _ = _
            rw [List.filter_filter]
            refine List.filter_congr fun x _ => ?_
            simp [Bool.and_comm]
          have hfewer : ((t.erase r.1).rowsWhere (fun k => pre.isPrefixOf k)).length
              < (t.rowsWhere (fun k => pre.isPrefixOf k)).length := by
            rw [hsub]
            refine List.length_filter_lt_length_iff_exists.mpr
              ⟨r, Table.mem_rowsWhere.mpr ⟨hr, hp⟩, by simp⟩
          simp only
          rw [ih (t.erase r.1) (fun x hx => hshort x (List.mem_filter.mp hx).1) (by omega)]
          apply Table.ext_rows
          intro x
          show x ∈ (t.rows.filter _).filter _ ↔ x ∈ t.rows.filter _
          rw [List.mem_filter, List.mem_filter, List.mem_filter]
          constructor
          · exact fun h => ⟨h.1.1, h.2⟩
          · intro h
            refine ⟨⟨h.1, ?_⟩, h.2⟩
            have hne : x.1 ≠ r.1 := by
              intro heq
              have hx : (!pre.isPrefixOf x.1) = true := h.2
              rw [heq, hp] at hx
              exact absurd hx (by simp)
            simpa using hne

theorem deleteWithPrefix_eq {V : Type} {t : Table Bytes V} {pre : Bytes}
    (hshort : ∀ r ∈ t.rows, ∀ x, r.1 = pre ++ x → x < List.replicate 40 255) :
    deleteWithPrefix t pre = t.eraseWhere (fun k => pre.isPrefixOf k) :=
  deleteLastRows_eq _ t hshort (List.length_filter_le _ _)

/-! ## §2. One turn of the loop. -/

section
variable {lib : Externals} {committed c c' : Contents} {retaining : Bool} {info : BundleInfo}
  {offset : Nat}

/-- **One turn of the loop** changes the clearances by a clearance only. -/
theorem applyChange_clearances {change : ChangeBuilder} {seen seen' : List Muid}
    (h : applyChange lib committed retaining info offset seen c change = (seen', .ok c')) :
    (Op.cleared ⟨info, offset, change⟩ = none ∧ c'.clearances = c.clearances) ∨
      ∃ container clearance builder,
        Op.cleared ⟨info, offset, change⟩ = some (container, clearance, builder) ∧
        c'.clearances = (clearedOut retaining container c.clearances).put
          (container.toBytes ++ clearance.toBytes) builder := by
  have h2 := congrArg Prod.snd h
  cases change with
  | unset => simp [applyChange] at h2
  | container builder =>
      obtain ⟨muid, -, rfl⟩ := map_eq_ok.mp h2
      exact Or.inl ⟨rfl, rfl⟩
  | entry builder =>
      cases hm : builder.containerField.literal with
      | error e => simp [applyChange, hm] at h2
      | ok muid =>
          obtain ⟨containers, hnote⟩ := noteContainer_eq committed builder muid seen c
          simp only [applyChange, hm, hnote] at h2
          exact Or.inl ⟨rfl, (addEntry_rows h2).2.2⟩
  | movement builder => exact Or.inl ⟨rfl, (applyMovement_shrunk h2).clearances⟩
  | clearance builder =>
      obtain ⟨container, clearance, hc, hm, hshrunk⟩ := applyClearance_rows h2
      exact Or.inr ⟨container, clearance, builder, cleared_eq_some.mpr ⟨rfl, hc, hm⟩,
        hshrunk.clearances⟩

end

/-! ## §3. Histories. -/

/-- The clearances of the container among the changes, in the order they came. -/
def clearings (container : Muid) (ops : List Op) : List Muid :=
  ops.filterMap fun op => (Op.cleared op).bind fun p =>
    if p.1 = container then some p.2.1 else none

theorem clearings_append (container : Muid) (ops : List Op) (op : Op) :
    clearings container (ops ++ [op]) = clearings container ops ++
      ((Op.cleared op).bind fun p => if p.1 = container then some p.2.1 else none).toList := by
  unfold clearings
  rw [List.filterMap_append]
  congr 1

/-- Whether one of the clearances is still held: all are with history, only the last
one is without. -/
def Kept (retaining : Bool) (clearances : List Muid) (z : Muid) : Prop :=
  if retaining then z ∈ clearances else clearances.getLast? = some z

instance (retaining : Bool) (clearances : List Muid) : DecidablePred (Kept retaining clearances) :=
  fun z => inferInstanceAs
    (Decidable (if retaining then z ∈ clearances else clearances.getLast? = some z))

/-- The key of every row spells a container and an address with a time. -/
def ClearanceKeys (c : Contents) : Prop :=
  ∀ row ∈ c.clearances.rows, ∃ container z : Muid,
    row.1 = container.toBytes ++ z.toBytes ∧ z.timeField.val ≠ 0

/-- The container has a row for the clearance. -/
def Recorded (c : Contents) (container z : Muid) : Prop :=
  ∃ value, (container.toBytes ++ z.toBytes, value) ∈ c.clearances.rows

/-- The clearances held are those kept of the ones that came. -/
structure ClearancesAre (retaining : Bool) (ops : List Op) (c : Contents) : Prop where
  keys : ClearanceKeys c
  recorded : ∀ container z, Recorded c container z ↔ Kept retaining (clearings container ops) z

/-- Two keys are the same when the container and the clearance are. -/
theorem clearance_key_inj {container container' z z' : Muid}
    (h : container.toBytes ++ z.toBytes = container'.toBytes ++ z'.toBytes) :
    container = container' ∧ z = z' := by
  have hlen : container.toBytes.length = container'.toBytes.length := by simp
  obtain ⟨hc, hz⟩ := List.append_inj h hlen
  exact ⟨Muid.toBytes_injective hc, Muid.toBytes_injective hz⟩

/-- A row that is left keeps its key; those of the container go without history. -/
theorem mem_clearedOut {retaining : Bool} {container : Muid} {c : Contents} (hc : ClearanceKeys c)
    {row : Bytes × ClearanceBuilder} :
    row ∈ (clearedOut retaining container c.clearances).rows ↔
      row ∈ c.clearances.rows ∧ (retaining = true ∨ ¬ container.toBytes <+: row.1) := by
  unfold clearedOut
  split_ifs with hr
  · simp [hr]
  · have hshort : ∀ r ∈ c.clearances.rows, ∀ x, r.1 = container.toBytes ++ x →
        x < List.replicate 40 255 := by
      intro r hrow x hx
      obtain ⟨container', z, hkey, -⟩ := hc r hrow
      apply Bytes.lt_replicate_of_length_lt
      have hlen := congrArg List.length (hx.symm.trans hkey)
      simp only [List.length_append, Muid.length_toBytes] at hlen
      omega
    rw [deleteWithPrefix_eq hshort]
    show row ∈ c.clearances.rows.filter (fun r => !container.toBytes.isPrefixOf r.1) ↔ _
    rw [List.mem_filter, Bool.not_eq_true', ← Bool.not_eq_true, List.isPrefixOf_iff_prefix]
    simp [hr]

/-- **One change** leaves them spelling containers and clearances. -/
theorem ClearanceKeys.step {lib : Externals} {committed c c' : Contents} {retaining : Bool}
    {info : BundleInfo} {offset : Nat} {change : ChangeBuilder} {seen seen' : List Muid}
    (h : ClearanceKeys c)
    (happlied : applyChange lib committed retaining info offset seen c change = (seen', .ok c')) :
    ClearanceKeys c' := by
  rcases applyChange_clearances happlied with
    ⟨-, hsame⟩ | ⟨cleared, clearance, builder, hsome, hput⟩
  · unfold ClearanceKeys
    rw [hsame]
    exact h
  · intro row hin
    show ∃ container z : Muid, row.1 = container.toBytes ++ z.toBytes ∧ z.timeField.val ≠ 0
    rw [hput, Table.mem_rows_put, mem_clearedOut h] at hin
    rcases hin with heq | ⟨-, hin, -⟩
    · have htime := create_timeField (cleared_eq_some.mp hsome).2.2
      exact ⟨cleared, clearance, congrArg Prod.fst heq, htime⟩
    · exact h row hin

theorem runCalls_clearanceKeys (lib : Externals) (symmetricKeys : Table Bytes Bytes)
    (retainBundles retainEntries : Bool) (calls : List Call) :
    ClearanceKeys (runCalls lib (newStore symmetricKeys retainBundles retainEntries) calls).db.contents :=
  runCalls_invariant (fun _ _ _ _ _ _ _ _ hc happlied => hc.step happlied) rfl
    (fun _ hrow => absurd hrow List.not_mem_nil)

/-- **One change** keeps that. -/
theorem ClearancesAre.step {lib : Externals} {committed c c' : Contents} {retaining : Bool}
    {info : BundleInfo} {offset : Nat} {change : ChangeBuilder} {seen seen' : List Muid}
    {ops : List Op} (h : ClearancesAre retaining ops c)
    (happlied : applyChange lib committed retaining info offset seen c change = (seen', .ok c')) :
    ClearancesAre retaining (ops ++ [⟨info, offset, change⟩]) c' := by
  refine ⟨h.keys.step happlied, fun container z => ?_⟩
  rcases applyChange_clearances happlied with
    ⟨hnone, hsame⟩ | ⟨cleared, clearance, builder, hsome, hput⟩
  · rw [clearings_append, hnone]
    simp only [Option.bind_none, Option.toList_none, List.append_nil]
    rw [← h.recorded]
    unfold Recorded
    rw [hsame]
  · have hrow : ∀ row, row ∈ c'.clearances.rows ↔
        row = (cleared.toBytes ++ clearance.toBytes, builder) ∨
          row.1 ≠ cleared.toBytes ++ clearance.toBytes ∧ row ∈ c.clearances.rows ∧
            (retaining = true ∨ ¬ cleared.toBytes <+: row.1) := by
      intro row
      rw [hput, Table.mem_rows_put, mem_clearedOut h.keys]
    have hrecorded : Recorded c' container z ↔ (container = cleared ∧ z = clearance) ∨
        (Recorded c container z ∧ (retaining = true ∨ container ≠ cleared)) := by
      unfold Recorded
      constructor
      · rintro ⟨value, hin⟩
        rcases (hrow _).mp hin with heq | ⟨-, hin, hleft⟩
        · exact Or.inl (clearance_key_inj (congrArg Prod.fst heq))
        · refine Or.inr ⟨⟨value, hin⟩, hleft.imp_right fun hno heq => hno ?_⟩
          rw [heq]
          exact List.prefix_append _ _
      · intro hcase
        by_cases hkey : container = cleared ∧ z = clearance
        · exact ⟨builder, (hrow _).mpr (Or.inl (by rw [hkey.1, hkey.2]))⟩
        · obtain ⟨⟨value, hin⟩, hleft⟩ := hcase.resolve_left hkey
          refine ⟨value, (hrow _).mpr (Or.inr ⟨fun heq => hkey (clearance_key_inj heq), hin, ?_⟩)⟩
          refine hleft.imp_right fun hne hpre => hne ?_
          exact Muid.toBytes_injective
            (Bytes.prefix_unique (by simp) (List.prefix_append _ _) hpre)
    rw [hrecorded, h.recorded, clearings_append, hsome]
    simp only [Option.bind_some]
    unfold Kept
    by_cases hcontainer : container = cleared
    · subst hcontainer
      cases retaining <;> simp [eq_comm, or_comm]
    · have hother : ¬ cleared = container := fun heq => hcontainer heq.symm
      rw [if_neg hother]
      simp [hcontainer]

/-- **The clearances of a history.** -/
theorem History.clearances {lib : Externals} {retaining : Bool} {history : List OpenBundle}
    {c : Contents} (h : History lib retaining history c) :
    ClearancesAre retaining (allOps history) c := by
  induction h with
  | start =>
      refine ⟨by simp [ClearanceKeys], fun container z => ?_⟩
      cases retaining <;> simp [Recorded, Kept, clearings, allOps]
  | @next past c c' b seen seen' before happlied ih =>
      have hops : allOps (past ++ [b]) = allOps past ++ opsFrom b.info 1 b.changes := by
        simp [allOps, OpenBundle.ops]
      rw [hops]
      exact applyChangesFrom_along (fun _ _ _ _ _ _ _ hc hone => hc.step hone) ih happlied

end Lmdb

end Gink
