/-
  Gink.Lmdb.History — the tables of an `LmdbStore` as a function of what it accepted.

  A run of calls accepts some bundles; the others raise or repeat what is known, and
  leave no trace in the tables.  `runCalls_history` reduces a run to the history of
  accepted bundles, and while history is retained and nothing moves, the three tables
  a lookup reads hold one row for each change, whatever the order.
-/
import Gink.Lmdb.Chains
import Gink.Lmdb.Effects
import Gink.Proto.Ops

namespace Gink

namespace Lmdb

/-! ## §1. Runs of calls. -/

/-- The arguments of a call of `apply_bundle`. -/
structure Call where
  bundle : Decomposition
  callback : Option Callback := none
  claimChain : Bool := false
  clock : Clock

/-- The call. -/
def Call.run (lib : Externals) (s : Store) (call : Call) : Outcome Bool :=
  applyBundle lib s call.bundle call.callback call.claimChain call.clock

/-- Its callback, if there is one, never raises. -/
def Call.Quiet (call : Call) : Prop := ∀ f, call.callback = some f → ∀ d, f d = .ok ()

theorem quiet_of_no_callback {calls : List Call} (h : calls.all (·.callback.isNone) = true) :
    ∀ call ∈ calls, call.Quiet := by
  intro call hcall f hf
  have hnone := List.all_eq_true.mp h call hcall
  rw [hf] at hnone
  simp at hnone

/-- The store after calls one after the other. -/
def runCalls (lib : Externals) : Store → List Call → Store
  | s, [] => s
  | s, call :: rest => runCalls lib (call.run lib s).store rest

/-- The bundles of the calls that returned `True`. -/
def accepted (lib : Externals) : Store → List Call → List Decomposition
  | _, [] => []
  | s, call :: rest =>
      match (call.run lib s).result with
      | .ok true => call.bundle :: accepted lib (call.run lib s).store rest
      | _ => accepted lib (call.run lib s).store rest

/-- A store on a new file, with symmetric keys saved in it. -/
def newStore (symmetricKeys : Table Bytes Bytes) (retainBundles retainEntries : Bool) : Store where
  db := { symmetricKeys, retainBundles, retainEntries }

/-- Bundles applied one after the other to empty tables. -/
inductive History (lib : Externals) (retaining : Bool) : List OpenBundle → Contents → Prop
  | start : History lib retaining [] {}
  | next {past : List OpenBundle} {c c' : Contents} {b : OpenBundle} {seen seen' : List Muid}
      (before : History lib retaining past c)
      (applied : applyChangesFrom lib c retaining b.info 1 b.changes seen c = (seen', .ok c')) :
      History lib retaining (past ++ [b]) c'

/-- **One call**: it returns `True` and the tables take in the opened bundle, or the
database stays as it is. -/
theorem Call.step (lib : Externals) {s : Store} {call : Call} (hquiet : call.Quiet)
    (happly : s.applyChanges = true) :
    ((call.run lib s).result ≠ .ok true ∧ (call.run lib s).store.db = s.db) ∨
      ((call.run lib s).result = .ok true ∧
        (call.run lib s).store.db.symmetricKeys = s.db.symmetricKeys ∧
        (call.run lib s).store.db.retainEntries = s.db.retainEntries ∧
        ∃ b seen', call.bundle.opened lib s.db.symmetricKey = .ok b ∧
          applyChangesFrom lib s.db.contents s.db.retainEntries b.info 1 b.changes s.seenContainers
            s.db.contents = (seen', .ok (call.run lib s).store.db.contents)) := by
  cases applyBundle_step lib s call.bundle call.callback call.claimChain call.clock with
  | kept hdb _ hresult => exact Or.inl ⟨hresult, hdb⟩
  | committed builder hopen info hinfo _ hw _ hresult =>
      refine Or.inr ⟨?_, hw.symmetricKeys, hw.retainEntries, ?_⟩
      · rcases hresult with htrue | ⟨f, e, hf, hraise, -⟩
        · exact htrue
        · rw [hquiet f hf] at hraise
          simp at hraise
      · obtain ⟨changes, hchanges, happlied⟩ := hw.contents
        rw [happly, if_pos rfl] at happlied
        refine ⟨⟨info, changes⟩, _, ?_, happlied⟩
        unfold Decomposition.opened
        rw [hinfo]
        exact bind_eq_ok.mpr ⟨builder, hopen, bind_eq_ok.mpr ⟨changes, hchanges, rfl⟩⟩

/-- **The tables of a run** are those of the history of what it accepted. -/
theorem runCalls_history {lib : Externals} {calls : List Call} :
    ∀ (s : Store) (past : List OpenBundle), (∀ call ∈ calls, call.Quiet) →
      s.applyChanges = true → History lib s.db.retainEntries past s.db.contents →
      History lib s.db.retainEntries
        (past ++ openAll lib s.db.symmetricKey (accepted lib s calls))
        (runCalls lib s calls).db.contents := by
  induction calls with
  | nil =>
      intro s past _ _ h
      simpa [accepted, openAll, runCalls] using h
  | cons call rest ih =>
      intro s past hquiet happly h
      have hflag : (call.run lib s).store.applyChanges = true := by
        cases applyBundle_step lib s call.bundle call.callback call.claimChain call.clock with
        | kept _ hflag _ => exact hflag.trans happly
        | committed _ _ _ _ _ _ hflag _ => exact hflag.trans happly
      have hrest : ∀ call ∈ rest, call.Quiet := fun c hc => hquiet c (List.mem_cons_of_mem _ hc)
      unfold runCalls accepted
      rcases Call.step lib (hquiet call List.mem_cons_self) happly with
        ⟨hresult, hdb⟩ | ⟨hresult, hkeys, hretain, b, seen', hopen, happlied⟩
      · have hih := ih _ past hrest hflag (by rw [hdb]; exact h)
        rw [hdb] at hih
        split
        · exact absurd ‹_› hresult
        · exact hih
      · rw [hresult]
        simp only
        have hkey : (call.run lib s).store.db.symmetricKey = s.db.symmetricKey := by
          funext keyId
          unfold Db.symmetricKey
          rw [hkeys]
        have hih := ih _ (past ++ [b]) hrest hflag (by
          rw [hretain]
          exact .next h happlied)
        rw [hretain, hkey] at hih
        rw [openAll_cons _ hopen]
        simpa using hih

/-- An invariant of changes is one of the changes of a bundle. -/
theorem applyChangesFrom_invariant {lib : Externals} {committed : Contents} {retaining : Bool}
    {info : BundleInfo} {P : Contents → Prop}
    (hstep : ∀ offset change seen seen' c c', P c →
      applyChange lib committed retaining info offset seen c change = (seen', .ok c') → P c')
    {changes : List ChangeBuilder} :
    ∀ {offset : Nat} {seen seen' : List Muid} {c c' : Contents}, P c →
      applyChangesFrom lib committed retaining info offset changes seen c = (seen', .ok c') →
      P c' := by
  induction changes with
  | nil =>
      intro offset seen seen' c c' hc h
      simp only [applyChangesFrom, Prod.mk.injEq, Except.ok.injEq] at h
      exact h.2 ▸ hc
  | cons change rest ih =>
      intro offset seen seen' c c' hc h
      unfold applyChangesFrom at h
      cases hone : applyChange lib committed retaining info offset seen c change with
      | mk seen₁ r =>
          cases r with
          | error e => simp [hone] at h
          | ok c₁ =>
              simp only [hone] at h
              exact ih (hstep _ _ _ _ _ _ hc hone) h

/-- What relates the changes so far to the tables, and is kept by one more, holds after the
changes of a bundle. -/
theorem applyChangesFrom_along {lib : Externals} {committed : Contents} {retaining : Bool}
    {info : BundleInfo} {P : List Op → Contents → Prop}
    (hstep : ∀ ops offset change seen seen' c c', P ops c →
      applyChange lib committed retaining info offset seen c change = (seen', .ok c') →
      P (ops ++ [⟨info, offset, change⟩]) c')
    {changes : List ChangeBuilder} :
    ∀ {ops : List Op} {offset : Nat} {seen seen' : List Muid} {c c' : Contents}, P ops c →
      applyChangesFrom lib committed retaining info offset changes seen c = (seen', .ok c') →
      P (ops ++ opsFrom info offset changes) c' := by
  induction changes with
  | nil =>
      intro ops offset seen seen' c c' hc h
      simp only [applyChangesFrom, Prod.mk.injEq, Except.ok.injEq] at h
      rw [opsFrom_nil, List.append_nil]
      exact h.2 ▸ hc
  | cons change rest ih =>
      intro ops offset seen seen' c c' hc h
      unfold applyChangesFrom at h
      cases hone : applyChange lib committed retaining info offset seen c change with
      | mk seen₁ r =>
          cases r with
          | error e => simp [hone] at h
          | ok c₁ =>
              simp only [hone] at h
              have hrest := ih (hstep _ _ _ _ _ _ _ hc hone) h
              rw [List.append_assoc] at hrest
              exact hrest

/-- **An invariant of changes holds in every state of every run**, whatever calls it
makes: those that raise leave the tables as they were. -/
theorem runCalls_invariant {lib : Externals} {P : Contents → Prop} {retaining : Bool}
    (hstep : ∀ committed info offset change seen seen' c c', P c →
      applyChange lib committed retaining info offset seen c change = (seen', .ok c') → P c')
    {calls : List Call} :
    ∀ {s : Store}, s.db.retainEntries = retaining → P s.db.contents →
      P (runCalls lib s calls).db.contents := by
  induction calls with
  | nil => exact fun _ h => h
  | cons call rest ih =>
      intro s hr h
      unfold runCalls
      cases applyBundle_step lib s call.bundle call.callback call.claimChain call.clock with
      | kept hdb _ _ =>
          apply ih
          · exact (congrArg Db.retainEntries hdb).trans hr
          · exact (congrArg Db.contents hdb) ▸ h
      | committed builder _ info _ _ hw _ _ =>
          apply ih
          · exact hw.retainEntries.trans hr
          · obtain ⟨changes, -, happlied⟩ := hw.contents
            rw [hr] at happlied
            exact applyChangesFrom_invariant (fun offset change seen seen' c c' hc =>
              hstep _ _ _ _ _ _ _ _ hc) h happlied

/-! ## §2. The rows of a change. -/

/-- Where an entry is placed, and the packed placement. -/
def Op.placed (op : Op) : Option (EntryBuilder × Placement × Bytes) :=
  match op.change with
  | .entry builder => (do
      let placement ← Placement.fromBuilder builder op.info op.offset
      let bytes ← placement.toBytes
      return (builder, placement, bytes)).toOption
  | _ => none

/-- What a clearance clears, its address and the change itself. -/
def Op.cleared (op : Op) : Option (Muid × Muid × ClearanceBuilder) :=
  match op.change with
  | .clearance builder => (do
      let container ← resolve op.info.context builder.container
      let clearance ← changeMuid op.info op.offset
      return (container, clearance, builder)).toOption
  | _ => none

/-- The row of an entry in the entries table. -/
def Op.entryRow (op : Op) : Option (Bytes × EntryBuilder) :=
  (Op.placed op).map fun p => (p.2.1.placer.toBytes, p.1)

/-- Its row in the placements table. -/
def Op.placementRow (op : Op) : Option (Bytes × Bytes) :=
  (Op.placed op).map fun p => (p.2.2, p.2.1.placer.toBytes)

/-- The row of a clearance. -/
def Op.clearanceRow (op : Op) : Option (Bytes × ClearanceBuilder) :=
  (Op.cleared op).map fun p => (p.1.toBytes ++ p.2.1.toBytes, p.2.2)

theorem placed_eq_some {op : Op} {builder : EntryBuilder} {placement : Placement} {bytes : Bytes} :
    Op.placed op = some (builder, placement, bytes) ↔ op.change = .entry builder ∧
      Placement.fromBuilder builder op.info op.offset = .ok placement ∧
      placement.toBytes = .ok bytes := by
  obtain ⟨info, offset, change⟩ := op
  cases change with
  | entry b =>
      simp only [Op.placed, toOption_eq_some, bind_eq_ok, pure_eq_ok, Prod.mk.injEq,
        ChangeBuilder.entry.injEq]
      constructor
      · rintro ⟨p, hp, bs, hbs, rfl, rfl, rfl⟩
        exact ⟨rfl, hp, hbs⟩
      · rintro ⟨rfl, hp, hbs⟩
        exact ⟨placement, hp, bytes, hbs, rfl, rfl, rfl⟩
  | _ => simp [Op.placed]

theorem cleared_eq_some {op : Op} {container clearance : Muid} {builder : ClearanceBuilder} :
    Op.cleared op = some (container, clearance, builder) ↔ op.change = .clearance builder ∧
      resolve op.info.context builder.container = .ok container ∧
      changeMuid op.info op.offset = .ok clearance := by
  obtain ⟨info, offset, change⟩ := op
  cases change with
  | clearance b =>
      simp only [Op.cleared, toOption_eq_some, bind_eq_ok, pure_eq_ok, Prod.mk.injEq,
        ChangeBuilder.clearance.injEq]
      constructor
      · rintro ⟨m, hm, n, hn, rfl, rfl, rfl⟩
        exact ⟨rfl, hm, hn⟩
      · rintro ⟨rfl, hm, hn⟩
        exact ⟨container, hm, clearance, hn, rfl, rfl, rfl⟩
  | _ => simp [Op.cleared]

/-- A placed entry is placed by the address of its change. -/
theorem placed_placer {op : Op} {builder : EntryBuilder} {placement : Placement} {bytes : Bytes}
    (h : Op.placed op = some (builder, placement, bytes)) :
    changeMuid op.info op.offset = .ok placement.placer :=
  (Placement.fromBuilder_eq_ok (placed_eq_some.mp h).2.1).1

/-! ## §3. Histories without movements. -/

/-- A change that moves or deletes an entry. -/
def IsMovement : ChangeBuilder → Prop
  | .movement _ => True
  | _ => False

instance : DecidablePred IsMovement := fun change =>
  match change with
  | .movement _ => isTrue trivial
  | .container _ | .entry _ | .clearance _ | .unset => isFalse id

/-- **One change** that moves nothing puts its rows and touches no others in the three
tables that lookups read. -/
theorem applyChange_rows {lib : Externals} {committed c c' : Contents} {info : BundleInfo}
    {offset : Nat} {change : ChangeBuilder} {seen seen' : List Muid} (hmove : ¬ IsMovement change)
    (h : applyChange lib committed true info offset seen c change = (seen', .ok c')) :
    c'.entries = c.entries.putAll (Op.entryRow ⟨info, offset, change⟩).toList ∧
      c'.placements = c.placements.putAll (Op.placementRow ⟨info, offset, change⟩).toList ∧
      c'.clearances = c.clearances.putAll (Op.clearanceRow ⟨info, offset, change⟩).toList := by
  cases applyChange_effect h with
  | container builder c containers => exact ⟨rfl, rfl, rfl⟩
  | entry builder c c' containers hadded =>
      obtain ⟨placement, bytes, removals, byTime, totals, indexes, -, hp, hb, -, -, -, rfl⟩ :=
        addEntry_ok hadded
      have hplaced : Op.placed ⟨info, offset, .entry builder⟩ = some (builder, placement, bytes) :=
        placed_eq_some.mpr ⟨rfl, hp, hb⟩
      unfold Op.entryRow Op.placementRow Op.clearanceRow
      rw [hplaced]
      exact ⟨rfl, rfl, rfl⟩
  | movement builder c c' happlied => exact absurd trivial hmove
  | clearance builder c c' happlied =>
      obtain ⟨container, clearance, hc, hm, rfl⟩ := applyClearance_ok happlied
      have hcleared : Op.cleared ⟨info, offset, .clearance builder⟩
          = some (container, clearance, builder) := cleared_eq_some.mpr ⟨rfl, hc, hm⟩
      unfold Op.entryRow Op.placementRow Op.clearanceRow
      rw [hcleared]
      exact ⟨rfl, rfl, rfl⟩

/-- The same over the changes of a bundle. -/
theorem applyChangesFrom_rows {lib : Externals} {committed : Contents} {info : BundleInfo}
    {changes : List ChangeBuilder} :
    ∀ {offset : Nat} {seen seen' : List Muid} {c c' : Contents},
      (∀ change ∈ changes, ¬ IsMovement change) →
      applyChangesFrom lib committed true info offset changes seen c = (seen', .ok c') →
      c'.entries = c.entries.putAll ((opsFrom info offset changes).filterMap Op.entryRow) ∧
        c'.placements = c.placements.putAll
          ((opsFrom info offset changes).filterMap Op.placementRow) ∧
        c'.clearances = c.clearances.putAll
          ((opsFrom info offset changes).filterMap Op.clearanceRow) := by
  induction changes with
  | nil =>
      intro offset seen seen' c c' _ h
      simp only [applyChangesFrom, Prod.mk.injEq, Except.ok.injEq] at h
      rw [← h.2]
      exact ⟨rfl, rfl, rfl⟩
  | cons change rest ih =>
      intro offset seen seen' c c' hmove h
      unfold applyChangesFrom at h
      cases hone : applyChange lib committed true info offset seen c change with
      | mk seen₁ r =>
          cases r with
          | error e => simp [hone] at h
          | ok c₁ =>
              simp only [hone] at h
              obtain ⟨he, hp, hc⟩ := applyChange_rows (hmove change List.mem_cons_self) hone
              obtain ⟨he', hp', hc'⟩ :=
                ih (fun x hx => hmove x (List.mem_cons_of_mem _ hx)) h
              rw [opsFrom_cons, Table.putAll_filterMap_cons, Table.putAll_filterMap_cons,
                Table.putAll_filterMap_cons, ← he, ← hp, ← hc]
              exact ⟨he', hp', hc'⟩

/-- No change of the history moves anything. -/
def MovesNothing (history : List OpenBundle) : Prop :=
  ∀ b ∈ history, ∀ change ∈ b.changes, ¬ IsMovement change

instance : DecidablePred MovesNothing := fun history =>
  inferInstanceAs (Decidable (∀ b ∈ history, ∀ change ∈ b.changes, ¬ IsMovement change))

/-- **The tables hold the rows of the changes**, nothing else. -/
theorem History.rows {lib : Externals} {history : List OpenBundle} {c : Contents}
    (h : History lib true history c) (hmove : MovesNothing history) :
    c.entries = Table.putAll ∅ ((allOps history).filterMap Op.entryRow) ∧
      c.placements = Table.putAll ∅ ((allOps history).filterMap Op.placementRow) ∧
      c.clearances = Table.putAll ∅ ((allOps history).filterMap Op.clearanceRow) := by
  induction h with
  | start => exact ⟨rfl, rfl, rfl⟩
  | @next past c c' b seen seen' before happlied ih =>
      obtain ⟨he, hp, hc⟩ := ih (fun x hx => hmove x (List.mem_append_left _ hx))
      have hb : ∀ change ∈ b.changes, ¬ IsMovement change :=
        hmove b (List.mem_append_right _ (List.mem_singleton_self b))
      obtain ⟨he', hp', hc'⟩ := applyChangesFrom_rows hb happlied
      have hops : allOps (past ++ [b]) = allOps past ++ opsFrom b.info 1 b.changes := by
        simp [allOps, OpenBundle.ops]
      rw [hops, List.filterMap_append, List.filterMap_append, List.filterMap_append,
        Table.putAll_append, Table.putAll_append, Table.putAll_append, ← he, ← hp, ← hc]
      exact ⟨he', hp', hc'⟩

/-- A bundle's changes were all applied. -/
theorem applyChangesFrom_applied {lib : Externals} {committed : Contents} {retaining : Bool}
    {info : BundleInfo} {changes : List ChangeBuilder} :
    ∀ {offset : Nat} {seen seen' : List Muid} {c c' : Contents},
      applyChangesFrom lib committed retaining info offset changes seen c = (seen', .ok c') →
      ∀ op ∈ opsFrom info offset changes, ∃ before after seen seen',
        applyChange lib committed retaining op.info op.offset seen before op.change
          = (seen', .ok after) := by
  induction changes with
  | nil => intro offset seen seen' c c' _ op hop; simp at hop
  | cons change rest ih =>
      intro offset seen seen' c c' h op hop
      unfold applyChangesFrom at h
      cases hone : applyChange lib committed retaining info offset seen c change with
      | mk seen₁ r =>
          cases r with
          | error e => simp [hone] at h
          | ok c₁ =>
              simp only [hone] at h
              rcases List.mem_cons.mp hop with rfl | hop
              · exact ⟨c, c₁, seen, seen₁, hone⟩
              · exact ih h op hop

/-- **Every change of a history was applied** at some point. -/
theorem History.applied {lib : Externals} {retaining : Bool} {history : List OpenBundle}
    {c : Contents} (h : History lib retaining history c) :
    ∀ op ∈ allOps history, ∃ committed before after seen seen',
      applyChange lib committed retaining op.info op.offset seen before op.change
        = (seen', .ok after) := by
  induction h with
  | start => intro op hop; simp [allOps] at hop
  | @next past c c' b seen seen' before happlied ih =>
      intro op hop
      have hops : allOps (past ++ [b]) = allOps past ++ b.ops := by simp [allOps]
      rw [hops, List.mem_append] at hop
      rcases hop with hop | hop
      · exact ih op hop
      · exact ⟨c, applyChangesFrom_applied happlied op hop⟩

/-! ## §4. The order of the bundles. -/

/-- Rows whose keys spell the address of the change they come from are determined by
their keys. -/
theorem rows_functional {history : List OpenBundle} (hdistinct : DistinctStamps history) {V : Type}
    (row : Op → Option (Bytes × V)) (address : Bytes → Bytes)
    (hrow : ∀ op r, row op = some r →
      ∃ m, changeMuid op.info op.offset = .ok m ∧ address r.1 = m.toBytes) :
    ∀ x ∈ (allOps history).filterMap row, ∀ y ∈ (allOps history).filterMap row,
      x.1 = y.1 → x.2 = y.2 := by
  intro x hx y hy hkey
  obtain ⟨op, hop, hopx⟩ := List.mem_filterMap.mp hx
  obtain ⟨op', hop', hopy⟩ := List.mem_filterMap.mp hy
  obtain ⟨m, hm, hmx⟩ := hrow op x hopx
  obtain ⟨m', hm', hmy⟩ := hrow op' y hopy
  have hmm : m = m' := by
    rw [hkey, hmy] at hmx
    exact Muid.toBytes_injective hmx.symm
  obtain rfl := op_eq_of_changeMuid hdistinct hop hop' hm (hmm ▸ hm')
  rw [hopx] at hopy
  injection hopy with hopy
  rw [hopy]

theorem entryRow_address {op : Op} {r : Bytes × EntryBuilder} (h : Op.entryRow op = some r) :
    ∃ m, changeMuid op.info op.offset = .ok m ∧ r.1 = m.toBytes := by
  obtain ⟨⟨builder, placement, bytes⟩, hp, rfl⟩ := Option.map_eq_some_iff.mp h
  exact ⟨placement.placer, placed_placer hp, rfl⟩

theorem placementRow_address {op : Op} {r : Bytes × Bytes} (h : Op.placementRow op = some r) :
    ∃ m, changeMuid op.info op.offset = .ok m ∧ Placement.placerSlice r.1 = m.toBytes := by
  obtain ⟨⟨builder, placement, bytes⟩, hp, rfl⟩ := Option.map_eq_some_iff.mp h
  exact ⟨placement.placer, placed_placer hp,
    Placement.placer_of_toBytes (placed_eq_some.mp hp).2.2⟩

theorem clearanceRow_address {op : Op} {r : Bytes × ClearanceBuilder}
    (h : Op.clearanceRow op = some r) :
    ∃ m, changeMuid op.info op.offset = .ok m ∧ r.1.drop 16 = m.toBytes := by
  obtain ⟨⟨container, clearance, builder⟩, hp, rfl⟩ := Option.map_eq_some_iff.mp h
  exact ⟨clearance, (cleared_eq_some.mp hp).2.2, List.drop_left' (Muid.length_toBytes _)⟩

/-- **Histories of the same bundles** lead to the same entries, placements and
clearances. -/
theorem History.tables_eq {lib : Externals} {history history' : List OpenBundle}
    {c c' : Contents} (h : History lib true history c) (h' : History lib true history' c')
    (hperm : history.Perm history') (hdistinct : DistinctStamps history)
    (hmove : MovesNothing history) :
    c.entries = c'.entries ∧ c.placements = c'.placements ∧ c.clearances = c'.clearances := by
  obtain ⟨he, hp, hc⟩ := h.rows hmove
  obtain ⟨he', hp', hc'⟩ := h'.rows (fun b hb => hmove b (hperm.mem_iff.mpr hb))
  have hops : (allOps history).Perm (allOps history') := hperm.flatMap_right _
  rw [he, hp, hc, he', hp', hc']
  refine ⟨Table.putAll_perm _ (hops.filterMap _) ?_, Table.putAll_perm _ (hops.filterMap _) ?_,
    Table.putAll_perm _ (hops.filterMap _) ?_⟩
  · exact rows_functional hdistinct _ id fun op r => entryRow_address
  · exact rows_functional hdistinct _ Placement.placerSlice fun op r => placementRow_address
  · exact rows_functional hdistinct _ (List.drop 16) fun op r => clearanceRow_address

/-- A lookup reads these three tables only. -/
theorem getEntryByKey_congr {c c' : Contents} (he : c.entries = c'.entries)
    (hp : c.placements = c'.placements) (hc : c.clearances = c'.clearances) (container : Muid)
    (key : MiddleKey) (asOf : Int) :
    getEntryByKey c container key asOf = getEntryByKey c' container key asOf := by
  unfold getEntryByKey timeOfPriorClear readEntry
  rw [he, hp, hc]

/-! ## §5. What holds while history is retained. -/

/-- Every placement is one of a stored entry in a container whose address has a time,
and a clearance's key spells the container and an address with a time. -/
structure Retained (c : Contents) : Prop where
  entries : ∀ row ∈ c.placements.rows, (c.entries.get? row.2).isSome
  containers : ∀ row ∈ c.placements.rows, ∀ container : Muid, container.toBytes <+: row.1 →
    container.timeField.val ≠ 0
  clearances : ∀ row ∈ c.clearances.rows, ∃ container z : Muid,
    row.1 = container.toBytes ++ z.toBytes ∧ z.timeField.val ≠ 0

/-- A packed placement starts with its container. -/
theorem container_of_head {p : Placement} {bytes : Bytes} (hb : p.toBytes = .ok bytes)
    {container : Muid} (h : container.toBytes <+: bytes) : container = p.container := by
  obtain ⟨middle, expiry, -, -, rfl⟩ := Placement.toBytes_eq_ok hb
  have hp : p.container.toBytes <+: p.container.toBytes ++ middle ++ p.placer.toBytes ++ expiry := by
    rw [List.append_assoc, List.append_assoc]
    exact List.prefix_append _ _
  exact Muid.toBytes_injective (Bytes.prefix_unique (by simp) h hp)

/-- A new placement of a stored entry keeps it. -/
theorem Retained.put {c c' : Contents} (h : Retained c) {p : Placement} {bytes value : Bytes}
    (hentries : ∀ k, (c.entries.get? k).isSome → (c'.entries.get? k).isSome)
    (hb : p.toBytes = .ok bytes) (hcontainer : p.container.timeField.val ≠ 0)
    (hvalue : (c'.entries.get? value).isSome)
    (hp : c'.placements = c.placements.put bytes value) (hc : c'.clearances = c.clearances) :
    Retained c' := by
  refine ⟨?_, ?_, by rw [hc]; exact h.clearances⟩
  · intro row hrow
    rw [hp] at hrow
    rcases Table.mem_rows_put.mp hrow with rfl | ⟨-, hrow⟩
    · exact hvalue
    · exact hentries _ (h.entries row hrow)
  · intro row hrow container hprefix
    rw [hp] at hrow
    rcases Table.mem_rows_put.mp hrow with rfl | ⟨-, hrow⟩
    · rw [container_of_head hb hprefix]
      exact hcontainer
    · exact h.containers row hrow container hprefix

/-- **Each change keeps it.** -/
theorem Retained.step {lib : Externals} {committed c c' : Contents} {info : BundleInfo}
    {offset : Nat} {change : ChangeBuilder} {seen seen' : List Muid} (h : Retained c)
    (happlied : applyChange lib committed true info offset seen c change = (seen', .ok c')) :
    Retained c' := by
  cases applyChange_effect happlied with
  | container builder c containers => exact ⟨h.entries, h.containers, h.clearances⟩
  | entry builder c c' containers hadded =>
      obtain ⟨placement, bytes, removals, byTime, totals, indexes, -, hp, hb, -, -, -, rfl⟩ :=
        addEntry_ok hadded
      obtain ⟨-, hcontainer, -, -⟩ := Placement.fromBuilder_eq_ok hp
      refine h.put ?_ hb (create_timeField hcontainer) ?_ rfl rfl
      · intro k hk
        show ((c.entries.put placement.placer.toBytes builder).get? k).isSome
        rw [Table.get?_put]
        split_ifs
        · rfl
        · exact hk
      · show ((c.entries.put placement.placer.toBytes builder).get? _).isSome
        rw [Table.get?_put_self]
        rfl
  | movement builder c c' hmoved =>
      rcases applyMovement_ok hmoved with rfl | ⟨container, entryMuid, movementMuid, entry, row,
        placer, placed, hmovable, byTime, ⟨-, rfl⟩ | ⟨-, bytes, hb, rfl⟩⟩
      · exact h
      · exact ⟨h.entries, h.containers, h.clearances⟩
      · refine h.put (fun _ hk => hk) hb (create_timeField hmovable.container_eq) ?_ rfl rfl
        show (c.entries.get? entryMuid.toBytes).isSome
        rw [hmovable.stored]
        rfl
  | clearance builder c c' hcleared =>
      obtain ⟨container, clearance, -, hm, rfl⟩ := applyClearance_ok hcleared
      refine ⟨h.entries, h.containers, ?_⟩
      intro row hrow
      rcases Table.mem_rows_put.mp hrow with rfl | ⟨-, hrow⟩
      · exact ⟨container, clearance, rfl, create_timeField hm⟩
      · exact h.clearances row hrow

/-- **It holds in every state of every run.** -/
theorem runCalls_retained (lib : Externals) (symmetricKeys : Table Bytes Bytes)
    (retainBundles : Bool) (calls : List Call) :
    Retained (runCalls lib (newStore symmetricKeys retainBundles true) calls).db.contents :=
  runCalls_invariant (fun _ _ _ _ _ _ _ _ hc happlied => Retained.step hc happlied) rfl
    ⟨by simp [newStore], by simp [newStore], by simp [newStore]⟩

end Lmdb

end Gink
