/-
  Gink.Js.IndexedDbPresent — what an `IndexedDbStore` shows of the present, with history and
  without.

  The one entry that a new one replaces is the last of its key up to its own placement, so a
  store without history deletes nothing that was placed later and nothing of another key.
-/
import Gink.Js.KeyedWrites
import Gink.Js.IndexedDbOrdered

namespace Gink

namespace Js

open Gink.Idb (Key Range add index visited lastIn)
open MemoryStore (noteEntry isKeyed storageKeyToString)

namespace IndexedDb

/-! ## §1. All entries of a container. -/

/-- `entry.entryId[0] < asOfTs && entry.entryId[0] >= clearanceTime`. -/
def isTimely (clearanceTime : Int) (asOfTs : Option Int) (entry : Entry) : Bool :=
  asOfTs.all (fun t => decide (entry.entryId.timestamp < t)) &&
    decide (entry.entryId.timestamp ≥ clearanceTime)

/-- The loop of `getKeyedEntries`. -/
def gatherKeyed (desiredSrc : MuidTuple) (clearanceTime : Int) (asOfTs : Option Int) :
    List Entry → Table Str Entry → Except JsError (Table Str Entry)
  | [], result => .ok result
  | entry :: rest, result =>
      if entry.containerId ≠ desiredSrc then .ok result
      else if isKeyed entry.behavior = false then .error ⟨"assert failed"⟩
      else gatherKeyed desiredSrc clearanceTime asOfTs rest
        (if isTimely clearanceTime asOfTs entry then noteEntry result entry else result)

/-- `getKeyedEntries(container, asOf)`; the order of the map's keys is left out. -/
def getKeyedEntries (c : Contents) (trxns : List Int) (container : MuidTuple)
    (asOf : Option Int) : Except JsError (Table Str Entry) := do
  let asOfTs ← resolveAsOf trxns asOf none
  let clearanceTime := getClearanceTime c container asOfTs
  let cursor := (index c.entries Entry.byContainerKeyPlacement).rowsWhere fun k =>
    decide (.array [container.key] ≤ k)
  gatherKeyed container clearanceTime asOfTs (cursor.map Prod.snd) ∅

section
variable {c c' : Contents} {container : MuidTuple} {written : List Entry} {keepingHistory : Bool}

/-- **The loop** notes the timely entries of the container, when all entries there are keyed. -/
theorem gatherKeyed_eq {clearanceTime : Int} {asOfTs : Option Int} (l : List Entry) :
    ∀ result, gatherKeyed container clearanceTime asOfTs l result =
      if (l.takeWhile fun e => decide (e.containerId = container)).all fun e => isKeyed e.behavior
      then .ok (((l.takeWhile fun e => decide (e.containerId = container)).filter
        (isTimely clearanceTime asOfTs)).foldl noteEntry result)
      else .error ⟨"assert failed"⟩ := by
  induction l with
  | nil => exact fun _ => rfl
  | cons e rest ih =>
      intro result
      unfold gatherKeyed
      by_cases hsame : e.containerId = container
      · rw [if_neg (not_not.mpr hsame), List.takeWhile_cons_of_pos (by simpa using hsame)]
        cases hbehavior : isKeyed e.behavior with
        | false => rw [if_pos rfl, List.all_cons, hbehavior, Bool.false_and, if_neg Bool.noConfusion]
        | true =>
            rw [if_neg Bool.noConfusion, ih, List.all_cons, hbehavior, Bool.true_and]
            by_cases htimely : isTimely clearanceTime asOfTs e = true
            · rw [List.filter_cons_of_pos htimely, List.foldl_cons, if_pos htimely]
            · rw [List.filter_cons_of_neg htimely, if_neg htimely]
      · rw [if_pos hsame, List.takeWhile_cons_of_neg (by simpa using hsame)]
        rfl

/-! ## §2. Runs. -/

/-- Entries are told apart by their placements. -/
def PlacedApart (written : List Entry) : Prop :=
  written.Pairwise fun e e' => e.placementId ≠ e'.placementId

/-- The rows stand for all entries that were written, and nothing was cleared. -/
structure Shows (written : List Entry) (c : Contents) : Prop where
  covers : Table.Covers Entry.primary Supersedes written c.entries
  uncleared : c.clearances = ∅

theorem Shows.start : Shows [] {} := ⟨Table.covers_nil, rfl⟩

theorem PlacedApart.eq (h : PlacedApart written) {e e' : Entry} (he : e ∈ written)
    (he' : e' ∈ written) (heq : e.placementId = e'.placementId) : e = e' := by
  by_contra hne
  rcases MemoryStore.either_of_pairwise h he he' hne with hor | hor
  · exact hor heq
  · exact hor heq.symm

/-- The index separates entries placed apart. -/
theorem Shows.separates (h : Shows written c) (hapart : PlacedApart written) :
    Idb.Separates c.entries Entry.byContainerKeyPlacement := by
  intro r hr r' hr' hkey
  refine hapart.eq (h.covers.rows r hr).2 (h.covers.rows r' hr').2 ?_
  unfold Entry.byContainerKeyPlacement at hkey
  simp only [Key.array.injEq, List.cons.injEq, MuidTuple.key_inj, and_true] at hkey
  exact hkey.2.2

/-- The range that a replaced entry is sought in: its key, up to the placement. -/
theorem includes_replaced {e x : Entry} :
    Range.includes ⟨.array [e.containerId.key, e.storageKey.key],
        .array [e.containerId.key, e.storageKey.key, e.placementId.key]⟩
        x.byContainerKeyPlacement = true ↔
      x.containerId = e.containerId ∧ x.storageKey = e.storageKey ∧
        x.placementId.key ≤ e.placementId.key := by
  unfold Range.includes Entry.byContainerKeyPlacement
  simp only [Bool.and_eq_true, decide_eq_true_eq]
  rw [← not_lt, ← not_lt]
  simp only [Key.array_cons_lt, Key.not_array_lt_nil, and_false, or_false, MuidTuple.key_inj,
    StorageKey.key_inj, lt_irrefl]
  constructor
  · intro h
    obtain ⟨hlow, hhigh⟩ := h
    push Not at hlow hhigh
    have hcontainer : x.containerId = e.containerId :=
      MuidTuple.key_injective (le_antisymm hhigh.1 hlow.1)
    have hkey : x.storageKey = e.storageKey :=
      StorageKey.key_injective (le_antisymm (hhigh.2 hcontainer.symm).1 (hlow.2 hcontainer))
    exact ⟨hcontainer, hkey, (hhigh.2 hcontainer.symm).2 hkey.symm⟩
  · intro h
    obtain ⟨hcontainer, hkey, hplacement⟩ := h
    rw [hcontainer, hkey]
    push Not
    exact ⟨⟨le_refl _, fun _ => le_refl _⟩, le_refl _, fun _ => ⟨le_refl _, fun _ => hplacement⟩⟩

/-- What is replaced is of the same key and was placed before. -/
theorem Shows.replaced (h : Shows written c) (hapart : PlacedApart written) {e search : Entry}
    (hfresh : ∀ x ∈ written, x.placementId ≠ e.placementId)
    (hsearch : replacedBy c e = some search) : search ∈ written ∧ Supersedes e search := by
  unfold replacedBy at hsearch
  obtain ⟨⟨p, hrow⟩, hin, -⟩ := (Idb.lastIn_index (h.separates hapart)).mp hsearch
  have hwritten := (h.covers.rows _ hrow).2
  obtain ⟨hcontainer, hkey, hle⟩ := includes_replaced.mp hin
  refine ⟨hwritten, hcontainer.symm, hkey.symm, ?_⟩
  have hne : search.placementId.key ≠ e.placementId.key := fun heq =>
    hfresh search hwritten (MuidTuple.key_injective heq)
  exact MuidTuple.key_lt.mp (lt_of_le_of_ne hle hne)

/-- Replacing drops nothing but what the new entry supersedes. -/
theorem Shows.replaceFound (h : Shows written c) (hapart : PlacedApart written) {e : Entry}
    (hfresh : ∀ x ∈ written, x.placementId ≠ e.placementId)
    (hreplace : replaceFound keepingHistory e c = .ok c') :
    (∀ r ∈ c'.entries.rows, r ∈ c.entries.rows) ∧
      (∀ r ∈ c.entries.rows, r ∈ c'.entries.rows ∨ Supersedes e r.2) ∧
        c'.clearances = c.clearances := by
  unfold IndexedDb.replaceFound at hreplace
  by_cases haccumulates : accumulates e.behavior = true
  · rw [if_pos haccumulates] at hreplace
    rw [← Except.ok.inj hreplace]
    exact ⟨fun _ hr => hr, fun _ hr => Or.inl hr, rfl⟩
  · rw [if_neg haccumulates] at hreplace
    cases hsearch : replacedBy c e with
    | none =>
        simp only [hsearch] at hreplace
        rw [← Except.ok.inj hreplace]
        exact ⟨fun _ hr => hr, fun _ hr => Or.inl hr, rfl⟩
    | some search =>
        simp only [hsearch] at hreplace
        obtain ⟨hwritten, hsupersedes⟩ := h.replaced hapart hfresh hsearch
        cases keepingHistory with
        | true =>
            obtain ⟨removals, -, hkept⟩ := bind_eq_ok.mp hreplace
            rw [← pure_eq_ok.mp hkept]
            exact ⟨fun _ hr => hr, fun _ hr => Or.inl hr, rfl⟩
        | false =>
            rw [← Except.ok.inj hreplace]
            refine ⟨fun r hr => (List.mem_filter.mp hr).1, fun r hr => ?_, rfl⟩
            by_cases hkey : r.1 = search.placementId.key
            · right
              obtain ⟨hprimary, hrow⟩ := h.covers.rows r hr
              rw [hkey] at hprimary
              rwa [← hapart.eq hwritten hrow (MuidTuple.key_injective hprimary)]
            · exact Or.inl (List.mem_filter.mpr ⟨hr, by simpa using hkey⟩)

/-- **One change.** -/
theorem Shows.applyChange (h : Shows written c) {op : Op} (hkeyed : IsKeyedChange op.change)
    (hapart : PlacedApart (written ++ (recordOf buildEntry op).toList))
    (happlied : applyChange keepingHistory op.info op.offset c op.change = .ok c') :
    Shows (written ++ (recordOf buildEntry op).toList) c' := by
  unfold recordOf at *
  cases hchange : op.change with
  | container container =>
      rw [hchange] at happlied
      obtain ⟨containers, -, happlied⟩ := bind_eq_ok.mp happlied
      rw [← pure_eq_ok.mp happlied]
      simp only [Option.toList_none, List.append_nil]
      exact ⟨h.covers, h.uncleared⟩
  | entry builder =>
      simp only [hchange] at happlied hapart
      obtain ⟨e, hbuild, happlied⟩ := bind_eq_ok.mp happlied
      obtain ⟨c1, hreplace, happlied⟩ := bind_eq_ok.mp happlied
      obtain ⟨entries, hadd, happlied⟩ := bind_eq_ok.mp happlied
      have hrecord : (buildEntry builder op.info op.offset).toOption = some e := by
        rw [hbuild]
        rfl
      simp only [hrecord, Option.toList_some] at hapart ⊢
      obtain ⟨hpast, -, hcross⟩ := List.pairwise_append.mp hapart
      have hfresh : ∀ x ∈ written, x.placementId ≠ e.placementId := fun x hx =>
        hcross x hx e (List.mem_singleton.mpr rfl)
      obtain ⟨hkept, hdropped, hclearances⟩ := h.replaceFound hpast hfresh hreplace
      obtain ⟨hnone, hput⟩ := addRecord_ok hadd
      rw [← pure_eq_ok.mp happlied, hput]
      refine ⟨h.covers.write Supersedes.trans hkept hdropped ?_, hclearances.trans h.uncleared⟩
      intro r hr hkey
      exact absurd hkey (Table.get?_eq_none_iff.mp hnone r hr)
  | movement movement =>
      rw [hchange] at hkeyed
      exact absurd hkeyed id
  | clearance clearance =>
      rw [hchange] at hkeyed
      exact absurd hkeyed id
  | unset =>
      rw [hchange] at hkeyed
      exact absurd hkeyed id

/-- **One bundle.** -/
theorem Shows.applyChangesFrom {info : BundleInfo} {changes : List ChangeBuilder} :
    ∀ {offset : Nat} {written : List Entry} {c : Contents}, Shows written c →
      (∀ op ∈ opsFrom info offset changes, IsKeyedChange op.change) →
      PlacedApart (written ++ (opsFrom info offset changes).filterMap (recordOf buildEntry)) →
      applyChangesFrom keepingHistory info offset changes c = .ok c' →
      Shows (written ++ (opsFrom info offset changes).filterMap (recordOf buildEntry)) c' := by
  induction changes with
  | nil =>
      intro offset written c h _ _ happlied
      rw [← Except.ok.inj happlied]
      simpa using h
  | cons change rest ih =>
      intro offset written c h hkeyed hapart happlied
      obtain ⟨c1, hone, hrest⟩ := bind_eq_ok.mp happlied
      rw [recordsOf_cons, ← List.append_assoc] at hapart ⊢
      have hfirst : Shows (written ++ (recordOf buildEntry ⟨info, offset, change⟩).toList) c1 :=
        @Shows.applyChange c c1 written keepingHistory h ⟨info, offset, change⟩
          (hkeyed _ List.mem_cons_self) (List.pairwise_append.mp hapart).1 hone
      exact ih hfirst (fun op hop => hkeyed op (List.mem_cons_of_mem _ hop)) hapart hrest

/-- **A run** leaves rows that stand for all entries written. -/
theorem History.shows {history : List OpenBundle} (h : History keepingHistory history c)
    (hkeyed : KeyedHistory history) (hapart : PlacedApart (recordsOf buildEntry history)) :
    Shows (recordsOf buildEntry history) c := by
  induction h with
  | start => exact Shows.start
  | @next past c c' b _ happlied ih =>
      have hops : allOps (past ++ [b]) = allOps past ++ b.ops := by simp [allOps]
      rw [recordsOf_append] at hapart ⊢
      have hpast := ih (fun op hop => hkeyed op (hops ▸ List.mem_append_left _ hop))
        (List.pairwise_append.mp hapart).1
      exact Shows.applyChangesFrom hpast
        (fun op hop => hkeyed op (hops ▸ List.mem_append_right _ hop)) hapart happlied

/-! ## §3. Reads of the present. -/

/-- The index has rows for all entries too. -/
theorem Shows.indexed (h : Shows written c) (hapart : PlacedApart written) :
    Table.Covers Entry.byContainerKeyPlacement Supersedes written
      (index c.entries Entry.byContainerKeyPlacement) := by
  have hseparates := h.separates hapart
  constructor
  · intro r hr
    obtain ⟨hkey, p, hp⟩ := (Idb.mem_index hseparates).mp hr
    exact ⟨hkey, (h.covers.rows _ hp).2⟩
  · intro e he
    rcases h.covers.kept e he with hrow | ⟨e', hrow, hsup⟩
    · exact Or.inl ((Idb.mem_index hseparates).mpr ⟨rfl, _, hrow⟩)
    · exact Or.inr ⟨e', (Idb.mem_index hseparates).mpr ⟨rfl, _, hrow⟩, hsup⟩

theorem Supersedes.above {e e' : Entry} (h : Supersedes e' e) :
    e.byContainerKeyPlacement ≤ e'.byContainerKeyPlacement := by
  have hlt : e.placementId.key < e'.placementId.key := MuidTuple.key_lt.mpr h.later
  unfold Entry.byContainerKeyPlacement
  rw [← not_lt, h.container, h.key]
  simp [hlt.le]

/-- The entries of the container, in the order of the index. -/
theorem gathered_of_keys (hkeys : ∀ r ∈ (index c.entries Entry.byContainerKeyPlacement).rows,
    r.1 = Entry.byContainerKeyPlacement r.2) :
    ((((index c.entries Entry.byContainerKeyPlacement).rowsWhere fun k =>
      decide (.array [container.key] ≤ k)).map Prod.snd).takeWhile fun e =>
        decide (e.containerId = container)) =
      ((index c.entries Entry.byContainerKeyPlacement).rows.filter fun r =>
        decide (r.2.containerId = container)).map Prod.snd := by
  have hlower : ∀ e : Entry, .array [container.key] ≤ e.byContainerKeyPlacement ↔
      container.key ≤ e.containerId.key := by
    intro e
    unfold Entry.byContainerKeyPlacement
    rw [← not_lt, ← not_lt]
    simp
  have hstart : ((index c.entries Entry.byContainerKeyPlacement).rowsWhere fun k =>
      decide (.array [container.key] ≤ k)).Pairwise fun a b =>
        decide (b.2.containerId = container) = true → decide (a.2.containerId = container) = true := by
    refine List.pairwise_iff_forall_sublist.mpr ?_
    intro a b hsub hb
    have hsorted := List.pairwise_iff_forall_sublist.mp (Table.rowsWhere_sorted _ _) hsub
    obtain ⟨ha, hle⟩ := Table.mem_rowsWhere.mp (hsub.subset List.mem_cons_self)
    have hbrow := (Table.mem_rowsWhere.mp (hsub.subset (List.mem_cons_of_mem _
      List.mem_cons_self))).1
    rw [decide_eq_true_eq] at hb ⊢
    have hle := of_decide_eq_true hle
    rw [hkeys a ha, hlower] at hle
    rw [hkeys a ha, hkeys b hbrow] at hsorted
    unfold Entry.byContainerKeyPlacement at hsorted
    rw [Key.array_cons_lt, hb] at hsorted
    -- between the lower bound and an entry of the container there are only such
    rcases hsorted with hlt | ⟨heq, -⟩
    · exact absurd hlt (not_lt.mpr hle)
    · exact MuidTuple.key_injective heq
  rw [List.takeWhile_map]
  congr 1
  show List.takeWhile (fun r : Key × Entry => decide (r.2.containerId = container)) _ = _
  rw [MemoryStore.takeWhile_eq_filter hstart]
  unfold Table.rowsWhere
  rw [List.filter_filter]
  refine List.filter_congr fun r hr => ?_
  by_cases hsame : r.2.containerId = container
  · have hle : Key.array [container.key] ≤ r.1 := by
      rw [hkeys r hr, hlower, hsame]
    simp [hsame, hle]
  · simp [hsame]

theorem gathered_rows (h : Shows written c) (hapart : PlacedApart written) :
    ((((index c.entries Entry.byContainerKeyPlacement).rowsWhere fun k =>
      decide (.array [container.key] ≤ k)).map Prod.snd).takeWhile fun e =>
        decide (e.containerId = container)) =
      ((index c.entries Entry.byContainerKeyPlacement).rows.filter fun r =>
        decide (r.2.containerId = container)).map Prod.snd :=
  gathered_of_keys fun r hr => ((h.indexed hapart).rows r hr).1

/-- **Stores that show the same entries** read the present alike. -/
theorem Shows.reads_eq (h : Shows written c) (h' : Shows written c') (hapart : PlacedApart written)
    (hkeyed : ∀ e ∈ written, ∀ e' ∈ written, Supersedes e' e →
      isKeyed e'.behavior = isKeyed e.behavior)
    (hdated : ∀ e ∈ written, 0 ≤ e.entryId.timestamp) (trxns trxns' : List Int) :
    (∀ key : StorageKey, getEntryByKey c trxns container key none =
      getEntryByKey c' trxns' container key none) ∧
    getKeyedEntries c trxns container none = getKeyedEntries c' trxns' container none := by
  have hup : ∀ e ∈ written, ∀ e' ∈ written, Supersedes e' e →
      e.byContainerKeyPlacement ≤ e'.byContainerKeyPlacement := fun _ _ _ _ hsup =>
    Supersedes.above hsup
  have hinj : ∀ e ∈ written, ∀ e' ∈ written,
      e.byContainerKeyPlacement = e'.byContainerKeyPlacement → e = e' := by
    intro e he e' he' hkey
    refine hapart.eq he he' ?_
    unfold Entry.byContainerKeyPlacement at hkey
    simp only [Key.array.injEq, List.cons.injEq, MuidTuple.key_inj, and_true] at hkey
    exact hkey.2.2
  have hi := h.indexed hapart
  have hi' := h'.indexed hapart
  have hclearance : getClearanceTime c container none = getClearanceTime c' container none := by
    unfold getClearanceTime
    rw [h.uncleared, h'.uncleared]
  constructor
  · intro key
    have hpassed : Table.PassedOn Entry.byContainerKeyPlacement Supersedes written
        (fun r => Range.includes ⟨.array [container.key],
          .array [container.key, key.key, .array [timeKey none]]⟩ r.1) := by
      intro e _ e' _ hsup hin
      rw [includes_lookup] at hin ⊢
      rw [hsup.container, hsup.key]
      exact ⟨hin.1, hin.2.imp_right fun hsame => ⟨hsame.1, fun t ht => by cases ht⟩⟩
    have hlast : lastIn (index c.entries Entry.byContainerKeyPlacement) ⟨.array [container.key],
          .array [container.key, key.key, .array [timeKey none]]⟩ =
        lastIn (index c'.entries Entry.byContainerKeyPlacement) ⟨.array [container.key],
          .array [container.key, key.key, .array [timeKey none]]⟩ := by
      unfold lastIn Table.lastWhere Table.rowsWhere
      rw [hi.last_eq hi' hup hinj hpassed]
    show getEntryByKey c trxns container key none = getEntryByKey c' trxns' container key none
    unfold getEntryByKey resolveAsOf
    simp only [bind, Except.bind]
    rw [hlast, hclearance]
  · have hrow : ∀ p : Entry → Bool, (∀ e ∈ written, ∀ e' ∈ written, Supersedes e' e →
        p e = true → p e' = true) → Table.PassedOn Entry.byContainerKeyPlacement Supersedes written
          fun r => p r.2 := fun p hp e he e' he' hsup htest => hp e he e' he' hsup htest
    have hall : (((index c.entries Entry.byContainerKeyPlacement).rows.filter fun r =>
          decide (r.2.containerId = container)).map Prod.snd).all (fun e => isKeyed e.behavior) =
        (((index c'.entries Entry.byContainerKeyPlacement).rows.filter fun r =>
          decide (r.2.containerId = container)).map Prod.snd).all fun e => isKeyed e.behavior := by
      have hpassed := hrow (fun e => !isKeyed e.behavior && decide (e.containerId = container))
        fun e he e' he' hsup htest => by
          rw [hkeyed e he e' he' hsup, hsup.container]
          exact htest
      have hsome := Iff.intro (hi.exists_of_exists hi' hpassed) (hi'.exists_of_exists hi hpassed)
      rw [Bool.eq_iff_iff, ← not_iff_not]
      simpa [and_comm] using hsome
    have hnoted : (((index c.entries Entry.byContainerKeyPlacement).rows.filter fun r =>
          decide (r.2.containerId = container)).filter fun r => isTimely 0 none r.2).foldl
            (fun result r => noteEntry result r.2) ∅ =
        (((index c'.entries Entry.byContainerKeyPlacement).rows.filter fun r =>
          decide (r.2.containerId = container)).filter fun r => isTimely 0 none r.2).foldl
            (fun result r => noteEntry result r.2) ∅ := by
      refine noted_eq fun k => ?_
      rw [List.filter_filter, List.filter_filter, List.filter_filter, List.filter_filter]
      refine hi.last_eq hi' hup hinj (hrow (fun e => decide (storageKeyToString e.storageKey = k) &&
        isTimely 0 none e && decide (e.containerId = container)) ?_)
      intro e he e' he' hsup htest
      have htimely : isTimely 0 none e' = true := by simpa [isTimely] using hdated e' he'
      rw [Bool.and_eq_true, Bool.and_eq_true] at htest
      rw [hsup.key, hsup.container, htimely, htest.1.1, htest.2]
      rfl
    have hzero : getClearanceTime c container none = 0 := by
      unfold getClearanceTime
      rw [h.uncleared]
      rfl
    unfold getKeyedEntries resolveAsOf
    simp only [bind, Except.bind]
    rw [gatherKeyed_eq, gatherKeyed_eq, ← hclearance, hzero, gathered_rows h hapart,
      gathered_rows h' hapart, hall]
    rw [List.filter_map, List.filter_map, List.foldl_map, List.foldl_map]
    split_ifs
    · exact congrArg Except.ok hnoted
    · rfl

end

end IndexedDb

end Js

end Gink
