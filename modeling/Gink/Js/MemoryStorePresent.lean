/-
  Gink.Js.MemoryStorePresent — what a `MemoryStore` shows of the present, with history and
  without.

  To make room for an entry, a store without history erases every row whose key starts with
  the container and the text of the entry's key.  Where these are rows of the same key that
  were placed before, no read of the present misses them.
-/
import Gink.Js.KeyedWrites

namespace Gink

namespace Js

namespace MemoryStore

variable {c c' : Contents} {walks : Walks} {keepingHistory : Bool} {written : List Entry}

/-! ## §1. Rows that are erased. -/

/-- What the keys of the rows start with that an entry makes room in. -/
def sweptStart (e : Entry) : Str :=
  muidTupleToString e.containerId ++ comma ++ storageKeyToString e.storageKey

/-- An entry only sweeps rows of its own key that were placed before it. -/
def SweepsOwn (older newer : Entry) : Prop :=
  sweptStart newer <+: placementKey older → Supersedes newer older

/-- A walk erases no rows but those it can get to. -/
def Walks.StayInRange (walks : Walks) : Prop := ∀ found k, k ∈ walks.backwards found → k ∈ found

theorem sweptStart_of_key_eq {e x : Entry} (h : placementKey x = placementKey e) :
    sweptStart e <+: placementKey x := by
  rw [h]
  exact ⟨comma ++ muidTupleToString e.placementId, by simp [placementKey, sweptStart]⟩

theorem mem_of_mem_erasing {V : Type} (ks : List Str) {table : Table Str V} {r : Str × V}
    (h : r ∈ table.rows) : r ∈ (ks.foldl Table.erase table).rows ∨ r.1 ∈ ks := by
  induction ks generalizing table with
  | nil => exact Or.inl h
  | cons k rest ih =>
      by_cases hk : r.1 = k
      · exact Or.inr (hk ▸ List.mem_cons_self)
      · have hrow : r ∈ (table.erase k).rows := List.mem_filter.mpr ⟨h, by simpa using hk⟩
        rcases ih hrow with hstays | herased
        · exact Or.inl hstays
        · exact Or.inr (List.mem_cons_of_mem _ herased)

theorem startsWith_of_mem_backFrom {V : Type} {table : Table Str V} {pre suffix : Str}
    {r : Str × V} (h : r ∈ backFrom table pre suffix) : pre <+: r.1 := by
  unfold backFrom at h
  exact List.isPrefixOf_iff_prefix.mp
    (List.mem_takeWhile_imp (p := fun r : Str × V => pre.isPrefixOf r.1) h)

/-- Making room for an entry drops nothing but rows that it sweeps. -/
theorem makeRoom_drops (hwalks : walks.StayInRange) (purging : Bool) (e : Entry) (c : Contents) :
    (∀ r ∈ (makeRoom walks keepingHistory purging e c).placements.rows, r ∈ c.placements.rows) ∧
      ∀ r ∈ c.placements.rows, r ∈ (makeRoom walks keepingHistory purging e c).placements.rows ∨
        sweptStart e <+: r.1 := by
  unfold makeRoom
  dsimp only
  split_ifs
  · exact ⟨fun _ hr => hr, fun _ hr => Or.inl hr⟩
  · refine ⟨fun r hr => mem_of_mem_erased _ hr, fun r hr => ?_⟩
    rcases mem_of_mem_erasing (walks.backwards ((backFrom c.placements (sweptStart e) tilde).map
      Prod.fst)) hr with hstays | herased
    · exact Or.inl hstays
    · obtain ⟨row, hrow, hkey⟩ := List.mem_map.mp (hwalks _ _ herased)
      exact Or.inr (hkey ▸ startsWith_of_mem_backFrom hrow)
  · exact ⟨fun _ hr => hr, fun _ hr => Or.inl hr⟩

/-! ## §2. Runs. -/

/-- The rows stand for all entries that were written, and nothing was cleared. -/
structure Shows (written : List Entry) (c : Contents) : Prop where
  covers : Table.Covers placementKey Supersedes written c.placements
  uncleared : c.clearances = ∅

theorem Shows.start : Shows [] {} := ⟨Table.covers_nil, rfl⟩

/-- **One entry** more. -/
theorem Shows.addEntry (h : Shows written c) (hwalks : walks.StayInRange) {e : Entry}
    {purging : Bool} (hsweeps : ∀ x ∈ written, SweepsOwn x e)
    (hadd : addEntry walks keepingHistory purging e c = .ok c') : Shows (written ++ [e]) c' := by
  unfold MemoryStore.addEntry at hadd
  dsimp only at hadd
  split_ifs at hadd
  rw [← Except.ok.inj hadd]
  obtain ⟨hkept, hdropped⟩ := @makeRoom_drops walks keepingHistory hwalks purging e c
  have hswept : ∀ r ∈ c.placements.rows, sweptStart e <+: r.1 → Supersedes e r.2 := by
    intro r hr hstart
    obtain ⟨hkey, hwritten⟩ := h.covers.rows r hr
    exact hsweeps r.2 hwritten (hkey ▸ hstart)
  constructor
  · refine h.covers.write Supersedes.trans hkept ?_ ?_
    · exact fun r hr => (hdropped r hr).imp_right (hswept r hr)
    · intro r hr hkey
      have hrow := hkept r hr
      refine hswept r hrow ?_
      rw [(h.covers.rows r hrow).1] at hkey ⊢
      exact sweptStart_of_key_eq hkey
  · show (makeRoom walks keepingHistory purging e c).clearances = ∅
    unfold makeRoom
    dsimp only
    split_ifs <;> exact h.uncleared

/-- **One change.** -/
theorem Shows.applyChange (h : Shows written c) (hwalks : walks.StayInRange) {op : Op}
    (hkeyed : IsKeyedChange op.change)
    (hsweeps : ∀ e, recordOf buildEntry op = some e → ∀ x ∈ written, SweepsOwn x e)
    (happlied : applyChange walks keepingHistory op.info op.offset c op.change = .ok c') :
    Shows (written ++ (recordOf buildEntry op).toList) c' := by
  unfold recordOf at *
  cases hchange : op.change with
  | container container =>
      rw [hchange] at happlied
      rw [← Except.ok.inj happlied]
      simp only [Option.toList_none, List.append_nil]
      exact ⟨h.covers, h.uncleared⟩
  | entry builder =>
      simp only [hchange] at happlied hsweeps
      obtain ⟨e, hbuild, hadd⟩ := bind_eq_ok.mp happlied
      have hrecord : (buildEntry builder op.info op.offset).toOption = some e := by
        rw [hbuild]
        rfl
      simp only [hrecord, Option.toList_some]
      exact h.addEntry hwalks (hsweeps e hrecord) hadd
  | movement movement =>
      rw [hchange] at hkeyed
      exact absurd hkeyed id
  | clearance clearance =>
      rw [hchange] at hkeyed
      exact absurd hkeyed id
  | unset =>
      rw [hchange] at hkeyed
      exact absurd hkeyed id

/-- **One bundle.** -/
theorem Shows.applyChangesFrom (hwalks : walks.StayInRange) {info : BundleInfo}
    {changes : List ChangeBuilder} :
    ∀ {offset : Nat} {written : List Entry} {c : Contents}, Shows written c →
      (∀ op ∈ opsFrom info offset changes, IsKeyedChange op.change) →
      (written ++ (opsFrom info offset changes).filterMap (recordOf buildEntry)).Pairwise SweepsOwn →
      applyChangesFrom walks keepingHistory info offset changes c = .ok c' →
      Shows (written ++ (opsFrom info offset changes).filterMap (recordOf buildEntry)) c' := by
  induction changes with
  | nil =>
      intro offset written c h _ _ happlied
      rw [← Except.ok.inj happlied]
      simpa using h
  | cons change rest ih =>
      intro offset written c h hkeyed hsweeps happlied
      obtain ⟨c1, hone, hrest⟩ := bind_eq_ok.mp happlied
      rw [recordsOf_cons, ← List.append_assoc] at hsweeps ⊢
      have hfirst : Shows (written ++ (recordOf buildEntry ⟨info, offset, change⟩).toList) c1 := by
        refine @Shows.applyChange c c1 walks keepingHistory written h hwalks
          ⟨info, offset, change⟩ (hkeyed _ List.mem_cons_self) ?_ hone
        intro e hrecord x hx
        have hpair := (List.pairwise_append.mp hsweeps).1
        rw [hrecord] at hpair
        exact (List.pairwise_append.mp hpair).2.2 x hx e (List.mem_singleton.mpr rfl)
      exact ih hfirst (fun op hop => hkeyed op (List.mem_cons_of_mem _ hop)) hsweeps hrest

/-- **A run** leaves rows that stand for all entries written. -/
theorem History.shows {history : List OpenBundle} (h : History walks keepingHistory history c)
    (hwalks : walks.StayInRange) (hkeyed : KeyedHistory history)
    (hsweeps : (recordsOf buildEntry history).Pairwise SweepsOwn) :
    Shows (recordsOf buildEntry history) c := by
  induction h with
  | start => exact Shows.start
  | @next past c c' b _ happlied ih =>
      have hops : allOps (past ++ [b]) = allOps past ++ b.ops := by simp [allOps]
      rw [recordsOf_append] at hsweeps ⊢
      have hpast := ih (fun op hop => hkeyed op (hops ▸ List.mem_append_left _ hop))
        (List.pairwise_append.mp hsweeps).1
      exact Shows.applyChangesFrom hwalks hpast
        (fun op hop => hkeyed op (hops ▸ List.mem_append_right _ hop)) hsweeps happlied

/-! ## §3. Tests that are passed on. -/

variable {e e' : Entry} {container : MuidTuple} {key : StorageKey} {now : Int}

/-- The records of a history that fits have addresses. -/
theorem stands_of_record {history : List OpenBundle} (hfits : Fitting history) {e : Entry}
    (h : e ∈ recordsOf buildEntry history) : Stands e := by
  obtain ⟨op, hop, hrecord⟩ := List.mem_filterMap.mp h
  obtain ⟨builder, hchange, hbuild⟩ := recordOf_eq_some hrecord
  obtain ⟨-, hkey, hentry, hplacement⟩ := memoryStore_buildsRecords _ _ _ _ hbuild
  obtain ⟨lists, -, h1⟩ := bind_eq_ok.mp hbuild
  obtain ⟨container, hcontainer, h2⟩ := bind_eq_ok.mp h1
  obtain ⟨key, -, h3⟩ := bind_eq_ok.mp h2
  have hdated := (hfits op hop).address
  refine ⟨?_, (hfits op hop).key builder e.storageKey hchange hkey, hentry ▸ hdated,
    hplacement ▸ hdated⟩
  rw [← pure_eq_ok.mp h3]
  exact (hfits op hop).container builder container hchange hcontainer

/-- What supersedes an entry has a row above it. -/
theorem Supersedes.above (h : Supersedes e' e) (he : Stands e) (he' : Stands e') :
    placementKey e < placementKey e' := by
  rw [← not_le, placementKey_le_of_key h.container h.key, not_le]
  exact (spelling_lt he.placement.muid he'.placement.muid).mpr h.later

/-- Records that only sweep their own have different rows. -/
theorem eq_of_placementKey_eq (hsweeps : written.Pairwise SweepsOwn)
    (hstands : ∀ e ∈ written, Stands e) (he : e ∈ written) (he' : e' ∈ written)
    (h : placementKey e = placementKey e') : e = e' := by
  by_contra hne
  have hsymm : ∀ x y, placementKey x = placementKey y → x ∈ written → y ∈ written →
      ¬ SweepsOwn x y := by
    intro x y hxy hx hy hsweep
    have habove := Supersedes.above (hsweep (sweptStart_of_key_eq hxy)) (hstands x hx) (hstands y hy)
    rw [hxy] at habove
    exact lt_irrefl _ habove
  rcases either_of_pairwise hsweeps he he' hne with hor | hor
  · exact hsymm e e' h he he' hor
  · exact hsymm e' e h.symm he' he hor

/-- A muid has a dash behind its first place. -/
theorem dash_mem_tail {t : Int} (ht : 0 < t ∧ t < 16 ^ 13) :
    (45 : Int) ∈ (muidTupleToString ⟨t, 0, 0⟩).tail := by
  have hmuid := isMuid_time ⟨ht.1.le, ht.2⟩
  have hlength : (intToHex t 13).length = 13 := length_intToHex (by omega) ht.1.le ht.2
  rw [hmuid.isAddress.spelling]
  cases hfront : intToHex t 13 with
  | nil => simp [hfront] at hlength
  | cons u front => simp

/-- Whether the row of a pair is within the bound of a number that begins it is decided
before the placement. -/
theorem pair_le_bound {t : Int} (ht : 0 < t ∧ t < 16 ^ 13) {left rite : MuidTuple}
    (hpair : e.storageKey = .pair left rite) :
    placementKey e ≤ keyStart e.containerId (.number left.timestamp) ++
        muidTupleToString ⟨t, 0, 0⟩ ↔
      ¬ muidTupleToString ⟨t, 0, 0⟩ < decimal left.medallion ++ comma := by
  have hkey : placementKey e = keyStart e.containerId (.number left.timestamp) ++
      ((decimal left.medallion ++ comma) ++ (joined [left.offset, rite.timestamp, rite.medallion,
        rite.offset] ++ 44 :: muidTupleToString e.placementId)) := by
    unfold placementKey
    rw [hpair, pair_text]
    simp [keyStart, comma, storageKeyToString, joined]
  -- the time has a dash where a number has none, the number ends with a comma
  have hleft : ¬ muidTupleToString ⟨t, 0, 0⟩ <+: decimal left.medallion ++ comma := by
    intro hpre
    obtain ⟨rest, hrest⟩ := hpre
    have hdash : (45 : Int) ∈ (decimal left.medallion ++ comma).tail := by
      rw [← hrest, List.tail_append_of_ne_nil
        (List.ne_nil_of_mem (List.mem_of_mem_tail (dash_mem_tail ht)))]
      exact List.mem_append_left _ (dash_mem_tail ht)
    rw [List.tail_append_of_ne_nil (decimal_ne_nil _), List.mem_append] at hdash
    rcases hdash with hin | hin
    · exact dash_not_mem_tail hin
    · simp [comma] at hin
  have hright : ¬ decimal left.medallion ++ comma <+: muidTupleToString ⟨t, 0, 0⟩ := by
    intro hpre
    exact comma_not_spelled (List.IsPrefix.subset hpre (List.mem_append_right _ (by simp [comma])))
  have hdiverge := Idb.Key.append_lt_append_of_diverge hleft hright []
    (joined [left.offset, rite.timestamp, rite.medallion, rite.offset] ++
      44 :: muidTupleToString e.placementId)
  rw [List.append_nil] at hdiverge
  rw [hkey, ← not_lt, Idb.Key.append_lt_append_left, hdiverge]

/-- The row is found with the key: it starts with container and key and is within the bound. -/
def isFound (container : MuidTuple) (key : StorageKey) (t : Int) (r : Str × Entry) : Bool :=
  (keyStart container key).isPrefixOf r.1 &&
    decide (r.1 ≤ keyStart container key ++ muidTupleToString ⟨t, 0, 0⟩)

/-- A seek finds the last such row. -/
theorem seek_eq_getLast? (c : Contents) (container : MuidTuple) (key : StorageKey) (t : Int) :
    toLastWithPrefixBeforeSuffix c.placements (keyStart container key)
        (muidTupleToString ⟨t, 0, 0⟩) =
      (c.placements.rows.filter (isFound container key t)).getLast? := by
  have hmem : ∀ r, r ∈ c.placements.rows.filter (isFound container key t) ↔
      r ∈ c.placements.rows ∧ keyStart container key <+: r.1 ∧
        r.1 ≤ keyStart container key ++ muidTupleToString ⟨t, 0, 0⟩ := by
    intro r
    unfold isFound
    rw [List.mem_filter, Bool.and_eq_true, List.isPrefixOf_iff_prefix, decide_eq_true_eq]
  cases hseek : toLastWithPrefixBeforeSuffix c.placements (keyStart container key)
      (muidTupleToString ⟨t, 0, 0⟩) with
  | none =>
      symm
      rw [List.getLast?_eq_none_iff, List.eq_nil_iff_forall_not_mem]
      intro r hr
      obtain ⟨hrow, hstarts, hle⟩ := (hmem r).mp hr
      obtain ⟨found, hfound, -⟩ := toLast_isSome hrow hstarts hle
      rw [hseek] at hfound
      cases hfound
  | some r =>
      obtain ⟨hrow, hstarts⟩ := toLast_eq_some hseek
      obtain ⟨hle, hmax⟩ := toLast_last hseek
      have hr := (hmem r).mpr ⟨hrow, hstarts, hle⟩
      obtain ⟨last, hlast⟩ := Option.isSome_iff_exists.mp
        (List.getLast?_isSome.mpr (List.ne_nil_of_mem hr))
      obtain ⟨hrow', -, hle'⟩ := (hmem last).mp (List.mem_of_getLast? hlast)
      have hge := Table.le_getLast?_of_mem (c.placements.sorted.filter _) hlast hr
      have hkey : r.1 = last.1 := le_antisymm hge (hmax last hrow' hle')
      rw [hlast, Prod.ext hkey (Table.eq_of_mem_of_mem (hkey ▸ hrow) hrow')]

/-- A seek that finds an entry's row also finds that of what supersedes it. -/
theorem isFound_passedOn (hnow : 0 < now ∧ now < 16 ^ 13) (hnamed : Named container)
    (hkey : key.Named) (hstands : ∀ e ∈ written, Stands e)
    (hclock : ∀ e ∈ written, e.placementId.timestamp < now) :
    Table.PassedOn placementKey Supersedes written (isFound container key now) := by
  intro e he e' he' hsupersedes hfound
  unfold isFound at hfound ⊢
  rw [Bool.and_eq_true, List.isPrefixOf_iff_prefix, decide_eq_true_eq] at hfound ⊢
  obtain ⟨hstarts, hle⟩ := hfound
  have hcases := (keyStart_prefix_iff hnamed hkey (hstands e he)).mp hstarts
  rw [← hsupersedes.container, ← hsupersedes.key] at hcases
  refine ⟨(keyStart_prefix_iff hnamed hkey (hstands e' he')).mpr hcases, ?_⟩
  obtain ⟨rfl, rfl | ⟨left, rite, hpair, rfl⟩⟩ := hcases
  · exact (placementKey_le_bound hnow (hstands e' he')).mpr (hclock e' he')
  · rw [pair_le_bound hnow hpair]
    rw [hsupersedes.container, pair_le_bound hnow (hsupersedes.key ▸ hpair)] at hle
    exact hle

/-- In a container that was never cleared a row is kept like that of what supersedes it. -/
theorem isKept_passedOn (hnow : 0 < now ∧ now < 16 ^ 13) (hstands : ∀ e ∈ written, Stands e)
    (hclock : ∀ e ∈ written, e.placementId.timestamp < now) (huncleared : c.clearances = ∅)
    {p : Entry → Bool}
    (hp : ∀ e ∈ written, ∀ e' ∈ written, Supersedes e' e → p e = true → p e' = true) :
    Table.PassedOn placementKey Supersedes written
      (fun r => p r.2 && isKept c container now r) := by
  intro e he e' he' hsupersedes hkept
  rw [Bool.and_eq_true, isKept_iff] at hkept ⊢
  obtain ⟨hholds, hsame, -, -⟩ := hkept
  have hplacement := (hstands e' he').placement
  have hzero : getLastClearanceTime c (muidTupleToString container) now = 0 := by
    unfold getLastClearanceTime
    rw [huncleared]
    rfl
  refine ⟨hp e he e' he' hsupersedes hholds, ?_, ?_, ?_⟩
  · show muidTupleToString container = muidTupleToString e'.containerId
    rw [hsupersedes.container]
    exact hsame
  · show ¬ muidTupleToString e'.placementId < _
    rw [hzero, spelling_lt_time hplacement.muid ⟨le_refl _, by norm_num⟩, not_lt]
    exact hplacement.muid.timestamp.1
  · show ¬ muidTupleToString ⟨now, 0, 0⟩ < muidTupleToString e'.placementId
    rw [time_lt_spelling hplacement.muid hplacement.offset ⟨hnow.1.le, hnow.2⟩, not_le]
    exact hclock e' he'

/-! ## §4. Reads of the present. -/

/-- **Stores that show the same entries** read the present alike. -/
theorem Shows.reads_eq (h : Shows written c) (h' : Shows written c') (hc : Spelled c)
    (hc' : Spelled c') (hsweeps : written.Pairwise SweepsOwn)
    (hstands : ∀ e ∈ written, Stands e) (hnow : 0 < now ∧ now < 16 ^ 13)
    (hclock : ∀ e ∈ written, e.placementId.timestamp < now)
    (hkeyed : ∀ e ∈ written, ∀ e' ∈ written, Supersedes e' e →
      isKeyed e'.behavior = isKeyed e.behavior)
    (hnamed : Named container) (trxns trxns' : List Int) :
    (∀ key : StorageKey, key.Named → getEntryByKey c trxns now container key none =
      getEntryByKey c' trxns' now container key none) ∧
    getKeyedEntries c trxns now container none = getKeyedEntries c' trxns' now container none := by
  have hup : ∀ e ∈ written, ∀ e' ∈ written, Supersedes e' e → placementKey e ≤ placementKey e' :=
    fun e he e' he' hsup => (Supersedes.above hsup (hstands e he) (hstands e' he')).le
  have hinj : ∀ e ∈ written, ∀ e' ∈ written, placementKey e = placementKey e' → e = e' :=
    fun e he e' he' heq => eq_of_placementKey_eq hsweeps hstands he he' heq
  have hclearance : ∀ s, getLastClearanceTime c s now = getLastClearanceTime c' s now := by
    intro s
    unfold getLastClearanceTime
    rw [h.uncleared, h'.uncleared]
  have hkept : isKept c container now = isKept c' container now := by
    funext r
    unfold isKept
    rw [hclearance]
  constructor
  · intro key hkey
    have hpassed := isFound_passedOn hnow hnamed hkey hstands hclock
    rw [getEntryByKey_of_seek (t := now) rfl, getEntryByKey_of_seek (t := now) rfl,
      seek_eq_getLast?, seek_eq_getLast?, h.covers.last_eq h'.covers hup hinj hpassed, hclearance]
  · rw [getKeyedEntries_noted hc hnamed (t := now) rfl, getKeyedEntries_noted hc' hnamed (t := now) rfl]
    unfold noteAll
    have hall : ((keptRows c container now).all fun r => isKeyed r.2.behavior) =
        (keptRows c' container now).all fun r => isKeyed r.2.behavior := by
      have hpassed : Table.PassedOn placementKey Supersedes written
          (fun r => !isKeyed r.2.behavior && isKept c container now r) := by
        refine isKept_passedOn (p := fun e => !isKeyed e.behavior) hnow hstands hclock h.uncleared ?_
        intro e he e' he' hsup hother
        rw [hkeyed e he e' he' hsup]
        exact hother
      have hsome : (∃ r ∈ c.placements.rows, (!isKeyed r.2.behavior && isKept c container now r) = true) ↔
          ∃ r ∈ c'.placements.rows, (!isKeyed r.2.behavior && isKept c container now r) = true :=
        ⟨h.covers.exists_of_exists h'.covers hpassed, h'.covers.exists_of_exists h.covers hpassed⟩
      rw [Bool.eq_iff_iff, ← not_iff_not]
      unfold keptRows
      rw [← hkept]
      simpa [and_comm] using hsome
    have hnoted : (keptRows c container now).foldl (fun result r => noteEntry result r.2) ∅ =
        (keptRows c' container now).foldl (fun result r => noteEntry result r.2) ∅ := by
      refine noted_eq fun k => ?_
      unfold keptRows
      rw [← hkept, List.filter_filter, List.filter_filter]
      refine h.covers.last_eq h'.covers hup hinj (isKept_passedOn (p := fun e =>
        decide (storageKeyToString e.storageKey = k)) hnow hstands hclock h.uncleared ?_)
      intro e _ e' _ hsup htext
      rw [hsup.key]
      exact htext
    rw [hall, hnoted]

end MemoryStore

end Js

end Gink
