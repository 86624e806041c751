/-
  Gink.Js.MemoryStoreRows — what stands in the tables of a JavaScript `MemoryStore`.

  Whatever is kept or erased, each row stands under a key that is made of what the row says.
  So the addresses can be cut out of the keys again, and the bounds that reads compare keys
  with mean times.
-/
import Gink.Js.KeyTexts

namespace Gink

namespace Js

/-! ## §1. Addresses. -/

/-- The address of a change, that fits the digits it is spelled with. -/
structure Dated (m : MuidTuple) : Prop where
  muid : IsMuid m
  offset : 0 < m.offset

/-- The entry comes before the other by the addresses. -/
def MuidTuple.Before (m n : MuidTuple) : Prop :=
  m.timestamp < n.timestamp ∨ m.timestamp = n.timestamp ∧ (m.medallion < n.medallion ∨
    m.medallion = n.medallion ∧ m.offset < n.offset)

/-- The muids of a change fit the digits they are spelled with. -/
structure FitsDigits (op : Op) : Prop where
  address : Dated (changeAddress op.info op.offset)
  container : ∀ builder container, op.change = .entry builder →
    extractContainerMuid builder op.info = .ok container → Named container
  key : ∀ builder key, op.change = .entry builder →
    getStorageKey builder (changeAddress op.info op.offset) = .ok key → key.Named
  cleared : ∀ builder b container, op.change = .clearance builder →
    message builder.container = .ok b →
    builderToMuid b (changeAddress op.info op.offset) = .ok container → Named container

/-- An entry whose container and key fit. -/
theorem FitsDigits.entry {op : Op} {builder : EntryBuilder} {container : MuidTuple}
    {key : StorageKey} (hchange : op.change = .entry builder)
    (haddress : Dated (changeAddress op.info op.offset))
    (hcontainer : extractContainerMuid builder op.info = .ok container) (hnamed : Named container)
    (hkey : getStorageKey builder (changeAddress op.info op.offset) = .ok key)
    (hkeyNamed : key.Named) : FitsDigits op where
  address := haddress
  container b c hb hc := by
    rw [hchange] at hb
    cases hb
    rw [hcontainer] at hc
    cases hc
    exact hnamed
  key b k hb hk := by
    rw [hchange] at hb
    cases hb
    rw [hkey] at hk
    cases hk
    exact hkeyNamed
  cleared b _ _ hb := by
    rw [hchange] at hb
    cases hb

/-- The muids of a history fit the digits they are spelled with. -/
def Fitting (history : List OpenBundle) : Prop := ∀ op ∈ allOps history, FitsDigits op

namespace MemoryStore

variable {c c' : Contents} {walks : Walks} {keepingHistory : Bool}

/-! ## §2. Rows. -/

/-- The addresses of an entry. -/
structure Stands (e : Entry) : Prop where
  container : Named e.containerId
  key : e.storageKey.Named
  entry : Dated e.entryId
  placement : Dated e.placementId

/-- Every row stands under its key. -/
structure Spelled (c : Contents) : Prop where
  placements : ∀ r ∈ c.placements.rows, r.1 = placementKey r.2 ∧ Stands r.2
  locations : ∀ r ∈ c.locations.rows, ∃ e, r.2 = placementKey e ∧ Stands e
  removals : ∀ r ∈ c.removals.rows, ∃ p m, r.1 = joinedIds (muidTupleToString p)
    (muidTupleToString m) ∧ Dated p ∧ Dated m
  clearances : ∀ r ∈ c.clearances.rows, r.1 = clearanceKey r.2 ∧ Named r.2.containerId ∧
    Dated r.2.clearanceId

theorem Spelled.start : Spelled {} :=
  ⟨fun _ hr => absurd hr List.not_mem_nil, fun _ hr => absurd hr List.not_mem_nil,
    fun _ hr => absurd hr List.not_mem_nil, fun _ hr => absurd hr List.not_mem_nil⟩

/-- Rows that are erased leave only rows that were there. -/
theorem mem_of_mem_erased {V : Type} (ks : List Str) {table : Table Str V} {r : Str × V}
    (h : r ∈ (ks.foldl Table.erase table).rows) : r ∈ table.rows := by
  induction ks generalizing table with
  | nil => exact h
  | cons k rest ih => exact (List.mem_filter.mp (ih h)).1

theorem Stands.lastUnits {e : Entry} (h : Stands e) :
    MemoryStore.lastUnits (placementKey e) = muidTupleToString e.placementId :=
  lastUnits_spelling h.placement.muid

/-- The removals that a new entry leaves. -/
theorem mem_removing {e : Entry} (found : List Str) {table : Table Str Unit} {r : Str × Unit}
    (h : r ∈ (found.foldl (fun t k => t.put (joinedIds (lastUnits k)
      (muidTupleToString e.entryId)) ()) table).rows) :
    r ∈ table.rows ∨ ∃ k ∈ found, r.1 = joinedIds (lastUnits k) (muidTupleToString e.entryId) := by
  induction found generalizing table with
  | nil => exact Or.inl h
  | cons k rest ih =>
      rcases ih h with hput | ⟨k', hk', hr⟩
      · rcases Table.mem_rows_put.mp hput with rfl | ⟨-, hold⟩
        · exact Or.inr ⟨k, List.mem_cons_self, rfl⟩
        · exact Or.inl hold
      · exact Or.inr ⟨k', List.mem_cons_of_mem _ hk', hr⟩

theorem mem_backFrom {V : Type} {table : Table Str V} {pre suffix : Str} {r : Str × V}
    (h : r ∈ backFrom table pre suffix) : r ∈ table.rows :=
  (Table.mem_rowsWhere.mp (List.mem_reverse.mp (List.takeWhile_subset _ h))).1

/-- Making room for an entry. -/
theorem Spelled.makeRoom (h : Spelled c) {e : Entry} (he : Stands e) (purging : Bool) :
    Spelled (makeRoom walks keepingHistory purging e c) := by
  unfold MemoryStore.makeRoom
  dsimp only
  split_ifs with hlisted herase
  · refine ⟨h.placements, ?_, h.removals, h.clearances⟩
    intro r hr
    rcases Table.mem_rows_put.mp hr with rfl | ⟨-, hold⟩
    · exact ⟨e, rfl, he⟩
    · exact h.locations r hold
  · exact ⟨fun r hr => h.placements r (mem_of_mem_erased _ hr), h.locations, h.removals,
      h.clearances⟩
  · refine ⟨h.placements, h.locations, ?_, h.clearances⟩
    intro r hr
    rcases mem_removing _ hr with hold | ⟨k, hk, hkey⟩
    · exact h.removals r hold
    · obtain ⟨row, hrow, rfl⟩ := List.mem_map.mp hk
      obtain ⟨hrowKey, hstands⟩ := h.placements row (mem_backFrom hrow)
      rw [hrowKey, hstands.lastUnits] at hkey
      exact ⟨row.2.placementId, e.entryId, hkey, hstands.placement, he.entry⟩

/-- An entry put into the tables. -/
theorem Spelled.addEntry (h : Spelled c) {e : Entry} (he : Stands e) {purging : Bool}
    (hadd : addEntry walks keepingHistory purging e c = .ok c') : Spelled c' := by
  unfold MemoryStore.addEntry at hadd
  dsimp only at hadd
  split_ifs at hadd
  rw [← Except.ok.inj hadd]
  have hroom := @Spelled.makeRoom c walks keepingHistory h e he purging
  refine ⟨?_, hroom.locations, hroom.removals, hroom.clearances⟩
  intro r hr
  rcases Table.mem_rows_put.mp hr with rfl | ⟨-, hold⟩
  · exact ⟨rfl, he⟩
  · exact hroom.placements r hold

/-! ## §3. Changes. -/

/-- Places that are erased; the entry found is one of those that stood there. -/
theorem Spelled.eraseLocations (keys : List Str) (h : Spelled c) :
    Spelled (eraseLocations keys c).2 ∧
      ∀ e, (MemoryStore.eraseLocations keys c).1 = some e → Stands e := by
  unfold MemoryStore.eraseLocations
  -- one key after the other
  refine List.foldlRecOn (motive := fun acc : Option Entry × Contents => Spelled acc.2 ∧
    ∀ e, acc.1 = some e → Stands e) keys _ ⟨h, fun e he => by cases he⟩ ?_
  intro acc hacc k _
  obtain ⟨hacc, hfound⟩ := hacc
  dsimp only
  cases acc.2.locations.get? k with
  | none => exact ⟨hacc, hfound⟩
  | some location =>
      refine ⟨⟨fun r hr => hacc.placements r (List.mem_filter.mp hr).1,
        fun r hr => hacc.locations r (List.mem_filter.mp hr).1, hacc.removals,
        hacc.clearances⟩, ?_⟩
      intro e he
      exact (hacc.placements _ (Table.get?_eq_some_iff.mp he)).2

/-- The entry placed anew stands where the movement says. -/
theorem Stands.movedTo {e : Entry} (h : Stands e) {m : Movement} (hm : Dated m.movementId) :
    Stands (IndexedDb.Entry.movedTo e m) := ⟨h.container, trivial, h.entry, hm⟩

theorem Spelled.replaceMoved (h : Spelled c) {m : Movement} (hm : Dated m.movementId)
    {found : Option Entry} (hfound : ∀ e, found = some e → Stands e)
    (hmoved : replaceMoved walks keepingHistory m found c = .ok c') : Spelled c' := by
  unfold MemoryStore.replaceMoved at hmoved
  split_ifs at hmoved
  · cases found with
    | none => cases hmoved
    | some e => exact h.addEntry ((hfound e rfl).movedTo hm) hmoved
  · rw [← Except.ok.inj hmoved]
    exact h

theorem Spelled.applyMovement (h : Spelled c) {m : Movement} (hm : Dated m.movementId)
    (hmoved : applyMovement walks keepingHistory m c = .ok c') : Spelled c' := by
  unfold MemoryStore.applyMovement at hmoved
  dsimp only at hmoved
  split_ifs at hmoved
  · obtain ⟨herased, hfound⟩ := h.eraseLocations _
    exact herased.replaceMoved hm hfound hmoved
  · cases hseek : toLastWithPrefixBeforeSuffix c.locations (muidTupleToString m.entryId) tilde with
    | none =>
        simp only [hseek, Except.ok.injEq] at hmoved
        exact hmoved ▸ h
    | some location =>
        simp only [hseek] at hmoved
        obtain ⟨e, hkey, he⟩ := h.locations _ (toLast_eq_some hseek).1
        refine Spelled.replaceMoved ?_ hm ?_ hmoved
        · refine ⟨h.placements, h.locations, ?_, h.clearances⟩
          intro r hr
          rcases Table.mem_rows_put.mp hr with rfl | ⟨-, hold⟩
          · exact ⟨e.placementId, m.movementId, by rw [hkey, he.lastUnits], he.placement, hm⟩
          · exact h.removals r hold
        · intro e' he'
          exact (h.placements _ (Table.get?_eq_some_iff.mp he')).2

/-- **One change**, whether history is kept or not. -/
theorem Spelled.applyChange (h : Spelled c) {op : Op} (hfits : FitsDigits op)
    (happlied : applyChange walks keepingHistory op.info op.offset c op.change = .ok c') :
    Spelled c' := by
  have hdated := hfits.address
  cases hchange : op.change with
  | unset =>
      rw [hchange] at happlied
      cases happlied
  | container container =>
      rw [hchange] at happlied
      rw [← Except.ok.inj happlied]
      exact ⟨h.placements, h.locations, h.removals, h.clearances⟩
  | entry entry =>
      rw [hchange] at happlied
      obtain ⟨e, hbuild, hadd⟩ := bind_eq_ok.mp happlied
      obtain ⟨-, hentry, hplacement⟩ := buildEntry_ok hbuild
      obtain ⟨lists, -, h1⟩ := bind_eq_ok.mp hbuild
      obtain ⟨container, hextract, h2⟩ := bind_eq_ok.mp h1
      obtain ⟨key, hkey, h3⟩ := bind_eq_ok.mp h2
      have he := pure_eq_ok.mp h3
      refine h.addEntry ⟨?_, ?_, hentry ▸ hdated, hplacement ▸ hdated⟩ hadd
      · rw [← he]
        exact hfits.container entry container hchange hextract
      · rw [← he]
        exact hfits.key entry key hchange hkey
  | movement movement =>
      rw [hchange] at happlied
      obtain ⟨m, hextract, hmove⟩ := bind_eq_ok.mp happlied
      refine h.applyMovement ?_ hmove
      obtain ⟨b, -, hb⟩ := bind_eq_ok.mp hextract
      rw [← pure_eq_ok.mp hb]
      exact hdated
  | clearance clearance =>
      rw [hchange] at happlied
      obtain ⟨b, hmessage, h1⟩ := bind_eq_ok.mp happlied
      obtain ⟨container, hcontainer, h2⟩ := bind_eq_ok.mp h1
      rw [← pure_eq_ok.mp h2]
      have hpurged : ∀ purging : Bool, Spelled (if purging then
          purge walks (muidTupleToString container) c else c) := by
        intro purging
        cases purging with
        | false => exact h
        | true =>
            exact ⟨fun r hr => h.placements r (List.mem_filter.mp hr).1, h.locations, h.removals,
              fun r hr => h.clearances r (mem_of_mem_erased _ hr)⟩
      refine ⟨(hpurged _).placements, (hpurged _).locations, (hpurged _).removals, ?_⟩
      intro r hr
      rcases Table.mem_rows_put.mp hr with rfl | ⟨-, hold⟩
      · exact ⟨rfl, hfits.cleared clearance b container hchange hmessage hcontainer, hdated⟩
      · exact (hpurged _).clearances r hold

theorem Spelled.applyChangesFrom {info : BundleInfo} {changes : List ChangeBuilder} :
    ∀ {offset : Nat} {c : Contents}, Spelled c →
      (∀ op ∈ opsFrom info offset changes, FitsDigits op) →
      applyChangesFrom walks keepingHistory info offset changes c = .ok c' → Spelled c' := by
  induction changes with
  | nil =>
      intro offset c h _ happlied
      rw [← Except.ok.inj happlied]
      exact h
  | cons change rest ih =>
      intro offset c h hfits happlied
      obtain ⟨c1, hone, hrest⟩ := bind_eq_ok.mp happlied
      have hfirst := @Spelled.applyChange c _ walks keepingHistory h ⟨info, offset, change⟩
        (hfits _ List.mem_cons_self) hone
      exact ih hfirst (fun op hop => hfits op (List.mem_cons_of_mem _ hop)) hrest

/-- **The rows of a history** stand under their keys. -/
theorem History.spelled {history : List OpenBundle} (h : History walks keepingHistory history c)
    (hfits : Fitting history) : Spelled c := by
  induction h with
  | start => exact .start
  | @next past c c' b _ happlied ih =>
      have hops : allOps (past ++ [b]) = allOps past ++ b.ops := by simp [allOps]
      have hpast : Fitting past := fun op hop => hfits op (hops ▸ List.mem_append_left _ hop)
      exact (ih hpast).applyChangesFrom (fun op hop => hfits op (hops ▸ List.mem_append_right _ hop))
        happlied

/-! ## §4. What the bounds of reads mean. -/

/-- The container was cleared between the placement and the time. -/
def Cleared (c : Contents) (container : MuidTuple) (t : Int) (p : MuidTuple) : Prop :=
  ∃ r ∈ c.clearances.rows, r.2.containerId = container ∧
    p.timestamp < r.2.clearanceId.timestamp ∧ r.2.clearanceId.timestamp < t

/-- The placement was removed before the time. -/
def Removed (c : Contents) (t : Int) (p : MuidTuple) : Prop :=
  ∃ m u, (joinedIds (muidTupleToString p) (muidTupleToString m), u) ∈ c.removals.rows ∧
    Dated m ∧ m.timestamp < t

/-- The entry is in the container at the time. -/
structure Visible (c : Contents) (container : MuidTuple) (t : Int) (e : Entry) : Prop where
  row : ∃ k, (k, e) ∈ c.placements.rows
  within : e.containerId = container
  placed : e.placementId.timestamp < t
  uncleared : ¬ Cleared c container t e.placementId
  unremoved : ¬ Removed c t e.placementId

variable {t : Int}

/-- An address is spelled below a time, or not above it, when it is earlier. -/
theorem le_time {m : MuidTuple} (h : Dated m) (ht : 0 ≤ t ∧ t < 16 ^ 13) :
    muidTupleToString m ≤ muidTupleToString ⟨t, 0, 0⟩ ↔ m.timestamp < t := by
  rw [← not_lt, time_lt_spelling h.muid h.offset ht, not_le]

/-- **The last clearance** before a time is later than a placement when some clearance is. -/
theorem Spelled.lt_getLastClearanceTime (h : Spelled c) (ht : 0 < t ∧ t < 16 ^ 13)
    {container : MuidTuple} (hnamed : Named container) {p : MuidTuple} (hp : Dated p) :
    p.timestamp < getLastClearanceTime c (muidTupleToString container) t ↔
      Cleared c container t p := by
  have hstamped : Stamped Dated ({ clearances := c.clearances } : Contents) :=
    ⟨fun _ hr => absurd hr List.not_mem_nil, fun _ hr => absurd hr List.not_mem_nil,
      fun _ hr => absurd hr List.not_mem_nil,
      fun r hr => ⟨(h.clearances r hr).1, (h.clearances r hr).2.2⟩⟩
  have hcounts : ∀ r ∈ c.clearances.rows,
      (decide ((muidTupleToString container ++ comma) <+: r.1) &&
        decide (r.1 ≤ joinedIds (muidTupleToString container) (muidTupleToString ⟨t, 0, 0⟩))) = true ↔
      r.2.containerId = container ∧ r.2.clearanceId.timestamp < t := by
    intro r hr
    obtain ⟨hkey, hcontainer, hdated⟩ := h.clearances r hr
    rw [Bool.and_eq_true, decide_eq_true_eq, decide_eq_true_eq, hkey]
    unfold clearanceKey
    rw [startsWith_comma_iff comma_not_spelled comma_not_spelled]
    constructor
    · intro hin
      obtain ⟨hsame, hle⟩ := hin
      rw [hsame, joinedIds_le_joinedIds, le_time hdated ⟨ht.1.le, ht.2⟩] at hle
      exact ⟨named_inj hcontainer hnamed hsame.symm, hle⟩
    · intro hin
      obtain ⟨rfl, hlt⟩ := hin
      refine ⟨rfl, ?_⟩
      rw [joinedIds_le_joinedIds, le_time hdated ⟨ht.1.le, ht.2⟩]
      exact hlt
  show p.timestamp < getLastClearanceTime { clearances := c.clearances } _ t ↔ _
  rw [getLastClearanceTime_eq hstamped ht.1.ne' _ comma_not_spelled]
  cases hlast : c.clearances.lastWhere fun k =>
      decide ((muidTupleToString container ++ comma) <+: k) &&
        decide (k ≤ joinedIds (muidTupleToString container) (muidTupleToString ⟨t, 0, 0⟩)) with
  | none =>
      refine iff_of_false (not_lt.mpr hp.muid.timestamp.1) ?_
      intro hcleared
      obtain ⟨r, hr, hsame, -, hlt⟩ := hcleared
      have hno := Table.lastWhere_eq_none_iff.mp hlast r hr
      rw [(hcounts r hr).mpr ⟨hsame, hlt⟩] at hno
      cases hno
  | some r =>
      obtain ⟨hr, hin, hmax⟩ := Table.lastWhere_eq_some_iff.mp hlast
      obtain ⟨hsame, hlt⟩ := (hcounts r hr).mp hin
      constructor
      · exact fun hp => ⟨r, hr, hsame, hp, hlt⟩
      · intro hcleared
        obtain ⟨r', hr', hsame', hafter, hlt'⟩ := hcleared
        -- the keys of one container compare like the clearances
        have hle := hmax r' hr' ((hcounts r' hr').mpr ⟨hsame', hlt'⟩)
        rw [(h.clearances r hr).1, (h.clearances r' hr').1] at hle
        unfold clearanceKey at hle
        rw [hsame, hsame', joinedIds_le_joinedIds, ← not_lt, spelling_lt
          (h.clearances r hr).2.2.muid (h.clearances r' hr').2.2.muid, not_or, not_lt] at hle
        exact lt_of_lt_of_le hafter hle.1

theorem Spelled.clearanceTime_bounds (h : Spelled c) (t : Int) (container : MuidTuple) :
    0 ≤ getLastClearanceTime c (muidTupleToString container) t ∧
      getLastClearanceTime c (muidTupleToString container) t < 16 ^ 13 := by
  unfold getLastClearanceTime
  dsimp only
  split
  · next k z hlast =>
      split_ifs
      · exact (h.clearances _ (Table.lastWhere_eq_some_iff.mp hlast).1).2.2.muid.timestamp
      · exact ⟨le_rfl, by norm_num⟩
  · exact ⟨le_rfl, by norm_num⟩

/-- The seek for a removal of before a time. -/
theorem Spelled.removed_iff (h : Spelled c) (ht : 0 ≤ t ∧ t < 16 ^ 13) {p : MuidTuple}
    (hp : IsMuid p) :
    (toLastWithPrefixBeforeSuffix c.removals (muidTupleToString p)
      (comma ++ muidTupleToString ⟨t, 0, 0⟩)).isSome = true ↔ Removed c t p := by
  rw [toLast_isSome_iff]
  constructor
  · intro hfound
    obtain ⟨r, hr, hpre, hle⟩ := hfound
    obtain ⟨p', m, hkey, hp', hm⟩ := h.removals r hr
    rw [hkey] at hpre hle
    have hsame := startsWith_joinedIds hp hp'.muid hpre
    refine ⟨m, r.2, ?_, hm, ?_⟩
    · rw [hsame, ← hkey]
      exact hr
    · rw [hsame, ← List.append_assoc] at hle
      exact (le_time hm ht).mp (joinedIds_le_joinedIds.mp hle)
  · intro hremoved
    obtain ⟨m, u, hr, hm, hlt⟩ := hremoved
    refine ⟨_, hr, ?_, ?_⟩
    · show muidTupleToString p <+: muidTupleToString p ++ comma ++ muidTupleToString m
      rw [List.append_assoc]
      exact List.prefix_append _ _
    · rw [← List.append_assoc]
      exact joinedIds_le_joinedIds.mpr ((le_time hm ht).mpr hlt)

/-- A key begins with the spelling of the container. -/
theorem Stands.take {e : Entry} (h : Stands e) :
    (placementKey e).take 34 = muidTupleToString e.containerId := by
  have hlength : (muidTupleToString e.containerId).length = 34 := h.container.length
  unfold placementKey
  rw [List.append_assoc, List.append_assoc, List.append_assoc, ← hlength, List.take_left]

/-- **What the loop passes over** is what is not in the container at the time. -/
theorem Spelled.visible_iff (h : Spelled c) (ht : 0 < t ∧ t < 16 ^ 13) {container : MuidTuple}
    (hnamed : Named container) {r : Str × Entry} (hr : r ∈ c.placements.rows) :
    Visible c container t r.2 ↔ r.1.take 34 = muidTupleToString container ∧
      passesOver c (getLastClearanceTime c (muidTupleToString container) t) t r.1 = false := by
  obtain ⟨hkey, hstands⟩ := h.placements r hr
  have hp := hstands.placement
  have ht' : 0 ≤ t ∧ t < 16 ^ 13 := ⟨ht.1.le, ht.2⟩
  have hpasses : passesOver c (getLastClearanceTime c (muidTupleToString container) t) t r.1 = false ↔
      ¬ Cleared c container t r.2.placementId ∧ r.2.placementId.timestamp < t ∧
        ¬ Removed c t r.2.placementId := by
    unfold passesOver
    dsimp only
    rw [hkey, hstands.lastUnits, Bool.or_eq_false_iff, Bool.or_eq_false_iff,
      decide_eq_false_iff_not, decide_eq_false_iff_not,
      spelling_lt_time hp.muid (h.clearanceTime_bounds t container),
      h.lt_getLastClearanceTime ht hnamed hp, gt_iff_lt, time_lt_spelling hp.muid hp.offset ht', not_le,
      ← Bool.not_eq_true, h.removed_iff ht' hp.muid, and_assoc]
  rw [hpasses, hkey, hstands.take]
  constructor
  · exact fun hv => ⟨congrArg _ hv.within, hv.uncleared, hv.placed, hv.unremoved⟩
  · intro hv
    exact ⟨⟨r.1, hr⟩, named_inj hstands.container hnamed hv.1, hv.2.2.1, hv.2.1, hv.2.2.2⟩

end MemoryStore

end Js

end Gink
