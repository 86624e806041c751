/-
  Gink.Js.MemoryStoreKeyed — reads of keyed containers of a JavaScript `MemoryStore`
  (MemoryStore.ts, getEntryByKeyHelper and getKeyedEntries).

  One entry is sought as the last row that starts with the container and the text of the
  key; all of them are gathered by walking over the container.  The walk asks each entry for
  its key, the seek goes by the text alone.
-/
import Gink.Js.MemoryStorePositions

namespace Gink

namespace Js

namespace MemoryStore

/-! ## §1. The reads. -/

/-- `containerId,key,`. -/
def keyStart (container : MuidTuple) (key : StorageKey) : Str :=
  muidTupleToString container ++ comma ++ storageKeyToString key ++ comma

/-- `getEntryByKeyHelper(container, key, asOf)`, with the key that `toStorageKey` makes. -/
def getEntryByKey (c : Contents) (trxns : List Int) (now : Int) (container : MuidTuple)
    (key : StorageKey) (asOf : Option Int) : Except JsError (Option Entry) := do
  let asOfTs ← asOfTime trxns now asOf
  let clearanceTime := getLastClearanceTime c (muidTupleToString container) asOfTs
  match toLastWithPrefixBeforeSuffix c.placements (keyStart container key)
      (muidTupleToString ⟨asOfTs, 0, 0⟩) with
  | none => return none
  | some (_, entry) =>
      -- the container was cleared after this entry
      if entry.placementId.timestamp < clearanceTime then return none
      else return some entry

/-- The first and the last of `key.split(",")`. -/
def firstPart (k : Str) : Str := k.takeWhile fun u => decide (u ≠ 44)

def lastPart (k : Str) : Str := (k.reverse.takeWhile fun u => decide (u ≠ 44)).reverse

/-- The behaviors of keyed containers. -/
def isKeyed : Behavior → Bool
  | .directory | .keySet | .group | .pairSet | .pairMap | .property => true
  | _ => false

/-- What a row makes of the map: `result.delete(key)` or `result.set(key, entry)`. -/
def noteEntry (result : Table Str Entry) (entry : Entry) : Table Str Entry :=
  if entry.deletion then result.erase (storageKeyToString entry.storageKey)
  else result.put (storageKeyToString entry.storageKey) entry

/-- The loop of `getKeyedEntries`. -/
def gatherKeyed (srcAsStr clearTimeStr asOfTsStr : Str) :
    List (Str × Entry) → Table Str Entry → Except JsError (Table Str Entry)
  | [], result => .ok result
  | (k, entry) :: rest, result =>
      if firstPart k ≠ srcAsStr then .ok result
      else if lastPart k < clearTimeStr ∨ lastPart k > asOfTsStr then
        gatherKeyed srcAsStr clearTimeStr asOfTsStr rest result
      else if isKeyed entry.behavior = false then .error ⟨"assert failed"⟩
      else gatherKeyed srcAsStr clearTimeStr asOfTsStr rest (noteEntry result entry)

/-- `getKeyedEntries(container, asOf)`; the order of the map's keys is left out. -/
def getKeyedEntries (c : Contents) (trxns : List Int) (now : Int) (container : MuidTuple)
    (asOf : Option Int) : Except JsError (Table Str Entry) := do
  let asOfTs ← asOfTime trxns now asOf
  let srcAsStr := muidTupleToString container
  let clearanceTime := getLastClearanceTime c srcAsStr asOfTs
  gatherKeyed srcAsStr (muidTupleToString ⟨clearanceTime, 0, 0⟩) (muidTupleToString ⟨asOfTs, 0, 0⟩)
    (c.placements.rowsWhere fun k => decide (srcAsStr ≤ k)) ∅

/-! ## §2. What they are to return. -/

variable {c : Contents} {container : MuidTuple} {key : StorageKey} {t : Int} {e e' : Entry}

/-- The entry was written to the key of the container before the time. -/
structure Written (c : Contents) (container : MuidTuple) (key : StorageKey) (t : Int)
    (e : Entry) : Prop where
  row : ∃ k, (k, e) ∈ c.placements.rows
  within : e.containerId = container
  key : e.storageKey = key
  placed : e.placementId.timestamp < t

/-- It is the last written there, and the container was not cleared since. -/
structure Current (c : Contents) (container : MuidTuple) (key : StorageKey) (t : Int)
    (e : Entry) : Prop where
  written : Written c container key t e
  last : ∀ e', Written c container key t e' → e' = e ∨ e'.placementId.Before e.placementId
  uncleared : ¬ Cleared c container t e.placementId

/-- Every entry of the container has the behavior of a keyed one. -/
def IsKeyedContainer (c : Contents) (container : MuidTuple) : Prop :=
  ∀ r ∈ c.placements.rows, r.2.containerId = container → isKeyed r.2.behavior = true

/-- The row is found with the key: it starts with the container and the key, and is not above
the time. -/
structure InRange (c : Contents) (container : MuidTuple) (key : StorageKey) (t : Int)
    (r : Str × Entry) : Prop where
  row : r ∈ c.placements.rows
  starts : keyStart container key <+: r.1
  below : r.1 ≤ keyStart container key ++ muidTupleToString ⟨t, 0, 0⟩

/-- The key is the number that the text of the pair begins with. -/
def BeginsPair (key pair : StorageKey) : Prop :=
  ∃ left rite, pair = .pair left rite ∧ key = .number left.timestamp

/-- Above the entries that stand under a pair that begins with the number, as far as these are
found with the key, there is one of the key itself. -/
def ClearOfPairs (c : Contents) (container : MuidTuple) (key : StorageKey) (t : Int) : Prop :=
  ∀ r, InRange c container key t r → BeginsPair key r.2.storageKey →
    ∃ k e, (k, e) ∈ c.placements.rows ∧ r.1 < k ∧ Written c container key t e

theorem before_asymm {m n : MuidTuple} (h : m.Before n) : ¬ n.Before m := by
  unfold MuidTuple.Before at *
  omega

/-- There is one current entry at most. -/
theorem Current.unique (h : Current c container key t e) (h' : Current c container key t e') :
    e = e' := by
  rcases h.last e' h'.written with heq | hbefore
  · exact heq.symm
  · rcases h'.last e h.written with heq | hafter
    · exact heq
    · exact absurd hafter (before_asymm hbefore)

/-! ## §3. Keys of rows. -/

theorem placementKey_keyStart (e : Entry) :
    placementKey e = keyStart e.containerId e.storageKey ++ muidTupleToString e.placementId := rfl

/-- **What starts with the container and the key** is an entry of the key, or of a pair. -/
theorem keyStart_prefix_iff (hnamed : Named container) (hkey : key.Named) (he : Stands e) :
    keyStart container key <+: placementKey e ↔ e.containerId = container ∧
      (e.storageKey = key ∨ BeginsPair key e.storageKey) := by
  constructor
  · intro h
    obtain ⟨rest, hrest⟩ := h
    have hcut : muidTupleToString container ++ 44 :: (storageKeyToString key ++ 44 :: rest) =
        muidTupleToString e.containerId ++ 44 :: (storageKeyToString e.storageKey ++
          44 :: muidTupleToString e.placementId) := by
      simpa [keyStart, placementKey, comma] using hrest
    obtain ⟨hcontainer, htext⟩ := first_cut_inj comma_not_spelled comma_not_spelled hcut
    refine ⟨named_inj he.container hnamed hcontainer.symm, ?_⟩
    rcases eq_or_pair_of_text hkey he.key comma_not_spelled htext with heq | hpair
    · exact Or.inl heq.symm
    · exact Or.inr hpair
  · intro h
    obtain ⟨rfl, rfl | ⟨left, rite, hpair, rfl⟩⟩ := h
    · exact List.prefix_append _ _
    · refine ⟨joined [left.medallion, left.offset, rite.timestamp, rite.medallion, rite.offset] ++
        44 :: muidTupleToString e.placementId, ?_⟩
      unfold placementKey
      rw [hpair, pair_text]
      simp [keyStart, comma, storageKeyToString]

/-- Rows of one key compare like their placements. -/
theorem placementKey_le_of_key (hc : e.containerId = e'.containerId)
    (hk : e.storageKey = e'.storageKey) :
    placementKey e ≤ placementKey e' ↔
      muidTupleToString e.placementId ≤ muidTupleToString e'.placementId := by
  rw [placementKey_keyStart, placementKey_keyStart, hc, hk]
  unfold keyStart
  exact joinedIds_le_joinedIds

theorem placementKey_le_bound (ht : 0 < t ∧ t < 16 ^ 13) (he : Stands e) :
    placementKey e ≤ keyStart e.containerId e.storageKey ++ muidTupleToString ⟨t, 0, 0⟩ ↔
      e.placementId.timestamp < t := by
  rw [placementKey_keyStart, ← le_time he.placement ⟨ht.1.le, ht.2⟩]
  unfold keyStart
  exact joinedIds_le_joinedIds

/-- Of two rows of a key the one that is not above is the other, or was placed before. -/
theorem Spelled.eq_or_before (h : Spelled c) {k k' : Str} (hk : (k, e) ∈ c.placements.rows)
    (hk' : (k', e') ∈ c.placements.rows) (hle : k' ≤ k) (hc : e'.containerId = e.containerId)
    (hkey : e'.storageKey = e.storageKey) : e' = e ∨ e'.placementId.Before e.placementId := by
  obtain ⟨hrow, hstands⟩ := h.placements _ hk
  obtain ⟨hrow', hstands'⟩ := h.placements _ hk'
  rcases eq_or_lt_of_le hle with heq | hlt
  · subst heq
    exact Or.inl (Table.eq_of_mem_of_mem hk' hk)
  · right
    have hless : muidTupleToString e'.placementId < muidTupleToString e.placementId := by
      rw [← not_le, ← placementKey_le_of_key hc.symm hkey.symm, not_le]
      rw [show k = placementKey e from hrow, show k' = placementKey e' from hrow'] at hlt
      exact hlt
    exact (spelling_lt hstands'.placement.muid hstands.placement.muid).mp hless

/-- What was written to the key is found with it. -/
theorem Spelled.inRange (h : Spelled c) (ht : 0 < t ∧ t < 16 ^ 13) {k : Str}
    (hk : (k, e) ∈ c.placements.rows) (hw : Written c container key t e) :
    InRange c container key t (k, e) := by
  obtain ⟨hrow, hstands⟩ := h.placements _ hk
  have hrow : k = placementKey e := hrow
  refine ⟨hk, ?_, ?_⟩
  · show keyStart container key <+: k
    rw [hrow, ← hw.within, ← hw.key]
    exact List.prefix_append _ _
  · show k ≤ _
    rw [hrow, ← hw.within, ← hw.key]
    exact (placementKey_le_bound ht hstands).mpr hw.placed

/-- What is found with a key was written to it, or stands under a pair. -/
theorem Spelled.written_of_inRange (h : Spelled c) (hnamed : Named container) (hkey : key.Named)
    (ht : 0 < t ∧ t < 16 ^ 13) {k : Str} (hin : InRange c container key t (k, e)) :
    Written c container key t e ∨ BeginsPair key e.storageKey := by
  obtain ⟨hrow, hstands⟩ := h.placements _ hin.row
  have hrow : k = placementKey e := hrow
  obtain ⟨hwithin, hsame | hpair⟩ :=
    (keyStart_prefix_iff hnamed hkey hstands).mp (hrow ▸ hin.starts)
  · left
    refine ⟨⟨k, hin.row⟩, hwithin, hsame, ?_⟩
    rw [← placementKey_le_bound ht hstands, ← hrow, hwithin, hsame]
    exact hin.below
  · exact Or.inr hpair

/-! ## §4. One entry. -/

/-- The row that a seek finds is the last one within the bound. -/
theorem toLast_last {V : Type} {table : Table Str V} {pre suffix : Str} {r : Str × V}
    (h : toLastWithPrefixBeforeSuffix table pre suffix = some r) :
    r.1 ≤ pre ++ suffix ∧ ∀ x ∈ table.rows, x.1 ≤ pre ++ suffix → x.1 ≤ r.1 := by
  unfold toLastWithPrefixBeforeSuffix at h
  cases hlast : table.lastWhere fun k => decide (k ≤ pre ++ suffix) with
  | none => simp [hlast] at h
  | some row =>
      simp only [hlast] at h
      split_ifs at h
      obtain ⟨-, hbound, hmax⟩ := Table.lastWhere_eq_some_iff.mp hlast
      rw [← Option.some.inj h]
      exact ⟨of_decide_eq_true hbound, fun x hx hle => hmax x hx (by simpa using hle)⟩

/-- What is found is written to the key, and the last such. -/
theorem Spelled.found_last (h : Spelled c) (hnamed : Named container) (hkey : key.Named)
    (ht : 0 < t ∧ t < 16 ^ 13) (hclear : ClearOfPairs c container key t) {r : Str × Entry}
    (hseek : toLastWithPrefixBeforeSuffix c.placements (keyStart container key)
      (muidTupleToString ⟨t, 0, 0⟩) = some r) :
    Written c container key t r.2 ∧ ∀ e', Written c container key t e' →
      e' = r.2 ∨ e'.placementId.Before r.2.placementId := by
  obtain ⟨hr, hpre⟩ := toLast_eq_some hseek
  obtain ⟨hle, hmax⟩ := toLast_last hseek
  have hin : InRange c container key t r := ⟨hr, hpre, hle⟩
  have hwritten : Written c container key t r.2 := by
    rcases h.written_of_inRange hnamed hkey ht hin with hw | hpair
    · exact hw
    · -- a written row above the pair's would have been found instead
      obtain ⟨k, e, hk, habove, hw⟩ := hclear r hin hpair
      exact absurd (hmax _ hk (h.inRange ht hk hw).below) (not_le.mpr habove)
  refine ⟨hwritten, ?_⟩
  intro e' hw'
  obtain ⟨k', hk'⟩ := hw'.row
  exact h.eq_or_before hr hk' (hmax _ hk' (h.inRange ht hk' hw').below)
    (hw'.within.trans hwritten.within.symm) (hw'.key.trans hwritten.key.symm)

theorem getEntryByKey_of_seek {trxns : List Int} {now : Int} {asOf : Option Int}
    (hasOf : asOfTime trxns now asOf = .ok t) :
    getEntryByKey c trxns now container key asOf =
      match toLastWithPrefixBeforeSuffix c.placements (keyStart container key)
          (muidTupleToString ⟨t, 0, 0⟩) with
      | none => .ok none
      | some (_, entry) =>
          if entry.placementId.timestamp <
              getLastClearanceTime c (muidTupleToString container) t then .ok none
          else .ok (some entry) := by
  unfold getEntryByKey
  rw [hasOf]
  rfl

/-- **The seek for a key** finds its current entry, where no pair is in the way. -/
theorem getEntryByKey_eq (h : Spelled c) (hnamed : Named container) (hkey : key.Named)
    (ht : 0 < t ∧ t < 16 ^ 13) {trxns : List Int} {now : Int} {asOf : Option Int}
    (hasOf : asOfTime trxns now asOf = .ok t) (hclear : ClearOfPairs c container key t) :
    ∃ found, getEntryByKey c trxns now container key asOf = .ok found ∧
      ∀ e, found = some e ↔ Current c container key t e := by
  rw [getEntryByKey_of_seek hasOf]
  cases hseek : toLastWithPrefixBeforeSuffix c.placements (keyStart container key)
      (muidTupleToString ⟨t, 0, 0⟩) with
  | none =>
      refine ⟨none, rfl, fun e => iff_of_false (by simp) ?_⟩
      intro hcurrent
      obtain ⟨k, hk⟩ := hcurrent.written.row
      have hin := h.inRange ht hk hcurrent.written
      obtain ⟨found, hfound, -⟩ := toLast_isSome hin.row hin.starts hin.below
      rw [hseek] at hfound
      cases hfound
  | some r =>
      obtain ⟨hwritten, hlast⟩ := h.found_last hnamed hkey ht hclear hseek
      have hdated := (h.placements _ (toLast_eq_some hseek).1).2.placement
      have hcleared := h.lt_getLastClearanceTime ht hnamed hdated
      by_cases hold : r.2.placementId.timestamp <
          getLastClearanceTime c (muidTupleToString container) t
      · refine ⟨none, if_pos hold, fun e => iff_of_false (by simp) ?_⟩
        intro hcurrent
        -- the current entry would be the one that is found
        rcases hlast e hcurrent.written with rfl | hbefore
        · exact hcurrent.uncleared (hcleared.mp hold)
        · rcases hcurrent.last _ hwritten with rfl | hafter
          · exact hcurrent.uncleared (hcleared.mp hold)
          · exact before_asymm hbefore hafter
      · have hcurrent : Current c container key t r.2 :=
          ⟨hwritten, hlast, fun hc => hold (hcleared.mpr hc)⟩
        refine ⟨some r.2, if_neg hold, fun e => ?_⟩
        rw [Option.some.injEq]
        exact ⟨fun heq => heq ▸ hcurrent, fun he => hcurrent.unique he⟩

/-! ## §5. All entries. -/

/-- The row is the container's, and neither cleared nor placed too late. -/
def isKept (c : Contents) (container : MuidTuple) (t : Int) (r : Str × Entry) : Bool :=
  decide (muidTupleToString container = muidTupleToString r.2.containerId) &&
    !(decide (muidTupleToString r.2.placementId <
        muidTupleToString ⟨getLastClearanceTime c (muidTupleToString container) t, 0, 0⟩) ||
      decide (muidTupleToString ⟨t, 0, 0⟩ < muidTupleToString r.2.placementId))

theorem isKept_iff {r : Str × Entry} : isKept c container t r = true ↔
    muidTupleToString container = muidTupleToString r.2.containerId ∧
      ¬ muidTupleToString r.2.placementId <
        muidTupleToString ⟨getLastClearanceTime c (muidTupleToString container) t, 0, 0⟩ ∧
      ¬ muidTupleToString ⟨t, 0, 0⟩ < muidTupleToString r.2.placementId := by
  unfold isKept
  rw [Bool.and_eq_true, decide_eq_true_eq, Bool.not_eq_true', Bool.or_eq_false_iff,
    decide_eq_false_iff_not, decide_eq_false_iff_not]

theorem firstPart_placementKey (e : Entry) :
    firstPart (placementKey e) = muidTupleToString e.containerId := by
  have hcut : placementKey e = muidTupleToString e.containerId ++
      44 :: (storageKeyToString e.storageKey ++ 44 :: muidTupleToString e.placementId) := by
    simp [placementKey, comma]
  unfold firstPart
  rw [hcut, List.takeWhile_append_of_pos, List.takeWhile_cons_of_neg (by simp), List.append_nil]
  intro u hu
  exact decide_eq_true fun heq => comma_not_spelled (heq ▸ hu)

theorem lastPart_placementKey (e : Entry) :
    lastPart (placementKey e) = muidTupleToString e.placementId := by
  have hcut : (placementKey e).reverse = (muidTupleToString e.placementId).reverse ++
      44 :: (muidTupleToString e.containerId ++ 44 :: storageKeyToString e.storageKey).reverse := by
    simp [placementKey, comma]
  unfold lastPart
  rw [hcut, List.takeWhile_append_of_pos, List.takeWhile_cons_of_neg (by simp), List.append_nil,
    List.reverse_reverse]
  intro u hu
  exact decide_eq_true fun heq => comma_not_spelled (heq ▸ List.mem_reverse.mp hu)

/-- What the loop makes of the rows it looks at: the map, unless one is not of a keyed container. -/
def noteAll (rows : List (Str × Entry)) (result : Table Str Entry) :
    Except JsError (Table Str Entry) :=
  if rows.all fun r => isKeyed r.2.behavior then
    .ok (rows.foldl (fun result r => noteEntry result r.2) result)
  else .error ⟨"assert failed"⟩

theorem noteAll_cons_keyed {r : Str × Entry} {rest : List (Str × Entry)} {result : Table Str Entry}
    (h : isKeyed r.2.behavior = true) :
    noteAll (r :: rest) result = noteAll rest (noteEntry result r.2) := by
  unfold noteAll
  rw [List.all_cons, h, Bool.true_and]
  rfl

theorem noteAll_cons_other {r : Str × Entry} {rest : List (Str × Entry)} {result : Table Str Entry}
    (h : isKeyed r.2.behavior = false) :
    noteAll (r :: rest) result = .error ⟨"assert failed"⟩ := by
  unfold noteAll
  rw [List.all_cons, h, Bool.false_and]
  rfl

/-- **The loop** notes the rows of the container that are kept. -/
theorem gatherKeyed_eq (h : Spelled c) (rows : List (Str × Entry)) :
    ∀ result, (∀ r ∈ rows, r ∈ c.placements.rows) →
      gatherKeyed (muidTupleToString container)
        (muidTupleToString ⟨getLastClearanceTime c (muidTupleToString container) t, 0, 0⟩)
        (muidTupleToString ⟨t, 0, 0⟩) rows result =
      noteAll ((rows.takeWhile fun r => decide (muidTupleToString container =
        muidTupleToString r.2.containerId)).filter (isKept c container t)) result := by
  induction rows with
  | nil => exact fun _ _ => rfl
  | cons r rest ih =>
      intro result hrows
      obtain ⟨k, e⟩ := r
      have hmem := hrows _ List.mem_cons_self
      have hrest := fun x hx => hrows x (List.mem_cons_of_mem _ hx)
      obtain ⟨hkey, -⟩ := h.placements _ hmem
      have hkey : k = placementKey e := hkey
      unfold gatherKeyed
      rw [hkey, firstPart_placementKey, lastPart_placementKey]
      by_cases hsame : muidTupleToString container = muidTupleToString e.containerId
      · rw [if_neg (not_not.mpr hsame.symm), List.takeWhile_cons_of_pos (by simpa using hsame)]
        by_cases hskip : muidTupleToString e.placementId < muidTupleToString
              ⟨getLastClearanceTime c (muidTupleToString container) t, 0, 0⟩ ∨
            muidTupleToString e.placementId > muidTupleToString ⟨t, 0, 0⟩
        · have hnot : ¬ isKept c container t (placementKey e, e) = true := by
            rw [isKept_iff]
            exact fun hkept => hskip.elim hkept.2.1 hkept.2.2
          rw [if_pos hskip, ih result hrest, List.filter_cons_of_neg hnot]
        · have hkept : isKept c container t (placementKey e, e) = true := by
            rw [not_or] at hskip
            exact isKept_iff.mpr ⟨hsame, hskip⟩
          rw [if_neg hskip, List.filter_cons_of_pos hkept]
          cases hbehavior : isKeyed e.behavior with
          | true => rw [if_neg Bool.noConfusion, ih _ hrest, noteAll_cons_keyed hbehavior]
          | false => rw [if_pos rfl, noteAll_cons_other hbehavior]
      · rw [if_pos (Ne.symm hsame), List.takeWhile_cons_of_neg (by simpa using hsame)]
        rfl

/-- The rows that the loop notes. -/
def keptRows (c : Contents) (container : MuidTuple) (t : Int) : List (Str × Entry) :=
  c.placements.rows.filter (isKept c container t)

/-- The rows of the container are those from its spelling on. -/
theorem kept_rows (h : Spelled c) (hnamed : Named container) :
    ((c.placements.rowsWhere fun k => decide (muidTupleToString container ≤ k)).takeWhile fun r =>
      decide (muidTupleToString container = muidTupleToString r.2.containerId)).filter
        (isKept c container t) = keptRows c container t := by
  have hstarts : ∀ r ∈ c.placements.rows,
      muidTupleToString container = muidTupleToString r.2.containerId ↔
        muidTupleToString container <+: r.1 := by
    intro r hr
    obtain ⟨hkey, hstands⟩ := h.placements r hr
    rw [← take_eq_iff hnamed, hkey, hstands.take]
    exact eq_comm
  have hstart : (c.placements.rowsWhere fun k => decide (muidTupleToString container ≤ k)).Pairwise
      fun a b => decide (muidTupleToString container = muidTupleToString b.2.containerId) = true →
        decide (muidTupleToString container = muidTupleToString a.2.containerId) = true := by
    refine List.pairwise_iff_forall_sublist.mpr ?_
    intro a b hsub hb
    have hsorted := List.pairwise_iff_forall_sublist.mp (Table.rowsWhere_sorted c.placements _) hsub
    obtain ⟨ha, hle⟩ := Table.mem_rowsWhere.mp (hsub.subset List.mem_cons_self)
    have hbrow := (Table.mem_rowsWhere.mp (hsub.subset (List.mem_cons_of_mem _
      List.mem_cons_self))).1
    rw [decide_eq_true_eq, hstarts b hbrow] at hb
    rw [decide_eq_true_eq, hstarts a ha]
    exact startsWith_of_le_of_le (List.prefix_refl _) hb (of_decide_eq_true hle) hsorted.le
  rw [takeWhile_eq_filter hstart, List.filter_filter]
  unfold Table.rowsWhere keptRows
  rw [List.filter_filter]
  apply List.filter_congr
  intro r hr
  unfold isKept
  by_cases hsame : muidTupleToString container = muidTupleToString r.2.containerId
  · have hle : muidTupleToString container ≤ r.1 :=
      not_lt.mp (List.not_lt.mpr ((hstarts r hr).mp hsame).le)
    simp [hsame, hsame ▸ hle]
  · simp [hsame]

/-- **What the map holds** for a text is the last entry with it, unless that is a deletion. -/
theorem get?_noteEntries {K : Type} (rows : List (K × Entry)) (k : Str) :
    (rows.foldl (fun result r => noteEntry result r.2) ∅).get? k =
      (rows.filter fun r => decide (storageKeyToString r.2.storageKey = k)).getLast?.bind fun r =>
        if r.2.deletion then none else some r.2 := by
  induction rows using List.reverseRecOn with
  | nil => rfl
  | append_singleton rows r ih =>
      rw [List.foldl_append, List.filter_append, List.foldl_cons, List.foldl_nil]
      by_cases hk : storageKeyToString r.2.storageKey = k
      · rw [List.filter_cons_of_pos (by simpa using hk), List.filter_nil, List.getLast?_append]
        unfold noteEntry
        by_cases hdeletion : r.2.deletion = true
        · simp [hdeletion, hk, Table.get?_erase]
        · simp [hdeletion, hk]
      · rw [List.filter_cons_of_neg (by simpa using hk), List.filter_nil, List.append_nil, ← ih]
        unfold noteEntry
        split_ifs
        · simp [Table.get?_erase, Ne.symm hk]
        · simp [Table.get?_put, Ne.symm hk]

/-- The texts of different keys differ. -/
theorem storageKeyToString_inj {key' : StorageKey} (hkey : key.Named) (hkey' : key'.Named)
    (h : storageKeyToString key = storageKeyToString key') : key = key' := by
  have hcut : storageKeyToString key ++ 44 :: [] = storageKeyToString key' ++ 44 :: [] := by rw [h]
  rcases eq_or_pair_of_text hkey hkey' List.not_mem_nil hcut with heq | ⟨left, rite, hpair, hnumber⟩
  · exact heq
  · -- the text of a pair has a comma, that of a number has none
    have hcomma : (44 : Int) ∈ storageKeyToString key := by
      rw [h, hpair, pair_text]
      simp
    rw [hnumber] at hcomma
    exact absurd hcomma comma_not_mem_decimal

/-- A row is kept when it was placed before the time and not cleared since. -/
theorem mem_keptRows (h : Spelled c) (hnamed : Named container) (ht : 0 < t ∧ t < 16 ^ 13)
    {r : Str × Entry} : r ∈ keptRows c container t ↔ r ∈ c.placements.rows ∧
      r.2.containerId = container ∧ ¬ Cleared c container t r.2.placementId ∧
        r.2.placementId.timestamp < t := by
  unfold keptRows
  rw [List.mem_filter]
  refine and_congr_right fun hr => ?_
  obtain ⟨-, hstands⟩ := h.placements r hr
  have hp := hstands.placement
  rw [isKept_iff, spelling_lt_time hp.muid (h.clearanceTime_bounds t container),
    h.lt_getLastClearanceTime ht hnamed hp, time_lt_spelling hp.muid hp.offset ⟨ht.1.le, ht.2⟩,
    not_le]
  refine and_congr_left fun _ => ?_
  exact ⟨fun hsame => named_inj hstands.container hnamed hsame.symm, fun hsame => by rw [hsame]⟩

/-- The last of the rows of a key that are kept is its current entry. -/
theorem current_iff_getLast? (h : Spelled c) (hnamed : Named container) (hkey : key.Named)
    (ht : 0 < t ∧ t < 16 ^ 13) :
    Current c container key t e ↔ ∃ k, ((keptRows c container t).filter fun r =>
      decide (storageKeyToString r.2.storageKey = storageKeyToString key)).getLast? =
        some (k, e) := by
  have hmem : ∀ r, r ∈ (keptRows c container t).filter (fun r =>
      decide (storageKeyToString r.2.storageKey = storageKeyToString key)) ↔
      r ∈ c.placements.rows ∧ Written c container key t r.2 ∧
        ¬ Cleared c container t r.2.placementId := by
    intro r
    rw [List.mem_filter, mem_keptRows h hnamed ht, decide_eq_true_eq]
    constructor
    · intro hin
      obtain ⟨⟨hr, hsame, huncleared, hplaced⟩, htext⟩ := hin
      have hnamedKey := (h.placements r hr).2.key
      exact ⟨hr, ⟨⟨r.1, hr⟩, hsame, storageKeyToString_inj hnamedKey hkey htext, hplaced⟩, huncleared⟩
    · intro hin
      obtain ⟨hr, hw, huncleared⟩ := hin
      exact ⟨⟨hr, hw.within, huncleared, hw.placed⟩, by rw [hw.key]⟩
  have hsorted : ((keptRows c container t).filter (fun r =>
      decide (storageKeyToString r.2.storageKey = storageKeyToString key))).Pairwise
      fun a b => a.1 < b.1 := (c.placements.sorted.filter _).filter _
  have hback : ∀ k e, ((keptRows c container t).filter fun r =>
      decide (storageKeyToString r.2.storageKey = storageKeyToString key)).getLast? = some (k, e) →
      Current c container key t e := by
    intro k e hlast
    obtain ⟨hr, hw, huncleared⟩ := (hmem (k, e)).mp (List.mem_of_getLast? hlast)
    refine ⟨hw, ?_, huncleared⟩
    intro e' hw'
    obtain ⟨k', hk'⟩ := hw'.row
    by_cases hcleared : Cleared c container t e'.placementId
    · -- what was cleared was placed before what was not
      obtain ⟨clearance, hclearance, hsame, hafter, hbefore⟩ := hcleared
      right
      left
      by_contra hnot
      exact huncleared ⟨clearance, hclearance, hsame, lt_of_le_of_lt (not_lt.mp hnot) hafter, hbefore⟩
    · have hle := Table.le_getLast?_of_mem hsorted hlast ((hmem (k', e')).mpr ⟨hk', hw', hcleared⟩)
      exact h.eq_or_before hr hk' hle (hw'.within.trans hw.within.symm) (hw'.key.trans hw.key.symm)
  constructor
  · intro hcurrent
    obtain ⟨k, hk⟩ := hcurrent.written.row
    have hin := (hmem (k, e)).mpr ⟨hk, hcurrent.written, hcurrent.uncleared⟩
    obtain ⟨r, hlast⟩ : ∃ r, ((keptRows c container t).filter fun r => decide
        (storageKeyToString r.2.storageKey = storageKeyToString key)).getLast? = some r :=
      Option.isSome_iff_exists.mp (List.getLast?_isSome.mpr (List.ne_nil_of_mem hin))
    have hsame := (hback r.1 r.2 hlast).unique hcurrent
    exact ⟨r.1, by rw [hlast, ← hsame]⟩
  · intro hfound
    obtain ⟨k, hk⟩ := hfound
    exact hback k e hk

/-- The read of a container notes the rows that are kept. -/
theorem getKeyedEntries_noted (h : Spelled c) (hnamed : Named container) {trxns : List Int}
    {now : Int} {asOf : Option Int} (hasOf : asOfTime trxns now asOf = .ok t) :
    getKeyedEntries c trxns now container asOf = noteAll (keptRows c container t) ∅ := by
  unfold getKeyedEntries
  rw [hasOf]
  show gatherKeyed _ _ _ _ _ = _
  rw [gatherKeyed_eq h _ _ fun r hr => (Table.mem_rowsWhere.mp hr).1, kept_rows h hnamed]

/-- **The gathered entries** are the current ones that are not deletions, under the texts of
their keys. -/
theorem getKeyedEntries_eq (h : Spelled c) (hnamed : Named container)
    (hkeyed : IsKeyedContainer c container) (ht : 0 < t ∧ t < 16 ^ 13) {trxns : List Int}
    {now : Int} {asOf : Option Int} (hasOf : asOfTime trxns now asOf = .ok t) :
    ∃ entries, getKeyedEntries c trxns now container asOf = .ok entries ∧
      (∀ key : StorageKey, key.Named → ∀ e, entries.get? (storageKeyToString key) = some e ↔
        Current c container key t e ∧ e.deletion = false) ∧
      ∀ k e, entries.get? k = some e → k = storageKeyToString e.storageKey := by
  refine ⟨(keptRows c container t).foldl (fun result r => noteEntry result r.2) ∅, ?_, ?_, ?_⟩
  · have hall : ((keptRows c container t).all fun r => isKeyed r.2.behavior) = true := by
      rw [List.all_eq_true]
      intro r hr
      obtain ⟨hrow, hwithin, -⟩ := (mem_keptRows h hnamed ht).mp hr
      exact hkeyed r hrow hwithin
    rw [getKeyedEntries_noted h hnamed hasOf]
    unfold noteAll
    rw [if_pos hall]
  · intro key hkey e
    rw [get?_noteEntries, current_iff_getLast? h hnamed hkey ht, Option.bind_eq_some_iff]
    constructor
    · intro hfound
      obtain ⟨r, hlast, hr⟩ := hfound
      split_ifs at hr with hdeletion
      rw [← Option.some.inj hr]
      exact ⟨⟨r.1, hlast⟩, by simpa using hdeletion⟩
    · intro hfound
      obtain ⟨⟨k, hlast⟩, hdeletion⟩ := hfound
      exact ⟨(k, e), hlast, by simp [hdeletion]⟩
  · intro k e hfound
    rw [get?_noteEntries, Option.bind_eq_some_iff] at hfound
    obtain ⟨r, hlast, hr⟩ := hfound
    split_ifs at hr
    rw [← Option.some.inj hr]
    have hin := List.mem_filter.mp (List.mem_of_getLast? hlast)
    exact (of_decide_eq_true hin.2).symm

/-- **Reads of a keyed container are exact** in whatever a store holds, those of one key
where no pair is in the way. -/
theorem keyed_reads_exact {walks : Walks} {keepingHistory : Bool} {history : List OpenBundle}
    (h : History walks keepingHistory history c) (hfits : Fitting history)
    (hnamed : Named container) (hkeyed : IsKeyedContainer c container)
    (trxns : List Int) (now : Int) (asOf : Option Int) (hasOf : asOfTime trxns now asOf = .ok t)
    (ht : 0 < t ∧ t < 16 ^ 13) :
    (∀ key : StorageKey, key.Named → ClearOfPairs c container key t →
      ∃ found, getEntryByKey c trxns now container key asOf = .ok found ∧
        ∀ e, found = some e ↔ Current c container key t e) ∧
    ∃ entries, getKeyedEntries c trxns now container asOf = .ok entries ∧
      (∀ key : StorageKey, key.Named → ∀ e, entries.get? (storageKeyToString key) = some e ↔
        Current c container key t e ∧ e.deletion = false) ∧
      ∀ k e, entries.get? k = some e → k = storageKeyToString e.storageKey := by
  have hspelled := h.spelled hfits
  constructor
  · exact fun key hkey hclear => getEntryByKey_eq hspelled hnamed hkey ht hasOf hclear
  · exact getKeyedEntries_eq hspelled hnamed hkeyed ht hasOf

/-- An entry of a pair map, in a bundle of its own. -/
def pairedEntry : EntryBuilder where
  container := some (globalBuilder .pairMap)
  behavior := .pairMap
  subject := some (.pair ⟨⟨1600000000000000, 4, 1⟩, ⟨1600000000000000, 5, 1⟩⟩)
  contains := some (.value (.characters "entry"))

def pairedBundle : OpenBundle := firstOf 1 [.entry pairedEntry]

theorem fitting_paired : Fitting [pairedBundle] := by
  intro op hop
  have hop : op = ⟨pairedBundle.info, 1, .entry pairedEntry⟩ := List.mem_singleton.mp hop
  subst hop
  exact .entry rfl ⟨by decide +kernel, by decide⟩ rfl (Or.inr ⟨rfl, rfl, by decide, by decide⟩) rfl
    trivial

/-- The entry is found with its pair, and gathered. -/
theorem keyed_reads_exact_sample :
    (∀ key : StorageKey, key.Named → ClearOfPairs (filledBy [pairedBundle]) ⟨-1, -1, 3⟩ key
        1700000000000000 →
      ∃ found, getEntryByKey (filledBy [pairedBundle]) [] 0 ⟨-1, -1, 3⟩ key
          (some 1700000000000000) = .ok found ∧
        ∀ e, found = some e ↔
          Current (filledBy [pairedBundle]) ⟨-1, -1, 3⟩ key 1700000000000000 e) ∧
    ∃ entries, getKeyedEntries (filledBy [pairedBundle]) [] 0 ⟨-1, -1, 3⟩
        (some 1700000000000000) = .ok entries ∧
      (∀ key : StorageKey, key.Named → ∀ e, entries.get? (storageKeyToString key) = some e ↔
        Current (filledBy [pairedBundle]) ⟨-1, -1, 3⟩ key 1700000000000000 e ∧
          e.deletion = false) ∧
      ∀ k e, entries.get? k = some e → k = storageKeyToString e.storageKey := by
  obtain ⟨c, hc⟩ : ∃ c, applyAll ⟨id, id⟩ true [pairedBundle] {} = .ok c := ⟨_, rfl⟩
  have hfilled : filledBy [pairedBundle] = c := by
    unfold filledBy
    rw [hc]
    rfl
  have hhistory : History ⟨id, id⟩ true [pairedBundle] (filledBy [pairedBundle]) := by
    rw [hfilled]
    exact History.start.applyAll hc
  refine keyed_reads_exact hhistory fitting_paired (Or.inr ⟨rfl, rfl, by decide, by decide⟩) ?_ []
    0 (some 1700000000000000) (by rfl) (by norm_num)
  have hbehavior : ∀ r ∈ (filledBy [pairedBundle]).placements.rows,
      isKeyed r.2.behavior = true := by decide +kernel
  exact fun r hr _ => hbehavior r hr

/-- **A number finds the entry of a pair** that begins with it. -/
theorem pair_found_by_number :
    ¬ ∃ found, getEntryByKey (filledBy [pairedBundle]) [] 0 ⟨-1, -1, 3⟩ (.number 1600000000000000)
        (some 1700000000000000) = .ok found ∧
      ∀ e, found = some e ↔ Current (filledBy [pairedBundle]) ⟨-1, -1, 3⟩
        (.number 1600000000000000) 1700000000000000 e := by
  intro h
  obtain ⟨found, hfound, hexact⟩ := h
  have hread : (getEntryByKey (filledBy [pairedBundle]) [] 0 ⟨-1, -1, 3⟩
      (.number 1600000000000000) (some 1700000000000000)).toOption.map
        (fun found => found.map Entry.storageKey) =
      some (some (.pair ⟨1600000000000000, 4, 1⟩ ⟨1600000000000000, 5, 1⟩)) := by decide +kernel
  rw [hfound] at hread
  obtain ⟨e, he, hkey⟩ := Option.map_eq_some_iff.mp (Option.some.inj hread)
  have hwritten := ((hexact e).mp he).written.key
  rw [hkey] at hwritten
  cases hwritten

end MemoryStore

end Js

end Gink
