/-
  Gink.Js.DroppedReads — the reads of the present after `dropHistory`.

  Each read is a scan of some index or a seek in it, and what is dropped is missing from every
  index.  So a read answers as before exactly when none of the rows it would return is among
  the dropped ones, or, for a read by key, when another row stands in for it.
-/
import Gink.Js.DroppedHistory

namespace Gink

namespace Js

open Gink.Idb (Key Range index visited lastIn)
open MemoryStore (noteEntry isKeyed storageKeyToString)

namespace IndexedDb

section
variable {c c' : Contents} {q : MuidTuple → Prop} {container : Option MuidTuple} {beforeTs : Int}

/-! ## §1. Sequences. -/

theorem filter_kept_congr {l : List Entry} {p p' : Entry → Bool}
    (h : ∀ e, isKept c container beforeTs e = true → p' e = p e) :
    (l.filter (isKept c container beforeTs)).filter p' =
      (l.filter p).filter (isKept c container beforeTs) := by
  rw [List.filter_filter, List.filter_filter]
  refine List.filter_congr fun e _ => ?_
  cases hkept : isKept c container beforeTs e with
  | false => rw [Bool.and_false, Bool.false_and]
  | true => rw [h e hkept, Bool.and_true, Bool.true_and]

theorem Drops.standing_eq (h : Drops c c' container beforeTs) (hc : Stamped q c) (id : MuidTuple)
    (t : Int) : standing c' id (some t) =
      (standing c id (some t)).filter (isKept c container beforeTs) := by
  unfold standing
  rw [h.visited_eq hc.separates_entries, h.getClearanceTime_eq]
  refine filter_kept_congr fun e hkept => ?_
  rw [h.isRemoved_eq hc hkept]

/-- The row was not removed by the present. -/
theorem Stamped.not_isRemoved (hc : Stamped q c) {now : Int} {e : Entry} :
    (!isRemoved c e.placementId (some (now + 1))) = true ↔ ¬ RemovedBy c now e := by
  rw [Bool.not_eq_true', ← Bool.not_eq_true, hc.isRemoved_iff]
  unfold RemovedBy
  simp only [Int.lt_add_one_iff]

/-- The entries of a sequence at present. -/
theorem Stamped.mem_standing (hc : Stamped q c) {id : MuidTuple} {now : Int} {e : Entry} :
    e ∈ standing c id (some (now + 1)) ↔ Stored c e ∧ e.containerId = id ∧ Reaches (now + 1) e ∧
      getClearanceTime c id (some (now + 1)) ≤ e.placementId.timestamp ∧ ¬ RemovedBy c now e := by
  unfold standing
  rw [List.mem_filter, Idb.mem_visited_index hc.separates_entries, Bool.and_eq_true,
    decide_eq_true_eq, hc.not_isRemoved]
  have hrange := @includes_position (now + 1) id e
  rw [show timeKey (some (now + 1)) = Key.number (now + 1) from rfl, hrange, and_assoc, and_assoc]
  rfl

/-- What is left of a list is all of it when nothing of it was dropped. -/
theorem filter_isKept_iff {l : List Entry} (hstored : ∀ e ∈ l, Stored c e) :
    l.filter (isKept c container beforeTs) = l ↔
      ∀ e, Dropped c container beforeTs e → e ∉ l := by
  rw [List.filter_eq_self]
  constructor
  · intro hall e hdropped hin
    exact (isKept_iff hdropped.1).mp (hall e hin) hdropped
  · intro hnone e hin
    exact (isKept_iff (hstored e hin)).mpr fun hdropped => hnone e hdropped hin

/-- **A sequence reads as before** exactly when each row that is dropped, stands at a position
of up to now and was not cleared was removed by now. -/
theorem Drops.ordered_iff (h : Drops c c' container beforeTs) (hc : Stamped q c)
    (trxns : List Int) (now : Int) (id : MuidTuple) :
    (∀ through, getOrderedEntries c' trxns now id through none =
      getOrderedEntries c trxns now id through none) ↔
    ∀ e, Dropped c container beforeTs e → e.containerId = id → Reaches (now + 1) e →
      getClearanceTime c id (some (now + 1)) ≤ e.placementId.timestamp → RemovedBy c now e := by
  have hlist : (∀ through, getOrderedEntries c' trxns now id through none =
      getOrderedEntries c trxns now id through none) ↔
        standing c' id (some (now + 1)) = standing c id (some (now + 1)) := by
    constructor
    · intro hall
      exact Except.ok.inj (hall none)
    · intro heq through
      unfold getOrderedEntries resolveAsOf
      simp only [bind, Except.bind]
      rw [heq]
  rw [hlist, h.standing_eq hc, filter_isKept_iff fun e he => (hc.mem_standing.mp he).1]
  refine forall₂_congr fun e hdropped => ?_
  rw [hc.mem_standing]
  constructor
  · intro hout hid hreaches hcleared
    by_contra hstands
    exact hout ⟨hdropped.1, hid, hreaches, hcleared, hstands⟩
  · intro hremoved hin
    obtain ⟨-, hid, hreaches, hcleared, hstands⟩ := hin
    exact hstands (hremoved hid hreaches hcleared)

/-! ## §2. Edges. -/

theorem Stamped.separates_ends (h : Stamped q c) (source : Bool) :
    Idb.Separates c.entries (Entry.byEnd source) := by
  intro r hr r' hr' hkey
  obtain ⟨k, e⟩ := r
  obtain ⟨k', e'⟩ := r'
  unfold Entry.byEnd at hkey
  simp only [Key.array.injEq, List.cons.injEq, MuidTuple.key_inj, and_true] at hkey
  have hk : k = k' := by rw [h.entry_key hr, h.entry_key hr', hkey.2.2]
  subst hk
  exact Table.eq_of_mem_of_mem hr hr'

/-- Of the storage keys the numbers come before `Infinity`. -/
theorem key_lt_infinity {storageKey : StorageKey} :
    storageKey.key < .infinity ↔ ∃ n, storageKey = .number n := by
  cases storageKey with
  | number n => simp [StorageKey.key, Key.lt_iff_spell_lt, Idb.Key.spell,
      List.cons_lt_cons_iff, Prod.Lex.toLex_lt_toLex]
  | characters s | octets b | empty | muid m | pair left rite =>
      simp [StorageKey.key, MuidTuple.key, Key.lt_iff_spell_lt, Idb.Key.spell,
        List.cons_lt_cons_iff, Prod.Lex.toLex_lt_toLex]

theorem key_ne_infinity {storageKey : StorageKey} : storageKey.key ≠ .infinity := by
  cases storageKey <;> simp [StorageKey.key, MuidTuple.key]

/-- The range takes in what stands at a number and has the vertex alone at that end. -/
theorem includes_end {source : Bool} {vertex : MuidTuple} {e : Entry} :
    Range.includes ⟨.array [.array [vertex.key]], .array [.array [vertex.key], .infinity]⟩
        (Entry.byEnd source e) = true ↔
      Entry.ends source e = [vertex] ∧ ∃ n, e.storageKey = .number n := by
  unfold Range.includes Entry.byEnd
  simp only [Bool.and_eq_true, decide_eq_true_eq]
  rw [← not_lt, ← not_lt, ← key_lt_infinity]
  simp only [Key.array_cons_lt, Key.array_nil_lt, Key.not_array_lt_nil, and_false, or_false]
  have hlist : Key.array ((Entry.ends source e).map MuidTuple.key) = Key.array [vertex.key] ↔
      Entry.ends source e = [vertex] := by
    rw [Key.array.injEq, ← List.map_singleton,
      (List.map_injective_iff.mpr MuidTuple.key_injective).eq_iff]
  constructor
  · intro hin
    push Not at hin
    obtain ⟨hlow, hhigh, hrest⟩ := hin
    have hsame := le_antisymm hhigh hlow
    obtain ⟨hle, -⟩ := hrest hsame.symm
    exact ⟨hlist.mp hsame, lt_of_le_of_ne hle key_ne_infinity⟩
  · intro hin
    obtain ⟨hends, hlt⟩ := hin
    push Not
    rw [hlist.mpr hends]
    exact ⟨le_refl _, le_refl _, fun _ => ⟨hlt.le, fun heq => absurd heq.symm hlt.ne⟩⟩

theorem Drops.attached_eq (h : Drops c c' container beforeTs) (hc : Stamped q c)
    (vertex : MuidTuple) (source : Bool) (t : Int) : attached c' vertex source (some t) =
      (attached c vertex source (some t)).filter (isKept c container beforeTs) := by
  unfold attached
  rw [h.visited_eq (hc.separates_ends source), h.getClearanceTime_eq]
  refine filter_kept_congr fun e hkept => ?_
  rw [h.isRemoved_eq hc hkept]

/-- The entries of a vertex at present. -/
theorem Stamped.mem_attached (hc : Stamped q c) {vertex : MuidTuple} {source : Bool} {now : Int}
    {e : Entry} : e ∈ attached c vertex source (some (now + 1)) ↔
      Stored c e ∧ (Entry.ends source e = [vertex] ∧ ∃ n, e.storageKey = .number n) ∧
        e.placementId.timestamp ≤ now ∧
        getClearanceTime c vertex (some (now + 1)) ≤ e.placementId.timestamp ∧
        ¬ RemovedBy c now e := by
  unfold attached
  rw [List.mem_filter, Idb.mem_visited_index (hc.separates_ends source), includes_end,
    Bool.and_eq_true, Bool.and_eq_true, decide_eq_true_eq, hc.not_isRemoved, Option.all_some,
    decide_eq_true_eq, Int.lt_add_one_iff, and_assoc]
  rfl

/-- **A vertex reads as before** exactly when each edge at it that is dropped, was placed by now
and was not cleared was removed by now. -/
theorem Drops.attached_iff (h : Drops c c' container beforeTs) (hc : Stamped q c)
    (trxns : List Int) (now : Int) (vertex : MuidTuple) (source : Bool) :
    getEntriesBySourceOrTarget c' trxns now vertex source none =
      getEntriesBySourceOrTarget c trxns now vertex source none ↔
    ∀ e, Dropped c container beforeTs e → Entry.ends source e = [vertex] →
      (∃ n, e.storageKey = .number n) → e.placementId.timestamp ≤ now →
      getClearanceTime c vertex (some (now + 1)) ≤ e.placementId.timestamp →
      RemovedBy c now e := by
  have hlist : getEntriesBySourceOrTarget c' trxns now vertex source none =
      getEntriesBySourceOrTarget c trxns now vertex source none ↔
        attached c' vertex source (some (now + 1)) = attached c vertex source (some (now + 1)) :=
    ⟨Except.ok.inj, congrArg Except.ok⟩
  rw [hlist, h.attached_eq hc, filter_isKept_iff fun e he => (hc.mem_attached.mp he).1]
  refine forall₂_congr fun e hdropped => ?_
  rw [hc.mem_attached]
  constructor
  · intro hout hends hnumber hplaced hcleared
    by_contra hstands
    exact hout ⟨hdropped.1, ⟨hends, hnumber⟩, hplaced, hcleared, hstands⟩
  · intro hremoved hin
    obtain ⟨-, ⟨hends, hnumber⟩, hplaced, hcleared, hstands⟩ := hin
    exact hstands (hremoved hends hnumber hplaced hcleared)

/-- What is dropped of before a time was removed by then. -/
theorem Dropped.removedBy (hc : Stamped q c) {now : Int} (hpast : beforeTs ≤ now + 1) {e : Entry}
    (hdropped : Dropped c container beforeTs e) : RemovedBy c now e := by
  obtain ⟨-, r, hr, hremoving⟩ := hdropped
  obtain ⟨k, hk⟩ := mem_removalsBefore hr
  have hlt := hc.removalsBefore_lt hr
  exact ⟨k, r, hk, hremoving, by omega⟩

/-! ## §3. Keys. -/

theorem Stamped.proper (h : Stamped q c) : Proper c :=
  ⟨fun r hr => (h.entries r hr).1, fun r hr => (h.clearances r hr).1⟩

variable {id : MuidTuple} {key : StorageKey}

/-- Where something was written to a key, something was written last. -/
theorem Proper.exists_lastWritten (h : Proper c) {asOfTs : Option Int} {e : Entry}
    (he : Written c id key asOfTs e) : ∃ l, LastWritten c id key asOfTs l ∧
      e.placementId.key ≤ l.placementId.key := by
  have hin := includes_lookup.mpr ⟨he.container, Or.inr ⟨he.key, he.before⟩⟩
  obtain ⟨p, hp⟩ := he.stored
  cases hseek : lastIn (index c.entries Entry.byContainerKeyPlacement) ⟨.array [id.key],
      .array [id.key, key.key, .array [timeKey asOfTs]]⟩ with
  | none =>
      have hout := (Idb.lastIn_index_none h.separates).mp hseek p e hp
      rw [hin] at hout
      cases hout
  | some l =>
      obtain ⟨-, hinl, hmax⟩ := (Idb.lastIn_index h.separates).mp hseek
      have hle := hmax p e hp hin
      obtain ⟨hl, hcase⟩ := includes_lookup.mp hinl
      have hkey : l.storageKey = key := by
        rcases hcase with hlt | hsame
        · rw [← not_lt] at hle
          refine absurd ?_ hle
          unfold Entry.byContainerKeyPlacement
          rw [hl, he.container, he.key]
          simp [hlt]
        · exact hsame.1
      have hlast := (seek_key h).mp ⟨hseek, hkey⟩
      exact ⟨l, hlast, hlast.last e he⟩

theorem MuidTuple.key_le_timestamp {a b : MuidTuple} (h : a.key ≤ b.key) :
    a.timestamp ≤ b.timestamp := by
  by_contra hlt
  exact absurd h (not_le.mpr (MuidTuple.key_lt.mpr (Or.inl (not_le.mp hlt))))

/-- **A key reads as before** exactly when the last row written to it, if it is dropped, was
cleared. -/
theorem Drops.entryByKey_iff (h : Drops c c' container beforeTs) (hc : Stamped q c)
    (trxns : List Int) : getEntryByKey c' trxns id key none = getEntryByKey c trxns id key none ↔
      ∀ e, Dropped c container beforeTs e → LastWritten c id key none e →
        e.placementId.timestamp < getClearanceTime c id none := by
  obtain ⟨found, hread, hfound⟩ :=
    @getEntryByKey_eq c id none hc.proper trxns none key rfl
  obtain ⟨found', hread', hfound'⟩ :=
    @getEntryByKey_eq c' id none (h.stamped hc).proper trxns none key rfl
  rw [hread, hread', Except.ok.injEq]
  constructor
  · intro heq e hdropped hlast
    by_contra hkept
    have he : found' = some e := heq.trans ((hfound e).mpr ⟨hlast, hkept⟩)
    exact (h.stored_iff.mp ((hfound' e).mp he).1.written.stored).2 hdropped
  · intro hcleared
    refine Option.ext fun e => ?_
    rw [hfound, hfound', h.getClearanceTime_eq]
    refine and_congr_left fun hkept => ?_
    constructor
    · intro hlast
      have hw := hlast.written
      obtain ⟨hstored, -⟩ := h.stored_iff.mp hw.stored
      obtain ⟨l, hl, hle⟩ := hc.proper.exists_lastWritten
        (⟨hstored, hw.container, hw.key, hw.before⟩ : Written c id key none e)
      by_cases hdropped : Dropped c container beforeTs l
      · -- the last row would be cleared, and so would the earlier one
        have hearly := hcleared l hdropped hl
        exact absurd (lt_of_le_of_lt (MuidTuple.key_le_timestamp hle) hearly) hkept
      · have hwl := hl.written
        have hback := hlast.last l ⟨h.stored_iff.mpr ⟨hwl.stored, hdropped⟩, hwl.container,
          hwl.key, hwl.before⟩
        have hsame := hc.proper.placement_inj hstored hwl.stored
          (MuidTuple.key_injective (le_antisymm hle hback))
        exact hsame ▸ hl
    · intro hlast
      have hdropped : ¬ Dropped c container beforeTs e := fun hd => hkept (hcleared e hd hlast)
      have hw := hlast.written
      refine ⟨⟨h.stored_iff.mpr ⟨hw.stored, hdropped⟩, hw.container, hw.key, hw.before⟩, ?_⟩
      intro x hx
      exact hlast.last x ⟨(h.stored_iff.mp hx.stored).1, hx.container, hx.key, hx.before⟩

/-! ## §4. All keys. -/

/-- The rows of a container, in the order of the index. -/
def rowsOf (c : Contents) (id : MuidTuple) : List (Key × Entry) :=
  (index c.entries Entry.byContainerKeyPlacement).rows.filter fun r =>
    decide (r.2.containerId = id)

/-- **What `getKeyedEntries` finds** at present. -/
theorem Stamped.keyedEntries_eq (hc : Stamped q c) (trxns : List Int) :
    getKeyedEntries c trxns id none =
      if (rowsOf c id).all fun r => isKeyed r.2.behavior then
        .ok (((rowsOf c id).filter fun r => isTimely (getClearanceTime c id none) none r.2).foldl
          (fun result r => noteEntry result r.2) ∅)
      else .error ⟨"assert failed"⟩ := by
  have hkeys : ∀ r ∈ (index c.entries Entry.byContainerKeyPlacement).rows,
      r.1 = Entry.byContainerKeyPlacement r.2 := fun r hr =>
    ((Idb.mem_index hc.separates_entries).mp hr).1
  unfold getKeyedEntries resolveAsOf
  simp only [bind, Except.bind]
  rw [gatherKeyed_eq, gathered_of_keys hkeys, List.filter_map, List.foldl_map, List.all_map]
  rfl

theorem Stamped.mem_rowsOf (hc : Stamped q c) {r : Key × Entry} : r ∈ rowsOf c id ↔
    r.1 = Entry.byContainerKeyPlacement r.2 ∧ Stored c r.2 ∧ r.2.containerId = id := by
  unfold rowsOf
  rw [List.mem_filter, Idb.mem_index hc.separates_entries, decide_eq_true_eq, and_assoc]
  rfl

theorem Drops.rowsOf_eq (h : Drops c c' container beforeTs) (hc : Stamped q c) :
    rowsOf c' id = (rowsOf c id).filter fun r => isKept c container beforeTs r.2 := by
  unfold rowsOf
  rw [h.index_rows hc.separates_entries, List.filter_filter, List.filter_filter]
  exact List.filter_congr fun r _ => Bool.and_comm _ _

/-- Every row that is dropped, of those under keys, has one that stays and stands in for it. -/
def Outlived (c : Contents) (container : Option MuidTuple) (beforeTs : Int) : Prop :=
  ∀ e, Dropped c container beforeTs e → accumulates e.behavior = false →
    ∃ e', Stored c e' ∧ ¬ Dropped c container beforeTs e' ∧ Supersedes e' e ∧
      isKeyed e'.behavior = isKeyed e.behavior ∧ e.entryId.timestamp ≤ e'.entryId.timestamp

/-- Where what is dropped stood under keys, the map is the same. -/
theorem Drops.noted_eq (h : Drops c c' container beforeTs) (hc : Stamped q c)
    (houtlived : Outlived c container beforeTs) {clearanceTime : Int}
    (hstanding : ∀ e, Dropped c container beforeTs e → e.containerId = id →
      accumulates e.behavior = false) :
    ((rowsOf c' id).filter fun r => isTimely clearanceTime none r.2).foldl
        (fun result r => noteEntry result r.2) ∅ =
      ((rowsOf c id).filter fun r => isTimely clearanceTime none r.2).foldl
        (fun result r => noteEntry result r.2) ∅ := by
  refine Gink.Js.noted_eq fun k => ?_
  have hsorted : (rowsOf c id).Pairwise fun a b => a.1 < b.1 :=
    (index c.entries Entry.byContainerKeyPlacement).sorted.filter _
  rw [h.rowsOf_eq hc]
  refine Table.getLast?_eq_of_reach (((hsorted.filter _).filter _).filter _)
    ((hsorted.filter _).filter _) ?_ ?_ ?_
  · intro a ha
    rw [List.mem_filter, List.mem_filter, List.mem_filter] at ha
    obtain ⟨⟨⟨hin, -⟩, htimely⟩, htext⟩ := ha
    exact ⟨a, List.mem_filter.mpr ⟨List.mem_filter.mpr ⟨hin, htimely⟩, htext⟩, le_refl _⟩
  · intro b hb
    rw [List.mem_filter, List.mem_filter] at hb
    obtain ⟨⟨hin, htimely⟩, htext⟩ := hb
    obtain ⟨hkey, hstored, hid⟩ := hc.mem_rowsOf.mp hin
    by_cases hdropped : Dropped c container beforeTs b.2
    · obtain ⟨e, he, hstays, hsup, -, hlater⟩ :=
        houtlived b.2 hdropped (hstanding b.2 hdropped hid)
      refine ⟨(Entry.byContainerKeyPlacement e, e), ?_, hkey ▸ Supersedes.above hsup⟩
      rw [List.mem_filter, List.mem_filter, List.mem_filter]
      refine ⟨⟨⟨hc.mem_rowsOf.mpr ⟨rfl, he, hsup.container.trans hid⟩,
        (isKept_iff he).mpr hstays⟩, ?_⟩, ?_⟩
      · unfold isTimely at htimely ⊢
        simp only [Option.all_none, Bool.true_and, decide_eq_true_eq] at htimely ⊢
        omega
      · rw [decide_eq_true_eq] at htext ⊢
        rw [← htext, hsup.key]
    · refine ⟨b, ?_, le_refl _⟩
      rw [List.mem_filter, List.mem_filter, List.mem_filter]
      exact ⟨⟨⟨hin, (isKept_iff hstored).mpr hdropped⟩, htimely⟩, htext⟩
  · intro a ha b hb hsame
    rw [List.mem_filter, List.mem_filter, List.mem_filter] at ha
    rw [List.mem_filter, List.mem_filter] at hb
    have ha' := (List.mem_filter.mp ha.1.1.1).1
    have hb' := (List.mem_filter.mp hb.1.1).1
    obtain ⟨k, v⟩ := a
    obtain ⟨k', v'⟩ := b
    obtain rfl : k = k' := hsame
    exact Prod.ext rfl (Table.eq_of_mem_of_mem ha' hb')

/-- **A container reads as before** exactly when, if an entry is dropped that is under no key,
another one stays. -/
theorem Drops.keyedEntries_iff (h : Drops c c' container beforeTs) (hc : Stamped q c)
    (houtlived : Outlived c container beforeTs) (trxns : List Int) :
    getKeyedEntries c' trxns id none = getKeyedEntries c trxns id none ↔
      ((∃ e, Dropped c container beforeTs e ∧ e.containerId = id ∧ accumulates e.behavior = true) →
        ∃ e, Stored c e ∧ ¬ Dropped c container beforeTs e ∧ e.containerId = id ∧
          isKeyed e.behavior = false) := by
  have hunkeyed : ∀ {b : Behavior}, accumulates b = true → isKeyed b = false := by
    intro b hb
    cases b <;> first | rfl | cases hb
  rw [hc.keyedEntries_eq, (h.stamped hc).keyedEntries_eq, h.getClearanceTime_eq]
  have hall' : (rowsOf c' id).all (fun r => isKeyed r.2.behavior) = true ↔ ∀ e, Stored c e →
      ¬ Dropped c container beforeTs e → e.containerId = id → isKeyed e.behavior = true := by
    rw [List.all_eq_true]
    constructor
    · intro hall e hstored hkept hid
      exact hall (Entry.byContainerKeyPlacement e, e)
        ((h.stamped hc).mem_rowsOf.mpr ⟨rfl, h.stored_iff.mpr ⟨hstored, hkept⟩, hid⟩)
    · intro hall r hr
      obtain ⟨-, hstored, hid⟩ := (h.stamped hc).mem_rowsOf.mp hr
      obtain ⟨hold, hkept⟩ := h.stored_iff.mp hstored
      exact hall r.2 hold hkept hid
  have hall : (rowsOf c id).all (fun r => isKeyed r.2.behavior) = true ↔
      ∀ e, Stored c e → e.containerId = id → isKeyed e.behavior = true := by
    rw [List.all_eq_true]
    constructor
    · intro hall e hstored hid
      exact hall (Entry.byContainerKeyPlacement e, e) (hc.mem_rowsOf.mpr ⟨rfl, hstored, hid⟩)
    · intro hall r hr
      obtain ⟨-, hstored, hid⟩ := hc.mem_rowsOf.mp hr
      exact hall r.2 hstored hid
  by_cases hkept : (rowsOf c' id).all (fun r => isKeyed r.2.behavior) = true
  · by_cases hwas : (rowsOf c id).all (fun r => isKeyed r.2.behavior) = true
    · rw [if_pos hkept, if_pos hwas]
      have hnone : ¬ ∃ e, Dropped c container beforeTs e ∧ e.containerId = id ∧
          accumulates e.behavior = true := by
        intro hex
        obtain ⟨e, hdropped, hid, hacc⟩ := hex
        have hkeyed := hall.mp hwas e hdropped.1 hid
        rw [hunkeyed hacc] at hkeyed
        cases hkeyed
      rw [h.noted_eq hc houtlived fun e hdropped hid => by
        by_contra hacc
        exact hnone ⟨e, hdropped, hid, by simpa using hacc⟩]
      exact iff_of_true rfl fun hex => absurd hex hnone
    · -- all entries that were under no key are dropped
      rw [if_pos hkept, if_neg hwas]
      refine iff_of_false (fun heq => by cases heq) fun himp => ?_
      have hex : ∃ e, Dropped c container beforeTs e ∧ e.containerId = id ∧
          isKeyed e.behavior = false := by
        by_contra hnone
        refine hwas (hall.mpr fun e hstored hid => ?_)
        by_contra hnot
        have hdropped : ¬ Dropped c container beforeTs e := fun hd =>
          hnone ⟨e, hd, hid, by simpa using hnot⟩
        exact hnot (hall'.mp hkept e hstored hdropped hid)
      obtain ⟨e, hdropped, hid, hbehavior⟩ := hex
      cases hacc : accumulates e.behavior with
      | true =>
          obtain ⟨x, hx, hstays, hxid, hxkeyed⟩ := himp ⟨e, hdropped, hid, hacc⟩
          have := hall'.mp hkept x hx hstays hxid
          rw [hxkeyed] at this
          cases this
      | false =>
          obtain ⟨x, hx, hstays, hsup, hsame, -⟩ := houtlived e hdropped hacc
          have := hall'.mp hkept x hx hstays (hsup.container.trans hid)
          rw [hsame, hbehavior] at this
          cases this
  · rw [if_neg hkept, if_neg fun hwas => hkept (hall'.mpr fun e hstored _ hid =>
      hall.mp hwas e hstored hid)]
    refine iff_of_true rfl fun _ => ?_
    by_contra hnone
    refine hkept (hall'.mpr fun e hstored hstays hid => ?_)
    by_contra hnot
    exact hnone ⟨e, hstored, hstays, hid, by simpa using hnot⟩

end

end IndexedDb

end Js

end Gink
