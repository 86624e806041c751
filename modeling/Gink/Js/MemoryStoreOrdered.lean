/-
  Gink.Js.MemoryStoreOrdered — the courses of entries in the JavaScript `MemoryStore`.

  The tables are keyed by strings that spell addresses, and the last place of an entry is
  sought with `toLastWithPrefixBeforeSuffix`.  The spelling of an address starts with no
  other muid's, so the seek finds the last placement of the entry's own course, and while
  history is kept the tables are those of the courses, as in `IndexedDbStore`.
-/
import Gink.Js.Courses
import Gink.Js.IndexedDbRows
import Gink.Js.MemoryStore

namespace Gink

namespace Js

namespace MemoryStore

/-! ## §1. Seeks. -/

section
variable {V : Type} {t : Table Str V} {pre : Str}

theorem toLast_eq_some {suffix : Str} {r : Str × V}
    (h : toLastWithPrefixBeforeSuffix t pre suffix = some r) : r ∈ t.rows ∧ pre <+: r.1 := by
  unfold toLastWithPrefixBeforeSuffix at h
  cases hlast : t.lastWhere fun k => decide (k ≤ pre ++ suffix) with
  | none => simp [hlast] at h
  | some row =>
      simp only [hlast] at h
      by_cases hpre : pre.isPrefixOf row.1 = true
      · rw [if_pos hpre] at h
        injection h with h
        subst h
        exact ⟨(Table.lastWhere_eq_some_iff.mp hlast).1, List.isPrefixOf_iff_prefix.mp hpre⟩
      · simp [hpre] at h

/-- If a key starts with the prefix and is within the bound, the seek finds the last such. -/
theorem toLast_isSome {suffix : Str} {r : Str × V} (hr : r ∈ t.rows) (hpre : pre <+: r.1)
    (hle : r.1 ≤ pre ++ suffix) :
    ∃ found, toLastWithPrefixBeforeSuffix t pre suffix = some found ∧
      ∀ x ∈ t.rows, x.1 ≤ pre ++ suffix → x.1 ≤ found.1 := by
  cases hlast : t.lastWhere fun k => decide (k ≤ pre ++ suffix) with
  | none =>
      have := Table.lastWhere_eq_none_iff.mp hlast r hr
      simp [hle] at this
  | some found =>
      obtain ⟨-, hbound, hmax⟩ := Table.lastWhere_eq_some_iff.mp hlast
      rw [decide_eq_true_eq] at hbound
      have hmax' : ∀ x ∈ t.rows, x.1 ≤ pre ++ suffix → x.1 ≤ found.1 := fun x hx hxle =>
        hmax x hx (by simpa using hxle)
      have hstart : pre <+: found.1 :=
        startsWith_of_le_of_le hpre (List.prefix_append _ _) (hmax' r hr hle) hbound
      refine ⟨found, ?_, hmax'⟩
      unfold toLastWithPrefixBeforeSuffix
      simp only [hlast]
      rw [if_pos (List.isPrefixOf_iff_prefix.mpr hstart)]

end

/-! ## §2. Keys. -/

theorem joinedIds_inj {a b a' b' : Str} (hb : (44 : Int) ∉ b) (hb' : (44 : Int) ∉ b')
    (h : joinedIds a b = joinedIds a' b') : a = a' ∧ b = b' := by
  unfold joinedIds comma at h
  simp only [List.append_assoc, List.cons_append, List.nil_append] at h
  exact cut_inj hb hb' h

theorem joinedIds_le {a b : Str} : joinedIds a b ≤ a ++ tilde := by
  unfold joinedIds
  rw [List.append_assoc]
  refine le_of_lt (List.append_left_lt ?_)
  exact List.cons_lt_cons_iff.mpr (Or.inl (by decide))

theorem joinedIds_le_joinedIds {a b b' : Str} : joinedIds a b ≤ joinedIds a b' ↔ b ≤ b' := by
  unfold joinedIds
  rw [← not_lt, ← not_lt]
  refine not_congr ⟨fun h => ?_, fun h => List.append_left_lt h⟩
  by_contra hb
  rcases lt_or_eq_of_le (not_lt.mp hb) with hlt | rfl
  · exact lt_asymm h (List.append_left_lt hlt)
  · exact lt_irrefl _ h

theorem lastUnits_append {a b : Str} (h : 34 ≤ b.length) : lastUnits (a ++ b) = lastUnits b := by
  unfold lastUnits
  rw [List.length_append, List.drop_append, List.drop_eq_nil_of_le (by omega), List.nil_append]
  congr 1
  omega

theorem lastUnits_placementKey (e : Entry) :
    lastUnits (placementKey e) = lastUnits (muidTupleToString e.placementId) := by
  unfold placementKey
  exact lastUnits_append (length_le _)

/-- The key of an entry's location. -/
def locationKey (e : Entry) : Str :=
  joinedIds (muidTupleToString e.entryId) (muidTupleToString e.placementId)

/-- The key of a removal. -/
def removalKey (r : Removal) : Str :=
  joinedIds (lastUnits (muidTupleToString r.removing)) (muidTupleToString r.removalId)

def clearanceKey (z : Clearance) : Str :=
  joinedIds (muidTupleToString z.containerId) (muidTupleToString z.clearanceId)

theorem clearanceKey_inj {z z' : Clearance} (h : clearanceKey z = clearanceKey z') :
    muidTupleToString z.clearanceId = muidTupleToString z'.clearanceId :=
  (joinedIds_inj comma_not_spelled comma_not_spelled h).2

/-! ## §3. Courses and tables. -/

/-- An address that no change so far has. -/
def Fresh (past : List Op) (m : MuidTuple) : Prop :=
  ∀ op ∈ past, changeAddress op.info op.offset ≠ m

/-- The placements and locations of the store are those of the courses. -/
structure Places (past : List Op) (c : Contents) (t : Str → Course) : Prop where
  placements : ∀ k e, (k, e) ∈ c.placements.rows ↔
    k = placementKey e ∧ e ∈ (t (muidTupleToString e.entryId)).entries
  locations : ∀ k v, (k, v) ∈ c.locations.rows ↔
    ∃ e, e ∈ (t (muidTupleToString e.entryId)).entries ∧ k = locationKey e ∧ v = placementKey e
  owned : ∀ s, ∀ e ∈ (t s).entries, muidTupleToString e.entryId = s ∧ IsAddress e.entryId ∧
    (e.behavior = .sequence ∨ e.behavior = .edgeType)
  made : ∀ s, ∀ e ∈ (t s).entries, IsAddress e.placementId ∧
    ∃ op ∈ past, changeAddress op.info op.offset = e.placementId
  inj : ∀ s, ∀ e ∈ (t s).entries, ∀ s', ∀ e' ∈ (t s').entries,
    e.placementId = e'.placementId → e = e'

section
variable {past : List Op} {c c' : Contents} {t : Str → Course} {walks : Walks}

theorem Places.start : Places [] {} (fun _ => {}) := by
  constructor <;> simp

/-- **The seek for an entry's location** finds the last placement of its course. -/
theorem Places.seek (h : Places past c t) (x : MuidTuple) :
    toLastWithPrefixBeforeSuffix c.locations (muidTupleToString x) tilde =
      ((t (muidTupleToString x)).last muidTupleToString).map
        fun e => (locationKey e, placementKey e) := by
  have hstored : ∀ e ∈ (t (muidTupleToString x)).entries,
      (locationKey e, placementKey e) ∈ c.locations.rows ∧
        muidTupleToString e.entryId = muidTupleToString x := by
    intro e he
    have hname := (h.owned _ e he).1
    exact ⟨(h.locations _ _).mpr ⟨e, hname.symm ▸ he, rfl, rfl⟩, hname⟩
  have hbound : ∀ e ∈ (t (muidTupleToString x)).entries,
      locationKey e ≤ muidTupleToString x ++ tilde := by
    intro e he
    rw [← (hstored e he).2]
    exact joinedIds_le
  cases hseek : toLastWithPrefixBeforeSuffix c.locations (muidTupleToString x) tilde with
  | none =>
      have hempty : (t (muidTupleToString x)).entries = [] := by
        rw [List.eq_nil_iff_forall_not_mem]
        intro e he
        obtain ⟨hrow, hname⟩ := hstored e he
        have hstart : muidTupleToString x <+: locationKey e := by
          rw [← hname]
          exact ⟨_, (List.append_assoc _ _ _).symm⟩
        obtain ⟨found, hfound, -⟩ := toLast_isSome hrow hstart (hbound e he)
        rw [hseek] at hfound
        exact absurd hfound (by simp)
      unfold Course.last
      rw [hempty]
      rfl
  | some found =>
      obtain ⟨hrow, hstart⟩ := toLast_eq_some hseek
      obtain ⟨e, he, hkey, hvalue⟩ := (h.locations found.1 found.2).mp hrow
      -- what starts the location's key starts the entry's address, and so is the address
      have hname : muidTupleToString x = muidTupleToString e.entryId := by
        refine startsWith_address (h.owned _ e he).2.1 ?_
        refine startsWith_cut (u := 44) (b := muidTupleToString e.placementId) comma_not_spelled ?_
        rw [hkey] at hstart
        unfold locationKey joinedIds comma at hstart
        rwa [List.append_assoc] at hstart
      rw [← hname] at he
      have hlast : (t (muidTupleToString x)).last muidTupleToString = some e := by
        refine Course.last_eq he fun y hy hle => ?_
        obtain ⟨hyrow, hyname⟩ := hstored y hy
        have hstarty : muidTupleToString x <+: locationKey y := by
          rw [← hyname]
          exact ⟨_, (List.append_assoc _ _ _).symm⟩
        obtain ⟨found', hfound', hmax⟩ := toLast_isSome hyrow hstarty (hbound y hy)
        rw [hseek] at hfound'
        injection hfound' with hfound'
        subst hfound'
        have hyle := hmax _ hyrow (hbound y hy)
        rw [hkey] at hyle
        unfold locationKey at hyle
        rw [hyname, ← hname, joinedIds_le_joinedIds] at hyle
        exact h.inj _ y hy _ e he
          (muidTupleToString_inj (h.made _ y hy).1 (h.made _ e he).1 (le_antisymm hyle hle))
      rw [hlast, Option.map_some, ← hkey, ← hvalue]

/-! ## §4. One change. -/

theorem mem_put_fresh {V : Type} {table : Table Str V} {k : Str} {v : V}
    (hfresh : ∀ r ∈ table.rows, r.1 ≠ k) (r : Str × V) :
    r ∈ (table.put k v).rows ↔ r ∈ table.rows ∨ r = (k, v) := by
  rw [Table.mem_rows_put]
  constructor
  · rintro (hr | ⟨-, hr⟩)
    · exact Or.inr hr
    · exact Or.inl hr
  · rintro (hr | hr)
    · exact Or.inr ⟨hfresh r hr, hr⟩
    · exact Or.inl hr

theorem Places.mono {op : Op} (h : Places past c t) : Places (past ++ [op]) c t := by
  refine ⟨h.placements, h.locations, h.owned, fun s e he => ?_, h.inj⟩
  obtain ⟨haddress, o, ho, heq⟩ := h.made s e he
  exact ⟨haddress, o, List.mem_append_left _ ho, heq⟩

/-- **A placement put into the tables** joins the course of its entry. -/
theorem Places.added (h : Places past c t) {op : Op} {e : Entry} {t' : Str → Course}
    (hop : changeAddress op.info op.offset = e.placementId) (hfresh : Fresh past e.placementId)
    (hplacement : IsAddress e.placementId) (hentry : IsAddress e.entryId)
    (hbehavior : e.behavior = .sequence ∨ e.behavior = .edgeType)
    (hplacements : c'.placements = c.placements.put (placementKey e) e)
    (hlocations : c'.locations = c.locations.put (locationKey e) (placementKey e))
    (hcourse : ∀ s x, x ∈ (t' s).entries ↔
      x ∈ (t s).entries ∨ (muidTupleToString e.entryId = s ∧ x = e)) :
    Places (past ++ [op]) c' t' := by
  have hnew : ∀ s, ∀ x ∈ (t s).entries, x.placementId ≠ e.placementId := by
    intro s x hx heq
    obtain ⟨-, o, ho, hmade⟩ := h.made s x hx
    exact hfresh o ho (hmade.trans heq)
  have hspelling : ∀ s, ∀ x ∈ (t s).entries,
      muidTupleToString x.placementId ≠ muidTupleToString e.placementId := fun s x hx heq =>
    hnew s x hx (muidTupleToString_inj (h.made s x hx).1 hplacement heq)
  constructor
  · intro k x
    have hkeys : ∀ r ∈ c.placements.rows, r.1 ≠ placementKey e := by
      intro r hr heq
      obtain ⟨hk, hx⟩ := (h.placements r.1 r.2).mp hr
      rw [hk] at heq
      exact hspelling _ _ hx (joinedIds_inj comma_not_spelled comma_not_spelled heq).2
    rw [hplacements, mem_put_fresh hkeys, h.placements, hcourse, Prod.mk.injEq]
    constructor
    · rintro (⟨hk, hx⟩ | ⟨rfl, rfl⟩)
      · exact ⟨hk, Or.inl hx⟩
      · exact ⟨rfl, Or.inr ⟨rfl, rfl⟩⟩
    · rintro ⟨hk, hx | ⟨-, rfl⟩⟩
      · exact Or.inl ⟨hk, hx⟩
      · exact Or.inr ⟨hk, rfl⟩
  · intro k v
    have hkeys : ∀ r ∈ c.locations.rows, r.1 ≠ locationKey e := by
      intro r hr heq
      obtain ⟨x, hx, hk, -⟩ := (h.locations r.1 r.2).mp hr
      rw [hk] at heq
      exact hspelling _ _ hx (joinedIds_inj comma_not_spelled comma_not_spelled heq).2
    rw [hlocations, mem_put_fresh hkeys, h.locations, Prod.mk.injEq]
    simp only [hcourse]
    constructor
    · rintro (⟨x, hx, hkv⟩ | ⟨hk, hv⟩)
      · exact ⟨x, Or.inl hx, hkv⟩
      · exact ⟨e, Or.inr ⟨rfl, rfl⟩, hk, hv⟩
    · rintro ⟨x, hx | ⟨-, rfl⟩, hkv⟩
      · exact Or.inl ⟨x, hx, hkv⟩
      · exact Or.inr hkv
  · intro s x hx
    rcases (hcourse s x).mp hx with hx | ⟨hs, rfl⟩
    · exact h.owned s x hx
    · exact ⟨hs, hentry, hbehavior⟩
  · intro s x hx
    rcases (hcourse s x).mp hx with hx | ⟨-, rfl⟩
    · exact h.mono.made s x hx
    · exact ⟨hplacement, op, List.mem_append_right _ (List.mem_singleton.mpr rfl), hop⟩
  · intro s x hx s' x' hx' heq
    rcases (hcourse s x).mp hx with hx | ⟨-, rfl⟩ <;> rcases (hcourse s' x').mp hx' with hx' | ⟨-, rfl⟩
    · exact h.inj s x hx s' x' hx' heq
    · exact absurd heq (hnew s x hx)
    · exact absurd heq.symm (hnew s' x' hx')
    · rfl

/-- The whole store: its removals are those of the courses, its clearances those of the
changes. -/
structure Represents (past : List Op) (c : Contents) (t : Str → Course) : Prop
    extends Places past c t where
  removals : ∀ r, r ∈ c.removals.rows ↔ ∃ s, ∃ x ∈ (t s).removals, r = (removalKey x, ())
  clearances : ∀ r, r ∈ c.clearances.rows ↔
    ∃ op ∈ past, ∃ z, IndexedDb.clearanceOf op = some z ∧ r = (clearanceKey z, z)

theorem Represents.start : Represents [] {} (fun _ => {}) := by
  refine ⟨Places.start, ?_, ?_⟩ <;> simp

/-- An entry of an ordered container put into the tables. -/
theorem addEntry_ordered {purging : Bool} {e : Entry}
    (hbehavior : e.behavior = .sequence ∨ e.behavior = .edgeType)
    (h : addEntry walks true purging e c = .ok c') :
    c'.placements = c.placements.put (placementKey e) e ∧
      c'.locations = c.locations.put (locationKey e) (placementKey e) ∧
      c'.removals = c.removals ∧ c'.clearances = c.clearances := by
  have hacc : ¬ (e.behavior = .accumulator ∧ (!isBigint e.value) = true) := by
    rcases hbehavior with hb | hb <;> simp [hb]
  unfold addEntry at h
  simp only [makeRoom, if_pos hbehavior, if_neg hacc, Except.ok.injEq] at h
  rw [← h]
  exact ⟨rfl, rfl, rfl, rfl⟩

/-- The courses after an op. -/
def courseAfter (t : Str → Course) (op : Op) : Str → Course :=
  Machine.run (Course.step muidTupleToString muidTupleToString) t (eventOf buildEntry op).toList

theorem clearances_mono {op : Op} (hnone : IndexedDb.clearanceOf op = none)
    (h : ∀ r, r ∈ c.clearances.rows ↔
      ∃ o ∈ past, ∃ z, IndexedDb.clearanceOf o = some z ∧ r = (clearanceKey z, z))
    (r : Str × Clearance) : r ∈ c.clearances.rows ↔
      ∃ o ∈ past ++ [op], ∃ z, IndexedDb.clearanceOf o = some z ∧ r = (clearanceKey z, z) := by
  rw [h]
  simp only [List.mem_append, List.mem_singleton, or_and_right, exists_or, exists_eq_left, hnone,
    reduceCtorEq, false_and, exists_false, or_false]

theorem isAddress_changeAddress {info : BundleInfo} {offset : Nat} (h : offset < 2 ^ 32) :
    IsAddress (changeAddress info offset) :=
  ⟨Int.natCast_nonneg _, Int.natCast_nonneg _, Int.natCast_nonneg _, by
    show (offset : Int) < 2 ^ 32
    omega⟩

theorem buildEntry_ok {builder : EntryBuilder} {info : BundleInfo} {offset : Nat} {e : Entry}
    (h : buildEntry builder info offset = .ok e) :
    e.behavior = builder.behavior ∧ e.entryId = changeAddress info offset ∧
      e.placementId = changeAddress info offset := by
  obtain ⟨lists, -, h1⟩ := bind_eq_ok.mp h
  obtain ⟨containerId, -, h2⟩ := bind_eq_ok.mp h1
  obtain ⟨storageKey, -, h3⟩ := bind_eq_ok.mp h2
  rw [← pure_eq_ok.mp h3]
  exact ⟨rfl, rfl, rfl⟩

theorem clearanceOf_address {op : Op} {z : Clearance} (h : IndexedDb.clearanceOf op = some z) :
    z.clearanceId = changeAddress op.info op.offset := by
  unfold IndexedDb.clearanceOf at h
  cases hchange : op.change <;> simp only [hchange, reduceCtorEq] at h
  obtain ⟨b, -, h1⟩ := bind_eq_ok.mp (IndexedDb.toOption_eq_some.mp h)
  obtain ⟨container, -, h2⟩ := bind_eq_ok.mp h1
  rw [← pure_eq_ok.mp h2]

/-- A change that places nothing leaves the places. -/
theorem Places.kept (h : Places past c t) {op : Op} {t' : Str → Course}
    (hplacements : c'.placements = c.placements) (hlocations : c'.locations = c.locations)
    (hcourse : ∀ s x, x ∈ (t' s).entries ↔ x ∈ (t s).entries) : Places (past ++ [op]) c' t' := by
  refine ⟨?_, ?_, ?_, ?_, ?_⟩ <;> simp only [hplacements, hlocations, hcourse]
  · exact h.placements
  · exact h.locations
  · exact h.owned
  · exact h.mono.made
  · exact h.inj

/-- An entry of an ordered container is the first event of its course. -/
theorem Represents.placed (h : Represents past c t) {op : Op} {builder : EntryBuilder}
    (hchange : op.change = .entry builder)
    (hordered : builder.behavior = .sequence ∨ builder.behavior = .edgeType)
    (hfresh : Fresh past (changeAddress op.info op.offset)) (hoffset : op.offset < 2 ^ 32)
    (happlied : applyChange walks true op.info op.offset c (.entry builder) = .ok c') :
    Represents (past ++ [op]) c' (courseAfter t op) := by
  obtain ⟨e, hbuild, hadd⟩ := bind_eq_ok.mp happlied
  obtain ⟨hbehavior, hentry, hplacement⟩ := buildEntry_ok hbuild
  have hevent : eventOf buildEntry op = some (.placed e) := by
    unfold eventOf
    simp only [hchange, hbuild]
    rfl
  have haddress : IsAddress (changeAddress op.info op.offset) := isAddress_changeAddress hoffset
  rw [← hbehavior] at hordered
  obtain ⟨hplacements, hlocations, hremovals, hclearances⟩ := addEntry_ordered hordered hadd
  unfold courseAfter
  rw [hevent]
  refine ⟨h.added hplacement.symm (hplacement ▸ hfresh) (hplacement ▸ haddress)
    (hentry ▸ haddress) hordered hplacements hlocations fun s x => ?_, fun r => ?_, ?_⟩
  · exact Course.mem_entries_placed
  · rw [hremovals, h.removals]
    refine exists_congr fun s => ?_
    show _ ↔ ∃ x ∈ (Course.step muidTupleToString muidTupleToString t (.placed e) s).removals, _
    rw [Course.removals_placed]
  · rw [hclearances]
    refine clearances_mono ?_ h.clearances
    unfold IndexedDb.clearanceOf
    rw [hchange]

/-- A movement of an entry that is found leaves its removal. -/
theorem Represents.left (h : Represents past c t) {m : Movement} {found : Entry} {t' : Str → Course}
    (hcourse : ∀ s r, r ∈ (t' s).removals ↔
      r ∈ (t s).removals ∨ (muidTupleToString m.entryId = s ∧ r = m.removal found))
    (r : Str × Unit) :
    r ∈ (c.removals.put (joinedIds (lastUnits (placementKey found))
      (muidTupleToString m.movementId)) ()).rows ↔
        ∃ s, ∃ x ∈ (t' s).removals, r = (removalKey x, ()) := by
  have hkey : joinedIds (lastUnits (placementKey found)) (muidTupleToString m.movementId)
      = removalKey (m.removal found) := by
    rw [lastUnits_placementKey]
    rfl
  rw [hkey, Table.mem_rows_put, h.removals]
  simp only [hcourse]
  constructor
  · rintro (rfl | ⟨-, s, x, hx, rfl⟩)
    · exact ⟨_, _, Or.inr ⟨rfl, rfl⟩, rfl⟩
    · exact ⟨s, x, Or.inl hx, rfl⟩
  · rintro ⟨s, x, hx | ⟨-, rfl⟩, rfl⟩
    · by_cases hsame : removalKey x = removalKey (m.removal found)
      · exact Or.inl (by rw [hsame])
      · exact Or.inr ⟨hsame, s, x, hx, rfl⟩
    · exact Or.inl rfl

/-- A movement, with history kept. -/
theorem Represents.moved (h : Represents past c t) {op : Op} {builder : MovementBuilder}
    (hchange : op.change = .movement builder) (hordered : builder.purge = false)
    (hfresh : Fresh past (changeAddress op.info op.offset)) (hoffset : op.offset < 2 ^ 32)
    (happlied : applyChange walks true op.info op.offset c (.movement builder) = .ok c') :
    Represents (past ++ [op]) c' (courseAfter t op) := by
  obtain ⟨m, hextract, happly⟩ := bind_eq_ok.mp happlied
  have hevent : eventOf buildEntry op = some (.moved m) := by
    unfold eventOf
    simp only [hchange, hextract]
    rfl
  have hm : m.purge = builder.purge ∧ m.movementId = changeAddress op.info op.offset := by
    obtain ⟨b, -, hb⟩ := bind_eq_ok.mp hextract
    rw [← pure_eq_ok.mp hb]
    exact ⟨rfl, rfl⟩
  have hnone : IndexedDb.clearanceOf op = none := by
    unfold IndexedDb.clearanceOf
    rw [hchange]
  unfold courseAfter
  rw [hevent]
  show Represents (past ++ [op]) c' (Course.step muidTupleToString muidTupleToString t (.moved m))
  unfold applyMovement at happly
  rw [hm.1, hordered, Bool.false_or, if_neg (by simp), h.seek] at happly
  cases hlast : (t (muidTupleToString m.entryId)).last muidTupleToString with
  | none =>
      simp only [hlast, Option.map_none, Except.ok.injEq] at happly
      rw [Course.step_moved_none hlast, ← happly]
      exact ⟨h.toPlaces.mono, h.removals, clearances_mono hnone h.clearances⟩
  | some found =>
      have hfound := Course.last_mem hlast
      obtain ⟨hname, hentry, hbehavior⟩ := h.owned _ _ hfound
      have hget : c.placements.get? (placementKey found) = some found :=
        Table.get?_eq_some_iff.mpr ((h.placements _ _).mpr ⟨rfl, hname.symm ▸ hfound⟩)
      simp only [hlast, Option.map_some, hget] at happly
      unfold replaceMoved at happly
      by_cases hdest : m.dest ≠ 0
      · rw [if_pos hdest] at happly
        obtain ⟨hplacements, hlocations, hremovals, hclearances⟩ :=
          addEntry_ordered (e := IndexedDb.Entry.movedTo found m) hbehavior happly
        have hmove : IsAddress (changeAddress op.info op.offset) := isAddress_changeAddress hoffset
        rw [← hm.2] at hfresh hmove
        refine ⟨h.toPlaces.added (e := IndexedDb.Entry.movedTo found m) hm.2.symm hfresh hmove hentry
          hbehavior hplacements hlocations fun s x => ?_, ?_, ?_⟩
        · rw [Course.mem_entries_moved hlast]
          show _ ↔ x ∈ (t s).entries ∨ (muidTupleToString found.entryId = s ∧ _)
          rw [hname]
          simp [hdest]
        · rw [hremovals]
          exact h.left fun s r => Course.mem_removals_moved hlast
        · rw [hclearances]
          exact clearances_mono hnone h.clearances
      · rw [if_neg hdest] at happly
        injection happly with happly
        rw [← happly]
        have hcourse : ∀ s x,
            x ∈ (Course.step muidTupleToString muidTupleToString t (.moved m) s).entries ↔
              x ∈ (t s).entries := by
          intro s x
          rw [Course.mem_entries_moved hlast]
          simp [hdest]
        refine ⟨h.toPlaces.kept rfl rfl hcourse, ?_, ?_⟩
        · exact h.left fun s r => Course.mem_removals_moved hlast
        · exact clearances_mono hnone h.clearances

/-- A clearance that purges nothing. -/
theorem Represents.cleared (h : Represents past c t) {op : Op} {builder : ClearanceBuilder}
    (hchange : op.change = .clearance builder) (hordered : builder.purge = false)
    (hfresh : Fresh past (changeAddress op.info op.offset))
    (hoffsets : ∀ o ∈ past ++ [op], o.offset < 2 ^ 32)
    (happlied : applyChange walks true op.info op.offset c (.clearance builder) = .ok c') :
    Represents (past ++ [op]) c' (courseAfter t op) := by
  obtain ⟨b, hmessage, h1⟩ := bind_eq_ok.mp happlied
  obtain ⟨container, hcontainer, h2⟩ := bind_eq_ok.mp h1
  simp only [hordered, Bool.false_eq_true, if_false] at h2
  have hclear : IndexedDb.clearanceOf op
      = some ⟨container, changeAddress op.info op.offset, false⟩ := by
    unfold IndexedDb.clearanceOf
    simp only [hchange, hmessage, hcontainer, hordered, bind, Except.bind]
    rfl
  have hevent : eventOf buildEntry op = none := by
    unfold eventOf
    rw [hchange]
  have hkeys : ∀ r ∈ c.clearances.rows,
      r.1 ≠ clearanceKey ⟨container, changeAddress op.info op.offset, false⟩ := by
    intro r hr heq
    obtain ⟨o, ho, z, hz, hrz⟩ := (h.clearances r).mp hr
    rw [hrz] at heq
    have hid := clearanceKey_inj heq
    rw [clearanceOf_address hz] at hid
    exact hfresh o ho (muidTupleToString_inj
      (isAddress_changeAddress (hoffsets o (List.mem_append_left _ ho)))
      (isAddress_changeAddress
        (hoffsets op (List.mem_append_right _ (List.mem_singleton.mpr rfl)))) hid)
  unfold courseAfter
  rw [hevent, ← pure_eq_ok.mp h2]
  refine ⟨h.toPlaces.kept rfl rfl fun _ _ => Iff.rfl, h.removals, fun r => ?_⟩
  have hrows := mem_put_fresh hkeys (v := ⟨container, changeAddress op.info op.offset, false⟩) r
  rw [h.clearances] at hrows
  refine hrows.trans ?_
  simp only [List.mem_append, List.mem_singleton, or_and_right, exists_or, exists_eq_left, hclear,
    Option.some.injEq, exists_eq_left']

/-- **One change** of an ordered container. -/
theorem Represents.step (h : Represents past c t) {op : Op} (hordered : IsOrdered op.change)
    (hfresh : Fresh past (changeAddress op.info op.offset))
    (hoffsets : ∀ o ∈ past ++ [op], o.offset < 2 ^ 32)
    (happlied : applyChange walks true op.info op.offset c op.change = .ok c') :
    Represents (past ++ [op]) c' (courseAfter t op) := by
  have hoffset := hoffsets op (List.mem_append_right _ (List.mem_singleton.mpr rfl))
  cases hchange : op.change with
  | unset => simp [hchange, applyChange] at happlied
  | container container =>
      rw [hchange] at happlied
      have hevent : eventOf buildEntry op = none := by
        unfold eventOf
        rw [hchange]
      have hnone : IndexedDb.clearanceOf op = none := by
        unfold IndexedDb.clearanceOf
        rw [hchange]
      injection happlied with happlied
      unfold courseAfter
      rw [hevent, ← happlied]
      exact ⟨h.toPlaces.kept rfl rfl fun _ _ => Iff.rfl, h.removals,
        clearances_mono hnone h.clearances⟩
  | entry entry =>
      rw [hchange] at hordered happlied
      exact h.placed hchange hordered hfresh hoffset happlied
  | movement movement =>
      rw [hchange] at hordered happlied
      exact h.moved hchange hordered hfresh hoffset happlied
  | clearance clearance =>
      rw [hchange] at hordered happlied
      exact h.cleared hchange hordered hfresh hoffsets happlied

/-! ## §5. Runs. -/

/-- No two changes have the same address. -/
def Separate (ops : List Op) : Prop :=
  ops.Pairwise fun a b => changeAddress a.info a.offset ≠ changeAddress b.info b.offset

theorem separate_opsFrom {info : BundleInfo} {changes : List ChangeBuilder} :
    ∀ {offset : Nat}, Separate (opsFrom info offset changes) := by
  induction changes with
  | nil => exact fun {_} => List.Pairwise.nil
  | cons change rest ih =>
      intro offset
      refine List.Pairwise.cons (fun op hop heq => ?_) ih
      have hlater := (mem_opsFrom hop).2.1
      have hoffset : offset = op.offset := by
        have := congrArg MuidTuple.offset heq
        exact Int.ofNat_inj.mp this
      omega

/-- Bundles with different stamps have different addresses. -/
theorem separate_allOps {history : List OpenBundle} (h : DistinctStamps history) :
    Separate (allOps history) := by
  unfold Separate allOps
  rw [List.pairwise_flatMap]
  refine ⟨fun b _ => separate_opsFrom, h.imp fun hstamp x hx y hy heq => hstamp ?_⟩
  have htime := Int.ofNat_inj.mp (congrArg MuidTuple.timestamp heq)
  have hmedallion := Int.ofNat_inj.mp (congrArg MuidTuple.medallion heq)
  rw [(mem_opsFrom hx).1, (mem_opsFrom hy).1] at htime hmedallion
  exact Prod.ext (Fin.val_inj.mp htime) (Fin.val_inj.mp hmedallion)

/-- The changes of a bundle. -/
theorem Represents.bundle {info : BundleInfo} {changes : List ChangeBuilder} :
    ∀ {offset : Nat} {past : List Op} {c c' : Contents} {t : Str → Course}, Represents past c t →
      Separate (past ++ opsFrom info offset changes) →
      (∀ op ∈ past ++ opsFrom info offset changes, op.offset < 2 ^ 32) →
      (∀ op ∈ opsFrom info offset changes, IsOrdered op.change) →
      applyChangesFrom walks true info offset changes c = .ok c' →
      Represents (past ++ opsFrom info offset changes) c'
        (Machine.run (Course.step muidTupleToString muidTupleToString) t
          ((opsFrom info offset changes).filterMap (eventOf buildEntry))) := by
  induction changes with
  | nil =>
      intro offset past c c' t h _ _ _ happlied
      injection happlied with happlied
      subst happlied
      rw [opsFrom_nil, List.append_nil]
      exact h
  | cons change rest ih =>
      intro offset past c c' t h hseparate hoffsets hordered happlied
      obtain ⟨c1, hone, hrest⟩ := bind_eq_ok.mp happlied
      have hsplit : past ++ opsFrom info offset (change :: rest)
          = (past ++ [⟨info, offset, change⟩]) ++ opsFrom info (offset + 1) rest := by
        rw [opsFrom_cons, List.append_assoc]
        rfl
      rw [hsplit] at hseparate hoffsets ⊢
      have hfresh : Fresh past (changeAddress info offset) := fun op hop =>
        (List.pairwise_append.mp (List.pairwise_append.mp hseparate).1).2.2 op hop _
          (List.mem_singleton.mpr rfl)
      have hrep : Represents (past ++ [⟨info, offset, change⟩]) c1
          (courseAfter t ⟨info, offset, change⟩) :=
        h.step (hordered _ List.mem_cons_self) hfresh
          (fun o ho => hoffsets o (List.mem_append_left _ ho)) hone
      have hrep' := ih hrep hseparate hoffsets
        (fun op hop => hordered op (List.mem_cons_of_mem _ hop)) hrest
      have hevents : (opsFrom info offset (change :: rest)).filterMap (eventOf buildEntry)
          = (eventOf buildEntry ⟨info, offset, change⟩).toList ++
            (opsFrom info (offset + 1) rest).filterMap (eventOf buildEntry) := by
        rw [opsFrom_cons, List.filterMap_cons]
        cases eventOf buildEntry ⟨info, offset, change⟩ <;> rfl
      rw [hevents, Machine.run_append]
      exact hrep'

/-- **The tables of a history** are those of the courses of its events. -/
theorem History.represents {history : List OpenBundle} (h : History walks true history c)
    (hdistinct : DistinctStamps history) (hoffsets : ∀ op ∈ allOps history, op.offset < 2 ^ 32)
    (hordered : OrderedHistory history) :
    Represents (allOps history) c
      (Course.courses muidTupleToString muidTupleToString (eventsOf buildEntry history)) := by
  induction h with
  | start => exact Represents.start
  | @next past c c' b before applied ih =>
      have hops : allOps (past ++ [b]) = allOps past ++ b.ops := by simp [allOps]
      have hseparate := separate_allOps hdistinct
      unfold OrderedHistory at hordered
      rw [hops] at hordered hoffsets hseparate
      have hrep := ih (List.pairwise_append.mp hdistinct).1
        (fun op hop => hoffsets op (List.mem_append_left _ hop))
        (fun op hop => hordered op (List.mem_append_left _ hop))
      unfold eventsOf
      rw [hops, List.filterMap_append, Course.courses_append]
      exact hrep.bundle hseparate hoffsets
        (fun op hop => hordered op (List.mem_append_right _ hop)) applied

/-! ## §6. Replicas. -/

/-- Courses with the same placements and removals have the same tables. -/
theorem Represents.tables_eq {past' : List Op} {t' : Str → Course} (h : Represents past c t)
    (h' : Represents past' c' t') (hperm : past.Perm past') (hsame : ∀ s, (t s).Same (t' s)) :
    c.placements = c'.placements ∧ c.removals = c'.removals ∧ c.clearances = c'.clearances := by
  refine ⟨Table.ext_rows fun r => ?_, Table.ext_rows fun r => ?_, Table.ext_rows fun r => ?_⟩
  · obtain ⟨k, e⟩ := r
    rw [h.placements, h'.placements, (hsame _).1]
  · rw [h.removals, h'.removals]
    simp only [(hsame _).2]
  · rw [h.clearances, h'.clearances]
    simp only [hperm.mem_iff]

/-- Reads of an ordered container look at three tables. -/
theorem getOrderedEntries_congr (hplacements : c.placements = c'.placements)
    (hremovals : c.removals = c'.removals) (hclearances : c.clearances = c'.clearances)
    (trxns : List Int) (now : Int) (container : MuidTuple) (through asOf : Option Int) :
    getOrderedEntries c trxns now container through asOf
      = getOrderedEntries c' trxns now container through asOf := by
  have hpasses : passesOver c = passesOver c' := by
    funext clearanceTime asOfTs k
    unfold passesOver
    rw [hremovals]
  have hcollect : ∀ (containerIdStr : Str) (clearanceTime asOfTs : Int)
      (rows : List (Str × Entry)) (needed : Option Nat),
      collect c containerIdStr clearanceTime asOfTs needed rows
        = collect c' containerIdStr clearanceTime asOfTs needed rows := by
    intro containerIdStr clearanceTime asOfTs rows
    induction rows with
    | nil => exact fun _ => rfl
    | cons row rest ih =>
        intro needed
        unfold collect
        rw [hpasses, ih, ih]
  unfold getOrderedEntries getLastClearanceTime
  simp only [hplacements, hclearances, hcollect]

/-- **Replicas that gave every entry the same turns** read every ordered container alike. -/
theorem History.getOrderedEntries_eq {history history' : List OpenBundle}
    (h : History walks true history c) (h' : History walks true history' c')
    (hdistinct : DistinctStamps history) (hoffsets : ∀ op ∈ allOps history, op.offset < 2 ^ 32)
    (hordered : OrderedHistory history) (hperm : history.Perm history')
    (hturns : ∀ s, SameTurns (turns muidTupleToString s (eventsOf buildEntry history))
      (turns muidTupleToString s (eventsOf buildEntry history')))
    (trxns : List Int) (now : Int) (container : MuidTuple) (through asOf : Option Int) :
    getOrderedEntries c trxns now container through asOf
      = getOrderedEntries c' trxns now container through asOf := by
  have hops : (allOps history).Perm (allOps history') := hperm.flatMap_right _
  have hrep := h.represents hdistinct hoffsets hordered
  have hrep' := h'.represents (hdistinct.perm hperm)
    (fun op hop => hoffsets op (hops.mem_iff.mpr hop))
    (fun op hop => hordered op (hops.mem_iff.mpr hop))
  obtain ⟨hplacements, hremovals, hclearances⟩ := hrep.tables_eq hrep' hops (courses_same hturns)
  exact getOrderedEntries_congr hplacements hremovals hclearances trxns now container through asOf

end

end MemoryStore

end Js

end Gink
