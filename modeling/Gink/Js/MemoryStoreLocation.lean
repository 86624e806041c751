/-
  Gink.Js.MemoryStoreLocation — where a `MemoryStore` finds an entry (MemoryStore.ts).

  `getLocation` looks the entry up in a table with one row for each place it was ever put.  The
  bound it means to set by the time is the prefix, the entry and the time one after the other:
  the prefix comes twice, and every row of the entry is below that.  So the place found is the
  last one of all, and so is the removal that is looked for; only the clearance depends on the
  time.
-/
import Gink.Js.MemoryStorePositions
import Gink.Js.MemoryStorePresent
import Gink.Js.MuidText
import Gink.Js.Tracks

namespace Gink

namespace Js

namespace MemoryStore

/-! ## §1. The lookup. -/

/-- `getLocation(entry, asOf)`; `now` is what `generateTimestamp()` returns. -/
def getLocation (c : Contents) (trxns : List Int) (now : Int) (entry : MuidTuple)
    (asOf : Option Int) : Except JsError (Option (Placement Str)) := do
  let asOfTs ← asOfTime trxns now asOf
  let asOfTsStr := muidTupleToString ⟨asOfTs, 0, 0⟩
  let pre ← muidToString entry
  let suffix := pre ++ comma ++ asOfTsStr
  match toLastWithPrefixBeforeSuffix c.locations pre suffix with
  | none => return none
  | some (_, value) =>
      match value.splitOn 44 with
      | containerIdStr :: key :: placementIdStr :: _ =>
          let placementTuple ← strToMuidTuple placementIdStr
          let lastClear := getLastClearanceTime c containerIdStr asOfTs
          let removal := toLastWithPrefixBeforeSuffix c.removals placementIdStr
            (placementIdStr ++ comma ++ asOfTsStr)
          if lastClear > placementTuple.timestamp ∨ removal.isSome = true then return none
          else return some ⟨← strToMuidTuple containerIdStr, key, placementTuple⟩
      | _ => throw ⟨"Cannot read properties of undefined (reading 'split')"⟩

/-! ## §2. What a change writes. -/

/-- A change puts at most one placement, with its location if it is of an ordered container, and
removes no placements but of some entries. -/
structure Puts (a : MuidTuple) (c c' : Contents) (new : Option Entry) (removes : Entry → Prop) :
    Prop where
  placements : ∀ r, r ∈ c'.placements.rows ↔
    r ∈ c.placements.rows ∨ ∃ e, new = some e ∧ r = (placementKey e, e)
  locations : ∀ l, l ∈ c'.locations.rows ↔
    l ∈ c.locations.rows ∨ ∃ e, new = some e ∧ IsListed e ∧ l = (locationKey e, placementKey e)
  removals : ∀ r ∈ c'.removals.rows, r ∈ c.removals.rows ∨
    ∃ e, (placementKey e, e) ∈ c.placements.rows ∧ removes e ∧
      r.1 = joinedIds (muidTupleToString e.placementId) (muidTupleToString a)
  kept : ∀ r ∈ c.removals.rows, r ∈ c'.removals.rows

/-- The rows of a store stand for the changes so far. -/
structure Rows (past : List Op) (c : Contents) : Prop where
  spelled : Spelled c
  made : ∀ r ∈ c.placements.rows, ∃ op ∈ past, changeAddress op.info op.offset = r.2.placementId
  apart : ∀ r ∈ c.placements.rows, ∀ r' ∈ c.placements.rows,
    r.2.placementId = r'.2.placementId → r = r'
  located : ∀ l ∈ c.locations.rows, ∃ e, (placementKey e, e) ∈ c.placements.rows ∧ IsListed e ∧
    l = (locationKey e, placementKey e)
  listed : ∀ r ∈ c.placements.rows, IsListed r.2 →
    (locationKey r.2, placementKey r.2) ∈ c.locations.rows
  removed : ∀ r ∈ c.removals.rows, ∃ e m, (placementKey e, e) ∈ c.placements.rows ∧
    r.1 = joinedIds (muidTupleToString e.placementId) (muidTupleToString m)
  cleared : ∀ r, r ∈ c.clearances.rows ↔
    ∃ op ∈ past, ∃ z, IndexedDb.clearanceOf op = some z ∧ r = (clearanceKey z, z)

variable {past : List Op} {op : Op} {c c' : Contents} {walks : Walks} {new : Option Entry}
  {removes : Entry → Prop} {entry : MuidTuple}

theorem Rows.start : Rows [] {} := by
  refine ⟨Spelled.start, ?_, ?_, ?_, ?_, ?_, ?_⟩ <;> simp

theorem Puts.nothing {a : MuidTuple} (hplacements : c'.placements = c.placements)
    (hlocations : c'.locations = c.locations) (hremovals : c'.removals = c.removals) :
    Puts a c c' none fun _ => False := by
  refine ⟨fun r => ?_, fun l => ?_, fun r hr => Or.inl (hremovals ▸ hr), fun r hr => hremovals ▸ hr⟩
  · simp [hplacements]
  · simp [hlocations]

/-- A placement at an address that has none. -/
theorem Rows.mem_put (h : Rows past c) {e : Entry} (he : Dated e.placementId)
    (hfresh : Fresh past e.placementId) (r : Str × Entry) :
    r ∈ (c.placements.put (placementKey e) e).rows ↔
      r ∈ c.placements.rows ∨ r = (placementKey e, e) := by
  refine mem_put_fresh (fun x hx heq => ?_) r
  obtain ⟨hkey, hstands⟩ := h.spelled.placements x hx
  rw [hkey] at heq
  have hsame := (joinedIds_inj comma_not_spelled comma_not_spelled
    (show joinedIds _ _ = joinedIds _ _ from heq)).2
  obtain ⟨o, ho, hmade⟩ := h.made x hx
  refine hfresh o ho (hmade.trans ?_)
  exact muidTupleToString_inj hstands.placement.muid.isAddress he.muid.isAddress hsame

/-- And so for its location. -/
theorem Rows.mem_put_location (h : Rows past c) {e : Entry} (he : Dated e.placementId)
    (hfresh : Fresh past e.placementId) (r : Str × Str) :
    r ∈ (c.locations.put (locationKey e) (placementKey e)).rows ↔
      r ∈ c.locations.rows ∨ r = (locationKey e, placementKey e) := by
  refine mem_put_fresh (fun l hl heq => ?_) r
  obtain ⟨x, hx, -, rfl⟩ := h.located l hl
  have hsame := (joinedIds_inj comma_not_spelled comma_not_spelled
    (show joinedIds _ _ = joinedIds _ _ from heq)).2
  obtain ⟨o, ho, hmade⟩ := h.made _ hx
  refine hfresh o ho (hmade.trans ?_)
  exact muidTupleToString_inj (h.spelled.placements _ hx).2.placement.muid.isAddress
    he.muid.isAddress hsame

/-- Removals that are put leave those that were there: a removal is only its key. -/
theorem mem_put_removal {table : Table Str Unit} {k : Str} {r : Str × Unit}
    (h : r ∈ table.rows) : r ∈ (table.put k ()).rows := by
  rw [Table.mem_rows_put]
  by_cases hk : r.1 = k
  · exact Or.inl (Prod.ext hk rfl)
  · exact Or.inr ⟨hk, h⟩

theorem mem_removing_of_mem {a : MuidTuple} (ks : List Str) {table : Table Str Unit}
    {r : Str × Unit} (h : r ∈ table.rows) : r ∈ (removing a ks table).rows := by
  induction ks generalizing table with
  | nil => exact h
  | cons k rest ih => exact ih (mem_put_removal h)

/-- **An entry put into the tables**, with history kept. -/
theorem Rows.addEntry (h : Rows past c) {e : Entry} (he : Dated e.placementId)
    (hfresh : Fresh past e.placementId) (hid : IsListed e ∨ e.entryId = e.placementId)
    (hadd : addEntry walks true false e c = .ok c') :
    Puts e.placementId c c' (some e) (fun x => ¬ IsListed e ∧ sweptStart e <+: placementKey x) ∧
      c'.clearances = c.clearances := by
  unfold MemoryStore.addEntry at hadd
  dsimp only at hadd
  split_ifs at hadd
  rw [← Except.ok.inj hadd]
  have hplacements : ∀ r, r ∈ (c.placements.put (placementKey e) e).rows ↔
      r ∈ c.placements.rows ∨ ∃ x, some e = some x ∧ r = (placementKey x, x) := by
    intro r
    rw [h.mem_put he hfresh]
    simp
  unfold makeRoom
  dsimp only
  by_cases hlisted : e.behavior = .sequence ∨ e.behavior = .edgeType
  · rw [if_pos hlisted]
    refine ⟨⟨hplacements, fun l => ?_, fun r hr => Or.inl hr, fun r hr => hr⟩, rfl⟩
    show l ∈ (c.locations.put (locationKey e) (placementKey e)).rows ↔ _
    rw [h.mem_put_location he hfresh]
    simp [show IsListed e from hlisted]
  · have hsame : e.entryId = e.placementId := hid.resolve_left hlisted
    rw [if_neg hlisted, if_neg (by simp)]
    refine ⟨⟨hplacements, fun l => ?_, fun r hr => ?_, fun r hr => ?_⟩, rfl⟩
    · simp [show ¬ IsListed e from hlisted]
    · refine (mem_removing _ hr).imp_right fun hfound => ?_
      obtain ⟨k, hk, hkey⟩ := hfound
      obtain ⟨x, hx, rfl⟩ := List.mem_map.mp hk
      obtain ⟨hrow, hstands⟩ := h.spelled.placements x (mem_backFrom hx)
      rw [hrow, hstands.lastUnits, hsame] at hkey
      refine ⟨x.2, hrow ▸ mem_backFrom hx, ⟨hlisted, ?_⟩, hkey⟩
      rw [← hrow]
      exact startsWith_of_mem_backFrom hx
    · exact mem_removing_of_mem (a := e.entryId) _ hr

/-! ## §3. Seeks. -/

/-- The placement is stored, and every other one of its entry came before. -/
structure IsLast (c : Contents) (entry : MuidTuple) (e : Entry) : Prop where
  stored : (placementKey e, e) ∈ c.placements.rows
  listed : IsListed e
  entryId : e.entryId = entry
  latest : ∀ r ∈ c.placements.rows, r.2.entryId = entry →
    r.2 = e ∨ r.2.placementId.Before e.placementId

/-- The placement has been removed, at any time. -/
def Left (c : Contents) (p : MuidTuple) : Prop :=
  ∃ r ∈ c.removals.rows, ∃ m, r.1 = joinedIds (muidTupleToString p) (muidTupleToString m)

/-- What a seek for an entry's location finds is a place of that entry. -/
theorem Rows.seek (h : Rows past c) (hentry : IsAddress entry) {suffix : Str} {l : Str × Str}
    (hseek : toLastWithPrefixBeforeSuffix c.locations (muidTupleToString entry) suffix = some l) :
    ∃ e, (placementKey e, e) ∈ c.placements.rows ∧ IsListed e ∧ e.entryId = entry ∧
      l = (locationKey e, placementKey e) := by
  obtain ⟨hrow, hstart⟩ := toLast_eq_some hseek
  obtain ⟨e, he, hlisted, rfl⟩ := h.located l hrow
  have haddress := (h.spelled.placements _ he).2.entry.muid.isAddress
  have hname : muidTupleToString entry = muidTupleToString e.entryId := by
    refine startsWith_address haddress ?_
    refine startsWith_cut (u := 44) (b := muidTupleToString e.placementId) comma_not_spelled ?_
    unfold locationKey joinedIds comma at hstart
    rwa [List.append_assoc] at hstart
  exact ⟨e, he, hlisted, (muidTupleToString_inj hentry haddress hname).symm, rfl⟩

/-- **A seek with a bound above all places of the entry** finds the last one. -/
theorem Rows.seek_last (h : Rows past c) {e : Entry} (hlast : IsLast c entry e) {suffix : Str}
    (habove : ∀ b, joinedIds (muidTupleToString entry) b ≤ muidTupleToString entry ++ suffix) :
    toLastWithPrefixBeforeSuffix c.locations (muidTupleToString entry) suffix
      = some (locationKey e, placementKey e) := by
  have hkey : ∀ x : Entry, x.entryId = entry →
      locationKey x = joinedIds (muidTupleToString entry) (muidTupleToString x.placementId) := by
    intro x hx
    unfold locationKey
    rw [hx]
  have hrow := h.listed _ hlast.stored hlast.listed
  have hstart : muidTupleToString entry <+: locationKey e := by
    rw [hkey e hlast.entryId]
    exact ⟨_, (List.append_assoc _ _ _).symm⟩
  have hbound : locationKey e ≤ muidTupleToString entry ++ suffix := by
    rw [hkey e hlast.entryId]
    exact habove _
  obtain ⟨l, hseek, hmax⟩ := toLast_isSome hrow hstart hbound
  have hentry : IsAddress entry :=
    hlast.entryId ▸ (h.spelled.placements _ hlast.stored).2.entry.muid.isAddress
  obtain ⟨x, hx, -, hxentry, rfl⟩ := h.seek hentry hseek
  rw [hseek]
  rcases hlast.latest _ hx hxentry with heq | hbefore
  · rw [show x = e from heq]
  · -- the keys of one entry compare like the placements
    have hle := hmax _ hrow hbound
    rw [hkey e hlast.entryId, hkey x hxentry, joinedIds_le_joinedIds, ← not_lt] at hle
    exact absurd ((spelling_lt (h.spelled.placements _ hx).2.placement.muid
      (h.spelled.placements _ hlast.stored).2.placement.muid).mpr hbefore) hle

theorem above_tilde (entry : MuidTuple) (b : Str) :
    joinedIds (muidTupleToString entry) b ≤ muidTupleToString entry ++ tilde := joinedIds_le

/-- A bound that repeats the muid is above all its places, whatever follows. -/
theorem above_repeated (entry : MuidTuple) (s b : Str) :
    joinedIds (muidTupleToString entry) b ≤
      muidTupleToString entry ++ (muidTupleToString entry ++ comma ++ s) := by
  unfold joinedIds comma
  rw [List.append_assoc]
  refine le_of_lt (List.append_left_lt ?_)
  have hlength := length_le entry
  cases hspelled : muidTupleToString entry with
  | nil =>
      rw [hspelled] at hlength
      exact absurd hlength (by simp)
  | cons u rest =>
      have hu := spells_muidTupleToString u (hspelled ▸ List.mem_cons_self)
      refine List.cons_lt_cons_iff.mpr (Or.inl ?_)
      unfold Spells at hu
      omega

/-! ## §4. Changes. -/

/-- **One change** keeps the rows in step with the changes. -/
theorem Rows.step (h : Rows past c) (hspelled : Spelled c')
    (hputs : Puts (changeAddress op.info op.offset) c c' new removes)
    (hnew : ∀ e, new = some e → e.placementId = changeAddress op.info op.offset)
    (hfresh : Fresh past (changeAddress op.info op.offset))
    (hcleared : ∀ r, r ∈ c'.clearances.rows ↔ r ∈ c.clearances.rows ∨
      ∃ z, IndexedDb.clearanceOf op = some z ∧ r = (clearanceKey z, z)) :
    Rows (past ++ [op]) c' := by
  have hstays : ∀ {r}, r ∈ c.placements.rows → r ∈ c'.placements.rows := fun hr =>
    (hputs.placements _).mpr (Or.inl hr)
  have hnot : ∀ r ∈ c.placements.rows, ∀ e, new = some e → r.2.placementId ≠ e.placementId := by
    intro r hr e he heq
    obtain ⟨o, ho, hmade⟩ := h.made r hr
    exact hfresh o ho (hmade.trans (heq.trans (hnew e he)))
  constructor
  · exact hspelled
  · intro r hr
    rcases (hputs.placements r).mp hr with hold | ⟨e, he, rfl⟩
    · obtain ⟨o, ho, hmade⟩ := h.made r hold
      exact ⟨o, List.mem_append_left _ ho, hmade⟩
    · exact ⟨op, List.mem_append_right _ (List.mem_singleton.mpr rfl), (hnew e he).symm⟩
  · intro r hr r' hr' heq
    rcases (hputs.placements r).mp hr with hold | ⟨e, he, rfl⟩ <;>
      rcases (hputs.placements r').mp hr' with hold' | ⟨e', he', rfl⟩
    · exact h.apart r hold r' hold' heq
    · exact absurd heq (hnot r hold e' he')
    · exact absurd heq.symm (hnot r' hold' e he)
    · rw [he] at he'
      injection he' with he'
      rw [he']
  · intro l hl
    rcases (hputs.locations l).mp hl with hold | ⟨e, he, hlisted, rfl⟩
    · obtain ⟨x, hx, hrest⟩ := h.located l hold
      exact ⟨x, hstays hx, hrest⟩
    · exact ⟨e, (hputs.placements _).mpr (Or.inr ⟨e, he, rfl⟩), hlisted, rfl⟩
  · intro r hr hlisted
    rcases (hputs.placements r).mp hr with hold | ⟨e, he, rfl⟩
    · exact (hputs.locations _).mpr (Or.inl (h.listed r hold hlisted))
    · exact (hputs.locations _).mpr (Or.inr ⟨e, he, hlisted, rfl⟩)
  · intro r hr
    rcases hputs.removals r hr with hold | ⟨e, he, -, hkey⟩
    · obtain ⟨e, m, he, hkey⟩ := h.removed r hold
      exact ⟨e, m, hstays he, hkey⟩
    · exact ⟨e, _, hstays he, hkey⟩
  · intro r
    rw [hcleared, h.cleared]
    simp only [List.mem_append, List.mem_singleton, or_and_right, exists_or, exists_eq_left]

/-- **A movement**, with history kept. -/
theorem Rows.applyMovement (h : Rows past c) {m : Movement} (hm : Dated m.movementId)
    (hfresh : Fresh past m.movementId) (hmuid : IsMuid m.entryId) (hpurge : m.purge = false)
    (happly : applyMovement walks true m c = .ok c') :
    (c' = c ∧ toLastWithPrefixBeforeSuffix c.locations (muidTupleToString m.entryId) tilde = none) ∨
    ∃ found, toLastWithPrefixBeforeSuffix c.locations (muidTupleToString m.entryId) tilde
        = some (locationKey found, placementKey found) ∧
      (placementKey found, found) ∈ c.placements.rows ∧ found.entryId = m.entryId ∧
      Puts m.movementId c c' (if m.dest ≠ 0 then some (IndexedDb.Entry.movedTo found m) else none)
        (fun x => x = found) ∧
      Left c' found.placementId ∧ c'.clearances = c.clearances := by
  unfold MemoryStore.applyMovement at happly
  rw [hpurge, if_neg (by simp)] at happly
  cases hseek : toLastWithPrefixBeforeSuffix c.locations (muidTupleToString m.entryId) tilde with
  | none =>
      simp only [hseek, Except.ok.injEq] at happly
      exact Or.inl ⟨happly.symm, rfl⟩
  | some l =>
      obtain ⟨found, hfound, hlisted, hentry, rfl⟩ := h.seek hmuid.isAddress hseek
      have hget : c.placements.get? (placementKey found) = some found :=
        Table.get?_eq_some_iff.mpr hfound
      have hstands := (h.spelled.placements _ hfound).2
      simp only [hseek, hget, hstands.lastUnits] at happly
      refine Or.inr ⟨found, rfl, hfound, hentry, ?_⟩
      let removal := joinedIds (muidTupleToString found.placementId)
        (muidTupleToString m.movementId)
      let c1 : Contents := { c with removals := c.removals.put removal () }
      have hrow : (removal, ()) ∈ c1.removals.rows := Table.mem_rows_put.mpr (Or.inl rfl)
      have hremovals : ∀ r ∈ c1.removals.rows, r ∈ c.removals.rows ∨
          ∃ e, (placementKey e, e) ∈ c.placements.rows ∧ e = found ∧
            r.1 = joinedIds (muidTupleToString e.placementId) (muidTupleToString m.movementId) := by
        intro r hr
        rcases Table.mem_rows_put.mp hr with rfl | ⟨-, hold⟩
        · exact Or.inr ⟨found, hfound, rfl, rfl⟩
        · exact Or.inl hold
      unfold replaceMoved at happly
      by_cases hdest : m.dest ≠ 0
      · rw [if_pos hdest] at happly ⊢
        have hc1 : Rows past c1 := by
          refine ⟨⟨h.spelled.placements, h.spelled.locations, ?_, h.spelled.clearances⟩, h.made,
            h.apart, h.located, h.listed, ?_, h.cleared⟩
          · intro r hr
            rcases hremovals r hr with hold | ⟨e, he, rfl, hkey⟩
            · exact h.spelled.removals r hold
            · exact ⟨_, _, hkey, hstands.placement, hm⟩
          · intro r hr
            rcases hremovals r hr with hold | ⟨e, he, -, hkey⟩
            · exact h.removed r hold
            · exact ⟨e, _, he, hkey⟩
        obtain ⟨hputs, hclearances⟩ := hc1.addEntry (e := IndexedDb.Entry.movedTo found m) hm hfresh
          (Or.inl hlisted) happly
        refine ⟨⟨hputs.placements, hputs.locations, fun r hr => ?_, fun r hr => ?_⟩,
          ⟨_, hputs.kept _ hrow, _, rfl⟩, hclearances⟩
        · rcases hputs.removals r hr with hold | ⟨-, -, ⟨hno, -⟩, -⟩
          · exact hremovals r hold
          · exact absurd hlisted hno
        · exact hputs.kept r (mem_put_removal hr)
      · rw [if_neg hdest] at happly ⊢
        injection happly with happly
        rw [← happly]
        refine ⟨⟨fun r => ?_, fun l => ?_, hremovals, fun r hr => mem_put_removal hr⟩,
          ⟨_, hrow, _, rfl⟩, rfl⟩
        · simp
        · simp

/-! ## §5. The track of an entry. -/

variable {ops : List Op} {k : Option Track} {a : MuidTuple}

/-- The rows say of an entry what its track says. -/
def Tracked (ops : List Op) (entry : MuidTuple) (c : Contents) : Option Track → Prop
  | none => ∀ r ∈ c.placements.rows, r.2.entryId ≠ entry
  | some k => ∃ e, IsLast c entry e ∧ HoldsOrdered ops e.containerId ∧ e.place = k.place ∧
      (Left c e.placementId ↔ k.deleted = true)

/-- A removal of a placement stays one, and a change only adds those of what it removes. -/
theorem Puts.left_iff (hputs : Puts a c c' new removes) (h : Rows past c) {e : Entry}
    (he : (placementKey e, e) ∈ c.placements.rows) (hnot : ¬ removes e) :
    Left c' e.placementId ↔ Left c e.placementId := by
  constructor
  · rintro ⟨r, hr, m, hkey⟩
    rcases hputs.removals r hr with hold | ⟨x, hx, hremoves, hkey'⟩
    · exact ⟨r, hold, m, hkey⟩
    · -- the same placement is the same entry
      rw [hkey] at hkey'
      have hsame := (joinedIds_inj comma_not_spelled comma_not_spelled hkey').1
      have hids : e.placementId = x.placementId := muidTupleToString_inj
        (h.spelled.placements _ he).2.placement.muid.isAddress
        (h.spelled.placements _ hx).2.placement.muid.isAddress hsame
      obtain ⟨-, hex⟩ := Prod.mk.inj (h.apart _ he _ hx hids)
      exact absurd (hex ▸ hremoves) hnot
  · rintro ⟨r, hr, m, hkey⟩
    exact ⟨r, hputs.kept r hr, m, hkey⟩

/-- A placement that is not stored yet has no removal. -/
theorem Rows.not_left (h : Rows past c) {e : Entry} (he : Dated e.placementId)
    (hfresh : Fresh past e.placementId) : ¬ Left c e.placementId := by
  rintro ⟨r, hr, m, hkey⟩
  obtain ⟨x, n, hx, hkey'⟩ := h.removed r hr
  rw [hkey] at hkey'
  have hsame := (joinedIds_inj comma_not_spelled comma_not_spelled hkey').1
  have hids := muidTupleToString_inj he.muid.isAddress
    (h.spelled.placements _ hx).2.placement.muid.isAddress hsame
  obtain ⟨o, ho, hmade⟩ := h.made _ hx
  exact hfresh o ho (hmade.trans hids.symm)

/-- **A change that places another entry**, or none, and removes no place of this one. -/
theorem Tracked.other (ht : Tracked ops entry c k) (h : Rows past c)
    (hputs : Puts a c c' new removes) (hnew : ∀ e, new = some e → e.entryId ≠ entry)
    (hremoves : ∀ e, IsLast c entry e → HoldsOrdered ops e.containerId → ¬ removes e) :
    Tracked ops entry c' k := by
  cases k with
  | none =>
      intro r hr
      rcases (hputs.placements r).mp hr with hold | ⟨e, he, rfl⟩
      · exact ht r hold
      · exact hnew e he
  | some k =>
      obtain ⟨e, hlast, hordered, hplace, hleft⟩ := ht
      refine ⟨e, ⟨(hputs.placements _).mpr (Or.inl hlast.stored), hlast.listed, hlast.entryId,
        fun r hr hid => ?_⟩, hordered, hplace, ?_⟩
      · rcases (hputs.placements r).mp hr with hold | ⟨x, hx, rfl⟩
        · exact hlast.latest r hold hid
        · exact absurd hid (hnew x hx)
      · rw [hputs.left_iff h hlast.stored (hremoves e hlast hordered), hleft]

/-- **A change that places this entry.** -/
theorem Tracked.placed (hrows : Rows past c) {e : Entry} (hputs : Puts a c c' (some e) removes)
    (hlisted : IsListed e) (hid : e.entryId = entry) (hdated : Dated e.placementId)
    (hfresh : Fresh past e.placementId) (hordered : HoldsOrdered ops e.containerId)
    (hbefore : ∀ r ∈ c.placements.rows, r.2.entryId = entry →
      r.2.placementId.Before e.placementId)
    {k : Track} (hplace : e.place = k.place) (hdeleted : k.deleted = false) :
    Tracked ops entry c' (some k) := by
  refine ⟨e, ⟨(hputs.placements _).mpr (Or.inr ⟨e, rfl, rfl⟩), hlisted, hid, fun r hr hrid => ?_⟩,
    hordered, hplace, ?_⟩
  · rcases (hputs.placements r).mp hr with hold | ⟨x, hx, rfl⟩
    · exact Or.inr (hbefore r hold hrid)
    · injection hx with hx
      exact Or.inl hx.symm
  · refine iff_of_false ?_ (by simp [hdeleted])
    rintro ⟨r, hr, m, hkey⟩
    rcases hputs.removals r hr with hold | ⟨x, hx, -, hkey'⟩
    · exact hrows.not_left hdated hfresh ⟨r, hold, m, hkey⟩
    · rw [hkey] at hkey'
      have hids := muidTupleToString_inj hdated.muid.isAddress
        (hrows.spelled.placements _ hx).2.placement.muid.isAddress
        (joinedIds_inj comma_not_spelled comma_not_spelled hkey').1
      obtain ⟨o, ho, hmade⟩ := hrows.made _ hx
      exact hfresh o ho (hmade.trans hids.symm)

theorem buildEntry_place {b : EntryBuilder} {e : Entry}
    (h : buildEntry b op.info op.offset = .ok e) :
    placedAt b op = .ok e.place ∧ extractContainerMuid b op.info = .ok e.containerId := by
  obtain ⟨lists, -, h1⟩ := bind_eq_ok.mp h
  obtain ⟨container, hcontainer, h2⟩ := bind_eq_ok.mp h1
  obtain ⟨key, hkey, h3⟩ := bind_eq_ok.mp h2
  rw [← pure_eq_ok.mp h3]
  refine ⟨?_, hcontainer⟩
  unfold placedAt
  rw [hcontainer, hkey]
  rfl

/-- A change that comes where the rows stand for those before it. -/
structure Comes (ops past : List Op) (op : Op) (entry : MuidTuple) (c c' : Contents) : Prop where
  legit : Legitimate ops entry
  mem : op ∈ ops
  rows : Rows past c
  spelled : Spelled c'
  fresh : Fresh past (changeAddress op.info op.offset)
  later : ∀ r ∈ c.placements.rows, r.2.placementId.Before (changeAddress op.info op.offset)

/-- It is a change that has no clearance. -/
theorem cleared_none (hclear : IndexedDb.clearanceOf op = none)
    (hsame : c'.clearances = c.clearances) (r : Str × Clearance) :
    r ∈ c'.clearances.rows ↔ r ∈ c.clearances.rows ∨
      ∃ z, IndexedDb.clearanceOf op = some z ∧ r = (clearanceKey z, z) := by
  rw [hsame, hclear]
  simp

/-- An entry is added. -/
theorem Comes.added (h : Comes ops past op entry c c')
    (ht : Tracked ops entry c (trackOf entry past)) {builder : EntryBuilder}
    (hchange : op.change = .entry builder)
    (happlied : applyChange walks true op.info op.offset c (.entry builder) = .ok c') :
    Rows (past ++ [op]) c' ∧ Tracked ops entry c' (trackAfter entry (trackOf entry past) op) := by
  obtain ⟨e, hbuild, hadd⟩ := bind_eq_ok.mp happlied
  obtain ⟨hbehavior, hentry, hplacement⟩ := buildEntry_ok hbuild
  obtain ⟨hplace, hcontainer⟩ := buildEntry_place hbuild
  have hpurge : builder.purge = false := by
    have hretains := h.legit.retains op h.mem
    rw [hchange] at hretains
    exact hretains
  rw [hpurge] at hadd
  have hdated : Dated e.placementId := hplacement ▸ (h.legit.fits op h.mem).address
  have hfresh : Fresh past e.placementId := hplacement ▸ h.fresh
  obtain ⟨hputs, hclearances⟩ := h.rows.addEntry hdated hfresh
    (Or.inr (hentry.trans hplacement.symm)) hadd
  have hclear : IndexedDb.clearanceOf op = none := by
    unfold IndexedDb.clearanceOf
    rw [hchange]
  have hnew : ∀ x, some e = some x → x.placementId = changeAddress op.info op.offset := by
    intro x hx
    injection hx with hx
    exact hx ▸ hplacement
  refine ⟨h.rows.step h.spelled (hplacement ▸ hputs) hnew h.fresh
    (cleared_none hclear hclearances), ?_⟩
  by_cases haddress : changeAddress op.info op.offset = entry
  · -- it is this one
    have hafter : trackAfter entry (trackOf entry past) op = some { place := e.place } := by
      unfold trackAfter
      simp only [hchange, if_pos haddress, hplace]
      rfl
    have hordered := h.legit.ofOrdered op h.mem haddress builder _ hchange hcontainer
    have hlisted : IsListed e := by
      unfold IsListed
      rw [hbehavior]
      exact hordered op h.mem builder hchange hcontainer
    rw [hafter]
    exact .placed h.rows hputs hlisted (hentry.trans haddress) hdated hfresh hordered
      (fun r hr _ => hplacement ▸ h.later r hr) rfl rfl
  · have hafter : trackAfter entry (trackOf entry past) op = trackOf entry past := by
      unfold trackAfter
      simp only [hchange, if_neg haddress]
    rw [hafter]
    refine ht.other h.rows hputs (fun x hx => ?_) fun x hlast hordered hremoves => ?_
    · injection hx with hx
      exact hx ▸ hentry ▸ haddress
    · -- the key of what is swept starts with the container of the new entry
      obtain ⟨hno, hstart⟩ := hremoves
      have hstands := (h.rows.spelled.placements _ hlast.stored).2
      have hnamed : Named e.containerId :=
        (h.legit.fits op h.mem).container builder _ hchange hcontainer
      have hsame : e.containerId = x.containerId := by
        refine named_inj hnamed hstands.container ?_
        have htake := hstart.take 34
        rw [hstands.take] at htake
        have hown : (sweptStart e).take 34 = muidTupleToString e.containerId := by
          unfold sweptStart
          rw [List.append_assoc, ← hnamed.length, List.take_left]
        rw [hown] at htake
        exact htake.eq_of_length (by rw [hnamed.length, hstands.container.length])
      refine hno ?_
      unfold IsListed
      rw [hbehavior]
      exact hordered op h.mem builder hchange (hsame ▸ hcontainer)

/-- An entry is moved. -/
theorem Comes.moved (h : Comes ops past op entry c c')
    (ht : Tracked ops entry c (trackOf entry past)) {builder : MovementBuilder}
    (hchange : op.change = .movement builder)
    (happlied : applyChange walks true op.info op.offset c (.movement builder) = .ok c') :
    Rows (past ++ [op]) c' ∧ Tracked ops entry c' (trackAfter entry (trackOf entry past) op) := by
  obtain ⟨m, hextract, hmove⟩ := bind_eq_ok.mp happlied
  obtain ⟨hid, hpurge⟩ := extractMovement_ok hextract
  have hretains := h.legit.retains op h.mem
  rw [hchange] at hretains
  have hmuid := h.legit.moves op h.mem builder m hchange hextract
  have hdated : Dated m.movementId := hid ▸ (h.legit.fits op h.mem).address
  have hfresh : Fresh past m.movementId := hid ▸ h.fresh
  have hclear : IndexedDb.clearanceOf op = none := by
    unfold IndexedDb.clearanceOf
    rw [hchange]
  have hafter : trackAfter entry (trackOf entry past) op = if m.entryId = entry then
      (trackOf entry past).map fun k => k.move m else trackOf entry past := by
    unfold trackAfter
    simp only [hchange, hextract]
    rfl
  rw [hafter]
  rcases h.rows.applyMovement hdated hfresh hmuid (hpurge.trans hretains) hmove with
    ⟨rfl, hseek⟩ | ⟨found, hseek, hfound, hentry, hputs, hleft, hclearances⟩
  · have hputs : Puts (changeAddress op.info op.offset) c' c' none fun _ => False :=
      .nothing rfl rfl rfl
    refine ⟨h.rows.step h.spelled hputs (fun _ hx => Option.noConfusion rfl (heq_of_eq hx)) h.fresh
      (cleared_none hclear rfl), ?_⟩
    split_ifs with hthis
    · -- an entry that has a track is found
      cases hk : trackOf entry past with
      | none => rwa [hk] at ht
      | some k =>
          rw [hk] at ht
          obtain ⟨e, hlast, -⟩ := ht
          rw [hthis, h.rows.seek_last hlast (above_tilde entry)] at hseek
          exact Option.noConfusion rfl (heq_of_eq hseek)
    · exact ht
  · have hnew : ∀ x, (if m.dest ≠ 0 then some (IndexedDb.Entry.movedTo found m) else none) = some x →
        x.placementId = m.movementId ∧ x.entryId = found.entryId := by
      intro x hx
      split_ifs at hx
      injection hx with hx
      rw [← hx]
      exact ⟨rfl, rfl⟩
    refine ⟨h.rows.step h.spelled (hid ▸ hputs) (fun x hx => (hnew x hx).1.trans hid) h.fresh
      (cleared_none hclear hclearances), ?_⟩
    split_ifs with hthis
    · cases hk : trackOf entry past with
      | none =>
          rw [hk] at ht
          exact absurd (hentry.trans hthis) (ht _ hfound)
      | some k =>
          rw [hk] at ht
          obtain ⟨e, hlast, hordered, hplace, -⟩ := ht
          rw [hthis, h.rows.seek_last hlast (above_tilde entry)] at hseek
          -- what is found is the last place
          injection hseek with hseek
          obtain ⟨-, hkey⟩ := Prod.mk.inj hseek
          have hsame : e = found := Table.eq_of_mem_of_mem (hkey ▸ hlast.stored) hfound
          subst hsame
          show Tracked ops entry c' (some (k.move m))
          unfold Track.move
          by_cases hdest : m.dest = 0
          · rw [if_pos hdest]
            rw [if_neg (not_not.mpr hdest)] at hputs
            refine ⟨e, ⟨(hputs.placements _).mpr (Or.inl hlast.stored), hlast.listed,
              hlast.entryId, fun r hr hrid => ?_⟩, hordered, hplace, iff_of_true hleft rfl⟩
            rcases (hputs.placements r).mp hr with hold | ⟨x, hx, -⟩
            · exact hlast.latest r hold hrid
            · exact Option.noConfusion rfl (heq_of_eq hx)
          · rw [if_neg hdest]
            rw [if_pos hdest] at hputs
            refine .placed h.rows hputs hlast.listed hlast.entryId hdated hfresh hordered
              (fun r hr _ => ?_) ?_ rfl
            · show r.2.placementId.Before m.movementId
              exact hid ▸ h.later r hr
            · show (⟨e.containerId, .number m.dest, m.movementId⟩ : Placement StorageKey) = _
              rw [← hplace]
              rfl
    · refine ht.other h.rows hputs (fun x hx => ?_) fun x hlast _ hx => ?_
      · rw [(hnew x hx).2, hentry]
        exact hthis
      · rw [← hlast.entryId, hx, hentry] at hthis
        exact hthis rfl

/-- A container is cleared. -/
theorem Comes.cleared (h : Comes ops past op entry c c')
    (ht : Tracked ops entry c (trackOf entry past)) {builder : ClearanceBuilder}
    (hchange : op.change = .clearance builder)
    (happlied : applyChange walks true op.info op.offset c (.clearance builder) = .ok c') :
    Rows (past ++ [op]) c' ∧ Tracked ops entry c' (trackAfter entry (trackOf entry past) op) := by
  have hretains : builder.purge = false := by
    have hretains := h.legit.retains op h.mem
    rw [hchange] at hretains
    exact hretains
  obtain ⟨b, hmessage, h1⟩ := bind_eq_ok.mp happlied
  obtain ⟨container, hcontainer, h2⟩ := bind_eq_ok.mp h1
  simp only [hretains, Bool.false_eq_true, if_false] at h2
  let z : Clearance := ⟨container, changeAddress op.info op.offset, false⟩
  have hclear : IndexedDb.clearanceOf op = some z := by
    unfold IndexedDb.clearanceOf
    simp only [hchange, hmessage, hcontainer, hretains, bind, Except.bind]
    rfl
  have hafter : trackAfter entry (trackOf entry past) op
      = (trackOf entry past).map fun k => k.clear z := by
    unfold trackAfter
    simp only [hchange, hclear]
  have hkeys : ∀ r ∈ c.clearances.rows, r.1 ≠ clearanceKey z := by
    intro r hr heq
    obtain ⟨o, ho, y, hy, rfl⟩ := (h.rows.cleared r).mp hr
    have hid := clearanceKey_inj heq
    rw [clearanceOf_address hy] at hid
    have hyd := (h.rows.spelled.clearances _ hr).2.2
    rw [clearanceOf_address hy] at hyd
    exact h.fresh o ho (muidTupleToString_inj hyd.muid.isAddress
      (h.legit.fits op h.mem).address.muid.isAddress hid)
  have hputs : Puts (changeAddress op.info op.offset) c c' none fun _ => False := by
    rw [← pure_eq_ok.mp h2]
    exact .nothing rfl rfl rfl
  refine ⟨h.rows.step h.spelled hputs (fun _ hx => Option.noConfusion rfl (heq_of_eq hx)) h.fresh
    fun r => ?_, ?_⟩
  · rw [← pure_eq_ok.mp h2, hclear]
    show r ∈ (c.clearances.put (clearanceKey z) z).rows ↔ _
    rw [mem_put_fresh hkeys]
    simp
  · have hkept := ht.other h.rows hputs (fun _ hx => Option.noConfusion rfl (heq_of_eq hx))
      fun _ _ _ hx => hx
    rw [hafter]
    cases hk : trackOf entry past with
    | none => rwa [hk] at hkept
    | some k =>
        rw [hk] at hkept
        obtain ⟨e, hlast, hordered, hplace, hleft⟩ := hkept
        have hsame : (k.clear z).place = k.place ∧ (k.clear z).deleted = k.deleted := by
          unfold Track.clear
          split_ifs <;> exact ⟨rfl, rfl⟩
        exact ⟨e, hlast, hordered, by rw [hsame.1, hplace], by rw [hsame.2, hleft]⟩

/-- **One change** keeps the rows, and what they say of the entry. -/
theorem Rows.change (h : Rows past c) (hlegit : Legitimate ops entry) {rest : List Op}
    (hops : ops = past ++ op :: rest)
    (ht : Tracked ops entry c (trackOf entry past))
    (happlied : applyChange walks true op.info op.offset c op.change = .ok c') :
    Rows (past ++ [op]) c' ∧ Tracked ops entry c' (trackOf entry (past ++ [op])) := by
  have hmem : op ∈ ops := hops ▸ List.mem_append_right _ List.mem_cons_self
  have horder : InOrder (past ++ op :: rest) := hops ▸ hlegit.inOrder
  have hbefore : ∀ o ∈ past, (changeAddress o.info o.offset).Before
      (changeAddress op.info op.offset) := fun o ho =>
    (List.pairwise_append.mp horder).2.2 o ho op List.mem_cons_self
  have hcomes : Comes ops past op entry c c' := by
    refine ⟨hlegit, hmem, h, h.spelled.applyChange (hlegit.fits op hmem) happlied,
      fun o ho heq => (hbefore o ho).ne heq, fun r hr => ?_⟩
    obtain ⟨o, ho, hmade⟩ := h.made r hr
    exact hmade ▸ hbefore o ho
  rw [trackOf_snoc]
  cases hchange : op.change with
  | unset =>
      rw [hchange] at happlied
      cases happlied
  | container container =>
      rw [hchange] at happlied
      have hclear : IndexedDb.clearanceOf op = none := by
        unfold IndexedDb.clearanceOf
        rw [hchange]
      have hafter : trackAfter entry (trackOf entry past) op = trackOf entry past := by
        unfold trackAfter
        rw [hchange]
      have hdone := Except.ok.inj happlied
      have hputs : Puts (changeAddress op.info op.offset) c c' none fun _ => False := by
        rw [← hdone]
        exact .nothing rfl rfl rfl
      rw [hafter]
      refine ⟨h.step hcomes.spelled hputs (fun _ hx => Option.noConfusion rfl (heq_of_eq hx))
        hcomes.fresh (cleared_none hclear (by rw [← hdone])), ?_⟩
      exact ht.other h hputs (fun _ hx => Option.noConfusion rfl (heq_of_eq hx)) fun _ _ _ hx => hx
  | entry builder =>
      rw [hchange] at happlied
      exact hcomes.added ht hchange happlied
  | movement builder =>
      rw [hchange] at happlied
      exact hcomes.moved ht hchange happlied
  | clearance builder =>
      rw [hchange] at happlied
      exact hcomes.cleared ht hchange happlied

/-! ## §6. Histories. -/

theorem applyChangesFrom_eq {info : BundleInfo} {changes : List ChangeBuilder} :
    ∀ {offset : Nat} {c : Contents}, applyChangesFrom walks true info offset changes c
      = applyOps (fun op c => applyChange walks true op.info op.offset c op.change)
          (opsFrom info offset changes) c := by
  induction changes with
  | nil => exact rfl
  | cons change rest ih =>
      intro offset c
      show (applyChange walks true info offset c change >>= fun c =>
        applyChangesFrom walks true info (offset + 1) rest c) = _
      simp only [ih]
      rfl

theorem History.applyOps {history : List OpenBundle} (h : History walks true history c) :
    Js.applyOps (fun op c => applyChange walks true op.info op.offset c op.change)
      (allOps history) {} = .ok c := by
  induction h with
  | start => rfl
  | @next past c c' b _ applied ih =>
      have hops : allOps (past ++ [b]) = allOps past ++ b.ops := by simp [allOps]
      rw [hops, applyOps_append, ih]
      rw [applyChangesFrom_eq] at applied
      exact applied

/-- **What the rows of a history say of an entry** is what its track says. -/
theorem History.tracked {history : List OpenBundle} (h : History walks true history c)
    (hlegit : Legitimate (allOps history) entry) :
    Rows (allOps history) c ∧
      Tracked (allOps history) entry c (trackOf entry (allOps history)) := by
  refine applyOps_keeps (I := fun past c => Rows past c ∧
    Tracked (allOps history) entry c (trackOf entry past)) ⟨Rows.start, ?_⟩ ?_ h.applyOps
  · exact fun r hr => absurd hr List.not_mem_nil
  · intro past op rest c c' hops hc happlied
    exact hc.1.change hlegit hops hc.2 happlied

/-! ## §7. Answers. -/

variable {trxns : List Int} {now t : Int} {asOf : Option Int}

theorem muidToString_muid (h : IsMuid entry) : muidToString entry = .ok (muidTupleToString entry) := by
  have hlength := length_spelling h
  rw [muidTupleToString_eq] at hlength ⊢
  unfold muidToString dash
  simp only [List.append_assoc, List.cons_append, List.nil_append] at hlength ⊢
  simp only [hlength, ne_eq, not_true_eq_false, if_false]
  rfl

/-- An entry without a row. -/
theorem Rows.getLocation_none (h : Rows past c) (hasOf : asOfTime trxns now asOf = .ok t)
    (hentry : IsMuid entry) (hnone : ∀ r ∈ c.placements.rows, r.2.entryId ≠ entry) :
    getLocation c trxns now entry asOf = .ok none := by
  unfold getLocation
  rw [hasOf, muidToString_muid hentry]
  simp only [ok_bind]
  cases hseek : toLastWithPrefixBeforeSuffix c.locations (muidTupleToString entry)
      (muidTupleToString entry ++ comma ++ muidTupleToString ⟨t, 0, 0⟩) with
  | none => rfl
  | some l =>
      obtain ⟨e, he, -, hid, -⟩ := h.seek hentry.isAddress hseek
      exact absurd hid (hnone _ he)

/-- The parts of a placement's key. -/
theorem splitOn_placementKey {e : Entry} {n : Int} (hkey : e.storageKey = .number n) :
    (placementKey e).splitOn 44 = [muidTupleToString e.containerId,
      storageKeyToString e.storageKey, muidTupleToString e.placementId] := by
  have hpart : ∀ {s : Str}, (44 : Int) ∉ s → ∀ u ∈ s, (u == 44) = false := by
    intro s hs u hu
    rw [beq_eq_false_iff_ne]
    exact fun heq => hs (heq ▸ hu)
  have hmiddle : (44 : Int) ∉ storageKeyToString e.storageKey := by
    rw [hkey]
    exact comma_not_mem_decimal
  unfold placementKey comma
  simp only [List.append_assoc, List.cons_append, List.nil_append]
  rw [List.splitOn, List.splitOnP_append_cons_of_forall_mem (hpart comma_not_spelled) 44 rfl,
    List.splitOnP_append_cons_of_forall_mem (hpart hmiddle) 44 rfl,
    List.splitOnP_eq_singleton (hpart comma_not_spelled)]

/-- The seek for a removal has the placement twice in its bound, so any removal is found. -/
theorem Rows.removal_iff (h : Rows past c) {p : MuidTuple} (hp : IsMuid p) (s : Str) :
    (toLastWithPrefixBeforeSuffix c.removals (muidTupleToString p)
      (muidTupleToString p ++ comma ++ s)).isSome = true ↔ Left c p := by
  rw [toLast_isSome_iff]
  constructor
  · rintro ⟨r, hr, hstart, -⟩
    obtain ⟨q, m, hkey, hq, -⟩ := h.spelled.removals r hr
    rw [hkey] at hstart
    exact ⟨r, hr, m, by rw [startsWith_joinedIds hp hq.muid hstart, hkey]⟩
  · rintro ⟨r, hr, m, hkey⟩
    refine ⟨r, hr, ?_, ?_⟩
    · rw [hkey]
      exact ⟨_, (List.append_assoc _ _ _).symm⟩
    · rw [hkey]
      exact above_repeated p s _

theorem Rows.cleared_iff (h : Rows past c) {e : Entry} :
    Cleared c e.containerId t e.placementId ↔ ClearedSince past t e.place := by
  constructor
  · rintro ⟨r, hr, hcontainer, hlow, hhigh⟩
    obtain ⟨op, hop, z, hz, rfl⟩ := (h.cleared r).mp hr
    exact ⟨op, hop, z, hz, hcontainer, hlow, hhigh⟩
  · rintro ⟨op, hop, z, hz, hcontainer, hlow, hhigh⟩
    exact ⟨_, (h.cleared _).mpr ⟨op, hop, z, hz, rfl⟩, hcontainer, hlow, hhigh⟩

/-- A timestamp read back is negative, or the timestamp. -/
theorem readBack_timestamp {n : Int} (hn : n < 16 ^ 13) :
    2 ^ 51 < n ∧ readBack 13 n < 0 ∨ n ≤ 2 ^ 51 ∧ readBack 13 n = n := by
  unfold readBack
  split_ifs <;> omega

/-- **What the lookup returns** of an entry that has a row. -/
theorem Rows.getLocation_some (h : Rows past c) (hasOf : asOfTime trxns now asOf = .ok t)
    (ht : 0 < t ∧ t < 16 ^ 13) {e : Entry} (hlast : IsLast c entry e)
    (hkey : ∃ n, e.storageKey = .number n) :
    (Left c e.placementId ∨ ClearedSince past t e.place ∨ 2 ^ 51 < e.placementId.timestamp →
      getLocation c trxns now entry asOf = .ok none) ∧
    (¬ (Left c e.placementId ∨ ClearedSince past t e.place ∨ 2 ^ 51 < e.placementId.timestamp) →
      getLocation c trxns now entry asOf =
        (strToMuidTuple (muidTupleToString e.containerId)).map fun container =>
          some ⟨container, storageKeyToString e.storageKey, readBack 13 e.placementId.timestamp,
            readBack 11 e.placementId.medallion, readBack 8 e.placementId.offset⟩) := by
  obtain ⟨n, hn⟩ := hkey
  have hstands : Stands e := (h.spelled.placements _ hlast.stored).2
  have hentry : IsMuid entry := hlast.entryId ▸ hstands.entry.muid
  have hp : Dated e.placementId := hstands.placement
  obtain ⟨hlow, -⟩ := h.spelled.clearanceTime_bounds t e.containerId
  have hclear := h.spelled.lt_getLastClearanceTime ht hstands.container hp
  rw [h.cleared_iff] at hclear
  have htest : (getLastClearanceTime c (muidTupleToString e.containerId) t >
        readBack 13 e.placementId.timestamp ∨
      (toLastWithPrefixBeforeSuffix c.removals (muidTupleToString e.placementId)
        (muidTupleToString e.placementId ++ comma ++ muidTupleToString ⟨t, 0, 0⟩)).isSome = true) ↔
      Left c e.placementId ∨ ClearedSince past t e.place ∨ 2 ^ 51 < e.placementId.timestamp := by
    rw [h.removal_iff hp.muid]
    rcases readBack_timestamp hp.muid.timestamp.2 with ⟨hlate, hneg⟩ | ⟨hearly, hsame⟩
    · -- a timestamp that comes back negative is before every clearance, if there is none too
      exact iff_of_true (Or.inl (by omega)) (Or.inr (Or.inr hlate))
    · rw [hsame, gt_iff_lt, hclear]
      constructor
      · rintro (hc | hl)
        · exact Or.inr (Or.inl hc)
        · exact Or.inl hl
      · rintro (hl | hc | hlate)
        · exact Or.inr hl
        · exact Or.inl hc
        · omega
  unfold getLocation
  simp only [hasOf, muidToString_muid hentry, ok_bind,
    h.seek_last hlast (above_repeated entry (muidTupleToString ⟨t, 0, 0⟩)),
    splitOn_placementKey hn, strToMuidTuple_spelling hp.muid]
  constructor
  · exact fun hcase => if_pos (htest.mpr hcase)
  · intro hcase
    rw [if_neg fun hno => hcase (htest.mp hno)]
    cases strToMuidTuple (muidTupleToString e.containerId) <;> rfl

end MemoryStore

end Js

end Gink
