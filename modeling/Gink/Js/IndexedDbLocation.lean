/-
  Gink.Js.IndexedDbLocation — where an `IndexedDbStore` finds an entry (IndexedDbStore.ts).

  `getLocation` takes the last placement of the entry, whenever that was made, and then looks
  for a removal of before the time of what it calls the entry: removals name placements, and
  the entry's own muid is that of its first one.  So an entry that any movement came for is not
  found, at its new place or at its old one.
-/
import Gink.Js.IndexedDbAsOf
import Gink.Js.IndexedDbPresent
import Gink.Js.MemoryStorePositions
import Gink.Js.Tracks

namespace Gink

namespace Js

open Gink.Idb (Key Range index lastIn)

namespace IndexedDb

/-! ## §1. The lookup. -/

/-- `getLocation(entry, asOf)`; `now` is what `generateTimestamp()` returns. -/
def getLocation (c : Contents) (trxns : List Int) (now : Int) (entry : MuidTuple)
    (asOf : Option Int) : Except JsError (Option (Placement StorageKey)) := do
  let asOfTs ← MemoryStore.asOfTime trxns now asOf
  match lastLocation c entry with
  | none => return none
  | some found =>
      let lastClear := getClearanceTime c found.containerId (some asOfTs)
      if lastClear > found.placementId.timestamp ∨ isRemoved c found.entryId (some asOfTs) = true then
        return none
      else return some ⟨found.containerId, found.storageKey, found.placementId⟩

/-! ## §2. What a change writes. -/

/-- A change adds at most one entry and at most one removal. -/
structure Puts (c c' : Contents) (new : Option Entry) (removal : Option Removal) : Prop where
  entries : ∀ r, r ∈ c'.entries.rows ↔
    r ∈ c.entries.rows ∨ ∃ e, new = some e ∧ r = (Entry.primary e, e)
  removals : ∀ r, r ∈ c'.removals.rows ↔
    r ∈ c.removals.rows ∨ ∃ x, removal = some x ∧ r = (x.removalId.key, x)

/-- The records of a store stand for the changes so far. -/
structure Rows (past : List Op) (c : Contents) : Prop where
  keyed : ∀ r ∈ c.entries.rows, r.1 = Entry.primary r.2
  made : ∀ e, Stored c e → ∃ op ∈ past, changeAddress op.info op.offset = e.placementId
  removed : ∀ r ∈ c.removals.rows, r.1 = r.2.removalId.key ∧ r.2.removing.Before r.2.removalId ∧
    ∃ e, Stored c e ∧ e.placementId = r.2.removing
  cleared : ∀ r, r ∈ c.clearances.rows ↔
    ∃ op ∈ past, ∃ z, clearanceOf op = some z ∧ r = (z.key, z)

variable {past : List Op} {op : Op} {c c' : Contents} {new : Option Entry}
  {removal : Option Removal} {entry : MuidTuple}

theorem Rows.start : Rows [] {} := by
  refine ⟨?_, ?_, ?_, ?_⟩ <;> simp [Stored]

theorem Rows.proper (h : Rows past c) : Proper c := by
  refine ⟨h.keyed, fun r hr => ?_⟩
  obtain ⟨op, -, z, -, rfl⟩ := (h.cleared r).mp hr
  rfl

theorem Rows.stamped (h : Rows past c) : Stamped (fun _ => True) c :=
  ⟨fun r hr => ⟨h.keyed r hr, trivial⟩, fun r hr => ⟨(h.removed r hr).1, trivial⟩,
    fun r hr => ⟨h.proper.clearances r hr, trivial⟩⟩

theorem Puts.nothing (hentries : c'.entries = c.entries) (hremovals : c'.removals = c.removals) :
    Puts c c' none none := by
  refine ⟨fun r => ?_, fun r => ?_⟩
  · simp [hentries]
  · simp [hremovals]

theorem Puts.stored_iff (h : Puts c c' new removal) {e : Entry} :
    Stored c' e ↔ Stored c e ∨ new = some e := by
  constructor
  · rintro ⟨k, hk⟩
    rcases (h.entries _).mp hk with hold | ⟨x, hx, heq⟩
    · exact Or.inl ⟨k, hold⟩
    · exact Or.inr (hx.trans (congrArg some (congrArg Prod.snd heq).symm))
  · rintro (⟨k, hk⟩ | he)
    · exact ⟨k, (h.entries _).mpr (Or.inl hk)⟩
    · exact ⟨_, (h.entries _).mpr (Or.inr ⟨e, he, rfl⟩)⟩

/-- **One change** keeps the records in step with the changes. -/
theorem Rows.step (h : Rows past c) (hputs : Puts c c' new removal)
    (hnew : ∀ e, new = some e → e.placementId = changeAddress op.info op.offset)
    (hremoval : ∀ x, removal = some x → x.removalId = changeAddress op.info op.offset ∧
      ∃ e, Stored c e ∧ e.placementId = x.removing)
    (hlater : ∀ e, Stored c e → e.placementId.Before (changeAddress op.info op.offset))
    (hcleared : ∀ r, r ∈ c'.clearances.rows ↔ r ∈ c.clearances.rows ∨
      ∃ z, clearanceOf op = some z ∧ r = (z.key, z)) : Rows (past ++ [op]) c' := by
  constructor
  · intro r hr
    rcases (hputs.entries r).mp hr with hold | ⟨e, he, rfl⟩
    · exact h.keyed r hold
    · rfl
  · intro e he
    rcases hputs.stored_iff.mp he with hold | hadded
    · obtain ⟨o, ho, hmade⟩ := h.made e hold
      exact ⟨o, List.mem_append_left _ ho, hmade⟩
    · exact ⟨op, List.mem_append_right _ (List.mem_singleton.mpr rfl), (hnew e hadded).symm⟩
  · intro r hr
    rcases (hputs.removals r).mp hr with hold | ⟨x, hx, rfl⟩
    · obtain ⟨hkey, hbefore, e, he, hid⟩ := h.removed r hold
      exact ⟨hkey, hbefore, e, hputs.stored_iff.mpr (Or.inl he), hid⟩
    · obtain ⟨hid, e, he, hremoving⟩ := hremoval x hx
      refine ⟨rfl, ?_, e, hputs.stored_iff.mpr (Or.inl he), hremoving⟩
      show x.removing.Before x.removalId
      rw [hid, ← hremoving]
      exact hlater e he
  · intro r
    rw [hcleared, h.cleared]
    simp only [List.mem_append, List.mem_singleton, or_and_right, exists_or, exists_eq_left]

/-! ## §3. The last location. -/

/-- The placement is stored, and every other one of its entry came before. -/
structure IsLast (c : Contents) (entry : MuidTuple) (e : Entry) : Prop where
  stored : Stored c e
  entryId : e.entryId = entry
  latest : ∀ x, Stored c x → x.entryId = entry → x = e ∨ x.placementId.Before e.placementId

theorem Rows.separates_locations (h : Rows past c) : Idb.Separates c.entries Entry.location := by
  intro r hr r' hr' hkey
  unfold Entry.location at hkey
  simp only [Key.array.injEq, List.cons.injEq, MuidTuple.key_inj, and_true] at hkey
  exact h.proper.placement_inj ⟨r.1, hr⟩ ⟨r'.1, hr'⟩ hkey.2

theorem Rows.includes_location (h : Rows past c) {e : Entry} (he : Stored c e) :
    Range.includes ⟨.array [entry.key, .array [.number 0]], .array [entry.key, .array [.infinity]]⟩
      e.location = true ↔ e.entryId = entry := by
  obtain ⟨o, -, hmade⟩ := h.made e he
  refine IndexedDb.includes_location ?_
  rw [← hmade]
  exact Int.natCast_nonneg _

theorem Rows.of_lastLocation (h : Rows past c) {e : Entry} (hseek : lastLocation c entry = some e) :
    Stored c e ∧ e.entryId = entry := by
  obtain ⟨hstored, hin, -⟩ := (Idb.lastIn_index h.separates_locations).mp hseek
  exact ⟨hstored, (h.includes_location hstored).mp hin⟩

/-- **The seek for an entry's location** finds the last placement. -/
theorem Rows.lastLocation_eq (h : Rows past c) {e : Entry} (hlast : IsLast c entry e) :
    lastLocation c entry = some e := by
  refine (Idb.lastIn_index h.separates_locations).mpr
    ⟨hlast.stored, (h.includes_location hlast.stored).mpr hlast.entryId, fun p x hx hin => ?_⟩
  have hid := (h.includes_location ⟨p, hx⟩).mp hin
  rcases hlast.latest x ⟨p, hx⟩ hid with rfl | hbefore
  · exact le_refl _
  · have hlt : x.placementId.key < e.placementId.key := MuidTuple.key_lt.mpr hbefore
    refine le_of_lt ?_
    unfold Entry.location
    rw [hid, hlast.entryId]
    simp [hlt]

theorem Rows.lastLocation_none (h : Rows past c) (hnone : ∀ e, Stored c e → e.entryId ≠ entry) :
    lastLocation c entry = none := by
  cases hseek : lastLocation c entry with
  | none => rfl
  | some e =>
      obtain ⟨he, hid⟩ := h.of_lastLocation hseek
      exact absurd hid (hnone e he)

/-! ## §4. Changes. -/

/-- An entry replaces at most one of its own container, if it is not of an ordered one. -/
theorem Rows.applyEntry (h : Rows past c) {info : BundleInfo} {offset : Nat} {b : EntryBuilder}
    (happlied : applyEntry true info offset b c = .ok c') :
    ∃ e removal, buildEntry b info offset = .ok e ∧ Puts c c' (some e) removal ∧
      c'.clearances = c.clearances ∧ ∀ x, removal = some x →
        x.removalId = e.placementId ∧ ¬ (e.behavior = .sequence ∨ e.behavior = .edgeType) ∧
          ∃ found, Stored c found ∧ found.containerId = e.containerId ∧
            found.placementId = x.removing := by
  obtain ⟨e, hbuild, h1⟩ := bind_eq_ok.mp happlied
  obtain ⟨c1, hreplace, h2⟩ := bind_eq_ok.mp h1
  obtain ⟨entries, hadd, h3⟩ := bind_eq_ok.mp h2
  obtain ⟨hentries, hclearances⟩ := replaceFound_kept hreplace
  rw [hentries] at hadd
  have hnew : ∀ r, r ∈ entries.rows ↔
      r ∈ c.entries.rows ∨ ∃ x, some e = some x ∧ r = (Entry.primary x, x) := by
    intro r
    rw [addRecord_rows hadd]
    simp only [Option.some.injEq, exists_eq_left']
    rfl
  rw [← pure_eq_ok.mp h3]
  unfold replaceFound at hreplace
  by_cases hacc : accumulates e.behavior = true
  · rw [if_pos hacc] at hreplace
    injection hreplace with hreplace
    subst hreplace
    refine ⟨e, none, hbuild, ⟨hnew, fun r => ?_⟩, rfl, fun x hx =>
      Option.noConfusion rfl (heq_of_eq hx)⟩
    simp
  · rw [if_neg hacc] at hreplace
    cases hfound : replacedBy c e with
    | none =>
        simp only [hfound, Except.ok.injEq] at hreplace
        subst hreplace
        refine ⟨e, none, hbuild, ⟨hnew, fun r => ?_⟩, rfl, fun x hx =>
          Option.noConfusion rfl (heq_of_eq hx)⟩
        simp
    | some found =>
        simp only [hfound, if_true] at hreplace
        obtain ⟨removals, hremoved, hdone⟩ := bind_eq_ok.mp hreplace
        obtain ⟨hstored, hin, -⟩ := (Idb.lastIn_index h.proper.separates).mp hfound
        refine ⟨e, some ⟨found.placementId, e.placementId, e.containerId, 0, found.entryId⟩, hbuild,
          ⟨hnew, fun r => ?_⟩, hclearances, fun x hx => ?_⟩
        · rw [← pure_eq_ok.mp hdone]
          show r ∈ removals.rows ↔ _
          rw [addRecord_rows hremoved]
          simp
        · injection hx with hx
          rw [← hx]
          refine ⟨rfl, fun hordered => hacc ?_, found, hstored, (includes_replaced.mp hin).1, rfl⟩
          rcases hordered with hb | hb <;> rw [hb] <;> rfl

/-- **A movement**, with history kept. -/
theorem applyMovement_puts {info : BundleInfo} {offset : Nat} {b : MovementBuilder} (hretains : b.purge = false)
    (happlied : applyMovement true info offset b c = .ok c') :
    ∃ m, extractMovement b info offset = .ok m ∧
      ((c' = c ∧ lastLocation c m.entryId = none) ∨
      ∃ found, lastLocation c m.entryId = some found ∧
        Puts c c' (if m.dest ≠ 0 then some (Entry.movedTo found m) else none)
          (some (m.removal found)) ∧ c'.clearances = c.clearances) := by
  obtain ⟨m, hextract, h1⟩ := bind_eq_ok.mp happlied
  have hpurge : m.purge = false := (extractMovement_ok hextract).2.trans hretains
  refine ⟨m, hextract, ?_⟩
  cases hfound : lastLocation c m.entryId with
  | none =>
      simp only [hfound] at h1
      exact Or.inl ⟨(pure_eq_ok.mp h1).symm, rfl⟩
  | some found =>
      simp only [hfound] at h1
      obtain ⟨c1, hplace, hleave⟩ := bind_eq_ok.mp h1
      unfold leaveOld at hleave
      rw [hpurge, if_neg (by simp)] at hleave
      obtain ⟨removals, hremoved, hdone⟩ := bind_eq_ok.mp hleave
      rw [← pure_eq_ok.mp hdone]
      refine Or.inr ⟨found, rfl, ?_⟩
      unfold placeMoved at hplace
      by_cases hdest : m.dest ≠ 0
      · rw [if_pos hdest] at hplace ⊢
        obtain ⟨entries, hadd, hplaced⟩ := bind_eq_ok.mp hplace
        rw [← pure_eq_ok.mp hplaced] at hremoved ⊢
        refine ⟨⟨fun r => ?_, fun r => ?_⟩, rfl⟩
        · show r ∈ entries.rows ↔ _
          rw [addRecord_rows hadd]
          simp only [Option.some.injEq, exists_eq_left']
          rfl
        · show r ∈ removals.rows ↔ _
          rw [addRecord_rows hremoved]
          simp only [Option.some.injEq, exists_eq_left']
          rfl
      · rw [if_neg hdest] at hplace ⊢
        injection hplace with hplace
        subst hplace
        refine ⟨⟨fun r => by simp, fun r => ?_⟩, rfl⟩
        show r ∈ removals.rows ↔ _
        rw [addRecord_rows hremoved]
        simp only [Option.some.injEq, exists_eq_left']
        rfl

/-! ## §5. The track of an entry. -/

variable {ops : List Op} {k : Option Track} {t : Int}

/-- The records say of an entry where its track has it. -/
def Located (ops : List Op) (entry : MuidTuple) (c : Contents) : Option Track → Prop
  | none => ∀ e, Stored c e → e.entryId ≠ entry
  | some k => (∃ e, IsLast c entry e ∧ e.place = k.place) ∧
      ∀ e, Stored c e → e.placementId = entry ∨ e.entryId = entry →
        e.entryId = entry ∧ HoldsOrdered ops e.containerId

/-- The first placement of the entry was removed before the time. -/
def LeftBefore (c : Contents) (entry : MuidTuple) (t : Int) : Prop :=
  ∃ r ∈ c.removals.rows, r.2.removing = entry ∧ r.2.removalId.timestamp < t

/-- That is so if some movement of before the time was of the entry. -/
def Leaves (c : Contents) (entry : MuidTuple) (t : Int) (k : Option Track) : Prop :=
  ∀ k', k = some k' → (LeftBefore c entry t ↔ k'.moved = true)

theorem Puts.leftBefore_iff (hputs : Puts c c' new removal)
    (hno : ∀ x, removal = some x → x.removing = entry → t ≤ x.removalId.timestamp) :
    LeftBefore c' entry t ↔ LeftBefore c entry t := by
  constructor
  · rintro ⟨r, hr, hremoving, hlt⟩
    rcases (hputs.removals r).mp hr with hold | ⟨x, hx, rfl⟩
    · exact ⟨r, hold, hremoving, hlt⟩
    · have hle := hno x hx hremoving
      have hlt' : x.removalId.timestamp < t := hlt
      omega
  · rintro ⟨r, hr, hrest⟩
    exact ⟨r, (hputs.removals r).mpr (Or.inl hr), hrest⟩

/-- **A change that places another entry**, or none. -/
theorem Located.other (hl : Located ops entry c k) (hputs : Puts c c' new removal)
    (hnew : ∀ e, new = some e → e.entryId ≠ entry ∧ (k.isSome = true → e.placementId ≠ entry)) :
    Located ops entry c' k := by
  cases k with
  | none =>
      intro e he
      rcases hputs.stored_iff.mp he with hold | hadded
      · exact hl e hold
      · exact (hnew e hadded).1
  | some k =>
      obtain ⟨⟨e, hlast, hplace⟩, hown⟩ := hl
      refine ⟨⟨e, ⟨hputs.stored_iff.mpr (Or.inl hlast.stored), hlast.entryId, fun x hx hid => ?_⟩,
        hplace⟩, fun x hx hid => ?_⟩
      · rcases hputs.stored_iff.mp hx with hold | hadded
        · exact hlast.latest x hold hid
        · exact absurd hid (hnew x hadded).1
      · rcases hputs.stored_iff.mp hx with hold | hadded
        · exact hown x hold hid
        · obtain ⟨hentry, hplacement⟩ := hnew x hadded
          exact absurd hid (not_or.mpr ⟨hplacement rfl, hentry⟩)

/-- Every entry names its container. -/
def Contained (ops : List Op) : Prop :=
  ∀ op ∈ ops, ∀ b, op.change = .entry b → ∃ container, extractContainerMuid b op.info = .ok container

/-- A change that comes where the records stand for those before it. -/
structure Comes (ops past : List Op) (op : Op) (entry : MuidTuple) (c : Contents) : Prop where
  legit : Legitimate ops entry
  contained : Contained ops
  inOrder : InOrder (past ++ [op])
  mem : op ∈ ops
  rows : Rows past c
  located : Located ops entry c (trackOf entry past)

theorem Comes.before (h : Comes ops past op entry c) : ∀ o ∈ past,
    (changeAddress o.info o.offset).Before (changeAddress op.info op.offset) := fun o ho =>
  (List.pairwise_append.mp h.inOrder).2.2 o ho op (List.mem_singleton.mpr rfl)

theorem Comes.later (h : Comes ops past op entry c) {e : Entry} (he : Stored c e) :
    e.placementId.Before (changeAddress op.info op.offset) := by
  obtain ⟨o, ho, hmade⟩ := h.rows.made e he
  exact hmade ▸ h.before o ho

/-- What has a track was added before. -/
theorem Comes.address_ne (h : Comes ops past op entry c)
    (hk : (trackOf entry past).isSome = true) : changeAddress op.info op.offset ≠ entry := by
  obtain ⟨k, hk⟩ := Option.isSome_iff_exists.mp hk
  obtain ⟨o, ho, haddress⟩ := (trackOf_known (List.pairwise_append.mp h.inOrder).1 hk).added
  intro heq
  exact (h.before o ho).ne (haddress.trans heq.symm)

theorem cleared_none (hclear : clearanceOf op = none) (hsame : c'.clearances = c.clearances)
    (r : Key × Clearance) : r ∈ c'.clearances.rows ↔ r ∈ c.clearances.rows ∨
      ∃ z, clearanceOf op = some z ∧ r = (z.key, z) := by
  rw [hsame, hclear]
  simp

/-- A container names its entry's place in both kinds of store. -/
theorem buildEntry_place {b : EntryBuilder} {e : Entry} {container : MuidTuple}
    (h : buildEntry b op.info op.offset = .ok e)
    (hcontainer : extractContainerMuid b op.info = .ok container) :
    placedAt b op = .ok e.place ∧ e.containerId = container ∧ e.behavior = b.behavior := by
  obtain ⟨own, hown, h1⟩ := bind_eq_ok.mp h
  obtain ⟨key, hkey, h2⟩ := bind_eq_ok.mp h1
  obtain ⟨lists, -, h3⟩ := bind_eq_ok.mp h2
  have hsame : own = container := by
    unfold containerIdOf at hown
    cases hsome : b.container with
    | none =>
        unfold extractContainerMuid at hcontainer
        rw [hsome] at hcontainer
        cases hcontainer
    | some muid =>
        simp only [hsome] at hown
        rw [hcontainer] at hown
        exact (Except.ok.inj hown).symm
  rw [← pure_eq_ok.mp h3]
  refine ⟨?_, hsame, rfl⟩
  unfold placedAt
  rw [hcontainer, hkey, ← hsame]
  rfl

/-- An entry is added. -/
theorem Comes.added (h : Comes ops past op entry c) {b : EntryBuilder}
    (hchange : op.change = .entry b)
    (happlied : applyChange true op.info op.offset c (.entry b) = .ok c') :
    Rows (past ++ [op]) c' ∧ Located ops entry c' (trackAfter entry (trackOf entry past) op) ∧
      ∀ k, Leaves c entry t k → (k.isSome = true → (trackOf entry past).isSome = true) →
        Leaves c' entry t (trackAfter entry k op) := by
  obtain ⟨e, removal, hbuild, hputs, hclearances, hremoval⟩ := h.rows.applyEntry happlied
  obtain ⟨container, hcontainer⟩ := h.contained op h.mem b hchange
  obtain ⟨hplace, hsame, hbehavior⟩ := buildEntry_place hbuild hcontainer
  obtain ⟨-, -, hplacement, hid⟩ := buildEntry_ok hbuild
  have hclear : clearanceOf op = none := by
    unfold clearanceOf
    rw [hchange]
  have hnew : ∀ x, some e = some x → x = e := fun x hx => (Option.some.inj hx).symm
  refine ⟨h.rows.step hputs (fun x hx => (hnew x hx) ▸ hplacement) (fun x hx => ?_)
    (fun x hx => h.later hx) (cleared_none hclear hclearances), ?_⟩
  · obtain ⟨hxid, -, found, hfound, -, hremoving⟩ := hremoval x hx
    exact ⟨hxid.trans hplacement, found, hfound, hremoving⟩
  have hafter : ∀ k, trackAfter entry k op =
      if changeAddress op.info op.offset = entry then some { place := e.place } else k := by
    intro k
    unfold trackAfter
    simp only [hchange, hplace]
    rfl
  rw [hafter]
  by_cases haddress : changeAddress op.info op.offset = entry
  · -- it is this one, so nothing has a track yet
    have hnone : trackOf entry past = none := by
      cases hk : trackOf entry past with
      | none => rfl
      | some k => exact absurd haddress (h.address_ne (by rw [hk]; rfl))
    have hold := h.located
    rw [hnone] at hold
    have hordered := h.legit.ofOrdered op h.mem haddress b container hchange hcontainer
    rw [if_pos haddress]
    refine ⟨⟨⟨e, ⟨hputs.stored_iff.mpr (Or.inr rfl), hid.trans haddress, fun x hx hxid => ?_⟩, rfl⟩,
      fun x hx hxid => ?_⟩, fun k _ _ k' hk' => ?_⟩
    · rcases hputs.stored_iff.mp hx with hx | hx
      · exact absurd hxid (hold x hx)
      · exact Or.inl (hnew x hx)
    · rcases hputs.stored_iff.mp hx with hx | hx
      · refine absurd hxid (not_or.mpr ⟨fun heq => ?_, hold x hx⟩)
        exact (h.later hx).ne (heq.trans haddress.symm)
      · rw [hnew x hx]
        exact ⟨hid.trans haddress, hsame ▸ hordered⟩
    · rw [hafter, if_pos haddress] at hk'
      injection hk' with hk'
      rw [← hk']
      refine iff_of_false ?_ Bool.noConfusion
      rintro ⟨r, hr, hremoving, -⟩
      -- a removal is of a placement that was there before
      have hstored : ∃ x, Stored c x ∧ x.placementId = entry := by
        rcases (hputs.removals r).mp hr with hr | ⟨x, hx, rfl⟩
        · obtain ⟨-, -, x, hx, hxid⟩ := h.rows.removed r hr
          exact ⟨x, hx, hxid.trans hremoving⟩
        · obtain ⟨-, -, found, hfound, -, hxid⟩ := hremoval x hx
          exact ⟨found, hfound, hxid.trans hremoving⟩
      obtain ⟨x, hx, hxid⟩ := hstored
      exact (h.later hx).ne (hxid.trans haddress.symm)
  · rw [if_neg haddress]
    refine ⟨h.located.other hputs fun x hx => ?_, fun k hk hsome => ?_⟩
    · rw [hnew x hx, hid, hplacement]
      exact ⟨haddress, fun _ => haddress⟩
    · rw [hafter, if_neg haddress]
      intro k' hk'
      rw [hputs.leftBefore_iff fun x hx hremoving => ?_]
      · exact hk k' hk'
      · -- what a keyed entry replaces is in no ordered container
        obtain ⟨-, hno, found, hfound, hcontainers, hxid⟩ := hremoval x hx
        have hlocated := h.located
        obtain ⟨k₀, hk₀⟩ := Option.isSome_iff_exists.mp (hsome (by rw [hk']; rfl))
        rw [hk₀] at hlocated
        obtain ⟨-, hordered⟩ := hlocated.2 found hfound (Or.inl (hxid.trans hremoving))
        refine absurd ?_ hno
        rw [hbehavior]
        refine hordered op h.mem b hchange ?_
        rw [hcontainers, hsame]
        exact hcontainer

/-- An entry is moved. -/
theorem Comes.moved (h : Comes ops past op entry c) {b : MovementBuilder}
    (hchange : op.change = .movement b)
    (happlied : applyChange true op.info op.offset c (.movement b) = .ok c') :
    Rows (past ++ [op]) c' ∧ Located ops entry c' (trackAfter entry (trackOf entry past) op) ∧
      ∀ k, Leaves c entry t k → (k.isSome = true → k = trackOf entry past) →
        (op.info.timestamp.val : Int) < t → Leaves c' entry t (trackAfter entry k op) := by
  have hretains := h.legit.retains op h.mem
  rw [hchange] at hretains
  obtain ⟨m, hextract, hmove⟩ := applyMovement_puts hretains happlied
  have hid := (extractMovement_ok hextract).1
  have hclear : clearanceOf op = none := by
    unfold clearanceOf
    rw [hchange]
  have hafter : ∀ k, trackAfter entry k op =
      if m.entryId = entry then k.map fun k => k.move m else k := by
    intro k
    unfold trackAfter
    simp only [hchange, hextract]
    rfl
  have hmoved : ∀ k : Track, (k.move m).moved = true := by
    intro k
    unfold Track.move
    split_ifs <;> rfl
  simp only [hafter]
  rcases hmove with ⟨rfl, hnone⟩ | ⟨found, hseek, hputs, hclearances⟩
  · refine ⟨h.rows.step (.nothing rfl rfl) (fun _ hx => Option.noConfusion rfl (heq_of_eq hx))
      (fun _ hx => Option.noConfusion rfl (heq_of_eq hx)) (fun x hx => h.later hx)
      (cleared_none hclear rfl), ?_⟩
    by_cases hthis : m.entryId = entry
    · -- an entry that has a track is found
      have hk : trackOf entry past = none := by
        cases hk : trackOf entry past with
        | none => rfl
        | some k =>
            have hlocated := h.located
            rw [hk] at hlocated
            obtain ⟨⟨e, hlast, -⟩, -⟩ := hlocated
            rw [hthis, h.rows.lastLocation_eq hlast] at hnone
            exact Option.noConfusion rfl (heq_of_eq hnone)
      have hlocated := h.located
      rw [hk] at hlocated
      rw [if_pos hthis, hk]
      refine ⟨hlocated, fun k _ hsame _ k' hk' => ?_⟩
      rw [if_pos hthis] at hk'
      obtain ⟨k₀, hk₀, -⟩ := Option.map_eq_some_iff.mp hk'
      have := hsame (by rw [hk₀]; rfl)
      rw [hk₀] at this
      exact Option.noConfusion rfl (heq_of_eq this)
    · simp only [if_neg hthis]
      exact ⟨h.located, fun k hk _ _ => hk⟩
  · obtain ⟨hfound, hfoundId⟩ := h.rows.of_lastLocation hseek
    have hnew : ∀ x, (if m.dest ≠ 0 then some (Entry.movedTo found m) else none) = some x →
        x = Entry.movedTo found m := by
      intro x hx
      split_ifs at hx
      exact (Option.some.inj hx).symm
    have hremoval : ∀ x, some (m.removal found) = some x → x = m.removal found := fun x hx =>
      (Option.some.inj hx).symm
    refine ⟨h.rows.step hputs (fun x hx => (hnew x hx) ▸ hid) (fun x hx => ?_)
      (fun x hx => h.later hx) (cleared_none hclear hclearances), ?_⟩
    · rw [hremoval x hx]
      exact ⟨hid, found, hfound, rfl⟩
    by_cases hthis : m.entryId = entry
    · simp only [if_pos hthis]
      cases hk : trackOf entry past with
      | none =>
          have hlocated := h.located
          rw [hk] at hlocated
          exact absurd (hfoundId.trans hthis) (hlocated found hfound)
      | some k =>
          have hlocated := h.located
          rw [hk] at hlocated
          obtain ⟨⟨e, hlast, hplace⟩, hown⟩ := hlocated
          rw [hthis, h.rows.lastLocation_eq hlast] at hseek
          injection hseek with hseek
          subst hseek
          have hcontainer := (hown e hfound (Or.inr hlast.entryId)).2
          constructor
          · show Located ops entry c' (some (k.move m))
            unfold Track.move
            refine ⟨?_, fun x hx hxid => ?_⟩
            · by_cases hdest : m.dest = 0
              · rw [if_pos hdest]
                refine ⟨e, ⟨hputs.stored_iff.mpr (Or.inl hfound), hlast.entryId,
                  fun x hx hxid => ?_⟩, hplace⟩
                rcases hputs.stored_iff.mp hx with hx | hx
                · exact hlast.latest x hx hxid
                · rw [if_neg (not_not.mpr hdest)] at hx
                  exact Option.noConfusion rfl (heq_of_eq hx)
              · rw [if_neg hdest]
                rw [if_pos hdest] at hputs hnew
                refine ⟨Entry.movedTo e m, ⟨hputs.stored_iff.mpr (Or.inr rfl), hlast.entryId,
                  fun x hx hxid => ?_⟩, ?_⟩
                · rcases hputs.stored_iff.mp hx with hx | hx
                  · refine Or.inr ?_
                    show x.placementId.Before m.movementId
                    exact hid ▸ h.later hx
                  · exact Or.inl (hnew x hx)
                · show (⟨e.containerId, .number m.dest, m.movementId⟩ : Placement StorageKey) = _
                  rw [← hplace]
                  rfl
            · rcases hputs.stored_iff.mp hx with hx | hx
              · exact hown x hx hxid
              · rw [hnew x hx]
                exact ⟨hlast.entryId, hcontainer⟩
          · intro k₁ hleaves hsame hearly k' hk'
            obtain ⟨k₂, hk₂, rfl⟩ := Option.map_eq_some_iff.mp hk'
            have hsame' := hsame (by rw [hk₂]; rfl)
            rw [hk₂] at hsame'
            injection hsame' with hsame'
            subst hsame'
            refine iff_of_true ?_ (hmoved _)
            cases hbefore : k₂.moved with
            | true =>
                obtain ⟨r, hr, hrest⟩ := (hleaves k₂ hk₂).mpr hbefore
                exact ⟨r, (hputs.removals r).mpr (Or.inl hr), hrest⟩
            | false =>
                -- the first movement removes the first placement
                have hfirst := ((trackOf_known (List.pairwise_append.mp h.inOrder).1 hk).unmoved
                  hbefore).1
                refine ⟨_, (hputs.removals _).mpr (Or.inr ⟨_, rfl, rfl⟩), ?_, ?_⟩
                · show e.placementId = entry
                  rw [← hfirst, ← hplace]
                  rfl
                · show m.movementId.timestamp < t
                  rw [hid]
                  exact hearly
    · simp only [if_neg hthis]
      refine ⟨h.located.other hputs fun x hx => ?_, fun k hk hsame _ k' hk' => ?_⟩
      · rw [hnew x hx]
        refine ⟨fun heq => hthis (hfoundId.symm.trans heq), fun hsome heq => ?_⟩
        exact h.address_ne hsome (hid.symm.trans heq)
      · rw [hputs.leftBefore_iff fun x hx hremoving => ?_]
        · exact hk k' hk'
        · rw [hremoval x hx] at hremoving
          have hlocated := h.located
          rw [← hsame (by rw [hk']; rfl), hk'] at hlocated
          exact absurd ((hlocated.2 found hfound (Or.inl hremoving)).1) fun heq =>
            hthis (hfoundId.symm.trans heq)

/-- A container is made or cleared. -/
theorem Comes.unmoved (h : Comes ops past op entry c) (hputs : Puts c c' none none)
    (hcleared : ∀ r, r ∈ c'.clearances.rows ↔ r ∈ c.clearances.rows ∨
      ∃ z, clearanceOf op = some z ∧ r = (z.key, z))
    (hafter : ∀ k, trackAfter entry k op = k ∨
      ∃ z, trackAfter entry k op = k.map fun k => k.clear z) :
    Rows (past ++ [op]) c' ∧ Located ops entry c' (trackAfter entry (trackOf entry past) op) ∧
      ∀ k, Leaves c entry t k → Leaves c' entry t (trackAfter entry k op) := by
  have hnone : ∀ {α : Type} {p : α → Prop} (x : α), (none : Option α) = some x → p x := fun _ hx =>
    Option.noConfusion rfl (heq_of_eq hx)
  have hcleared' : ∀ (k : Track) (z : Clearance),
      (k.clear z).place = k.place ∧ (k.clear z).moved = k.moved := by
    intro k z
    unfold Track.clear
    split_ifs <;> exact ⟨rfl, rfl⟩
  refine ⟨h.rows.step hputs hnone hnone (fun x hx => h.later hx) hcleared, ?_, ?_⟩
  · have hkept := h.located.other hputs hnone
    rcases hafter (trackOf entry past) with hsame | ⟨z, hclear⟩
    · rw [hsame]
      exact hkept
    · rw [hclear]
      cases hk : trackOf entry past with
      | none => rwa [hk] at hkept
      | some k =>
          rw [hk] at hkept
          obtain ⟨⟨e, hlast, hplace⟩, hown⟩ := hkept
          exact ⟨⟨e, hlast, by rw [hplace, (hcleared' k z).1]⟩, hown⟩
  · intro k hk k' hk'
    rw [hputs.leftBefore_iff hnone]
    rcases hafter k with hsame | ⟨z, hclear⟩
    · exact hk k' (hsame ▸ hk')
    · rw [hclear] at hk'
      obtain ⟨k₀, hk₀, rfl⟩ := Option.map_eq_some_iff.mp hk'
      rw [(hcleared' k₀ z).2]
      exact hk k₀ hk₀

/-- **One change** keeps the records, and what they say of the entry; `k` is the track of before
some time. -/
theorem Comes.change (h : Comes ops past op entry c)
    (happlied : applyChange true op.info op.offset c op.change = .ok c') :
    Rows (past ++ [op]) c' ∧ Located ops entry c' (trackAfter entry (trackOf entry past) op) ∧
      ((op.info.timestamp.val : Int) < t → Leaves c entry t (trackOf entry past) →
        Leaves c' entry t (trackAfter entry (trackOf entry past) op)) := by
  cases hchange : op.change with
  | unset =>
      rw [hchange] at happlied
      cases happlied
  | container container =>
      rw [hchange] at happlied
      obtain ⟨containers, -, hdone⟩ := bind_eq_ok.mp happlied
      have hclear : clearanceOf op = none := by
        unfold clearanceOf
        rw [hchange]
      have hafter : ∀ k, trackAfter entry k op = k := by
        intro k
        unfold trackAfter
        rw [hchange]
      have hputs : Puts c c' none none := by
        rw [← pure_eq_ok.mp hdone]
        exact .nothing rfl rfl
      obtain ⟨hrows, hlocated, hleaves⟩ := h.unmoved (t := t) hputs
        (cleared_none hclear (by rw [← pure_eq_ok.mp hdone])) fun k => Or.inl (hafter k)
      exact ⟨hrows, hlocated, fun _ hk => hleaves _ hk⟩
  | entry b =>
      rw [hchange] at happlied
      obtain ⟨hrows, hlocated, hleaves⟩ := h.added (t := t) hchange happlied
      exact ⟨hrows, hlocated, fun _ hk => hleaves _ hk id⟩
  | movement b =>
      rw [hchange] at happlied
      obtain ⟨hrows, hlocated, hleaves⟩ := h.moved (t := t) hchange happlied
      exact ⟨hrows, hlocated, fun hearly hk => hleaves _ hk (fun _ => rfl) hearly⟩
  | clearance b =>
      have hretains : b.purge = false := by
        have hretains := h.legit.retains op h.mem
        rw [hchange] at hretains
        exact hretains
      rw [hchange] at happlied
      have hadds := (applyChange_adds (show IsPlain (.clearance b) from hretains) happlied).2
      have hop : (⟨op.info, op.offset, .clearance b⟩ : Op) = op := by rw [← hchange]
      rw [hop] at hadds
      have hputs : Puts c c' none none := by
        obtain ⟨muid, -, h1⟩ := bind_eq_ok.mp happlied
        obtain ⟨container, -, h2⟩ := bind_eq_ok.mp h1
        rw [hretains, if_neg (by simp)] at h2
        obtain ⟨clearances, -, h3⟩ := bind_eq_ok.mp h2
        rw [← pure_eq_ok.mp h3]
        exact .nothing rfl rfl
      obtain ⟨hrows, hlocated, hleaves⟩ := h.unmoved (t := t) hputs hadds fun k => by
        unfold trackAfter
        simp only [hchange]
        cases clearanceOf op with
        | none => exact Or.inl rfl
        | some z => exact Or.inr ⟨z, rfl⟩
      exact ⟨hrows, hlocated, fun _ hk => hleaves _ hk⟩

/-! ## §6. Histories. -/

/-- A change from the time on leaves what was removed before it. -/
theorem leftBefore_late (hrows : Rows past c) (hrows' : Rows (past ++ [op]) c')
    (hagree : AgreeBefore t c c') : LeftBefore c' entry t ↔ LeftBefore c entry t := by
  constructor
  · rintro ⟨r, hr, hremoving, hlt⟩
    have hkey : r.1 < Key.array [.number t] := by
      rw [(hrows'.removed r hr).1]
      exact key_lt_at.mpr hlt
    exact ⟨r, (hagree.removals r hkey).mpr hr, hremoving, hlt⟩
  · rintro ⟨r, hr, hremoving, hlt⟩
    have hkey : r.1 < Key.array [.number t] := by
      rw [(hrows.removed r hr).1]
      exact key_lt_at.mpr hlt
    exact ⟨r, (hagree.removals r hkey).mp hr, hremoving, hlt⟩

theorem applyChangesFrom_eq {info : BundleInfo} {changes : List ChangeBuilder} :
    ∀ {offset : Nat} {c : Contents}, applyChangesFrom true info offset changes c
      = applyOps (fun op c => applyChange true op.info op.offset c op.change)
          (opsFrom info offset changes) c := by
  induction changes with
  | nil => exact rfl
  | cons change rest ih =>
      intro offset c
      show (applyChange true info offset c change >>= fun c =>
        applyChangesFrom true info (offset + 1) rest c) = _
      simp only [ih]
      rfl

theorem History.applyOps {history : List OpenBundle} (h : History true history c) :
    Js.applyOps (fun op c => applyChange true op.info op.offset c op.change)
      (allOps history) {} = .ok c := by
  induction h with
  | start => rfl
  | @next past c c' b _ applied ih =>
      have hops : allOps (past ++ [b]) = allOps past ++ b.ops := by simp [allOps]
      rw [hops, applyOps_append, ih]
      rw [applyChangesFrom_eq] at applied
      exact applied

/-- **What the records of a history say of an entry** is what its track says, and the first
placement was removed before a time if the entry was moved before. -/
theorem History.located {history : List OpenBundle} (h : History true history c)
    (hlegit : Legitimate (allOps history) entry) (hcontained : Contained (allOps history)) :
    Rows (allOps history) c ∧
      Located (allOps history) entry c (trackOf entry (allOps history)) ∧
      Leaves c entry t (trackOf entry (early t (allOps history))) := by
  refine applyOps_keeps (I := fun past c => Rows past c ∧
    Located (allOps history) entry c (trackOf entry past) ∧
    Leaves c entry t (trackOf entry (early t past))) ⟨Rows.start, ?_, ?_⟩ ?_ h.applyOps
  · rintro e ⟨k, hk⟩
    exact absurd hk List.not_mem_nil
  · exact fun k hk => Option.noConfusion rfl (heq_of_eq hk)
  · rintro past op rest c c' hops ⟨hrows, hlocated, hleaves⟩ happlied
    have hall : InOrder ((past ++ [op]) ++ rest) := by
      rw [List.append_assoc]
      exact hops ▸ hlegit.inOrder
    have horder : InOrder (past ++ [op]) := (List.pairwise_append.mp hall).1
    have hmem : op ∈ allOps history := hops ▸ List.mem_append_right _ List.mem_cons_self
    have hcomes : Comes (allOps history) past op entry c :=
      ⟨hlegit, hcontained, horder, hmem, hrows, hlocated⟩
    obtain ⟨hrows', hlocated', hleaves'⟩ := hcomes.change (t := t) happlied
    rw [← trackOf_snoc] at hlocated'
    refine ⟨hrows', hlocated', ?_⟩
    rw [horder.early_snoc]
    split_ifs with hearly
    · -- so far all changes are early
      have hpast : early t past = past := by
        refine List.filter_eq_self.mpr fun o ho => ?_
        have hle : (o.info.timestamp.val : Int) ≤ (op.info.timestamp.val : Int) :=
          (hcomes.before o ho).timestamp_le
        rw [decide_eq_true_eq]
        omega
      rw [hpast] at hleaves
      rw [trackOf_snoc]
      exact hleaves' hearly hleaves
    · have hagree := (applyChange_writes (hlegit.retains op hmem) happlied).agreeBefore
        (t := t) (not_lt.mp hearly)
      intro k hk
      rw [leftBefore_late hrows hrows' hagree]
      exact hleaves k hk

/-! ## §7. Answers. -/

variable {trxns : List Int} {now : Int} {asOf : Option Int}

/-- An entry without a record. -/
theorem Rows.getLocation_none (h : Rows past c) (hasOf : MemoryStore.asOfTime trxns now asOf = .ok t)
    (hnone : ∀ e, Stored c e → e.entryId ≠ entry) :
    getLocation c trxns now entry asOf = .ok none := by
  unfold getLocation
  rw [hasOf, h.lastLocation_none hnone]
  rfl

theorem Rows.cleared_iff (h : Rows past c) {e : Entry} (he : Stored c e) :
    e.placementId.timestamp < getClearanceTime c e.containerId (some t) ↔
      ClearedSince past t e.place := by
  obtain ⟨o, -, hmade⟩ := h.made e he
  have h0 : 0 ≤ e.placementId.timestamp := by
    rw [← hmade]
    exact Int.natCast_nonneg _
  rw [lt_clearanceTime h.proper h0]
  constructor
  · rintro ⟨z, hz, hcontainer, hbefore, hlow⟩
    obtain ⟨op, hop, y, hy, heq⟩ := (h.cleared _).mp hz
    injection heq with _ heq
    exact ⟨op, hop, z, heq ▸ hy, hcontainer, hlow, hbefore t rfl⟩
  · rintro ⟨op, hop, z, hz, hcontainer, hlow, hhigh⟩
    refine ⟨z, (h.cleared _).mpr ⟨op, hop, z, hz, rfl⟩, hcontainer, fun s hs => ?_, hlow⟩
    injection hs with hs
    exact hs ▸ hhigh

/-- **What the lookup returns** of an entry that has a record. -/
theorem Rows.getLocation_some (h : Rows past c) (hasOf : MemoryStore.asOfTime trxns now asOf = .ok t)
    {e : Entry} (hlast : IsLast c entry e) :
    (ClearedSince past t e.place ∨ LeftBefore c entry t →
      getLocation c trxns now entry asOf = .ok none) ∧
    (¬ (ClearedSince past t e.place ∨ LeftBefore c entry t) →
      getLocation c trxns now entry asOf = .ok (some e.place)) := by
  have htest : (getClearanceTime c e.containerId (some t) > e.placementId.timestamp ∨
      isRemoved c e.entryId (some t) = true) ↔ ClearedSince past t e.place ∨ LeftBefore c entry t := by
    rw [gt_iff_lt, h.cleared_iff hlast.stored, h.stamped.isRemoved_iff, hlast.entryId]
    refine or_congr_right ⟨?_, ?_⟩
    · rintro ⟨k, r, hr, hrest⟩
      exact ⟨_, hr, hrest⟩
    · rintro ⟨r, hr, hrest⟩
      exact ⟨r.1, r.2, hr, hrest⟩
  unfold getLocation
  simp only [hasOf, h.lastLocation_eq hlast, ok_bind]
  constructor
  · exact fun hcase => if_pos (htest.mpr hcase)
  · exact fun hcase => if_neg fun hno => hcase (htest.mp hno)

end IndexedDb

end Js

end Gink
