/-
  Gink.Js.IndexedDbOrdered — the courses of entries in an `IndexedDbStore`.

  While history is kept, the entries and the removals of the store are those of the courses
  of its entries, and its clearances those of the changes.  Two replicas that have applied
  the changes of each entry in the same order therefore hold the same records, and answer
  every read of an ordered container alike.
-/
import Gink.Js.Courses
import Gink.Js.IndexedDbKeyed

namespace Gink

namespace Js

open Gink.Idb (Key Range add index visited lastIn)

namespace IndexedDb

/-! ## §1. Courses and records. -/

/-- The records of the store are those of the courses. -/
structure Represents (c : Contents) (t : MuidTuple → Course) : Prop where
  entries : ∀ k e, (k, e) ∈ c.entries.rows ↔ k = Entry.primary e ∧ e ∈ (t e.entryId).entries
  removals : ∀ k r, (k, r) ∈ c.removals.rows ↔ k = r.removalId.key ∧ r ∈ (t r.entryId).removals
  owned : ∀ x, ∀ e ∈ (t x).entries, e.entryId = x ∧ 0 ≤ e.placementId.timestamp
  taken : ∀ x, ∀ r ∈ (t x).removals, r.entryId = x

/-- The store with no records and the courses with no events. -/
theorem Represents.start : Represents {} (fun _ => {}) := by
  constructor <;> simp

section
variable {c c' : Contents} {t : MuidTuple → Course}

/-- Placements tell entries apart. -/
theorem Represents.placement_inj (h : Represents c t) {e e' : Entry}
    (he : e ∈ (t e.entryId).entries) (he' : e' ∈ (t e'.entryId).entries)
    (heq : e.placementId = e'.placementId) : e = e' := by
  have hrow := (h.entries _ e).mpr ⟨rfl, he⟩
  have hrow' := (h.entries _ e').mpr ⟨rfl, he'⟩
  have hkey : Entry.primary e = Entry.primary e' := by
    unfold Entry.primary
    rw [heq]
  rw [← hkey] at hrow'
  exact Table.eq_of_mem_of_mem hrow hrow'

theorem Represents.separates (h : Represents c t) : Idb.Separates c.entries Entry.location := by
  intro r hr r' hr' hkey
  obtain ⟨k, e⟩ := r
  obtain ⟨k', e'⟩ := r'
  unfold Entry.location at hkey
  simp only [Key.array.injEq, List.cons.injEq, MuidTuple.key_inj, and_true] at hkey
  exact h.placement_inj ((h.entries k e).mp hr).2 ((h.entries k' e').mp hr').2 hkey.2

/-- The range of the seek takes in the placements of the entry. -/
theorem includes_location {x : MuidTuple} {e : Entry} (he : 0 ≤ e.placementId.timestamp) :
    Range.includes ⟨.array [x.key, .array [.number 0]], .array [x.key, .array [.infinity]]⟩
      e.location = true ↔ e.entryId = x := by
  have hlow : ¬ e.placementId.key < .array [.number 0] := by
    unfold MuidTuple.key
    simp only [Key.array_cons_lt, Key.number_lt_number, Key.not_array_lt_nil, and_false, or_false,
      not_lt]
    exact he
  have hhigh : ¬ Key.array [.infinity] < e.placementId.key := by
    simp [MuidTuple.key]
  unfold Range.includes Entry.location
  simp only [Bool.and_eq_true, decide_eq_true_eq]
  rw [← not_lt, ← not_lt]
  simp only [Key.array_cons_lt, Key.not_array_lt_nil, and_false, or_false, MuidTuple.key_inj]
  constructor
  · rintro ⟨hlow, hhigh⟩
    push Not at hlow hhigh
    exact MuidTuple.key_injective (le_antisymm hhigh.1 hlow.1)
  · rintro rfl
    exact ⟨fun h => h.elim (lt_irrefl _) fun h => hlow h.2,
      fun h => h.elim (lt_irrefl _) fun h => hhigh h.2⟩

/-- **The seek for an entry's location** finds the last placement of its course. -/
theorem Represents.lastLocation (h : Represents c t) (x : MuidTuple) :
    lastLocation c x = (t x).last MuidTuple.key := by
  have hmem : ∀ {e}, (∃ p, (p, e) ∈ c.entries.rows) ∧ e.entryId = x ↔ e ∈ (t x).entries := by
    intro e
    constructor
    · rintro ⟨⟨p, hp⟩, rfl⟩
      exact ((h.entries p e).mp hp).2
    · intro he
      have hx := (h.owned x e he).1
      exact ⟨⟨_, (h.entries _ e).mpr ⟨rfl, hx.symm ▸ he⟩⟩, hx⟩
  have hnonneg : ∀ {p e}, (p, e) ∈ c.entries.rows → 0 ≤ e.placementId.timestamp := fun he =>
    (h.owned _ _ ((h.entries _ _).mp he).2).2
  unfold IndexedDb.lastLocation Course.last
  cases hfound : lastIn (index c.entries Entry.location)
      ⟨.array [x.key, .array [.number 0]], .array [x.key, .array [.infinity]]⟩ with
  | none =>
      rw [Idb.lastIn_index_none h.separates] at hfound
      have hempty : (t x).entries = [] := by
        rw [List.eq_nil_iff_forall_not_mem]
        intro e he
        obtain ⟨⟨p, hp⟩, hx⟩ := hmem.mpr he
        have hout := hfound p e hp
        rw [(includes_location (hnonneg hp)).mpr hx] at hout
        exact absurd hout (by simp)
      rw [hempty]
      rfl
  | some e =>
      obtain ⟨⟨p, hp⟩, hin, hmax⟩ := (Idb.lastIn_index h.separates).mp hfound
      have hx := (includes_location (hnonneg hp)).mp hin
      have he := hmem.mp ⟨⟨p, hp⟩, hx⟩
      refine (Course.last_eq he fun b hb hle => ?_).symm
      obtain ⟨⟨q, hq⟩, hbx⟩ := hmem.mpr hb
      have hge := hmax q b hq ((includes_location (hnonneg hq)).mpr hbx)
      rw [← not_lt] at hge
      have hkey : b.placementId = e.placementId := by
        refine MuidTuple.key_injective (le_antisymm (not_lt.mp fun hlt => hge ?_) hle)
        unfold Entry.location
        rw [hx, hbx]
        simp [hlt]
      exact h.placement_inj (hbx.symm ▸ hb) (hx.symm ▸ he) hkey

/-! ## §2. One change. -/

theorem addRecord_rows {V : Type} {table table' : Table Key V} {k : Key} {v : V}
    (h : addRecord table k v = .ok table') (r : Key × V) :
    r ∈ table'.rows ↔ r ∈ table.rows ∨ r = (k, v) := by
  obtain ⟨hfresh, rfl⟩ := addRecord_ok h
  rw [Table.mem_rows_put]
  constructor
  · rintro (hr | ⟨-, hr⟩)
    · exact Or.inr hr
    · exact Or.inl hr
  · rintro (hr | hr)
    · exact Or.inr ⟨Table.get?_eq_none_iff.mp hfresh r hr, hr⟩
    · exact Or.inl hr

/-- A new entry is the first event of its course. -/
theorem Represents.placed (h : Represents c t) {e : Entry}
    (htime : 0 ≤ e.placementId.timestamp) {entries : Table Key Entry}
    (hadd : addRecord c.entries (Entry.primary e) e = .ok entries) :
    Represents { c with entries } (Course.step MuidTuple.key id t (.placed e)) := by
  constructor
  · intro k x
    rw [addRecord_rows hadd, h.entries, Course.mem_entries_placed, Prod.mk.injEq]
    constructor
    · rintro (⟨hk, hx⟩ | ⟨rfl, rfl⟩)
      · exact ⟨hk, Or.inl hx⟩
      · exact ⟨rfl, Or.inr ⟨rfl, rfl⟩⟩
    · rintro ⟨hk, hx | ⟨-, rfl⟩⟩
      · exact Or.inl ⟨hk, hx⟩
      · exact Or.inr ⟨hk, rfl⟩
  · intro k r
    rw [Course.removals_placed]
    exact h.removals k r
  · intro x y hy
    rcases Course.mem_entries_placed.mp hy with hy | ⟨hx, rfl⟩
    · exact h.owned x y hy
    · exact ⟨hx, htime⟩
  · intro x r hr
    rw [Course.removals_placed] at hr
    exact h.taken x r hr

/-- A movement, with history kept. -/
theorem Represents.moved (h : Represents c t) {m : Movement} {found : Entry}
    (hpurge : m.purge = false) (htime : 0 ≤ m.movementId.timestamp)
    (hfound : (t m.entryId).last MuidTuple.key = some found) {c₁ : Contents}
    (hplace : placeMoved m found c = .ok c₁) (hleave : leaveOld true m found c₁ = .ok c') :
    Represents c' (Course.step MuidTuple.key id t (.moved m)) ∧ c'.clearances = c.clearances := by
  have howned := h.owned _ _ (Course.last_mem hfound)
  have hentries : (∀ r, r ∈ c₁.entries.rows ↔ r ∈ c.entries.rows ∨ (m.dest ≠ 0 ∧
      r = (m.movementId.key, Entry.movedTo found m))) ∧ c₁.removals = c.removals ∧
      c₁.clearances = c.clearances := by
    unfold placeMoved at hplace
    by_cases hdest : m.dest ≠ 0
    · rw [if_pos hdest] at hplace
      obtain ⟨entries, hadd, hplace⟩ := bind_eq_ok.mp hplace
      rw [← pure_eq_ok.mp hplace]
      refine ⟨fun r => ?_, rfl, rfl⟩
      rw [addRecord_rows hadd]
      simp [hdest]
    · rw [if_neg hdest] at hplace
      injection hplace with hplace
      rw [← hplace]
      exact ⟨fun r => by simp [hdest], rfl, rfl⟩
  unfold leaveOld at hleave
  rw [hpurge, if_neg (by simp)] at hleave
  obtain ⟨removals, hadd, hleave⟩ := bind_eq_ok.mp hleave
  rw [← pure_eq_ok.mp hleave]
  refine ⟨⟨?_, ?_, ?_, ?_⟩, hentries.2.2⟩
  · intro k x
    rw [hentries.1, h.entries, Course.mem_entries_moved hfound, Prod.mk.injEq]
    constructor
    · rintro (⟨hk, hx⟩ | ⟨hdest, rfl, rfl⟩)
      · exact ⟨hk, Or.inl hx⟩
      · exact ⟨rfl, Or.inr ⟨howned.1.symm, hdest, rfl⟩⟩
    · rintro ⟨hk, hx | ⟨-, hdest, rfl⟩⟩
      · exact Or.inl ⟨hk, hx⟩
      · exact Or.inr ⟨hdest, hk, rfl⟩
  · intro k r
    rw [hentries.2.1] at hadd
    show (k, r) ∈ removals.rows ↔ _
    rw [addRecord_rows hadd, h.removals, Course.mem_removals_moved hfound, Prod.mk.injEq]
    constructor
    · rintro (⟨hk, hr⟩ | ⟨rfl, rfl⟩)
      · exact ⟨hk, Or.inl hr⟩
      · exact ⟨rfl, Or.inr ⟨rfl, rfl⟩⟩
    · rintro ⟨hk, hr | ⟨-, rfl⟩⟩
      · exact Or.inl ⟨hk, hr⟩
      · exact Or.inr ⟨hk, rfl⟩
  · intro x y hy
    rcases (Course.mem_entries_moved hfound).mp hy with hy | ⟨rfl, -, rfl⟩
    · exact h.owned x y hy
    · exact ⟨howned.1, htime⟩
  · intro x r hr
    rcases (Course.mem_removals_moved hfound).mp hr with hr | ⟨rfl, rfl⟩
    · exact h.taken x r hr
    · rfl

/-- The courses after an op. -/
def courseAfter (t : MuidTuple → Course) (op : Op) : MuidTuple → Course :=
  Machine.run (Course.step MuidTuple.key id) t (eventOf buildEntry op).toList

/-- **One change** of an ordered container. -/
theorem Represents.step (h : Represents c t) {info : BundleInfo} {offset : Nat}
    {change : ChangeBuilder} (hordered : IsOrdered change)
    (happlied : applyChange true info offset c change = .ok c') :
    Represents c' (courseAfter t ⟨info, offset, change⟩) ∧
      Adds Clearance.key c.clearances c'.clearances (clearanceOf ⟨info, offset, change⟩) := by
  cases change with
  | unset => simp [applyChange] at happlied
  | container container =>
      obtain ⟨containers, -, happlied⟩ := bind_eq_ok.mp happlied
      rw [← pure_eq_ok.mp happlied]
      exact ⟨⟨h.entries, h.removals, h.owned, h.taken⟩, Adds.refl _ _⟩
  | entry entry =>
      obtain ⟨e, hbuild, h1⟩ := bind_eq_ok.mp happlied
      obtain ⟨c1, hreplace, h2⟩ := bind_eq_ok.mp h1
      obtain ⟨entries, hadd, h3⟩ := bind_eq_ok.mp h2
      have hbehavior : e.behavior = entry.behavior := by
        obtain ⟨x1, -, hb⟩ := bind_eq_ok.mp hbuild
        obtain ⟨x2, -, hb⟩ := bind_eq_ok.mp hb
        obtain ⟨x3, -, hb⟩ := bind_eq_ok.mp hb
        rw [← pure_eq_ok.mp hb]
      have hsame : c1 = c := by
        unfold replaceFound at hreplace
        have hacc : accumulates e.behavior = true := by
          rw [hbehavior]
          rcases hordered with hb | hb <;> rw [hb] <;> rfl
        rw [if_pos hacc] at hreplace
        injection hreplace with hreplace
        exact hreplace.symm
      subst hsame
      obtain ⟨-, -, hplacement, -⟩ := buildEntry_ok hbuild
      have htime : 0 ≤ e.placementId.timestamp := by
        rw [hplacement]
        exact Int.natCast_nonneg _
      have hevent : eventOf buildEntry ⟨info, offset, .entry entry⟩ = some (.placed e) := by
        unfold eventOf
        simp only [hbuild]
        rfl
      rw [← pure_eq_ok.mp h3]
      unfold courseAfter
      rw [hevent]
      exact ⟨h.placed htime hadd, Adds.refl _ _⟩
  | movement movement =>
      obtain ⟨m, hextract, happlied⟩ := bind_eq_ok.mp happlied
      have hevent : eventOf buildEntry ⟨info, offset, .movement movement⟩ = some (.moved m) := by
        unfold eventOf
        simp only [hextract]
        rfl
      have hm : m.purge = movement.purge ∧ m.movementId = changeAddress info offset := by
        obtain ⟨b, -, hb⟩ := bind_eq_ok.mp hextract
        rw [← pure_eq_ok.mp hb]
        exact ⟨rfl, rfl⟩
      unfold courseAfter
      rw [hevent]
      show Represents c' (Course.step MuidTuple.key id t (.moved m)) ∧ _
      rw [h.lastLocation] at happlied
      cases hlast : (t m.entryId).last MuidTuple.key with
      | none =>
          simp only [hlast] at happlied
          rw [← pure_eq_ok.mp happlied, Course.step_moved_none hlast]
          exact ⟨h, Adds.refl _ _⟩
      | some found =>
          simp only [hlast] at happlied
          obtain ⟨c1, hplace, hleave⟩ := bind_eq_ok.mp happlied
          have hpurge : m.purge = false := hm.1.trans hordered
          have htime : 0 ≤ m.movementId.timestamp := by
            rw [hm.2]
            exact Int.natCast_nonneg _
          obtain ⟨hrep, hclear⟩ := h.moved hpurge htime hlast hplace hleave
          rw [hclear]
          exact ⟨hrep, Adds.refl _ _⟩
  | clearance clearance =>
      have hadds := (applyChange_adds (show IsPlain (.clearance clearance) from hordered) happlied).2
      obtain ⟨b, -, happlied⟩ := bind_eq_ok.mp happlied
      obtain ⟨container, -, happlied⟩ := bind_eq_ok.mp happlied
      rw [show clearance.purge = false from hordered, if_neg (by simp)] at happlied
      obtain ⟨clearances, -, happlied⟩ := bind_eq_ok.mp happlied
      refine ⟨?_, hadds⟩
      rw [← pure_eq_ok.mp happlied]
      exact ⟨h.entries, h.removals, h.owned, h.taken⟩

/-! ## §3. Runs. -/

/-- The changes of a bundle. -/
theorem Represents.bundle {info : BundleInfo} {changes : List ChangeBuilder} :
    ∀ {offset : Nat} {c c' : Contents} {t : MuidTuple → Course}, Represents c t →
      (∀ op ∈ opsFrom info offset changes, IsOrdered op.change) →
      applyChangesFrom true info offset changes c = .ok c' →
      Represents c' (Machine.run (Course.step MuidTuple.key id) t
        ((opsFrom info offset changes).filterMap (eventOf buildEntry))) ∧
      ∀ r, r ∈ c'.clearances.rows ↔ r ∈ c.clearances.rows ∨
        ∃ op ∈ opsFrom info offset changes, ∃ z, clearanceOf op = some z ∧ r = (z.key, z) := by
  induction changes with
  | nil =>
      intro offset c c' t h _ happlied
      injection happlied with happlied
      subst happlied
      exact ⟨h, by simp⟩
  | cons change rest ih =>
      intro offset c c' t h hordered happlied
      obtain ⟨c1, hone, hrest⟩ := bind_eq_ok.mp happlied
      obtain ⟨hrep, hadds⟩ := h.step (hordered _ List.mem_cons_self) hone
      obtain ⟨hrep', hadds'⟩ := ih hrep (fun op hop => hordered op (List.mem_cons_of_mem _ hop)) hrest
      constructor
      · have hevents : (opsFrom info offset (change :: rest)).filterMap (eventOf buildEntry)
            = (eventOf buildEntry ⟨info, offset, change⟩).toList ++
              (opsFrom info (offset + 1) rest).filterMap (eventOf buildEntry) := by
          rw [opsFrom_cons, List.filterMap_cons]
          cases eventOf buildEntry ⟨info, offset, change⟩ <;> rfl
        rw [hevents, Machine.run_append]
        exact hrep'
      · intro r
        rw [hadds' r, hadds r]
        simp only [opsFrom_cons, List.mem_cons, exists_eq_or_imp, or_assoc]

/-- **The records of a history** are those of the courses of its events. -/
theorem History.represents {history : List OpenBundle} (h : History true history c)
    (hordered : OrderedHistory history) :
    Represents c (Course.courses MuidTuple.key id (eventsOf buildEntry history)) ∧
      ∀ r, r ∈ c.clearances.rows ↔
        ∃ op ∈ allOps history, ∃ z, clearanceOf op = some z ∧ r = (z.key, z) := by
  induction h with
  | start => exact ⟨Represents.start, by simp [allOps]⟩
  | @next past c c' b before applied ih =>
      have hops : allOps (past ++ [b]) = allOps past ++ b.ops := by simp [allOps]
      rw [OrderedHistory, hops] at hordered
      obtain ⟨hrep, hclear⟩ := ih fun op hop => hordered op (List.mem_append_left _ hop)
      obtain ⟨hrep', hclear'⟩ := hrep.bundle
        (fun op hop => hordered op (List.mem_append_right _ hop)) applied
      unfold eventsOf
      rw [hops, List.filterMap_append, Course.courses_append]
      refine ⟨hrep', fun r => ?_⟩
      rw [hclear' r, hclear r]
      simp only [List.mem_append, or_and_right, exists_or]
      rfl

/-! ## §4. Replicas. -/

/-- The courses with the same placements and removals are represented by the same records. -/
theorem Represents.tables_eq {t' : MuidTuple → Course} (h : Represents c t) (h' : Represents c' t')
    (hsame : ∀ x, (t x).Same (t' x)) : c.entries = c'.entries ∧ c.removals = c'.removals := by
  constructor
  · refine Table.ext_rows fun r => ?_
    obtain ⟨k, e⟩ := r
    rw [h.entries, h'.entries, (hsame e.entryId).1]
  · refine Table.ext_rows fun r => ?_
    obtain ⟨k, x⟩ := r
    rw [h.removals, h'.removals, (hsame x.entryId).2]

/-- Reads of an ordered container look at three object stores. -/
theorem getOrderedEntries_congr (hentries : c.entries = c'.entries)
    (hremovals : c.removals = c'.removals) (hclearances : c.clearances = c'.clearances)
    (trxns : List Int) (now : Int) (container : MuidTuple) (through asOf : Option Int) :
    getOrderedEntries c trxns now container through asOf
      = getOrderedEntries c' trxns now container through asOf := by
  unfold getOrderedEntries standing getClearanceTime isRemoved
  rw [hentries, hremovals, hclearances]

/-- **Replicas that gave every entry the same turns** read every ordered container alike. -/
theorem History.getOrderedEntries_eq {history history' : List OpenBundle}
    (h : History true history c) (h' : History true history' c')
    (hordered : OrderedHistory history) (hperm : history.Perm history')
    (hturns : ∀ x, SameTurns (turns id x (eventsOf buildEntry history))
      (turns id x (eventsOf buildEntry history')))
    (trxns : List Int) (now : Int) (container : MuidTuple) (through asOf : Option Int) :
    getOrderedEntries c trxns now container through asOf
      = getOrderedEntries c' trxns now container through asOf := by
  have hops : (allOps history).Perm (allOps history') := hperm.flatMap_right _
  obtain ⟨hrep, hclear⟩ := h.represents hordered
  obtain ⟨hrep', hclear'⟩ := h'.represents fun op hop => hordered op (hops.mem_iff.mpr hop)
  obtain ⟨hentries, hremovals⟩ := hrep.tables_eq hrep' (courses_same hturns)
  refine getOrderedEntries_congr hentries hremovals (Table.ext_rows fun r => ?_) trxns now container
    through asOf
  rw [hclear, hclear']
  simp only [hops.mem_iff]

end

end IndexedDb

end Js

end Gink
