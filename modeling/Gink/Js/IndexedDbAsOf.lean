/-
  Gink.Js.IndexedDbAsOf — reads of an ordered container in the past of an `IndexedDbStore`.

  The scan for the entries of a container goes over the positions up to the as-of time.  An
  entry that nobody moves stands at the position of its own timestamp, and is out of the scan
  when it came later.  But the placements of a movement, and entries with an effective time,
  stand at any position, and nothing looks at when they came.
-/
import Gink.Js.AsOf
import Gink.Js.IndexedDbKeyed

namespace Gink

namespace Js

open Gink.Idb (Key Range add index visited lastIn)

namespace Idb

/-- An index holds records of its store. -/
theorem of_mem_index {V : Type} {t : Table Key V} {keyOf : V → Key} {k : Key} {v : V}
    (h : (k, v) ∈ (index t keyOf).rows) : ∃ p, (p, v) ∈ t.rows := by
  have hall : ∀ (l : List (Key × V)) (s : Table Key V) (r : Key × V),
      r ∈ (Table.putAll s l).rows → r ∈ s.rows ∨ r ∈ l := by
    intro l
    induction l with
    | nil => exact fun s r hr => Or.inl hr
    | cons x rest ih =>
        intro s r hr
        rcases ih (s.put x.1 x.2) r hr with hr | hr
        · rcases Table.mem_rows_put.mp hr with rfl | ⟨-, hr⟩
          · exact Or.inr List.mem_cons_self
          · exact Or.inl hr
        · exact Or.inr (List.mem_cons_of_mem _ hr)
  rcases hall _ _ _ h with hnone | hmem
  · exact absurd hnone List.not_mem_nil
  · obtain ⟨r, hr, heq⟩ := List.mem_map.mp hmem
    obtain ⟨-, rfl⟩ := Prod.mk.inj heq
    exact ⟨r.1, hr⟩

theorem of_lastIn_index {V : Type} {t : Table Key V} {keyOf : V → Key} {range : Range} {v : V}
    (h : lastIn (index t keyOf) range = some v) : ∃ p, (p, v) ∈ t.rows := by
  obtain ⟨⟨k, w⟩, hlast, rfl⟩ := Option.map_eq_some_iff.mp h
  exact of_mem_index (Table.lastWhere_eq_some_iff.mp hlast).1

end Idb

namespace IndexedDb

/-! ## §1. What a change writes. -/

/-- At most one record of each kind, at the address of the change. -/
structure Writes (a : MuidTuple) (c c' : Contents) : Prop where
  entries : c'.entries = c.entries ∨
    ∃ e, e.placementId = a ∧ c'.entries = c.entries.put (Entry.primary e) e
  removals : c'.removals = c.removals ∨
    ∃ r e, r.removalId = a ∧ Stored c e ∧ r.removing = e.placementId ∧
      c'.removals = c.removals.put r.removalId.key r
  clearances : c'.clearances = c.clearances ∨
    ∃ z, z.clearanceId = a ∧ c'.clearances = c.clearances.put z.key z

variable {c c' : Contents} {info : BundleInfo} {offset : Nat}

theorem Writes.nothing (a : MuidTuple) (c : Contents) : Writes a c c :=
  ⟨.inl rfl, .inl rfl, .inl rfl⟩

theorem applyEntry_writes {builder : EntryBuilder}
    (h : applyEntry true info offset builder c = .ok c') :
    Writes (changeAddress info offset) c c' := by
  obtain ⟨e, hbuild, h1⟩ := bind_eq_ok.mp h
  obtain ⟨c1, hreplace, h2⟩ := bind_eq_ok.mp h1
  obtain ⟨entries, hadd, h3⟩ := bind_eq_ok.mp h2
  obtain ⟨-, -, hplacement, -⟩ := buildEntry_ok hbuild
  obtain ⟨hentries, hclearances⟩ := replaceFound_kept hreplace
  rw [← pure_eq_ok.mp h3]
  refine ⟨.inr ⟨e, hplacement, ?_⟩, ?_, .inl hclearances⟩
  · rw [← hentries]
    exact (addRecord_ok hadd).2
  · show c1.removals = c.removals ∨ ∃ r e, r.removalId = _ ∧ Stored c e ∧ _ ∧
      c1.removals = c.removals.put r.removalId.key r
    unfold replaceFound at hreplace
    by_cases hacc : accumulates e.behavior = true
    · rw [if_pos hacc] at hreplace
      injection hreplace with hreplace
      exact .inl (by rw [hreplace])
    · rw [if_neg hacc] at hreplace
      cases hfound : replacedBy c e with
      | none =>
          simp only [hfound, Except.ok.injEq] at hreplace
          exact .inl (by rw [hreplace])
      | some search =>
          simp only [hfound, if_true] at hreplace
          obtain ⟨removals, hremoved, hdone⟩ := bind_eq_ok.mp hreplace
          rw [← pure_eq_ok.mp hdone, ← hplacement]
          exact .inr ⟨⟨search.placementId, e.placementId, e.containerId, 0, search.entryId⟩, search,
            rfl, Idb.of_lastIn_index hfound, rfl, (addRecord_ok hremoved).2⟩

theorem applyMovement_writes {builder : MovementBuilder} (hretains : builder.purge = false)
    (h : applyMovement true info offset builder c = .ok c') :
    Writes (changeAddress info offset) c c' := by
  obtain ⟨m, hextract, h1⟩ := bind_eq_ok.mp h
  obtain ⟨hpurge, hmovement⟩ : m.purge = false ∧ m.movementId = changeAddress info offset := by
    obtain ⟨b, -, hb⟩ := bind_eq_ok.mp hextract
    rw [← pure_eq_ok.mp hb]
    exact ⟨hretains, rfl⟩
  cases hfound : lastLocation c m.entryId with
  | none =>
      simp only [hfound] at h1
      rw [← pure_eq_ok.mp h1]
      exact .nothing _ _
  | some found =>
      simp only [hfound] at h1
      obtain ⟨c1, hplace, hleave⟩ := bind_eq_ok.mp h1
      unfold leaveOld at hleave
      rw [hpurge, if_neg (by simp)] at hleave
      obtain ⟨removals, hremoved, hdone⟩ := bind_eq_ok.mp hleave
      have hstored : Stored c found := Idb.of_lastIn_index hfound
      rw [← pure_eq_ok.mp hdone, ← hmovement]
      let removal : Removal :=
        ⟨found.placementId, m.movementId, m.containerId, m.dest, m.entryId⟩
      unfold placeMoved at hplace
      by_cases hdest : m.dest ≠ 0
      · rw [if_pos hdest] at hplace
        obtain ⟨entries, hadd, hplaced⟩ := bind_eq_ok.mp hplace
        rw [← pure_eq_ok.mp hplaced] at hremoved ⊢
        exact ⟨.inr ⟨Entry.movedTo found m, rfl, (addRecord_ok hadd).2⟩,
          .inr ⟨removal, found, rfl, hstored, rfl, (addRecord_ok hremoved).2⟩, .inl rfl⟩
      · rw [if_neg hdest] at hplace
        injection hplace with hplace
        subst hplace
        exact ⟨.inl rfl, .inr ⟨removal, found, rfl, hstored, rfl, (addRecord_ok hremoved).2⟩,
          .inl rfl⟩

theorem applyClearance_writes {builder : ClearanceBuilder} (hretains : builder.purge = false)
    (h : applyClearance info offset builder c = .ok c') :
    Writes (changeAddress info offset) c c' := by
  obtain ⟨b, -, h1⟩ := bind_eq_ok.mp h
  obtain ⟨container, -, h2⟩ := bind_eq_ok.mp h1
  rw [hretains, if_neg (by simp)] at h2
  obtain ⟨clearances, hadd, h3⟩ := bind_eq_ok.mp h2
  rw [← pure_eq_ok.mp h3]
  exact ⟨.inl rfl, .inl rfl, .inr ⟨_, rfl, (addRecord_ok hadd).2⟩⟩

/-- **One change** that purges nothing writes at its own address. -/
theorem applyChange_writes {change : ChangeBuilder} (hretains : Retains change)
    (h : applyChange true info offset c change = .ok c') :
    Writes (changeAddress info offset) c c' := by
  cases change with
  | unset => simp [applyChange] at h
  | container container =>
      obtain ⟨containers, -, h1⟩ := bind_eq_ok.mp h
      rw [← pure_eq_ok.mp h1]
      exact ⟨.inl rfl, .inl rfl, .inl rfl⟩
  | entry entry => exact applyEntry_writes h
  | movement movement => exact applyMovement_writes hretains h
  | clearance clearance => exact applyClearance_writes hretains h

/-! ## §2. Records by their addresses. -/

/-- Every record stands under its key, and was made at an address that satisfies `q`. -/
structure Stamped (q : MuidTuple → Prop) (c : Contents) : Prop where
  entries : ∀ r ∈ c.entries.rows, r.1 = Entry.primary r.2 ∧ q r.2.placementId
  removals : ∀ r ∈ c.removals.rows, r.1 = r.2.removalId.key ∧ q r.2.removing
  clearances : ∀ r ∈ c.clearances.rows, r.1 = r.2.key ∧ q r.2.clearanceId

/-- The records of before a time are the same. -/
structure AgreeBefore (t : Int) (c c' : Contents) : Prop where
  entries : Table.AgreeOn (· < Key.array [.number t]) c.entries c'.entries
  removals : Table.AgreeOn (· < Key.array [.number t]) c.removals c'.removals
  clearances : Table.AgreeOn
    (fun k => ∃ container m : MuidTuple, k = .array [container.key, m.key] ∧ m.timestamp < t)
    c.clearances c'.clearances

variable {q : MuidTuple → Prop} {a : MuidTuple} {t : Int}

theorem key_lt_at {m : MuidTuple} : m.key < Key.array [.number t] ↔ m.timestamp < t := by
  unfold MuidTuple.key
  simp

theorem Stamped.entry_key (h : Stamped q c) {k : Key} {e : Entry} (hr : (k, e) ∈ c.entries.rows) :
    k = e.placementId.key := (h.entries _ hr).1

theorem Stamped.removal_key (h : Stamped q c) {k : Key} {r : Removal}
    (hr : (k, r) ∈ c.removals.rows) : k = r.removalId.key := (h.removals _ hr).1

theorem Writes.stamped (h : Writes a c c') (ha : q a) (hc : Stamped q c) : Stamped q c' := by
  refine ⟨?_, ?_, ?_⟩
  · intro r hr
    rcases h.entries with heq | ⟨e, he, heq⟩
    · exact hc.entries r (heq ▸ hr)
    · rw [heq] at hr
      rcases Table.mem_rows_put.mp hr with rfl | ⟨-, hr⟩
      · exact ⟨rfl, he.symm ▸ ha⟩
      · exact hc.entries r hr
  · intro r hr
    rcases h.removals with heq | ⟨x, e, -, ⟨k, hk⟩, hremoving, heq⟩
    · exact hc.removals r (heq ▸ hr)
    · rw [heq] at hr
      rcases Table.mem_rows_put.mp hr with rfl | ⟨-, hr⟩
      · exact ⟨rfl, hremoving.symm ▸ (hc.entries _ hk).2⟩
      · exact hc.removals r hr
  · intro r hr
    rcases h.clearances with heq | ⟨z, hz, heq⟩
    · exact hc.clearances r (heq ▸ hr)
    · rw [heq] at hr
      rcases Table.mem_rows_put.mp hr with rfl | ⟨-, hr⟩
      · exact ⟨rfl, hz.symm ▸ ha⟩
      · exact hc.clearances r hr

theorem Writes.agreeBefore (h : Writes a c c') (ha : t ≤ a.timestamp) : AgreeBefore t c c' := by
  have hlate : ∀ m : MuidTuple, m = a → ¬ m.key < Key.array [.number t] := by
    rintro m rfl hlt
    exact absurd (key_lt_at.mp hlt) (not_lt.mpr ha)
  refine ⟨?_, ?_, ?_⟩
  · rcases h.entries with heq | ⟨e, he, heq⟩
    · exact heq ▸ .refl _ _
    · exact heq ▸ Table.agreeOn_put _ _ (hlate _ he)
  · rcases h.removals with heq | ⟨r, -, hr, -, -, heq⟩
    · exact heq ▸ .refl _ _
    · exact heq ▸ Table.agreeOn_put _ _ (hlate _ hr)
  · rcases h.clearances with heq | ⟨z, hz, heq⟩
    · exact heq ▸ .refl _ _
    · refine heq ▸ Table.agreeOn_put _ _ ?_
      rintro ⟨container, m, hkey, hm⟩
      unfold Clearance.key at hkey
      simp only [Key.array.injEq, List.cons.injEq, MuidTuple.key_inj, and_true] at hkey
      rw [← hkey.2, hz] at hm
      omega

theorem AgreeBefore.trans {c'' : Contents} (h : AgreeBefore t c c') (h' : AgreeBefore t c' c'') :
    AgreeBefore t c c'' :=
  ⟨h.entries.trans h'.entries, h.removals.trans h'.removals, h.clearances.trans h'.clearances⟩

/-! ## §3. Histories. -/

/-- The changes of a bundle. -/
theorem applyChangesFrom_keeps {I : Contents → Prop} {changes : List ChangeBuilder}
    (hkeeps : ∀ offset c c', Writes (changeAddress info offset) c c' → I c → I c') :
    ∀ {offset : Nat} {c c' : Contents}, (∀ change ∈ changes, Retains change) → I c →
      applyChangesFrom true info offset changes c = .ok c' → I c' := by
  induction changes with
  | nil =>
      intro offset c c' _ hc h
      injection h with h
      exact h ▸ hc
  | cons change rest ih =>
      intro offset c c' hretains hc h
      obtain ⟨c1, hone, hrest⟩ := bind_eq_ok.mp h
      have hwrites := applyChange_writes (hretains change List.mem_cons_self) hone
      exact ih (fun x hx => hretains x (List.mem_cons_of_mem _ hx)) (hkeeps offset c c1 hwrites hc)
        hrest

/-- One bundle applied. -/
def applyBundle (b : OpenBundle) (c : Contents) : Except JsError Contents :=
  applyChangesFrom true b.info 1 b.changes c

theorem History.applyEach {history : List OpenBundle} (h : History true history c) :
    applyEach applyBundle history {} = .ok c := by
  induction h with
  | start => rfl
  | @next past c c' b _ applied ih =>
      rw [applyEach_append, ih]
      show (applyBundle b c >>= fun c => Except.ok c) = _
      rw [show applyBundle b c = .ok c' from applied]
      rfl

/-- **The past of a store**: the bundles before a time make a store whose records are all of
before that time, and everything that follows leaves these as they are. -/
theorem History.agreeBefore {history : List OpenBundle} {c₀ : Contents}
    (h : History true history c) (h₀ : History true (before t history) c₀)
    (hincreasing : Increasing history) (hunpurged : Unpurged history) :
    Stamped (·.timestamp < t) c₀ ∧ Stamped (fun _ => True) c ∧ AgreeBefore t c₀ c := by
  have hstart : ∀ q, Stamped q {} := fun q =>
    ⟨fun r hr => absurd hr List.not_mem_nil, fun r hr => absurd hr List.not_mem_nil,
      fun r hr => absurd hr List.not_mem_nil⟩
  refine ⟨?_, ?_, ?_⟩
  · refine applyEach_keeps (fun b hb c c' hc happly => ?_) (hstart _) h₀.applyEach
    obtain ⟨hmem, hlt⟩ := mem_before.mp hb
    exact applyChangesFrom_keeps (fun offset c c' hw hs => hw.stamped hlt hs) (hunpurged b hmem) hc
      happly
  · refine applyEach_keeps (fun b hb c c' hc happly => ?_) (hstart _) h.applyEach
    exact applyChangesFrom_keeps (fun offset c c' hw hs => hw.stamped trivial hs) (hunpurged b hb) hc
      happly
  · obtain ⟨after, hsplit, hlate⟩ := hincreasing.split t
    have hall := h.applyEach
    rw [hsplit, applyEach_append, h₀.applyEach] at hall
    refine applyEach_keeps (I := AgreeBefore t c₀) (fun b hb c c' hc happly => ?_)
      ⟨.refl _ _, .refl _ _, .refl _ _⟩ hall
    have hmem : b ∈ history := hsplit ▸ List.mem_append_right _ hb
    exact applyChangesFrom_keeps
      (fun offset c c' hw hs => hs.trans (hw.agreeBefore (hlate b hb))) (hunpurged b hmem) hc happly

/-! ## §4. The scan. -/

/-- The entry stands at a position from zero up to the time, whenever it came there. -/
def Reaches (t : Int) (e : Entry) : Prop := ∃ n, e.storageKey = .number n ∧ 0 ≤ n ∧ n < t

/-- Only numbers come before a number. -/
theorem number_lt_key {storageKey : StorageKey} (n : Int)
    (h : ∀ m, storageKey ≠ .number m) : Key.number n < storageKey.key := by
  cases storageKey with
  | number m => exact absurd rfl (h m)
  | characters s | octets b | empty | muid m | pair left rite =>
      simp [StorageKey.key, MuidTuple.key, Key.lt_iff_spell_lt, Idb.Key.spell,
        List.cons_lt_cons_iff, Prod.Lex.toLex_lt_toLex]

variable {container : MuidTuple}

theorem includes_position {e : Entry} :
    Range.includes ⟨.array [container.key, .number 0], .array [container.key, .number t]⟩
        e.byContainerKeyPlacement = true ↔ e.containerId = container ∧ Reaches t e := by
  unfold Range.includes Entry.byContainerKeyPlacement
  simp only [Bool.and_eq_true, decide_eq_true_eq]
  rw [← not_lt, ← not_lt]
  simp only [Key.array_cons_lt, Key.array_nil_lt, Key.not_array_lt_nil, and_true, and_false,
    or_false, MuidTuple.key_inj]
  by_cases hnumber : ∃ n, e.storageKey = .number n
  · obtain ⟨n, hn⟩ := hnumber
    have hreaches : Reaches t e ↔ 0 ≤ n ∧ n < t := by
      constructor
      · rintro ⟨m, hm, hbounds⟩
        rw [hn] at hm
        injection hm with hm
        exact hm ▸ hbounds
      · exact fun hbounds => ⟨n, hn, hbounds⟩
    rw [hreaches, hn]
    simp only [StorageKey.key, Key.number_lt_number, Key.number.injEq]
    constructor
    · rintro ⟨hlow, hhigh⟩
      push Not at hlow hhigh
      have hc := MuidTuple.key_injective (le_antisymm hhigh.1 hlow.1)
      obtain ⟨hle, hne⟩ := hhigh.2 hc.symm
      exact ⟨hc, hlow.2 hc, lt_of_le_of_ne hle (fun heq => hne heq.symm)⟩
    · rintro ⟨rfl, hlow, hhigh⟩
      push Not
      exact ⟨⟨le_refl _, fun _ => hlow⟩, le_refl _,
        fun _ => ⟨hhigh.le, fun heq => absurd heq (by omega)⟩⟩
  · have hlt := number_lt_key t (fun m hm => hnumber ⟨m, hm⟩)
    constructor
    · rintro ⟨hlow, hhigh⟩
      push Not at hlow hhigh
      have hc := MuidTuple.key_injective (le_antisymm hhigh.1 hlow.1)
      exact absurd hlt (not_lt.mpr (hhigh.2 hc.symm).1)
    · rintro ⟨-, n, hn, -⟩
      exact absurd ⟨n, hn⟩ hnumber

/-- Before a time the clearances of both stores are the same. -/
theorem AgreeBefore.getClearanceTime_eq {q₀ : MuidTuple → Prop} {c₀ : Contents}
    (h : AgreeBefore t c₀ c) (h₀ : Stamped q₀ c₀) (hc : Stamped q c) (container : MuidTuple) :
    getClearanceTime c container (some t) = getClearanceTime c₀ container (some t) := by
  have hrange : ∀ {q : MuidTuple → Prop} {c : Contents}, Stamped q c →
      ∀ r ∈ c.clearances.rows, Range.includes ⟨.array [container.key],
        .array [container.key, .array [timeKey (some t)]]⟩ r.1 = true →
      ∃ container m : MuidTuple, r.1 = .array [container.key, m.key] ∧ m.timestamp < t := by
    intro q c hc r hr hin
    have hkey := (hc.clearances r hr).1
    rw [hkey] at hin
    exact ⟨r.2.containerId, r.2.clearanceId, hkey, (includes_clearance.mp hin).2 t rfl⟩
  have hscan := h.clearances.rowsWhere_eq (hrange h₀) (hrange hc)
  unfold getClearanceTime lastIn
  rw [Table.lastWhere_eq_of_rowsWhere hscan]

/-- Removals are told apart by their addresses. -/
theorem Stamped.separates_removals (h : Stamped q c) :
    Idb.Separates c.removals Removal.byRemoving := by
  intro r hr r' hr' hkey
  unfold Removal.byRemoving at hkey
  simp only [Key.array.injEq, List.cons.injEq, MuidTuple.key_inj, and_true] at hkey
  have hk : r.1 = r'.1 := by rw [(h.removals r hr).1, (h.removals r' hr').1, hkey.2]
  obtain ⟨k, v⟩ := r
  obtain ⟨k', v'⟩ := r'
  obtain rfl : k = k' := hk
  exact Table.eq_of_mem_of_mem hr hr'

theorem Stamped.separates_entries (h : Stamped q c) :
    Idb.Separates c.entries Entry.byContainerKeyPlacement := by
  intro r hr r' hr' hkey
  unfold Entry.byContainerKeyPlacement at hkey
  simp only [Key.array.injEq, List.cons.injEq, MuidTuple.key_inj, and_true] at hkey
  have hk : r.1 = r'.1 := by
    rw [(h.entries r hr).1, (h.entries r' hr').1]
    unfold Entry.primary
    rw [hkey.2.2]
  obtain ⟨k, v⟩ := r
  obtain ⟨k', v'⟩ := r'
  obtain rfl : k = k' := hk
  exact Table.eq_of_mem_of_mem hr hr'

/-- A placement is removed if some removal of it was made before the time. -/
theorem Stamped.isRemoved_iff (h : Stamped q c) {p : MuidTuple} :
    isRemoved c p (some t) = true ↔
      ∃ k r, (k, r) ∈ c.removals.rows ∧ r.removing = p ∧ r.removalId.timestamp < t := by
  have hincludes : ∀ r : Removal, Range.includes ⟨.array [p.key],
      .array [p.key, .array [timeKey (some t)]]⟩ r.byRemoving = true ↔
        r.removing = p ∧ r.removalId.timestamp < t := by
    intro r
    have hbounds := @includes_clearance p (some t) ⟨r.removing, r.removalId, false⟩
    refine Iff.trans hbounds (and_congr_right fun _ => ⟨fun hb => hb t rfl, ?_⟩)
    rintro hlt s hs
    injection hs with hs
    exact hs ▸ hlt
  unfold isRemoved
  rw [Bool.not_eq_true', ← Bool.not_eq_true, List.isEmpty_iff, List.eq_nil_iff_forall_not_mem]
  push Not
  constructor
  · rintro ⟨r, hr⟩
    obtain ⟨⟨k, hk⟩, hin⟩ := (Idb.mem_visited_index h.separates_removals).mp hr
    exact ⟨k, r, hk, (hincludes r).mp hin⟩
  · rintro ⟨k, r, hk, hin⟩
    exact ⟨r, (Idb.mem_visited_index h.separates_removals).mpr ⟨⟨k, hk⟩, (hincludes r).mpr hin⟩⟩

theorem AgreeBefore.isRemoved_eq {q₀ : MuidTuple → Prop} {c₀ : Contents}
    (h : AgreeBefore t c₀ c) (h₀ : Stamped q₀ c₀) (hc : Stamped q c) (p : MuidTuple) :
    isRemoved c p (some t) = isRemoved c₀ p (some t) := by
  rw [Bool.eq_iff_iff, hc.isRemoved_iff, h₀.isRemoved_iff]
  refine exists_congr fun k => exists_congr fun r => ?_
  constructor
  · rintro ⟨hr, hremoving, hlt⟩
    have hkey : k < Key.array [.number t] := hc.removal_key hr ▸ key_lt_at.mpr hlt
    exact ⟨(h.removals (k, r) hkey).mpr hr, hremoving, hlt⟩
  · rintro ⟨hr, hremoving, hlt⟩
    have hkey : k < Key.array [.number t] := h₀.removal_key hr ▸ key_lt_at.mpr hlt
    exact ⟨(h.removals (k, r) hkey).mp hr, hremoving, hlt⟩

/-- The last clearance before a time is not later. -/
theorem getClearanceTime_lt (hc : Stamped q c) (ht : 0 < t) (container : MuidTuple) :
    getClearanceTime c container (some t) < t := by
  unfold getClearanceTime
  cases hlast : lastIn c.clearances ⟨.array [container.key],
      .array [container.key, .array [timeKey (some t)]]⟩ with
  | none => exact ht
  | some z =>
      obtain ⟨⟨k, w⟩, hrow, hw⟩ := Option.map_eq_some_iff.mp hlast
      obtain rfl : w = z := hw
      obtain ⟨hmem, hin, -⟩ := Table.lastWhere_eq_some_iff.mp hrow
      obtain rfl : k = w.key := (hc.clearances _ hmem).1
      exact (includes_clearance.mp hin).2 t rfl

/-- What was placed in the container from a time on stands at no position of before it. -/
def KeepsClear (c : Contents) (container : MuidTuple) (t : Int) : Prop :=
  ∀ r ∈ c.entries.rows, r.2.containerId = container → t ≤ r.2.placementId.timestamp →
    ¬ Reaches t r.2

/-- **The entries that stand at a time** are those of the store's past exactly when nothing
that came later stands at a position up to that time. -/
theorem AgreeBefore.standing_eq_iff {c₀ : Contents} (h : AgreeBefore t c₀ c)
    (h₀ : Stamped (·.timestamp < t) c₀) (hc : Stamped q c) (ht : 0 < t) (container : MuidTuple) :
    standing c container (some t) = standing c₀ container (some t) ↔
      KeepsClear c container t := by
  have hclear := h.getClearanceTime_eq h₀ hc container
  have hremoved := h.isRemoved_eq h₀ hc
  constructor
  · intro heq r hr hcontainer hlate hreaches
    -- such an entry is in the scan, and no removal or clearance of before reaches it
    have hstands : r.2 ∈ standing c container (some t) := by
      unfold standing
      rw [List.mem_filter]
      refine ⟨(Idb.mem_visited_index hc.separates_entries).mpr
        ⟨⟨r.1, hr⟩, includes_position.mpr ⟨hcontainer, hreaches⟩⟩, ?_⟩
      rw [Bool.and_eq_true, decide_eq_true_eq]
      constructor
      · have := getClearanceTime_lt hc ht container
        omega
      · rw [hremoved, Bool.not_eq_true', ← Bool.not_eq_true]
        intro hgone
        obtain ⟨k, x, hx, hremoving, -⟩ := h₀.isRemoved_iff.mp hgone
        have hearly := (h₀.removals _ hx).2
        rw [show x.removing = r.2.placementId from hremoving] at hearly
        omega
    rw [heq] at hstands
    unfold standing at hstands
    obtain ⟨⟨k, hk⟩, -⟩ := (Idb.mem_visited_index h₀.separates_entries).mp
      (List.mem_filter.mp hstands).1
    have hearly : r.2.placementId.timestamp < t := (h₀.entries _ hk).2
    omega
  · intro hkeeps
    have hscan : visited (index c.entries Entry.byContainerKeyPlacement)
          ⟨.array [container.key, .number 0], .array [container.key, timeKey (some t)]⟩ =
        visited (index c₀.entries Entry.byContainerKeyPlacement)
          ⟨.array [container.key, .number 0], .array [container.key, timeKey (some t)]⟩ := by
      unfold visited
      congr 1
      refine Table.eq_of_sorted_of_mem_iff (Table.rowsWhere_sorted _ _)
        (Table.rowsWhere_sorted _ _) fun r => ?_
      obtain ⟨k, e⟩ := r
      rw [Table.mem_rowsWhere, Table.mem_rowsWhere, Idb.mem_index hc.separates_entries,
        Idb.mem_index h₀.separates_entries]
      constructor
      · rintro ⟨⟨rfl, p, hp⟩, hin⟩
        obtain ⟨hcontainer, hreaches⟩ := includes_position.mp hin
        have hearly : e.placementId.timestamp < t := by
          by_contra hlate
          exact hkeeps _ hp hcontainer (not_lt.mp hlate) hreaches
        have hkey : p < Key.array [.number t] := hc.entry_key hp ▸ key_lt_at.mpr hearly
        exact ⟨⟨rfl, p, (h.entries (p, e) hkey).mpr hp⟩, hin⟩
      · rintro ⟨⟨rfl, p, hp⟩, hin⟩
        have hkey : p < Key.array [.number t] :=
          h₀.entry_key hp ▸ key_lt_at.mpr (h₀.entries _ hp).2
        exact ⟨⟨rfl, p, (h.entries (p, e) hkey).mp hp⟩, hin⟩
    unfold standing
    rw [hscan, hclear]
    refine List.filter_congr fun e _ => ?_
    rw [hremoved]

end IndexedDb

end Js

end Gink
