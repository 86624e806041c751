/-
  Gink.Js.IndexedDbKeyed — keyed lookups of an `IndexedDbStore`.

  `getEntryByKey` makes one seek for the last entry of the container up to the key and the
  as-of time, and one for the last clearance.  What it returns is the entry of the key
  placed last before the time, unless a clearance before the time is later.
-/
import Gink.Js.IndexedDbRows

namespace Gink

namespace Js

open Gink.Idb (Key Range add index visited lastIn)

namespace IndexedDb

/-! ## §1. Tables whose records name their keys. -/

/-- Entries stand under their placements, clearances under their own keys. -/
structure Proper (c : Contents) : Prop where
  entries : ∀ r ∈ c.entries.rows, r.1 = Entry.primary r.2
  clearances : ∀ r ∈ c.clearances.rows, r.1 = r.2.key

/-- What was only added to is proper. -/
theorem History.proper {history : List OpenBundle} {c : Contents} (h : History true history c)
    (hplain : PlainHistory history) : Proper c := by
  obtain ⟨he, hc⟩ := h.rows hplain
  constructor
  · intro r hr
    obtain ⟨op, -, e, -, rfl⟩ := (he r).mp hr
    rfl
  · intro r hr
    obtain ⟨op, -, z, -, rfl⟩ := (hc r).mp hr
    rfl

section
variable {c : Contents} {container : MuidTuple} {asOfTs : Option Int}

/-- The entry is in the store. -/
def Stored (c : Contents) (e : Entry) : Prop := ∃ k, (k, e) ∈ c.entries.rows

/-- Placements tell entries apart. -/
theorem Proper.placement_inj (h : Proper c) {e e' : Entry} (he : Stored c e) (he' : Stored c e')
    (heq : e.placementId = e'.placementId) : e = e' := by
  obtain ⟨k, hk⟩ := he
  obtain ⟨k', hk'⟩ := he'
  have hkey : k = k' := by
    rw [show k = Entry.primary e from h.entries _ hk, show k' = Entry.primary e' from h.entries _ hk']
    unfold Entry.primary
    rw [heq]
  subst hkey
  exact Table.eq_of_mem_of_mem hk hk'

/-- So the index by container, key and placement separates them. -/
theorem Proper.separates (h : Proper c) :
    Idb.Separates c.entries Entry.byContainerKeyPlacement := by
  intro r hr r' hr' hkey
  refine h.placement_inj ⟨r.1, hr⟩ ⟨r'.1, hr'⟩ ?_
  unfold Entry.byContainerKeyPlacement at hkey
  simp only [Key.array.injEq, List.cons.injEq, MuidTuple.key_inj, and_true] at hkey
  exact hkey.2.2

/-! ## §2. The seek for a key. -/

/-- The placement was made before the as-of time. -/
def BeforeTime (asOfTs : Option Int) (p : MuidTuple) : Prop := ∀ t, asOfTs = some t → p.timestamp < t

/-- The entry was written to the key of the container before the time. -/
structure Written (c : Contents) (container : MuidTuple) (storageKey : StorageKey)
    (asOfTs : Option Int) (e : Entry) : Prop where
  stored : Stored c e
  container : e.containerId = container
  key : e.storageKey = storageKey
  before : BeforeTime asOfTs e.placementId

/-- The range of the seek takes in what was written to the key before the time, and all
smaller keys. -/
theorem includes_lookup {storageKey : StorageKey} {e : Entry} :
    Range.includes ⟨.array [container.key],
        .array [container.key, storageKey.key, .array [timeKey asOfTs]]⟩
        e.byContainerKeyPlacement = true ↔
      e.containerId = container ∧ (e.storageKey.key < storageKey.key ∨
        (e.storageKey = storageKey ∧ BeforeTime asOfTs e.placementId)) := by
  unfold Range.includes Entry.byContainerKeyPlacement
  simp only [Bool.and_eq_true, decide_eq_true_eq]
  rw [← not_lt, ← not_lt]
  simp only [Key.array_cons_lt, Key.not_array_lt_nil, and_false, or_false, MuidTuple.key_inj,
    StorageKey.key_inj, lt_irrefl]
  constructor
  · rintro ⟨hlow, hhigh⟩
    push Not at hhigh
    have hc : e.containerId = container :=
      MuidTuple.key_injective (le_antisymm hhigh.1 (not_lt.mp hlow))
    refine ⟨hc, ?_⟩
    obtain ⟨hle, hplace⟩ := hhigh.2 hc.symm
    rcases lt_or_eq_of_le hle with hlt | heq
    · exact Or.inl hlt
    · have hkey := StorageKey.key_injective heq
      exact Or.inr ⟨hkey, MuidTuple.key_le_time.mp (hplace hkey.symm)⟩
  · rintro ⟨rfl, hcase⟩
    refine ⟨lt_irrefl _, ?_⟩
    push Not
    refine ⟨le_refl _, fun _ => ?_⟩
    rcases hcase with hlt | ⟨rfl, hbefore⟩
    · exact ⟨hlt.le, fun heq => absurd hlt (by rw [heq]; exact lt_irrefl _)⟩
    · exact ⟨le_refl _, fun _ => MuidTuple.key_le_time.mpr hbefore⟩

/-- The entry is the last written to the key before the time. -/
structure LastWritten (c : Contents) (container : MuidTuple) (storageKey : StorageKey)
    (asOfTs : Option Int) (e : Entry) : Prop where
  written : Written c container storageKey asOfTs e
  last : ∀ e', Written c container storageKey asOfTs e' → e'.placementId.key ≤ e.placementId.key

/-- **The seek** finds an entry of the key exactly when it is the last written to it. -/
theorem seek_key (h : Proper c) {storageKey : StorageKey} {e : Entry} :
    (lastIn (index c.entries Entry.byContainerKeyPlacement) ⟨.array [container.key],
        .array [container.key, storageKey.key, .array [timeKey asOfTs]]⟩ = some e ∧
      e.storageKey = storageKey) ↔ LastWritten c container storageKey asOfTs e := by
  rw [Idb.lastIn_index h.separates]
  constructor
  · rintro ⟨⟨hstored, hin, hmax⟩, hkey⟩
    obtain ⟨hc, hcase⟩ := includes_lookup.mp hin
    have hbefore : BeforeTime asOfTs e.placementId := by
      rcases hcase with hlt | ⟨-, hb⟩
      · rw [hkey] at hlt
        exact absurd hlt (lt_irrefl _)
      · exact hb
    refine ⟨⟨hstored, hc, hkey, hbefore⟩, fun e' he' => ?_⟩
    obtain ⟨p, hp⟩ := he'.stored
    have hle := hmax p e' hp
      (includes_lookup.mpr ⟨he'.container, Or.inr ⟨he'.key, he'.before⟩⟩)
    rw [← not_lt] at hle ⊢
    intro hlt
    apply hle
    unfold Entry.byContainerKeyPlacement
    rw [hc, hkey, he'.container, he'.key]
    simp [hlt]
  · intro hl
    refine ⟨⟨hl.written.stored, includes_lookup.mpr
      ⟨hl.written.container, Or.inr ⟨hl.written.key, hl.written.before⟩⟩, ?_⟩, hl.written.key⟩
    intro p e' he' hin
    obtain ⟨hc, hcase⟩ := includes_lookup.mp hin
    unfold Entry.byContainerKeyPlacement
    rw [← not_lt, hc, hl.written.container, hl.written.key]
    rcases hcase with hlt | ⟨hkey, hbefore⟩
    · simp [hlt.le, hlt.ne']
    · have hle := hl.last e' ⟨⟨p, he'⟩, hc, hkey, hbefore⟩
      simp [hkey, hle]

/-! ## §3. The seek for a clearance. -/

/-- The range of the seek takes in the clearances of the container before the time. -/
theorem includes_clearance {z : Clearance} :
    Range.includes ⟨.array [container.key], .array [container.key, .array [timeKey asOfTs]]⟩
        z.key = true ↔ z.containerId = container ∧ BeforeTime asOfTs z.clearanceId := by
  unfold Range.includes Clearance.key
  simp only [Bool.and_eq_true, decide_eq_true_eq]
  rw [← not_lt, ← not_lt]
  simp only [Key.array_cons_lt, Key.not_array_lt_nil, and_false, or_false, MuidTuple.key_inj,
    lt_irrefl]
  constructor
  · rintro ⟨hlow, hhigh⟩
    push Not at hhigh
    have hc : z.containerId = container :=
      MuidTuple.key_injective (le_antisymm hhigh.1 (not_lt.mp hlow))
    exact ⟨hc, MuidTuple.key_le_time.mp (hhigh.2 hc.symm)⟩
  · rintro ⟨rfl, hbefore⟩
    refine ⟨lt_irrefl _, ?_⟩
    push Not
    exact ⟨le_refl _, fun _ => MuidTuple.key_le_time.mpr hbefore⟩

/-- **The clearance time** is the latest time of a clearance before the as-of time. -/
theorem lt_clearanceTime (h : Proper c) {t : Int} (ht : 0 ≤ t) :
    t < getClearanceTime c container asOfTs ↔ ∃ z, (z.key, z) ∈ c.clearances.rows ∧
      z.containerId = container ∧ BeforeTime asOfTs z.clearanceId ∧ t < z.clearanceId.timestamp := by
  unfold getClearanceTime
  cases hlast : lastIn c.clearances ⟨.array [container.key],
      .array [container.key, .array [timeKey asOfTs]]⟩ with
  | none =>
      unfold lastIn at hlast
      rw [Option.map_eq_none_iff, Table.lastWhere_eq_none_iff] at hlast
      constructor
      · intro hlt
        exact absurd hlt (by simpa using ht)
      · rintro ⟨z, hz, hc, hb, -⟩
        have hout := hlast _ hz
        rw [includes_clearance.mpr ⟨hc, hb⟩] at hout
        exact absurd hout (by simp)
  | some z =>
      obtain ⟨⟨k, w⟩, hrow, hw⟩ := Option.map_eq_some_iff.mp hlast
      obtain rfl : w = z := hw
      obtain ⟨hmem, hin, hmax⟩ := Table.lastWhere_eq_some_iff.mp hrow
      obtain rfl : k = w.key := h.clearances _ hmem
      obtain ⟨hc, hb⟩ := includes_clearance.mp hin
      constructor
      · intro hlt
        exact ⟨w, hmem, hc, hb, hlt⟩
      · rintro ⟨y, hy, hyc, hyb, hlt⟩
        have hle := hmax _ hy (includes_clearance.mpr ⟨hyc, hyb⟩)
        refine lt_of_lt_of_le hlt ?_
        by_contra hgt
        refine absurd hle (not_le.mpr ?_)
        show w.key < y.key
        unfold Clearance.key
        rw [hc, hyc]
        have hbelow : w.clearanceId.key < y.clearanceId.key :=
          MuidTuple.key_lt.mpr (Or.inl (not_le.mp hgt))
        simp [hbelow]

/-! ## §4. Lookups. -/

/-- **What `getEntryByKey` finds**: the entry last written to the key before the time,
unless some clearance before the time is later. -/
theorem getEntryByKey_eq (h : Proper c) {trxns : List Int} {asOf : Option Int}
    {storageKey : StorageKey} (hasOf : resolveAsOf trxns asOf none = .ok asOfTs) :
    ∃ found, getEntryByKey c trxns container storageKey asOf = .ok found ∧
      ∀ e, found = some e ↔ LastWritten c container storageKey asOfTs e ∧
        ¬ e.placementId.timestamp < getClearanceTime c container asOfTs := by
  unfold getEntryByKey
  rw [hasOf]
  simp only [bind, Except.bind]
  cases hseek : lastIn (index c.entries Entry.byContainerKeyPlacement) ⟨.array [container.key],
      .array [container.key, storageKey.key, .array [timeKey asOfTs]]⟩ with
  | none =>
      refine ⟨none, rfl, fun e => ⟨by simp, ?_⟩⟩
      rintro ⟨hl, -⟩
      have := ((seek_key h).mpr hl).1
      rw [hseek] at this
      exact absurd this (by simp)
  | some entry =>
      have hunique : ∀ e, LastWritten c container storageKey asOfTs e → e = entry := by
        intro e hl
        have := ((seek_key h).mpr hl).1
        rw [hseek] at this
        injection this with this
        exact this.symm
      by_cases hkey : entry.storageKey = storageKey
      · have hentry := (seek_key h).mp ⟨hseek, hkey⟩
        simp only [hkey, ne_eq, not_true_eq_false, if_false]
        by_cases hold : entry.placementId.timestamp < getClearanceTime c container asOfTs
        · rw [if_pos hold]
          refine ⟨none, rfl, fun e => ⟨by simp, ?_⟩⟩
          rintro ⟨hl, hkept⟩
          rw [hunique e hl] at hkept
          exact absurd hold hkept
        · rw [if_neg hold]
          refine ⟨some entry, rfl, fun e => ⟨?_, ?_⟩⟩
          · intro he
            injection he with he
            subst he
            exact ⟨hentry, hold⟩
          · rintro ⟨hl, -⟩
            rw [hunique e hl]
      · simp only [ne_eq, hkey, not_false_eq_true, if_true]
        refine ⟨none, rfl, fun e => ⟨by simp, ?_⟩⟩
        rintro ⟨hl, -⟩
        rw [← hunique e hl] at hkey
        exact absurd hl.written.key hkey

end

end IndexedDb

end Js

end Gink
