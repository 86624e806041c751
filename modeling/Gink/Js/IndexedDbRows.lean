/-
  Gink.Js.IndexedDbRows — the object stores of an `IndexedDbStore` as a function of what
  it applied.

  While history is kept, and nothing is moved or purged, a record is only ever added, and
  one for each entry and each clearance: the entries and the clearances are those of the
  changes, whatever the order.  The indexes then separate their records, so that the
  cursors of the reads find what the ranges say.
-/
import Gink.Js.IndexedDbReads

namespace Gink

namespace Js

open Gink.Idb (Key Range add index visited lastIn)

/-! ## §1. Keys tell apart. -/

theorem MuidTuple.key_injective : Function.Injective MuidTuple.key := by
  intro a b h
  obtain ⟨t, m, o⟩ := a
  obtain ⟨t', m', o'⟩ := b
  simpa [MuidTuple.key] using h

@[simp] theorem MuidTuple.key_inj {a b : MuidTuple} : a.key = b.key ↔ a = b :=
  MuidTuple.key_injective.eq_iff

theorem StorageKey.key_injective : Function.Injective StorageKey.key := by
  intro a b h
  cases a <;> cases b <;>
    simp_all only [StorageKey.key, MuidTuple.key_inj, Key.number.injEq, Key.string.injEq,
      Key.binary.injEq, Key.array.injEq, List.cons.injEq, and_true, reduceCtorEq] <;>
    simp [MuidTuple.key] at h

@[simp] theorem StorageKey.key_inj {a b : StorageKey} : a.key = b.key ↔ a = b :=
  StorageKey.key_injective.eq_iff

/-- Tuples compare by timestamp, then medallion, then offset. -/
theorem MuidTuple.key_lt {a b : MuidTuple} : a.key < b.key ↔
    a.timestamp < b.timestamp ∨ (a.timestamp = b.timestamp ∧ (a.medallion < b.medallion ∨
      (a.medallion = b.medallion ∧ a.offset < b.offset))) := by
  simp [MuidTuple.key]

/-- A tuple lies below `[time]` exactly when its timestamp does. -/
theorem MuidTuple.key_lt_time {a : MuidTuple} {asOf : Option Int} :
    a.key < .array [timeKey asOf] ↔ ∀ t, asOf = some t → a.timestamp < t := by
  cases asOf with
  | none => simp [MuidTuple.key, timeKey]
  | some t => simp [MuidTuple.key, timeKey]

theorem MuidTuple.key_ne_time {a : MuidTuple} {asOf : Option Int} :
    a.key ≠ .array [timeKey asOf] := by
  simp [MuidTuple.key]

/-- It never equals such a bound, so being at most the bound is being below it. -/
theorem MuidTuple.key_le_time {a : MuidTuple} {asOf : Option Int} :
    a.key ≤ .array [timeKey asOf] ↔ ∀ t, asOf = some t → a.timestamp < t := by
  rw [← MuidTuple.key_lt_time]
  exact ⟨fun h => lt_of_le_of_ne h MuidTuple.key_ne_time, le_of_lt⟩

namespace IndexedDb

/-! ## §2. What each change adds. -/

/-- The record of an entry, if the change is one that has a record. -/
def entryOf (op : Op) : Option Entry :=
  match op.change with
  | .entry builder => (buildEntry builder op.info op.offset).toOption
  | _ => none

/-- The record of a clearance. -/
def clearanceOf (op : Op) : Option Clearance :=
  match op.change with
  | .clearance builder =>
      (do
        let container ←
          builderToMuid (← message builder.container) (changeAddress op.info op.offset)
        return ⟨container, changeAddress op.info op.offset, builder.purge⟩ :
          Except JsError Clearance).toOption
  | _ => none

theorem toOption_eq_some {α : Type} {x : Except JsError α} {a : α} :
    x.toOption = some a ↔ x = .ok a := by
  cases x <;> simp [Except.toOption]

/-- An entry that builds has a record. -/
theorem entryOf_eq {op : Op} {builder : EntryBuilder} (hchange : op.change = .entry builder)
    {e : Entry} : entryOf op = some e ↔ buildEntry builder op.info op.offset = .ok e := by
  unfold entryOf
  rw [hchange]
  exact toOption_eq_some

/-- The change moves nothing and purges nothing. -/
def IsPlain : ChangeBuilder → Prop
  | .movement _ => False
  | .clearance builder => builder.purge = false
  | _ => True

/-- The rows of a table after records were added to it. -/
def Adds {V : Type} (keyOf : V → Key) (t t' : Table Key V) (new : Option V) : Prop :=
  ∀ r, r ∈ t'.rows ↔ r ∈ t.rows ∨ ∃ v, new = some v ∧ r = (keyOf v, v)

theorem Adds.refl {V : Type} (keyOf : V → Key) (t : Table Key V) : Adds keyOf t t none := by
  intro r
  simp

theorem addRecord_ok {V : Type} {t t' : Table Key V} {k : Key} {v : V}
    (h : addRecord t k v = .ok t') : t.get? k = none ∧ t' = t.put k v := by
  unfold addRecord at h
  cases hadd : add t k v with
  | none => simp [hadd] at h
  | some t'' =>
      simp only [hadd, Except.ok.injEq] at h
      exact h ▸ Idb.add_eq_some.mp hadd

theorem addRecord_adds {V : Type} {keyOf : V → Key} {t t' : Table Key V} {v : V}
    (h : addRecord t (keyOf v) v = .ok t') : Adds keyOf t t' (some v) := by
  obtain ⟨hfresh, rfl⟩ := addRecord_ok h
  intro r
  rw [Table.mem_rows_put]
  constructor
  · rintro (rfl | ⟨-, hr⟩)
    · exact Or.inr ⟨v, rfl, rfl⟩
    · exact Or.inl hr
  · rintro (hr | ⟨w, hw, rfl⟩)
    · exact Or.inr ⟨Table.get?_eq_none_iff.mp hfresh r hr, hr⟩
    · injection hw with hw
      subst hw
      exact Or.inl rfl

/-- The primary key of an entry. -/
def Entry.primary (e : Entry) : Key := e.placementId.key

theorem buildEntry_ok {builder : EntryBuilder} {info : BundleInfo} {offset : Nat} {e : Entry}
    (h : buildEntry builder info offset = .ok e) :
    containerIdOf builder info = .ok e.containerId ∧
      getStorageKey builder (changeAddress info offset) = .ok e.storageKey ∧
      e.placementId = changeAddress info offset ∧ e.entryId = changeAddress info offset := by
  unfold buildEntry at h
  obtain ⟨containerId, hcontainer, h⟩ := bind_eq_ok.mp h
  obtain ⟨storageKey, hkey, h⟩ := bind_eq_ok.mp h
  obtain ⟨lists, -, h⟩ := bind_eq_ok.mp h
  rw [← pure_eq_ok.mp h]
  exact ⟨hcontainer, hkey, rfl, rfl⟩

/-- With history kept a replaced entry stays where it is. -/
theorem replaceFound_kept {e : Entry} {c c' : Contents} (h : replaceFound true e c = .ok c') :
    c'.entries = c.entries ∧ c'.clearances = c.clearances := by
  unfold replaceFound at h
  by_cases hacc : accumulates e.behavior = true
  · rw [if_pos hacc] at h
    injection h with h
    exact h ▸ ⟨rfl, rfl⟩
  · rw [if_neg hacc] at h
    cases hfound : replacedBy c e with
    | none =>
        simp only [hfound, Except.ok.injEq] at h
        exact h ▸ ⟨rfl, rfl⟩
    | some search =>
        simp only [hfound] at h
        obtain ⟨removals, -, h⟩ := bind_eq_ok.mp h
        rw [← pure_eq_ok.mp h]
        exact ⟨rfl, rfl⟩

/-- **One plain change** adds its record and leaves the others. -/
theorem applyChange_adds {info : BundleInfo} {offset : Nat} {change : ChangeBuilder}
    {c c' : Contents} (hplain : IsPlain change)
    (h : applyChange true info offset c change = .ok c') :
    Adds Entry.primary c.entries c'.entries (entryOf ⟨info, offset, change⟩) ∧
      Adds Clearance.key c.clearances c'.clearances (clearanceOf ⟨info, offset, change⟩) := by
  cases change with
  | unset => simp [applyChange] at h
  | container container =>
      obtain ⟨containers, -, h⟩ := bind_eq_ok.mp h
      rw [← pure_eq_ok.mp h]
      exact ⟨Adds.refl _ _, Adds.refl _ _⟩
  | movement movement => exact absurd hplain id
  | entry entry =>
      obtain ⟨e, hbuild, h⟩ := bind_eq_ok.mp h
      obtain ⟨c1, hreplace, h⟩ := bind_eq_ok.mp h
      obtain ⟨entries, hadd, h⟩ := bind_eq_ok.mp h
      have hkept := replaceFound_kept hreplace
      have hentry : entryOf ⟨info, offset, .entry entry⟩ = some e := by
        exact (entryOf_eq rfl).mpr hbuild
      rw [← pure_eq_ok.mp h, hentry]
      rw [hkept.1] at hadd
      refine ⟨addRecord_adds (show addRecord c.entries (Entry.primary e) e = .ok entries from hadd), ?_⟩
      show Adds Clearance.key c.clearances c1.clearances none
      rw [hkept.2]
      exact Adds.refl _ _
  | clearance clearance =>
      obtain ⟨b, hmessage, h⟩ := bind_eq_ok.mp h
      obtain ⟨container, hcontainer, h⟩ := bind_eq_ok.mp h
      rw [show clearance.purge = false from hplain, if_neg (by simp)] at h
      obtain ⟨clearances, hadd, h⟩ := bind_eq_ok.mp h
      have hclear : clearanceOf ⟨info, offset, .clearance clearance⟩
          = some ⟨container, changeAddress info offset, clearance.purge⟩ := by
        unfold clearanceOf
        simp only [hmessage, hcontainer, bind, Except.bind]
        rfl
      rw [← pure_eq_ok.mp h, hclear]
      refine ⟨Adds.refl _ _, ?_⟩
      rw [hplain]
      exact addRecord_adds hadd

/-! ## §3. Runs. -/

/-- The changes of the history are plain. -/
def PlainHistory (history : List OpenBundle) : Prop :=
  ∀ op ∈ allOps history, IsPlain op.change

theorem applyChangesFrom_adds {info : BundleInfo} {changes : List ChangeBuilder} :
    ∀ {offset : Nat} {c c' : Contents},
      (∀ op ∈ opsFrom info offset changes, IsPlain op.change) →
      applyChangesFrom true info offset changes c = .ok c' →
      (∀ r, r ∈ c'.entries.rows ↔ r ∈ c.entries.rows ∨
        ∃ op ∈ opsFrom info offset changes, ∃ e, entryOf op = some e ∧ r = (Entry.primary e, e)) ∧
      (∀ r, r ∈ c'.clearances.rows ↔ r ∈ c.clearances.rows ∨
        ∃ op ∈ opsFrom info offset changes, ∃ z, clearanceOf op = some z ∧ r = (z.key, z)) := by
  induction changes with
  | nil =>
      intro offset c c' _ h
      injection h with h
      subst h
      simp
  | cons change rest ih =>
      intro offset c c' hplain h
      obtain ⟨c1, hone, hrest⟩ := bind_eq_ok.mp h
      obtain ⟨he, hc⟩ := applyChange_adds (hplain _ List.mem_cons_self) hone
      obtain ⟨he', hc'⟩ := ih (fun op hop => hplain op (List.mem_cons_of_mem _ hop)) hrest
      constructor
      · intro r
        rw [he' r, he r]
        simp only [opsFrom_cons, List.mem_cons, exists_eq_or_imp, or_assoc]
      · intro r
        rw [hc' r, hc r]
        simp only [opsFrom_cons, List.mem_cons, exists_eq_or_imp, or_assoc]

theorem applyChangesFrom_applied {keepingHistory : Bool} {info : BundleInfo}
    {changes : List ChangeBuilder} :
    ∀ {offset : Nat} {c c' : Contents},
      applyChangesFrom keepingHistory info offset changes c = .ok c' →
      ∀ op ∈ opsFrom info offset changes, ∃ before after,
        applyChange keepingHistory op.info op.offset before op.change = .ok after := by
  induction changes with
  | nil => intro offset c c' _ op hop; simp at hop
  | cons change rest ih =>
      intro offset c c' h op hop
      obtain ⟨c1, hone, hrest⟩ := bind_eq_ok.mp h
      rcases List.mem_cons.mp hop with rfl | hop
      · exact ⟨c, c1, hone⟩
      · exact ih hrest op hop

/-- **Every change of a history was applied** at some point. -/
theorem History.applied {keepingHistory : Bool} {history : List OpenBundle} {c : Contents}
    (h : History keepingHistory history c) :
    ∀ op ∈ allOps history, ∃ before after,
      applyChange keepingHistory op.info op.offset before op.change = .ok after := by
  induction h with
  | start => intro op hop; simp [allOps] at hop
  | @next past c c' b before happlied ih =>
      intro op hop
      have hops : allOps (past ++ [b]) = allOps past ++ b.ops := by simp [allOps]
      rw [hops, List.mem_append] at hop
      rcases hop with hop | hop
      · exact ih op hop
      · exact applyChangesFrom_applied happlied op hop

/-- **The stores hold the records of the changes**, nothing else. -/
theorem History.rows {history : List OpenBundle} {c : Contents} (h : History true history c)
    (hplain : PlainHistory history) :
    (∀ r, r ∈ c.entries.rows ↔
      ∃ op ∈ allOps history, ∃ e, entryOf op = some e ∧ r = (Entry.primary e, e)) ∧
    (∀ r, r ∈ c.clearances.rows ↔
      ∃ op ∈ allOps history, ∃ z, clearanceOf op = some z ∧ r = (z.key, z)) := by
  induction h with
  | start => simp [allOps]
  | @next past c c' b before applied ih =>
      have hops : allOps (past ++ [b]) = allOps past ++ b.ops := by simp [allOps]
      rw [PlainHistory, hops] at hplain
      obtain ⟨he, hc⟩ := ih fun op hop => hplain op (List.mem_append_left _ hop)
      obtain ⟨he', hc'⟩ := applyChangesFrom_adds
        (fun op hop => hplain op (List.mem_append_right _ hop)) applied
      rw [hops]
      constructor
      · intro r
        rw [he' r, he r]
        simp only [List.mem_append, or_and_right, exists_or]
        rfl
      · intro r
        rw [hc' r, hc r]
        simp only [List.mem_append, or_and_right, exists_or]
        rfl

end IndexedDb

end Js

end Gink
