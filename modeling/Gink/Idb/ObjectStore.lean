/-
  Gink.Idb.ObjectStore — object stores, indexes and cursors of IndexedDB.

  An object store keeps its records sorted by their primary keys.  An index sorts the
  same records by a key taken from each; the index keys here are told apart by the
  records they are taken from, so an index is a table too.  A cursor opened on a range
  visits the records whose keys lie in it, upwards or downwards.
-/
import Gink.Table.Sorted
import Gink.Idb.Key

namespace Gink

namespace Idb

variable {V : Type}

/-! ## §1. Operations. -/

/-- `store.add(value, key)`; `none` is the `ConstraintError` of a key that is taken. -/
def add (t : Table Key V) (k : Key) (v : V) : Option (Table Key V) :=
  if (t.get? k).isSome then none else some (t.put k v)

/-- `IDBKeyRange.bound(lower, upper)`, both bounds included. -/
structure Range where
  lower : Key
  upper : Key

/-- `range.includes(key)`. -/
def Range.includes (r : Range) (k : Key) : Bool := decide (r.lower ≤ k) && decide (k ≤ r.upper)

/-- `store.index(...)` with the key `keyOf` of each record. -/
def index (t : Table Key V) (keyOf : V → Key) : Table Key V :=
  Table.putAll ∅ (t.rows.map fun r => (keyOf r.2, r.2))

/-- What a cursor on the range visits, upwards. -/
def visited (t : Table Key V) (range : Range) : List V :=
  (t.rowsWhere range.includes).map Prod.snd

/-- `openCursor(range, "prev")`: the record it starts on. -/
def lastIn (t : Table Key V) (range : Range) : Option V :=
  (t.lastWhere range.includes).map Prod.snd

/-! ## §2. What they find. -/

theorem add_eq_some {t t' : Table Key V} {k : Key} {v : V} :
    add t k v = some t' ↔ t.get? k = none ∧ t' = t.put k v := by
  unfold add
  split_ifs with h
  · simp only [false_iff, not_and]
    intro hnone
    rw [hnone] at h
    simp at h
  · rw [Option.not_isSome_iff_eq_none] at h
    simp only [Option.some.injEq, h, true_and]
    exact eq_comm

/-- The records have different index keys. -/
def Separates (t : Table Key V) (keyOf : V → Key) : Prop :=
  ∀ r ∈ t.rows, ∀ r' ∈ t.rows, keyOf r.2 = keyOf r'.2 → r.2 = r'.2

/-- **An index** holds the records of its store under their index keys. -/
theorem mem_index {t : Table Key V} {keyOf : V → Key} (h : Separates t keyOf) {k : Key} {v : V} :
    (k, v) ∈ (index t keyOf).rows ↔ k = keyOf v ∧ ∃ p, (p, v) ∈ t.rows := by
  have hfun : ∀ x ∈ t.rows.map (fun r => (keyOf r.2, r.2)),
      ∀ y ∈ t.rows.map (fun r => (keyOf r.2, r.2)), x.1 = y.1 → x.2 = y.2 := by
    intro x hx y hy hxy
    obtain ⟨r, hr, rfl⟩ := List.mem_map.mp hx
    obtain ⟨r', hr', rfl⟩ := List.mem_map.mp hy
    exact h r hr r' hr' hxy
  rw [← Table.get?_eq_some_iff]
  unfold index
  rw [Table.get?_putAll _ hfun]
  simp only [List.mem_map, Table.get?_empty, reduceCtorEq, false_and, or_false]
  constructor
  · rintro ⟨⟨p, w⟩, hr, heq⟩
    simp only [Prod.mk.injEq] at heq
    obtain ⟨rfl, rfl⟩ := heq
    exact ⟨rfl, p, hr⟩
  · rintro ⟨rfl, p, hr⟩
    exact ⟨(p, v), hr, rfl⟩

/-- **A cursor run upwards** over an index visits the records in the range. -/
theorem mem_visited_index {t : Table Key V} {keyOf : V → Key} (h : Separates t keyOf)
    {range : Range} {v : V} :
    v ∈ visited (index t keyOf) range ↔
      (∃ p, (p, v) ∈ t.rows) ∧ range.includes (keyOf v) = true := by
  unfold visited
  rw [List.mem_map]
  constructor
  · rintro ⟨⟨k, w⟩, hr, rfl⟩
    obtain ⟨hmem, hin⟩ := Table.mem_rowsWhere.mp hr
    obtain ⟨rfl, hp⟩ := (mem_index h).mp hmem
    exact ⟨hp, hin⟩
  · rintro ⟨hp, hin⟩
    exact ⟨(keyOf v, v), Table.mem_rowsWhere.mpr ⟨(mem_index h).mpr ⟨rfl, hp⟩, hin⟩, rfl⟩

/-- **A cursor opened downwards** on an index starts on the record in the range with
the greatest key. -/
theorem lastIn_index {t : Table Key V} {keyOf : V → Key} (h : Separates t keyOf) {range : Range}
    {v : V} :
    lastIn (index t keyOf) range = some v ↔
      (∃ p, (p, v) ∈ t.rows) ∧ range.includes (keyOf v) = true ∧
        ∀ p w, (p, w) ∈ t.rows → range.includes (keyOf w) = true → keyOf w ≤ keyOf v := by
  unfold lastIn
  rw [Option.map_eq_some_iff]
  constructor
  · rintro ⟨⟨k, w⟩, hlast, rfl⟩
    obtain ⟨hmem, hin, hmax⟩ := Table.lastWhere_eq_some_iff.mp hlast
    obtain ⟨rfl, hp⟩ := (mem_index h).mp hmem
    exact ⟨hp, hin, fun p u hu hinu => hmax _ ((mem_index h).mpr ⟨rfl, p, hu⟩) hinu⟩
  · rintro ⟨hp, hin, hmax⟩
    refine ⟨(keyOf v, v), Table.lastWhere_eq_some_iff.mpr
      ⟨(mem_index h).mpr ⟨rfl, hp⟩, hin, ?_⟩, rfl⟩
    rintro ⟨k, w⟩ hr hink
    obtain ⟨rfl, p, hu⟩ := (mem_index h).mp hr
    exact hmax p w hu hink

theorem lastIn_index_none {t : Table Key V} {keyOf : V → Key} (h : Separates t keyOf)
    {range : Range} :
    lastIn (index t keyOf) range = none ↔
      ∀ p w, (p, w) ∈ t.rows → range.includes (keyOf w) = false := by
  unfold lastIn
  rw [Option.map_eq_none_iff, Table.lastWhere_eq_none_iff]
  constructor
  · intro hnone p w hw
    exact hnone (keyOf w, w) ((mem_index h).mpr ⟨rfl, p, hw⟩)
  · rintro hnone ⟨k, w⟩ hr
    obtain ⟨rfl, p, hw⟩ := (mem_index h).mp hr
    exact hnone p w hw

end Idb

end Gink
