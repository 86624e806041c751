/-
  Gink.Table.Nested — tables of tables.

  A value stands under two keys, the second of which is looked up in the table that stands
  under the first.  A table that has become empty stays where it is, so that the number of
  values is a sum over the inner tables.
-/
import Gink.Table.Sorted

namespace Gink

namespace Table

variable {K L V : Type} [LinearOrder K] [LinearOrder L] {t : Table K (Table L V)} {k k' : K}
  {l l' : L} {v : V}

/-! ## §1. Operations. -/

/-- The inner table, a new one when there is none yet. -/
def inner (t : Table K (Table L V)) (k : K) : Table L V := (t.get? k).getD ∅

/-- The value under both keys. -/
def under (t : Table K (Table L V)) (k : K) (l : L) : Option V := (t.inner k).get? l

def putUnder (t : Table K (Table L V)) (k : K) (l : L) (v : V) : Table K (Table L V) :=
  t.put k ((t.inner k).put l v)

def eraseUnder (t : Table K (Table L V)) (k : K) (l : L) : Table K (Table L V) :=
  t.put k ((t.inner k).erase l)

/-- How many values there are. -/
def count (t : Table K (Table L V)) : Nat := (t.rows.map fun r => r.2.rows.length).sum

/-! ## §2. Lookups. -/

theorem inner_put (t : Table K (Table L V)) (k k' : K) (u : Table L V) :
    (t.put k u).inner k' = if k' = k then u else t.inner k' := by
  unfold inner
  rw [get?_put]
  split_ifs
  · rfl
  · rfl

theorem under_putUnder : (t.putUnder k l v).under k' l' =
    if k' = k ∧ l' = l then some v else t.under k' l' := by
  unfold under putUnder
  rw [inner_put]
  by_cases hk : k' = k
  · rw [if_pos hk, get?_put]
    by_cases hl : l' = l
    · rw [if_pos hl, if_pos ⟨hk, hl⟩]
    · rw [if_neg hl, if_neg fun h => hl h.2, hk]
  · rw [if_neg hk, if_neg fun h => hk h.1]

theorem under_eraseUnder : (t.eraseUnder k l).under k' l' =
    if k' = k ∧ l' = l then none else t.under k' l' := by
  unfold under eraseUnder
  rw [inner_put]
  by_cases hk : k' = k
  · rw [if_pos hk, get?_erase]
    by_cases hl : l' = l
    · rw [if_pos hl, if_pos ⟨hk, hl⟩]
    · rw [if_neg hl, if_neg fun h => hl h.2, hk]
  · rw [if_neg hk, if_neg fun h => hk h.1]

/-- A value is under its keys when the inner table has it. -/
theorem under_eq_some : t.under k l = some v ↔ ∃ u, t.get? k = some u ∧ u.get? l = some v := by
  unfold under inner
  cases t.get? k with
  | none => simp
  | some u => simp

/-! ## §3. How many values there are. -/

theorem count_empty : (∅ : Table K (Table L V)).count = 0 := rfl

theorem count_put (t : Table K (Table L V)) (k : K) (u : Table L V) :
    (t.put k u).count = u.rows.length + (t.erase k).count := by
  unfold count
  rw [((rows_put_perm t k u).map _).sum_eq, List.map_cons, List.sum_cons]

/-- The inner table counts for its values. -/
theorem count_eq (t : Table K (Table L V)) (k : K) :
    t.count = (t.inner k).rows.length + (t.erase k).count := by
  unfold inner
  cases hk : t.get? k with
  | none =>
      rw [erase_eq_self hk]
      exact (Nat.zero_add _).symm
  | some u =>
      rw [Option.getD_some, ← count_put t k u, put_eq_self hk]

theorem count_putUnder_of_none (h : t.under k l = none) :
    (t.putUnder k l v).count = t.count + 1 := by
  unfold putUnder
  rw [count_put, length_rows_put_of_none v h, count_eq t k]
  omega

theorem count_putUnder_of_some {w : V} (h : t.under k l = some w) :
    (t.putUnder k l v).count = t.count := by
  unfold putUnder
  rw [count_put, length_rows_put_of_some v h, count_eq t k]

theorem count_eraseUnder (h : t.under k l = some v) :
    t.count = (t.eraseUnder k l).count + 1 := by
  unfold eraseUnder
  rw [count_put, count_eq t k, length_rows_erase h]
  omega

/-- No value is under any keys when there are none. -/
theorem count_eq_zero_iff : t.count = 0 ↔ ∀ k l, t.under k l = none := by
  constructor
  · intro hzero k l
    rw [count_eq t k] at hzero
    have hnil : (t.inner k).rows = [] := List.length_eq_zero_iff.mp (by omega)
    unfold under
    rw [get?_eq_none_iff, hnil]
    exact fun _ hr => absurd hr List.not_mem_nil
  · intro hnone
    unfold count
    rw [List.sum_eq_zero_iff]
    intro n hn
    obtain ⟨⟨k, u⟩, hr, rfl⟩ := List.mem_map.mp hn
    show u.rows.length = 0
    rw [List.length_eq_zero_iff, List.eq_nil_iff_forall_not_mem]
    intro x hx
    have hunder : t.under k x.1 = some x.2 :=
      under_eq_some.mpr ⟨u, get?_eq_some_iff.mpr hr, get?_eq_some_iff.mpr hx⟩
    rw [hnone k x.1] at hunder
    cases hunder

end Table

end Gink
