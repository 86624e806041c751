/-
  Gink.Table.Agreement — tables that have the same rows under some of the keys.

  Writing under other keys leaves the agreement, and a scan that passes over the other keys
  finds the same rows in both.
-/
import Gink.Table.Sorted

namespace Gink

namespace Table

variable {K V : Type} [LinearOrder K] {p : K → Prop} {s t u : Table K V}

/-- The rows under the keys that satisfy `p` are the same. -/
def AgreeOn (p : K → Prop) (s t : Table K V) : Prop := ∀ r, p r.1 → (r ∈ s.rows ↔ r ∈ t.rows)

theorem AgreeOn.refl (p : K → Prop) (t : Table K V) : AgreeOn p t t := fun _ _ => Iff.rfl

theorem AgreeOn.trans (h : AgreeOn p s t) (h' : AgreeOn p t u) : AgreeOn p s u :=
  fun r hr => (h r hr).trans (h' r hr)

/-- A row under another key. -/
theorem agreeOn_put (t : Table K V) {k : K} (v : V) (hk : ¬p k) : AgreeOn p t (t.put k v) := by
  intro r hr
  have hne : r.1 ≠ k := fun heq => hk (heq ▸ hr)
  rw [mem_rows_put]
  constructor
  · intro hmem
    exact Or.inr ⟨hne, hmem⟩
  · rintro (rfl | ⟨-, hmem⟩)
    · exact absurd rfl hne
    · exact hmem

/-- **A scan** that finds no row under another key finds the same rows in both tables. -/
theorem AgreeOn.rowsWhere_eq (h : AgreeOn p s t) {q : K → Bool}
    (hs : ∀ r ∈ s.rows, q r.1 = true → p r.1) (ht : ∀ r ∈ t.rows, q r.1 = true → p r.1) :
    s.rowsWhere q = t.rowsWhere q := by
  refine eq_of_sorted_of_mem_iff (s.rowsWhere_sorted q) (t.rowsWhere_sorted q) fun r => ?_
  rw [mem_rowsWhere, mem_rowsWhere]
  constructor
  · rintro ⟨hr, hq⟩
    exact ⟨(h r (hs r hr hq)).mp hr, hq⟩
  · rintro ⟨hr, hq⟩
    exact ⟨(h r (ht r hr hq)).mpr hr, hq⟩

theorem lastWhere_eq_of_rowsWhere {q : K → Bool} (h : s.rowsWhere q = t.rowsWhere q) :
    s.lastWhere q = t.lastWhere q := by
  unfold lastWhere
  rw [h]

end Table

end Gink
