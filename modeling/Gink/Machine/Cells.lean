/-
  Gink.Machine.Cells — machines whose events each concern one cell.

  The state is a value for every cell, and an event changes only the cell it concerns,
  looking at no other.  What a cell holds after a run is then what it would hold after the
  events that concern it alone, so that runs which give a cell the same events, in the same
  order, leave it the same.  Nothing here depends on what the cells and the events are.
-/
import Gink.Machine.Run

namespace Gink

namespace Machine

variable {ι σ ε : Type} [DecidableEq ι]

/-- One event, which changes the cell it concerns, if it concerns one. -/
def stepCell (cell : ε → Option ι) (act : σ → ε → σ) (t : ι → σ) (e : ε) : ι → σ :=
  fun i => if cell e = some i then act (t i) e else t i

/-- The events that concern a cell. -/
def concerning (cell : ε → Option ι) (i : ι) (l : List ε) : List ε :=
  l.filter fun e => decide (cell e = some i)

variable {cell : ε → Option ι} {act : σ → ε → σ}

@[simp] theorem stepCell_self {t : ι → σ} {e : ε} {i : ι} (h : cell e = some i) :
    stepCell cell act t e i = act (t i) e := if_pos h

@[simp] theorem stepCell_of_ne {t : ι → σ} {e : ε} {i : ι} (h : cell e ≠ some i) :
    stepCell cell act t e i = t i := if_neg h

theorem concerning_append (i : ι) (l m : List ε) :
    concerning cell i (l ++ m) = concerning cell i l ++ concerning cell i m :=
  List.filter_append ..

theorem mem_concerning {i : ι} {l : List ε} {e : ε} :
    e ∈ concerning cell i l ↔ e ∈ l ∧ cell e = some i := by
  unfold concerning
  rw [List.mem_filter, decide_eq_true_eq]

/-- Reordering events reorders those of each cell. -/
theorem concerning_perm {i : ι} {l m : List ε} (h : l.Perm m) :
    (concerning cell i l).Perm (concerning cell i m) := h.filter _

/-- **A cell goes its own way**: after a run it holds what its own events make of it. -/
theorem run_stepCell (l : List ε) (i : ι) :
    ∀ t : ι → σ, run (stepCell cell act) t l i = run act (t i) (concerning cell i l) := by
  induction l with
  | nil => exact fun _ => rfl
  | cons e rest ih =>
      intro t
      show run (stepCell cell act) (stepCell cell act t e) rest i = _
      rw [ih]
      by_cases he : cell e = some i
      · have hfilter : concerning cell i (e :: rest) = e :: concerning cell i rest := by
          unfold concerning
          rw [List.filter_cons_of_pos (by simpa using he)]
        rw [stepCell_self he, hfilter]
        rfl
      · have hfilter : concerning cell i (e :: rest) = concerning cell i rest := by
          unfold concerning
          rw [List.filter_cons_of_neg (by simpa using he)]
        rw [stepCell_of_ne he, hfilter]

/-- **Runs that agree on every cell's events**, up to what a relation allows, lead to cells
that are so related. -/
theorem run_stepCell_rel {R : σ → σ → Prop} {t : ι → σ} {l m : List ε}
    (h : ∀ i, R (run act (t i) (concerning cell i l)) (run act (t i) (concerning cell i m)))
    (i : ι) : R (run (stepCell cell act) t l i) (run (stepCell cell act) t m i) := by
  rw [run_stepCell, run_stepCell]
  exact h i

end Machine

end Gink
