/-
  Gink.Chain.Linked — lists in which each item names the one before.

  A log that only grows at its end stays one linked list as long as every appended
  item fits the last one.  Nothing here depends on what the items are: `first` says
  what may open a list and `follows` what may come after what.
-/
import Mathlib

namespace Gink

variable {α : Type}

/-- The first item may open the list and each item follows the one before. -/
structure Linked (first : α → Prop) (follows : α → α → Prop) (l : List α) : Prop where
  head : ∀ a ∈ l.head?, first a
  links : l.IsChain follows

namespace Linked

variable {first : α → Prop} {follows : α → α → Prop}

theorem nil : Linked first follows [] := ⟨by simp, List.isChain_nil⟩

/-- **Growing at the end** keeps a list linked. -/
theorem concat {l : List α} {a : α} (hl : Linked first follows l)
    (hfirst : l = [] → first a) (hnext : ∀ b ∈ l.getLast?, follows b a) :
    Linked first follows (l ++ [a]) := by
  refine ⟨?_, ?_⟩
  · intro x hx
    cases l with
    | nil =>
        obtain rfl : a = x := by simpa using hx
        exact hfirst rfl
    | cons y rest => exact hl.head x (by simpa using hx)
  · rw [List.isChain_append]
    refine ⟨hl.links, List.isChain_singleton a, ?_⟩
    intro x hx y hy
    obtain rfl : a = y := by simpa using hy
    exact hnext x hx

/-- What every link raises, raises all along the list. -/
theorem pairwise {r : α → α → Prop} [IsTrans α r] {l : List α} (hl : Linked first follows l)
    (h : ∀ a b, follows a b → r a b) : l.Pairwise r :=
  (hl.links.imp h).pairwise

end Linked

end Gink
