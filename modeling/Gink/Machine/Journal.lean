/-
  Gink.Machine.Journal — readers of a journal that only grows.

  The items of a journal stand in the order in which they were written, each with its
  writer.  A reader joins at some place, and from there on it has a cursor and a list of
  what it received.  It keeps the law when it has received, each once and in order, what
  others wrote between the place it joined at and its cursor, and when what it wrote itself
  lies before the cursor.  Nothing here depends on what the items and the writers are.
-/
import Mathlib

namespace Gink

namespace Machine

variable {ω α : Type} [DecidableEq ω]

/-- The items that somebody else wrote. -/
def others (w : ω) (items : List (ω × α)) : List α :=
  (items.filter fun i => decide (i.1 ≠ w)).map (·.2)

/-- A reader has received what others wrote between two places in the journal. -/
structure Follows (w : ω) (items : List (ω × α)) (joined cursor : Nat) (received : List α) :
    Prop where
  joined_le : joined ≤ cursor
  cursor_le : cursor ≤ items.length
  received : received = others w ((items.take cursor).drop joined)
  own : ∀ n item, items[n]? = some item → item.1 = w → n < cursor

variable {w : ω} {items more : List (ω × α)} {joined cursor : Nat} {received : List α}

theorem others_append (l m : List (ω × α)) : others w (l ++ m) = others w l ++ others w m := by
  simp [others]

theorem others_eq_map {l : List (ω × α)} (h : ∀ i ∈ l, i.1 ≠ w) : others w l = l.map (·.2) := by
  unfold others
  rw [List.filter_eq_self.mpr]
  intro i hi
  simpa using h i hi

theorem others_eq_nil {l : List (ω × α)} (h : ∀ i ∈ l, i.1 = w) : others w l = [] := by
  unfold others
  rw [List.filter_eq_nil_iff.mpr, List.map_nil]
  intro i hi
  simpa using h i hi

/-- **A reader joins** a journal it has not written to, at its end. -/
theorem follows_join (h : ∀ i ∈ items, i.1 ≠ w) : Follows w items items.length items.length [] where
  joined_le := le_refl _
  cursor_le := le_refl _
  received := by simp [others]
  own n item hn hw := absurd hw (h item (List.mem_of_getElem? hn))

/-- Or at its beginning. -/
theorem follows_join_start (h : ∀ i ∈ items, i.1 ≠ w) : Follows w items 0 0 [] where
  joined_le := le_refl _
  cursor_le := Nat.zero_le _
  received := by simp [others]
  own n item hn hw := absurd hw (h item (List.mem_of_getElem? hn))

namespace Follows

/-- What is beyond the cursor was written by others. -/
theorem unread_others (h : Follows w items joined cursor received) :
    others w (items.drop cursor) = (items.drop cursor).map (·.2) := by
  apply others_eq_map
  intro i hi hw
  obtain ⟨n, hn⟩ := List.mem_iff_getElem?.mp hi
  rw [List.getElem?_drop] at hn
  have hlt := h.own (cursor + n) i hn hw
  omega

/-- **What is unread is received**, and the cursor is at the end. -/
theorem deliver (h : Follows w items joined cursor received) :
    Follows w items joined items.length (received ++ (items.drop cursor).map (·.2)) where
  joined_le := h.joined_le.trans h.cursor_le
  cursor_le := le_refl _
  received := by
    have hsplit : items.drop joined = (items.take cursor).drop joined ++ items.drop cursor := by
      conv_lhs => rw [← List.take_append_drop cursor items]
      rw [List.drop_append_of_le_length]
      rw [List.length_take]
      exact le_min h.joined_le (h.joined_le.trans h.cursor_le)
    rw [List.take_length, hsplit, others_append, ← h.received, h.unread_others]
  own n item hn _ := (List.getElem?_eq_some_iff.mp hn).1

/-- **Others write**: nothing changes for the reader. -/
theorem append_others (h : Follows w items joined cursor received) (hmore : ∀ i ∈ more, i.1 ≠ w) :
    Follows w (items ++ more) joined cursor received where
  joined_le := h.joined_le
  cursor_le := by
    rw [List.length_append]
    exact h.cursor_le.trans (Nat.le_add_right _ _)
  received := by rw [List.take_append_of_le_length h.cursor_le, h.received]
  own n item hn hw := by
    by_cases hlt : n < items.length
    · rw [List.getElem?_append_left hlt] at hn
      exact h.own n item hn hw
    · rw [List.getElem?_append_right (by omega)] at hn
      exact absurd hw (hmore item (List.mem_of_getElem? hn))

/-- **A reader writes** when it has read everything: its cursor moves on. -/
theorem append_own (h : Follows w items joined cursor received) (hend : cursor = items.length)
    (hmore : ∀ i ∈ more, i.1 = w) :
    Follows w (items ++ more) joined (items ++ more).length received where
  joined_le := by
    rw [List.length_append]
    have := h.joined_le.trans h.cursor_le
    omega
  cursor_le := le_refl _
  received := by
    have hjoined : joined ≤ items.length := h.joined_le.trans h.cursor_le
    rw [List.take_length, List.drop_append_of_le_length hjoined, others_append,
      others_eq_nil hmore, List.append_nil]
    rw [h.received, hend, List.take_length]
  own n item hn _ := (List.getElem?_eq_some_iff.mp hn).1

/-- At the end of the journal the reader has received everything since it joined. -/
theorem received_all (h : Follows w items joined cursor received) (hend : cursor = items.length) :
    received = others w (items.drop joined) := by
  rw [h.received, hend, List.take_length]

end Follows

end Machine

end Gink
