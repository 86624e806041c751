/-
  Gink.Table.Paged — reading rows a page at a time.

  A generator goes through a list of rows.  It decides of each row whether it is shown, passes
  over the first `offset` of those that are, fetches the next `limit` and stops.  `read_slice`
  says what it yields on part of the rows, forwards or backwards, when a run over all of them
  has not raised: the page of the list that the run gave.
-/
import Mathlib

namespace Gink

namespace Paged

variable {ρ α ε : Type}

/-! ## §1. Pages of a list. -/

/-- What is left of the list after `offset` elements, up to the limit if there is one. -/
def page (limit : Option Int) (offset : Int) (l : List α) : List α :=
  match limit with
  | none => l.drop offset.toNat
  | some n => (l.drop offset.toNat).take n.toNat

/-- The list, or the list backwards. -/
def inDirection (desc : Bool) (l : List α) : List α := if desc then l.reverse else l

theorem page_nil (limit : Option Int) (offset : Int) : page limit offset ([] : List α) = [] := by
  cases limit <;> simp [page]

/-- A limit that has been reached. -/
theorem page_of_reached {limit : Option Int} (h : limit.any (fun n => decide (n ≤ 0)) = true)
    (offset : Int) (l : List α) : page limit offset l = [] := by
  cases limit with
  | none => cases h
  | some n =>
      have hn : n ≤ 0 := of_decide_eq_true h
      unfold page
      simp only [Int.toNat_of_nonpos hn, List.take_zero]

/-- An element that is passed over. -/
theorem page_cons_of_pos (limit : Option Int) {offset : Int} (h : 0 < offset) (a : α)
    (l : List α) : page limit offset (a :: l) = page limit (offset - 1) l := by
  have hoffset : offset.toNat = (offset - 1).toNat + 1 := by omega
  unfold page
  rw [hoffset, List.drop_succ_cons]

/-- An element on the page. -/
theorem page_cons {limit : Option Int} (hlimit : limit.any (fun n => decide (n ≤ 0)) = false)
    {offset : Int} (h : ¬ 0 < offset) (a : α) (l : List α) :
    page limit offset (a :: l) = a :: page (limit.map (· - 1)) offset l := by
  have hoffset : offset.toNat = 0 := by omega
  unfold page
  rw [hoffset, List.drop_zero, List.drop_zero]
  cases limit with
  | none => rfl
  | some n =>
      have hn : ¬ n ≤ 0 := of_decide_eq_false hlimit
      have hsucc : n.toNat = (n - 1).toNat + 1 := by omega
      simp only [Option.map_some, hsucc, List.take_succ_cons]

/-! ## §2. The generator. -/

section
variable (shows : ρ → Except ε Bool) (fetch : ρ → Except ε α)

/-- The list that it yields, or the exception that it ends with. -/
def read : List ρ → Option Int → Int → Except ε (List α)
  | [], _, _ => .ok []
  | row :: rest, limit, offset =>
      if limit.any (fun n => decide (n ≤ 0)) then .ok []
      else
        match shows row with
        | .error e => .error e
        | .ok false => read rest limit offset
        | .ok true =>
            if offset > 0 then read rest limit (offset - 1)
            else
              match fetch row with
              | .error e => .error e
              | .ok value => (read rest (limit.map (· - 1)) offset).map (value :: ·)

/-- The row raises nothing, and gives this value or is not shown. -/
def Gives (row : ρ) : Option α → Prop
  | none => shows row = .ok false
  | some value => shows row = .ok true ∧ fetch row = .ok value

/-- What the row gives, if it raises nothing. -/
def shown (row : ρ) : Option α :=
  match shows row, fetch row with
  | .ok true, .ok value => some value
  | _, _ => none

variable {shows fetch}

/-- A limit that has been reached. -/
theorem read_of_reached {limit : Option Int} (h : limit.any (fun n => decide (n ≤ 0)) = true)
    (offset : Int) (rows : List ρ) : read shows fetch rows limit offset = .ok [] := by
  cases rows with
  | nil => rfl
  | cons row rest =>
      unfold read
      rw [if_pos h]

theorem Gives.shown {row : ρ} {given : Option α} (h : Gives shows fetch row given) :
    shown shows fetch row = given := by
  unfold Paged.shown
  cases given with
  | none =>
      have hfalse : shows row = .ok false := h
      rw [hfalse]
  | some value => rw [h.1, h.2]

theorem gives_of_shown {row : ρ} {value : α} (h : Paged.shown shows fetch row = some value) :
    shows row = .ok true ∧ fetch row = .ok value := by
  unfold Paged.shown at h
  split at h
  · rename_i hshows hfetch
    rw [← Option.some.inj h]
    exact ⟨hshows, hfetch⟩
  · cases h

/-- **What it yields** when no row raises. -/
theorem read_eq {rows : List ρ} :
    ∀ {limit : Option Int} {offset : Int}, (∀ row ∈ rows, ∃ given, Gives shows fetch row given) →
      read shows fetch rows limit offset
        = .ok (page limit offset (rows.filterMap (shown shows fetch))) := by
  induction rows with
  | nil =>
      intro limit offset _
      show Except.ok [] = .ok (page limit offset [])
      rw [page_nil]
  | cons row rest ih =>
      intro limit offset h
      have hrest : ∀ row ∈ rest, ∃ given, Gives shows fetch row given :=
        fun row hrow => h row (List.mem_cons_of_mem _ hrow)
      unfold read
      cases hlimit : limit.any (fun n => decide (n ≤ 0)) with
      | true => rw [if_pos rfl, page_of_reached hlimit]
      | false =>
          rw [if_neg Bool.false_ne_true]
          obtain ⟨given, hgiven⟩ := h row List.mem_cons_self
          have hshown := hgiven.shown
          cases given with
          | none =>
              have hfalse : shows row = .ok false := hgiven
              simp only [hfalse]
              rw [ih hrest, List.filterMap_cons_none hshown]
          | some value =>
              simp only [hgiven.1, hgiven.2]
              rw [List.filterMap_cons_some hshown]
              by_cases hoffset : 0 < offset
              · rw [if_pos hoffset, ih hrest, page_cons_of_pos limit hoffset]
              · rw [if_neg hoffset, ih hrest, page_cons hlimit hoffset]
                rfl

/-- A run over all rows that raises nothing has looked at every row. -/
theorem read_all {rows : List ρ} :
    ∀ {l : List α}, read shows fetch rows none 0 = .ok l →
      ∀ row ∈ rows, ∃ given, Gives shows fetch row given := by
  induction rows with
  | nil => exact fun _ _ h => absurd h List.not_mem_nil
  | cons first rest ih =>
      intro l h row hrow
      unfold read at h
      rw [if_neg (by simp)] at h
      cases hshows : shows first with
      | error e =>
          rw [hshows] at h
          cases h
      | ok isShown =>
          rw [hshows] at h
          cases isShown with
          | false =>
              rcases List.mem_cons.mp hrow with rfl | hrow
              · exact ⟨none, hshows⟩
              · exact ih h row hrow
          | true =>
              simp only [gt_iff_lt, lt_self_iff_false, if_false] at h
              cases hfetch : fetch first with
              | error e =>
                  rw [hfetch] at h
                  cases h
              | ok value =>
                  rw [hfetch] at h
                  rcases List.mem_cons.mp hrow with rfl | hrow
                  · exact ⟨some value, hshows, hfetch⟩
                  · cases hread : read shows fetch rest none 0 with
                    | error e =>
                        simp only [Option.map_none, hread] at h
                        cases h
                    | ok others => exact ih hread row hrow

/-- Picking rows is picking what they give, when the two are picked alike. -/
theorem filterMap_shown_filter {rows : List ρ} {p : ρ → Bool} {q : α → Bool}
    (h : ∀ row ∈ rows, ∀ value, shown shows fetch row = some value → p row = q value) :
    (rows.filter p).filterMap (shown shows fetch)
      = (rows.filterMap (shown shows fetch)).filter q := by
  rw [List.filterMap_filter, List.filter_filterMap]
  refine List.filterMap_congr fun row hrow => ?_
  cases hshown : shown shows fetch row with
  | none => simp
  | some value =>
      rw [h row hrow value hshown]
      cases hq : q value with
      | false => rw [if_neg Bool.false_ne_true, Option.filter_some, hq, if_neg Bool.false_ne_true]
      | true => rw [if_pos rfl, Option.filter_some, hq, if_pos rfl]

/-- **Slices**: from what a run over all rows yields, what a run over some of them does. -/
theorem read_slice {rows : List ρ} {l : List α} (hall : read shows fetch rows none 0 = .ok l)
    {p : ρ → Bool} {q : α → Bool}
    (h : ∀ row ∈ rows, ∀ value, shown shows fetch row = some value → p row = q value)
    (desc : Bool) (limit : Option Int) (offset : Int) :
    read shows fetch (inDirection desc (rows.filter p)) limit offset
      = .ok (page limit offset (inDirection desc (l.filter q))) := by
  have hgives := read_all hall
  have hl : l = rows.filterMap (shown shows fetch) := by
    rw [read_eq hgives] at hall
    exact (Except.ok.inj hall).symm
  have hsome : ∀ row ∈ inDirection desc (rows.filter p), ∃ given, Gives shows fetch row given := by
    intro row hrow
    have hpicked : row ∈ rows.filter p := by
      unfold inDirection at hrow
      split_ifs at hrow
      · exact List.mem_reverse.mp hrow
      · exact hrow
    exact hgives row (List.mem_filter.mp hpicked).1
  rw [read_eq hsome, hl, ← filterMap_shown_filter h]
  unfold inDirection
  split_ifs
  · rw [List.filterMap_reverse]
  · rfl

end

end Paged

end Gink
