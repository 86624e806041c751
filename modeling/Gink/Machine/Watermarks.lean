/-
  Gink.Machine.Watermarks — copying growing lists over links that keep order.

  A list grows at its end, by items that name the time of the item before, and whoever has a list
  through some time has all of it up to there.  The sender on a link keeps the times through which
  the receiver will have each list once what is under way has arrived.  Nothing here depends on
  what the items are.

  Main results:
    * `Feeds.greet`, `Feeds.offer`, `Feeds.deliver`, `Feeds.grow`, `Feeds.hear` — what the two
      ends do keeps the link feeding the receiver item after item.
    * `Feeds.reaches` — what the receiver is taken to have it has, or it is under way.
-/
import Mathlib

namespace Gink

namespace Machine

variable {ι : Type} [DecidableEq ι]

/-! ## §1. Times. -/

/-- An item of a list: its time, and that of the item before it. -/
structure Item (ι : Type) where
  list : ι
  previous : ℕ
  time : ℕ

/-- The times through which the lists are had, after the item was taken in. -/
def taking (had : ι → ℕ) (x : Item ι) : ι → ℕ :=
  Function.update had x.list (max (had x.list) x.time)

/-- And after all of these were. -/
def through : (ι → ℕ) → List (Item ι) → ι → ℕ
  | had, [] => had
  | had, x :: rest => through (taking had x) rest

/-- Taken in one after the other, each of the items finds the one before it. -/
def Flows : (ι → ℕ) → List (Item ι) → Prop
  | _, [] => True
  | had, x :: rest => x.previous ≤ had x.list ∧ Flows (taking had x) rest

variable {had had' : ι → ℕ} {x : Item ι} {l : List (Item ι)}

theorem le_taking (had : ι → ℕ) (x : Item ι) : had ≤ taking had x := by
  intro i
  unfold taking
  by_cases hi : i = x.list
  · subst hi
    rw [Function.update_self]
    exact le_max_left _ _
  · rw [Function.update_of_ne hi]

theorem time_le_taking (had : ι → ℕ) (x : Item ι) : x.time ≤ taking had x x.list := by
  unfold taking
  rw [Function.update_self]
  exact le_max_right _ _

/-- Having the item already, one gains nothing from it. -/
theorem taking_eq_self (h : x.time ≤ had x.list) : taking had x = had := by
  unfold taking
  rw [max_eq_left h, Function.update_eq_self]

theorem taking_le (h : had ≤ had') (hx : x.time ≤ had' x.list) : taking had x ≤ had' := by
  intro i
  unfold taking
  by_cases hi : i = x.list
  · subst hi
    rw [Function.update_self]
    exact max_le (h x.list) hx
  · rw [Function.update_of_ne hi]
    exact h i

theorem taking_mono (h : had ≤ had') : taking had x ≤ taking had' x :=
  taking_le (h.trans (le_taking _ _)) (time_le_taking _ _)

theorem le_through (had : ι → ℕ) (l : List (Item ι)) : had ≤ through had l := by
  induction l generalizing had with
  | nil => exact le_refl had
  | cons x rest ih => exact (le_taking had x).trans (ih (taking had x))

theorem through_mono (h : had ≤ had') : through had l ≤ through had' l := by
  induction l generalizing had had' with
  | nil => exact h
  | cons x rest ih => exact ih (taking_mono h)

theorem through_concat : through had (l ++ [x]) = taking (through had l) x := by
  induction l generalizing had with
  | nil => rfl
  | cons y rest ih => exact ih

theorem Flows.mono (hl : Flows had l) (h : had ≤ had') : Flows had' l := by
  induction l generalizing had had' with
  | nil => trivial
  | cons x rest ih => exact ⟨hl.1.trans (h x.list), ih hl.2 (taking_mono h)⟩

theorem Flows.concat (hl : Flows had l) (hx : x.previous ≤ through had l x.list) :
    Flows had (l ++ [x]) := by
  induction l generalizing had with
  | nil => exact ⟨hx, trivial⟩
  | cons y rest ih => exact ⟨hl.1, ih hl.2 hx⟩

/-- Whatever time is reached once all is taken in was reached before, or one of the items spans
it. -/
theorem Flows.spans (hl : Flows had l) {i : ι} {t : ℕ} (ht : t ≤ through had l i) :
    t ≤ had i ∨ ∃ x ∈ l, x.list = i ∧ x.previous < t ∧ t ≤ x.time := by
  induction l generalizing had with
  | nil => exact Or.inl ht
  | cons x rest ih =>
      rcases ih hl.2 ht with hreached | ⟨y, hy, hspans⟩
      · by_cases hhad : t ≤ had i
        · exact Or.inl hhad
        -- the first item is what reaches it
        · have hi : i = x.list := by
            by_contra hne
            unfold taking at hreached
            rw [Function.update_of_ne hne] at hreached
            exact hhad hreached
          subst hi
          have hfollows := hl.1
          unfold taking at hreached
          rw [Function.update_self] at hreached
          exact Or.inr ⟨x, List.mem_cons_self, rfl, by omega, by omega⟩
      · exact Or.inr ⟨y, List.mem_cons_of_mem _ hy, hspans⟩

/-! ## §2. One direction of a link. -/

/-- What goes out when the item is offered to a receiver that is known to have this much. -/
def offering (known : Option (ι → ℕ)) (x : Item ι) : List (Item ι) :=
  if known.any (fun k => decide (k x.list < x.time)) then [x] else []

/-- **The link feeds the receiver**, which has the lists through `had`: what is under way follows
on what it has, what it is taken to have it will have, and what was sent it is taken to have;
nothing was sent twice. -/
structure Feeds (had : ι → ℕ) (known : Option (ι → ℕ)) (flight sent : List (Item ι)) : Prop where
  suffix : flight <:+ sent
  flows : Flows had flight
  bounded : ∀ k, known = some k → k ≤ through had flight
  marked : ∀ x ∈ sent, ∃ k, known = some k ∧ x.time ≤ k x.list
  once : sent.Pairwise fun x y => x.list = y.list → x.time < y.time

variable {known : Option (ι → ℕ)} {flight sent : List (Item ι)}

/-- Nothing was sent to a receiver one knows nothing of. -/
theorem Feeds.sent_eq_nil (h : Feeds had none flight sent) : sent = [] := by
  cases sent with
  | nil => rfl
  | cons y rest =>
      obtain ⟨k, hk, -⟩ := h.marked y List.mem_cons_self
      cases hk

theorem Feeds.nothing (had : ι → ℕ) (known : Option (ι → ℕ)) (h : ∀ k, known = some k → k ≤ had) :
    Feeds had known [] [] where
  suffix := List.suffix_refl []
  flows := trivial
  bounded := h
  marked := fun _ hx => absurd hx List.not_mem_nil
  once := List.Pairwise.nil

/-- **The receiver says** what it has. -/
theorem Feeds.greet {k : ι → ℕ} (h : Feeds had none flight sent) (hk : k ≤ had) :
    Feeds had (some k) flight sent := by
  have hsent := h.sent_eq_nil
  have hflight : flight = [] := List.suffix_nil.mp (hsent ▸ h.suffix)
  rw [hsent, hflight]
  refine Feeds.nothing had (some k) ?_
  intro k' hk'
  rw [← Option.some.inj hk']
  exact hk

/-- **An item is offered**: it goes out if the receiver is not known to have it. -/
theorem Feeds.offer (h : Feeds had known flight sent)
    (hx : ∀ k, known = some k → k x.list < x.time → x.previous ≤ k x.list) :
    Feeds had (known.map (taking · x)) (flight ++ offering known x) (sent ++ offering known x) := by
  cases known with
  | none => simpa [offering] using h
  | some k =>
      by_cases hlacks : k x.list < x.time
      · have hout : offering (some k) x = [x] := by simp [offering, hlacks]
        have hle := h.bounded k rfl
        rw [hout]
        refine ⟨?_, h.flows.concat ((hx k rfl hlacks).trans (hle x.list)), ?_, ?_, ?_⟩
        · obtain ⟨taken, hsent⟩ := h.suffix
          exact ⟨taken, by rw [← List.append_assoc, hsent]⟩
        · intro k' hk'
          rw [← Option.some.inj hk', through_concat]
          exact taking_mono hle
        · intro y hy
          refine ⟨taking k x, rfl, ?_⟩
          rcases List.mem_append.mp hy with hy | hy
          · obtain ⟨k', hk', hle'⟩ := h.marked y hy
            rw [← Option.some.inj hk'] at hle'
            exact hle'.trans (le_taking k x y.list)
          · rw [List.mem_singleton.mp hy]
            exact time_le_taking k x
        · refine List.pairwise_append.mpr ⟨h.once, List.pairwise_singleton _ _, ?_⟩
          intro y hy z hz hsame
          rw [List.mem_singleton.mp hz] at hsame ⊢
          obtain ⟨k', hk', hle'⟩ := h.marked y hy
          rw [← Option.some.inj hk', hsame] at hle'
          exact lt_of_le_of_lt hle' hlacks
      · have hout : offering (some k) x = [] := by simp [offering, hlacks]
        rw [hout, List.append_nil, List.append_nil, Option.map_some,
          taking_eq_self (not_lt.mp hlacks)]
        exact h

/-- **The first item under way arrives**: the receiver has the item before it. -/
theorem Feeds.deliver (h : Feeds had known (x :: flight) sent) :
    x.previous ≤ had x.list ∧ Feeds (taking had x) known flight sent :=
  ⟨h.flows.1, (List.suffix_cons x flight).trans h.suffix, h.flows.2, h.bounded, h.marked, h.once⟩

/-- The receiver gets on by other ways. -/
theorem Feeds.grow (h : Feeds had known flight sent) (hle : had ≤ had') :
    Feeds had' known flight sent :=
  ⟨h.suffix, h.flows.mono hle, fun k hk => (h.bounded k hk).trans (through_mono hle), h.marked, h.once⟩

/-- The sender learns that the receiver has an item. -/
theorem Feeds.hear (h : Feeds had known flight sent) (hx : x.time ≤ had x.list) :
    Feeds had (known.map (taking · x)) flight sent := by
  refine ⟨h.suffix, h.flows, ?_, ?_, h.once⟩
  · intro k' hk'
    obtain ⟨k, hk, rfl⟩ := Option.map_eq_some_iff.mp hk'
    exact taking_le (h.bounded k hk) (hx.trans (le_through had flight x.list))
  · intro y hy
    obtain ⟨k, hk, hle⟩ := h.marked y hy
    exact ⟨taking k x, by rw [hk]; rfl, hle.trans (le_taking k x y.list)⟩

/-- **What the receiver is taken to have** it has, or an item under way spans it. -/
theorem Feeds.reaches {k : ι → ℕ} (h : Feeds had (some k) flight sent) {i : ι} {t : ℕ}
    (ht : t ≤ k i) : t ≤ had i ∨ ∃ x ∈ flight, x.list = i ∧ x.previous < t ∧ t ≤ x.time :=
  h.flows.spans (ht.trans (h.bounded k rfl i))

end Machine

end Gink
