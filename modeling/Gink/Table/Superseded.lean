/-
  Gink.Table.Superseded — tables that keep of the records written to them those that no
  other record stands in for.

  Different tables may keep different records of the same writes.  Where a read takes the
  last row that satisfies a test, and the test is passed on to what stands in for a record,
  they all read the same.
-/
import Gink.Table.Sorted

namespace Gink

namespace Table

variable {K V : Type} [LinearOrder K] {keyOf : V → K} {standsFor : V → V → Prop}
  {written : List V} {s t : Table K V}

/-- Each row is a record that was written, and each such record has a row, or another one
with a row stands in for it. -/
structure Covers (keyOf : V → K) (standsFor : V → V → Prop) (written : List V) (t : Table K V) :
    Prop where
  rows : ∀ r ∈ t.rows, r.1 = keyOf r.2 ∧ r.2 ∈ written
  kept : ∀ v ∈ written, (keyOf v, v) ∈ t.rows ∨ ∃ w, (keyOf w, w) ∈ t.rows ∧ standsFor w v

theorem covers_nil : Covers keyOf standsFor [] (∅ : Table K V) :=
  ⟨fun _ hr => absurd hr List.not_mem_nil, fun _ hv => absurd hv List.not_mem_nil⟩

/-- **A write** may drop the rows that the new record stands in for. -/
theorem Covers.write (h : Covers keyOf standsFor written s)
    (htrans : ∀ u v w, standsFor u v → standsFor v w → standsFor u w) {v : V}
    (hkept : ∀ r ∈ t.rows, r ∈ s.rows)
    (hdropped : ∀ r ∈ s.rows, r ∈ t.rows ∨ standsFor v r.2)
    (hsame : ∀ r ∈ t.rows, r.1 = keyOf v → standsFor v r.2) :
    Covers keyOf standsFor (written ++ [v]) (t.put (keyOf v) v) := by
  have hnew : (keyOf v, v) ∈ (t.put (keyOf v) v).rows := mem_rows_put.mpr (Or.inl rfl)
  have hstays : ∀ w, (keyOf w, w) ∈ s.rows →
      (keyOf w, w) ∈ (t.put (keyOf v) v).rows ∨ standsFor v w := by
    intro w hw
    rcases hdropped _ hw with hin | hstands
    · by_cases hkey : keyOf w = keyOf v
      · exact Or.inr (hsame _ hin hkey)
      · exact Or.inl (mem_rows_put.mpr (Or.inr ⟨hkey, hin⟩))
    · exact Or.inr hstands
  constructor
  · intro r hr
    rcases mem_rows_put.mp hr with rfl | ⟨-, hin⟩
    · exact ⟨rfl, List.mem_append_right _ (List.mem_singleton.mpr rfl)⟩
    · obtain ⟨hkey, hwritten⟩ := h.rows r (hkept r hin)
      exact ⟨hkey, List.mem_append_left _ hwritten⟩
  · intro w hw
    rcases List.mem_append.mp hw with hold | hlast
    · rcases h.kept w hold with hrow | ⟨x, hrow, hstands⟩
      · rcases hstays w hrow with hin | hv
        · exact Or.inl hin
        · exact Or.inr ⟨v, hnew, hv⟩
      · -- what stood in for the record may have been dropped itself
        rcases hstays x hrow with hin | hv
        · exact Or.inr ⟨x, hin, hstands⟩
        · exact Or.inr ⟨v, hnew, htrans v x w hv hstands⟩
    · rw [List.mem_singleton.mp hlast]
      exact Or.inl hnew

/-- Of two ascending lists in which every row is below some row of the other, the last rows
are the same. -/
theorem getLast?_eq_of_reach {l m : List (K × V)} (hl : l.Pairwise (fun a b => a.1 < b.1))
    (hm : m.Pairwise (fun a b => a.1 < b.1)) (hlm : ∀ a ∈ l, ∃ b ∈ m, a.1 ≤ b.1)
    (hml : ∀ b ∈ m, ∃ a ∈ l, b.1 ≤ a.1) (hsame : ∀ a ∈ l, ∀ b ∈ m, a.1 = b.1 → a = b) :
    l.getLast? = m.getLast? := by
  cases hlast : l.getLast? with
  | none =>
      have hnil := List.getLast?_eq_none_iff.mp hlast
      subst hnil
      symm
      rw [List.getLast?_eq_none_iff, List.eq_nil_iff_forall_not_mem]
      intro b hb
      obtain ⟨a, ha, -⟩ := hml b hb
      exact absurd ha List.not_mem_nil
  | some a =>
      have ha := List.mem_of_getLast? hlast
      obtain ⟨b, hb, hab⟩ := hlm a ha
      obtain ⟨b', hlast'⟩ : ∃ b', m.getLast? = some b' :=
        Option.isSome_iff_exists.mp (List.getLast?_isSome.mpr (List.ne_nil_of_mem hb))
      have hb' := List.mem_of_getLast? hlast'
      obtain ⟨a', ha', hba'⟩ := hml b' hb'
      have hle : a.1 ≤ b'.1 := hab.trans (le_getLast?_of_mem hm hlast' hb)
      have hge : b'.1 ≤ a.1 := hba'.trans (le_getLast?_of_mem hl hlast ha')
      rw [hlast', hsame a ha b' hb' (le_antisymm hle hge)]

/-- The test holds of a record's row when it holds of one that the record stands in for. -/
def PassedOn (keyOf : V → K) (standsFor : V → V → Prop) (written : List V) (p : K × V → Bool) :
    Prop :=
  ∀ v ∈ written, ∀ w ∈ written, standsFor w v → p (keyOf v, v) = true → p (keyOf w, w) = true

/-- A row that satisfies the test has one at or above it in another table. -/
theorem Covers.reach (hs : Covers keyOf standsFor written s) (ht : Covers keyOf standsFor written t)
    (hup : ∀ v ∈ written, ∀ w ∈ written, standsFor w v → keyOf v ≤ keyOf w) {p : K × V → Bool}
    (hp : PassedOn keyOf standsFor written p) :
    ∀ a ∈ s.rows.filter p, ∃ b ∈ t.rows.filter p, a.1 ≤ b.1 := by
  intro a ha
  obtain ⟨hrow, htest⟩ := List.mem_filter.mp ha
  obtain ⟨hkey, hwritten⟩ := hs.rows a hrow
  obtain ⟨k, v⟩ := a
  have hkey : k = keyOf v := hkey
  subst hkey
  rcases ht.kept v hwritten with hin | ⟨w, hin, hstands⟩
  · exact ⟨(keyOf v, v), List.mem_filter.mpr ⟨hin, htest⟩, le_refl _⟩
  · have hw := (ht.rows _ hin).2
    exact ⟨(keyOf w, w), List.mem_filter.mpr ⟨hin, hp v hwritten w hw hstands htest⟩,
      hup v hwritten w hw hstands⟩

/-- **The last row that satisfies a test** is the same in all tables that cover the writes. -/
theorem Covers.last_eq (hs : Covers keyOf standsFor written s)
    (ht : Covers keyOf standsFor written t)
    (hup : ∀ v ∈ written, ∀ w ∈ written, standsFor w v → keyOf v ≤ keyOf w)
    (hinj : ∀ v ∈ written, ∀ w ∈ written, keyOf v = keyOf w → v = w) {p : K × V → Bool}
    (hp : PassedOn keyOf standsFor written p) :
    (s.rows.filter p).getLast? = (t.rows.filter p).getLast? := by
  refine getLast?_eq_of_reach (s.sorted.filter p) (t.sorted.filter p) (hs.reach ht hup hp)
    (ht.reach hs hup hp) ?_
  intro a ha b hb hkey
  obtain ⟨hakey, hawritten⟩ := hs.rows a (List.mem_filter.mp ha).1
  obtain ⟨hbkey, hbwritten⟩ := ht.rows b (List.mem_filter.mp hb).1
  exact Prod.ext hkey (hinj a.2 hawritten b.2 hbwritten (by rw [← hakey, ← hbkey, hkey]))

/-- Where a row fails a test that is passed on from those that fail it, rows fail it in all. -/
theorem Covers.exists_of_exists (hs : Covers keyOf standsFor written s)
    (ht : Covers keyOf standsFor written t) {p : K × V → Bool}
    (hp : PassedOn keyOf standsFor written p) (h : ∃ r ∈ s.rows, p r = true) :
    ∃ r ∈ t.rows, p r = true := by
  obtain ⟨⟨k, v⟩, hrow, htest⟩ := h
  obtain ⟨hkey, hwritten⟩ := hs.rows _ hrow
  have hkey : k = keyOf v := hkey
  subst hkey
  rcases ht.kept v hwritten with hin | ⟨w, hin, hstands⟩
  · exact ⟨_, hin, htest⟩
  · exact ⟨_, hin, hp v hwritten w (ht.rows _ hin).2 hstands htest⟩

end Table

end Gink
