/-
  Gink.Table.Sorted — finite tables kept in ascending key order.

  Both stores keep their data in ordered maps: LMDB named databases (keys are
  byte strings) and sorted dictionaries.  This module is the part of that theory
  that does not depend on what is stored: a table is its list of rows in strictly
  ascending key order, so two tables with the same lookups are EQUAL, and every
  "last row such that" query has one answer.

  Nothing here mentions bundles, entries or containers.
-/
import Mathlib

namespace Gink

/-- A finite map whose rows are listed in strictly ascending key order. -/
structure Table (K V : Type) [LinearOrder K] where
  rows : List (K × V)
  sorted : rows.Pairwise (fun a b => a.1 < b.1)

namespace Table

variable {K V : Type} [LinearOrder K]

/-! ## §1. Operations. -/

/-- The table with no rows. -/
def empty : Table K V := ⟨[], List.Pairwise.nil⟩

instance : EmptyCollection (Table K V) := ⟨empty⟩

instance : Inhabited (Table K V) := ⟨empty⟩

/-- Put a row where its key belongs, replacing the row that had the key. -/
def insertRow (k : K) (v : V) : List (K × V) → List (K × V)
  | [] => [(k, v)]
  | r :: rest =>
      if k < r.1 then (k, v) :: r :: rest
      else if k = r.1 then (k, v) :: rest
      else r :: insertRow k v rest

theorem mem_insertRow {k : K} {v : V} {x : K × V} {l : List (K × V)}
    (h : x ∈ insertRow k v l) : x = (k, v) ∨ x ∈ l := by
  induction l with
  | nil => simpa [insertRow] using h
  | cons r rest ih =>
      simp only [insertRow] at h
      split_ifs at h with h1 h2
      · simpa using h
      · rcases List.mem_cons.mp h with h | h
        · exact Or.inl h
        · exact Or.inr (List.mem_cons_of_mem _ h)
      · rcases List.mem_cons.mp h with h | h
        · exact Or.inr (h ▸ List.mem_cons_self)
        · exact (ih h).imp id (List.mem_cons_of_mem _)

theorem insertRow_sorted (k : K) (v : V) {l : List (K × V)}
    (hl : l.Pairwise (fun a b => a.1 < b.1)) :
    (insertRow k v l).Pairwise (fun a b => a.1 < b.1) := by
  induction l with
  | nil => simp [insertRow]
  | cons r rest ih =>
      obtain ⟨hr, hrest⟩ := List.pairwise_cons.mp hl
      simp only [insertRow]
      split_ifs with h1 h2
      · refine List.pairwise_cons.mpr ⟨?_, hl⟩
        intro x hx
        rcases List.mem_cons.mp hx with hx | hx
        · exact hx ▸ h1
        · exact h1.trans (hr x hx)
      · subst h2
        exact List.pairwise_cons.mpr ⟨hr, hrest⟩
      · refine List.pairwise_cons.mpr ⟨?_, ih hrest⟩
        intro x hx
        rcases mem_insertRow hx with hx | hx
        · subst hx
          exact lt_of_le_of_ne (not_lt.mp h1) (Ne.symm h2)
        · exact hr x hx

/-- `table[k] = v`. -/
def put (t : Table K V) (k : K) (v : V) : Table K V :=
  ⟨insertRow k v t.rows, insertRow_sorted k v t.sorted⟩

/-- Remove the row with key `k`, if there is one. -/
def erase (t : Table K V) (k : K) : Table K V :=
  ⟨t.rows.filter (fun r => decide (r.1 ≠ k)), t.sorted.filter _⟩

/-- The rows whose key satisfies `p`, in order. -/
def rowsWhere (t : Table K V) (p : K → Bool) : List (K × V) :=
  t.rows.filter (fun r => p r.1)

/-- Remove every row whose key satisfies `p`. -/
def eraseWhere (t : Table K V) (p : K → Bool) : Table K V :=
  ⟨t.rows.filter (fun r => !p r.1), t.sorted.filter _⟩

/-- `table.get(k)`. -/
def get? (t : Table K V) (k : K) : Option V :=
  (t.rows.find? (fun r => decide (r.1 = k))).map Prod.snd

/-- The last row whose key satisfies `p`. -/
def lastWhere (t : Table K V) (p : K → Bool) : Option (K × V) :=
  (t.rowsWhere p).getLast?

/-! ## §2. Rows and lookups say the same. -/

theorem eq_of_sorted_of_mem {k : K} {v w : V} :
    ∀ {l : List (K × V)}, l.Pairwise (fun a b => a.1 < b.1) →
      (k, v) ∈ l → (k, w) ∈ l → v = w
  | r :: rest, hl, hv, hw => by
      obtain ⟨hr, hrest⟩ := List.pairwise_cons.mp hl
      rcases List.mem_cons.mp hv with hv' | hv' <;> rcases List.mem_cons.mp hw with hw' | hw'
      · exact congrArg Prod.snd (hv'.trans hw'.symm)
      · have hlt := hr (k, w) hw'
        rw [← hv'] at hlt
        exact absurd hlt (lt_irrefl k)
      · have hlt := hr (k, v) hv'
        rw [← hw'] at hlt
        exact absurd hlt (lt_irrefl k)
      · exact eq_of_sorted_of_mem hrest hv' hw'

/-- Rows with one key are one row. -/
theorem eq_of_mem_of_mem {t : Table K V} {k : K} {v w : V}
    (hv : (k, v) ∈ t.rows) (hw : (k, w) ∈ t.rows) : v = w :=
  eq_of_sorted_of_mem t.sorted hv hw

theorem get?_eq_some_iff {t : Table K V} {k : K} {v : V} :
    t.get? k = some v ↔ (k, v) ∈ t.rows := by
  constructor
  · intro h
    obtain ⟨r, hr, rfl⟩ := Option.map_eq_some_iff.mp h
    have hmem := List.mem_of_find?_eq_some hr
    have hkey : r.1 = k := by simpa using List.find?_some hr
    exact hkey ▸ hmem
  · intro h
    cases hf : t.rows.find? (fun r => decide (r.1 = k)) with
    | none =>
        have := List.find?_eq_none.mp hf (k, v) h
        simp at this
    | some r =>
        have hmem := List.mem_of_find?_eq_some hf
        have hkey : r.1 = k := by simpa using List.find?_some hf
        have hr : (k, r.2) ∈ t.rows := hkey ▸ hmem
        simp [get?, hf, eq_of_mem_of_mem hr h]

theorem get?_eq_none_iff {t : Table K V} {k : K} :
    t.get? k = none ↔ ∀ r ∈ t.rows, r.1 ≠ k := by
  simp [get?, List.find?_eq_none]

/-- **Extensionality**: the order leaves no freedom, so lookups decide the table. -/
theorem ext_get? {s t : Table K V} (h : ∀ k, s.get? k = t.get? k) : s = t := by
  have hmem : ∀ x, x ∈ s.rows ↔ x ∈ t.rows := by
    rintro ⟨k, v⟩
    rw [← get?_eq_some_iff, ← get?_eq_some_iff, h k]
  have key : ∀ {l m : List (K × V)}, l.Pairwise (fun a b => a.1 < b.1) →
      m.Pairwise (fun a b => a.1 < b.1) → (∀ x, x ∈ l ↔ x ∈ m) → l = m := by
    intro l m hl hm hlm
    refine List.Perm.eq_of_pairwise (fun a b _ _ hab hba => absurd hab (not_lt.mpr hba.le))
      hl hm ?_
    exact (List.perm_ext_iff_of_nodup (hl.imp (fun h => ne_of_apply_ne Prod.fst h.ne))
      (hm.imp (fun h => ne_of_apply_ne Prod.fst h.ne))).mpr hlm
  cases s; cases t
  simp only [Table.mk.injEq]
  exact key ‹_› ‹_› hmem

@[simp] theorem get?_empty (k : K) : (∅ : Table K V).get? k = none := rfl

@[simp] theorem rows_empty : (∅ : Table K V).rows = [] := rfl

/-! ## §3. Lookups after an update. -/

theorem find?_insertRow (k k' : K) (v : V) (l : List (K × V)) :
    ((insertRow k v l).find? (fun r => decide (r.1 = k'))).map Prod.snd
      = if k' = k then some v
        else (l.find? (fun r => decide (r.1 = k'))).map Prod.snd := by
  induction l with
  | nil => by_cases h : k = k' <;> simp [insertRow, h, eq_comm]
  | cons r rest ih =>
      by_cases h1 : k < r.1
      · by_cases h : k' = k
        · simp [insertRow, h1, h]
        · simp [insertRow, h1, h, Ne.symm h]
      · by_cases h2 : k = r.1
        · subst h2
          by_cases h : k' = r.1
          · simp [insertRow, h]
          · simp [insertRow, h, Ne.symm h]
        · simp only [insertRow, if_neg h1, if_neg h2]
          by_cases h4 : r.1 = k'
          · subst h4
            simp [Ne.symm h2]
          · rw [List.find?_cons_of_neg (by simpa using h4),
              List.find?_cons_of_neg (by simpa using h4), ih]

theorem get?_put (t : Table K V) (k k' : K) (v : V) :
    (t.put k v).get? k' = if k' = k then some v else t.get? k' :=
  find?_insertRow k k' v t.rows

@[simp] theorem get?_put_self (t : Table K V) (k : K) (v : V) :
    (t.put k v).get? k = some v := by
  rw [get?_put, if_pos rfl]

theorem get?_put_of_ne (t : Table K V) {k k' : K} (v : V) (h : k' ≠ k) :
    (t.put k v).get? k' = t.get? k' := by
  rw [get?_put, if_neg h]

theorem get?_eraseWhere (t : Table K V) (p : K → Bool) (k : K) :
    (t.eraseWhere p).get? k = if p k then none else t.get? k := by
  split_ifs with h
  · refine get?_eq_none_iff.mpr fun r hr hk => ?_
    have := (List.mem_filter.mp hr).2
    rw [hk, h] at this
    simp at this
  · cases hv : t.get? k with
    | none =>
        refine get?_eq_none_iff.mpr fun r hr => ?_
        exact get?_eq_none_iff.mp hv r (List.mem_filter.mp hr).1
    | some v =>
        refine get?_eq_some_iff.mpr (List.mem_filter.mpr ⟨get?_eq_some_iff.mp hv, ?_⟩)
        simpa using h

theorem erase_eq_eraseWhere (t : Table K V) (k : K) :
    t.erase k = t.eraseWhere (fun k' => decide (k' = k)) := by
  simp only [erase, eraseWhere, Table.mk.injEq]
  exact List.filter_congr fun r _ => by simp

theorem get?_erase (t : Table K V) (k k' : K) :
    (t.erase k).get? k' = if k' = k then none else t.get? k' := by
  rw [erase_eq_eraseWhere, get?_eraseWhere]
  simp

/-- Putting a row that is there changes nothing. -/
theorem put_eq_self {t : Table K V} {k : K} {v : V} (h : t.get? k = some v) : t.put k v = t := by
  refine ext_get? fun q => ?_
  rw [get?_put]
  split_ifs with hq
  · rw [hq, h]
  · rfl

/-- Rows present after a `put`. -/
theorem mem_rows_put {t : Table K V} {k : K} {v : V} {r : K × V} :
    r ∈ (t.put k v).rows ↔ r = (k, v) ∨ (r.1 ≠ k ∧ r ∈ t.rows) := by
  obtain ⟨k', w⟩ := r
  rw [← get?_eq_some_iff, get?_put]
  split_ifs with h
  · subst h
    simp [eq_comm]
  · simp [h, get?_eq_some_iff]

/-- Putting rows with different keys commutes. -/
theorem put_comm (t : Table K V) {k k' : K} (v v' : V) (h : k ≠ k') :
    (t.put k v).put k' v' = (t.put k' v').put k v := by
  refine ext_get? fun q => ?_
  simp only [get?_put]
  by_cases h1 : q = k <;> by_cases h2 : q = k' <;> simp_all

/-! ## §4. The last row such that. -/

theorem mem_rowsWhere {t : Table K V} {p : K → Bool} {r : K × V} :
    r ∈ t.rowsWhere p ↔ r ∈ t.rows ∧ p r.1 = true := List.mem_filter

theorem rowsWhere_sorted (t : Table K V) (p : K → Bool) :
    (t.rowsWhere p).Pairwise (fun a b => a.1 < b.1) := t.sorted.filter _

/-- In an ascending list the last row bounds every row. -/
theorem le_getLast?_of_mem {l : List (K × V)} (hl : l.Pairwise (fun a b => a.1 < b.1))
    {r x : K × V} (hr : l.getLast? = some r) (hx : x ∈ l) : x.1 ≤ r.1 := by
  obtain ⟨l', rfl⟩ := List.getLast?_eq_some_iff.mp hr
  rcases List.mem_append.mp hx with h | h
  · exact ((List.pairwise_append.mp hl).2.2 x h r (by simp)).le
  · exact (List.mem_singleton.mp h ▸ le_refl _)

/-- **The meaning of `lastWhere`**: the greatest key that satisfies `p`. -/
theorem lastWhere_eq_some_iff {t : Table K V} {p : K → Bool} {r : K × V} :
    t.lastWhere p = some r
      ↔ r ∈ t.rows ∧ p r.1 = true ∧ ∀ x ∈ t.rows, p x.1 = true → x.1 ≤ r.1 := by
  constructor
  · intro h
    have hmem := mem_rowsWhere.mp (List.mem_of_getLast? h)
    exact ⟨hmem.1, hmem.2, fun x hx hpx =>
      le_getLast?_of_mem (t.rowsWhere_sorted p) h (mem_rowsWhere.mpr ⟨hx, hpx⟩)⟩
  · rintro ⟨hr, hp, hmax⟩
    cases h : t.lastWhere p with
    | none =>
        have := List.getLast?_eq_none_iff.mp h
        have hmem : r ∈ t.rowsWhere p := mem_rowsWhere.mpr ⟨hr, hp⟩
        rw [this] at hmem
        simp at hmem
    | some r' =>
        have hmem := mem_rowsWhere.mp (List.mem_of_getLast? h)
        have h1 := hmax r' hmem.1 hmem.2
        have h2 := le_getLast?_of_mem (t.rowsWhere_sorted p) h (mem_rowsWhere.mpr ⟨hr, hp⟩)
        obtain ⟨k, v⟩ := r
        obtain ⟨k', v'⟩ := r'
        obtain rfl : k' = k := le_antisymm h1 h2
        rw [eq_of_mem_of_mem hmem.1 hr]

theorem lastWhere_eq_none_iff {t : Table K V} {p : K → Bool} :
    t.lastWhere p = none ↔ ∀ x ∈ t.rows, p x.1 = false := by
  simp [lastWhere, rowsWhere]

/-- Only the rows that satisfy `p` matter to `lastWhere p`. -/
theorem lastWhere_congr {s t : Table K V} {p q : K → Bool}
    (h : ∀ r, (r ∈ s.rows ∧ p r.1 = true) ↔ (r ∈ t.rows ∧ q r.1 = true)) :
    s.lastWhere p = t.lastWhere q := by
  cases hs : s.lastWhere p with
  | none =>
      symm
      rw [lastWhere_eq_none_iff]
      intro x hx
      by_contra hq
      have := (h x).mpr ⟨hx, by simpa using hq⟩
      simp [lastWhere_eq_none_iff.mp hs x this.1] at this
  | some r =>
      symm
      obtain ⟨hr, hp, hmax⟩ := lastWhere_eq_some_iff.mp hs
      have hr' := (h r).mp ⟨hr, hp⟩
      refine lastWhere_eq_some_iff.mpr ⟨hr'.1, hr'.2, fun x hx hqx => ?_⟩
      have hx' := (h x).mpr ⟨hx, hqx⟩
      exact hmax x hx'.1 hx'.2

/-- Two ascending lists with the same rows are the same list. -/
theorem eq_of_sorted_of_mem_iff {l m : List (K × V)} (hl : l.Pairwise (fun a b => a.1 < b.1))
    (hm : m.Pairwise (fun a b => a.1 < b.1)) (h : ∀ r, r ∈ l ↔ r ∈ m) : l = m := by
  refine List.Perm.eq_of_pairwise (fun a b _ _ hab hba => absurd hab (not_lt.mpr hba.le)) hl hm ?_
  exact (List.perm_ext_iff_of_nodup (hl.imp (fun h => ne_of_apply_ne Prod.fst h.ne))
    (hm.imp (fun h => ne_of_apply_ne Prod.fst h.ne))).mpr h

/-- Tables with the same rows are the same table. -/
theorem ext_rows {s t : Table K V} (h : ∀ r, r ∈ s.rows ↔ r ∈ t.rows) : s = t := by
  have hrows := eq_of_sorted_of_mem_iff s.sorted t.sorted h
  cases s
  cases t
  simpa using hrows

/-- A key after all others goes to the end. -/
theorem rows_put_of_last (t : Table K V) {k : K} (v : V) (h : ∀ r ∈ t.rows, r.1 < k) :
    (t.put k v).rows = t.rows ++ [(k, v)] := by
  refine eq_of_sorted_of_mem_iff (t.put k v).sorted ?_ ?_
  · refine List.pairwise_append.mpr ⟨t.sorted, List.pairwise_singleton _ _, ?_⟩
    intro r hr x hx
    rw [List.mem_singleton.mp hx]
    exact h r hr
  · intro r
    rw [mem_rows_put, List.mem_append, List.mem_singleton]
    constructor
    · rintro (rfl | ⟨-, hr⟩)
      · exact Or.inr rfl
      · exact Or.inl hr
    · rintro (hr | rfl)
      · exact Or.inr ⟨(h r hr).ne, hr⟩
      · exact Or.inl rfl

/-! ## §5. Selecting rows of an updated table. -/

/-- A row the selection does not take leaves it as it was. -/
theorem filter_put_of_false (t : Table K V) {k : K} {v : V} {p : K × V → Bool}
    (hnew : p (k, v) = false) (hold : ∀ w, (k, w) ∈ t.rows → p (k, w) = false) :
    (t.put k v).rows.filter p = t.rows.filter p := by
  refine eq_of_sorted_of_mem_iff ((t.put k v).sorted.filter _) (t.sorted.filter _) ?_
  intro r
  simp only [List.mem_filter, mem_rows_put]
  constructor
  · rintro ⟨rfl | ⟨-, hr⟩, hp⟩
    · rw [hnew] at hp
      exact absurd hp (by simp)
    · exact ⟨hr, hp⟩
  · rintro ⟨hr, hp⟩
    refine ⟨Or.inr ⟨?_, hr⟩, hp⟩
    intro hk
    obtain ⟨k', w⟩ := r
    obtain rfl : k' = k := hk
    rw [hold w hr] at hp
    exact absurd hp (by simp)

/-- A selected row past all selected rows goes to the end of the selection. -/
theorem filter_put_of_last (t : Table K V) {k : K} {v : V} {p : K × V → Bool}
    (hnew : p (k, v) = true) (hlast : ∀ r ∈ t.rows, p r = true → r.1 < k) :
    (t.put k v).rows.filter p = t.rows.filter p ++ [(k, v)] := by
  refine eq_of_sorted_of_mem_iff ((t.put k v).sorted.filter _) ?_ ?_
  · refine List.pairwise_append.mpr ⟨t.sorted.filter _, List.pairwise_singleton _ _, ?_⟩
    intro r hr x hx
    obtain rfl := List.mem_singleton.mp hx
    exact hlast r (List.mem_filter.mp hr).1 (List.mem_filter.mp hr).2
  · intro r
    simp only [List.mem_append, List.mem_filter, List.mem_singleton, mem_rows_put]
    constructor
    · rintro ⟨rfl | ⟨-, hr⟩, hp⟩
      · exact Or.inr rfl
      · exact Or.inl ⟨hr, hp⟩
    · rintro (⟨hr, hp⟩ | rfl)
      · exact ⟨Or.inr ⟨(hlast r hr hp).ne, hr⟩, hp⟩
      · exact ⟨Or.inl rfl, hnew⟩

/-! ## §6. Tables that are only added to. -/

/-- Put rows one after the other. -/
def putAll (t : Table K V) (l : List (K × V)) : Table K V :=
  l.foldl (fun t r => t.put r.1 r.2) t

@[simp] theorem putAll_nil (t : Table K V) : t.putAll [] = t := rfl

@[simp] theorem putAll_singleton (t : Table K V) (r : K × V) : t.putAll [r] = t.put r.1 r.2 := rfl

theorem putAll_append (t : Table K V) (l m : List (K × V)) :
    t.putAll (l ++ m) = (t.putAll l).putAll m := List.foldl_append

theorem putAll_filterMap_cons {α : Type} (t : Table K V) (f : α → Option (K × V)) (a : α)
    (l : List α) : t.putAll ((a :: l).filterMap f)
      = (t.putAll (f a).toList).putAll (l.filterMap f) := by
  rw [List.filterMap_cons]
  cases f a <;> rfl

/-- **Lookup after putting rows** whose keys determine them: the rows are there, and
nothing else has changed. -/
theorem get?_putAll (t : Table K V) {l : List (K × V)}
    (hfun : ∀ x ∈ l, ∀ y ∈ l, x.1 = y.1 → x.2 = y.2) (k : K) (v : V) :
    (t.putAll l).get? k = some v ↔ (k, v) ∈ l ∨ (t.get? k = some v ∧ ∀ x ∈ l, x.1 ≠ k) := by
  induction l using List.reverseRecOn with
  | nil => simp
  | append_singleton l r ih =>
      have hfun' : ∀ x ∈ l, ∀ y ∈ l, x.1 = y.1 → x.2 = y.2 := by
        intro x hx y hy
        exact hfun x (List.mem_append_left _ hx) y (List.mem_append_left _ hy)
      rw [putAll_append, putAll_singleton, get?_put]
      split_ifs with hk
      · subst hk
        constructor
        · intro h
          injection h with h
          exact Or.inl (List.mem_append_right _ (by simp [← h]))
        · rintro (h | ⟨-, hne⟩)
          · have := hfun _ h r (List.mem_append_right _ (by simp)) rfl
            rw [← this]
          · exact absurd rfl (hne r (List.mem_append_right _ (by simp)))
      · rw [ih hfun']
        constructor
        · rintro (h | ⟨h, hne⟩)
          · exact Or.inl (List.mem_append_left _ h)
          · refine Or.inr ⟨h, ?_⟩
            intro x hx
            rcases List.mem_append.mp hx with hx | hx
            · exact hne x hx
            · rw [List.mem_singleton.mp hx]
              exact Ne.symm hk
        · rintro (h | ⟨h, hne⟩)
          · rcases List.mem_append.mp h with h | h
            · exact Or.inl h
            · exact absurd (congrArg Prod.fst (List.mem_singleton.mp h)) hk
          · exact Or.inr ⟨h, fun x hx => hne x (List.mem_append_left _ hx)⟩

/-- The keys of a table after putting rows: those it had and those of the rows. -/
theorem get?_putAll_isSome (t : Table K V) (l : List (K × V)) (k : K) :
    ((t.putAll l).get? k).isSome ↔ (t.get? k).isSome ∨ ∃ x ∈ l, x.1 = k := by
  induction l using List.reverseRecOn with
  | nil => simp
  | append_singleton l r ih =>
      rw [putAll_append, putAll_singleton, get?_put]
      split_ifs with hk
      · simp only [Option.isSome_some, true_iff]
        exact Or.inr ⟨r, by simp, hk.symm⟩
      · rw [ih]
        refine or_congr_right ⟨?_, ?_⟩
        · rintro ⟨x, hx, hkey⟩
          exact ⟨x, List.mem_append_left _ hx, hkey⟩
        · rintro ⟨x, hx, hkey⟩
          rcases List.mem_append.mp hx with hx | hx
          · exact ⟨x, hx, hkey⟩
          · rw [List.mem_singleton.mp hx] at hkey
            exact absurd hkey.symm hk

/-- **Order does not matter** when keys determine rows. -/
theorem putAll_perm (t : Table K V) {l m : List (K × V)} (hperm : l.Perm m)
    (hfun : ∀ x ∈ l, ∀ y ∈ l, x.1 = y.1 → x.2 = y.2) : t.putAll l = t.putAll m := by
  have hfun' : ∀ x ∈ m, ∀ y ∈ m, x.1 = y.1 → x.2 = y.2 := by
    intro x hx y hy
    exact hfun x (hperm.mem_iff.mpr hx) y (hperm.mem_iff.mpr hy)
  refine ext_get? fun k => ?_
  apply Option.ext
  intro v
  rw [get?_putAll t hfun, get?_putAll t hfun']
  simp only [hperm.mem_iff]

/-! ## §7. How many rows there are. -/

theorem rows_nodup (t : Table K V) : t.rows.Nodup :=
  t.sorted.imp fun hlt heq => absurd hlt (by rw [heq]; exact lt_irrefl _)

/-- A row put stands beside the others. -/
theorem rows_put_perm (t : Table K V) (k : K) (v : V) :
    (t.put k v).rows.Perm ((k, v) :: (t.erase k).rows) := by
  refine (List.perm_ext_iff_of_nodup (rows_nodup _) ?_).mpr ?_
  · refine List.nodup_cons.mpr ⟨?_, rows_nodup _⟩
    intro hmem
    have := (List.mem_filter.mp hmem).2
    simp at this
  · intro r
    rw [mem_rows_put, List.mem_cons]
    refine or_congr_right ?_
    rw [show r ∈ (t.erase k).rows ↔ r ∈ t.rows ∧ decide (r.1 ≠ k) = true from List.mem_filter]
    simp [and_comm]

/-- A row put is one more than the others. -/
theorem length_rows_put (t : Table K V) (k : K) (v : V) :
    (t.put k v).rows.length = (t.erase k).rows.length + 1 := by
  rw [(rows_put_perm t k v).length_eq, List.length_cons]

theorem erase_eq_self {t : Table K V} {k : K} (h : t.get? k = none) : t.erase k = t := by
  refine ext_get? fun q => ?_
  rw [get?_erase]
  by_cases hq : q = k
  · rw [if_pos hq, hq, h]
  · rw [if_neg hq]

/-- A new key makes one row more. -/
theorem length_rows_put_of_none {t : Table K V} {k : K} (v : V) (h : t.get? k = none) :
    (t.put k v).rows.length = t.rows.length + 1 := by
  rw [length_rows_put, erase_eq_self h]

/-- A key that is there keeps their number, and its row counts when it is erased. -/
theorem length_rows_erase {t : Table K V} {k : K} {v : V} (h : t.get? k = some v) :
    t.rows.length = (t.erase k).rows.length + 1 := by
  rw [← length_rows_put t k v, put_eq_self h]

theorem length_rows_put_of_some {t : Table K V} {k : K} {v : V} (w : V) (h : t.get? k = some v) :
    (t.put k w).rows.length = t.rows.length := by
  rw [length_rows_put, length_rows_erase h]

end Table

end Gink
