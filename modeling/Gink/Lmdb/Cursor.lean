/-
  Gink.Lmdb.Cursor — `to_last_with_prefix` (lmdb_utilities.py).

  The helper moves a cursor to the first key at or past a boundary, steps back once
  and accepts the key it lands on if it starts with the prefix.  `toLast_spec`
  says what that finds: the greatest key with the prefix below the boundary.
-/
import Gink.Table.Sorted
import Gink.Bytes.Lex

namespace Gink

namespace Lmdb

variable {V : Type}

/-! ## §1. The helper. -/

/-- The boundary used when neither `suffix` nor `boundary` is given: the string
after everything that starts with `pre`, when its last byte can be raised. -/
def defaultBoundary (pre : Bytes) : Bytes :=
  match pre.getLast? with
  | some c =>
      if c.val < 255 then pre.dropLast ++ [c + 1] else pre ++ List.replicate 40 255
  | none => List.replicate 40 255

/-- `cursor.set_range(boundary)` and one step back, or the end of the table when
there is nothing at or past the boundary; the row the cursor is left on. -/
def seekBefore (t : Table Bytes V) (boundary : Bytes) : Option (Bytes × V) :=
  if t.rows.any (fun r => decide (boundary ≤ r.1)) then
    (t.rows.takeWhile (fun r => decide (r.1 < boundary))).getLast?
  else
    t.rows.getLast?

/-- `to_last_with_prefix(cursor, prefix, boundary=boundary)`: the row under the
cursor, when something is found. -/
def toLastBefore (t : Table Bytes V) (pre boundary : Bytes) : Option (Bytes × V) :=
  (seekBefore t boundary).filter (fun r => pre.isPrefixOf r.1)

/-- `to_last_with_prefix(cursor, prefix, suffix=suffix)`. -/
def toLastSuffix (t : Table Bytes V) (pre suffix : Bytes) : Option (Bytes × V) :=
  toLastBefore t pre (pre ++ suffix)

/-- `to_last_with_prefix(cursor, prefix)`. -/
def toLast (t : Table Bytes V) (pre : Bytes) : Option (Bytes × V) :=
  toLastBefore t pre (defaultBoundary pre)

/-! ## §2. What it finds. -/

theorem takeWhile_lt_eq_filter {l : List (Bytes × V)} (b : Bytes)
    (hl : l.Pairwise (fun x y => x.1 < y.1)) :
    l.takeWhile (fun r => decide (r.1 < b)) = l.filter (fun r => decide (r.1 < b)) := by
  induction l with
  | nil => rfl
  | cons r rest ih =>
      obtain ⟨hr, hrest⟩ := List.pairwise_cons.mp hl
      by_cases h : r.1 < b
      · simp [h, ih hrest]
      · have hnone : rest.filter (fun r => decide (r.1 < b)) = [] := by
          rw [List.filter_eq_nil_iff]
          intro x hx
          have : r.1 < x.1 := hr x hx
          simpa using (not_lt.mp h).trans this.le
        simp [h, hnone]

/-- Both branches of the seek end on the last row below the boundary. -/
theorem seekBefore_eq (t : Table Bytes V) (b : Bytes) :
    seekBefore t b = t.lastWhere (fun k => decide (k < b)) := by
  unfold seekBefore Table.lastWhere Table.rowsWhere
  split_ifs with h
  · rw [takeWhile_lt_eq_filter b t.sorted]
  · congr 1
    symm
    rw [List.filter_eq_self]
    intro r hr
    have : ¬ b ≤ r.1 := by
      intro hle
      exact h (List.any_eq_true.mpr ⟨r, hr, by simpa using hle⟩)
    simpa using this

/-- A row that is found lies in the table, below the boundary. -/
theorem toLastBefore_found {t : Table Bytes V} {pre boundary : Bytes} {r : Bytes × V}
    (h : toLastBefore t pre boundary = some r) :
    r ∈ t.rows ∧ r.1 < boundary ∧ pre.isPrefixOf r.1 = true := by
  unfold toLastBefore at h
  rw [seekBefore_eq] at h
  obtain ⟨hfound, hpre⟩ := Option.filter_eq_some_iff.mp h
  obtain ⟨hr, hlt, -⟩ := Table.lastWhere_eq_some_iff.mp hfound
  exact ⟨hr, of_decide_eq_true hlt, hpre⟩

/-- **The rule of the helper**, for a boundary no string with the prefix jumps over:
the row found is the last one with the prefix below the boundary. -/
theorem toLastBefore_eq (t : Table Bytes V) {pre boundary : Bytes}
    (hconv : ∀ k l : Bytes, pre <+: k → k ≤ l → l < boundary → pre <+: l) :
    toLastBefore t pre boundary
      = t.lastWhere (fun k => pre.isPrefixOf k && decide (k < boundary)) := by
  unfold toLastBefore
  rw [seekBefore_eq]
  cases hs : t.lastWhere (fun k => decide (k < boundary)) with
  | none =>
      symm
      rw [Option.filter_none, Table.lastWhere_eq_none_iff]
      intro x hx
      have := Table.lastWhere_eq_none_iff.mp hs x hx
      simp only [decide_eq_false_iff_not] at this
      simp [this]
  | some r =>
      obtain ⟨hr, hlt, hmax⟩ := Table.lastWhere_eq_some_iff.mp hs
      rw [decide_eq_true_eq] at hlt
      by_cases hp : pre.isPrefixOf r.1 = true
      · symm
        simp only [Option.filter_some, hp, if_true]
        refine Table.lastWhere_eq_some_iff.mpr ⟨hr, by simpa [hlt] using hp, ?_⟩
        intro x hx hpx
        simp only [Bool.and_eq_true] at hpx
        exact hmax x hx hpx.2
      · symm
        simp only [Option.filter_some, hp]
        rw [Table.lastWhere_eq_none_iff.mpr]
        · simp
        · intro x hx
          by_contra hne
          simp only [Bool.not_eq_false, Bool.and_eq_true, decide_eq_true_eq] at hne
          -- a row with the prefix sits below the boundary, so the row found does too
          have hle := hmax x hx (by simpa using hne.2)
          exact hp (List.isPrefixOf_iff_prefix.mpr
            (hconv x.1 r.1 (List.isPrefixOf_iff_prefix.mp hne.1) hle hlt))

/-- A boundary that extends the prefix. -/
theorem toLastBefore_eq_of_prefix (t : Table Bytes V) {pre boundary : Bytes}
    (h : pre <+: boundary) :
    toLastBefore t pre boundary
      = t.lastWhere (fun k => pre.isPrefixOf k && decide (k < boundary)) :=
  toLastBefore_eq t fun _ _ hk hkl hl => Bytes.prefix_of_le_of_le hk h hkl hl.le

/-- With a suffix. -/
theorem toLastSuffix_eq (t : Table Bytes V) (pre suffix : Bytes) :
    toLastSuffix t pre suffix
      = t.lastWhere (fun k => pre.isPrefixOf k && decide (k < pre ++ suffix)) :=
  toLastBefore_eq_of_prefix t (List.prefix_append pre suffix)

theorem defaultBoundary_convex (pre k l : Bytes) (hk : pre <+: k) (hkl : k ≤ l)
    (hl : l < defaultBoundary pre) : pre <+: l := by
  unfold defaultBoundary at hl
  cases hlast : pre.getLast? with
  | none =>
      rw [List.getLast?_eq_none_iff.mp hlast]
      exact List.nil_prefix
  | some c =>
      rw [hlast] at hl
      obtain ⟨q, rfl⟩ := List.getLast?_eq_some_iff.mp hlast
      simp only at hl
      split_ifs at hl with hc
      · rw [List.dropLast_concat] at hl
        refine Bytes.prefix_of_lt_bump ?_ hk hkl hl
        rw [Fin.val_add_one_of_lt' (by omega)]
      · exact Bytes.prefix_of_le_of_le hk (List.prefix_append _ _) hkl hl.le

/-- Without a bound: the default boundary cuts off no key but those that continue
the prefix with forty 0xFF bytes. -/
theorem toLast_eq (t : Table Bytes V) (pre : Bytes) :
    toLast t pre
      = t.lastWhere (fun k => pre.isPrefixOf k && decide (k < defaultBoundary pre)) :=
  toLastBefore_eq t (defaultBoundary_convex pre)

theorem lt_defaultBoundary {pre x : Bytes} (hx : x < List.replicate 40 255) :
    pre ++ x < defaultBoundary pre := by
  unfold defaultBoundary
  cases hlast : pre.getLast? with
  | none =>
      rw [List.getLast?_eq_none_iff.mp hlast]
      exact hx
  | some c =>
      obtain ⟨q, rfl⟩ := List.getLast?_eq_some_iff.mp hlast
      simp only
      split_ifs with hc
      · rw [List.dropLast_concat]
        refine Bytes.lt_bump ?_ (List.prefix_append _ _)
        rw [Fin.lt_def, Fin.val_add_one_of_lt' (by omega)]
        omega
      · exact (Bytes.append_lt_append_left_iff _ _ _).mpr hx

/-- **The rule of the unbounded helper** on a table whose keys continue the prefix
with fewer than forty bytes or with a byte below 0xFF. -/
theorem toLast_eq_lastWhere (t : Table Bytes V) (pre : Bytes)
    (h : ∀ r ∈ t.rows, ∀ x, r.1 = pre ++ x → x < List.replicate 40 255) :
    toLast t pre = t.lastWhere (fun k => pre.isPrefixOf k) := by
  rw [toLast_eq]
  refine Table.lastWhere_congr fun r => ?_
  refine and_congr_right fun hr => ?_
  simp only [Bool.and_eq_true, decide_eq_true_eq, and_iff_left_iff_imp]
  intro hp
  obtain ⟨x, hx⟩ := List.isPrefixOf_iff_prefix.mp hp
  rw [← hx]
  exact lt_defaultBoundary (h r hr x hx.symm)

end Lmdb

end Gink
