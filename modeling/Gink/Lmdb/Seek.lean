/-
  Gink.Lmdb.Seek — the cursor that `to_last_with_prefix` moves (lmdb_utilities.py).

  A cursor stands on a row of its table or on none.  The helper seeks the first key at or
  past a boundary and steps back, or goes to the end of the table where there is none, and
  both ways it ends on the row that `seekBefore` names.
-/
import Gink.Lmdb.Cursor
import Gink.Proto.Action

namespace Gink

namespace Lmdb

variable {V : Type}

/-! ## §1. Cursors. -/

/-- A cursor over a table; lmdb refuses empty keys. -/
structure Cursor (V : Type) where
  table : Table Bytes V
  filled : ∀ r ∈ table.rows, r.1 ≠ []
  /-- The row it stands on. -/
  row : Option (Bytes × V)
  stands : ∀ r, row = some r → r ∈ table.rows

namespace Cursor

/-- The cursor on another row of its table, or on none. -/
def onto (c : Cursor V) (found : Option (Bytes × V)) (h : ∀ r, found = some r → r ∈ c.table.rows) :
    Cursor V :=
  { c with row := found, stands := h }

/-- The first row at or past a key. -/
def atOrPast (c : Cursor V) (key : Bytes) : Option (Bytes × V) :=
  c.table.rows.find? fun r => decide (key ≤ r.1)

/-- The row before the one the cursor stands on; the last one when it stands on none. -/
def before (c : Cursor V) : Option (Bytes × V) :=
  match c.row with
  | none => c.table.rows.getLast?
  | some r => c.table.lastWhere fun k => decide (k < r.1)

theorem mem_of_before (c : Cursor V) (r : Bytes × V) (h : c.before = some r) :
    r ∈ c.table.rows := by
  unfold before at h
  cases hrow : c.row with
  | none =>
      rw [hrow] at h
      exact List.mem_of_getLast? h
  | some x =>
      rw [hrow] at h
      exact (Table.lastWhere_eq_some_iff.mp h).1

/-- `cursor.set_range(key)`. -/
def setRange (key : Bytes) : Action (Cursor V) Bool := fun c =>
  .ok (c.atOrPast key).isSome (c.onto (c.atOrPast key) fun _ h => List.mem_of_find?_eq_some h)

/-- `cursor.prev()`. -/
def prev : Action (Cursor V) Bool := fun c =>
  .ok c.before.isSome (c.onto c.before (mem_of_before c))

/-- `cursor.last()`. -/
def last : Action (Cursor V) Bool := fun c =>
  .ok c.table.rows.getLast?.isSome
    (c.onto c.table.rows.getLast? fun _ h => List.mem_of_getLast? h)

/-- `cursor.key()`: empty when the cursor stands on no row. -/
def key : Action (Cursor V) Bytes := fun c => .ok ((c.row.map Prod.fst).getD []) c

end Cursor

/-! ## §2. The helper. -/

/-- The truth value of an optional bytes argument. -/
def truthy (b : Option Bytes) : Bool := b.any fun b => !b.isEmpty

/-- The boundary that the arguments stand for; a suffix that is given counts first. -/
def boundaryOf (pre : Bytes) : Option Bytes → Option Bytes → Bytes
  | none, none => defaultBoundary pre
  | some suffix, _ => pre ++ suffix
  | none, some boundary => boundary

/-- The moves of the cursor, and the key it is left with. -/
def keyBefore (boundary : Bytes) : Action (Cursor V) (Option Bytes) := do
  if ← Cursor.setRange boundary then
    -- to the item before the first one at or past the boundary
    if ← Cursor.prev then
      return some (← Cursor.key)
    else return none
  else if ← Cursor.last then
    return some (← Cursor.key)
  else return none

/-- `to_last_with_prefix(cursor, prefix, suffix, boundary)`. -/
def toLastWithPrefix (pre : Bytes) (suffix boundary : Option Bytes) :
    Action (Cursor V) (Option Bytes) := do
  Action.of (ensure (!(truthy suffix && truthy boundary))
    (.valueError "don't specify both suffix and boundary"))
  let key ← keyBefore (boundaryOf pre suffix boundary)
  return key.filter fun k => !k.isEmpty && pre.isPrefixOf k

/-! ## §3. Where the cursor ends. -/

/-- The step back from the first row at or past the boundary. -/
theorem Cursor.before_atOrPast (c : Cursor V) {boundary : Bytes} {r : Bytes × V}
    (h : c.atOrPast boundary = some r) (hr : ∀ x, some r = some x → x ∈ c.table.rows) :
    (c.onto (some r) hr).before = seekBefore c.table boundary := by
  rw [seekBefore_eq]
  show (c.table.lastWhere fun k => decide (k < r.1)) = _
  obtain ⟨hpast, front, back, hrows, hfront⟩ := List.find?_eq_some_iff_append.mp h
  refine Table.lastWhere_congr fun x => and_congr_right fun hx => ?_
  rw [decide_eq_true_eq, decide_eq_true_eq]
  constructor
  · intro hlt
    -- a row before the first one past the boundary is not past it
    have hin : x ∈ front := by
      rw [hrows, List.mem_append] at hx
      rcases hx with hx | hx
      · exact hx
      · have hsorted := c.table.sorted
        rw [hrows] at hsorted
        have htail := (List.pairwise_append.mp hsorted).2.1
        rcases List.mem_cons.mp hx with rfl | hx
        · exact absurd hlt (lt_irrefl _)
        · exact absurd ((List.pairwise_cons.mp htail).1 x hx) (not_lt.mpr hlt.le)
    have hnot := hfront x hin
    simpa using hnot
  · intro hlt
    exact lt_of_lt_of_le hlt (of_decide_eq_true hpast)

/-- The end of a table that has nothing at or past the boundary. -/
theorem Cursor.getLast?_of_atOrPast (c : Cursor V) {boundary : Bytes}
    (h : c.atOrPast boundary = none) : c.table.rows.getLast? = seekBefore c.table boundary := by
  have hnone : ¬ (c.table.rows.any fun r => decide (boundary ≤ r.1)) = true := by
    intro hany
    obtain ⟨r, hr, hle⟩ := List.any_eq_true.mp hany
    exact List.find?_eq_none.mp h r hr hle
  unfold seekBefore
  rw [if_neg hnone]

theorem Cursor.setRange_run (c : Cursor V) {boundary : Bytes} {found : Option (Bytes × V)}
    (hfound : c.atOrPast boundary = found) (h : ∀ r, found = some r → r ∈ c.table.rows) :
    Cursor.setRange boundary c = .ok found.isSome (c.onto found h) := by
  subst hfound
  rfl

/-- What a move that found a row or none is followed by. -/
theorem keyOf_move (c : Cursor V) (found : Option (Bytes × V))
    (h : ∀ r, found = some r → r ∈ c.table.rows) :
    (if found.isSome then (Cursor.key >>= fun k => pure (some k)) else pure none :
        Action (Cursor V) (Option Bytes)) (c.onto found h) =
      .ok (found.map Prod.fst) (c.onto found h) := by
  cases found with
  | none => rfl
  | some x => rfl

/-- **Both ways end** on the last row below the boundary. -/
theorem keyBefore_run (c : Cursor V) (boundary : Bytes) :
    ∃ c', keyBefore boundary c = .ok ((seekBefore c.table boundary).map Prod.fst) c' ∧
      c'.table = c.table ∧ c'.row = seekBefore c.table boundary := by
  unfold keyBefore
  cases hpast : c.atOrPast boundary with
  | some r =>
      have hr : ∀ x, some r = some x → x ∈ c.table.rows := by
        intro x hx
        rw [← hpast] at hx
        exact List.mem_of_find?_eq_some hx
      have hback := c.before_atOrPast hpast hr
      refine ⟨(c.onto (some r) hr).onto _ (Cursor.mem_of_before _), ?_, rfl, hback⟩
      rw [← hback, Action.bind_of_ok (Cursor.setRange_run c hpast hr)]
      exact keyOf_move (c.onto (some r) hr) _ (Cursor.mem_of_before _)
  | none =>
      have hnone : ∀ x, none = some x → x ∈ c.table.rows := fun _ hx => by cases hx
      have hend := c.getLast?_of_atOrPast hpast
      refine ⟨(c.onto none hnone).onto c.table.rows.getLast? fun _ h => List.mem_of_getLast? h, ?_,
        rfl, hend⟩
      rw [← hend, Action.bind_of_ok (Cursor.setRange_run c hpast hnone)]
      exact keyOf_move (c.onto none hnone) c.table.rows.getLast? fun _ h => List.mem_of_getLast? h

/-- **The helper** answers with the key of the row that `toLastBefore` finds, and leaves the
cursor on it. -/
theorem toLastWithPrefix_run (c : Cursor V) (pre : Bytes) {suffix boundary : Option Bytes}
    (h : (truthy suffix && truthy boundary) = false) :
    ∃ c', toLastWithPrefix pre suffix boundary c =
        .ok ((toLastBefore c.table pre (boundaryOf pre suffix boundary)).map Prod.fst) c' ∧
      c'.table = c.table ∧
      ∀ r, toLastBefore c.table pre (boundaryOf pre suffix boundary) = some r → c'.row = some r := by
  obtain ⟨c', hrun, htable, hrow⟩ := keyBefore_run c (boundaryOf pre suffix boundary)
  refine ⟨c', ?_, htable, ?_⟩
  · unfold toLastWithPrefix
    rw [h, Bool.not_false, ensure_true, Action.of_ok_bind, Action.bind_of_ok hrun]
    show EStateM.Result.ok _ c' = _
    congr 1
    unfold toLastBefore
    cases hseek : seekBefore c.table (boundaryOf pre suffix boundary) with
    | none => rfl
    | some r =>
        -- no key of a row is empty, and so each counts as true
        have hfilled : r.1.isEmpty = false := by
          have hmem := c'.stands r (hrow.trans hseek)
          have hne := c'.filled r hmem
          cases hkey : r.1 with
          | nil => exact absurd hkey hne
          | cons _ _ => rfl
        simp only [Option.map_some, Option.filter_some, hfilled, Bool.not_false, Bool.true_and]
        split_ifs <;> rfl
  · intro r hfound
    unfold toLastBefore at hfound
    rw [hrow]
    exact (Option.filter_eq_some_iff.mp hfound).1

/-! ## §4. What it finds. -/

/-- What a caller bounds the search by. -/
inductive Bound where
  | unbounded
  | suffix (s : Bytes)
  | boundary (b : Bytes)

namespace Bound

/-- The `suffix` argument. -/
def suffix? : Bound → Option Bytes
  | .suffix s => some s
  | _ => none

/-- The `boundary` argument. -/
def boundary? : Bound → Option Bytes
  | .boundary b => some b
  | _ => none

/-- A boundary extends the prefix; without a bound no key continues the prefix with forty
bytes 0xFF. -/
def Fits (table : Table Bytes V) (pre : Bytes) : Bound → Prop
  | .unbounded => ∀ r ∈ table.rows, ¬ pre ++ List.replicate 40 255 <+: r.1
  | .suffix _ => True
  | .boundary b => pre <+: b

/-- The key is below the bound. -/
def Below (pre key : Bytes) : Bound → Prop
  | .unbounded => True
  | .suffix s => key < pre ++ s
  | .boundary b => key < b

/-- The keys of the table that start with the prefix and are below the bound. -/
def keys (table : Table Bytes V) (pre : Bytes) (bound : Bound) : Set Bytes :=
  {k | (∃ v, (k, v) ∈ table.rows) ∧ pre <+: k ∧ bound.Below pre k}

end Bound

/-- Without a bound the helper looks at all keys with the prefix. -/
theorem toLast_eq_of_fits {table : Table Bytes V} {pre : Bytes}
    (h : Bound.unbounded.Fits table pre) :
    toLast table pre = table.lastWhere fun k => pre.isPrefixOf k := by
  refine toLast_eq_lastWhere table pre fun r hr x hx => ?_
  have hnot : ¬ List.replicate 40 255 <+: x := by
    intro hpre
    refine h r hr ?_
    rw [hx]
    exact (List.prefix_append_right_inj pre).mpr hpre
  by_contra hle
  rcases lt_or_eq_of_le (not_lt.mp hle) with hlt | heq
  · exact hnot (Bytes.replicate_lt_iff.mp hlt).1
  · exact hnot (heq ▸ List.prefix_refl _)

/-- Whether a key has the prefix and is below the bound. -/
def Bound.admits (pre key : Bytes) : Bound → Bool
  | .unbounded => pre.isPrefixOf key
  | .suffix s => pre.isPrefixOf key && decide (key < pre ++ s)
  | .boundary b => pre.isPrefixOf key && decide (key < b)

theorem Bound.admits_iff {pre key : Bytes} {bound : Bound} :
    bound.admits pre key = true ↔ pre <+: key ∧ bound.Below pre key := by
  cases bound with
  | unbounded => simp [admits, Below]
  | suffix s => simp [admits, Below]
  | boundary b => simp [admits, Below]

/-- **The row that is found** is the last one with the prefix below the bound. -/
theorem toLastBefore_eq_lastWhere {table : Table Bytes V} {pre : Bytes} {bound : Bound}
    (h : bound.Fits table pre) :
    toLastBefore table pre (boundaryOf pre bound.suffix? bound.boundary?) =
      table.lastWhere fun k => bound.admits pre k := by
  cases bound with
  | unbounded => exact toLast_eq_of_fits h
  | suffix s => exact toLastSuffix_eq table pre s
  | boundary b => exact toLastBefore_eq_of_prefix table h

/-- Its key is the greatest one. -/
theorem key_toLastBefore_iff {table : Table Bytes V} {pre : Bytes} {bound : Bound}
    (h : bound.Fits table pre) {k : Bytes} :
    (toLastBefore table pre (boundaryOf pre bound.suffix? bound.boundary?)).map Prod.fst = some k ↔
      IsGreatest (bound.keys table pre) k := by
  rw [toLastBefore_eq_lastWhere h, Option.map_eq_some_iff]
  constructor
  · intro hfound
    obtain ⟨r, hr, rfl⟩ := hfound
    obtain ⟨hmem, hkey, hmax⟩ := Table.lastWhere_eq_some_iff.mp hr
    refine ⟨⟨⟨r.2, hmem⟩, Bound.admits_iff.mp hkey⟩, fun k hk => ?_⟩
    obtain ⟨⟨v, hv⟩, hbelow⟩ := hk
    exact hmax (k, v) hv (Bound.admits_iff.mpr hbelow)
  · intro hgreatest
    obtain ⟨⟨⟨v, hv⟩, hkey⟩, hmax⟩ := hgreatest
    refine ⟨(k, v), Table.lastWhere_eq_some_iff.mpr ⟨hv, Bound.admits_iff.mpr hkey, ?_⟩, rfl⟩
    intro x hx hadmits
    exact hmax ⟨⟨x.2, hx⟩, Bound.admits_iff.mp hadmits⟩

/-- Nothing is found only where there is no such key. -/
theorem toLastBefore_eq_none_iff {table : Table Bytes V} {pre : Bytes} {bound : Bound}
    (h : bound.Fits table pre) :
    toLastBefore table pre (boundaryOf pre bound.suffix? bound.boundary?) = none ↔
      bound.keys table pre = ∅ := by
  rw [toLastBefore_eq_lastWhere h, Table.lastWhere_eq_none_iff, Set.eq_empty_iff_forall_notMem]
  constructor
  · intro hnone k hk
    obtain ⟨⟨v, hv⟩, hkey⟩ := hk
    have hadmits := hnone (k, v) hv
    rw [Bound.admits_iff.mpr hkey] at hadmits
    cases hadmits
  · intro hempty r hr
    rw [Bool.eq_false_iff]
    exact fun hadmits => hempty r.1 ⟨⟨r.2, hr⟩, Bound.admits_iff.mp hadmits⟩

/-- **The prefix seek is exact**: the cursor is left on the greatest key of the table that
starts with the prefix and is below the bound, that key is returned, and nothing is returned
only when there is none. -/
theorem toLastWithPrefix_exact (c : Cursor V) (pre : Bytes) (bound : Bound)
    (h : bound.Fits c.table pre) :
    ∃ found c', toLastWithPrefix pre bound.suffix? bound.boundary? c = .ok found c' ∧
      c'.table = c.table ∧
      (∀ k, found = some k ↔ IsGreatest (bound.keys c.table pre) k) ∧
      (∀ k, found = some k → Cursor.key c' = .ok k c') ∧
      (found = none ↔ bound.keys c.table pre = ∅) := by
  have hargs : (truthy bound.suffix? && truthy bound.boundary?) = false := by
    cases bound with
    | unbounded => rfl
    | suffix s => exact Bool.and_false _
    | boundary b => rfl
  obtain ⟨c', hrun, htable, hrow⟩ := toLastWithPrefix_run c pre hargs
  refine ⟨_, c', hrun, htable, fun k => key_toLastBefore_iff h, ?_, ?_⟩
  · intro k hk
    obtain ⟨r, hr, rfl⟩ := Option.map_eq_some_iff.mp hk
    unfold Cursor.key
    rw [hrow r hr]
    rfl
  · rw [Option.map_eq_none_iff]
    exact toLastBefore_eq_none_iff h

/-- Keys around a prefix that ends with 0xFF, one of them beyond it. -/
def edgeCursor : Cursor Unit where
  table := Table.putAll ∅ [([1, 254], ()), ([1, 255], ()), ([1, 255, 7], ()), ([2], ())]
  filled := by decide
  row := none
  stands _ h := by cases h

/-- Of `01 FF` and `01 FF 07` the second is found. -/
theorem toLastWithPrefix_exact_edge :
    ∃ found c', toLastWithPrefix [1, 255] none none edgeCursor = .ok found c' ∧
      c'.table = edgeCursor.table ∧
      (∀ k, found = some k ↔ IsGreatest (Bound.unbounded.keys edgeCursor.table [1, 255]) k) ∧
      (∀ k, found = some k → Cursor.key c' = .ok k c') ∧
      (found = none ↔ Bound.unbounded.keys edgeCursor.table [1, 255] = ∅) :=
  toLastWithPrefix_exact edgeCursor [1, 255] .unbounded (by
    show ∀ r ∈ edgeCursor.table.rows, ¬ _
    decide)

end Lmdb

end Gink
