/-
  Gink.Stores.VertexReset — resetting a vertex in both stores.

  A vertex is live unless the last of its entries is a deletion.  A reset has to bring back
  the liveness it had at a time, by one entry if that differs from the present one.
  `LmdbStore` looks at the vertex's own rows and is wrong only for the very time at which
  the vertex was created; `MemoryStore` bounds neither of its scans to the vertex.
-/
import Gink.Lmdb.Reset
import Gink.Lmdb.KeyedConvergence
import Gink.Memory.Reset
import Gink.Memory.Retained
import Gink.Keyed.View
import Gink.Proto.Sample

namespace Gink

open Machine (Generated Generator)

/-! ## §1. The liveness of a vertex. -/

/-- What the tables of a store say about one vertex. -/
structure VertexLife where
  /-- the time the vertex was created at -/
  created : Int
  /-- an entry with this address is for the vertex -/
  wrote : Muid → Prop
  /-- that entry is a deletion -/
  deletes : Muid → Prop

namespace VertexLife

variable (v : VertexLife) (t : Int)

/-- The last entry before `t` is a deletion. -/
def DeletedBefore : Prop :=
  ∃ m, IsGreatest {m | v.wrote m ∧ KeyedView.Before t m} m ∧ v.deletes m

/-- The last entry is a deletion. -/
def DeletedNow : Prop := ∃ m, IsGreatest {m | v.wrote m} m ∧ v.deletes m

/-- Created before `t`, and its last entry before `t`, if any, is not a deletion. -/
def LiveAt : Prop := v.created < t ∧ ¬ v.DeletedBefore t

def LiveNow : Prop := ¬ v.DeletedNow

/-- **A right reset** yields one entry exactly when the liveness at `t` differs from the
present one, and that entry restores it. -/
structure Restores (container : Muid) {σ : Type} (g : Generated Halt σ ChangeBuilder Unit) :
    Prop where
  ends : g.result = .ok ()
  same : (v.LiveAt t ↔ v.LiveNow) → g.yielded = []
  other : ¬ (v.LiveAt t ↔ v.LiveNow) → ∃ e, g.yielded = [.entry e] ∧ e.behavior = .vertex ∧
    e.container = some container.putInto ∧ (e.deletion = true ↔ ¬ v.LiveAt t)

variable {v t}

/-- A reset that goes by two flags is right if both are, or if they and the liveness do not
change. -/
theorem restores_iff {container : Muid} {σ : Type} {g : Generated Halt σ ChangeBuilder Unit}
    (was is : Bool) (hends : g.result = .ok ())
    (hyielded : g.yielded = if is ≠ was then [.entry (vertexEntry container was)] else []) :
    v.Restores t container g ↔
      ((was = true ↔ ¬ v.LiveAt t) ∧ (is = true ↔ ¬ v.LiveNow)) ∨
        ((v.LiveAt t ↔ v.LiveNow) ∧ was = is) := by
  have hflag : (vertexEntry container was).deletion = was := rfl
  constructor
  · intro h
    by_cases hsame : v.LiveAt t ↔ v.LiveNow
    · have hnone := h.same hsame
      rw [hyielded] at hnone
      refine Or.inr ⟨hsame, ?_⟩
      by_contra hne
      rw [if_pos (Ne.symm hne)] at hnone
      cases hnone
    · obtain ⟨e, he, -, -, hdeletion⟩ := h.other hsame
      rw [hyielded] at he
      by_cases hne : is ≠ was
      · rw [if_pos hne] at he
        injection he with he
        injection he with he
        rw [← he, hflag] at hdeletion
        refine Or.inl ⟨hdeletion, ?_⟩
        cases was <;> cases is <;> simp at hne hdeletion ⊢ <;> tauto
      · rw [if_neg hne] at he
        cases he
  · intro h
    refine ⟨hends, ?_, ?_⟩
    · intro hsame
      have heq : is = was := by
        rcases h with ⟨hwas, his⟩ | ⟨-, heq⟩
        · rw [Bool.eq_iff_iff, hwas, his, hsame]
        · exact heq.symm
      rw [hyielded, if_neg (not_not.mpr heq)]
    · intro hother
      rcases h with ⟨hwas, his⟩ | ⟨hsame, -⟩
      · have hne : is ≠ was := by
          intro heq
          rw [heq, hwas, not_iff_not] at his
          exact hother his
        refine ⟨vertexEntry container was, ?_, rfl, rfl, ?_⟩
        · rw [hyielded, if_pos hne]
        · rw [hflag]
          exact hwas
      · exact absurd hsame hother

/-- The flag of a reset that takes "created at or before `t`" for "created before `t`". -/
theorem flag_iff : (v.created > t ∨ v.DeletedBefore t ↔ ¬ v.LiveAt t) ↔
    v.created ≠ t ∨ v.DeletedBefore t := by
  unfold LiveAt
  by_cases hd : v.DeletedBefore t
  · simp [hd]
  · simp only [hd, or_false, not_false_eq_true, and_true]
    omega

end VertexLife

/-! ## §2. The rows of a vertex. -/

/-- Addresses lead the comparison of what they are followed by. -/
theorem address_lt_append {m n : Muid} {tail : Bytes} :
    m.toBytes ++ tail < n.toBytes ↔ m < n := by
  have h := Bytes.append_lt_append_iff (a := m.toBytes) (b := n.toBytes) (x := tail) (y := [])
    (by simp)
  rw [List.append_nil] at h
  rw [h, Muid.toBytes_lt_iff]
  constructor
  · rintro (h | ⟨-, h⟩)
    · exact h
    · exact absurd h (Bytes.not_lt_nil _)
  · exact Or.inl

theorem address_le_of_append_le {m n : Muid} {x y : Bytes}
    (h : m.toBytes ++ x ≤ n.toBytes ++ y) : m ≤ n := by
  by_contra hlt
  have hlt' : n.toBytes ++ y < m.toBytes ++ x :=
    (Bytes.append_lt_append_iff (by simp)).mpr (Or.inl (Muid.toBytes_lt_iff.mpr (not_le.mp hlt)))
  exact absurd h (not_le.mpr hlt')

/-- The key of an entry for a vertex. -/
def vertexKey (vertex placer : Muid) (expiry : Bytes) : Bytes :=
  vertex.toBytes ++ (placer.toBytes ++ expiry)

theorem isPrefixOf_vertexKey (vertex placer : Muid) (expiry : Bytes) :
    vertex.toBytes.isPrefixOf (vertexKey vertex placer expiry) = true :=
  List.isPrefixOf_iff_prefix.mpr (List.prefix_append _ _)

theorem vertexKey_le {vertex m n : Muid} {x y : Bytes}
    (h : vertexKey vertex m x ≤ vertexKey vertex n y) : m ≤ n :=
  address_le_of_append_le ((Bytes.append_le_append_left_iff _ _ _).mp h)

namespace Lmdb

/-- Each placement of the container is that of an entry for a vertex; the all-ones time
field, which stands for -1, is the time of none. -/
def VertexRows (c : Contents) (vertex : Muid) : Prop :=
  ∀ row ∈ c.placements.rows, vertex.toBytes <+: row.1 → ∃ m expiry,
    row = (vertexKey vertex m expiry, m.toBytes) ∧ m.timeField.val < 2 ^ 52 - 1

/-- What the tables say about the vertex. -/
def vertexLife (c : Contents) (vertex : Muid) : VertexLife where
  created := vertex.timestamp
  wrote m := ∃ expiry, (vertexKey vertex m expiry, m.toBytes) ∈ c.placements.rows
  deletes m := ∃ builder, c.entries.get? m.toBytes = some builder ∧ builder.deletion = true

section
variable {c : Contents} {vertex instant : Muid} {toTime : Int}

/-- The flag read off the last row of a selection of the vertex's own. -/
theorem deletedAt_own (hc : Retained c) (hrows : VertexRows c vertex) {p : Bytes → Bool}
    {S : Muid → Prop}
    (hp : ∀ m expiry, (vertexKey vertex m expiry, m.toBytes) ∈ c.placements.rows →
      (p (vertexKey vertex m expiry) = true ↔ S m))
    (hown : ∀ k, p k = true → vertex.toBytes <+: k) :
    ∃ flag, deletedAt c (c.placements.lastWhere p) = .ok flag ∧ (flag = true ↔
      ∃ m, IsGreatest {m | (vertexLife c vertex).wrote m ∧ S m} m ∧
        (vertexLife c vertex).deletes m) := by
  cases hlast : c.placements.lastWhere p with
  | none =>
      refine ⟨false, rfl, ?_⟩
      rw [Table.lastWhere_eq_none_iff] at hlast
      constructor
      · intro h
        cases h
      · rintro ⟨m, ⟨⟨⟨expiry, hrow⟩, hS⟩, -⟩, -⟩
        have hno := hlast _ hrow
        rw [(hp m expiry hrow).mpr hS] at hno
        cases hno
  | some row =>
      obtain ⟨hrow, hpk, hmax⟩ := Table.lastWhere_eq_some_iff.mp hlast
      obtain ⟨m, expiry, rfl, -⟩ := hrows row hrow (hown _ hpk)
      obtain ⟨builder, hbuilder⟩ := Option.isSome_iff_exists.mp (hc.entries _ hrow)
      have hgreatest : IsGreatest {m | (vertexLife c vertex).wrote m ∧ S m} m := by
        refine ⟨⟨⟨expiry, hrow⟩, (hp m expiry hrow).mp hpk⟩, ?_⟩
        rintro n ⟨⟨expiry', hrow'⟩, hS'⟩
        exact vertexKey_le (hmax _ hrow' ((hp n expiry' hrow').mpr hS'))
      refine ⟨builder.deletion, ?_, ?_⟩
      · unfold deletedAt readEntry
        simp only [hbuilder, orRaise_some]
        rfl
      · constructor
        · intro h
          exact ⟨m, hgreatest, builder, hbuilder, h⟩
        · rintro ⟨n, hn, builder', hbuilder', h⟩
          rw [hn.unique hgreatest, hbuilder] at hbuilder'
          rw [Option.some.inj hbuilder']
          exact h

/-- The seek before the time. -/
theorem deletedBefore_flag (hc : Retained c) (hrows : VertexRows c vertex)
    (hi : Muid.instant toTime = .ok instant) :
    ∃ flag, deletedAt c (toLastSuffix c.placements vertex.toBytes instant.toBytes) = .ok flag ∧
      (flag = true ↔ (vertexLife c vertex).DeletedBefore toTime) := by
  rw [toLastSuffix_eq]
  apply deletedAt_own hc hrows
  · intro m expiry _
    rw [isPrefixOf_vertexKey, Bool.true_and, decide_eq_true_eq]
    unfold vertexKey
    rw [Bytes.append_lt_append_left_iff, address_lt_append, KeyedView.before_iff hi]
  · intro k hk
    exact List.isPrefixOf_iff_prefix.mp ((Bool.and_eq_true _ _).mp hk).1

/-- The seek for the last row. -/
theorem deletedNow_flag (hc : Retained c) (hrows : VertexRows c vertex) :
    ∃ flag, deletedAt c (toLast c.placements vertex.toBytes) = .ok flag ∧
      (flag = true ↔ (vertexLife c vertex).DeletedNow) := by
  have hlast : toLast c.placements vertex.toBytes
      = c.placements.lastWhere (fun k => vertex.toBytes.isPrefixOf k) := by
    apply toLast_eq_lastWhere
    intro row hrow x hx
    obtain ⟨m, expiry, rfl, hm⟩ := hrows row hrow ⟨x, hx.symm⟩
    rw [← List.append_cancel_left hx]
    have hreserved : m < reserved := by
      rw [Muid.lt_iff_toNat_lt, Muid.toNat_lt_iff]
      exact Or.inl hm
    exact (address_lt_append.mpr hreserved).trans (by decide +kernel)
  rw [hlast]
  have h := deletedAt_own (S := fun _ => True) hc hrows
    (p := fun k => vertex.toBytes.isPrefixOf k) (by
      intro m expiry _
      exact iff_of_true (isPrefixOf_vertexKey vertex m expiry) trivial)
    (fun k hk => List.isPrefixOf_iff_prefix.mp hk)
  simp only [and_true] at h
  exact h

/-- **A vertex reset of an `LmdbStore`** is right but for the time of creation. -/
theorem vertexReset_restores_iff (hc : Retained c) (hrows : VertexRows c vertex)
    (hbehavior : getBehavior c vertex = .ok .vertex) (hi : Muid.instant toTime = .ok instant)
    (fuel : Nat) (recursive : Bool) :
    (vertexLife c vertex).Restores toTime vertex
        (getResetChanges c (fuel + 1) toTime (some vertex) none recursive) ↔
      vertex.timestamp ≠ toTime ∨ (vertexLife c vertex).DeletedBefore toTime := by
  obtain ⟨before, hbefore, hbeforeIff⟩ := deletedBefore_flag hc hrows hi
  obtain ⟨now, hnow, hnowIff⟩ := deletedNow_flag hc hrows
  have hrun : getResetChanges c (fuel + 1) toTime (some vertex) none recursive
      = (if now ≠ (decide (vertex.timestamp > toTime) || before) then Generator.yielding
          (.entry (vertexEntry vertex (decide (vertex.timestamp > toTime) || before)))
        else pure () : Resetting Unit) (if recursive then some [] else none) := by
    show containerReset c toTime (fuel + 1) vertex _ = _
    unfold containerReset
    rw [hbehavior]
    show vertexReset c vertex toTime _ = _
    unfold vertexReset
    rw [hi]
    show (attempt (deletedAt c (toLastSuffix c.placements vertex.toBytes instant.toBytes))
      >>= _ : Resetting Unit) _ = _
    rw [hbefore]
    show (attempt (deletedAt c (toLast c.placements vertex.toBytes)) >>= _ : Resetting Unit) _ = _
    rw [hnow]
    rfl
  rw [VertexLife.restores_iff (decide (vertex.timestamp > toTime) || before) now]
  · have hwas : ((decide (vertex.timestamp > toTime) || before) = true ↔
        ¬ (vertexLife c vertex).LiveAt toTime) ↔
        vertex.timestamp ≠ toTime ∨ (vertexLife c vertex).DeletedBefore toTime := by
      rw [Bool.or_eq_true, decide_eq_true_eq, hbeforeIff]
      exact VertexLife.flag_iff (v := vertexLife c vertex)
    have his : now = true ↔ ¬ (vertexLife c vertex).LiveNow := by
      rw [hnowIff]
      exact not_not.symm
    rw [hwas]
    constructor
    · rintro (⟨h, -⟩ | ⟨hsame, heq⟩)
      · exact h
      · rw [← hwas, heq, his, not_iff_not]
        exact hsame.symm
    · exact fun h => Or.inl ⟨h, his⟩
  · rw [hrun]
    split_ifs <;> rfl
  · rw [hrun]
    split_ifs <;> rfl

end

end Lmdb

namespace Memory

/-- What the dictionaries say about the vertex. -/
def vertexLife (c : Contents) (vertex : Muid) : VertexLife where
  created := vertex.timestamp
  wrote m := ∃ expiry, (vertexKey vertex m expiry, m) ∈ c.placements.rows
  deletes m := ∃ builder, c.entries.get? m = some builder ∧ builder.deletion = true

/-- There is such a row and its entry is a deletion. -/
def DeletingRow (c : Contents) (row : Option (Bytes × Muid)) : Prop :=
  ∃ r builder, row = some r ∧ c.entries.get? r.2 = some builder ∧ builder.deletion = true

/-- Where the scan for the past ends: on the last row from the vertex up to the instant,
whatever container it is of. -/
def pastScan (c : Contents) (vertex instant : Muid) : Option (Bytes × Muid) :=
  (irange c.placements vertex.toBytes instant.toBytes).getLast?

/-- Where the scan for the present ends: on the last row up to the vertex's end, whatever
container it is of. -/
def nowScan (c : Contents) (vertex : Muid) : Option (Bytes × Muid) :=
  getLastRow c.placements (vertex.toBytes ++ ones 16)

/-- Both rows tell of the vertex what its own last entries tell; or its liveness is the same
at both times, and so do the rows say. -/
def ScansAgree (c : Contents) (vertex instant : Muid) (toTime : Int) : Prop :=
  let past := vertex.timestamp > toTime ∨ DeletingRow c (pastScan c vertex instant)
  let now := DeletingRow c (nowScan c vertex)
  let life := vertexLife c vertex
  ((past ↔ ¬ life.LiveAt toTime) ∧ (now ↔ ¬ life.LiveNow)) ∨
    ((life.LiveAt toTime ↔ life.LiveNow) ∧ (past ↔ now))

section
variable {c : Contents} {vertex instant : Muid} {toTime : Int}

theorem deletedAt_flag (hc : Retained c) (row : Option (Bytes × Muid))
    (hrow : ∀ r, row = some r → r ∈ c.placements.rows) :
    ∃ flag, deletedAt c row = .ok flag ∧ (flag = true ↔ DeletingRow c row) := by
  cases row with
  | none =>
      refine ⟨false, rfl, ?_⟩
      constructor
      · intro h
        cases h
      · rintro ⟨r, builder, hr, -⟩
        cases hr
  | some r =>
      obtain ⟨builder, hbuilder⟩ := Option.isSome_iff_exists.mp (hc.entries r (hrow r rfl))
      refine ⟨builder.deletion, ?_, ?_⟩
      · unfold deletedAt readEntry
        simp only [hbuilder, orRaise_some]
        rfl
      · constructor
        · exact fun h => ⟨r, builder, rfl, hbuilder, h⟩
        · rintro ⟨r', builder', hr', hbuilder', h⟩
          rw [← Option.some.inj hr', hbuilder] at hbuilder'
          rw [Option.some.inj hbuilder']
          exact h

/-- **A vertex reset of a `MemoryStore`** is right exactly when its scans end on rows that
agree with the vertex's own. -/
theorem vertexReset_restores_iff (hc : Retained c)
    (hbehavior : getBehavior c vertex = .ok .vertex) (hi : Muid.instant toTime = .ok instant)
    (fuel : Nat) (recursive : Bool) :
    (vertexLife c vertex).Restores toTime vertex
        (getResetChanges c (fuel + 1) toTime (some vertex) none recursive) ↔
      ScansAgree c vertex instant toTime := by
  obtain ⟨before, hbefore, hbeforeIff⟩ := deletedAt_flag hc (pastScan c vertex instant)
    (fun r hr => (List.mem_filter.mp (List.mem_of_getLast? hr)).1)
  obtain ⟨now, hnow, hnowIff⟩ := deletedAt_flag hc (nowScan c vertex)
    (fun r hr => (Table.lastWhere_eq_some_iff.mp hr).1)
  have hrun : getResetChanges c (fuel + 1) toTime (some vertex) none recursive
      = (if now ≠ (decide (vertex.timestamp > toTime) || before) then Generator.yielding
          (.entry (vertexEntry vertex (decide (vertex.timestamp > toTime) || before)))
        else pure () : Resetting Unit) ⟨if recursive then some [] else none, c⟩ := by
    show containerReset toTime (fuel + 1) vertex _ = _
    unfold containerReset
    show (attempt (getBehavior c vertex) >>= _ : Resetting Unit) _ = _
    rw [hbehavior]
    show vertexReset vertex toTime _ = _
    unfold vertexReset
    rw [hi]
    show (attempt (deletedAt c (pastScan c vertex instant)) >>= _ : Resetting Unit) _ = _
    rw [hbefore]
    show (attempt (deletedAt c (nowScan c vertex)) >>= _ : Resetting Unit) _ = _
    rw [hnow]
    rfl
  rw [VertexLife.restores_iff (decide (vertex.timestamp > toTime) || before) now]
  · have hwas : (decide (vertex.timestamp > toTime) || before) = true ↔
        vertex.timestamp > toTime ∨ DeletingRow c (pastScan c vertex instant) := by
      rw [Bool.or_eq_true, decide_eq_true_eq, hbeforeIff]
    have hsame : (decide (vertex.timestamp > toTime) || before) = now ↔
        (vertex.timestamp > toTime ∨ DeletingRow c (pastScan c vertex instant) ↔
          DeletingRow c (nowScan c vertex)) := by
      rw [Bool.eq_iff_iff, hwas, hnowIff]
    rw [hsame, hwas, hnowIff]
    exact Iff.rfl
  · rw [hrun]
    split_ifs <;> rfl
  · rw [hrun]
    split_ifs <;> rfl

end

end Memory

/-! ## §3. Both stores. -/

/-- An entry that deletes the vertex a bundle has just created. -/
def deletingEntry : ChangeBuilder :=
  .entry {
    container := some ⟨0, 0, 1⟩
    behavior := .vertex
    contains := some (.deletion true) }

/-- Two chains create a vertex each; the later one is deleted at once. -/
def vertexWriters : List BundleBuilder :=
  [startingBundle 5 1 [.container ⟨.vertex⟩],
    startingBundle 7 2 [.container ⟨.vertex⟩, deletingEntry]]

/-- An `LmdbStore` that has both vertices. -/
def vertexLmdb : Lmdb.Contents :=
  (Lmdb.runCalls (sampleExternals vertexWriters) (Lmdb.newStore ∅ true true)
    [Lmdb.sampleCall 0 1, Lmdb.sampleCall 1 2]).db.contents

/-- A `MemoryStore` that has both vertices. -/
def vertexMemory : Memory.Contents :=
  (Memory.runCalls (sampleExternals vertexWriters) (Memory.newStore [] true)
    [{ bundle := sampleBundle 0 }, { bundle := sampleBundle 1 }]).contents

theorem vertexLmdb_rows : Lmdb.VertexRows vertexLmdb ⟨7, 2, 1⟩ := by
  have hrows : vertexLmdb.placements.rows =
      [(vertexKey ⟨7, 2, 1⟩ ⟨7, 2, 2⟩ (packSigned 0), (⟨7, 2, 2⟩ : Muid).toBytes)] := by
    decide +kernel
  intro row hrow _
  rw [hrows, List.mem_singleton] at hrow
  exact ⟨⟨7, 2, 2⟩, packSigned 0, hrow, by decide⟩

end Gink
