/-
  Gink.Sync.HasMap — how far along each chain a store or a peer is (has_map.py).

  A `HasMap` is what a greeting says, and what a connection keeps about its peer:
  the timestamp each chain is known through.
-/
import Gink.Proto.BundleInfo
import Gink.Table.Sorted

namespace Gink

/-- `HasMap`. -/
structure HasMap where
  data : Table Chain U64 := ∅
  deriving Inhabited

namespace HasMap

/-! ## §1. Queries about chains. -/

/-- `self._data.get(chain, 0)`. -/
def seenThrough (m : HasMap) (chain : Chain) : U64 := (m.data.get? chain).getD 0

/-- `get_subset(chains)`. -/
def getSubset (m : HasMap) (chains : List Chain) : HasMap :=
  ⟨chains.foldl (fun data chain => match m.data.get? chain with
    | some seen => data.put chain seen
    | none => data) ∅⟩

/-- `is_valid_extension(bundle_info)`. -/
def isValidExtension (m : HasMap) (info : BundleInfo) : Bool :=
  decide (info.timestamp = info.chainStart) || decide (m.data.get? info.chain = some info.previous)

/-- `mark_as_having(bundle_info)`. -/
def markAsHaving (m : HasMap) (info : BundleInfo) : HasMap :=
  if m.seenThrough info.chain < info.timestamp then ⟨m.data.put info.chain info.timestamp⟩ else m

/-- `has(bundle_info)`. -/
def has (m : HasMap) (info : BundleInfo) : Bool := decide (info.timestamp ≤ m.seenThrough info.chain)

/-- `to_greeting_message()`: one entry per chain. -/
def toGreeting (m : HasMap) : List (Chain × U64) := m.data.rows

/-- `HasMap(sync_message=greeting)`. -/
def ofGreeting (entries : List (Chain × U64)) : HasMap := ⟨(∅ : Table Chain U64).putAll entries⟩

/-- The map of a store whose chains end with these infos. -/
def ofInfos (infos : List BundleInfo) : HasMap := infos.foldl markAsHaving {}

/-- What is marked is known through, and nothing else changes. -/
theorem seenThrough_markAsHaving (m : HasMap) (info : BundleInfo) (chain : Chain) :
    (m.markAsHaving info).seenThrough chain
      = if chain = info.chain then max (m.seenThrough chain) info.timestamp
        else m.seenThrough chain := by
  unfold markAsHaving
  by_cases hlt : m.seenThrough info.chain < info.timestamp
  · rw [if_pos hlt]
    show ((m.data.put info.chain info.timestamp).get? chain).getD 0 = _
    rw [Table.get?_put]
    by_cases hc : chain = info.chain
    · subst hc
      rw [if_pos rfl, if_pos rfl, max_eq_right hlt.le]
      rfl
    · rw [if_neg hc, if_neg hc]
      rfl
  · rw [if_neg hlt]
    by_cases hc : chain = info.chain
    · subst hc
      rw [if_pos rfl, max_eq_left (not_lt.mp hlt)]
    · rw [if_neg hc]

theorem has_markAsHaving (m : HasMap) (info : BundleInfo) : (m.markAsHaving info).has info = true := by
  unfold has
  rw [decide_eq_true_eq, seenThrough_markAsHaving, if_pos rfl]
  exact le_max_right _ _

/-- What a peer has stays known. -/
theorem has_of_has {m : HasMap} {info : BundleInfo} (other : BundleInfo) (h : m.has info = true) :
    (m.markAsHaving other).has info = true := by
  unfold has at h ⊢
  rw [decide_eq_true_eq] at h ⊢
  rw [seenThrough_markAsHaving]
  by_cases hc : info.chain = other.chain
  · rw [if_pos hc]
    exact h.trans (le_max_left _ _)
  · rw [if_neg hc]
    exact h

/-! ## §2. Queries about addresses. -/

/-- Tuples of two ints compare one after the other. -/
def pairLe (a b : Int × Int) : Bool := decide (a.1 < b.1) || (decide (a.1 = b.1) && decide (a.2 ≤ b.2))

/-- A chain as the tuple it is compared as. -/
def pairOf (chain : Chain) : Int × Int := (chain.medallion.val, chain.chainStart.val)

/-- The chains between `Chain(what.medallion, 0)` and `Chain(what.medallion, what.timestamp)`. -/
def inRange (what : Muid) (chain : Chain) : Bool :=
  pairLe (what.medallion, 0) (pairOf chain) && pairLe (pairOf chain) (what.medallion, what.timestamp)

/-- `has(muid)`. -/
def hasMuid (m : HasMap) (what : Muid) : Bool :=
  (m.data.rowsWhere (inRange what)).any fun row =>
    decide ((row.1.chainStart.val : Int) ≤ what.timestamp) &&
      decide (what.timestamp ≤ (row.2.val : Int))

/-- The range holds the chains of the medallion that start by the timestamp. -/
theorem inRange_iff (what : Muid) (chain : Chain) :
    inRange what chain = true ↔
      (chain.medallion.val : Int) = what.medallion ∧ (chain.chainStart.val : Int) ≤ what.timestamp := by
  unfold inRange pairLe pairOf
  simp only [Bool.and_eq_true, Bool.or_eq_true, decide_eq_true_eq]
  omega

theorem hasMuid_iff (m : HasMap) (what : Muid) :
    m.hasMuid what = true ↔ ∃ chain seen, m.data.get? chain = some seen ∧
      (chain.medallion.val : Int) = what.medallion ∧
      (chain.chainStart.val : Int) ≤ what.timestamp ∧ what.timestamp ≤ (seen.val : Int) := by
  unfold hasMuid
  simp only [List.any_eq_true, Table.mem_rowsWhere, inRange_iff, Bool.and_eq_true, decide_eq_true_eq]
  constructor
  · rintro ⟨⟨chain, seen⟩, ⟨hrow, hmedallion, -⟩, hstart, hthrough⟩
    exact ⟨chain, seen, Table.get?_eq_some_iff.mpr hrow, hmedallion, hstart, hthrough⟩
  · rintro ⟨chain, seen, hget, hmedallion, hstart, hthrough⟩
    exact ⟨(chain, seen), ⟨Table.get?_eq_some_iff.mp hget, hmedallion, hstart⟩, hstart, hthrough⟩

/-! ## §3. What a sequence of marks leaves. -/

/-- The timestamps marked along a chain; 0 is what nothing seen reads as. -/
def Marked (infos : List BundleInfo) (chain : Chain) (t : U64) : Prop :=
  t ≠ 0 ∧ ∃ i ∈ infos, i.chain = chain ∧ i.timestamp = t

theorem ofInfos_concat (infos : List BundleInfo) (info : BundleInfo) :
    ofInfos (infos ++ [info]) = (ofInfos infos).markAsHaving info := by
  unfold ofInfos
  rw [List.foldl_concat]

/-- A chain is seen as far as something is marked. -/
theorem le_seenThrough_iff (infos : List BundleInfo) (chain : Chain) (t : U64) :
    t ≤ (ofInfos infos).seenThrough chain ↔ t = 0 ∨ ∃ i ∈ infos, i.chain = chain ∧ t ≤ i.timestamp := by
  induction infos using List.reverseRecOn with
  | nil =>
      show t ≤ 0 ↔ _
      simp
  | append_singleton infos info ih =>
      rw [ofInfos_concat, seenThrough_markAsHaving]
      by_cases hc : chain = info.chain
      · rw [if_pos hc, le_max_iff, ih]
        constructor
        · rintro ((h0 | ⟨i, hi, h⟩) | h)
          · exact Or.inl h0
          · exact Or.inr ⟨i, List.mem_append_left _ hi, h⟩
          · exact Or.inr ⟨info, List.mem_append_right _ List.mem_cons_self, hc.symm, h⟩
        · rintro (h0 | ⟨i, hi, hic, h⟩)
          · exact Or.inl (Or.inl h0)
          · rcases List.mem_append.mp hi with hi | hi
            · exact Or.inl (Or.inr ⟨i, hi, hic, h⟩)
            · rw [List.mem_singleton] at hi
              exact Or.inr (hi ▸ h)
      · rw [if_neg hc, ih]
        refine or_congr_right ⟨?_, ?_⟩
        · rintro ⟨i, hi, h⟩
          exact ⟨i, List.mem_append_left _ hi, h⟩
        · rintro ⟨i, hi, hic, h⟩
          rcases List.mem_append.mp hi with hi | hi
          · exact ⟨i, hi, hic, h⟩
          · rw [List.mem_singleton] at hi
            exact absurd (hi ▸ hic.symm) hc

/-- Nothing is marked with 0. -/
theorem ofInfos_ne_zero (infos : List BundleInfo) (chain : Chain) :
    (ofInfos infos).data.get? chain ≠ some 0 := by
  induction infos using List.reverseRecOn with
  | nil => exact fun h => nomatch h
  | append_singleton infos info ih =>
      rw [ofInfos_concat]
      unfold markAsHaving
      split_ifs with hlt
      · rw [Table.get?_put]
        split_ifs with hc
        · intro h
          rw [Option.some.inj h] at hlt
          exact absurd hlt (Fin.not_lt_zero _)
        · exact ih
      · exact ih

theorem get?_eq_some_iff (infos : List BundleInfo) (chain : Chain) (seen : U64) :
    (ofInfos infos).data.get? chain = some seen ↔
      seen ≠ 0 ∧ (ofInfos infos).seenThrough chain = seen := by
  have hne := ofInfos_ne_zero infos chain
  unfold seenThrough
  cases h : (ofInfos infos).data.get? chain with
  | none =>
      constructor
      · exact fun h => nomatch h
      · rintro ⟨h0, hseen⟩
        exact absurd hseen.symm h0
  | some old =>
      rw [h] at hne
      constructor
      · rintro ⟨⟩
        exact ⟨fun h0 => hne (h0 ▸ rfl), rfl⟩
      · rintro ⟨-, rfl⟩
        rfl

/-- **The map is the maximum of the marks**, chain by chain. -/
theorem get?_iff_greatest (infos : List BundleInfo) (chain : Chain) (seen : U64) :
    (ofInfos infos).data.get? chain = some seen ↔ IsGreatest {t | Marked infos chain t} seen := by
  have hmarked : ∀ t, Marked infos chain t → t ≤ (ofInfos infos).seenThrough chain := by
    rintro t ⟨-, i, hi, hc, rfl⟩
    exact (le_seenThrough_iff infos chain _).mpr (Or.inr ⟨i, hi, hc, le_rfl⟩)
  -- what is seen, if anything, is one of the marks
  have hattained : (ofInfos infos).seenThrough chain ≠ 0 →
      Marked infos chain ((ofInfos infos).seenThrough chain) := by
    intro h0
    obtain hzero | ⟨i, hi, hc, hle⟩ := (le_seenThrough_iff infos chain _).mp le_rfl
    · exact absurd hzero h0
    · have hge := (le_seenThrough_iff infos chain i.timestamp).mpr (Or.inr ⟨i, hi, hc, le_rfl⟩)
      exact ⟨h0, i, hi, hc, le_antisymm hge hle⟩
  rw [get?_eq_some_iff]
  constructor
  · rintro ⟨h0, rfl⟩
    exact ⟨hattained h0, hmarked⟩
  · rintro ⟨hseen, hgreatest⟩
    have hle := hmarked seen hseen
    have h0 : (ofInfos infos).seenThrough chain ≠ 0 := by
      intro hzero
      rw [hzero] at hle
      exact hseen.1 (le_antisymm hle (Fin.zero_le _))
    exact ⟨hseen.1, le_antisymm (hgreatest (hattained h0)) hle⟩

/-- The same marks in any order, any number of times, leave the same map. -/
theorem ofInfos_congr {infos infos' : List BundleInfo}
    (h : ∀ chain t, Marked infos chain t ↔ Marked infos' chain t) : ofInfos infos = ofInfos infos' := by
  have hdata : (ofInfos infos).data = (ofInfos infos').data := by
    refine Table.ext_get? fun chain => Option.ext fun seen => ?_
    rw [get?_iff_greatest, get?_iff_greatest]
    have hmarks : {t | Marked infos chain t} = {t | Marked infos' chain t} := Set.ext (h chain)
    rw [hmarks]
  generalize ofInfos infos = m at hdata ⊢
  generalize ofInfos infos' = m' at hdata ⊢
  cases m
  cases m'
  exact congrArg HasMap.mk hdata

/-- **A greeting says it all**: the map read out of a greeting is the map it was made from. -/
theorem ofGreeting_toGreeting (m : HasMap) : ofGreeting m.toGreeting = m := by
  have hdata : (∅ : Table Chain U64).putAll m.data.rows = m.data := by
    have hfun : ∀ x ∈ m.data.rows, ∀ y ∈ m.data.rows, x.1 = y.1 → x.2 = y.2 := by
      rintro ⟨k, v⟩ hx ⟨k', w⟩ hy hkey
      obtain rfl : k = k' := hkey
      exact Table.eq_of_mem_of_mem hx hy
    refine Table.ext_get? fun chain => Option.ext fun seen => ?_
    rw [Table.get?_putAll _ hfun, Table.get?_eq_some_iff (t := m.data)]
    simp
  unfold ofGreeting toGreeting
  rw [hdata]

end HasMap

end Gink
