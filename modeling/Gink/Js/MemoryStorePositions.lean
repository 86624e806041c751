/-
  Gink.Js.MemoryStorePositions — the order in which a JavaScript `MemoryStore` lists an
  ordered container (MemoryStore.ts, getOrderedEntriesSync).

  A position is written into the key of a placement as a decimal number of no fixed length,
  so positions are listed in the order of their texts; reading backwards starts from the
  text of the as-of time, reading forwards from the first row of the container.
-/
import Gink.Js.MemoryStoreRows
import Gink.Js.OrderedConvergence

namespace Gink

namespace Js

namespace MemoryStore

/-! ## §1. What a read is to list. -/

/-- The position of an entry of an ordered container. -/
def position (e : Entry) : Int :=
  match e.storageKey with
  | .number n => n
  | _ => 0

/-- Every entry of the container has a position. -/
def IsOrderedContainer (c : Contents) (container : MuidTuple) : Prop :=
  ∀ r ∈ c.placements.rows, r.2.containerId = container → ∃ n, r.2.storageKey = .number n

/-- By position, and by placement where positions are equal. -/
def Precedes (a b : Entry) : Prop :=
  position a < position b ∨ position a = position b ∧ a.placementId.Before b.placementId

/-- The reads of a container list its entries up to a position in order: all of them, the
first so many and, from the end, the last so many. -/
def ReadsInOrder (read : Option Int → Except JsError (List (Str × Entry))) (shown : Entry → Prop)
    (t : Int) : Prop :=
  ∃ l, read none = .ok l ∧ (∀ e, e ∈ l.map Prod.snd ↔ shown e ∧ position e ≤ t) ∧
    (l.map Prod.snd).Pairwise Precedes ∧
    (∀ k : Nat, read (some k) = .ok (l.take (k + 1))) ∧
    ∀ k : Nat, 0 < k → read (some (-k)) = .ok (l.reverse.take k)

/-- What `asOf` stands for. -/
def asOfTime (trxns : List Int) (now : Int) : Option Int → Except JsError Int
  | none => pure now
  | some a => if a = 0 then pure now else asOfToTimestamp trxns a

/-- No visible entry has a position after the time, the positions sort like their texts, and
these sort before the text of the time. -/
structure TextsInOrder (shown : Entry → Prop) (t : Int) : Prop where
  bounded : ∀ e, shown e → position e ≤ t
  sorted : ∀ e e', shown e → shown e' → position e < position e' →
    decimal (position e) < decimal (position e')
  below : ∀ e, shown e → decimal (position e) < decimal t

/-! ## §2. The loop. -/

/-- At most so many, if a number is given. -/
def limited {α : Type} : Option Nat → List α → List α
  | none, l => l
  | some n, l => l.take n

variable {c : Contents} {t : Int} {container : MuidTuple}

/-- What a row is returned as. -/
def returned (r : Str × Entry) : Str × Entry := (r.1.drop 35, r.2)

/-- The row is the container's, and not passed over. -/
def isListed (c : Contents) (container : MuidTuple) (t : Int) (r : Str × Entry) : Bool :=
  decide (r.1.take 34 = muidTupleToString container) &&
    !passesOver c (getLastClearanceTime c (muidTupleToString container) t) t r.1

/-- **The loop** takes what it needs of the rows before the first of another container. -/
theorem collect_eq_limited (rows : List (Str × Entry)) (hrows : ∀ r ∈ rows, r ∈ c.placements.rows)
    (h : Spelled c) (clearanceTime asOfTs : Int) (needed : Option Nat) :
    collect c (muidTupleToString container) clearanceTime asOfTs needed rows =
      .ok ((limited needed ((rows.takeWhile fun r =>
        decide (r.1.take 34 = muidTupleToString container)).filter fun r =>
          !passesOver c clearanceTime asOfTs r.1)).map returned) := by
  induction rows generalizing needed with
  | nil => cases needed <;> simp [collect, limited]
  | cons r rest ih =>
      obtain ⟨k, entry⟩ := r
      have hrest := fun needed => ih (fun r hr => hrows r (List.mem_cons_of_mem _ hr)) needed
      unfold collect
      by_cases hdone : needed = some 0
      · rw [if_pos hdone, hdone]
        rfl
      rw [if_neg hdone]
      by_cases hcontainer : k.take 34 = muidTupleToString container
      · rw [if_neg (not_not.mpr hcontainer), List.takeWhile_cons_of_pos (by simpa using hcontainer)]
        by_cases hpasses : passesOver c clearanceTime asOfTs k = true
        · rw [if_pos hpasses, hrest, List.filter_cons_of_neg (by simpa using hpasses)]
        · obtain ⟨hkey, hstands⟩ := h.placements _ (hrows _ List.mem_cons_self)
          have hsame : muidTupleToString entry.containerId = muidTupleToString container := by
            rw [← hcontainer, show k = placementKey entry from hkey]
            exact hstands.take.symm
          rw [if_neg hpasses, if_neg (not_not.mpr hsame), hrest,
            List.filter_cons_of_pos (by simpa using hpasses)]
          cases needed with
          | none => rfl
          | some n =>
              cases n with
              | zero => exact absurd rfl hdone
              | succ n => rfl
      · rw [if_pos hcontainer, List.takeWhile_cons_of_neg (by simpa using hcontainer)]
        cases needed <;> simp [limited]

/-- Where a property holds of a beginning only, the beginning is all it holds of. -/
theorem takeWhile_eq_filter {α : Type} {p : α → Bool} {l : List α}
    (h : l.Pairwise fun a b => p b = true → p a = true) : l.takeWhile p = l.filter p := by
  induction l with
  | nil => rfl
  | cons a rest ih =>
      obtain ⟨hfirst, hrest⟩ := List.pairwise_cons.mp h
      by_cases ha : p a = true
      · rw [List.takeWhile_cons_of_pos ha, List.filter_cons_of_pos ha, ih hrest]
      · rw [List.takeWhile_cons_of_neg ha, List.filter_cons_of_neg ha, eq_comm,
          List.filter_eq_nil_iff]
        exact fun b hb hpb => ha (hfirst b hb hpb)

/-- A key is the container's when it starts with its spelling. -/
theorem take_eq_iff (hnamed : Named container) {k : Str} :
    k.take 34 = muidTupleToString container ↔ muidTupleToString container <+: k := by
  rw [← hnamed.length, List.prefix_iff_eq_take]
  exact eq_comm

/-- The rows of a container that are listed. -/
def listedRows (c : Contents) (container : MuidTuple) (t : Int) : List (Str × Entry) :=
  c.placements.rows.filter (isListed c container t)

/-- **Forwards** the rows of the container are met in the order of their keys. -/
theorem forward_rows (hnamed : Named container) :
    ((c.placements.rowsWhere fun k => decide (muidTupleToString container ≤ k)).takeWhile fun r =>
      decide (r.1.take 34 = muidTupleToString container)).filter (fun r => !passesOver c
        (getLastClearanceTime c (muidTupleToString container) t) t r.1) =
      listedRows c container t := by
  have hstart : (c.placements.rowsWhere fun k => decide (muidTupleToString container ≤ k)).Pairwise
      fun a b => decide (b.1.take 34 = muidTupleToString container) = true →
        decide (a.1.take 34 = muidTupleToString container) = true := by
    refine (List.pairwise_iff_forall_sublist.mpr ?_)
    intro a b hsub hb
    have hsorted := List.pairwise_iff_forall_sublist.mp (Table.rowsWhere_sorted c.placements _) hsub
    have ha := of_decide_eq_true (Table.mem_rowsWhere.mp (hsub.subset List.mem_cons_self)).2
    rw [decide_eq_true_eq, take_eq_iff hnamed] at hb ⊢
    exact startsWith_of_le_of_le (List.prefix_refl _) hb ha hsorted.le
  rw [takeWhile_eq_filter hstart, List.filter_filter]
  unfold Table.rowsWhere listedRows
  rw [List.filter_filter]
  apply List.filter_congr
  intro r _
  unfold isListed
  by_cases hr : r.1.take 34 = muidTupleToString container
  · have hle : muidTupleToString container ≤ r.1 :=
      not_lt.mp (List.not_lt.mpr ((take_eq_iff hnamed).mp hr).le)
    simp [hr, hle]
  · simp [hr]

/-- **Backwards** those of them are met whose keys are not above the text of the time, the
last one first. -/
theorem backward_rows (hnamed : Named container) :
    ((c.placements.rowsWhere fun k => decide (k ≤ joinedIds (muidTupleToString container)
        (decimal t))).reverse.takeWhile fun r =>
      decide (r.1.take 34 = muidTupleToString container)).filter (fun r => !passesOver c
        (getLastClearanceTime c (muidTupleToString container) t) t r.1) =
      ((listedRows c container t).filter fun r =>
        decide (r.1 ≤ joinedIds (muidTupleToString container) (decimal t))).reverse := by
  have hstart : (c.placements.rowsWhere fun k => decide (k ≤ joinedIds
      (muidTupleToString container) (decimal t))).reverse.Pairwise
      fun a b => decide (b.1.take 34 = muidTupleToString container) = true →
        decide (a.1.take 34 = muidTupleToString container) = true := by
    rw [List.pairwise_reverse]
    refine (List.pairwise_iff_forall_sublist.mpr ?_)
    intro a b hsub ha
    have hsorted := List.pairwise_iff_forall_sublist.mp (Table.rowsWhere_sorted c.placements _) hsub
    have hb := of_decide_eq_true (Table.mem_rowsWhere.mp
      (hsub.subset (List.mem_cons_of_mem _ List.mem_cons_self))).2
    rw [decide_eq_true_eq, take_eq_iff hnamed] at ha ⊢
    refine startsWith_of_le_of_le ha ?_ hsorted.le hb
    show muidTupleToString container <+: muidTupleToString container ++ comma ++ decimal t
    rw [List.append_assoc]
    exact List.prefix_append _ _
  rw [takeWhile_eq_filter hstart, List.filter_filter]
  unfold Table.rowsWhere listedRows
  rw [List.filter_reverse, List.filter_filter, List.filter_filter]
  congr 1
  apply List.filter_congr
  intro r _
  unfold isListed
  by_cases hr : r.1.take 34 = muidTupleToString container
  · simp [hr, Bool.and_comm]
  · simp [hr]

/-- Of two members of such a list one is related to the other. -/
theorem either_of_pairwise {α : Type} {R : α → α → Prop} {l : List α} (h : l.Pairwise R) {a b : α}
    (ha : a ∈ l) (hb : b ∈ l) (hne : a ≠ b) : R a b ∨ R b a := by
  induction h with
  | nil => cases ha
  | @cons x rest hfirst _ ih =>
      rcases List.mem_cons.mp ha with rfl | ha'
      · rcases List.mem_cons.mp hb with rfl | hb'
        · exact absurd rfl hne
        · exact Or.inl (hfirst b hb')
      · rcases List.mem_cons.mp hb with rfl | hb'
        · exact Or.inr (hfirst a ha')
        · exact ih ha' hb'

/-! ## §3. The reads. -/

section
variable {trxns : List Int} {now : Int} {asOf : Option Int}

theorem getOrderedEntries_resolved (hasOf : asOfTime trxns now asOf = .ok t)
    (through : Option Int) :
    getOrderedEntries c trxns now container through asOf =
      match through with
      | none => collect c (muidTupleToString container)
          (getLastClearanceTime c (muidTupleToString container) t) t none
          (c.placements.rowsWhere fun k => decide (muidTupleToString container ≤ k))
      | some n => if n < 0 then collect c (muidTupleToString container)
          (getLastClearanceTime c (muidTupleToString container) t) t (some (-n).toNat)
          (c.placements.rowsWhere fun k => decide (k ≤ joinedIds (muidTupleToString container)
            (decimal t))).reverse
        else collect c (muidTupleToString container)
          (getLastClearanceTime c (muidTupleToString container) t) t (some (n + 1).toNat)
          (c.placements.rowsWhere fun k => decide (muidTupleToString container ≤ k)) := by
  cases asOf with
  | none =>
      obtain rfl := pure_eq_ok.mp hasOf
      rfl
  | some a =>
      have hasOf : (if a = 0 then pure now else asOfToTimestamp trxns a) = Except.ok t := hasOf
      unfold getOrderedEntries
      by_cases hzero : a = 0
      · rw [if_pos hzero] at hasOf
        obtain rfl := pure_eq_ok.mp hasOf
        simp only [if_pos hzero]
        rfl
      · rw [if_neg hzero] at hasOf
        simp only [if_neg hzero, hasOf]
        rfl

variable (h : Spelled c) (hnamed : Named container) (hasOf : asOfTime trxns now asOf = .ok t)
include h hnamed hasOf

theorem read_all : getOrderedEntries c trxns now container none asOf =
    .ok ((listedRows c container t).map returned) := by
  rw [getOrderedEntries_resolved hasOf]
  dsimp only
  rw [collect_eq_limited _ (fun r hr => (Table.mem_rowsWhere.mp hr).1) h, forward_rows hnamed]
  rfl

theorem read_first (k : Nat) : getOrderedEntries c trxns now container (some k) asOf =
    .ok (((listedRows c container t).map returned).take (k + 1)) := by
  rw [getOrderedEntries_resolved hasOf]
  dsimp only
  rw [if_neg (by omega), collect_eq_limited _ (fun r hr => (Table.mem_rowsWhere.mp hr).1) h,
    forward_rows hnamed, ← List.map_take]
  have hcount : ((k : Int) + 1).toNat = k + 1 := by omega
  rw [hcount]
  rfl

theorem read_last {k : Nat} (hk : 0 < k) :
    getOrderedEntries c trxns now container (some (-k)) asOf =
      .ok ((((listedRows c container t).filter fun r => decide (r.1 ≤ joinedIds
        (muidTupleToString container) (decimal t))).reverse.take k).map returned) := by
  rw [getOrderedEntries_resolved hasOf]
  dsimp only
  rw [if_pos (by omega), collect_eq_limited _
    (fun r hr => (Table.mem_rowsWhere.mp (List.mem_reverse.mp hr)).1) h, backward_rows hnamed]
  have hcount : (- -(k : Int)).toNat = k := by omega
  rw [hcount]
  rfl

end

/-! ## §4. Keys of an ordered container. -/

/-- The key of a placement in an ordered container. -/
theorem placementKey_position {e : Entry} (h : ∃ n, e.storageKey = .number n) :
    placementKey e = joinedIds (muidTupleToString e.containerId)
      (decimal (position e) ++ 44 :: muidTupleToString e.placementId) := by
  obtain ⟨n, hn⟩ := h
  unfold placementKey joinedIds position
  rw [hn]
  show muidTupleToString e.containerId ++ comma ++ decimal n ++ comma ++ _ = _
  simp [comma]

/-- Keys of one container compare by the texts of the positions, then by the placements. -/
theorem placementKey_lt {e e' : Entry} (h : ∃ n, e.storageKey = .number n)
    (h' : ∃ n, e'.storageKey = .number n) (hsame : e.containerId = e'.containerId)
    (hp : Dated e.placementId) (hp' : Dated e'.placementId) :
    placementKey e < placementKey e' ↔ decimal (position e) < decimal (position e') ∨
      decimal (position e) = decimal (position e') ∧ e.placementId.Before e'.placementId := by
  rw [placementKey_position h, placementKey_position h', hsame, ← not_le, joinedIds_le_joinedIds,
    not_le, separated_lt_iff comma_lt_decimal comma_lt_decimal, spelling_lt hp.muid hp'.muid]
  exact Iff.rfl

theorem placementKey_le_time {e : Entry} (h : ∃ n, e.storageKey = .number n) :
    placementKey e ≤ joinedIds (muidTupleToString e.containerId) (decimal t) ↔
      decimal (position e) < decimal t := by
  rw [placementKey_position h, joinedIds_le_joinedIds,
    separated_le_iff comma_lt_decimal comma_lt_decimal]

section
variable (h : Spelled c) (ht : 0 < t ∧ t < 16 ^ 13) (hnamed : Named container)
include h ht hnamed

theorem mem_listedRows {r : Str × Entry} :
    r ∈ listedRows c container t ↔ r ∈ c.placements.rows ∧ Visible c container t r.2 := by
  unfold listedRows
  rw [List.mem_filter]
  refine and_congr_right fun hr => ?_
  rw [h.visible_iff ht hnamed hr]
  unfold isListed
  rw [Bool.and_eq_true, decide_eq_true_eq, Bool.not_eq_true']

/-- What is listed is what is visible. -/
theorem mem_listed {e : Entry} :
    e ∈ ((listedRows c container t).map returned).map Prod.snd ↔ Visible c container t e := by
  rw [List.map_map, List.mem_map]
  constructor
  · intro hmem
    obtain ⟨r, hr, rfl⟩ := hmem
    exact ((mem_listedRows h ht hnamed).mp hr).2
  · intro hv
    obtain ⟨k, hk⟩ := hv.row
    exact ⟨(k, e), (mem_listedRows h ht hnamed).mpr ⟨hk, hv⟩, rfl⟩

variable (hordered : IsOrderedContainer c container)
include hordered

/-- The rows that are listed have keys that say their positions. -/
theorem listed_positioned {r : Str × Entry} (hr : r ∈ listedRows c container t) :
    r.1 = placementKey r.2 ∧ r.2.containerId = container ∧ (∃ n, r.2.storageKey = .number n) ∧
      Dated r.2.placementId ∧ Visible c container t r.2 := by
  obtain ⟨hrow, hv⟩ := (mem_listedRows h ht hnamed).mp hr
  obtain ⟨hkey, hstands⟩ := h.placements r hrow
  exact ⟨hkey, hv.within, hordered r hrow hv.within, hstands.placement, hv⟩

/-- **In order**: the rows are listed by position if the texts of positions sort like them. -/
theorem listed_pairwise (htexts : TextsInOrder (Visible c container t) t) :
    (((listedRows c container t).map returned).map Prod.snd).Pairwise Precedes := by
  rw [List.map_map, List.pairwise_map]
  have hsorted : (listedRows c container t).Pairwise fun a b => a.1 < b.1 :=
    c.placements.sorted.filter _
  refine hsorted.imp_of_mem ?_
  intro a b ha hb hlt
  show Precedes a.2 b.2
  obtain ⟨hka, hca, hna, hpa, hva⟩ := listed_positioned h ht hnamed hordered ha
  obtain ⟨hkb, hcb, hnb, hpb, hvb⟩ := listed_positioned h ht hnamed hordered hb
  rw [hka, hkb, placementKey_lt hna hnb (hca.trans hcb.symm) hpa hpb] at hlt
  rcases lt_trichotomy (position a.2) (position b.2) with hless | heq | hmore
  · exact Or.inl hless
  · rcases hlt with hlt | ⟨-, hbefore⟩
    · rw [heq] at hlt
      exact absurd hlt (lt_irrefl _)
    · exact Or.inr ⟨heq, hbefore⟩
  · -- the texts would sort the other way
    have hother := htexts.sorted b.2 a.2 hvb hva hmore
    rcases hlt with hlt | ⟨heq, -⟩
    · exact absurd hlt (lt_asymm hother)
    · rw [heq] at hother
      exact absurd hother (lt_irrefl _)

/-- And conversely. -/
theorem texts_sorted (hpairs : (((listedRows c container t).map returned).map Prod.snd).Pairwise
    Precedes) {e e' : Entry} (hv : Visible c container t e) (hv' : Visible c container t e')
    (hlt : position e < position e') : decimal (position e) < decimal (position e') := by
  obtain ⟨k, hk⟩ := hv.row
  obtain ⟨k', hk'⟩ := hv'.row
  have hr := (mem_listedRows h ht hnamed).mpr ⟨hk, hv⟩
  have hr' := (mem_listedRows h ht hnamed).mpr ⟨hk', hv'⟩
  obtain ⟨hkey, hce, hne, hpe, -⟩ := listed_positioned h ht hnamed hordered hr
  obtain ⟨hkey', hce', hne', hpe', -⟩ := listed_positioned h ht hnamed hordered hr'
  have hsorted : (listedRows c container t).Pairwise fun a b => a.1 < b.1 :=
    c.placements.sorted.filter _
  rw [List.map_map, List.pairwise_map] at hpairs
  have hdiffer : (k, e) ≠ (k', e') := by
    intro heq
    injection heq with _ heq
    rw [heq] at hlt
    exact lt_irrefl _ hlt
  -- whichever row comes first has the lower key and the lower position
  rcases either_of_pairwise (hsorted.and hpairs) hr hr' hdiffer with ⟨hkeys, -⟩ | ⟨-, hprecedes⟩
  · have hkeys : k < k' := hkeys
    rw [show k = placementKey e from hkey, show k' = placementKey e' from hkey',
      placementKey_lt hne hne' (hce.trans hce'.symm) hpe hpe'] at hkeys
    rcases hkeys with hless | ⟨heq, -⟩
    · exact hless
    · exact absurd (decimal_injective heq) hlt.ne
  · rcases hprecedes with hback | ⟨heq, -⟩
    · exact absurd hlt (lt_asymm hback)
    · exact absurd heq.symm hlt.ne

end

/-! ## §5. The order of a sequence. -/

/-- **A sequence is read by position** exactly when no visible entry has a position after the
time, the texts of the positions sort like the positions, and they sort before the text of
the time. -/
theorem ordered_by_position_iff {walks : Walks} {keepingHistory : Bool}
    {history : List OpenBundle} (h : History walks keepingHistory history c)
    (hfits : Fitting history) (hnamed : Named container)
    (hordered : IsOrderedContainer c container) (trxns : List Int) (now : Int) (asOf : Option Int)
    (hasOf : asOfTime trxns now asOf = .ok t) (ht : 0 < t ∧ t < 16 ^ 13) :
    ReadsInOrder (fun through => getOrderedEntries c trxns now container through asOf)
      (Visible c container t) t ↔ TextsInOrder (Visible c container t) t := by
  have hspelled := h.spelled hfits
  have hall := read_all hspelled hnamed hasOf
  constructor
  · intro hreads
    obtain ⟨l, hnone, hmem, hpairs, -, hlast⟩ := hreads
    have hlisted := Except.ok.inj (hall.symm.trans hnone)
    subst hlisted
    refine ⟨?_, ?_, ?_⟩
    · exact fun e hv => ((hmem e).mp ((mem_listed hspelled ht hnamed).mpr hv)).2
    · exact fun e e' hv hv' hlt => texts_sorted hspelled ht hnamed hordered hpairs hv hv' hlt
    · intro e hv
      obtain ⟨k, hk⟩ := hv.row
      have hr := (mem_listedRows hspelled ht hnamed).mpr ⟨hk, hv⟩
      obtain ⟨hkey, hce, hne, -, -⟩ := listed_positioned hspelled ht hnamed hordered hr
      -- all that is listed is listed backwards, so it is within the bound
      have hpos : 0 < (listedRows c container t).length := List.length_pos_of_mem hr
      have hback := (read_last hspelled hnamed hasOf hpos).symm.trans (hlast _ hpos)
      have hlength := congrArg List.length (Except.ok.inj hback)
      simp only [List.length_map, List.length_take, List.length_reverse] at hlength
      have hfull : ((listedRows c container t).filter fun r => decide (r.1 ≤ joinedIds
          (muidTupleToString container) (decimal t))).length = (listedRows c container t).length := by
        have := List.length_filter_le (fun r : Str × Entry => decide (r.1 ≤ joinedIds
          (muidTupleToString container) (decimal t))) (listedRows c container t)
        omega
      have hin := of_decide_eq_true (List.length_filter_eq_length_iff.mp hfull _ hr)
      rw [hkey, ← hce, placementKey_le_time hne] at hin
      exact hin
  · intro htexts
    refine ⟨_, hall, ?_, listed_pairwise hspelled ht hnamed hordered htexts, ?_, ?_⟩
    · intro e
      rw [mem_listed hspelled ht hnamed]
      exact (and_iff_left_of_imp (htexts.bounded e)).symm
    · exact fun k => read_first hspelled hnamed hasOf k
    · intro k hk
      have hwithin : (listedRows c container t).filter (fun r => decide (r.1 ≤ joinedIds
          (muidTupleToString container) (decimal t))) = listedRows c container t := by
        refine List.filter_eq_self.mpr fun r hr => ?_
        obtain ⟨hkey, hce, hne, -, hv⟩ := listed_positioned hspelled ht hnamed hordered hr
        rw [decide_eq_true_eq, hkey, ← hce, placementKey_le_time hne]
        exact htexts.below r.2 hv
      show getOrderedEntries c trxns now container (some (-k)) asOf = _
      rw [read_last hspelled hnamed hasOf hk, hwithin, List.map_take, List.map_reverse]

/-! ## §6. Two entries. -/

/-- A sequence entry put at a position, in a bundle of its own. -/
def entryAt (effective : Int) : EntryBuilder where
  container := some (globalBuilder .sequence)
  behavior := .sequence
  effective
  contains := some (.value (.characters "entry"))

def enteredAt (number : Nat) (effective : Int) : OpenBundle :=
  firstOf number [.entry (entryAt effective)]

/-- What a store without purges holds after the bundles. -/
def filledBy (history : List OpenBundle) : Contents :=
  ((applyAll ⟨id, id⟩ true history {}).toOption).getD {}

/-- Two entries at positions of the length of the time. -/
def inStep : List OpenBundle := [enteredAt 1 1600000000000010, enteredAt 2 1600000000000020]

theorem fitting_inStep : Fitting inStep := by
  intro op hop
  have hops : op = ⟨(enteredAt 1 1600000000000010).info, 1, .entry (entryAt 1600000000000010)⟩ ∨
      op = ⟨(enteredAt 2 1600000000000020).info, 1, .entry (entryAt 1600000000000020)⟩ := by
    rcases List.mem_cons.mp hop with rfl | hop
    · exact Or.inl rfl
    · exact Or.inr (List.mem_singleton.mp hop)
  have hglobal : Named ⟨-1, -1, 2⟩ := Or.inr ⟨rfl, rfl, by decide, by decide⟩
  rcases hops with rfl | rfl
  · exact .entry rfl ⟨by decide +kernel, by decide⟩ rfl hglobal rfl trivial
  · exact .entry rfl ⟨by decide +kernel, by decide⟩ rfl hglobal rfl trivial

/-- Entries at positions of the same length are listed in order. -/
theorem ordered_by_position_iff_sample :
    ReadsInOrder (fun through => getOrderedEntries (filledBy inStep) [] 0
        ⟨-1, -1, 2⟩ through (some 1700000000000000))
      (Visible (filledBy inStep) ⟨-1, -1, 2⟩ 1700000000000000)
      1700000000000000 := by
  obtain ⟨c, hc⟩ : ∃ c, applyAll ⟨id, id⟩ true inStep {} = .ok c :=
    ⟨_, rfl⟩
  have hfilled : filledBy inStep = c := by
    unfold filledBy
    rw [hc]
    rfl
  have hhistory : History ⟨id, id⟩ true inStep
      (filledBy inStep) := by
    rw [hfilled]
    exact History.start.applyAll hc
  have hpositions : ∀ r ∈ (filledBy inStep).placements.rows,
      r.2.storageKey = .number 1600000000000010 ∨ r.2.storageKey = .number 1600000000000020 := by decide +kernel
  refine (ordered_by_position_iff hhistory fitting_inStep (Or.inr ⟨rfl, rfl, by decide, by decide⟩)
    ?_ [] 0 (some 1700000000000000) (by rfl) (by norm_num)).mpr ?_
  · intro r hr _
    rcases hpositions r hr with h | h
    · exact ⟨_, h⟩
    · exact ⟨_, h⟩
  · have hposition : ∀ e, Visible (filledBy inStep) ⟨-1, -1, 2⟩
        1700000000000000 e → position e = 1600000000000010 ∨ position e = 1600000000000020 := by
      intro e hv
      obtain ⟨k, hk⟩ := hv.row
      unfold position
      rcases hpositions _ hk with h | h
      · exact Or.inl (by rw [show e.storageKey = _ from h])
      · exact Or.inr (by rw [show e.storageKey = _ from h])
    refine ⟨?_, ?_, ?_⟩
    · intro e hv
      rcases hposition e hv with h | h <;> omega
    · intro e e' hv hv' hlt
      rcases hposition e hv with h | h <;> rcases hposition e' hv' with h' | h' <;>
        rw [h, h'] at hlt ⊢
      · omega
      · decide
      · omega
      · omega
    · intro e hv
      rcases hposition e hv with h | h <;> rw [h] <;> decide

/-- **Position 10 comes before position 9.** -/
theorem ordered_by_text :
    ¬ ReadsInOrder (fun through => getOrderedEntries (filledBy [enteredAt 1 9, enteredAt 2 10]) [] 0
        ⟨-1, -1, 2⟩ through (some 1700000000000000))
      (Visible (filledBy [enteredAt 1 9, enteredAt 2 10]) ⟨-1, -1, 2⟩ 1700000000000000)
      1700000000000000 := by
  intro h
  obtain ⟨l, hread, -, hpairs, -, -⟩ := h
  have hpositions : (getOrderedEntries (filledBy [enteredAt 1 9, enteredAt 2 10]) [] 0
      ⟨-1, -1, 2⟩ none (some 1700000000000000)).toOption.map
        (fun l => (l.map Prod.snd).map position) = some [10, 9] := by decide +kernel
  have hread : getOrderedEntries (filledBy [enteredAt 1 9, enteredAt 2 10]) [] 0
      ⟨-1, -1, 2⟩ none (some 1700000000000000) = .ok l := hread
  rw [hread] at hpositions
  have hlist : (l.map Prod.snd).map position = [10, 9] := Option.some.inj hpositions
  have hle : ((l.map Prod.snd).map position).Pairwise (· ≤ ·) := by
    rw [List.pairwise_map]
    exact hpairs.imp fun hab => hab.elim le_of_lt fun heq => heq.1.le
  rw [hlist] at hle
  exact absurd hle (by decide)

end MemoryStore

end Js

end Gink
