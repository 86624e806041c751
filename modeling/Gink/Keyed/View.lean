/-
  Gink.Keyed.View — what a keyed container holds at a time.

  The abstract side of keyed reads, the same for both stores: which addresses wrote to
  which key, when the container was cleared, and which entry an address stands for.
  From these follows the one record a key has at a time, if it has one.
-/
import Gink.Keyed.Order
import Mathlib

namespace Gink

/-- What the tables of a store say about one keyed container. -/
structure KeyedView where
  /-- the key was written by the entry with this address -/
  has : MiddleKey → Muid → Prop
  /-- the container was cleared by the clearance with this address -/
  cleared : Muid → Prop
  builderOf : Muid → Option EntryBuilder

namespace KeyedView

/-- The address is before the time `t`; -1 stands past all ordinary times. -/
def Before (t : Int) (m : Muid) : Prop := m.timeField.val < Muid.instantField t

/-- Being before `t` is being below its instant. -/
theorem before_iff {t : Int} {i : Muid} (hi : Muid.instant t = .ok i) (m : Muid) :
    Before t m ↔ m < i := by
  rw [Muid.lt_instant_iff hi, Fin.lt_def]
  obtain ⟨-, rfl⟩ := Muid.instant_eq_ok.mp hi
  have hval : (Muid.field (2 ^ 52) t).val = Muid.instantField t := by
    have := Muid.val_field (2 ^ 52) t
    unfold Muid.instantField
    omega
  show m.timeField.val < Muid.instantField t ↔ m.timeField.val < (Muid.field (2 ^ 52) t).val
  rw [hval]

/-- Times before `t` are ordinary ones. -/
theorem Before.timestamp {t : Int} {i m : Muid} (hi : Muid.instant t = .ok i) (h : Before t m) :
    m.timestamp = m.timeField.val := by
  have hlt := (before_iff hi m).mp h
  rw [Muid.lt_instant_iff hi] at hlt
  have := i.timeField.isLt
  exact Muid.timestamp_of_ne (by omega)

variable (v : KeyedView) (t : Int)

/-- `m` is the last address that wrote to the key before `t`. -/
def Visible (k : MiddleKey) (m : Muid) : Prop := IsGreatest {m | v.has k m ∧ Before t m} m

/-- `m` is the last address that wrote to the key at all. -/
def Newest (k : MiddleKey) (m : Muid) : Prop := IsGreatest {m | v.has k m} m

/-- `m` is older than the latest clearance before `t`. -/
def Hidden (m : Muid) : Prop :=
  ∃ z, IsGreatest {z | v.cleared z ∧ Before t z} z ∧ m.timeField < z.timeField

/-- **The record of a key**: what was last written to it before `t`, unless it is older
than the latest clearance before `t`. -/
structure IsRecord (k : MiddleKey) (r : FoundEntry) : Prop where
  visible : v.Visible t k r.address
  kept : ¬ v.Hidden t r.address
  builder : v.builderOf r.address = some r.builder

/-- A listing yields each key's record once and nothing else. -/
def ListsRight (listing : Except Error (List FoundEntry)) : Prop :=
  ∃ pairs : List (MiddleKey × FoundEntry), listing = .ok (pairs.map Prod.snd) ∧
    (pairs.map Prod.fst).Nodup ∧ ∀ k r, (k, r) ∈ pairs ↔ v.IsRecord t k r

/-- A lookup of any key of the kind finds its record, if it has one. -/
def LooksUpRight (behavior : Behavior) (lookup : MiddleKey → Except Error (Option FoundEntry)) :
    Prop :=
  ∀ k b, KeyOf behavior k → k.toBytes = .ok b →
    ∃ found, lookup k = .ok found ∧ ∀ r, found = some r ↔ v.IsRecord t k r

/-- A store holds finitely many entries and clearances. -/
structure Finite : Prop where
  has : ∀ k, {m | v.has k m}.Finite
  cleared : {z | v.cleared z}.Finite

theorem exists_greatest {s : Set Muid} (hs : s.Finite) (hne : s.Nonempty) : ∃ m, IsGreatest s m := by
  obtain ⟨m, hm, hmax⟩ := Set.exists_max_image s id hs hne
  exact ⟨m, hm, hmax⟩

variable {v t}

/-- A key that was written to before `t` has a last address that did. -/
theorem Finite.visible (hv : v.Finite) {k : MiddleKey} {m : Muid} (hm : v.has k m)
    (hb : Before t m) : ∃ n, v.Visible t k n :=
  exists_greatest ((hv.has k).subset fun _ hn => hn.1) ⟨m, hm, hb⟩

/-- What some clearance before `t` is later than is hidden. -/
theorem Finite.hidden (hv : v.Finite) {m z : Muid} (hz : v.cleared z) (hb : Before t z)
    (hlt : m.timeField < z.timeField) : v.Hidden t m := by
  obtain ⟨y, hy⟩ := exists_greatest (s := {z | v.cleared z ∧ Before t z})
    (hv.cleared.subset fun _ hn => hn.1) ⟨z, hz, hb⟩
  refine ⟨y, hy, lt_of_lt_of_le hlt ?_⟩
  exact Muid.timeField_le_of_le (hy.2 ⟨hz, hb⟩)

theorem Visible.unique {k : MiddleKey} {m n : Muid} (hm : v.Visible t k m)
    (hn : v.Visible t k n) : m = n := IsGreatest.unique hm hn

/-- The newest address is the last before any time past it. -/
theorem Newest.visible {k : MiddleKey} {m : Muid} (h : v.Newest k m) (hb : Before t m) :
    v.Visible t k m :=
  ⟨⟨h.1, hb⟩, fun _ hn => h.2 hn.1⟩

theorem Visible.before {k : MiddleKey} {m : Muid} (h : v.Visible t k m) : Before t m := h.1.2

/-- A key has one record at most. -/
theorem IsRecord.unique {k : MiddleKey} {r r' : FoundEntry} (h : v.IsRecord t k r)
    (h' : v.IsRecord t k r') : r = r' := by
  have haddress := h.visible.unique h'.visible
  have hbuilder := h.builder
  rw [haddress, h'.builder] at hbuilder
  injection hbuilder with hbuilder
  obtain ⟨a, b⟩ := r
  obtain ⟨a', b'⟩ := r'
  simp only at haddress hbuilder
  rw [haddress, hbuilder]

/-- Everything a right listing yields was written before `t`. -/
theorem ListsRight.before {records : List FoundEntry} (h : v.ListsRight t (.ok records))
    {r : FoundEntry} (hr : r ∈ records) : Before t r.address := by
  obtain ⟨pairs, hlist, -, hpairs⟩ := h
  injection hlist with hlist
  rw [hlist] at hr
  obtain ⟨⟨k, r'⟩, hmem, rfl⟩ := List.mem_map.mp hr
  exact ((hpairs k r').mp hmem).visible.before

/-- **A listing of some records only** is right exactly when it leaves none out. -/
theorem listsRight_iff_of_subset {pairs : List (MiddleKey × FoundEntry)}
    (hnodup : (pairs.map Prod.fst).Nodup) (hsub : ∀ k r, (k, r) ∈ pairs → v.IsRecord t k r) :
    v.ListsRight t (.ok (pairs.map Prod.snd)) ↔ ∀ k r, v.IsRecord t k r → (k, r) ∈ pairs := by
  constructor
  · rintro ⟨pairs', hlist, hnodup', hpairs'⟩ k r hrecord
    injection hlist with hlist
    have hlen : pairs'.length ≤ pairs.length := by
      have := congrArg List.length hlist
      simp only [List.length_map] at this
      omega
    have hsubset : pairs ⊆ pairs' := fun x hx => (hpairs' x.1 x.2).mpr (hsub x.1 x.2 hx)
    have hperm := (List.subperm_of_subset (List.Nodup.of_map _ hnodup) hsubset).perm_of_length_le hlen
    exact hperm.mem_iff.mpr ((hpairs' k r).mpr hrecord)
  · intro hall
    exact ⟨pairs, rfl, hnodup, fun k r => ⟨hsub k r, hall k r⟩⟩

end KeyedView

end Gink
