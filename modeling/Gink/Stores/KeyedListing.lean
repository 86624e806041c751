/-
  Gink.Stores.KeyedListing — when a keyed listing agrees with keyed lookups.

  Both are compared with the view of the container, which gives each key one record
  at most.  `LmdbStore` looks up right and lists wrong the keys written on both sides
  of the time; `MemoryStore` goes wrong where the earliest and the latest clearance
  differ for an entry, and does not list every key.
-/
import Gink.Memory.Keyed
import Gink.Lmdb.Keyed
import Gink.Lmdb.KeyedConvergence
import Gink.Proto.Sample

namespace Gink

/-- The listing yields the record of every key once, and the lookup of any key finds
the same record. -/
def KeyedReadsRight (v : KeyedView) (behavior : Behavior) (asOf : Int)
    (listing : Except Error (List FoundEntry))
    (lookup : MiddleKey → Except Error (Option FoundEntry)) : Prop :=
  v.ListsRight asOf listing ∧ v.LooksUpRight asOf behavior lookup

/-- No key was written on both sides of the time. -/
def OneSided (v : KeyedView) (asOf : Int) : Prop :=
  ∀ k m n, v.has k m → v.has k n → KeyedView.Before asOf m → KeyedView.Before asOf n

namespace Lmdb

section
variable {c : Contents} {container : Muid} {behavior : Behavior} {asOf : Int} {instant : Muid}

theorem viewOf_finite (c : Contents) (container : Muid) (behavior : Behavior)
    (expiry : Muid → U64) : (viewOf c container behavior expiry).Finite := by
  constructor
  · intro k
    have hfin : {b | b ∈ c.placements.rows.map Prod.snd}.Finite := List.finite_toSet _
    refine (hfin.preimage Muid.toBytes_injective.injOn).subset ?_
    intro m hm
    obtain ⟨-, b, -, hrow⟩ := hm
    exact List.mem_map.mpr ⟨_, hrow, rfl⟩
  · have hfin : {b | b ∈ c.clearances.rows.map Prod.fst}.Finite := List.finite_toSet _
    have hinj : Function.Injective (fun z : Muid => container.toBytes ++ z.toBytes) := by
      intro x y hxy
      exact Muid.toBytes_injective (List.append_cancel_left hxy)
    refine (hfin.preimage hinj.injOn).subset ?_
    intro z hz
    obtain ⟨value, hrow⟩ := hz
    exact List.mem_map.mpr ⟨_, hrow, rfl⟩

theorem keyedView_finite (c : Contents) (container : Muid) (behavior : Behavior) :
    (keyedView c container behavior).Finite := viewOf_finite c container behavior fun _ => 0

/-- What the listing yields for a key of which all entries are on one side is its
record. -/
theorem listed_iff (hone : OneSided (keyedView c container behavior) asOf) (k : MiddleKey)
    (r : FoundEntry) :
    Listed c container behavior asOf k r ↔ (keyedView c container behavior).IsRecord asOf k r := by
  constructor
  · rintro ⟨hnew, ⟨-, hrecord⟩ | ⟨hafter, m, hm, -⟩⟩
    · exact hrecord
    · exact absurd (hone k m r.address hm.1.1 hnew.1 hm.before) hafter
  · intro hrecord
    have hvisible := hrecord.visible
    refine ⟨⟨hvisible.1.1, ?_⟩, Or.inl ⟨hvisible.before, hrecord⟩⟩
    intro n hn
    exact hvisible.2 ⟨hn, hone k r.address n hvisible.1.1 hn hvisible.before⟩

/-- Listing and lookups of a container of an `LmdbStore` are right. -/
def KeyedRight (c : Contents) (container : Muid) (behavior : Behavior) (asOf : Int) : Prop :=
  KeyedReadsRight (keyedView c container behavior) behavior asOf
    (getKeyedEntries c container behavior asOf) (fun k => getEntryByKey c container k asOf)

/-- **Keyed reads of an `LmdbStore`** are right exactly when no key was written on both
sides of the time. -/
theorem keyedReadsRight_iff (hkc : KeyedContainer c container behavior) (hc : Retained c)
    (hi : Muid.instant asOf = .ok instant) :
    KeyedRight c container behavior asOf ↔ OneSided (keyedView c container behavior) asOf := by
  obtain ⟨pairs, hlisting, hnodup, hpairs⟩ := getKeyedEntries_eq hkc hc hi
  have hfinite := keyedView_finite c container behavior
  constructor
  · intro h k m n hm hn hbefore
    by_contra hafter
    -- the newest address comes with the contents of the last one before the time
    obtain ⟨newest, hnewest⟩ := KeyedView.exists_greatest (hfinite.has k) ⟨n, hn⟩
    obtain ⟨last, hlast⟩ := hfinite.visible hm hbefore
    obtain ⟨builder, hbuilder⟩ : ∃ builder, c.entries.get? last.toBytes = some builder := by
      obtain ⟨-, b, -, hrow⟩ := hlast.1.1
      exact Option.isSome_iff_exists.mp (hc.entries _ hrow)
    have hpast : ¬ KeyedView.Before asOf newest := by
      intro hb
      have hle := Muid.timeField_le_of_le (hnewest.2 hn)
      exact hafter (lt_of_le_of_lt hle hb)
    have hin := (hpairs k ⟨newest, builder⟩).mpr ⟨hnewest, Or.inr ⟨hpast, last, hlast, hbuilder⟩⟩
    have hright := h.1
    rw [hlisting] at hright
    exact hpast (hright.before (List.mem_map.mpr ⟨_, hin, rfl⟩))
  · intro hone
    refine ⟨⟨pairs, hlisting, hnodup, fun k r => ?_⟩, getEntryByKey_right hkc hc hi⟩
    rw [hpairs, listed_iff hone]

end

end Lmdb

namespace Memory

section
variable {c : Contents} {container : Muid} {behavior : Behavior} {asOf : Int} {instant : Muid}

theorem viewOf_finite (c : Contents) (container : Muid) (behavior : Behavior)
    (expiry : Muid → U64) : (viewOf c container behavior expiry).Finite := by
  constructor
  · intro k
    refine (List.finite_toSet (c.placements.rows.map Prod.snd)).subset ?_
    intro m hm
    obtain ⟨-, b, -, hrow⟩ := hm
    exact List.mem_map.mpr ⟨_, hrow, rfl⟩
  · have hfin : {b | b ∈ c.clearances.rows.map Prod.fst}.Finite := List.finite_toSet _
    have hinj : Function.Injective (fun z : Muid => container.toBytes ++ z.toBytes) := by
      intro x y hxy
      exact Muid.toBytes_injective (List.append_cancel_left hxy)
    refine (hfin.preimage hinj.injOn).subset ?_
    intro z hz
    obtain ⟨value, hrow⟩ := hz
    exact List.mem_map.mpr ⟨_, hrow, rfl⟩

theorem keyedView_finite (c : Contents) (container : Muid) (behavior : Behavior) :
    (keyedView c container behavior).Finite := viewOf_finite c container behavior fun _ => 0

/-- Where keyed reads go right: at time 0 nothing may be listed; at any other time the
clearances must agree on every key's last entry, and the listing must reach those that
are not cleared. -/
def ReadsAgree (v : KeyedView) (asOf : Int) : Prop :=
  (asOf = 0 → ∀ k m, v.has k m → ¬ Reached k) ∧
    (asOf ≠ 0 → ∀ k m, v.Visible asOf k m →
      (v.Hidden asOf m → OlderThanAll v asOf m) ∧ (¬ v.Hidden asOf m → Reached k))

theorem not_before_zero (m : Muid) : ¬ KeyedView.Before 0 m := Nat.not_lt_zero _

/-- What is older than every clearance is older than the latest. -/
theorem OlderThanAll.hidden {v : KeyedView} (hv : v.Finite) {m : Muid} (h : OlderThanAll v asOf m) :
    v.Hidden asOf m := by
  obtain ⟨⟨z, hz, hb⟩, hall⟩ := h
  exact hv.hidden hz hb (hall z hz hb)

/-- At other times than 0 the rows that are not too new are those before the time. -/
theorem not_tooNew_iff (hi : Muid.instant asOf = .ok instant) (hzero : asOf ≠ 0) {m : Muid}
    (hm : m.timeField.val < 2 ^ 52 - 1) : ¬ TooNew asOf m ↔ KeyedView.Before asOf m := by
  obtain ⟨⟨h1, h2⟩, -⟩ := Muid.instant_eq_ok.mp hi
  have htime : m.timestamp = m.timeField.val := Muid.timestamp_of_ne (by omega)
  unfold TooNew KeyedView.Before Muid.instantField
  rw [htime]
  omega

/-- What the listing shows is then right but for the clearances and the expiry. -/
theorem shown_iff {expiry : Muid → U64} (hkc : KeyedRows c container behavior expiry)
    (hi : Muid.instant asOf = .ok instant) (hzero : asOf ≠ 0) (k : MiddleKey) (r : FoundEntry) :
    Shown c container behavior expiry asOf c.placements.rows k r ↔
      (viewOf c container behavior expiry).Visible asOf k r.address ∧
        ¬ OlderThanAll (viewOf c container behavior expiry) asOf r.address ∧
        ¬ Expired asOf (expiry r.address) ∧ c.entries.get? r.address = some r.builder := by
  have hset : {m | AmongRows container behavior expiry c.placements.rows k m ∧ ¬ TooNew asOf m}
      = {m | (viewOf c container behavior expiry).has k m ∧ KeyedView.Before asOf m} := by
    ext m
    simp only [Set.mem_ofPred_eq]
    refine and_congr_right fun hm => ?_
    obtain ⟨hk, b, hb, hrow⟩ := hm
    obtain ⟨k', b', m', hk', hb', heq, hm', -⟩ :=
      hkc _ hrow (container_prefix_expiringKey container b m _)
    simp only [Prod.mk.injEq] at heq
    rw [← heq.2] at hm'
    exact not_tooNew_iff hi hzero hm'
  unfold KeyedView.Visible
  rw [← hset]
  exact ⟨fun h => ⟨h.greatest, h.kept, h.unexpired, h.builder⟩,
    fun h => ⟨h.1, h.2.1, h.2.2.1, h.2.2.2⟩⟩

/-- What the listing yields is then right but for the clearances. -/
theorem yielded_iff (hkc : KeyedContainer c container behavior)
    (hi : Muid.instant asOf = .ok instant) (hzero : asOf ≠ 0) (k : MiddleKey) (r : FoundEntry) :
    Yielded c container behavior asOf c.placements.rows k r ↔
      (keyedView c container behavior).Visible asOf k r.address ∧
        ¬ OlderThanAll (keyedView c container behavior) asOf r.address ∧
        c.entries.get? r.address = some r.builder := by
  have hrows : KeyedRows c container behavior (fun _ => 0) := hkc
  have hshown := shown_iff hrows hi hzero k r
  constructor
  · intro h
    have h' := hshown.mp ⟨h.greatest, h.kept, not_expired_zero asOf, h.builder⟩
    exact ⟨h'.1, h'.2.1, h'.2.2.2⟩
  · intro h
    have h' := hshown.mpr ⟨h.1, h.2.1, not_expired_zero asOf, h.2.2⟩
    exact ⟨h'.greatest, h'.kept, h'.builder⟩

/-- Listing and lookups of a container of a `MemoryStore` are right. -/
def KeyedRight (c : Contents) (container : Muid) (behavior : Behavior) (asOf : Int) : Prop :=
  KeyedReadsRight (keyedView c container behavior) behavior asOf
    (getKeyedEntries c container behavior asOf) (fun k => getEntryByKey c container k asOf)

/-- **Keyed reads of a `MemoryStore`.** -/
theorem keyedReadsRight_iff (hkc : KeyedContainer c container behavior) (hc : Retained c)
    (hi : Muid.instant asOf = .ok instant) :
    KeyedRight c container behavior asOf ↔ ReadsAgree (keyedView c container behavior) asOf := by
  obtain ⟨pairs, hlisting, hnodup, hpairs⟩ := getKeyedEntries_eq hkc hc hi
  have hfinite := keyedView_finite c container behavior
  by_cases hzero : asOf = 0
  · subst hzero
    constructor
    · intro h
      refine ⟨fun _ k m hm hreach => ?_, fun hne => absurd rfl hne⟩
      obtain ⟨n, hn⟩ := KeyedView.exists_greatest (hfinite.has k) ⟨m, hm⟩
      obtain ⟨builder, hbuilder, -⟩ := visible_entry hkc hc hn.1
      have hyield : Yielded c container behavior 0 c.placements.rows k ⟨n, builder⟩ := by
        refine ⟨⟨⟨hn.1, ?_⟩, fun x hx => hn.2 hx.1⟩, ?_, hbuilder⟩
        · rintro ⟨-, hpos⟩
          exact absurd hpos (lt_irrefl _)
        · rintro ⟨⟨z, -, hz⟩, -⟩
          exact not_before_zero z hz
      have hright := h.1
      rw [hlisting] at hright
      have hin := (hpairs k ⟨n, builder⟩).mpr ⟨hreach, hyield⟩
      exact not_before_zero n (hright.before (List.mem_map.mpr ⟨_, hin, rfl⟩))
    · intro h
      have hnone : ∀ k r, ¬ (keyedView c container behavior).IsRecord 0 k r := fun k r hr =>
        not_before_zero _ hr.visible.before
      refine ⟨⟨pairs, hlisting, hnodup, fun k r => ⟨fun hin => ?_, fun hr => absurd hr (hnone k r)⟩⟩, ?_⟩
      · obtain ⟨hreach, hyield⟩ := (hpairs k r).mp hin
        exact absurd hreach (h.1 rfl k r.address hyield.greatest.1.1)
      · intro k b hk hb
        obtain ⟨found, hfound, hiff⟩ := getEntryByKey_eq hkc hc hi hk hb
        refine ⟨found, hfound, fun r => (hiff r).trans ⟨fun hr => ?_, fun hr => absurd hr (hnone k r)⟩⟩
        exact absurd hr.1.before (not_before_zero _)
  · constructor
    · intro h
      refine ⟨fun hz => absurd hz hzero, fun _ => ?_⟩
      -- the lookups settle the clearances
      have hclear : ∀ k m, (keyedView c container behavior).Visible asOf k m →
          (keyedView c container behavior).Hidden asOf m →
            OlderThanAll (keyedView c container behavior) asOf m := by
        intro k m hm hhidden
        by_contra holder
        obtain ⟨hk, b, hb, hrow⟩ := hm.1.1
        obtain ⟨builder, hbuilder, -⟩ := visible_entry hkc hc hm.1.1
        obtain ⟨found, hfound, hiff⟩ := getEntryByKey_eq hkc hc hi hk hb
        obtain ⟨found', hfound', hiff'⟩ := h.2 k b hk hb
        have hfounds := hfound.symm.trans hfound'
        injection hfounds with hfounds
        subst hfounds
        have hsome := (hiff ⟨m, builder⟩).mpr ⟨hm, holder, hbuilder⟩
        exact ((hiff' _).mp hsome).kept hhidden
      intro k m hm
      refine ⟨hclear k m hm, fun hkept => ?_⟩
      obtain ⟨builder, hbuilder, -⟩ := visible_entry hkc hc hm.1.1
      have hsub : ∀ k r, (k, r) ∈ pairs → (keyedView c container behavior).IsRecord asOf k r := by
        intro k r hin
        obtain ⟨hvisible, holder, hbuilder⟩ := (yielded_iff hkc hi hzero k r).mp ((hpairs k r).mp hin).2
        exact ⟨hvisible, fun hhidden => holder (hclear k _ hvisible hhidden), hbuilder⟩
      have hright := h.1
      rw [hlisting, KeyedView.listsRight_iff_of_subset hnodup hsub] at hright
      exact ((hpairs k ⟨m, builder⟩).mp (hright k ⟨m, builder⟩ ⟨hm, hkept, hbuilder⟩)).1
    · intro h
      have hsame : ∀ k m, (keyedView c container behavior).Visible asOf k m →
          (OlderThanAll (keyedView c container behavior) asOf m ↔
            (keyedView c container behavior).Hidden asOf m) := fun k m hm =>
        ⟨OlderThanAll.hidden hfinite, (h.2 hzero k m hm).1⟩
      refine ⟨⟨pairs, hlisting, hnodup, fun k r => ?_⟩, ?_⟩
      · rw [hpairs, yielded_iff hkc hi hzero]
        constructor
        · rintro ⟨-, hvisible, holder, hbuilder⟩
          exact ⟨hvisible, fun hh => holder ((hsame k _ hvisible).mpr hh), hbuilder⟩
        · intro hr
          exact ⟨(h.2 hzero k _ hr.visible).2 hr.kept, hr.visible,
            fun ho => hr.kept (ho.hidden hfinite), hr.builder⟩
      · intro k b hk hb
        obtain ⟨found, hfound, hiff⟩ := getEntryByKey_eq hkc hc hi hk hb
        refine ⟨found, hfound, fun r => (hiff r).trans ⟨fun hr => ?_, fun hr => ?_⟩⟩
        · exact ⟨hr.1, fun hh => hr.2.1 ((hsame k _ hr.1).mpr hh), hr.2.2⟩
        · exact ⟨hr.visible, fun ho => hr.kept (ho.hidden hfinite), hr.builder⟩

end

end Memory

/-- **When listing and lookup agree**, in every state of either store that calls lead to
with history kept, for every keyed container and time. -/
theorem keyed_listing_agrees_iff (lib : Externals) (container : Muid) (behavior : Behavior)
    (asOf : Int) (instant : Muid) (hi : Muid.instant asOf = .ok instant) :
    (∀ symmetricKeys retainBundles calls c,
      c = (Lmdb.runCalls lib (Lmdb.newStore symmetricKeys retainBundles true) calls).db.contents →
      Lmdb.KeyedContainer c container behavior →
        (Lmdb.KeyedRight c container behavior asOf ↔
          OneSided (Lmdb.keyedView c container behavior) asOf)) ∧
    (∀ symmetricKeys calls c,
      c = (Memory.runCalls lib (Memory.newStore symmetricKeys true) calls).contents →
      Memory.KeyedContainer c container behavior →
        (Memory.KeyedRight c container behavior asOf ↔
          Memory.ReadsAgree (Memory.keyedView c container behavior) asOf)) := by
  constructor
  · intro symmetricKeys retainBundles calls c hc hkc
    subst hc
    exact Lmdb.keyedReadsRight_iff hkc (Lmdb.runCalls_retained lib _ _ _) hi
  · intro symmetricKeys calls c hc hkc
    subst hc
    exact Memory.keyedReadsRight_iff hkc
      (Memory.runCalls_retained lib calls _ (Memory.newStore_retained _)).2 hi

/-- Two chains write the key `a` of a directory, a third writes a box. -/
def keyedWriters : List BundleBuilder :=
  [startingBundle 5 1 [sampleEntry .directory (some (.key (some (.characters "a")))) "older"],
    startingBundle 7 2 [sampleEntry .directory (some (.key (some (.characters "a")))) "newer"],
    startingBundle 9 3 [sampleEntry .box none "boxed"]]

/-- An `LmdbStore` that has both writes. -/
def keyedLmdb : Lmdb.Contents :=
  (Lmdb.runCalls (sampleExternals keyedWriters) (Lmdb.newStore ∅ true true)
    [Lmdb.sampleCall 0 1, Lmdb.sampleCall 1 2]).db.contents

/-- A `MemoryStore` that has the writes, or the box. -/
def keyedMemory (bundles : List Byte) : Memory.Contents :=
  (Memory.runCalls (sampleExternals keyedWriters) (Memory.newStore [] true)
    (bundles.map fun n => { bundle := sampleBundle n })).contents

/-- The rows of the two writes. -/
theorem keyedLmdb_container : Lmdb.KeyedContainer keyedLmdb (globalMuid .directory) .directory := by
  have hrows : keyedLmdb.placements.rows =
      [(rowKey (globalMuid .directory) (UserKey.characters "a").serialize ⟨5, 1, 1⟩,
          (⟨5, 1, 1⟩ : Muid).toBytes),
        (rowKey (globalMuid .directory) (UserKey.characters "a").serialize ⟨7, 2, 1⟩,
          (⟨7, 2, 1⟩ : Muid).toBytes)] := by decide +kernel
  intro row hrow _
  rw [hrows] at hrow
  simp only [List.mem_cons, List.not_mem_nil, or_false] at hrow
  rcases hrow with rfl | rfl
  · exact ⟨.key (.characters "a"), _, ⟨5, 1, 1⟩, trivial, rfl, rfl, by decide⟩
  · exact ⟨.key (.characters "a"), _, ⟨7, 2, 1⟩, trivial, rfl, rfl, by decide⟩

theorem keyedMemory_container :
    Memory.KeyedContainer (keyedMemory [0, 1]) (globalMuid .directory) .directory := by
  have hrows : (keyedMemory [0, 1]).placements.rows =
      [(rowKey (globalMuid .directory) (UserKey.characters "a").serialize ⟨5, 1, 1⟩, ⟨5, 1, 1⟩),
        (rowKey (globalMuid .directory) (UserKey.characters "a").serialize ⟨7, 2, 1⟩, ⟨7, 2, 1⟩)] := by
    decide +kernel
  have hbehaviors : ∀ m ∈ [(⟨5, 1, 1⟩ : Muid), ⟨7, 2, 1⟩],
      ((keyedMemory [0, 1]).entries.get? m).map (·.behavior) = some .directory := by
    decide +kernel
  have hbehavior : ∀ m ∈ [(⟨5, 1, 1⟩ : Muid), ⟨7, 2, 1⟩], ∀ builder,
      (keyedMemory [0, 1]).entries.get? m = some builder →
        KeyOf builder.behavior (.key (.characters "a")) := by
    intro m hm builder hbuilder
    have h := hbehaviors m hm
    rw [hbuilder] at h
    rw [show builder.behavior = .directory from Option.some.inj h]
    trivial
  intro row hrow _
  rw [hrows] at hrow
  simp only [List.mem_cons, List.not_mem_nil, or_false] at hrow
  rcases hrow with rfl | rfl
  · exact ⟨.key (.characters "a"), _, ⟨5, 1, 1⟩, trivial, rfl, rfl, by decide, hbehavior _ (by simp)⟩
  · exact ⟨.key (.characters "a"), _, ⟨7, 2, 1⟩, trivial, rfl, rfl, by decide, hbehavior _ (by simp)⟩

/-- In both stores the directory reads right after the writes exactly as said. -/
theorem keyed_listing_agrees_iff_sample :
    (Lmdb.KeyedRight keyedLmdb (globalMuid .directory) .directory 8 ↔
      OneSided (Lmdb.keyedView keyedLmdb (globalMuid .directory) .directory) 8) ∧
    (Memory.KeyedRight (keyedMemory [0, 1]) (globalMuid .directory) .directory 8 ↔
      Memory.ReadsAgree (Memory.keyedView (keyedMemory [0, 1]) (globalMuid .directory) .directory) 8) := by
  have h := keyed_listing_agrees_iff (sampleExternals keyedWriters) (globalMuid .directory) .directory
    8 ⟨8, 0, 0⟩ (by decide +kernel)
  exact ⟨h.1 ∅ true _ keyedLmdb rfl keyedLmdb_container,
    h.2 [] _ (keyedMemory [0, 1]) rfl keyedMemory_container⟩

/-- Between the two writes an `LmdbStore` lists the later one's address, and a
`MemoryStore` lists nothing for a box whose lookup finds the entry. -/
theorem keyed_listing_disagrees :
    ¬ Lmdb.KeyedRight keyedLmdb (globalMuid .directory) .directory 6 ∧
      ¬ Memory.KeyedRight (keyedMemory [2]) (globalMuid .box) .box 10 := by
  constructor
  · rintro ⟨hlist, -⟩
    have haddresses : (Lmdb.getKeyedEntries keyedLmdb (globalMuid .directory) .directory 6).toOption.map
        (·.map (·.address)) = some [⟨7, 2, 1⟩] := by decide +kernel
    obtain ⟨records, hrecords, hmap⟩ := Option.map_eq_some_iff.mp haddresses
    rw [toOption_eq_some] at hrecords
    obtain ⟨r, hr, haddress⟩ := List.mem_map.mp (hmap ▸ List.mem_singleton_self (⟨7, 2, 1⟩ : Muid))
    rw [hrecords] at hlist
    have hbefore := hlist.before hr
    rw [haddress] at hbefore
    exact absurd hbefore (by unfold KeyedView.Before; decide)
  · rintro ⟨hlist, hlookup⟩
    have hnothing : (Memory.getKeyedEntries (keyedMemory [2]) (globalMuid .box) .box 10).toOption.map
        List.length = some 0 := by decide +kernel
    have hsome : (Memory.getEntryByKey (keyedMemory [2]) (globalMuid .box) .none 10).toOption.join.isSome
        = true := by decide +kernel
    obtain ⟨found, hfound, hiff⟩ := hlookup .none [] trivial rfl
    obtain ⟨r, hr⟩ := Option.isSome_iff_exists.mp hsome
    simp only at hfound
    rw [hfound] at hr
    obtain ⟨pairs, hlisting, -, hpairs⟩ := hlist
    rw [hlisting] at hnothing
    have hempty : pairs = [] := by
      rw [← List.length_eq_zero_iff, ← List.length_map (f := Prod.snd)]
      exact Option.some.inj hnothing
    have hin := (hpairs .none r).mpr ((hiff r).mp hr)
    rw [hempty] at hin
    exact List.not_mem_nil hin

end Gink
