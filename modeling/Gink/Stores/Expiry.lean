/-
  Gink.Stores.Expiry — expiry in keyed lookups and listings of both stores.

  No lookup looks at the expiry of what it finds.  The listings do, and the one of
  `LmdbStore` looks at that of the newest entry of the key where it has stepped back to an
  older one.
-/
import Gink.Memory.EntryRows
import Gink.Stores.KeyedListing

namespace Gink

/-! ## §1. What is asked of the reads. -/

/-- No address is placed under two keys. -/
def PlacedOnce (v : KeyedView) : Prop := ∀ k k' m, v.has k m → v.has k' m → k = k'

/-- **Expiry is applied alike**: a key has a record in the listing exactly when the lookup
finds an entry, neither shows an entry that has expired by the time, and what was written
last before the time shows in both when it has not expired and is not cleared. -/
def ExpiryAlike (v : KeyedView) (behavior : Behavior) (asOf : Int)
    (listing : Except Error (List FoundEntry))
    (lookup : MiddleKey → Except Error (Option FoundEntry)) : Prop :=
  ∃ pairs : List (MiddleKey × FoundEntry), listing = .ok (pairs.map Prod.snd) ∧
    (∀ k r, (k, r) ∈ pairs → v.has k r.address) ∧
    ∀ k b, KeyOf behavior k → k.toBytes = .ok b → ∃ found, lookup k = .ok found ∧
      ((∃ r, (k, r) ∈ pairs) ↔ ∃ r, found = some r) ∧
      (∀ r, (k, r) ∈ pairs ∨ found = some r → ¬ Expired asOf r.builder.expiry) ∧
      ∀ m e, v.Visible asOf k m → ¬ v.Hidden asOf m → v.builderOf m = some e →
        ¬ Expired asOf e.expiry → found = some ⟨m, e⟩ ∧ ∃ r, (k, r) ∈ pairs ∧ r.builder = e

/-- The records of a listing are those of one set of keys only. -/
theorem PlacedOnce.mem_iff {v : KeyedView} (h : PlacedOnce v)
    {pairs pairs' : List (MiddleKey × FoundEntry)} (hsame : pairs.map Prod.snd = pairs'.map Prod.snd)
    (hhas : ∀ k r, (k, r) ∈ pairs → v.has k r.address)
    (hhas' : ∀ k r, (k, r) ∈ pairs' → v.has k r.address) (k : MiddleKey) (r : FoundEntry) :
    (k, r) ∈ pairs ↔ (k, r) ∈ pairs' := by
  have hsub {l l' : List (MiddleKey × FoundEntry)} (heq : l.map Prod.snd = l'.map Prod.snd)
      (hl : ∀ k r, (k, r) ∈ l → v.has k r.address) (hl' : ∀ k r, (k, r) ∈ l' → v.has k r.address)
      (hin : (k, r) ∈ l) : (k, r) ∈ l' := by
    have hr : r ∈ l'.map Prod.snd := heq ▸ List.mem_map.mpr ⟨(k, r), hin, rfl⟩
    obtain ⟨⟨k', r'⟩, hin', rfl⟩ := List.mem_map.mp hr
    rw [h k k' r'.address (hl k r' hin) (hl' k' r' hin')]
    exact hin'
  exact ⟨hsub hsame hhas hhas', hsub hsame.symm hhas' hhas⟩

/-- An empty listing says that lookups find nothing. -/
theorem ExpiryAlike.none_found {v : KeyedView} {behavior : Behavior} {asOf : Int}
    {listing : Except Error (List FoundEntry)}
    {lookup : MiddleKey → Except Error (Option FoundEntry)}
    (h : ExpiryAlike v behavior asOf listing lookup)
    (hempty : listing.toOption.map List.length = some 0) {k : MiddleKey} {b : Bytes}
    (hk : KeyOf behavior k) (hb : k.toBytes = .ok b) : (lookup k).toOption.join.isSome = false := by
  obtain ⟨pairs, hlisting, -, halike⟩ := h
  obtain ⟨found, hfound, hiff, -⟩ := halike k b hk hb
  have hpairs : pairs = [] := by
    rw [hlisting] at hempty
    exact List.map_eq_nil_iff.mp (List.length_eq_zero_iff.mp (Option.some.inj hempty))
  cases found with
  | none =>
      rw [hfound]
      rfl
  | some r =>
      obtain ⟨r', hin⟩ := hiff.mpr ⟨r, rfl⟩
      rw [hpairs] at hin
      exact absurd hin List.not_mem_nil

/-! ## §2. `LmdbStore`. -/

namespace Lmdb

/-- The expiry of the entry with the address. -/
def expiryOf (c : Contents) (m : Muid) : U64 :=
  ((c.entries.get? m.toBytes).map (·.expiry)).getD 0

/-- The container is a keyed one of the behavior: each of its placements is that of a stored
entry of the behavior, under the entry's own key and with its expiry.  The all-ones time
field, which stands for -1, is the time of none. -/
def KeyedEntries (c : Contents) (container : Muid) (behavior : Behavior) : Prop :=
  ∀ row ∈ c.placements.rows, container.toBytes <+: row.1 → ∃ m e k b,
    c.entries.get? m.toBytes = some e ∧ e.behavior = behavior ∧ KeyOf behavior k ∧
    Placement.middleOf e m = .ok k ∧ k.toBytes = .ok b ∧
    row = (expiringKey container b m e.expiry, m.toBytes) ∧ m.timeField.val < 2 ^ 52 - 1

/-- Where expiry is applied alike: what was written last before the time has not expired, nor
has the newest entry of its key; or it is cleared, and then nothing newer was written, or what
was is listed as expired. -/
def ExpiryFits (v : KeyedView) (expiry : Muid → U64) (asOf : Int) : Prop :=
  ∀ k newest m, v.Newest k newest → v.Visible asOf k m →
    (¬ v.Hidden asOf m → ¬ Expired asOf (expiry m) ∧ ¬ Expired asOf (expiry newest)) ∧
    (v.Hidden asOf m → m ≠ newest → Expired asOf (expiry newest))

section
variable {c : Contents} {container : Muid} {behavior : Behavior} {asOf : Int} {instant : Muid}

theorem expiryOf_eq {m : Muid} {e : EntryBuilder} (h : c.entries.get? m.toBytes = some e) :
    expiryOf c m = e.expiry := by
  unfold expiryOf
  rw [h]
  rfl

theorem KeyedEntries.rows (h : KeyedEntries c container behavior) :
    KeyedRows c container behavior (expiryOf c) := by
  intro row hrow hpre
  obtain ⟨m, e, k, b, he, hbehavior, hk, -, hb, rfl, hm⟩ := h row hrow hpre
  rw [← expiryOf_eq he]
  exact ⟨k, b, m, hk, hb, rfl, hm⟩

theorem KeyedEntries.stored (h : KeyedEntries c container behavior) :
    ∀ row ∈ c.placements.rows, container.toBytes <+: row.1 → (c.entries.get? row.2).isSome := by
  intro row hrow hpre
  obtain ⟨m, e, k, b, he, -, -, -, -, rfl, -⟩ := h row hrow hpre
  exact Option.isSome_iff_exists.mpr ⟨e, he⟩

/-- The key of a placement is that of its entry. -/
theorem KeyedEntries.placedOnce (h : KeyedEntries c container behavior) :
    PlacedOnce (viewOf c container behavior (expiryOf c)) := by
  have hown : ∀ k m, (viewOf c container behavior (expiryOf c)).has k m →
      ∃ e, c.entries.get? m.toBytes = some e ∧ Placement.middleOf e m = .ok k := by
    rintro k m ⟨hk, b, hb, hrow⟩
    obtain ⟨m', e, k', b', he, -, hk', hmiddle, hb', heq, -⟩ :=
      h _ hrow (container_prefix_expiringKey container b m _)
    obtain ⟨hkey, hvalue⟩ := Prod.mk.inj heq
    obtain rfl : m = m' := Muid.toBytes_injective hvalue
    have hpre : container.toBytes ++ b <+: expiringKey container b' m e.expiry := by
      rw [← hkey]
      exact prefix_expiringKey container b m _
    rw [key_eq_of_head hk hk' hb hb' hpre]
    exact ⟨e, he, hmiddle⟩
  intro k k' m hhas hhas'
  obtain ⟨e, he, hmiddle⟩ := hown k m hhas
  obtain ⟨e', he', hmiddle'⟩ := hown k' m hhas'
  cases Option.some.inj (he.symm.trans he')
  exact Except.ok.inj (hmiddle.symm.trans hmiddle')

/-- What is listed for a key, the newest entry being `newest` and the last before the time `m`. -/
theorem listedAt_iff {expiry : Muid → U64} {k : MiddleKey} {newest m : Muid}
    (hnewest : (viewOf c container behavior expiry).Newest k newest)
    (hm : (viewOf c container behavior expiry).Visible asOf k m) (r : FoundEntry) :
    ListedAt c container behavior expiry asOf k r ↔
      r.address = newest ∧ c.entries.get? m.toBytes = some r.builder ∧
        ¬ Expired asOf (expiry newest) ∧
        (m = newest → ¬ (viewOf c container behavior expiry).Hidden asOf m) := by
  constructor
  · rintro ⟨hr, hunexpired, hcase⟩
    have haddress : r.address = newest := IsGreatest.unique hr hnewest
    rw [haddress] at hunexpired hcase
    rcases hcase with ⟨hbefore, hrecord⟩ | ⟨hafter, n, hn, hbuilder⟩
    · have hsame : m = newest := hm.unique (hnewest.visible hbefore)
      have hkept := hrecord.kept
      have hbuilder := hrecord.builder
      rw [haddress, ← hsame] at hkept hbuilder
      exact ⟨haddress, hbuilder, hunexpired, fun _ => hkept⟩
    · rw [hn.unique hm] at hbuilder
      refine ⟨haddress, hbuilder, hunexpired, fun hsame => ?_⟩
      exact absurd (hsame ▸ hm.before) hafter
  · rintro ⟨haddress, hbuilder, hunexpired, hkept⟩
    refine ⟨haddress ▸ hnewest, haddress ▸ hunexpired, ?_⟩
    rw [haddress]
    by_cases hbefore : KeyedView.Before asOf newest
    · have hsame : m = newest := hm.unique (hnewest.visible hbefore)
      refine Or.inl ⟨hbefore, ?_, ?_, ?_⟩
      · rw [haddress, ← hsame]
        exact hm
      · rw [haddress, ← hsame]
        exact hkept hsame
      · rw [haddress, ← hsame]
        exact hbuilder
    · exact Or.inr ⟨hbefore, m, hm, hbuilder⟩

/-- Where something is listed for a key, there is a last entry before the time. -/
theorem ListedAt.visible {expiry : Muid → U64} {k : MiddleKey} {r : FoundEntry}
    (h : ListedAt c container behavior expiry asOf k r) :
    ∃ m, (viewOf c container behavior expiry).Visible asOf k m := by
  obtain ⟨-, -, ⟨-, hrecord⟩ | ⟨-, m, hm, -⟩⟩ := h
  · exact ⟨r.address, hrecord.visible⟩
  · exact ⟨m, hm⟩

/-- **Expiry in an `LmdbStore`** is applied alike exactly when it fits. -/
theorem expiryAlike_iff (hkc : KeyedRows c container behavior (expiryOf c))
    (honce : PlacedOnce (viewOf c container behavior (expiryOf c))) (hc : Readable c container)
    (hi : Muid.instant asOf = .ok instant) :
    ExpiryAlike (viewOf c container behavior (expiryOf c)) behavior asOf
        (getKeyedEntries c container behavior asOf) (fun k => getEntryByKey c container k asOf) ↔
      ExpiryFits (viewOf c container behavior (expiryOf c)) (expiryOf c) asOf := by
  obtain ⟨pairs, hlisting, -, hpairs⟩ := getKeyedEntries_listed hkc hc hi
  have hlookup := getEntryByKey_looksUp hkc hc hi
  have hfinite := viewOf_finite c container behavior (expiryOf c)
  have hhas : ∀ k r, (k, r) ∈ pairs →
      (viewOf c container behavior (expiryOf c)).has k r.address :=
    fun k r hin => ((hpairs k r).mp hin).1.1
  have hstored {k : MiddleKey} {m : Muid}
      (hm : (viewOf c container behavior (expiryOf c)).Visible asOf k m) :
      ∃ e, c.entries.get? m.toBytes = some e := by
    obtain ⟨-, b, -, hrow⟩ := hm.1.1
    exact hc.stored (container_prefix_expiringKey container b m _) hrow
  constructor
  · rintro ⟨pairs', hlisting', hhas', halike⟩ k newest m hnewest hm
    have hmem : ∀ r, (k, r) ∈ pairs' ↔ ListedAt c container behavior (expiryOf c) asOf k r := by
      intro r
      rw [hlisting] at hlisting'
      rw [← hpairs]
      exact (honce.mem_iff (Except.ok.inj hlisting').symm hhas' hhas k r)
    obtain ⟨hk, b, hb, -⟩ := hm.1.1
    obtain ⟨found, hfound, hiff, hunexpired, -⟩ := halike k b hk hb
    obtain ⟨found', hfound', hrecord⟩ := hlookup k b hk hb
    cases Except.ok.inj (hfound.symm.trans hfound')
    obtain ⟨e, he⟩ := hstored hm
    constructor
    · intro hkept
      have hfound := (hrecord ⟨m, e⟩).mpr ⟨hm, hkept, he⟩
      obtain ⟨r, hr⟩ := hiff.mpr ⟨_, hfound⟩
      refine ⟨?_, ((listedAt_iff hnewest hm r).mp ((hmem r).mp hr)).2.2.1⟩
      rw [expiryOf_eq he]
      exact hunexpired ⟨m, e⟩ (Or.inr hfound)
    · intro hhidden hne
      by_contra hfresh
      have hin := (hmem ⟨newest, e⟩).mpr
        ((listedAt_iff hnewest hm _).mpr ⟨rfl, he, hfresh, fun h => absurd h hne⟩)
      obtain ⟨r, hr⟩ := hiff.mp ⟨_, hin⟩
      have hrec := (hrecord r).mp hr
      have hkept := hrec.kept
      rw [hrec.visible.unique hm] at hkept
      exact hkept hhidden
  · intro hfits
    refine ⟨pairs, hlisting, hhas, fun k b hk hb => ?_⟩
    obtain ⟨found, hfound, hrecord⟩ := hlookup k b hk hb
    -- what is listed is what the lookup finds, perhaps under another address
    have hlisted : ∀ r, (k, r) ∈ pairs → ∃ m,
        (viewOf c container behavior (expiryOf c)).Visible asOf k m ∧
        ¬ (viewOf c container behavior (expiryOf c)).Hidden asOf m ∧
        c.entries.get? m.toBytes = some r.builder := by
      intro r hin
      have hat := (hpairs k r).mp hin
      obtain ⟨m, hm⟩ := hat.visible
      obtain ⟨haddress, hbuilder, hfresh, hkept⟩ := (listedAt_iff hat.1 hm r).mp hat
      refine ⟨m, hm, fun hhidden => ?_, hbuilder⟩
      by_cases hsame : m = r.address
      · exact hkept hsame hhidden
      · exact hfresh ((hfits k r.address m hat.1 hm).2 hhidden hsame)
    have hshows : ∀ m e, (viewOf c container behavior (expiryOf c)).Visible asOf k m →
        ¬ (viewOf c container behavior (expiryOf c)).Hidden asOf m →
        c.entries.get? m.toBytes = some e →
        found = some ⟨m, e⟩ ∧ ∃ r, (k, r) ∈ pairs ∧ r.builder = e := by
      intro m e hm hkept he
      obtain ⟨newest, hnewest⟩ := KeyedView.exists_greatest (hfinite.has k) ⟨m, hm.1.1⟩
      refine ⟨(hrecord ⟨m, e⟩).mpr ⟨hm, hkept, he⟩, ⟨newest, e⟩, ?_, rfl⟩
      have hfresh := ((hfits k newest m hnewest hm).1 hkept).2
      exact (hpairs k _).mpr ((listedAt_iff hnewest hm _).mpr ⟨rfl, he, hfresh, fun _ => hkept⟩)
    have hunexpired : ∀ m e, (viewOf c container behavior (expiryOf c)).Visible asOf k m →
        ¬ (viewOf c container behavior (expiryOf c)).Hidden asOf m →
        c.entries.get? m.toBytes = some e → ¬ Expired asOf e.expiry := by
      intro m e hm hkept he
      obtain ⟨newest, hnewest⟩ := KeyedView.exists_greatest (hfinite.has k) ⟨m, hm.1.1⟩
      rw [← expiryOf_eq he]
      exact ((hfits k newest m hnewest hm).1 hkept).1
    refine ⟨found, hfound, ⟨?_, ?_⟩, ?_, ?_⟩
    · rintro ⟨r, hin⟩
      obtain ⟨m, hm, hkept, hbuilder⟩ := hlisted r hin
      exact ⟨_, (hshows m r.builder hm hkept hbuilder).1⟩
    · rintro ⟨r, hr⟩
      have hrec := (hrecord r).mp hr
      obtain ⟨-, r', hin, -⟩ := hshows r.address r.builder hrec.visible hrec.kept hrec.builder
      exact ⟨r', hin⟩
    · rintro r (hin | hr)
      · obtain ⟨m, hm, hkept, hbuilder⟩ := hlisted r hin
        exact hunexpired m r.builder hm hkept hbuilder
      · have hrec := (hrecord r).mp hr
        exact hunexpired r.address r.builder hrec.visible hrec.kept hrec.builder
    · exact fun m e hm hkept he _ => hshows m e hm hkept he

end

end Lmdb

/-! ## §3. `MemoryStore`. -/

namespace Memory

/-- The expiry of the entry with the address. -/
def expiryOf (c : Contents) (m : Muid) : U64 := ((c.entries.get? m).map (·.expiry)).getD 0

/-- The container is a keyed one of the behavior: each of its placements is that of a stored
entry of the behavior, under the entry's own key and with its expiry.  The all-ones time
field, which stands for -1, is the time of none. -/
def KeyedEntries (c : Contents) (container : Muid) (behavior : Behavior) : Prop :=
  ∀ row ∈ c.placements.rows, container.toBytes <+: row.1 → ∃ m e k b,
    c.entries.get? m = some e ∧ e.behavior = behavior ∧ KeyOf behavior k ∧
    Placement.middleOf e m = .ok k ∧ k.toBytes = .ok b ∧
    row = (expiringKey container b m e.expiry, m) ∧ m.timeField.val < 2 ^ 52 - 1

/-- Where expiry is applied alike: at time 0 nothing may be listed; at any other time the listing
must reach every key whose last entry the earliest clearance leaves, and that entry must not
have expired. -/
def ExpiryFits (v : KeyedView) (expiry : Muid → U64) (asOf : Int) : Prop :=
  (asOf = 0 → ∀ k m, v.Newest k m → Reached k → Expired 0 (expiry m)) ∧
    (asOf ≠ 0 → ∀ k m, v.Visible asOf k m → ¬ OlderThanAll v asOf m →
      Reached k ∧ ¬ Expired asOf (expiry m))

section
variable {c : Contents} {container : Muid} {behavior : Behavior} {asOf : Int} {instant : Muid}

theorem expiryOf_eq {m : Muid} {e : EntryBuilder} (h : c.entries.get? m = some e) :
    expiryOf c m = e.expiry := by
  unfold expiryOf
  rw [h]
  rfl

theorem KeyedEntries.rows (h : KeyedEntries c container behavior) :
    KeyedRows c container behavior (expiryOf c) := by
  intro row hrow hpre
  obtain ⟨m, e, k, b, he, hbehavior, hk, -, hb, rfl, hm⟩ := h row hrow hpre
  rw [← expiryOf_eq he]
  refine ⟨k, b, m, hk, hb, rfl, hm, fun builder hbuilder => ?_⟩
  cases Option.some.inj (he.symm.trans hbuilder)
  rw [hbehavior]
  exact hk

theorem KeyedEntries.stored (h : KeyedEntries c container behavior) :
    ∀ row ∈ c.placements.rows, container.toBytes <+: row.1 → (c.entries.get? row.2).isSome := by
  intro row hrow hpre
  obtain ⟨m, e, k, b, he, -, -, -, -, rfl, -⟩ := h row hrow hpre
  exact Option.isSome_iff_exists.mpr ⟨e, he⟩

/-- The key of a placement is that of its entry. -/
theorem KeyedEntries.placedOnce (h : KeyedEntries c container behavior) :
    PlacedOnce (viewOf c container behavior (expiryOf c)) := by
  have hown : ∀ k m, (viewOf c container behavior (expiryOf c)).has k m →
      ∃ e, c.entries.get? m = some e ∧ Placement.middleOf e m = .ok k := by
    rintro k m ⟨hk, b, hb, hrow⟩
    obtain ⟨m', e, k', b', he, -, hk', hmiddle, hb', heq, -⟩ :=
      h _ hrow (container_prefix_expiringKey container b m _)
    obtain ⟨hkey, hvalue⟩ := Prod.mk.inj heq
    obtain rfl : m = m' := hvalue
    have hpre : container.toBytes ++ b <+: expiringKey container b' m e.expiry := by
      rw [← hkey]
      exact prefix_expiringKey container b m _
    rw [key_eq_of_head hk hk' hb hb' hpre]
    exact ⟨e, he, hmiddle⟩
  intro k k' m hhas hhas'
  obtain ⟨e, he, hmiddle⟩ := hown k m hhas
  obtain ⟨e', he', hmiddle'⟩ := hown k' m hhas'
  cases Option.some.inj (he.symm.trans he')
  exact Except.ok.inj (hmiddle.symm.trans hmiddle')

/-- At time 0 the newest entry of a key is shown unless it has expired. -/
theorem shown_zero_iff {expiry : Muid → U64} (k : MiddleKey) (r : FoundEntry) :
    Shown c container behavior expiry 0 c.placements.rows k r ↔
      (viewOf c container behavior expiry).Newest k r.address ∧ ¬ Expired 0 (expiry r.address) ∧
        c.entries.get? r.address = some r.builder := by
  have hset : {m | AmongRows container behavior expiry c.placements.rows k m ∧ ¬ TooNew 0 m}
      = {m | (viewOf c container behavior expiry).has k m} := by
    ext m
    refine ⟨And.left, fun hm => ⟨hm, ?_⟩⟩
    rintro ⟨-, hpos⟩
    exact absurd hpos (lt_irrefl _)
  constructor
  · intro h
    have hgreatest := h.greatest
    rw [hset] at hgreatest
    exact ⟨hgreatest, h.unexpired, h.builder⟩
  · rintro ⟨hnewest, hunexpired, hbuilder⟩
    refine ⟨?_, ?_, hunexpired, hbuilder⟩
    · rw [hset]
      exact hnewest
    rintro ⟨⟨z, -, hz⟩, -⟩
    exact not_before_zero z hz

/-- **Expiry in a `MemoryStore`** is applied alike exactly when it fits. -/
theorem expiryAlike_iff (hkc : KeyedRows c container behavior (expiryOf c))
    (honce : PlacedOnce (viewOf c container behavior (expiryOf c))) (hc : Readable c container)
    (hi : Muid.instant asOf = .ok instant) :
    ExpiryAlike (viewOf c container behavior (expiryOf c)) behavior asOf
        (getKeyedEntries c container behavior asOf) (fun k => getEntryByKey c container k asOf) ↔
      ExpiryFits (viewOf c container behavior (expiryOf c)) (expiryOf c) asOf := by
  obtain ⟨pairs, hlisting, -, hpairs⟩ := getKeyedEntries_shown hkc hc hi
  have hfinite := viewOf_finite c container behavior (expiryOf c)
  have hhas : ∀ k r, (k, r) ∈ pairs →
      (viewOf c container behavior (expiryOf c)).has k r.address :=
    fun k r hin => ((hpairs k r).mp hin).2.greatest.1.1
  by_cases hzero : asOf = 0
  · subst hzero
    have hnothing : ∀ k b, KeyOf behavior k → k.toBytes = .ok b →
        getEntryByKey c container k 0 = .ok none := by
      intro k b hk hb
      obtain ⟨found, hfound, hiff⟩ := getEntryByKey_found hkc hc hi hk hb
      cases found with
      | none => exact hfound
      | some r => exact absurd ((hiff r).mp rfl).1.before (not_before_zero _)
    constructor
    · rintro ⟨pairs', hlisting', hhas', halike⟩
      refine ⟨fun _ k m hnewest hreach => ?_, fun h => absurd rfl h⟩
      by_contra hfresh
      obtain ⟨e, he, -⟩ := visible_stored hkc hc hnewest.1
      have hin : (k, (⟨m, e⟩ : FoundEntry)) ∈ pairs :=
        (hpairs k _).mpr ⟨hreach, (shown_zero_iff k _).mpr ⟨hnewest, hfresh, he⟩⟩
      rw [hlisting] at hlisting'
      have hin' := (honce.mem_iff (Except.ok.inj hlisting').symm hhas' hhas k _).mpr hin
      obtain ⟨hk, b, hb, -⟩ := hnewest.1
      obtain ⟨found, hfound, hiff, -⟩ := halike k b hk hb
      obtain ⟨r, hr⟩ := hiff.mp ⟨_, hin'⟩
      rw [hr] at hfound
      exact absurd ((hnothing k b hk hb).symm.trans hfound) (by simp)
    · rintro ⟨hfits, -⟩
      have hempty : ∀ k r, (k, r) ∉ pairs := by
        intro k r hin
        obtain ⟨hreach, hshown⟩ := (hpairs k r).mp hin
        obtain ⟨hnewest, hfresh, -⟩ := (shown_zero_iff k r).mp hshown
        exact hfresh (hfits rfl k r.address hnewest hreach)
      refine ⟨pairs, hlisting, hhas, fun k b hk hb => ⟨none, hnothing k b hk hb, ?_, ?_, ?_⟩⟩
      · constructor
        · rintro ⟨r, hin⟩
          exact absurd hin (hempty k r)
        · rintro ⟨r, hr⟩
          cases hr
      · rintro r (hin | hr)
        · exact absurd hin (hempty k r)
        · cases hr
      · exact fun m e hm _ _ _ => absurd hm.before (not_before_zero _)
  · have hmem : ∀ k r, (k, r) ∈ pairs ↔ Reached k ∧
        (viewOf c container behavior (expiryOf c)).Visible asOf k r.address ∧
        ¬ OlderThanAll (viewOf c container behavior (expiryOf c)) asOf r.address ∧
        ¬ Expired asOf (expiryOf c r.address) ∧ c.entries.get? r.address = some r.builder :=
      fun k r => (hpairs k r).trans (and_congr_right fun _ => shown_iff hkc hi hzero k r)
    constructor
    · rintro ⟨pairs', hlisting', hhas', halike⟩
      refine ⟨fun h => absurd h hzero, fun _ k m hm holder => ?_⟩
      obtain ⟨e, he, -⟩ := visible_stored hkc hc hm.1.1
      obtain ⟨hk, b, hb, -⟩ := hm.1.1
      obtain ⟨found, hfound, hiff, -⟩ := halike k b hk hb
      obtain ⟨found', hfound', hrecord⟩ := getEntryByKey_found hkc hc hi hk hb
      cases Except.ok.inj (hfound.symm.trans hfound')
      obtain ⟨r, hin'⟩ := hiff.mpr ⟨_, (hrecord ⟨m, e⟩).mpr ⟨hm, holder, he⟩⟩
      rw [hlisting] at hlisting'
      have hin := (honce.mem_iff (Except.ok.inj hlisting').symm hhas' hhas k r).mp hin'
      obtain ⟨hreach, hvisible, -, hfresh, -⟩ := (hmem k r).mp hin
      rw [hvisible.unique hm] at hfresh
      exact ⟨hreach, hfresh⟩
    · rintro ⟨-, hfits⟩
      refine ⟨pairs, hlisting, hhas, fun k b hk hb => ?_⟩
      obtain ⟨found, hfound, hrecord⟩ := getEntryByKey_found hkc hc hi hk hb
      -- both show the last entry before the time, if the earliest clearance leaves it
      have hboth : ∀ r, (k, r) ∈ pairs ↔ found = some r := by
        intro r
        rw [hmem, hrecord]
        constructor
        · rintro ⟨-, hvisible, holder, -, hbuilder⟩
          exact ⟨hvisible, holder, hbuilder⟩
        · rintro ⟨hvisible, holder, hbuilder⟩
          obtain ⟨hreach, hfresh⟩ := hfits hzero k r.address hvisible holder
          exact ⟨hreach, hvisible, holder, hfresh, hbuilder⟩
      refine ⟨found, hfound, exists_congr hboth, ?_, ?_⟩
      · intro r hr
        have hin := hr.elim id (hboth r).mpr
        obtain ⟨-, -, -, hfresh, hbuilder⟩ := (hmem k r).mp hin
        rw [← expiryOf_eq hbuilder]
        exact hfresh
      · intro m e hm hkept he _
        have hsome := (hrecord ⟨m, e⟩).mpr ⟨hm, fun h => hkept (h.hidden hfinite), he⟩
        exact ⟨hsome, ⟨m, e⟩, (hboth _).mpr hsome, rfl⟩

end

end Memory

/-! ## §4. Both stores. -/

/-- The reads of an `LmdbStore` apply expiry alike. -/
def Lmdb.ExpiryRight (c : Lmdb.Contents) (container : Muid) (behavior : Behavior) (asOf : Int) :
    Prop :=
  ExpiryAlike (Lmdb.viewOf c container behavior (Lmdb.expiryOf c)) behavior asOf
    (Lmdb.getKeyedEntries c container behavior asOf)
    (fun k => Lmdb.getEntryByKey c container k asOf)

/-- The reads of a `MemoryStore` apply expiry alike. -/
def Memory.ExpiryRight (c : Memory.Contents) (container : Muid) (behavior : Behavior)
    (asOf : Int) : Prop :=
  ExpiryAlike (Memory.viewOf c container behavior (Memory.expiryOf c)) behavior asOf
    (Memory.getKeyedEntries c container behavior asOf)
    (fun k => Memory.getEntryByKey c container k asOf)

/-- **Expiry is applied alike by lookup and listing exactly when it fits**, in every state that
calls of `apply_bundle` lead to, in both stores, with and without history. -/
theorem expiry_alike_iff (lib : Externals) (container : Muid) (behavior : Behavior)
    (asOf : Int) (instant : Muid) (hi : Muid.instant asOf = .ok instant)
    (hcontainer : container.timeField.val ≠ 0) :
    (∀ symmetricKeys retainBundles retainEntries calls c,
      c = (Lmdb.runCalls lib (Lmdb.newStore symmetricKeys retainBundles retainEntries)
        calls).db.contents →
      Lmdb.KeyedEntries c container behavior →
        (Lmdb.ExpiryRight c container behavior asOf ↔
          Lmdb.ExpiryFits (Lmdb.viewOf c container behavior (Lmdb.expiryOf c)) (Lmdb.expiryOf c)
            asOf)) ∧
    (∀ symmetricKeys retainEntries calls c,
      c = (Memory.runCalls lib (Memory.newStore symmetricKeys retainEntries) calls).contents →
      Memory.KeyedEntries c container behavior →
        (Memory.ExpiryRight c container behavior asOf ↔
          Memory.ExpiryFits (Memory.viewOf c container behavior (Memory.expiryOf c))
            (Memory.expiryOf c) asOf)) := by
  constructor
  · intro symmetricKeys retainBundles retainEntries calls c hc hkept
    have hclearances := Lmdb.runCalls_clearanceKeys lib symmetricKeys retainBundles retainEntries
      calls
    rw [← hc] at hclearances
    exact Lmdb.expiryAlike_iff hkept.rows hkept.placedOnce
      ⟨hkept.stored, fun _ _ _ => hcontainer, hclearances⟩ hi
  · intro symmetricKeys retainEntries calls c hc hkept
    have hclearances := Memory.runCalls_clearanceKeys lib symmetricKeys retainEntries calls
    have hstart : Memory.StoreStocked (fun _ => True) symmetricKeys
        (Memory.newStore symmetricKeys retainEntries) :=
      ⟨rfl, fun row hrow => absurd hrow List.not_mem_nil,
        fun row hrow => absurd hrow List.not_mem_nil⟩
    have hstocked : Memory.StoreStocked (fun _ => True) symmetricKeys
        (Memory.runCalls lib (Memory.newStore symmetricKeys retainEntries) calls) :=
      Memory.runCalls_stocked (fun _ _ _ _ _ _ _ _ => trivial) hstart
    rw [← hc] at hclearances
    have hplacers := hstocked.2.placers
    rw [← hc] at hplacers
    exact Memory.expiryAlike_iff hkept.rows hkept.placedOnce ⟨hkept.stored, hplacers, hclearances⟩ hi

/-- The key `a` of a directory, to expire at 6. -/
def expiringEntry : EntryBuilder where
  container := some (globalBuilder .directory)
  behavior := .directory
  expiry := 6
  subject := some (.key (some (.characters "a")))
  contains := some (.value (.characters "brief"))

/-- An `LmdbStore` that was sent it at time 5. -/
def expiringLmdb : Lmdb.Contents :=
  (Lmdb.runCalls (sampleExternals [startingBundle 5 1 [.entry expiringEntry]])
    (Lmdb.newStore ∅ true true) [Lmdb.sampleCall 0 1]).db.contents

/-- A `MemoryStore` that was sent it at time 5. -/
def expiringMemory : Memory.Contents :=
  (Memory.runCalls (sampleExternals [startingBundle 5 1 [.entry expiringEntry]])
    (Memory.newStore [] true) [{ bundle := sampleBundle 0 }]).contents

/-- What decides where the entry of change `(5, 1, 1)` is placed. -/
def placedAs (e : EntryBuilder) : Behavior × U64 × Option MiddleKey :=
  (e.behavior, e.expiry, (Placement.middleOf e ⟨5, 1, 1⟩).toOption)

theorem placedAs_eq {e : EntryBuilder} {behavior : Behavior} {expiry : U64} {k : MiddleKey}
    (h : placedAs e = (behavior, expiry, some k)) :
    e.behavior = behavior ∧ e.expiry = expiry ∧ Placement.middleOf e ⟨5, 1, 1⟩ = .ok k := by
  obtain ⟨hbehavior, hrest⟩ := Prod.mk.inj h
  obtain ⟨hexpiry, hmiddle⟩ := Prod.mk.inj hrest
  exact ⟨hbehavior, hexpiry, toOption_eq_some.mp hmiddle⟩

/-- In both stores the reads of the directory are right at 6 exactly as said. -/
theorem expiry_alike_iff_sample :
    (Lmdb.ExpiryRight expiringLmdb (globalMuid .directory) .directory 6 ↔
      Lmdb.ExpiryFits (Lmdb.viewOf expiringLmdb (globalMuid .directory) .directory
        (Lmdb.expiryOf expiringLmdb)) (Lmdb.expiryOf expiringLmdb) 6) ∧
    (Memory.ExpiryRight expiringMemory (globalMuid .directory) .directory 6 ↔
      Memory.ExpiryFits (Memory.viewOf expiringMemory (globalMuid .directory) .directory
        (Memory.expiryOf expiringMemory)) (Memory.expiryOf expiringMemory) 6) := by
  have h := expiry_alike_iff (sampleExternals [startingBundle 5 1 [.entry expiringEntry]])
    (globalMuid .directory) .directory 6 ⟨6, 0, 0⟩ (by decide +kernel) (by decide)
  have hlmdb : expiringLmdb.placements.rows =
      [(expiringKey (globalMuid .directory) (UserKey.characters "a").serialize ⟨5, 1, 1⟩ 6,
        (⟨5, 1, 1⟩ : Muid).toBytes)] := by decide +kernel
  have hmemory : expiringMemory.placements.rows =
      [(expiringKey (globalMuid .directory) (UserKey.characters "a").serialize ⟨5, 1, 1⟩ 6,
        ⟨5, 1, 1⟩)] := by decide +kernel
  refine ⟨h.1 ∅ true true _ expiringLmdb rfl ?_, h.2 [] true _ expiringMemory rfl ?_⟩
  · intro row hrow _
    rw [hlmdb, List.mem_singleton] at hrow
    subst hrow
    have hentry : (expiringLmdb.entries.get? (⟨5, 1, 1⟩ : Muid).toBytes).map placedAs = some (.directory, 6,
        some (.key (.characters "a"))) := by decide +kernel
    obtain ⟨e, he, hplaced⟩ := Option.map_eq_some_iff.mp hentry
    obtain ⟨hbehavior, hexpiry, hmiddle⟩ := placedAs_eq hplaced
    exact ⟨⟨5, 1, 1⟩, e, .key (.characters "a"), _, he, hbehavior, trivial, hmiddle, rfl,
      by rw [hexpiry], by decide⟩
  · intro row hrow _
    rw [hmemory, List.mem_singleton] at hrow
    subst hrow
    have hentry : (expiringMemory.entries.get? ⟨5, 1, 1⟩).map placedAs = some (.directory, 6,
        some (.key (.characters "a"))) := by decide +kernel
    obtain ⟨e, he, hplaced⟩ := Option.map_eq_some_iff.mp hentry
    obtain ⟨hbehavior, hexpiry, hmiddle⟩ := placedAs_eq hplaced
    exact ⟨⟨5, 1, 1⟩, e, .key (.characters "a"), _, he, hbehavior, trivial, hmiddle, rfl,
      by rw [hexpiry], by decide⟩

/-- Once the entry has expired, no listing has it and both lookups find it. -/
theorem expired_found :
    ¬ Lmdb.ExpiryRight expiringLmdb (globalMuid .directory) .directory 8 ∧
      ¬ Memory.ExpiryRight expiringMemory (globalMuid .directory) .directory 8 := by
  constructor
  · intro h
    have hempty : (Lmdb.getKeyedEntries expiringLmdb (globalMuid .directory) .directory
        8).toOption.map List.length = some 0 := by decide +kernel
    have hnone := h.none_found hempty (k := .key (.characters "a")) trivial rfl
    exact absurd hnone (by decide +kernel)
  · intro h
    have hempty : (Memory.getKeyedEntries expiringMemory (globalMuid .directory) .directory
        8).toOption.map List.length = some 0 := by decide +kernel
    have hnone := h.none_found hempty (k := .key (.characters "a")) trivial rfl
    exact absurd hnone (by decide +kernel)

end Gink
