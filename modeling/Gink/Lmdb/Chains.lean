/-
  Gink.Lmdb.Chains — the chain tables over every run of an `LmdbStore`.

  `applyBundle_step` says what one call does to the database: nothing, or the bundle,
  its info and the chain row are written together.  The bundles of a chain, read in
  the order `get_bundles` hands them over, therefore stay one linked list.
-/
import Gink.Lmdb.Store
import Gink.Chain.Bundle

namespace Gink

/-- Times that can be packed sort as numbers, the packed infinity last. -/
theorem encodeMuts_lt {n m : Int} {b c : Bytes} (hn : 0 ≤ n) (hnm : n < m)
    (hb : encodeMuts n = .ok b) (hc : encodeMuts m = .ok c) : b < c := by
  unfold encodeMuts intInf at hb hc
  split_ifs at hb hc with h1 h2 h3 h4 h5 h6
  · omega
  · omega
  · injection hb with hb
    injection hc with hc
    rw [← hb, ← hc]
    unfold packSigned
    rw [Bytes.beEncode_lt_iff (by omega) (by omega)]
    omega
  · injection hb with hb
    injection hc with hc
    rw [← hb, ← hc]
    exact (packSigned_lt_iff ⟨hn, h4.2⟩ ⟨by omega, h6.2⟩).mpr hnm

namespace Lmdb

/-! ## §1. What one call does to the chain tables. -/

/-- Claiming touches the claims only. -/
theorem claimChain_ok {db db' : Db} {claimChain : Bool} {info : BundleInfo} {clock : Clock}
    (h : db.claimChain claimChain info clock = .ok db') :
    ∃ claims, db' = { db with claims } := by
  unfold Db.claimChain at h
  split_ifs at h with hc
  · obtain ⟨-, -, h⟩ := bind_eq_ok.mp h
    obtain ⟨key, -, h⟩ := bind_eq_ok.mp h
    exact ⟨_, (pure_eq_ok.mp h).symm⟩
  · injection h with h
    exact ⟨db.claims, h.symm⟩

/-- Storing a bundle touches the bundles only, and only with retention on. -/
theorem storeBundle_ok {db db' : Db} {bundle : Decomposition} {clock : Clock}
    (h : db.storeBundle bundle clock = .ok db') :
    ∃ bundles, db' = { db with bundles } ∧ (db.retainBundles = true →
      ∃ location, encodeMuts clock.receiveTime = .ok location ∧
        bundles = db.bundles.put location bundle) := by
  unfold Db.storeBundle at h
  split_ifs at h with hr
  · obtain ⟨location, hl, h⟩ := map_eq_ok.mp h
    exact ⟨_, h.symm, fun _ => ⟨location, hl, rfl⟩⟩
  · injection h with h
    exact ⟨db.bundles, h.symm, fun hr' => absurd hr' hr⟩

theorem indexBundle_ok {db db' : Db} {info : BundleInfo} {clock : Clock}
    (h : db.indexBundle info clock = .ok db') :
    ∃ bundleInfos, db' = { db with bundleInfos } ∧ (db.retainBundles = true →
      ∃ location, encodeMuts clock.receiveTime = .ok location ∧
        bundleInfos = db.bundleInfos.put info.toBytes location) := by
  unfold Db.indexBundle at h
  split_ifs at h with hr
  · obtain ⟨location, hl, h⟩ := bind_eq_ok.mp h
    obtain ⟨infos, hi, h⟩ := bind_eq_ok.mp h
    refine ⟨infos, (pure_eq_ok.mp h).symm, fun _ => ⟨location, hl, ?_⟩⟩
    unfold putRow at hi
    split_ifs at hi with hlen
    injection hi with hi
    exact hi.symm
  · injection h with h
    exact ⟨db.bundleInfos, h.symm, fun hr' => absurd hr' hr⟩

/-- Extending a chain writes its row, and for a new chain its identity and key. -/
theorem extendChain_ok {lib : Externals} {db db' : Db} {bundle : Decomposition}
    {builder : BundleBuilder} {info : BundleInfo} {old : Option BundleInfo}
    (h : db.extendChain lib bundle builder info old = .ok db') :
    (∃ identities verifyKeys, db' = { db with
        chains := db.chains.put info.chain.toBytes info, identities, verifyKeys }) ∧
      (info.chainStart ≠ info.timestamp →
        ∃ o, old = some o ∧ builder.priorHash = o.hash) := by
  unfold Db.extendChain at h
  simp only at h
  split_ifs at h with hstart
  · obtain ⟨key, -, h⟩ := bind_eq_ok.mp h
    obtain ⟨-, -, h⟩ := bind_eq_ok.mp h
    exact ⟨⟨_, _, (pure_eq_ok.mp h).symm⟩, fun hne => absurd hstart hne⟩
  · obtain ⟨key, -, h⟩ := bind_eq_ok.mp h
    obtain ⟨o, ho, h⟩ := bind_eq_ok.mp h
    obtain ⟨u, hh, h⟩ := bind_eq_ok.mp h
    obtain ⟨-, -, h⟩ := bind_eq_ok.mp h
    refine ⟨⟨db.identities, db.verifyKeys, (pure_eq_ok.mp h).symm⟩, fun _ => ?_⟩
    exact ⟨o, orRaise_eq_ok.mp ho, by simpa using ensure_eq_ok.mp hh⟩

/-- What a committed transaction has written, table by table. -/
structure Committed (lib : Externals) (s : Store) (bundle : Decomposition)
    (builder : BundleBuilder) (info : BundleInfo) (old : Option BundleInfo) (clock : Clock)
    (seen : List Muid) (db' : Db) : Prop where
  link : info.chainStart ≠ info.timestamp → ∃ o, old = some o ∧ builder.priorHash = o.hash
  stored : s.db.retainBundles = true → ∃ location,
    encodeMuts clock.receiveTime = .ok location ∧
    db'.bundles = s.db.bundles.put location bundle ∧
    db'.bundleInfos = s.db.bundleInfos.put info.toBytes location
  chains : db'.chains = s.db.chains.put info.chain.toBytes info
  retainBundles : db'.retainBundles = s.db.retainBundles
  retainEntries : db'.retainEntries = s.db.retainEntries
  symmetricKeys : db'.symmetricKeys = s.db.symmetricKeys
  contents : ∃ changes, openChanges lib s.db.symmetricKey builder = .ok changes ∧
    applyChangesFrom lib s.db.contents s.db.retainEntries info 1
      (if s.applyChanges then changes else []) s.seenContainers s.db.contents
        = (seen, .ok db'.contents)

/-- **The transaction taken apart.** -/
theorem writeBundle_ok {lib : Externals} {s : Store} {bundle : Decomposition}
    {builder : BundleBuilder} {info : BundleInfo} {old : Option BundleInfo} {claimChain : Bool}
    {clock : Clock} {db' : Db}
    (h : (writeBundle lib s bundle builder info old claimChain clock).db = .ok db') :
    Committed lib s bundle builder info old clock
        (writeBundle lib s bundle builder info old claimChain clock).seenContainers db' ∧
      (writeBundle lib s bundle builder info old claimChain clock).seenThrough
        = if s.db.retainBundles then clock.receiveTime else s.seenThrough := by
  unfold writeBundle at h ⊢
  cases h1 : (s.db.claimChain claimChain info clock >>= fun db => db.storeBundle bundle clock) with
  | error e =>
      rw [h1] at h
      exact absurd h (by simp)
  | ok db1 =>
      rw [h1] at h
      simp only at h ⊢
      obtain ⟨db0, hclaim, hstore⟩ := bind_eq_ok.mp h1
      obtain ⟨claims, hdb0⟩ := claimChain_ok hclaim
      obtain ⟨bundles, hdb1, hbundles⟩ := storeBundle_ok hstore
      cases h2 : db1.linkBundle lib bundle builder info old clock with
      | error e =>
          rw [h2] at h
          exact absurd h (by simp)
      | ok r =>
          rw [h2] at h
          unfold Db.linkBundle at h2
          obtain ⟨db2, hindex, h3⟩ := bind_eq_ok.mp h2
          obtain ⟨bundleInfos, hdb2, hinfos⟩ := indexBundle_ok hindex
          obtain ⟨db3, hextend, h4⟩ := bind_eq_ok.mp h3
          obtain ⟨⟨identities, verifyKeys, hdb3⟩, hlink⟩ := extendChain_ok hextend
          obtain ⟨changes, hchanges, h5⟩ := bind_eq_ok.mp h4
          subst hdb0 hdb1 hdb2 hdb3
          obtain rfl := pure_eq_ok.mp h5
          simp only at h ⊢
          obtain ⟨contents, happlied, rfl⟩ := map_eq_ok.mp h
          refine ⟨⟨hlink, ?_, rfl, rfl, rfl, rfl, changes, hchanges, Prod.ext rfl happlied⟩, trivial⟩
          intro hretain
          obtain ⟨location, hloc, hb⟩ := hbundles hretain
          obtain ⟨location', hloc', hi⟩ := hinfos hretain
          obtain rfl : location = location' := by
            rw [hloc] at hloc'
            injection hloc'
          exact ⟨location, hloc, hb, hi⟩

/-- The two things a call can do to the database. -/
inductive CallStep (lib : Externals) (s : Store) (bundle : Decomposition)
    (callback : Option Callback) (clock : Clock) (o : Outcome Bool) : Prop where
  | kept (db : o.store.db = s.db) (flag : o.store.applyChanges = s.applyChanges)
      (result : o.result ≠ .ok true)
  | committed (builder : BundleBuilder) (opened : bundle.getBuilder lib = .ok builder)
      (info : BundleInfo) (info_eq : info = .ofBuilder builder (lib.digest bundle.bundleBytes))
      (needed : isNeeded info (s.db.chains.get? info.chain.toBytes) = .ok true)
      (written : Committed lib s bundle builder info (s.db.chains.get? info.chain.toBytes) clock
        o.store.seenContainers o.store.db)
      (flag : o.store.applyChanges = s.applyChanges)
      (result : o.result = .ok true ∨
        ∃ f e, callback = some f ∧ f bundle = .error e ∧ o.result = .error e)

/-- **One call**: the database is left alone, or the whole transaction is committed. -/
theorem applyBundle_step (lib : Externals) (s : Store) (bundle : Decomposition)
    (callback : Option Callback) (claimChain : Bool) (clock : Clock) :
    CallStep lib s bundle callback clock
      (applyBundle lib s bundle callback claimChain clock) := by
  unfold applyBundle
  cases hb : bundle.getBuilder lib with
  | error e => exact .kept rfl rfl (by simp)
  | ok builder =>
      simp only
      generalize hinfo : BundleInfo.ofBuilder builder (lib.digest bundle.bundleBytes) = info
      have hdb : (refreshHelper s callback).store.db = s.db := rfl
      cases hr : (refreshHelper s callback).result with
      | error e => exact .kept hdb rfl (by simp)
      | ok count =>
          simp only [hdb]
          cases hn : isNeeded info (s.db.chains.get? info.chain.toBytes) with
          | error e => exact .kept hdb rfl (by simp)
          | ok needed =>
              cases needed with
              | false => exact .kept hdb rfl (by simp)
              | true =>
                  simp only
                  cases hw : (writeBundle lib (refreshHelper s callback).store bundle builder info
                      (s.db.chains.get? info.chain.toBytes) claimChain clock).db with
                  | error e => exact .kept hdb rfl (by simp)
                  | ok db' =>
                      have hw' := (writeBundle_ok hw).1
                      -- refreshing changed only `_seen_through`
                      have hwritten : Committed lib s bundle builder info
                          (s.db.chains.get? info.chain.toBytes) clock _ db' :=
                        ⟨hw'.link, hw'.stored, hw'.chains, hw'.retainBundles, hw'.retainEntries,
                          hw'.symmetricKeys, hw'.contents⟩
                      cases callback with
                      | none =>
                          exact .committed builder hb info hinfo.symm hn hwritten rfl (Or.inl rfl)
                      | some f =>
                          simp only
                          cases hf : f bundle with
                          | error e =>
                              exact .committed builder hb info hinfo.symm hn hwritten rfl
                                (Or.inr ⟨f, e, rfl, hf, rfl⟩)
                          | ok u =>
                              exact .committed builder hb info hinfo.symm hn hwritten rfl
                                (Or.inl rfl)

/-! ## §2. The invariant. -/

/-- The infos of a chain as they are listed, with the bundles they lead to. -/
def Db.bundlesOf (db : Db) (chain : Chain) : List Decomposition :=
  (db.bundleInfos.rows.filter (fun r =>
    (BundleInfo.fromBytes r.1).toOption.any (fun info => decide (info.chain = chain)))).filterMap
      (fun r => db.bundles.get? r.2)

/-- What holds of the chain tables when the last bundle was received at `now`. -/
structure ChainInv (lib : Externals) (now : Int) (db : Db) : Prop where
  retains : db.retainBundles = true
  now_nonneg : 0 ≤ now
  received : ∀ r ∈ db.bundles.rows, ∃ time, 0 ≤ time ∧ time ≤ now ∧ encodeMuts time = .ok r.1
  infos : ∀ r ∈ db.bundleInfos.rows, ∃ info bundle, r.1 = info.toBytes ∧
    db.bundles.get? r.2 = some bundle ∧ bundle.getInfo lib = .ok info
  linked : ∀ chain : Chain, ChainLinked lib chain (db.bundlesOf chain)
    (db.chains.get? chain.toBytes)

/-- The hash in a bundle's info is a digest. -/
theorem length_hash {lib : Externals} {d : Decomposition} {info : BundleInfo}
    (h : d.getInfo lib = .ok info) : info.hash.length = 32 := by
  unfold Decomposition.getInfo at h
  obtain ⟨b, -, rfl⟩ := map_eq_ok.mp h
  exact lib.length_digest d.bundleBytes

/-- A listed info is not newer than its chain's last one. -/
theorem ChainInv.timestamp_le {lib : Externals} {now : Int} {db : Db} (h : ChainInv lib now db)
    {r : Bytes × Bytes} (hr : r ∈ db.bundleInfos.rows) {info : BundleInfo}
    (hkey : r.1 = info.toBytes) {bundle : Decomposition}
    (hbundle : db.bundles.get? r.2 = some bundle) (hinfo : bundle.getInfo lib = .ok info) :
    ∃ last, db.chains.get? info.chain.toBytes = some last ∧ info.timestamp ≤ last.timestamp := by
  have hmem : bundle ∈ db.bundlesOf info.chain := by
    refine List.mem_filterMap.mpr ⟨r, List.mem_filter.mpr ⟨hr, ?_⟩, hbundle⟩
    rw [hkey, BundleInfo.fromBytes_toBytes info (length_hash hinfo)]
    simp [Except.toOption]
  obtain ⟨i, last, hi, hlast, hle⟩ := (h.linked info.chain).timestamp_le hmem
  rw [hinfo] at hi
  injection hi with hi
  exact ⟨last, hlast, hi ▸ hle⟩

/-- Older infos have smaller keys. -/
theorem toBytes_lt {i j : BundleInfo} (h : i.timestamp < j.timestamp) : i.toBytes < j.toBytes := by
  have h1 := i.timestamp.isLt
  have h2 := j.timestamp.isLt
  unfold BundleInfo.toBytes
  simp only [List.append_assoc]
  rw [Bytes.append_lt_append_iff (by simp)]
  exact Or.inl ((Bytes.beEncode_lt_iff (by omega) (by omega)).mpr h)

/-- The step: a committed bundle goes to the end of its chain's list. -/
theorem ChainInv.commit {lib : Externals} {now : Int} {s : Store} (h : ChainInv lib now s.db)
    {bundle : Decomposition} {builder : BundleBuilder}
    (hopen : bundle.getBuilder lib = .ok builder) {info : BundleInfo}
    (hinfo : info = .ofBuilder builder (lib.digest bundle.bundleBytes)) {clock : Clock}
    (hclock : now < clock.receiveTime)
    (hneeded : isNeeded info (s.db.chains.get? info.chain.toBytes) = .ok true) {seen : List Muid}
    {db' : Db} (hw : Committed lib s bundle builder info (s.db.chains.get? info.chain.toBytes)
      clock seen db') : ChainInv lib clock.receiveTime db' := by
  obtain ⟨location, hloc, hbundles, hinfos⟩ := hw.stored h.retains
  have hgetInfo : bundle.getInfo lib = .ok info := by
    simp [Decomposition.getInfo, hopen, hinfo, Except.map]
  have hlt := (isNeeded_eq_true hneeded).1
  have hzero := h.now_nonneg
  -- no bundle was received at that time before
  have hfresh : ∀ r ∈ s.db.bundles.rows, r.1 ≠ location := by
    intro r hr heq
    obtain ⟨time, h0, hle, henc⟩ := h.received r hr
    rw [← heq] at hloc
    exact lt_irrefl r.1 (encodeMuts_lt h0 (lt_of_le_of_lt hle hclock) henc hloc)
  have hget : ∀ k d, s.db.bundles.get? k = some d →
      (s.db.bundles.put location bundle).get? k = some d := by
    intro k d hd
    rw [Table.get?_put_of_ne, hd]
    rintro rfl
    exact hfresh (k, d) (Table.get?_eq_some_iff.mp hd) rfl
  -- the infos of the chain are all older than the new one
  have hold : ∀ r ∈ s.db.bundleInfos.rows,
      (BundleInfo.fromBytes r.1).toOption.any (fun i => decide (i.chain = info.chain)) = true →
      r.1 < info.toBytes := by
    intro r hr hchain
    obtain ⟨i, d, hk, hd, hi⟩ := h.infos r hr
    rw [hk, BundleInfo.fromBytes_toBytes i (length_hash hi)] at hchain
    have hchain' : i.chain = info.chain := by simpa [Except.toOption] using hchain
    obtain ⟨last, hlast, hle⟩ := h.timestamp_le hr hk hd hi
    rw [hchain'] at hlast
    rw [hlast] at hlt
    rw [hk]
    exact toBytes_lt (lt_of_le_of_lt hle hlt)
  refine ⟨hw.retainBundles.trans h.retains, by omega, ?_, ?_, ?_⟩
  · intro r hr
    rw [hbundles] at hr
    rcases Table.mem_rows_put.mp hr with rfl | ⟨-, hr⟩
    · exact ⟨clock.receiveTime, by omega, le_refl _, hloc⟩
    · obtain ⟨time, h0, hle, henc⟩ := h.received r hr
      exact ⟨time, h0, by omega, henc⟩
  · intro r hr
    rw [hinfos] at hr
    rw [hbundles]
    rcases Table.mem_rows_put.mp hr with rfl | ⟨-, hr⟩
    · exact ⟨info, bundle, rfl, Table.get?_put_self _ _ _, hgetInfo⟩
    · obtain ⟨i, d, hk, hd, hi⟩ := h.infos r hr
      exact ⟨i, d, hk, hget _ _ hd, hi⟩
  · intro chain
    -- rows that were listed before lead to the bundles they led to
    have hsame : ∀ l : List (Bytes × Bytes), (∀ r ∈ l, r ∈ s.db.bundleInfos.rows) →
        l.filterMap (fun r => (s.db.bundles.put location bundle).get? r.2)
          = l.filterMap (fun r => s.db.bundles.get? r.2) := by
      intro l hl
      refine List.filterMap_congr ?_
      intro r hr
      obtain ⟨i, d, -, hd, -⟩ := h.infos r (hl r hr)
      rw [hd]
      exact hget _ _ hd
    have hbefore := h.linked chain
    unfold Db.bundlesOf at hbefore ⊢
    rw [hbundles, hinfos, hw.chains, Table.get?_put]
    by_cases hch : chain = info.chain
    · subst hch
      rw [Table.filter_put_of_last _ ?_ hold, if_pos rfl, List.filterMap_append,
        hsame _ (fun r hr => (List.mem_filter.mp hr).1)]
      · simp only [List.filterMap_cons, List.filterMap_nil, Table.get?_put_self]
        have := hbefore.extend hopen (by rw [← hinfo]) (by rw [← hinfo]; exact hneeded)
          (fun hne => hw.link (by rw [hinfo]; exact hne))
        rw [← hinfo] at this
        exact this
      · rw [BundleInfo.fromBytes_toBytes info (length_hash hgetInfo)]
        simp [Except.toOption]
    · rw [if_neg (fun heq => hch (Chain.toBytes_inj.mp heq)), Table.filter_put_of_false,
        hsame _ (fun r hr => (List.mem_filter.mp hr).1)]
      · exact hbefore
      · rw [BundleInfo.fromBytes_toBytes info (length_hash hgetInfo)]
        simpa [Except.toOption] using Ne.symm hch
      · intro w _
        rw [BundleInfo.fromBytes_toBytes info (length_hash hgetInfo)]
        simpa [Except.toOption] using Ne.symm hch

/-- `get_bundles` hands over every listed bundle. -/
theorem ChainInv.getBundles_eq {lib : Externals} {now : Int} {db : Db} (h : ChainInv lib now db) :
    getBundles db none = .ok (db.bundleInfos.rows.filterMap (fun r => db.bundles.get? r.2)) := by
  have hall : ∀ l : List (Bytes × Bytes), (∀ r ∈ l, r ∈ db.bundleInfos.rows) →
      bundlesFrom db none l = .ok (l.filterMap (fun r => db.bundles.get? r.2)) := by
    intro l hl
    induction l with
    | nil => rfl
    | cons r rest ih =>
        obtain ⟨i, d, hk, hd, hi⟩ := h.infos r (hl r List.mem_cons_self)
        unfold bundlesFrom
        rw [hk, BundleInfo.fromBytes_toBytes i (length_hash hi), hd,
          ih (fun x hx => hl x (List.mem_cons_of_mem _ hx)), List.filterMap_cons, hd]
        rfl
  unfold getBundles
  rw [if_pos h.retains]
  exact hall _ fun r hr => hr

/-- The bundles of one chain among them. -/
theorem ChainInv.filter_inChain {lib : Externals} {now : Int} {db : Db} (h : ChainInv lib now db)
    (chain : Chain) :
    (db.bundleInfos.rows.filterMap (fun r => db.bundles.get? r.2)).filter (inChain lib chain)
      = db.bundlesOf chain := by
  have hall : ∀ l : List (Bytes × Bytes), (∀ r ∈ l, r ∈ db.bundleInfos.rows) →
      (l.filterMap (fun r => db.bundles.get? r.2)).filter (inChain lib chain)
        = (l.filter (fun r => (BundleInfo.fromBytes r.1).toOption.any
            (fun info => decide (info.chain = chain)))).filterMap (fun r => db.bundles.get? r.2) := by
    intro l hl
    induction l with
    | nil => rfl
    | cons r rest ih =>
        obtain ⟨i, d, hk, hd, hi⟩ := h.infos r (hl r List.mem_cons_self)
        have ih' := ih (fun x hx => hl x (List.mem_cons_of_mem _ hx))
        rw [List.filterMap_cons, hd]
        simp only
        rw [List.filter_cons, List.filter_cons, ih', hk,
          BundleInfo.fromBytes_toBytes i (length_hash hi)]
        by_cases hc : i.chain = chain
        · simp [inChain, hi, Except.toOption, hc, hd]
        · simp [inChain, hi, Except.toOption, hc]
  exact hall _ fun r hr => hr

/-! ## §3. Runs. -/

/-- The states a run of `apply_bundle` calls on an empty database goes through, with
the time of the last call: receive times strictly increase.  The symmetric keys the
store was given before are arbitrary. -/
inductive Reachable (lib : Externals) : Int → Store → Prop
  | empty (symmetricKeys : Table Bytes Bytes) (retainEntries applyChanges : Bool) :
      Reachable lib 0 { db := { symmetricKeys, retainEntries }, applyChanges }
  | apply {now : Int} {s : Store} (h : Reachable lib now s) (bundle : Decomposition)
      (callback : Option Callback) (claimChain : Bool) (clock : Clock)
      (later : now < clock.receiveTime) :
      Reachable lib clock.receiveTime (applyBundle lib s bundle callback claimChain clock).store

/-- **The invariant holds in every state of every run.** -/
theorem Reachable.chainInv {lib : Externals} {now : Int} {s : Store} (h : Reachable lib now s) :
    ChainInv lib now s.db := by
  induction h with
  | empty keys entries changes =>
      exact ⟨rfl, le_refl _, by simp, by simp, fun chain => ChainLinked.nil⟩
  | @apply now s h bundle callback claimChain clock hlater ih =>
      have hstep := applyBundle_step lib s bundle callback claimChain clock
      cases hstep with
      | kept hdb _ _ =>
          rw [hdb]
          refine ⟨ih.retains, by have := ih.now_nonneg; omega, ?_, ih.infos, ih.linked⟩
          intro r hr
          obtain ⟨time, h0, hle, henc⟩ := ih.received r hr
          exact ⟨time, h0, by omega, henc⟩
      | committed builder hopen info hinfo hneeded hw _ _ =>
          exact ih.commit hopen hinfo hlater hneeded hw

end Lmdb

end Gink
