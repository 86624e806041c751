/-
  Gink.Js.LastLink — the link a JavaScript `Database` seals its next bundle with.

  `completeBundle` moves `lastLink` to the new bundle before the store has it.  As long as
  every bundle gets into the store, the bundles on their way there follow on what the store
  holds, the last link is where they end, and when none is left the two agree.  A bundle that
  does not get there is never unrolled: the link stays on it and the store refuses all that
  come after.

  Main results:
    * `lastLink_settled` — the law for runs in which no write fails.
    * `lastLink_poisoned` — one failed write, and the next commit is refused.
-/
import Gink.Js.Database

namespace Gink

namespace Js

/-! ## §1. Bundles that follow one another. -/

section Follows

variable {lib : Sodium} {keyPair : KeyPair lib}

/-- The bundle is signed with the key and names the end of the chain, or starts one. -/
structure Fits (keyPair : KeyPair lib) (last : Option BundleInfo) (bundle : BundleView) : Prop where
  bytes : bundle.bytes = lib.signBundle bundle.builder keyPair.secretKey
  info : bundle.info = .ofBuilder bundle.builder (lib.digest bundle.bytes)
  first : last = none → bundle.info.previous = 0 ∧ 0 < bundle.info.timestamp ∧
    bundle.info.timestamp = bundle.info.chainStart ∧ bundle.builder.identity ≠ "" ∧
      bundle.builder.verifyKey = keyPair.publicKey
  next : ∀ old, last = some old → bundle.info.chain = old.chain ∧
    bundle.info.previous = old.timestamp ∧ old.timestamp < bundle.info.timestamp ∧
      bundle.builder.priorHash = old.hash ∧ bundle.builder.identity = ""

/-- From the one end of a chain to the other, bundle by bundle. -/
inductive Follows (keyPair : KeyPair lib) :
    Option BundleInfo → List BundleView → Option BundleInfo → Prop where
  | nil (last : Option BundleInfo) : Follows keyPair last [] last
  | cons {last link : Option BundleInfo} {bundle : BundleView} {rest : List BundleView} :
      Fits keyPair last bundle → Follows keyPair (some bundle.info) rest link →
        Follows keyPair last (bundle :: rest) link

theorem Follows.concat {start last : Option BundleInfo} {l : List BundleView}
    (h : Follows keyPair start l last) {bundle : BundleView} (hfits : Fits keyPair last bundle) :
    Follows keyPair start (l ++ [bundle]) (some bundle.info) := by
  induction h with
  | nil last => exact .cons hfits (.nil _)
  | cons hfirst _ ih => exact .cons hfirst (ih hfits)

/-- The chain stays the same all along. -/
theorem Follows.chain {start last : Option BundleInfo} {l : List BundleView}
    (h : Follows keyPair start l last) : ∀ old, start = some old →
      ∃ link, last = some link ∧ link.chain = old.chain := by
  induction h with
  | nil last => exact fun old hold => ⟨old, hold, rfl⟩
  | cons hfits _ ih =>
      intro old hold
      obtain ⟨link, hlink, hchain⟩ := ih _ rfl
      exact ⟨link, hlink, hchain.trans (hfits.next old hold).1⟩

theorem Follows.eq_nil {start : Option BundleInfo} {l : List BundleView}
    (h : Follows keyPair start l none) : start = none ∧ l = [] := by
  cases h with
  | nil => exact ⟨rfl, rfl⟩
  | cons _ hrest =>
      obtain ⟨link, hlink, -⟩ := hrest.chain _ rfl
      exact absurd hlink (by simp)

end Follows

/-! ## §2. What the store takes. -/

namespace Store

variable {lib : Sodium} {store : Store lib} {keyPair : KeyPair lib}

/-- A bundle that names this one, signed with the key, would be taken. -/
structure Open (store : Store lib) (keyPair : KeyPair lib) (old : BundleInfo) : Prop where
  key : store.verifyKeys.get? old.chain = some keyPair.publicKey
  hash : old.hash.length = 32
  pos : 0 < old.timestamp
  start_le : old.chainStart ≤ old.timestamp

/-- **A bundle that fits is taken**, and is the end of its chain then. -/
theorem addBundle_of_fits {last : Option BundleInfo} {bundle : BundleView}
    (hfits : Fits keyPair last bundle)
    (hlast : store.chainInfos.get? bundle.info.chain = last)
    (hopen : ∀ old, last = some old → store.Open keyPair old) :
    (store.addBundle bundle).2 = .ok true ∧
      (store.addBundle bundle).1.chainInfos.get? bundle.info.chain = some bundle.info ∧
      (store.addBundle bundle).1.Open keyPair bundle.info := by
  have hhash : bundle.info.hash.length = 32 := by
    rw [hfits.info]
    exact lib.length_digest _
  have hverify : lib.verify bundle.bytes keyPair.publicKey = true := by
    rw [hfits.bytes]
    exact keyPair.verifies _
  cases hl : last with
  | none =>
      obtain ⟨hprevious, hpos, hstart, hidentity, hkey⟩ := hfits.first hl
      have hcheck : checkChain (store.chainInfos.get? bundle.info.chain) bundle = .ok true := by
        rw [hlast, hl]
        exact if_pos hprevious
      have hchain : store.chainKey bundle = .ok
          ({ store with verifyKeys := store.verifyKeys.put bundle.info.chain keyPair.publicKey },
            keyPair.publicKey) := by
        unfold chainKey
        rw [if_pos hstart, if_neg hidentity, hkey, if_neg keyPair.publicKey_ne]
      unfold addBundle
      simp only [hcheck, hchain, hverify, if_true]
      exact ⟨trivial, by simp, by simp, hhash, hpos, hstart.ge⟩
  | some old =>
      obtain ⟨hchain, hprevious, hlt, hprior, hidentity⟩ := hfits.next old hl
      have ho := hopen old hl
      have hstart : bundle.info.chainStart = old.chainStart := congrArg Chain.chainStart hchain
      have hcheck : checkChain (store.chainInfos.get? bundle.info.chain) bundle = .ok true := by
        rw [hlast, hl]
        simp only [checkChain]
        rw [if_neg (not_le.mpr hlt), if_neg, if_neg]
        · rw [hprior]
          simp [ho.hash]
        · rw [hprevious]
          simp [ho.pos.ne']
      have hkey : store.chainKey bundle = .ok (store, keyPair.publicKey) := by
        unfold chainKey
        rw [if_neg, if_neg (by simp [hidentity]), hchain, ho.key]
        rw [hstart]
        exact (ho.start_le.trans_lt hlt).ne'
      unfold addBundle
      simp only [hcheck, hkey, hverify, if_true]
      exact ⟨trivial, by simp, by rw [hchain]; exact ho.key, hhash, ho.pos.trans hlt,
        by rw [hstart]; exact ho.start_le.trans hlt.le⟩

/-- What a store says of a chain that bundlers have written. -/
def Sound (store : Store lib) : Prop :=
  ∀ chain info, store.chainInfos.get? chain = some info →
    info.chain = chain ∧ info.hash.length = 32 ∧ 0 < info.timestamp ∧
      info.chainStart ≤ info.timestamp

end Store

namespace Database

variable {lib : Sodium} {db : Database lib}

/-! ## §3. When the link is right. -/

/-- The clock is past the last link; and a new chain is not in the store, has a time and the
name of somebody. -/
structure ClockFits (db : Database lib) (now : U64) : Prop where
  next : ∀ link, db.lastLink = some link → link.timestamp < generateTimestamp db.lastTime now
  start : db.lastLink = none → 0 < generateTimestamp db.lastTime now ∧ db.identity.getD "" ≠ "" ∧
    ∀ medallion, db.medallion = some medallion →
      db.store.chainInfos.get? ⟨medallion, generateTimestamp db.lastTime now⟩ = none

/-- The steps after which the link is right: no write fails, the clock fits whenever the lock
is granted, and a call that waited for the lock finds no medallion. -/
def Lands (db : Database lib) : Event lib → Prop
  | .acquired _ _ => db.medallion = none
  | .granted _ now => ∀ index comment rest, db.holder = none →
      db.waiting = .completeBundle index comment :: rest → db.ClockFits now
  | .settled outcome => outcome ≠ .fails
  | _ => True

/-- What was stored follows on where the database began, what is on its way follows on the end
the store has for the chain, and the last link is where that ends. -/
def Linked (db : Database lib) (medallion : U64) (keyPair : KeyPair lib) : Prop :=
  ∃ start last : Option BundleInfo,
    Follows keyPair start db.stored last ∧
    Follows keyPair last (db.writes.map Write.bundle) db.lastLink ∧
    (∀ link, db.lastLink = some link →
      link.medallion = medallion ∧ db.store.chainInfos.get? link.chain = last) ∧
    ∀ old, last = some old → db.store.Open keyPair old

/-- The law in every state of such a run. -/
structure LinkInv (db : Database lib) : Prop where
  saving : ∀ identity comment keyPair, db.holder = some (.saving identity comment keyPair) →
    db.medallion = none ∧ db.keyPair = some keyPair
  idle : db.medallion = none →
    db.lastLink = none ∧ db.writes = [] ∧ db.stored = [] ∧ db.store.Sound
  linked : ∀ medallion, db.medallion = some medallion →
    ∃ keyPair, db.keyPair = some keyPair ∧ db.Linked medallion keyPair

theorem LinkInv.opened {store : Store lib} (h : store.Sound) (identity : Option String)
    (lastTime : U64) : LinkInv (opened store identity lastTime) where
  saving _ _ _ hheld := absurd hheld (by simp [Database.opened])
  idle _ := ⟨rfl, rfl, rfl, h⟩
  linked _ hmedallion := absurd hmedallion (by simp [Database.opened])

/-! ## §4. The steps. -/

/-- Who waits for the lock and who has it does not matter, as long as nobody saves keys; nor
do the bundlers and the commits that were answered. -/
theorem LinkInv.others (h : LinkInv db) {db' : Database lib}
    (hmedallion : db'.medallion = db.medallion) (hkey : db'.keyPair = db.keyPair)
    (hlink : db'.lastLink = db.lastLink) (hstore : db'.store = db.store)
    (hwrites : db'.writes = db.writes) (hstored : db'.stored = db.stored)
    (hholder : ∀ identity comment keyPair,
      db'.holder = some (.saving identity comment keyPair) →
        db.holder = some (.saving identity comment keyPair)) : LinkInv db' := by
  refine ⟨?_, ?_, ?_⟩
  · intro identity comment keyPair hheld
    rw [hmedallion, hkey]
    exact h.saving identity comment keyPair (hholder _ _ _ hheld)
  · rw [hmedallion, hlink, hwrites, hstored, hstore]
    exact h.idle
  · intro medallion hm
    rw [hmedallion] at hm
    obtain ⟨keyPair, hk, hlinked⟩ := h.linked medallion hm
    refine ⟨keyPair, by rw [hkey, hk], ?_⟩
    unfold Linked
    rw [hlink, hwrites, hstored, hstore]
    exact hlinked

/-- **A new link**: the bundle fits the last one. -/
theorem bundleBuilder_fits {bundler : BoundBundler} {comment : String} {medallion : U64}
    {keyPair : KeyPair lib} {now : U64}
    (hlink : ∀ link, db.lastLink = some link → link.medallion = medallion)
    (hclock : db.ClockFits now) :
    Fits keyPair db.lastLink (decomposition lib
      (db.bundleBuilder bundler comment medallion (generateTimestamp db.lastTime now) keyPair)
      keyPair.secretKey) := by
  refine ⟨rfl, rfl, ?_, ?_⟩
  · intro hnone
    obtain ⟨hpos, hidentity, -⟩ := hclock.start hnone
    unfold bundleBuilder
    rw [hnone]
    exact ⟨rfl, hpos, rfl, hidentity, rfl⟩
  · intro old hold
    have hlt := hclock.next old hold
    have hmed := hlink old hold
    unfold bundleBuilder
    rw [hold]
    refine ⟨?_, rfl, hlt, rfl, rfl⟩
    show (⟨medallion, old.chainStart⟩ : Chain) = ⟨old.medallion, old.chainStart⟩
    rw [hmed]

theorem bundleBuilder_chain_none {bundler : BoundBundler} {comment : String}
    {medallion timestamp : U64} {keyPair : KeyPair lib} (hnone : db.lastLink = none) :
    (decomposition lib (db.bundleBuilder bundler comment medallion timestamp keyPair)
      keyPair.secretKey).info.chain = ⟨medallion, timestamp⟩ := by
  unfold bundleBuilder
  rw [hnone]
  rfl

/-- **A bundle is sealed** while others may still be on their way. -/
theorem LinkInv.completeBundle (h : LinkInv db) (index : Nat) (comment : String) {now : U64}
    (hclock : db.ClockFits now) : LinkInv (db.completeBundle index comment now) := by
  unfold Database.completeBundle
  split
  · rename_i bundler medallion keyPair hbundler hmedallion hkey
    obtain ⟨keyPair', hkey', start, last, hstored, hwrites, hlink, hopen⟩ :=
      h.linked medallion hmedallion
    obtain rfl : keyPair = keyPair' := Option.some.inj (hkey.symm.trans hkey')
    have hfits := @bundleBuilder_fits lib db bundler comment medallion keyPair now
      (fun link hl => (hlink link hl).1) hclock
    set bundle := decomposition lib
      (db.bundleBuilder bundler comment medallion (generateTimestamp db.lastTime now) keyPair)
      keyPair.secretKey with hbundle
    have hmed : bundle.info.medallion = medallion := by
      rw [hbundle]
      unfold bundleBuilder
      cases db.lastLink <;> rfl
    -- the store holds the end of the chain that the new link is of
    have hlast : db.store.chainInfos.get? bundle.info.chain = last := by
      cases hl : db.lastLink with
      | none =>
          rw [hl] at hwrites
          rw [hwrites.eq_nil.1, hbundle, bundleBuilder_chain_none hl]
          exact (hclock.start hl).2.2 medallion hmedallion
      | some link =>
          rw [(hfits.next link hl).1]
          exact (hlink link hl).2
    refine ⟨h.saving, fun hnone => absurd (hnone.symm.trans hmedallion) (by simp), ?_⟩
    intro medallion' hm
    obtain rfl : medallion = medallion' := Option.some.inj (hmedallion.symm.trans hm)
    refine ⟨keyPair, hkey, start, last, hstored, ?_, ?_, hopen⟩
    · show Follows keyPair last ((db.writes ++ [Write.mk index bundle]).map Write.bundle)
        (some bundle.info)
      rw [List.map_append]
      exact hwrites.concat hfits
    · intro link hl
      obtain rfl : bundle.info = link := Option.some.inj hl
      exact ⟨hmed, hlast⟩
  · exact h.others rfl rfl rfl rfl rfl rfl fun _ _ _ hheld => hheld

theorem LinkInv.grant (h : LinkInv db) (osIdentity : String) {now : U64}
    (hclock : ∀ index comment rest, db.holder = none →
      db.waiting = .completeBundle index comment :: rest → db.ClockFits now) :
    LinkInv (db.grant osIdentity now) := by
  unfold Database.grant
  split
  · exact h.others rfl rfl rfl rfl rfl rfl (by simp)
  · rename_i index comment rest hheld hwaiting
    have hrest : LinkInv { db with waiting := rest } :=
      h.others rfl rfl rfl rfl rfl rfl fun _ _ _ hh => hh
    have hc := hclock index comment rest hheld hwaiting
    exact hrest.completeBundle index comment ⟨hc.next, hc.start⟩
  · exact h

/-- A chain that may be used again can be gone on with. -/
theorem open_of_keyPairOf {store : Store lib} {toReuse : BundleInfo} {keyPair : KeyPair lib}
    (h : keyPairOf store toReuse = some keyPair) (hhash : toReuse.hash.length = 32)
    (hpos : 0 < toReuse.timestamp) (hstart : toReuse.chainStart ≤ toReuse.timestamp) :
    store.Open keyPair toReuse := by
  unfold keyPairOf at h
  by_cases hzero : toReuse.medallion = 0
  · rw [if_pos hzero] at h
    exact absurd h (by simp)
  · rw [if_neg hzero, Option.bind_eq_some_iff] at h
    obtain ⟨publicKey, hverify, hpull⟩ := h
    have hfound := List.find?_some hpull
    refine ⟨?_, hhash, hpos, hstart⟩
    rw [hverify, of_decide_eq_true hfound]

/-- **A medallion is obtained**: with the end of a chain that the store holds, or with none. -/
theorem LinkInv.acquire (h : LinkInv db) (hnone : db.medallion = none) (chain : Option Chain)
    (created : KeyPair lib) : LinkInv (db.acquire chain created) := by
  obtain ⟨hlink, hwrites, hstored, hsound⟩ := h.idle hnone
  unfold Database.acquire
  split
  · rename_i identity comment hacquiring
    split
    · rename_i toReuse hreuse
      obtain ⟨chain, -, hget⟩ := Option.bind_eq_some_iff.mp hreuse
      obtain ⟨hchain, hhash, hpos, hstart⟩ := hsound chain toReuse hget
      split
      · rename_i keyPair hpair
        refine ⟨fun _ _ _ hheld => absurd hheld (by simp [bound]),
          fun hm => absurd hm (by simp [bound]), ?_⟩
        intro medallion hm
        obtain rfl : toReuse.medallion = medallion := Option.some.inj hm
        refine ⟨keyPair, rfl, some toReuse, some toReuse, ?_, ?_, ?_, ?_⟩
        · show Follows keyPair (some toReuse) db.stored (some toReuse)
          rw [hstored]
          exact .nil _
        · show Follows keyPair (some toReuse) (db.writes.map Write.bundle) (some toReuse)
          rw [hwrites]
          exact .nil _
        · intro link hl
          obtain rfl : toReuse = link := Option.some.inj hl
          exact ⟨rfl, by rw [hchain]; exact hget⟩
        · intro old hold
          obtain rfl : toReuse = old := Option.some.inj hold
          exact open_of_keyPairOf hpair hhash hpos hstart
      · exact h.others rfl rfl rfl rfl rfl rfl (by simp)
    · refine ⟨?_, fun _ => ⟨hlink, hwrites, hstored, hsound⟩, fun medallion hm =>
        absurd (hnone.symm.trans hm) (by simp)⟩
      intro identity' comment' keyPair hheld
      refine ⟨hnone, ?_⟩
      simp only [Option.some.injEq, Obtaining.saving.injEq] at hheld
      rw [hheld.2.2]
  · exact h

theorem LinkInv.save (h : LinkInv db) (medallion : U64) : LinkInv (db.save medallion) := by
  unfold Database.save
  split
  · rename_i identity comment keyPair hheld
    obtain ⟨hnone, hkey⟩ := h.saving identity comment keyPair hheld
    obtain ⟨hlink, hwrites, hstored, hsound⟩ := h.idle hnone
    refine ⟨fun _ _ _ hheld => absurd hheld (by simp [bound]),
      fun hm => absurd hm (by simp [bound]), ?_⟩
    intro medallion' hm
    refine ⟨keyPair, hkey, none, none, ?_, ?_, ?_, fun old hold => absurd hold (by simp)⟩
    · show Follows keyPair none db.stored none
      rw [hstored]
      exact .nil _
    · show Follows keyPair none (db.writes.map Write.bundle) db.lastLink
      rw [hwrites, hlink]
      exact .nil _
    · intro link hl
      exact absurd (hlink.symm.trans hl) (by simp)
  · exact h

/-- **The store gets to a bundle**: it fits what the store holds, and is taken. -/
theorem LinkInv.settle (h : LinkInv db) {outcome : Outcome} (hlands : outcome ≠ .fails) :
    LinkInv (db.settle outcome) := by
  unfold Database.settle
  split
  · exact h
  · rename_i write rest hwrites
    rw [if_neg hlands]
    show LinkInv (Database.received _ write outcome (db.store.addBundle write.bundle).2)
    have hnot : ∃ medallion, db.medallion = some medallion := by
      cases hm : db.medallion with
      | none =>
          rw [(h.idle hm).2.1] at hwrites
          exact absurd hwrites (by simp)
      | some medallion => exact ⟨medallion, rfl⟩
    obtain ⟨medallion, hmedallion⟩ := hnot
    obtain ⟨keyPair, hkey, start, last, hstored, hfollows, hlink, hopen⟩ :=
      h.linked medallion hmedallion
    rw [hwrites, List.map_cons] at hfollows
    cases hfollows with
    | cons hfits hrest =>
        obtain ⟨link, hl, hchain⟩ := hrest.chain _ rfl
        have hlast : db.store.chainInfos.get? write.bundle.info.chain = last := by
          rw [← hchain]
          exact (hlink link hl).2
        obtain ⟨hadded, hget, hopen'⟩ := Store.addBundle_of_fits hfits hlast hopen
        rw [hadded]
        refine ⟨h.saving, fun hnone => absurd (hnone.symm.trans hmedallion) (by simp), ?_⟩
        intro medallion' hm
        obtain rfl : medallion = medallion' := Option.some.inj (hmedallion.symm.trans hm)
        refine ⟨keyPair, hkey, start, some write.bundle.info, hstored.concat hfits, hrest, ?_, ?_⟩
        · intro link' hl'
          obtain rfl : link = link' := Option.some.inj (hl.symm.trans hl')
          refine ⟨(hlink link hl).1, ?_⟩
          rw [hchain]
          exact hget
        · intro old hold
          obtain rfl : write.bundle.info = old := Option.some.inj hold
          exact hopen'

/-- **One step**. -/
theorem LinkInv.step (h : LinkInv db) (event : Event lib) (hl : db.Lands event) :
    LinkInv (db.step event) := by
  have hsame : ∀ (identity comment : String) (keyPair : KeyPair lib),
      db.holder = some (.saving identity comment keyPair) →
        db.holder = some (.saving identity comment keyPair) := fun _ _ _ hh => hh
  cases event with
  | startBundle identity comment =>
      show LinkInv (db.startBundle identity comment)
      unfold Database.startBundle
      split <;> exact h.others rfl rfl rfl rfl rfl rfl hsame
  | granted osIdentity now => exact h.grant osIdentity hl
  | acquired chain created => exact h.acquire hl chain created
  | saved medallion => exact h.save medallion
  | obtainFails => exact h.others rfl rfl rfl rfl rfl rfl (by simp [Database.step])
  | addChange index change =>
      show LinkInv (db.addChange index change)
      unfold Database.addChange
      split
      · exact h
      · split
        · exact h
        · exact h.others rfl rfl rfl rfl rfl rfl hsame
  | commit index comment =>
      show LinkInv (db.commit index comment)
      unfold Database.commit
      split
      · exact h
      · split
        · exact h
        · exact h.others rfl rfl rfl rfl rfl rfl hsame
  | settled outcome => exact h.settle hl
  | resumed k =>
      show LinkInv (db.resume k)
      unfold Database.resume
      split
      · exact h
      · split <;> exact h.others rfl rfl rfl rfl rfl rfl hsame
  | tick now => exact h.others rfl rfl rfl rfl rfl rfl hsame

/-! ## §5. Runs. -/

/-- What a settled database promises: the last link is the end of the chain in the store, the
stored bundles are linked up to it, and a bundle that is sealed next is added. -/
structure LinkRight (db : Database lib) : Prop where
  /-- before the first bundle of a new chain -/
  unlinked : db.lastLink = none → db.stored = []
  last : ∀ link, db.lastLink = some link →
    db.medallion = some link.medallion ∧ db.store.chainInfos.get? link.chain = some link
  linked : ∀ keyPair, db.keyPair = some keyPair → db.medallion ≠ none →
    ∃ start, Follows keyPair start db.stored db.lastLink
  next : ∀ index comment now, index < db.bundlers.length → db.medallion ≠ none →
    db.ClockFits now → ∃ write, (db.completeBundle index comment now).writes = [write] ∧
      (db.store.addBundle write.bundle).2 = .ok true

theorem LinkInv.linkRight (h : LinkInv db) (hsettled : db.writes = []) : LinkRight db := by
  cases hm : db.medallion with
  | none =>
      obtain ⟨hlink, -, hstored, -⟩ := h.idle hm
      refine ⟨fun _ => hstored, fun link hl => absurd (hlink.symm.trans hl) (by simp),
        fun _ _ hne => absurd hm hne, fun _ _ _ _ hne => absurd hm hne⟩
  | some medallion =>
      obtain ⟨keyPair, hkey, start, last, hstored, hfollows, hlink, hopen⟩ := h.linked medallion hm
      rw [hsettled] at hfollows
      -- nothing is on its way: the end the store has is the last link
      obtain rfl : last = db.lastLink := by
        cases hfollows with
        | nil => rfl
      refine ⟨?_, ?_, ?_, ?_⟩
      · intro hnone
        rw [hnone] at hstored
        exact hstored.eq_nil.2
      · intro link hl
        obtain ⟨hmed, hget⟩ := hlink link hl
        exact ⟨by rw [hm, hmed], by rw [hget, hl]⟩
      · intro keyPair' hkey' _
        obtain rfl : keyPair = keyPair' := Option.some.inj (hkey.symm.trans hkey')
        exact ⟨start, hstored⟩
      · intro index comment now hindex _ hclock
        obtain ⟨bundler, hbundler⟩ : ∃ bundler, db.bundlers[index]? = some bundler :=
          ⟨_, List.getElem?_eq_getElem hindex⟩
        have hfits := @bundleBuilder_fits lib db bundler comment medallion keyPair now
          (fun link hl => (hlink link hl).1) hclock
        refine ⟨Write.mk index (decomposition lib (db.bundleBuilder bundler comment medallion
          (generateTimestamp db.lastTime now) keyPair) keyPair.secretKey), ?_, ?_⟩
        · unfold Database.completeBundle
          simp only [hbundler, hm, hkey, hsettled, List.nil_append]
        · refine (Store.addBundle_of_fits hfits ?_ hopen).1
          cases hl : db.lastLink with
          | none =>
              rw [bundleBuilder_chain_none hl]
              exact (hclock.start hl).2.2 medallion hm
          | some link =>
              rw [(hfits.next link hl).1, ← hl]
              exact (hlink link hl).2

/-- **The last link** is the end of the chain in the store, and the next bundle is added, once
all commits of a run have settled in which no write failed. -/
theorem lastLink_settled {store : Store lib} (hsound : store.Sound) (identity : Option String)
    (lastTime : U64) (events : List (Event lib))
    (h : Machine.AllSteps step Lands (opened store identity lastTime) events)
    (hsettled : (Machine.run step (opened store identity lastTime) events).writes = []) :
    LinkRight (Machine.run step (opened store identity lastTime) events) :=
  (Machine.run_invariant (fun db event (hi : LinkInv db) hl => hi.step event hl) events _
    (LinkInv.opened hsound identity lastTime) h).linkRight hsettled

end Database

/-! ## §6. Two runs. -/

namespace Database

/-- Two bundlers are committed, and the store gets to both bundles, the second of which ends
as `outcome` says. -/
def twoCommits (outcome : Outcome) : List (Event Sodium.unsigned) :=
  [.startBundle none "", .granted "me" 0, .acquired none .unsigned, .saved 7,
    .startBundle none "", .commit 0 "", .commit 1 "", .granted "me" 1000, .granted "me" 2000,
    .settled .completes, .settled outcome]

theorem lastLink_settled_twoCommits :
    LinkRight (Machine.run step onEmpty (twoCommits .completes)) := by
  refine @lastLink_settled _ {} ?_ none 0 _ ?_ rfl
  · intro chain info hget
    exact absurd hget (by simp)
  · refine ⟨trivial, ?_, rfl, trivial, trivial, trivial, trivial, ?_, ?_, by simp [Lands],
      by simp [Lands], trivial⟩
    · intro index comment rest _ hwaiting
      exact absurd (List.cons.inj hwaiting).1 (by simp)
    · intro index comment rest _ _
      refine ⟨fun link hl => absurd hl.symm (Option.some_ne_none link), ?_⟩
      refine fun _ => ⟨by decide, by decide, ?_⟩
      intro medallion _
      exact Table.get?_empty _
    · intro index comment rest _ _
      refine ⟨?_, fun hnone => absurd hnone (Option.some_ne_none _)⟩
      intro link hl
      obtain rfl := Option.some.inj hl
      decide

/-- **Poisoned**: the write of the second bundle fails.  The link stays on a bundle that the
store does not hold, and the next one is refused. -/
theorem lastLink_poisoned :
    ¬ LinkRight (Machine.run step onEmpty (twoCommits .fails)) := by
  intro h
  obtain ⟨-, hget⟩ := h.last _ rfl
  have hstored := congrArg (Option.map BundleInfo.timestamp) hget
  exact absurd hstored (by decide)

end Database

end Js

end Gink
