/-
  Gink.Js.Addresses — the addresses that bundlers hand out, and the chain they go to.

  A `startBundle` that has to wait for the lock does not look again whether the database has a
  medallion by the time it goes on: it obtains another one, and bundlers made before keep the
  one they were made with.  A bundler takes changes until its commit has gone on, which is
  after its bundle was sealed, and its addresses move when a second commit resolves.

  Main results:
    * `addresses_real` — where none of this happens, every address of a commit that resolved
      is that of the stored change, and all bundles are of one chain and one key.
    * `addresses_crossed` — two calls that both find no medallion.
-/
import Gink.Js.Database

namespace Gink

namespace Js

namespace Store

/-- A bundle that is newer than its chain is not taken for one the store has. -/
theorem addBundle_ne_false {lib : Sodium} {store : Store lib} {bundle : BundleView}
    (h : ∀ old, store.chainInfos.get? bundle.info.chain = some old →
      old.timestamp < bundle.info.timestamp) : (store.addBundle bundle).2 ≠ .ok false := by
  have hcheck : checkChain (store.chainInfos.get? bundle.info.chain) bundle ≠ .ok false := by
    unfold checkChain
    split
    · split_ifs <;> simp
    · rename_i old hold
      rw [if_neg (not_le.mpr (h old hold))]
      split_ifs <;> simp
  unfold addBundle
  split
  · simp
  · contradiction
  · split
    · simp
    · split_ifs <;> simp

end Store

namespace Database

variable {lib : Sodium} {db : Database lib}

/-! ## §1. What is promised. -/

/-- All bundles the database stores belong to one chain and are signed with one key. -/
def OneChain (db : Database lib) : Prop :=
  ∀ first ∈ db.stored, ∃ keyPair : KeyPair lib, ∀ bundle ∈ db.stored,
    bundle.info.chain = first.info.chain ∧
      bundle.bytes = lib.signBundle bundle.builder keyPair.secretKey

/-- For every commit that resolved there is a stored bundle, and each address that its bundler
returned is the time, the medallion and the offset of the change there. -/
def AddressesReal (db : Database lib) : Prop :=
  ∀ answer ∈ db.resolved, ∃ bundle ∈ db.stored, answer.2 = some bundle.info ∧
    ∀ index offset change, (index, offset, change) ∈ db.addressed → index = answer.1 →
      ∃ bundler, db.bundlers[index]? = some bundler ∧
        bundler.muid offset = ⟨some bundle.info.timestamp, bundle.info.medallion, offset⟩ ∧
        0 < offset ∧ bundle.builder.changes[offset - 1]? = some change

/-! ## §2. When it is kept. -/

/-- A bundle of the bundler is in the store's hands, or was taken and its commit has not gone
on yet. -/
def HandedIn (db : Database lib) (index : Nat) : Prop :=
  (∃ write ∈ db.writes, write.bundler = index) ∨
    ∃ answer ∈ db.answers, answer.bundler = index ∧ answer.result ≠ none

/-- The steps after which no address is lost: a call that waited for the lock finds no
medallion; no change is added to a bundle that was handed in; the store does not hold the
chain up to that time already; and no second commit of a bundler resolves. -/
def Orderly (db : Database lib) : Event lib → Prop
  | .acquired _ _ => db.medallion = none
  | .addChange index _ => ∀ bundler, db.bundlers[index]? = some bundler →
      bundler.bundleInfo = none → ¬ db.HandedIn index
  | .settled _ => ∀ write ∈ db.writes.head?, ∀ old,
      db.store.chainInfos.get? write.bundle.info.chain = some old →
        old.timestamp < write.bundle.info.timestamp
  | .resumed k => ∀ answer bundler, db.answers[k]? = some answer → answer.result ≠ none →
      db.bundlers[answer.bundler]? = some bundler → bundler.bundleInfo = none
  | _ => True

/-! ## §3. The invariant. -/

/-- The bundle is of the chain and signed with the key that the database goes on with. -/
def Own (db : Database lib) (bundle : BundleView) : Prop :=
  (∃ link, db.lastLink = some link ∧ bundle.info.chain = link.chain) ∧
    ∃ keyPair, db.keyPair = some keyPair ∧
      bundle.bytes = lib.signBundle bundle.builder keyPair.secretKey

/-- A bundler and a stored bundle that holds its changes. -/
def Kept (db : Database lib) (index : Nat) (bundler : BoundBundler) (bundle : BundleView) : Prop :=
  db.bundlers[index]? = some bundler ∧ bundle ∈ db.stored ∧
    bundle.builder.changes = bundler.changes

structure Inv (db : Database lib) : Prop where
  unstarted : db.medallion = none → db.bundlers = [] ∧ db.writes = [] ∧ db.stored = []
  saving : ∀ identity comment keyPair, db.holder = some (.saving identity comment keyPair) →
    db.medallion = none
  medallions : ∀ bundler ∈ db.bundlers, db.medallion = some bundler.medallion
  link : ∀ link, db.lastLink = some link → db.medallion = some link.medallion
  written : ∀ write ∈ db.writes, db.Own write.bundle
  stored : ∀ bundle ∈ db.stored, db.Own bundle
  writes : ∀ write ∈ db.writes, ∃ bundler, db.bundlers[write.bundler]? = some bundler ∧
    write.bundle.builder.changes = bundler.changes
  answers : ∀ answer ∈ db.answers, ∀ result, answer.result = some result →
    ∃ bundler bundle, db.Kept answer.bundler bundler bundle ∧ result = some bundle.info
  resolved : ∀ answer ∈ db.resolved, ∃ bundler bundle, db.Kept answer.1 bundler bundle ∧
    answer.2 = some bundle.info ∧ bundler.bundleInfo = answer.2
  addressed : ∀ entry ∈ db.addressed, ∃ bundler, db.bundlers[entry.1]? = some bundler ∧
    0 < entry.2.1 ∧ bundler.changes[entry.2.1 - 1]? = some entry.2.2

/-- Nothing has come of the database yet: there is no bundler. -/
structure Unused (db : Database lib) : Prop where
  bundlers : db.bundlers = []
  writes : db.writes = []
  stored : db.stored = []
  answers : ∀ answer ∈ db.answers, answer.result = none
  resolved : db.resolved = []
  addressed : db.addressed = []

theorem Inv.unused (h : Inv db) (hnone : db.medallion = none) : db.Unused where
  bundlers := (h.unstarted hnone).1
  writes := (h.unstarted hnone).2.1
  stored := (h.unstarted hnone).2.2
  answers answer ha := by
    cases hr : answer.result with
    | none => rfl
    | some result =>
        obtain ⟨_, bundle, hkept, -⟩ := h.answers answer ha result hr
        have hmem := hkept.2.1
        rw [(h.unstarted hnone).2.2] at hmem
        exact absurd hmem (by simp)
  resolved := by
    refine List.eq_nil_iff_forall_not_mem.mpr ?_
    intro answer ha
    obtain ⟨_, bundle, hkept, -⟩ := h.resolved answer ha
    have hmem := hkept.2.1
    rw [(h.unstarted hnone).2.2] at hmem
    exact absurd hmem (by simp)
  addressed := by
    refine List.eq_nil_iff_forall_not_mem.mpr ?_
    intro entry he
    obtain ⟨bundler, hbundler, -⟩ := h.addressed entry he
    rw [(h.unstarted hnone).1] at hbundler
    exact absurd hbundler (by simp)

theorem Unused.inv (h : db.Unused)
    (hsaving : ∀ identity comment keyPair,
      db.holder = some (.saving identity comment keyPair) → db.medallion = none)
    (hlink : ∀ link, db.lastLink = some link → db.medallion = some link.medallion) : Inv db where
  unstarted _ := ⟨h.bundlers, h.writes, h.stored⟩
  saving := hsaving
  medallions bundler hb := by rw [h.bundlers] at hb; exact absurd hb (by simp)
  link := hlink
  written write hw := by rw [h.writes] at hw; exact absurd hw (by simp)
  stored bundle hb := by rw [h.stored] at hb; exact absurd hb (by simp)
  writes write hw := by rw [h.writes] at hw; exact absurd hw (by simp)
  answers answer ha result hr := by rw [h.answers answer ha] at hr; exact absurd hr (by simp)
  resolved answer ha := by rw [h.resolved] at ha; exact absurd ha (by simp)
  addressed entry he := by rw [h.addressed] at he; exact absurd he (by simp)

theorem Inv.opened (store : Store lib) (identity : Option String) (lastTime : U64) :
    Inv (opened store identity lastTime) :=
  Unused.inv ⟨rfl, rfl, rfl, by simp [Database.opened], rfl, rfl⟩
    (by simp [Database.opened]) (by simp [Database.opened])

/-! ## §4. The steps. -/

/-- A bundler more: those there are keep their places. -/
theorem getElem?_append_of_some {l : List BoundBundler} {i : Nat} {b c : BoundBundler}
    (h : l[i]? = some b) : (l ++ [c])[i]? = some b := by
  obtain ⟨hi, -⟩ := List.getElem?_eq_some_iff.mp h
  rw [List.getElem?_append_left hi, h]

theorem Kept.more {index : Nat} {bundler : BoundBundler} {bundle : BundleView}
    (h : db.Kept index bundler bundle) {db' : Database lib} {made : BoundBundler}
    (hbundlers : db'.bundlers = db.bundlers ++ [made]) (hstored : db'.stored = db.stored) :
    db'.Kept index bundler bundle := by
  refine ⟨?_, ?_, h.2.2⟩
  · rw [hbundlers]
    exact getElem?_append_of_some h.1
  · rw [hstored]
    exact h.2.1

/-- `new BoundBundler(this.medallion, …)`. -/
theorem Inv.bundler (h : Inv db) {made : BoundBundler}
    (hmedallion : db.medallion = some made.medallion) :
    Inv { db with bundlers := db.bundlers ++ [made] } where
  unstarted hnone := absurd (hnone.symm.trans hmedallion) (by simp)
  saving := h.saving
  medallions bundler hmem := by
    rcases List.mem_append.mp hmem with hold | hnew
    · exact h.medallions bundler hold
    · obtain rfl := List.mem_singleton.mp hnew
      exact hmedallion
  link := h.link
  written := h.written
  stored := h.stored
  writes write hw := by
    obtain ⟨bundler, hbundler, hchanges⟩ := h.writes write hw
    exact ⟨bundler, getElem?_append_of_some hbundler, hchanges⟩
  answers answer ha result hresult := by
    obtain ⟨bundler, bundle, hkept, hinfo⟩ := h.answers answer ha result hresult
    exact ⟨bundler, bundle, hkept.more rfl rfl, hinfo⟩
  resolved answer ha := by
    obtain ⟨bundler, bundle, hkept, hinfo⟩ := h.resolved answer ha
    exact ⟨bundler, bundle, hkept.more rfl rfl, hinfo⟩
  addressed entry he := by
    obtain ⟨bundler, hbundler, hoffset⟩ := h.addressed entry he
    exact ⟨bundler, getElem?_append_of_some hbundler, hoffset⟩

/-- Who waits for the lock and who has it does not matter, as long as nobody saves keys. -/
theorem Inv.lock (h : Inv db) (waiting : List Waiter) {holder : Option (Obtaining lib)}
    (hholder : ∀ identity comment keyPair, holder = some (.saving identity comment keyPair) →
      db.medallion = none) (lastTime : U64) :
    Inv { db with waiting, holder, lastTime } :=
  ⟨h.unstarted, hholder, h.medallions, h.link, h.written, h.stored, h.writes, h.answers,
    h.resolved, h.addressed⟩

/-- A `startBundle` that had to wait returns. -/
theorem Inv.bound (h : Inv db) {medallion : U64} (hmedallion : db.medallion = some medallion)
    (comment : String) : Inv (db.bound medallion comment) :=
  (h.lock db.waiting (by simp : ∀ _ _ _, (none : Option (Obtaining lib)) = _ → _) db.lastTime).bundler hmedallion

theorem Inv.startBundle (h : Inv db) (identity : Option String) (comment : String) :
    Inv (db.startBundle identity comment) := by
  unfold Database.startBundle
  split
  · rename_i medallion hm
    exact h.bundler hm
  · exact h.lock _ h.saving _

/-- A commit that rejects before it hands a bundle in. -/
theorem Inv.reject (h : Inv db) (index : Nat) :
    Inv (db.answered index none) := by
  refine ⟨h.unstarted, h.saving, h.medallions, h.link, h.written, h.stored, h.writes, ?_,
    h.resolved, h.addressed⟩
  intro answer ha result hresult
  rcases List.mem_append.mp ha with hold | hnew
  · exact h.answers answer hold result hresult
  · obtain rfl := List.mem_singleton.mp hnew
    exact absurd hresult (by simp)

/-- **A bundle is sealed**: it goes to the chain of the last link, or starts the chain that
the last link is of from now on. -/
theorem Inv.completeBundle (h : Inv db) (index : Nat) (comment : String) (now : U64) :
    Inv (db.completeBundle index comment now) := by
  unfold Database.completeBundle
  split
  · rename_i bundler medallion keyPair hbundler hmedallion hkey
    set builder := db.bundleBuilder bundler comment medallion
      (generateTimestamp db.lastTime now) keyPair with hbuilder
    set bundle := decomposition lib builder keyPair.secretKey with hbundle
    have hnot : db.medallion ≠ none := by rw [hmedallion]; simp
    have hmed : bundle.info.medallion = medallion := by
      rw [hbundle, hbuilder]
      unfold bundleBuilder
      cases db.lastLink <;> rfl
    have hchanges : bundle.builder.changes = bundler.changes := by
      rw [hbundle, hbuilder]
      unfold bundleBuilder
      cases db.lastLink <;> rfl
    -- a bundle of the chain so far is one of the chain that goes on
    have hown : ∀ other, db.Own other → other.info.chain = bundle.info.chain := by
      intro other hother
      obtain ⟨link, hlink, hchain⟩ := hother.1
      have hlinkmed : medallion = link.medallion := by
        have := h.link link hlink
        rw [hmedallion] at this
        exact Option.some.inj this
      rw [hchain, hbundle, hbuilder]
      unfold bundleBuilder
      rw [hlink]
      show (⟨link.medallion, link.chainStart⟩ : Chain) = ⟨medallion, link.chainStart⟩
      rw [hlinkmed]
    refine ⟨fun hnone => absurd hnone hnot, h.saving, h.medallions, ?_, ?_, ?_, ?_, h.answers,
      h.resolved, h.addressed⟩
    · intro link hlink
      obtain rfl : bundle.info = link := Option.some.inj hlink
      rw [hmed]
      exact hmedallion
    · intro write hw
      rcases List.mem_append.mp hw with hold | hnew
      · have hw := h.written write hold
        exact ⟨⟨bundle.info, rfl, hown _ hw⟩, hw.2⟩
      · obtain rfl := List.mem_singleton.mp hnew
        exact ⟨⟨bundle.info, rfl, rfl⟩, keyPair, hkey, rfl⟩
    · intro other hother
      have ho := h.stored other hother
      exact ⟨⟨bundle.info, rfl, hown _ ho⟩, ho.2⟩
    · intro write hw
      rcases List.mem_append.mp hw with hold | hnew
      · exact h.writes write hold
      · obtain rfl := List.mem_singleton.mp hnew
        exact ⟨bundler, hbundler, hchanges⟩
  · exact h.reject index

theorem Inv.grant (h : Inv db) (osIdentity : String) (now : U64) :
    Inv (db.grant osIdentity now) := by
  unfold Database.grant
  split
  · exact h.lock _ (by simp) _
  · rename_i index comment rest hheld hwaiting
    exact (h.lock rest h.saving db.lastTime).completeBundle index comment now
  · exact h

/-- **A medallion is obtained**, where the database had none: every bundler is made after. -/
theorem Inv.acquire (h : Inv db) (hnone : db.medallion = none) (chain : Option Chain)
    (created : KeyPair lib) : Inv (db.acquire chain created) := by
  have hunused := h.unused hnone
  have hlink : ∀ link, db.lastLink = some link → db.medallion = some link.medallion := h.link
  unfold Database.acquire
  split
  · rename_i identity comment hacquiring
    split
    · rename_i toReuse hreuse
      split
      · rename_i keyPair hpair
        refine Inv.bound ?_ rfl _
        refine Unused.inv ⟨hunused.bundlers, hunused.writes, hunused.stored, hunused.answers,
          hunused.resolved, hunused.addressed⟩ ?_ ?_
        · intro _ _ _ hheld
          exact absurd (hacquiring.symm.trans hheld) (by simp)
        · intro link hlink
          obtain rfl : toReuse = link := Option.some.inj hlink
          rfl
      · exact h.lock db.waiting (by simp) db.lastTime
    · exact Unused.inv ⟨hunused.bundlers, hunused.writes, hunused.stored, hunused.answers,
        hunused.resolved, hunused.addressed⟩ (fun _ _ _ _ => hnone) hlink
  · exact h

theorem Inv.save (h : Inv db) (medallion : U64) : Inv (db.save medallion) := by
  unfold Database.save
  split
  · rename_i identity comment keyPair hheld
    have hnone := h.saving identity comment keyPair hheld
    have hunused := h.unused hnone
    have hlink : db.lastLink = none := by
      cases hl : db.lastLink with
      | none => rfl
      | some link =>
          have := h.link link hl
          rw [hnone] at this
          exact absurd this (by simp)
    unfold Database.bound
    have hinv : Inv { db with
        store := db.store.saveKeyPair keyPair
        medallion := some medallion
        identity := some identity
        holder := none } :=
      Unused.inv ⟨hunused.bundlers, hunused.writes, hunused.stored, hunused.answers,
        hunused.resolved, hunused.addressed⟩ (by simp)
        (fun link hl => absurd (hlink.symm.trans hl) (by simp))
    exact @Inv.bundler _ _ hinv { medallion, comment } rfl
  · exact h

/-- A bundler that was written to: the others are the ones they were. -/
theorem getElem?_set_of_some {l : List BoundBundler} {i j : Nat} {b b' c : BoundBundler}
    (hi : l[i]? = some b) (hj : l[j]? = some c) :
    (l.set i b')[j]? = some (if i = j then b' else c) := by
  obtain ⟨hlt, -⟩ := List.getElem?_eq_some_iff.mp hi
  rw [List.getElem?_set]
  by_cases hij : i = j
  · rw [if_pos hij, if_pos hlt, if_pos hij]
  · rw [if_neg hij, if_neg hij, hj]

/-- **A change more**: no bundle holds the changes of this bundler yet. -/
theorem Inv.addChange (h : Inv db) (index : Nat) (change : ChangeBuilder)
    (hopen : ∀ bundler, db.bundlers[index]? = some bundler → bundler.bundleInfo = none →
      ¬ db.HandedIn index) : Inv (db.addChange index change) := by
  unfold Database.addChange
  split
  · exact h
  · rename_i bundler hbundler
    cases hsealed : bundler.bundleInfo with
    | some info =>
        have hthrows : bundler.addChange change = .error ⟨"This Bundler has already been sealed."⟩ := by
          simp [BoundBundler.addChange, BoundBundler.requireNotSealed, hsealed, bind, Except.bind]
        rw [hthrows]
        exact h
    | none =>
        have hadds : bundler.addChange change = .ok
            ({ bundler with changes := bundler.changes ++ [change] },
              (bundler.changes ++ [change]).length) := by
          simp [BoundBundler.addChange, BoundBundler.requireNotSealed, hsealed, bind, Except.bind,
            pure, Except.pure]
        rw [hadds]
        set made : BoundBundler := { bundler with changes := bundler.changes ++ [change] }
          with hmade
        have hfree := hopen bundler hbundler hsealed
        have hset : ∀ {j c}, db.bundlers[j]? = some c →
            (db.bundlers.set index made)[j]? = some (if index = j then made else c) :=
          fun hj => getElem?_set_of_some hbundler hj
        refine ⟨?_, h.saving, ?_, h.link, h.written, h.stored, ?_, ?_, ?_, ?_⟩
        · intro hnone
          obtain ⟨hb, hw, hs⟩ := h.unstarted hnone
          rw [hb] at hbundler
          exact absurd hbundler (by simp)
        · intro other hother
          rcases List.mem_or_eq_of_mem_set hother with hold | hnew
          · exact h.medallions other hold
          · rw [hnew]
            exact h.medallions bundler (List.mem_of_getElem? hbundler)
        · intro write hw
          obtain ⟨other, hother, hchanges⟩ := h.writes write hw
          have hne : index ≠ write.bundler := fun he => hfree (Or.inl ⟨write, hw, he.symm⟩)
          refine ⟨other, ?_, hchanges⟩
          rw [hset hother, if_neg hne]
        · intro answer ha result hresult
          obtain ⟨other, bundle, hkept, hinfo⟩ := h.answers answer ha result hresult
          have hne : index ≠ answer.bundler := fun he =>
            hfree (Or.inr ⟨answer, ha, he.symm, by rw [hresult]; simp⟩)
          refine ⟨other, bundle, ⟨?_, hkept.2⟩, hinfo⟩
          rw [hset hkept.1, if_neg hne]
        · intro answer ha
          obtain ⟨other, bundle, hkept, hinfo, hother⟩ := h.resolved answer ha
          have hne : index ≠ answer.1 := by
            rintro rfl
            obtain rfl : bundler = other := Option.some.inj (hbundler.symm.trans hkept.1)
            rw [hsealed, hinfo] at hother
            exact absurd hother (by simp)
          refine ⟨other, bundle, ⟨?_, hkept.2⟩, hinfo, hother⟩
          rw [hset hkept.1, if_neg hne]
        · intro entry he
          rcases List.mem_append.mp he with hold | hnew
          · obtain ⟨other, hother, hpos, hchange⟩ := h.addressed entry hold
            refine ⟨_, hset hother, hpos, ?_⟩
            by_cases hi : index = entry.1
            · rw [if_pos hi, hmade]
              rw [← hi, hbundler] at hother
              obtain rfl : bundler = other := Option.some.inj hother
              exact List.getElem?_append_left (List.getElem?_eq_some_iff.mp hchange).1 ▸ hchange
            · rw [if_neg hi]
              exact hchange
          · obtain rfl := List.mem_singleton.mp hnew
            refine ⟨made, ?_, by simp, ?_⟩
            · show (db.bundlers.set index made)[index]? = some made
              rw [hset hbundler, if_pos rfl]
            · rw [hmade]
              simp

theorem Inv.commit (h : Inv db) (index : Nat) (comment : String) :
    Inv (db.commit index comment) := by
  unfold Database.commit
  split
  · exact h
  · split
    · exact h
    · exact h.lock _ h.saving _

/-- The store has taken a bundle of the database's own. -/
theorem Inv.take (h : Inv db) {write : Write} (hown : db.Own write.bundle)
    (hbundler : ∃ bundler, db.bundlers[write.bundler]? = some bundler ∧
      write.bundle.builder.changes = bundler.changes)
    (hmedallion : db.medallion ≠ none) (outcome : Outcome) :
    Inv (db.received write outcome (.ok true)) := by
  obtain ⟨bundler, hbundler, hchanges⟩ := hbundler
  refine ⟨fun hnone => absurd hnone hmedallion, h.saving, h.medallions, h.link, h.written, ?_,
    h.writes, ?_, ?_, h.addressed⟩
  · intro bundle hb
    rcases List.mem_append.mp hb with hold | hadded
    · exact h.stored bundle hold
    · obtain rfl := List.mem_singleton.mp hadded
      exact hown
  · intro answer ha result hresult
    rcases List.mem_append.mp ha with hold | hadded
    · obtain ⟨other, bundle, hkept, hinfo⟩ := h.answers answer hold result hresult
      exact ⟨other, bundle, ⟨hkept.1, List.mem_append_left _ hkept.2.1, hkept.2.2⟩, hinfo⟩
    · obtain rfl := List.mem_singleton.mp hadded
      refine ⟨bundler, write.bundle, ⟨hbundler, by simp [received, answered], hchanges⟩, ?_⟩
      by_cases hc : outcome = .completes
      · simpa [hc] using hresult.symm
      · simp [hc] at hresult
  · intro answer ha
    obtain ⟨other, bundle, hkept, hinfo⟩ := h.resolved answer ha
    exact ⟨other, bundle, ⟨hkept.1, List.mem_append_left _ hkept.2.1, hkept.2.2⟩, hinfo⟩

/-- **The store gets to a bundle**, newer than the chain there. -/
theorem Inv.settle (h : Inv db) (outcome : Outcome)
    (hnew : ∀ write ∈ db.writes.head?, ∀ old,
      db.store.chainInfos.get? write.bundle.info.chain = some old →
        old.timestamp < write.bundle.info.timestamp) : Inv (db.settle outcome) := by
  unfold Database.settle
  split
  · exact h
  · rename_i write rest hwrites
    have hmem : write ∈ db.writes := by rw [hwrites]; exact List.mem_cons_self
    have hsub : ∀ w ∈ rest, w ∈ db.writes := fun w hw => by
      rw [hwrites]
      exact List.mem_cons_of_mem _ hw
    have hnot : db.medallion ≠ none := by
      intro hnone
      rw [(h.unstarted hnone).2.1] at hwrites
      exact absurd hwrites (by simp)
    -- what the store holds does not matter to the database
    have hrest : ∀ store, Inv { db with writes := rest, store := store } := fun store =>
      ⟨fun hnone => absurd hnone hnot, h.saving, h.medallions, h.link,
        fun w hw => h.written w (hsub w hw), h.stored, fun w hw => h.writes w (hsub w hw),
        h.answers, h.resolved, h.addressed⟩
    by_cases hfails : outcome = .fails
    · rw [if_pos hfails]
      exact (hrest db.store).reject write.bundler
    · rw [if_neg hfails]
      show Inv (Database.received _ write outcome (db.store.addBundle write.bundle).2)
      have hadd := Store.addBundle_ne_false (hnew write (by rw [hwrites]; rfl))
      have hs := hrest (db.store.addBundle write.bundle).1
      cases hr : (db.store.addBundle write.bundle).2 with
      | error e => exact hs.reject write.bundler
      | ok added =>
          cases added with
          | false => exact absurd hr hadd
          | true => exact hs.take (h.written write hmem) (h.writes write hmem) hnot outcome

/-- A bundler that was sealed: the others are the ones they were. -/
theorem getElem?_modify_of_some {l : List BoundBundler} {i j : Nat} {c : BoundBundler}
    {f : BoundBundler → BoundBundler} (hj : l[j]? = some c) :
    (l.modify i f)[j]? = some (if i = j then f c else c) := by
  rw [List.getElem?_modify, hj]
  by_cases hij : i = j
  · simp [hij]
  · simp [hij]

theorem mem_modify {l : List BoundBundler} {i : Nat} {c : BoundBundler}
    {f : BoundBundler → BoundBundler} (h : c ∈ l.modify i f) : ∃ b ∈ l, c = b ∨ c = f b := by
  obtain ⟨j, hj⟩ := List.mem_iff_getElem?.mp h
  cases hb : l[j]? with
  | none =>
      rw [List.getElem?_modify, hb] at hj
      exact absurd hj (by simp)
  | some b =>
      rw [getElem?_modify_of_some hb, Option.some.injEq] at hj
      refine ⟨b, List.mem_of_getElem? hb, ?_⟩
      by_cases hij : i = j
      · exact Or.inr (by rw [← hj, if_pos hij])
      · exact Or.inl (by rw [← hj, if_neg hij])

/-- **A commit goes on**: the first of its bundler that resolves. -/
theorem Inv.resume (h : Inv db) (k : Nat)
    (hfirst : ∀ answer bundler, db.answers[k]? = some answer → answer.result ≠ none →
      db.bundlers[answer.bundler]? = some bundler → bundler.bundleInfo = none) :
    Inv (db.resume k) := by
  unfold Database.resume
  split
  · exact h
  · rename_i answer hanswer
    have hsub : ∀ a ∈ db.answers.eraseIdx k, a ∈ db.answers :=
      fun a ha => List.mem_of_mem_eraseIdx ha
    split
    · exact ⟨h.unstarted, h.saving, h.medallions, h.link, h.written, h.stored, h.writes,
        fun a ha => h.answers a (hsub a ha), h.resolved, h.addressed⟩
    · rename_i result hresult
      obtain ⟨bundler, bundle, hkept, hinfo⟩ :=
        h.answers answer (List.mem_of_getElem? hanswer) result hresult
      have hopen := hfirst answer bundler hanswer (by rw [hresult]; simp) hkept.1
      -- the changes of a bundler are the same before and after it is sealed
      have hchanged : ∀ (j : Nat) (c : BoundBundler),
          (if answer.bundler = j then c.sealWith result else c).changes = c.changes := by
        intro j c
        split_ifs <;> rfl
      refine ⟨?_, h.saving, ?_, h.link, h.written, h.stored, ?_, ?_, ?_, ?_⟩
      · intro hnone
        rw [Kept, (h.unstarted hnone).1] at hkept
        exact absurd hkept.1 (by simp)
      · intro other hother
        obtain ⟨b, hb, rfl | rfl⟩ := mem_modify hother
        · exact h.medallions _ hb
        · exact h.medallions b hb
      · intro write hw
        obtain ⟨other, hother, hchanges⟩ := h.writes write hw
        exact ⟨_, getElem?_modify_of_some hother, hchanges.trans (hchanged _ _).symm⟩
      · intro a ha r hr
        obtain ⟨other, v, hk, hv⟩ := h.answers a (hsub a ha) r hr
        exact ⟨_, v, ⟨getElem?_modify_of_some hk.1, hk.2.1, hk.2.2.trans (hchanged _ _).symm⟩, hv⟩
      · intro a ha
        rcases List.mem_append.mp ha with hold | hnew
        · obtain ⟨other, v, hk, hv, hother⟩ := h.resolved a hold
          have hne : answer.bundler ≠ a.1 := by
            intro he
            have hk' := hk.1
            rw [← he] at hk'
            obtain rfl : bundler = other := Option.some.inj (hkept.1.symm.trans hk')
            rw [hopen, hv] at hother
            exact absurd hother (by simp)
          refine ⟨_, v, ⟨getElem?_modify_of_some hk.1, hk.2.1, hk.2.2.trans (hchanged _ _).symm⟩,
            hv, ?_⟩
          rw [if_neg hne]
          exact hother
        · obtain rfl := List.mem_singleton.mp hnew
          refine ⟨_, bundle, ⟨getElem?_modify_of_some hkept.1, hkept.2.1,
            hkept.2.2.trans (hchanged _ _).symm⟩, hinfo, ?_⟩
          rw [if_pos rfl]
          rfl
      · intro entry he
        obtain ⟨other, hother, hpos, hchange⟩ := h.addressed entry he
        exact ⟨_, getElem?_modify_of_some hother, hpos, by rw [hchanged]; exact hchange⟩

/-! ## §5. Runs. -/

/-- **One step**. -/
theorem Inv.step (h : Inv db) (event : Event lib) (ho : db.Orderly event) :
    Inv (db.step event) := by
  cases event with
  | startBundle identity comment => exact h.startBundle identity comment
  | granted osIdentity now => exact h.grant osIdentity now
  | acquired chain created => exact h.acquire ho chain created
  | saved medallion => exact h.save medallion
  | obtainFails => exact h.lock db.waiting (by simp) db.lastTime
  | addChange index change => exact h.addChange index change ho
  | commit index comment => exact h.commit index comment
  | settled outcome => exact h.settle outcome ho
  | resumed k => exact h.resume k ho
  | tick now => exact h.lock db.waiting h.saving _

theorem Inv.oneChain (h : Inv db) : db.OneChain := by
  intro first hfirst
  obtain ⟨⟨link, hlink, hchain⟩, keyPair, hkey, -⟩ := h.stored first hfirst
  refine ⟨keyPair, ?_⟩
  intro bundle hbundle
  obtain ⟨⟨link', hlink', hchain'⟩, keyPair', hkey', hsigned⟩ := h.stored bundle hbundle
  rw [hlink, Option.some.injEq] at hlink'
  rw [hkey, Option.some.injEq] at hkey'
  exact ⟨by rw [hchain', hchain, hlink'], by rw [hsigned, hkey']⟩

theorem Inv.addressesReal (h : Inv db) : db.AddressesReal := by
  intro answer hanswer
  obtain ⟨bundler, bundle, hkept, hinfo, hsealed⟩ := h.resolved answer hanswer
  refine ⟨bundle, hkept.2.1, hinfo, ?_⟩
  intro index offset change hentry hindex
  subst hindex
  obtain ⟨other, hother, hpos, hchange⟩ := h.addressed _ hentry
  obtain rfl : bundler = other := Option.some.inj (hkept.1.symm.trans hother)
  refine ⟨bundler, hkept.1, ?_, hpos, ?_⟩
  · -- the bundle is of the last link's chain, and that has the medallion of every bundler
    obtain ⟨⟨link, hlink, hchain⟩, -⟩ := h.stored bundle hkept.2.1
    have hbundler := h.medallions bundler (List.mem_of_getElem? hkept.1)
    rw [h.link link hlink, Option.some.injEq] at hbundler
    have hmedallion : bundle.info.medallion = link.medallion := congrArg Chain.medallion hchain
    unfold BoundBundler.muid
    rw [hsealed, hinfo, hmedallion, hbundler]
    rfl
  · rw [hkept.2.2]
    exact hchange

/-- **Addresses are real** along every run in which a call that waited for the lock finds no
medallion, bundles that were handed in get no more changes, none is in the store before and no
bundler is committed twice. -/
theorem addresses_real (store : Store lib) (identity : Option String) (lastTime : U64)
    (events : List (Event lib))
    (h : Machine.AllSteps step Orderly (opened store identity lastTime) events) :
    OneChain (Machine.run step (opened store identity lastTime) events) ∧
      AddressesReal (Machine.run step (opened store identity lastTime) events) := by
  have hinv := Machine.run_invariant (fun db event (hi : Inv db) ho => hi.step event ho) events
    _ (Inv.opened store identity lastTime) h
  exact ⟨hinv.oneChain, hinv.addressesReal⟩

/-- One bundle from the start to its end. -/
def firstBundle : List (Event Sodium.unsigned) :=
  [.startBundle none "", .granted "me" 0, .acquired none .unsigned, .saved 7,
    .addChange 0 .unset, .commit 0 "", .granted "me" 1000, .settled .completes, .resumed 0]

theorem addresses_real_firstBundle :
    Machine.AllSteps step Orderly onEmpty firstBundle ∧
      AddressesReal (Machine.run step onEmpty firstBundle) := by
  have h : Machine.AllSteps step Orderly onEmpty firstBundle := by
    refine ⟨trivial, trivial, rfl, trivial, ?_, trivial, trivial, ?_, ?_, trivial⟩
    · intro bundler _ _ hhanded
      rcases hhanded with ⟨write, hw, -⟩ | ⟨answer, ha, -⟩
      · exact absurd hw (List.not_mem_nil)
      · exact absurd ha (List.not_mem_nil)
    · intro write _ old hold
      have hold : (∅ : Table Chain BundleInfo).get? write.bundle.info.chain = some old := hold
      exact absurd hold (by simp)
    · intro answer bundler ha _ hb
      obtain rfl := Option.some.inj ha
      obtain rfl := Option.some.inj hb
      rfl
  exact ⟨h, (addresses_real {} none 0 firstBundle h).2⟩

/-- Two calls of `startBundle` find no medallion, and both obtain one. -/
def twoMedallions : List (Event Sodium.unsigned) :=
  [.startBundle none "", .startBundle none "", .granted "me" 0, .acquired none .unsigned, .saved 7,
    .granted "me" 0, .addChange 0 .unset, .commit 0 "", .acquired none .unsigned, .saved 8,
    .granted "me" 1000, .settled .completes, .resumed 0]

/-- **Crossed**: the first bundler's addresses have the first medallion, its bundle was sealed
under the second. -/
theorem addresses_crossed :
    ¬ AddressesReal (Machine.run step onEmpty twoMedallions) := by
  intro h
  obtain ⟨bundle, hbundle, -, haddresses⟩ := h _ (List.mem_cons_self : _ ∈ _ :: _)
  obtain rfl := List.mem_singleton.mp hbundle
  obtain ⟨bundler, hbundler, hmuid, -⟩ := haddresses 0 1 .unset (List.mem_singleton.mpr rfl) rfl
  obtain rfl := Option.some.inj hbundler
  have hmedallion : (7 : U64) = 8 := congrArg BoundMuid.medallion hmuid
  exact absurd hmedallion (by decide)

end Database

end Js

end Gink
