/-
  Gink.Database.Commits — what the store has of the changes of a database.

  A commit first sees to it that the database has a chain, which may add a bundle without
  changes; then the changes are signed, and the store takes them in as one bundle or not at all.

  Main results:
    * `commit_stored` — a commit that returns has stored its changes as one bundle.
    * `commit_refused` — a commit that raises has stored none of them.
-/
import Gink.Database.Committing
import Gink.Lmdb.History

namespace Gink

/-- The message comes out of its bytes as it went in. -/
def Outside.ReadsBack (out : Outside) (builder : BundleBuilder) : Prop :=
  out.lib.parseBundle (out.serializeBundle builder) = some builder

/-- What is documented of signatures: 64 bytes that go before the message. -/
def Outside.SignsInFront (out : Outside) : Prop :=
  ∀ key message, (out.sign key message).drop 64 = message

namespace Database

/-! ## §1. Histories. -/

/-- The bundles that the store took in, opened. -/
def history (out : Outside) (db : Database) : List OpenBundle :=
  openAll out.lib db.store.db.symmetricKey db.taken

/-- The tables are those of the history. -/
structure InOrder (out : Outside) (db : Database) : Prop where
  applies : db.store.applyChanges = true
  retains : db.store.db.retainEntries = true
  tables : Lmdb.History out.lib true (db.history out) db.store.db.contents

/-- From one state to the other the store took in these bundles. -/
structure Took (out : Outside) (more : List OpenBundle) (db db' : Database) : Prop where
  symmetricKeys : db'.store.db.symmetricKeys = db.store.db.symmetricKeys
  history : db'.history out = db.history out ++ more
  inOrder : db.InOrder out → db'.InOrder out
  active : db'.active = db.active
  made : db.made <+: db'.made

/-- Nothing is stored. -/
def Still (out : Outside) : Database → Database → Prop := Took out []

variable {out : Outside} {db db₁ db₂ db' : Database} {more later : List OpenBundle}

/-- Where the contents and the flags stay as they are. -/
theorem still_of_eq (hkeys : db'.store.db.symmetricKeys = db.store.db.symmetricKeys)
    (htaken : db'.taken = db.taken) (hcontents : db'.store.db.contents = db.store.db.contents)
    (happlies : db'.store.applyChanges = db.store.applyChanges)
    (hretains : db'.store.db.retainEntries = db.store.db.retainEntries)
    (hactive : db'.active = db.active) (hmade : db.made <+: db'.made) : Still out db db' := by
  have hhistory : db'.history out = db.history out := by
    unfold history Lmdb.Db.symmetricKey
    rw [hkeys, htaken]
  refine ⟨hkeys, ?_, ?_, hactive, hmade⟩
  · rw [hhistory, List.append_nil]
  · intro h
    exact ⟨happlies.trans h.applies, hretains.trans h.retains, by
      rw [hhistory, hcontents]; exact h.tables⟩

theorem Still.refl (db : Database) : Still out db db :=
  still_of_eq rfl rfl rfl rfl rfl rfl (List.prefix_refl _)

theorem Took.trans (h : Took out more db db₁) (h' : Took out later db₁ db₂) :
    Took out (more ++ later) db db₂ where
  symmetricKeys := h'.symmetricKeys.trans h.symmetricKeys
  history := by rw [h'.history, h.history, List.append_assoc]
  inOrder := fun hdb => h'.inOrder (h.inOrder hdb)
  active := h'.active.trans h.active
  made := h.made.trans h'.made

/-! ## §2. What runs lead to. -/

/-- A relation that holds over runs if it holds over their parts. -/
structure Tracks (out : Outside) (R : Database → Database → Prop) : Prop where
  refl : ∀ db, R db db
  trans : ∀ {db db₁ db₂}, R db db₁ → R db₁ db₂ → R db db₂
  inOrder : ∀ {db db'}, R db db' → db.InOrder out → db'.InOrder out

/-- Whether it returns or raises, it leads from a state to one that `R` relates to it. -/
def Leads {α : Type} (out : Outside) (R : Database → Database → Prop) (x : Action Database α) :
    Prop :=
  ∀ db, db.InOrder out → R db (Action.endState (x db))

section
variable {α β : Type} {R : Database → Database → Prop} {x : Action Database α}
  {f : α → Action Database β}

theorem Leads.ok (h : Leads out R x) (hdb : db.InOrder out) {a : α} (hx : x db = .ok a db') :
    R db db' := by
  have hend := h db hdb
  rw [hx] at hend
  exact hend

theorem Leads.error (h : Leads out R x) (hdb : db.InOrder out) {e : Error}
    (hx : x db = .error e db') : R db db' := by
  have hend := h db hdb
  rw [hx] at hend
  exact hend

theorem Leads.pure (hR : Tracks out R) (a : α) : Leads out R (pure a : Action Database α) :=
  fun db _ => hR.refl db

/-- What the first part leads to, and what leads on from there. -/
theorem Leads.after (hR : Tracks out R) (hdb : db.InOrder out) {s : Database}
    (hx : R db (Action.endState (x s))) (hf : ∀ a, Leads out R (f a)) :
    R db (Action.endState ((x >>= f) s)) := by
  rw [Action.bind_eq]
  cases hr : x s with
  | ok a db₁ =>
      rw [hr] at hx
      exact hR.trans hx (hf a db₁ (hR.inOrder hx hdb))
  | error e db₁ =>
      rw [hr] at hx
      exact hx

theorem Leads.bind (hR : Tracks out R) (hx : Leads out R x) (hf : ∀ a, Leads out R (f a)) :
    Leads out R (x >>= f) := by
  intro db hdb
  exact Leads.after hR hdb (hx db hdb) hf

/-- After a pure computation its result may be used. -/
theorem Leads.of_bind (hR : Tracks out R) {x : Except Error α}
    (hf : ∀ a, x = .ok a → Leads out R (f a)) : Leads out R (Action.of x >>= f) := by
  intro db hdb
  cases x with
  | ok a => exact hf a rfl db hdb
  | error e => exact hR.refl db

theorem Leads.get_bind {f : Database → Action Database β}
    (hf : ∀ db, db.InOrder out → R db (Action.endState (f db db))) : Leads out R (get >>= f) := hf

end

theorem still_tracks : Tracks out (Still out) where
  refl := Still.refl
  trans := fun h h' => h.trans h'
  inOrder := fun h => h.inOrder

theorem leads_modify {f : Database → Database} (hf : ∀ db, Still out db (f db)) :
    Leads out (Still out) (modify f : Action Database PUnit) := fun db _ => hf db

/-! ## §3. The store. -/

theorem generateTimestamp_leads : Leads out (Still out) (generateTimestamp out) := by
  intro db _
  exact still_of_eq rfl rfl rfl rfl rfl rfl (List.prefix_refl _)

theorem getSymmetricKey_eq (db : Database) : Action.endState (getSymmetricKey db) = db := by
  unfold getSymmetricKey
  split <;> rfl

theorem getSymmetricKey_leads : Leads out (Still out) getSymmetricKey := by
  intro db _
  rw [getSymmetricKey_eq]
  exact Still.refl db

/-- The store takes the bundle in and returns `True`, or nothing is stored. -/
def TakesIn (out : Outside) (bundle : Decomposition) (db : Database)
    (r : EStateM.Result Error Database Bool) : Prop :=
  (∃ b db', r = .ok true db' ∧ bundle.opened out.lib db.store.db.symmetricKey = .ok b ∧
    Took out [b] db db') ∨
  ((∀ db', r ≠ .ok true db') ∧ Still out db (Action.endState r))

/-- **A bundle is taken in**, or the store stays as it is. -/
theorem applyBundle_takesIn (bundle : Decomposition) (claimChain : Bool) (hdb : db.InOrder out) :
    TakesIn out bundle db (applyBundle out bundle claimChain db) := by
  let call : Lmdb.Call := ⟨bundle, some fun _ => .ok (), claimChain,
    ⟨(out.clock (db.ticks + 1)).val, out.clock db.ticks, out.processId⟩⟩
  have hquiet : call.Quiet := by
    intro f hf d
    cases hf
    rfl
  have hflag : (call.run out.lib db.store).store.applyChanges = db.store.applyChanges := by
    cases Lmdb.applyBundle_step out.lib db.store call.bundle call.callback call.claimChain
        call.clock with
    | kept _ hflag _ => exact hflag
    | committed _ _ _ _ _ _ hflag _ => exact hflag
  have hcall : Lmdb.applyBundle out.lib db.store bundle (some fun _ => .ok ()) claimChain
      ⟨(out.clock (db.ticks + 1)).val, out.clock db.ticks, out.processId⟩
      = call.run out.lib db.store := rfl
  unfold applyBundle
  simp only [hcall]
  rcases Lmdb.Call.step out.lib hquiet hdb.applies with
    ⟨hresult, hkept⟩ | ⟨hresult, hkeys, hretain, b, seen', hopen, happlied⟩
  · right
    have hstill : ∀ lastLink, Still out db { db with
        store := (call.run out.lib db.store).store, ticks := db.ticks + 2, lastLink } := by
      intro lastLink
      refine still_of_eq ?_ rfl ?_ hflag ?_ rfl (List.prefix_refl _)
      · exact congrArg Lmdb.Db.symmetricKeys hkept
      · exact congrArg Lmdb.Db.contents hkept
      · exact congrArg Lmdb.Db.retainEntries hkept
    cases hr : (call.run out.lib db.store).result with
    | ok added =>
        cases added with
        | true => exact absurd hr hresult
        | false => exact ⟨fun db' h => by simp at h, hstill _⟩
    | error e => exact ⟨fun db' h => by simp at h, hstill _⟩
  · left
    simp only [hresult]
    refine ⟨b, _, rfl, hopen, ?_⟩
    have hkey : (call.run out.lib db.store).store.db.symmetricKey = db.store.db.symmetricKey := by
      funext keyId
      unfold Lmdb.Db.symmetricKey
      rw [hkeys]
    have hhistory : openAll out.lib (call.run out.lib db.store).store.db.symmetricKey
        (db.taken ++ [bundle]) = db.history out ++ [b] := by
      rw [hkey]
      unfold Database.history openAll
      rw [List.filterMap_append]
      congr 1
      exact openAll_cons [] hopen
    refine ⟨hkeys, hhistory, ?_, rfl, List.prefix_refl _⟩
    intro _
    refine ⟨hflag.trans hdb.applies, hretain.trans hdb.retains, ?_⟩
    show Lmdb.History out.lib true (openAll out.lib
      (call.run out.lib db.store).store.db.symmetricKey (db.taken ++ [bundle])) _
    rw [hhistory]
    rw [hdb.retains] at happlied
    exact .next hdb.tables happlied

theorem receive_takesIn (bundle : Decomposition) (hdb : db.InOrder out) :
    TakesIn out bundle db (receive out bundle db) := by
  unfold receive
  cases bundle.getBuilder out.lib with
  | error e => exact Or.inr ⟨fun db' h => (by cases h), Still.refl db⟩
  | ok builder =>
      rw [Action.of_ok_bind]
      cases validateBundle builder with
      | error e => exact Or.inr ⟨fun db' h => (by cases h), Still.refl db⟩
      | ok u => exact applyBundle_takesIn bundle false hdb

/-! ## §4. Bundles of its own. -/

/-- What comes out of a bundle that the database has made. -/
theorem opened_made (hout : out.SignsInFront) {key : Bytes} {builder : BundleBuilder}
    (hback : out.ReadsBack builder) (hplain : builder.encrypted = [])
    {symmetricKey : U64 → Except Error Bytes} {b : OpenBundle}
    (h : (⟨out.sign key (out.serializeBundle builder)⟩ : Decomposition).opened out.lib symmetricKey
      = .ok b) :
    b.changes = builder.changes := by
  have hbuilder : (⟨out.sign key (out.serializeBundle builder)⟩ : Decomposition).getBuilder out.lib
      = .ok builder := by
    unfold Decomposition.getBuilder
    rw [hout, hback]
    rfl
  unfold Decomposition.opened at h
  rw [hbuilder] at h
  obtain ⟨builder', hb, h⟩ := bind_eq_ok.mp h
  cases hb
  obtain ⟨changes, hchanges, h⟩ := bind_eq_ok.mp h
  unfold openChanges at hchanges
  rw [if_pos hplain] at hchanges
  cases hchanges
  obtain rfl := pure_eq_ok.mp h
  rfl

/-- What is opened has the info of the bundle. -/
theorem getInfo_of_opened {lib : Externals} {symmetricKey : U64 → Except Error Bytes}
    {bundle : Decomposition} {b : OpenBundle} (h : bundle.opened lib symmetricKey = .ok b) :
    bundle.getInfo lib = .ok b.info := by
  unfold Decomposition.opened at h
  obtain ⟨builder, hbuilder, h⟩ := bind_eq_ok.mp h
  obtain ⟨changes, -, h⟩ := bind_eq_ok.mp h
  obtain rfl := pure_eq_ok.mp h
  unfold Decomposition.getInfo
  rw [hbuilder]
  rfl

/-- What a message says that is put together. -/
theorem combine_ok {chain : Chain} {timestamp : U64} {verifyKey : Bytes}
    {changes : List ChangeBuilder} {comment : String} {identity : Option String}
    {previous : Option U64} {priorHash : Bytes} {builder : BundleBuilder}
    (h : combine chain timestamp verifyKey changes comment identity previous priorHash
      = .ok builder) :
    builder.changes = changes ∧ builder.encrypted = [] := by
  unfold combine at h
  cases previous with
  | none =>
      obtain ⟨-, -, h⟩ := bind_eq_ok.mp h
      obtain ⟨identity, -, h⟩ := bind_eq_ok.mp h
      obtain rfl := pure_eq_ok.mp h
      exact ⟨rfl, rfl⟩
  | some previous =>
      obtain ⟨-, -, h⟩ := bind_eq_ok.mp h
      obtain ⟨-, -, h⟩ := bind_eq_ok.mp h
      obtain ⟨-, -, h⟩ := bind_eq_ok.mp h
      obtain rfl := pure_eq_ok.mp h
      exact ⟨rfl, rfl⟩

/-- The start of a chain may be stored, and nothing else. -/
structure Starts (out : Outside) (db db' : Database) : Prop where
  inOrder : db.InOrder out → db'.InOrder out
  active : db'.active = db.active
  made : db.made <+: db'.made
  took : (∀ b ∈ db'.made, out.ReadsBack b) →
    ∃ more, (∀ b ∈ more, b.changes = []) ∧ Took out more db db'

theorem Still.starts (h : Still out db db') : Starts out db db' where
  inOrder := h.inOrder
  active := h.active
  made := h.made
  took := fun _ => ⟨[], fun _ hb => absurd hb List.not_mem_nil, h⟩

theorem starts_tracks : Tracks out (Starts out) where
  refl := fun db => (Still.refl db).starts
  trans := by
    intro db db₁ db₂ h h'
    refine ⟨fun hdb => h'.inOrder (h.inOrder hdb), h'.active.trans h.active,
      h.made.trans h'.made, ?_⟩
    intro hback
    obtain ⟨more, hmore, htook⟩ := h.took fun b hb => hback b (h'.made.subset hb)
    obtain ⟨later, hlater, htook'⟩ := h'.took hback
    refine ⟨more ++ later, ?_, htook.trans htook'⟩
    intro b hb
    exact (List.mem_append.mp hb).elim (hmore b) (hlater b)
  inOrder := fun h => h.inOrder

theorem Leads.starts {α : Type} {x : Action Database α} (h : Leads out (Still out) x) :
    Leads out (Starts out) x := fun db hdb => (h db hdb).starts

theorem reuseFrom_eq (db : Lmdb.Db) (pid : U64) (gone : U64 → Bool) (identity : String)
    (claimTime : U64) (claims : List ClaimBuilder) :
    ∃ claims', (db.reuseFrom pid gone identity claimTime claims).1
      = { db with claims := claims' } := by
  induction claims with
  | nil => exact ⟨db.claims, rfl⟩
  | cons old rest ih =>
      unfold Lmdb.Db.reuseFrom
      simp only
      cases db.getIdentity ⟨old.medallion, old.chainStart⟩ with
      | error e => exact ⟨db.claims, rfl⟩
      | ok chainIdentity =>
          simp only
          split
          · cases hadd : db.addClaim pid claimTime ⟨old.medallion, old.chainStart⟩ with
            | error e => exact ⟨db.claims, rfl⟩
            | ok db' =>
                unfold Lmdb.Db.addClaim at hadd
                obtain ⟨key, -, hadd⟩ := bind_eq_ok.mp hadd
                exact ⟨_, (pure_eq_ok.mp hadd).symm⟩
          · exact ih

/-- Taking a chain over stores a claim, and no bundle. -/
theorem reuseChain_leads : Leads out (Still out) (reuseChain out) := by
  unfold reuseChain
  refine Leads.bind still_tracks generateTimestamp_leads fun claimTime => ?_
  refine Leads.bind still_tracks ?_ fun reused => ?_
  · intro db _
    have hstill : Still out db { db with store :=
        (Lmdb.maybeReuseChain db.store out.processId out.gone out.identity none claimTime).store } := by
      have hdb : ∃ claims, (Lmdb.maybeReuseChain db.store out.processId out.gone out.identity none
          claimTime).store.db = { db.store.db with claims := claims } ∧
          (Lmdb.maybeReuseChain db.store out.processId out.gone out.identity none
            claimTime).store.applyChanges = db.store.applyChanges := by
        unfold Lmdb.maybeReuseChain
        simp only
        cases (Lmdb.refreshHelper db.store none).result with
        | error e => exact ⟨db.store.db.claims, rfl, rfl⟩
        | ok n =>
            obtain ⟨claims, hclaims⟩ := reuseFrom_eq db.store.db out.processId out.gone out.identity
              claimTime db.store.db.getClaims
            exact ⟨claims, hclaims, rfl⟩
      obtain ⟨claims, hclaims, hflag⟩ := hdb
      refine still_of_eq ?_ rfl ?_ hflag ?_ rfl (List.prefix_refl _)
      · exact (congrArg Lmdb.Db.symmetricKeys hclaims).trans rfl
      · exact (congrArg Lmdb.Db.contents hclaims).trans rfl
      · exact (congrArg Lmdb.Db.retainEntries hclaims).trans rfl
    cases hr : (Lmdb.maybeReuseChain db.store out.processId out.gone out.identity none
        claimTime).result with
    | ok reused =>
        simp only [hr]
        exact hstill
    | error e =>
        simp only [hr]
        exact hstill
  · cases reused with
    | none => exact Leads.pure still_tracks none
    | some link =>
        refine Leads.bind still_tracks getSymmetricKey_leads fun _ => ?_
        refine Leads.get_bind fun db hdb => ?_
        refine Leads.of_bind still_tracks (fun verifyKey _ => ?_) db hdb
        refine Leads.get_bind fun db hdb => ?_
        exact Leads.of_bind still_tracks (fun key _ => Leads.pure still_tracks _) db hdb

/-- **A bundle of its own** is signed at some time, and taken in or not. -/
theorem made_takesIn (hout : out.SignsInFront) {key : Bytes} {builder : BundleBuilder}
    {store : Decomposition → Action Database Bool}
    (hstore : ∀ bundle db, db.InOrder out → TakesIn out bundle db (store bundle db))
    {start : Database} (hplain : builder.encrypted = []) (hdb : db.InOrder out)
    (hbefore : Still out start db)
    {bundle : Decomposition} (hbundle : bundle = ⟨out.sign key (out.serializeBundle builder)⟩)
    {r : EStateM.Result Error Database Bool}
    (hr : store bundle { db with made := db.made ++ [builder] } = r) :
    ((∀ db', r ≠ .ok true db') ∧ Still out start (Action.endState r)) ∨
    ∃ b db', r = .ok true db' ∧ bundle.getInfo out.lib = .ok b.info ∧ builder ∈ db'.made ∧
      Took out [b] start db' ∧
      (out.ReadsBack builder → b.changes = builder.changes) := by
  have hsigned : Still out db { db with made := db.made ++ [builder] } :=
    still_of_eq rfl rfl rfl rfl rfl rfl (List.prefix_append _ _)
  rcases hstore bundle _ (hsigned.inOrder hdb) with
    ⟨b, db', hok, hopened, htaken⟩ | ⟨hnot, hstill⟩
  · right
    rw [hr] at hok
    have htook : Took out [b] start db' := (hbefore.trans hsigned).trans htaken
    refine ⟨b, db', hok, getInfo_of_opened hopened, htaken.made.subset (by simp), htook, ?_⟩
    intro hback
    subst hbundle
    exact opened_made hout hback hplain hopened
  · left
    rw [hr] at hnot hstill
    exact ⟨hnot, (hbefore.trans hsigned).trans hstill⟩

/-- One without changes. -/
theorem made_starts (hout : out.SignsInFront) {key : Bytes} {builder : BundleBuilder}
    {store : Decomposition → Action Database Bool}
    (hstore : ∀ bundle db, db.InOrder out → TakesIn out bundle db (store bundle db))
    {start : Database} (hchanges : builder.changes = []) (hplain : builder.encrypted = [])
    (hdb : db.InOrder out) (hbefore : Still out start db) :
    Starts out start (Action.endState (store ⟨out.sign key (out.serializeBundle builder)⟩
      { db with made := db.made ++ [builder] })) := by
  rcases made_takesIn hout hstore hplain hdb hbefore rfl rfl with
    ⟨-, hstill⟩ | ⟨b, db', hok, -, hmade, htook, hown⟩
  · exact Still.starts hstill
  · rw [hok]
    refine ⟨htook.inOrder, htook.active, htook.made, fun hback => ?_⟩
    refine ⟨[b], ?_, htook⟩
    intro b' hb'
    rw [List.mem_singleton.mp hb', hown (hback builder hmade), hchanges]

/-- **A new chain** starts with a bundle without changes. -/
theorem startChain_leads (hout : out.SignsInFront) : Leads out (Starts out) (startChain out) := by
  have htracks : Tracks out (Starts out) := starts_tracks
  unfold startChain
  refine Leads.bind htracks getSymmetricKey_leads.starts fun _ => ?_
  refine Leads.get_bind fun db hdb => ?_
  refine Leads.bind htracks ?_ (fun _ => ?_) db hdb
  · refine Leads.starts (leads_modify fun db => ?_)
    exact still_of_eq rfl rfl rfl rfl rfl rfl (List.prefix_refl _)
  refine Leads.get_bind fun db hdb => ?_
  show Starts out db (Action.endState
    ((Action.of (combine _ (out.clock db.ticks) _ _ _ _ _ _) >>= _) { db with ticks := db.ticks + 1 }))
  have htick : Still out db { db with ticks := db.ticks + 1 } :=
    still_of_eq rfl rfl rfl rfl rfl rfl (List.prefix_refl _)
  generalize hbuilder : combine _ (out.clock db.ticks) _ _ _ _ _ _ = made
  cases made with
  | error e => exact htick.starts
  | ok builder =>
      obtain ⟨hchanges, hplain⟩ := combine_ok hbuilder
      rw [Action.of_ok_bind]
      show Starts out db (Action.endState ((applyBundle out _ true >>= _) _))
      refine Leads.after htracks hdb ?_ fun _ => ?_
      · exact made_starts hout (fun bundle db hdb => applyBundle_takesIn bundle true hdb) hchanges
          hplain (htick.inOrder hdb) htick
      · refine Leads.of_bind htracks fun info _ => Leads.bind htracks ?_ fun _ =>
          Leads.pure htracks _
        refine Leads.starts (leads_modify fun db => ?_)
        exact still_of_eq rfl rfl rfl rfl rfl rfl (List.prefix_refl _)

/-- **The chain of a database** is there afterwards; nothing but its start is stored. -/
theorem acquireAppendableLink_leads (hout : out.SignsInFront) :
    Leads out (Starts out) (acquireAppendableLink out) := by
  have htracks : Tracks out (Starts out) := starts_tracks
  unfold acquireAppendableLink
  refine Leads.get_bind fun db hdb => ?_
  cases db.lastLink with
  | some link =>
      refine Leads.get_bind (fun db hdb => ?_) db hdb
      exact Leads.of_bind htracks (fun key _ => Leads.pure htracks _) db hdb
  | none =>
      refine Leads.get_bind (fun db hdb => ?_) db hdb
      refine Leads.of_bind htracks (fun _ _ => ?_) db hdb
      refine Leads.bind htracks reuseChain_leads.starts fun reused => ?_
      cases reused with
      | none => exact startChain_leads hout
      | some found =>
          refine Leads.bind htracks ?_ fun _ => Leads.pure htracks _
          refine Leads.starts (leads_modify fun db => ?_)
          exact still_of_eq rfl rfl rfl rfl rfl rfl (List.prefix_refl _)

/-! ## §5. Commits. -/

/-- What a commit leaves of a bundler with changes: one bundle, after the start of the chain
where there was none. -/
structure Stored (out : Outside) (changes : List ChangeBuilder) (info : BundleInfo)
    (db db' : Database) : Prop where
  inOrder : db.InOrder out → db'.InOrder out
  active : db'.active = db.active
  made : db.made <+: db'.made
  took : (∀ b ∈ db'.made, out.ReadsBack b) →
    ∃ starts, (∀ b ∈ starts, b.changes = []) ∧ Took out (starts ++ [⟨info, changes⟩]) db db'

/-- The commit of a bundler with changes, from where the link is known. -/
def commitTo (out : Outside) (b : Bundling) (link : BundleInfo) (key : Bytes) :
    Action Database Bundling := do
  let timestamp ← generateTimestamp out
  Action.of (ensure (link.timestamp < timestamp) (.assertionError "timestamp > seen_to"))
  let builder ← Action.of (combine link.chain timestamp (out.verifyKeyOf key) b.bundler.changes
    b.comment none (some link.timestamp) link.hash)
  let bundle ← signBundle out key builder
  let added ← receive out bundle
  Action.of (ensure added (.assertionError "added"))
  let info ← Action.of (bundle.getInfo out.lib)
  return { b with bundler := { b.bundler with decomposition := some info } }

theorem commit_eq {b : Bundling} (hopen : b.bundler.isOpen = true)
    (hchanges : b.bundler.changes.isEmpty = false) :
    commit out b = acquireAppendableLink out >>= fun p => commitTo out b p.1 p.2 := by
  unfold commit
  rw [hopen, hchanges]
  rfl

/-- From where the link is known the changes are stored, or nothing is. -/
theorem commitTo_ends (hout : out.SignsInFront) (b : Bundling) (link : BundleInfo) (key : Bytes)
    (hdb : db.InOrder out) :
    (∃ e db', commitTo out b link key db = .error e db' ∧ Starts out db db') ∨
      ∃ info db', commitTo out b link key db =
          .ok { b with bundler := { b.bundler with decomposition := some info } } db' ∧
        Stored out b.bundler.changes info db db' := by
  have htick : Still out db { db with ticks := db.ticks + 1 } :=
    still_of_eq rfl rfl rfl rfl rfl rfl (List.prefix_refl _)
  have hrun : commitTo out b link key db = (do
      Action.of (ensure (link.timestamp < out.clock db.ticks) (.assertionError "timestamp > seen_to"))
      let builder ← Action.of (combine link.chain (out.clock db.ticks) (out.verifyKeyOf key)
        b.bundler.changes b.comment none (some link.timestamp) link.hash)
      let bundle ← signBundle out key builder
      let added ← receive out bundle
      Action.of (ensure added (.assertionError "added"))
      let info ← Action.of (bundle.getInfo out.lib)
      return { b with bundler := { b.bundler with decomposition := some info } } :
        Action Database Bundling) { db with ticks := db.ticks + 1 } := rfl
  rw [hrun]
  cases ensure (link.timestamp < out.clock db.ticks) (.assertionError "timestamp > seen_to") with
  | error e => exact Or.inl ⟨e, _, rfl, htick.starts⟩
  | ok u =>
      rw [Action.of_ok_bind]
      generalize hbuilder : combine link.chain (out.clock db.ticks) _ _ _ _ _ _ = made
      cases made with
      | error e => exact Or.inl ⟨e, _, rfl, htick.starts⟩
      | ok builder =>
          obtain ⟨hchanges, hplain⟩ := combine_ok hbuilder
          rw [Action.of_ok_bind]
          have hsigned : (signBundle out key builder >>= fun bundle => do
              let added ← receive out bundle
              Action.of (ensure added (.assertionError "added"))
              let info ← Action.of (bundle.getInfo out.lib)
              return { b with bundler := { b.bundler with decomposition := some info } })
                { db with ticks := db.ticks + 1 }
              = (receive out ⟨out.sign key (out.serializeBundle builder)⟩ >>= fun added => do
                Action.of (ensure added (.assertionError "added"))
                let info ← Action.of ((⟨out.sign key (out.serializeBundle builder)⟩ :
                  Decomposition).getInfo out.lib)
                return { b with bundler := { b.bundler with decomposition := some info } })
                { db with ticks := db.ticks + 1, made := db.made ++ [builder] } := rfl
          rw [hsigned, Action.bind_eq]
          generalize hr : receive out _ _ = r
          rcases made_takesIn hout (fun bundle db hdb => receive_takesIn bundle hdb) hplain
              (htick.inOrder hdb) htick rfl hr with
            ⟨hnot, hstill⟩ | ⟨⟨info, changes⟩, db', rfl, hinfo, hmade, htook, hown⟩
          · left
            cases r with
            | error e db' => exact ⟨e, db', rfl, Still.starts hstill⟩
            | ok added db' =>
                cases added with
                | true => exact absurd rfl (hnot db')
                | false => exact ⟨_, db', rfl, Still.starts hstill⟩
          · right
            refine ⟨info, db', ?_, htook.inOrder, htook.active, htook.made, ?_⟩
            · show ((Action.of (Decomposition.getInfo out.lib _)) >>= _) db' = _
              rw [hinfo]
              rfl
            · intro hback
              obtain rfl : changes = b.bundler.changes :=
                (hown (hback builder hmade)).trans hchanges
              exact ⟨[], fun _ hb => absurd hb List.not_mem_nil, htook⟩

theorem Starts.stored {changes : List ChangeBuilder} {info : BundleInfo}
    (h : Starts out db db₁) (h' : Stored out changes info db₁ db') :
    Stored out changes info db db' where
  inOrder := fun hdb => h'.inOrder (h.inOrder hdb)
  active := h'.active.trans h.active
  made := h.made.trans h'.made
  took := by
    intro hback
    obtain ⟨starts, hstarts, htook⟩ := h.took fun b hb => hback b (h'.made.subset hb)
    obtain ⟨starts', hstarts', htook'⟩ := h'.took hback
    refine ⟨starts ++ starts', ?_, ?_⟩
    · intro b hb
      exact (List.mem_append.mp hb).elim (hstarts b) (hstarts' b)
    · rw [List.append_assoc]
      exact htook.trans htook'

/-- **A commit that returns** has stored its changes, and what the chain starts with. -/
theorem commit_stored (hout : out.SignsInFront) {b b' : Bundling} (hdb : db.InOrder out)
    (hcommit : commit out b db = .ok b' db') :
    (b.bundler.changes = [] ∧ b' = b ∧ db' = db) ∨
      ∃ info, b' = { b with bundler := { b.bundler with decomposition := some info } } ∧
        Stored out b.bundler.changes info db db' := by
  cases hopen : b.bundler.isOpen with
  | false =>
      unfold commit at hcommit
      rw [if_pos hopen] at hcommit
      cases hcommit
  | true =>
      cases hchanges : b.bundler.changes.isEmpty with
      | true =>
          left
          unfold commit at hcommit
          rw [hopen, hchanges] at hcommit
          cases hcommit
          exact ⟨List.isEmpty_iff.mp hchanges, rfl, rfl⟩
      | false =>
          right
          rw [commit_eq hopen hchanges, Action.bind_eq_ok] at hcommit
          obtain ⟨⟨link, key⟩, db₁, hacquire, hcommit⟩ := hcommit
          have hstarts := (acquireAppendableLink_leads hout).ok hdb hacquire
          rcases commitTo_ends hout b link key (hstarts.inOrder hdb) with
            ⟨e, db₂, herror, -⟩ | ⟨info, db₂, hok, hstored⟩
          · rw [herror] at hcommit
            cases hcommit
          · rw [hok] at hcommit
            cases hcommit
            exact ⟨info, rfl, hstarts.stored hstored⟩

/-- **A commit that raises** has stored none of its changes. -/
theorem commit_refused (hout : out.SignsInFront) {b : Bundling} {e : Error} (hdb : db.InOrder out)
    (hcommit : commit out b db = .error e db') : Starts out db db' := by
  cases hopen : b.bundler.isOpen with
  | false =>
      unfold commit at hcommit
      rw [if_pos hopen] at hcommit
      cases hcommit
      exact (starts_tracks).refl db
  | true =>
      cases hchanges : b.bundler.changes.isEmpty with
      | true =>
          unfold commit at hcommit
          rw [hopen, hchanges] at hcommit
          cases hcommit
      | false =>
          rw [commit_eq hopen hchanges, Action.bind_eq_error] at hcommit
          rcases hcommit with hacquire | ⟨⟨link, key⟩, db₁, hacquire, hcommit⟩
          · exact (acquireAppendableLink_leads hout).error hdb hacquire
          · have hstarts := (acquireAppendableLink_leads hout).ok hdb hacquire
            rcases commitTo_ends hout b link key (hstarts.inOrder hdb) with
              ⟨e, db₂, herror, hnone⟩ | ⟨info, db₂, hok, -⟩
            · rw [herror] at hcommit
              cases hcommit
              exact (starts_tracks).trans hstarts hnone
            · rw [hok] at hcommit
              cases hcommit

end Database

end Gink
