/-
  Gink.Lmdb.Rollback — what a raising `apply_bundle` leaves behind (lmdb_store.py).

  The transaction rolls back, `_seen_containers` and `_seen_through` do not.  A session
  is any sequence of calls on one file, with the store closed and opened again at any
  point.  `rolled_back_calls_leave_nothing` compares it with the same session without
  the calls that raised, and says which containers are defined after it.
-/
import Gink.Lmdb.Definitions
import Gink.Lmdb.History
import Gink.Lmdb.Refresh
import Gink.Machine.Run
import Gink.Proto.Sample

namespace Gink

namespace Lmdb

/-! ## §1. Sessions. -/

/-- The calls of a session. -/
inductive StoreCall where
  | apply (call : Call)
  | refresh (callback : Option Callback)
  | saveSymmetricKey (key : Bytes)
  /-- the store is closed and the file opened again -/
  | reopen

/-- What a call returns. -/
inductive Answer where
  | applied (added : Bool)
  | refreshed (count : Nat)
  | saved (keyId : Fin (2 ^ 52))
  | opened
  deriving DecidableEq, Repr

/-- What the caller sees of a call: the bundles its callback is handed, and what the
call returns or raises. -/
structure Reply where
  delivered : List Decomposition
  result : Except Error Answer

/-- The store and the reply after a call. -/
def StoreCall.run (lib : Externals) (s : Store) : StoreCall → Store × Reply
  | .apply call =>
      let o := call.run lib s
      (o.store, ⟨o.delivered, o.result.map .applied⟩)
  | .refresh callback =>
      let o := Lmdb.refresh s callback
      (o.store, ⟨o.delivered, o.result.map .refreshed⟩)
  | .saveSymmetricKey key =>
      let o := Lmdb.saveSymmetricKey lib s key
      (o.store, ⟨o.delivered, o.result.map .saved⟩)
  | .reopen => ({ db := s.db, applyChanges := s.applyChanges }, ⟨[], .ok .opened⟩)

/-- The changes a call applies when it is accepted, each at its place. -/
def Call.ops (lib : Externals) (s : Store) (call : Call) : List Op :=
  match call.bundle.opened lib s.db.symmetricKey with
  | .ok b => if s.applyChanges then b.ops else []
  | .error _ => []

/-- A store, the time of its last call, and the changes of the bundles it accepted. -/
structure Session where
  store : Store
  now : Int := 0
  history : List Op := []

/-- The session after one more call. -/
def Session.step (lib : Externals) (s : Session) : StoreCall → Session
  | .apply call =>
      let o := call.run lib s.store
      { store := o.store
        now := call.clock.receiveTime
        history := match o.result with
          | .ok true => s.history ++ call.ops lib s.store
          | _ => s.history }
  | call => { s with store := (call.run lib s.store).1 }

/-- A session on a new file. -/
def Session.start (symmetricKeys : Table Bytes Bytes)
    (retainBundles retainEntries applyChanges : Bool) : Session where
  store := { newStore symmetricKeys retainBundles retainEntries with applyChanges }

/-- The call is an `apply_bundle` that raises. -/
def StoreCall.raises (lib : Externals) (s : Store) : StoreCall → Bool
  | .apply call => match (call.run lib s).result with
      | .error _ => true
      | .ok _ => false
  | _ => false

/-- The replies to the calls of a session. -/
def replies (lib : Externals) : Session → List StoreCall → List Reply
  | _, [] => []
  | s, call :: rest => (call.run lib s.store).2 :: replies lib (s.step lib call) rest

/-- The calls of a session without those that raise in it. -/
def withoutRaising (lib : Externals) : Session → List StoreCall → List StoreCall
  | _, [] => []
  | s, call :: rest =>
      if call.raises lib s.store then withoutRaising lib (s.step lib call) rest
      else call :: withoutRaising lib (s.step lib call) rest

/-- The replies that these calls get in the session with all calls. -/
def repliesKept (lib : Externals) : Session → List StoreCall → List Reply
  | _, [] => []
  | s, call :: rest =>
      if call.raises lib s.store then repliesKept lib (s.step lib call) rest
      else (call.run lib s.store).2 :: repliesKept lib (s.step lib call) rest

/-! ## §2. The condition. -/

/-- The changes that the loop of a call gets to, when the call gets to the loop. -/
def Call.attempted (lib : Externals) (s : Store) (call : Call) : List ChangeBuilder :=
  match call.bundle.getBuilder lib with
  | .error _ => []
  | .ok builder =>
      let info := BundleInfo.ofBuilder builder (lib.digest call.bundle.bundleBytes)
      let oldInfo := s.db.chains.get? info.chain.toBytes
      match isNeeded info oldInfo with
      | .ok true =>
          match s.db.claimChain call.claimChain info call.clock >>=
              fun db => db.storeBundle call.bundle call.clock with
          | .error _ => []
          | .ok db => match db.linkBundle lib call.bundle builder info oldInfo call.clock with
              | .error _ => []
              | .ok (db, changes) => reached lib s.db.contents db.retainEntries info 1
                  (if s.applyChanges then changes else []) s.seenContainers db.contents
      | _ => []

/-- The container that an entry, a movement or a clearance is for. -/
def container? (op : Op) : Option Muid :=
  match op.change with
  | .entry entry => (resolve op.info.context entry.containerField).toOption
  | .movement movement => (resolve op.info.context movement.container).toOption
  | .clearance clearance => (resolve op.info.context clearance.container).toOption
  | .container _ | .unset => none

/-- A container is defined in the file, defined by one of the changes, or written to by
one of them under its full address. -/
def Introduced (committed : Contents) (ops : List Op) (muid : Muid) : Prop :=
  committed.Defines muid ∨ ∃ op ∈ ops, entryContainer op.change = some muid ∨
    ∃ builder, op.change = .container builder ∧ changeMuid op.info op.offset = .ok muid

/-- Calls take their times from `generate_timestamp()`: each is later than the last. -/
def Timely (s : Session) : StoreCall → Prop
  | .apply call => s.now < call.clock.receiveTime ∧ call.clock.receiveTime + 1 < 2 ^ 63
  | _ => True

/-- No callback raises; a call that raises finds nothing unread and gets to no entry for
an unknown container; an accepted bundle only names containers that get a definition. -/
def Careful (lib : Externals) (s : Session) : StoreCall → Prop
  | .apply call => call.Quiet ∧
      ((StoreCall.apply call).raises lib s.store = true →
        s.store.db.unread s.store.seenThrough = [] ∧
        ∀ change ∈ call.attempted lib s.store,
          Known s.store.db.contents s.store.seenContainers change) ∧
      ((call.run lib s.store).result = .ok true → ∀ op ∈ call.ops lib s.store, ∀ muid,
        container? op = some muid → muid.timestamp ≠ -1 →
          Introduced s.store.db.contents (call.ops lib s.store) muid)
  | .refresh callback => Quiet callback
  | _ => True

/-! ## §3. What a transaction leaves outside the database. -/

/-- What is written, and what is marked as seen, does not depend on `_seen_through`. -/
theorem writeBundle_congr {lib : Externals} {s s' : Store} (hdb : s.db = s'.db)
    (hseen : s.seenContainers = s'.seenContainers) (happly : s.applyChanges = s'.applyChanges)
    (bundle : Decomposition) (builder : BundleBuilder) (info : BundleInfo)
    (old : Option BundleInfo) (claimChain : Bool) (clock : Clock) :
    (writeBundle lib s bundle builder info old claimChain clock).seenContainers
        = (writeBundle lib s' bundle builder info old claimChain clock).seenContainers ∧
      (writeBundle lib s bundle builder info old claimChain clock).db
        = (writeBundle lib s' bundle builder info old claimChain clock).db := by
  unfold writeBundle
  rw [hdb, hseen, happly]
  split
  · exact ⟨rfl, rfl⟩
  · dsimp only
    split <;> exact ⟨rfl, rfl⟩

theorem writeBundle_seenThrough (lib : Externals) (s : Store) (bundle : Decomposition)
    (builder : BundleBuilder) (info : BundleInfo) (old : Option BundleInfo) (claimChain : Bool)
    (clock : Clock) :
    (writeBundle lib s bundle builder info old claimChain clock).seenThrough = s.seenThrough ∨
      (writeBundle lib s bundle builder info old claimChain clock).seenThrough
        = clock.receiveTime := by
  unfold writeBundle
  split
  · exact Or.inl rfl
  · dsimp only
    split <;> (dsimp only; split_ifs <;> simp)

/-- The bundles table after a commit. -/
theorem writeBundle_bundles {lib : Externals} {s : Store} {bundle : Decomposition}
    {builder : BundleBuilder} {info : BundleInfo} {old : Option BundleInfo} {claimChain : Bool}
    {clock : Clock} {db' : Db}
    (h : (writeBundle lib s bundle builder info old claimChain clock).db = .ok db') :
    (s.db.retainBundles = false ∧ db'.bundles = s.db.bundles) ∨
      ∃ location, s.db.retainBundles = true ∧ encodeMuts clock.receiveTime = .ok location ∧
        db'.bundles = s.db.bundles.put location bundle := by
  by_cases hretain : s.db.retainBundles = true
  · obtain ⟨location, hlocation, hbundles, -⟩ := (writeBundle_ok h).1.stored hretain
    exact Or.inr ⟨location, hretain, hlocation, hbundles⟩
  · have hretain : s.db.retainBundles = false := by simpa using hretain
    refine Or.inl ⟨hretain, ?_⟩
    unfold writeBundle at h
    cases h1 : (s.db.claimChain claimChain info clock >>= fun db => db.storeBundle bundle clock) with
    | error e =>
        rw [h1] at h
        exact absurd h (by simp)
    | ok db1 =>
        rw [h1] at h
        simp only at h
        obtain ⟨db0, hclaim, hstore⟩ := bind_eq_ok.mp h1
        obtain ⟨claims, rfl⟩ := claimChain_ok hclaim
        have hsame : db1 = { s.db with claims } := by
          unfold Db.storeBundle at hstore
          rw [if_neg (by simp [hretain])] at hstore
          exact (Except.ok.inj hstore).symm
        subst hsame
        cases h2 : ({ s.db with claims } : Db).linkBundle lib bundle builder info old clock with
        | error e =>
            rw [h2] at h
            exact absurd h (by simp)
        | ok r =>
            rw [h2] at h
            unfold Db.linkBundle at h2
            obtain ⟨db2, hindex, h3⟩ := bind_eq_ok.mp h2
            obtain ⟨bundleInfos, rfl, -⟩ := indexBundle_ok hindex
            obtain ⟨db3, hextend, h4⟩ := bind_eq_ok.mp h3
            obtain ⟨⟨identities, verifyKeys, rfl⟩, -⟩ := extendChain_ok hextend
            obtain ⟨changes, -, h5⟩ := bind_eq_ok.mp h4
            obtain rfl := pure_eq_ok.mp h5
            simp only at h
            obtain ⟨contents, -, rfl⟩ := map_eq_ok.mp h
            rfl

/-- A transaction whose loop gets to known containers only marks none. -/
theorem writeBundle_seen {lib : Externals} {s : Store} {call : Call} {builder : BundleBuilder}
    (hopen : call.bundle.getBuilder lib = .ok builder) {info : BundleInfo}
    (hinfo : info = .ofBuilder builder (lib.digest call.bundle.bundleBytes))
    (hneeded : isNeeded info (s.db.chains.get? info.chain.toBytes) = .ok true)
    (h : ∀ change ∈ call.attempted lib s, Known s.db.contents s.seenContainers change) :
    (writeBundle lib s call.bundle builder info (s.db.chains.get? info.chain.toBytes)
      call.claimChain call.clock).seenContainers = s.seenContainers := by
  unfold Call.attempted at h
  rw [hopen] at h
  simp only [← hinfo, hneeded] at h
  unfold writeBundle
  split
  · rfl
  · rename_i db1 h1
    rw [h1] at h
    simp only at h ⊢
    split
    · rfl
    · rename_i db2 changes h2
      rw [h2] at h
      exact applyChangesFrom_seen h

/-! ## §4. Sessions with and without the raising calls. -/

/-- Two stores that differ in what they have seen at most: then nothing is unread. -/
structure Alike (now : Int) (s s' : Store) : Prop where
  db : s.db = s'.db
  seenContainers : s.seenContainers = s'.seenContainers
  applyChanges : s.applyChanges = s'.applyChanges
  received : Received now s.db.bundles
  cursor : 0 ≤ s.seenThrough ∧ s.seenThrough ≤ now
  cursor' : 0 ≤ s'.seenThrough ∧ s'.seenThrough ≤ now
  same : s.seenThrough = s'.seenThrough ∨
    s.db.unread s.seenThrough = [] ∧ s'.db.unread s'.seenThrough = []

theorem Alike.unread {now : Int} {s s' : Store} (h : Alike now s s') :
    s.db.unread s.seenThrough = s'.db.unread s'.seenThrough := by
  rcases h.same with hsame | ⟨h1, h2⟩
  · rw [hsame, h.db]
  · rw [h1, h2]

/-- Nothing is unread after the time of the last call. -/
theorem Received.unread_eq_nil {now time : Int} {db : Db} (h : Received now db.bundles)
    (hle : now ≤ time) (hfits : time + 1 < 2 ^ 63) : db.unread time = [] :=
  List.map_eq_nil_iff.mpr (h.rowsAfter_eq_nil hle hfits)

/-- **A refresh** of stores that are alike. -/
theorem Alike.refresh {now : Int} {s s' : Store} (h : Alike now s s') {callback : Option Callback}
    (hquiet : Quiet callback) :
    Alike now (refreshHelper s callback).store (refreshHelper s' callback).store ∧
      (refreshHelper s callback).delivered = (refreshHelper s' callback).delivered ∧
      (refreshHelper s callback).result = (refreshHelper s' callback).result ∧
      (refreshHelper s callback).store.db.unread (refreshHelper s callback).store.seenThrough
        = [] := by
  have hfits := h.received.fits
  have h1 := h.cursor
  have h2 := h.cursor'
  have r := refreshHelper_quiet h.received hquiet h1.1 (by omega)
  have r' := refreshHelper_quiet (h.db ▸ h.received) hquiet h2.1 (by omega)
  have hdelivered : (refreshHelper s callback).delivered
      = (refreshHelper s' callback).delivered := by
    rw [r.delivered, r'.delivered, h.unread]
  -- where a cursor stands after a refresh
  have hcursor : ∀ {x : Store}, 0 ≤ x.seenThrough ∧ x.seenThrough ≤ now →
      Refreshed now x callback (refreshHelper x callback) →
      0 ≤ (refreshHelper x callback).store.seenThrough ∧
        (refreshHelper x callback).store.seenThrough ≤ now := by
    intro x hx rx
    by_cases hnil : x.db.unread x.seenThrough = []
    · rw [rx.same hnil]
      exact hx
    · have hmoved := rx.moved hnil
      omega
  refine ⟨⟨h.db, h.seenContainers, h.applyChanges, h.received, hcursor h1 r, hcursor h2 r',
    Or.inr ⟨r.finished, r'.finished⟩⟩, hdelivered, ?_, r.finished⟩
  rw [r.result, r'.result, hdelivered]

theorem Alike.later {now later : Int} {s s' : Store} (h : Alike now s s') (hlater : now < later)
    (hfits : later + 1 < 2 ^ 63) : Alike later s s' := by
  have h1 := h.cursor
  have h2 := h.cursor'
  exact ⟨h.db, h.seenContainers, h.applyChanges, h.received.mono (by omega) hfits,
    by omega, by omega, h.same⟩

/-- Where the cursor stands after a transaction nothing is unread. -/
theorem writeBundle_unread {lib : Externals} {now : Int} {s : Store}
    (hreceived : Received now s.db.bundles) (hcursor : 0 ≤ s.seenThrough ∧ s.seenThrough ≤ now)
    (hunread : s.db.unread s.seenThrough = []) {bundle : Decomposition} {builder : BundleBuilder}
    {info : BundleInfo} {old : Option BundleInfo} {claimChain : Bool} {clock : Clock}
    (hlater : now < clock.receiveTime) (hfits : clock.receiveTime + 1 < 2 ^ 63) {w : Written}
    (hw : w = writeBundle lib s bundle builder info old claimChain clock) :
    (0 ≤ w.seenThrough ∧ w.seenThrough ≤ clock.receiveTime) ∧
      s.db.unread w.seenThrough = [] ∧ ∀ db, w.db = .ok db →
        Received clock.receiveTime db.bundles ∧ db.unread w.seenThrough = [] := by
  have hkept : s.db.unread w.seenThrough = [] ∧
      (0 ≤ w.seenThrough ∧ w.seenThrough ≤ clock.receiveTime) := by
    rcases writeBundle_seenThrough lib s bundle builder info old claimChain clock with h | h
    · rw [hw, h]
      exact ⟨hunread, by omega⟩
    · rw [hw, h]
      exact ⟨hreceived.unread_eq_nil (by omega) hfits, by omega⟩
  refine ⟨hkept.2, hkept.1, ?_⟩
  intro db hdb
  rw [hw] at hdb
  rcases writeBundle_bundles hdb with ⟨-, hbundles⟩ | ⟨location, hretain, hlocation, hbundles⟩
  · unfold Db.unread at hkept ⊢
    rw [hbundles]
    exact ⟨hreceived.mono (by omega) hfits, hkept.1⟩
  · have hkey : location = packSigned clock.receiveTime := by
      rw [encodeMuts_of_fits (by omega)] at hlocation
      exact (Except.ok.inj hlocation).symm
    have hput : Received clock.receiveTime db.bundles := by
      rw [hbundles, hkey]
      exact hreceived.put hlater hfits bundle
    have hlast : w.seenThrough = clock.receiveTime := by
      have h := (writeBundle_ok hdb).2
      rw [if_pos hretain] at h
      rw [hw]
      exact h
    rw [hlast]
    exact ⟨hput, hput.unread_eq_nil (le_refl _) hfits⟩

/-- **The transaction** writes the same in both stores and leaves them alike, whether it
is rolled back or committed. -/
theorem Alike.write {lib : Externals} {now : Int} {s s' : Store} (h : Alike now s s')
    (hunread : s.db.unread s.seenThrough = []) {bundle : Decomposition} {builder : BundleBuilder}
    {info : BundleInfo} {old : Option BundleInfo} {claimChain : Bool} {clock : Clock}
    (hlater : now < clock.receiveTime) (hfits : clock.receiveTime + 1 < 2 ^ 63)
    {w w' : Written} (hw : w = writeBundle lib s bundle builder info old claimChain clock)
    (hw' : w' = writeBundle lib s' bundle builder info old claimChain clock) :
    w.db = w'.db ∧
      Alike clock.receiveTime
        { s with seenContainers := w.seenContainers, seenThrough := w.seenThrough }
        { s' with seenContainers := w'.seenContainers, seenThrough := w'.seenThrough } ∧
      ∀ db, w.db = .ok db → Alike clock.receiveTime
        { s with db, seenContainers := w.seenContainers, seenThrough := w.seenThrough }
        { s' with db, seenContainers := w'.seenContainers, seenThrough := w'.seenThrough } := by
  have hsame : w.seenContainers = w'.seenContainers ∧ w.db = w'.db := by
    rw [hw, hw']
    exact writeBundle_congr h.db h.seenContainers h.applyChanges ..
  obtain ⟨hcursor, hrolled, hcommitted⟩ :=
    writeBundle_unread h.received h.cursor hunread hlater hfits hw
  obtain ⟨hcursor', hrolled', hcommitted'⟩ :=
    writeBundle_unread (h.db ▸ h.received) h.cursor' (h.unread ▸ hunread) hlater hfits hw'
  refine ⟨hsame.2, ⟨h.db, hsame.1, h.applyChanges, h.received.mono (by omega) hfits, hcursor,
    hcursor', Or.inr ⟨hrolled, hrolled'⟩⟩, ?_⟩
  intro db hdb
  obtain ⟨hreceived, hnil⟩ := hcommitted db hdb
  obtain ⟨-, hnil'⟩ := hcommitted' db (hsame.2 ▸ hdb)
  exact ⟨rfl, hsame.1, h.applyChanges, hreceived, hcursor, hcursor', Or.inr ⟨hnil, hnil'⟩⟩

/-- **A call** on stores that are alike gets the same reply and leaves them alike. -/
theorem Alike.apply {lib : Externals} {now : Int} {s s' : Store} (h : Alike now s s') {call : Call}
    (hquiet : call.Quiet) (hlater : now < call.clock.receiveTime)
    (hfits : call.clock.receiveTime + 1 < 2 ^ 63) :
    Alike call.clock.receiveTime (call.run lib s).store (call.run lib s').store ∧
      (call.run lib s).delivered = (call.run lib s').delivered ∧
      (call.run lib s).result = (call.run lib s').result := by
  have hq : Quiet call.callback := hquiet
  obtain ⟨hrefreshed, hdelivered, hresult, hunread⟩ := h.refresh hq
  unfold Call.run applyBundle
  generalize refreshHelper s call.callback = r at *
  generalize refreshHelper s' call.callback = r' at *
  cases call.bundle.getBuilder lib with
  | error e => exact ⟨h.later hlater hfits, rfl, rfl⟩
  | ok builder =>
      simp only [← hresult, ← hdelivered]
      generalize BundleInfo.ofBuilder builder (lib.digest call.bundle.bundleBytes) = info
      cases r.result with
      | error e => exact ⟨hrefreshed.later hlater hfits, rfl, rfl⟩
      | ok count =>
          simp only [← hrefreshed.db]
          cases isNeeded info (r.store.db.chains.get? info.chain.toBytes) with
          | error e => exact ⟨hrefreshed.later hlater hfits, rfl, rfl⟩
          | ok needed =>
              cases needed with
              | false => exact ⟨hrefreshed.later hlater hfits, rfl, rfl⟩
              | true =>
                  simp only
                  obtain ⟨hdb, hrolled, hcommitted⟩ := @Alike.write lib now r.store r'.store
                    hrefreshed hunread call.bundle builder info
                    (r.store.db.chains.get? info.chain.toBytes) call.claimChain call.clock hlater
                    hfits _ _ rfl rfl
                  rw [← hrefreshed.db] at hrolled
                  rw [← hdb]
                  cases hw : (writeBundle lib r.store call.bundle builder info
                    (r.store.db.chains.get? info.chain.toBytes) call.claimChain call.clock).db with
                  | error e => exact ⟨hrolled, rfl, rfl⟩
                  | ok db =>
                      have ha := hcommitted db hw
                      cases hcallback : call.callback with
                      | none => exact ⟨ha, rfl, rfl⟩
                      | some f =>
                          have hf := hquiet f hcallback call.bundle
                          simp only [hf]
                          exact ⟨ha, trivial, trivial⟩

/-- **A call that raises** in one of the two runs and is left out of the other. -/
theorem Alike.raised {lib : Externals} {now : Int} {s s' : Store} (h : Alike now s s') {call : Call}
    (hquiet : call.Quiet) (hlater : now < call.clock.receiveTime)
    (hfits : call.clock.receiveTime + 1 < 2 ^ 63)
    (hraises : (StoreCall.apply call).raises lib s = true)
    (hunread : s.db.unread s.seenThrough = [])
    (hknown : ∀ change ∈ call.attempted lib s, Known s.db.contents s.seenContainers change) :
    Alike call.clock.receiveTime (call.run lib s).store s' := by
  have hunread' : s'.db.unread s'.seenThrough = [] := h.unread ▸ hunread
  have hq : Quiet call.callback := hquiet
  have hbound := h.received.fits
  have hcursor := h.cursor
  have hr := refreshHelper_quiet h.received hq hcursor.1 (by omega)
  have hstore : (refreshHelper s call.callback).store = s := by
    rw [hr.store, hr.same hunread]
  unfold StoreCall.raises at hraises
  simp only at hraises
  unfold Call.run applyBundle at hraises ⊢
  simp only [hstore, hr.result] at hraises ⊢
  cases hopen : call.bundle.getBuilder lib with
  | error e => exact h.later hlater hfits
  | ok builder =>
      simp only [hopen] at hraises ⊢
      generalize hinfo : BundleInfo.ofBuilder builder (lib.digest call.bundle.bundleBytes) = info
      rw [hinfo] at hraises
      cases hneeded : isNeeded info (s.db.chains.get? info.chain.toBytes) with
      | error e => exact h.later hlater hfits
      | ok needed =>
          cases needed with
          | false => exact h.later hlater hfits
          | true =>
              simp only [hneeded] at hraises ⊢
              have hseen := writeBundle_seen hopen hinfo.symm hneeded hknown
              obtain ⟨hcursor', hrolled, -⟩ := @writeBundle_unread lib now s h.received h.cursor
                hunread call.bundle builder info (s.db.chains.get? info.chain.toBytes)
                call.claimChain call.clock hlater hfits _ rfl
              cases hw : (writeBundle lib s call.bundle builder info
                (s.db.chains.get? info.chain.toBytes) call.claimChain call.clock).db with
              | error e =>
                  have hcursor'' := h.cursor'
                  exact ⟨h.db, hseen.trans h.seenContainers, h.applyChanges,
                    h.received.mono (by omega) hfits, hcursor', by omega,
                    Or.inr ⟨hrolled, hunread'⟩⟩
              | ok db =>
                  -- a call that is carried out raises in its callback at most
                  exfalso
                  rw [hw] at hraises
                  cases hcallback : call.callback with
                  | none => simp [hcallback] at hraises
                  | some f => simp [hcallback, hquiet f hcallback call.bundle] at hraises

theorem Alike.saved {lib : Externals} {now : Int} {s s' : Store} (h : Alike now s s')
    (key : Bytes) :
    Alike now (saveSymmetricKey lib s key).store (saveSymmetricKey lib s' key).store ∧
      (saveSymmetricKey lib s key).delivered = (saveSymmetricKey lib s' key).delivered ∧
      (saveSymmetricKey lib s key).result = (saveSymmetricKey lib s' key).result := by
  unfold saveSymmetricKey
  by_cases hlength : key.length ≠ 32
  · rw [if_pos hlength, if_pos hlength]
    exact ⟨h, rfl, rfl⟩
  · rw [if_neg hlength, if_neg hlength]
    dsimp only
    cases encodeMuts (lib.shorterHash key).val with
    | error e => exact ⟨h, rfl, rfl⟩
    | ok location =>
        refine ⟨⟨?_, h.seenContainers, h.applyChanges, h.received, h.cursor, h.cursor', h.same⟩,
          rfl, rfl⟩
        dsimp only
        rw [h.db]

/-! ## §5. Whole sessions. -/

/-- **One more call** of the session: it goes on in step with the session without the
raising calls, which gets the same reply unless the call raises. -/
theorem step_alike {lib : Externals} {s s' : Session} (h : Alike s.now s.store s'.store)
    {call : StoreCall} (htimely : Timely s call) (hcareful : Careful lib s call) :
    (call.raises lib s.store = true ∧ Alike (s.step lib call).now (s.step lib call).store s'.store) ∨
      (call.raises lib s.store = false ∧
        (call.run lib s.store).2 = (call.run lib s'.store).2 ∧
        Alike (s.step lib call).now (s.step lib call).store (s'.step lib call).store) := by
  cases call with
  | apply call =>
      obtain ⟨hquiet, hraised, -⟩ := hcareful
      obtain ⟨hlater, hfits⟩ := htimely
      by_cases hraises : (StoreCall.apply call).raises lib s.store = true
      · obtain ⟨hunread, hknown⟩ := hraised hraises
        exact Or.inl ⟨hraises, h.raised hquiet hlater hfits hraises hunread hknown⟩
      · obtain ⟨halike, hdelivered, hresult⟩ := @Alike.apply lib _ _ _ h call hquiet hlater hfits
        refine Or.inr ⟨by simpa using hraises, ?_, halike⟩
        show Reply.mk (call.run lib s.store).delivered ((call.run lib s.store).result.map _)
          = Reply.mk (call.run lib s'.store).delivered ((call.run lib s'.store).result.map _)
        rw [hdelivered, hresult]
  | refresh callback =>
      obtain ⟨halike, hdelivered, hresult, -⟩ := h.refresh hcareful
      refine Or.inr ⟨rfl, ?_, halike⟩
      show Reply.mk (refreshHelper s.store callback).delivered
            ((refreshHelper s.store callback).result.map _)
          = Reply.mk (refreshHelper s'.store callback).delivered
            ((refreshHelper s'.store callback).result.map _)
      rw [hdelivered, hresult]
  | saveSymmetricKey key =>
      obtain ⟨halike, hdelivered, hresult⟩ := @Alike.saved lib _ _ _ h key
      refine Or.inr ⟨rfl, ?_, halike⟩
      show Reply.mk (Lmdb.saveSymmetricKey lib s.store key).delivered
            ((Lmdb.saveSymmetricKey lib s.store key).result.map _)
          = Reply.mk (Lmdb.saveSymmetricKey lib s'.store key).delivered
            ((Lmdb.saveSymmetricKey lib s'.store key).result.map _)
      rw [hdelivered, hresult]
  | reopen =>
      have hfits := h.received.fits
      exact Or.inr ⟨rfl, rfl, h.db, rfl, h.applyChanges, h.received, ⟨le_refl _, hfits.1⟩,
        ⟨le_refl _, hfits.1⟩, Or.inl rfl⟩

/-- The containers that are marked as seen, and the ones that the accepted bundles name,
are defined. -/
structure AllDefined (s : Session) : Prop where
  marked : ∀ muid ∈ s.store.seenContainers, s.store.db.contents.Defines muid
  named : ∀ op ∈ s.history, ∀ muid, container? op = some muid → muid.timestamp ≠ -1 →
    s.store.db.contents.Defines muid

/-- A bundle that is not needed marks no container. -/
theorem applyBundle_refused {lib : Externals} {s : Store} {call : Call}
    (h : (call.run lib s).result = .ok false) :
    (call.run lib s).store.seenContainers = s.seenContainers := by
  unfold Call.run applyBundle at h ⊢
  cases hopen : call.bundle.getBuilder lib with
  | error e => rfl
  | ok builder =>
      simp only [hopen] at h ⊢
      generalize BundleInfo.ofBuilder builder (lib.digest call.bundle.bundleBytes) = info at h ⊢
      cases hr : (refreshHelper s call.callback).result with
      | error e => rfl
      | ok count =>
          simp only [hr] at h ⊢
          cases hn : isNeeded info
              ((refreshHelper s call.callback).store.db.chains.get? info.chain.toBytes) with
          | error e => rfl
          | ok needed =>
              cases needed with
              | false => rfl
              | true =>
                  exfalso
                  simp only [hn] at h
                  split at h
                  · simp at h
                  · split at h
                    · simp at h
                    · split at h <;> simp at h

/-- An accepted bundle defines what it names and marks. -/
theorem AllDefined.accepted {lib : Externals} {s : Session} (h : AllDefined s) {call : Call}
    (hnamed : ∀ op ∈ call.ops lib s.store, ∀ muid, container? op = some muid →
      muid.timestamp ≠ -1 → Introduced s.store.db.contents (call.ops lib s.store) muid)
    {builder : BundleBuilder} (hopen : call.bundle.getBuilder lib = .ok builder)
    {info : BundleInfo}
    (hinfo : info = .ofBuilder builder (lib.digest call.bundle.bundleBytes)) {old : Option BundleInfo}
    {store : Store} (hw : Committed lib s.store call.bundle builder info old call.clock
      store.seenContainers store.db) :
    AllDefined ⟨store, call.clock.receiveTime, s.history ++ call.ops lib s.store⟩ := by
  obtain ⟨changes, hchanges, happlied⟩ := hw.contents
  have hintro := applyChangesFrom_introduces happlied
  have hops : opsFrom info 1 (if s.store.applyChanges then changes else [])
      = call.ops lib s.store := by
    have hopened : call.bundle.opened lib s.store.db.symmetricKey = .ok ⟨info, changes⟩ := by
      unfold Decomposition.opened
      rw [hinfo]
      exact bind_eq_ok.mpr ⟨builder, hopen, bind_eq_ok.mpr ⟨changes, hchanges, rfl⟩⟩
    unfold Call.ops
    rw [hopened]
    simp only
    split_ifs
    · rfl
    · rfl
  rw [hops] at hintro
  refine ⟨?_, ?_⟩
  · intro muid hmuid
    rcases hintro.marked muid hmuid with hseen | hdefined
    · exact hintro.kept muid (h.marked muid hseen)
    · exact hdefined
  · intro op hop muid hmuid hglobal
    rcases List.mem_append.mp hop with hop | hop
    · exact hintro.kept muid (h.named op hop muid hmuid hglobal)
    · rcases hnamed op hop muid hmuid hglobal with hdefined | ⟨op', hop', hentry | hcontainer⟩
      · exact hintro.kept muid hdefined
      · rcases hintro.entered op' hop' muid hentry hglobal with hseen | hdefined | hdefined
        · exact hintro.kept muid (h.marked muid hseen)
        · exact hintro.kept muid hdefined
        · exact hdefined
      · obtain ⟨builder', hchange, haddress⟩ := hcontainer
        exact hintro.defined op' hop' builder' muid hchange haddress

/-- **One more call** keeps every named container defined. -/
theorem AllDefined.step {lib : Externals} {s s' : Session} (h : AllDefined s)
    (halike : Alike s.now s.store s'.store) {call : StoreCall} (htimely : Timely s call)
    (hcareful : Careful lib s call) : AllDefined (s.step lib call) := by
  cases call with
  | apply call =>
      obtain ⟨hquiet, hraised, hnamed⟩ := hcareful
      obtain ⟨hlater, hfits⟩ := htimely
      have hstep := applyBundle_step lib s.store call.bundle call.callback call.claimChain call.clock
      cases hstep with
      | kept hdb hflag hresult =>
          have hseen : (call.run lib s.store).store.seenContainers = s.store.seenContainers := by
            cases hr : (call.run lib s.store).result with
            | error e =>
                have hraises : (StoreCall.apply call).raises lib s.store = true := by
                  unfold StoreCall.raises
                  simp only [hr]
                obtain ⟨hunread, hknown⟩ := hraised hraises
                have hafter := halike.raised hquiet hlater hfits hraises hunread hknown
                exact hafter.seenContainers.trans halike.seenContainers.symm
            | ok needed =>
                cases needed with
                | false => exact applyBundle_refused hr
                | true => exact absurd hr hresult
          have hhistory : (s.step lib (.apply call)).history = s.history := by
            unfold Session.step
            dsimp only
            split
            · rename_i hr
              exact absurd hr hresult
            · rfl
          refine ⟨?_, ?_⟩
          · intro muid hmuid
            have hmuid' : muid ∈ s.store.seenContainers := hseen ▸ hmuid
            have hdefined := h.marked muid hmuid'
            rw [← hdb] at hdefined
            exact hdefined
          · intro op hop muid hmuid hglobal
            rw [hhistory] at hop
            have hdefined := h.named op hop muid hmuid hglobal
            rw [← hdb] at hdefined
            exact hdefined
      | committed builder hopen info hinfo hneeded hw hflag hresult =>
          have htrue : (call.run lib s.store).result = .ok true := by
            rcases hresult with htrue | ⟨f, e, hf, hraise, -⟩
            · exact htrue
            · rw [hquiet f hf] at hraise
              simp at hraise
          have hnext : s.step lib (.apply call) = ⟨(call.run lib s.store).store,
              call.clock.receiveTime, s.history ++ call.ops lib s.store⟩ := by
            unfold Session.step
            dsimp only
            rw [htrue]
          rw [hnext]
          exact h.accepted (hnamed htrue) hopen hinfo hw
  | refresh callback => exact ⟨h.marked, h.named⟩
  | saveSymmetricKey key =>
      show AllDefined { s with store := (Lmdb.saveSymmetricKey lib s.store key).store }
      unfold Lmdb.saveSymmetricKey
      by_cases hlength : key.length ≠ 32
      · rw [if_pos hlength]
        exact h
      · rw [if_neg hlength]
        dsimp only
        cases encodeMuts (lib.shorterHash key).val with
        | error e => exact h
        | ok location => exact ⟨h.marked, h.named⟩
  | reopen =>
      refine ⟨?_, h.named⟩
      intro muid hmuid
      exact absurd hmuid (by simp [Session.step, StoreCall.run])

/-- **Rolled back calls leave nothing.** -/
theorem session_alike {lib : Externals} {calls : List StoreCall} :
    ∀ {s s' : Session}, Alike s.now s.store s'.store → AllDefined s →
      Machine.AllSteps (Session.step lib) (fun s call => Timely s call ∧ Careful lib s call) s calls →
      AllDefined (Machine.run (Session.step lib) s calls) ∧
        replies lib s' (withoutRaising lib s calls) = repliesKept lib s calls ∧
        (Machine.run (Session.step lib) s' (withoutRaising lib s calls)).store.db
          = (Machine.run (Session.step lib) s calls).store.db := by
  induction calls with
  | nil => exact fun halike hdefined _ => ⟨hdefined, rfl, halike.db.symm⟩
  | cons call rest ih =>
      intro s s' halike hdefined hall
      obtain ⟨⟨htimely, hcareful⟩, hrest⟩ := hall
      have hdefined' := hdefined.step halike htimely hcareful
      unfold withoutRaising repliesKept
      rcases step_alike halike htimely hcareful with ⟨hraises, hnext⟩ | ⟨hraises, hreply, hnext⟩
      · rw [if_pos hraises, if_pos hraises]
        exact ih hnext hdefined' hrest
      · rw [hraises]
        obtain ⟨h1, h2, h3⟩ := ih hnext hdefined' hrest
        refine ⟨h1, ?_, h3⟩
        show (call.run lib s'.store).2 :: replies lib (s'.step lib call) _ = _ :: _
        rw [← hreply, h2]

/-- The container that the entries below are for; no bundle defines it. -/
def undefinedContainer : MuidBuilder := ⟨999, 7, 1⟩

/-- An entry for it. -/
def entryForUndefined : ChangeBuilder :=
  .entry {
    container := some undefinedContainer
    behavior := .box
    contains := some (.value (.characters "a")) }

/-- The start of a chain, a bundle that raises after its first change, the same bundle
without the change that raises, and one that raises at its first change. -/
def markingChain : List BundleBuilder :=
  [startingBundle 1000 5 [],
    followingBundle 2000 0 (startingBundle 1000 5 []) [entryForUndefined, .unset],
    followingBundle 2000 0 (startingBundle 1000 5 []) [entryForUndefined],
    followingBundle 2000 0 (startingBundle 1000 5 []) [.unset]]

/-- The call with bundle `n` at a time. -/
def markingCall (n : Byte) (receiveTime : Int) : StoreCall :=
  .apply { bundle := sampleBundle n, clock := { receiveTime } }

/-- A way to check that a call is careful: if it raises, nothing is unread and its loop
gets to no entry, and its bundle has entries under full addresses only. -/
theorem careful_of_check {lib : Externals} {s : Session} {call : Call}
    (hcallback : call.callback = none)
    (hraised : (StoreCall.apply call).raises lib s.store = false ∨
      (s.store.db.unread s.store.seenThrough = [] ∧
        (call.attempted lib s.store).all (fun change => (entryContainer change).isNone) = true))
    (hops : (call.ops lib s.store).all
      (fun op => decide (container? op = entryContainer op.change)) = true) :
    Careful lib s (.apply call) := by
  refine ⟨?_, ?_, ?_⟩
  · intro f hf
    rw [hcallback] at hf
    exact absurd hf (by simp)
  · intro hraises
    rcases hraised with hraised | ⟨hunread, hnone⟩
    · rw [hraised] at hraises
      exact absurd hraises (by simp)
    · refine ⟨hunread, ?_⟩
      intro change hchange
      have hcontainer := Option.isNone_iff_eq_none.mp (List.all_eq_true.mp hnone change hchange)
      cases change with
      | entry entry =>
          refine Or.inr ?_
          intro muid hmuid
          have hentry : entryContainer (.entry entry) = some muid := hmuid
          rw [hcontainer] at hentry
          exact absurd hentry (by simp)
      | _ => trivial
  · intro _ op hop muid hmuid _
    have hsame := of_decide_eq_true (List.all_eq_true.mp hops op hop)
    exact Or.inr ⟨op, hop, Or.inl (hsame ▸ hmuid)⟩

end Lmdb

end Gink
