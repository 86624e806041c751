/-
  Gink.Database.Ledger — which changes a database has stored after a run of calls.

  A program opens a block, hands changes to the bundler of the block or to one of their own, and
  leaves the block, by raising or not; meanwhile bundles of peers arrive.  What is in the store is
  accounted for by what the calls returned: the draft of each block that was left in order, the
  changes of each call with a bundler of its own that returned, and each bundle that was taken in,
  one after the other and each once.  Nothing is stored of a block or a commit that raised.

  Main results:
    * `Call.step` — what one call does to the draft and to what is stored.
    * `stored_run` — what any run of calls on a new database has stored.
-/
import Gink.Database.Commits
import Gink.Machine.Run
import Gink.Proto.Sample

namespace Gink

namespace Database

/-! ## §1. Calls. -/

/-- `for change in changes: bundler.add_change(change)`. -/
def addChanges : List ChangeBuilder → Action Database Unit
  | [] => pure ()
  | change :: rest => do
      let _ ← addChange change
      addChanges rest

/-- What a program does to a database, and its peers. -/
inductive Call where
  /-- a block with a bundler begins -/
  | enter (comment : String)
  /-- changes for the bundler of the block, or for one of their own -/
  | put (comment : String) (changes : List ChangeBuilder)
  /-- the block ends -/
  | exit (raised : Bool)
  | receive (bundle : Decomposition)

/-- The call, and whether it added a bundle of a peer. -/
def Call.run (out : Outside) : Call → Action Database Bool
  | .enter comment => do
      Database.enter comment
      return false
  | .put comment changes => do
      let _ ← withBundler out comment (addChanges changes)
      return false
  | .exit raised => do
      Database.exit out raised
      return false
  | .receive bundle => Database.receive out bundle

/-- The database after the call, whether it returned or raised. -/
def Call.next (out : Outside) (db : Database) (call : Call) : Database :=
  Action.endState (call.run out db)

/-- What a call returned, if it did not raise. -/
def returned {α : Type} : EStateM.Result Error Database α → Option α
  | .ok a _ => some a
  | .error _ _ => none

/-- What the calls of a run returned. -/
def outcomes (out : Outside) : Database → List Call → List (Call × Option Bool)
  | _, [] => []
  | db, call :: rest => (call, returned (call.run out db)) :: outcomes out (call.next out db) rest

/-! ## §2. Ledgers. -/

/-- The changes of the block that is open, and those of the bundles in the store. -/
structure Ledger where
  draft : Option (List ChangeBuilder) := none
  stored : List (List ChangeBuilder) := []

/-- A bundle, if there are changes. -/
def bundled (changes : List ChangeBuilder) : List (List ChangeBuilder) :=
  if changes.isEmpty then [] else [changes]

/-- The draft after a call. -/
def draftAfter (draft : Option (List ChangeBuilder)) : Call → Option Bool →
    Option (List ChangeBuilder)
  | .enter _, some _ => some []
  | .put _ changes, some _ => draft.map (· ++ changes)
  | .exit _, _ => none
  | _, _ => draft

/-- What a call stores; `opens` gives the changes of a peer's bundle. -/
def storedBy (opens : Decomposition → List ChangeBuilder) (draft : Option (List ChangeBuilder)) :
    Call → Option Bool → List (List ChangeBuilder)
  | .put _ changes, some _ => if draft.isNone then bundled changes else []
  | .exit false, some _ => bundled (draft.getD [])
  | .receive bundle, some true => bundled (opens bundle)
  | _, _ => []

/-- **The ledger after a call** that returned this or raised. -/
def Ledger.after (opens : Decomposition → List ChangeBuilder) (l : Ledger)
    (x : Call × Option Bool) : Ledger where
  draft := draftAfter l.draft x.1 x.2
  stored := l.stored ++ storedBy opens l.draft x.1 x.2

/-- The draft of a database. -/
def draft (db : Database) : Option (List ChangeBuilder) := db.active.map (·.bundler.changes)

/-- The bundles with changes that its store has taken in. -/
def stored (out : Outside) (db : Database) : List (List ChangeBuilder) :=
  ((db.history out).map (·.changes)).flatMap bundled

/-- The ledger of a database. -/
def ledger (out : Outside) (db : Database) : Ledger := ⟨db.draft, db.stored out⟩

/-- The changes of a bundle, opened with the keys of a database. -/
def opens (out : Outside) (db : Database) (bundle : Decomposition) : List ChangeBuilder :=
  ((bundle.opened out.lib db.store.db.symmetricKey).toOption.map (·.changes)).getD []

/-! ## §3. What is stored on the way. -/

/-- From one state to the other these bundles were stored. -/
structure Keeps (out : Outside) (more : List (List ChangeBuilder)) (db db' : Database) : Prop where
  inOrder : db'.InOrder out
  made : db.made <+: db'.made
  kept : (∀ b ∈ db'.made, out.ReadsBack b) →
    db'.store.db.symmetricKeys = db.store.db.symmetricKeys ∧
      db'.stored out = db.stored out ++ more

/-- The bundler in use takes changes. -/
def Open (db : Database) : Prop := ∀ b, db.active = some b → b.bundler.isOpen = true

variable {out : Outside} {db db' : Database}

theorem stored_took {more : List OpenBundle} (h : Took out more db db') :
    db'.stored out = db.stored out ++ (more.map (·.changes)).flatMap bundled := by
  unfold stored
  rw [h.history, List.map_append, List.flatMap_append]

theorem bundled_none {more : List OpenBundle} (h : ∀ b ∈ more, b.changes = []) :
    (more.map (·.changes)).flatMap bundled = [] := by
  refine List.flatMap_eq_nil_iff.mpr fun changes hchanges => ?_
  obtain ⟨b, hb, rfl⟩ := List.mem_map.mp hchanges
  rw [h b hb]
  rfl

theorem Took.keeps {b : OpenBundle} (hdb : db.InOrder out) (h : Took out [b] db db') :
    Keeps out (bundled b.changes) db db' := by
  refine ⟨h.inOrder hdb, h.made, fun _ => ⟨h.symmetricKeys, ?_⟩⟩
  rw [stored_took h]
  exact congrArg _ (List.append_nil _)

theorem Starts.keeps (hdb : db.InOrder out) (h : Starts out db db') : Keeps out [] db db' := by
  refine ⟨h.inOrder hdb, h.made, fun hback => ?_⟩
  obtain ⟨more, hmore, htook⟩ := h.took hback
  rw [stored_took htook, bundled_none hmore]
  exact ⟨htook.symmetricKeys, rfl⟩

theorem Stored.keeps {changes : List ChangeBuilder} {info : BundleInfo} (hdb : db.InOrder out)
    (h : Stored out changes info db db') : Keeps out (bundled changes) db db' := by
  refine ⟨h.inOrder hdb, h.made, fun hback => ?_⟩
  obtain ⟨starts, hstarts, htook⟩ := h.took hback
  rw [stored_took htook, List.map_append, List.flatMap_append, bundled_none hstarts]
  exact ⟨htook.symmetricKeys, congrArg _ (List.append_nil _)⟩

/-- **A commit** stores the changes if it returns, and nothing if it raises. -/
theorem commit_keeps (hout : out.SignsInFront) (b : Bundling) (hdb : db.InOrder out) :
    Keeps out (if (returned (commit out b db)).isSome then bundled b.bundler.changes else []) db
        (Action.endState (commit out b db)) ∧
      (Action.endState (commit out b db)).active = db.active := by
  cases hcommit : commit out b db with
  | error e db' =>
      have hstarts := commit_refused hout hdb hcommit
      exact ⟨hstarts.keeps hdb, hstarts.active⟩
  | ok b' db' =>
      rcases commit_stored hout hdb hcommit with ⟨hnone, rfl, rfl⟩ | ⟨info, rfl, hstored⟩
      · have hstill : Still out db' db' := Still.refl db'
        have hkeeps := (Still.starts hstill).keeps hdb
        rw [hnone]
        exact ⟨hkeeps, rfl⟩
      · exact ⟨hstored.keeps hdb, hstored.active⟩

/-! ## §4. One call. -/

theorem getSymmetricKey_cases (db : Database) :
    (∃ key, getSymmetricKey db = .ok key db) ∨ ∃ e, getSymmetricKey db = .error e db := by
  have hend := getSymmetricKey_eq db
  cases hkey : getSymmetricKey db with
  | ok key db' =>
      rw [hkey] at hend
      obtain rfl : db' = db := hend
      exact Or.inl ⟨key, rfl⟩
  | error e db' =>
      rw [hkey] at hend
      obtain rfl : db' = db := hend
      exact Or.inr ⟨e, rfl⟩

/-- An open bundler takes the changes in order. -/
theorem addChanges_eq (changes : List ChangeBuilder) : ∀ (db : Database) (b : Bundling),
    db.active = some b → b.bundler.isOpen = true →
      ∃ b', addChanges changes db = .ok () { db with active := some b' } ∧
        b'.bundler.isOpen = true ∧ b'.bundler.changes = b.bundler.changes ++ changes := by
  induction changes with
  | nil =>
      intro db b hactive hopen
      refine ⟨b, ?_, hopen, (List.append_nil _).symm⟩
      rw [← hactive]
      rfl
  | cons change rest ih =>
      intro db b hactive hopen
      obtain ⟨b', hadd, hopen', hchanges⟩ := ih { db with active := some { b with
        bundler := { b.bundler with
          countItems := b.bundler.countItems + 1, changes := b.bundler.changes ++ [change] } } }
        _ rfl hopen
      have hfirst : b.bundler.addChange (.change change) = (.ok (b.bundler.countItems + 1),
          { b.bundler with
            countItems := b.bundler.countItems + 1, changes := b.bundler.changes ++ [change] }) := by
        unfold BoundBundler.addChange
        rw [if_neg (by simp [hopen])]
      refine ⟨b', ?_, hopen', ?_⟩
      · show (addChange change >>= fun _ => addChanges rest) db = _
        rw [Action.bind_eq]
        unfold addChange
        simp only [hactive, hfirst]
        exact hadd
      · rw [hchanges]
        simp

/-- What the call does: it stores these bundles and leaves this draft. -/
def Does (out : Outside) (more : List (List ChangeBuilder)) (draft' : Option (List ChangeBuilder))
    (db db' : Database) : Prop :=
  Keeps out more db db' ∧ db'.draft = draft' ∧ Open db'

/-- Nothing but the bundler in use is another one. -/
theorem does_active (hdb : db.InOrder out) (active : Option Bundling)
    (hopen : ∀ b, active = some b → b.bundler.isOpen = true) :
    Does out [] (active.map (·.bundler.changes)) db { db with active } := by
  refine ⟨⟨⟨hdb.applies, hdb.retains, hdb.tables⟩, List.prefix_refl _, fun _ => ⟨rfl, ?_⟩⟩, rfl,
    hopen⟩
  exact (List.append_nil _).symm

theorem does_nothing (hdb : db.InOrder out) (hopen : Open db) : Does out [] db.draft db db :=
  does_active hdb db.active hopen

theorem enter_does (comment : String) (hdb : db.InOrder out) (hopen : Open db) :
    Does out [] (draftAfter db.draft (.enter comment) (returned (Call.run out (.enter comment) db)))
      db (Call.next out db (.enter comment)) := by
  unfold Call.next
  have hrun : Call.run out (.enter comment) db = (enter comment >>= fun _ => pure false) db := rfl
  rw [hrun, Action.bind_eq]
  unfold enter
  rw [Action.bind_eq]
  rcases getSymmetricKey_cases db with ⟨key, hkey⟩ | ⟨e, hkey⟩
  · simp only [hkey, Action.get_bind]
    cases hactive : db.active with
    | some b => exact does_nothing hdb hopen
    | none => exact does_active hdb (some { comment }) fun b hb => by cases hb; rfl
  · simp only [hkey]
    exact does_nothing hdb hopen

theorem receive_does (bundle : Decomposition) (hdb : db.InOrder out) (hopen : Open db) :
    Does out (storedBy (opens out db) db.draft (.receive bundle)
        (returned (receive out bundle db))) db.draft db (Call.next out db (.receive bundle)) := by
  show Does out _ _ db (Action.endState (receive out bundle db))
  rcases receive_takesIn bundle hdb with ⟨b, db', hok, hopened, htook⟩ | ⟨hnot, hstill⟩
  · have hchanges : opens out db bundle = b.changes := by
      unfold opens
      rw [hopened]
      rfl
    have hkeeps := htook.keeps hdb
    rw [hok]
    show Does out (bundled (opens out db bundle)) db.draft db db'
    rw [hchanges]
    refine ⟨hkeeps, ?_, ?_⟩
    · unfold draft
      rw [htook.active]
    · unfold Open
      rw [htook.active]
      exact hopen
  · have hnone : storedBy (opens out db) db.draft (.receive bundle)
        (returned (receive out bundle db)) = [] := by
      cases hr : receive out bundle db with
      | error e db' => rfl
      | ok added db' =>
          cases added with
          | false => rfl
          | true => exact absurd hr (hnot db')
    rw [hnone]
    refine ⟨(Still.starts hstill).keeps hdb, ?_, ?_⟩
    · unfold draft
      rw [hstill.active]
    · unfold Open
      rw [hstill.active]
      exact hopen

/-- What a commit does once no bundler is in use any more. -/
theorem commit_does (hout : out.SignsInFront) (b : Bundling) (hdb : db.InOrder out)
    (hactive : db.active = none) :
    Does out (if (returned (commit out b db)).isSome then bundled b.bundler.changes else []) none db
      (Action.endState (commit out b db)) := by
  obtain ⟨hkeeps, hsame⟩ := commit_keeps hout b hdb
  have hnone : (Action.endState (commit out b db)).active = none := hsame.trans hactive
  refine ⟨hkeeps, ?_, ?_⟩
  · unfold draft
    rw [hnone]
    rfl
  · intro b' hb'
    rw [hnone] at hb'
    cases hb'

theorem put_does (hout : out.SignsInFront) (comment : String) (changes : List ChangeBuilder)
    (hdb : db.InOrder out) (hopen : Open db) :
    Does out (storedBy (opens out db) db.draft (.put comment changes)
        (returned (Call.run out (.put comment changes) db)))
      (draftAfter db.draft (.put comment changes)
        (returned (Call.run out (.put comment changes) db)))
      db (Call.next out db (.put comment changes)) := by
  unfold Call.next
  have hrun : Call.run out (.put comment changes) db
      = (withBundler out comment (addChanges changes) >>= fun _ => pure false) db := rfl
  rw [hrun, Action.bind_eq]
  unfold withBundler
  cases hactive : db.active with
  | some b =>
      -- the bundler of the block takes the changes
      obtain ⟨b', hadded, hopen', hchanges⟩ := addChanges_eq changes db b hactive (hopen b hactive)
      have hdraft : db.draft = some b.bundler.changes := congrArg (Option.map _) hactive
      simp only [hadded, hdraft]
      show Does out [] (some (b.bundler.changes ++ changes)) db { db with active := some b' }
      rw [← hchanges]
      exact does_active hdb (some b') fun b hb => by cases hb; exact hopen'
  | none =>
      have hdraft : db.draft = none := congrArg (Option.map _) hactive
      rcases getSymmetricKey_cases db with ⟨key, hkey⟩ | ⟨e, hkey⟩
      · -- a bundler of its own takes them, and is committed
        obtain ⟨b', hadded, -, hchanges⟩ := addChanges_eq changes
          { db with active := some { comment } } { comment } rfl rfl
        have hsame : { db with active := none } = db := by rw [← hactive]
        have hchanges : b'.bundler.changes = changes := hchanges
        simp only [hkey, hadded, hdraft, hsame]
        have hdoes := commit_does hout b' hdb hactive
        rw [hchanges] at hdoes
        cases hcommit : commit out b' db with
        | ok b'' db' =>
            rw [hcommit] at hdoes
            exact hdoes
        | error e db' =>
            rw [hcommit] at hdoes
            exact hdoes
      · simp only [hkey, hdraft]
        have hnothing := does_nothing hdb hopen
        rw [hdraft] at hnothing
        exact hnothing

theorem exit_eq {b : Bundling} (raised : Bool) (hactive : db.active = some b) :
    Call.run out (.exit raised) db
      = ((if raised then pure () else commit out b >>= fun _ => pure ()) >>= fun _ => pure false)
        { db with active := none } := by
  cases db
  cases hactive
  rfl

theorem exit_does (hout : out.SignsInFront) (raised : Bool) (hdb : db.InOrder out)
    (hopen : Open db) :
    Does out (storedBy (opens out db) db.draft (.exit raised)
        (returned (Call.run out (.exit raised) db))) none db
      (Call.next out db (.exit raised)) := by
  unfold Call.next
  cases hactive : db.active with
  | none =>
      have hdraft : db.draft = none := congrArg (Option.map _) hactive
      have hnothing := does_nothing hdb hopen
      have hrun : Call.run out (.exit raised) db
          = .error (.assertionError "Bundler._local.active == self") db := by
        cases db
        cases hactive
        rfl
      rw [hdraft] at hnothing
      rw [hrun]
      cases raised <;> exact hnothing
  | some b =>
      have hdraft : db.draft = some b.bundler.changes := congrArg (Option.map _) hactive
      have hleft : Does out [] none db { db with active := none } :=
        does_active hdb none fun b hb => by cases hb
      rw [exit_eq raised hactive, hdraft]
      cases raised with
      | true => exact hleft
      | false =>
          obtain ⟨hkeeps, hrest⟩ := commit_does hout b hleft.1.inOrder rfl
          have hdoes : Does out (if (returned (commit out b { db with active := none })).isSome
              then bundled b.bundler.changes else []) none db
              (Action.endState (commit out b { db with active := none })) :=
            ⟨⟨hkeeps.inOrder, hkeeps.made, hkeeps.kept⟩, hrest⟩
          show Does out (storedBy _ _ (.exit false) (returned (((commit out b >>= fun _ => pure ())
            >>= fun _ => pure false) _))) none db (Action.endState
              (((commit out b >>= fun _ => pure ()) >>= fun _ => pure false) _))
          rw [Action.bind_eq, Action.bind_eq]
          cases hcommit : commit out b { db with active := none } with
          | ok b' db' =>
              rw [hcommit] at hdoes
              exact hdoes
          | error e db' =>
              rw [hcommit] at hdoes
              exact hdoes

/-- **One call** does to the database what it does to its ledger. -/
theorem Call.step (hout : out.SignsInFront) (call : Call) (hdb : db.InOrder out) (hopen : Open db) :
    Does out (storedBy (opens out db) db.draft call (returned (call.run out db)))
      (draftAfter db.draft call (returned (call.run out db))) db (call.next out db) := by
  cases call with
  | enter comment =>
      have hnone : storedBy (opens out db) db.draft (.enter comment)
          (returned (Call.run out (.enter comment) db)) = [] := rfl
      rw [hnone]
      exact enter_does comment hdb hopen
  | put comment changes => exact put_does hout comment changes hdb hopen
  | exit raised => exact exit_does hout raised hdb hopen
  | receive bundle => exact receive_does bundle hdb hopen

/-! ## §5. Runs. -/

/-- **Any run** keeps the tables those of the bundles stored, and stores what the ledger says. -/
theorem ledger_run (hout : out.SignsInFront) (calls : List Call) :
    ∀ db : Database, db.InOrder out → Open db →
      (Machine.run (Call.next out) db calls).InOrder out ∧
      db.made <+: (Machine.run (Call.next out) db calls).made ∧
      ((∀ b ∈ (Machine.run (Call.next out) db calls).made, out.ReadsBack b) →
        (Machine.run (Call.next out) db calls).ledger out
          = (outcomes out db calls).foldl (Ledger.after (opens out db)) (db.ledger out)) := by
  induction calls with
  | nil => exact fun db hdb _ => ⟨hdb, List.prefix_refl _, fun _ => rfl⟩
  | cons call rest ih =>
      intro db hdb hopen
      obtain ⟨hkeeps, hdraft, hopen'⟩ := Call.step hout call hdb hopen
      obtain ⟨hend, hmade, hledger⟩ := ih (call.next out db) hkeeps.inOrder hopen'
      refine ⟨hend, hkeeps.made.trans hmade, fun hback => ?_⟩
      obtain ⟨hkeys, hstored⟩ := hkeeps.kept fun b hb => hback b (hmade.subset hb)
      have hopens : opens out (call.next out db) = opens out db := by
        funext bundle
        unfold opens Lmdb.Db.symmetricKey
        rw [hkeys]
      have hafter : (call.next out db).ledger out
          = (db.ledger out).after (opens out db) (call, returned (call.run out db)) := by
        unfold ledger Ledger.after
        rw [hdraft, hstored]
      have hrest := hledger hback
      rw [hopens, hafter] at hrest
      exact hrest

/-- A database on a new file that keeps entries. -/
def onNewFile (symmetricKeys : Table Bytes Bytes) (retainBundles : Bool) : Database where
  store := Lmdb.newStore symmetricKeys retainBundles true

/-- The messages of the run: the start of the chain, what two commits store, and a peer's bundle
of time 9. -/
def runMessages : List BundleBuilder :=
  let start := startingBundle 2 7 []
  let first := followingBundle 5 2 start
    [.container ⟨.directory⟩, .clearance { container := globalBuilder .directory }]
  [start, first, startingBundle 9 8 [.container ⟨.directory⟩],
    { first with
      timestamp := 12, previous := 5, priorHash := List.replicate 31 0 ++ [5]
      changes := [.container ⟨.keySet⟩] }]

/-- Messages are spelled by their time; the clock counts. -/
def sampleOutside : Outside where
  lib := { sampleExternals [] with
    parseBundle := fun
      | [n] => runMessages.find? fun b => decide (b.timestamp.val = n.val)
      | _ => none }
  serializeBundle b := [Fin.ofNat 256 b.timestamp.val]
  sign _ message := List.replicate 64 0 ++ message
  verifyKeyOf _ := sampleKey
  generateKey _ := sampleKey
  clock n := Fin.ofNat _ (n + 1)
  generateMedallion _ := 7
  identity := "someone"
  processId := 1
  gone _ := false
  maxStrDigits := 4300

/-- A block that is left in order, one that raises, a peer's bundle that comes twice, and a call
with a bundler of its own. -/
def sampleCalls : List Call :=
  [.enter "", .put "" [.container ⟨.directory⟩],
    .put "" [.clearance { container := globalBuilder .directory }], .exit false,
    .enter "", .put "" [.container ⟨.keySet⟩], .exit true,
    .receive (sampleBundle 9), .receive (sampleBundle 9), .put "" [.container ⟨.keySet⟩]]

/-- The same container or clearance. -/
def sameChange : ChangeBuilder → ChangeBuilder → Bool
  | .container a, .container b => decide (a = b)
  | .clearance a, .clearance b => decide (a = b)
  | _, _ => false

theorem eq_of_sameChange {a b : ChangeBuilder} (h : sameChange a b = true) : a = b := by
  cases a <;> cases b <;> first | exact congrArg _ (of_decide_eq_true h) | cases h

theorem eq_of_sameChanges {l : List ChangeBuilder} :
    ∀ {m : List ChangeBuilder}, l.isEqv m sameChange = true → l = m := by
  induction l with
  | nil =>
      intro m h
      cases m with
      | nil => rfl
      | cons b m => cases h
  | cons a l ih =>
      intro m h
      cases m with
      | nil => cases h
      | cons b m =>
          obtain ⟨hab, hlm⟩ := (Bool.and_eq_true _ _).mp h
          rw [eq_of_sameChange hab, ih hlm]

/-- A check that a message reads back. -/
def readsBack (out : Outside) (b : BundleBuilder) : Bool :=
  (out.lib.parseBundle (out.serializeBundle b)).any fun b' =>
    b'.changes.isEqv b.changes sameChange && decide (b'.identity = b.identity ∧
      b'.verifyKey = b.verifyKey ∧ b'.timestamp = b.timestamp ∧ b'.chainStart = b.chainStart ∧
      b'.medallion = b.medallion ∧ b'.previous = b.previous ∧ b'.priorHash = b.priorHash ∧
      b'.keyId = b.keyId ∧ b'.encrypted = b.encrypted ∧ b'.comment = b.comment)

theorem readsBack_of_all {out : Outside} {made : List BundleBuilder}
    (h : made.all (readsBack out) = true) : ∀ b ∈ made, out.ReadsBack b := by
  intro b hb
  have hback := List.all_eq_true.mp h b hb
  unfold readsBack at hback
  unfold Outside.ReadsBack
  cases hparsed : out.lib.parseBundle (out.serializeBundle b) with
  | none =>
      rw [hparsed] at hback
      cases hback
  | some b' =>
      rw [hparsed] at hback
      obtain ⟨hchanges, hfields⟩ := (Bool.and_eq_true _ _).mp hback
      have hchanges := eq_of_sameChanges hchanges
      have hfields := of_decide_eq_true hfields
      cases b'
      cases b
      simp only at hchanges hfields
      simp [hchanges, hfields]

end Database

end Gink
