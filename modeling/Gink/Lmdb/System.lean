/-
  Gink.Lmdb.System — processes that share an LMDB file.

  Each process has an `LmdbStore` on the file and a `Database` on the store.  LMDB admits
  one write transaction at a time, and a read transaction sees the file as it was when it
  began; so a call is one event.  Plain reads only read the file, and are no events.  An
  event that makes no sense where it comes changes nothing.
-/
import Gink.Lmdb.Chains
import Gink.Machine.Journal
import Gink.Machine.Run

namespace Gink

namespace Lmdb

/-! ## §1. Taking over a chain. -/

/-- `results[claim_builder.medallion] = claim_builder`: a medallion keeps its place. -/
def noteLatest (claims : List ClaimBuilder) (claim : ClaimBuilder) : List ClaimBuilder :=
  if claims.any (fun c => c.medallion = claim.medallion) then
    claims.map fun c => if c.medallion = claim.medallion then claim else c
  else claims ++ [claim]

/-- `_get_claims(trxn)`: the last claim of each medallion. -/
def Db.getClaims (db : Db) : List ClaimBuilder :=
  (db.claims.rows.map (·.2)).foldl noteLatest []

/-- `get_identity(chain)`. -/
def Db.getIdentity (db : Db) (chain : Chain) : Except Error String :=
  orRaise (.valueError "identity for chain not found") (db.identities.get? chain.toBytes)

/-- `_add_claim(trxn, chain)`. -/
def Db.addClaim (db : Db) (pid claimTime : U64) (chain : Chain) : Except Error Db := do
  let key ← encodeMuts claimTime.val
  return { db with
    claims := db.claims.put key ⟨chain.medallion, chain.chainStart, pid, claimTime⟩ }

/-- The loop over the claims: the first one for the identity whose process is gone.  The
transaction is committed also when the loop raises. -/
def Db.reuseFrom (db : Db) (pid : U64) (gone : U64 → Bool) (identity : String) (claimTime : U64) :
    List ClaimBuilder → Db × Except Error (Option BundleInfo)
  | [] => (db, .ok none)
  | old :: rest =>
      let chain := Chain.mk old.medallion old.chainStart
      match db.getIdentity chain with
      | .error e => (db, .error e)
      | .ok chainIdentity =>
          if chainIdentity = identity ∧ gone old.processId = true then
            match db.addClaim pid claimTime chain with
            | .error e => (db, .error e)
            | .ok db' => (db', (getLast db chain).map some)
          else db.reuseFrom pid gone identity claimTime rest

/-- `maybe_reuse_chain(identity, callback)`. -/
def maybeReuseChain (s : Store) (pid : U64) (gone : U64 → Bool) (identity : String)
    (callback : Option Callback) (claimTime : U64) : Outcome (Option BundleInfo) :=
  let refreshed := refreshHelper s callback
  match refreshed.result with
  | .error e => ⟨refreshed.store, refreshed.delivered, .error e⟩
  | .ok _ =>
      let found := s.db.reuseFrom pid gone identity claimTime s.db.getClaims
      ⟨{ refreshed.store with db := found.1 }, refreshed.delivered, found.2⟩

/-! ## §2. The processes. -/

/-- A process with the fields of its store and of its database. -/
structure Process where
  seenContainers : List Muid := []
  seenThrough : Int := 0
  applyChanges : Bool := true
  /-- the chain that `_acquire_appendable_link` was given and has not put to use yet -/
  offered : Option Chain := none
  /-- the chain of the database's `_last_link` -/
  link : Option Chain := none
  /-- for reference: the bundles that refreshes handed to their callbacks -/
  heard : List Decomposition := []

/-- Where a process id stands; ids are not used again. -/
inductive Status where
  | unused
  | running (process : Process)
  | exited

/-- The file and the processes.  `written` and `now` are for reference: the rows of the
bundles table with the process that added them, and the last time of a call. -/
structure System where
  db : Db
  status : U64 → Status := fun _ => .unused
  written : List (U64 × Bytes × Decomposition) := []
  now : Int := 0

/-- One call of one process. -/
inductive Event where
  | start (pid : U64) (applyChanges : Bool)
  | apply (pid : U64) (bundle : Decomposition) (callback : Option Callback) (claimChain : Bool)
      (receiveTime : Int) (claimTime : U64)
  | refresh (pid : U64) (callback : Option Callback)
  | reuse (pid : U64) (identity : String) (callback : Option Callback) (claimTime : U64)
  /-- `_acquire_appendable_link` makes what it was given the link -/
  | adopt (pid : U64)
  | saveSymmetricKey (pid : U64) (key : Bytes)
  | exit (pid : U64)

/-- The bundles and who wrote them. -/
def items (written : List (U64 × Bytes × Decomposition)) : List (U64 × Decomposition) :=
  written.map fun w => (w.1, w.2.2)

/-- The rows that were not there before. -/
def newRows (before after : Table Bytes Decomposition) : List (Bytes × Decomposition) :=
  after.rows.filter fun r => (before.get? r.1).isNone

/-- What the refresh inside a call of `apply_bundle` handed over: the bundle of the call
itself comes last. -/
def refreshedIn (callback : Option Callback) (o : Outcome Bool) : List Decomposition :=
  match callback, o.result with
  | some _, .ok true => o.delivered.dropLast
  | _, _ => o.delivered

namespace System

variable (lib : Externals)

/-- The store of a process. -/
def store (s : System) (p : Process) : Store :=
  ⟨s.db, p.seenContainers, p.seenThrough, p.applyChanges⟩

/-- `is_certainly_gone(process_id)`. -/
def gone (s : System) (pid : U64) : Bool :=
  match s.status pid with
  | .running _ => false
  | _ => true

/-- The system after a call that left the process's store as `t`. -/
def put (s : System) (pid : U64) (t : Store) (p : Process) (now : Int) : System where
  db := t.db
  status := Function.update s.status pid (.running { p with
    seenContainers := t.seenContainers, seenThrough := t.seenThrough })
  written := s.written ++ (newRows s.db.bundles t.db.bundles).map fun r => (pid, r)
  now

/-- A call of `apply_bundle`. -/
def applied (s : System) (pid : U64) (p : Process) (bundle : Decomposition)
    (callback : Option Callback) (claimChain : Bool) (clock : Clock) : System :=
  let o := applyBundle lib (s.store p) bundle callback claimChain clock
  s.put pid o.store { p with
    offered := match o.result with
      | .ok _ => if claimChain then (bundle.getInfo lib).toOption.map (·.chain) else p.offered
      | .error _ => p.offered
    heard := p.heard ++ refreshedIn callback o } clock.receiveTime

/-- A call of `refresh`. -/
def refreshed (s : System) (pid : U64) (p : Process) (callback : Option Callback) : System :=
  let o := Lmdb.refresh (s.store p) callback
  s.put pid o.store { p with heard := p.heard ++ o.delivered } s.now

/-- A call of `maybe_reuse_chain`. -/
def reused (s : System) (pid : U64) (p : Process) (identity : String) (callback : Option Callback)
    (claimTime : U64) : System :=
  let o := maybeReuseChain (s.store p) pid s.gone identity callback claimTime
  s.put pid o.store { p with
    offered := match o.result with
      | .ok found => found.map (·.chain)
      | .error _ => p.offered
    heard := p.heard ++ o.delivered } s.now

/-- The system after an event. -/
def step (s : System) : Event → System
  | .start pid applyChanges => match s.status pid with
      | .unused => { s with status := Function.update s.status pid (.running { applyChanges }) }
      | _ => s
  | .apply pid bundle callback claimChain receiveTime claimTime => match s.status pid with
      | .running p =>
          if claimChain && p.link.isSome then s
          else s.applied lib pid p bundle callback claimChain ⟨receiveTime, claimTime, pid⟩
      | _ => s
  | .refresh pid callback => match s.status pid with
      | .running p => s.refreshed pid p callback
      | _ => s
  | .reuse pid identity callback claimTime => match s.status pid with
      | .running p =>
          if p.link.isSome then s else s.reused pid p identity callback claimTime
      | _ => s
  | .adopt pid => match s.status pid with
      | .running p => match p.offered with
          | some chain =>
              s.put pid (s.store p) { p with offered := none, link := some chain } s.now
          | none => s
      | _ => s
  | .saveSymmetricKey pid key => match s.status pid with
      | .running p => s.put pid (Lmdb.saveSymmetricKey lib (s.store p) key).store p s.now
      | _ => s
  | .exit pid => match s.status pid with
      | .running _ => { s with status := Function.update s.status pid .exited }
      | _ => s

/-- A file that keeps the bundles, before any process has opened it. -/
def onNewFile (retainEntries : Bool) : System := { db := { retainEntries } }

/-- What an event that takes effect does. -/
inductive Stepped (s : System) : Event → System → Prop
  | nothing (e : Event) : Stepped s e s
  | start {pid : U64} (applyChanges : Bool) (hunused : s.status pid = .unused) :
      Stepped s (.start pid applyChanges)
        { s with status := Function.update s.status pid (.running { applyChanges }) }
  | apply {pid : U64} {p : Process} (bundle : Decomposition) (callback : Option Callback)
      (claimChain : Bool) (receiveTime : Int) (claimTime : U64)
      (hrunning : s.status pid = .running p) (hlink : claimChain = true → p.link = none) :
      Stepped s (.apply pid bundle callback claimChain receiveTime claimTime)
        (s.applied lib pid p bundle callback claimChain ⟨receiveTime, claimTime, pid⟩)
  | refresh {pid : U64} {p : Process} (callback : Option Callback)
      (hrunning : s.status pid = .running p) :
      Stepped s (.refresh pid callback) (s.refreshed pid p callback)
  | reuse {pid : U64} {p : Process} (identity : String) (callback : Option Callback)
      (claimTime : U64) (hrunning : s.status pid = .running p) (hlink : p.link = none) :
      Stepped s (.reuse pid identity callback claimTime)
        (s.reused pid p identity callback claimTime)
  | adopt {pid : U64} {p : Process} {chain : Chain} (hrunning : s.status pid = .running p)
      (hoffered : p.offered = some chain) :
      Stepped s (.adopt pid)
        (s.put pid (s.store p) { p with offered := none, link := some chain } s.now)
  | saveSymmetricKey {pid : U64} {p : Process} (key : Bytes)
      (hrunning : s.status pid = .running p) :
      Stepped s (.saveSymmetricKey pid key)
        (s.put pid (Lmdb.saveSymmetricKey lib (s.store p) key).store p s.now)
  | exit {pid : U64} {p : Process} (hrunning : s.status pid = .running p) :
      Stepped s (.exit pid) { s with status := Function.update s.status pid .exited }

/-- **A step** does nothing, or one of these. -/
theorem step_stepped (s : System) (e : Event) : Stepped lib s e (s.step lib e) := by
  cases e with
  | start pid applyChanges =>
      cases hstatus : s.status pid with
      | unused =>
          simp only [step, hstatus]
          exact .start applyChanges hstatus
      | running p =>
          simp only [step, hstatus]
          exact .nothing _
      | exited =>
          simp only [step, hstatus]
          exact .nothing _
  | apply pid bundle callback claimChain receiveTime claimTime =>
      cases hstatus : s.status pid with
      | unused =>
          simp only [step, hstatus]
          exact .nothing _
      | running p =>
          simp only [step, hstatus]
          split_ifs with hlink
          · exact .nothing _
          · refine .apply bundle callback claimChain receiveTime claimTime hstatus ?_
            intro hclaim
            rw [hclaim, Bool.true_and, Option.not_isSome_iff_eq_none] at hlink
            exact hlink
      | exited =>
          simp only [step, hstatus]
          exact .nothing _
  | refresh pid callback =>
      cases hstatus : s.status pid with
      | unused =>
          simp only [step, hstatus]
          exact .nothing _
      | running p =>
          simp only [step, hstatus]
          exact .refresh callback hstatus
      | exited =>
          simp only [step, hstatus]
          exact .nothing _
  | reuse pid identity callback claimTime =>
      cases hstatus : s.status pid with
      | unused =>
          simp only [step, hstatus]
          exact .nothing _
      | running p =>
          simp only [step, hstatus]
          split_ifs with hlink
          · exact .nothing _
          · exact .reuse identity callback claimTime hstatus (Option.not_isSome_iff_eq_none.mp hlink)
      | exited =>
          simp only [step, hstatus]
          exact .nothing _
  | adopt pid =>
      cases hstatus : s.status pid with
      | unused =>
          simp only [step, hstatus]
          exact .nothing _
      | running p =>
          cases hoffered : p.offered with
          | none =>
              simp only [step, hstatus, hoffered]
              exact .nothing _
          | some chain =>
              simp only [step, hstatus, hoffered]
              exact .adopt hstatus hoffered
      | exited =>
          simp only [step, hstatus]
          exact .nothing _
  | saveSymmetricKey pid key =>
      cases hstatus : s.status pid with
      | unused =>
          simp only [step, hstatus]
          exact .nothing _
      | running p =>
          simp only [step, hstatus]
          exact .saveSymmetricKey key hstatus
      | exited =>
          simp only [step, hstatus]
          exact .nothing _
  | exit pid =>
      cases hstatus : s.status pid with
      | unused =>
          simp only [step, hstatus]
          exact .nothing _
      | running p =>
          simp only [step, hstatus]
          exact .exit hstatus
      | exited =>
          simp only [step, hstatus]
          exact .nothing _

end System

end Lmdb

end Gink
