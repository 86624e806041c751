/-
  Gink.Database.Committing — a `Database` on an `LmdbStore`, from `add_change` to the stored
  bundle (database.py, bound_bundler.py, bundler.py, utilities.py).

  A database appends to one chain of its own.  The first commit takes a chain over whose process
  is gone, or starts a new one; each commit puts the changes of a bundler into a bundle that
  names the last link, signs it and hands it to `receive`, the way bundles of peers come in.
  Between commits nothing of a bundler is in the store.
-/
import Gink.Database.BoundBundler
import Gink.Lmdb.System
import Gink.Proto.Action
import Gink.Proto.Validation

namespace Gink

/-! ## §1. What a database has. -/

/-- What a database gets from outside: libraries, the clock, the system it runs on. -/
structure Outside where
  lib : Externals
  /-- `bundle_builder.SerializeToString()` -/
  serializeBundle : BundleBuilder → Bytes
  /-- `signing_key.sign(message)`: a signature of 64 bytes and the message -/
  sign : Bytes → Bytes → Bytes
  /-- `signing_key.verify_key.encode()` -/
  verifyKeyOf : Bytes → Bytes
  /-- the keys `SigningKey.generate()` makes -/
  generateKey : Nat → Bytes
  /-- what `generate_timestamp()` returns, one time after the other -/
  clock : Nat → U64
  /-- `generate_medallion()` -/
  generateMedallion : Nat → U64
  /-- `get_identity()` -/
  identity : String
  /-- `getpid()` -/
  processId : U64
  /-- `is_certainly_gone(process_id)` -/
  gone : U64 → Bool
  /-- `sys.get_int_max_str_digits()` -/
  maxStrDigits : Nat

/-- A `BoundBundler` with its comment. -/
structure Bundling where
  bundler : BoundBundler := {}
  comment : String := ""

/-- `Database`, its store and `Bundler._local.active`; `ticks` counts the timestamps generated.
`made` and `taken` are for reference. -/
structure Database where
  store : Lmdb.Store
  /-- the table of signing keys in the store -/
  signingKeys : Table Bytes Bytes := ∅
  lastLink : Option BundleInfo := none
  signingKey : Option Bytes := none
  ticks : Nat := 0
  /-- the bundler that changes are added to, if it is not made for one call -/
  active : Option Bundling := none
  /-- the messages that were signed -/
  made : List BundleBuilder := []
  /-- the bundles that the store took in -/
  taken : List Decomposition := []

namespace Database

/-! ## §2. The chain of a database. -/

/-- `generate_timestamp()`. -/
def generateTimestamp (out : Outside) : Action Database U64 := fun db =>
  .ok (out.clock db.ticks) { db with ticks := db.ticks + 1 }

/-- `get_symmetric_key(None)`. -/
def getSymmetricKey : Action Database (Option Bytes) := fun db =>
  match db.store.db.symmetricKeys.rows with
  | [] => .ok none db
  | [row] => .ok (some row.2) db
  | _ => .error (.runtimeError "multiple symmetric keys stored, but no key id specified") db

/-- `_on_bundle(bundle_wrapper)`, as far as the database itself goes. -/
def onBundle (lib : Externals) (lastLink : Option BundleInfo) (bundle : Decomposition) :
    Option BundleInfo :=
  match bundle.getInfo lib with
  | .ok info => if lastLink.any (fun link => link.chain = info.chain) then some info else lastLink
  | .error _ => lastLink

/-- `apply_bundle(wrapper, self._on_bundle, claim_chain)`. -/
def applyBundle (out : Outside) (bundle : Decomposition) (claimChain : Bool) :
    Action Database Bool := fun db =>
  let clock : Clock := ⟨(out.clock (db.ticks + 1)).val, out.clock db.ticks, out.processId⟩
  let o := Lmdb.applyBundle out.lib db.store bundle (some fun _ => .ok ()) claimChain clock
  let db := { db with
    store := o.store
    ticks := db.ticks + 2
    lastLink := o.delivered.foldl (onBundle out.lib) db.lastLink }
  match o.result with
  | .ok true => .ok true { db with taken := db.taken ++ [bundle] }
  | .ok false => .ok false db
  | .error e => .error e db

/-- `receive(bundle_wrapper)`. -/
def receive (out : Outside) (bundle : Decomposition) : Action Database Bool := do
  let builder ← Action.of (bundle.getBuilder out.lib)
  Action.of (validateBundle builder)
  applyBundle out bundle false

/-- `combine(...)`, the message that is signed: what it asserts about a first bundle and about
any other. -/
def combine (chain : Chain) (timestamp : U64) (verifyKey : Bytes) (changes : List ChangeBuilder)
    (comment : String) (identity : Option String) (previous : Option U64) (priorHash : Bytes) :
    Except Error BundleBuilder := do
  match previous with
  | none =>
      ensure (timestamp = chain.chainStart) (.assertionError "timestamp == chain.chain_start")
      let identity ← orRaise (.assertionError "Identity is required for first bundle in a chain.")
        identity
      return {
        identity, verifyKey, chainStart := chain.chainStart, medallion := chain.medallion,
        timestamp, comment, priorHash, changes }
  | some previous =>
      ensure (chain.chainStart ≤ previous ∧ previous < timestamp)
        (.assertionError "chain.chain_start <= previous < timestamp")
      ensure identity.isNone
        (.assertionError "Identity is only used in first bundle in a chain.")
      ensure (priorHash = [] ∨ priorHash.length = 32) (.assertionError "len(prior_hash) == 32")
      return {
        previous, chainStart := chain.chainStart, medallion := chain.medallion, timestamp,
        comment, priorHash, changes }

/-- The message signed and wrapped up. -/
def signBundle (out : Outside) (key : Bytes) (builder : BundleBuilder) :
    Action Database Decomposition := fun db =>
  .ok ⟨out.sign key (out.serializeBundle builder)⟩ { db with made := db.made ++ [builder] }

/-- `maybe_reuse_chain(self._identity)` and the keys of the chain found. -/
def reuseChain (out : Outside) : Action Database (Option (BundleInfo × Bytes)) := do
  let claimTime ← generateTimestamp out
  let reused ← (fun db =>
    let o := Lmdb.maybeReuseChain db.store out.processId out.gone out.identity none claimTime
    match o.result with
    | .ok reused => .ok reused { db with store := o.store }
    | .error e => .error e { db with store := o.store } : Action Database (Option BundleInfo))
  match reused with
  | none => return none
  | some link => do
      let _ ← getSymmetricKey
      let verifyKey ← Action.of ((← get).store.db.getVerifyKey link.chain)
      let key ← Action.of (orRaise
        (.keyError "could not find a signing key for that verify key")
        ((← get).signingKeys.get? verifyKey))
      return some (link, key)

/-- The rest of `_acquire_appendable_link`: a new chain. -/
def startChain (out : Outside) : Action Database (BundleInfo × Bytes) := do
  let _ ← getSymmetricKey
  let key := out.generateKey (← get).ticks
  modify fun db => { db with
    signingKey := some key
    signingKeys := db.signingKeys.put (out.verifyKeyOf key) key }
  let medallion := out.generateMedallion (← get).ticks
  let chainStart ← generateTimestamp out
  let builder ← Action.of (combine ⟨medallion, chainStart⟩ chainStart (out.verifyKeyOf key) []
    "" (some out.identity) none [])
  let bundle ← signBundle out key builder
  let _ ← applyBundle out bundle true
  let info ← Action.of (bundle.getInfo out.lib)
  modify fun db => { db with lastLink := some info }
  return (info, key)

/-- `_acquire_appendable_link()`: the last link of the chain and the key to sign with. -/
def acquireAppendableLink (out : Outside) : Action Database (BundleInfo × Bytes) := do
  match (← get).lastLink with
  | some link =>
      let key ← Action.of (orRaise (.assertionError "self._signing_key is not None")
        (← get).signingKey)
      return (link, key)
  | none => do
      Action.of (ensure (← get).signingKey.isNone (.assertionError "self._signing_key is None"))
      match ← reuseChain out with
      | some (link, key) => do
          modify fun db => { db with signingKey := some key, lastLink := some link }
          return (link, key)
      | none => startChain out

/-! ## §3. Bundlers. -/

/-- `commit()` of a bundler: whether it was empty, closed, or its changes are a bundle now. -/
def commit (out : Outside) (b : Bundling) : Action Database Bundling := do
  if b.bundler.isOpen = false then Action.of (.error (.valueError "bundle isn't open"))
  else if b.bundler.changes.isEmpty then return b  -- no changes to commit, skipping
  else do
    let (link, key) ← acquireAppendableLink out
    let timestamp ← generateTimestamp out
    Action.of (ensure (link.timestamp < timestamp) (.assertionError "timestamp > seen_to"))
    let builder ← Action.of (combine link.chain timestamp (out.verifyKeyOf key) b.bundler.changes
      b.comment none (some link.timestamp) link.hash)
    let bundle ← signBundle out key builder
    let added ← receive out bundle
    Action.of (ensure added (.assertionError "added"))
    let info ← Action.of (bundle.getInfo out.lib)
    return { b with bundler := { b.bundler with decomposition := some info } }

/-- `bundler.add_change(builder)` with the bundler in use: the offset of the new address. -/
def addChange (change : ChangeBuilder) : Action Database Nat := fun db =>
  match db.active with
  | none => .error (.assertionError "bundler") db
  | some b =>
      match b.bundler.addChange (.change change) with
      | (.ok offset, bundler) => .ok offset { db with active := some { b with bundler } }
      | (.error e, bundler) => .error e { db with active := some { b with bundler } }

/-- `bundler = bundler or Bundler.get_active()`, and `immediate` when there is none: then the
call has a bundler of its own, which is committed when the call is through with it and dropped
when the call raises.  The info of the bundle comes along. -/
def withBundler {α : Type} (out : Outside) (comment : String) (body : Action Database α) :
    Action Database (α × Option BundleInfo) := fun db =>
  match db.active with
  | some _ =>
      match body db with
      | .ok a db => .ok (a, none) db
      | .error e db => .error e db
  | none =>
      match getSymmetricKey db with
      | .error e db => .error e db
      | .ok _ db =>
          match body { db with active := some { comment } } with
          | .error e db => .error e { db with active := none }
          | .ok a db =>
              match db.active with
              | none => .error (.assertionError "bundler") db
              | some b =>
                  match commit out b { db with active := none } with
                  | .ok b db => .ok (a, b.bundler.decomposition) db
                  | .error e db => .error e db

/-- `__enter__` of a new bundler. -/
def enter (comment : String) : Action Database Unit := do
  let _ ← getSymmetricKey
  match (← get).active with
  | some _ => Action.of (.error (.runtimeError "already in a context"))
  | none => modify fun db => { db with active := some { comment } }

/-- `__exit__`: a commit, or a rollback when the block raised. -/
def exit (out : Outside) (raised : Bool) : Action Database Unit := do
  match (← get).active with
  | none => Action.of (.error (.assertionError "Bundler._local.active == self"))
  | some b => do
      modify fun db => { db with active := none }
      if raised then return ()
      else do
        let _ ← commit out b
        return ()

end Database

end Gink
