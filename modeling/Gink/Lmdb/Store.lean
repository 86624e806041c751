/-
  Gink.Lmdb.Store — `LmdbStore.apply_bundle` and `refresh` (lmdb_store.py).

  The database is everything the write transaction covers: when the transaction
  raises, the database is what it was.  `_seen_containers` and `_seen_through` are
  fields of the Python object and keep what they were set to.  Times come from
  `generate_timestamp()`, so they are arguments; what the callback is handed is
  recorded in order.
-/
import Gink.Lmdb.Changes

namespace Gink

namespace Lmdb

/-! ## §1. The database and the store. -/

/-- The named databases of the environment. -/
structure Db where
  /-- receive time to bundle -/
  bundles : Table Bytes Decomposition := ∅
  /-- bundle info to receive time -/
  bundleInfos : Table Bytes Bytes := ∅
  /-- chain to the info of its last bundle -/
  chains : Table Bytes BundleInfo := ∅
  claims : Table Bytes ClaimBuilder := ∅
  identities : Table Bytes String := ∅
  verifyKeys : Table Bytes Bytes := ∅
  symmetricKeys : Table Bytes Bytes := ∅
  /-- the two rows of the retentions table -/
  retainBundles : Bool := true
  retainEntries : Bool := true
  contents : Contents := {}
  deriving Inhabited

/-- `LmdbStore`: the file it has open and its fields outside the file. -/
structure Store where
  db : Db := {}
  seenContainers : List Muid := []
  seenThrough : Int := 0
  applyChanges : Bool := true
  deriving Inhabited

/-- What a call leaves behind: the store, the bundles handed to the callback, and
what it returns or raises. -/
structure Outcome (α : Type) where
  store : Store
  delivered : List Decomposition
  result : Except Error α

/-! ## §2. Refreshing. -/

/-- The loop of `_refresh_helper`: `_seen_through`, the bundles handed over and the
count, or the exception of the callback. -/
def refreshLoop (bundles : Table Bytes Decomposition) (callback : Option Callback) :
    Nat → Int → Nat → Int × List Decomposition × Except Error Nat
  | 0, seenThrough, count => (seenThrough, [], .ok count)
  | fuel + 1, seenThrough, count =>
      match encodeMuts (seenThrough + 1) with
      | .error e => (seenThrough, [], .error e)
      | .ok start =>
          match bundles.rows.find? (fun r => decide (start ≤ r.1)) with
          | none => (seenThrough, [], .ok count)
          | some row =>
              match callback with
              | none =>
                  match decodeMuts row.1 with
                  | .error e => (seenThrough, [], .error e)
                  | .ok time => refreshLoop bundles callback fuel (time.getD 0) count
              | some f =>
                  match f row.2, decodeMuts row.1 with
                  | .error e, _ => (seenThrough, [], .error e)
                  | .ok (), .error e => (seenThrough, [row.2], .error e)
                  | .ok (), .ok time =>
                      let later := refreshLoop bundles callback fuel (time.getD 0) (count + 1)
                      (later.1, row.2 :: later.2.1, later.2.2)

/-- `_refresh_helper(trxn, callback)`: it only reads, and passes each bundle once. -/
def refreshHelper (s : Store) (callback : Option Callback) : Outcome Nat :=
  let r := refreshLoop s.db.bundles callback (s.db.bundles.rows.length + 1) s.seenThrough 0
  ⟨{ s with seenThrough := r.1 }, r.2.1, r.2.2⟩

/-- `refresh(callback)`. -/
def refresh (s : Store) (callback : Option Callback) : Outcome Nat := refreshHelper s callback

/-! ## §3. Applying a bundle. -/

/-- `get_verify_key(chain, trxn)`. -/
def Db.getVerifyKey (db : Db) (chain : Chain) : Except Error Bytes := do
  let found ← orRaise (.keyError "could not find a verify key for that chain")
    (db.verifyKeys.get? chain.toBytes)
  verifyKey found

/-- The symmetric key a bundle names. -/
def Db.symmetricKey (db : Db) (keyId : U64) : Except Error Bytes := do
  let location ← encodeMuts keyId.val
  orRaise (.keyError "could not find symmetric key referenced in bundle")
    (db.symmetricKeys.get? location)

/-- The claim made when `claim_chain` is set. -/
def Db.claimChain (db : Db) (claimChain : Bool) (newInfo : BundleInfo) (clock : Clock) :
    Except Error Db :=
  if claimChain then do
    ensure (newInfo.timestamp = newInfo.chainStart)
      (.assertionError "new_info.timestamp == new_info.chain_start")
    let key ← encodeMuts clock.claimTime.val
    return { db with claims := db.claims.put key (clock.createClaim newInfo.chain) }
  else .ok db

/-- The bundle is stored under the time it is received; with it the value that
`_seen_through` takes. -/
def Db.storeBundle (db : Db) (bundle : Decomposition) (clock : Clock) : Except Error Db :=
  if db.retainBundles then
    (encodeMuts clock.receiveTime).map fun location =>
      { db with bundles := db.bundles.put location bundle }
  else .ok db

/-- The row that leads from the bundle's info to the bundle. -/
def Db.indexBundle (db : Db) (newInfo : BundleInfo) (clock : Clock) : Except Error Db :=
  if db.retainBundles then do
    let location ← encodeMuts clock.receiveTime
    let bundleInfos ← putRow db.bundleInfos newInfo.toBytes location
    return { db with bundleInfos }
  else .ok db

/-- The chain table, the identity and the verify key of a new chain, the link to the
bundle before, and the signature. -/
def Db.extendChain (lib : Externals) (db : Db) (bundle : Decomposition) (builder : BundleBuilder)
    (newInfo : BundleInfo) (oldInfo : Option BundleInfo) : Except Error Db :=
  let db := { db with chains := db.chains.put newInfo.chain.toBytes newInfo }
  if newInfo.chainStart = newInfo.timestamp then do
    let key ← verifyKey builder.verifyKey
    ensure (lib.verify key bundle.bundleBytes) .badSignatureError
    return { db with
      identities := db.identities.put newInfo.chain.toBytes builder.identity
      verifyKeys := db.verifyKeys.put newInfo.chain.toBytes key }
  else do
    let key ← db.getVerifyKey newInfo.chain
    let old ← orRaise (.assertionError "old_info is not None") oldInfo
    ensure (builder.priorHash = old.hash)
      (.valueError "prior_hash doesn't match hash of prior bundle")
    ensure (lib.verify key bundle.bundleBytes) .badSignatureError
    return db

/-- The steps between the two tables of bundles and the changes: the index row, the
chain, and the changes once they are decrypted. -/
def Db.linkBundle (lib : Externals) (db : Db) (bundle : Decomposition) (builder : BundleBuilder)
    (newInfo : BundleInfo) (oldInfo : Option BundleInfo) (clock : Clock) :
    Except Error (Db × List ChangeBuilder) := do
  let db ← db.indexBundle newInfo clock
  let db ← db.extendChain lib bundle builder newInfo oldInfo
  let changes ← openChanges lib db.symmetricKey builder
  return (db, changes)

/-- What the transaction leaves: the two fields and the new database, or the
exception that rolls it back. -/
structure Written where
  seenContainers : List Muid
  seenThrough : Int
  db : Except Error Db

/-- The body of the transaction for a bundle that is needed. -/
def writeBundle (lib : Externals) (s : Store) (bundle : Decomposition) (builder : BundleBuilder)
    (newInfo : BundleInfo) (oldInfo : Option BundleInfo) (claimChain : Bool) (clock : Clock) :
    Written :=
  match s.db.claimChain claimChain newInfo clock >>= fun db => db.storeBundle bundle clock with
  | .error e => ⟨s.seenContainers, s.seenThrough, .error e⟩
  | .ok db =>
      let seenThrough := if db.retainBundles then clock.receiveTime else s.seenThrough
      match db.linkBundle lib bundle builder newInfo oldInfo clock with
      | .error e => ⟨s.seenContainers, seenThrough, .error e⟩
      | .ok (db, changes) =>
          let applied := applyChangesFrom lib s.db.contents db.retainEntries newInfo 1
            (if s.applyChanges then changes else []) s.seenContainers db.contents
          ⟨applied.1, seenThrough, applied.2.map fun contents => { db with contents }⟩

/-- `apply_bundle(bundle, callback, claim_chain)`. -/
def applyBundle (lib : Externals) (s : Store) (bundle : Decomposition)
    (callback : Option Callback) (claimChain : Bool) (clock : Clock) : Outcome Bool :=
  match bundle.getBuilder lib with
  | .error e => ⟨s, [], .error e⟩
  | .ok builder =>
      let newInfo := BundleInfo.ofBuilder builder (lib.digest bundle.bundleBytes)
      let refreshed := refreshHelper s callback
      match refreshed.result with
      | .error e => ⟨refreshed.store, refreshed.delivered, .error e⟩
      | .ok _ =>
          let s := refreshed.store
          let oldInfo := s.db.chains.get? newInfo.chain.toBytes
          match isNeeded newInfo oldInfo with
          | .error e => ⟨s, refreshed.delivered, .error e⟩
          | .ok false => ⟨s, refreshed.delivered, .ok false⟩
          | .ok true =>
              let written := writeBundle lib s bundle builder newInfo oldInfo claimChain clock
              let s := { s with
                seenContainers := written.seenContainers, seenThrough := written.seenThrough }
              match written.db with
              | .error e => ⟨s, refreshed.delivered, .error e⟩
              | .ok db =>
                  let s := { s with db }
                  match callback with
                  | none => ⟨s, refreshed.delivered, .ok true⟩
                  | some f => match f bundle with
                      | .error e => ⟨s, refreshed.delivered, .error e⟩
                      | .ok () => ⟨s, refreshed.delivered ++ [bundle], .ok true⟩

/-! ## §4. Keys. -/

/-- `save_symmetric_key(symmetric_key)`. -/
def saveSymmetricKey (lib : Externals) (s : Store) (key : Bytes) : Outcome (Fin (2 ^ 52)) :=
  if key.length ≠ 32 then ⟨s, [], .error (.valueError "expecting 32 byte symmetric keys")⟩
  else
    let keyId := lib.shorterHash key
    match encodeMuts keyId.val with
    | .error e => ⟨s, [], .error e⟩
    | .ok location =>
        let symmetricKeys := s.db.symmetricKeys.put location key
        ⟨{ s with db := { s.db with symmetricKeys } }, [], .ok keyId⟩

/-! ## §5. Reads of the chain tables. -/

/-- The walk of `get_bundles` over the bundle infos. -/
def bundlesFrom (db : Db) (limitTo : Option (Chain → Nat)) :
    List (Bytes × Bytes) → Except Error (List Decomposition)
  | [] => .ok []
  | row :: rest => do
      let info ← BundleInfo.fromBytes row.1
      if limitTo.all (fun limit => decide (info.timestamp.val ≤ limit info.chain)) then
        let bundle ← orRaise (.typeError "'NoneType' object is not subscriptable")
          (db.bundles.get? row.2)
        let others ← bundlesFrom db limitTo rest
        return bundle :: others
      else bundlesFrom db limitTo rest

/-- `get_bundles(callback, limit_to)`: the bundles handed to the callback, in the
order of their infos. -/
def getBundles (db : Db) (limitTo : Option (Chain → Nat)) : Except Error (List Decomposition) :=
  if db.retainBundles then bundlesFrom db limitTo db.bundleInfos.rows
  else .error (.valueError "don't have full bundle retention")

/-- `get_last(chain)`. -/
def getLast (db : Db) (chain : Chain) : Except Error BundleInfo :=
  orRaise (.valueError "bad argument to BundleInfo.from_bytes") (db.chains.get? chain.toBytes)

end Lmdb

end Gink
