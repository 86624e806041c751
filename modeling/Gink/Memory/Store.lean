/-
  Gink.Memory.Store — `MemoryStore.apply_bundle` (memory_store.py).

  The store assigns to its dictionaries one after the other and has no transaction:
  a call that raises leaves what it assigned before.  A bundle is entered into
  `_bundles` and `_chain_infos` once its signature is checked, and its changes are
  applied after that.
-/
import Gink.Memory.Changes
import Gink.Proto.BundleInfo

namespace Gink

namespace Memory

/-- `MemoryStore`. -/
structure Store where
  bundles : Table InfoKey (BundleInfo × Decomposition) := ∅
  chainInfos : Table Chain BundleInfo := ∅
  /-- by medallion -/
  claims : Table U64 ClaimBuilder := ∅
  identities : Table Chain String := ∅
  verifyKeys : Table Chain Bytes := ∅
  /-- verify key to signing key -/
  signingKeys : Table Bytes Bytes := ∅
  /-- key id to key, oldest first -/
  symmetricKeys : List (Nat × Bytes) := []
  retainingEntries : Bool := true
  contents : Contents := {}
  deriving Inhabited

/-- Code over the dictionaries the changes are kept in. -/
def onContents {α : Type} (x : Action Contents α) : Action Store α :=
  Action.within Store.contents (fun s contents => { s with contents }) x

/-! ## §1. Applying a bundle. -/

/-- The first bundle of a chain brings its identity and its verify key. -/
def startChain (builder : BundleBuilder) (chain : Chain) : Action Store Bytes := do
  modify fun s => { s with identities := s.identities.put chain builder.identity }
  let key ← Action.of (verifyKey builder.verifyKey)
  modify fun s => { s with verifyKeys := s.verifyKeys.put chain key }
  return key

/-- A later bundle is checked against the bundle before. -/
def checkLink (builder : BundleBuilder) (chain : Chain) (oldInfo : Option BundleInfo) :
    Action Store Bytes := do
  let s ← get
  let key ← Action.of (orRaise (.keyError "verify_keys") (s.verifyKeys.get? chain))
  let old ← Action.of (orRaise (.assertionError "old_info is not None") oldInfo)
  Action.of (ensure (builder.priorHash = old.hash)
    (.valueError "prior_hash doesn't match hash of prior bundle"))
  return key

/-- `self._symmetric_keys[key_id]`. -/
def Store.symmetricKey (s : Store) (keyId : U64) : Except Error Bytes :=
  orRaise (.keyError "symmetric_keys") (s.symmetricKeys.lookup keyId.val)

/-- The key the bundle's signature is checked with. -/
def chainKey (builder : BundleBuilder) (newInfo : BundleInfo) (oldInfo : Option BundleInfo) :
    Action Store Bytes :=
  if newInfo.chainStart = newInfo.timestamp then startChain builder newInfo.chain
  else checkLink builder newInfo.chain oldInfo

/-- The part of `apply_bundle` that is run for a needed bundle up to where the bundle
is stored. -/
def validate (lib : Externals) (bundle : Decomposition) (builder : BundleBuilder)
    (newInfo : BundleInfo) (oldInfo : Option BundleInfo) : Action Store Unit := do
  let key ← chainKey builder newInfo oldInfo
  Action.of (ensure (lib.verify key bundle.bundleBytes) .badSignatureError)
  modify fun s => { s with
    bundles := s.bundles.put newInfo.essential (newInfo, bundle)
    chainInfos := s.chainInfos.put newInfo.chain newInfo }

/-- The part after that: the changes, decrypted first when they are encrypted. -/
def applyChanges (lib : Externals) (clock : Nat → Int) (builder : BundleBuilder)
    (newInfo : BundleInfo) : Action Store Unit := do
  let s ← get
  let changes ← Action.of (openChanges lib s.symmetricKey builder)
  onContents (applyChangesFrom s.retainingEntries clock newInfo 1 changes)

/-- What `apply_bundle` does for a needed bundle. -/
def applyNeeded (lib : Externals) (clock : Nat → Int) (bundle : Decomposition)
    (builder : BundleBuilder) (newInfo : BundleInfo) (oldInfo : Option BundleInfo) :
    Action Store Unit := do
  validate lib bundle builder newInfo oldInfo
  applyChanges lib clock builder newInfo

/-- What a call leaves behind: the store, the bundles handed to the callback, and
what it returns or raises. -/
structure Outcome (α : Type) where
  store : Store
  delivered : List Decomposition
  result : Except Error α

/-- `apply_bundle(bundle, callback)`.  `clock offset` is the time at which the change
with that offset is applied; `claim_chain` is not looked at. -/
def applyBundle (lib : Externals) (s : Store) (bundle : Decomposition)
    (callback : Option Callback) (clock : Nat → Int) : Outcome Bool :=
  match bundle.getBuilder lib with
  | .error e => ⟨s, [], .error e⟩
  | .ok builder =>
      let newInfo := BundleInfo.ofBuilder builder (lib.digest bundle.bundleBytes)
      let oldInfo := s.chainInfos.get? newInfo.chain
      match isNeeded newInfo oldInfo with
      | .error e => ⟨s, [], .error e⟩
      | .ok false => ⟨s, [], .ok false⟩
      | .ok true =>
          match applyNeeded lib clock bundle builder newInfo oldInfo s with
          | .error e s => ⟨s, [], .error e⟩
          | .ok _ s => match callback with
              | none => ⟨s, [], .ok true⟩
              | some f => match f bundle with
                  | .error e => ⟨s, [], .error e⟩
                  | .ok () => ⟨s, [bundle], .ok true⟩

/-! ## §2. Keys and claims. -/

/-- `self._symmetric_keys[key_id] = key`: an existing id keeps its place. -/
def setKey (keys : List (Nat × Bytes)) (keyId : Nat) (key : Bytes) : List (Nat × Bytes) :=
  if keys.any (fun k => k.1 = keyId) then
    keys.map (fun k => if k.1 = keyId then (keyId, key) else k)
  else keys ++ [(keyId, key)]

/-- `save_symmetric_key(symmetric_key)`. -/
def saveSymmetricKey (lib : Externals) (s : Store) (key : Bytes) : Outcome (Fin (2 ^ 52)) :=
  if key.length ≠ 32 then ⟨s, [], .error (.valueError "expecting 32 byte symmetric keys")⟩
  else
    let keyId := lib.shorterHash key
    ⟨{ s with symmetricKeys := setKey s.symmetricKeys keyId.val key }, [], .ok keyId⟩

/-- `save_signing_key(signing_key)`. -/
def saveSigningKey (s : Store) (verifyKey signingKey : Bytes) : Store :=
  { s with signingKeys := s.signingKeys.put verifyKey signingKey }

/-- `_add_claim(_, chain)`. -/
def addClaim (s : Store) (claim : ClaimBuilder) : Store :=
  { s with claims := s.claims.put claim.medallion claim }

/-! ## §3. Reads of the chain dictionaries. -/

/-- `get_last(chain)`. -/
def getLast (s : Store) (chain : Chain) : Except Error BundleInfo :=
  orRaise (.keyError "chain_infos") (s.chainInfos.get? chain)

/-- `get_identity(chain)`. -/
def getIdentity (s : Store) (chain : Chain) : Except Error String :=
  orRaise (.keyError "identities") (s.identities.get? chain)

/-- `get_verify_key(chain)`. -/
def getVerifyKey (s : Store) (chain : Chain) : Except Error Bytes :=
  orRaise (.keyError "verify_keys") (s.verifyKeys.get? chain)

/-- `get_bundles(callback, limit_to)`: the bundles handed to the callback. -/
def getBundles (s : Store) (limitTo : Option (Chain → Nat)) : List Decomposition :=
  (s.bundles.rows.filter (fun r =>
    match limitTo with
    | none => true
    | some limit => decide (r.2.1.timestamp.val ≤ limit r.2.1.chain))).map (·.2.2)

/-- `get_has_map()`: each chain with the timestamp the store has it through. -/
def getHasMap (s : Store) : List (Chain × U64) :=
  s.chainInfos.rows.map (fun r => (r.2.chain, r.2.timestamp))

/-! ## §4. Runs of calls. -/

/-- The arguments of a call of `apply_bundle`. -/
structure Call where
  bundle : Decomposition
  callback : Option Callback := none
  clock : Nat → Int := fun _ => 0

/-- The call. -/
def Call.run (lib : Externals) (s : Store) (call : Call) : Outcome Bool :=
  applyBundle lib s call.bundle call.callback call.clock

/-- The store after calls one after the other. -/
def runCalls (lib : Externals) : Store → List Call → Store
  | s, [] => s
  | s, call :: rest => runCalls lib (call.run lib s).store rest

/-- A new store, with symmetric keys saved in it. -/
def newStore (symmetricKeys : List (Nat × Bytes)) (retainingEntries : Bool) : Store where
  symmetricKeys
  retainingEntries

end Memory

end Gink
