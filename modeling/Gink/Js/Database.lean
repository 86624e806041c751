/-
  Gink.Js.Database — how a JavaScript `Database` starts, seals and stores its bundles
  (Database.ts, BoundBundler.ts, PromiseChainLock.ts, and the chain checks of
  MemoryStore.addBundle).

  One process runs one `Database`.  Its calls stop at `await`, and what runs there is the
  next event: a lock that is granted, a store that answers, a caller who goes on.  The store
  takes the bundles it is handed one at a time and in order; a bundle is read back from its
  bytes as it was written.  Claims, listeners and peers are left out.
-/
import Gink.Js.References
import Gink.Machine.Run
import Gink.Proto.BundleInfo
import Gink.Table.Sorted

namespace Gink

namespace Js

/-! ## §1. Keys and bundles. -/

/-- libsodium, as far as bundles need it. -/
structure Sodium where
  /-- `signBundle(builder.serializeBinary(), secretKey)`. -/
  signBundle : BundleBuilder → Bytes → Bytes
  digest : Bytes → Bytes
  length_digest : ∀ data, (digest data).length = 32
  /-- `verifyBundle(signedBundle, verifyKey)` does not throw. -/
  verify : Bytes → Bytes → Bool

/-- What `createKeyPair` makes: the public key verifies what the secret key has signed. -/
structure KeyPair (lib : Sodium) where
  publicKey : Bytes
  secretKey : Bytes
  publicKey_ne : publicKey ≠ []
  verifies : ∀ builder, lib.verify (lib.signBundle builder secretKey) publicKey = true

/-- A bundle in its three forms. -/
structure BundleView where
  bytes : Bytes
  builder : BundleBuilder
  info : BundleInfo

/-- `new Decomposition(signBundle(builder.serializeBinary(), secretKey))`. -/
def decomposition (lib : Sodium) (builder : BundleBuilder) (secretKey : Bytes) : BundleView where
  bytes := lib.signBundle builder secretKey
  builder := builder
  info := .ofBuilder builder (lib.digest (lib.signBundle builder secretKey))

/-! ## §2. The store. -/

/-- What a store knows of chains and keys. -/
structure Store (lib : Sodium) where
  chainInfos : Table Chain BundleInfo := ∅
  verifyKeys : Table Chain Bytes := ∅
  keyPairs : List (KeyPair lib) := []

namespace Store

variable {lib : Sodium}

/-- `pullKeyPair(publicKey)`. -/
def pullKeyPair (store : Store lib) (publicKey : Bytes) : Option (KeyPair lib) :=
  store.keyPairs.find? fun pair => decide (pair.publicKey = publicKey)

/-- `saveKeyPair(keyPair)`. -/
def saveKeyPair (store : Store lib) (keyPair : KeyPair lib) : Store lib :=
  { store with keyPairs := keyPair :: store.keyPairs }

/-- Whether a bundle fits the end of its chain; `false` when the store has it already.  A
`previous` of zero is no `priorTime`. -/
def checkChain (old : Option BundleInfo) (bundle : BundleView) : Except JsError Bool :=
  match old with
  | none =>
      if bundle.info.previous = 0 then .ok true else .error ⟨"missing prior chain entry"⟩
  | some oldChainInfo =>
      if bundle.info.timestamp ≤ oldChainInfo.timestamp then .ok false
      else if bundle.info.previous = 0 ∨ oldChainInfo.timestamp ≠ bundle.info.previous then
        .error ⟨"missing prior chain entry"⟩
      else if bundle.builder.priorHash.length ≠ 32 ∨ oldChainInfo.hash ≠ bundle.builder.priorHash then
        .error ⟨"bad prior hash"⟩
      else .ok true

/-- The key a bundle has to be signed with, noted for a bundle that starts a chain. -/
def chainKey (store : Store lib) (bundle : BundleView) : Except JsError (Store lib × Bytes) :=
  if bundle.info.timestamp = bundle.info.chainStart then
    if bundle.builder.identity = "" then .error ⟨"chain start bundle missing identity"⟩
    else if bundle.builder.verifyKey = [] then .error ⟨"assert failed"⟩
    else .ok ({ store with
      verifyKeys := store.verifyKeys.put bundle.info.chain bundle.builder.verifyKey },
      bundle.builder.verifyKey)
  else if bundle.builder.identity ≠ "" then .error ⟨"non-chain start bundle has identity"⟩
  else
    match store.verifyKeys.get? bundle.info.chain with
    | none => .error ⟨"invalid publicKey length"⟩
    | some verifyKey => .ok (store, verifyKey)

/-- `addBundle(bundle, claimChain)` up to the bundle's changes: the store after the call, and
whether the bundle was added. -/
def addBundle (store : Store lib) (bundle : BundleView) : Store lib × Except JsError Bool :=
  match checkChain (store.chainInfos.get? bundle.info.chain) bundle with
  | .error e => (store, .error e)
  | .ok false => (store, .ok false)
  | .ok true =>
      match store.chainKey bundle with
      | .error e => (store, .error e)
      | .ok (store, verifyKey) =>
          if lib.verify bundle.bytes verifyKey then
            ({ store with chainInfos := store.chainInfos.put bundle.info.chain bundle.info },
              .ok true)
          else (store, .error ⟨"incorrect signature for the given public key"⟩)

end Store

/-! ## §3. Bundlers. -/

/-- A `Muid` that `addChange` returned: its time is undefined until the bundler is sealed. -/
structure BoundMuid where
  timestamp : Option U64
  medallion : U64
  offset : Nat
  deriving DecidableEq

structure BoundBundler where
  medallion : U64
  comment : String := ""
  changes : List ChangeBuilder := []
  bundleInfo : Option BundleInfo := none

namespace BoundBundler

/-- `requireNotSealed()`. -/
def requireNotSealed (bundler : BoundBundler) : Except JsError Unit :=
  match bundler.bundleInfo with
  | none => .ok ()
  | some _ => .error ⟨"This Bundler has already been sealed."⟩

/-- `addChange(changeBuilder)`: the bundler after it and the offset of the change. -/
def addChange (bundler : BoundBundler) (change : ChangeBuilder) :
    Except JsError (BoundBundler × Nat) := do
  bundler.requireNotSealed
  let bundler := { bundler with changes := bundler.changes ++ [change] }
  return (bundler, bundler.changes.length)

/-- `this.bundleInfo = …`. -/
def sealWith (bundler : BoundBundler) (bundleInfo : Option BundleInfo) : BoundBundler :=
  { bundler with bundleInfo }

/-- What a returned `Muid` reads as at any later time. -/
def muid (bundler : BoundBundler) (offset : Nat) : BoundMuid :=
  ⟨bundler.bundleInfo.map (·.timestamp), bundler.medallion, offset⟩

end BoundBundler

/-! ## §4. The database. -/

/-- Who waits for the lock, with what it was called with. -/
inductive Waiter where
  | startBundle (identity : Option String) (comment : String)
  | completeBundle (bundler : Nat) (comment : String)

/-- How far the call to `obtainMedallion` has got that has the lock. -/
inductive Obtaining (lib : Sodium) where
  | acquiring (identity comment : String)
  | saving (identity comment : String) (keyPair : KeyPair lib)

/-- A bundle that was handed to the store, by whose commit. -/
structure Write where
  bundler : Nat
  bundle : BundleView

/-- What a commit's promise resolves to; `none` when it rejects. -/
structure Answer where
  bundler : Nat
  result : Option (Option BundleInfo)

structure Database (lib : Sodium) where
  identity : Option String := none
  medallion : Option U64 := none
  keyPair : Option (KeyPair lib) := none
  lastLink : Option BundleInfo := none
  store : Store lib := {}
  /-- of `generateTimestamp` -/
  lastTime : U64 := 0
  /-- every bundler that `startBundle` returned -/
  bundlers : List BoundBundler := []
  /-- `promiseChainLock.queue` -/
  waiting : List Waiter := []
  /-- the `startBundle` that has the lock; a `completeBundle` has it for one step only -/
  holder : Option (Obtaining lib) := none
  /-- handed to the store and not answered -/
  writes : List Write := []
  /-- answered, and the commit has not gone on yet -/
  answers : List Answer := []
  /-- the commits that resolved, with what they resolved to -/
  resolved : List (Nat × Option BundleInfo) := []
  /-- the bundles of its own that the store took -/
  stored : List BundleView := []
  /-- what `addChange` returned an address for: the bundler, the offset and the change -/
  addressed : List (Nat × Nat × ChangeBuilder) := []

/-- `generateTimestamp()`. -/
def generateTimestamp (lastTime now : U64) : U64 :=
  if now ≤ lastTime then lastTime + 20 else now

namespace Database

variable {lib : Sodium}

/-- The builder that `completeBundle` fills. -/
def bundleBuilder (db : Database lib) (bundler : BoundBundler) (comment : String)
    (medallion timestamp : U64) (keyPair : KeyPair lib) : BundleBuilder :=
  let comment := if comment = "" then bundler.comment else comment
  match db.lastLink with
  | some lastLink =>
      { comment, medallion, timestamp
        previous := lastLink.timestamp
        chainStart := lastLink.chainStart
        priorHash := lastLink.hash
        changes := bundler.changes }
  | none =>
      { comment, medallion, timestamp
        chainStart := timestamp
        identity := db.identity.getD ""
        verifyKey := keyPair.publicKey
        changes := bundler.changes }

/-- The promise that `completeBundle` returned is settled. -/
def answered (db : Database lib) (index : Nat) (result : Option (Option BundleInfo)) :
    Database lib :=
  { db with answers := db.answers ++ [⟨index, result⟩] }

/-- `completeBundle(changes, meta)` once it has the lock, up to the call of `addBundle`. -/
def completeBundle (db : Database lib) (index : Nat) (comment : String) (now : U64) :
    Database lib :=
  match db.bundlers[index]?, db.medallion, db.keyPair with
  | some bundler, some medallion, some keyPair =>
      let timestamp := generateTimestamp db.lastTime now
      let builder := db.bundleBuilder bundler comment medallion timestamp keyPair
      let bundle := decomposition lib builder keyPair.secretKey
      { db with
        lastTime := timestamp
        lastLink := some bundle.info
        writes := db.writes ++ [⟨index, bundle⟩] }
  | _, _, _ => db.answered index none  -- missing medallion!

/-- `startBundle` returns: the lock is free again and there is one bundler more. -/
def bound (db : Database lib) (medallion : U64) (comment : String) : Database lib :=
  { db with holder := none, bundlers := db.bundlers ++ [{ medallion, comment }] }

/-- `startBundle(meta)` up to its first `await`. -/
def startBundle (db : Database lib) (identity : Option String) (comment : String) : Database lib :=
  match db.medallion with
  | some medallion => { db with bundlers := db.bundlers ++ [{ medallion, comment }] }
  | none => { db with waiting := db.waiting ++ [.startBundle identity comment] }

/-- The lock goes to the next who waits for it. -/
def grant (db : Database lib) (osIdentity : String) (now : U64) : Database lib :=
  match db.holder, db.waiting with
  | none, .startBundle identity comment :: rest =>
      { db with
        waiting := rest
        holder := some (.acquiring ((identity.or db.identity).getD osIdentity) comment) }
  | none, .completeBundle index comment :: rest =>
      { db with waiting := rest }.completeBundle index comment now
  | _, _ => db

/-- The key pair of a chain that may be used again. -/
def keyPairOf (store : Store lib) (toReuse : BundleInfo) : Option (KeyPair lib) :=
  if toReuse.medallion = 0 then none
  else (store.verifyKeys.get? toReuse.chain).bind store.pullKeyPair

/-- `obtainMedallion(identity)` up to `saveKeyPair`: the store has answered `acquireChain` with
the last bundle of a chain of its own, or with none. -/
def acquire (db : Database lib) (chain : Option Chain) (created : KeyPair lib) : Database lib :=
  match db.holder with
  | some (.acquiring identity comment) =>
      match chain.bind db.store.chainInfos.get? with
      | some toReuse =>
          match keyPairOf db.store toReuse with
          | some keyPair =>
              { db with
                keyPair := some keyPair
                lastLink := some toReuse
                medallion := some toReuse.medallion
                identity := some identity }.bound toReuse.medallion comment
          | none => { db with holder := none }
      | none =>
          { db with
            keyPair := some created
            holder := some (.saving identity comment created) }
  | _ => db

/-- The rest of `obtainMedallion`, once the key pair is saved. -/
def save (db : Database lib) (medallion : U64) : Database lib :=
  match db.holder with
  | some (.saving identity comment keyPair) =>
      { db with
        store := db.store.saveKeyPair keyPair
        medallion := some medallion
        identity := some identity }.bound medallion comment
  | _ => db

/-- `addChange` on a bundler. -/
def addChange (db : Database lib) (index : Nat) (change : ChangeBuilder) : Database lib :=
  match db.bundlers[index]? with
  | none => db
  | some bundler =>
      match bundler.addChange change with
      | .error _ => db
      | .ok (bundler, offset) =>
          { db with
            bundlers := db.bundlers.set index bundler
            addressed := db.addressed ++ [(index, offset, change)] }

/-- `commit(comment)` on a bundler, up to the lock. -/
def commit (db : Database lib) (index : Nat) (comment : String) : Database lib :=
  match db.bundlers[index]? with
  | none => db
  | some bundler =>
      match bundler.requireNotSealed with
      | .error _ => db
      | .ok _ => { db with waiting := db.waiting ++ [.completeBundle index comment] }

/-- How the store's part of a commit ends: it runs to its end, or it fails and keeps nothing,
or something throws once the bundle is in the store. -/
inductive Outcome where
  | completes
  | fails
  | throws
  deriving DecidableEq

/-- `receiveBundle` goes on with what `addBundle` has answered. -/
def received (db : Database lib) (write : Write) (outcome : Outcome) :
    Except JsError Bool → Database lib
  | .error _ => db.answered write.bundler none
  | .ok false => db.answered write.bundler (some none)
  | .ok true =>
      { db with stored := db.stored ++ [write.bundle] }.answered write.bundler
        (if outcome = Outcome.completes then some (some write.bundle.info) else none)

/-- The store gets to the next bundle it was handed. -/
def settle (db : Database lib) (outcome : Outcome) : Database lib :=
  match db.writes with
  | [] => db
  | write :: rest =>
      if outcome = .fails then { db with writes := rest }.answered write.bundler none
      else
        let added := db.store.addBundle write.bundle
        { db with writes := rest, store := added.1 }.received write outcome added.2

/-- `commit` goes on after its `await`. -/
def resume (db : Database lib) (k : Nat) : Database lib :=
  match db.answers[k]? with
  | none => db
  | some answer =>
      let db := { db with answers := db.answers.eraseIdx k }
      match answer.result with
      | none => db
      | some result =>
          { db with
            bundlers := db.bundlers.modify answer.bundler (·.sealWith result)
            resolved := db.resolved ++ [(answer.bundler, result)] }

/-! ## §5. Runs. -/

/-- What can happen next. -/
inductive Event (lib : Sodium) where
  | startBundle (identity : Option String) (comment : String)
  | granted (osIdentity : String) (now : U64)
  | acquired (chain : Option Chain) (created : KeyPair lib)
  | saved (medallion : U64)
  | obtainFails
  | addChange (bundler : Nat) (change : ChangeBuilder)
  | commit (bundler : Nat) (comment : String)
  | settled (outcome : Outcome)
  | resumed (k : Nat)
  /-- somebody else calls `generateTimestamp` -/
  | tick (now : U64)

def step (db : Database lib) : Event lib → Database lib
  | .startBundle identity comment => db.startBundle identity comment
  | .granted osIdentity now => db.grant osIdentity now
  | .acquired chain created => db.acquire chain created
  | .saved medallion => db.save medallion
  | .obtainFails => { db with holder := none }
  | .addChange index change => db.addChange index change
  | .commit index comment => db.commit index comment
  | .settled outcome => db.settle outcome
  | .resumed k => db.resume k
  | .tick now => { db with lastTime := generateTimestamp db.lastTime now }

/-- A `Database` that was just made on a store. -/
def opened (store : Store lib) (identity : Option String) (lastTime : U64) : Database lib :=
  { store, identity, lastTime }

end Database

/-! ## §6. Signatures for the runs of fixed calls. -/

/-- Signatures that say nothing. -/
def Sodium.unsigned : Sodium where
  signBundle _ _ := []
  digest _ := List.replicate 32 0
  length_digest _ := List.length_replicate
  verify _ _ := true

/-- A key pair of it. -/
def KeyPair.unsigned : KeyPair Sodium.unsigned where
  publicKey := [1]
  secretKey := []
  publicKey_ne := by decide
  verifies _ := rfl

/-- A database on an empty store. -/
def Database.onEmpty : Database Sodium.unsigned := .opened {} none 0

end Js

end Gink
