/-
  Gink.Log.Store — `LogBackedStore` (log_backed_store.py).

  The object keeps everything in memory, as a `MemoryStore`, and appends what it is
  given to a file that other processes append to as well.  Its handle is opened for
  appending: writing moves it to the end of the file, reading moves it past what was
  read.  The handle therefore always stands between two records, and its place is a
  number of records; `_processed_to` is a number of bytes, as in the source.

  A method that waits for the file lock is cut where the lock is held and nothing is
  read any more: other processes may append to the file between the two parts if they
  do not wait for the lock.
-/
import Gink.Log.File
import Gink.Memory.Store
import Gink.Proto.Action

namespace Gink

namespace Log

/-- What is not under the store's control: the libraries, and how long messages get. -/
structure Env where
  lib : Externals
  format : LogFormat

/-- A message in the file, with the process that appended it. -/
structure Record where
  writer : U64
  content : LogFileBuilder

/-- The file, and who holds the lock on it. -/
structure Disk where
  records : List Record := []
  exclusive : Option U64 := none
  shared : List U64 := []

/-- `LogBackedStore`.  `applied` and `announced` are for reference: everything that was
applied so far, and the bundles that refreshes handed to their callbacks. -/
structure LogStore where
  memory : Memory.Store := {}
  /-- the records before the handle -/
  position : Nat := 0
  processedTo : Nat := 0
  exclusive : Bool := false
  flocked : Bool := false
  applied : LogFileBuilder := {}
  announced : List Decomposition := []

/-- The file as one process finds it, and its own store. -/
structure View where
  disk : Disk
  store : LogStore

/-- The times at which the changes of the bundles that are read get applied. -/
abbrev Clocks := Nat → Nat → Int

/-- The bundles in messages, each with the process that appended it. -/
def items (records : List Record) : List (U64 × Decomposition) :=
  records.flatMap fun r => r.content.bundles.map fun bundle => (r.writer, bundle)

namespace Disk

/-- The messages in the file. -/
def contents (disk : Disk) : List LogFileBuilder := disk.records.map (·.content)

/-- Nobody else holds the lock. -/
def mayLock (disk : Disk) (pid : U64) : Bool :=
  disk.exclusive.all (fun holder => holder = pid) && disk.shared.all (fun holder => holder = pid)

/-- Nobody else holds the lock for himself. -/
def mayShare (disk : Disk) (pid : U64) : Bool := disk.exclusive.all (fun holder => holder = pid)

end Disk

namespace View

/-- `self._handle.tell()`. -/
def tell (env : Env) (v : View) : Nat :=
  env.format.total (v.disk.contents.take v.store.position)

/-- What `self._handle.read()` reads: the messages from the handle to the end. -/
def unread (v : View) : List LogFileBuilder := v.disk.contents.drop v.store.position

/-- `self._handle.seek(0, 2)`, and where reading leaves the handle. -/
def seekEnd (v : View) : View :=
  { v with store := { v.store with position := v.disk.records.length } }

/-- `self._processed_to += count`. -/
def advance (count : Nat) (v : View) : View :=
  { v with store := { v.store with processedTo := v.store.processedTo + count } }

/-- `self._exclusive = exclusive`. -/
def setExclusive (exclusive : Bool) (v : View) : View :=
  { v with store := { v.store with exclusive } }

/-- `flock(self._handle, LOCK_EX); self._flocked = True`. -/
def lockExclusive (pid : U64) (v : View) : View where
  disk := { v.disk with exclusive := some pid }
  store := { v.store with flocked := true }

/-- `flock(self._handle, LOCK_SH); self._flocked = True`. -/
def lockShared (pid : U64) (v : View) : View where
  disk := { v.disk with shared := pid :: v.disk.shared }
  store := { v.store with flocked := true }

/-- `flock(self._handle, LOCK_UN); self._flocked = False`. -/
def unlock (pid : U64) (v : View) : View where
  disk := { v.disk with
    exclusive := if v.disk.exclusive = some pid then none else v.disk.exclusive
    shared := v.disk.shared.filter fun holder => holder ≠ pid }
  store := { v.store with flocked := false }

/-- A message is appended to the file, which moves the handle to its end. -/
def append (pid : U64) (record : LogFileBuilder) (v : View) : View where
  disk := { v.disk with records := v.disk.records ++ [⟨pid, record⟩] }
  store := { v.store with
    position := v.disk.records.length + 1
    applied := v.store.applied.join record }

/-- `self._claims[claim_builder.medallion] = claim_builder`. -/
def noteClaim (claim : ClaimBuilder) (v : View) : View :=
  { v with store := { v.store with memory := Memory.addClaim v.store.memory claim } }

/-- `self._signing_keys[verify_key] = signing_key`. -/
def noteSigningKey (publicKey secretKey : Bytes) (v : View) : View :=
  { v with store := { v.store with
    memory := Memory.saveSigningKey v.store.memory publicKey secretKey } }

/-- What was read is on record as applied. -/
def noteApplied (record : LogFileBuilder) (v : View) : View :=
  { v with store := { v.store with applied := v.store.applied.join record } }

/-- What a method of `MemoryStore` leaves. -/
def remember {α : Type} (o : Memory.Outcome α) (v : View) : View :=
  { v with store := { v.store with
    memory := o.store, announced := v.store.announced ++ o.delivered } }

end View

/-! ## §1. The lock. -/

/-- `_acquire_lock()`, once the lock is free. -/
def acquireLock (pid : U64) : Action View Bool := do
  let v ← get
  if v.store.flocked then return false
  else
    modify (View.lockExclusive pid)
    return true

/-- `_release_lock(flocked_by_acquire)`. -/
def releaseLock (pid : U64) (flockedByAcquire : Bool) : Action View Unit :=
  if flockedByAcquire then modify (View.unlock pid) else pure ()

/-! ## §2. Reading what others wrote. -/

/-- A method of `MemoryStore` is called. -/
def memoryCall {α : Type} (method : Memory.Store → Memory.Outcome α) : Action View α := fun v =>
  match (method v.store.memory).result with
  | .error e => .error e (v.remember (method v.store.memory))
  | .ok a => .ok a (v.remember (method v.store.memory))

/-- `MemoryStore.apply_bundle(self, bundle, callback=callback)`. -/
def memoryApply (env : Env) (bundle : Decomposition) (callback : Option Callback)
    (clock : Nat → Int) : Action View Bool :=
  memoryCall fun memory => Memory.applyBundle env.lib memory bundle callback clock

/-- The loop over the bundles that were read. -/
def applyBundles (env : Env) (callback : Option Callback) (clocks : Clocks) :
    Nat → List Decomposition → Action View Unit
  | _, [] => pure ()
  | n, bundle :: rest => do
      modify (View.noteApplied { bundles := [bundle] })
      let _ ← memoryApply env bundle callback (clocks n)
      applyBundles env callback clocks (n + 1) rest

/-- The loop over the claims. -/
def noteClaims : List ClaimBuilder → Action View Unit
  | [] => pure ()
  | claim :: rest => do
      modify (View.noteApplied { claims := [claim] })
      modify (View.noteClaim claim)
      noteClaims rest

/-- `VerifyKey(data)` and `SigningKey(data)` check the length. -/
def signingKey (data : Bytes) : Except Error Bytes :=
  if data.length = 32 then .ok data
  else .error (.valueError "The seed must be exactly 32 bytes long")

/-- The loop over the key pairs. -/
def noteKeyPairs : List KeyPairBuilder → Action View Unit
  | [] => pure ()
  | keyPair :: rest => do
      modify (View.noteApplied { keyPairs := [keyPair] })
      let publicKey ← Action.of (verifyKey keyPair.publicKey)
      let secretKey ← Action.of (signingKey keyPair.secretKey)
      modify (View.noteSigningKey publicKey secretKey)
      noteKeyPairs rest

/-- What was read is taken in: the bundles first, then the claims, then the keys. -/
def takeIn (env : Env) (callback : Option Callback) (clocks : Clocks) (read : LogFileBuilder) :
    Action View Unit := do
  modify (View.noteApplied { magicNumber := read.magicNumber })
  applyBundles env callback clocks 0 read.bundles
  noteClaims read.claims
  noteKeyPairs read.keyPairs

/-- `_refresh_helper(_, callback)`. -/
def refreshHelper (env : Env) (callback : Option Callback) (clocks : Clocks) : Action View Nat := do
  let v ← get
  Action.of (ensure (v.tell env = v.store.processedTo)
    (.assertionError "self._handle.tell() == self._processed_to"))
  modify View.seekEnd
  if env.format.total v.unread = 0 then return 0
  else
    takeIn env callback clocks (joined v.unread)
    modify (View.advance (env.format.total v.unread))
    let after ← get
    Action.of (ensure (after.tell env = after.store.processedTo)
      (.assertionError "self._handle.tell() == self._processed_to"))
    return (joined v.unread).bundles.length

/-- `refresh(callback)`. -/
def refresh (env : Env) (pid : U64) (callback : Option Callback) (clocks : Clocks) :
    Action View Nat := do
  let lock ← acquireLock pid
  let count ← refreshHelper env callback clocks
  releaseLock pid lock
  return count

/-- `_maybe_refresh()`: what a plain read does first. -/
def maybeRefresh (env : Env) (pid : U64) (clocks : Clocks) : Action View Unit := do
  let v ← get
  if v.store.flocked then return ()
  else
    Action.of (ensure (v.tell env = v.store.processedTo)
      (.assertionError "current_location != self._processed_to"))
    if env.format.total v.disk.contents = v.store.processedTo then modify View.seekEnd
    else
      modify (View.lockShared pid)
      let _ ← refreshHelper env none clocks
      modify (View.unlock pid)

/-! ## §3. Writing. -/

/-- The message is written and counted as processed. -/
def write (env : Env) (pid : U64) (record : LogFileBuilder) : Action View Unit := do
  modify (View.append pid record)
  modify (View.advance (env.format.size record))

/-- `apply_bundle` up to where the store has caught up with the file; the answer is
`flocked_by_apply`. -/
def beginApply (env : Env) (pid : U64) (callback : Option Callback) (clocks : Clocks) :
    Action View Bool := do
  let lock ← acquireLock pid
  let _ ← refreshHelper env callback clocks
  return lock

/-- A bundle that was added goes to the file, with a claim when asked for. -/
def writeBundle (env : Env) (pid : U64) (bundle : Decomposition) (claimChain : Bool)
    (claimTime : U64) : Action View Unit := do
  if claimChain then do
    let info ← Action.of (bundle.getInfo env.lib)
    let claim := ClaimBuilder.mk info.chain.medallion info.chain.chainStart pid claimTime
    modify (View.noteClaim claim)
    write env pid { bundles := [bundle], claims := [claim] }
  else write env pid { bundles := [bundle] }

/-- `if callback is not None: callback(bundle)`. -/
def callBack (callback : Option Callback) (bundle : Decomposition) : Action View Unit :=
  match callback with
  | none => pure ()
  | some f => Action.of (f bundle)

/-- The rest of `apply_bundle`. -/
def finishApply (env : Env) (pid : U64) (bundle : Decomposition) (callback : Option Callback)
    (claimChain lock : Bool) (clock : Nat → Int) (claimTime : U64) : Action View Bool := do
  let added ← memoryApply env bundle none clock
  if added then do
    writeBundle env pid bundle claimChain claimTime
    callBack callback bundle
    releaseLock pid lock
    return true
  else do
    releaseLock pid lock
    return false

/-- A signing key with its verify key, as PyNaCl has them. -/
structure SigningKey where
  verifyKey : Bytes
  seed : Bytes
  length_verifyKey : verifyKey.length = 32
  length_seed : seed.length = 32

/-- `save_signing_key(signing_key)`: the file is not locked, and not read before. -/
def saveSigningKey (env : Env) (pid : U64) (key : SigningKey) : Action View Unit := do
  write env pid { keyPairs := [⟨key.verifyKey, key.seed⟩] }
  modify (View.noteSigningKey key.verifyKey key.seed)

/-- `save_symmetric_key(symmetric_key)` of `MemoryStore`: nothing is written. -/
def saveSymmetricKey (env : Env) (key : Bytes) : Action View (Fin (2 ^ 52)) :=
  memoryCall fun memory => Memory.saveSymmetricKey env.lib memory key

/-! ## §4. Taking over a chain. -/

/-- `maybe_reuse_chain` up to where the store has caught up with the file. -/
def beginReuse (env : Env) (pid : U64) (callback : Option Callback) (clocks : Clocks) :
    Action View Bool := do
  let lock ← acquireLock pid
  Action.recover
    (do
      let _ ← refreshHelper env callback clocks
      return lock)
    (fun e => do
      releaseLock pid lock
      Action.of (.error e))

/-- `_add_claim(_, chain)`. -/
def addClaim (env : Env) (pid : U64) (claimTime : U64) (chain : Chain) : Action View Unit := do
  let v ← get
  Action.of (ensure v.store.flocked (.assertionError "self._flocked"))
  let claim := ClaimBuilder.mk chain.medallion chain.chainStart pid claimTime
  modify (View.noteClaim claim)
  write env pid { claims := [claim] }

/-- The loop over the claims: the first one for the identity whose process is gone. -/
def reuseFrom (env : Env) (pid : U64) (gone : U64 → Bool) (identity : String) (claimTime : U64) :
    List ClaimBuilder → Action View (Option BundleInfo)
  | [] => return none
  | old :: rest => do
      let chain := Chain.mk old.medallion old.chainStart
      let v ← get
      let chainIdentity ← Action.of (Memory.getIdentity v.store.memory chain)
      if chainIdentity = identity ∧ gone old.processId = true then do
        addClaim env pid claimTime chain
        let v ← get
        let last ← Action.of (Memory.getLast v.store.memory chain)
        return some last
      else reuseFrom env pid gone identity claimTime rest

/-- The rest of `maybe_reuse_chain`; the lock is released in any case. -/
def finishReuse (env : Env) (pid : U64) (gone : U64 → Bool) (identity : String) (lock : Bool)
    (claimTime : U64) : Action View (Option BundleInfo) :=
  Action.recover
    (do
      let v ← get
      let found ← reuseFrom env pid gone identity claimTime
        (v.store.memory.claims.rows.map (·.2))
      releaseLock pid lock
      return found)
    (fun e => do
      releaseLock pid lock
      Action.of (.error e))

/-! ## §5. Opening the file. -/

/-- The message a new file starts with. -/
def header : LogFileBuilder := { magicNumber := 1263421767 }

/-- `LogBackedStore(filepath, exclusive)`, once the lock is free. -/
def openFile (env : Env) (pid : U64) (exclusive : Bool) (clocks : Clocks) : Action View Unit := do
  modify (View.setExclusive exclusive)
  if exclusive then modify (View.lockExclusive pid) else pure ()
  let lock ← acquireLock pid
  let v ← get
  if env.format.total v.disk.contents = 0 then write env pid header
  else do
    let _ ← refreshHelper env none clocks
    pure ()
  releaseLock pid lock

end Log

end Gink
