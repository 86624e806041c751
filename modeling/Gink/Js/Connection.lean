/-
  Gink.Js.Connection — a JavaScript `Database` and its connections to peers
  (AbstractConnection.ts, HasMap.ts, and `receiveBundle`, `receiveMessage` and
  `onConnectionOpen` of Database.ts).

  What is awaited is the next event: the store gets to the next bundle it was handed, a
  promise of `addBundle` goes on, a cursor gets to the next row.  The store is one whose
  cursor runs over the rows in the order of their keys, and is opened some time after it was
  asked for (IndexedDbStore.ts).  What is sent is kept in order; a message is read back as it
  was written.  Listeners, waiters and the states of synchronization are left out.
-/
import Gink.Js.Database
import Gink.Sync.HasMap

namespace Gink

/-! ## §1. What a peer is known to have. -/

namespace HasMap

/-- `markAsHaving(bundleInfo, true)`: whether the bundle is new to the peer; one that would
leave a gap throws. -/
def markIfValid (m : HasMap) (info : BundleInfo) : Except Js.JsError (Bool × HasMap) :=
  if m.seenThrough info.chain < info.timestamp then
    if info.timestamp ≠ info.chainStart ∧ info.previous = 0 then
      .error ⟨"bundleInfo appears to be invalid"⟩
    else if info.previous ≠ m.seenThrough info.chain then
      .error ⟨"proposed bundle would be an invalid extension"⟩
    else .ok (true, m.markAsHaving info)
  else .ok (false, m)

end HasMap

namespace Js

/-- `Signal`. -/
inductive Signal where
  | initialBundlesSent
  | readOnlyConnection
  deriving DecidableEq

/-- `SyncMessage`. -/
inductive Message where
  | bundle (bundle : BundleView)
  | greeting (entries : List (Chain × U64))
  | ack (chain : Chain) (timestamp : U64)
  | signal (signal : Signal)

/-! ## §2. A connection. -/

/-- How far `getBundles` has got that answers the greeting. -/
inductive Scan where
  | idle
  /-- called, and the cursor is not open yet -/
  | asked
  /-- open, with these rows to come -/
  | going (rest : List BundleView)

structure Connection where
  peerHasMap : Option HasMap := none
  /-- the time of the last bundle sent of each chain that waits for an ack -/
  unacked : Table Chain U64 := ∅
  unackedChains : Nat := 0
  scan : Scan := .idle
  /-- everything that was sent -/
  sent : List Message := []
  /-- what the peer has greeted with -/
  greeting : HasMap := {}
  /-- the bundles from this peer that were added -/
  received : List BundleInfo := []

namespace Connection

/-- `send(bytes)`. -/
def send (c : Connection) (message : Message) : Connection :=
  { c with sent := c.sent ++ [message] }

/-- The rest of `sendIfNeeded(bundle)`, for a bundle the peer does not have. -/
def sendBundle (c : Connection) (bundle : BundleView) : Connection :=
  let c := c.send (.bundle bundle)
  let unackedChains :=
    if (c.unacked.get? bundle.info.chain).isNone then c.unackedChains + 1 else c.unackedChains
  { c with
    unackedChains
    unacked := c.unacked.put bundle.info.chain bundle.info.timestamp }

/-- `sendIfNeeded(bundle)`. -/
def sendIfNeeded (c : Connection) (bundle : BundleView) : Except JsError Connection :=
  match c.peerHasMap with
  | none => .ok c
  | some hasMap =>
      match hasMap.markIfValid bundle.info with
      | .error e => .error e
      | .ok (false, hasMap) => .ok { c with peerHasMap := some hasMap }
      | .ok (true, hasMap) => .ok ({ c with peerHasMap := some hasMap }.sendBundle bundle)

/-- `onReceivedBundle(bundleInfo)`: the peer has what it sent, and is told that it arrived. -/
def onReceivedBundle (c : Connection) (info : BundleInfo) : Connection :=
  let c : Connection := { c with
    peerHasMap := c.peerHasMap.map fun hasMap => hasMap.markAsHaving info
    received := c.received ++ [info] }
  c.send (.ack info.chain info.timestamp)

/-- `onAck(bundleInfo)`: only an ack of the last bundle sent counts. -/
def onAck (c : Connection) (chain : Chain) (timestamp : U64) : Connection :=
  match c.unacked.get? chain with
  | none => c
  | some lastSent =>
      if lastSent ≠ 0 ∧ timestamp = lastSent then
        { c with
          unacked := c.unacked.erase chain
          unackedChains := c.unackedChains - 1 }
      else c

/-- `setPeerHasMap(new HasMap({ greeting }))` and the call of `getBundles`: a second greeting
throws. -/
def onGreeting (c : Connection) (entries : List (Chain × U64)) : Connection :=
  match c.peerHasMap with
  | some _ => c
  | none =>
      { c with
        peerHasMap := some (.ofGreeting entries)
        greeting := .ofGreeting entries
        scan := .asked }

end Connection

/-! ## §3. The database. -/

/-- `bundleInfoToKey(bundleInfo)`. -/
abbrev TrxnKey : Type := U64 ×ₗ U64 ×ₗ U64 ×ₗ U64 ×ₗ String

def trxnKey (info : BundleInfo) : TrxnKey :=
  toLex (info.timestamp, toLex (info.medallion, toLex (info.chainStart,
    toLex (info.previous, info.comment))))

/-- A bundle on its way into the store, with the connection it came from. -/
structure Arrival where
  bundle : BundleView
  fromConnectionId : Option Nat

structure Peered (lib : Sodium) where
  store : Store lib := {}
  trxns : Table TrxnKey BundleView := ∅
  iHave : HasMap := {}
  /-- `this.connections`, in the order they were made -/
  connections : List (Nat × Connection) := []
  /-- handed to `addBundle` and not answered -/
  writes : List Arrival := []
  /-- added, and `receiveBundle` has not gone on yet -/
  added : List Arrival := []
  /-- `sendIfNeeded` has thrown -/
  threw : Bool := false

namespace Peered

variable {lib : Sodium}

/-- The connection with an id, changed. -/
def update (db : Peered lib) (id : Nat) (f : Connection → Connection) : Peered lib :=
  { db with connections := db.connections.map fun x => if x.1 = id then (x.1, f x.2) else x }

/-- `for (const [peerId, peer] of this.connections) …`: what throws ends the loop. -/
def broadcast (bundle : BundleView) (fromConnectionId : Option Nat) :
    List (Nat × Connection) → List (Nat × Connection) × Bool
  | [] => ([], false)
  | (id, peer) :: rest =>
      if fromConnectionId = some id then
        let sent := broadcast bundle fromConnectionId rest
        ((id, peer) :: sent.1, sent.2)
      else
        match peer.sendIfNeeded bundle with
        | .error _ => ((id, peer) :: rest, true)
        | .ok peer =>
            let sent := broadcast bundle fromConnectionId rest
            ((id, peer) :: sent.1, sent.2)

/-- The store gets to the next bundle it was handed. -/
def settle (db : Peered lib) (outcome : Database.Outcome) : Peered lib :=
  match db.writes with
  | [] => db
  | arrival :: rest =>
      if outcome = .fails then { db with writes := rest }
      else
        let answer := db.store.addBundle arrival.bundle
        let db := { db with writes := rest, store := answer.1 }
        match answer.2 with
        | .ok true =>
            let db := { db with
              trxns := db.trxns.put (trxnKey arrival.bundle.info) arrival.bundle }
            if outcome = .completes then { db with added := db.added ++ [arrival] } else db
        | _ => db  -- had it already, or refused it

/-- The connection a bundle came from is told that it was added. -/
def acknowledge (db : Peered lib) (arrival : Arrival) : Peered lib :=
  match arrival.fromConnectionId with
  | none => db
  | some id => db.update id (·.onReceivedBundle arrival.bundle.info)

/-- The others are sent it. -/
def publish (db : Peered lib) (arrival : Arrival) : Peered lib :=
  let sent := broadcast arrival.bundle arrival.fromConnectionId db.connections
  { db with connections := sent.1, threw := db.threw || sent.2 }

/-- `receiveBundle` goes on with a bundle that was added. -/
def goOn (db : Peered lib) : Peered lib :=
  match db.added with
  | [] => db
  | arrival :: rest =>
      let db := { db with added := rest, iHave := db.iHave.markAsHaving arrival.bundle.info }
      (db.acknowledge arrival).publish arrival

/-- `receiveMessage(messageBytes, fromConnectionId)` up to what it awaits. -/
def receiveMessage (db : Peered lib) (id : Nat) : Message → Peered lib
  | .bundle bundle => { db with writes := db.writes ++ [⟨bundle, some id⟩] }
  | .greeting entries => db.update id (·.onGreeting entries)
  | .ack chain timestamp => db.update id (·.onAck chain timestamp)
  | .signal _ => db

/-- The cursor of `getBundles` is open. -/
def openCursor (db : Peered lib) (id : Nat) : Peered lib :=
  db.update id fun c =>
    match c.scan with
    | .asked => { c with scan := .going (db.trxns.rows.map (·.2)) }
    | _ => c

/-- The cursor gets to the next row, or to its end: what throws ends the scan. -/
def nextRow (c : Connection) : Connection × Bool :=
  match c.scan with
  | .going [] => ({ c with scan := .idle }.send (.signal .initialBundlesSent), false)
  | .going (bundle :: rest) =>
      match c.sendIfNeeded bundle with
      | .error _ => ({ c with scan := .idle }, true)
      | .ok c => ({ c with scan := .going rest }, false)
  | _ => (c, false)

def continueCursor (db : Peered lib) (id : Nat) : Peered lib :=
  let threw := db.connections.any fun x => decide (x.1 = id) && (nextRow x.2).2
  { db.update id (fun c => (nextRow c).1) with threw := db.threw || threw }

/-- `connectTo` and `onConnectionOpen`: a connection more, which is greeted. -/
def connect (db : Peered lib) (id : Nat) : Peered lib :=
  if id ∈ db.connections.map (·.1) then db
  else { db with
    connections := db.connections ++ [(id, ({} : Connection).send (.greeting db.iHave.toGreeting))] }

inductive Event where
  | connect (id : Nat)
  | message (id : Nat) (message : Message)
  /-- a bundle of the database's own -/
  | commit (bundle : BundleView)
  | settled (outcome : Database.Outcome)
  | goOn
  | openCursor (id : Nat)
  | continueCursor (id : Nat)

def step (db : Peered lib) : Event → Peered lib
  | .connect id => db.connect id
  | .message id message => if id ∈ db.connections.map (·.1) then db.receiveMessage id message else db
  | .commit bundle => { db with writes := db.writes ++ [⟨bundle, none⟩] }
  | .settled outcome => db.settle outcome
  | .goOn => db.goOn
  | .openCursor id => db.openCursor id
  | .continueCursor id => db.continueCursor id

end Peered

/-! ## §4. Bundles for the runs of fixed calls. -/

/-- The first two bundles of a chain. -/
def firstOfTwo : BundleView :=
  decomposition Sodium.unsigned
    { timestamp := 1, chainStart := 1, medallion := 7, identity := "me", verifyKey := [1] } []

def secondOfTwo : BundleView :=
  decomposition Sodium.unsigned
    { timestamp := 2, chainStart := 1, medallion := 7, previous := 1
      priorHash := List.replicate 32 0 } []

end Js

end Gink
