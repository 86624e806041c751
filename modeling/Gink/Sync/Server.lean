/-
  Gink.Sync.Server — a relay with its connections, and the braid server on top of it
  (relay.py, braid_server.py).

  Both keep their connections in Python sets; a list stands for a set in the order it is
  iterated in, and that order may change between any two events.  The state is what
  survives an exception: nothing is rolled back.
-/
import Gink.Proto.Validation
import Gink.Sync.Connection

namespace Gink

/-! ## §1. The parts. -/

/-- What a relay asks of its store.  `κ` holds what a call reads off the clock. -/
structure BundleStore (σ κ : Type) where
  /-- `apply_bundle(bundle)`, up to where the callback is called -/
  applyBundle : σ → Decomposition → κ → σ × Except Error Bool
  /-- the bundles `get_bundles(callback, limit_to)` hands over -/
  getBundles : σ → Option (Chain → Nat) → Except Error (List Decomposition)
  /-- the info of the last bundle of each chain -/
  lastInfos : σ → List BundleInfo

/-- `Limit`: how far into a chain a braid reaches. -/
inductive Limit where
  | upTo (timestamp : Nat)
  | inf
  deriving DecidableEq, Repr

/-- `limit > timestamp`. -/
def Limit.exceeds : Limit → Nat → Bool
  | .upTo n, timestamp => decide (timestamp < n)
  | .inf, _ => true

/-- The greatest timestamp with `timestamp <= limit`; all are below 2^64. -/
def Limit.last : Limit → Nat
  | .upTo n => n
  | .inf => 2 ^ 64

/-- A relay, and the maps of a braid server whose data relay it is.  A relay on its own
has no braid connections. -/
structure Server (σ : Type) where
  store : σ
  /-- the connection objects made so far, and what is in them -/
  created : List Nat := []
  heap : Nat → Connection := fun _ => {}
  /-- `Relay._connections` -/
  connections : List Nat := []
  /-- `_connection_braid_map` -/
  connectionBraid : Nat → Option Muid := fun _ => none
  /-- `_braid_connection_map` -/
  braidConnections : Muid → List Nat := fun _ => []
  /-- `_chain_connections_map` -/
  chainConnections : Chain → List Nat := fun _ => []
  /-- the contents of the braids -/
  braids : Muid → Table Chain Limit := fun _ => ∅

/-- What the server is run with. -/
structure ServerEnv (σ κ : Type) where
  lib : Externals
  ops : BundleStore σ κ
  /-- the braid `braid_func` returns for a connection, if it returns one -/
  braidFunc : Nat → Option Muid

namespace Server

variable {σ κ α : Type}

/-- Code that works on one connection. -/
def onConnection (id : Nat) (x : Action Connection α) : Action (Server σ) α :=
  Action.within (fun s => s.heap id) (fun s c => { s with heap := Function.update s.heap id c }) x

/-- An assignment to fields of a connection. -/
def amend (id : Nat) (f : Connection → Connection) : Action (Server σ) Unit :=
  modify fun s => { s with heap := Function.update s.heap id (f (s.heap id)) }

/-- `a_set.add(connection)`. -/
def addTo (id : Nat) (ids : List Nat) : List Nat := if id ∈ ids then ids else ids ++ [id]

/-- `a_set.discard(connection)`. -/
def discard (id : Nat) (ids : List Nat) : List Nat := ids.filter (· ≠ id)

/-! ## §2. A bundle was stored. -/

/-- `for peer in self._connections: peer.send_bundle(bundle_wrapper)`. -/
def sendToPeers (lib : Externals) (d : Decomposition) : List Nat → Action (Server σ) Unit
  | [] => pure ()
  | id :: rest => do
      onConnection id (Connection.sendBundle lib d)
      sendToPeers lib d rest

/-- The chains of a braid. -/
def braidChains (s : Server σ) (braid : Muid) : List Chain := (s.braids braid).rows.map (·.1)

/-- `braid.get(chain, 0) > timestamp`. -/
def withinBraid (s : Server σ) (braid : Muid) (info : BundleInfo) : Bool :=
  ((s.braids braid).get? info.chain).any (·.exceeds info.timestamp.val)

/-- `_disconnect(connection)`; an empty braid counts as no braid. -/
def disconnect (id : Nat) : Action (Server σ) Unit :=
  modify fun s => match s.connectionBraid id with
    | none => s
    | some braid =>
        let s' := { s with connectionBraid := Function.update s.connectionBraid id none }
        if (s.braids braid).rows.isEmpty then s'
        else { s' with
          chainConnections := fun chain =>
            if chain ∈ s.braidChains braid then discard id (s.chainConnections chain)
            else s.chainConnections chain
          braidConnections := Function.update s.braidConnections braid
            (discard id (s.braidConnections braid)) }

/-- The body of the broadcast loop of a braid server. -/
def considerConnection (lib : Externals) (d : Decomposition) (info : BundleInfo) (id : Nat) :
    Action (Server σ) Unit := do
  let s ← get
  let braid ← Action.of (orRaise (.keyError "connection_braid_map") (s.connectionBraid id))
  if s.withinBraid braid info then
    Action.recover (onConnection id (Connection.sendBundle lib d)) fun _ => disconnect id
  else pure ()

/-- A set iterator raises when the set has changed size since it was made. -/
def checkSize (chain : Chain) (size : Nat) : Action (Server σ) Unit := do
  let s ← get
  Action.of (ensure ((s.chainConnections chain).length = size)
    (.runtimeError "Set changed size during iteration"))

/-- The broadcast loop of a braid server over the connections of the chain. -/
def considerConnections (lib : Externals) (d : Decomposition) (info : BundleInfo) (size : Nat) :
    List Nat → Action (Server σ) Unit
  | [] => checkSize info.chain size
  | id :: rest => do
      checkSize info.chain size
      considerConnection lib d info id
      considerConnections lib d info size rest

/-- `_after_relay_recieves_bundle(decomposition)`. -/
def afterRelayReceivesBundle (lib : Externals) (d : Decomposition) : Action (Server σ) Unit := do
  let info ← Action.of (d.getInfo lib)
  let s ← get
  considerConnections lib d info (s.chainConnections info.chain).length
    (s.chainConnections info.chain)

/-- `Relay._on_bundle(bundle_wrapper)` with the braid server's callback added. -/
def onBundle (lib : Externals) (d : Decomposition) : Action (Server σ) Unit := do
  let s ← get
  sendToPeers lib d s.connections
  afterRelayReceivesBundle lib d

/-- `self._store.apply_bundle(bundle_wrapper, self._on_bundle)`. -/
def applyBundle (env : ServerEnv σ κ) (d : Decomposition) (clock : κ) : Action (Server σ) Bool := do
  let s ← get
  set { s with store := (env.ops.applyBundle s.store d clock).1 }
  let needed ← Action.of (env.ops.applyBundle s.store d clock).2
  if needed then onBundle env.lib d
  return needed

/-- `Relay.receive(bundle_wrapper)`. -/
def receive (env : ServerEnv σ κ) (d : Decomposition) (clock : κ) : Action (Server σ) Bool := do
  let builder ← Action.of (d.getBuilder env.lib)
  Action.of (validateBundle builder)
  applyBundle env d clock

/-! ## §3. Greetings. -/

/-- `store.get_has_map()`. -/
def hasMap (env : ServerEnv σ κ) (s : Server σ) : HasMap := .ofInfos (env.ops.lastInfos s.store)

/-- `BraidServer._get_greeting(connection)`. -/
def getGreeting (env : ServerEnv σ κ) (id : Nat) : Action (Server σ) HasMap := do
  let braid ← Action.of (orRaise (.valueError "braid should be a Braid instance")
    (env.braidFunc id))
  modify fun s => { s with
    connectionBraid := Function.update s.connectionBraid id (some braid)
    braidConnections := Function.update s.braidConnections braid (addTo id (s.braidConnections braid))
    chainConnections := fun chain =>
      if chain ∈ s.braidChains braid then addTo id (s.chainConnections chain)
      else s.chainConnections chain }
  let s ← get
  return (hasMap env s).getSubset (s.braidChains braid)

/-- `self._conn_func(self)`. -/
def connFunc (env : ServerEnv σ κ) (id : Nat) : Action (Server σ) HasMap := do
  let s ← get
  match (s.heap id).owner with
  | .relay => return hasMap env s
  | .braidServer => getGreeting env id

/-- The first message on a connection: the greeting, for those that may write. -/
def sendGreeting (id : Nat) (greeting : HasMap) : Action (Server σ) Unit := do
  let s ← get
  onConnection id (Connection.send (if (s.heap id).canRite then .greeting greeting.toGreeting
    else .signal .readOnlyConnection))

/-! ## §4. What comes in on a connection. -/

/-- What `receive_objects` yields. -/
inductive Thing where
  | data (d : Decomposition)
  | greeting (peer : HasMap)
  | ack

/-- The upgrade request of a client. -/
def onRequest (env : ServerEnv σ κ) (id : Nat) (auth : Option Nat) (gink : Bool) :
    Action (Server σ) Unit := do
  amend id fun c => { c with perms := c.perms ||| auth.getD 0 }
  let s ← get
  if (s.heap id).perms = authNone ∨ gink = false then
    onConnection id (Connection.socketSend .rejectConnection)
    Action.of (.error .finished)
  let greeting ← Action.recover (connFunc env id) fun _ => do
    onConnection id (Connection.socketSend .rejectConnection)
    amend id fun c => { c with wsClosed := true }
    Action.of (.error .finished)
  onConnection id (Connection.socketSend .acceptConnection)
  amend id fun c => { c with wsConnected := true }
  sendGreeting id greeting

/-- `_receive_objects()` for a `SyncMessage`. -/
def onMessage (lib : Externals) (id : Nat) : SyncMessage → Action (Server σ) (Option Thing)
  | .bundle bytes => do
      let info ← Action.of ((Decomposition.mk bytes).getInfo lib)
      amend id (Connection.markAsHaving info)
      return some (.data ⟨bytes⟩)
  | .greeting entries => do
      amend id fun c => { c with tracker := some (.ofGreeting entries) }
      return some (.greeting (.ofGreeting entries))
  | .ack _ _ _ _ => return some .ack
  | .signal _ | .unset => return none

/-- `receive()` for one event of the websocket library.  `auth` is what the connection's
`auth_func` answers, if it has one.  The library gives a server one request, a client
one acceptance, and messages only after the handshake. -/
def receiveFrame (env : ServerEnv σ κ) (id : Nat) (auth : Option Nat) (frame : Frame) :
    Action (Server σ) (Option Thing) := do
  let s ← get
  let c := s.heap id
  if c.closed then Action.of (.error .finished)
  match frame with
  | .request gink =>
      if c.isClient || c.wsConnected then Action.of (.error .finished)
      else do
        onRequest env id auth gink
        return none
  | .acceptConnection =>
      if !c.isClient || c.wsConnected then Action.of (.error .finished)
      else do
        amend id fun c => { c with wsConnected := true }
        if c.canRite then
          let greeting ← connFunc env id
          onConnection id (Connection.send (.greeting greeting.toGreeting))
        return none
  | .rejectConnection => do
      amend id fun c => { c with wsClosed := true }
      Action.of (.error .finished)
  | .closeConnection => do
      Action.recover (onConnection id (Connection.socketSend .closeConnection)) fun e =>
        Action.of (ensure (e = .brokenPipeError) e)
      amend id fun c => { c with wsClosed := true }
      Action.of (.error .finished)
  | .text data => do
      onConnection id (Connection.socketSend (.text data))
      return none
  | .ping => do
      onConnection id (Connection.socketSend .pong)
      return none
  | .pong => return none
  | .message m =>
      if !c.wsConnected then Action.of (.error .finished) else onMessage env.lib id m

/-- `get_bundles(connection.send_bundle, ...)`. -/
def sendBacklog (lib : Externals) (id : Nat) : List Decomposition → Action (Server σ) Unit
  | [] => pure ()
  | d :: rest => do
      onConnection id (Connection.sendBundle lib d)
      sendBacklog lib id rest

/-- The body of the loop of `Relay._on_connection_ready`. -/
def relayThing (env : ServerEnv σ κ) (id : Nat) (clock : κ) : Thing → Action (Server σ) Unit
  | .data d => do
      let _ ← receive env d clock
      let info ← Action.of (d.getInfo env.lib)
      onConnection id (Connection.send info.asAcknowledgement)
  | .greeting _ => do
      let s ← get
      let bundles ← Action.of (env.ops.getBundles s.store none)
      sendBacklog env.lib id bundles
      onConnection id (Connection.send (.signal .initialBundlesSent))
  | .ack => pure ()

/-- `braid.set(chain, inf)`, and the connections of the braid hear of the chain. -/
def widen (braid : Muid) (chain : Chain) : Action (Server σ) Unit :=
  modify fun s => { s with
    braids := Function.update s.braids braid ((s.braids braid).put chain .inf)
    chainConnections := Function.update s.chainConnections chain
      ((s.braidConnections braid).foldl (fun ids id => addTo id ids) (s.chainConnections chain)) }

/-- A bundle arrives at a braid server on a connection that may write. -/
def braidData (env : ServerEnv σ κ) (id : Nat) (clock : κ) (d : Decomposition) :
    Action (Server σ) Unit := do
  let s ← get
  let braid ← Action.of (orRaise .finished (s.connectionBraid id))
  let info ← Action.of (d.getInfo env.lib)
  if (s.braids braid).get? info.chain = none then
    Action.of (ensure (info.timestamp = info.chainStart) .finished)
    widen braid info.chain
  let _ ← receive env d clock
  onConnection id (Connection.send info.asAcknowledgement)

/-- `limit_to=dict(braid.items())`, read with `.get(chain, 0)`. -/
def limitTo (s : Server σ) (braid : Muid) (chain : Chain) : Nat :=
  (((s.braids braid).get? chain).map Limit.last).getD 0

/-- The body of the loop of `BraidServer._on_websocket_ready`. -/
def braidThing (env : ServerEnv σ κ) (id : Nat) (clock : κ) : Thing → Action (Server σ) Unit
  | .data d => do
      let s ← get
      if (s.heap id).canRite then braidData env id clock d
  | .greeting _ => do
      let s ← get
      if (s.heap id).canRead then
        let braid ← Action.of (orRaise .finished (s.connectionBraid id))
        let bundles ← Action.of (env.ops.getBundles s.store (some (s.limitTo braid)))
        sendBacklog env.lib id bundles
        onConnection id (Connection.send (.signal .initialBundlesSent))
  | .ack => pure ()

/-- What `Finished` makes of a connection: its owner lets go of it and the select loop
closes it. -/
def finish (id : Nat) : Action (Server σ) Unit := do
  let s ← get
  match (s.heap id).owner with
  | .relay => set { s with connections := discard id s.connections }
  | .braidServer => disconnect id
  onConnection id Connection.close

/-- One event on a connection: `on_ready()` inside the select loop. -/
def onReady (env : ServerEnv σ κ) (id : Nat) (auth : Option Nat) (frame : Frame) (clock : κ) :
    Action (Server σ) Unit := do
  let s ← get
  if (s.heap id).owner = .relay ∧ id ∉ s.connections then pure ()
  else
    Action.recover (do
      let thing ← receiveFrame env id auth frame
      match thing, (s.heap id).owner with
      | none, _ => pure ()
      | some thing, .relay => relayThing env id clock thing
      | some thing, .braidServer => braidThing env id clock thing)
      fun e => if e = .finished then finish id else Action.of (.error e)

/-! ## §5. Events. -/

/-- What can happen to the server. -/
inductive Event (κ : Type) where
  /-- a connection is made; `auth` tells whether it has an `auth_func` -/
  | connect (id : Nat) (owner : Owner) (isClient auth : Bool)
  /-- the websocket of a connection gives an event -/
  | frame (id : Nat) (auth : Option Nat) (frame : Frame) (clock : κ)
  /-- the peer is gone, or reading from the socket fails -/
  | hangUp (id : Nat)
  /-- `receive` is called by the program the relay is part of -/
  | receive (d : Decomposition) (clock : κ)
  /-- the peer's end of a socket changes -/
  | socket (id : Nat) (socket : Socket)
  /-- a set is iterated in another order from now on -/
  | reorder (connections : List Nat) (chain : Chain) (ids : List Nat)

/-- A new connection object; a client sends the upgrade request at once. -/
def connect (s : Server σ) (id : Nat) (owner : Owner) (isClient auth : Bool) : Server σ :=
  if id ∈ s.created then s
  else
    { s with
      created := id :: s.created
      heap := Function.update s.heap id
        { owner
          isClient
          perms := if auth then authNone else authFull
          sent := if isClient then [.request true] else [] }
      connections := match owner with
        | .relay => addTo id s.connections
        | .braidServer => s.connections }

/-- The event, with the exception it ends in if it ends in one. -/
def handle (env : ServerEnv σ κ) : Event κ → Action (Server σ) Unit
  | .connect id owner isClient auth => modify fun s => s.connect id owner isClient auth
  | .frame id auth frame clock => do
      let s ← get
      if id ∈ s.created then onReady env id auth frame clock
  | .hangUp id => do
      let s ← get
      if id ∈ s.created then
        amend id fun c => { c with wsClosed := true }
        finish id
  | .receive d clock => do
      let _ ← receive env d clock
  | .socket id socket => amend id fun c => { c with socket }
  | .reorder connections chain ids => modify fun s =>
      if connections.Perm s.connections ∧ ids.Perm (s.chainConnections chain) then
        { s with connections, chainConnections := Function.update s.chainConnections chain ids }
      else s

/-- The state after an event, whether it raised or not. -/
def step (env : ServerEnv σ κ) (s : Server σ) (event : Event κ) : Server σ :=
  Action.endState (handle env event s)

end Server

end Gink
