/-
  Gink.Sync.Relays — what the events of a relay do while nothing fails (relay.py, connection.py).

  A relay whose connections are all up: the handshake, the greeting with the backlog it is
  answered with, a bundle that comes in or is committed, an acknowledgement.  Each event is given
  with the state it leaves.
-/
import Gink.Machine.Watermarks
import Gink.Sync.Broadcast
import Gink.Sync.ChainStore
import Gink.Sync.Traffic

namespace Gink

open Machine

/-! ## §1. Bundles as items of their chains. -/

/-- The bundle as an item of its chain. -/
def BundleInfo.item (info : BundleInfo) : Item Chain :=
  ⟨info.chain, info.previous.val, info.timestamp.val⟩

/-- How far along each chain the map says a peer is. -/
def HasMap.marks (m : HasMap) (chain : Chain) : ℕ := (m.seenThrough chain).val

/-- The item that a frame carries. -/
def Frame.item? (lib : Externals) : Frame → Option (Item Chain)
  | .message (.bundle bytes) => ((Decomposition.mk bytes).getInfo lib).toOption.map (·.item)
  | _ => none

/-- Only frames that carry a bundle carry an item. -/
theorem Frame.of_item? {lib : Externals} {f : Frame} {x : Item Chain} (h : f.item? lib = some x) :
    ∃ bytes info, f = .message (.bundle bytes) ∧ (Decomposition.mk bytes).getInfo lib = .ok info ∧
      x = info.item := by
  cases f with
  | message m =>
      cases m with
      | bundle bytes =>
          have h : ((Decomposition.mk bytes).getInfo lib).toOption.map (·.item) = some x := h
          cases hi : (Decomposition.mk bytes).getInfo lib with
          | error e =>
              rw [hi] at h
              exact absurd h (by simp [Except.toOption])
          | ok info =>
              rw [hi] at h
              exact ⟨bytes, info, rfl, hi, (Option.some.inj h).symm⟩
      | greeting entries => exact absurd h (by simp [Frame.item?])
      | ack medallion chainStart timestamp previous => exact absurd h (by simp [Frame.item?])
      | signal signal => exact absurd h (by simp [Frame.item?])
      | unset => exact absurd h (by simp [Frame.item?])
  | request gink => exact absurd h (by simp [Frame.item?])
  | acceptConnection => exact absurd h (by simp [Frame.item?])
  | rejectConnection => exact absurd h (by simp [Frame.item?])
  | closeConnection => exact absurd h (by simp [Frame.item?])
  | text data => exact absurd h (by simp [Frame.item?])
  | ping => exact absurd h (by simp [Frame.item?])
  | pong => exact absurd h (by simp [Frame.item?])

theorem Frame.item?_bundle {lib : Externals} {bytes : Bytes} {info : BundleInfo}
    (hi : (Decomposition.mk bytes).getInfo lib = .ok info) :
    Frame.item? lib (.message (.bundle bytes)) = some info.item := by
  show ((Decomposition.mk bytes).getInfo lib).toOption.map (·.item) = _
  rw [hi]
  rfl

/-- The items that the frames carry. -/
def Frame.items (lib : Externals) (frames : List Frame) : List (Item Chain) :=
  frames.filterMap (Frame.item? lib)

theorem Frame.items_append (lib : Externals) (l m : List Frame) :
    Frame.items lib (l ++ m) = Frame.items lib l ++ Frame.items lib m := List.filterMap_append

theorem HasMap.marks_markAsHaving (m : HasMap) (info : BundleInfo) :
    (m.markAsHaving info).marks = taking m.marks info.item := by
  funext chain
  show ((m.markAsHaving info).seenThrough chain).val
    = Function.update m.marks info.chain (max (m.marks info.chain) info.timestamp.val) chain
  rw [HasMap.seenThrough_markAsHaving]
  by_cases hc : chain = info.chain
  · subst hc
    rw [if_pos rfl, Function.update_self]
    exact Fin.coe_max _ _
  · rw [if_neg hc, Function.update_of_ne hc]
    rfl

namespace Connection

variable {lib : Externals} {c : Connection} {d : Decomposition} {info : BundleInfo}

theorem lacks_iff {tracker : HasMap} (ht : c.tracker = some tracker) :
    c.lacks info = true ↔ tracker.marks info.chain < info.timestamp.val := by
  rw [lacks_tracker ht, Bool.not_eq_true']
  unfold HasMap.has HasMap.marks
  rw [decide_eq_false_iff_not, Fin.le_def, not_le]

/-- What a connection that is up is left with by an offer: the frame, if it goes out. -/
theorem offered_sent (hup : c.socket = .up) :
    (c.offered d info).sent
      = c.sent ++ if c.lacks info then [.message (.bundle d.bundleBytes)] else [] := by
  unfold offered
  cases hlacks : c.lacks info with
  | true => simp [hup]
  | false => simp

theorem offered_tracker (c : Connection) (d : Decomposition) (info : BundleInfo) :
    (c.offered d info).tracker = c.tracker.map (·.markAsHaving info) := by
  unfold offered
  cases hlacks : c.lacks info with
  | true =>
      by_cases hup : c.socket = .up
      · simp [hup]
      · simp [hup]
  | false =>
      cases ht : c.tracker with
      | none => simp [ht]
      | some tracker =>
          have hnot : ¬ tracker.marks info.chain < info.timestamp.val := by
            rw [← lacks_iff ht, hlacks]
            simp
          have hsame : tracker.markAsHaving info = tracker := if_neg hnot
          simp [ht, hsame]

/-- The items on the connection grow by what an offer puts out. -/
theorem items_offered (hd : d.getInfo lib = .ok info) (hup : c.socket = .up) :
    Frame.items lib (c.offered d info).sent
      = Frame.items lib c.sent ++ offering (c.tracker.map HasMap.marks) info.item := by
  have hframe : Frame.items lib [.message (.bundle d.bundleBytes)] = [info.item] := by
    unfold Frame.items
    rw [List.filterMap_cons, Frame.item?_bundle hd]
    rfl
  rw [offered_sent hup, Frame.items_append]
  congr 1
  cases ht : c.tracker with
  | none =>
      have hlacks : c.lacks info = false := by
        unfold lacks
        rw [ht]
        rfl
      rw [hlacks]
      rfl
  | some tracker =>
      unfold offering
      by_cases hlacks : c.lacks info = true
      · have hlt : tracker.marks info.item.list < info.item.time := (lacks_iff ht).mp hlacks
        rw [if_pos hlacks, hframe]
        simp [hlt]
      · have hlt : ¬ tracker.marks info.item.list < info.item.time :=
          fun h => hlacks ((lacks_iff ht).mpr h)
        rw [if_neg hlacks]
        simp [hlt, Frame.items]

/-- A connection of a relay that is up: nothing on it was closed, and it may do everything. -/
structure Up (c : Connection) : Prop where
  owner : c.owner = .relay
  perms : c.perms = authFull
  closed : c.closed = false
  wsClosed : c.wsClosed = false
  socket : c.socket = .up

theorem Up.canRite (h : c.Up) : c.canRite = true := by
  unfold Connection.canRite
  rw [h.perms]
  rfl

theorem Up.ready (h : c.Up) (hconnected : c.wsConnected = true) : c.ready = true := by
  unfold Connection.ready
  rw [h.closed, h.wsClosed, hconnected]
  rfl

theorem socketSend_up (h : c.socket = .up) (f : Frame) :
    socketSend f c = .ok () { c with sent := c.sent ++ [f] } := by
  unfold socketSend
  rw [h]

/-- What is sent on it is written, once it is connected. -/
theorem Up.send (h : c.Up) (hconnected : c.wsConnected = true) (m : SyncMessage) :
    Connection.send m c = .ok () { c with sent := c.sent ++ [.message m] } :=
  send_up (h.ready hconnected) h.socket m

end Connection

namespace Server

variable {σ κ : Type} {env : ServerEnv σ κ} {s : Server σ} {d : Decomposition} {info : BundleInfo}
  {builder : BundleBuilder} {clock : κ}

/-! ## §2. Bundles. -/

/-- A needed bundle is stored and offered on all connections. -/
theorem receive_needed (hb : d.getBuilder env.lib = .ok builder)
    (hvalid : validateBundle builder = .ok ()) (hd : d.getInfo env.lib = .ok info)
    (hresult : (env.ops.applyBundle s.store d clock).2 = .ok true)
    (halone : s.chainConnections info.chain = [])
    (hfine : ∀ id ∈ s.connections, (s.heap id).fails info = false) :
    receive env d clock s = .ok true
      (({ s with store := (env.ops.applyBundle s.store d clock).1 }).offeredOn d info
        fun i => decide (i ∈ s.connections)) := by
  have hnone : ({ s with store := (env.ops.applyBundle s.store d clock).1 } : Server σ).NoneFails
      info := by
    refine ⟨hfine, ?_⟩
    intro id hid
    have hid : id ∈ s.chainConnections info.chain := hid
    rw [halone] at hid
    exact absurd hid List.not_mem_nil
  unfold receive
  rw [hb, Action.of_ok_bind, hvalid, Action.of_ok_bind]
  unfold applyBundle
  rw [Action.get_bind, Action.set_bind, hresult, Action.of_ok_bind]
  simp only [if_true]
  rw [Action.bind_eq, onBundle_ok hd hnone]
  have hconnections : (fun i => decide (i ∈ s.connections) ||
      (decide (i ∈ s.chainConnections info.chain) && s.entitled info i))
        = fun i => decide (i ∈ s.connections) := by
    funext i
    rw [halone]
    simp
  show EStateM.Result.ok true _ = _
  exact congrArg (fun p => EStateM.Result.ok true
    (({ s with store := (env.ops.applyBundle s.store d clock).1 } : Server σ).offeredOn d info p))
    hconnections

/-- A bundle that the store has already is not. -/
theorem receive_known (hb : d.getBuilder env.lib = .ok builder)
    (hvalid : validateBundle builder = .ok ())
    (hresult : (env.ops.applyBundle s.store d clock).2 = .ok false) :
    receive env d clock s = .ok false
      { s with store := (env.ops.applyBundle s.store d clock).1 } := by
  unfold receive
  rw [hb, Action.of_ok_bind, hvalid, Action.of_ok_bind]
  unfold applyBundle
  rw [Action.get_bind, Action.set_bind, hresult, Action.of_ok_bind]
  rfl

/-- And one that the store refuses leaves what the store makes of it. -/
theorem receive_refused {e : Error} (hb : d.getBuilder env.lib = .ok builder)
    (hvalid : validateBundle builder = .ok ())
    (hresult : (env.ops.applyBundle s.store d clock).2 = .error e) :
    receive env d clock s = .error e
      { s with store := (env.ops.applyBundle s.store d clock).1 } := by
  unfold receive
  rw [hb, Action.of_ok_bind, hvalid, Action.of_ok_bind]
  unfold applyBundle
  rw [Action.get_bind, Action.set_bind, hresult, Action.of_error_bind]

/-! ## §3. Frames. -/

/-- The relay with the connection in another state. -/
def withConnection (s : Server σ) (id : Nat) (c : Connection) : Server σ :=
  { s with heap := Function.update s.heap id c }

theorem withConnection_self (s : Server σ) (id : Nat) (c : Connection) :
    (s.withConnection id c).heap id = c := Function.update_self _ _ _

theorem withConnection_heap (s : Server σ) (id : Nat) : s.withConnection id (s.heap id) = s := by
  unfold withConnection
  rw [Function.update_eq_self]

theorem withConnection_twice (s : Server σ) (id : Nat) (c c' : Connection) :
    (s.withConnection id c).withConnection id c' = s.withConnection id c' := by
  unfold withConnection
  rw [Function.update_idem]

theorem amend_apply (id : Nat) (f : Connection → Connection) (s : Server σ) :
    amend id f s = .ok () (s.withConnection id (f (s.heap id))) := rfl

/-- Sending on a connection that is up. -/
theorem send_apply {id : Nat} (h : (s.heap id).Up) (hconnected : (s.heap id).wsConnected = true)
    (m : SyncMessage) : onConnection id (Connection.send m) s = .ok ()
      (s.withConnection id { s.heap id with sent := (s.heap id).sent ++ [.message m] }) :=
  onConnection_ok (h.send hconnected m)

theorem socketSend_apply {id : Nat} (h : (s.heap id).Up) (f : Frame) :
    onConnection id (Connection.socketSend f) s = .ok ()
      (s.withConnection id { s.heap id with sent := (s.heap id).sent ++ [f] }) := by
  exact onConnection_ok (Connection.socketSend_up h.socket f)

variable {id : Nat}

/-- What a frame on a connection of the relay comes to. -/
theorem handle_frame (hmade : id ∈ s.created) (hin : id ∈ s.connections) (hup : (s.heap id).Up)
    {frame : Frame} {thing : Option Thing} {s₁ s₂ : Server σ}
    (hreceived : receiveFrame env id none frame s = .ok thing s₁)
    (hdone : (match thing with
      | none => pure ()
      | some thing => relayThing env id clock thing : Action (Server σ) Unit) s₁ = .ok () s₂) :
    handle env (.frame id none frame clock) s = .ok () s₂ := by
  unfold handle
  simp only
  rw [Action.get_bind, if_pos hmade]
  unfold onReady
  rw [Action.get_bind, if_neg (fun h => h.2 hin)]
  refine Action.recover_ok ?_
  rw [Action.bind_of_ok hreceived]
  cases thing with
  | none => exact hdone
  | some thing =>
      simp only [hup.owner]
      exact hdone

theorem connFunc_relay (h : (s.heap id).owner = .relay) :
    connFunc env id s = .ok (hasMap env s) s := by
  unfold connFunc
  rw [Action.get_bind, h]
  rfl

/-- The upgrade request of a client. -/
theorem handle_request (hmade : id ∈ s.created) (hin : id ∈ s.connections) (hup : (s.heap id).Up)
    (hserver : (s.heap id).isClient = false) (hnew : (s.heap id).wsConnected = false) :
    handle env (.frame id none (.request true) clock) s = .ok () (s.withConnection id
      { s.heap id with
        wsConnected := true
        sent := (s.heap id).sent ++ [.acceptConnection,
          .message (.greeting (hasMap env s).toGreeting)] }) := by
  have hrequest : onRequest env id none true s = .ok () (s.withConnection id
      { s.heap id with
        wsConnected := true
        sent := (s.heap id).sent ++ [.acceptConnection,
          .message (.greeting (hasMap env s).toGreeting)] }) := by
    have hperms : ({ s.heap id with perms := (s.heap id).perms ||| (none : Option Nat).getD 0 } :
        Connection) = s.heap id := by
      rw [Option.getD_none, Nat.or_zero]
    have hall : ¬ ((s.heap id).perms = authNone ∨ true = false) := by
      rw [hup.perms]
      decide
    unfold onRequest
    rw [Action.bind_of_ok (amend_apply _ _ _), hperms, withConnection_heap, Action.get_bind,
      if_neg hall]
    beta_reduce
    rw [Action.bind_of_ok (Action.recover_ok (connFunc_relay hup.owner)),
      Action.bind_of_ok (socketSend_apply hup _), Action.bind_of_ok (amend_apply _ _ _),
      withConnection_self, withConnection_twice]
    unfold sendGreeting
    rw [Action.get_bind, withConnection_self]
    have hrite := hup.canRite
    unfold Connection.canRite at hrite ⊢
    simp only [hrite, if_true]
    rw [send_apply]
    · rw [withConnection_self, withConnection_twice]
      simp only [List.append_assoc]
      rfl
    · rw [withConnection_self]
      exact ⟨hup.owner, hup.perms, hup.closed, hup.wsClosed, hup.socket⟩
    · rw [withConnection_self]
  refine @handle_frame _ _ _ _ _ _ hmade hin hup _ none _ _ ?_ rfl
  unfold receiveFrame
  rw [Action.get_bind, if_neg (by simp [hup.closed])]
  simp only
  rw [if_neg (by simp [hserver, hnew]), Action.bind_of_ok hrequest]
  rfl

/-- The acceptance of a server. -/
theorem handle_accept (hmade : id ∈ s.created) (hin : id ∈ s.connections) (hup : (s.heap id).Up)
    (hclient : (s.heap id).isClient = true) (hnew : (s.heap id).wsConnected = false) :
    handle env (.frame id none .acceptConnection clock) s = .ok () (s.withConnection id
      { s.heap id with
        wsConnected := true
        sent := (s.heap id).sent ++ [.message (.greeting (hasMap env s).toGreeting)] }) := by
  refine @handle_frame _ _ _ _ _ _ hmade hin hup _ none _ _ ?_ rfl
  unfold receiveFrame
  rw [Action.get_bind, if_neg (by simp [hup.closed])]
  simp only
  rw [if_neg (by simp [hclient, hnew]), Action.bind_of_ok (amend_apply _ _ _), if_pos hup.canRite]
  rw [Action.bind_of_ok (connFunc_relay (by rw [withConnection_self]; exact hup.owner)),
    Action.bind_of_ok (send_apply ?_ ?_ _)]
  · rw [withConnection_self, withConnection_twice]
    rfl
  · rw [withConnection_self]
    exact ⟨hup.owner, hup.perms, hup.closed, hup.wsClosed, hup.socket⟩
  · rw [withConnection_self]

/-- A message, once the connection is connected. -/
theorem receiveFrame_connected (hup : (s.heap id).Up) (hconnected : (s.heap id).wsConnected = true)
    (m : SyncMessage) :
    receiveFrame env id none (.message m) s = onMessage env.lib id m s := by
  unfold receiveFrame
  rw [Action.get_bind, if_neg (by simp [hup.closed])]
  simp only [hconnected, Bool.not_true, Bool.false_eq_true, if_false]

/-- Acknowledgements and signals change nothing. -/
theorem handle_idle (hmade : id ∈ s.created) (hin : id ∈ s.connections) (hup : (s.heap id).Up)
    (hconnected : (s.heap id).wsConnected = true) {m : SyncMessage}
    (hm : (∃ medallion chainStart timestamp previous, m = .ack medallion chainStart timestamp previous)
      ∨ ∃ signal, m = .signal signal) :
    handle env (.frame id none (.message m) clock) s = .ok () s := by
  rcases hm with ⟨medallion, chainStart, timestamp, previous, rfl⟩ | ⟨signal, rfl⟩
  · exact @handle_frame _ _ _ _ _ _ hmade hin hup _ (some .ack) s _
      (by rw [receiveFrame_connected hup hconnected]; rfl) rfl
  · exact @handle_frame _ _ _ _ _ _ hmade hin hup _ none s _
      (by rw [receiveFrame_connected hup hconnected]; rfl) rfl

/-- A bundle: the connection takes note of it, the relay receives it, and it is acknowledged. -/
theorem handle_bundle (hmade : id ∈ s.created) (hin : id ∈ s.connections) (hup : (s.heap id).Up)
    (hconnected : (s.heap id).wsConnected = true) (hd : d.getInfo env.lib = .ok info)
    {needed : Bool} {s' : Server σ} (hreceived : receive env d clock (s.noted id info) = .ok needed s')
    (hup' : (s'.heap id).Up) (hconnected' : (s'.heap id).wsConnected = true) :
    handle env (.frame id none (.message (.bundle d.bundleBytes)) clock) s = .ok ()
      (s'.withConnection id { s'.heap id with
        sent := (s'.heap id).sent ++ [.message info.asAcknowledgement] }) := by
  refine @handle_frame _ _ _ _ _ _ hmade hin hup _ (some (.data d)) (s.noted id info) _ ?_ ?_
  · rw [receiveFrame_connected hup hconnected]
    unfold onMessage
    have hd : (Decomposition.mk d.bundleBytes).getInfo env.lib = .ok info := hd
    simp only
    rw [hd, Action.of_ok_bind]
    rfl
  · show relayThing env id clock (.data d) (s.noted id info) = _
    unfold relayThing
    simp only
    rw [Action.bind_of_ok hreceived, hd, Action.of_ok_bind]
    exact send_apply hup' hconnected' _

/-- A greeting: the relay answers with what it holds. -/
theorem handle_greeting (hmade : id ∈ s.created) (hin : id ∈ s.connections) (hup : (s.heap id).Up)
    (hconnected : (s.heap id).wsConnected = true) {entries : List (Chain × U64)}
    {bundles : List Decomposition} (hbundles : env.ops.getBundles s.store none = .ok bundles)
    {s' : Server σ}
    (hsent : sendBacklog env.lib id bundles (s.greeted id (.ofGreeting entries)) = .ok () s')
    (hup' : (s'.heap id).Up) (hconnected' : (s'.heap id).wsConnected = true) :
    handle env (.frame id none (.message (.greeting entries)) clock) s = .ok ()
      (s'.withConnection id { s'.heap id with
        sent := (s'.heap id).sent ++ [.message (.signal .initialBundlesSent)] }) := by
  refine @handle_frame _ _ _ _ _ _ hmade hin hup _ (some (.greeting (.ofGreeting entries)))
    (s.greeted id (.ofGreeting entries)) _ ?_ ?_
  · rw [receiveFrame_connected hup hconnected]
    rfl
  · show relayThing env id clock (.greeting (.ofGreeting entries)) _ = _
    unfold relayThing
    simp only
    have hbundles : env.ops.getBundles (s.greeted id (.ofGreeting entries)).store none
        = .ok bundles := hbundles
    rw [Action.get_bind, hbundles, Action.of_ok_bind, Action.bind_of_ok hsent]
    exact send_apply hup' hconnected' _

end Server

end Gink
