/-
  Gink.Sync.Connection — one websocket to a peer (connection.py).

  The websocket library turns bytes into events and back, so a connection is fed
  frames and writes frames: the handshake, close, text, ping and pong, and binary
  messages, each of which holds a `SyncMessage`.  Everything the socket has taken is
  kept in order in `sent`.
-/
import Gink.Proto.Action
import Gink.Sync.HasMap

namespace Gink

/-! ## §1. What goes over the wire. -/

/-- `SyncMessage.Signal`. -/
inductive Signal where
  | undefined
  | initialBundlesSent
  | readOnlyConnection
  deriving DecidableEq, Repr

/-- sync_message.proto: the member of the `oneof` that is set, if any. -/
inductive SyncMessage where
  | unset
  | bundle (bundle : Bytes)
  | greeting (entries : List (Chain × U64))
  | ack (medallion chainStart timestamp previous : U64)
  | signal (signal : Signal)
  deriving DecidableEq, Repr

/-- The events of the websocket library, in both directions. -/
inductive Frame where
  /-- the upgrade request; `gink` is set when the subprotocol is offered -/
  | request (gink : Bool)
  | acceptConnection
  | rejectConnection
  | closeConnection
  | text (data : String)
  | ping
  | pong
  | message (m : SyncMessage)
  deriving DecidableEq, Repr

/-- The frame carries a bundle. -/
def Frame.isBundle : Frame → Bool
  | .message (.bundle _) => true
  | _ => false

/-- `info.as_acknowledgement()`. -/
def BundleInfo.asAcknowledgement (info : BundleInfo) : SyncMessage :=
  .ack info.medallion info.chainStart info.timestamp info.previous

/-! ## §2. The connection object. -/

/-- `AUTH_NONE`, `AUTH_READ`, `AUTH_RITE` and `AUTH_FULL` (typedefs.py). -/
def authNone : Nat := 0

def authRead : Nat := 1

def authRite : Nat := 2

def authFull : Nat := 7

/-- How the peer's end answers a `socket.send`. -/
inductive Socket where
  | up
  /-- every send raises `BrokenPipeError` -/
  | broken
  /-- every send raises some other `OSError` -/
  | reset
  deriving DecidableEq, Repr

/-- Who made the connection, which decides what is called when it is ready. -/
inductive Owner where
  | relay
  | braidServer
  deriving DecidableEq, Repr

/-- `Connection`. -/
structure Connection where
  owner : Owner := .relay
  isClient : Bool := false
  perms : Nat := authFull
  tracker : Option HasMap := none
  wsConnected : Bool := false
  wsClosed : Bool := false
  closed : Bool := false
  socket : Socket := .up
  /-- what was written to the socket -/
  sent : List Frame := []
  deriving Inhabited

namespace Connection

/-- `get_permissions() & AUTH_READ`. -/
def canRead (c : Connection) : Bool := decide (c.perms &&& authRead ≠ 0)

/-- `get_permissions() & AUTH_RITE`. -/
def canRite (c : Connection) : Bool := decide (c.perms &&& authRite ≠ 0)

/-- `self._socket.send(self._ws.send(frame))`. -/
def socketSend (frame : Frame) : Action Connection Unit := fun c =>
  match c.socket with
  | .up => .ok () { c with sent := c.sent ++ [frame] }
  | .broken => .error .brokenPipeError c
  | .reset => .error .connectionError c

/-- `close()`: a broken pipe is tolerated, and in any case the socket is closed. -/
def close : Action Connection Unit := fun c =>
  if c.closed then .ok () c
  else if c.wsConnected && !c.wsClosed then
    match socketSend .closeConnection c with
    | .ok _ c => .ok () { c with wsClosed := true, closed := true }
    | .error .brokenPipeError c => .ok () { c with closed := true }
    | .error e c => .error e { c with closed := true }
  else .ok () { c with closed := true }

/-- `send(sync_message)`: an error of the socket closes the connection and is dropped. -/
def send (m : SyncMessage) : Action Connection Unit := fun c =>
  if c.closed then .error (.valueError "connection already closed!") c
  else if c.wsClosed then .error (.valueError "websocket shut down") c
  else if !c.wsConnected then .error (.valueError "connection not ready!") c
  else match socketSend (.message m) c with
    | .ok _ c => .ok () c
    | .error _ c => close c

/-- `self._tracker.mark_as_having(info)`. -/
def markAsHaving (info : BundleInfo) (c : Connection) : Connection :=
  { c with tracker := c.tracker.map (·.markAsHaving info) }

/-- `send_bundle(decomposition)`. -/
def sendBundle (lib : Externals) (d : Decomposition) : Action Connection Unit := do
  let info ← Action.of (d.getInfo lib)
  let c ← get
  match c.tracker with
  | none => pure ()
  | some tracker =>
      if tracker.has info then pure ()
      else do
        Action.of (ensure (tracker.isValidExtension info)
          (.valueError "bundle would be an invalid extension!"))
        send (.bundle d.bundleBytes)
        modify (markAsHaving info)

/-! ## §3. What sending a bundle can do. -/

/-- The peer has greeted and is not known to have the bundle. -/
def lacks (c : Connection) (info : BundleInfo) : Bool := c.tracker.any (!·.has info)

/-- The peer has greeted and has the bundle before. -/
def hasPredecessor (c : Connection) (info : BundleInfo) : Bool :=
  c.tracker.any (·.isValidExtension info)

/-- The connection is open and ready. -/
def ready (c : Connection) : Bool := !c.closed && !c.wsClosed && c.wsConnected

/-- A live connection: what is sent on it leaves. -/
def live (c : Connection) : Bool := c.ready && decide (c.socket = .up)

/-- `send_bundle` would raise: the peer lacks the bundle, and its predecessor too, or the
connection is not open and ready, or breaks with an error that `close` does not catch. -/
def fails (c : Connection) (info : BundleInfo) : Bool :=
  c.lacks info && (!c.hasPredecessor info || !c.ready || decide (c.socket = .reset))

/-- The connection after a `send_bundle` that does not raise.  On a broken pipe the
bundle counts as sent and the connection is closed. -/
def offered (c : Connection) (d : Decomposition) (info : BundleInfo) : Connection :=
  if c.lacks info then
    if c.socket = .up then
      { c with
        sent := c.sent ++ [.message (.bundle d.bundleBytes)]
        tracker := c.tracker.map (·.markAsHaving info) }
    else { c with closed := true, tracker := c.tracker.map (·.markAsHaving info) }
  else c

section
variable {c : Connection}

/-- What `send` does on an open connection depends on the socket. -/
theorem send_up (h : c.ready = true) (hs : c.socket = .up) (m : SyncMessage) :
    send m c = .ok () { c with sent := c.sent ++ [.message m] } := by
  unfold ready at h
  simp only [Bool.and_eq_true, Bool.not_eq_true'] at h
  unfold send socketSend
  rw [h.1.1, h.1.2, h.2, hs]
  rfl

theorem send_broken (h : c.ready = true) (hs : c.socket = .broken) (m : SyncMessage) :
    send m c = .ok () { c with closed := true } := by
  unfold ready at h
  simp only [Bool.and_eq_true, Bool.not_eq_true'] at h
  unfold send close socketSend
  rw [h.1.1, h.1.2, h.2, hs]
  simp [h, hs]

theorem send_reset (h : c.ready = true) (hs : c.socket = .reset) (m : SyncMessage) :
    send m c = .error .connectionError { c with closed := true } := by
  unfold ready at h
  simp only [Bool.and_eq_true, Bool.not_eq_true'] at h
  unfold send close socketSend
  rw [h.1.1, h.1.2, h.2, hs]
  simp [h, hs]

theorem send_not_ready (h : c.ready = false) (m : SyncMessage) : ∃ e, send m c = .error e c := by
  unfold ready at h
  unfold send
  by_cases h1 : c.closed = true
  · exact ⟨_, if_pos h1⟩
  rw [if_neg h1]
  by_cases h2 : c.wsClosed = true
  · exact ⟨_, if_pos h2⟩
  rw [if_neg h2]
  by_cases h3 : c.wsConnected = true
  · simp [h1, h2, h3] at h
  · exact ⟨_, if_pos (by simpa using h3)⟩

/-- Whatever `send` meets, it keeps what was sent and who the peer is. -/
theorem lacks_tracker {tracker : HasMap} (ht : c.tracker = some tracker) (info : BundleInfo) :
    c.lacks info = !tracker.has info := by
  unfold lacks
  rw [ht]
  rfl

end

variable {lib : Externals} {d : Decomposition} {info : BundleInfo}

/-- What `send_bundle` comes to for a peer that lacks the bundle. -/
theorem sendBundle_lacking (hd : d.getInfo lib = .ok info) {c : Connection} {tracker : HasMap}
    (ht : c.tracker = some tracker) (hlacks : c.lacks info = true) :
    sendBundle lib d c = (do
      Action.of (ensure (tracker.isValidExtension info)
        (.valueError "bundle would be an invalid extension!"))
      send (.bundle d.bundleBytes)
      modify (markAsHaving info) : Action Connection Unit) c := by
  rw [lacks_tracker ht] at hlacks
  unfold sendBundle
  rw [hd, Action.of_ok_bind, Action.get_bind]
  simp only [ht]
  rw [if_neg (by simpa using hlacks)]

/-- And it leaves alone a peer that has it or has not greeted. -/
theorem sendBundle_of_not_lacks (hd : d.getInfo lib = .ok info) {c : Connection}
    (h : c.lacks info = false) : sendBundle lib d c = .ok () c := by
  unfold sendBundle
  rw [hd, Action.of_ok_bind, Action.get_bind]
  rcases Option.eq_none_or_eq_some c.tracker with ht | ⟨tracker, ht⟩
  · simp only [ht]
    rfl
  · rw [lacks_tracker ht] at h
    simp only [ht]
    rw [if_pos (by simpa using h)]
    rfl

/-- **`send_bundle` returns** unless it `fails`. -/
theorem sendBundle_ok (hd : d.getInfo lib = .ok info) {c : Connection}
    (h : c.fails info = false) : sendBundle lib d c = .ok () (c.offered d info) := by
  unfold offered
  cases hlacks : c.lacks info with
  | false =>
      rw [if_neg (by simp)]
      exact sendBundle_of_not_lacks hd hlacks
  | true =>
      obtain ⟨tracker, ht⟩ : ∃ tracker, c.tracker = some tracker := by
        rcases Option.eq_none_or_eq_some c.tracker with ht | ht
        · unfold lacks at hlacks
          rw [ht] at hlacks
          simp at hlacks
        · exact ht
      unfold fails hasPredecessor at h
      rw [hlacks, ht] at h
      simp only [Option.any_some, Bool.true_and, Bool.or_eq_false_iff, Bool.not_eq_false',
        decide_eq_false_iff_not] at h
      obtain ⟨⟨hvalid, hready⟩, hreset⟩ := h
      rw [sendBundle_lacking hd ht hlacks, hvalid, ensure_true, Action.of_ok_bind, Action.bind_eq,
        if_pos rfl]
      by_cases hs : c.socket = .up
      · rw [send_up hready hs, if_pos hs]
        rfl
      · have hbroken : c.socket = .broken := by
          revert hs hreset
          cases c.socket <;> simp
        rw [send_broken hready hbroken, if_neg hs]
        rfl

/-- **And raises where it does**, with nothing sent. -/
theorem sendBundle_error (hd : d.getInfo lib = .ok info) {c : Connection}
    (h : c.fails info = true) :
    ∃ e c', sendBundle lib d c = .error e c' ∧ (c' = c ∨ c' = { c with closed := true }) := by
  unfold fails at h
  rw [Bool.and_eq_true] at h
  obtain ⟨hlacks, hcause⟩ := h
  obtain ⟨tracker, ht⟩ : ∃ tracker, c.tracker = some tracker := by
    rcases Option.eq_none_or_eq_some c.tracker with ht | ht
    · unfold lacks at hlacks
      rw [ht] at hlacks
      simp at hlacks
    · exact ht
  rw [sendBundle_lacking hd ht hlacks]
  cases hvalid : tracker.isValidExtension info with
  | false => exact ⟨_, c, rfl, Or.inl rfl⟩
  | true =>
      rw [ensure_true, Action.of_ok_bind]
      cases hready : c.ready with
      | false =>
          obtain ⟨e, he⟩ := send_not_ready hready (.bundle d.bundleBytes)
          rw [Action.bind_eq, he]
          exact ⟨e, c, rfl, Or.inl rfl⟩
      | true =>
          have hreset : c.socket = .reset := by
            unfold hasPredecessor at hcause
            rw [ht, hready] at hcause
            simpa [hvalid] using hcause
          rw [Action.bind_eq, send_reset hready hreset]
          exact ⟨_, _, rfl, Or.inr rfl⟩

/-- Once offered, a bundle is not lacking. -/
theorem lacks_offered (c : Connection) : (c.offered d info).lacks info = false := by
  have hmarked : (c.tracker.map (·.markAsHaving info)).any (!·.has info) = false := by
    cases c.tracker with
    | none => rfl
    | some tracker => simp [HasMap.has_markAsHaving]
  unfold offered
  cases hlacks : c.lacks info with
  | false => simpa using hlacks
  | true =>
      rw [if_pos rfl]
      by_cases hs : c.socket = .up
      · rw [if_pos hs]
        exact hmarked
      · rw [if_neg hs]
        exact hmarked

theorem offered_of_not_lacks {c : Connection} (h : c.lacks info = false) : c.offered d info = c := by
  unfold offered
  rw [if_neg (by simp [h])]

theorem offered_offered (c : Connection) : (c.offered d info).offered d info = c.offered d info :=
  offered_of_not_lacks (lacks_offered c)

theorem fails_of_not_lacks {c : Connection} (h : c.lacks info = false) : c.fails info = false := by
  unfold fails
  rw [h, Bool.false_and]

end Connection

end Gink
