/-
  Gink.Sync.Traffic — what one event can do to the store, to the braids and to what has
  been sent.

  The laws about runs of a server all rest on one reading of its code, done here once:
  a bundle leaves on a connection as part of the backlog that answers a greeting or
  because it has just arrived and was stored; the store changes where a bundle arrives;
  a braid changes where one arrives from a connection that may write.
-/
import Gink.Sync.Scope

namespace Gink

namespace Server

variable {σ κ α : Type} {s₀ s : Server σ} {sc : Scope σ}

/-! ## §1. Bundles that arrive. -/

variable {env : ServerEnv σ κ}

/-- The server reads messages on the connection: it was made and has shaken hands, and was
neither closed nor let go of. -/
structure Serves (s : Server σ) (id : Nat) : Prop where
  created : id ∈ s.created
  kept : (s.heap id).owner = .relay → id ∈ s.connections
  unclosed : (s.heap id).closed = false
  connected : (s.heap id).wsConnected = true

/-- A bundle that comes in; `pusher` is the connection of a braid it was pushed through. -/
structure Arrival (κ : Type) where
  pusher : Option Nat
  bundle : Decomposition
  clock : κ
  info : BundleInfo

/-- The ways a bundle comes in. -/
inductive Arrives (env : ServerEnv σ κ) (s : Server σ) : Event κ → Arrival κ → Prop where
  | call {d clock info} : d.getInfo env.lib = .ok info →
      Arrives env s (.receive d clock) ⟨none, d, clock, info⟩
  | relay {id auth bytes clock info} : (Decomposition.mk bytes).getInfo env.lib = .ok info →
      s.Serves id → (s.heap id).owner = .relay →
      Arrives env s (.frame id auth (.message (.bundle bytes)) clock) ⟨none, ⟨bytes⟩, clock, info⟩
  | braid {id auth bytes clock info} : (Decomposition.mk bytes).getInfo env.lib = .ok info →
      s.Serves id → (s.heap id).owner = .braidServer → (s.heap id).canRite = true →
      Arrives env s (.frame id auth (.message (.bundle bytes)) clock)
        ⟨some id, ⟨bytes⟩, clock, info⟩

theorem Arrives.getInfo {e : Event κ} {a : Arrival κ} (h : Arrives env s e a) :
    a.bundle.getInfo env.lib = .ok a.info := by
  cases h with
  | call hd => exact hd
  | relay hd => exact hd
  | braid hd => exact hd

/-- The push makes its braid wider: it has no such chain, and the bundle starts one. -/
def widens (s : Server σ) (braid : Muid) (info : BundleInfo) : Prop :=
  (s.braids braid).get? info.chain = none ∧ info.timestamp = info.chainStart

instance (s : Server σ) (braid : Muid) (info : BundleInfo) : Decidable (s.widens braid info) := by
  unfold widens
  infer_instance

/-- The braids once a bundle has come in. -/
def braidsAfter (s : Server σ) (a : Arrival κ) : Muid → Table Chain Limit :=
  match a.pusher.bind s.connectionBraid with
  | none => s.braids
  | some braid =>
      if s.widens braid a.info then
        Function.update s.braids braid ((s.braids braid).put a.info.chain .inf)
      else s.braids

/-- The store after `receive`: a bundle that is not valid does not get there. -/
def storeAfter (env : ServerEnv σ κ) (s : Server σ) (a : Arrival κ) : σ :=
  match a.bundle.getBuilder env.lib >>= validateBundle with
  | .ok _ => (env.ops.applyBundle s.store a.bundle a.clock).1
  | .error _ => s.store

/-- The connection is one of the relay's, or has a braid that reaches past the bundle by
the time it is stored. -/
def Hears (s : Server σ) (a : Arrival κ) (id : Nat) : Prop :=
  id ∈ s.connections ∨ ∃ braid, s.connectionBraid id = some braid ∧
    ((s.braidsAfter a braid).get? a.info.chain).any (·.exceeds a.info.timestamp.val) = true

/-- Who is sent a bundle that comes in: it is new to the store, and the connection hears of
it and is not known to have it. -/
structure Live (env : ServerEnv σ κ) (s : Server σ) (a : Arrival κ) (id : Nat) : Prop where
  valid : ∃ builder, a.bundle.getBuilder env.lib = .ok builder ∧ validateBundle builder = .ok ()
  new : (env.ops.applyBundle s.store a.bundle a.clock).2 = .ok true
  hears : s.Hears a id
  lacks : (s.heap id).lacks a.info = true

/-- Who is sent a bundle that was stored before: the connection that greets. -/
inductive Backlog (env : ServerEnv σ κ) (s : Server σ) : Event κ → Nat → Decomposition → Prop where
  | relay {id auth entries clock bundles d info} :
      s.Serves id → (s.heap id).owner = .relay →
      env.ops.getBundles s.store none = .ok bundles → d ∈ bundles →
      d.getInfo env.lib = .ok info → (HasMap.ofGreeting entries).has info = false →
      Backlog env s (.frame id auth (.message (.greeting entries)) clock) id d
  | braid {id auth entries clock braid bundles d} :
      (s.heap id).owner = .braidServer → (s.heap id).canRead = true →
      s.connectionBraid id = some braid →
      env.ops.getBundles s.store (some (s.limitTo braid)) = .ok bundles → d ∈ bundles →
      Backlog env s (.frame id auth (.message (.greeting entries)) clock) id d

/-- Who hears a bundle was connected, and with the same braid, when it arrived. -/
def Stayed (s : Server σ) (a : Audience) : Prop :=
  a.1 = s.connections ∧ ∀ id braid, a.2 id = some braid → s.connectionBraid id = some braid

theorem Stayed.leave {s : Server σ} {conns : List Nat} {braidOf : Nat → Option Muid}
    (h : s.Stayed (conns, braidOf)) (id : Nat) :
    s.Stayed (conns, Function.update braidOf id none) := by
  refine ⟨h.1, ?_⟩
  intro i braid hi
  by_cases hid : i = id
  · subst hid
    simp at hi
  · exact h.2 i braid (by simpa [hid] using hi)

/-- What may be done on an arrival while the store is this one. -/
def arrival (env : ServerEnv σ κ) (s : Server σ) (a : Arrival κ) (store : σ) : Scope σ where
  sends id d := d = a.bundle ∧ Live env s a id
  lacks id i := i = a.info → (s.heap id).lacks a.info = true
  state t b := t = store ∧ b = s.braidsAfter a
  audience := s.Stayed

/-- **`receive`**: the store takes the bundle, and if it is new the audience hears of it. -/
theorem After.receive {a : Arrival κ} (hd : a.bundle.getInfo env.lib = .ok a.info) :
    ∀ s, After s₀ (arrival env s₀ a s₀.store) s →
      After s₀ (arrival env s₀ a (storeAfter env s₀ a))
        (Action.endState (Server.receive env a.bundle a.clock s)) := by
  intro s hs
  unfold Server.receive storeAfter
  cases hb : a.bundle.getBuilder env.lib with
  | error e => exact hs
  | ok builder =>
      rw [Action.of_ok_bind]
      show After s₀ (arrival env s₀ a (match validateBundle builder with
        | .ok _ => (env.ops.applyBundle s₀.store a.bundle a.clock).1
        | .error _ => s₀.store)) _
      cases hv : validateBundle builder with
      | error e => exact hs
      | ok u =>
          rw [Action.of_ok_bind]
          unfold Server.applyBundle
          rw [Action.get_bind, Action.set_bind, show s.store = s₀.store from hs.state.1]
          -- from here on the store has taken the bundle
          have hstored : After s₀ (arrival env s₀ a
              (env.ops.applyBundle s₀.store a.bundle a.clock).1)
              { s with store := (env.ops.applyBundle s₀.store a.bundle a.clock).1 } :=
            ⟨hs.heap, ⟨rfl, hs.state.2⟩, hs.audience, hs.created⟩
          cases hr : (env.ops.applyBundle s₀.store a.bundle a.clock).2 with
          | error e => exact hstored
          | ok needed =>
              rw [Action.of_ok_bind]
              cases needed with
              | false => exact hstored
              | true =>
                  have haudible : Audible env.lib s₀ (arrival env s₀ a
                      (env.ops.applyBundle s₀.store a.bundle a.clock).1) a.bundle := by
                    refine ⟨?_, ?_, fun conns braidOf id h => h.leave id⟩
                    · intro s hs id hid i hi hlacks
                      rw [hd, Except.ok.injEq] at hi
                      refine ⟨rfl, ⟨builder, hb, hv⟩, hr, Or.inl ?_, hlacks hi.symm⟩
                      rw [← hs.audience.1]
                      exact hid
                    · intro s hs id braid i hi hbraid hin hlacks
                      rw [hd, Except.ok.injEq] at hi
                      refine ⟨rfl, ⟨builder, hb, hv⟩, hr,
                        Or.inr ⟨braid, hs.audience.2 id braid hbraid, ?_⟩, hlacks hi.symm⟩
                      rw [show s₀.braidsAfter a = s.braids from hs.state.2.symm, hi]
                      exact hin
                  exact Action.Keeps.bind (After.onBundle haudible) (fun _ => Action.Keeps.pure _) _
                    hstored

/-! ## §2. Frames that bring nothing to store and ask for nothing. -/

/-- The frame brings a bundle, or a greeting that asks for the backlog. -/
def brings : Frame → Bool
  | .message (.bundle _) => true
  | .message (.greeting _) => true
  | _ => false

/-- The audience may come to be whatever connections and disconnections make of it. -/
structure Scope.Free (env : ServerEnv σ κ) (sc : Scope σ) : Prop where
  join : ∀ conns braidOf id braid, env.braidFunc id = some braid → sc.audience (conns, braidOf) →
    sc.audience (conns, Function.update braidOf id (some braid))
  leave : ∀ conns braidOf id, sc.audience (conns, braidOf) →
    sc.audience (conns, Function.update braidOf id none)
  drop : ∀ conns braidOf id, sc.audience (conns, braidOf) → sc.audience (discard id conns, braidOf)

section
variable (hfree : sc.Free env)
include hfree

theorem After.finish (id : Nat) : Action.Keeps (After s₀ sc) (finish id) := by
  have hclose : Action.Keeps (After s₀ sc) (Server.onConnection id Connection.close) :=
    After.onConnection Connection.After.close
  apply Action.Keeps.get_bind
  intro s h
  cases (s.heap id).owner with
  | relay => exact hclose _ ⟨h.heap, h.state, hfree.drop _ _ _ h.audience, h.created⟩
  | braidServer =>
      exact Action.Keeps.bind (After.disconnect hfree.leave id) (fun _ => hclose) s h

theorem After.connFunc (id : Nat) :
    Action.Keeps (After s₀ sc) (connFunc env id) := by
  apply Action.Keeps.get_bind
  intro s h
  cases (s.heap id).owner with
  | relay => exact h
  | braidServer =>
      unfold getGreeting
      refine Action.Keeps.of_bind (fun braid hbraid => Action.Keeps.bind (Action.Keeps.modify ?_)
        fun _ => Action.Keeps.get_bind fun s h => h) s h
      have hfunc : env.braidFunc id = some braid := orRaise_eq_ok.mp hbraid
      exact fun s h => ⟨h.heap, h.state, hfree.join _ _ _ _ hfunc h.audience, h.created⟩

omit hfree in
theorem After.sendGreeting (id : Nat) (greeting : HasMap) :
    Action.Keeps (After s₀ sc) (sendGreeting id greeting) := by
  apply Action.Keeps.get_bind
  intro s h
  refine After.send ?_ s h
  cases (s.heap id).canRite <;> rfl

omit hfree in
/-- Granting permissions takes none away. -/
theorem After.granted (id perms : Nat) :
    Action.Keeps (After s₀ sc) (Server.amend id fun c => { c with perms := c.perms ||| perms }) := by
  apply After.amend
  intro c h
  refine ⟨h.sent, h.lacks, ?_, h.owner⟩
  intro hread
  have hc := h.canRead hread
  unfold Connection.canRead authRead at hc ⊢
  rw [decide_eq_true_eq] at hc ⊢
  show (c.perms ||| perms) &&& 1 ≠ 0
  rw [Nat.and_or_distrib_right]
  intro hzero
  exact hc (Nat.or_eq_zero_iff.mp hzero).1

theorem After.onRequest (id : Nat) (auth : Option Nat) (gink : Bool) :
    Action.Keeps (After s₀ sc) (onRequest env id auth gink) := by
  have hreject : Action.Keeps (After s₀ sc)
      (Server.onConnection id (Connection.socketSend .rejectConnection)) := After.socketSend rfl
  have haccept : Action.Keeps (After s₀ sc)
      (Server.onConnection id (Connection.socketSend .acceptConnection)) := After.socketSend rfl
  have hrest : Action.Keeps (After s₀ sc) (do
      let greeting ← Action.recover (Server.connFunc env id) fun _ => do
        Server.onConnection id (Connection.socketSend .rejectConnection)
        Server.amend id fun c => { c with wsClosed := true }
        Action.of (.error .finished)
      Server.onConnection id (Connection.socketSend .acceptConnection)
      Server.amend id fun c => { c with wsConnected := true }
      Server.sendGreeting id greeting) := by
    apply Action.Keeps.bind
    · apply Action.Keeps.recover (After.connFunc hfree id)
      intro e
      exact Action.Keeps.bind hreject fun _ => Action.Keeps.bind (After.shut id)
        fun _ => Action.Keeps.of _
    · intro greeting
      exact Action.Keeps.bind haccept fun _ => Action.Keeps.bind (After.connected id)
        fun _ => After.sendGreeting id greeting
  unfold Server.onRequest
  apply Action.Keeps.bind (After.granted id _)
  intro _
  apply Action.Keeps.get_bind
  intro s h
  by_cases hrejects : (s.heap id).perms = authNone ∨ gink = false
  · rw [if_pos hrejects]
    exact Action.Keeps.bind hreject (fun _ => Action.Keeps.bind (Action.Keeps.of _)
      fun _ => hrest) s h
  · rw [if_neg hrejects]
    exact hrest s h

theorem After.receiveFrame (id : Nat) (auth : Option Nat) {frame : Frame}
    (hf : brings frame = false) : Action.Keeps (After s₀ sc) (receiveFrame env id auth frame) := by
  unfold Server.receiveFrame
  apply Action.Keeps.get_bind
  intro s h
  by_cases hclosed : (s.heap id).closed = true
  · rw [if_pos hclosed]
    exact h
  rw [if_neg hclosed]
  cases frame with
  | request gink =>
      simp only
      by_cases hbad : ((s.heap id).isClient || (s.heap id).wsConnected) = true
      · rw [if_pos hbad]
        exact h
      · rw [if_neg hbad]
        exact Action.Keeps.bind (After.onRequest hfree id auth gink)
          (fun _ => Action.Keeps.pure _) s h
  | acceptConnection =>
      simp only
      by_cases hbad : (!(s.heap id).isClient || (s.heap id).wsConnected) = true
      · rw [if_pos hbad]
        exact h
      · rw [if_neg hbad]
        refine Action.Keeps.bind (After.connected id) (fun _ => ?_) s h
        by_cases hrite : (s.heap id).canRite = true
        · rw [if_pos hrite]
          exact Action.Keeps.bind (After.connFunc hfree id) fun _ => Action.Keeps.bind
            (After.send rfl) fun _ => Action.Keeps.pure _
        · rw [if_neg hrite]
          exact Action.Keeps.pure _
  | rejectConnection =>
      exact Action.Keeps.bind (After.shut id) (fun _ => Action.Keeps.of _) s h
  | closeConnection =>
      have hclose : Action.Keeps (After s₀ sc)
          (Server.onConnection id (Connection.socketSend .closeConnection)) := After.socketSend rfl
      exact Action.Keeps.bind (Action.Keeps.recover hclose fun _ => Action.Keeps.of _)
        (fun _ => Action.Keeps.bind (After.shut id) fun _ => Action.Keeps.of _) s h
  | text data =>
      have htext : Action.Keeps (After s₀ sc)
          (Server.onConnection id (Connection.socketSend (.text data))) := After.socketSend rfl
      exact Action.Keeps.bind htext (fun _ => Action.Keeps.pure _) s h
  | ping =>
      have hpong : Action.Keeps (After s₀ sc)
          (Server.onConnection id (Connection.socketSend .pong)) := After.socketSend rfl
      exact Action.Keeps.bind hpong (fun _ => Action.Keeps.pure _) s h
  | pong => exact h
  | message m =>
      simp only
      by_cases hbad : (!(s.heap id).wsConnected) = true
      · rw [if_pos hbad]
        exact h
      · rw [if_neg hbad]
        cases m with
        | unset => exact h
        | bundle bytes => simp [brings] at hf
        | greeting entries => simp [brings] at hf
        | ack _ _ _ _ => exact h
        | signal _ => exact h

end

/-- All that comes of such a frame is an acknowledgement. -/
theorem receiveFrame_returns (env : ServerEnv σ κ) (id : Nat) (auth : Option Nat) {frame : Frame}
    (hf : brings frame = false) :
    Action.Returns (fun thing => thing = none ∨ thing = some .ack)
      (receiveFrame env id auth frame : Action (Server σ) (Option Thing)) := by
  unfold receiveFrame
  apply Action.Returns.bind
  intro s
  have hnone : Action.Returns (fun thing => thing = none ∨ thing = some Thing.ack)
      (pure none : Action (Server σ) (Option Thing)) := Action.Returns.pure (Or.inl rfl)
  have hstop : Action.Returns (fun thing => thing = none ∨ thing = some Thing.ack)
      (Action.of (.error .finished) : Action (Server σ) (Option Thing)) := Action.Returns.error _
  by_cases hclosed : (s.heap id).closed = true
  · rw [if_pos hclosed]
    intro s a s' hr
    simp [Action.bind_eq, Action.of] at hr
  rw [if_neg hclosed]
  cases frame with
  | request gink =>
      simp only
      by_cases hbad : ((s.heap id).isClient || (s.heap id).wsConnected) = true
      · rw [if_pos hbad]
        exact hstop
      · rw [if_neg hbad]
        exact Action.Returns.bind fun _ => hnone
  | acceptConnection =>
      simp only
      by_cases hbad : (!(s.heap id).isClient || (s.heap id).wsConnected) = true
      · rw [if_pos hbad]
        exact hstop
      · rw [if_neg hbad]
        refine Action.Returns.bind fun _ => ?_
        by_cases hrite : (s.heap id).canRite = true
        · rw [if_pos hrite]
          exact Action.Returns.bind fun _ => Action.Returns.bind fun _ => hnone
        · rw [if_neg hrite]
          exact hnone
  | rejectConnection => exact Action.Returns.bind fun _ => hstop
  | closeConnection => exact Action.Returns.bind fun _ => Action.Returns.bind fun _ => hstop
  | text data => exact Action.Returns.bind fun _ => hnone
  | ping => exact Action.Returns.bind fun _ => hnone
  | pong => exact hnone
  | message m =>
      simp only
      by_cases hbad : (!(s.heap id).wsConnected) = true
      · rw [if_pos hbad]
        exact hstop
      · rw [if_neg hbad]
        cases m with
        | unset => exact hnone
        | bundle bytes => simp [brings] at hf
        | greeting entries => simp [brings] at hf
        | ack _ _ _ _ => exact Action.Returns.pure (Or.inr rfl)
        | signal _ => exact hnone

/-! ## §3. Frames that bring a bundle or a greeting. -/

theorem receiveFrame_message {s : Server σ} {id : Nat} (auth : Option Nat) (m : SyncMessage) :
    receiveFrame env id auth (.message m) s = .error .finished s ∨
      (s.heap id).closed = false ∧ (s.heap id).wsConnected = true ∧
        receiveFrame env id auth (.message m) s = onMessage env.lib id m s := by
  unfold receiveFrame
  rw [Action.get_bind]
  by_cases hclosed : (s.heap id).closed = true
  · rw [if_pos hclosed]
    exact Or.inl rfl
  rw [if_neg hclosed]
  simp only
  by_cases hbad : (!(s.heap id).wsConnected) = true
  · rw [if_pos hbad]
    exact Or.inl rfl
  · rw [if_neg hbad]
    exact Or.inr ⟨by simpa using hclosed, by simpa using hbad, rfl⟩

/-- The server once a connection has taken note of a bundle. -/
def noted (s : Server σ) (id : Nat) (info : BundleInfo) : Server σ :=
  { s with heap := Function.update s.heap id ((s.heap id).markAsHaving info) }

/-- The server once a connection has taken note of a greeting. -/
def greeted (s : Server σ) (id : Nat) (peer : HasMap) : Server σ :=
  { s with heap := Function.update s.heap id { s.heap id with tracker := some peer } }

theorem receiveFrame_bundle {s : Server σ} {id : Nat} (auth : Option Nat) (bytes : Bytes) :
    (∃ e, receiveFrame env id auth (.message (.bundle bytes)) s = .error e s) ∨
      ∃ info, (s.heap id).closed = false ∧ (s.heap id).wsConnected = true ∧
        (Decomposition.mk bytes).getInfo env.lib = .ok info ∧
        receiveFrame env id auth (.message (.bundle bytes)) s
          = .ok (some (.data ⟨bytes⟩)) (s.noted id info) := by
  rcases receiveFrame_message auth (.bundle bytes) with
    hr | ⟨hclosed, hopen, hr⟩
  · exact Or.inl ⟨_, hr⟩
  · rw [hr]
    unfold onMessage
    simp only
    cases hd : (Decomposition.mk bytes).getInfo env.lib with
    | error e => exact Or.inl ⟨e, rfl⟩
    | ok info => exact Or.inr ⟨info, hclosed, hopen, rfl, rfl⟩

theorem receiveFrame_greeting {s : Server σ} {id : Nat} (auth : Option Nat)
    (entries : List (Chain × U64)) :
    receiveFrame env id auth (.message (.greeting entries)) s = .error .finished s ∨
      (s.heap id).closed = false ∧ (s.heap id).wsConnected = true ∧
        receiveFrame env id auth (.message (.greeting entries)) s
        = .ok (some (.greeting (.ofGreeting entries))) (s.greeted id (.ofGreeting entries)) := by
  rcases receiveFrame_message auth (.greeting entries) with
    hr | ⟨hclosed, hopen, hr⟩
  · exact Or.inl hr
  · exact Or.inr ⟨hclosed, hopen, hr⟩

/-- Connections were let go of, or given the braid that was returned for them. -/
def Moved (env : ServerEnv σ κ) (s : Server σ) (a : Audience) : Prop :=
  (∀ id ∈ a.1, id ∈ s.connections) ∧
    ∀ id braid, a.2 id = some braid → s.connectionBraid id = some braid ∨ env.braidFunc id = some braid

theorem Stayed.moved {a : Audience} (h : s.Stayed a) : s.Moved env a := by
  refine ⟨?_, fun id braid hb => Or.inl (h.2 id braid hb)⟩
  intro id hid
  rw [← h.1]
  exact hid

/-- What an event may do in the end, with the bundle that came in, if one did. -/
def outcome (env : ServerEnv σ κ) (s : Server σ) (e : Event κ) : Option (Arrival κ) → Scope σ
  | none => {
      sends := Backlog env s e
      state t b := t = s.store ∧ b = s.braids
      audience := s.Moved env }
  | some a => {
      sends id d := d = a.bundle ∧ Live env s a id
      state t b := t = storeAfter env s a ∧ b = s.braidsAfter a
      audience := s.Moved env }

theorem outcome_free (e : Event κ) (cause : Option (Arrival κ)) :
    (outcome env s e cause).Free env := by
  have haudience : (outcome env s e cause).audience = s.Moved env := by cases cause <;> rfl
  refine ⟨?_, ?_, ?_⟩ <;> rw [haudience]
  · intro conns braidOf id braid hfunc h
    refine ⟨h.1, ?_⟩
    intro i b hi
    change Function.update braidOf id (some braid) i = some b at hi
    by_cases hid : i = id
    · subst hid
      rw [Function.update_self, Option.some.injEq] at hi
      exact Or.inr (hi ▸ hfunc)
    · rw [Function.update_of_ne hid] at hi
      exact h.2 i b hi
  · intro conns braidOf id h
    refine ⟨h.1, ?_⟩
    intro i b hi
    change Function.update braidOf id none i = some b at hi
    by_cases hid : i = id
    · subst hid
      rw [Function.update_self] at hi
      exact absurd hi (by simp)
    · rw [Function.update_of_ne hid] at hi
      exact h.2 i b hi
  · exact fun conns braidOf id h => ⟨fun i hi => h.1 i (List.mem_filter.mp hi).1, h.2⟩

/-- What came in came in by the event. -/
def Comes (env : ServerEnv σ κ) (s : Server σ) (e : Event κ) (cause : Option (Arrival κ)) : Prop :=
  ∀ a, cause = some a → Arrives env s e a

/-- The event went from `s` to `s'`. -/
def Went (env : ServerEnv σ κ) (s : Server σ) (e : Event κ) (s' : Server σ) : Prop :=
  ∃ cause, Comes env s e cause ∧ After s (outcome env s e cause) s'

theorem After.refl (hstate : sc.state s.store s.braids) (haudience : sc.audience s.audience)
    (hlacks : ∀ id info, (s.heap id).lacks info = true → sc.lacks id info) : After s sc s where
  heap id := ⟨fun _ hf _ => Or.inl hf, hlacks id, fun h => h, rfl⟩
  state := hstate
  audience := haudience
  created := rfl

theorem Comes.none (e : Event κ) : Comes env s e none := fun _ h => absurd h (by simp)

/-- Nothing happened. -/
theorem After.nothing (e : Event κ) : After s₀ (outcome env s₀ e none) s₀ :=
  After.refl ⟨rfl, rfl⟩ ⟨fun _ h => h, fun _ _ h => Or.inl h⟩ fun _ _ _ => trivial

theorem Went.ofNone {e : Event κ} (h : After s₀ (outcome env s₀ e none) s) : Went env s₀ e s :=
  ⟨none, Comes.none e, h⟩

/-- What may follow an arrival is what the event may do. -/
theorem Went.ofArrival {e : Event κ} {a : Arrival κ} (harrives : Arrives env s₀ e a)
    (h : After s₀ (arrival env s₀ a (storeAfter env s₀ a)) s) : Went env s₀ e s := by
  refine ⟨some a, ?_, ?_⟩
  · intro b hb
    rw [Option.some.injEq] at hb
    exact hb ▸ harrives
  · exact ⟨fun id => ⟨(h.heap id).sent, fun _ _ => trivial, (h.heap id).canRead, (h.heap id).owner⟩,
      h.state, h.audience.moved, h.created⟩

/-- A bundle comes in, is stored or not, and is acknowledged or not. -/
theorem Went.receiveAndAck {e : Event κ} {a : Arrival κ} (harrives : Arrives env s₀ e a)
    {ack : Action (Server σ) Unit}
    (hack : Action.Keeps (After s₀ (arrival env s₀ a (storeAfter env s₀ a))) ack)
    (h : After s₀ (arrival env s₀ a s₀.store) s) :
    Went env s₀ e (Action.endState ((do
      let _ ← Server.receive env a.bundle a.clock
      ack) s)) := by
  apply Went.ofArrival harrives
  apply Action.endState_bind (After.receive harrives.getInfo s h) (fun _ h => h)
  exact fun _ s' _ hs' => hack s' hs'

/-- Before the braids are widened, as far as the connections go. -/
theorem After.noted (a : Arrival κ) (id : Nat) (store : σ) {b : Muid → Table Chain Limit}
    (hstore : s₀.store = store) (hbraids : b = s₀.braidsAfter a) :
    After s₀ (arrival env s₀ a store) { s₀.noted id a.info with braids := b } where
  heap i := by
    show Connection.After _ _ _ (Function.update s₀.heap id _ i)
    have hsame : ∀ i, Connection.After ((arrival env s₀ a store).sends i)
        ((arrival env s₀ a store).lacks i) (s₀.heap i) (s₀.heap i) :=
      fun i => ⟨fun _ hf _ => Or.inl hf, fun _ hlacks hi => hi ▸ hlacks, fun h => h, rfl⟩
    by_cases hi : i = id
    · subst hi
      rw [Function.update_self]
      exact (hsame i).marked a.info
    · rw [Function.update_of_ne hi]
      exact hsame i
  state := ⟨hstore, hbraids⟩
  audience := ⟨rfl, fun _ _ h => h⟩
  created := rfl

/-- A connection took note of a bundle, and nothing came of it. -/
theorem Went.noted (e : Event κ) (id : Nat) (info : BundleInfo) :
    Went env s₀ e (s₀.noted id info) := by
  have h : After s₀ (outcome env s₀ e none) s₀ := After.nothing e
  exact Went.ofNone (h.updated ((h.heap id).marked info))

/-- A braid server takes a bundle in from a connection that may write. -/
theorem Went.braidData {id : Nat} {auth : Option Nat} {bytes : Bytes} {clock : κ}
    {info : BundleInfo} (hserves : s₀.Serves id) (howner : (s₀.heap id).owner = .braidServer)
    (hrite : (s₀.heap id).canRite = true) (hd : (Decomposition.mk bytes).getInfo env.lib = .ok info) :
    Went env s₀ (.frame id auth (.message (.bundle bytes)) clock)
      (Action.endState (Server.braidData env id clock ⟨bytes⟩ (s₀.noted id info))) := by
  have harrives : Arrives env s₀ (.frame id auth (.message (.bundle bytes)) clock)
      ⟨some id, ⟨bytes⟩, clock, info⟩ := Arrives.braid hd hserves howner hrite
  have hack : Action.Keeps (After s₀ (arrival env s₀ ⟨some id, ⟨bytes⟩, clock, info⟩
      (storeAfter env s₀ ⟨some id, ⟨bytes⟩, clock, info⟩)))
      (Server.onConnection id (Connection.send info.asAcknowledgement)) := After.send rfl
  have hnothing : Went env s₀ (.frame id auth (.message (.bundle bytes)) clock)
      (s₀.noted id info) := Went.noted _ id info
  unfold Server.braidData
  rw [Action.get_bind]
  show Went env s₀ _ (Action.endState
    ((Action.of (orRaise .finished (s₀.connectionBraid id)) >>= _) _))
  rcases Option.eq_none_or_eq_some (s₀.connectionBraid id) with hb | ⟨braid, hb⟩
  · rw [hb]
    exact hnothing
  rw [hb, orRaise_some, Action.of_ok_bind, hd, Action.of_ok_bind]
  show Went env s₀ _ (Action.endState ((if (s₀.braids braid).get? info.chain = none then _ else _ :
    Action (Server σ) Unit) _))
  by_cases hchain : (s₀.braids braid).get? info.chain = none
  · rw [if_pos hchain]
    by_cases hstart : info.timestamp = info.chainStart
    · rw [decide_eq_true hstart, ensure_true, Action.of_ok_bind]
      unfold widen
      rw [Action.modify_bind]
      have hwider : Function.update s₀.braids braid ((s₀.braids braid).put info.chain .inf)
          = s₀.braidsAfter (⟨some id, ⟨bytes⟩, clock, info⟩ : Arrival κ) := by
        unfold braidsAfter
        rw [Option.bind_some, hb]
        exact (if_pos ⟨hchain, hstart⟩).symm
      have hnoted := @After.noted _ _ _ env ⟨some id, ⟨bytes⟩, clock, info⟩ id s₀.store _ rfl hwider
      exact Went.receiveAndAck harrives hack ⟨hnoted.heap, hnoted.state, hnoted.audience, rfl⟩
    · rw [decide_eq_false hstart]
      exact hnothing
  · rw [if_neg hchain]
    refine Went.receiveAndAck harrives hack
      (After.noted ⟨some id, ⟨bytes⟩, clock, info⟩ id s₀.store rfl (b := s₀.braids) ?_)
    unfold braidsAfter
    rw [Option.bind_some, hb]
    exact (if_neg fun h => hchain h.1).symm

theorem After.sendBacklog {lib : Externals} {id : Nat} (ds : List Decomposition)
    (hsends : ∀ d ∈ ds, ∀ info, d.getInfo lib = .ok info → sc.lacks id info → sc.sends id d) :
    Action.Keeps (After s₀ sc) (sendBacklog lib id ds) := by
  induction ds with
  | nil => exact Action.Keeps.pure _
  | cons d rest ih =>
      apply Action.Keeps.bind
      · exact After.onConnection (Connection.After.sendBundle (hsends d List.mem_cons_self))
      · exact fun _ => ih fun d hd => hsends d (List.mem_cons_of_mem _ hd)

/-- The scope of an answer to a greeting. -/
def answering (env : ServerEnv σ κ) (s : Server σ) (e : Event κ) (id : Nat)
    (peer : HasMap) : Scope σ where
  sends := Backlog env s e
  lacks i info := i = id → peer.has info = false
  state t b := t = s.store ∧ b = s.braids
  audience := s.Stayed

theorem Went.answered {e : Event κ} {id : Nat} {peer : HasMap}
    (h : After s₀ (answering env s₀ e id peer) s) : Went env s₀ e s := by
  apply Went.ofNone
  exact ⟨fun id => ⟨(h.heap id).sent, fun _ _ => trivial, (h.heap id).canRead, (h.heap id).owner⟩,
    h.state, h.audience.moved, h.created⟩

/-- A greeting was noted, and what the peer lacks is what the greeting does not cover. -/
theorem After.greeted (e : Event κ) (id : Nat) (peer : HasMap) :
    After s₀ (answering env s₀ e id peer) (s₀.greeted id peer) where
  heap i := by
    show Connection.After _ _ _ (Function.update s₀.heap id _ i)
    by_cases hi : i = id
    · subst hi
      rw [Function.update_self]
      refine ⟨fun _ hf _ => Or.inl hf, ?_, fun h => h, rfl⟩
      intro info hlacks _
      simpa [Connection.lacks] using hlacks
    · rw [Function.update_of_ne hi]
      exact ⟨fun _ hf _ => Or.inl hf, fun _ _ h => absurd h hi, fun h => h, rfl⟩
  state := ⟨rfl, rfl⟩
  audience := ⟨rfl, fun _ _ h => h⟩
  created := rfl

/-- The answer: what the store has of the backlog, and the signal that this was all. -/
theorem Went.answer {id : Nat} {auth : Option Nat} {entries : List (Chain × U64)} {clock : κ}
    {bundles : Except Error (List Decomposition)}
    (hsends : ∀ ds, bundles = .ok ds → ∀ d ∈ ds, ∀ info, d.getInfo env.lib = .ok info →
      (HasMap.ofGreeting entries).has info = false →
        Backlog env s₀ (.frame id auth (.message (.greeting entries)) clock) id d) :
    Went env s₀ (.frame id auth (.message (.greeting entries)) clock)
      (Action.endState ((do
        let bundles ← Action.of bundles
        Server.sendBacklog env.lib id bundles
        Server.onConnection id (Connection.send (.signal .initialBundlesSent)) :
          Action (Server σ) Unit) (s₀.greeted id (.ofGreeting entries)))) := by
  apply @Went.answered _ _ _ _ _ _ id (.ofGreeting entries)
  refine Action.Keeps.of_bind (fun ds hds => Action.Keeps.bind (After.sendBacklog ds ?_)
    fun _ => After.send rfl) _ (After.greeted _ id (.ofGreeting entries))
  exact fun d hd info hi hlacks => hsends ds hds d hd info hi (hlacks rfl)

/-! ## §4. Every event. -/

/-- What a bundle does to a connection that takes it in. -/
theorem Went.dataFrame {id : Nat} (auth : Option Nat) {bytes : Bytes} (clock : κ)
    {info : BundleInfo} (hserves : s₀.Serves id)
    (hd : (Decomposition.mk bytes).getInfo env.lib = .ok info) :
    Went env s₀ (.frame id auth (.message (.bundle bytes)) clock)
      (Action.endState ((match (s₀.heap id).owner with
        | .relay => relayThing env id clock (.data ⟨bytes⟩)
        | .braidServer => braidThing env id clock (.data ⟨bytes⟩)) (s₀.noted id info))) := by
  have hsame : (s₀.noted id info).heap id = (s₀.heap id).markAsHaving info :=
    Function.update_self _ _ _
  cases howner : (s₀.heap id).owner with
  | relay =>
      simp only
      unfold relayThing
      refine Went.receiveAndAck (Arrives.relay hd hserves howner) ?_
        (After.noted ⟨none, ⟨bytes⟩, clock, info⟩ id s₀.store rfl (b := s₀.braids) rfl)
      rw [hd]
      exact After.send rfl
  | braidServer =>
      simp only
      unfold braidThing
      simp only
      rw [Action.get_bind, hsame]
      show Went env s₀ _ (Action.endState ((if (s₀.heap id).canRite = true then _ else _ :
        Action (Server σ) Unit) _))
      by_cases hrite : (s₀.heap id).canRite = true
      · rw [if_pos hrite]
        exact Went.braidData hserves howner hrite hd
      · rw [if_neg hrite]
        exact Went.noted _ id info

/-- What a greeting does. -/
theorem Went.greetingFrame {id : Nat} (auth : Option Nat) (entries : List (Chain × U64))
    (clock : κ) (hserves : s₀.Serves id) :
    Went env s₀ (.frame id auth (.message (.greeting entries)) clock)
      (Action.endState ((match (s₀.heap id).owner with
        | .relay => relayThing env id clock (.greeting (.ofGreeting entries))
        | .braidServer => braidThing env id clock (.greeting (.ofGreeting entries)))
          (s₀.greeted id (.ofGreeting entries)))) := by
  have hsame : (s₀.greeted id (.ofGreeting entries)).heap id
      = { s₀.heap id with tracker := some (.ofGreeting entries) } := Function.update_self _ _ _
  have hnothing : Went env s₀ (.frame id auth (.message (.greeting entries)) clock)
      (s₀.greeted id (.ofGreeting entries)) :=
    Went.answered (After.greeted _ id (.ofGreeting entries))
  cases howner : (s₀.heap id).owner with
  | relay =>
      simp only
      unfold relayThing
      simp only
      rw [Action.get_bind]
      apply Went.answer
      intro ds hds d hd info hi hlacks
      exact Backlog.relay hserves howner hds hd hi hlacks
  | braidServer =>
      simp only
      unfold braidThing
      simp only
      rw [Action.get_bind, hsame]
      show Went env s₀ _ (Action.endState ((if (s₀.heap id).canRead = true then _ else _ :
        Action (Server σ) Unit) _))
      by_cases hread : (s₀.heap id).canRead = true
      · rw [if_pos hread]
        show Went env s₀ _ (Action.endState
          ((Action.of (orRaise .finished (s₀.connectionBraid id)) >>= _) _))
        rcases Option.eq_none_or_eq_some (s₀.connectionBraid id) with hb | ⟨braid, hb⟩
        · rw [hb]
          exact hnothing
        · rw [hb, orRaise_some, Action.of_ok_bind]
          apply Went.answer
          intro ds hds d hd info hi hlacks
          exact Backlog.braid howner hread hb hds hd
      · rw [if_neg hread]
        exact hnothing

theorem Went.finish (e : Event κ) (id : Nat) :
    Action.Keeps (Went env s₀ e) (Server.finish id) := by
  intro s h
  obtain ⟨cause, hcomes, hafter⟩ := h
  exact ⟨cause, hcomes, After.finish (outcome_free e cause) id s hafter⟩

/-- **A frame**, whatever it brings. -/
theorem Went.onReady {id : Nat} (hmade : id ∈ s₀.created) (auth : Option Nat) (frame : Frame)
    (clock : κ) : Went env s₀ (.frame id auth frame clock)
      (Action.endState (Server.onReady env id auth frame clock s₀)) := by
  have hnothing : After s₀ (outcome env s₀ (.frame id auth frame clock) none) s₀ :=
    After.nothing (.frame id auth frame clock)
  unfold Server.onReady
  rw [Action.get_bind]
  by_cases hgone : (s₀.heap id).owner = .relay ∧ id ∉ s₀.connections
  · rw [if_pos hgone]
    exact Went.ofNone hnothing
  rw [if_neg hgone]
  have hkept : (s₀.heap id).owner = .relay → id ∈ s₀.connections := by
    intro howner
    by_contra hout
    exact hgone ⟨howner, hout⟩
  apply Action.endState_recover
  · cases hf : brings frame with
    | false =>
        -- nothing is yielded, or an acknowledgement
        apply Went.ofNone
        apply Action.endState_bind (After.receiveFrame (outcome_free _ _) id auth hf s₀ hnothing)
          (fun _ h => h)
        intro thing s' hr hs'
        rcases receiveFrame_returns env id auth hf s₀ thing s' hr with hnone | hack
        · rw [hnone]
          exact hs'
        · rw [hack]
          cases (s₀.heap id).owner <;> exact hs'
    | true =>
        rw [Action.bind_eq]
        cases frame with
        | message m =>
            cases m with
            | bundle bytes =>
                rcases @receiveFrame_bundle _ _ env s₀ id auth bytes with
                  ⟨e, hr⟩ | ⟨info, hclosed, hopen, hd, hr⟩
                · rw [hr]
                  exact Went.ofNone hnothing
                · rw [hr]
                  have h := Went.dataFrame auth clock ⟨hmade, hkept, hclosed, hopen⟩ hd
                  cases howner : (s₀.heap id).owner <;> (rw [howner] at h; exact h)
            | greeting entries =>
                rcases @receiveFrame_greeting _ _ env s₀ id auth entries with
                  hr | ⟨hclosed, hopen, hr⟩
                · rw [hr]
                  exact Went.ofNone hnothing
                · rw [hr]
                  have h := @Went.greetingFrame _ _ _ env _ auth entries clock
                    ⟨hmade, hkept, hclosed, hopen⟩
                  cases howner : (s₀.heap id).owner <;> (rw [howner] at h; exact h)
            | unset => simp [brings] at hf
            | ack _ _ _ _ => simp [brings] at hf
            | signal _ => simp [brings] at hf
        | _ => simp [brings] at hf
  · intro e
    by_cases hfin : e = .finished
    · rw [if_pos hfin]
      exact Went.finish _ id
    · rw [if_neg hfin]
      exact Action.Keeps.of _

/-- A connection was made: no bundle was sent on it yet, and it is one of the relay's if the
relay made it. -/
structure Opened (s : Server σ) (e : Event κ) (id : Nat) (s' : Server σ) : Prop where
  opens : ∃ owner isClient auth, e = .connect id owner isClient auth
  new : id ∉ s.created
  created : s'.created = id :: s.created
  fresh : ∀ f ∈ (s'.heap id).sent, f.isBundle = false
  others : ∀ i, i ≠ id → s'.heap i = s.heap i
  store : s'.store = s.store
  braids : s'.braids = s.braids
  connections : ∀ i ∈ s'.connections, i ∈ s.connections ∨ i = id ∧ (s'.heap id).owner = .relay
  connectionBraid : s'.connectionBraid = s.connectionBraid

theorem mem_addTo {i id : Nat} {ids : List Nat} : i ∈ addTo id ids ↔ i = id ∨ i ∈ ids := by
  unfold addTo
  by_cases hid : id ∈ ids
  · rw [if_pos hid]
    constructor
    · exact Or.inr
    · intro h
      rcases h with rfl | h
      · exact hid
      · exact h
  · rw [if_neg hid]
    simp [or_comm]

theorem connect_opened {id : Nat} (h : id ∉ s.created) (owner : Owner) (isClient auth : Bool) :
    Opened s (.connect id owner isClient auth : Event κ) id (s.connect id owner isClient auth) := by
  unfold connect
  rw [if_neg h]
  refine ⟨⟨owner, isClient, auth, rfl⟩, h, rfl, ?_, fun i hi => Function.update_of_ne hi _ _, rfl, rfl, ?_,
    rfl⟩
  · intro f hf
    change f ∈ (Function.update s.heap id _ id).sent at hf
    rw [Function.update_self] at hf
    cases isClient with
    | false => simp at hf
    | true =>
        simp only [if_true, List.mem_singleton] at hf
        rw [hf]
        rfl
  · intro i hi
    cases owner with
    | braidServer => exact Or.inl hi
    | relay =>
        rcases mem_addTo.mp hi with hid | hi
        · refine Or.inr ⟨hid, ?_⟩
          show (Function.update s.heap id _ id).owner = _
          rw [Function.update_self]
        · exact Or.inl hi

/-- **What a step can do.** -/
theorem step_cases (env : ServerEnv σ κ) (s : Server σ) (e : Event κ) :
    Went env s e (step env s e) ∨ ∃ id, Opened s e id (step env s e) := by
  have hnothing : Went env s e s := Went.ofNone (After.nothing e)
  unfold step handle
  cases e with
  | connect id owner isClient auth =>
      show Went env s _ (s.connect id owner isClient auth) ∨
        ∃ id', Opened s _ id' (s.connect id owner isClient auth)
      by_cases hmade : id ∈ s.created
      · left
        unfold connect
        rw [if_pos hmade]
        exact hnothing
      · exact Or.inr ⟨id, connect_opened hmade owner isClient auth⟩
  | frame id auth frame clock =>
      left
      simp only
      rw [Action.get_bind]
      by_cases hmade : id ∈ s.created
      · rw [if_pos hmade]
        exact Went.onReady hmade auth frame clock
      · rw [if_neg hmade]
        exact hnothing
  | hangUp id =>
      left
      simp only
      rw [Action.get_bind]
      by_cases hmade : id ∈ s.created
      · rw [if_pos hmade]
        exact Went.ofNone (Action.Keeps.bind (After.shut id)
          (fun _ => After.finish (outcome_free _ none) id) s (After.nothing _))
      · rw [if_neg hmade]
        exact hnothing
  | receive d clock =>
      left
      cases hd : d.getInfo env.lib with
      | error e =>
          -- nothing is received of a bundle that does not parse
          have hb : ∃ e, d.getBuilder env.lib = .error e := by
            unfold Decomposition.getInfo at hd
            cases hb : d.getBuilder env.lib with
            | error e => exact ⟨e, rfl⟩
            | ok builder =>
                rw [hb] at hd
                exact absurd hd (by simp [Except.map])
          obtain ⟨e', hb⟩ := hb
          simp only
          unfold Server.receive
          rw [hb]
          exact hnothing
      | ok info =>
          refine Went.receiveAndAck (a := ⟨none, d, clock, info⟩) (Arrives.call hd)
            (Action.Keeps.pure _) (After.refl ⟨rfl, rfl⟩ ⟨rfl, fun _ _ h => h⟩ ?_)
          exact fun id other hlacks hi => hi ▸ hlacks
  | socket id socket =>
      exact Or.inl (Went.ofNone (After.rewired id socket s (After.nothing _)))
  | reorder connections chain ids =>
      left
      have h : After s (outcome env s (.reorder connections chain ids) none) s :=
        After.nothing (.reorder connections chain ids)
      show Went env s _ (if connections.Perm s.connections ∧ ids.Perm (s.chainConnections chain) then
        _ else _)
      by_cases hperm : connections.Perm s.connections ∧ ids.Perm (s.chainConnections chain)
      · rw [if_pos hperm]
        exact Went.ofNone ⟨h.heap, h.state, ⟨fun i hi => hperm.1.mem_iff.mp hi, h.audience.2⟩, rfl⟩
      · rw [if_neg hperm]
        exact hnothing

end Server

end Gink
