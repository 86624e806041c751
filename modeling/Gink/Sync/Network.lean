/-
  Gink.Sync.Network — relays that are joined by websockets (relay.py, connection.py).

  The relays commit bundles of their own and hand on those of others.  A websocket keeps the frames
  of each direction in order; otherwise anything may happen in any order: any relay may commit,
  any websocket may deliver its next frame, and new websockets may be opened while bundles are
  under way.  As long as chains do not fork and the stores take what is next in its chain, no
  frame that is delivered makes a relay raise, and what one end of a websocket holds the other end
  holds or is about to be delivered.

  Main results:
    * `Net.InStep.step` — each event leaves all relays in step with their peers.
    * `Net.relays_share` — what holds after a run.
-/
import Gink.Machine.Run
import Gink.Sync.Exchange

namespace Gink

open Machine

/-! ## §1. A network. -/

/-- Relays, each with its connections.  An end of a websocket is a connection of a relay. -/
structure Net (R σ : Type) where
  relays : R → Server σ
  /-- the other end of each websocket -/
  peer : R × Nat → Option (R × Nat) := fun _ => none
  /-- how many frames each end has taken -/
  taken : R × Nat → ℕ := fun _ => 0

namespace Net

/-- What can happen in the network. -/
inductive Event (R κ : Type) where
  /-- `connect_to` at one relay and `_on_listener_ready` at the other -/
  | connect (r : R) (id : Nat) (r' : R) (id' : Nat)
  /-- the program the relay is part of hands it a bundle -/
  | commit (r : R) (d : Decomposition) (clock : κ)
  /-- an end takes the next frame that the other end has put out -/
  | deliver (r : R) (id : Nat) (clock : κ)
  /-- a set of a relay is iterated in another order from now on -/
  | reorder (r : R) (connections : List Nat) (chain : Chain) (ids : List Nat)

variable {R σ κ : Type} {env : ServerEnv σ κ}

/-- The connection object at an end. -/
def conn (net : Net R σ) (e : R × Nat) : Connection := (net.relays e.1).heap e.2

/-- What one end has put out and the other has not taken. -/
def flight (net : Net R σ) (e e' : R × Nat) : List Frame := (net.conn e).sent.drop (net.taken e')

/-- The frame that an end takes next. -/
def arriving (net : Net R σ) (e : R × Nat) : Option Frame :=
  (net.peer e).bind fun e' => (net.conn e').sent[net.taken e]?

/-- An event at one relay. -/
def happens [DecidableEq R] (env : ServerEnv σ κ) (net : Net R σ) (r : R) (event : Server.Event κ) : Net R σ :=
  { net with relays := Function.update net.relays r (Server.step env (net.relays r) event) }

/-- The network after an event. -/
def step [DecidableEq R] (env : ServerEnv σ κ) (net : Net R σ) : Event R κ → Net R σ
  | .connect r id r' id' =>
      let net' := (net.happens env r (.connect id .relay true false)).happens env r'
        (.connect id' .relay false false)
      let peer := Function.update net.peer (r, id) (some (r', id'))
      { net' with peer := Function.update peer (r', id') (some (r, id)) }
  | .commit r d clock => net.happens env r (.receive d clock)
  | .deliver r id clock =>
      match net.arriving (r, id) with
      | none => net
      | some frame =>
          let net' := net.happens env r (.frame id none frame clock)
          { net' with taken := Function.update net.taken (r, id) (net.taken (r, id) + 1) }
  | .reorder r connections chain ids => net.happens env r (.reorder connections chain ids)

/-- What is assumed of an event: connections are new objects, what is committed is of the bundles
`D`, and the store does with a bundle what its place in its chain says. -/
def Allowed (cs : ChainStore env.lib env.ops) (D : Set Decomposition) (net : Net R σ) :
    Event R κ → Prop
  | .connect r id r' id' => (r, id) ≠ (r', id') ∧ id ∉ (net.relays r).created ∧
      id' ∉ (net.relays r').created
  | .commit r d clock => d ∈ D ∧ Server.Settles cs (net.relays r).store d clock
  | .deliver r id clock => ∀ bytes, net.arriving (r, id) = some (.message (.bundle bytes)) →
      Server.Settles cs (net.relays r).store ⟨bytes⟩ clock
  | .reorder _ _ _ _ => True

/-- A network to start from: each store is valid and holds some of the bundles `D`, and nobody is
connected. -/
structure Starts (cs : ChainStore env.lib env.ops) (D : Set Decomposition) (net : Net R σ) :
    Prop where
  valid : ∀ r, cs.Valid (net.relays r).store
  held : ∀ r, ∀ d ∈ cs.held (net.relays r).store, d ∈ D ∧ Clean env.lib d
  created : ∀ r, (net.relays r).created = []
  connections : ∀ r, (net.relays r).connections = []
  chainConnections : ∀ r chain, (net.relays r).chainConnections chain = []
  peer : ∀ e, net.peer e = none
  taken : ∀ e, net.taken e = 0

/-! ## §2. All relays in step. -/

/-- **All relays are in step** with their peers: each direction of a websocket feeds the other
end. -/
structure InStep (cs : ChainStore env.lib env.ops) (D : Set Decomposition) (net : Net R σ) :
    Prop where
  relays : ∀ r, (net.relays r).InStep cs D fun id => net.taken (r, id)
  joined : ∀ e, e.2 ∈ (net.relays e.1).connections ↔ (net.peer e).isSome
  back : ∀ e e', net.peer e = some e' → net.peer e' = some e
  roles : ∀ e e', net.peer e = some e' → (net.conn e').isClient = !(net.conn e).isClient
  unused : ∀ e, net.peer e = none → net.taken e = 0
  taken : ∀ e e', net.peer e = some e' → net.taken e' ≤ (net.conn e).sent.length
  feeds : ∀ e e', net.peer e = some e' → Feeds (cs.marks (net.relays e'.1).store)
    (net.conn e).known (Frame.items env.lib (net.flight e e')) (Frame.items env.lib (net.conn e).sent)
  replies : ∀ e e', net.peer e = some e' → (net.conn e).chatter ≤
    (if (net.conn e).isClient then 1 else 0) +
      (((net.conn e').sent.take (net.taken e)).map Frame.replies).sum

variable {cs : ChainStore env.lib env.ops} {D : Set Decomposition} {net : Net R σ}

theorem InStep.mem (h : net.InStep cs D) {e e' : R × Nat} (he : net.peer e = some e') :
    e.2 ∈ (net.relays e.1).connections := by
  rw [h.joined, he]
  rfl

/-- The end of a websocket is in step. -/
theorem InStep.end_inStep (h : net.InStep cs D) {e e' : R × Nat} (he : net.peer e = some e') :
    (net.conn e).InStep env.lib D (cs.holds (net.relays e.1).store)
      (· ∈ cs.held (net.relays e.1).store) (net.taken e) :=
  (h.relays e.1).ends e.2 (h.mem he)

/-- The next frame leads what is under way. -/
theorem drop_of_getElem? {l : List Frame} {n : ℕ} {f : Frame} (h : l[n]? = some f) :
    l.drop n = f :: l.drop (n + 1) := by
  obtain ⟨hlt, hget⟩ := List.getElem?_eq_some_iff.mp h
  rw [← hget]
  exact List.drop_eq_getElem_cons hlt

/-- One direction of a websocket, when its sender goes on and its receiver may take a frame. -/
theorem feeds_goes_on {lib : Externals} {had had' : Chain → ℕ} {c c' : Connection} {n n' : ℕ}
    (h : Feeds had c.known (Frame.items lib (c.sent.drop n)) (Frame.items lib c.sent))
    (hn : n ≤ c.sent.length) {k : ℕ} (hfollows : c.Follows lib had k c') (hhad : had ≤ had')
    (htook : n' = n ∨ n' = n + 1 ∧ ∃ frame, c.sent[n]? = some frame ∧
      ∀ x, frame.item? lib = some x → x.time ≤ had' x.list) :
    n' ≤ c'.sent.length ∧
      Feeds had' c'.known (Frame.items lib (c'.sent.drop n')) (Frame.items lib c'.sent) := by
  obtain ⟨extra, hsent, hfeeds⟩ := hfollows.sent
  have hgone := hfeeds _ h
  rcases htook with rfl | ⟨rfl, frame, hframe, hpast⟩
  · have hle : n' ≤ c'.sent.length := by
      rw [hsent, List.length_append]
      omega
    refine ⟨hle, ?_⟩
    rw [hsent, List.drop_append_of_le_length hn, Frame.items_append, ← hsent]
    exact hgone.grow hhad
  · obtain ⟨hlt, -⟩ := List.getElem?_eq_some_iff.mp hframe
    have hle : n + 1 ≤ c'.sent.length := by
      rw [hsent, List.length_append]
      omega
    refine ⟨hle, ?_⟩
    rw [hsent, List.drop_append_of_le_length (by omega), Frame.items_append, ← hsent]
    rw [drop_of_getElem? hframe] at hgone
    unfold Frame.items at hgone ⊢
    rw [List.filterMap_cons] at hgone
    cases hx : frame.item? lib with
    | none =>
        rw [hx] at hgone
        exact hgone.grow hhad
    | some x =>
        rw [hx] at hgone
        exact hgone.deliver.2.grow (taking_le hhad (hpast x hx))

/-- Frames without a bundle are put out at first and in reply. -/
theorem chatter_goes_on {c c' d d' : Connection} {n n' k b : ℕ}
    (h : c.chatter ≤ b + ((d.sent.take n).map Frame.replies).sum)
    (hc : c'.chatter ≤ c.chatter + k) (hn : n ≤ d.sent.length)
    (hd : ∃ extra, d'.sent = d.sent ++ extra)
    (htook : n' = n ∧ k = 0 ∨ n' = n + 1 ∧ ∃ frame, d.sent[n]? = some frame ∧ k = frame.replies) :
    c'.chatter ≤ b + ((d'.sent.take n').map Frame.replies).sum := by
  obtain ⟨extra, hd⟩ := hd
  rw [hd]
  rcases htook with ⟨rfl, rfl⟩ | ⟨rfl, frame, hframe, rfl⟩
  · rw [List.take_append_of_le_length hn]
    omega
  · obtain ⟨hlt, hget⟩ := List.getElem?_eq_some_iff.mp hframe
    rw [List.take_append_of_le_length (by omega), List.take_succ_eq_append_getElem hlt, hget,
      List.map_append, List.sum_append]
    simp only [List.map_cons, List.map_nil, List.sum_cons, List.sum_nil]
    omega

/-- **One relay goes on**, and may have taken a frame: all relays stay in step. -/
theorem InStep.goes_on [DecidableEq R] (h : net.InStep cs D) {r : R} {s' : Server σ} {taken' : R × Nat → ℕ}
    {replies : Nat → ℕ} (hstep : s'.InStep cs D fun id => taken' (r, id))
    (hfollows : (net.relays r).Follows cs (fun id => (net.peer (r, id)).elim 0
      fun e' => cs.marks (net.relays e'.1).store) replies s')
    (htaken : taken' = net.taken ∧ replies = 0 ∨ ∃ id frame,
      taken' = Function.update net.taken (r, id) (net.taken (r, id) + 1) ∧
      replies = Function.update (0 : Nat → ℕ) id frame.replies ∧ net.arriving (r, id) = some frame ∧
      ∀ x, frame.item? env.lib = some x → x.time ≤ cs.marks s'.store x.list) :
    ({ net with relays := Function.update net.relays r s', taken := taken' } : Net R σ).InStep cs D := by
  -- the other relays are as they were
  have hother : ∀ e : R × Nat, e.1 ≠ r → taken' e = net.taken e := by
    intro e hne
    rcases htaken with ⟨rfl, -⟩ | ⟨id, frame, rfl, -, -, -⟩
    · rfl
    · rw [Function.update_of_ne]
      intro heq
      exact hne (by rw [heq])
  have hself : Function.update net.relays r s' r = s' := Function.update_self _ _ _
  have hconnections : ∀ e : R × Nat, e.2 ∈ (Function.update net.relays r s' e.1).connections ↔
      e.2 ∈ (net.relays e.1).connections := by
    intro e
    by_cases hr : e.1 = r
    · rw [hr, hself]
      exact hfollows.connections e.2
    · rw [Function.update_of_ne hr]
  have hmarks : ∀ q, cs.marks (net.relays q).store
      ≤ cs.marks (Function.update net.relays r s' q).store := by
    intro q
    by_cases hq : q = r
    · rw [hq, hself]
      exact cs.marks_mono (h.relays r).valid hstep.valid hfollows.held
    · rw [Function.update_of_ne hq]
  -- at each end the connection has gone on
  have hends : ∀ e e', net.peer e = some e' → (net.conn e).Follows env.lib
      (cs.marks (net.relays e'.1).store) (if e.1 = r then replies e.2 else 0)
      ((Function.update net.relays r s' e.1).heap e.2) := by
    intro e e' he
    by_cases hr : e.1 = r
    · have hfollow := hfollows.ends e.2 (hr ▸ h.mem he)
      have hpeer : net.peer (r, e.2) = some e' := by rw [← hr]; exact he
      rw [hpeer] at hfollow
      unfold conn
      rw [hr, hself, if_pos rfl]
      exact hfollow
    · rw [Function.update_of_ne hr]
      exact .refl _
  -- and at most one frame was taken from it
  have htook : ∀ e e', net.peer e = some e' → taken' e' = net.taken e' ∨
      taken' e' = net.taken e' + 1 ∧ ∃ frame, (net.conn e).sent[net.taken e']? = some frame ∧
        ∀ x, frame.item? env.lib = some x →
          x.time ≤ cs.marks (Function.update net.relays r s' e'.1).store x.list := by
    intro e e' he
    rcases htaken with ⟨rfl, -⟩ | ⟨id, frame, rfl, -, harriving, hpast⟩
    · exact Or.inl rfl
    · by_cases heq : e' = (r, id)
      · subst heq
        refine Or.inr ⟨Function.update_self _ _ _, frame, ?_, ?_⟩
        · unfold arriving at harriving
          rw [h.back _ _ he] at harriving
          exact harriving
        · rw [hself]
          exact hpast
      · exact Or.inl (Function.update_of_ne heq _ _)
  have hdirection := fun e e' (he : net.peer e = some e') =>
    feeds_goes_on (h.feeds e e' he) (h.taken e e' he) (hends e e' he) (hmarks e'.1) (htook e e' he)
  -- an end replies when it takes a frame
  have hreplies : ∀ e e', net.peer e = some e' → taken' e = net.taken e ∧
      (if e.1 = r then replies e.2 else 0) = 0 ∨ taken' e = net.taken e + 1 ∧ ∃ frame,
        (net.conn e').sent[net.taken e]? = some frame ∧
          (if e.1 = r then replies e.2 else 0) = frame.replies := by
    intro e e' he
    by_cases hr : e.1 = r
    · rw [if_pos hr]
      rcases htaken with ⟨rfl, rfl⟩ | ⟨id, frame, rfl, rfl, harriving, -⟩
      · exact Or.inl ⟨rfl, rfl⟩
      · by_cases heq : e = (r, id)
        · subst heq
          refine Or.inr ⟨Function.update_self _ _ _, frame, ?_, Function.update_self _ _ _⟩
          unfold arriving at harriving
          rw [he] at harriving
          exact harriving
        · refine Or.inl ⟨Function.update_of_ne heq _ _, Function.update_of_ne ?_ _ _⟩
          intro hid
          exact heq (Prod.ext hr hid)
    · rw [if_neg hr]
      exact Or.inl ⟨hother e hr, rfl⟩
  refine ⟨?_, ?_, h.back, ?_, ?_, fun e e' he => (hdirection e e' he).1,
    fun e e' he => (hdirection e e' he).2, ?_⟩
  · intro q
    by_cases hq : q = r
    · subst hq
      show (Function.update net.relays q s' q).InStep cs D _
      rw [hself]
      exact hstep
    · show (Function.update net.relays r s' q).InStep cs D fun id => taken' (q, id)
      rw [Function.update_of_ne hq]
      have hsame : (fun id => taken' (q, id)) = fun id => net.taken (q, id) :=
        funext fun id => hother (q, id) hq
      rw [hsame]
      exact h.relays q
  · intro e
    exact (hconnections e).trans (h.joined e)
  · intro e e' he
    show ((Function.update net.relays r s' e'.1).heap e'.2).isClient
      = !((Function.update net.relays r s' e.1).heap e.2).isClient
    rw [(hends e e' he).isClient, (hends e' e (h.back e e' he)).isClient]
    exact h.roles e e' he
  · intro e hnone
    rcases htaken with ⟨rfl, -⟩ | ⟨id, frame, rfl, -, harriving, -⟩
    · exact h.unused e hnone
    · show Function.update net.taken (r, id) _ e = 0
      rw [Function.update_of_ne]
      · exact h.unused e hnone
      · intro heq
        unfold arriving at harriving
        rw [← heq, show net.peer e = none from hnone] at harriving
        exact absurd harriving (by simp)
  · intro e e' he
    have hback := hends e' e (h.back e e' he)
    obtain ⟨extra, hsent, -⟩ := hback.sent
    show ((Function.update net.relays r s' e.1).heap e.2).chatter ≤
      (if ((Function.update net.relays r s' e.1).heap e.2).isClient then 1 else 0) + _
    rw [(hends e e' he).isClient]
    exact chatter_goes_on (h.replies e e' he) (hends e e' he).chatter
      (h.taken e' e (h.back e e' he)) ⟨extra, hsent⟩ (hreplies e e' he)

/-- **A bundle that arrives** follows on what the relay has. -/
theorem InStep.comes_bundle (h : net.InStep cs D) {r : R} {id : Nat} {e' : R × Nat}
    (he : net.peer (r, id) = some e') {bytes : Bytes}
    (hframe : (net.conn e').sent[net.taken (r, id)]? = some (.message (.bundle bytes)))
    (htaken : 2 ≤ net.taken (r, id)) :
    ((net.relays r).heap id).Comes env.lib D (cs.marks (net.relays e'.1).store)
      (cs.marks (net.relays r).store) (net.taken (r, id)) (.message (.bundle bytes)) := by
  have hback := h.back _ _ he
  have hvalid := (h.relays e'.1).valid
  have hheld := (h.end_inStep hback).carried bytes (List.mem_of_getElem? hframe)
  obtain ⟨info, hi⟩ := cs.parsed _ hvalid _ hheld
  have hfeeds := h.feeds _ _ hback
  unfold flight Frame.items at hfeeds
  rw [drop_of_getElem? hframe, List.filterMap_cons, Frame.item?_bundle hi] at hfeeds
  exact @Connection.Comes.bundle _ _ _ _ _ _ ⟨bytes⟩ info htaken ((h.relays e'.1).known hheld)
    ((h.relays e'.1).clean _ hheld) hi (cs.placed_of_held hvalid hheld hi) hfeeds.deliver.1
    (cs.le_marks hvalid hheld hi)

/-- **What arrives** is what the other end may have put out. -/
theorem InStep.comes (h : net.InStep cs D) {r : R} {id : Nat} {e' : R × Nat}
    (he : net.peer (r, id) = some e') {frame : Frame} (hframe : net.arriving (r, id) = some frame) :
    ((net.relays r).heap id).Comes env.lib D (cs.marks (net.relays e'.1).store)
      (cs.marks (net.relays r).store) (net.taken (r, id)) frame := by
  have hback := h.back _ _ he
  have hc := h.end_inStep hback
  have hrole : ((net.relays r).heap id).isClient = !(net.conn e').isClient := h.roles _ _ hback
  have hframe : (net.conn e').sent[net.taken (r, id)]? = some frame := by
    unfold arriving at hframe
    rw [he] at hframe
    exact hframe
  cases hconnected : (net.conn e').wsConnected with
  | false =>
      -- only a client puts out something by itself
      rw [hc.waits hconnected] at hframe
      cases hclient : (net.conn e').isClient with
      | false =>
          rw [hclient] at hframe
          exact absurd hframe (by simp)
      | true =>
          rw [hclient, if_pos rfl, List.getElem?_singleton] at hframe
          split_ifs at hframe with h0
          have hopening : (net.conn e').opening = .request true := by
            unfold Connection.opening
            rw [hclient]
            rfl
          rw [← Option.some.inj hframe, ← hopening]
          exact .opens h0 hrole
  | true =>
      obtain ⟨greeting, rest, hsent, hrest, hdated⟩ := hc.greets hconnected
      have hbundle : ∀ bytes, frame = .message (.bundle bytes) → 2 ≤ net.taken (r, id) →
          ((net.relays r).heap id).Comes env.lib D (cs.marks (net.relays e'.1).store)
            (cs.marks (net.relays r).store) (net.taken (r, id)) frame := by
        intro bytes hbytes htaken
        subst hbytes
        exact h.comes_bundle he hframe htaken
      rw [hsent] at hframe
      generalize net.taken (r, id) = n at hframe hbundle ⊢
      cases n with
      | zero =>
          rw [← Option.some.inj hframe]
          exact .opens rfl hrole
      | succ n =>
          cases n with
          | zero =>
              rw [← Option.some.inj hframe]
              refine .greeting rfl (hdated.mono (h.relays e'.1).known) ?_
              intro chain
              rcases hdated chain with h0 | ⟨d, hd, info, hi, hchain, -, hmark⟩
              · rw [h0]
                exact Nat.zero_le _
              · rw [← hmark, ← hchain]
                exact cs.le_marks (h.relays e'.1).valid hd hi
          | succ n =>
              have hafter := hrest frame (List.mem_of_getElem? (show rest[n]? = some frame from hframe))
              rcases Frame.of_afterGreeting hafter with ⟨bytes, rfl⟩ | ⟨_, _, _, _, rfl⟩ | ⟨_, rfl⟩
              · exact hbundle bytes rfl (by omega)
              · exact .ack (by omega)
              · exact .signal (by omega)

/-- **A delivery** does not raise, and leaves all relays in step. -/
theorem InStep.deliver [DecidableEq R] (hD : Unforked env.lib D) (h : net.InStep cs D) {r : R}
    {id : Nat} {clock : κ} (hallowed : Allowed cs D net (.deliver r id clock)) {frame : Frame}
    (hframe : net.arriving (r, id) = some frame) :
    (∃ s', Server.handle env (.frame id none frame clock) (net.relays r) = .ok () s') ∧
      (step env net (.deliver r id clock)).InStep cs D := by
  obtain ⟨e', he, -⟩ := Option.bind_eq_some_iff.mp hframe
  have hpeer : (net.peer (r, id)).elim 0 (fun e' => cs.marks (net.relays e'.1).store)
      = cs.marks (net.relays e'.1).store := by
    rw [he]
    rfl
  have hcomes := h.comes he hframe
  rw [← hpeer] at hcomes
  have hhandles : (net.relays r).Handles cs D (fun id => net.taken (r, id))
      (fun id => (net.peer (r, id)).elim 0 fun e' => cs.marks (net.relays e'.1).store) id frame
      clock :=
    (h.relays r).frame hD (h.mem he) hcomes (fun bytes hbytes => hallowed bytes (hbytes ▸ hframe))
  obtain ⟨s', hs', hstep, hfollows, hpast⟩ := hhandles
  refine ⟨⟨s', hs'⟩, ?_⟩
  have hupdate : (fun i => Function.update net.taken (r, id) (net.taken (r, id) + 1) (r, i))
      = Function.update (fun i => net.taken (r, i)) id (net.taken (r, id) + 1) := by
    funext i
    by_cases hi : i = id
    · subst hi
      rw [Function.update_self, Function.update_self]
    · rw [Function.update_of_ne hi, Function.update_of_ne]
      intro heq
      exact hi (Prod.mk.inj heq).2
  unfold step
  simp only [hframe]
  unfold happens Server.step
  rw [hs']
  exact h.goes_on (by rw [hupdate]; exact hstep) hfollows (Or.inr ⟨id, frame, rfl, rfl, hframe, hpast⟩)

/-! ## §3. The other events. -/

/-- A relay goes on by itself. -/
theorem InStep.alone [DecidableEq R] (h : net.InStep cs D) {r : R} {s' : Server σ}
    (hstep : s'.InStep cs D fun id => net.taken (r, id))
    (hfollows : ∀ peerHas, (net.relays r).Follows cs peerHas 0 s') :
    ({ net with relays := Function.update net.relays r s' } : Net R σ).InStep cs D :=
  h.goes_on hstep (hfollows _) (Or.inl ⟨rfl, rfl⟩)

theorem InStep.commit [DecidableEq R] (hD : Unforked env.lib D) (h : net.InStep cs D) {r : R}
    {d : Decomposition} {clock : κ} (hallowed : Allowed cs D net (.commit r d clock)) :
    (step env net (.commit r d clock)).InStep cs D := by
  obtain ⟨s', hs', hstep, hfollows, -⟩ := (h.relays r).receive hD hallowed.1 hallowed.2
  have hsame : Server.step env (net.relays r) (.receive d clock) = s' := by
    rw [← hs']
    show Action.endState ((Server.receive env d clock >>= fun _ => pure ()) (net.relays r)) = _
    rw [Action.bind_eq]
    cases Server.receive env d clock (net.relays r) with
    | ok b s => rfl
    | error e s => rfl
  unfold step happens
  simp only [hsame]
  exact h.alone hstep hfollows

theorem InStep.reorder [DecidableEq R] (h : net.InStep cs D) (r : R) (connections : List Nat)
    (chain : Chain) (ids : List Nat) :
    (step env net (.reorder r connections chain ids)).InStep cs D := by
  have hr := h.relays r
  unfold step happens
  by_cases hperm : connections.Perm (net.relays r).connections ∧
      ids.Perm ((net.relays r).chainConnections chain)
  · have hsame : Server.step env (net.relays r) (.reorder connections chain ids)
        = { net.relays r with
            connections
            chainConnections := Function.update (net.relays r).chainConnections chain ids } :=
      if_pos hperm
    simp only [hsame]
    have hids : ids = [] := by
      have := hperm.2
      rw [hr.alone chain] at this
      exact this.eq_nil
    refine h.alone ⟨hr.valid, hr.known, hr.clean, ?_, ?_, ?_⟩ (fun _ => ⟨?_, subset_rfl, ?_⟩)
    · intro id
      rw [hr.created id]
      exact hperm.1.mem_iff.symm
    · intro chain'
      by_cases hc : chain' = chain
      · subst hc
        exact (Function.update_self _ _ _).trans hids
      · exact (Function.update_of_ne hc _ _).trans (hr.alone chain')
    · exact fun id hid => hr.ends id (hperm.1.mem_iff.mp hid)
    · exact fun id => hperm.1.mem_iff
    · exact fun id _ => .refl _
  · have hsame : Server.step env (net.relays r) (.reorder connections chain ids) = net.relays r :=
      if_neg hperm
    simp only [hsame]
    exact h.alone hr fun _ => .refl _

/-- A connection as it is made. -/
def newConnection (isClient : Bool) : Connection where
  isClient
  sent := if isClient then [.request true] else []

/-- It is in step with any relay. -/
theorem newConnection_inStep {lib : Externals} {held : Set Decomposition}
    {given : Decomposition → Prop} (isClient : Bool) :
    (newConnection isClient).InStep lib D held given 0 where
  up := ⟨rfl, rfl, rfl, rfl, rfl⟩
  connected := rfl
  greeted := rfl
  waits _ := rfl
  greets hconnected := absurd hconnected (by simp [newConnection])
  carried bytes hbytes := by
    cases isClient with
    | false => exact absurd hbytes (by simp [newConnection])
    | true => exact absurd hbytes (by simp [newConnection])
  covers t ht := absurd ht (by simp [newConnection])
  dated t ht := absurd ht (by simp [newConnection])

/-- A relay that has not made the connection before. -/
theorem connect_step {s : Server σ} {id : Nat} (isClient : Bool) (hnew : id ∉ s.created) :
    Server.step env s (.connect id .relay isClient false)
      = { s with
          created := id :: s.created
          heap := Function.update s.heap id (newConnection isClient)
          connections := Server.addTo id s.connections } :=
  if_neg hnew

/-- What making a connection changes. -/
structure Made [DecidableEq R] (net net' : Net R σ) (r : R) (id : Nat) (isClient : Bool) : Prop where
  conn : ∀ e, net'.conn e = if e = (r, id) then newConnection isClient else net.conn e
  mem : ∀ e : R × Nat,
    e.2 ∈ (net'.relays e.1).connections ↔ e = (r, id) ∨ e.2 ∈ (net.relays e.1).connections
  created : ∀ e : R × Nat,
    e.2 ∈ (net'.relays e.1).created ↔ e = (r, id) ∨ e.2 ∈ (net.relays e.1).created
  store : ∀ q, (net'.relays q).store = (net.relays q).store
  chainConnections : ∀ q, (net'.relays q).chainConnections = (net.relays q).chainConnections

theorem happens_connect [DecidableEq R] {r : R} {id : Nat} (isClient : Bool)
    (hnew : id ∉ (net.relays r).created) :
    net.Made (net.happens env r (.connect id .relay isClient false)) r id isClient := by
  have hrelay : ∀ q, (net.happens env r (.connect id .relay isClient false)).relays q
      = if q = r then { net.relays r with
          created := id :: (net.relays r).created
          heap := Function.update (net.relays r).heap id (newConnection isClient)
          connections := Server.addTo id (net.relays r).connections } else net.relays q := by
    intro q
    unfold happens
    rw [connect_step isClient hnew]
    by_cases hq : q = r
    · subst hq
      rw [if_pos rfl]
      exact Function.update_self _ _ _
    · rw [if_neg hq]
      exact Function.update_of_ne hq _ _
  refine ⟨?_, ?_, ?_, ?_, ?_⟩
  · intro e
    unfold conn
    rw [hrelay]
    by_cases hq : e.1 = r
    · rw [if_pos hq]
      by_cases hid : e.2 = id
      · rw [if_pos (Prod.ext hq hid), hid]
        exact Function.update_self _ _ _
      · rw [if_neg (fun heq => hid (congrArg Prod.snd heq)), hq]
        exact Function.update_of_ne hid _ _
    · rw [if_neg hq, if_neg (fun heq => hq (congrArg Prod.fst heq))]
  · intro e
    rw [hrelay]
    by_cases hq : e.1 = r
    · rw [if_pos hq, hq]
      show e.2 ∈ Server.addTo id (net.relays r).connections ↔ _
      rw [Server.mem_addTo, Prod.ext_iff]
      simp [hq]
    · rw [if_neg hq, Prod.ext_iff]
      simp [hq]
  · intro e
    rw [hrelay]
    by_cases hq : e.1 = r
    · rw [if_pos hq, hq]
      show e.2 ∈ id :: (net.relays r).created ↔ _
      rw [List.mem_cons, Prod.ext_iff]
      simp [hq]
    · rw [if_neg hq, Prod.ext_iff]
      simp [hq]
  · intro q
    rw [hrelay]
    by_cases hq : q = r
    · rw [if_pos hq, hq]
    · rw [if_neg hq]
  · intro q
    rw [hrelay]
    by_cases hq : q = r
    · rw [if_pos hq, hq]
    · rw [if_neg hq]

/-- The relays stay in step, if no frame was taken on the connection. -/
theorem Made.relays [DecidableEq R] {net' : Net R σ} {r : R} {id : Nat} {isClient : Bool}
    (h : net.Made net' r id isClient) {taken : R × Nat → ℕ} (htaken : taken (r, id) = 0)
    (hrelays : ∀ q, (net.relays q).InStep cs D fun i => taken (q, i)) (q : R) :
    (net'.relays q).InStep cs D fun i => taken (q, i) where
  valid := by
    rw [h.store]
    exact (hrelays q).valid
  known := by
    rw [h.store]
    exact (hrelays q).known
  clean := by
    rw [h.store]
    exact (hrelays q).clean
  created i := by
    rw [h.created (q, i), h.mem (q, i), (hrelays q).created i]
  alone := by
    rw [h.chainConnections]
    exact (hrelays q).alone
  ends i hi := by
    rw [h.store]
    have hconn : (net'.relays q).heap i
        = if (q, i) = (r, id) then newConnection isClient else (net.relays q).heap i := h.conn (q, i)
    rw [hconn]
    by_cases heq : (q, i) = (r, id)
    · rw [if_pos heq, heq, htaken]
      exact newConnection_inStep isClient
    · rw [if_neg heq]
      exact (hrelays q).ends i (((h.mem (q, i)).mp hi).resolve_left heq)

/-- **A websocket is opened** between two ends that are new. -/
theorem InStep.connect [DecidableEq R] (h : net.InStep cs D) {r r' : R} {id id' : Nat}
    (hallowed : Allowed cs D net (.connect r id r' id')) :
    (step env net (.connect r id r' id')).InStep cs D := by
  obtain ⟨hne, hnew, hnew'⟩ := hallowed
  have hmade := @happens_connect _ _ _ env net _ r id true hnew
  have hnew'' : id' ∉ ((net.happens env r (.connect id .relay true false)).relays r').created := by
    intro hin
    rcases (hmade.created (r', id')).mp hin with heq | hin
    · exact hne heq.symm
    · exact hnew' hin
  have hmade' := @happens_connect _ _ _ env _ _ r' id' false hnew''
  -- nobody was at the other end of either
  have hfree : ∀ q i, i ∉ (net.relays q).created → net.peer (q, i) = none := by
    intro q i hi
    by_contra hsome
    have hin := (h.joined (q, i)).mpr (Option.isSome_iff_ne_none.mpr hsome)
    exact hi (((h.relays q).created i).mpr hin)
  have hfree₁ := hfree r id hnew
  have hfree₂ := hfree r' id' hnew'
  have hpeer : ∀ e, (step env net (.connect r id r' id')).peer e
      = if e = (r', id') then some (r, id) else if e = (r, id) then some (r', id') else net.peer e := by
    intro e
    show Function.update (Function.update net.peer (r, id) (some (r', id'))) (r', id')
      (some (r, id)) e = _
    by_cases h₂ : e = (r', id')
    · rw [if_pos h₂, h₂, Function.update_self]
    · rw [if_neg h₂, Function.update_of_ne h₂]
      by_cases h₁ : e = (r, id)
      · rw [if_pos h₁, h₁, Function.update_self]
      · rw [if_neg h₁, Function.update_of_ne h₁]
  have hconn : ∀ e, (step env net (.connect r id r' id')).conn e
      = if e = (r', id') then newConnection false
        else if e = (r, id) then newConnection true else net.conn e := by
    intro e
    exact (hmade'.conn e).trans (by rw [hmade.conn e])
  have hstore : ∀ q, ((step env net (.connect r id r' id')).relays q).store = (net.relays q).store :=
    fun q => (hmade'.store q).trans (hmade.store q)
  -- the ends that were joined before are others
  have hold : ∀ e e', net.peer e = some e' → e ≠ (r, id) ∧ e ≠ (r', id') := by
    intro e e' he
    constructor
    · intro heq
      rw [heq, hfree₁] at he
      exact absurd he (by simp)
    · intro heq
      rw [heq, hfree₂] at he
      exact absurd he (by simp)
  have hcases : ∀ e e', (step env net (.connect r id r' id')).peer e = some e' →
      (e = (r', id') ∧ e' = (r, id)) ∨ (e = (r, id) ∧ e' = (r', id')) ∨
        (net.peer e = some e' ∧ (e ≠ (r, id) ∧ e ≠ (r', id')) ∧ e' ≠ (r, id) ∧ e' ≠ (r', id')) := by
    intro e e' he
    rw [hpeer] at he
    split_ifs at he with h₂ h₁
    · exact Or.inl ⟨h₂, (Option.some.inj he).symm⟩
    · exact Or.inr (Or.inl ⟨h₁, (Option.some.inj he).symm⟩)
    · exact Or.inr (Or.inr ⟨he, ⟨h₁, h₂⟩, hold e' e (h.back e e' he)⟩)
  have hconn₁ : (step env net (.connect r id r' id')).conn (r, id) = newConnection true := by
    rw [hconn, if_neg hne, if_pos rfl]
  have hconn₂ : (step env net (.connect r id r' id')).conn (r', id') = newConnection false := by
    rw [hconn, if_pos rfl]
  have hconn₀ : ∀ e, e ≠ (r, id) ∧ e ≠ (r', id') →
      (step env net (.connect r id r' id')).conn e = net.conn e := by
    intro e he
    rw [hconn, if_neg he.2, if_neg he.1]
  have hzero₁ : net.taken (r, id) = 0 := h.unused _ hfree₁
  have hzero₂ : net.taken (r', id') = 0 := h.unused _ hfree₂
  have hquiet : ∀ isClient had, Feeds had (newConnection isClient).known
      (Frame.items env.lib ((newConnection isClient).sent.drop 0))
      (Frame.items env.lib (newConnection isClient).sent) := by
    intro isClient had
    have hnone : Frame.items env.lib (newConnection isClient).sent = [] := by
      cases isClient <;> rfl
    rw [List.drop_zero, hnone]
    exact Feeds.nothing had _ (fun k hk => absurd hk (by simp [Connection.known, newConnection]))
  refine ⟨?_, ?_, ?_, ?_, ?_, ?_, ?_, ?_⟩
  · exact hmade'.relays hzero₂ (hmade.relays hzero₁ h.relays)
  · intro e
    have hmem := (hmade'.mem e).trans (or_congr_right (hmade.mem e))
    rw [hpeer]
    refine hmem.trans ?_
    by_cases h₂ : e = (r', id')
    · simp [h₂]
    · by_cases h₁ : e = (r, id)
      · simp [h₁, hne]
      · rw [if_neg h₂, if_neg h₁, h.joined e]
        simp [h₁, h₂]
  · intro e e' he
    rcases hcases e e' he with ⟨rfl, rfl⟩ | ⟨rfl, rfl⟩ | ⟨hpre, ⟨h₁, h₂⟩, h₁', h₂'⟩
    · rw [hpeer, if_neg hne, if_pos rfl]
    · rw [hpeer, if_pos rfl]
    · rw [hpeer, if_neg h₂', if_neg h₁']
      exact h.back e e' hpre
  · intro e e' he
    rcases hcases e e' he with ⟨rfl, rfl⟩ | ⟨rfl, rfl⟩ | ⟨hpre, hother, hother'⟩
    · rw [hconn₁, hconn₂]
      rfl
    · rw [hconn₁, hconn₂]
      rfl
    · rw [hconn₀ e hother, hconn₀ e' hother']
      exact h.roles e e' hpre
  · intro e hnone
    rw [hpeer] at hnone
    split_ifs at hnone
    exact h.unused e hnone
  · intro e e' he
    show net.taken e' ≤ _
    rcases hcases e e' he with ⟨rfl, rfl⟩ | ⟨rfl, rfl⟩ | ⟨hpre, hother, hother'⟩
    · rw [hzero₁]
      exact Nat.zero_le _
    · rw [hzero₂]
      exact Nat.zero_le _
    · rw [hconn₀ e hother]
      exact h.taken e e' hpre
  · intro e e' he
    unfold flight
    show Feeds _ _ (Frame.items env.lib (List.drop (net.taken e') _)) _
    rcases hcases e e' he with ⟨rfl, rfl⟩ | ⟨rfl, rfl⟩ | ⟨hpre, hother, hother'⟩
    · rw [hzero₁, hconn₂]
      exact hquiet false _
    · rw [hzero₂, hconn₁]
      exact hquiet true _
    · rw [hconn₀ e hother, hstore]
      exact h.feeds e e' hpre
  · intro e e' he
    show _ ≤ _ + ((List.take (net.taken e) _).map Frame.replies).sum
    rcases hcases e e' he with ⟨rfl, rfl⟩ | ⟨rfl, rfl⟩ | ⟨hpre, hother, hother'⟩
    · rw [hconn₂]
      exact Nat.zero_le _
    · rw [hconn₁]
      exact Nat.le_add_right 1 _
    · rw [hconn₀ e hother, hconn₀ e' hother']
      exact h.replies e e' hpre

/-! ## §4. Runs. -/

/-- **Every event** leaves all relays in step with their peers. -/
theorem InStep.step [DecidableEq R] (hD : Unforked env.lib D) (h : net.InStep cs D)
    (event : Event R κ) (hallowed : Allowed cs D net event) : (step env net event).InStep cs D := by
  cases event with
  | connect r id r' id' => exact h.connect hallowed
  | commit r d clock => exact h.commit hD hallowed
  | deliver r id clock =>
      cases hframe : net.arriving (r, id) with
      | some frame => exact (h.deliver hD hallowed hframe).2
      | none =>
          unfold Net.step
          simp only [hframe]
          exact h
  | reorder r connections chain ids => exact h.reorder r connections chain ids

theorem Starts.inStep (h : net.Starts cs D) : net.InStep cs D where
  relays r :=
    { valid := h.valid r
      known := fun d hd => (h.held r d hd).1
      clean := fun d hd => (h.held r d hd).2
      created := fun id => by rw [h.created, h.connections]
      alone := h.chainConnections r
      ends := fun id hid => by
        rw [h.connections] at hid
        exact absurd hid List.not_mem_nil }
  joined e := by
    rw [h.connections, h.peer]
    simp
  back e e' he := absurd he (by rw [h.peer]; simp)
  roles e e' he := absurd he (by rw [h.peer]; simp)
  unused e _ := h.taken e
  taken e e' he := absurd he (by rw [h.peer]; simp)
  feeds e e' he := absurd he (by rw [h.peer]; simp)
  replies e e' he := absurd he (by rw [h.peer]; simp)

/-- The delivery of a frame does not make the relay raise. -/
def Quiet (env : ServerEnv σ κ) (net : Net R σ) : Event R κ → Prop
  | .deliver r id clock => ∀ frame, net.arriving (r, id) = some frame →
      ∃ s', Server.handle env (.frame id none frame clock) (net.relays r) = .ok () s'
  | _ => True

/-- A websocket joins the two relays, and both ends have taken all that was put out. -/
def AtRest (net : Net R σ) (r r' : R) : Prop :=
  ∃ e e', e.1 = r ∧ e'.1 = r' ∧ net.peer e = some e' ∧ net.peer e' = some e ∧
    net.flight e e' = [] ∧ net.flight e' e = []

/-- **What one end holds** the other end holds, or it is under way. -/
theorem InStep.shares (hD : Unforked env.lib D) (h : net.InStep cs D) {e e' : R × Nat}
    (he : net.peer e = some e') (hgreeted : (net.conn e).tracker.isSome) {d : Decomposition}
    (hd : d ∈ cs.held (net.relays e.1).store) :
    d ∈ cs.held (net.relays e'.1).store ∨ .message (.bundle d.bundleBytes) ∈ net.flight e e' := by
  have hvalid := (h.relays e.1).valid
  have hc := h.end_inStep he
  obtain ⟨t, ht⟩ := Option.isSome_iff_exists.mp hgreeted
  obtain ⟨info, hi⟩ := cs.parsed _ hvalid d hd
  have hplaced := cs.placed_of_held hvalid hd hi
  have hin := (h.relays e.1).known hd
  have hfeeds := h.feeds e e' he
  unfold Connection.known at hfeeds
  rw [ht] at hfeeds
  rcases hfeeds.reaches (hc.covers t ht d hd info hi) with hhad | ⟨x, hx, hlist, hprevious, hreach⟩
  · exact Or.inl (cs.held_of_le hD (h.relays e'.1).valid (h.relays e'.1).known hin hi hplaced.later
      hhad)
  · -- the item that spans its time is the bundle itself
    obtain ⟨frame, hframe, hitem⟩ := List.mem_filterMap.mp hx
    obtain ⟨bytes, j, rfl, hj, rfl⟩ := Frame.of_item? hitem
    have hcarried := hc.carried bytes (List.mem_of_mem_drop hframe)
    have hsame : d = ⟨bytes⟩ := hD d hin _ ((h.relays e.1).known hcarried) info j hi hj
      hlist.symm info.timestamp.val hplaced.later le_rfl hprevious hreach
    rw [hsame]
    exact Or.inr hframe

/-- With nothing under way both have greeted. -/
theorem InStep.greeted_of_idle (h : net.InStep cs D) {e e' : R × Nat} (he : net.peer e = some e')
    (hout : net.flight e e' = []) (hin : net.flight e' e = []) :
    (net.conn e).tracker.isSome = true := by
  have hc := h.end_inStep he
  have hc' := h.end_inStep (h.back e e' he)
  have htaken : (net.conn e).sent.length = net.taken e' :=
    le_antisymm (List.drop_eq_nil_iff.mp hout) (h.taken e e' he)
  have htaken' : (net.conn e').sent.length = net.taken e :=
    le_antisymm (List.drop_eq_nil_iff.mp hin) (h.taken e' e (h.back e e' he))
  rw [hc.greeted, decide_eq_true_eq, ← htaken']
  cases hconnected : (net.conn e').wsConnected with
  | true =>
      obtain ⟨greeting, rest, hsent, -⟩ := hc'.greets hconnected
      rw [hsent]
      simp
  | false =>
      -- the other end has taken nothing, so this one is a server that was asked for nothing
      have h0 : net.taken e' = 0 := by
        have hnot := hc'.connected
        rw [hconnected, eq_comm, decide_eq_false_iff_not] at hnot
        omega
      rw [h0, List.length_eq_zero_iff] at htaken
      have hsent' := hc'.waits hconnected
      rw [h.roles e e' he] at hsent'
      cases hself : (net.conn e).wsConnected with
      | true =>
          obtain ⟨greeting, rest, hsent, -⟩ := hc.greets hself
          rw [hsent] at htaken
          exact absurd htaken (by simp)
      | false =>
          have hwaits := hc.waits hself
          rw [htaken] at hwaits
          have hserver : (net.conn e).isClient = false := by
            by_contra hclient
            rw [Bool.not_eq_false] at hclient
            rw [hclient] at hwaits
            exact absurd hwaits (by simp)
          rw [hserver] at hsent'
          rw [hsent'] at htaken'
          have hone : net.taken e = 1 := htaken'.symm
          have hopen := hc.connected
          rw [hself, hone] at hopen
          exact absurd hopen (by simp)

/-- Relays that are joined and at rest hold the same bundles. -/
theorem InStep.same_of_atRest (hD : Unforked env.lib D) (h : net.InStep cs D) {r r' : R}
    (hrest : net.AtRest r r') (d : Decomposition) :
    d ∈ cs.held (net.relays r).store ↔ d ∈ cs.held (net.relays r').store := by
  obtain ⟨e, e', rfl, rfl, he, he', hout, hin⟩ := hrest
  constructor
  · intro hd
    refine (h.shares hD he (h.greeted_of_idle he hout hin) hd).resolve_right ?_
    rw [hout]
    exact List.not_mem_nil
  · intro hd
    refine (h.shares hD he' (h.greeted_of_idle he' hin hout) hd).resolve_right ?_
    rw [hin]
    exact List.not_mem_nil

/-- Two bundles of one chain; the stores are in memory. -/
def pairEnv : ServerEnv Memory.Store (Nat → Int) where
  lib := sampleExternals [startingBundle 5 7 [], followingBundle 6 0 (startingBundle 5 7 []) []]
  ops := Memory.bundleStore
    (sampleExternals [startingBundle 5 7 [], followingBundle 6 0 (startingBundle 5 7 []) []])
  braidFunc _ := none

def pairStore : ChainStore pairEnv.lib pairEnv.ops := Memory.chainStore pairEnv.lib

/-- Two relays with empty stores that do not know each other. -/
def pair : Net Bool Memory.Store where
  relays _ := { store := {} }

/-- The first relay commits a bundle, then the second connects to it; the next bundle is committed
while the first is under way. -/
def pairEvents : List (Event Bool (Nat → Int)) :=
  [.commit false (sampleBundle 0) fun _ => 0, .connect true 0 false 0, .deliver false 0 fun _ => 0,
    .deliver true 0 fun _ => 0, .deliver true 0 fun _ => 0, .deliver false 0 fun _ => 0,
    .commit false (sampleBundle 1) fun _ => 0, .deliver true 0 fun _ => 0, .deliver true 0 fun _ => 0,
    .deliver true 0 fun _ => 0, .deliver false 0 fun _ => 0, .deliver false 0 fun _ => 0,
    .deliver false 0 fun _ => 0]

/-- A store settles a bundle when it does so by running. -/
def settlesNow (s : Memory.Store) (d : Decomposition) (clock : Nat → Int) : Bool :=
  match d.getInfo pairEnv.lib with
  | .error _ => true
  | .ok info => match isNeeded info (s.chainInfos.get? info.chain) with
    | .error _ => true
    | .ok needed => decide ((pairEnv.ops.applyBundle s d clock).2 = .ok needed)

theorem settles_of_now {s : Memory.Store} {d : Decomposition} {clock : Nat → Int}
    (h : settlesNow s d clock = true) : Server.Settles pairStore s d clock := by
  refine ⟨trivial, ?_⟩
  intro info hi needed hneeded
  have hneeded : isNeeded info (s.chainInfos.get? info.chain) = .ok needed := hneeded
  unfold settlesNow at h
  simp only [hi, hneeded, decide_eq_true_eq] at h
  exact h

/-- And the events of a run are allowed. -/
def allowedNow (net : Net Bool Memory.Store) : List (Event Bool (Nat → Int)) → Bool
  | [] => true
  | event :: rest =>
      (match event with
        | .connect r id r' id' => decide ((r, id) ≠ (r', id') ∧ id ∉ (net.relays r).created ∧
            id' ∉ (net.relays r').created)
        | .commit r d clock => decide (d ∈ [sampleBundle 0, sampleBundle 1]) &&
            settlesNow (net.relays r).store d clock
        | .deliver r id clock => match net.arriving (r, id) with
            | some (.message (.bundle bytes)) => settlesNow (net.relays r).store ⟨bytes⟩ clock
            | _ => true
        | .reorder _ _ _ _ => true) && allowedNow (net.step pairEnv event) rest

theorem allSteps_of_now (events : List (Event Bool (Nat → Int))) :
    ∀ net : Net Bool Memory.Store, allowedNow net events = true →
      AllSteps (Net.step pairEnv) (Allowed pairStore {d | d ∈ [sampleBundle 0, sampleBundle 1]}) net
        events := by
  induction events with
  | nil => exact fun _ _ => trivial
  | cons event rest ih =>
      intro net h
      unfold allowedNow at h
      rw [Bool.and_eq_true] at h
      refine ⟨?_, ih _ h.2⟩
      have hevent := h.1
      cases event with
      | connect r id r' id' =>
          simp only [decide_eq_true_eq] at hevent
          exact hevent
      | commit r d clock =>
          simp only [Bool.and_eq_true, decide_eq_true_eq] at hevent
          exact ⟨hevent.1, settles_of_now hevent.2⟩
      | deliver r id clock =>
          intro bytes hframe
          simp only [hframe] at hevent
          exact settles_of_now hevent
      | reorder r connections chain ids => trivial

/-- The two bundles are of one chain that does not fork. -/
theorem pair_unforked : Unforked pairEnv.lib {d | d ∈ [sampleBundle 0, sampleBundle 1]} := by
  have h₀ : (sampleBundle 0).getInfo pairEnv.lib
      = .ok (.ofBuilder (startingBundle 5 7 []) (List.replicate 31 0 ++ [0])) := by rfl
  have h₁ : (sampleBundle 1).getInfo pairEnv.lib
      = .ok (.ofBuilder (followingBundle 6 0 (startingBundle 5 7 []) [])
          (List.replicate 31 0 ++ [1])) := by rfl
  intro d hd e he i j hi hj hchain t hlt hle hlt' hle'
  have hd : d ∈ [sampleBundle 0, sampleBundle 1] := hd
  have he : e ∈ [sampleBundle 0, sampleBundle 1] := he
  simp only [List.mem_cons, List.not_mem_nil, or_false] at hd he
  rcases hd with rfl | rfl
  · rcases he with rfl | rfl
    · rfl
    · rw [h₀, Except.ok.injEq] at hi
      rw [h₁, Except.ok.injEq] at hj
      subst hi hj
      have hle : t ≤ 5 := hle
      have hlt' : 5 < t := hlt'
      omega
  · rcases he with rfl | rfl
    · rw [h₁, Except.ok.injEq] at hi
      rw [h₀, Except.ok.injEq] at hj
      subst hi hj
      have hlt : 5 < t := hlt
      have hle' : t ≤ 5 := hle'
      omega
    · rfl

end Net

end Gink
