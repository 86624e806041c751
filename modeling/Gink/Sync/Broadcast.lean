/-
  Gink.Sync.Broadcast — a stored bundle goes out to the peers.

  The loop of the relay stops at the first peer whose `send_bundle` raises, and the
  exception leaves the call that stored the bundle.  The loop of the braid server
  catches it, but then takes the connection out of the set it iterates over, which
  raises as well.  So everybody is served exactly when nobody's connection fails.
-/
import Gink.Sync.Server
import Gink.Proto.Sample

namespace Gink

namespace Server

variable {σ κ : Type} {lib : Externals} {d : Decomposition} {info : BundleInfo}

/-! ## §1. Loops over connections. -/

/-- The server once the bundle was offered on the connections that `p` picks. -/
def offeredOn (s : Server σ) (d : Decomposition) (info : BundleInfo) (p : Nat → Bool) : Server σ :=
  { s with heap := fun id => if p id then (s.heap id).offered d info else s.heap id }

theorem onConnection_ok {id : Nat} {s : Server σ} {c : Connection} {x : Action Connection Unit}
    (h : x (s.heap id) = .ok () c) :
    onConnection id x s = .ok () { s with heap := Function.update s.heap id c } :=
  Action.within_eq_ok.mpr ⟨c, h, rfl⟩

theorem onConnection_error {id : Nat} {s : Server σ} {c : Connection} {e : Error}
    {x : Action Connection Unit} (h : x (s.heap id) = .error e c) :
    onConnection id x s = .error e { s with heap := Function.update s.heap id c } :=
  Action.within_eq_error.mpr ⟨c, h, rfl⟩

/-- Offering on one connection. -/
theorem update_offered (s : Server σ) (id : Nat) :
    { s with heap := Function.update s.heap id ((s.heap id).offered d info) }
      = s.offeredOn d info (fun i => decide (i = id)) := by
  unfold offeredOn
  congr 1
  funext i
  by_cases hi : i = id
  · subst hi
    simp
  · simp [hi]

/-- Offering twice is offering once. -/
theorem offeredOn_offeredOn (s : Server σ) (p q : Nat → Bool) :
    (s.offeredOn d info p).offeredOn d info q = s.offeredOn d info (fun i => p i || q i) := by
  unfold offeredOn
  congr 1
  funext i
  cases hp : p i <;> cases hq : q i <;> simp [hp, hq, Connection.offered_offered]

theorem fails_offeredOn (s : Server σ) (p : Nat → Bool) {id : Nat}
    (h : (s.heap id).fails info = false) :
    ((s.offeredOn d info p).heap id).fails info = false := by
  unfold offeredOn
  by_cases hp : p id = true
  · simp only [hp, if_true]
    exact Connection.fails_of_not_lacks (Connection.lacks_offered _)
  · simp only [hp]
    exact h

/-- **The relay's loop** serves every peer when none of them fails. -/
theorem sendToPeers_ok (hd : d.getInfo lib = .ok info) (ids : List Nat) :
    ∀ s : Server σ, (∀ id ∈ ids, (s.heap id).fails info = false) →
      sendToPeers lib d ids s = .ok () (s.offeredOn d info (fun i => decide (i ∈ ids))) := by
  induction ids with
  | nil =>
      intro s _
      unfold sendToPeers offeredOn
      simp [Action.pure_apply]
  | cons id rest ih =>
      intro s h
      have hid := h id List.mem_cons_self
      unfold sendToPeers
      rw [Action.bind_eq, onConnection_ok (Connection.sendBundle_ok hd hid), update_offered]
      simp only
      rw [ih _ (fun i hi => fails_offeredOn s _ (h i (List.mem_cons_of_mem _ hi))),
        offeredOn_offeredOn]
      simp only [List.mem_cons, Bool.decide_or]

/-- And raises when one does. -/
theorem sendToPeers_error (hd : d.getInfo lib = .ok info) (ids : List Nat) :
    ∀ s : Server σ, (∃ id ∈ ids, (s.heap id).fails info = true) →
      ∃ e s', sendToPeers lib d ids s = .error e s' := by
  induction ids with
  | nil =>
      intro s h
      obtain ⟨id, hid, -⟩ := h
      exact absurd hid List.not_mem_nil
  | cons id rest ih =>
      intro s h
      unfold sendToPeers
      rw [Action.bind_eq]
      cases hid : (s.heap id).fails info with
      | true =>
          obtain ⟨e, c, he, -⟩ := Connection.sendBundle_error hd hid
          rw [onConnection_error he]
          exact ⟨e, _, rfl⟩
      | false =>
          rw [onConnection_ok (Connection.sendBundle_ok hd hid), update_offered]
          simp only
          apply ih
          -- the one that fails is another connection, and is as it was
          obtain ⟨i, hi, hfails⟩ := h
          have hne : i ≠ id := by
            intro heq
            rw [heq, hid] at hfails
            simp at hfails
          refine ⟨i, (List.mem_cons.mp hi).resolve_left hne, ?_⟩
          unfold offeredOn
          simpa [hne] using hfails

/-! ## §2. The loop of the braid server. -/

/-- The connection is entitled to the bundle: its braid reaches past it. -/
def entitled (s : Server σ) (info : BundleInfo) (id : Nat) : Bool :=
  (s.connectionBraid id).any (s.withinBraid · info)

/-- The loop would raise at this connection: it has no braid any more, or it is entitled
to the bundle and sending fails. -/
def stumbles (s : Server σ) (info : BundleInfo) (id : Nat) : Bool :=
  (s.connectionBraid id).isNone || (s.entitled info id && (s.heap id).fails info)

theorem checkSize_ok {s : Server σ} {chain : Chain} :
    checkSize chain (s.chainConnections chain).length s = .ok () s := by
  unfold checkSize
  rw [Action.get_bind, decide_eq_true rfl]
  rfl

theorem checkSize_error {s : Server σ} {chain : Chain} {size : Nat}
    (h : (s.chainConnections chain).length ≠ size) : ∃ e, checkSize chain size s = .error e s := by
  unfold checkSize
  rw [Action.get_bind, decide_eq_false h]
  exact ⟨_, rfl⟩

/-- Whatever is left to iterate over, a set of another size raises. -/
theorem considerConnections_resized {s : Server σ} {size : Nat} (ids : List Nat)
    (h : (s.chainConnections info.chain).length ≠ size) :
    ∃ e, considerConnections lib d info size ids s = .error e s := by
  obtain ⟨e, he⟩ := checkSize_error h
  cases ids with
  | nil => exact ⟨e, he⟩
  | cons id rest =>
      unfold considerConnections
      rw [Action.bind_eq, he]
      exact ⟨e, rfl⟩

/-- A connection that does not make the loop stumble is offered the bundle if it is
entitled to it. -/
theorem considerConnection_ok (hd : d.getInfo lib = .ok info) {s : Server σ} {id : Nat}
    (h : s.stumbles info id = false) :
    considerConnection lib d info id s
      = .ok () (s.offeredOn d info (fun i => decide (i = id) && s.entitled info id)) := by
  unfold stumbles at h
  rw [Bool.or_eq_false_iff] at h
  obtain ⟨hsome, hfails⟩ := h
  obtain ⟨braid, hbraid⟩ := Option.isSome_iff_exists.mp (Option.isNone_eq_false_iff.mp hsome)
  have hent : s.entitled info id = s.withinBraid braid info := by
    unfold entitled
    rw [hbraid]
    rfl
  unfold considerConnection
  rw [Action.get_bind, hbraid, orRaise_some, Action.of_ok_bind, ← hent]
  rw [hent] at hfails ⊢
  cases hin : s.withinBraid braid info with
  | true =>
      rw [hin, Bool.true_and] at hfails
      rw [if_pos rfl, Action.recover_ok (onConnection_ok (Connection.sendBundle_ok hd hfails)),
        update_offered]
      simp only [Bool.and_true]
  | false =>
      rw [if_neg (by simp)]
      unfold offeredOn
      simp [Action.pure_apply]

theorem length_discard {id : Nat} {ids : List Nat} (h : id ∈ ids) :
    (discard id ids).length < ids.length :=
  List.length_filter_lt_length_iff_exists.mpr ⟨id, h, by simp⟩

/-- One that does raises, or leaves the set smaller. -/
theorem considerConnection_stumbles (hd : d.getInfo lib = .ok info) {s : Server σ} {id : Nat}
    (hmem : id ∈ s.chainConnections info.chain) (h : s.stumbles info id = true) :
    (∃ e s', considerConnection lib d info id s = .error e s') ∨
    ∃ s', considerConnection lib d info id s = .ok () s' ∧
      (s'.chainConnections info.chain).length < (s.chainConnections info.chain).length := by
  unfold considerConnection
  rw [Action.get_bind]
  rcases Option.eq_none_or_eq_some (s.connectionBraid id) with hbraid | ⟨braid, hbraid⟩
  · rw [hbraid]
    exact Or.inl ⟨_, s, rfl⟩
  · unfold stumbles entitled at h
    rw [hbraid] at h
    simp only [Option.isNone_some, Option.any_some, Bool.false_or, Bool.and_eq_true] at h
    obtain ⟨hin, hfails⟩ := h
    obtain ⟨e, c, he, -⟩ := Connection.sendBundle_error hd hfails
    rw [hbraid, orRaise_some, Action.of_ok_bind, if_pos hin,
      Action.recover_error (onConnection_error he)]
    -- the chain is one of the braid's, so `_disconnect` takes the connection out of its set
    have hchain : info.chain ∈ s.braidChains braid := by
      unfold withinBraid at hin
      cases hl : (s.braids braid).get? info.chain with
      | none =>
          rw [hl] at hin
          simp at hin
      | some limit => exact List.mem_map.mpr ⟨_, Table.get?_eq_some_iff.mp hl, rfl⟩
    have hrows : (s.braids braid).rows.isEmpty = false := by
      cases hr : (s.braids braid).rows with
      | nil =>
          unfold braidChains at hchain
          rw [hr] at hchain
          simp at hchain
      | cons _ _ => rfl
    refine Or.inr ⟨_, rfl, ?_⟩
    simp only [hbraid, hrows]
    show (if info.chain ∈ s.braidChains braid then _ else _ : List Nat).length < _
    rw [if_pos hchain]
    exact length_discard hmem

theorem entitled_offeredOn (s : Server σ) (p : Nat → Bool) (id : Nat) :
    (s.offeredOn d info p).entitled info id = s.entitled info id := rfl

theorem stumbles_offeredOn (s : Server σ) (p : Nat → Bool) {id : Nat}
    (h : s.stumbles info id = false) : (s.offeredOn d info p).stumbles info id = false := by
  unfold stumbles at h ⊢
  rw [entitled_offeredOn]
  rw [Bool.or_eq_false_iff] at h ⊢
  refine ⟨h.1, ?_⟩
  cases hent : s.entitled info id with
  | false => rfl
  | true =>
      have hfails := h.2
      rw [hent, Bool.true_and] at hfails
      rw [Bool.true_and]
      exact fails_offeredOn s p hfails

/-- **The braid server's loop** serves every entitled connection when it stumbles over
none. -/
theorem considerConnections_ok (hd : d.getInfo lib = .ok info) (ids : List Nat) :
    ∀ s : Server σ, (∀ id ∈ ids, s.stumbles info id = false) →
      considerConnections lib d info (s.chainConnections info.chain).length ids s
        = .ok () (s.offeredOn d info (fun i => decide (i ∈ ids) && s.entitled info i)) := by
  induction ids with
  | nil =>
      intro s _
      unfold considerConnections
      rw [checkSize_ok]
      unfold offeredOn
      simp
  | cons id rest ih =>
      intro s h
      unfold considerConnections
      rw [Action.bind_eq, checkSize_ok]
      simp only
      rw [Action.bind_eq, considerConnection_ok hd (h id List.mem_cons_self)]
      simp only
      have hrest := ih (s.offeredOn d info (fun i => decide (i = id) && s.entitled info id))
        (fun i hi => stumbles_offeredOn s _ (h i (List.mem_cons_of_mem _ hi)))
      simp only [entitled_offeredOn] at hrest
      refine hrest.trans ?_
      rw [offeredOn_offeredOn]
      congr 2
      funext i
      by_cases hi : i = id
      · subst hi
        simp
      · simp [hi]

/-- And raises when it stumbles. -/
theorem considerConnections_error (hd : d.getInfo lib = .ok info) (ids : List Nat) :
    ∀ s : Server σ, (∀ id ∈ ids, id ∈ s.chainConnections info.chain) →
      (∃ id ∈ ids, s.stumbles info id = true) →
      ∃ e s', considerConnections lib d info (s.chainConnections info.chain).length ids s
        = .error e s' := by
  induction ids with
  | nil =>
      intro s _ h
      obtain ⟨id, hid, -⟩ := h
      exact absurd hid List.not_mem_nil
  | cons id rest ih =>
      intro s hmem h
      unfold considerConnections
      rw [Action.bind_eq, checkSize_ok]
      simp only
      rw [Action.bind_eq]
      cases hid : s.stumbles info id with
      | true =>
          rcases considerConnection_stumbles hd (hmem id List.mem_cons_self) hid with
            ⟨e, s', he⟩ | ⟨s', hs', hlt⟩
          · rw [he]
            exact ⟨e, s', rfl⟩
          · rw [hs']
            obtain ⟨e, he⟩ := considerConnections_resized rest (ne_of_lt hlt)
            exact ⟨e, s', he⟩
      | false =>
          rw [considerConnection_ok hd hid]
          simp only
          apply ih (s.offeredOn d info (fun i => decide (i = id) && s.entitled info id))
          · exact fun i hi => hmem i (List.mem_cons_of_mem _ hi)
          · obtain ⟨i, hi, hst⟩ := h
            have hne : i ≠ id := by
              intro heq
              rw [heq, hid] at hst
              simp at hst
            refine ⟨i, (List.mem_cons.mp hi).resolve_left hne, ?_⟩
            unfold stumbles at hst ⊢
            rw [entitled_offeredOn]
            unfold offeredOn
            simpa [hne] using hst

/-! ## §3. The whole broadcast. -/

/-- Nobody's connection fails. -/
def NoneFails (s : Server σ) (info : BundleInfo) : Prop :=
  (∀ id ∈ s.connections, (s.heap id).fails info = false) ∧
    ∀ id ∈ s.chainConnections info.chain, s.stumbles info id = false

/-- Every live connection that is entitled to the bundle, lacks it and has its
predecessor was sent it between `s` and `s'`. -/
def AllServed (s s' : Server σ) (d : Decomposition) (info : BundleInfo) : Prop :=
  ∀ id, (id ∈ s.connections ∨ id ∈ s.chainConnections info.chain ∧ s.entitled info id = true) →
    (s.heap id).live = true → (s.heap id).lacks info = true →
    (s.heap id).hasPredecessor info = true →
      (s'.heap id).sent = (s.heap id).sent ++ [.message (.bundle d.bundleBytes)]

/-- `_on_bundle` when nobody fails. -/
theorem onBundle_ok (hd : d.getInfo lib = .ok info) {s : Server σ} (h : s.NoneFails info) :
    onBundle lib d s = .ok () (s.offeredOn d info (fun i => decide (i ∈ s.connections) ||
      (decide (i ∈ s.chainConnections info.chain) && s.entitled info i))) := by
  unfold onBundle
  rw [Action.get_bind, Action.bind_eq, sendToPeers_ok hd _ s h.1]
  simp only
  unfold afterRelayReceivesBundle
  rw [hd, Action.of_ok_bind, Action.get_bind]
  have hloop := considerConnections_ok hd (s.chainConnections info.chain)
    (s.offeredOn d info (fun i => decide (i ∈ s.connections)))
    (fun id hid => stumbles_offeredOn s _ (h.2 id hid))
  rw [offeredOn_offeredOn] at hloop
  exact hloop

/-- And when somebody does. -/
theorem onBundle_error (hd : d.getInfo lib = .ok info) {s : Server σ} (h : ¬ s.NoneFails info) :
    ∃ e s', onBundle lib d s = .error e s' := by
  unfold onBundle
  rw [Action.get_bind, Action.bind_eq]
  by_cases hpeers : ∀ id ∈ s.connections, (s.heap id).fails info = false
  · rw [sendToPeers_ok hd _ s hpeers]
    simp only
    unfold afterRelayReceivesBundle
    rw [hd, Action.of_ok_bind, Action.get_bind]
    apply considerConnections_error hd (s.chainConnections info.chain)
      (s.offeredOn d info (fun i => decide (i ∈ s.connections))) (fun _ hi => hi)
    have hbraids : ∃ id ∈ s.chainConnections info.chain, s.stumbles info id = true := by
      by_contra hnone
      push Not at hnone
      exact h ⟨hpeers, fun id hid => by simpa using hnone id hid⟩
    obtain ⟨id, hid, hst⟩ := hbraids
    refine ⟨id, hid, ?_⟩
    unfold stumbles at hst ⊢
    rw [entitled_offeredOn]
    rw [Bool.or_eq_true] at hst ⊢
    rcases hst with hnone | hfails
    · exact Or.inl hnone
    · -- a connection that fails is none of the relay's own
      rw [Bool.and_eq_true] at hfails
      have hnot : id ∉ s.connections := by
        intro hin
        rw [hpeers id hin] at hfails
        simp at hfails
      right
      unfold offeredOn
      simpa [hnot] using hfails
  · push Not at hpeers
    obtain ⟨id, hid, hfails⟩ := hpeers
    obtain ⟨e, s', he⟩ := sendToPeers_error hd s.connections s ⟨id, hid, by simpa using hfails⟩
    rw [he]
    exact ⟨e, s', rfl⟩

/-- A store that takes every bundle. -/
def takesAll : BundleStore Unit Unit where
  applyBundle _ _ _ := ((), .ok true)
  getBundles _ _ := .ok []
  lastInfos _ := []

/-- A relay with two peers that have greeted; the first connection is in the given state
and the second is live. -/
def twoPeers (first : Connection) : Server Unit where
  store := ()
  created := [0, 1]
  connections := [0, 1]
  heap id := if id = 0 then { first with tracker := some {} }
    else { wsConnected := true, tracker := some {} }

/-- What the two peers are to be told of. -/
def broadcastEnv : ServerEnv Unit Unit where
  lib := sampleExternals [startingBundle 5 7 []]
  ops := takesAll
  braidFunc _ := none

end Server

end Gink
