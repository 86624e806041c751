/-
  Gink.Sync.InStep — a relay in step with its peers (relay.py, connection.py).

  On a connection that is in step the greeting went out first, only bundles that the relay holds
  were put out, and the peer is taken to have all that the relay holds.  While chains do not fork,
  a bundle that is offered is an extension of what the peer is taken to have, so that `send_bundle`
  never raises; and what the connection puts out goes on feeding the other end.

  Main results:
    * `Server.InStep.receive` — a bundle that is committed keeps the relay in step.
    * `Server.InStep.frame` — so does a frame that the other end has put out, and handling it does
      not raise.
-/
import Gink.Sync.Unforked

namespace Gink

open Machine

variable {lib : Externals} {D : Set Decomposition} {d : Decomposition} {info : BundleInfo}

/-- The frame is one of those that come after the greetings. -/
def Frame.afterGreeting : Frame → Bool
  | .message (.bundle _) => true
  | .message (.ack _ _ _ _) => true
  | .message (.signal _) => true
  | _ => false

theorem Frame.of_afterGreeting {f : Frame} (h : f.afterGreeting = true) :
    (∃ bytes, f = .message (.bundle bytes)) ∨
    (∃ medallion chainStart timestamp previous,
      f = .message (.ack medallion chainStart timestamp previous)) ∨
    ∃ signal, f = .message (.signal signal) := by
  cases f with
  | message m =>
      cases m with
      | bundle bytes => exact Or.inl ⟨bytes, rfl⟩
      | ack medallion chainStart timestamp previous => exact Or.inr (Or.inl ⟨_, _, _, _, rfl⟩)
      | signal signal => exact Or.inr (Or.inr ⟨signal, rfl⟩)
      | greeting entries => exact absurd h (by simp [Frame.afterGreeting])
      | unset => exact absurd h (by simp [Frame.afterGreeting])
  | request gink => exact absurd h (by simp [Frame.afterGreeting])
  | acceptConnection => exact absurd h (by simp [Frame.afterGreeting])
  | rejectConnection => exact absurd h (by simp [Frame.afterGreeting])
  | closeConnection => exact absurd h (by simp [Frame.afterGreeting])
  | text data => exact absurd h (by simp [Frame.afterGreeting])
  | ping => exact absurd h (by simp [Frame.afterGreeting])
  | pong => exact absurd h (by simp [Frame.afterGreeting])

namespace Connection

/-! ## §1. Connections. -/

/-- What the peer is taken to have. -/
def known (c : Connection) : Option (Chain → ℕ) := c.tracker.map HasMap.marks

/-- What the connection puts out first. -/
def opening (c : Connection) : Frame := if c.isClient then .request true else .acceptConnection

/-- **The connection is in step** with a relay that holds `held`, after `taken` frames from the
other end; the peer was offered what is in `given`. -/
structure InStep (lib : Externals) (D held : Set Decomposition) (given : Decomposition → Prop)
    (taken : ℕ) (c : Connection) : Prop where
  up : c.Up
  connected : c.wsConnected = decide (1 ≤ taken)
  greeted : c.tracker.isSome = decide (2 ≤ taken)
  waits : c.wsConnected = false → c.sent = if c.isClient then [.request true] else []
  greets : c.wsConnected = true → ∃ (greeting : HasMap) (rest : List Frame),
    c.sent = c.opening :: .message (.greeting greeting.toGreeting) :: rest ∧
      (∀ f ∈ rest, f.afterGreeting = true) ∧ Dated lib held greeting.marks
  carried : ∀ bytes, .message (.bundle bytes) ∈ c.sent → ⟨bytes⟩ ∈ held
  covers : ∀ t, c.tracker = some t → ∀ d, given d → ∀ info, d.getInfo lib = .ok info →
    info.timestamp.val ≤ t.marks info.chain
  dated : ∀ t, c.tracker = some t → Dated lib D t.marks

/-- How many frames without a bundle were put out. -/
def chatter (c : Connection) : ℕ := c.sent.countP fun f => !f.isBundle

/-- **What went on on the connection** goes on feeding the peer, which has `had`; at most `replies`
frames without a bundle were put out. -/
structure Follows (lib : Externals) (had : Chain → ℕ) (replies : ℕ) (c c' : Connection) : Prop where
  isClient : c'.isClient = c.isClient
  chatter : c'.chatter ≤ c.chatter + replies
  sent : ∃ extra, c'.sent = c.sent ++ extra ∧ ∀ flight,
    Feeds had c.known flight (Frame.items lib c.sent) →
      Feeds had c'.known (flight ++ Frame.items lib extra) (Frame.items lib c'.sent)

variable {had : Chain → ℕ} {replies replies' : ℕ} {c c' c'' : Connection}

theorem Follows.refl (c : Connection) : Follows lib had replies c c where
  isClient := rfl
  chatter := Nat.le_add_right _ _
  sent := by
    refine ⟨[], (List.append_nil _).symm, ?_⟩
    intro flight h
    simpa [Frame.items] using h

theorem Follows.trans (h : Follows lib had replies c c') (h' : Follows lib had replies' c' c'') :
    Follows lib had (replies + replies') c c'' where
  isClient := h'.isClient.trans h.isClient
  chatter := by
    have := h.chatter
    have := h'.chatter
    omega
  sent := by
    obtain ⟨extra, hsent, hfeeds⟩ := h.sent
    obtain ⟨extra', hsent', hfeeds'⟩ := h'.sent
    refine ⟨extra ++ extra', by rw [hsent', hsent, List.append_assoc], ?_⟩
    intro flight hflight
    rw [Frame.items_append, ← List.append_assoc]
    exact hfeeds' _ (hfeeds flight hflight)

theorem Follows.mono (h : Follows lib had replies c c') (hle : replies ≤ replies') :
    Follows lib had replies' c c' where
  isClient := h.isClient
  chatter := h.chatter.trans (Nat.add_le_add_left hle _)
  sent := h.sent

/-- Frames without bundles. -/
theorem Follows.put (hclient : c'.isClient = c.isClient) (htracker : c'.tracker = c.tracker)
    {extra : List Frame} (hsent : c'.sent = c.sent ++ extra)
    (hextra : ∀ f ∈ extra, f.item? lib = none) (hreplies : extra.length ≤ replies) :
    Follows lib had replies c c' where
  isClient := hclient
  chatter := by
    unfold Connection.chatter
    rw [hsent, List.countP_append]
    have := @List.countP_le_length _ (fun f : Frame => !f.isBundle) extra
    omega
  sent := by
    refine ⟨extra, hsent, ?_⟩
    intro flight h
    have hnone : Frame.items lib extra = [] := List.filterMap_eq_nil_iff.mpr hextra
    rw [hsent, Frame.items_append, hnone, List.append_nil, List.append_nil]
    unfold known at h ⊢
    rw [htracker]
    exact h

/-- **A bundle is offered** whose predecessor the peer has. -/
theorem Follows.offered (hi : d.getInfo lib = .ok info) (hup : c.Up)
    (hprevious : ∀ t, c.tracker = some t → t.marks info.chain < info.timestamp.val →
      info.previous.val ≤ t.marks info.chain) : Follows lib had 0 c (c.offered d info) where
  isClient := by
    unfold Connection.offered
    split_ifs <;> rfl
  chatter := by
    unfold Connection.chatter
    rw [offered_sent hup.socket, List.countP_append]
    split_ifs
    · rfl
    · rfl
  sent := by
    refine ⟨_, offered_sent hup.socket, ?_⟩
    intro flight h
    have hitems := items_offered hi hup.socket
    have hextra : Frame.items lib (if c.lacks info then [.message (.bundle d.bundleBytes)] else [])
        = offering c.known info.item := by
      rw [offered_sent hup.socket, Frame.items_append] at hitems
      exact List.append_cancel_left hitems
    rw [hitems, hextra]
    unfold known at h ⊢
    rw [offered_tracker, Option.map_map]
    have hmarks : (HasMap.marks ∘ fun t : HasMap => t.markAsHaving info)
        = (taking · info.item) ∘ HasMap.marks :=
      funext fun t => t.marks_markAsHaving info
    rw [hmarks, ← Option.map_map]
    apply h.offer
    intro k hk hlt
    obtain ⟨t, ht, rfl⟩ := Option.map_eq_some_iff.mp hk
    exact hprevious t ht hlt

/-- **The peer was heard to have a bundle.** -/
theorem Follows.noted (hhad : info.timestamp.val ≤ had info.chain) :
    Follows lib had 0 c (c.markAsHaving info) where
  isClient := rfl
  chatter := le_rfl
  sent := by
    refine ⟨[], (List.append_nil _).symm, ?_⟩
    intro flight h
    have hknown : (c.markAsHaving info).known = c.known.map (taking · info.item) := by
      unfold known markAsHaving
      rw [Option.map_map, Option.map_map]
      exact congrArg (fun f => c.tracker.map f) (funext fun t => t.marks_markAsHaving info)
    rw [hknown]
    simpa [Frame.items, markAsHaving] using h.hear hhad

/-- **The peer has greeted.** -/
theorem Follows.greeted {t : HasMap} (hnone : c.tracker = none) (ht : t.marks ≤ had) :
    Follows lib had 0 c { c with tracker := some t } where
  isClient := rfl
  chatter := le_rfl
  sent := by
    refine ⟨[], (List.append_nil _).symm, ?_⟩
    intro flight h
    unfold known at h
    rw [hnone] at h
    simpa [Frame.items, known] using h.greet ht

variable {held : Set Decomposition} {given given' : Decomposition → Prop} {taken : ℕ}

/-! ## §2. What keeps a connection in step. -/

theorem InStep.tracker_ready (h : c.InStep lib D held given taken) {t : HasMap}
    (ht : c.tracker = some t) : c.wsConnected = true := by
  have hgreeted := h.greeted
  rw [ht, Option.isSome_some, eq_comm, decide_eq_true_eq] at hgreeted
  rw [h.connected, decide_eq_true_eq]
  omega

/-- More is held, and less was offered. -/
theorem InStep.mono (h : c.InStep lib D held given taken) {held' : Set Decomposition}
    (hheld : held ⊆ held') (hgiven : ∀ d, given' d → given d) :
    c.InStep lib D held' given' taken where
  up := h.up
  connected := h.connected
  greeted := h.greeted
  waits := h.waits
  greets hconnected := by
    obtain ⟨greeting, rest, hsent, hrest, hdated⟩ := h.greets hconnected
    exact ⟨greeting, rest, hsent, hrest, hdated.mono hheld⟩
  carried bytes hbytes := hheld (h.carried bytes hbytes)
  covers t ht d hd := h.covers t ht d (hgiven d hd)
  dated := h.dated

/-- After the greetings it does not matter how many frames came. -/
theorem InStep.later (h : c.InStep lib D held given taken) (htaken : 2 ≤ taken) :
    c.InStep lib D held given (taken + 1) where
  up := h.up
  connected := by
    rw [h.connected, decide_eq_decide]
    omega
  greeted := by
    rw [h.greeted, decide_eq_decide]
    omega
  waits := h.waits
  greets := h.greets
  carried := h.carried
  covers := h.covers
  dated := h.dated

/-- An acknowledgement or a signal is put out. -/
theorem InStep.put (h : c.InStep lib D held given taken) (hconnected : c.wsConnected = true)
    {f : Frame} (hf : f.afterGreeting = true) (hbundle : f.isBundle = false) :
    InStep lib D held given taken { c with sent := c.sent ++ [f] } where
  up := ⟨h.up.owner, h.up.perms, h.up.closed, h.up.wsClosed, h.up.socket⟩
  connected := h.connected
  greeted := h.greeted
  waits hnot := absurd (hnot.symm.trans hconnected) Bool.false_ne_true
  greets _ := by
    obtain ⟨greeting, rest, hsent, hrest, hdated⟩ := h.greets hconnected
    refine ⟨greeting, rest ++ [f], ?_, ?_, hdated⟩
    · show c.sent ++ [f] = _
      rw [hsent]
      rfl
    · intro g hg
      rcases List.mem_append.mp hg with hg | hg
      · exact hrest g hg
      · rw [List.mem_singleton.mp hg]
        exact hf
  carried bytes hbytes := by
    rcases List.mem_append.mp hbytes with hbytes | hbytes
    · exact h.carried bytes hbytes
    · rw [← List.mem_singleton.mp hbytes] at hbundle
      exact absurd hbundle (by simp [Frame.isBundle])
  covers := h.covers
  dated := h.dated

/-- The peer is heard to have a bundle. -/
theorem InStep.noted (h : c.InStep lib D held given taken) (hd : d ∈ D)
    (hi : d.getInfo lib = .ok info) (hlater : info.previous < info.timestamp) :
    InStep lib D held given taken (c.markAsHaving info) where
  up := ⟨h.up.owner, h.up.perms, h.up.closed, h.up.wsClosed, h.up.socket⟩
  connected := h.connected
  greeted := by
    rw [← h.greeted]
    exact Option.isSome_map
  waits := h.waits
  greets := h.greets
  carried := h.carried
  covers t ht e he j hj := by
    obtain ⟨t', ht', rfl⟩ := Option.map_eq_some_iff.mp ht
    rw [HasMap.marks_markAsHaving]
    exact (h.covers t' ht' e he j hj).trans (le_taking _ _ _)
  dated t ht := by
    obtain ⟨t', ht', rfl⟩ := Option.map_eq_some_iff.mp ht
    rw [HasMap.marks_markAsHaving]
    exact (h.dated t' ht').taking hd hi hlater

/-- **A bundle that is held is offered.** -/
theorem InStep.offered (h : c.InStep lib D held given taken) (hd : d ∈ D) (hheld : d ∈ held)
    (hi : d.getInfo lib = .ok info) (hlater : info.previous < info.timestamp)
    (hgiven : ∀ e, given' e → given e ∨ e = d) :
    InStep lib D held given' taken (c.offered d info) := by
  have hup : (c.offered d info).Up := by
    unfold Connection.offered
    split_ifs with hlacks hsocket
    · exact ⟨h.up.owner, h.up.perms, h.up.closed, h.up.wsClosed, h.up.socket⟩
    · exact absurd h.up.socket hsocket
    · exact h.up
  have hconnected : (c.offered d info).wsConnected = c.wsConnected := by
    unfold Connection.offered
    split_ifs <;> rfl
  have hopening : (c.offered d info).opening = c.opening := by
    unfold opening Connection.offered
    split_ifs <;> rfl
  have hlacks : c.lacks info = true → c.wsConnected = true := by
    intro hlacks
    cases ht : c.tracker with
    | none =>
        unfold lacks at hlacks
        rw [ht] at hlacks
        exact absurd hlacks (by simp)
    | some t => exact h.tracker_ready ht
  refine ⟨hup, hconnected.trans h.connected, ?_, ?_, ?_, ?_, ?_, ?_⟩
  · rw [offered_tracker, Option.isSome_map]
    exact h.greeted
  · intro hnot
    rw [hconnected] at hnot
    have hsame : c.offered d info = c := by
      unfold Connection.offered
      refine if_neg (fun hl => ?_)
      rw [hlacks hl] at hnot
      exact absurd hnot (by simp)
    rw [hsame]
    exact h.waits hnot
  · intro hyes
    rw [hconnected] at hyes
    obtain ⟨greeting, rest, hsent, hrest, hdated⟩ := h.greets hyes
    refine ⟨greeting, rest ++ if c.lacks info then [.message (.bundle d.bundleBytes)] else [],
      ?_, ?_, hdated⟩
    · rw [offered_sent h.up.socket, hsent, hopening]
      rfl
    · intro f hf
      rcases List.mem_append.mp hf with hf | hf
      · exact hrest f hf
      · split_ifs at hf
        · rw [List.mem_singleton.mp hf]
          rfl
        · exact absurd hf List.not_mem_nil
  · intro bytes hbytes
    rw [offered_sent h.up.socket] at hbytes
    rcases List.mem_append.mp hbytes with hbytes | hbytes
    · exact h.carried bytes hbytes
    · split_ifs at hbytes
      · have hsame := List.mem_singleton.mp hbytes
        rw [Frame.message.injEq, SyncMessage.bundle.injEq] at hsame
        rw [hsame]
        exact hheld
      · exact absurd hbytes List.not_mem_nil
  · intro t ht e he j hj
    rw [offered_tracker] at ht
    obtain ⟨t', ht', rfl⟩ := Option.map_eq_some_iff.mp ht
    rw [HasMap.marks_markAsHaving]
    rcases hgiven e he with hold | rfl
    · exact (h.covers t' ht' e hold j hj).trans (le_taking _ _ _)
    · rw [hi, Except.ok.injEq] at hj
      subst hj
      exact time_le_taking _ info.item
  · intro t ht
    rw [offered_tracker] at ht
    obtain ⟨t', ht', rfl⟩ := Option.map_eq_some_iff.mp ht
    rw [HasMap.marks_markAsHaving]
    exact (h.dated t' ht').taking hd hi hlater

/-- **The offer is in order**: the peer is taken to have the bundle before. -/
theorem InStep.previous_le (h : c.InStep lib D held given taken)
    (hprevious : info.previous = 0 ∨ ∃ e, given e ∧ ∃ j, e.getInfo lib = .ok j ∧
      j.chain = info.chain ∧ j.timestamp = info.previous) (t : HasMap) (ht : c.tracker = some t) :
    info.previous.val ≤ t.marks info.chain := by
  rcases hprevious with h0 | ⟨e, he, j, hj, hchain, htime⟩
  · rw [h0]
    exact Nat.zero_le _
  · rw [← htime, ← hchain]
    exact h.covers t ht e he j hj

/-- **And `send_bundle` does not raise.** -/
theorem InStep.not_fails (hD : Unforked lib D) (h : c.InStep lib D held given taken)
    (hd : d ∈ D) (hi : d.getInfo lib = .ok info) (hplaced : info.Placed)
    (hprevious : ∀ t, c.tracker = some t → info.previous.val ≤ t.marks info.chain) :
    c.fails info = false := by
  cases ht : c.tracker with
  | none =>
      unfold fails lacks
      rw [ht]
      rfl
  | some t =>
      by_cases hlacks : c.lacks info = true
      · have hlt := (lacks_iff ht).mp hlacks
        -- the peer is exactly where the bundle says the one before it is
        have hat : t.marks info.chain = info.previous.val :=
          le_antisymm (hD.le_previous (h.dated t ht) hd hi hlt) (hprevious t ht)
        have hextends : t.isValidExtension info = true := by
          unfold HasMap.isValidExtension
          rw [Bool.or_eq_true, decide_eq_true_eq, decide_eq_true_eq]
          rcases hplaced.starts with hstart | hne
          · exact Or.inl hstart
          · refine Or.inr ?_
            have hval : t.seenThrough info.chain = info.previous := Fin.ext hat
            unfold HasMap.seenThrough at hval
            cases hget : t.data.get? info.chain with
            | none =>
                rw [hget] at hval
                exact absurd hval.symm hne
            | some seen =>
                rw [hget] at hval
                exact congrArg some hval
        have hready := h.up.ready (h.tracker_ready ht)
        unfold fails hasPredecessor
        rw [ht, hready, h.up.socket]
        simp [hextends]
      · unfold fails
        rw [Bool.not_eq_true] at hlacks
        rw [hlacks]
        rfl

end Connection

/-! ## §3. Relays. -/

/-- The bundle opens, and each of its entries has the form it must have. -/
def Clean (lib : Externals) (d : Decomposition) : Prop :=
  ∃ builder, d.getBuilder lib = .ok builder ∧ validateBundle builder = .ok ()

namespace Server

variable {σ κ : Type} {env : ServerEnv σ κ} (cs : ChainStore env.lib env.ops) {s s' s'' : Server σ}

/-- **The relay is in step** with its peers, after so many frames from each. -/
structure InStep (D : Set Decomposition) (taken : Nat → ℕ) (s : Server σ) : Prop where
  valid : cs.Valid s.store
  known : cs.holds s.store ⊆ D
  clean : ∀ d ∈ cs.held s.store, Clean env.lib d
  created : ∀ id, id ∈ s.created ↔ id ∈ s.connections
  alone : ∀ chain, s.chainConnections chain = []
  ends : ∀ id ∈ s.connections, (s.heap id).InStep env.lib D (cs.holds s.store)
    (· ∈ cs.held s.store) (taken id)

/-- What went on at the relay goes on feeding the peers, which have `peerHas`; that many frames
without a bundle were put out. -/
structure Follows (peerHas : Nat → Chain → ℕ) (replies : Nat → ℕ) (s s' : Server σ) : Prop where
  connections : ∀ id, id ∈ s'.connections ↔ id ∈ s.connections
  held : cs.holds s.store ⊆ cs.holds s'.store
  ends : ∀ id ∈ s.connections, (s.heap id).Follows env.lib (peerHas id) (replies id)
    (s'.heap id)

variable {cs} {taken replies replies' : Nat → ℕ} {peerHas : Nat → Chain → ℕ} {clock : κ} {id : Nat}

theorem Follows.refl (s : Server σ) : s.Follows cs peerHas replies s :=
  ⟨fun _ => Iff.rfl, subset_rfl, fun _ _ => .refl _⟩

theorem Follows.trans (h : s.Follows cs peerHas replies s') (h' : s'.Follows cs peerHas replies' s'') :
    s.Follows cs peerHas (fun id => replies id + replies' id) s'' where
  connections i := (h'.connections i).trans (h.connections i)
  held := h.held.trans h'.held
  ends i hi := (h.ends i hi).trans (h'.ends i ((h.connections i).mpr hi))

theorem Follows.mono (h : s.Follows cs peerHas replies s')
    (hle : ∀ id ∈ s.connections, replies id ≤ replies' id) : s.Follows cs peerHas replies' s' where
  connections := h.connections
  held := h.held
  ends i hi := (h.ends i hi).mono (hle i hi)

/-- One connection gets on. -/
theorem InStep.withConnection (h : s.InStep cs D taken) (id : Nat) {c : Connection} {n : ℕ}
    (hc : c.InStep env.lib D (cs.holds s.store) (· ∈ cs.held s.store) n) :
    (s.withConnection id c).InStep cs D (Function.update taken id n) where
  valid := h.valid
  known := h.known
  clean := h.clean
  created := h.created
  alone := h.alone
  ends i hi := by
    by_cases heq : i = id
    · subst heq
      rw [withConnection_self, Function.update_self]
      exact hc
    · show (Function.update s.heap id c i).InStep _ _ _ _ _
      rw [Function.update_of_ne heq, Function.update_of_ne heq]
      exact h.ends i hi

theorem Follows.withConnection {c : Connection}
    (hc : (s.heap id).Follows env.lib (peerHas id) (replies id) c) :
    s.Follows cs peerHas replies (s.withConnection id c) where
  connections _ := Iff.rfl
  held := subset_rfl
  ends i _ := by
    by_cases heq : i = id
    · subst heq
      rw [withConnection_self]
      exact hc
    · show Connection.Follows _ _ _ _ (Function.update s.heap id c i)
      rw [Function.update_of_ne heq]
      exact .refl _

/-- A connection answers with so many frames. -/
theorem Follows.answered {c : Connection} {n : ℕ}
    (hc : (s.heap id).Follows env.lib (peerHas id) n c) :
    s.Follows cs peerHas (Function.update 0 id n) (s.withConnection id c) :=
  .withConnection (by rw [Function.update_self]; exact hc)

/-- The store does with the bundle what its place in its chain says. -/
def Settles (cs : ChainStore env.lib env.ops) (store : σ) (d : Decomposition) (clock : κ) : Prop :=
  cs.Timely store clock ∧ ∀ info, d.getInfo env.lib = .ok info → ∀ needed,
    isNeeded info (cs.last store info.chain) = .ok needed →
      (env.ops.applyBundle store d clock).2 = .ok needed

/-- What a store that settles bundles does with one. -/
theorem Settles.cases {store : σ} (hvalid : cs.Valid store) (h : Settles cs store d clock)
    (hi : d.getInfo env.lib = .ok info) :
    (cs.held (env.ops.applyBundle store d clock).1 = cs.held store ∧
      (env.ops.applyBundle store d clock).2 ≠ .ok true) ∨
    ((env.ops.applyBundle store d clock).2 = .ok true ∧
      isNeeded info (cs.last store info.chain) = .ok true ∧
      ∀ e, e ∈ cs.held (env.ops.applyBundle store d clock).1 ↔ e ∈ cs.held store ∨ e = d) := by
  rcases cs.step store d clock hvalid h.1 with ⟨hheld, -, hresult⟩ | htook
  · exact Or.inl ⟨hheld, hresult⟩
  · obtain ⟨builder, hb, hneeded⟩ := htook.needed
    have hsame : info = .ofBuilder builder (env.lib.digest d.bundleBytes) := by
      unfold Decomposition.getInfo at hi
      rw [hb] at hi
      exact (Except.ok.inj hi).symm
    rw [← hsame] at hneeded
    exact Or.inr ⟨h.2 info hi true hneeded, hneeded, htook.held⟩

/-- A bundle that is needed names the last one of its chain. -/
theorem needed_previous {store : σ} (hvalid : cs.Valid store)
    (hneeded : isNeeded info (cs.last store info.chain) = .ok true) :
    info.Placed ∧ (info.previous = 0 ∨ ∃ e, e ∈ cs.held store ∧ ∃ j, e.getInfo env.lib = .ok j ∧
      j.chain = info.chain ∧ j.timestamp = info.previous) := by
  obtain ⟨hlt, hprevious, hstart⟩ := isNeeded_eq_true hneeded
  refine ⟨⟨hprevious ▸ hlt, hstart⟩, ?_⟩
  cases hlast : cs.last store info.chain with
  | none =>
      rw [hlast] at hprevious
      exact Or.inl hprevious
  | some old =>
      obtain ⟨hchain, e, he, hj⟩ := cs.exists_last hvalid hlast
      rw [hlast] at hprevious
      exact Or.inr ⟨e, he, old, hj, hchain, hprevious.symm⟩

/-- Storing nothing leaves a relay in step. -/
theorem InStep.sameHeld (h : s.InStep cs D taken) {store : σ} (hvalid : cs.Valid store)
    (hheld : cs.held store = cs.held s.store) :
    ({ s with store } : Server σ).InStep cs D taken ∧
      ∀ peerHas, s.Follows cs peerHas 0 { s with store } := by
  have hholds : cs.holds store = cs.holds s.store := by
    unfold ChainStore.holds
    rw [hheld]
  refine ⟨⟨hvalid, hholds ▸ h.known, hheld ▸ h.clean, h.created, h.alone, ?_⟩,
    fun _ => ⟨fun _ => Iff.rfl, hholds.ge, fun _ _ => .refl _⟩⟩
  intro i hi
  show Connection.InStep env.lib D (cs.holds store) (· ∈ cs.held store) (taken i) (s.heap i)
  rw [hheld, hholds]
  exact h.ends i hi

/-- The relay once its store has taken a bundle and its peers were offered it. -/
def stored (s : Server σ) (store : σ) (d : Decomposition) (info : BundleInfo) : Server σ :=
  ({ s with store } : Server σ).offeredOn d info fun i => decide (i ∈ s.connections)

/-- **A needed bundle was stored**: no connection fails over it, and the relay stays in step. -/
theorem InStep.stored (hD : Unforked env.lib D) (h : s.InStep cs D taken) (hd : d ∈ D)
    (hi : d.getInfo env.lib = .ok info) (hclean : Clean env.lib d)
    (hneeded : isNeeded info (cs.last s.store info.chain) = .ok true) {store : σ}
    (hvalid : cs.Valid store) (hheld : ∀ e, e ∈ cs.held store ↔ e ∈ cs.held s.store ∨ e = d) :
    (∀ i ∈ s.connections, (s.heap i).fails info = false) ∧
      (s.stored store d info).InStep cs D taken ∧
        ∀ peerHas, s.Follows cs peerHas 0 (s.stored store d info) := by
  have hprevious := needed_previous h.valid hneeded
  have hsub : cs.holds s.store ⊆ cs.holds store := fun e he => (hheld e).mpr (Or.inl he)
  have hin : d ∈ cs.holds store := (hheld d).mpr (Or.inr rfl)
  have hheap : ∀ i ∈ s.connections, (s.stored store d info).heap i = (s.heap i).offered d info :=
    fun i hi' => if_pos (decide_eq_true hi')
  refine ⟨?_, ⟨hvalid, ?_, ?_, h.created, h.alone, ?_⟩, fun _ => ⟨fun _ => Iff.rfl, hsub, ?_⟩⟩
  · intro i hi'
    exact (h.ends i hi').not_fails hD hd hi hprevious.1 ((h.ends i hi').previous_le hprevious.2)
  · intro e he
    rcases (hheld e).mp he with he | rfl
    · exact h.known he
    · exact hd
  · intro e he
    rcases (hheld e).mp he with he | rfl
    · exact h.clean e he
    · exact hclean
  · intro i hi'
    rw [hheap i hi']
    exact ((h.ends i hi').mono hsub (fun _ he => he)).offered hd hin hi hprevious.1.later
      (fun e he => (hheld e).mp he)
  · intro i hi'
    rw [hheap i hi']
    exact .offered hi (h.ends i hi').up fun t ht _ => (h.ends i hi').previous_le hprevious.2 t ht

/-- The store is past a bundle that it has. -/
theorem le_marks_of_known {store : σ} (hneeded : isNeeded info (cs.last store info.chain) = .ok false) :
    info.timestamp.val ≤ cs.marks store info.chain := by
  unfold isNeeded at hneeded
  split_ifs at hneeded with h0 h1 h2 h3
  · exact h1
  · simp at hneeded

/-- **A bundle is received**, be it from a peer or committed here: the relay stays in step, and it
raises only over a bundle that is not clean or out of order. -/
theorem InStep.receive (hD : Unforked env.lib D) (h : s.InStep cs D taken) (hd : d ∈ D)
    (hsettles : Settles cs s.store d clock) :
    ∃ s', Action.endState (Server.receive env d clock s) = s' ∧ s'.InStep cs D taken ∧
      (∀ peerHas, s.Follows cs peerHas 0 s') ∧ ∀ info needed, d.getInfo env.lib = .ok info →
        Clean env.lib d → isNeeded info (cs.last s.store info.chain) = .ok needed →
          Server.receive env d clock s = .ok needed s' ∧
            info.timestamp.val ≤ cs.marks s'.store info.chain := by
  have hvalid := cs.valid s.store d clock h.valid hsettles.1
  -- a bundle that is not clean does not get to the store
  have hdirty : ∀ e, Server.receive env d clock s = .error e s → ¬ Clean env.lib d →
      ∃ s', Action.endState (Server.receive env d clock s) = s' ∧ s'.InStep cs D taken ∧
        (∀ peerHas, s.Follows cs peerHas 0 s') ∧ ∀ info needed, d.getInfo env.lib = .ok info →
          Clean env.lib d → isNeeded info (cs.last s.store info.chain) = .ok needed →
            Server.receive env d clock s = .ok needed s' ∧
              info.timestamp.val ≤ cs.marks s'.store info.chain := by
    intro e hraised hnot
    exact ⟨s, by rw [hraised]; rfl, h, fun _ => .refl s, fun _ _ _ hclean => absurd hclean hnot⟩
  cases hb : d.getBuilder env.lib with
  | error e =>
      refine hdirty e ?_ ?_
      · unfold Server.receive
        rw [hb, Action.of_error_bind]
      · intro hclean
        obtain ⟨b, hb', -⟩ := hclean
        rw [hb] at hb'
        exact absurd hb' (by simp)
  | ok builder =>
      cases hv : validateBundle builder with
      | error e =>
          refine hdirty e ?_ ?_
          · unfold Server.receive
            rw [hb, Action.of_ok_bind, hv, Action.of_error_bind]
          · intro hclean
            obtain ⟨b, hb', hv'⟩ := hclean
            rw [hb, Except.ok.injEq] at hb'
            rw [← hb', hv] at hv'
            exact absurd hv' (by simp)
      | ok u =>
          have hi : d.getInfo env.lib = .ok (.ofBuilder builder (env.lib.digest d.bundleBytes)) := by
            unfold Decomposition.getInfo
            rw [hb]
            rfl
          generalize BundleInfo.ofBuilder builder (env.lib.digest d.bundleBytes) = info at hi
          rcases hsettles.cases h.valid hi with ⟨hheld, hresult⟩ | ⟨hresult, hneeded, hheld⟩
          · -- the store did not take the bundle
            obtain ⟨hstep, hfollows⟩ := h.sameHeld hvalid hheld
            cases hr : (env.ops.applyBundle s.store d clock).2 with
            | error e =>
                refine ⟨_, ?_, hstep, hfollows, ?_⟩
                · rw [receive_refused hb hv hr]
                  rfl
                · intro info' needed hi' _ hneeded
                  have hsame := hsettles.2 info' hi' needed hneeded
                  rw [hr] at hsame
                  exact absurd hsame (by simp)
            | ok b =>
                have hfalse : b = false := by
                  cases b with
                  | false => rfl
                  | true => exact absurd hr hresult
                subst hfalse
                refine ⟨_, ?_, hstep, hfollows, ?_⟩
                · rw [receive_known hb hv hr]
                  rfl
                · intro info' needed hi' _ hneeded
                  have hsame := hsettles.2 info' hi' needed hneeded
                  rw [hr, Except.ok.injEq] at hsame
                  subst hsame
                  refine ⟨receive_known hb hv hr, (le_marks_of_known hneeded).trans ?_⟩
                  exact cs.marks_mono h.valid hvalid (hfollows fun _ _ => 0).held info'.chain
          · -- it did
            obtain ⟨hfine, hstep, hfollows⟩ := h.stored hD hd hi ⟨builder, hb, hv⟩ hneeded hvalid hheld
            have hreceived := receive_needed hb hv hi hresult (h.alone _) hfine
            refine ⟨_, by rw [hreceived]; rfl, hstep, hfollows, ?_⟩
            intro info' needed hi' _ hneeded'
            rw [hi, Except.ok.injEq] at hi'
            subst hi'
            rw [hneeded, Except.ok.injEq] at hneeded'
            subst hneeded'
            exact ⟨hreceived, cs.le_marks hvalid ((hheld d).mpr (Or.inr rfl)) hi⟩

end Server

end Gink
