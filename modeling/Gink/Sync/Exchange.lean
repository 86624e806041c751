/-
  Gink.Sync.Exchange — a relay takes the frames of its peers (relay.py, connection.py).

  What comes in from a relay that is in step is the opening of the websocket, then the greeting,
  then bundles, acknowledgements and signals.  A relay in step handles each of them without
  raising and is in step afterwards: it answers the greeting with all it holds, in an order in
  which each bundle extends what the peer has by then, and a bundle is never out of order.

  Main results:
    * `Server.InStep.backlog` — what a greeting is answered with.
    * `Server.InStep.frame` — one frame of a peer.
-/
import Gink.Sync.InStep

namespace Gink

open Machine

variable {lib : Externals} {D : Set Decomposition} {d : Decomposition} {info : BundleInfo}

/-! ## §1. What comes in. -/

/-- How many frames without a bundle a relay answers with. -/
def Frame.replies : Frame → ℕ
  | .request _ => 2
  | .acceptConnection => 1
  | .message (.greeting _) => 1
  | .message (.bundle _) => 1
  | _ => 0

/-- **What a peer may have put out** that has `had`, as the next frame after `taken` others, for a
relay whose store is at `marks`. -/
inductive Connection.Comes (lib : Externals) (D : Set Decomposition) (had marks : Chain → ℕ)
    (c : Connection) (taken : ℕ) : Frame → Prop where
  | opening : taken = 0 → Comes lib D had marks c taken
      (if c.isClient then .acceptConnection else .request true)
  | greeting {t : HasMap} : taken = 1 → Dated lib D t.marks → t.marks ≤ had →
      Comes lib D had marks c taken (.message (.greeting t.toGreeting))
  | bundle {d : Decomposition} {info : BundleInfo} : 2 ≤ taken → d ∈ D → Clean lib d →
      d.getInfo lib = .ok info → info.Placed → info.previous.val ≤ marks info.chain →
        info.timestamp.val ≤ had info.chain →
      Comes lib D had marks c taken (.message (.bundle d.bundleBytes))
  | ack {medallion chainStart timestamp previous : U64} : 2 ≤ taken →
      Comes lib D had marks c taken (.message (.ack medallion chainStart timestamp previous))
  | signal {signal : Signal} : 2 ≤ taken → Comes lib D had marks c taken (.message (.signal signal))

/-- What the other end puts out first. -/
theorem Connection.Comes.opens {had marks : Chain → ℕ} {c c' : Connection} {taken : ℕ}
    (h0 : taken = 0) (hrole : c.isClient = !c'.isClient) :
    c.Comes lib D had marks taken c'.opening := by
  have hopening := @Connection.Comes.opening lib D had marks c taken h0
  rw [hrole] at hopening
  unfold Connection.opening
  cases hclient : c'.isClient with
  | false =>
      rw [hclient] at hopening
      exact hopening
  | true =>
      rw [hclient] at hopening
      exact hopening

namespace Server

variable {σ κ : Type} {env : ServerEnv σ κ} {cs : ChainStore env.lib env.ops} {s : Server σ}
  {taken : Nat → ℕ} {peerHas : Nat → Chain → ℕ} {clock : κ} {id : Nat}

/-! ## §2. Greetings. -/

theorem get?_lastInfos {chain : Chain} (hvalid : cs.Valid s.store)
    (h : (hasMap env s).marks chain ≠ 0) :
    ∃ d ∈ cs.held s.store, ∃ info, d.getInfo env.lib = .ok info ∧ info.chain = chain ∧
      info.timestamp.val = (hasMap env s).marks chain := by
  rcases (HasMap.le_seenThrough_iff (env.ops.lastInfos s.store) chain
    ((hasMap env s).seenThrough chain)).mp le_rfl with h0 | ⟨info, hinfo, hchain, hle⟩
  · refine absurd ?_ h
    show ((hasMap env s).seenThrough chain).val = 0
    rw [h0]
    rfl
  · obtain ⟨-, d, hd, hi⟩ := cs.exists_last hvalid ((cs.lastInfos s.store hvalid info).mp hinfo)
    have hge := (HasMap.le_seenThrough_iff (env.ops.lastInfos s.store) chain info.timestamp).mpr
      (Or.inr ⟨info, hinfo, hchain, le_rfl⟩)
    exact ⟨d, hd, info, hi, hchain, Fin.val_eq_of_eq (le_antisymm hge hle)⟩

/-- A greeting says how far the store is, by bundles that it holds. -/
theorem hasMap_dated (hvalid : cs.Valid s.store) :
    Dated env.lib (cs.holds s.store) (hasMap env s).marks := by
  intro chain
  by_cases h0 : (hasMap env s).marks chain = 0
  · exact Or.inl h0
  · obtain ⟨d, hd, info, hi, hchain, hmark⟩ := get?_lastInfos hvalid h0
    exact Or.inr ⟨d, hd, info, hi, hchain, (cs.placed_of_held hvalid hd hi).later, hmark⟩

/-- **The answer to a greeting**: each bundle goes out after the one that it names. -/
theorem InStep.backlog (hD : Unforked env.lib D) (hvalid : cs.Valid s.store)
    (hknown : cs.holds s.store ⊆ D) (id : Nat) (had : Chain → ℕ) {n : ℕ}
    (after : List Decomposition) :
    ∀ (before : List Decomposition) (c : Connection), cs.held s.store = before ++ after →
      c.InStep env.lib D (cs.holds s.store) (· ∈ before) n →
      ∃ c' : Connection, sendBacklog env.lib id after (s.withConnection id c)
          = .ok () (s.withConnection id c') ∧ c.Follows env.lib had 0 c' ∧
        c'.InStep env.lib D (cs.holds s.store) (· ∈ cs.held s.store) n := by
  induction after with
  | nil =>
      intro before c hheld hc
      refine ⟨c, rfl, .refl c, ?_⟩
      rw [hheld, List.append_nil]
      exact hc
  | cons d rest ih =>
      intro before c hheld hc
      have hmem : d ∈ cs.held s.store := by
        rw [hheld]
        exact List.mem_append_right _ List.mem_cons_self
      obtain ⟨info, hi⟩ := cs.parsed s.store hvalid d hmem
      obtain ⟨hplaced, hprevious⟩ := cs.placed hvalid hheld hi
      have hle := hc.previous_le hprevious
      have hsent := Connection.sendBundle_ok hi (hc.not_fails hD (hknown hmem) hi hplaced hle)
      have hoffered : (c.offered d info).InStep env.lib D (cs.holds s.store)
          (· ∈ before ++ [d]) n :=
        hc.offered (hknown hmem) hmem hi hplaced.later (fun e he => by simpa using he)
      obtain ⟨c', hrest, hfollows, hc'⟩ := ih (before ++ [d]) (c.offered d info)
        (by rw [hheld, List.append_assoc]; rfl) hoffered
      refine ⟨c', ?_, Connection.Follows.trans (.offered hi hc.up fun t ht _ => hle t ht) hfollows,
        hc'⟩
      have hone : onConnection id (Connection.sendBundle env.lib d) (s.withConnection id c)
          = .ok () (s.withConnection id (c.offered d info)) := by
        rw [onConnection_ok (by rw [withConnection_self]; exact hsent)]
        exact congrArg (EStateM.Result.ok ()) (s.withConnection_twice id c _)
      unfold sendBacklog
      rw [Action.bind_of_ok hone]
      exact hrest

/-! ## §3. One frame. -/

/-- **What comes of a frame**: handling it does not raise, the relay is in step again, and if the
frame carries a bundle its store is past it. -/
def Handles (cs : ChainStore env.lib env.ops) (D : Set Decomposition) (taken : Nat → ℕ)
    (peerHas : Nat → Chain → ℕ) (id : Nat) (frame : Frame) (clock : κ) (s : Server σ) : Prop :=
  ∃ s', handle env (.frame id none frame clock) s = .ok () s' ∧
    s'.InStep cs D (Function.update taken id (taken id + 1)) ∧
    s.Follows cs peerHas (Function.update 0 id frame.replies) s' ∧
    ∀ x, frame.item? env.lib = some x → x.time ≤ cs.marks s'.store x.list

/-- No greeting came before the second frame. -/
theorem InStep.no_tracker (h : s.InStep cs D taken) (hin : id ∈ s.connections)
    (htaken : taken id ≤ 1) : (s.heap id).tracker = none := by
  have hgreeted := (h.ends id hin).greeted
  cases ht : (s.heap id).tracker with
  | none => rfl
  | some t =>
      rw [ht, Option.isSome_some, eq_comm, decide_eq_true_eq] at hgreeted
      omega

theorem InStep.connected (h : s.InStep cs D taken) (hin : id ∈ s.connections)
    (htaken : 1 ≤ taken id) : (s.heap id).wsConnected = true := by
  rw [(h.ends id hin).connected, decide_eq_true_eq]
  exact htaken

/-- **The websocket is opened**: each end is left with its opening and its greeting put out. -/
theorem InStep.handles_opening (h : s.InStep cs D taken) (hin : id ∈ s.connections)
    (htaken : taken id = 0) : s.Handles cs D taken peerHas id
      (if (s.heap id).isClient then .acceptConnection else .request true) clock := by
  have hmade := (h.created id).mpr hin
  have hc := h.ends id hin
  have hup := hc.up
  have hnew : (s.heap id).wsConnected = false := by
    rw [hc.connected, htaken]
    rfl
  have htracker := h.no_tracker hin (by omega)
  have hwaits := hc.waits hnew
  -- either end is left with its opening and its greeting on the wire
  have hopened : ∀ c' : Connection, c' = { s.heap id with
      wsConnected := true
      sent := [(s.heap id).opening, .message (.greeting (hasMap env s).toGreeting)] } →
      c'.InStep env.lib D (cs.holds s.store) (· ∈ cs.held s.store) (taken id + 1) := by
    intro c' hc'
    subst hc'
    refine ⟨⟨hup.owner, hup.perms, hup.closed, hup.wsClosed, hup.socket⟩, ?_, ?_, ?_, ?_, ?_, ?_,
      ?_⟩
    · rw [htaken]
      rfl
    · rw [htaken]
      show (s.heap id).tracker.isSome = _
      rw [htracker]
      rfl
    · intro hnot
      exact absurd hnot (by simp)
    · intro _
      exact ⟨hasMap env s, [], rfl, by simp, hasMap_dated h.valid⟩
    · intro bytes hbytes
      have hbytes : Frame.message (.bundle bytes) ∈
        [(s.heap id).opening, .message (.greeting (hasMap env s).toGreeting)] := hbytes
      unfold Connection.opening at hbytes
      split_ifs at hbytes <;> simp at hbytes
    · intro t ht
      have ht : (s.heap id).tracker = some t := ht
      rw [htracker] at ht
      exact absurd ht (by simp)
    · intro t ht
      have ht : (s.heap id).tracker = some t := ht
      rw [htracker] at ht
      exact absurd ht (by simp)
  by_cases hclient : (s.heap id).isClient = true
  · rw [if_pos hclient] at hwaits ⊢
    refine ⟨_, handle_accept hmade hin hup hclient hnew, h.withConnection id (hopened _ ?_),
      .answered (.put rfl rfl rfl ?_ le_rfl), ?_⟩
    · unfold Connection.opening
      rw [hwaits, hclient]
      rfl
    · intro f hf
      rw [List.mem_singleton.mp hf]
      rfl
    · intro x hx
      exact absurd hx (by simp [Frame.item?])
  · rw [if_neg hclient] at hwaits ⊢
    rw [Bool.not_eq_true] at hclient
    refine ⟨_, handle_request hmade hin hup hclient hnew, h.withConnection id (hopened _ ?_),
      .answered (.put rfl rfl rfl ?_ le_rfl), ?_⟩
    · unfold Connection.opening
      rw [hwaits, hclient]
      rfl
    · intro f hf
      simp only [List.mem_cons, List.not_mem_nil, or_false] at hf
      rcases hf with rfl | rfl
      · rfl
      · rfl
    · intro x hx
      exact absurd hx (by simp [Frame.item?])

/-- **The peer greets**: it is sent all that is held, and told that this was all. -/
theorem InStep.handles_greeting (hD : Unforked env.lib D) (h : s.InStep cs D taken)
    (hin : id ∈ s.connections) {t : HasMap} (htaken : taken id = 1) (hdated : Dated env.lib D t.marks)
    (hhad : t.marks ≤ peerHas id) :
    s.Handles cs D taken peerHas id (.message (.greeting t.toGreeting)) clock := by
  have hmade := (h.created id).mpr hin
  have hc := h.ends id hin
  have hup := hc.up
  have hconnected := h.connected hin (by omega)
  have htracker := h.no_tracker hin (by omega)
  -- before the backlog the peer is known to have what it greeted with
  have hgreeted : Connection.InStep env.lib D (cs.holds s.store) (· ∈ []) (taken id + 1)
      { s.heap id with tracker := some t } := by
    refine ⟨⟨hup.owner, hup.perms, hup.closed, hup.wsClosed, hup.socket⟩, ?_, ?_, hc.waits,
      hc.greets, hc.carried, ?_, ?_⟩
    · rw [htaken]
      exact hconnected
    · rw [htaken]
      rfl
    · intro t' _ e he
      exact absurd he List.not_mem_nil
    · intro t' ht'
      rw [← Option.some.inj ht']
      exact hdated
  obtain ⟨c', hsent, hfollows, hc'⟩ := InStep.backlog hD h.valid h.known id (peerHas id)
    (cs.held s.store) [] _ rfl hgreeted
  have hbundles : env.ops.getBundles s.store none = .ok (cs.held s.store) := by
    rw [cs.getBundles s.store h.valid none]
    simp
  have hconnected' : c'.wsConnected = true := by
    rw [hc'.connected, decide_eq_true_eq]
    omega
  have hself := withConnection_self s id c'
  have hsent' : sendBacklog env.lib id (cs.held s.store) (s.greeted id (.ofGreeting t.toGreeting))
      = .ok () (s.withConnection id c') := by
    rw [HasMap.ofGreeting_toGreeting]
    exact hsent
  have hhandled := @handle_greeting _ _ _ _ clock _ hmade hin hup hconnected _ _ hbundles _ hsent'
    (by rw [hself]; exact hc'.up) (by rw [hself]; exact hconnected')
  rw [hself, withConnection_twice] at hhandled
  have hput : c'.Follows env.lib (peerHas id) 1
      { c' with sent := c'.sent ++ [.message (.signal .initialBundlesSent)] } := by
    refine .put rfl rfl rfl ?_ le_rfl
    intro f hf
    rw [List.mem_singleton.mp hf]
    rfl
  refine ⟨_, hhandled, h.withConnection id (hc'.put hconnected' rfl rfl),
    .answered (((Connection.Follows.greeted htracker hhad).trans hfollows).trans hput), ?_⟩
  intro x hx
  exact absurd hx (by simp [Frame.item?])

/-- **A bundle comes in**: the connection takes note of it, the relay receives it, and it is
acknowledged. -/
theorem InStep.handles_bundle (hD : Unforked env.lib D) (h : s.InStep cs D taken)
    (hin : id ∈ s.connections) (htaken : 2 ≤ taken id) (hd : d ∈ D) (hclean : Clean env.lib d)
    (hi : d.getInfo env.lib = .ok info) (hplaced : info.Placed)
    (hprevious : info.previous.val ≤ cs.marks s.store info.chain)
    (hhad : info.timestamp.val ≤ peerHas id info.chain)
    (hsettles : Settles cs s.store d clock) :
    s.Handles cs D taken peerHas id (.message (.bundle d.bundleBytes)) clock := by
  have hmade := (h.created id).mpr hin
  have hc := h.ends id hin
  have hup := hc.up
  have hconnected := h.connected hin (by omega)
  -- first the connection takes note of the bundle
  have hnoted : (s.withConnection id ((s.heap id).markAsHaving info)).InStep cs D
      (Function.update taken id (taken id + 1)) :=
    h.withConnection id ((hc.noted hd hi hplaced.later).later htaken)
  have hnotes : s.Follows cs peerHas 0 (s.withConnection id ((s.heap id).markAsHaving info)) :=
    .withConnection (.noted hhad)
  have hsame : s.noted id info = s.withConnection id ((s.heap id).markAsHaving info) := rfl
  obtain ⟨needed, hneeded⟩ := cs.isNeeded_ok hD h.valid h.known hd hi hplaced hprevious
  -- then the relay receives it
  obtain ⟨s', hs', hstep, hfollows, hresult⟩ := hnoted.receive hD hd hsettles
  obtain ⟨hreceived, hpast⟩ := hresult info needed hi hclean hneeded
  have hin' : id ∈ s'.connections := ((hfollows peerHas).connections id).mpr hin
  have hc' := hstep.ends id hin'
  rw [Function.update_self] at hc'
  have hconnected' : (s'.heap id).wsConnected = true := by
    rw [hc'.connected, decide_eq_true_eq]
    omega
  have hacked := @Connection.InStep.put _ _ _ _ _ _ hc' hconnected'
    (.message info.asAcknowledgement) rfl rfl
  have hstep' := hstep.withConnection id hacked
  rw [Function.update_idem] at hstep'
  have hput : (s'.heap id).Follows env.lib (peerHas id) 1
      { s'.heap id with sent := (s'.heap id).sent ++ [.message info.asAcknowledgement] } := by
    refine .put rfl rfl rfl ?_ le_rfl
    intro f hf
    rw [List.mem_singleton.mp hf]
    rfl
  refine ⟨_, handle_bundle hmade hin hup hconnected hi (hsame ▸ hreceived) hc'.up hconnected',
    hstep', ((hnotes.trans (hfollows peerHas)).trans (.answered hput)).mono ?_, ?_⟩
  · intro i _
    simp [Frame.replies]
  · intro x hx
    rw [Frame.item?_bundle hi, Option.some.injEq] at hx
    rw [← hx]
    exact hpast

/-- An acknowledgement or a signal changes nothing. -/
theorem InStep.handles_idle (h : s.InStep cs D taken) (hin : id ∈ s.connections)
    (htaken : 2 ≤ taken id) {m : SyncMessage} (hm : (∃ medallion chainStart timestamp previous,
      m = .ack medallion chainStart timestamp previous) ∨ ∃ signal, m = .signal signal) :
    s.Handles cs D taken peerHas id (.message m) clock := by
  have hstep := h.withConnection id ((h.ends id hin).later htaken)
  rw [withConnection_heap] at hstep
  refine ⟨s, handle_idle ((h.created id).mpr hin) hin (h.ends id hin).up
    (h.connected hin (by omega)) hm, hstep, .refl s, ?_⟩
  intro x hx
  rcases hm with ⟨medallion, chainStart, timestamp, previous, rfl⟩ | ⟨signal, rfl⟩
  · exact absurd hx (by simp [Frame.item?])
  · exact absurd hx (by simp [Frame.item?])

/-- **The relay takes a frame** of its peer. -/
theorem InStep.frame (hD : Unforked env.lib D) (h : s.InStep cs D taken) (hin : id ∈ s.connections)
    {frame : Frame} (hcomes : (s.heap id).Comes env.lib D (peerHas id) (cs.marks s.store) (taken id)
      frame)
    (hsettles : ∀ bytes, frame = .message (.bundle bytes) → Settles cs s.store ⟨bytes⟩ clock) :
    s.Handles cs D taken peerHas id frame clock := by
  cases hcomes with
  | opening htaken => exact h.handles_opening hin htaken
  | greeting htaken hdated hhad => exact h.handles_greeting hD hin htaken hdated hhad
  | bundle htaken hd hclean hi hplaced hprevious hhad =>
      exact h.handles_bundle hD hin htaken hd hclean hi hplaced hprevious hhad (hsettles _ rfl)
  | ack htaken => exact h.handles_idle hin htaken (Or.inl ⟨_, _, _, _, rfl⟩)
  | signal htaken => exact h.handles_idle hin htaken (Or.inr ⟨_, rfl⟩)

end Server

end Gink
