/-
  Gink.Sync.Scope — what a piece of the server's code may do.

  A scope says on which connections which bundles may be sent and where the store, the
  braids and the audience may be.  The code of connections and the two broadcast loops
  stay in every scope that lets the audience be sent the bundle, whether they return or
  raise.
-/
import Gink.Sync.Server

namespace Gink

/-! ## §1. One connection. -/

namespace Connection

/-- Since `c₀` only bundles with `A` were sent, only bundles with `L` are lacking, and no
permission was taken away. -/
structure After (A : Decomposition → Prop) (L : BundleInfo → Prop) (c₀ c : Connection) : Prop where
  sent : ∀ f ∈ c.sent, f.isBundle = true →
    f ∈ c₀.sent ∨ ∃ d : Decomposition, f = .message (.bundle d.bundleBytes) ∧ A d
  lacks : ∀ info, c.lacks info = true → L info
  canRead : c₀.canRead = true → c.canRead = true
  owner : c.owner = c₀.owner

variable {A : Decomposition → Prop} {L : BundleInfo → Prop} {c₀ c : Connection}

/-- What does not write, forget or forbid keeps the account. -/
theorem After.same (h : After A L c₀ c) {c' : Connection} (hsent : c'.sent = c.sent)
    (htracker : c'.tracker = c.tracker) (hperms : c'.perms = c.perms) (howner : c'.owner = c.owner) :
    After A L c₀ c' where
  sent := by
    rw [hsent]
    exact h.sent
  lacks info hlacks := by
    apply h.lacks info
    unfold Connection.lacks at hlacks ⊢
    rwa [htracker] at hlacks
  canRead hread := by
    unfold Connection.canRead
    rw [hperms]
    exact h.canRead hread
  owner := howner.trans h.owner

/-- One more frame was written. -/
theorem After.wrote (h : After A L c₀ c) (f : Frame)
    (hf : f.isBundle = true → ∃ d : Decomposition, f = .message (.bundle d.bundleBytes) ∧ A d) :
    After A L c₀ { c with sent := c.sent ++ [f] } where
  sent g hg hbundle := by
    rcases List.mem_append.mp hg with hg | hg
    · exact h.sent g hg hbundle
    · rw [List.mem_singleton] at hg
      subst hg
      exact Or.inr (hf hbundle)
  lacks := h.lacks
  canRead := h.canRead
  owner := h.owner

theorem socketSend_cases (f : Frame) (c : Connection) :
    socketSend f c = .ok () { c with sent := c.sent ++ [f] } ∨
      ∃ e, socketSend f c = .error e c := by
  unfold socketSend
  split
  · exact Or.inl rfl
  · exact Or.inr ⟨_, rfl⟩
  · exact Or.inr ⟨_, rfl⟩

theorem After.socketSend (f : Frame)
    (hf : f.isBundle = true → ∃ d : Decomposition, f = .message (.bundle d.bundleBytes) ∧ A d) :
    Action.Keeps (After A L c₀) (Connection.socketSend f) := by
  intro c h
  rcases socketSend_cases f c with hr | ⟨e, hr⟩
  · rw [hr]
    exact h.wrote f hf
  · rw [hr]
    exact h

theorem After.close : Action.Keeps (After A L c₀) Connection.close := by
  intro c h
  have hsocket := @After.socketSend A L c₀ .closeConnection (by simp [Frame.isBundle]) c h
  unfold Connection.close
  by_cases hclosed : c.closed = true
  · rw [if_pos hclosed]
    exact h
  rw [if_neg hclosed]
  by_cases hopen : (c.wsConnected && !c.wsClosed) = true
  · rw [if_pos hopen]
    cases hr : Connection.socketSend .closeConnection c with
    | ok u c' =>
        rw [hr] at hsocket
        exact hsocket.same rfl rfl rfl rfl
    | error e c' =>
        rw [hr] at hsocket
        cases e <;> exact hsocket.same rfl rfl rfl rfl
  · rw [if_neg hopen]
    exact h.same rfl rfl rfl rfl

theorem After.send (m : SyncMessage)
    (hm : (Frame.message m).isBundle = true →
      ∃ d : Decomposition, Frame.message m = .message (.bundle d.bundleBytes) ∧ A d) :
    Action.Keeps (After A L c₀) (Connection.send m) := by
  intro c h
  have hsocket := @After.socketSend A L c₀ (.message m) hm c h
  unfold Connection.send
  by_cases h1 : c.closed = true
  · rw [if_pos h1]
    exact h
  rw [if_neg h1]
  by_cases h2 : c.wsClosed = true
  · rw [if_pos h2]
    exact h
  rw [if_neg h2]
  by_cases h3 : (!c.wsConnected) = true
  · rw [if_pos h3]
    exact h
  rw [if_neg h3]
  cases hr : Connection.socketSend (.message m) c with
  | ok u c' =>
      rw [hr] at hsocket
      exact hsocket
  | error e c' =>
      rw [hr] at hsocket
      exact After.close c' hsocket

/-- Marking a bundle leaves less to lack. -/
theorem After.marked (h : After A L c₀ c) (info : BundleInfo) :
    After A L c₀ (markAsHaving info c) where
  sent := h.sent
  lacks other hlacks := by
    apply h.lacks other
    unfold Connection.lacks Connection.markAsHaving at *
    rcases Option.eq_none_or_eq_some c.tracker with ht | ⟨tracker, ht⟩
    · simp [ht] at hlacks
    · rw [ht] at hlacks ⊢
      simp only [Option.map_some, Option.any_some, Bool.not_eq_true'] at hlacks ⊢
      by_contra hhas
      rw [Bool.not_eq_false] at hhas
      rw [HasMap.has_of_has info hhas] at hlacks
      exact absurd hlacks (by simp)
  canRead := h.canRead
  owner := h.owner

/-- **`send_bundle` sends what is lacking**, or nothing. -/
theorem After.sendBundle {lib : Externals} {d : Decomposition}
    (hA : ∀ info, d.getInfo lib = .ok info → L info → A d) :
    Action.Keeps (After A L c₀) (Connection.sendBundle lib d) := by
  unfold Connection.sendBundle
  apply Action.Keeps.of_bind
  intro info hd
  apply Action.Keeps.get_bind
  intro c h
  rcases Option.eq_none_or_eq_some c.tracker with ht | ⟨tracker, ht⟩
  · simp only [ht]
    exact h
  · simp only [ht]
    by_cases hhas : tracker.has info = true
    · rw [if_pos hhas]
      exact h
    · rw [if_neg hhas]
      have hlacks : c.lacks info = true := by
        rw [lacks_tracker ht]
        simpa using hhas
      have hd' : A d := hA info hd (h.lacks info hlacks)
      refine Action.Keeps.bind (Action.Keeps.of _) (fun _ => Action.Keeps.bind
        (After.send _ fun _ => ⟨d, rfl, hd'⟩) fun _ => Action.Keeps.modify ?_) c h
      exact fun _ h => h.marked info

end Connection

/-! ## §2. The server. -/

namespace Server

variable {σ κ α : Type}

/-- The members of a server that say who hears of a bundle. -/
abbrev Audience := List Nat × (Nat → Option Muid)

def audience (s : Server σ) : Audience := (s.connections, s.connectionBraid)

/-- What a piece of code is allowed to do. -/
structure Scope (σ : Type) where
  sends : Nat → Decomposition → Prop
  lacks : Nat → BundleInfo → Prop := fun _ _ => True
  /-- the store, and the contents of the braids -/
  state : σ → (Muid → Table Chain Limit) → Prop
  audience : Audience → Prop := fun _ => True

/-- Since `s₀` nothing was done that is not in the scope. -/
structure After (s₀ : Server σ) (sc : Scope σ) (s : Server σ) : Prop where
  heap : ∀ id, Connection.After (sc.sends id) (sc.lacks id) (s₀.heap id) (s.heap id)
  state : sc.state s.store s.braids
  audience : sc.audience s.audience
  created : s.created = s₀.created

variable {s₀ s : Server σ} {sc : Scope σ}

/-- The heap with one connection replaced. -/
theorem After.updated (h : After s₀ sc s) {id : Nat} {c : Connection}
    (hc : Connection.After (sc.sends id) (sc.lacks id) (s₀.heap id) c) :
    After s₀ sc { s with heap := Function.update s.heap id c } where
  heap i := by
    show Connection.After _ _ _ (Function.update s.heap id c i)
    by_cases hi : i = id
    · subst hi
      rw [Function.update_self]
      exact hc
    · rw [Function.update_of_ne hi]
      exact h.heap i
  state := h.state
  audience := h.audience
  created := h.created

theorem After.onConnection {id : Nat} {x : Action Connection α}
    (hx : Action.Keeps (Connection.After (sc.sends id) (sc.lacks id) (s₀.heap id)) x) :
    Action.Keeps (After s₀ sc) (onConnection id x) := by
  intro s h
  unfold Server.onConnection
  rw [Action.endState_within]
  exact h.updated (hx _ (h.heap id))

theorem After.amend {id : Nat} {f : Connection → Connection}
    (hf : ∀ c, Connection.After (sc.sends id) (sc.lacks id) (s₀.heap id) c →
      Connection.After (sc.sends id) (sc.lacks id) (s₀.heap id) (f c)) :
    Action.Keeps (After s₀ sc) (amend id f) := by
  apply Action.Keeps.modify
  intro s h
  exact h.updated (hf _ (h.heap id))

/-- A message that holds no bundle may always be sent. -/
theorem After.send {id : Nat} {m : SyncMessage} (hm : (Frame.message m).isBundle = false) :
    Action.Keeps (After s₀ sc) (Server.onConnection id (Connection.send m)) :=
  After.onConnection (Connection.After.send m fun h => by simp [hm] at h)

theorem After.socketSend {id : Nat} {f : Frame} (hf : f.isBundle = false) :
    Action.Keeps (After s₀ sc) (Server.onConnection id (Connection.socketSend f)) :=
  After.onConnection (Connection.After.socketSend f fun h => by simp [hf] at h)

theorem After.connected (id : Nat) :
    Action.Keeps (After s₀ sc) (Server.amend id fun c => { c with wsConnected := true }) :=
  After.amend fun _ hc => hc.same rfl rfl rfl rfl

theorem After.shut (id : Nat) :
    Action.Keeps (After s₀ sc) (Server.amend id fun c => { c with wsClosed := true }) :=
  After.amend fun _ hc => hc.same rfl rfl rfl rfl

theorem After.rewired (id : Nat) (socket : Socket) :
    Action.Keeps (After s₀ sc) (Server.amend id fun c => { c with socket }) :=
  After.amend fun _ hc => hc.same rfl rfl rfl rfl

/-- A connection loses its braid: in scope if the audience may shrink. -/
theorem After.disconnect (hleave : ∀ conns braidOf id, sc.audience (conns, braidOf) →
      sc.audience (conns, Function.update braidOf id none)) (id : Nat) :
    Action.Keeps (After s₀ sc) (disconnect id) := by
  apply Action.Keeps.modify
  intro s h
  rcases Option.eq_none_or_eq_some (s.connectionBraid id) with hb | ⟨braid, hb⟩
  · simp only [hb]
    exact h
  · simp only [hb]
    have haudience := hleave s.connections s.connectionBraid id h.audience
    by_cases hempty : (s.braids braid).rows.isEmpty = true
    · rw [if_pos hempty]
      exact ⟨h.heap, h.state, haudience, h.created⟩
    · rw [if_neg hempty]
      exact ⟨h.heap, h.state, haudience, h.created⟩

/-! ## §3. The broadcast. -/

section
variable {lib : Externals} {d : Decomposition}

theorem After.sendToPeers (ids : List Nat)
    (hsends : ∀ id ∈ ids, ∀ info, d.getInfo lib = .ok info → sc.lacks id info → sc.sends id d) :
    Action.Keeps (After s₀ sc) (sendToPeers lib d ids) := by
  induction ids with
  | nil => exact Action.Keeps.pure _
  | cons id rest ih =>
      apply Action.Keeps.bind
      · exact After.onConnection (Connection.After.sendBundle (hsends id List.mem_cons_self))
      · exact fun _ => ih fun i hi => hsends i (List.mem_cons_of_mem _ hi)

theorem After.checkSize (chain : Chain) (size : Nat) :
    Action.Keeps (After s₀ sc) (checkSize chain size) := by
  apply Action.Keeps.get_bind
  intro s h
  exact Action.Keeps.of _ s h

/-- Everybody in the audience may be sent the bundle. -/
structure Audible (lib : Externals) (s₀ : Server σ) (sc : Scope σ) (d : Decomposition) : Prop where
  peers : ∀ s, After s₀ sc s → ∀ id ∈ s.connections, ∀ info, d.getInfo lib = .ok info →
    sc.lacks id info → sc.sends id d
  braids : ∀ s, After s₀ sc s → ∀ id braid info, d.getInfo lib = .ok info →
    s.connectionBraid id = some braid → s.withinBraid braid info = true →
    sc.lacks id info → sc.sends id d
  leave : ∀ conns braidOf id, sc.audience (conns, braidOf) →
    sc.audience (conns, Function.update braidOf id none)

theorem After.considerConnection (h : Audible lib s₀ sc d) {info : BundleInfo}
    (hd : d.getInfo lib = .ok info) (id : Nat) :
    Action.Keeps (After s₀ sc) (considerConnection lib d info id) := by
  apply Action.Keeps.get_bind
  intro s hs
  rcases Option.eq_none_or_eq_some (s.connectionBraid id) with hb | ⟨braid, hb⟩
  · rw [hb]
    exact hs
  · rw [hb, orRaise_some, Action.of_ok_bind]
    by_cases hin : s.withinBraid braid info = true
    · rw [if_pos hin]
      have hsends : ∀ i, d.getInfo lib = .ok i → sc.lacks id i → sc.sends id d := by
        intro i hi hlacks
        rw [hd, Except.ok.injEq] at hi
        subst hi
        exact h.braids s hs id braid info hd hb hin hlacks
      exact Action.Keeps.recover (After.onConnection (Connection.After.sendBundle hsends))
        (fun _ => After.disconnect h.leave id) s hs
    · rw [if_neg hin]
      exact hs

theorem After.considerConnections (h : Audible lib s₀ sc d) {info : BundleInfo}
    (hd : d.getInfo lib = .ok info) (size : Nat) (ids : List Nat) :
    Action.Keeps (After s₀ sc) (considerConnections lib d info size ids) := by
  induction ids with
  | nil => exact After.checkSize _ _
  | cons id rest ih =>
      apply Action.Keeps.bind (After.checkSize _ _)
      intro _
      exact Action.Keeps.bind (After.considerConnection h hd id) fun _ => ih

/-- **The broadcast** reaches the audience and nobody else. -/
theorem After.onBundle (h : Audible lib s₀ sc d) : Action.Keeps (After s₀ sc) (onBundle lib d) := by
  apply Action.Keeps.get_bind
  intro s hs
  refine Action.Keeps.bind (After.sendToPeers s.connections fun id hid info hd hlacks =>
    h.peers s hs id hid info hd hlacks) (fun _ => ?_) s hs
  apply Action.Keeps.of_bind
  intro info hd
  apply Action.Keeps.get_bind
  intro t ht
  exact After.considerConnections h hd _ _ t ht

end

end Server

end Gink
