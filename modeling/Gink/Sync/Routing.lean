/-
  Gink.Sync.Routing — the tables a braid server sends by (braid_server.py).

  Which connections hear of a chain and which hear of a braid is kept apart from which
  braid a connection has.  `_disconnect` takes an empty braid for no braid and cleans up
  nothing.  As long as no peer leaves while its braid is empty the tables agree, and the
  broadcast looks up nobody who is not there.
-/
import Gink.Sync.Broadcast
import Gink.Sync.Traffic
import Gink.Sync.ChainStore
import Gink.Proto.Outcome
import Gink.Machine.Run
import Gink.Proto.Sample

open Gink.Action (Fine Meets)

namespace Gink

/-- The exception of `self._connection_braid_map[connection]`. -/
def missingBraid : Error := .keyError "connection_braid_map"

/-! ## §1. The law. -/

namespace Server

variable {σ κ α : Type} {env : ServerEnv σ κ} {s : Server σ}

/-- The tables list the connections that have a braid, and those alone. -/
structure Consistent (s : Server σ) : Prop where
  chains : ∀ chain id, id ∈ s.chainConnections chain ↔
    ∃ braid, s.connectionBraid id = some braid ∧ chain ∈ s.braidChains braid
  braids : ∀ braid id, id ∈ s.braidConnections braid ↔ s.connectionBraid id = some braid

/-- What is done for a frame inside the `try` of the select loop. -/
def onFrame (env : ServerEnv σ κ) (id : Nat) (auth : Option Nat) (frame : Frame) (clock : κ) :
    Action (Server σ) Unit := do
  let s ← get
  let thing ← receiveFrame env id auth frame
  match thing, (s.heap id).owner with
  | none, _ => pure ()
  | some thing, .relay => relayThing env id clock thing
  | some thing, .braidServer => braidThing env id clock thing

theorem onReady_eq (env : ServerEnv σ κ) (id : Nat) (auth : Option Nat) (frame : Frame) (clock : κ)
    (s : Server σ) : onReady env id auth frame clock s
      = if (s.heap id).owner = .relay ∧ id ∉ s.connections then .ok () s
        else Action.recover (onFrame env id auth frame clock)
          (fun e => if e = .finished then finish id else Action.of (.error e)) s := by
  unfold onReady
  rw [Action.get_bind]
  split_ifs
  · rfl
  · rfl

/-- The event is the end of a connection of the braid server, which lets go of it in the
state `t`: the peer is gone, or a frame ended in `Finished`. -/
inductive Ends (env : ServerEnv σ κ) (s : Server σ) : Event κ → Nat → Server σ → Prop where
  | hangUp (id : Nat) (hmade : id ∈ s.created) (howner : (s.heap id).owner = .braidServer) :
      Ends env s (.hangUp id) id s
  | frame (id : Nat) (auth : Option Nat) (frame : Frame) (clock : κ) (t : Server σ)
      (hmade : id ∈ s.created) (howner : (s.heap id).owner = .braidServer)
      (hfinished : onFrame env id auth frame clock s = .error .finished t) :
      Ends env s (.frame id auth frame clock) id t

/-- No connection ends while its braid is empty. -/
def EndsFilled (env : ServerEnv σ κ) (s : Server σ) (e : Event κ) : Prop :=
  ∀ id t braid, Ends env s e id t → t.connectionBraid id = some braid → (t.braids braid).rows ≠ []

/-- The store itself raises the exception somewhere. -/
def StoreRaises (env : ServerEnv σ κ) (e : Error) : Prop :=
  (∃ store d clock, (env.ops.applyBundle store d clock).2 = .error e) ∨
    ∃ store limits, env.ops.getBundles store limits = .error e

/-- Not the `KeyError` of the broadcast. -/
def Excused (env : ServerEnv σ κ) (e : Error) : Prop := e = missingBraid → StoreRaises env e

theorem Excused.of_ne {e : Error} (h : e ≠ missingBraid) : Excused env e := fun he => absurd he h

end Server

/-! ## §2. One connection. -/

namespace Connection

variable {α : Type}

/-- The connection `c` was `c₀`: it has the same owner, and was not opened again. -/
structure Was (c₀ c : Connection) : Prop where
  owner : c.owner = c₀.owner
  closed : c₀.closed = true → c.closed = true

/-- Code that opens no closed connection and knows of no braids. -/
def Tame (x : Action Connection α) : Prop := ∀ c₀, Meets (Was c₀) (· ≠ missingBraid) x

theorem Tame.socketSend (f : Frame) : Tame (Connection.socketSend f) := by
  intro c₀ c h
  unfold Connection.socketSend
  split
  · exact ⟨h.owner, h.closed⟩
  · exact ⟨h, by decide⟩
  · exact ⟨h, by decide⟩

theorem Tame.close : Tame Connection.close := by
  intro c₀ c h
  have hsocket := Tame.socketSend .closeConnection c₀ c h
  unfold Connection.close
  split_ifs with h1 h2
  · exact h
  · cases hr : Connection.socketSend .closeConnection c with
    | ok u c' =>
        rw [hr] at hsocket
        exact ⟨hsocket.owner, fun _ => rfl⟩
    | error e c' =>
        rw [hr] at hsocket
        have hclosed : Was c₀ { c' with closed := true } := ⟨hsocket.1.owner, fun _ => rfl⟩
        cases e with
        | brokenPipeError => exact hclosed
        | _ => exact ⟨hclosed, hsocket.2⟩
  · exact ⟨h.owner, fun _ => rfl⟩

theorem Tame.send (m : SyncMessage) : Tame (Connection.send m) := by
  intro c₀ c h
  unfold Connection.send
  split_ifs
  · exact ⟨h, by decide⟩
  · exact ⟨h, by decide⟩
  · exact ⟨h, by decide⟩
  · have hsocket := Tame.socketSend (.message m) c₀ c h
    cases hr : Connection.socketSend (.message m) c with
    | ok u c' =>
        rw [hr] at hsocket
        exact hsocket
    | error e c' =>
        rw [hr] at hsocket
        exact Tame.close c₀ c' hsocket.1

/-- Whatever comes of it, a connection that is closed is closed. -/
theorem closed_close (c : Connection) : (Action.endState (Connection.close c)).closed = true := by
  unfold Connection.close
  split_ifs with h1 h2
  · exact h1
  · cases Connection.socketSend .closeConnection c with
    | ok u c' => rfl
    | error e c' => cases e <;> rfl
  · rfl

theorem getInfo_error {lib : Externals} {d : Decomposition} {e : Error}
    (h : d.getInfo lib = .error e) : e ≠ missingBraid := by
  unfold Decomposition.getInfo Decomposition.getBuilder at h
  cases hp : lib.parseBundle (d.bundleBytes.drop 64) with
  | none =>
      rw [hp] at h
      have he : Error.decodeError = e := Except.error.inj h
      subst he
      decide
  | some builder =>
      rw [hp] at h
      exact absurd h (by simp [Except.map])

theorem Tame.sendBundle (lib : Externals) (d : Decomposition) :
    Tame (Connection.sendBundle lib d) := by
  intro c₀
  unfold Connection.sendBundle
  apply Meets.of_bind (fun e he => getInfo_error he)
  intro info _
  apply Meets.get_bind
  intro c h
  rcases Option.eq_none_or_eq_some c.tracker with ht | ⟨tracker, ht⟩
  · simp only [ht]
    exact h
  · simp only [ht]
    split_ifs
    · exact h
    · refine Meets.of_bind ?_ (fun _ _ => ?_) c h
      · intro e he
        cases hv : tracker.isValidExtension info with
        | true =>
            rw [hv] at he
            exact absurd he (by simp)
        | false =>
            rw [hv, ensure_false, Except.error.injEq] at he
            subst he
            decide
      · exact Meets.bind (Tame.send _ c₀) fun _ => Meets.modify fun _ h => ⟨h.owner, h.closed⟩

end Connection

/-! ## §3. What every part of the server keeps. -/

namespace Server

variable {σ κ α : Type} {env : ServerEnv σ κ} {base s : Server σ}
  {gone : Set Nat}

/-- The tables agree, a connection has the braid it was given, and those that are gone are
closed and have none. -/
structure Routed (env : ServerEnv σ κ) (base : Server σ) (gone : Set Nat) (s : Server σ) :
    Prop where
  consistent : s.Consistent
  created : s.created = base.created
  owner : ∀ id, (s.heap id).owner = (base.heap id).owner
  given : ∀ id braid, s.connectionBraid id = some braid → env.braidFunc id = some braid
  gone : ∀ id ∈ gone, id ∈ base.created ∧ (s.heap id).closed = true ∧ s.connectionBraid id = none

/-- Work on one connection leaves the tables alone. -/
theorem Routed.update (h : Routed env base gone s) {id : Nat} {c : Connection}
    (hc : (s.heap id).Was c) :
    Routed env base gone { s with heap := Function.update s.heap id c } where
  consistent := ⟨h.consistent.chains, h.consistent.braids⟩
  created := h.created
  owner i := by
    show (Function.update s.heap id c i).owner = _
    by_cases hsame : i = id
    · subst hsame
      rw [Function.update_self, hc.owner]
      exact h.owner i
    · rw [Function.update_of_ne hsame]
      exact h.owner i
  given := h.given
  gone i hi := by
    obtain ⟨hmade, hclosed, hnone⟩ := h.gone i hi
    refine ⟨hmade, ?_, hnone⟩
    show (Function.update s.heap id c i).closed = true
    by_cases hsame : i = id
    · subst hsame
      rw [Function.update_self]
      exact hc.closed hclosed
    · rw [Function.update_of_ne hsame]
      exact hclosed

theorem Routed.onConnection {x : Action Connection α} (hx : Connection.Tame x) (id : Nat) :
    Meets (Routed env base gone) (· ≠ missingBraid) (onConnection id x) := by
  intro s h
  exact Fine.within (hx (s.heap id) (s.heap id) ⟨rfl, fun hc => hc⟩) fun c hc => h.update hc

theorem Routed.amend (id : Nat) {f : Connection → Connection} (hf : ∀ c : Connection, c.Was (f c))
    {E : Error → Prop} : Meets (Routed env base gone) E (amend id f) :=
  Meets.modify fun _ h => h.update (hf _)

/-- The exceptions of a connection are excused. -/
theorem Routed.excused {x : Action Connection α} (hx : Connection.Tame x) (id : Nat) :
    Meets (Routed env base gone) (Excused env) (Server.onConnection id x) :=
  (Routed.onConnection hx id).weaken fun _ => Excused.of_ne

theorem mem_discard {i id : Nat} {ids : List Nat} : i ∈ discard id ids ↔ i ∈ ids ∧ i ≠ id := by
  unfold discard
  rw [List.mem_filter, decide_eq_true_eq]

/-- **A connection leaves**, and the tables still agree if its braid is not empty. -/
theorem Routed.disconnect (h : Routed env base gone s) (id : Nat)
    (hfilled : ∀ braid, s.connectionBraid id = some braid → (s.braids braid).rows ≠ []) :
    Routed env base gone (Action.endState (Server.disconnect id s)) ∧
      (Action.endState (Server.disconnect id s)).connectionBraid
        = Function.update s.connectionBraid id none := by
  unfold Server.disconnect
  rw [Action.modify_apply]
  rcases Option.eq_none_or_eq_some (s.connectionBraid id) with hb | ⟨braid, hb⟩
  · simp only [Action.endState, hb]
    refine ⟨h, ?_⟩
    rw [← hb, Function.update_eq_self]
  · have hrows : (s.braids braid).rows.isEmpty = false := by
      rw [List.isEmpty_eq_false_iff]
      exact hfilled braid hb
    simp only [Action.endState, hb, hrows]
    refine ⟨⟨⟨?_, ?_⟩, h.created, h.owner, ?_, ?_⟩, rfl⟩
    · intro chain i
      show i ∈ (if chain ∈ s.braidChains braid then Server.discard id (s.chainConnections chain)
          else s.chainConnections chain) ↔
        ∃ b, Function.update s.connectionBraid id none i = some b ∧ chain ∈ s.braidChains b
      by_cases hi : i = id
      · subst hi
        simp only [Function.update_self]
        constructor
        · intro hin
          exfalso
          split_ifs at hin with hc
          · exact (mem_discard.mp hin).2 rfl
          · obtain ⟨b, hb', hc'⟩ := (h.consistent.chains chain i).mp hin
            rw [hb, Option.some.injEq] at hb'
            subst hb'
            exact hc hc'
        · intro hnone
          obtain ⟨b, hnone, -⟩ := hnone
          exact absurd hnone (by simp)
      · rw [Function.update_of_ne hi, ← h.consistent.chains chain i]
        split_ifs
        · exact mem_discard.trans (and_iff_left hi)
        · exact Iff.rfl
    · intro b i
      show i ∈ Function.update s.braidConnections braid
          (Server.discard id (s.braidConnections braid)) b ↔
        Function.update s.connectionBraid id none i = some b
      by_cases hi : i = id
      · subst hi
        rw [Function.update_self]
        refine iff_of_false ?_ (by simp)
        intro hin
        by_cases hsame : b = braid
        · subst hsame
          rw [Function.update_self] at hin
          exact (mem_discard.mp hin).2 rfl
        · rw [Function.update_of_ne hsame, h.consistent.braids, hb, Option.some.injEq] at hin
          exact hsame hin.symm
      · rw [Function.update_of_ne hi, ← h.consistent.braids b i]
        by_cases hsame : b = braid
        · subst hsame
          rw [Function.update_self]
          exact mem_discard.trans (and_iff_left hi)
        · rw [Function.update_of_ne hsame]
    · intro i b hib
      have hib : Function.update s.connectionBraid id none i = some b := hib
      by_cases hi : i = id
      · subst hi
        rw [Function.update_self] at hib
        exact absurd hib (by simp)
      · rw [Function.update_of_ne hi] at hib
        exact h.given i b hib
    · intro i hi
      obtain ⟨hmade, hclosed, hnone⟩ := h.gone i hi
      refine ⟨hmade, hclosed, ?_⟩
      show Function.update s.connectionBraid id none i = none
      by_cases hsame : i = id
      · subst hsame
        rw [Function.update_self]
      · rw [Function.update_of_ne hsame]
        exact hnone

/-- A greeting puts the connection into the tables of its braid. -/
theorem Routed.getGreeting {id : Nat} (hid : id ∉ gone) :
    Meets (Routed env base gone) (Excused env) (getGreeting env id) := by
  unfold Server.getGreeting
  refine Meets.of_bind ?_ (fun braid hbraid => ?_)
  · intro e he
    cases hf : env.braidFunc id with
    | none =>
        rw [hf, orRaise_none, Except.error.injEq] at he
        subst he
        exact Excused.of_ne (by decide)
    | some braid =>
        rw [hf] at he
        exact absurd he (by simp)
  · have hfunc : env.braidFunc id = some braid := by
      cases hf : env.braidFunc id with
      | none =>
          rw [hf] at hbraid
          exact absurd hbraid (by simp)
      | some b =>
          rw [hf, orRaise_some, Except.ok.injEq] at hbraid
          rw [hbraid]
    refine Meets.bind (Meets.modify ?_) (fun _ => ?_)
    · intro s h
      -- the connection had no braid yet, or this one
      have hother : ∀ b, s.connectionBraid id = some b → b = braid := by
        intro b hb
        have hgiven := h.given id b hb
        rw [hfunc, Option.some.injEq] at hgiven
        exact hgiven.symm
      refine ⟨⟨?_, ?_⟩, h.created, h.owner, ?_, ?_⟩
      · intro chain i
        show i ∈ (if chain ∈ s.braidChains braid then addTo id (s.chainConnections chain)
            else s.chainConnections chain) ↔
          ∃ b, Function.update s.connectionBraid id (some braid) i = some b ∧
            chain ∈ s.braidChains b
        by_cases hi : i = id
        · subst hi
          simp only [Function.update_self, Option.some.injEq, exists_eq_left']
          split_ifs with hc
          · exact iff_of_true (mem_addTo.mpr (Or.inl rfl)) hc
          · refine iff_of_false ?_ hc
            intro hin
            obtain ⟨b, hb, hc'⟩ := (h.consistent.chains chain i).mp hin
            rw [hother b hb] at hc'
            exact hc hc'
        · rw [Function.update_of_ne hi, ← h.consistent.chains chain i]
          split_ifs
          · exact mem_addTo.trans (or_iff_right hi)
          · exact Iff.rfl
      · intro b i
        show i ∈ Function.update s.braidConnections braid
            (addTo id (s.braidConnections braid)) b ↔
          Function.update s.connectionBraid id (some braid) i = some b
        by_cases hsame : b = braid
        · subst hsame
          rw [Function.update_self, mem_addTo]
          by_cases hi : i = id
          · subst hi
            simp
          · rw [Function.update_of_ne hi, h.consistent.braids b i]
            exact or_iff_right hi
        · rw [Function.update_of_ne hsame, h.consistent.braids b i]
          by_cases hi : i = id
          · subst hi
            rw [Function.update_self, Option.some.injEq]
            exact iff_of_false (fun hb => hsame (hother b hb)) fun hb => hsame hb.symm
          · rw [Function.update_of_ne hi]
      · intro i b hib
        have hib : Function.update s.connectionBraid id (some braid) i = some b := hib
        by_cases hi : i = id
        · subst hi
          rw [Function.update_self, Option.some.injEq] at hib
          rw [hfunc, hib]
        · rw [Function.update_of_ne hi] at hib
          exact h.given i b hib
      · intro i hi
        obtain ⟨hmade, hclosed, hnone⟩ := h.gone i hi
        have hne : i ≠ id := fun heq => hid (heq ▸ hi)
        refine ⟨hmade, hclosed, ?_⟩
        show Function.update s.connectionBraid id (some braid) i = none
        rw [Function.update_of_ne hne]
        exact hnone
    · exact Meets.get_bind fun s h => h

/-- A braid gets a chain, and its connections are listed under it. -/
theorem mem_foldl_addTo (new : List Nat) {i : Nat} {ids : List Nat} :
    i ∈ new.foldl (fun ids id => addTo id ids) ids ↔ i ∈ ids ∨ i ∈ new := by
  induction new generalizing ids with
  | nil => simp
  | cons id rest ih =>
      rw [List.foldl_cons, ih, mem_addTo, List.mem_cons]
      tauto

theorem mem_braidChains {braid : Muid} {chain : Chain} :
    chain ∈ s.braidChains braid ↔ (s.braids braid).get? chain ≠ none := by
  unfold braidChains
  rw [List.mem_map]
  constructor
  · intro h
    obtain ⟨row, hrow, rfl⟩ := h
    rw [Table.get?_eq_some_iff.mpr hrow]
    simp
  · intro h
    obtain ⟨limit, hl⟩ := Option.ne_none_iff_exists'.mp h
    exact ⟨_, Table.get?_eq_some_iff.mp hl, rfl⟩

theorem Routed.widen (braid : Muid) (chain : Chain) :
    Meets (Routed env base gone) (Excused env) (widen braid chain) := by
  apply Meets.modify
  intro s h
  refine ⟨⟨?_, h.consistent.braids⟩, h.created, h.owner, h.given, h.gone⟩
  intro c i
  show i ∈ Function.update s.chainConnections chain
      ((s.braidConnections braid).foldl (fun ids id => addTo id ids)
        (s.chainConnections chain)) c ↔
    ∃ b, s.connectionBraid i = some b ∧ c ∈ braidChains { s with
      braids := Function.update s.braids braid ((s.braids braid).put chain .inf) } b
  have hchains : ∀ b, c ∈ braidChains { s with
      braids := Function.update s.braids braid ((s.braids braid).put chain .inf) } b ↔
      c ∈ s.braidChains b ∨ c = chain ∧ b = braid := by
    intro b
    rw [mem_braidChains, mem_braidChains]
    by_cases hb : b = braid
    · subst hb
      simp only [Function.update_self, Table.get?_put]
      by_cases hc : c = chain
      · simp [hc]
      · simp [hc]
    · simp [hb]
  simp only [hchains]
  by_cases hc : c = chain
  · subst hc
    rw [Function.update_self, mem_foldl_addTo, h.consistent.chains, h.consistent.braids]
    constructor
    · intro hin
      rcases hin with hold | hnew
      · obtain ⟨b, hb, hc⟩ := hold
        exact ⟨b, hb, Or.inl hc⟩
      · exact ⟨braid, hnew, Or.inr ⟨rfl, rfl⟩⟩
    · intro hin
      obtain ⟨b, hb, hold | ⟨-, rfl⟩⟩ := hin
      · exact Or.inl ⟨b, hb, hold⟩
      · exact Or.inr hb
  · rw [Function.update_of_ne hc, h.consistent.chains]
    simp [hc]

/-! ## §4. The broadcast. -/

section
variable {lib : Externals} {d : Decomposition} {info : BundleInfo}

/-- A listed connection is looked up, and served or let go of. -/
theorem Routed.considerConnection (h : Routed env base gone s) {id : Nat}
    (hid : id ∈ s.chainConnections info.chain) :
    ∃ s', considerConnection lib d info id s = .ok () s' ∧ Routed env base gone s' ∧
      (s'.chainConnections = s.chainConnections ∨
        (s'.chainConnections info.chain).length < (s.chainConnections info.chain).length) := by
  obtain ⟨braid, hbraid, hchain⟩ := (h.consistent.chains _ _).mp hid
  have hsend := Routed.onConnection (Connection.Tame.sendBundle lib d) id s h
  unfold Server.considerConnection
  rw [Action.get_bind, hbraid, orRaise_some, Action.of_ok_bind]
  by_cases hin : s.withinBraid braid info = true
  · rw [if_pos hin]
    cases hr : Server.onConnection id (Connection.sendBundle lib d) s with
    | ok u s' =>
        rw [Action.recover_ok hr]
        rw [hr] at hsend
        refine ⟨s', rfl, hsend, Or.inl ?_⟩
        obtain ⟨c, -, rfl⟩ := Action.within_eq_ok.mp hr
        rfl
    | error e s' =>
        rw [Action.recover_error hr]
        rw [hr] at hsend
        obtain ⟨c, -, rfl⟩ := Action.within_eq_error.mp hr
        -- the braid has the chain, so it is not empty
        have hfilled : (s.braids braid).rows ≠ [] := by
          intro hempty
          unfold braidChains at hchain
          rw [hempty] at hchain
          exact absurd hchain List.not_mem_nil
        obtain ⟨hleft, -⟩ := hsend.1.disconnect id (by
          intro b hb
          have hb : s.connectionBraid id = some b := hb
          rw [hbraid, Option.some.injEq] at hb
          subst hb
          exact hfilled)
        refine ⟨_, rfl, hleft, Or.inr ?_⟩
        simp only [hbraid, List.isEmpty_eq_false_iff.mpr hfilled]
        show (if info.chain ∈ s.braidChains braid then _ else _ : List Nat).length < _
        rw [if_pos hchain]
        exact length_discard hid
  · rw [if_neg hin]
    exact ⟨s, rfl, h, Or.inl rfl⟩

theorem Routed.checkSize (chain : Chain) (size : Nat) :
    Meets (Routed env base gone) (· ≠ missingBraid) (checkSize chain size) := by
  unfold Server.checkSize
  refine Meets.get_bind fun s h => Meets.of ?_ s h
  intro e he
  cases hsize : decide ((s.chainConnections chain).length = size) with
  | true =>
      rw [hsize] at he
      exact absurd he (by simp)
  | false =>
      rw [hsize, ensure_false, Except.error.injEq] at he
      subst he
      decide

/-- **The broadcast loop** looks up nobody who is not there: when the set has changed it
has raised before. -/
theorem Routed.considerConnections (size : Nat) (ids : List Nat) :
    ∀ s, Routed env base gone s → ((s.chainConnections info.chain).length = size →
      ∀ id ∈ ids, id ∈ s.chainConnections info.chain) →
      Fine (Routed env base gone) (· ≠ missingBraid) (considerConnections lib d info size ids s) := by
  induction ids with
  | nil =>
      intro s h _
      exact Routed.checkSize info.chain size s h
  | cons id rest ih =>
      intro s h hlisted
      unfold Server.considerConnections
      refine (Routed.checkSize info.chain size s h).bind fun _ s' hr h' => ?_
      obtain ⟨hsize, rfl⟩ : (s.chainConnections info.chain).length = size ∧ s' = s := by
        unfold Server.checkSize at hr
        rw [Action.get_bind, Action.of_eq_ok] at hr
        refine ⟨?_, hr.2⟩
        by_contra hne
        rw [decide_eq_false hne] at hr
        exact absurd hr.1 (by simp)
      have hin := hlisted hsize
      obtain ⟨s'', hs'', hrouted, hsame⟩ :=
        @Routed.considerConnection _ _ _ _ _ _ lib d _ h id (hin id List.mem_cons_self)
      rw [Action.bind_of_ok hs'']
      apply ih s'' hrouted
      intro hagain
      rcases hsame with hsame | hless
      · rw [hsame]
        exact fun i hi => hin i (List.mem_cons_of_mem _ hi)
      · omega

theorem Routed.afterRelayReceivesBundle (lib : Externals) (d : Decomposition) :
    Meets (Routed env base gone) (· ≠ missingBraid) (afterRelayReceivesBundle lib d) := by
  unfold Server.afterRelayReceivesBundle
  refine Meets.of_bind (fun e he => Connection.getInfo_error he) fun info _ => ?_
  exact Meets.get_bind fun s h => Routed.considerConnections _ _ s h fun _ _ hi => hi

theorem Routed.sendToPeers (lib : Externals) (d : Decomposition) (ids : List Nat) :
    Meets (Routed env base gone) (· ≠ missingBraid) (sendToPeers lib d ids) := by
  induction ids with
  | nil => exact Meets.pure _
  | cons id rest ih =>
      exact Meets.bind (Routed.onConnection (Connection.Tame.sendBundle lib d) id) fun _ => ih

theorem Routed.onBundle (lib : Externals) (d : Decomposition) :
    Meets (Routed env base gone) (· ≠ missingBraid) (onBundle lib d) := by
  unfold Server.onBundle
  refine Meets.get_bind fun s h => ?_
  exact Meets.bind (Routed.sendToPeers lib d _) (fun _ => Routed.afterRelayReceivesBundle lib d) s h

end

/-! ## §5. What comes in. -/

theorem Routed.applyBundle (d : Decomposition) (clock : κ) :
    Meets (Routed env base gone) (Excused env) (applyBundle env d clock) := by
  unfold Server.applyBundle
  refine Meets.get_bind fun s h => ?_
  rw [Action.set_bind]
  have htook : Routed env base gone { s with store := (env.ops.applyBundle s.store d clock).1 } :=
    ⟨⟨h.consistent.chains, h.consistent.braids⟩, h.created, h.owner, h.given, h.gone⟩
  refine Meets.of_bind ?_ (fun needed _ => ?_) _ htook
  · exact fun e he _ => Or.inl ⟨s.store, d, clock, he⟩
  · cases needed with
    | true =>
        exact Meets.bind ((Routed.onBundle env.lib d).weaken fun _ => Excused.of_ne)
          fun _ => Meets.pure _
    | false => exact Meets.pure _

theorem validateBundle_error {builder : BundleBuilder} {e : Error}
    (h : validateBundle builder = .error e) : e ≠ missingBraid := by
  unfold validateBundle at h
  revert h
  induction builder.changes with
  | nil => simp [pure, Except.pure]
  | cons change rest ih =>
      intro h
      rw [List.forM_eq_forM, List.forM_cons] at h
      cases change with
      | entry entry =>
          cases hv : entry.wellFormed with
          | true =>
              simp only [hv] at h
              exact ih h
          | false =>
              simp only [hv] at h
              have he : entry.validationError = e := Except.error.inj h
              rw [← he]
              unfold EntryBuilder.validationError
              split <;> decide
      | _ => exact ih h

theorem Routed.receive (d : Decomposition) (clock : κ) :
    Meets (Routed env base gone) (Excused env) (receive env d clock) := by
  unfold Server.receive
  refine Meets.of_bind ?_ fun builder _ => ?_
  · intro e he
    apply Excused.of_ne
    apply @Connection.getInfo_error env.lib d
    unfold Decomposition.getInfo
    rw [he]
    rfl
  · exact Meets.of_bind (fun e he => Excused.of_ne (validateBundle_error he))
      fun _ _ => Routed.applyBundle d clock

/-- An answer that is a message. -/
theorem Routed.send (id : Nat) (m : SyncMessage) :
    Meets (Routed env base gone) (Excused env) (Server.onConnection id (Connection.send m)) :=
  Routed.excused (Connection.Tame.send m) id

theorem Routed.socketSend (id : Nat) (f : Frame) :
    Meets (Routed env base gone) (Excused env) (Server.onConnection id (Connection.socketSend f)) :=
  Routed.excused (Connection.Tame.socketSend f) id

theorem Excused.finished : Excused env .finished := Excused.of_ne (by decide)

theorem Routed.connFunc {id : Nat} (hid : id ∉ gone) :
    Meets (Routed env base gone) (Excused env) (connFunc env id) := by
  unfold Server.connFunc
  refine Meets.get_bind fun s h => ?_
  cases (s.heap id).owner with
  | relay => exact h
  | braidServer => exact Routed.getGreeting hid s h

theorem Routed.sendGreeting (id : Nat) (greeting : HasMap) :
    Meets (Routed env base gone) (Excused env) (sendGreeting id greeting) := by
  unfold Server.sendGreeting
  exact Meets.get_bind fun s h => Routed.send id _ s h

theorem Routed.onRequest {id : Nat} (hid : id ∉ gone) (auth : Option Nat) (gink : Bool) :
    Meets (Routed env base gone) (Excused env) (onRequest env id auth gink) := by
  unfold Server.onRequest
  refine Meets.bind (Routed.amend id (by exact fun _ => ⟨rfl, fun hc => hc⟩)) fun _ => ?_
  refine Meets.get_bind fun s h => ?_
  split_ifs
  · exact Meets.bind (Routed.socketSend id _)
      (fun _ => Meets.of_bind (fun e he => by cases he; exact Excused.finished)
        fun _ he => absurd he (by simp)) s h
  · refine Meets.bind (Meets.recover (Routed.connFunc hid) fun _ _ => ?_) (fun greeting => ?_) s h
    · refine Meets.bind (Routed.socketSend id _) fun _ => ?_
      exact Meets.bind (Routed.amend id (by exact fun _ => ⟨rfl, fun hc => hc⟩))
        fun _ => Meets.error Excused.finished
    · refine Meets.bind (Routed.socketSend id _) fun _ => ?_
      exact Meets.bind (Routed.amend id (by exact fun _ => ⟨rfl, fun hc => hc⟩))
        fun _ => Routed.sendGreeting id greeting

theorem Routed.onMessage (id : Nat) (m : SyncMessage) :
    Meets (Routed env base gone) (Excused env) (onMessage env.lib id m) := by
  cases m with
  | bundle bytes =>
      refine Meets.of_bind (fun e he => Excused.of_ne (Connection.getInfo_error he)) fun info _ => ?_
      exact Meets.bind (Routed.amend id (by exact fun _ => ⟨rfl, fun hc => hc⟩)) fun _ => Meets.pure _
  | greeting entries =>
      exact Meets.bind (Routed.amend id (by exact fun _ => ⟨rfl, fun hc => hc⟩)) fun _ => Meets.pure _
  | ack _ _ _ _ => exact Meets.pure _
  | signal _ => exact Meets.pure _
  | unset => exact Meets.pure _

/-- **A frame.**  One for a connection that is gone ends in `Finished` at once. -/
theorem Routed.receiveFrame (id : Nat) (auth : Option Nat) (frame : Frame) :
    Meets (Routed env base gone) (Excused env) (receiveFrame env id auth frame) := by
  unfold Server.receiveFrame
  refine Meets.get_bind fun s h => ?_
  by_cases hclosed : (s.heap id).closed = true
  · simp only [if_pos hclosed]
    exact ⟨h, Excused.finished⟩
  · simp only [if_neg hclosed]
    have hid : id ∉ gone := fun hin => hclosed (h.gone id hin).2.1
    cases frame with
    | request gink =>
        simp only
        split_ifs
        · exact ⟨h, Excused.finished⟩
        · exact Meets.bind (Routed.onRequest hid auth gink) (fun _ => Meets.pure _) s h
    | acceptConnection =>
        simp only
        split_ifs
        · exact ⟨h, Excused.finished⟩
        · refine Meets.bind (Routed.amend id (by exact fun _ => ⟨rfl, fun hc => hc⟩)) (fun _ => ?_) s h
          refine Meets.bind (Routed.connFunc hid) fun greeting => ?_
          exact Meets.bind (Routed.send id _) fun _ => Meets.pure _
        · exact Meets.bind (Routed.amend id (by exact fun _ => ⟨rfl, fun hc => hc⟩)) (fun _ => Meets.pure _) s h
    | rejectConnection =>
        exact Meets.bind (Routed.amend id (by exact fun _ => ⟨rfl, fun hc => hc⟩)) (fun _ => Meets.error Excused.finished) s h
    | closeConnection =>
        refine Meets.bind (Meets.recover (Routed.onConnection (Connection.Tame.socketSend _) id)
          fun e he => Meets.of ?_) (fun _ => Meets.bind (Routed.amend id (by exact fun _ => ⟨rfl, fun hc => hc⟩))
            fun _ => Meets.error Excused.finished) s h
        intro e' he'
        cases hpipe : decide (e = .brokenPipeError) with
        | true =>
            rw [hpipe] at he'
            exact absurd he' (by simp)
        | false =>
            rw [hpipe, ensure_false, Except.error.injEq] at he'
            exact he' ▸ Excused.of_ne he
    | text data => exact Meets.bind (Routed.socketSend id _) (fun _ => Meets.pure _) s h
    | ping => exact Meets.bind (Routed.socketSend id _) (fun _ => Meets.pure _) s h
    | pong => exact h
    | message m =>
        simp only
        split_ifs
        · exact ⟨h, Excused.finished⟩
        · exact Routed.onMessage id m s h

theorem Routed.sendBacklog (id : Nat) (ds : List Decomposition) :
    Meets (Routed env base gone) (Excused env) (sendBacklog env.lib id ds) := by
  induction ds with
  | nil => exact Meets.pure _
  | cons d rest ih =>
      exact Meets.bind (Routed.excused (Connection.Tame.sendBundle env.lib d) id) fun _ => ih

/-- The backlog, with the signal that ends it. -/
theorem Routed.answer (id : Nat) (store : σ) (limits : Option (Chain → Nat)) :
    Meets (Routed env base gone) (Excused env) (do
      let bundles ← Action.of (env.ops.getBundles store limits)
      Server.sendBacklog env.lib id bundles
      Server.onConnection id (Connection.send (.signal .initialBundlesSent))) := by
  refine Meets.of_bind (fun e he _ => Or.inr ⟨store, limits, he⟩) fun ds _ => ?_
  exact Meets.bind (Routed.sendBacklog id ds) fun _ => Routed.send id _

theorem Routed.relayThing (id : Nat) (clock : κ) (thing : Thing) :
    Meets (Routed env base gone) (Excused env) (relayThing env id clock thing) := by
  cases thing with
  | data d =>
      refine Meets.bind (Routed.receive d clock) fun _ => ?_
      exact Meets.of_bind (fun e he => Excused.of_ne (Connection.getInfo_error he))
        fun _ _ => Routed.send id _
  | greeting peer => exact Meets.get_bind fun s h => Routed.answer id s.store none s h
  | ack => exact Meets.pure _

theorem Routed.braidData (id : Nat) (clock : κ) (d : Decomposition) :
    Meets (Routed env base gone) (Excused env) (braidData env id clock d) := by
  unfold Server.braidData
  refine Meets.get_bind fun s h => ?_
  refine Meets.of_bind ?_ (fun braid _ => ?_) s h
  · intro e he
    cases hb : s.connectionBraid id with
    | none =>
        rw [hb] at he
        cases he
        exact Excused.finished
    | some braid =>
        rw [hb] at he
        exact absurd he (by simp)
  · refine Meets.of_bind (fun e he => Excused.of_ne (Connection.getInfo_error he)) fun info _ => ?_
    have hrest : Meets (Routed env base gone) (Excused env) (do
        let _ ← Server.receive env d clock
        Server.onConnection id (Connection.send info.asAcknowledgement)) :=
      Meets.bind (Routed.receive d clock) fun _ => Routed.send id _
    split_ifs
    · refine Meets.of_bind ?_ fun _ _ => Meets.bind (Routed.widen braid info.chain) fun _ => hrest
      intro e he
      cases hstart : decide (info.timestamp = info.chainStart) with
      | true =>
          rw [hstart] at he
          exact absurd he (by simp)
      | false =>
          rw [hstart] at he
          cases he
          exact Excused.finished
    · exact hrest

theorem Routed.braidThing (id : Nat) (clock : κ) (thing : Thing) :
    Meets (Routed env base gone) (Excused env) (braidThing env id clock thing) := by
  cases thing with
  | data d =>
      refine Meets.get_bind fun s h => ?_
      split_ifs
      · exact Routed.braidData id clock d s h
      · exact h
  | greeting peer =>
      refine Meets.get_bind fun s h => ?_
      split_ifs
      · refine Meets.of_bind ?_ (fun braid _ => Routed.answer id s.store _) s h
        intro e he
        cases hb : s.connectionBraid id with
        | none =>
            rw [hb] at he
            cases he
            exact Excused.finished
        | some braid =>
            rw [hb] at he
            exact absurd he (by simp)
      · exact h
  | ack => exact Meets.pure _

theorem Routed.onFrame (id : Nat) (auth : Option Nat) (frame : Frame) (clock : κ) :
    Meets (Routed env base gone) (Excused env) (onFrame env id auth frame clock) := by
  unfold Server.onFrame
  refine Meets.get_bind fun s h => ?_
  refine Meets.bind (Routed.receiveFrame id auth frame) (fun thing => ?_) s h
  cases thing with
  | none => exact Meets.pure _
  | some thing =>
      cases (s.heap id).owner with
      | relay => exact Routed.relayThing id clock thing
      | braidServer => exact Routed.braidThing id clock thing

/-! ## §6. Events. -/

/-- Fewer may be said to be gone. -/
theorem Routed.mono {few : Set Nat} (h : Routed env base gone s) (hsub : few ⊆ gone) :
    Routed env base few s :=
  ⟨h.consistent, h.created, h.owner, h.given, fun id hid => h.gone id (hsub hid)⟩

/-- What the select loop does when a relay's connection is done. -/
theorem Routed.finish_relay (h : Routed env base gone s) {id : Nat}
    (howner : (base.heap id).owner = .relay) :
    Fine (Routed env base gone) (Excused env) (finish id s) := by
  unfold Server.finish
  rw [Action.get_bind, h.owner id, howner]
  have hleft : Routed env base gone { s with connections := discard id s.connections } :=
    ⟨⟨h.consistent.chains, h.consistent.braids⟩, h.created, h.owner, h.given, h.gone⟩
  exact Routed.excused Connection.Tame.close id _ hleft

/-- And one of the braid server, which is gone from then on. -/
theorem Routed.finish_braid (h : Routed env base gone s) {id : Nat} (hmade : id ∈ base.created)
    (howner : (base.heap id).owner = .braidServer)
    (hfilled : ∀ braid, s.connectionBraid id = some braid → (s.braids braid).rows ≠ []) :
    Fine (Routed env base (insert id gone)) (Excused env) (finish id s) := by
  obtain ⟨hleft, hnone⟩ := h.disconnect id hfilled
  unfold Server.finish
  rw [Action.get_bind, h.owner id, howner]
  have hclose := Routed.excused Connection.Tame.close id _ hleft
  have hdisconnect : Server.disconnect id s = .ok ⟨⟩ (Action.endState (Server.disconnect id s)) :=
    rfl
  show Fine _ _ ((Server.disconnect id >>= fun _ => _) s)
  rw [Action.bind_of_ok hdisconnect]
  generalize Action.endState (Server.disconnect id s) = t at hleft hnone hclose
  -- closing the socket is the last that happens to the connection
  have hgone : ∀ s', s' = Action.endState (Server.onConnection id Connection.close t) →
      Routed env base gone s' → Routed env base (insert id gone) s' := by
    intro s' hs' hrouted
    refine ⟨hrouted.consistent, hrouted.created, hrouted.owner, hrouted.given, ?_⟩
    intro i hi
    rcases Set.mem_insert_iff.mp hi with rfl | hi
    · unfold Server.onConnection at hs'
      rw [Action.endState_within] at hs'
      subst hs'
      refine ⟨hmade, ?_, ?_⟩
      · show (Function.update t.heap i _ i).closed = true
        rw [Function.update_self]
        exact Connection.closed_close _
      · show t.connectionBraid i = none
        rw [hnone, Function.update_self]
    · exact hrouted.gone i hi
  cases hr : Server.onConnection id Connection.close t with
  | ok u s' =>
      rw [hr] at hclose hgone
      exact hgone s' rfl hclose
  | error e s' =>
      rw [hr] at hclose hgone
      exact ⟨hgone s' rfl hclose.1, hclose.2⟩

/-- The connections that the event is the end of. -/
def ended (env : ServerEnv σ κ) (s : Server σ) (e : Event κ) : Set Nat :=
  {id | ∃ t, Ends env s e id t}

/-- Whatever a fine run leaves behind may be said of it. -/
theorem Routed.rest {x : Action (Server σ) Unit} {few : Set Nat}
    (hx : Fine (Routed env base gone) (Excused env) (x s)) (hsub : few ⊆ gone) :
    Fine (Routed env base few) (Excused env) (x s) := by
  cases hr : x s with
  | ok a s' =>
      rw [hr] at hx
      exact hx.mono hsub
  | error e s' =>
      rw [hr] at hx
      exact ⟨hx.1.mono hsub, hx.2⟩

/-- A frame, with what the select loop makes of its exceptions. -/
theorem Routed.onReady (h : Routed env s gone s) {id : Nat} (auth : Option Nat) (frame : Frame)
    (clock : κ) (hmade : id ∈ s.created) (hfilled : EndsFilled env s (.frame id auth frame clock)) :
    Fine (Routed env s (gone ∪ ended env s (.frame id auth frame clock))) (Excused env)
      (onReady env id auth frame clock s) := by
  have hframe := Routed.onFrame id auth frame clock s h
  have hends : ∀ i t, Ends env s (.frame id auth frame clock) i t →
      i = id ∧ (s.heap id).owner = .braidServer ∧
        Server.onFrame env id auth frame clock s = .error .finished t := by
    intro i t hi
    cases hi with
    | frame _ _ _ _ _ _ howner hfinished => exact ⟨rfl, howner, hfinished⟩
  -- nobody is gone unless the frame ends in `Finished`
  have hnobody : (∀ t, (s.heap id).owner = .braidServer →
      Server.onFrame env id auth frame clock s ≠ .error .finished t) →
      gone ∪ ended env s (.frame id auth frame clock) ⊆ gone := by
    intro hnot i hi
    rcases hi with hi | hi
    · exact hi
    · obtain ⟨t, ht⟩ := hi
      obtain ⟨-, howner, hfinished⟩ := hends i t ht
      exact absurd hfinished (hnot t howner)
  rw [onReady_eq]
  split_ifs with hskip
  · apply Routed.mono h
    apply hnobody
    intro t howner
    rw [hskip.1] at howner
    exact absurd howner (by decide)
  · cases hr : Server.onFrame env id auth frame clock s with
    | ok u t =>
        rw [Action.recover_ok hr]
        rw [hr] at hframe
        apply Routed.mono hframe
        apply hnobody
        intro t' _ ht'
        rw [hr] at ht'
        exact absurd ht' (by simp)
    | error e t =>
        rw [Action.recover_error hr]
        rw [hr] at hframe
        by_cases he : e = .finished
        · subst he
          rw [if_pos rfl]
          cases howner : (s.heap id).owner with
          | relay =>
              apply Routed.rest (hframe.1.finish_relay howner)
              apply hnobody
              intro t' howner'
              rw [howner] at howner'
              exact absurd howner' (by decide)
          | braidServer =>
              have hend : Ends env s (.frame id auth frame clock) id t :=
                .frame id auth frame clock t hmade howner hr
              apply Routed.rest (hframe.1.finish_braid hmade howner
                fun braid hb => hfilled id t braid hend hb)
              intro i hi
              rcases hi with hi | hi
              · exact Set.mem_insert_of_mem _ hi
              · obtain ⟨t', ht'⟩ := hi
                exact Set.mem_insert_iff.mpr (Or.inl (hends i t' ht').1)
        · rw [if_neg he]
          refine ⟨hframe.1.mono (hnobody ?_), hframe.2⟩
          intro t' _ ht'
          rw [hr, EStateM.Result.error.injEq] at ht'
          exact he ht'.1

theorem ended_nothing {e : Event κ} (h : ∀ id t, ¬ Ends env s e id t) : gone ∪ ended env s e ⊆ gone := by
  intro i hi
  rcases hi with hi | hi
  · exact hi
  · obtain ⟨t, ht⟩ := hi
    exact absurd ht (h i t)

/-- A new connection has no braid yet. -/
theorem Routed.connect (h : Routed env s gone s) (id : Nat) (owner : Owner) (isClient auth : Bool) :
    Routed env (s.connect id owner isClient auth) gone (s.connect id owner isClient auth) := by
  unfold Server.connect
  by_cases hmade : id ∈ s.created
  · rw [if_pos hmade]
    exact h
  · rw [if_neg hmade]
    refine ⟨⟨h.consistent.chains, h.consistent.braids⟩, rfl, fun _ => rfl, h.given, ?_⟩
    intro i hi
    obtain ⟨hold, hclosed, hnone⟩ := h.gone i hi
    have hne : i ≠ id := fun heq => hmade (heq ▸ hold)
    refine ⟨List.mem_cons_of_mem _ hold, ?_, hnone⟩
    show (Function.update s.heap id _ i).closed = true
    rw [Function.update_of_ne hne]
    exact hclosed

/-- The order in which a set is iterated is no part of what it holds. -/
theorem Routed.reorder (h : Routed env s gone s) {connections : List Nat} {chain : Chain}
    {ids : List Nat} (hperm : ids.Perm (s.chainConnections chain)) :
    Routed env s gone { s with
      connections, chainConnections := Function.update s.chainConnections chain ids } := by
  refine ⟨⟨?_, h.consistent.braids⟩, h.created, h.owner, h.given, h.gone⟩
  intro c i
  show i ∈ Function.update s.chainConnections chain ids c ↔ _
  by_cases hc : c = chain
  · subst hc
    rw [Function.update_self, hperm.mem_iff]
    exact h.consistent.chains c i
  · rw [Function.update_of_ne hc]
    exact h.consistent.chains c i

/-- **One event**: the tables agree after it, it raises no `KeyError` of the broadcast, and
the connection it is the end of is gone. -/
theorem Routed.handle (h : Routed env s gone s) (e : Event κ) (hfilled : EndsFilled env s e) :
    Fine (fun s' => Routed env s' (gone ∪ ended env s e) s') (Excused env)
      (Server.handle env e s) := by
  have hlater : ∀ {gone' : Set Nat} {r : EStateM.Result Error (Server σ) Unit},
      Fine (Routed env s gone') (Excused env) r →
      Fine (fun s' => Routed env s' gone' s') (Excused env) r := by
    intro gone' r hr
    have hrebase : ∀ s', Routed env s gone' s' → Routed env s' gone' s' := by
      intro s' h'
      refine ⟨h'.consistent, rfl, fun _ => rfl, h'.given, fun i hi => ?_⟩
      rw [h'.created]
      exact h'.gone i hi
    cases r with
    | ok u s' => exact hrebase s' hr
    | error e s' => exact ⟨hrebase s' hr.1, hr.2⟩
  cases e with
  | connect id owner isClient auth =>
      exact (h.connect id owner isClient auth).mono (ended_nothing (by rintro _ _ ⟨⟩))
  | frame id auth frame clock =>
      apply hlater
      show Fine _ _ ((if id ∈ s.created then Server.onReady env id auth frame clock else pure ()) s)
      split_ifs with hmade
      · exact h.onReady auth frame clock hmade hfilled
      · refine h.mono (ended_nothing ?_)
        intro i t hi
        cases hi with
        | frame _ _ _ _ _ hin _ _ => exact hmade hin
  | hangUp id =>
      apply hlater
      show Fine _ _ ((if id ∈ s.created then (do
        Server.amend id fun c => { c with wsClosed := true }
        Server.finish id) else pure ()) s)
      split_ifs with hmade
      · have hshut := Routed.amend (E := Excused env) id (f := fun c => { c with wsClosed := true })
          (by exact fun _ => ⟨rfl, fun hc => hc⟩) s h
        show Fine _ _ (Server.finish id _)
        cases howner : (s.heap id).owner with
        | relay =>
            apply Routed.rest (Routed.finish_relay hshut howner)
            apply ended_nothing
            intro i t hi
            cases hi with
            | hangUp _ _ howner' =>
                rw [howner] at howner'
                exact absurd howner' (by decide)
        | braidServer =>
            have hend : Ends env s (.hangUp id) id s := .hangUp id hmade howner
            apply Routed.rest (Routed.finish_braid hshut hmade howner
              fun braid hb => hfilled id s braid hend hb)
            intro i hi
            rcases hi with hi | hi
            · exact Set.mem_insert_of_mem _ hi
            · obtain ⟨t, ht⟩ := hi
              cases ht with
              | hangUp _ _ _ => exact Set.mem_insert _ _
      · refine h.mono (ended_nothing ?_)
        intro i t hi
        cases hi with
        | hangUp _ hin _ => exact hmade hin
  | receive d clock =>
      apply hlater
      refine @Routed.rest _ _ _ _ _ _ (Server.handle env (.receive d clock)) _ ?_
        (ended_nothing (by rintro _ _ ⟨⟩))
      exact Meets.bind (Routed.receive d clock) (fun _ => Meets.pure _) s h
  | socket id socket =>
      apply hlater
      refine @Routed.rest _ _ _ _ _ _ (Server.handle env (.socket id socket)) _ ?_
        (ended_nothing (by rintro _ _ ⟨⟩))
      exact Routed.amend id (f := fun c => { c with socket })
        (by exact fun _ => ⟨rfl, fun hc => hc⟩) s h
  | reorder connections chain ids =>
      apply hlater
      show Routed env s _ (if connections.Perm s.connections ∧ ids.Perm (s.chainConnections chain) then
        { s with connections, chainConnections := Function.update s.chainConnections chain ids }
        else s)
      apply Routed.mono _ (ended_nothing (by rintro _ _ ⟨⟩))
      split_ifs with hperm
      · exact h.reorder hperm.2
      · exact h

/-! ## §7. Whole runs. -/

/-- The event ends a connection in the run of the events. -/
def EndedIn (env : ServerEnv σ κ) (s : Server σ) (events : List (Event κ)) (id : Nat) : Prop :=
  ∃ before e after t, events = before ++ e :: after ∧
    Ends env (Machine.run (step env) s before) e id t

/-- What a run from a new server has come to. -/
theorem run_routed (store : σ) (braids : Muid → Table Chain Limit) (events : List (Event κ))
    (h : Machine.AllSteps (step env) (EndsFilled env) { store, braids } events) :
    Routed env (Machine.run (step env) { store, braids } events)
      {id | EndedIn env { store, braids } events id}
      (Machine.run (step env) { store, braids } events) := by
  refine Machine.run_history (I := fun l s => Routed env s {id | EndedIn env { store, braids } l id} s)
    ?_ ?_ events h
  · refine ⟨⟨by simp, by simp⟩, rfl, fun _ => rfl, by simp, ?_⟩
    intro id hid
    obtain ⟨before, e, after, t, heq, -⟩ := hid
    exact absurd heq (by simp)
  · intro l e hl hfilled
    refine (hl.handle e hfilled).endState.mono ?_
    -- the connection ended before the event, or by it
    intro id hid
    obtain ⟨before, e', after, t, heq, hends⟩ := hid
    rcases List.eq_nil_or_concat after with rfl | ⟨rest, last, rfl⟩
    · obtain ⟨rfl, hlast⟩ := List.append_inj' heq rfl
      rw [List.cons.injEq] at hlast
      obtain ⟨rfl, -⟩ := hlast
      exact Or.inr ⟨t, hends⟩
    · refine Or.inl ⟨before, e', rest, t, ?_, hends⟩
      have hcut : l ++ [e] = (before ++ e' :: rest) ++ [last] := by simp [heq]
      exact (List.append_inj' hcut rfl).1

/-- A braid server whose clients all have the same braid. -/
def routingEnv : ServerEnv Memory.Store (Nat → Int) where
  lib := sampleExternals [startingBundle 5 7 []]
  ops := Memory.bundleStore (sampleExternals [startingBundle 5 7 []])
  braidFunc _ := some ⟨1, 2, 3⟩

/-- A client connects, is let in and pushes the start of a chain. -/
def pushingFirst (id : Nat) : List (Event (Nat → Int)) :=
  [.connect id .braidServer false true, .frame id (some authFull) (.request true) fun _ => 0,
    .frame id none (.message (.bundle (sampleBundle 0).bundleBytes)) fun _ => 0]

/-- A frame that does not end in `Finished` ends no connection. -/
theorem endsFilled_of_raised {id : Nat} {auth : Option Nat} {frame : Frame} {clock : κ}
    (h : Action.raised (onFrame env id auth frame clock s) ≠ some .finished) :
    EndsFilled env s (.frame id auth frame clock) := by
  intro i t braid hends
  cases hends with
  | frame _ _ _ _ _ _ _ hfinished => exact absurd (Action.raised_eq_some.mpr ⟨t, hfinished⟩) h

/-- A client is let in and leaves at once, its braid being empty; another one pushes. -/
def leavingEarly : List (Event (Nat → Int)) :=
  [.connect 0 .braidServer false true, .frame 0 (some authFull) (.request true) fun _ => 0,
    .hangUp 0] ++ pushingFirst 1

end Server

end Gink
