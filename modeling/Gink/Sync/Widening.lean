/-
  Gink.Sync.Widening — whose chains a braid comes to have.

  A bundle pushed through a braid that has no such chain, and that starts one, adds the
  chain to the braid before anything else is looked at: whether the bundle is signed,
  whether it is new, whether it is stored.  Runs in which such a bundle always turns out
  to be new and good give a braid no chain but those it had and those begun through it.
-/
import Gink.Sync.Traffic
import Gink.Sync.ChainStore
import Gink.Machine.Run
import Gink.Proto.Sample

namespace Gink

namespace Server

variable {σ κ : Type} {env : ServerEnv σ κ} {s : Server σ}

/-! ## §1. The law. -/

/-- The event pushes the genuine start bundle of `chain` through the braid: the braid is
that of the connection, the bundle starts the chain and is signed with the key it brings,
and the store, which had no bundle of the chain, has it from now on. -/
structure Begins (env : ServerEnv σ κ) (cs : ChainStore env.lib env.ops) (s : Server σ)
    (e : Event κ) (braid : Muid) (chain : Chain) : Prop where
  exists_push : ∃ id a builder, Arrives env s e a ∧ a.pusher = some id ∧
    s.connectionBraid id = some braid ∧ a.bundle.getBuilder env.lib = .ok builder ∧
    a.info.chain = chain ∧ builder.timestamp = builder.chainStart ∧
    env.lib.verify builder.verifyKey a.bundle.bundleBytes = true ∧
    (∀ d ∈ cs.held s.store, inChain env.lib chain d = false) ∧
    a.bundle ∈ cs.held (step env s e).store

/-- Whenever a chain is added to a braid, it is begun there. -/
def WidenedByBeginning (env : ServerEnv σ κ) (cs : ChainStore env.lib env.ops) (s : Server σ)
    (e : Event κ) : Prop :=
  ∀ braid chain, (s.braids braid).get? chain = none →
    ((step env s e).braids braid).get? chain ≠ none → Begins env cs s e braid chain

/-- Somewhere in the run the chain is begun through the braid. -/
def Begun (env : ServerEnv σ κ) (cs : ChainStore env.lib env.ops) (s : Server σ)
    (events : List (Event κ)) (braid : Muid) (chain : Chain) : Prop :=
  ∃ before e after, events = before ++ e :: after ∧
    Begins env cs (Machine.run (step env) s before) e braid chain

/-- The chain was in the braid from the start, or begun through it. -/
def Rightful (env : ServerEnv σ κ) (cs : ChainStore env.lib env.ops) (s : Server σ)
    (events : List (Event κ)) (braid : Muid) (chain : Chain) : Prop :=
  (s.braids braid).get? chain ≠ none ∨ Begun env cs s events braid chain

/-- A pushed bundle that would widen the braid is valid and not timed 0, it is the first of
its chain, and `apply_bundle` does not raise. -/
structure PushesWell (env : ServerEnv σ κ) (cs : ChainStore env.lib env.ops) (s : Server σ)
    (a : Arrival κ) : Prop where
  valid : ∃ builder, a.bundle.getBuilder env.lib = .ok builder ∧ validateBundle builder = .ok ()
  timed : a.info.timestamp ≠ 0
  first : ∀ d ∈ cs.held s.store, inChain env.lib a.info.chain d = false
  returns : ∀ e, (env.ops.applyBundle s.store a.bundle a.clock).2 ≠ .error e

/-- Bundles arrive in time, and those that would widen a braid are pushed well. -/
structure Careful (env : ServerEnv σ κ) (cs : ChainStore env.lib env.ops) (s : Server σ)
    (e : Event κ) : Prop where
  timely : ∀ a, Arrives env s e a → cs.Timely s.store a.clock
  pushes : ∀ id a braid, Arrives env s e a → a.pusher = some id →
    s.connectionBraid id = some braid → s.widens braid a.info → PushesWell env cs s a

/-! ## §2. One step. -/

/-- A chain that a bundle adds to a braid. -/
theorem widens_of_braidsAfter {a : Arrival κ} {braid : Muid} {chain : Chain}
    (hbefore : (s.braids braid).get? chain = none)
    (hafter : (s.braidsAfter a braid).get? chain ≠ none) :
    ∃ id, a.pusher = some id ∧ s.connectionBraid id = some braid ∧ s.widens braid a.info ∧
      a.info.chain = chain := by
  unfold braidsAfter at hafter
  rcases Option.eq_none_or_eq_some (a.pusher.bind s.connectionBraid) with hb | ⟨b, hb⟩
  · rw [hb] at hafter
    exact absurd hbefore hafter
  · rw [hb] at hafter
    obtain ⟨id, hid, hbraid⟩ := Option.bind_eq_some_iff.mp hb
    by_cases hw : s.widens b a.info
    · simp only [if_pos hw] at hafter
      by_cases hsame : braid = b
      · subst hsame
        rw [Function.update_self, Table.get?_put] at hafter
        by_cases hc : chain = a.info.chain
        · exact ⟨id, hid, hbraid, hw, hc.symm⟩
        · rw [if_neg hc] at hafter
          exact absurd hbefore hafter
      · rw [Function.update_of_ne hsame] at hafter
        exact absurd hbefore hafter
    · simp only [if_neg hw] at hafter
      exact absurd hbefore hafter

/-- **A well pushed bundle begins its chain.** -/
theorem begins_of_pushesWell {cs : ChainStore env.lib env.ops} (hvalid : cs.Valid s.store)
    {e : Event κ} {a : Arrival κ} {id : Nat} {braid : Muid} (harrives : Arrives env s e a)
    (hpusher : a.pusher = some id) (hbraid : s.connectionBraid id = some braid)
    (hw : s.widens braid a.info) (hwell : PushesWell env cs s a)
    (htimely : cs.Timely s.store a.clock)
    (hstore : (step env s e).store = storeAfter env s a) :
    Begins env cs s e braid a.info.chain := by
  obtain ⟨builder, hb, hv⟩ := hwell.valid
  have hinfo : a.info = .ofBuilder builder (env.lib.digest a.bundle.bundleBytes) := by
    have hd := harrives.getInfo
    unfold Decomposition.getInfo at hd
    rw [hb] at hd
    exact (Except.ok.inj hd).symm
  have hstart : builder.timestamp = builder.chainStart := by
    have h := hw.2
    rw [hinfo] at h
    exact h
  have hnone : cs.last s.store a.info.chain = none := (cs.last_eq_none hvalid).mpr hwell.first
  -- the store neither raises nor reports a duplicate
  have hnew : (env.ops.applyBundle s.store a.bundle a.clock).2 = .ok true := by
    cases hr : (env.ops.applyBundle s.store a.bundle a.clock).2 with
    | error e => exact absurd hr (hwell.returns e)
    | ok needed =>
        cases needed with
        | true => rfl
        | false =>
            exfalso
            obtain ⟨builder', hb', hn⟩ := cs.refused s.store a.bundle a.clock hr
            rw [hb, Except.ok.injEq] at hb'
            subst hb'
            rw [← hinfo, hnone] at hn
            unfold isNeeded at hn
            simp only [Option.any_none, Bool.false_eq_true, if_false] at hn
            split_ifs at hn with h1
            · have hzero : a.info.timestamp ≤ 0 := h1
              exact hwell.timed (le_antisymm hzero (Fin.zero_le _))
            · exact absurd hn (by simp)
  have hafter : storeAfter env s a = (env.ops.applyBundle s.store a.bundle a.clock).1 := by
    have hchecked : (a.bundle.getBuilder env.lib >>= validateBundle) = .ok () := by
      rw [hb]
      exact hv
    unfold storeAfter
    simp only [hchecked]
  refine ⟨id, a, builder, harrives, hpusher, hbraid, hb, rfl, hstart,
    cs.verified s.store a.bundle a.clock builder hnew hb hstart.symm, hwell.first, ?_⟩
  rw [hstore, hafter]
  rcases cs.step s.store a.bundle a.clock hvalid htimely with ⟨-, -, hne⟩ | htook
  · exact absurd hnew hne
  · exact (htook.held a.bundle).mpr (Or.inr rfl)

/-- A careful step adds chains to braids by beginning them. -/
theorem Careful.widenedByBeginning {cs : ChainStore env.lib env.ops} (hvalid : cs.Valid s.store)
    {e : Event κ} (h : Careful env cs s e) : WidenedByBeginning env cs s e := by
  intro braid chain hbefore hafter
  rcases step_cases env s e with ⟨cause, hcomes, hwent⟩ | ⟨id, hopened⟩
  · cases cause with
    | none =>
        rw [hwent.state.2] at hafter
        exact absurd hbefore hafter
    | some a =>
        obtain ⟨hstore, hbraids⟩ := hwent.state
        rw [hbraids] at hafter
        obtain ⟨id, hpusher, hbraid, hw, rfl⟩ := widens_of_braidsAfter hbefore hafter
        have harrives := hcomes a rfl
        exact begins_of_pushesWell hvalid harrives hpusher hbraid hw
          (h.pushes id a braid harrives hpusher hbraid hw) (h.timely a harrives) hstore
  · rw [hopened.braids] at hafter
    exact absurd hbefore hafter

/-! ## §3. Whole runs. -/

/-- What a careful run keeps, with its past. -/
structure WideningInv (env : ServerEnv σ κ) (cs : ChainStore env.lib env.ops) (s₀ : Server σ)
    (events : List (Event κ)) (s : Server σ) : Prop where
  valid : cs.Valid s.store
  owned : ∀ id ∈ s.connections, (s.heap id).owner = .relay ∧ id ∈ s.created
  given : ∀ id braid, s.connectionBraid id = some braid → env.braidFunc id = some braid
  chains : ∀ braid chain, (s.braids braid).get? chain ≠ none →
    Rightful env cs s₀ events braid chain
  sent : ∀ id braid (d : Decomposition) (info : BundleInfo), (s.heap id).owner = .braidServer → env.braidFunc id = some braid →
    Frame.message (.bundle d.bundleBytes) ∈ (s.heap id).sent → d.getInfo env.lib = .ok info →
    Rightful env cs s₀ events braid info.chain

theorem Rightful.extend {cs : ChainStore env.lib env.ops} {events : List (Event κ)} {braid : Muid}
    {chain : Chain} (h : Rightful env cs s events braid chain) (e : Event κ) :
    Rightful env cs s (events ++ [e]) braid chain := by
  rcases h with h | ⟨before, e', after, heq, h⟩
  · exact Or.inl h
  · exact Or.inr ⟨before, e', after ++ [e], by simp [heq], h⟩

theorem valid_storeAfter {cs : ChainStore env.lib env.ops} (hvalid : cs.Valid s.store)
    {a : Arrival κ} (htimely : cs.Timely s.store a.clock) : cs.Valid (storeAfter env s a) := by
  unfold storeAfter
  cases a.bundle.getBuilder env.lib >>= validateBundle with
  | ok _ => exact cs.valid _ _ _ hvalid htimely
  | error _ => exact hvalid

/-- A careful step leaves the chains of the store in order. -/
theorem Careful.valid {cs : ChainStore env.lib env.ops} (hvalid : cs.Valid s.store) {e : Event κ}
    (h : Careful env cs s e) : cs.Valid (step env s e).store := by
  rcases step_cases env s e with ⟨cause, hcomes, hwent⟩ | ⟨id, hopened⟩
  · cases cause with
    | none =>
        rw [hwent.state.1]
        exact hvalid
    | some a =>
        rw [hwent.state.1]
        exact valid_storeAfter hvalid (h.timely a (hcomes a rfl))
  · rw [hopened.store]
    exact hvalid

section
variable {cs : ChainStore env.lib env.ops} {s₀ : Server σ} {events : List (Event κ)}

/-- A chain that a braid has after a careful step. -/
theorem WideningInv.rightful (h : WideningInv env cs s₀ events (Machine.run (step env) s₀ events))
    {e : Event κ} (hcareful : Careful env cs (Machine.run (step env) s₀ events) e) {a : Arrival κ}
    (harrives : Arrives env (Machine.run (step env) s₀ events) e a)
    (hstore : (step env (Machine.run (step env) s₀ events) e).store
      = storeAfter env (Machine.run (step env) s₀ events) a) {braid : Muid} {chain : Chain}
    (hafter : ((Machine.run (step env) s₀ events).braidsAfter a braid).get? chain ≠ none) :
    Rightful env cs s₀ (events ++ [e]) braid chain := by
  by_cases hbefore : ((Machine.run (step env) s₀ events).braids braid).get? chain = none
  · obtain ⟨id, hpusher, hbraid, hw, rfl⟩ := widens_of_braidsAfter hbefore hafter
    refine Or.inr ⟨events, e, [], by simp, ?_⟩
    exact begins_of_pushesWell h.valid harrives hpusher hbraid hw
      (hcareful.pushes id a braid harrives hpusher hbraid hw) (hcareful.timely a harrives) hstore
  · exact (h.chains braid chain hbefore).extend e

/-- The backlog of a braid holds bundles of its chains only. -/
theorem get?_ne_none_of_backlog (hvalid : cs.Valid s.store) {braid : Muid}
    {ds : List Decomposition} (hds : env.ops.getBundles s.store (some (s.limitTo braid)) = .ok ds)
    {d : Decomposition} (hd : d ∈ ds) {info : BundleInfo} (hi : d.getInfo env.lib = .ok info) :
    (s.braids braid).get? info.chain ≠ none := by
  rw [cs.getBundles s.store hvalid, Except.ok.injEq] at hds
  subst hds
  obtain ⟨hheld, hlimit⟩ := List.mem_filter.mp hd
  have hpos := cs.positive s.store hvalid d hheld info hi
  have hle : info.timestamp.val ≤ s.limitTo braid info.chain := by
    simp only [Option.all_some] at hlimit
    unfold withinLimit at hlimit
    rw [hi] at hlimit
    simpa [Except.toOption] using hlimit
  intro hnone
  unfold limitTo at hle
  rw [hnone] at hle
  simp only [Option.map_none, Option.getD_none] at hle
  omega

theorem WideningInv.step
    (h : WideningInv env cs s₀ events (Machine.run (Server.step env) s₀ events)) {e : Event κ}
    (hcareful : Careful env cs (Machine.run (Server.step env) s₀ events) e) :
    WideningInv env cs s₀ (events ++ [e])
      (Server.step env (Machine.run (Server.step env) s₀ events) e) := by
  have hchains := hcareful.widenedByBeginning h.valid
  have hvalid := hcareful.valid h.valid
  have hcases := step_cases env (Machine.run (Server.step env) s₀ events) e
  generalize hs : Machine.run (Server.step env) s₀ events = s at *
  refine ⟨hvalid, ?_, ?_, ?_, ?_⟩
  · intro id hid
    rcases hcases with ⟨cause, hcomes, hwent⟩ | ⟨i, hopened⟩
    · have hmoved : s.Moved env (Server.step env s e).audience := by
        cases cause <;> exact hwent.audience
      rw [(hwent.heap id).owner, hwent.created]
      exact h.owned id (hmoved.1 id hid)
    · rw [hopened.created]
      rcases hopened.connections id hid with hold | ⟨rfl, howner⟩
      · have hne : id ≠ i := by
          rintro rfl
          exact hopened.new (h.owned id hold).2
        rw [hopened.others id hne]
        exact ⟨(h.owned id hold).1, List.mem_cons_of_mem _ (h.owned id hold).2⟩
      · exact ⟨howner, List.mem_cons_self⟩
  · intro id braid hbraid
    rcases hcases with ⟨cause, hcomes, hwent⟩ | ⟨i, hopened⟩
    · have hmoved : s.Moved env (Server.step env s e).audience := by
        cases cause <;> exact hwent.audience
      rcases hmoved.2 id braid hbraid with hold | hfunc
      · exact h.given id braid hold
      · exact hfunc
    · rw [hopened.connectionBraid] at hbraid
      exact h.given id braid hbraid
  · intro braid chain hafter
    by_cases hbefore : (s.braids braid).get? chain = none
    · refine Or.inr ⟨events, e, [], by simp, ?_⟩
      rw [hs]
      exact hchains braid chain hbefore hafter
    · exact (h.chains braid chain hbefore).extend e
  · intro id braid d info howner hfunc hsent hi
    rcases hcases with ⟨cause, hcomes, hwent⟩ | ⟨i, hopened⟩
    · rw [(hwent.heap id).owner] at howner
      rcases (hwent.heap id).sent _ hsent rfl with hold | ⟨d', hd', hsends⟩
      · exact (h.sent id braid d info howner hfunc hold hi).extend e
      · have hsame : d' = d := by
          cases d
          cases d'
          simpa using hd'.symm
        subst hsame
        cases cause with
        | none =>
            cases hsends with
            | relay _ hrelay =>
                rw [hrelay] at howner
                exact absurd howner (by simp)
            | braid _ _ hbraid hds hmem =>
                have hgiven := h.given id _ hbraid
                rw [hfunc, Option.some.injEq] at hgiven
                subst hgiven
                exact (h.chains braid info.chain
                  (get?_ne_none_of_backlog h.valid hds hmem hi)).extend _
        | some a =>
            obtain ⟨rfl, hlive⟩ := hsends
            have harrives := hcomes a rfl
            have hinfo := harrives.getInfo
            rw [hi, Except.ok.injEq] at hinfo
            subst hinfo
            rcases hlive.hears with hpeer | ⟨b, hbraid, hin⟩
            · rw [(h.owned id hpeer).1] at howner
              exact absurd howner (by simp)
            · have hgiven := h.given id b hbraid
              rw [hfunc, Option.some.injEq] at hgiven
              subst hgiven
              subst hs
              apply h.rightful hcareful harrives hwent.state.1
              intro hnone
              rw [hnone] at hin
              exact absurd hin (by simp)
    · by_cases hid : id = i
      · have := hopened.fresh _ (hid ▸ hsent)
        exact absurd this (by simp [Frame.isBundle])
      · rw [hopened.others id hid] at howner hsent
        exact (h.sent id braid d info howner hfunc hsent hi).extend e

end

/-- **A braid has the chains it was given and those begun through it**, and a connection of
a braid server is sent bundles of no others, in every run from a store with its chains in
order whose bundles arrive in time and whose widening pushes are good. -/
theorem braids_widened_by_beginning (env : ServerEnv σ κ) (cs : ChainStore env.lib env.ops)
    (store : σ) (hstore : cs.Valid store) (braids : Muid → Table Chain Limit)
    (events : List (Event κ))
    (hcareful : Machine.AllSteps (step env) (Careful env cs) { store, braids } events) :
    Machine.AllSteps (step env) (WidenedByBeginning env cs) { store, braids } events ∧
    ∀ id braid (d : Decomposition) (info : BundleInfo),
      ((Machine.run (step env) { store, braids } events).heap id).owner = .braidServer →
      env.braidFunc id = some braid →
      Frame.message (.bundle d.bundleBytes)
        ∈ ((Machine.run (step env) { store, braids } events).heap id).sent →
      d.getInfo env.lib = .ok info →
      Rightful env cs { store, braids } events braid info.chain := by
  have hstart : WideningInv env cs { store, braids } [] { store, braids } := by
    refine ⟨hstore, by simp, by simp, fun _ _ h => Or.inl h, ?_⟩
    intro id braid d info howner
    exact absurd howner (by simp)
  refine ⟨?_, ?_⟩
  · exact Machine.allSteps_of_invariant (I := fun s => cs.Valid s.store) (p := Careful env cs)
      (fun s e hs he => he.valid hs) (fun s e hs he => he.widenedByBeginning hs) events _ hstore
      hcareful
  · exact (Machine.run_history hstart (fun l e h he => h.step he) events hcareful).sent

/-! ## §4. A braid and somebody else's chain. -/

/-- Message 0 starts a chain, and so does message 1, but its signature does not verify. -/
def wideningLib : Externals :=
  { sampleExternals [startingBundle 5 7 [], { startingBundle 5 7 [] with identity := "somebody else" }] with
    verify := fun _ data => decide (data.getLastD 0 = 0) }

/-- A braid server over a `MemoryStore`. -/
def wideningEnv : ServerEnv Memory.Store (Nat → Int) where
  lib := wideningLib
  ops := Memory.bundleStore wideningLib
  braidFunc _ := some ⟨1, 2, 3⟩

/-- A client that may do everything connects and pushes bundle `n`. -/
def pushingStart (n : Byte) : List (Event (Nat → Int)) :=
  [.connect 0 .braidServer false true, .frame 0 (some authFull) (.request true) fun _ => 0,
    .frame 0 none (.message (.bundle (sampleBundle n).bundleBytes)) fun _ => 0]

/-- Events that bring no bundle are careful. -/
theorem careful_of_quiet (s : Server Memory.Store) (e : Event (Nat → Int))
    (h : ∀ a, ¬ Arrives wideningEnv s e a) : Careful wideningEnv (Memory.chainStore wideningLib) s e :=
  ⟨fun a ha => absurd ha (h a), fun _ a _ ha => absurd ha (h a)⟩

/-- The client begins a chain through its empty braid. -/
theorem braids_widened_by_beginning_sample :
    Machine.AllSteps (step wideningEnv) (WidenedByBeginning wideningEnv (Memory.chainStore wideningLib))
      { store := {}, braids := fun _ => ∅ } (pushingStart 0) := by
  refine (braids_widened_by_beginning wideningEnv (Memory.chainStore wideningLib) {}
    (Memory.Reachable.empty [] true).kept (fun _ => ∅) (pushingStart 0)
    ⟨?_, ?_, ?_, trivial⟩).1
  · exact careful_of_quiet _ _ fun a ha => by cases ha
  · exact careful_of_quiet _ _ fun a ha => by cases ha
  · refine ⟨fun _ _ => trivial, ?_⟩
    intro id a braid harrives hpusher hbraid hw
    cases harrives with
    | relay _ _ howner =>
        have hother : ((step wideningEnv (step wideningEnv { store := {}, braids := fun _ => ∅ }
          (.connect 0 .braidServer false true)) (.frame 0 (some authFull) (.request true)
            fun _ => 0)).heap 0).owner = .braidServer := by decide +kernel
        rw [hother] at howner
        exact absurd howner (by simp)
    | braid hd _ _ _ =>
        have hinfo : (sampleBundle 0).getInfo wideningLib = .ok (.ofBuilder (startingBundle 5 7 [])
            (wideningLib.digest (sampleBundle 0).bundleBytes)) := by decide +kernel
        have hsame := hd.symm.trans hinfo
        rw [Except.ok.injEq] at hsame
        subst hsame
        have hempty : (step wideningEnv (step wideningEnv { store := {}, braids := fun _ => ∅ }
          (.connect 0 .braidServer false true)) (.frame 0 (some authFull) (.request true)
            fun _ => 0)).store.bundles.rows = [] := by decide +kernel
        refine ⟨⟨startingBundle 5 7 [], rfl, by decide +kernel⟩, by decide +kernel, ?_, ?_⟩
        · intro d hd
          obtain ⟨r, hr, -⟩ := List.mem_map.mp hd
          rw [hempty] at hr
          exact absurd hr List.not_mem_nil
        · intro e
          have htaken : (wideningEnv.ops.applyBundle (step wideningEnv (step wideningEnv
              { store := {}, braids := fun _ => ∅ } (.connect 0 .braidServer false true))
              (.frame 0 (some authFull) (.request true) fun _ => 0)).store (sampleBundle 0)
              fun _ => 0).2 = .ok true := by decide +kernel
          intro herror
          exact absurd (htaken.symm.trans herror) (by simp)

/-- Somebody else's chain is stored; then the client pushes a bundle that claims to start
it, and greets. -/
def takingOver : List (Event (Nat → Int)) :=
  .receive (sampleBundle 0) (fun _ => 0) :: pushingStart 1 ++
    [.frame 0 none (.message (.greeting [])) fun _ => 0]

/-- **A braid is widened to a chain of somebody else** by a bundle with a bad signature: it
is taken for a duplicate before its signature is looked at.  The client is then sent the
chain. -/
theorem braid_widened_without_beginning :
    ¬ Machine.AllSteps (step wideningEnv)
      (WidenedByBeginning wideningEnv (Memory.chainStore wideningLib))
      { store := {}, braids := fun _ => ∅ } takingOver ∧
    wideningLib.verify sampleKey (sampleBundle 1).bundleBytes = false ∧
    Frame.message (.bundle (sampleBundle 0).bundleBytes) ∈ ((Machine.run (step wideningEnv)
      { store := {}, braids := fun _ => ∅ } takingOver).heap 0).sent := by
  refine ⟨?_, by decide +kernel, by decide +kernel⟩
  intro h
  obtain ⟨id, a, builder, -, -, -, -, -, -, -, hfirst, -⟩ :=
    (h.2.2.2.1 ⟨1, 2, 3⟩ ⟨7, 5⟩ (by decide +kernel) (by decide +kernel)).exists_push
  have hheld : sampleBundle 0 ∈ (Memory.chainStore wideningLib).held (Machine.run (step wideningEnv)
      { store := {}, braids := fun _ => ∅ } (takingOver.take 3)).store :=
    List.mem_map.mpr ⟨(⟨5, 7, 5⟩, .ofBuilder (startingBundle 5 7 [])
      (wideningLib.digest (sampleBundle 0).bundleBytes), sampleBundle 0), by decide +kernel, rfl⟩
  have hother := hfirst (sampleBundle 0) hheld
  exact absurd hother (by decide +kernel)

end Server

end Gink
