/-
  Gink.Sync.Permissions — who may read and who may write, over whole runs.

  A braid server tests the permissions of a connection before it answers a greeting and
  before it takes a bundle in.  Three places do not test: a relay takes bundles in from
  whoever sends them, a relay answers every greeting, and both broadcast loops send to
  every peer that has greeted.  Runs that keep clear of the three keep to the permissions.
-/
import Gink.Sync.Traffic
import Gink.Sync.Stores
import Gink.Machine.Run
import Gink.Proto.Sample

namespace Gink

namespace Server

variable {σ κ : Type} {env : ServerEnv σ κ} {s : Server σ}

/-! ## §1. The law. -/

/-- No connection without the permission to read was sent a bundle. -/
def ReadersOnly (s : Server σ) : Prop :=
  ∀ id, (s.heap id).canRead = false → ∀ f ∈ (s.heap id).sent, f.isBundle = false

/-- A frame on a connection without the permission to write leaves the store as it is. -/
def WritersOnly (env : ServerEnv σ κ) (s : Server σ) : Event κ → Prop
  | .frame id auth frame clock => (s.heap id).canRite = false →
      (step env s (.frame id auth frame clock)).store = s.store
  | _ => True

/-- A server as it is started, with what is in the braids. -/
def start (store : σ) (braids : Muid → Table Chain Limit) : Server σ := { store, braids }

/-- The step keeps clear of the places where no permission is tested. -/
structure KeepsClear (env : ServerEnv σ κ) (s : Server σ) (e : Event κ) : Prop where
  /-- a relay is sent bundles on connections that may write -/
  bundles : ∀ id auth bytes clock, e = .frame id auth (.message (.bundle bytes)) clock →
    s.Serves id → (s.heap id).owner = .relay → (s.heap id).canRite = true
  /-- a relay is greeted on connections that may read, or has nothing that the peer lacks -/
  greetings : ∀ id auth entries clock ds, e = .frame id auth (.message (.greeting entries)) clock →
    s.Serves id → (s.heap id).owner = .relay → env.ops.getBundles s.store none = .ok ds →
    (s.heap id).canRead = true ∨
      ∀ d ∈ ds, ∀ info, d.getInfo env.lib = .ok info → (HasMap.ofGreeting entries).has info = true
  /-- whoever hears of a new bundle may read, or has not greeted, or has the bundle -/
  audience : ∀ a id, Arrives env s e a → (env.ops.applyBundle s.store a.bundle a.clock).2 = .ok true →
    s.Hears a id → (s.heap id).canRead = true ∨ (s.heap id).lacks a.info = false

/-! ## §2. One step. -/

/-- Clear of the three places, the backlog goes to readers, -/
theorem canRead_of_backlog {e : Event κ} (h : KeepsClear env s e) {id : Nat} {d : Decomposition}
    (hsends : Backlog env s e id d) : (s.heap id).canRead = true := by
  cases hsends with
  | relay hserves howner hds hd hinfo hlacks =>
      rcases h.greetings _ _ _ _ _ rfl hserves howner hds with hread | hall
      · exact hread
      · rw [hall _ hd _ hinfo] at hlacks
        exact absurd hlacks (by simp)
  | braid _ hread _ _ _ => exact hread

/-- and so does a bundle that comes in. -/
theorem canRead_of_live {e : Event κ} (h : KeepsClear env s e) {a : Arrival κ}
    (harrives : Arrives env s e a) {id : Nat} (hlive : Live env s a id) :
    (s.heap id).canRead = true := by
  rcases h.audience a id harrives hlive.new hlive.hears with hread | hhas
  · exact hread
  · have hlacks := hlive.lacks
    rw [hhas] at hlacks
    exact absurd hlacks (by simp)

theorem ReadersOnly.step {e : Event κ} (hs : s.ReadersOnly) (h : KeepsClear env s e) :
    (step env s e).ReadersOnly := by
  intro id hread f hf
  rcases step_cases env s e with ⟨cause, hcomes, hafter⟩ | ⟨i, hopened⟩
  · have hid := hafter.heap id
    -- permissions only grow, so the connection could not read before
    have hbefore : (s.heap id).canRead = false := by
      by_contra hcan
      rw [Bool.not_eq_false] at hcan
      rw [hid.canRead hcan] at hread
      exact absurd hread (by simp)
    by_contra hbundle
    rw [Bool.not_eq_false] at hbundle
    rcases hid.sent f hf hbundle with hold | ⟨d, -, hsends⟩
    · rw [hs id hbefore f hold] at hbundle
      exact absurd hbundle (by simp)
    · have hcan : (s.heap id).canRead = true := by
        cases cause with
        | none => exact canRead_of_backlog h hsends
        | some a => exact canRead_of_live h (hcomes a rfl) hsends.2
      rw [hcan] at hbefore
      exact absurd hbefore (by simp)
  · by_cases hid : id = i
    · exact hopened.fresh f (hid ▸ hf)
    · rw [hopened.others id hid] at hread hf
      exact hs id hread f hf

theorem KeepsClear.writersOnly {e : Event κ} (h : KeepsClear env s e) : WritersOnly env s e := by
  cases e with
  | frame id auth frame clock =>
      intro hrite
      rcases step_cases env s (.frame id auth frame clock) with ⟨cause, hcomes, hafter⟩ | ⟨i, hopened⟩
      · cases cause with
        | none => exact hafter.state.1
        | some a =>
            exfalso
            cases hcomes a rfl with
            | relay _ hserves howner =>
                rw [h.bundles _ _ _ _ rfl hserves howner] at hrite
                exact absurd hrite (by simp)
            | braid _ _ _ hcan =>
                rw [hcan] at hrite
                exact absurd hrite (by simp)
      · exact hopened.store
  | _ => trivial

/-! ## §3. Whole runs. -/

/-- **Permissions are enforced** in every run that keeps clear of the places where none is
tested: after each step only readers have been sent bundles, and only writers change the
store. -/
theorem permissions_enforced (env : ServerEnv σ κ) (store : σ) (braids : Muid → Table Chain Limit)
    (events : List (Event κ))
    (h : Machine.AllSteps (step env) (KeepsClear env) (start store braids) events) :
    Machine.AllSteps (step env) (fun s e => (step env s e).ReadersOnly ∧ WritersOnly env s e)
      (start store braids) events := by
  apply Machine.allSteps_of_invariant (I := ReadersOnly) (p := KeepsClear env)
  · exact fun s e hs he => hs.step he
  · exact fun s e hs he => ⟨hs.step he, he.writersOnly⟩
  · intro id _ f hf
    exact absurd hf List.not_mem_nil
  · exact h

/-! ## §4. A relay and a braid server. -/

/-- A relay over a `MemoryStore`; whoever connects to the braid server gets one braid. -/
def permissionsEnv : ServerEnv Memory.Store (Nat → Int) where
  lib := sampleExternals [startingBundle 5 7 []]
  ops := Memory.bundleStore (sampleExternals [startingBundle 5 7 []])
  braidFunc _ := some ⟨1, 2, 3⟩

/-- A braid that reaches all of the sample's chain. -/
def permissionsBraids (_ : Muid) : Table Chain Limit := (∅ : Table Chain Limit).put ⟨7, 5⟩ .inf

/-- A client connects and is granted the permissions. -/
def comingIn (owner : Owner) (perms : Nat) : List (Event (Nat → Int)) :=
  [.connect 0 owner false true, .frame 0 (some perms) (.request true) fun _ => 0]

/-- It then sends a bundle. -/
def pushing (owner : Owner) (perms : Nat) : List (Event (Nat → Int)) :=
  comingIn owner perms ++
    [.frame 0 none (.message (.bundle (sampleBundle 0).bundleBytes)) fun _ => 0]

/-- Or it greets, and then a bundle is stored. -/
def listening (owner : Owner) (perms : Nat) : List (Event (Nat → Int)) :=
  comingIn owner perms ++
    [.frame 0 none (.message (.greeting [])) fun _ => 0, .receive (sampleBundle 0) fun _ => 0]

/-- The server after a run. -/
def permissionsRun (events : List (Event (Nat → Int))) : Server Memory.Store :=
  Machine.run (step permissionsEnv) (start {} permissionsBraids) events

/-- A reader listens: this run keeps clear of the three places. -/
theorem permissions_enforced_sample :
    Machine.AllSteps (step permissionsEnv)
      (fun s e => (step permissionsEnv s e).ReadersOnly ∧ WritersOnly permissionsEnv s e)
      (start {} permissionsBraids) (listening .relay authRead) := by
  apply permissions_enforced
  have hcalm : ∀ (s : Server Memory.Store) (e : Event (Nat → Int)), (∀ id auth bytes clock,
      e ≠ .frame id auth (.message (.bundle bytes)) clock) → (∀ id auth entries clock,
      e = .frame id auth (.message (.greeting entries)) clock → (s.heap id).canRead = true) →
      (∀ d clock, e ≠ .receive d clock) → KeepsClear permissionsEnv s e := by
    intro s e hbundle hgreeting hcall
    refine ⟨fun _ _ _ _ he => absurd he (hbundle _ _ _ _),
      fun _ _ _ _ _ he _ _ _ => Or.inl (hgreeting _ _ _ _ he), ?_⟩
    intro a id harrives
    cases harrives with
    | call _ => exact absurd rfl (hcall _ _)
    | relay _ _ _ => exact absurd rfl (hbundle _ _ _ _)
    | braid _ _ _ _ => exact absurd rfl (hbundle _ _ _ _)
  refine ⟨hcalm _ _ (by simp) (by simp) (by simp), hcalm _ _ (by simp) (by simp) (by simp),
    hcalm _ _ (by simp) ?_ (by simp), ?_, trivial⟩
  · intro id auth entries clock he
    injection he with hid
    subst hid
    decide +kernel
  · refine ⟨fun _ _ _ _ he => absurd he (by simp), fun _ _ _ _ _ he => absurd he (by simp), ?_⟩
    intro a id harrives _ hhears
    cases harrives with
    | call _ =>
        -- the only connection is the reader's, and no connection has a braid
        rcases hhears with hpeer | ⟨braid, hbraid, -⟩
        · have hone : id ∈ [0] := hpeer
          rw [List.mem_singleton] at hone
          subst hone
          exact Or.inl (by decide +kernel)
        · have hnone : (none : Option Muid) = some braid := hbraid
          exact absurd hnone (by simp)

/-- **No permission is tested** where a relay takes a bundle in, where it greets back, and
where a bundle is broadcast. -/
theorem permissions_violated :
    (¬ Machine.AllSteps (step permissionsEnv) (WritersOnly permissionsEnv)
      (start {} permissionsBraids) (pushing .relay authRead)) ∧
    ¬ (permissionsRun (listening .relay authRite)).ReadersOnly ∧
    ¬ (permissionsRun (listening .braidServer authRite)).ReadersOnly := by
  refine ⟨?_, ?_, ?_⟩
  · intro h
    have hsame := h.2.2.1 (by decide +kernel)
    have hsize := congrArg (fun store => store.bundles.rows.length) hsame
    revert hsize
    decide +kernel
  · intro h
    have hsent := h 0 (by decide +kernel) (.message (.bundle (sampleBundle 0).bundleBytes))
      (by decide +kernel)
    exact absurd hsent (by simp [Frame.isBundle])
  · intro h
    have hsent := h 0 (by decide +kernel) (.message (.bundle (sampleBundle 0).bundleBytes))
      (by decide +kernel)
    exact absurd hsent (by simp [Frame.isBundle])

end Server

end Gink
