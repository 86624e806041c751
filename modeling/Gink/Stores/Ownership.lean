/-
  Gink.Stores.Ownership — no chain is the link of two processes (database.py).

  `_acquire_appendable_link` takes over the chain of a process that is gone, or starts a
  chain of its own.  It does not look at the answer of `apply_bundle`: when the chain that it
  draws is stored already, nothing is written and no claim is made, and it takes the chain
  for its link all the same.  Apart from that no chain ever has two holders.
-/
import Gink.Lmdb.Ownership
import Gink.Log.Ownership

namespace Gink

/-- **Chain ownership**: in a run in which every chain that is started is new, and for LMDB
the claims are made at later and later times, no two processes have the same chain as their
link. -/
theorem chains_have_one_holder (env : Log.Env) (events : List Log.Event)
    (retainBundles retainEntries : Bool) (eventsLmdb : List Lmdb.Event) :
    (Machine.AllSteps (Log.System.step env) (Log.StartsAfresh env) {} events →
      (Machine.run (Log.System.step env) {} events).Apart) ∧
    (Machine.AllSteps (Lmdb.System.step env.lib) (Lmdb.StartsAfresh env.lib)
        { db := { retainBundles, retainEntries } } eventsLmdb →
      (Machine.run (Lmdb.System.step env.lib) { db := { retainBundles, retainEntries } }
        eventsLmdb).Apart) := by
  constructor
  · intro h
    exact (Machine.run_invariant (Log.step_guarded env) events {} (Log.guarded_empty env) h).apart
  · intro h
    exact (Machine.run_invariant (Lmdb.step_guarded env.lib) eventsLmdb _
      (Lmdb.guarded_empty retainBundles retainEntries) h).apart

/-- Libraries that parse the first bundle of a chain. -/
def drawnOnce : Externals := sampleExternals [startingBundle 100 7 []]

/-- A process starts a chain in a log file and exits, and another one takes the chain over. -/
def takenOver : List Log.Event :=
  [.start 1 false fun _ _ => 0,
    .beginApply 1 (sampleBundle 0) none true fun _ _ => 0, .finishApply 1 (fun _ => 0) 101, .adopt 1,
    .exit 1, .start 2 false fun _ _ => 0,
    .beginReuse 2 "someone" none fun _ _ => 0, .finishReuse 2 102, .adopt 2]

/-- The same in an LMDB file. -/
def takenOverLmdb : List Lmdb.Event :=
  [.start 1 true, .apply 1 (sampleBundle 0) none true 101 101, .adopt 1, .exit 1,
    .start 2 true, .reuse 2 "someone" none 102, .adopt 2]

theorem chains_have_one_holder_sample :
    (Machine.run (Log.System.step ⟨drawnOnce, Log.sampleFormat⟩) {} takenOver).Apart ∧
      (Machine.run (Log.System.step ⟨drawnOnce, Log.sampleFormat⟩) {} takenOver).Holds 2 ⟨7, 100⟩ ∧
      (Machine.run (Lmdb.System.step drawnOnce) { db := {} } takenOverLmdb).Apart ∧
      (Machine.run (Lmdb.System.step drawnOnce) { db := {} } takenOverLmdb).Holds 2 ⟨7, 100⟩ := by
  have hinfo : ∀ info, (sampleBundle 0).getInfo drawnOnce = .ok info →
      0 < info.timestamp ∧ info.chain = ⟨7, 100⟩ := by
    intro info h
    obtain rfl := Except.ok.inj h
    decide
  refine ⟨?_, ⟨_, rfl, Or.inr rfl⟩, ?_, ⟨_, rfl, Or.inr rfl⟩⟩
  · apply (chains_have_one_holder ⟨drawnOnce, Log.sampleFormat⟩ takenOver true true []).1
    refine ⟨trivial, trivial, ?_, trivial, trivial, trivial, trivial, trivial, trivial, trivial⟩
    intro p bundle callback lock hp hcall info h
    obtain rfl := Log.Status.running.inj hp
    obtain rfl : sampleBundle 0 = bundle := by
      injection hcall with hcall
      injection hcall
    exact ⟨(hinfo info h).1, by rw [(hinfo info h).2]; rfl⟩
  · apply (chains_have_one_holder ⟨drawnOnce, Log.sampleFormat⟩ [] true true takenOverLmdb).2
    refine ⟨⟨trivial, trivial⟩, ⟨?_, ?_⟩, ⟨trivial, trivial⟩, ⟨trivial, trivial⟩, ⟨trivial, trivial⟩,
      ⟨?_, trivial⟩, ⟨trivial, trivial⟩, trivial⟩
    · intro _ claim hclaim
      exact absurd hclaim List.not_mem_nil
    · intro _ info h
      exact ⟨(hinfo info h).1, by rw [(hinfo info h).2]; rfl⟩
    · intro claim hclaim
      change claim ∈ [(⟨7, 100, 1, 101⟩ : ClaimBuilder)] at hclaim
      rw [List.mem_singleton.mp hclaim]
      decide

/-! ## A run in which a chain is drawn twice. -/

/-- Libraries that parse the first bundles of two processes that drew the same medallion in
the same microsecond. -/
def drawnTwice : Externals :=
  sampleExternals [startingBundle 100 7 [], { startingBundle 100 7 [] with identity := "another" }]

/-- Two processes start the same chain in a log file. -/
def startedTwice : List Log.Event :=
  [.start 1 false fun _ _ => 0, .start 2 false fun _ _ => 0,
    .beginApply 1 (sampleBundle 0) none true fun _ _ => 0, .finishApply 1 (fun _ => 0) 101, .adopt 1,
    .beginApply 2 (sampleBundle 1) none true fun _ _ => 0, .finishApply 2 (fun _ => 0) 102, .adopt 2]

/-- Two processes start the same chain in an LMDB file. -/
def startedTwiceLmdb : List Lmdb.Event :=
  [.start 1 true, .start 2 true,
    .apply 1 (sampleBundle 0) none true 101 101, .adopt 1,
    .apply 2 (sampleBundle 1) none true 102 102, .adopt 2]

/-- Then both have it as their link. -/
theorem chain_has_two_holders :
    ¬(Machine.run (Log.System.step ⟨drawnTwice, Log.sampleFormat⟩) {} startedTwice).Apart ∧
      Machine.AllSteps (Lmdb.System.step drawnTwice) Lmdb.TimesIncrease { db := {} }
        startedTwiceLmdb ∧
      ¬(Machine.run (Lmdb.System.step drawnTwice) { db := {} } startedTwiceLmdb).Apart := by
  refine ⟨?_, ?_, ?_⟩
  · intro h
    exact absurd (h 1 2 _ _ ⟨7, 100⟩ rfl rfl rfl rfl) (by decide)
  · refine ⟨trivial, trivial, ?_, trivial, ?_, trivial, trivial⟩
    · intro _ claim hclaim
      exact absurd hclaim List.not_mem_nil
    · intro _ claim hclaim
      change claim ∈ [(⟨7, 100, 1, 101⟩ : ClaimBuilder)] at hclaim
      rw [List.mem_singleton.mp hclaim]
      decide
  · intro h
    exact absurd (h 1 2 _ _ ⟨7, 100⟩ rfl rfl rfl rfl) (by decide)

end Gink
