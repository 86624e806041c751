/-
  Gink.Stores.Delivery — what the processes that share a file are told of each other's
  bundles, with either kind of file.

  `each_bundle_heard_once` puts the two backends together.  What breaks it is a read that has
  no callback to hand the bundles to: with an LMDB file the acquisition of a chain, with a
  log file also every plain read.
-/
import Gink.Log.Delivery
import Gink.Lmdb.Delivery

namespace Gink

/-- **Each bundle is handed over once**: in every run of any processes on one file, in which
callbacks do not raise and no bundle is read without a callback, every process hands its
callbacks each bundle of the others exactly once, provided it goes on refreshing. -/
theorem each_bundle_heard_once (env : Log.Env) (lib : Externals) (retainEntries : Bool) :
    (∀ events, Machine.AllSteps (Log.System.step env) (Log.Attentive env) {} events →
      Log.HeardOnce env (Machine.run (Log.System.step env) {} events)) ∧
    ∀ events,
      Machine.AllSteps (Lmdb.System.step lib) Lmdb.Attentive
        (Lmdb.System.onNewFile retainEntries) events →
      Lmdb.HeardOnce lib
        (Machine.run (Lmdb.System.step lib) (Lmdb.System.onNewFile retainEntries) events) :=
  ⟨Log.heard_once env, Lmdb.heard_once lib retainEntries⟩

/-! ## A bundle that is handed over, and one that is not. -/

/-- Libraries that parse one bundle, which starts a chain. -/
def oneBundleLib : Externals := sampleExternals [startingBundle 10 5 []]

def oneBundleEnv : Log.Env := ⟨oneBundleLib, Log.sampleFormat⟩

/-- A callback that never raises. -/
def listener : Callback := fun _ => .ok ()

theorem quiet_listener : Lmdb.Quiet (some listener) := by
  intro f hf d
  obtain rfl : listener = f := Option.some.inj hf
  rfl

theorem quiet_none : Lmdb.Quiet none := fun _ hf => absurd hf (by simp)

/-- Two processes on a log file; one writes a bundle, and the other refreshes. -/
def logEvents : List Log.Event :=
  [.start 1 false fun _ _ => 0, .start 2 false fun _ _ => 0,
    .beginApply 1 (sampleBundle 0) none false fun _ _ => 0, .finishApply 1 (fun _ => 0) 0,
    .refresh 2 (some listener) fun _ _ => 0]

/-- The same with an LMDB file. -/
def lmdbEvents : List Lmdb.Event :=
  [.start 1 true, .start 2 true, .apply 1 (sampleBundle 0) none false 20 0,
    .refresh 2 (some listener)]

theorem logEvents_attentive :
    Machine.AllSteps (Log.System.step oneBundleEnv) (Log.Attentive oneBundleEnv) {} logEvents := by
  refine ⟨⟨trivial, trivial⟩, ⟨trivial, trivial⟩, ⟨?_, ?_⟩, ⟨?_, trivial⟩, ⟨?_, ?_⟩, trivial⟩
  · intro p hp _
    have hp' := (Log.idle_eq_some.mp hp).1
    injection hp' with hp'
    rw [← hp']
    trivial
  · intro _ p hp _
    have hp' := (Log.idle_eq_some.mp hp).1
    injection hp' with hp'
    rw [← hp']
    rfl
  · intro p bundle callback claimChain lock hp hcall
    injection hp with hp
    rw [← hp] at hcall ⊢
    injection hcall with hcall
    injection hcall with hbundle hcallback
    rw [← hbundle, ← hcallback]
    exact ⟨true, rfl, fun _ f hf => absurd hf (by simp)⟩
  · intro p hp _
    have hp' := (Log.idle_eq_some.mp hp).1
    injection hp' with hp'
    rw [← hp']
    exact ⟨⟨true, rfl⟩, trivial⟩
  · exact fun hnone => absurd hnone (by simp)

theorem lmdbEvents_attentive :
    Machine.AllSteps (Lmdb.System.step oneBundleLib) Lmdb.Attentive
      (Lmdb.System.onNewFile true) lmdbEvents := by
  refine ⟨trivial, trivial, ⟨quiet_none, ?_, by decide, by decide⟩, ⟨quiet_listener, ?_⟩, trivial⟩
  · intro _ p hp
    injection hp with hp
    rw [← hp]
    rfl
  · exact fun hnone => absurd hnone (by simp)

theorem each_bundle_heard_once_sample :
    Log.HeardOnce oneBundleEnv (Machine.run (Log.System.step oneBundleEnv) {} logEvents) ∧
    Lmdb.HeardOnce oneBundleLib
      (Machine.run (Lmdb.System.step oneBundleLib) (Lmdb.System.onNewFile true) lmdbEvents) :=
  ⟨(each_bundle_heard_once oneBundleEnv oneBundleLib true).1 logEvents logEvents_attentive,
    (each_bundle_heard_once oneBundleEnv oneBundleLib true).2 lmdbEvents lmdbEvents_attentive⟩

/-- Two processes on a log file; one writes a bundle, and a plain read of the other one takes
it in. -/
def logReadEvents : List Log.Event :=
  [.start 1 false fun _ _ => 0, .start 2 false fun _ _ => 0,
    .beginApply 1 (sampleBundle 0) none false fun _ _ => 0, .finishApply 1 (fun _ => 0) 0,
    .read 2 fun _ _ => 0]

/-- With an LMDB file the other one looks for a chain to take over. -/
def lmdbReuseEvents : List Lmdb.Event :=
  [.start 1 true, .start 2 true, .apply 1 (sampleBundle 0) none false 20 0,
    .reuse 2 "nobody" none 30]

/-- **Reading without a callback** moves the cursor past a bundle, and no later refresh hands
it over. -/
theorem bundle_never_heard :
    ¬Log.HeardOnce oneBundleEnv (Machine.run (Log.System.step oneBundleEnv) {} logReadEvents) ∧
    ¬Lmdb.HeardOnce oneBundleLib
      (Machine.run (Lmdb.System.step oneBundleLib) (Lmdb.System.onNewFile true)
        lmdbReuseEvents) := by
  constructor
  · intro h
    obtain ⟨p, hp, hheard⟩ := h.refreshed 2 _ listener (fun _ _ => 0) rfl rfl trivial
    injection hp with hp
    rw [← hp] at hheard
    exact absurd hheard (by decide)
  · intro h
    obtain ⟨p, hp, hheard⟩ := h.refreshed 2 _ listener rfl quiet_listener
    injection hp with hp
    rw [← hp] at hheard
    exact absurd hheard (by decide)

end Gink
