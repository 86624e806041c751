/-
  Gink.Stores.ChainLists — every chain a store holds is one linked list.

  The two stores keep their chains in different tables and write them at different
  points of `apply_bundle`; what a reader of `get_bundles` and `get_last` sees obeys
  one law.
-/
import Gink.Memory.Chains
import Gink.Lmdb.Chains
import Gink.Proto.Sample

namespace Gink

/-- **Chains are linked lists** in every state of either store that calls of
`apply_bundle` lead to, accepted, duplicate or raising in any mix; and a call that
reports a duplicate changes nothing that is stored. -/
theorem stored_chains_linked (lib : Externals) :
    (∀ s, Memory.Reachable lib s →
      (∀ chain, ChainLinked lib chain ((Memory.getBundles s none).filter (inChain lib chain))
        (s.chainInfos.get? chain)) ∧
      ∀ bundle callback clock,
        (Memory.applyBundle lib s bundle callback clock).result = .ok false →
          (Memory.applyBundle lib s bundle callback clock).store = s) ∧
    (∀ now s, Lmdb.Reachable lib now s →
      (∃ bundles, Lmdb.getBundles s.db none = .ok bundles ∧
        ∀ chain : Chain, ChainLinked lib chain (bundles.filter (inChain lib chain))
          (s.db.chains.get? chain.toBytes)) ∧
      ∀ bundle callback claimChain clock,
        (Lmdb.applyBundle lib s bundle callback claimChain clock).result = .ok false →
          (Lmdb.applyBundle lib s bundle callback claimChain clock).store.db = s.db) := by
  refine ⟨?_, ?_⟩
  · intro s hs
    have hinv := hs.chainInv
    refine ⟨?_, ?_⟩
    · intro chain
      rw [hinv.getBundles_filter]
      exact hinv.linked chain
    · intro bundle callback clock
      exact (Memory.applyBundle_step lib s bundle callback clock).2
  · intro now s hs
    have hinv := hs.chainInv
    refine ⟨⟨_, hinv.getBundles_eq, ?_⟩, ?_⟩
    · intro chain
      rw [hinv.filter_inChain]
      exact hinv.linked chain
    · intro bundle callback claimChain clock hfalse
      cases Lmdb.applyBundle_step lib s bundle callback claimChain clock with
      | kept hdb _ _ => exact hdb
      | committed _ _ _ _ _ _ _ hresult =>
          rcases hresult with htrue | ⟨f, e, -, -, herror⟩
          · rw [htrue] at hfalse
            simp at hfalse
          · rw [herror] at hfalse
            simp at hfalse

/-- Two bundles of one chain. -/
def sampleChain : List BundleBuilder :=
  [startingBundle 5 7 [], followingBundle 6 0 (startingBundle 5 7 []) []]

/-- The memory store once it has both. -/
def sampleMemory : Memory.Store :=
  (Memory.applyBundle (sampleExternals sampleChain)
    (Memory.applyBundle (sampleExternals sampleChain) {} (sampleBundle 0) none (fun _ => 0)).store
    (sampleBundle 1) none (fun _ => 0)).store

/-- The LMDB store once it has both. -/
def sampleLmdb : Lmdb.Store :=
  (Lmdb.applyBundle (sampleExternals sampleChain)
    (Lmdb.applyBundle (sampleExternals sampleChain) {} (sampleBundle 0) none false ⟨1, 0, 0⟩).store
    (sampleBundle 1) none false ⟨2, 0, 0⟩).store

/-- Both stores hold the two bundles, linked. -/
theorem stored_chains_linked_sample :
    (Memory.getBundles sampleMemory none = [sampleBundle 0, sampleBundle 1] ∧
      ChainLinked (sampleExternals sampleChain) ⟨7, 5⟩
        ((Memory.getBundles sampleMemory none).filter (inChain (sampleExternals sampleChain) ⟨7, 5⟩))
        (sampleMemory.chainInfos.get? ⟨7, 5⟩)) ∧
    ∃ bundles, Lmdb.getBundles sampleLmdb.db none = .ok bundles ∧
      ChainLinked (sampleExternals sampleChain) ⟨7, 5⟩
        (bundles.filter (inChain (sampleExternals sampleChain) ⟨7, 5⟩))
        (sampleLmdb.db.chains.get? (⟨7, 5⟩ : Chain).toBytes) := by
  have hmem := (stored_chains_linked (sampleExternals sampleChain)).1 sampleMemory
    (.apply (.apply (.empty [] true) _ _ _) _ _ _)
  have hlmdb := (stored_chains_linked (sampleExternals sampleChain)).2 2 sampleLmdb
    (.apply (.apply (.empty ∅ true true) _ _ _ ⟨1, 0, 0⟩ (by decide)) _ _ _ ⟨2, 0, 0⟩ (by decide))
  obtain ⟨bundles, hb, hlinked⟩ := hlmdb.1
  exact ⟨⟨by decide +kernel, hmem.1 _⟩, bundles, hb, hlinked _⟩

end Gink
