/-
  Gink.Stores.Claims — who claimed a chain last (claim.proto, abstract_store.py).

  `_get_claims` gives the last claim made for each medallion, which is also the last one made
  for its chain.  So the process that it names is the only one that may hold the chain.
-/
import Gink.Machine.Ownership
import Gink.Proto.BundleInfo

namespace Gink

/-- The chain that a claim is on. -/
def ClaimBuilder.chain (claim : ClaimBuilder) : Chain := ⟨claim.medallion, claim.chainStart⟩

/-- Which process claimed which chain. -/
def claimants (claims : List ClaimBuilder) : List (Chain × U64) :=
  claims.map fun claim => (claim.chain, claim.processId)

/-- No claim for the medallion comes after this one. -/
def LastFor (claims : List ClaimBuilder) (claim : ClaimBuilder) : Prop :=
  (claims.filter fun other => decide (other.medallion = claim.medallion)).getLast? = some claim

theorem claimants_append (claims : List ClaimBuilder) (claim : ClaimBuilder) :
    claimants (claims ++ [claim]) = claimants claims ++ [(claim.chain, claim.processId)] := by
  unfold claimants
  rw [List.map_append]
  rfl

/-- The new claim is the last one for its medallion, and the others stay what they are. -/
theorem lastFor_append {claims : List ClaimBuilder} {claim new : ClaimBuilder} :
    LastFor (claims ++ [new]) claim ↔
      claim = new ∨ claim.medallion ≠ new.medallion ∧ LastFor claims claim := by
  unfold LastFor
  rw [List.filter_append]
  by_cases h : new.medallion = claim.medallion
  · simp [h, eq_comm]
  · have hne : claim ≠ new := by
      intro heq
      exact h (by rw [heq])
    have hne' : claim.medallion ≠ new.medallion := Ne.symm h
    simp [h, hne, hne']

theorem LastFor.mem {claims : List ClaimBuilder} {claim : ClaimBuilder} (h : LastFor claims claim) :
    claim ∈ claims :=
  (List.mem_filter.mp (List.mem_of_getLast? h)).1

/-- **The last claim for a medallion** names the process that claimed the chain last. -/
theorem LastFor.lastOwner {claims : List ClaimBuilder} {claim : ClaimBuilder}
    (h : LastFor claims claim) :
    Machine.lastOwner (claimants claims) claim.chain = some claim.processId := by
  apply Machine.lastOwner_of_last (p := fun chain => decide (chain.medallion = claim.medallion))
  · exact decide_eq_true rfl
  · unfold claimants
    rw [List.filter_map, List.getLast?_map]
    have hfilter : claims.filter ((fun c : Chain × U64 => decide (c.1.medallion = claim.medallion)) ∘
        fun c => (c.chain, c.processId))
        = claims.filter fun other => decide (other.medallion = claim.medallion) := rfl
    rw [hfilter]
    unfold LastFor at h
    rw [h]
    rfl

/-- A chain that nobody claimed has no owner. -/
theorem lastOwner_unclaimed {claims : List ClaimBuilder} {chain : Chain}
    (h : ∀ claim ∈ claims, claim.chain ≠ chain) :
    Machine.lastOwner (claimants claims) chain = none := by
  apply Machine.lastOwner_eq_none
  intro c hc
  obtain ⟨claim, hclaim, rfl⟩ := List.mem_map.mp hc
  exact h claim hclaim

/-- The chain that the bundle starts is new: at a positive time, and with nothing stored. -/
def StartsNew (lib : Externals) (lastInfo : Chain → Option BundleInfo) (bundle : Decomposition) :
    Prop :=
  ∀ info, bundle.getInfo lib = .ok info → 0 < info.timestamp ∧ lastInfo info.chain = none

/-- A bundle at a positive time is no duplicate where nothing of its chain is stored. -/
theorem isNeeded_none_ne_false {info : BundleInfo} (htime : 0 < info.timestamp) :
    isNeeded info none ≠ .ok false := by
  have hnewer : ¬seenThrough none ≥ info.timestamp := not_le_of_gt htime
  unfold isNeeded
  simp only [Option.any_none, Bool.false_eq_true, if_false]
  rw [if_neg hnewer]
  split_ifs <;> simp

end Gink
