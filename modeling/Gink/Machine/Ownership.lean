/-
  Gink.Machine.Ownership — things that are owned by whoever claimed them last.

  Claims are only ever added.  As long as everybody who holds a thing is the last one to
  have claimed it, nobody else holds it; and a claim keeps this so when nobody but the
  claimant holds the thing.  Nothing here depends on what the things and the owners are.
-/
import Mathlib

namespace Gink

namespace Machine

variable {κ ω : Type} [DecidableEq κ]

/-- Who claimed a thing last. -/
def lastOwner (claims : List (κ × ω)) (thing : κ) : Option ω :=
  ((claims.filter fun c => decide (c.1 = thing)).getLast?).map (·.2)

/-- Everybody who holds a thing claimed it last. -/
def Owned (claims : List (κ × ω)) (holds : ω → κ → Prop) : Prop :=
  ∀ owner thing, holds owner thing → lastOwner claims thing = some owner

variable {claims : List (κ × ω)} {holds holds' : ω → κ → Prop}

theorem lastOwner_append_self (claims : List (κ × ω)) (thing : κ) (owner : ω) :
    lastOwner (claims ++ [(thing, owner)]) thing = some owner := by
  unfold lastOwner
  rw [List.filter_append]
  simp

theorem lastOwner_append_of_ne (claims : List (κ × ω)) {thing other : κ} (owner : ω)
    (h : thing ≠ other) : lastOwner (claims ++ [(thing, owner)]) other = lastOwner claims other := by
  unfold lastOwner
  rw [List.filter_append]
  simp [h]

/-- A thing that was never claimed has no owner. -/
theorem lastOwner_eq_none {thing : κ} (h : ∀ c ∈ claims, c.1 ≠ thing) :
    lastOwner claims thing = none := by
  unfold lastOwner
  rw [List.filter_eq_nil_iff.mpr]
  · rfl
  · intro c hc
    simpa using h c hc

/-- The last of all claims on some things that include this one. -/
theorem lastOwner_of_last {p : κ → Bool} {thing : κ} {owner : ω} (hp : p thing = true)
    (h : (claims.filter fun c => p c.1).getLast? = some (thing, owner)) :
    lastOwner claims thing = some owner := by
  have hfilter : claims.filter (fun c => decide (c.1 = thing))
      = (claims.filter fun c => p c.1).filter fun c => decide (c.1 = thing) := by
    rw [List.filter_filter]
    refine List.filter_congr ?_
    intro c _
    by_cases hc : c.1 = thing
    · simp [hc, hp]
    · simp [hc]
  obtain ⟨before, hbefore⟩ := List.getLast?_eq_some_iff.mp h
  unfold lastOwner
  rw [hfilter, hbefore, List.filter_append]
  simp

theorem Owned.unique (h : Owned claims holds) {first second : ω} {thing : κ}
    (h1 : holds first thing) (h2 : holds second thing) : first = second :=
  Option.some.inj ((h first thing h1).symm.trans (h second thing h2))

theorem Owned.mono (h : Owned claims holds) (hle : ∀ owner thing, holds' owner thing →
    holds owner thing) : Owned claims holds' :=
  fun owner thing hheld => h owner thing (hle owner thing hheld)

/-- **A claim** on a thing that nobody else holds. -/
theorem Owned.claim (h : Owned claims holds) {claimant : ω} {claimed : κ}
    (hfree : ∀ owner, holds owner claimed → owner = claimant)
    (hle : ∀ owner thing, holds' owner thing →
      holds owner thing ∨ owner = claimant ∧ thing = claimed) :
    Owned (claims ++ [(claimed, claimant)]) holds' := by
  intro owner thing hheld
  by_cases hthing : thing = claimed
  · subst hthing
    rw [lastOwner_append_self]
    rcases hle owner thing hheld with hbefore | ⟨rfl, -⟩
    · rw [hfree owner hbefore]
    · rfl
  · rw [lastOwner_append_of_ne _ _ (Ne.symm hthing)]
    rcases hle owner thing hheld with hbefore | ⟨-, hclaimed⟩
    · exact h owner thing hbefore
    · exact absurd hclaimed hthing

end Machine

end Gink
