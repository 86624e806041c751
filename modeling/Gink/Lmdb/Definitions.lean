/-
  Gink.Lmdb.Definitions — which containers have a definition (lmdb_store.py).

  The containers table only grows.  `applyChangesFrom_introduces` says what a bundle
  adds to it: the containers it defines and the ones its entries are for, unless
  `_seen_containers` or the committed table has them already.  `reached` are the
  changes that the loop gets to, and so the ones that may mark a container as seen.
-/
import Gink.Lmdb.Aside
import Gink.Proto.Ops

namespace Gink

namespace Lmdb

variable {lib : Externals} {committed c c' : Contents} {retaining : Bool} {info : BundleInfo}
  {offset : Nat}

/-- The containers table has a definition. -/
def Contents.Defines (c : Contents) (muid : Muid) : Prop :=
  (c.containers.get? muid.toBytes).isSome = true

instance (c : Contents) : DecidablePred c.Defines := fun muid =>
  inferInstanceAs (Decidable ((c.containers.get? muid.toBytes).isSome = true))

/-! ## §1. What a bundle introduces. -/

/-- The container an entry is for, as the change loop looks it up. -/
def entryContainer : ChangeBuilder → Option Muid
  | .entry entry => entry.containerField.literal.toOption
  | _ => none

/-- Going through changes leaves every container defined that was defined, that one of
them defines, or that one of them has an entry for, unless it was known before. -/
structure Introduces (committed : Contents) (ops : List Op) (seen seen' : List Muid)
    (c c' : Contents) : Prop where
  kept : ∀ muid, c.Defines muid → c'.Defines muid
  defined : ∀ op ∈ ops, ∀ builder muid, op.change = .container builder →
    changeMuid op.info op.offset = .ok muid → c'.Defines muid
  entered : ∀ op ∈ ops, ∀ muid, entryContainer op.change = some muid → muid.timestamp ≠ -1 →
    muid ∈ seen ∨ committed.Defines muid ∨ c'.Defines muid
  marked : ∀ muid ∈ seen', muid ∈ seen ∨ c'.Defines muid
  markedStay : ∀ muid ∈ seen, muid ∈ seen'

theorem defines_of_eq {muid : Muid} (h : c'.containers = c.containers) :
    c'.Defines muid ↔ c.Defines muid := by
  unfold Contents.Defines
  rw [h]

theorem defines_put (c : Contents) (muid : Muid) (builder : ContainerBuilder) :
    ({ c with containers := c.containers.put muid.toBytes builder } : Contents).Defines muid := by
  show ((c.containers.put muid.toBytes builder).get? muid.toBytes).isSome = true
  rw [Table.get?_put_self]
  rfl

theorem defines_put_of_defines {muid other : Muid} (builder : ContainerBuilder)
    (h : c.Defines muid) :
    ({ c with containers := c.containers.put other.toBytes builder } : Contents).Defines muid := by
  show ((c.containers.put other.toBytes builder).get? muid.toBytes).isSome = true
  rw [Table.get?_put]
  split_ifs
  · rfl
  · exact h

/-- A change that leaves the containers alone introduces nothing. -/
theorem Introduces.untouched {change : ChangeBuilder} {seen : List Muid}
    (hcontainer : ∀ builder, change ≠ .container builder)
    (hentry : entryContainer change = none) (h : c'.containers = c.containers) :
    Introduces committed [⟨info, offset, change⟩] seen seen c c' where
  kept muid hmuid := (defines_of_eq h).mpr hmuid
  defined op hop builder muid hchange _ := by
    rw [List.mem_singleton.mp hop] at hchange
    exact absurd hchange (hcontainer builder)
  entered op hop muid hmuid _ := by
    rw [List.mem_singleton.mp hop, hentry] at hmuid
    exact absurd hmuid (by simp)
  marked muid hmuid := Or.inl hmuid
  markedStay muid hmuid := hmuid

/-- Noting a container marks it only when it also defines it. -/
theorem noteContainer_introduces {entry : EntryBuilder} {muid : Muid} (seen : List Muid)
    (hmuid : entry.containerField.literal = .ok muid)
    (h : c'.containers = (noteContainer committed entry muid seen c).2.containers) :
    Introduces committed [⟨info, offset, .entry entry⟩] seen
      (noteContainer committed entry muid seen c).1 c c' := by
  have hentered : ∀ op ∈ [(⟨info, offset, .entry entry⟩ : Op)], ∀ m,
      entryContainer op.change = some m → m = muid := by
    intro op hop m hm
    rw [List.mem_singleton.mp hop] at hm
    have hm : entry.containerField.literal.toOption = some m := hm
    rw [hmuid] at hm
    exact (Option.some.inj hm).symm
  have hdefined : ∀ op ∈ [(⟨info, offset, .entry entry⟩ : Op)], ∀ builder,
      op.change ≠ .container builder := by
    intro op hop builder
    rw [List.mem_singleton.mp hop]
    simp
  unfold noteContainer at h ⊢
  split_ifs at h ⊢ with hseen hknown
  · exact ⟨fun m hm => (defines_of_eq h).mpr hm, fun op hop b m hb => absurd hb (hdefined op hop b),
      fun op hop m hm _ => Or.inl (hentered op hop m hm ▸ hseen), fun m hm => Or.inl hm,
      fun m hm => hm⟩
  · refine ⟨fun m hm => (defines_of_eq h).mpr hm,
      fun op hop b m hb => absurd hb (hdefined op hop b), ?_, fun m hm => Or.inl hm,
      fun m hm => hm⟩
    intro op hop m hm hglobal
    obtain rfl := hentered op hop m hm
    rcases hknown with hknown | hknown
    · exact Or.inr (Or.inl hknown)
    · -- an entry for a global container
      obtain ⟨-, -, -, rfl⟩ := Muid.make_eq_ok.mp hmuid
      refine absurd ?_ hglobal
      rw [hknown]
      rfl
  · have hput : c'.Defines muid := (defines_of_eq h).mpr (defines_put c muid ⟨entry.behavior⟩)
    refine ⟨fun m hm => (defines_of_eq h).mpr (defines_put_of_defines _ hm),
      fun op hop b m hb => absurd hb (hdefined op hop b),
      fun op hop m hm _ => Or.inr (Or.inr (hentered op hop m hm ▸ hput)), ?_,
      fun m hm => List.mem_cons_of_mem _ hm⟩
    intro m hm
    rcases List.mem_cons.mp hm with rfl | hm
    · exact Or.inr hput
    · exact Or.inl hm

/-- The address a container change defines. -/
theorem make_of_changeMuid {muid : Muid} (h : changeMuid info offset = .ok muid) :
    Muid.make info.timestamp.val info.medallion.val offset = .ok muid := by
  obtain ⟨absolute, hmake, -, -, habsolute⟩ := create_eq_ok h
  have hoffset : orElse (offset : Int) ({} : MuidBuilder).offset = offset := by
    unfold orElse
    split_ifs with h0
    · exact h0.symm
    · rfl
  rw [habsolute (by omega), hoffset] at hmake
  exact hmake

/-- **One change.** -/
theorem applyChange_introduces {change : ChangeBuilder} {seen seen' : List Muid}
    (h : applyChange lib committed retaining info offset seen c change = (seen', .ok c')) :
    Introduces committed [⟨info, offset, change⟩] seen seen' c c' := by
  have h1 := congrArg Prod.fst h
  have h2 := congrArg Prod.snd h
  cases change with
  | unset => simp [applyChange] at h2
  | container builder =>
      obtain rfl : seen = seen' := h1
      obtain ⟨muid, hmuid, rfl⟩ := map_eq_ok.mp h2
      refine ⟨fun m hm => defines_put_of_defines _ hm, ?_, ?_, fun m hm => Or.inl hm,
        fun m hm => hm⟩
      · intro op hop b m _ hm
        rw [List.mem_singleton.mp hop] at hm
        have hsame : muid = m := by
          have hmake := make_of_changeMuid hm
          rw [hmuid] at hmake
          exact Except.ok.inj hmake
        rw [← hsame]
        exact defines_put c muid builder
      · intro op hop m hm
        rw [List.mem_singleton.mp hop] at hm
        simp [entryContainer] at hm
  | entry entry =>
      unfold applyChange at h1 h2
      cases hm : entry.containerField.literal with
      | error e =>
          simp only [hm] at h2
          exact absurd h2 (by simp)
      | ok muid =>
          simp only [hm] at h1 h2
          rw [← h1]
          exact noteContainer_introduces seen hm (addEntry_rows h2).2.1
  | movement builder =>
      obtain rfl : seen = seen' := h1
      exact Introduces.untouched (by simp) rfl (applyMovement_shrunk h2).containers
  | clearance builder =>
      obtain rfl : seen = seen' := h1
      obtain ⟨container, clearance, -, -, hshrunk⟩ := applyClearance_rows h2
      exact Introduces.untouched (by simp) rfl hshrunk.containers

theorem Introduces.trans {ops ops' : List Op} {seen seen' seen'' : List Muid} {c'' : Contents}
    (h : Introduces committed ops seen seen' c c')
    (h' : Introduces committed ops' seen' seen'' c' c'') :
    Introduces committed (ops ++ ops') seen seen'' c c'' where
  kept muid hmuid := h'.kept muid (h.kept muid hmuid)
  defined op hop builder muid hchange hmuid := by
    rcases List.mem_append.mp hop with hop | hop
    · exact h'.kept muid (h.defined op hop builder muid hchange hmuid)
    · exact h'.defined op hop builder muid hchange hmuid
  entered op hop muid hmuid hglobal := by
    rcases List.mem_append.mp hop with hop | hop
    · exact (h.entered op hop muid hmuid hglobal).imp id (Or.imp id (h'.kept muid))
    · rcases h'.entered op hop muid hmuid hglobal with hseen | hdefined
      · exact (h.marked muid hseen).imp id fun hm => Or.inr (h'.kept muid hm)
      · exact Or.inr hdefined
  marked muid hmuid := by
    rcases h'.marked muid hmuid with hseen | hdefined
    · exact (h.marked muid hseen).imp id (h'.kept muid)
    · exact Or.inr hdefined
  markedStay muid hmuid := h'.markedStay muid (h.markedStay muid hmuid)

/-- **The changes of a bundle.** -/
theorem applyChangesFrom_introduces {changes : List ChangeBuilder} :
    ∀ {offset : Nat} {seen seen' : List Muid} {c c' : Contents},
      applyChangesFrom lib committed retaining info offset changes seen c = (seen', .ok c') →
      Introduces committed (opsFrom info offset changes) seen seen' c c' := by
  induction changes with
  | nil =>
      intro offset seen seen' c c' h
      injection h with hseen hc
      injection hc with hc
      rw [← hseen, ← hc]
      exact ⟨fun _ hm => hm, by simp [opsFrom], by simp [opsFrom], fun _ hm => Or.inl hm,
        fun _ hm => hm⟩
  | cons change rest ih =>
      intro offset seen seen' c c' h
      unfold applyChangesFrom at h
      cases hone : applyChange lib committed retaining info offset seen c change with
      | mk seen₁ r =>
          cases r with
          | error e => simp [hone] at h
          | ok c₁ =>
              simp only [hone] at h
              exact (applyChange_introduces hone).trans (ih h)

/-! ## §2. The changes that the loop gets to. -/

/-- The changes that are begun: all of them, or those up to the one that raises. -/
def reached (lib : Externals) (committed : Contents) (retaining : Bool) (info : BundleInfo) :
    Nat → List ChangeBuilder → List Muid → Contents → List ChangeBuilder
  | _, [], _, _ => []
  | offset, change :: rest, seen, c =>
      match applyChange lib committed retaining info offset seen c change with
      | (_, .error _) => [change]
      | (seen', .ok c') => change :: reached lib committed retaining info (offset + 1) rest seen' c'

/-- The entry's container is in `_seen_containers`, defined in the file, or global. -/
def Known (committed : Contents) (seen : List Muid) (change : ChangeBuilder) : Prop :=
  match change with
  | .entry entry => entry.containerField.timestamp = -1 ∨
      ∀ muid, entry.containerField.literal.toOption = some muid →
        muid ∈ seen ∨ committed.Defines muid
  | _ => True

theorem applyChange_seen {change : ChangeBuilder} {seen : List Muid}
    (h : Known committed seen change) :
    (applyChange lib committed retaining info offset seen c change).1 = seen := by
  cases change with
  | entry entry =>
      unfold applyChange
      cases hm : entry.containerField.literal with
      | error e => simp only [hm]
      | ok muid =>
          simp only [hm]
          unfold noteContainer
          split_ifs with hseen hknown
          · rfl
          · rfl
          · push Not at hknown
            rcases h with hglobal | h
            · exact absurd hglobal hknown.2
            · rcases h muid (by rw [hm]; rfl) with h | h
              · exact absurd h hseen
              · exact absurd h hknown.1
  | _ => rfl

/-- **A loop that gets to known containers only** marks none. -/
theorem applyChangesFrom_seen {changes : List ChangeBuilder} {seen : List Muid} :
    ∀ {offset : Nat} {c : Contents},
      (∀ change ∈ reached lib committed retaining info offset changes seen c,
        Known committed seen change) →
      (applyChangesFrom lib committed retaining info offset changes seen c).1 = seen := by
  induction changes with
  | nil => exact fun _ => rfl
  | cons change rest ih =>
      intro offset c h
      unfold reached at h
      have hfirst : Known committed seen change := by
        apply h
        split <;> exact List.mem_cons_self
      have hsame := @applyChange_seen lib committed c retaining info offset change seen hfirst
      unfold applyChangesFrom
      cases hone : applyChange lib committed retaining info offset seen c change with
      | mk seen₁ r =>
          rw [hone] at hsame
          obtain rfl : seen₁ = seen := hsame
          cases r with
          | error e => rfl
          | ok c₁ =>
              simp only
              apply ih
              intro x hx
              apply h
              rw [hone]
              exact List.mem_cons_of_mem _ hx

end Lmdb

end Gink
