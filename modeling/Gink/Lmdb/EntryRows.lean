/-
  Gink.Lmdb.EntryRows — which entries an `LmdbStore` holds, with history and without.

  Whatever a change does, an entry that is stored after it was stored before it or is the
  one it adds.  So what every entry of the applied bundles has, every stored entry has.
-/
import Gink.Lmdb.Aside
import Gink.Lmdb.Clearances
import Gink.Stores.ResetEntries

namespace Gink

namespace Lmdb

/-! ## §1. One turn of the loop. -/

section
variable {lib : Externals} {committed c c' : Contents} {retaining : Bool} {info : BundleInfo}
  {offset : Nat}

/-- **One turn of the loop** adds the entry of the change, if it is one, and no other. -/
theorem applyChange_entries {change : ChangeBuilder} {seen seen' : List Muid}
    (h : applyChange lib committed retaining info offset seen c change = (seen', .ok c')) :
    ∀ row ∈ c'.entries.rows, row ∈ c.entries.rows ∨ change = .entry row.2 := by
  have h2 := congrArg Prod.snd h
  cases change with
  | unset => simp [applyChange] at h2
  | container builder =>
      obtain ⟨muid, -, rfl⟩ := map_eq_ok.mp h2
      exact fun row hrow => Or.inl hrow
  | entry builder =>
      cases hm : builder.containerField.literal with
      | error e => simp [applyChange, hm] at h2
      | ok muid =>
          obtain ⟨containers, hnote⟩ := noteContainer_eq committed builder muid seen c
          simp only [applyChange, hm, hnote] at h2
          intro row hrow
          rcases (addEntry_rows h2).1 row hrow with hold | hnew
          · exact Or.inl hold
          · exact Or.inr (by rw [hnew])
  | movement builder => exact fun row hrow => Or.inl ((applyMovement_shrunk h2).entries row hrow)
  | clearance builder =>
      obtain ⟨container, clearance, -, -, hshrunk⟩ := applyClearance_rows h2
      exact fun row hrow => Or.inl (hshrunk.entries row hrow)

end

/-! ## §2. Runs. -/

/-- Every stored entry has the property. -/
def EveryEntry (P : EntryBuilder → Prop) (c : Contents) : Prop := ∀ row ∈ c.entries.rows, P row.2

theorem readEntry_of_every {P : EntryBuilder → Prop} {c : Contents} (hc : EveryEntry P c)
    {entryMuidBytes : Bytes} {builder : EntryBuilder}
    (h : readEntry c entryMuidBytes = .ok builder) : P builder :=
  hc _ (Table.get?_eq_some_iff.mp (orRaise_eq_ok.mp h))

theorem applyChangesFrom_every {P : EntryBuilder → Prop} {lib : Externals} {committed : Contents}
    {retaining : Bool} {info : BundleInfo} {changes : List ChangeBuilder}
    (hchanges : ∀ e, .entry e ∈ changes → P e) :
    ∀ {offset : Nat} {seen seen' : List Muid} {c c' : Contents}, EveryEntry P c →
      applyChangesFrom lib committed retaining info offset changes seen c = (seen', .ok c') →
      EveryEntry P c' := by
  induction changes with
  | nil =>
      intro offset seen seen' c c' hc h
      simp only [applyChangesFrom, Prod.mk.injEq, Except.ok.injEq] at h
      exact h.2 ▸ hc
  | cons change rest ih =>
      intro offset seen seen' c c' hc h
      unfold applyChangesFrom at h
      cases hone : applyChange lib committed retaining info offset seen c change with
      | mk seen₁ r =>
          cases r with
          | error e => simp [hone] at h
          | ok c₁ =>
              simp only [hone] at h
              refine ih (fun e he => hchanges e (List.mem_cons_of_mem _ he)) ?_ h
              intro row hrow
              rcases applyChange_entries hone row hrow with hold | hnew
              · exact hc row hold
              · exact hchanges row.2 (hnew ▸ List.mem_cons_self)

/-- **What all entries of the applied bundles have, all stored entries have**, in every state
of every run. -/
theorem runCalls_every {P : EntryBuilder → Prop} {lib : Externals} {calls : List Call} :
    ∀ {s : Store}, (∀ call ∈ calls, EntriesOf P lib s.db.symmetricKey call.bundle) →
      EveryEntry P s.db.contents → EveryEntry P (runCalls lib s calls).db.contents := by
  induction calls with
  | nil => exact fun _ h => h
  | cons call rest ih =>
      intro s hcalls h
      have hrest : ∀ c ∈ rest, EntriesOf P lib s.db.symmetricKey c.bundle :=
        fun c hc => hcalls c (List.mem_cons_of_mem _ hc)
      unfold runCalls
      cases applyBundle_step lib s call.bundle call.callback call.claimChain call.clock with
      | kept hdb _ _ =>
          apply ih
          · intro c hc
            show EntriesOf P lib (call.run lib s).store.db.symmetricKey c.bundle
            rw [show (call.run lib s).store.db = s.db from hdb]
            exact hrest c hc
          · exact (congrArg Db.contents hdb) ▸ h
      | committed builder hopen info _ _ hw _ _ =>
          have hkey : (call.run lib s).store.db.symmetricKey = s.db.symmetricKey := by
            funext keyId
            unfold Db.symmetricKey
            rw [show (call.run lib s).store.db.symmetricKeys = _ from hw.symmetricKeys]
          apply ih
          · intro c hc
            show EntriesOf P lib (call.run lib s).store.db.symmetricKey c.bundle
            rw [hkey]
            exact hrest c hc
          · obtain ⟨changes, hchanges, happlied⟩ := hw.contents
            refine applyChangesFrom_every ?_ h happlied
            intro e he
            split_ifs at he
            · exact hcalls call List.mem_cons_self builder changes hopen hchanges e he
            · cases he

end Lmdb

end Gink
