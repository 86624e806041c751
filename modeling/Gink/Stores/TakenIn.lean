/-
  Gink.Stores.TakenIn — which bundles the calls of a run have made a store keep.

  A store keeps a bundle when it makes it the last one of its chain; whether the call returns
  does not matter: a callback may raise after the transaction, and `MemoryStore` may raise among
  the changes of a bundle that it keeps.
-/
import Gink.Lmdb.History
import Gink.Memory.Chains

namespace Gink

/-! ## §1. What a call takes in. -/

/-- A bundle that a store has taken in. -/
structure TakenIn where
  builder : BundleBuilder
  info : BundleInfo

/-- Its changes, opened with the symmetric keys of the store. -/
def TakenIn.ops (lib : Externals) (symmetricKey : U64 → Except Error Bytes) (b : TakenIn) :
    List Op :=
  match openChanges lib symmetricKey b.builder with
  | .ok changes => opsFrom b.info 1 changes
  | .error _ => []

/-- What a call has taken in: its bundle is the last of its chain, and was not before. -/
def takenIn (lib : Externals) (bundle : Decomposition)
    (before after : Chain → Option BundleInfo) : List TakenIn :=
  match bundle.getBuilder lib with
  | .error _ => []
  | .ok builder =>
      let info := BundleInfo.ofBuilder builder (lib.digest bundle.bundleBytes)
      if after info.chain = some info ∧ before info.chain ≠ some info then [⟨builder, info⟩] else []

/-- Nothing is taken in where the last infos stay. -/
theorem takenIn_same (lib : Externals) (bundle : Decomposition)
    (infos : Chain → Option BundleInfo) : takenIn lib bundle infos infos = [] := by
  unfold takenIn
  cases bundle.getBuilder lib with
  | error e => rfl
  | ok builder =>
      simp only
      rw [if_neg]
      exact fun h => h.2 h.1

/-- A bundle that is needed and becomes the last of its chain is taken in. -/
theorem takenIn_needed {lib : Externals} {bundle : Decomposition} {builder : BundleBuilder}
    {before after : Chain → Option BundleInfo} {info : BundleInfo}
    (hopen : bundle.getBuilder lib = .ok builder)
    (hinfo : info = .ofBuilder builder (lib.digest bundle.bundleBytes))
    (hneeded : isNeeded info (before info.chain) = .ok true)
    (hafter : after info.chain = some info) :
    takenIn lib bundle before after = [⟨builder, info⟩] := by
  have hnew : before info.chain ≠ some info := by
    intro hold
    have hlt := (isNeeded_eq_true hneeded).1
    rw [hold] at hlt
    exact absurd hlt (lt_irrefl _)
  unfold takenIn
  rw [hopen]
  simp only
  rw [← hinfo, if_pos ⟨hafter, hnew⟩]

/-! ## §2. `LmdbStore`. -/

namespace Lmdb

/-- The last infos of the chains. -/
def Db.lastInfos (db : Db) (chain : Chain) : Option BundleInfo := db.chains.get? chain.toBytes

/-- The bundles taken in by calls one after the other. -/
def takenInBy (lib : Externals) : Store → List Call → List TakenIn
  | _, [] => []
  | s, call :: rest =>
      takenIn lib call.bundle s.db.lastInfos (call.run lib s).store.db.lastInfos
        ++ takenInBy lib (call.run lib s).store rest

/-- **One call** leaves the database, or has written a needed bundle to it. -/
theorem applyBundle_written (lib : Externals) (s : Store) (bundle : Decomposition)
    (callback : Option Callback) (claimChain : Bool) (clock : Clock) :
    (applyBundle lib s bundle callback claimChain clock).store.db = s.db ∨
      ∃ builder info, bundle.getBuilder lib = .ok builder ∧
        info = .ofBuilder builder (lib.digest bundle.bundleBytes) ∧
        isNeeded info (s.db.lastInfos info.chain) = .ok true ∧
        (writeBundle lib (refreshHelper s callback).store bundle builder info
          (s.db.lastInfos info.chain) claimChain clock).db
            = .ok (applyBundle lib s bundle callback claimChain clock).store.db := by
  unfold applyBundle
  cases hopen : bundle.getBuilder lib with
  | error e => exact Or.inl rfl
  | ok builder =>
      simp only
      generalize hinfo : BundleInfo.ofBuilder builder (lib.digest bundle.bundleBytes) = info
      have hdb : (refreshHelper s callback).store.db = s.db := rfl
      cases hr : (refreshHelper s callback).result with
      | error e => exact Or.inl rfl
      | ok count =>
          simp only [hdb]
          cases hn : isNeeded info (s.db.chains.get? info.chain.toBytes) with
          | error e => exact Or.inl rfl
          | ok needed =>
              cases needed with
              | false => exact Or.inl rfl
              | true =>
                  simp only
                  cases hw : (writeBundle lib (refreshHelper s callback).store bundle builder info
                      (s.db.chains.get? info.chain.toBytes) claimChain clock).db with
                  | error e => exact Or.inl rfl
                  | ok db' =>
                      refine Or.inr ⟨builder, info, rfl, hinfo.symm, hn, ?_⟩
                      refine hw.trans ?_
                      cases callback with
                      | none => rfl
                      | some f =>
                          simp only
                          cases f bundle with
                          | error e => rfl
                          | ok u => rfl

/-- **What a call has taken in**: nothing, and the database is left alone, or the bundle that is
written to it. -/
theorem Call.taken (lib : Externals) (s : Store) (call : Call) :
    (takenIn lib call.bundle s.db.lastInfos (call.run lib s).store.db.lastInfos = [] ∧
      (call.run lib s).store.db = s.db) ∨
    ∃ builder info,
      takenIn lib call.bundle s.db.lastInfos (call.run lib s).store.db.lastInfos
        = [⟨builder, info⟩] ∧
      isNeeded info (s.db.lastInfos info.chain) = .ok true ∧
      (call.run lib s).store.db.lastInfos
        = Function.update s.db.lastInfos info.chain (some info) ∧
      (writeBundle lib (refreshHelper s call.callback).store call.bundle builder info
        (s.db.lastInfos info.chain) call.claimChain call.clock).db
          = .ok (call.run lib s).store.db := by
  unfold Call.run
  rcases applyBundle_written lib s call.bundle call.callback call.claimChain call.clock with
    hdb | ⟨builder, info, hopen, hinfo, hneeded, hwritten⟩
  · rw [hdb, takenIn_same]
    exact Or.inl ⟨rfl, rfl⟩
  · generalize (applyBundle lib s call.bundle call.callback call.claimChain call.clock).store.db
      = db' at hwritten ⊢
    have hinfos : db'.lastInfos = Function.update s.db.lastInfos info.chain (some info) := by
      funext chain
      unfold Db.lastInfos
      rw [(writeBundle_ok hwritten).1.chains, Table.get?_put]
      by_cases hc : chain = info.chain
      · rw [hc, if_pos rfl, Function.update_self]
      · rw [if_neg (mt Chain.toBytes_inj.mp hc), Function.update_of_ne hc]
        rfl
    exact Or.inr ⟨builder, info,
      takenIn_needed hopen hinfo hneeded (by rw [hinfos, Function.update_self]), hneeded, hinfos,
      hwritten⟩

end Lmdb

/-! ## §3. `MemoryStore`. -/

namespace Memory

/-- The bundles taken in by calls one after the other. -/
def takenInBy (lib : Externals) : Store → List Call → List TakenIn
  | _, [] => []
  | s, call :: rest =>
      takenIn lib call.bundle s.chainInfos.get? (call.run lib s).store.chainInfos.get?
        ++ takenInBy lib (call.run lib s).store rest

/-- The contents once the changes of a bundle are applied, as far as they can be. -/
def Store.applied (lib : Externals) (s : Store) (clock : Nat → Int) (b : TakenIn) : Contents :=
  match openChanges lib s.symmetricKey b.builder with
  | .error _ => s.contents
  | .ok changes =>
      Action.endState (applyChangesFrom s.retainingEntries clock b.info 1 changes s.contents)

/-- Where the part for a needed bundle ends. -/
theorem applyNeeded_end (lib : Externals) (clock : Nat → Int) (bundle : Decomposition)
    (builder : BundleBuilder) (info : BundleInfo) (old : Option BundleInfo) (s : Store) :
    let s' := Action.endState (applyNeeded lib clock bundle builder info old s)
    (s'.chainInfos = s.chainInfos ∧ s'.contents = s.contents) ∨
      (s'.chainInfos = s.chainInfos.put info.chain info ∧
        s'.contents = s.applied lib clock ⟨builder, info⟩) := by
  unfold applyNeeded
  rw [Action.bind_eq]
  cases hv : validate lib bundle builder info old s with
  | error e s₁ => exact Or.inl ⟨(validate_error hv).chainInfos, (validate_error hv).contents⟩
  | ok u s₁ =>
      obtain ⟨⟨s₀, hsame, rfl⟩, -⟩ := validate_ok hv
      obtain ⟨contents, hcontents⟩ := applyChanges_contents lib clock builder info
        (s₀.withBundle info bundle)
      have hinfos : (s₀.withBundle info bundle).chainInfos = s.chainInfos.put info.chain info := by
        show s₀.chainInfos.put info.chain info = _
        rw [hsame.chainInfos]
      have hkey : (s₀.withBundle info bundle).symmetricKey = s.symmetricKey := by
        funext keyId
        show orRaise _ (s₀.symmetricKeys.lookup keyId.val) = _
        rw [hsame.symmetricKeys]
        rfl
      refine Or.inr ⟨?_, ?_⟩
      · simp only
        rw [hcontents]
        exact hinfos
      · simp only
        unfold applyChanges Store.applied
        rw [Action.get_bind, hkey]
        cases openChanges lib s.symmetricKey builder with
        | error e => exact hsame.contents
        | ok changes =>
            rw [Action.of_ok_bind]
            unfold onContents
            rw [Action.endState_within]
            show Action.endState (applyChangesFrom s₀.retainingEntries clock info 1 changes
              s₀.contents) = _
            rw [hsame.retainingEntries, hsame.contents]

/-- **What a call has taken in**: nothing, and the contents are left alone, or a bundle whose
changes are applied as far as they can be. -/
theorem Call.taken (lib : Externals) (s : Store) (call : Call) :
    (takenIn lib call.bundle s.chainInfos.get? (call.run lib s).store.chainInfos.get? = [] ∧
      (call.run lib s).store.chainInfos = s.chainInfos ∧
      (call.run lib s).store.contents = s.contents) ∨
    ∃ b : TakenIn,
      takenIn lib call.bundle s.chainInfos.get? (call.run lib s).store.chainInfos.get? = [b] ∧
      isNeeded b.info (s.chainInfos.get? b.info.chain) = .ok true ∧
      (call.run lib s).store.chainInfos.get?
        = Function.update s.chainInfos.get? b.info.chain (some b.info) ∧
      (call.run lib s).store.contents = s.applied lib call.clock b := by
  have hcases : ((call.run lib s).store.chainInfos = s.chainInfos ∧
        (call.run lib s).store.contents = s.contents) ∨
      ∃ builder info, call.bundle.getBuilder lib = .ok builder ∧
        info = .ofBuilder builder (lib.digest call.bundle.bundleBytes) ∧
        isNeeded info (s.chainInfos.get? info.chain) = .ok true ∧
        (call.run lib s).store.chainInfos = s.chainInfos.put info.chain info ∧
        (call.run lib s).store.contents = s.applied lib call.clock ⟨builder, info⟩ := by
    unfold Call.run applyBundle
    cases hopen : call.bundle.getBuilder lib with
    | error e => exact Or.inl ⟨rfl, rfl⟩
    | ok builder =>
        simp only
        generalize hinfo : BundleInfo.ofBuilder builder (lib.digest call.bundle.bundleBytes) = info
        cases hn : isNeeded info (s.chainInfos.get? info.chain) with
        | error e => exact Or.inl ⟨rfl, rfl⟩
        | ok needed =>
            cases needed with
            | false => exact Or.inl ⟨rfl, rfl⟩
            | true =>
                simp only
                have hend := applyNeeded_end lib call.clock call.bundle builder info
                  (s.chainInfos.get? info.chain) s
                have hinfo' := hinfo.symm
                generalize applyNeeded lib call.clock call.bundle builder info
                  (s.chainInfos.get? info.chain) s = r at hend ⊢
                cases r with
                | error e s' =>
                    exact hend.imp id fun h => ⟨builder, info, rfl, hinfo', hn, h⟩
                | ok u s' =>
                    have hdone : (s'.chainInfos = s.chainInfos ∧ s'.contents = s.contents) ∨
                        (s'.chainInfos = s.chainInfos.put info.chain info ∧
                          s'.contents = s.applied lib call.clock ⟨builder, info⟩) := hend
                    cases call.callback with
                    | none => exact hdone.imp id fun h => ⟨builder, info, rfl, hinfo', hn, h⟩
                    | some f =>
                        simp only
                        cases f call.bundle with
                        | error e =>
                            exact hdone.imp id fun h => ⟨builder, info, rfl, hinfo', hn, h⟩
                        | ok u => exact hdone.imp id fun h => ⟨builder, info, rfl, hinfo', hn, h⟩
  rcases hcases with ⟨hinfos, hcontents⟩ | ⟨builder, info, hopen, hinfo, hneeded, hinfos, hcontents⟩
  · refine Or.inl ⟨?_, hinfos, hcontents⟩
    rw [hinfos, takenIn_same]
  · have hupdate : (call.run lib s).store.chainInfos.get?
        = Function.update s.chainInfos.get? info.chain (some info) := by
      funext chain
      rw [hinfos, Table.get?_put]
      by_cases hc : chain = info.chain
      · rw [hc, if_pos rfl, Function.update_self]
      · rw [if_neg hc, Function.update_of_ne hc]
    exact Or.inr ⟨⟨builder, info⟩,
      takenIn_needed hopen hinfo hneeded (by rw [hupdate, Function.update_self]), hneeded, hupdate,
      hcontents⟩

end Memory

end Gink
