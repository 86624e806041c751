/-
  Gink.Memory.Accepted — what a call of `MemoryStore.apply_bundle` leaves that returns.

  Whether a bundle is needed depends on the chain infos alone, and these are what the
  accepted bundles made of them, one after the other: `chainsOn`.  `Leads` says of a list of
  bundles that each one is needed where it stands, so a store that applies them in turn
  accepts every one of them.
-/
import Gink.Memory.Chains

namespace Gink

namespace Memory

variable {lib : Externals}

/-! ## §1. One call. -/

/-- The dictionaries that a call does not write to, whatever becomes of it. -/
structure SameAside (s s' : Store) : Prop where
  claims : s'.claims = s.claims
  signingKeys : s'.signingKeys = s.signingKeys
  symmetricKeys : s'.symmetricKeys = s.symmetricKeys
  retainingEntries : s'.retainingEntries = s.retainingEntries

theorem SameAside.refl (s : Store) : SameAside s s := ⟨rfl, rfl, rfl, rfl⟩

theorem SameAside.trans {s s' s'' : Store} (h : SameAside s s') (h' : SameAside s' s'') :
    SameAside s s'' :=
  ⟨h'.claims.trans h.claims, h'.signingKeys.trans h.signingKeys,
    h'.symmetricKeys.trans h.symmetricKeys, h'.retainingEntries.trans h.retainingEntries⟩

theorem SameButKeys.sameAside {s s' : Store} (h : SameButKeys s s') : SameAside s s' :=
  ⟨h.claims, h.signingKeys, h.symmetricKeys, h.retainingEntries⟩

/-- The state that the part for a needed bundle ends in. -/
theorem applyNeeded_aside (clock : Nat → Int) (bundle : Decomposition) (builder : BundleBuilder)
    (info : BundleInfo) (old : Option BundleInfo) (s : Store) :
    SameAside s (Action.endState (applyNeeded lib clock bundle builder info old s)) := by
  unfold applyNeeded
  rw [Action.bind_eq]
  cases hv : validate lib bundle builder info old s with
  | error e s₁ => exact (validate_error hv).sameAside
  | ok u s₁ =>
      obtain ⟨⟨s₀, hsame, rfl⟩, -⟩ := validate_ok hv
      obtain ⟨contents, hcontents⟩ := applyChanges_contents lib clock builder info
        (s₀.withBundle info bundle)
      show SameAside s (Action.endState (applyChanges lib clock builder info _))
      rw [hcontents]
      exact hsame.sameAside.trans ⟨rfl, rfl, rfl, rfl⟩

/-- **A call** leaves the claims and the keys alone. -/
theorem applyBundle_aside (s : Store) (bundle : Decomposition) (callback : Option Callback)
    (clock : Nat → Int) : SameAside s (applyBundle lib s bundle callback clock).store := by
  unfold applyBundle
  cases hb : bundle.getBuilder lib with
  | error e => exact SameAside.refl s
  | ok builder =>
      simp only
      generalize BundleInfo.ofBuilder builder (lib.digest bundle.bundleBytes) = info
      cases isNeeded info (s.chainInfos.get? info.chain) with
      | error e => exact SameAside.refl s
      | ok needed =>
          cases needed with
          | false => exact SameAside.refl s
          | true =>
              simp only
              have haside := @applyNeeded_aside lib clock bundle builder info
                (s.chainInfos.get? info.chain) s
              cases hrun : applyNeeded lib clock bundle builder info
                  (s.chainInfos.get? info.chain) s with
              | error e s' =>
                  rw [hrun] at haside
                  exact haside
              | ok u s' =>
                  rw [hrun] at haside
                  cases callback with
                  | none => exact haside
                  | some f =>
                      simp only
                      cases f bundle <;> exact haside

/-- What a call did that returned. -/
inductive Answered (lib : Externals) (s : Store) (bundle : Decomposition)
    (callback : Option Callback) (info : BundleInfo) (o : Outcome Bool) : Prop
  | duplicate (needed : isNeeded info (s.chainInfos.get? info.chain) = .ok false)
      (outcome : o = ⟨s, [], .ok false⟩)
  | stored (needed : isNeeded info (s.chainInfos.get? info.chain) = .ok true)
      (result : o.result = .ok true) (delivered : o.delivered = handed callback [bundle])
      (bundles : o.store.bundles = s.bundles.put info.essential (info, bundle))
      (chainInfos : o.store.chainInfos = s.chainInfos.put info.chain info)

/-- **A call that returned** has found a duplicate, or has stored the bundle. -/
theorem applyBundle_answered {s : Store} {bundle : Decomposition} {callback : Option Callback}
    {clock : Nat → Int} {added : Bool}
    (h : (applyBundle lib s bundle callback clock).result = .ok added) :
    ∃ info, bundle.getInfo lib = .ok info ∧
      Answered lib s bundle callback info (applyBundle lib s bundle callback clock) := by
  unfold applyBundle at h ⊢
  unfold Decomposition.getInfo
  cases hb : bundle.getBuilder lib with
  | error e =>
      rw [hb] at h
      exact absurd h (by simp)
  | ok builder =>
      rw [hb] at h
      refine ⟨BundleInfo.ofBuilder builder (lib.digest bundle.bundleBytes), rfl, ?_⟩
      simp only at h ⊢
      generalize hinfo : BundleInfo.ofBuilder builder (lib.digest bundle.bundleBytes) = info at h ⊢
      cases hn : isNeeded info (s.chainInfos.get? info.chain) with
      | error e =>
          rw [hn] at h
          exact absurd h (by simp)
      | ok needed =>
          rw [hn] at h
          cases needed with
          | false => exact .duplicate hn rfl
          | true =>
              simp only at h ⊢
              cases hrun : applyNeeded lib clock bundle builder info
                  (s.chainInfos.get? info.chain) s with
              | error e s' =>
                  rw [hrun] at h
                  exact absurd h (by simp)
              | ok u s' =>
                  rw [hrun] at h
                  -- the part that ran stored the bundle, and wrote contents after that
                  have hstored : s'.bundles = s.bundles.put info.essential (info, bundle) ∧
                      s'.chainInfos = s.chainInfos.put info.chain info := by
                    unfold applyNeeded at hrun
                    obtain ⟨u', s₁, hv, hc⟩ := Action.bind_eq_ok.mp hrun
                    obtain ⟨⟨s₀, hsame, rfl⟩, -⟩ := validate_ok hv
                    obtain ⟨contents, hcontents⟩ := applyChanges_contents lib clock builder info
                      (s₀.withBundle info bundle)
                    rw [hc] at hcontents
                    change s' = _ at hcontents
                    rw [hcontents]
                    show s₀.bundles.put _ _ = _ ∧ s₀.chainInfos.put _ _ = _
                    rw [hsame.bundles, hsame.chainInfos]
                    exact ⟨rfl, rfl⟩
                  cases callback with
                  | none => exact .stored hn rfl rfl hstored.1 hstored.2
                  | some f =>
                      simp only at h ⊢
                      cases hf : f bundle with
                      | error e =>
                          rw [hf] at h
                          exact absurd h (by simp)
                      | ok u => exact .stored hn rfl rfl hstored.1 hstored.2

/-! ## §2. Bundles one after the other. -/

/-- The chain infos once a bundle is stored. -/
def linkOn (lib : Externals) (chains : Table Chain BundleInfo) (bundle : Decomposition) :
    Table Chain BundleInfo :=
  match bundle.getInfo lib with
  | .ok info => chains.put info.chain info
  | .error _ => chains

/-- The chain infos once the bundles are stored. -/
def chainsOn (lib : Externals) (chains : Table Chain BundleInfo) (bundles : List Decomposition) :
    Table Chain BundleInfo :=
  bundles.foldl (linkOn lib) chains

/-- Each bundle is needed where it stands. -/
def Leads (lib : Externals) : Table Chain BundleInfo → List Decomposition → Prop
  | _, [] => True
  | chains, bundle :: rest => ∃ info, bundle.getInfo lib = .ok info ∧
      isNeeded info (chains.get? info.chain) = .ok true ∧
      Leads lib (chains.put info.chain info) rest

theorem chainsOn_append (chains : Table Chain BundleInfo) (l m : List Decomposition) :
    chainsOn lib chains (l ++ m) = chainsOn lib (chainsOn lib chains l) m :=
  List.foldl_append ..

theorem chainsOn_cons {bundle : Decomposition} {info : BundleInfo}
    (hinfo : bundle.getInfo lib = .ok info) (chains : Table Chain BundleInfo)
    (rest : List Decomposition) :
    chainsOn lib chains (bundle :: rest) = chainsOn lib (chains.put info.chain info) rest := by
  unfold chainsOn
  rw [List.foldl_cons]
  unfold linkOn
  rw [hinfo]

theorem leads_append {l m : List Decomposition} : ∀ {chains},
    Leads lib chains (l ++ m) ↔ Leads lib chains l ∧ Leads lib (chainsOn lib chains l) m := by
  induction l with
  | nil =>
      intro chains
      exact ⟨fun h => ⟨trivial, h⟩, fun h => h.2⟩
  | cons bundle rest ih =>
      intro chains
      constructor
      · rintro ⟨info, hinfo, hneeded, hrest⟩
        rw [chainsOn_cons hinfo]
        exact ⟨⟨info, hinfo, hneeded, (ih.mp hrest).1⟩, (ih.mp hrest).2⟩
      · rintro ⟨⟨info, hinfo, hneeded, hrest⟩, hm⟩
        rw [chainsOn_cons hinfo] at hm
        exact ⟨info, hinfo, hneeded, ih.mpr ⟨hrest, hm⟩⟩

theorem leads_singleton {chains : Table Chain BundleInfo} {bundle : Decomposition}
    {info : BundleInfo} (hinfo : bundle.getInfo lib = .ok info)
    (hneeded : isNeeded info (chains.get? info.chain) = .ok true) : Leads lib chains [bundle] :=
  ⟨info, hinfo, hneeded, trivial⟩

end Memory

end Gink
