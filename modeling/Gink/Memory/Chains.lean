/-
  Gink.Memory.Chains — the chain dictionaries over every run of a `MemoryStore`.

  `applyBundle_cases` says what one call does to `_bundles` and `_chain_infos`:
  nothing, or both get the new bundle.  The bundles of a chain therefore stay one
  linked list whatever mix of calls is made.
-/
import Gink.Memory.Store
import Gink.Chain.Bundle

namespace Gink

namespace Memory

/-! ## §1. What one call does to the chain dictionaries. -/

/-- The store once `bundle` is stored, whatever became of the identity and of the
verify key of its chain. -/
def Store.withBundle (s : Store) (info : BundleInfo) (bundle : Decomposition) : Store :=
  { s with
    bundles := s.bundles.put info.essential (info, bundle)
    chainInfos := s.chainInfos.put info.chain info }

/-- The same store as far as bundles, chain infos and contents are concerned. -/
structure SameButKeys (s s' : Store) : Prop where
  bundles : s'.bundles = s.bundles
  chainInfos : s'.chainInfos = s.chainInfos
  contents : s'.contents = s.contents
  claims : s'.claims = s.claims
  signingKeys : s'.signingKeys = s.signingKeys
  symmetricKeys : s'.symmetricKeys = s.symmetricKeys
  retainingEntries : s'.retainingEntries = s.retainingEntries

theorem SameButKeys.refl (s : Store) : SameButKeys s s := ⟨rfl, rfl, rfl, rfl, rfl, rfl, rfl⟩

/-- Starting a chain touches identities and verify keys only. -/
theorem startChain_same {builder : BundleBuilder} {chain : Chain} {s : Store} :
    SameButKeys s (Action.endState (startChain builder chain s)) := by
  unfold startChain
  rw [Action.modify_bind]
  cases hk : verifyKey builder.verifyKey with
  | error e => exact ⟨rfl, rfl, rfl, rfl, rfl, rfl, rfl⟩
  | ok key => exact ⟨rfl, rfl, rfl, rfl, rfl, rfl, rfl⟩

/-- Checking a link only reads. -/
theorem checkLink_same {builder : BundleBuilder} {chain : Chain} {old : Option BundleInfo}
    {s : Store} : Action.endState (checkLink builder chain old s) = s := by
  unfold checkLink
  rw [Action.get_bind]
  cases hk : s.verifyKeys.get? chain with
  | none => rfl
  | some key =>
      rw [orRaise_some, Action.of_ok_bind]
      cases old with
      | none => rfl
      | some info =>
          rw [orRaise_some, Action.of_ok_bind]
          cases decide (builder.priorHash = info.hash) with
          | true => rfl
          | false => rfl

/-- It succeeds for a bundle that carries the hash of the chain's last one. -/
theorem checkLink_ok {builder : BundleBuilder} {chain : Chain} {old : Option BundleInfo}
    {s s' : Store} {key : Bytes} (h : checkLink builder chain old s = .ok key s') :
    s.verifyKeys.get? chain = some key ∧ ∃ info, old = some info ∧ builder.priorHash = info.hash := by
  unfold checkLink at h
  rw [Action.get_bind] at h
  cases hk : s.verifyKeys.get? chain with
  | none =>
      rw [hk, orRaise_none, Action.of_error_bind] at h
      exact absurd h (by simp)
  | some k =>
      rw [hk, orRaise_some, Action.of_ok_bind] at h
      cases old with
      | none =>
          rw [orRaise_none, Action.of_error_bind] at h
          exact absurd h (by simp)
      | some info =>
          rw [orRaise_some, Action.of_ok_bind] at h
          by_cases hh : builder.priorHash = info.hash
          · rw [decide_eq_true hh, ensure_true, Action.of_ok_bind, Action.pure_apply] at h
            injection h with hkey
            exact ⟨by rw [hkey], info, rfl, hh⟩
          · rw [decide_eq_false hh, ensure_false, Action.of_error_bind] at h
            exact absurd h (by simp)

/-- What `chainKey` leaves, and what its success says about the link. -/
theorem chainKey_same (builder : BundleBuilder) (newInfo : BundleInfo) (old : Option BundleInfo)
    (s : Store) : SameButKeys s (Action.endState (chainKey builder newInfo old s)) := by
  unfold chainKey
  split_ifs with h
  · exact startChain_same
  · rw [checkLink_same]
    exact SameButKeys.refl s

theorem chainKey_ok {builder : BundleBuilder} {newInfo : BundleInfo} {old : Option BundleInfo}
    {s s' : Store} {key : Bytes} (h : chainKey builder newInfo old s = .ok key s') :
    SameButKeys s s' ∧ (newInfo.chainStart ≠ newInfo.timestamp →
      ∃ info, old = some info ∧ builder.priorHash = info.hash) := by
  have hsame : SameButKeys s s' := by
    have := chainKey_same builder newInfo old s
    rw [h] at this
    exact this
  refine ⟨hsame, ?_⟩
  intro hne
  unfold chainKey at h
  rw [if_neg hne] at h
  exact (checkLink_ok h).2

/-- Admission that raises stores nothing but, for a new chain, its identity and key. -/
theorem validate_error {lib : Externals} {bundle : Decomposition} {builder : BundleBuilder}
    {newInfo : BundleInfo} {old : Option BundleInfo} {s s' : Store} {e : Error}
    (h : validate lib bundle builder newInfo old s = .error e s') : SameButKeys s s' := by
  have hsame := chainKey_same builder newInfo old s
  unfold validate at h
  rcases Action.bind_eq_error.mp h with hkey | ⟨key, s₁, hk, hrest⟩
  · rw [hkey] at hsame
    exact hsame
  · rw [hk] at hsame
    rcases Action.bind_eq_error.mp hrest with hverify | ⟨u, s₂, -, hstore⟩
    · obtain ⟨-, hs⟩ := Action.of_eq_error.mp hverify
      rw [hs]
      exact hsame
    · rw [Action.modify_apply] at hstore
      exact absurd hstore (by simp)

/-- Admission that succeeds stores the bundle, with a checked link. -/
theorem validate_ok {lib : Externals} {bundle : Decomposition} {builder : BundleBuilder}
    {newInfo : BundleInfo} {old : Option BundleInfo} {s s' : Store} {u : Unit}
    (h : validate lib bundle builder newInfo old s = .ok u s') :
    (∃ s₁, SameButKeys s s₁ ∧ s' = s₁.withBundle newInfo bundle) ∧
      (newInfo.chainStart ≠ newInfo.timestamp →
        ∃ info, old = some info ∧ builder.priorHash = info.hash) := by
  unfold validate at h
  obtain ⟨key, s₁, hk, hrest⟩ := Action.bind_eq_ok.mp h
  obtain ⟨hsame, hlink⟩ := chainKey_ok hk
  obtain ⟨u', s₂, hv, hstore⟩ := Action.bind_eq_ok.mp hrest
  obtain ⟨-, hs⟩ := Action.of_eq_ok.mp hv
  rw [Action.modify_apply, hs] at hstore
  injection hstore with _ hstore
  exact ⟨⟨s₁, hsame, hstore.symm⟩, hlink⟩

/-- Applying the changes writes the contents only. -/
theorem applyChanges_contents (lib : Externals) (clock : Nat → Int) (builder : BundleBuilder)
    (newInfo : BundleInfo) (s : Store) :
    ∃ contents, Action.endState (applyChanges lib clock builder newInfo s)
      = { s with contents } := by
  unfold applyChanges
  rw [Action.get_bind]
  cases hc : openChanges lib s.symmetricKey builder with
  | error e => exact ⟨s.contents, rfl⟩
  | ok changes =>
      rw [Action.of_ok_bind]
      unfold onContents Action.within
      cases applyChangesFrom s.retainingEntries clock newInfo 1 changes s.contents with
      | ok u c => exact ⟨c, rfl⟩
      | error e c => exact ⟨c, rfl⟩

/-- The two things a call can do to the chain dictionaries. -/
inductive ChainStep (lib : Externals) (s s' : Store) : Prop where
  | kept (bundles : s'.bundles = s.bundles) (chainInfos : s'.chainInfos = s.chainInfos)
  | stored (bundle : Decomposition) (builder : BundleBuilder) (info : BundleInfo)
      (opened : bundle.getBuilder lib = .ok builder)
      (info_eq : info = .ofBuilder builder (lib.digest bundle.bundleBytes))
      (needed : isNeeded info (s.chainInfos.get? info.chain) = .ok true)
      (link : info.chainStart ≠ info.timestamp →
        ∃ old, s.chainInfos.get? info.chain = some old ∧ builder.priorHash = old.hash)
      (bundles : s'.bundles = s.bundles.put info.essential (info, bundle))
      (chainInfos : s'.chainInfos = s.chainInfos.put info.chain info)

/-- **One call**: it leaves the chain dictionaries alone, or stores a bundle that
extends its chain; when it reports a duplicate it leaves everything alone. -/
theorem applyBundle_step (lib : Externals) (s : Store) (bundle : Decomposition)
    (callback : Option Callback) (clock : Nat → Int) :
    ChainStep lib s (applyBundle lib s bundle callback clock).store ∧
      ((applyBundle lib s bundle callback clock).result = .ok false →
        (applyBundle lib s bundle callback clock).store = s) := by
  unfold applyBundle
  cases hb : bundle.getBuilder lib with
  | error e => exact ⟨.kept rfl rfl, fun _ => rfl⟩
  | ok builder =>
      simp only
      generalize hinfo : BundleInfo.ofBuilder builder (lib.digest bundle.bundleBytes) = info
      cases hn : isNeeded info (s.chainInfos.get? info.chain) with
      | error e => exact ⟨.kept rfl rfl, fun _ => rfl⟩
      | ok needed =>
          cases needed with
          | false => exact ⟨.kept rfl rfl, fun _ => rfl⟩
          | true =>
              simp only
              -- where the bundle was stored, the changes only wrote contents
              have hstored : ∀ s₁, validate lib bundle builder info (s.chainInfos.get? info.chain) s
                    = .ok () s₁ →
                  ChainStep lib s (Action.endState (applyChanges lib clock builder info s₁)) := by
                intro s₁ ha
                obtain ⟨⟨s₀, hsame, rfl⟩, hlink⟩ := validate_ok ha
                obtain ⟨contents, hcontents⟩ := applyChanges_contents lib clock builder info
                  (s₀.withBundle info bundle)
                rw [hcontents]
                refine .stored bundle builder info hb hinfo.symm hn hlink ?_ ?_
                · show s₀.bundles.put _ _ = _
                  rw [hsame.bundles]
                · show s₀.chainInfos.put _ _ = _
                  rw [hsame.chainInfos]
              cases hrun : applyNeeded lib clock bundle builder info
                  (s.chainInfos.get? info.chain) s with
              | error e s' =>
                  refine ⟨?_, by simp⟩
                  show ChainStep lib s s'
                  unfold applyNeeded at hrun
                  rcases Action.bind_eq_error.mp hrun with ha | ⟨u, s₁, ha, hc⟩
                  · exact .kept (validate_error ha).bundles (validate_error ha).chainInfos
                  · have := hstored s₁ ha
                    rw [hc] at this
                    exact this
              | ok u s' =>
                  have hstep : ChainStep lib s s' := by
                    unfold applyNeeded at hrun
                    obtain ⟨u', s₁, ha, hc⟩ := Action.bind_eq_ok.mp hrun
                    have := hstored s₁ ha
                    rw [hc] at this
                    exact this
                  cases callback with
                  | none => exact ⟨hstep, by simp⟩
                  | some f =>
                      simp only
                      cases f bundle with
                      | error e => exact ⟨hstep, by simp⟩
                      | ok u => exact ⟨hstep, by simp⟩

/-! ## §2. The invariant. -/

/-- The stored bundles of a chain, in the order of the dictionary. -/
def Store.bundlesOf (s : Store) (chain : Chain) : List Decomposition :=
  (s.bundles.rows.filter (fun r => decide (r.2.1.chain = chain))).map (·.2.2)

/-- What holds of the chain dictionaries in every state. -/
structure ChainInv (lib : Externals) (s : Store) : Prop where
  keys : ∀ r ∈ s.bundles.rows, r.1 = r.2.1.essential ∧ r.2.2.getInfo lib = .ok r.2.1
  linked : ∀ chain, ChainLinked lib chain (s.bundlesOf chain) (s.chainInfos.get? chain)

/-- Bundles of a chain are not newer than the chain's info. -/
theorem ChainInv.timestamp_le {lib : Externals} {s : Store} (h : ChainInv lib s)
    {r : InfoKey × BundleInfo × Decomposition} (hr : r ∈ s.bundles.rows) :
    ∃ last, s.chainInfos.get? r.2.1.chain = some last ∧ r.2.1.timestamp ≤ last.timestamp := by
  have hmem : r.2.2 ∈ s.bundlesOf r.2.1.chain :=
    List.mem_map.mpr ⟨r, List.mem_filter.mpr ⟨hr, by simp⟩, rfl⟩
  obtain ⟨info, last, hinfo, hlast, hle⟩ := (h.linked r.2.1.chain).timestamp_le hmem
  rw [(h.keys r hr).2] at hinfo
  injection hinfo with hinfo
  exact ⟨last, hlast, hinfo ▸ hle⟩

/-- `get_bundles` hands over the bundles of a chain in that order. -/
theorem ChainInv.getBundles_filter {lib : Externals} {s : Store} (h : ChainInv lib s)
    (chain : Chain) : (getBundles s none).filter (inChain lib chain) = s.bundlesOf chain := by
  unfold getBundles Store.bundlesOf
  rw [List.filter_map]
  congr 1
  rw [List.filter_filter]
  refine List.filter_congr ?_
  intro r hr
  simp [inChain, (h.keys r hr).2, Except.toOption]

/-- The step: a stored bundle goes to the end of its chain's list and no other list
changes. -/
theorem ChainInv.step {lib : Externals} {s s' : Store} (h : ChainInv lib s)
    (hstep : ChainStep lib s s') : ChainInv lib s' := by
  cases hstep with
  | kept hb hc =>
      refine ⟨?_, ?_⟩
      · rw [hb]
        exact h.keys
      · intro chain
        unfold Store.bundlesOf
        rw [hb, hc]
        exact h.linked chain
  | stored bundle builder info hopen hinfo hneeded hlink hb hc =>
      have hlt := (isNeeded_eq_true hneeded).1
      -- the bundles of the chain are all older than the new one
      have hold : ∀ r ∈ s.bundles.rows, r.2.1.chain = info.chain → r.1 < info.essential := by
        intro r hr hchain
        obtain ⟨last, hlast, hle⟩ := h.timestamp_le hr
        rw [hchain] at hlast
        rw [hlast] at hlt
        have hlt' : last.timestamp < info.timestamp := hlt
        rw [(h.keys r hr).1, InfoKey.lt_iff_toNat_lt]
        have h1 := r.2.1.medallion.isLt
        have h2 := r.2.1.chainStart.isLt
        have h3 : r.2.1.timestamp.val < info.timestamp.val := lt_of_le_of_lt hle hlt'
        unfold InfoKey.toNat BundleInfo.essential
        simp only
        omega
      refine ⟨?_, ?_⟩
      · intro r hr
        rw [hb] at hr
        rcases Table.mem_rows_put.mp hr with rfl | ⟨-, hr⟩
        · refine ⟨rfl, ?_⟩
          simp [Decomposition.getInfo, hopen, hinfo, Except.map]
        · exact h.keys r hr
      · intro chain
        unfold Store.bundlesOf
        rw [hb, hc, Table.get?_put]
        by_cases hch : info.chain = chain
        · subst hch
          rw [Table.filter_put_of_last _ (by simp)
            (fun r hr hp => hold r hr (by simpa using hp)), if_pos rfl, List.map_append]
          have := (h.linked info.chain).extend hopen (by rw [← hinfo]) (by rw [← hinfo]; exact hneeded)
            (fun hne => hlink (by rw [hinfo]; exact hne))
          rw [← hinfo] at this
          exact this
        · rw [if_neg (Ne.symm hch), Table.filter_put_of_false]
          · exact h.linked chain
          · simpa using hch
          · intro w hw
            -- the key names the chain
            have hkey := (h.keys _ hw).1
            have : w.1.chain = info.chain := by
              unfold BundleInfo.essential at hkey
              simp only [InfoKey.mk.injEq] at hkey
              unfold BundleInfo.chain
              rw [hkey.2.1, hkey.2.2]
            rw [decide_eq_false_iff_not]
            show w.1.chain ≠ chain
            rw [this]
            exact hch

/-! ## §3. Runs. -/

/-- The states a run of `apply_bundle` calls on an empty store goes through.  The
symmetric keys it was given before are arbitrary. -/
inductive Reachable (lib : Externals) : Store → Prop
  | empty (symmetricKeys : List (Nat × Bytes)) (retainingEntries : Bool) :
      Reachable lib { symmetricKeys, retainingEntries }
  | apply {s : Store} (h : Reachable lib s) (bundle : Decomposition)
      (callback : Option Callback) (clock : Nat → Int) :
      Reachable lib (applyBundle lib s bundle callback clock).store

/-- **The invariant holds in every state of every run.** -/
theorem Reachable.chainInv {lib : Externals} {s : Store} (h : Reachable lib s) :
    ChainInv lib s := by
  induction h with
  | empty keys retaining => exact ⟨by simp, fun chain => ChainLinked.nil⟩
  | apply h bundle callback clock ih =>
      exact ih.step (applyBundle_step lib _ bundle callback clock).1

end Memory

end Gink
