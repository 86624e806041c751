/-
  Gink.Memory.Atomicity — what a raising `apply_bundle` leaves in a `MemoryStore`.

  The store writes the identity and the verify key of a new chain before it checks
  the signature, and the bundle and its info before it applies the changes.  A call
  that raises after writing something new can be told from no call at all;
  `raise_unobservable_iff` says exactly when that is.
-/
import Gink.Memory.Chains
import Gink.Proto.Sample

namespace Gink

namespace Memory

/-! ## §1. What can be observed. -/

/-- What each call hands to its callback and what it returns or raises. -/
def outcomes (lib : Externals) : Store → List Call →
    List (List Decomposition × Except Error Bool)
  | _, [] => []
  | s, call :: rest =>
      ((call.run lib s).delivered, (call.run lib s).result)
        :: outcomes lib (call.run lib s).store rest

/-- Every read gives the same answer on both stores. -/
structure SameReads (s t : Store) : Prop where
  bundles : ∀ limitTo, getBundles s limitTo = getBundles t limitTo
  last : ∀ chain, getLast s chain = getLast t chain
  hasMap : getHasMap s = getHasMap t
  identity : ∀ chain, getIdentity s chain = getIdentity t chain
  verifyKey : ∀ chain, getVerifyKey s chain = getVerifyKey t chain
  container : ∀ muid, getContainer s.contents muid = getContainer t.contents muid
  containers : listContainers s.contents = listContainers t.contents
  entryByKey : ∀ container key asOf,
    getEntryByKey s.contents container key asOf = getEntryByKey t.contents container key asOf
  keyedEntries : ∀ container behavior asOf,
    getKeyedEntries s.contents container behavior asOf
      = getKeyedEntries t.contents container behavior asOf
  orderedEntries : ∀ container asOf limit offset desc after,
    getOrderedEntries s.contents container asOf limit offset desc after
      = getOrderedEntries t.contents container asOf limit offset desc after
  positionedEntry : ∀ entry asOf,
    getPositionedEntry s.contents entry asOf = getPositionedEntry t.contents entry asOf
  edgeEntries : ∀ asOf edgeType source target,
    getEdgeEntries s.contents asOf edgeType source target
      = getEdgeEntries t.contents asOf edgeType source target
  byName : ∀ name asOf, getByName s.contents name asOf = getByName t.contents name asOf
  byDescribing : ∀ desc asOf,
    getByDescribing s.contents desc asOf = getByDescribing t.contents desc asOf

theorem SameReads.refl (s : Store) : SameReads s s where
  bundles _ := rfl
  last _ := rfl
  hasMap := rfl
  identity _ := rfl
  verifyKey _ := rfl
  container _ := rfl
  containers := rfl
  entryByKey _ _ _ := rfl
  keyedEntries _ _ _ := rfl
  orderedEntries _ _ _ _ _ _ := rfl
  positionedEntry _ _ := rfl
  edgeEntries _ _ _ _ := rfl
  byName _ _ := rfl
  byDescribing _ _ := rfl

/-- No sequence of later calls and no read after it tells the two stores apart. -/
def Indistinguishable (lib : Externals) (s t : Store) : Prop :=
  ∀ calls, outcomes lib s calls = outcomes lib t calls ∧
    SameReads (runCalls lib s calls) (runCalls lib t calls)

theorem Indistinguishable.refl (lib : Externals) (s : Store) : Indistinguishable lib s s :=
  fun _ => ⟨rfl, SameReads.refl _⟩

/-- Reads made at once are part of it. -/
theorem Indistinguishable.sameReads {lib : Externals} {s t : Store}
    (h : Indistinguishable lib s t) : SameReads s t := (h []).2

/-! ## §2. When nothing new is written. -/

/-- The bundle passes the checks made before it is stored: it carries a good key and
signature, and after the first bundle of its chain also the hash of the last one. -/
def Admissible (lib : Externals) (s : Store) (bundle : Decomposition) (builder : BundleBuilder)
    (info : BundleInfo) : Prop :=
  if info.chainStart = info.timestamp then
    ∃ key, verifyKey builder.verifyKey = .ok key ∧ lib.verify key bundle.bundleBytes = true
  else
    ∃ key old, s.verifyKeys.get? info.chain = some key ∧ s.chainInfos.get? info.chain = some old ∧
      builder.priorHash = old.hash ∧ lib.verify key bundle.bundleBytes = true

/-- The identity and, if it is one, the verify key that a first bundle brings are on
record for its chain already. -/
def AlreadyStarted (s : Store) (builder : BundleBuilder) (chain : Chain) : Prop :=
  s.identities.get? chain = some builder.identity ∧
    ∀ key, verifyKey builder.verifyKey = .ok key → s.verifyKeys.get? chain = some key

/-- A call with this bundle can raise only before it writes anything new: the bundle
does not parse or is not needed, or it is not admissible and, if it starts a chain,
brings nothing that is not on record. -/
def Harmless (lib : Externals) (s : Store) (bundle : Decomposition) : Prop :=
  ∀ builder, bundle.getBuilder lib = .ok builder → ∀ info,
    info = .ofBuilder builder (lib.digest bundle.bundleBytes) →
    isNeeded info (s.chainInfos.get? info.chain) = .ok true →
      ¬ Admissible lib s bundle builder info ∧
        (info.chainStart = info.timestamp → AlreadyStarted s builder info.chain)

/-! ## §3. What a raising call writes. -/

/-- The store once a chain's identity and, if it is one, its verify key are written. -/
def Store.started (s : Store) (builder : BundleBuilder) (chain : Chain) : Store :=
  { s with
    identities := s.identities.put chain builder.identity
    verifyKeys := match verifyKey builder.verifyKey with
      | .ok key => s.verifyKeys.put chain key
      | .error _ => s.verifyKeys }

/-- Nothing new is written for a chain that is started already. -/
theorem started_eq_self {s : Store} {builder : BundleBuilder} {chain : Chain}
    (h : AlreadyStarted s builder chain) : s.started builder chain = s := by
  unfold Store.started
  rw [Table.put_eq_self h.1]
  cases hk : verifyKey builder.verifyKey with
  | error e => rfl
  | ok key =>
      simp only
      rw [Table.put_eq_self (h.2 key hk)]

/-- And something that shows is written for any other. -/
theorem alreadyStarted_of_sameReads {s : Store} {builder : BundleBuilder} {chain : Chain}
    (h : SameReads (s.started builder chain) s) : AlreadyStarted s builder chain := by
  refine ⟨?_, ?_⟩
  · have hid := h.identity chain
    unfold getIdentity Store.started at hid
    rw [Table.get?_put_self, orRaise_some] at hid
    exact orRaise_eq_ok.mp hid.symm
  · intro key hk
    have hkey := h.verifyKey chain
    unfold getVerifyKey Store.started at hkey
    simp only [hk] at hkey
    rw [Table.get?_put_self, orRaise_some] at hkey
    exact orRaise_eq_ok.mp hkey.symm

/-- Admission of a first bundle. -/
theorem validate_start (lib : Externals) (bundle : Decomposition) (builder : BundleBuilder)
    {info : BundleInfo} (old : Option BundleInfo) (s : Store)
    (hstart : info.chainStart = info.timestamp) :
    (Admissible lib s bundle builder info ∧
      ∃ s', validate lib bundle builder info old s = .ok () s' ∧
        s'.chainInfos.get? info.chain = some info) ∨
    (¬ Admissible lib s bundle builder info ∧
      ∃ e, validate lib bundle builder info old s = .error e (s.started builder info.chain)) := by
  unfold Admissible validate chainKey startChain Store.started
  rw [if_pos hstart, if_pos hstart, Action.bind_eq, Action.modify_bind]
  cases hk : verifyKey builder.verifyKey with
  | error e =>
      refine Or.inr ⟨?_, e, rfl⟩
      rintro ⟨key, hkey, -⟩
      simp at hkey
  | ok key =>
      rw [Action.of_ok_bind, Action.modify_bind, Action.pure_apply]
      simp only
      cases hv : lib.verify key bundle.bundleBytes with
      | false =>
          refine Or.inr ⟨?_, .badSignatureError, rfl⟩
          rintro ⟨key', hkey, hverify⟩
          injection hkey with hkey
          rw [← hkey, hv] at hverify
          simp at hverify
      | true =>
          refine Or.inl ⟨⟨key, rfl, hv⟩, _, rfl, ?_⟩
          exact Table.get?_put_self _ _ _

/-- Admission of a later bundle. -/
theorem validate_later (lib : Externals) (bundle : Decomposition) (builder : BundleBuilder)
    {info : BundleInfo} (s : Store) (hlater : info.chainStart ≠ info.timestamp) :
    (Admissible lib s bundle builder info ∧
      ∃ s', validate lib bundle builder info (s.chainInfos.get? info.chain) s = .ok () s' ∧
        s'.chainInfos.get? info.chain = some info) ∨
    (¬ Admissible lib s bundle builder info ∧
      ∃ e, validate lib bundle builder info (s.chainInfos.get? info.chain) s = .error e s) := by
  unfold Admissible validate chainKey checkLink
  rw [if_neg hlater, if_neg hlater, Action.bind_eq, Action.get_bind]
  cases hk : s.verifyKeys.get? info.chain with
  | none =>
      refine Or.inr ⟨?_, _, rfl⟩
      rintro ⟨key, old, hkey, -⟩
      simp at hkey
  | some key =>
      rw [orRaise_some, Action.of_ok_bind]
      cases ho : s.chainInfos.get? info.chain with
      | none =>
          refine Or.inr ⟨?_, _, rfl⟩
          rintro ⟨key, old, -, hold, -⟩
          simp at hold
      | some old =>
          rw [orRaise_some, Action.of_ok_bind]
          by_cases hh : builder.priorHash = old.hash
          · rw [decide_eq_true hh, ensure_true, Action.of_ok_bind, Action.pure_apply]
            simp only
            cases hv : lib.verify key bundle.bundleBytes with
            | false =>
                refine Or.inr ⟨?_, .badSignatureError, rfl⟩
                rintro ⟨key', old', hkey, -, -, hverify⟩
                injection hkey with hkey
                rw [← hkey, hv] at hverify
                simp at hverify
            | true =>
                refine Or.inl ⟨⟨key, old, rfl, rfl, hh, hv⟩, _, rfl, ?_⟩
                exact Table.get?_put_self _ _ _
          · rw [decide_eq_false hh, ensure_false, Action.of_error_bind]
            refine Or.inr ⟨?_, _, rfl⟩
            rintro ⟨key', old', -, hold, hhash, -⟩
            injection hold with hold
            rw [hold] at hh
            exact hh hhash

/-- What a call that raises leaves behind. -/
inductive Raised (lib : Externals) (s : Store) (bundle : Decomposition) (s' : Store) : Prop where
  | unopened (e : Error) (h : bundle.getBuilder lib = .error e) (same : s' = s)
  | refused (builder : BundleBuilder) (opened : bundle.getBuilder lib = .ok builder) (e : Error)
      (h : isNeeded (.ofBuilder builder (lib.digest bundle.bundleBytes))
        (s.chainInfos.get? (BundleInfo.ofBuilder builder (lib.digest bundle.bundleBytes)).chain)
          = .error e) (same : s' = s)
  | rejected (builder : BundleBuilder) (opened : bundle.getBuilder lib = .ok builder)
      (info : BundleInfo) (info_eq : info = .ofBuilder builder (lib.digest bundle.bundleBytes))
      (needed : isNeeded info (s.chainInfos.get? info.chain) = .ok true)
      (h : ¬ Admissible lib s bundle builder info)
      (written : s' = if info.chainStart = info.timestamp then s.started builder info.chain else s)
  | stored (builder : BundleBuilder) (opened : bundle.getBuilder lib = .ok builder)
      (info : BundleInfo) (info_eq : info = .ofBuilder builder (lib.digest bundle.bundleBytes))
      (needed : isNeeded info (s.chainInfos.get? info.chain) = .ok true)
      (h : Admissible lib s bundle builder info)
      (last : s'.chainInfos.get? info.chain = some info)

/-- The part of a call that follows `is_needed`, when it raises or its callback does. -/
theorem applyNeeded_chainInfos {lib : Externals} (clock : Nat → Int) {bundle : Decomposition}
    {builder : BundleBuilder} {info : BundleInfo} {old : Option BundleInfo} {s s₁ : Store}
    (hvalid : validate lib bundle builder info old s = .ok () s₁) :
    (Action.endState (applyNeeded lib clock bundle builder info old s)).chainInfos
      = s₁.chainInfos := by
  unfold applyNeeded
  rw [Action.bind_eq, hvalid]
  obtain ⟨contents, hc⟩ := applyChanges_contents lib clock builder info s₁
  show (Action.endState (applyChanges lib clock builder info s₁)).chainInfos = _
  rw [hc]

/-- **A call that raises**, taken apart by where it stopped. -/
theorem applyBundle_raised {lib : Externals} {s : Store} {bundle : Decomposition}
    {callback : Option Callback} {clock : Nat → Int} {e : Error}
    (h : (applyBundle lib s bundle callback clock).result = .error e) :
    Raised lib s bundle (applyBundle lib s bundle callback clock).store := by
  unfold applyBundle at h ⊢
  cases hb : bundle.getBuilder lib with
  | error e' => exact .unopened e' hb rfl
  | ok builder =>
      simp only [hb] at h ⊢
      generalize hinfo : BundleInfo.ofBuilder builder (lib.digest bundle.bundleBytes) = info
        at h ⊢
      cases hn : isNeeded info (s.chainInfos.get? info.chain) with
      | error e' => exact .refused builder hb e' (hinfo ▸ hn) rfl
      | ok needed =>
          simp only [hn] at h ⊢
          cases needed with
          | false => simp at h
          | true =>
              simp only at h ⊢
              have hvalid : (Admissible lib s bundle builder info ∧
                  ∃ s', validate lib bundle builder info (s.chainInfos.get? info.chain) s = .ok () s' ∧
                    s'.chainInfos.get? info.chain = some info) ∨
                  (¬ Admissible lib s bundle builder info ∧
                  ∃ e, validate lib bundle builder info (s.chainInfos.get? info.chain) s
                    = .error e (if info.chainStart = info.timestamp
                        then s.started builder info.chain else s)) := by
                by_cases hstart : info.chainStart = info.timestamp
                · rw [if_pos hstart]
                  exact validate_start lib bundle builder _ s hstart
                · rw [if_neg hstart]
                  exact validate_later lib bundle builder s hstart
              rcases hvalid with ⟨hgood, s₁, hok, hlast⟩ | ⟨hbad, e', herr⟩
              · -- the bundle is stored: whatever raised came after that
                have hinfos := applyNeeded_chainInfos clock hok
                cases hrun : applyNeeded lib clock bundle builder info
                    (s.chainInfos.get? info.chain) s with
                | error e' s' =>
                    rw [hrun] at hinfos
                    refine .stored builder hb info hinfo.symm hn hgood ?_
                    show s'.chainInfos.get? _ = _
                    rw [show s'.chainInfos = s₁.chainInfos from hinfos, hlast]
                | ok u s' =>
                    rw [hrun] at hinfos
                    have hs' : s'.chainInfos.get? info.chain = some info := by
                      rw [show s'.chainInfos = s₁.chainInfos from hinfos, hlast]
                    cases callback with
                    | none => simp [hrun] at h
                    | some f =>
                        simp only
                        cases hf : f bundle with
                        | error e' => exact .stored builder hb info hinfo.symm hn hgood hs'
                        | ok u => simp [hrun, hf] at h
              · have hrun : applyNeeded lib clock bundle builder info
                    (s.chainInfos.get? info.chain) s = .error e' (if info.chainStart = info.timestamp
                        then s.started builder info.chain else s) := by
                  unfold applyNeeded
                  rw [Action.bind_eq, herr]
                rw [hrun]
                exact .rejected builder hb info hinfo.symm hn hbad rfl

/-! ## §4. When a raising call cannot be observed. -/

/-- **Exactly when** a call that raises is as if it had not been made: for every store,
every bundle, callback and clock, when the bundle is refused before anything new is
written. -/
theorem raise_unobservable_iff (lib : Externals) (s : Store) (bundle : Decomposition)
    (callback : Option Callback) (clock : Nat → Int) (e : Error)
    (h : (applyBundle lib s bundle callback clock).result = .error e) :
    Indistinguishable lib (applyBundle lib s bundle callback clock).store s
      ↔ Harmless lib s bundle := by
  cases applyBundle_raised h with
  | unopened e' hb hsame =>
      rw [hsame]
      refine ⟨fun _ builder hopen => ?_, fun _ => .refl lib s⟩
      rw [hb] at hopen
      simp at hopen
  | refused builder hopen e' hn hsame =>
      rw [hsame]
      refine ⟨fun _ builder' hopen' info hinfo hneeded => ?_, fun _ => .refl lib s⟩
      rw [hopen] at hopen'
      injection hopen' with hopen'
      rw [hinfo, ← hopen', hn] at hneeded
      simp at hneeded
  | rejected builder hopen info hinfo hneeded hbad hwritten =>
      rw [hwritten]
      have hthis : Harmless lib s bundle
          ↔ (info.chainStart = info.timestamp → AlreadyStarted s builder info.chain) := by
        refine ⟨fun hh => (hh builder hopen info hinfo hneeded).2, fun hh => ?_⟩
        intro builder' hopen' info' hinfo' _
        rw [hopen] at hopen'
        injection hopen' with hopen'
        subst hopen'
        rw [← hinfo] at hinfo'
        subst hinfo'
        exact ⟨hbad, hh⟩
      rw [hthis]
      by_cases hstart : info.chainStart = info.timestamp
      · rw [if_pos hstart]
        refine ⟨fun hi _ => alreadyStarted_of_sameReads hi.sameReads, fun hh => ?_⟩
        rw [started_eq_self (hh hstart)]
        exact .refl lib s
      · rw [if_neg hstart]
        exact ⟨fun _ hs => absurd hs hstart, fun _ => .refl lib s⟩
  | stored builder hopen info hinfo hneeded hgood hlast =>
      refine ⟨fun hi => ?_, fun hh => absurd hgood (hh builder hopen info hinfo hneeded).1⟩
      -- the chain's last info is the new one now, and was an older one before
      have hread := hi.sameReads.last info.chain
      unfold getLast at hread
      rw [hlast, orRaise_some] at hread
      have hold := orRaise_eq_ok.mp hread.symm
      have hlt := (isNeeded_eq_true hneeded).1
      rw [hold] at hlt
      exact absurd hlt (lt_irrefl _)

/-- A chain of one bundle, a second bundle encrypted with a key the store does not
have, and another second bundle in plain. -/
def unknownKeyChain : List BundleBuilder :=
  [startingBundle 5 7 [],
    { followingBundle 6 0 (startingBundle 5 7 []) [] with keyId := 9, encrypted := [1] },
    followingBundle 8 0 (startingBundle 5 7 []) []]

/-- The store that has accepted the first of them. -/
def startedStore : Store :=
  (applyBundle (sampleExternals unknownKeyChain) {} (sampleBundle 0) none (fun _ => 0)).store

/-- The encrypted bundle raises, and after that the store refuses a bundle built on the
link it had, which it accepts without the call that raised. -/
theorem raise_shows :
    Reachable (sampleExternals unknownKeyChain) startedStore ∧
    (applyBundle (sampleExternals unknownKeyChain) startedStore (sampleBundle 1) none
      (fun _ => 0)).result = .error (.keyError "symmetric_keys") ∧
    (applyBundle (sampleExternals unknownKeyChain) startedStore (sampleBundle 2) none
      (fun _ => 0)).result = .ok true ∧
    (applyBundle (sampleExternals unknownKeyChain)
      (applyBundle (sampleExternals unknownKeyChain) startedStore (sampleBundle 1) none
        (fun _ => 0)).store (sampleBundle 2) none (fun _ => 0)).result
      = .error (.valueError "Bundle received without prior link in chain!") ∧
    ¬ Indistinguishable (sampleExternals unknownKeyChain)
      (applyBundle (sampleExternals unknownKeyChain) startedStore (sampleBundle 1) none
        (fun _ => 0)).store startedStore := by
  have hplain : (applyBundle (sampleExternals unknownKeyChain) startedStore (sampleBundle 2) none
      (fun _ => 0)).result = .ok true := by decide +kernel
  have hrefused : (applyBundle (sampleExternals unknownKeyChain)
      (applyBundle (sampleExternals unknownKeyChain) startedStore (sampleBundle 1) none
        (fun _ => 0)).store (sampleBundle 2) none (fun _ => 0)).result
      = .error (.valueError "Bundle received without prior link in chain!") := by decide +kernel
  refine ⟨.apply (.empty [] true) _ _ _, by decide +kernel, hplain, hrefused, ?_⟩
  intro h
  have hcall := (h [{ bundle := sampleBundle 2 }]).1
  unfold outcomes at hcall
  simp only [List.cons.injEq, Prod.mk.injEq] at hcall
  have hresult := hcall.1.2
  unfold Call.run at hresult
  rw [hplain, hrefused] at hresult
  simp at hresult

/-- At the same input the condition fails, and so does the claim. -/
theorem raise_unobservable_iff_sample :
    (Indistinguishable (sampleExternals unknownKeyChain)
        (applyBundle (sampleExternals unknownKeyChain) startedStore (sampleBundle 1) none
          (fun _ => 0)).store startedStore
      ↔ Harmless (sampleExternals unknownKeyChain) startedStore (sampleBundle 1)) :=
  raise_unobservable_iff _ _ _ _ _ (.keyError "symmetric_keys") (by decide +kernel)

end Memory

end Gink
