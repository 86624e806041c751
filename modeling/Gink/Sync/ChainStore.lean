/-
  Gink.Sync.ChainStore — what a server may count on of its store, whichever it is.

  A chain store holds bundles in linked lists, one for each chain, and knows the last of
  each.  A call of `apply_bundle` either leaves all of that alone or puts the bundle at
  the end of its chain's list; `get_bundles` lists what is held.  Both stores are such.
-/
import Gink.Sync.Stores
import Gink.Memory.Chains
import Gink.Lmdb.Chains

namespace Gink

/-! ## §1. The abstract store. -/

/-- The bundle is no newer than its chain's limit. -/
def withinLimit (lib : Externals) (limit : Chain → Nat) (d : Decomposition) : Bool :=
  (d.getInfo lib).toOption.any fun info => decide (info.timestamp.val ≤ limit info.chain)

/-- The store held `ds`, with `last` the ends of its chains, and now holds `d` too. -/
structure Took (lib : Externals) (d : Decomposition) (ds ds' : List Decomposition)
    (last last' : Chain → Option BundleInfo) : Prop where
  needed : ∃ builder, d.getBuilder lib = .ok builder ∧
    isNeeded (.ofBuilder builder (lib.digest d.bundleBytes))
      (last (BundleInfo.ofBuilder builder (lib.digest d.bundleBytes)).chain) = .ok true
  held : ∀ d', d' ∈ ds' ↔ d' ∈ ds ∨ d' = d
  last : ∀ info, d.getInfo lib = .ok info → last' = Function.update last info.chain (some info)

/-- A chain store: an abstraction of the states of `ops` with its laws. -/
structure ChainStore (lib : Externals) {σ κ : Type} (ops : BundleStore σ κ) where
  Valid : σ → Prop
  /-- the clock shows a time that is later than all that was received -/
  Timely : σ → κ → Prop
  held : σ → List Decomposition
  last : σ → Chain → Option BundleInfo
  linked : ∀ s, Valid s → ∀ chain,
    ChainLinked lib chain ((held s).filter (inChain lib chain)) (last s chain)
  parsed : ∀ s, Valid s → ∀ d ∈ held s, ∃ info, d.getInfo lib = .ok info
  positive : ∀ s, Valid s → ∀ d ∈ held s, ∀ info, d.getInfo lib = .ok info → 0 < info.timestamp.val
  getBundles : ∀ s, Valid s → ∀ limitTo, ops.getBundles s limitTo
    = .ok ((held s).filter fun d => limitTo.all fun limit => withinLimit lib limit d)
  lastInfos : ∀ s, Valid s → ∀ info, info ∈ ops.lastInfos s ↔ last s info.chain = some info
  valid : ∀ s d clock, Valid s → Timely s clock → Valid (ops.applyBundle s d clock).1
  step : ∀ s d clock, Valid s → Timely s clock →
    (held (ops.applyBundle s d clock).1 = held s ∧ last (ops.applyBundle s d clock).1 = last s ∧
      (ops.applyBundle s d clock).2 ≠ .ok true) ∨
    Took lib d (held s) (held (ops.applyBundle s d clock).1) (last s)
      (last (ops.applyBundle s d clock).1)
  refused : ∀ s d clock, (ops.applyBundle s d clock).2 = .ok false →
    ∃ builder, d.getBuilder lib = .ok builder ∧
      isNeeded (.ofBuilder builder (lib.digest d.bundleBytes))
        (last s (BundleInfo.ofBuilder builder (lib.digest d.bundleBytes)).chain) = .ok false
  verified : ∀ s d clock builder, (ops.applyBundle s d clock).2 = .ok true →
    d.getBuilder lib = .ok builder → builder.chainStart = builder.timestamp →
    lib.verify builder.verifyKey d.bundleBytes = true

namespace ChainStore

variable {lib : Externals} {σ κ : Type} {ops : BundleStore σ κ} (cs : ChainStore lib ops) {s : σ}

/-- A chain has a last bundle exactly when one of its bundles is held. -/
theorem last_eq_none (h : cs.Valid s) {chain : Chain} :
    cs.last s chain = none ↔ ∀ d ∈ cs.held s, inChain lib chain d = false := by
  have hlinked := cs.linked s h chain
  constructor
  · intro hnone d hd
    by_contra hin
    rw [Bool.not_eq_false] at hin
    obtain ⟨i, latest, -, hlast, -⟩ := hlinked.timestamp_le (List.mem_filter.mpr ⟨hd, hin⟩)
    rw [hnone] at hlast
    exact absurd hlast (by simp)
  · intro hall
    have hnil : (cs.held s).filter (inChain lib chain) = [] := by
      rw [List.filter_eq_nil_iff]
      intro d hd
      simp [hall d hd]
    have hlast := hlinked.last_eq
    rw [hnil] at hlast
    cases hc : cs.last s chain with
    | none => rfl
    | some info =>
        rw [hc] at hlast
        exact absurd hlast (by simp)

/-- A held bundle is no newer than its chain's last, and no older than the chain. -/
theorem timestamp_le (h : cs.Valid s) {d : Decomposition} (hd : d ∈ cs.held s) {info : BundleInfo}
    (hi : d.getInfo lib = .ok info) :
    ∃ latest, cs.last s info.chain = some latest ∧ info.timestamp ≤ latest.timestamp := by
  have hin : inChain lib info.chain d = true := by
    unfold inChain
    rw [hi]
    simp [Except.toOption]
  obtain ⟨i, latest, hi', hlast, hle⟩ :=
    (cs.linked s h info.chain).timestamp_le (List.mem_filter.mpr ⟨hd, hin⟩)
  rw [hi, Except.ok.injEq] at hi'
  exact ⟨latest, hlast, hi' ▸ hle⟩

/-- The info of a chain's last bundle is of that chain, and of a bundle that is held. -/
theorem exists_last (h : cs.Valid s) {chain : Chain} {info : BundleInfo}
    (hlast : cs.last s chain = some info) :
    info.chain = chain ∧ ∃ d ∈ cs.held s, d.getInfo lib = .ok info := by
  have hl := (cs.linked s h chain).last_eq
  rw [hlast] at hl
  cases hd : ((cs.held s).filter (inChain lib chain)).getLast? with
  | none =>
      rw [hd] at hl
      exact absurd hl (by simp)
  | some d =>
      rw [hd] at hl
      have hi : d.getInfo lib = .ok info := by simpa using hl
      obtain ⟨hheld, hin⟩ := List.mem_filter.mp (List.mem_of_getLast? hd)
      refine ⟨?_, d, hheld, hi⟩
      unfold inChain at hin
      rw [hi] at hin
      simpa [Except.toOption] using hin

end ChainStore

/-- A needed bundle is newer than 0. -/
theorem pos_of_needed {info : BundleInfo} {old : Option BundleInfo}
    (h : isNeeded info old = .ok true) : 0 < info.timestamp.val :=
  lt_of_le_of_lt (Nat.zero_le _) (isNeeded_eq_true h).1

/-! ## §2. The memory store. -/

namespace Memory

variable {lib : Externals}

theorem validate_verified {bundle : Decomposition} {builder : BundleBuilder} {newInfo : BundleInfo}
    {old : Option BundleInfo} {s s' : Store} {u : Unit}
    (hstart : newInfo.chainStart = newInfo.timestamp)
    (h : validate lib bundle builder newInfo old s = .ok u s') :
    lib.verify builder.verifyKey bundle.bundleBytes = true := by
  unfold validate at h
  obtain ⟨key, s₁, hk, hrest⟩ := Action.bind_eq_ok.mp h
  obtain ⟨u', s₂, hv, -⟩ := Action.bind_eq_ok.mp hrest
  obtain ⟨hv, -⟩ := Action.of_eq_ok.mp hv
  unfold chainKey at hk
  rw [if_pos hstart] at hk
  unfold startChain at hk
  rw [Action.modify_bind] at hk
  obtain ⟨key', s₃, hkey, hk⟩ := Action.bind_eq_ok.mp hk
  obtain ⟨hkey, -⟩ := Action.of_eq_ok.mp hkey
  rw [Action.modify_bind, Action.pure_apply, EStateM.Result.ok.injEq] at hk
  -- `VerifyKey(...)` gives back the bytes it was made of
  have hsame : key' = builder.verifyKey := by
    unfold verifyKey at hkey
    split_ifs at hkey
    · simpa using hkey.symm
  rw [← hsame, hk.1]
  simpa using ensure_eq_ok.mp hv

/-- **One call** and its bundle: it is not stored, or is needed, signed and stored. -/
theorem applyBundle_cases (lib : Externals) (s : Store) (d : Decomposition) (clock : Nat → Int) :
    let o := applyBundle lib s d none clock
    (o.store.bundles = s.bundles ∧ o.store.chainInfos = s.chainInfos ∧ o.result ≠ .ok true) ∨
    ∃ builder info, d.getBuilder lib = .ok builder ∧
      info = BundleInfo.ofBuilder builder (lib.digest d.bundleBytes) ∧
      isNeeded info (s.chainInfos.get? info.chain) = .ok true ∧
      (builder.chainStart = builder.timestamp →
        lib.verify builder.verifyKey d.bundleBytes = true) ∧
      o.store.bundles = s.bundles.put info.essential (info, d) ∧
      o.store.chainInfos = s.chainInfos.put info.chain info := by
  intro o
  show (o.store.bundles = _ ∧ _) ∨ _
  unfold o applyBundle
  cases hb : d.getBuilder lib with
  | error e => exact Or.inl ⟨rfl, rfl, by simp⟩
  | ok builder =>
      simp only
      generalize hinfo : BundleInfo.ofBuilder builder (lib.digest d.bundleBytes) = info
      cases hn : isNeeded info (s.chainInfos.get? info.chain) with
      | error e => exact Or.inl ⟨rfl, rfl, by simp⟩
      | ok needed =>
          cases needed with
          | false => exact Or.inl ⟨rfl, rfl, by simp⟩
          | true =>
              simp only
              -- once it is stored, the changes only write contents
              have hstored : ∀ s₁, validate lib d builder info (s.chainInfos.get? info.chain) s
                    = .ok () s₁ → ∀ s', Action.endState (applyChanges lib clock builder info s₁) = s' →
                  (builder.chainStart = builder.timestamp →
                    lib.verify builder.verifyKey d.bundleBytes = true) ∧
                  s'.bundles = s.bundles.put info.essential (info, d) ∧
                  s'.chainInfos = s.chainInfos.put info.chain info := by
                intro s₁ ha s' hs'
                obtain ⟨⟨s₀, hsame, rfl⟩, -⟩ := validate_ok ha
                obtain ⟨contents, hcontents⟩ := applyChanges_contents lib clock builder info
                  (s₀.withBundle info d)
                rw [hcontents] at hs'
                subst hs'
                refine ⟨?_, ?_, ?_⟩
                · intro hstart
                  apply validate_verified _ ha
                  rw [← hinfo]
                  exact hstart
                · show s₀.bundles.put _ _ = _
                  rw [hsame.bundles]
                · show s₀.chainInfos.put _ _ = _
                  rw [hsame.chainInfos]
              cases hrun : applyNeeded lib clock d builder info
                  (s.chainInfos.get? info.chain) s with
              | error e s' =>
                  unfold applyNeeded at hrun
                  rcases Action.bind_eq_error.mp hrun with ha | ⟨u, s₁, ha, hc⟩
                  · exact Or.inl ⟨(validate_error ha).bundles, (validate_error ha).chainInfos,
                      by simp⟩
                  · exact Or.inr ⟨builder, info, rfl, hinfo.symm, hn,
                      hstored s₁ ha s' (by rw [hc]; rfl)⟩
              | ok u s' =>
                  unfold applyNeeded at hrun
                  obtain ⟨u', s₁, ha, hc⟩ := Action.bind_eq_ok.mp hrun
                  exact Or.inr ⟨builder, info, rfl, hinfo.symm, hn,
                    hstored s₁ ha s' (by rw [hc]; rfl)⟩

theorem mem_held_put {s : Store} (h : ChainInv lib s) {info : BundleInfo} {d : Decomposition}
    (hn : isNeeded info (s.chainInfos.get? info.chain) = .ok true) (d' : Decomposition) :
    d' ∈ ((s.bundles.put info.essential (info, d)).rows.map (·.2.2)) ↔
      d' ∈ s.bundles.rows.map (·.2.2) ∨ d' = d := by
  -- no stored bundle has the key of a needed one
  have hfresh : ∀ r ∈ s.bundles.rows, r.1 ≠ info.essential := by
    intro r hr heq
    obtain ⟨latest, hlast, hle⟩ := h.timestamp_le hr
    have hkey := (h.keys r hr).1.symm.trans heq
    unfold BundleInfo.essential at hkey
    simp only [InfoKey.mk.injEq] at hkey
    have hchain : r.2.1.chain = info.chain := by
      unfold BundleInfo.chain
      rw [hkey.2.1, hkey.2.2]
    rw [hchain] at hlast
    have hlt := (isNeeded_eq_true hn).1
    rw [hlast] at hlt
    rw [hkey.1] at hle
    exact absurd hlt (not_lt.mpr hle)
  constructor
  · intro hd
    obtain ⟨r, hr, rfl⟩ := List.mem_map.mp hd
    rcases Table.mem_rows_put.mp hr with rfl | ⟨-, hr⟩
    · exact Or.inr rfl
    · exact Or.inl (List.mem_map.mpr ⟨r, hr, rfl⟩)
  · intro hd
    rcases hd with hd | rfl
    · obtain ⟨r, hr, rfl⟩ := List.mem_map.mp hd
      exact List.mem_map.mpr ⟨r, Table.mem_rows_put.mpr (Or.inr ⟨hfresh r hr, hr⟩), rfl⟩
    · exact List.mem_map.mpr ⟨_, Table.mem_rows_put.mpr (Or.inl rfl), rfl⟩

/-- What the states of a store have. -/
def Store.Kept (lib : Externals) (s : Store) : Prop :=
  ChainInv lib s ∧ ∀ r ∈ s.bundles.rows, 0 < r.2.1.timestamp.val

theorem Store.Kept.apply {s : Store} (h : s.Kept lib) (d : Decomposition)
    (callback : Option Callback) (clock : Nat → Int) :
    (applyBundle lib s d callback clock).store.Kept lib := by
  have hstep := (applyBundle_step lib s d callback clock).1
  refine ⟨h.1.step hstep, ?_⟩
  intro r hr
  cases hstep with
  | kept hb _ =>
      rw [hb] at hr
      exact h.2 r hr
  | stored bundle builder info _ _ hneeded _ hb _ =>
      rw [hb] at hr
      rcases Table.mem_rows_put.mp hr with rfl | ⟨-, hr⟩
      · exact pos_of_needed hneeded
      · exact h.2 r hr

/-- They are the states that calls lead to from an empty store, and maybe others. -/
theorem Reachable.kept {s : Store} (h : Reachable lib s) : s.Kept lib := by
  induction h with
  | empty keys retaining => exact ⟨⟨by simp, fun chain => ChainLinked.nil⟩, by simp⟩
  | apply _ bundle callback clock ih => exact ih.apply bundle callback clock

/-- **The memory store is a chain store.** -/
def chainStore (lib : Externals) : ChainStore lib (bundleStore lib) where
  Valid s := s.Kept lib
  Timely _ _ := True
  held s := s.bundles.rows.map (·.2.2)
  last s chain := s.chainInfos.get? chain
  linked s h chain := by
    have hl := h.1.linked chain
    rw [← h.1.getBundles_filter chain] at hl
    unfold getBundles at hl
    simpa using hl
  parsed s h d hd := by
    obtain ⟨r, hr, rfl⟩ := List.mem_map.mp hd
    exact ⟨r.2.1, (h.1.keys r hr).2⟩
  positive s h d hd info hi := by
    obtain ⟨r, hr, rfl⟩ := List.mem_map.mp hd
    rw [(h.1.keys r hr).2, Except.ok.injEq] at hi
    exact hi ▸ h.2 r hr
  getBundles s h limitTo := by
    show Except.ok (getBundles s limitTo) = _
    unfold getBundles
    rw [List.filter_map]
    congr 2
    apply List.filter_congr
    intro r hr
    cases limitTo with
    | none => rfl
    | some limit =>
        show _ = withinLimit lib limit r.2.2
        unfold withinLimit
        rw [(h.1.keys r hr).2]
        rfl
  lastInfos s h info := by
    show info ∈ s.chainInfos.rows.map (·.2) ↔ _
    constructor
    · intro hmem
      obtain ⟨r, hr, rfl⟩ := List.mem_map.mp hmem
      have hget : s.chainInfos.get? r.1 = some r.2 := Table.get?_eq_some_iff.mpr hr
      have hchain : r.2.chain = r.1 := by
        have hl := (h.1.linked r.1).last_eq
        rw [hget] at hl
        cases hd : (s.bundlesOf r.1).getLast? with
        | none =>
            rw [hd] at hl
            exact absurd hl (by simp)
        | some d =>
            rw [hd] at hl
            obtain ⟨w, hw, hwd⟩ := List.mem_map.mp (List.mem_of_getLast? hd)
            obtain ⟨hrow, hin⟩ := List.mem_filter.mp hw
            have hi := (h.1.keys w hrow).2
            rw [hwd] at hi
            rw [Option.map_some, Option.map_some, hi, Option.some.injEq, Except.ok.injEq] at hl
            rw [← hl]
            simpa using hin
      rw [hchain]
      exact hget
    · intro hget
      exact List.mem_map.mpr ⟨_, Table.get?_eq_some_iff.mp hget, rfl⟩
  valid s d clock h _ := h.apply d none clock
  step s d clock h _ := by
    rcases applyBundle_cases lib s d clock with ⟨hb, hc, hr⟩ | ⟨builder, info, hb, hi, hn, -, hbundles, hchains⟩
    · refine Or.inl ⟨?_, ?_, hr⟩
      · exact congrArg (fun t : Table InfoKey (BundleInfo × Decomposition) => t.rows.map (·.2.2)) hb
      · funext chain
        exact congrArg (·.get? chain) hc
    · refine Or.inr ⟨⟨builder, hb, ?_⟩, ?_, ?_⟩
      · rw [← hi]
        exact hn
      · intro d'
        show d' ∈ (applyBundle lib s d none clock).store.bundles.rows.map (·.2.2) ↔ _
        rw [hbundles]
        exact mem_held_put h.1 hn d'
      · intro info' hinfo'
        have hsame : info' = info := by
          unfold Decomposition.getInfo at hinfo'
          rw [hb] at hinfo'
          rw [hi]
          exact (Except.ok.inj hinfo').symm
        subst hsame
        funext chain
        show (applyBundle lib s d none clock).store.chainInfos.get? chain = _
        rw [hchains, Table.get?_put]
        by_cases hc : chain = info'.chain
        · rw [if_pos hc, hc, Function.update_self]
        · rw [if_neg hc, Function.update_of_ne hc]
  refused s d clock h := by
    have hr : (applyBundle lib s d none clock).result = .ok false := h
    unfold applyBundle at hr
    cases hb : d.getBuilder lib with
    | error e =>
        rw [hb] at hr
        exact absurd hr (by simp)
    | ok builder =>
        rw [hb] at hr
        refine ⟨builder, rfl, ?_⟩
        simp only at hr
        cases hn : isNeeded (.ofBuilder builder (lib.digest d.bundleBytes)) (s.chainInfos.get?
            (BundleInfo.ofBuilder builder (lib.digest d.bundleBytes)).chain) with
        | error e =>
            rw [hn] at hr
            exact absurd hr (by simp)
        | ok needed =>
            cases needed with
            | false => rfl
            | true =>
                rw [hn] at hr
                simp only at hr
                cases hrun : applyNeeded lib clock d builder
                    (.ofBuilder builder (lib.digest d.bundleBytes)) (s.chainInfos.get?
                      (BundleInfo.ofBuilder builder (lib.digest d.bundleBytes)).chain) s with
                | error e s' =>
                    rw [hrun] at hr
                    exact absurd hr (by simp)
                | ok u s' =>
                    rw [hrun] at hr
                    exact absurd hr (by simp)
  verified s d clock builder hr hb hstart := by
    rcases applyBundle_cases lib s d clock with ⟨-, -, hne⟩ | ⟨builder', info, hb', -, -, hv, -⟩
    · exact absurd hr hne
    · rw [hb, Except.ok.injEq] at hb'
      subst hb'
      exact hv hstart

end Memory

/-! ## §3. The LMDB store. -/

namespace Lmdb

variable {lib : Externals}

/-- The bundles the info table leads to. -/
def Db.held (db : Db) : List Decomposition :=
  db.bundleInfos.rows.filterMap fun r => db.bundles.get? r.2

/-- The time is later than every receive time in the file. -/
def Db.Before (db : Db) (time : Int) : Prop :=
  0 < time ∧ ∀ r ∈ db.bundles.rows, ∀ t, 0 ≤ t → encodeMuts t = .ok r.1 → t < time

/-- Then it does as the time of the next bundle. -/
theorem ChainInv.upTo {now time : Int} {db : Db} (h : ChainInv lib now db) (hb : db.Before time) :
    ChainInv lib (time - 1) db where
  retains := h.retains
  now_nonneg := by
    have := hb.1
    omega
  received r hr := by
    obtain ⟨t, h0, -, henc⟩ := h.received r hr
    have := hb.2 r hr t h0 henc
    exact ⟨t, h0, by omega, henc⟩
  infos := h.infos
  linked := h.linked

theorem ChainInv.getBundles_limit {now : Int} {db : Db} (h : ChainInv lib now db)
    (limitTo : Option (Chain → Nat)) : getBundles db limitTo
      = .ok (db.held.filter fun d => limitTo.all fun limit => withinLimit lib limit d) := by
  have hall : ∀ l : List (Bytes × Bytes), (∀ r ∈ l, r ∈ db.bundleInfos.rows) →
      bundlesFrom db limitTo l = .ok ((l.filterMap (fun r => db.bundles.get? r.2)).filter
        fun d => limitTo.all fun limit => withinLimit lib limit d) := by
    intro l hl
    induction l with
    | nil => rfl
    | cons r rest ih =>
        obtain ⟨i, d, hk, hd, hi⟩ := h.infos r (hl r List.mem_cons_self)
        have hlimit : (limitTo.all fun limit => withinLimit lib limit d)
            = limitTo.all fun limit => decide (i.timestamp.val ≤ limit i.chain) := by
          unfold withinLimit
          rw [hi]
          rfl
        unfold bundlesFrom
        rw [hk, BundleInfo.fromBytes_toBytes i (length_hash hi), hd,
          ih (fun x hx => hl x (List.mem_cons_of_mem _ hx)), List.filterMap_cons, hd]
        simp only [List.filter_cons, hlimit]
        cases hc : limitTo.all fun limit => decide (i.timestamp.val ≤ limit i.chain) with
        | true =>
            show (if _ then _ else _ : Except Error (List Decomposition)) = _
            rw [if_pos hc]
            rfl
        | false =>
            show (if _ then _ else _ : Except Error (List Decomposition)) = _
            rw [if_neg (by simp [hc])]
            rfl
  unfold getBundles
  rw [if_pos h.retains]
  exact hall _ fun r hr => hr

/-- The first bundle of a chain carries the key it is signed with. -/
theorem extendChain_verified {db db' : Db} {bundle : Decomposition} {builder : BundleBuilder}
    {info : BundleInfo} {old : Option BundleInfo} (hstart : info.chainStart = info.timestamp)
    (h : db.extendChain lib bundle builder info old = .ok db') :
    lib.verify builder.verifyKey bundle.bundleBytes = true := by
  unfold Db.extendChain at h
  simp only at h
  rw [if_pos hstart] at h
  obtain ⟨key, hkey, h⟩ := bind_eq_ok.mp h
  obtain ⟨u, hv, -⟩ := bind_eq_ok.mp h
  have hsame : key = builder.verifyKey := by
    unfold verifyKey at hkey
    split_ifs at hkey
    · simpa using hkey.symm
  rw [← hsame]
  simpa using ensure_eq_ok.mp hv

theorem writeBundle_verified {s : Store} {bundle : Decomposition} {builder : BundleBuilder}
    {info : BundleInfo} {old : Option BundleInfo} {claimChain : Bool} {clock : Clock} {db' : Db}
    (hstart : info.chainStart = info.timestamp)
    (h : (writeBundle lib s bundle builder info old claimChain clock).db = .ok db') :
    lib.verify builder.verifyKey bundle.bundleBytes = true := by
  unfold writeBundle at h
  cases h1 : (s.db.claimChain claimChain info clock >>= fun db => db.storeBundle bundle clock) with
  | error e =>
      rw [h1] at h
      exact absurd h (by simp)
  | ok db1 =>
      rw [h1] at h
      simp only at h
      cases h2 : db1.linkBundle lib bundle builder info old clock with
      | error e =>
          rw [h2] at h
          exact absurd h (by simp)
      | ok r =>
          unfold Db.linkBundle at h2
          obtain ⟨db2, -, h3⟩ := bind_eq_ok.mp h2
          obtain ⟨db3, hextend, -⟩ := bind_eq_ok.mp h3
          exact extendChain_verified hstart hextend

/-- What the result of a call without a callback says about the bundle. -/
theorem applyBundle_result (s : Store) (d : Decomposition) (clock : Clock) :
    ((applyBundle lib s d none false clock).result = .ok false →
      ∃ builder, d.getBuilder lib = .ok builder ∧
        isNeeded (.ofBuilder builder (lib.digest d.bundleBytes)) (s.db.chains.get?
          (BundleInfo.ofBuilder builder (lib.digest d.bundleBytes)).chain.toBytes) = .ok false) ∧
    ((applyBundle lib s d none false clock).result = .ok true → ∀ builder,
      d.getBuilder lib = .ok builder → builder.chainStart = builder.timestamp →
        lib.verify builder.verifyKey d.bundleBytes = true) := by
  unfold applyBundle
  cases hb : d.getBuilder lib with
  | error e => exact ⟨by simp, by simp⟩
  | ok builder =>
      simp only
      have hdb : (refreshHelper s none).store.db = s.db := rfl
      cases hr : (refreshHelper s none).result with
      | error e => exact ⟨by simp, by simp⟩
      | ok count =>
          simp only [hdb]
          cases hn : isNeeded (.ofBuilder builder (lib.digest d.bundleBytes)) (s.db.chains.get?
              (BundleInfo.ofBuilder builder (lib.digest d.bundleBytes)).chain.toBytes) with
          | error e => exact ⟨by simp, by simp⟩
          | ok needed =>
              cases needed with
              | false => exact ⟨fun _ => ⟨builder, rfl, hn⟩, by simp⟩
              | true =>
                  simp only
                  cases hw : (writeBundle lib (refreshHelper s none).store d builder
                      (.ofBuilder builder (lib.digest d.bundleBytes)) (s.db.chains.get?
                        (BundleInfo.ofBuilder builder (lib.digest d.bundleBytes)).chain.toBytes)
                      false clock).db with
                  | error e => exact ⟨by simp, by simp⟩
                  | ok db' =>
                      refine ⟨by simp, ?_⟩
                      intro _ builder' hb' hstart
                      rw [Except.ok.injEq] at hb'
                      subst hb'
                      exact writeBundle_verified hstart hw

/-- A committed bundle is listed with those listed before. -/
theorem mem_held_commit {now : Int} {s : Store} (h : ChainInv lib now s.db) {d : Decomposition}
    {builder : BundleBuilder} {info : BundleInfo} (hi : d.getInfo lib = .ok info) {clock : Clock}
    (hclock : now < clock.receiveTime)
    (hn : isNeeded info (s.db.chains.get? info.chain.toBytes) = .ok true) {seen : List Muid}
    {db' : Db} (hw : Committed lib s d builder info (s.db.chains.get? info.chain.toBytes) clock
      seen db') (d' : Decomposition) : d' ∈ db'.held ↔ d' ∈ s.db.held ∨ d' = d := by
  obtain ⟨location, hloc, hbundles, hinfos⟩ := hw.stored h.retains
  -- nothing was received at that time, and the info is not listed
  have hunused : ∀ r ∈ s.db.bundles.rows, r.1 ≠ location := by
    intro r hr heq
    obtain ⟨time, h0, hle, henc⟩ := h.received r hr
    rw [← heq] at hloc
    exact lt_irrefl r.1 (encodeMuts_lt h0 (lt_of_le_of_lt hle hclock) henc hloc)
  have hunlisted : ∀ r ∈ s.db.bundleInfos.rows, r.1 ≠ info.toBytes := by
    intro r hr heq
    obtain ⟨i, bundle, hk, hd, hinfo⟩ := h.infos r hr
    have hsame : i = info := by
      have hread := BundleInfo.fromBytes_toBytes i (length_hash hinfo)
      rw [← hk, heq, BundleInfo.fromBytes_toBytes info (length_hash hi), Except.ok.injEq] at hread
      exact hread.symm
    subst hsame
    obtain ⟨last, hlast, hle⟩ := h.timestamp_le hr hk hd hinfo
    have hlt := (isNeeded_eq_true hn).1
    rw [hlast] at hlt
    exact absurd hlt (not_lt.mpr hle)
  have hget : ∀ r ∈ s.db.bundleInfos.rows,
      (s.db.bundles.put location d).get? r.2 = s.db.bundles.get? r.2 := by
    intro r hr
    obtain ⟨i, bundle, -, hd, -⟩ := h.infos r hr
    rw [Table.get?_put_of_ne]
    intro heq
    exact hunused (r.2, bundle) (Table.get?_eq_some_iff.mp hd) heq
  unfold Db.held
  rw [hbundles, hinfos]
  constructor
  · intro hd'
    obtain ⟨r, hr, hd'⟩ := List.mem_filterMap.mp hd'
    rcases Table.mem_rows_put.mp hr with rfl | ⟨-, hr⟩
    · rw [Table.get?_put_self, Option.some.injEq] at hd'
      exact Or.inr hd'.symm
    · rw [hget r hr] at hd'
      exact Or.inl (List.mem_filterMap.mpr ⟨r, hr, hd'⟩)
  · intro hd'
    rcases hd' with hd' | rfl
    · obtain ⟨r, hr, hd'⟩ := List.mem_filterMap.mp hd'
      refine List.mem_filterMap.mpr ⟨r, Table.mem_rows_put.mpr (Or.inr ⟨hunlisted r hr, hr⟩), ?_⟩
      rw [hget r hr]
      exact hd'
    · exact List.mem_filterMap.mpr ⟨_, Table.mem_rows_put.mpr (Or.inl rfl),
        Table.get?_put_self _ _ _⟩

/-- The chain table names each chain by its last info. -/
def Db.ChainsNamed (db : Db) : Prop := ∀ r ∈ db.chains.rows, r.1 = r.2.chain.toBytes

/-- No bundle that is listed has the timestamp 0. -/
def Db.Positive (lib : Externals) (db : Db) : Prop :=
  ∀ d ∈ db.held, ∀ info, d.getInfo lib = .ok info → 0 < info.timestamp.val

/-- What the states of a store that keeps its bundles have. -/
structure Store.Kept (lib : Externals) (s : Store) : Prop where
  chains : ∃ now, ChainInv lib now s.db
  named : s.db.ChainsNamed
  positive : s.db.Positive lib

theorem Store.Kept.apply {s : Store} (h : s.Kept lib) (d : Decomposition)
    (callback : Option Callback) (claimChain : Bool) {clock : Clock}
    (hclock : s.db.Before clock.receiveTime) :
    (applyBundle lib s d callback claimChain clock).store.Kept lib := by
  obtain ⟨now, hinv⟩ := h.chains
  have hinv' := hinv.upTo hclock
  cases applyBundle_step lib s d callback claimChain clock with
  | kept hdb _ _ =>
      refine ⟨⟨now, ?_⟩, ?_, ?_⟩ <;> rw [hdb]
      · exact hinv
      · exact h.named
      · exact h.positive
  | committed builder hopen info hinfo hneeded hw _ _ =>
      have hgetInfo : d.getInfo lib = .ok info := by
        unfold Decomposition.getInfo
        rw [hopen, hinfo]
        rfl
      refine ⟨⟨_, hinv'.commit hopen hinfo (by omega) hneeded hw⟩, ?_, ?_⟩
      · intro r hr
        rw [hw.chains] at hr
        rcases Table.mem_rows_put.mp hr with rfl | ⟨-, hr⟩
        · rfl
        · exact h.named r hr
      · intro d' hd' info' hi
        rcases (mem_held_commit hinv' hgetInfo (by omega) hneeded hw d').mp hd' with hold | rfl
        · exact h.positive d' hold info' hi
        · rw [hgetInfo, Except.ok.injEq] at hi
          exact hi ▸ pos_of_needed hneeded

/-- They are the states that calls lead to from an empty file, and maybe others. -/
theorem Reachable.kept {now : Int} {s : Store} (h : Reachable lib now s) : s.Kept lib := by
  have hinv := h.chainInv
  induction h with
  | empty keys entries changes =>
      exact ⟨⟨0, hinv⟩, fun r hr => by simp at hr, fun d hd => by simp [Db.held] at hd⟩
  | @apply now s h bundle callback claimChain clock hlater ih =>
      have hbefore := h.chainInv
      refine (ih hbefore).apply bundle callback claimChain ⟨?_, ?_⟩
      · have := hbefore.now_nonneg
        omega
      · intro r hr t h0 henc
        obtain ⟨time, h1, hle, henc'⟩ := hbefore.received r hr
        by_contra hge
        exact lt_irrefl _ (encodeMuts_lt h1 (by omega : time < t) henc' henc)

/-- **The LMDB store is a chain store.** -/
def chainStore (lib : Externals) : ChainStore lib (bundleStore lib) where
  Valid s := s.Kept lib
  Timely s clock := s.db.Before clock.receiveTime
  held s := s.db.held
  last s chain := s.db.chains.get? chain.toBytes
  linked s h chain := by
    obtain ⟨now, hinv⟩ := h.chains
    show ChainLinked lib chain (s.db.held.filter (inChain lib chain)) _
    unfold Db.held
    rw [hinv.filter_inChain]
    exact hinv.linked chain
  parsed s h d hd := by
    obtain ⟨now, hinv⟩ := h.chains
    obtain ⟨r, hr, hd⟩ := List.mem_filterMap.mp hd
    obtain ⟨i, bundle, -, hbundle, hi⟩ := hinv.infos r hr
    rw [hbundle, Option.some.injEq] at hd
    exact ⟨i, hd ▸ hi⟩
  positive s h := h.positive
  getBundles s h limitTo := by
    obtain ⟨now, hinv⟩ := h.chains
    exact hinv.getBundles_limit limitTo
  lastInfos s h info := by
    show info ∈ s.db.chains.rows.map (·.2) ↔ _
    constructor
    · intro hmem
      obtain ⟨r, hr, rfl⟩ := List.mem_map.mp hmem
      rw [← h.named r hr]
      exact Table.get?_eq_some_iff.mpr hr
    · intro hget
      exact List.mem_map.mpr ⟨_, Table.get?_eq_some_iff.mp hget, rfl⟩
  valid s d clock h hclock := h.apply d none false hclock
  step s d clock h hclock := by
    obtain ⟨now, hinv⟩ := h.chains
    have hinv' := hinv.upTo hclock
    cases applyBundle_step lib s d none false clock with
    | kept hdb _ hresult =>
        refine Or.inl ⟨congrArg Db.held hdb, ?_, hresult⟩
        funext chain
        exact congrArg (fun db : Db => db.chains.get? chain.toBytes) hdb
    | committed builder hopen info hinfo hneeded hw _ _ =>
        have hgetInfo : d.getInfo lib = .ok info := by
          unfold Decomposition.getInfo
          rw [hopen, hinfo]
          rfl
        refine Or.inr ⟨⟨builder, hopen, ?_⟩, ?_, ?_⟩
        · rw [← hinfo]
          exact hneeded
        · exact mem_held_commit hinv' hgetInfo (by omega) hneeded hw
        · intro info' hinfo'
          rw [hgetInfo, Except.ok.injEq] at hinfo'
          subst hinfo'
          funext chain
          show (applyBundle lib s d none false clock).store.db.chains.get? chain.toBytes = _
          rw [hw.chains, Table.get?_put]
          by_cases hc : chain = info.chain
          · rw [hc, if_pos rfl, Function.update_self]
          · rw [if_neg (fun heq => hc (Chain.toBytes_inj.mp heq)), Function.update_of_ne hc]
  refused s d clock h := (applyBundle_result s d clock).1 h
  verified s d clock builder hr hb hstart := (applyBundle_result s d clock).2 hr builder hb hstart

end Lmdb

end Gink
