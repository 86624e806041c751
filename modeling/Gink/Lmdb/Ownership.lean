/-
  Gink.Lmdb.Ownership — which process holds a chain of an LMDB file.

  Claims are rows in the order of their times.  Whoever holds a chain, as the link of his
  database or as what `_acquire_appendable_link` was given, has claimed it last: a chain is
  taken over from a process that is gone, and started by the process that claims it.

  Main results:
    * `applyBundle_claims`, `reuseFrom_claims` — the claims that one call makes;
    * `step_guarded` — what each event preserves, when the chains that are started are new;
    * `Guarded.apart` — no chain has two holders.
-/
import Gink.Lmdb.System
import Gink.Stores.Claims

namespace Gink

namespace Lmdb

variable {lib : Externals}

/-! ## §1. The claims in the file. -/

/-- The claims in the order of their times. -/
def Db.claimed (db : Db) : List ClaimBuilder := db.claims.rows.map (·.2)

/-- **`_get_claims`** has the last claim for each medallion. -/
theorem lastFor_of_mem_getClaims {db : Db} {claim : ClaimBuilder} (h : claim ∈ db.getClaims) :
    LastFor db.claimed claim := by
  change claim ∈ db.claimed.foldl noteLatest [] at h
  generalize db.claimed = claims at h ⊢
  induction claims using List.reverseRecOn generalizing claim with
  | nil => exact absurd h List.not_mem_nil
  | append_singleton claims new ih =>
      rw [List.foldl_append] at h
      change claim ∈ noteLatest (claims.foldl noteLatest []) new at h
      rw [lastFor_append]
      unfold noteLatest at h
      split_ifs at h with hany
      · -- the new claim takes the place of the medallion's old one
        obtain ⟨old, hold, heq⟩ := List.mem_map.mp h
        by_cases hmedallion : old.medallion = new.medallion
        · rw [if_pos hmedallion] at heq
          exact Or.inl heq.symm
        · rw [if_neg hmedallion] at heq
          subst heq
          exact Or.inr ⟨hmedallion, ih hold⟩
      · rcases List.mem_append.mp h with hold | hnew
        · refine Or.inr ⟨?_, ih hold⟩
          intro heq
          apply hany
          rw [List.any_eq_true]
          exact ⟨claim, hold, decide_eq_true heq⟩
        · exact Or.inl (List.mem_singleton.mp hnew)

/-- What holds of the claims and of the chains: each claim is stored under its time and is on
a chain that is stored, and a chain's row is about the chain. -/
structure ClaimsRecorded (db : Db) : Prop where
  keys : ∀ r ∈ db.claims.rows, encodeMuts r.2.claimTime.val = .ok r.1
  stored : ∀ claim ∈ db.claimed, db.chains.get? claim.chain.toBytes ≠ none
  chains : ∀ (chain : Chain) info, db.chains.get? chain.toBytes = some info → info.chain = chain

/-- The time is later than that of every claim so far. -/
def Db.LaterThanClaims (db : Db) (claimTime : U64) : Prop :=
  ∀ claim ∈ db.claimed, claim.claimTime < claimTime

/-- A claim with a later time **comes last**. -/
theorem claimed_put {db : Db} (h : ClaimsRecorded db) {claim : ClaimBuilder} {key : Bytes}
    (hlater : db.LaterThanClaims claim.claimTime) (hkey : encodeMuts claim.claimTime.val = .ok key) :
    (db.claims.put key claim).rows = db.claims.rows ++ [(key, claim)] := by
  apply Table.rows_put_of_last
  intro r hr
  have hlt : r.2.claimTime < claim.claimTime := hlater r.2 (List.mem_map_of_mem hr)
  exact encodeMuts_lt (by omega) (by exact_mod_cast hlt) (h.keys r hr) hkey

/-- A file that records one more claim, on a chain that it has. -/
theorem ClaimsRecorded.claim {db db' : Db} (h : ClaimsRecorded db) {claim : ClaimBuilder} {key : Bytes}
    (hlater : db.LaterThanClaims claim.claimTime) (hkey : encodeMuts claim.claimTime.val = .ok key)
    (hclaims : db'.claims = db.claims.put key claim)
    (hkept : ∀ k, db.chains.get? k ≠ none → db'.chains.get? k ≠ none)
    (hstored : db'.chains.get? claim.chain.toBytes ≠ none)
    (hchains : ∀ (chain : Chain) info, db'.chains.get? chain.toBytes = some info →
      info.chain = chain) :
    ClaimsRecorded db' ∧ db'.claimed = db.claimed ++ [claim] := by
  have hrows : db'.claims.rows = db.claims.rows ++ [(key, claim)] := by
    rw [hclaims]
    exact claimed_put h hlater hkey
  have hclaimed : db'.claimed = db.claimed ++ [claim] := by
    unfold Db.claimed
    rw [hrows, List.map_append]
    rfl
  refine ⟨⟨?_, ?_, hchains⟩, hclaimed⟩
  · intro r hr
    rw [hrows] at hr
    rcases List.mem_append.mp hr with hr | hr
    · exact h.keys r hr
    · rw [List.mem_singleton.mp hr]
      exact hkey
  · intro other hother
    rw [hclaimed] at hother
    rcases List.mem_append.mp hother with hother | hother
    · exact hkept _ (h.stored other hother)
    · rw [List.mem_singleton.mp hother]
      exact hstored

/-! ## §2. The claims that one call makes. -/

theorem claimChain_claims {db db' : Db} {claimChain : Bool} {info : BundleInfo} {clock : Clock}
    (h : db.claimChain claimChain info clock = .ok db') :
    (claimChain = false → db'.claims = db.claims) ∧
      (claimChain = true → ∃ key, encodeMuts clock.claimTime.val = .ok key ∧
        db'.claims = db.claims.put key (clock.createClaim info.chain)) := by
  unfold Db.claimChain at h
  cases claimChain with
  | false =>
      injection h with h
      rw [h]
      exact ⟨fun _ => rfl, fun hfalse => absurd hfalse (by simp)⟩
  | true =>
      obtain ⟨u, -, h⟩ := bind_eq_ok.mp h
      obtain ⟨key, hkey, h⟩ := bind_eq_ok.mp h
      rw [← pure_eq_ok.mp h]
      exact ⟨fun hfalse => absurd hfalse (by simp), fun _ => ⟨key, hkey, rfl⟩⟩

/-- The rest of the transaction makes no claims. -/
theorem writeBundle_claims {s : Store} {bundle : Decomposition} {builder : BundleBuilder}
    {info : BundleInfo} {old : Option BundleInfo} {claimChain : Bool} {clock : Clock} {db' : Db}
    (h : (writeBundle lib s bundle builder info old claimChain clock).db = .ok db') :
    ∃ db₀, s.db.claimChain claimChain info clock = .ok db₀ ∧ db'.claims = db₀.claims := by
  unfold writeBundle at h
  cases h1 : (s.db.claimChain claimChain info clock >>= fun db => db.storeBundle bundle clock) with
  | error e =>
      rw [h1] at h
      exact absurd h (by simp)
  | ok db₁ =>
      rw [h1] at h
      simp only at h
      obtain ⟨db₀, hclaim, hstore⟩ := bind_eq_ok.mp h1
      obtain ⟨bundles, hdb₁, -⟩ := storeBundle_ok hstore
      cases h2 : db₁.linkBundle lib bundle builder info old clock with
      | error e =>
          rw [h2] at h
          exact absurd h (by simp)
      | ok r =>
          rw [h2] at h
          unfold Db.linkBundle at h2
          obtain ⟨db₂, hindex, h3⟩ := bind_eq_ok.mp h2
          obtain ⟨bundleInfos, hdb₂, -⟩ := indexBundle_ok hindex
          obtain ⟨db₃, hextend, h4⟩ := bind_eq_ok.mp h3
          obtain ⟨⟨identities, verifyKeys, hdb₃⟩, -⟩ := extendChain_ok hextend
          obtain ⟨changes, -, h5⟩ := bind_eq_ok.mp h4
          obtain rfl := pure_eq_ok.mp h5
          obtain ⟨contents, -, rfl⟩ := map_eq_ok.mp h
          refine ⟨db₀, hclaim, ?_⟩
          rw [hdb₃, hdb₂, hdb₁]

/-- What a call of `apply_bundle` does about chains and claims. -/
inductive Took (lib : Externals) (s : Store) (bundle : Decomposition) (claimChain : Bool)
    (clock : Clock) (o : Outcome Bool) : Prop
  /-- nothing is written; a call that returns has found a duplicate -/
  | kept (db : o.store.db = s.db)
      (duplicate : ∀ added, o.result = .ok added → ∃ info, bundle.getInfo lib = .ok info ∧
        isNeeded info (s.db.chains.get? info.chain.toBytes) = .ok false)
  /-- the bundle is written, with a claim when asked for -/
  | wrote (info : BundleInfo) (hinfo : bundle.getInfo lib = .ok info)
      (chains : o.store.db.chains = s.db.chains.put info.chain.toBytes info)
      (same : claimChain = false → o.store.db.claims = s.db.claims)
      (claimed : claimChain = true → ∃ key, encodeMuts clock.claimTime.val = .ok key ∧
        o.store.db.claims = s.db.claims.put key (clock.createClaim info.chain))

/-- **A call of `apply_bundle`** claims the chain of a bundle that it writes. -/
theorem applyBundle_took (s : Store) (bundle : Decomposition) (callback : Option Callback)
    (claimChain : Bool) (clock : Clock) :
    Took lib s bundle claimChain clock (applyBundle lib s bundle callback claimChain clock) := by
  unfold applyBundle
  cases hb : bundle.getBuilder lib with
  | error e => exact .kept rfl (by simp)
  | ok builder =>
      simp only
      generalize hinfo : BundleInfo.ofBuilder builder (lib.digest bundle.bundleBytes) = info
      have hgetInfo : bundle.getInfo lib = .ok info := by
        simp [Decomposition.getInfo, hb, hinfo, Except.map]
      have hdb : (refreshHelper s callback).store.db = s.db := rfl
      cases hr : (refreshHelper s callback).result with
      | error e => exact .kept hdb (by simp)
      | ok count =>
          simp only [hdb]
          cases hn : isNeeded info (s.db.chains.get? info.chain.toBytes) with
          | error e => exact .kept hdb (by simp)
          | ok needed =>
              cases needed with
              | false => exact .kept hdb fun _ _ => ⟨info, hgetInfo, hn⟩
              | true =>
                  simp only
                  cases hw : (writeBundle lib (refreshHelper s callback).store bundle builder info
                      (s.db.chains.get? info.chain.toBytes) claimChain clock).db with
                  | error e => exact .kept hdb (by simp)
                  | ok db' =>
                      have hchains := (writeBundle_ok hw).1.chains
                      obtain ⟨db₀, hclaim, hclaims⟩ := writeBundle_claims hw
                      obtain ⟨hsame, hclaimed⟩ := claimChain_claims hclaim
                      rw [← hclaims, hdb] at hsame hclaimed
                      cases callback with
                      | none => exact .wrote info hgetInfo hchains hsame hclaimed
                      | some f =>
                          simp only
                          cases f bundle <;> exact .wrote info hgetInfo hchains hsame hclaimed

/-- What the loop of `maybe_reuse_chain` does. -/
inductive Reused (pid : U64) (gone : U64 → Bool) (claimTime : U64) (db : Db)
    (claims : List ClaimBuilder) (r : Db × Except Error (Option BundleInfo)) : Prop
  /-- no chain is found -/
  | nothing (same : r.1 = db) (result : ∀ found, r.2 = .ok found → found = none)
  /-- the chain of a claim is claimed, whose process is gone -/
  | claimed (old : ClaimBuilder) (mem : old ∈ claims) (hgone : gone old.processId = true)
      (key : Bytes) (hkey : encodeMuts claimTime.val = .ok key)
      (made : r.1 = { db with
        claims := db.claims.put key ⟨old.medallion, old.chainStart, pid, claimTime⟩ })
      (result : ∀ info, r.2 = .ok (some info) → db.chains.get? old.chain.toBytes = some info)

/-- **The loop** takes a chain over from a process that is gone. -/
theorem reuseFrom_reused (db : Db) (pid : U64) (gone : U64 → Bool) (identity : String)
    (claimTime : U64) (claims : List ClaimBuilder) :
    Reused pid gone claimTime db claims (db.reuseFrom pid gone identity claimTime claims) := by
  induction claims with
  | nil => exact .nothing rfl fun found hfound => (Except.ok.inj hfound).symm
  | cons old rest ih =>
      unfold Db.reuseFrom
      simp only
      cases db.getIdentity ⟨old.medallion, old.chainStart⟩ with
      | error e => exact .nothing rfl (by simp)
      | ok chainIdentity =>
          simp only
          split_ifs with hmatch
          · cases hadd : db.addClaim pid claimTime ⟨old.medallion, old.chainStart⟩ with
            | error e => exact .nothing rfl (by simp)
            | ok db' =>
                unfold Db.addClaim at hadd
                obtain ⟨key, hkey, hadd⟩ := bind_eq_ok.mp hadd
                refine .claimed old List.mem_cons_self hmatch.2 key hkey
                  (pure_eq_ok.mp hadd).symm ?_
                intro info hinfo
                obtain ⟨last, hlast, heq⟩ := map_eq_ok.mp hinfo
                unfold getLast at hlast
                rw [← Option.some.inj heq]
                exact orRaise_eq_ok.mp hlast
          · cases ih with
            | nothing hdb hresult => exact .nothing hdb hresult
            | claimed other hmem hgone key hkey hdb hresult =>
                exact .claimed other (List.mem_cons_of_mem _ hmem) hgone key hkey hdb hresult

/-! ## §3. The invariant. -/

/-- The process has the chain as its link, or is about to. -/
def Process.Holds (p : Process) (chain : Chain) : Prop :=
  p.offered = some chain ∨ p.link = some chain

/-- A running process has the chain. -/
def System.Holds (s : System) (pid : U64) (chain : Chain) : Prop :=
  ∃ p, s.status pid = .running p ∧ p.Holds chain

/-- **No two processes** have the same chain as their link. -/
def System.Apart (s : System) : Prop :=
  ∀ first second p q chain, s.status first = .running p → s.status second = .running q →
    p.link = some chain → q.link = some chain → first = second

/-- Whoever has a chain claimed it last. -/
structure Guarded (s : System) : Prop where
  recorded : ClaimsRecorded s.db
  owned : Machine.Owned (claimants s.db.claimed) s.Holds

theorem Guarded.apart {s : System} (h : Guarded s) : s.Apart :=
  fun _ _ p q _ hp hq hlink hlink' =>
    h.owned.unique ⟨p, hp, Or.inr hlink⟩ ⟨q, hq, Or.inr hlink'⟩

theorem guarded_empty (retainBundles retainEntries : Bool) :
    Guarded { db := { retainBundles, retainEntries } } where
  recorded := ⟨by simp, by simp [Db.claimed], by simp⟩
  owned := by
    intro pid chain hheld
    obtain ⟨p, hp, -⟩ := hheld
    exact absurd hp (by simp)

variable {s : System} {pid : U64}

/-- Who holds what after a step of one process. -/
theorem holds_put {p' : Process} {t : Store} {now : Int} {other : U64} {chain : Chain}
    (h : (s.put pid t p' now).Holds other chain) :
    other = pid ∧ p'.Holds chain ∨ s.Holds other chain := by
  obtain ⟨q, hq, hheld⟩ := h
  change Function.update s.status pid _ other = .running q at hq
  by_cases hpid : other = pid
  · subst hpid
    rw [Function.update_self] at hq
    injection hq with hq
    subst hq
    exact Or.inl ⟨rfl, hheld⟩
  · rw [Function.update_of_ne hpid] at hq
    exact Or.inr ⟨q, hq, hheld⟩

/-- **A step that claims nothing**: the process has no chain that it did not have. -/
theorem same_guarded (h : Guarded s) {p p' : Process} (hp : s.status pid = .running p) {t : Store}
    {now : Int} (hdb : ClaimsRecorded t.db) (hclaims : t.db.claims = s.db.claims)
    (hless : ∀ chain, p'.Holds chain → p.Holds chain) : Guarded (s.put pid t p' now) := by
  refine ⟨hdb, ?_⟩
  have hclaimed : t.db.claimed = s.db.claimed := by
    unfold Db.claimed
    rw [hclaims]
  show Machine.Owned (claimants t.db.claimed) _
  rw [hclaimed]
  apply h.owned.mono
  intro other chain hheld
  rcases holds_put hheld with ⟨rfl, hp'⟩ | hbefore
  · exact ⟨p, hp, hless chain hp'⟩
  · exact hbefore

/-- **A step that claims a chain** that nobody else has. -/
theorem claim_guarded (h : Guarded s) {p p' : Process} (hp : s.status pid = .running p) {t : Store}
    {now : Int} {claim : ClaimBuilder} (hpid : claim.processId = pid) (hdb : ClaimsRecorded t.db)
    (hclaimed : t.db.claimed = s.db.claimed ++ [claim])
    (hfree : ∀ other, s.Holds other claim.chain → other = pid)
    (hless : ∀ chain, p'.Holds chain → p.Holds chain ∨ chain = claim.chain) :
    Guarded (s.put pid t p' now) := by
  refine ⟨hdb, ?_⟩
  show Machine.Owned (claimants t.db.claimed) _
  rw [hclaimed, claimants_append, hpid]
  refine h.owned.claim hfree ?_
  intro other chain hheld
  rcases holds_put hheld with ⟨rfl, hp'⟩ | hbefore
  · rcases hless chain hp' with hold | hnew
    · exact Or.inl ⟨p, hp, hold⟩
    · exact Or.inr ⟨rfl, hnew⟩
  · exact Or.inl hbefore

/-! ## §4. The steps. -/

/-- The info of a chain's last bundle. -/
def Db.lastInfo (db : Db) (chain : Chain) : Option BundleInfo := db.chains.get? chain.toBytes

/-- Claims are made at later and later times. -/
def TimesIncrease (s : System) : Event → Prop
  | .apply _ _ _ claimChain _ claimTime => claimChain = true → s.db.LaterThanClaims claimTime
  | .reuse _ _ _ claimTime => s.db.LaterThanClaims claimTime
  | _ => True

/-- **When chains stay apart**: besides, every chain that is started is new. -/
def StartsAfresh (lib : Externals) (s : System) (e : Event) : Prop :=
  TimesIncrease s e ∧ match e with
    | .apply _ bundle _ claimChain _ _ => claimChain = true → StartsNew lib s.db.lastInfo bundle
    | _ => True

/-- Writing a chain's row keeps the rows about their chains. -/
theorem ClaimsRecorded.chains_put {db : Db} (h : ClaimsRecorded db) (info : BundleInfo) :
    (∀ k, db.chains.get? k ≠ none → (db.chains.put info.chain.toBytes info).get? k ≠ none) ∧
      ∀ (chain : Chain) found,
        (db.chains.put info.chain.toBytes info).get? chain.toBytes = some found →
          found.chain = chain := by
  constructor
  · intro k hk
    rw [Table.get?_put]
    split_ifs
    · simp
    · exact hk
  · intro chain found hfound
    rw [Table.get?_put] at hfound
    split_ifs at hfound with heq
    · rw [← Option.some.inj hfound]
      exact (Chain.toBytes_inj.mp heq).symm
    · exact h.chains chain found hfound

/-- **A call of `apply_bundle`.** -/
theorem applied_guarded (h : Guarded s) {p : Process} (hp : s.status pid = .running p)
    (bundle : Decomposition) (callback : Option Callback) (claimChain : Bool) (clock : Clock)
    (hclock : clock.processId = pid)
    (hafresh : claimChain = true →
      s.db.LaterThanClaims clock.claimTime ∧ StartsNew lib s.db.lastInfo bundle) :
    Guarded (s.applied lib pid p bundle callback claimChain clock) := by
  have htook := @applyBundle_took lib (s.store p) bundle callback claimChain clock
  unfold System.applied
  generalize applyBundle lib (s.store p) bundle callback claimChain clock = o at htook ⊢
  obtain ⟨t, delivered, result⟩ := o
  cases htook with
  | kept hdb hduplicate =>
      change t.db = s.db at hdb
      refine same_guarded h hp (by rw [hdb]; exact h.recorded) (by rw [hdb]) ?_
      intro chain hheld
      cases result with
      | error e => exact hheld
      | ok added =>
          cases claimChain with
          | false => exact hheld
          | true =>
              -- a chain that is new is not found to be there already
              obtain ⟨info, hinfo, hneeded⟩ := hduplicate added rfl
              obtain ⟨htime, hnone⟩ := (hafresh rfl).2 info hinfo
              change isNeeded info (s.db.chains.get? info.chain.toBytes) = _ at hneeded
              change s.db.chains.get? info.chain.toBytes = none at hnone
              rw [hnone] at hneeded
              exact absurd hneeded (isNeeded_none_ne_false htime)
  | wrote info hinfo hchains hsame hclaimed =>
      obtain ⟨hkept, habout⟩ := h.recorded.chains_put info
      change t.db.chains = s.db.chains.put info.chain.toBytes info at hchains
      rw [← hchains] at hkept habout
      cases claimChain with
      | false =>
          have hclaims : t.db.claims = s.db.claims := hsame rfl
          refine same_guarded h hp ⟨?_, ?_, habout⟩ hclaims ?_
          · show ∀ r ∈ t.db.claims.rows, _
            rw [hclaims]
            exact h.recorded.keys
          · intro claim hclaim
            change claim ∈ t.db.claims.rows.map (·.2) at hclaim
            rw [hclaims] at hclaim
            exact hkept _ (h.recorded.stored claim hclaim)
          · intro chain hheld
            cases result <;> exact hheld
      | true =>
          obtain ⟨hlater, hnew⟩ := hafresh rfl
          obtain ⟨key, hkey, hclaims⟩ := hclaimed rfl
          have hstored : t.db.chains.get? info.chain.toBytes ≠ none := by
            rw [hchains, Table.get?_put, if_pos rfl]
            simp
          obtain ⟨hrecorded, happend⟩ := @ClaimsRecorded.claim s.db t.db h.recorded
            (clock.createClaim info.chain) key hlater hkey hclaims hkept hstored habout
          refine claim_guarded h hp hclock hrecorded happend ?_ ?_
          · -- a chain that is not in the table was never claimed
            intro other hheld
            have howner := h.owned other _ hheld
            rw [lastOwner_unclaimed] at howner
            · exact absurd howner (by simp)
            · intro claim hclaim heq
              apply h.recorded.stored claim hclaim
              rw [heq]
              exact (hnew info hinfo).2
          · intro chain hheld
            cases result with
            | error e => exact Or.inl hheld
            | ok added =>
                rcases hheld with hoffered | hlink
                · right
                  simp only [if_true, hinfo] at hoffered
                  exact (Option.some.inj hoffered).symm
                · exact Or.inl (Or.inr hlink)

/-- **A call of `maybe_reuse_chain`.** -/
theorem reused_guarded (h : Guarded s) {p : Process} (hp : s.status pid = .running p)
    (identity : String) (callback : Option Callback) {claimTime : U64}
    (hlater : s.db.LaterThanClaims claimTime) :
    Guarded (s.reused pid p identity callback claimTime) := by
  have hreused := reuseFrom_reused s.db pid s.gone identity claimTime s.db.getClaims
  have hstore : (s.store p).db = s.db := rfl
  unfold System.reused maybeReuseChain
  simp only [hstore]
  cases (refreshHelper (s.store p) callback).result with
  | error e => exact same_guarded h hp h.recorded rfl fun chain hheld => hheld
  | ok count =>
      simp only
      generalize s.db.reuseFrom pid s.gone identity claimTime s.db.getClaims = r at hreused ⊢
      obtain ⟨db', result⟩ := r
      cases hreused with
      | nothing hsame hresult =>
          change db' = s.db at hsame
          subst hsame
          refine same_guarded h hp h.recorded rfl ?_
          intro chain hheld
          cases result with
          | error e => exact hheld
          | ok found =>
              rw [hresult found rfl] at hheld
              rcases hheld with hoffered | hlink
              · exact absurd hoffered (by simp)
              · exact Or.inr hlink
      | claimed old hmem hgone key hkey hmade hresult =>
          change db' = _ at hmade
          have hlast := lastFor_of_mem_getClaims hmem
          obtain ⟨hrecorded, happend⟩ := @ClaimsRecorded.claim s.db db' h.recorded
            ⟨old.medallion, old.chainStart, pid, claimTime⟩ key hlater hkey
            (by rw [hmade]) (by rw [hmade]; exact fun _ hk => hk)
            (by rw [hmade]; exact h.recorded.stored old hlast.mem)
            (by rw [hmade]; exact h.recorded.chains)
          refine claim_guarded h hp rfl hrecorded happend ?_ ?_
          · -- the last to claim the chain is gone, and nobody else can have it
            intro other hheld
            have howner := h.owned other _ hheld
            obtain ⟨q, hq, -⟩ := hheld
            have hold : old.processId = other := Option.some.inj (hlast.lastOwner.symm.trans howner)
            unfold System.gone at hgone
            rw [hold, hq] at hgone
            exact absurd hgone (by simp)
          · intro chain hheld
            cases result with
            | error e => exact Or.inl hheld
            | ok found =>
                rcases hheld with hoffered | hlink
                · cases found with
                  | none => exact absurd hoffered (by simp)
                  | some info =>
                      right
                      rw [← Option.some.inj hoffered]
                      exact h.recorded.chains old.chain info (hresult info rfl)
                · exact Or.inl (Or.inr hlink)

theorem saveSymmetricKey_chains (t : Store) (key : Bytes) :
    (saveSymmetricKey lib t key).store.db.claims = t.db.claims ∧
      (saveSymmetricKey lib t key).store.db.chains = t.db.chains := by
  unfold saveSymmetricKey
  split_ifs
  · exact ⟨rfl, rfl⟩
  · simp only
    cases encodeMuts (lib.shorterHash key).val <;> exact ⟨rfl, rfl⟩

/-- **What each such event preserves.** -/
theorem step_guarded (lib : Externals) (s : System) (e : Event) (h : Guarded s)
    (hafresh : StartsAfresh lib s e) : Guarded (s.step lib e) := by
  have hstep := System.step_stepped lib s e
  generalize s.step lib e = s' at hstep ⊢
  cases hstep with
  | nothing => exact h
  | @start pid applyChanges hunused =>
      refine ⟨h.recorded, h.owned.mono ?_⟩
      intro other chain hheld
      obtain ⟨q, hq, hheld⟩ := hheld
      change Function.update s.status pid _ other = .running q at hq
      by_cases hpid : other = pid
      · -- a process that has just started has no chain
        subst hpid
        rw [Function.update_self] at hq
        injection hq with hq
        subst hq
        rcases hheld with hoffered | hlink
        · exact absurd hoffered (by simp)
        · exact absurd hlink (by simp)
      · rw [Function.update_of_ne hpid] at hq
        exact ⟨q, hq, hheld⟩
  | @apply pid p bundle callback claimChain receiveTime claimTime hrunning hlink =>
      exact applied_guarded h hrunning bundle callback claimChain _ rfl fun hclaim =>
        ⟨hafresh.1 hclaim, hafresh.2 hclaim⟩
  | @refresh pid p callback hrunning =>
      exact same_guarded h hrunning h.recorded rfl fun chain hheld => hheld
  | @reuse pid p identity callback claimTime hrunning hlink =>
      exact reused_guarded h hrunning identity callback hafresh.1
  | @adopt pid p chain hrunning hoffered =>
      refine same_guarded h hrunning h.recorded rfl ?_
      intro other hheld
      rcases hheld with hnone | hlink
      · exact absurd hnone (by simp)
      · exact Or.inl (hoffered.trans hlink)
  | @saveSymmetricKey pid p key hrunning =>
      obtain ⟨hclaims, hchains⟩ := @saveSymmetricKey_chains lib (s.store p) key
      change _ = s.db.claims at hclaims
      change _ = s.db.chains at hchains
      refine same_guarded h hrunning ⟨?_, ?_, ?_⟩ hclaims fun chain hheld => hheld
      · rw [hclaims]
        exact h.recorded.keys
      · unfold Db.claimed
        rw [hclaims, hchains]
        exact h.recorded.stored
      · rw [hchains]
        exact h.recorded.chains
  | @exit pid p hrunning =>
      refine ⟨h.recorded, h.owned.mono ?_⟩
      intro other chain hheld
      obtain ⟨q, hq, hheld⟩ := hheld
      change Function.update s.status pid _ other = .running q at hq
      by_cases hpid : other = pid
      · rw [hpid, Function.update_self] at hq
        exact absurd hq (by simp)
      · rw [Function.update_of_ne hpid] at hq
        exact ⟨q, hq, hheld⟩

end Lmdb

end Gink
