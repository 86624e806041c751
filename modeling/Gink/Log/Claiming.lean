/-
  Gink.Log.Claiming — the claims that the calls of a log-backed store write.

  Every call leaves the process where `Gink.Log.Claims` wants it, also one that raises.  Two
  calls write a claim: the rest of `apply_bundle`, on the chain of the bundle that it adds,
  and the rest of `maybe_reuse_chain`, on a chain that a process which is gone claimed last.

  Main results:
    * `beginApply_quiet`, `refresh_quiet`, `saveSigningKey_quiet`, … — the calls that claim
      nothing;
    * `finishApply_took`, `finishReuse_reused` — the two that may claim a chain.
-/
import Gink.Log.Claims

namespace Gink

namespace Log

variable {env : Env} {callback : Option Callback} {clocks : Clocks} {pid : U64}

/-! ## §1. Writing. -/

/-- A message whose claims are on chains that are begun. -/
theorem Rooted.append {lib : Externals} {contents : List LogFileBuilder} (h : Rooted lib contents)
    {record : LogFileBuilder}
    (hrecord : ∀ claim ∈ record.claims,
      Begun lib ((joined contents).bundles ++ record.bundles) claim.chain) :
    Rooted lib (contents ++ [record]) := by
  intro n claim hclaim
  by_cases hn : n ≤ contents.length
  · rw [List.take_append_of_le_length hn] at hclaim ⊢
    exact h n claim hclaim
  · have hlength : (contents ++ [record]).length ≤ n := by
      rw [List.length_append, List.length_singleton]
      omega
    rw [List.take_of_length_le hlength, joined_append] at hclaim ⊢
    have hone : joined [record] = record := LogFileBuilder.join_empty record
    rw [hone] at hclaim ⊢
    rw [LogFileBuilder.bundles_join]
    rcases List.mem_append.mp hclaim with hbefore | hnew
    · have hall := h contents.length claim
      rw [List.take_length] at hall
      obtain ⟨bundle, hbundle, info, hinfo⟩ := hall hbefore
      exact ⟨bundle, List.mem_append_left _ hbundle, info, hinfo⟩
    · exact hrecord claim hnew

/-- The file and the store once a message is written that the store has noted. -/
def View.wrote (env : Env) (pid : U64) (record : LogFileBuilder) (memory : Memory.Store) (v : View) :
    View :=
  (View.append pid record { v with store := { v.store with memory } }).advance
    (env.format.size record)

theorem wrote_read (v : View) (record : LogFileBuilder) (memory : Memory.Store) :
    (v.wrote env pid record memory).disk.contents = v.disk.contents ++ [record] ∧
      (v.wrote env pid record memory).read = v.disk.contents ++ [record] := by
  have hcontents : (v.wrote env pid record memory).disk.contents = v.disk.contents ++ [record] := by
    simp [View.wrote, View.append, View.advance, Disk.contents]
  refine ⟨hcontents, ?_⟩
  unfold View.read
  rw [hcontents]
  exact List.take_of_length_le (by simp [View.wrote, View.append, View.advance, Disk.contents])

theorem wrote_tell (v : View) (record : LogFileBuilder) (memory : Memory.Store) :
    (v.wrote env pid record memory).tell env
      = v.tell env + env.format.total v.unread + env.format.size record := by
  rw [tell_add_unread]
  show env.format.total (v.wrote env pid record memory).read = _
  rw [(wrote_read v record memory).2, LogFormat.total_append]
  simp [LogFormat.total]

/-- A process that skips nothing knows what it has written; one that does shows it. -/
theorem wrote_posted {v : View} (hv : Posted env v) {record : LogFileBuilder}
    {memory : Memory.Store}
    (hclaims : memory.claims = noted v.store.memory.claims record.claims)
    (hkept : ∀ chain, v.store.memory.chainInfos.get? chain ≠ none →
      memory.chainInfos.get? chain ≠ none)
    (habout : AboutChains memory.chainInfos)
    (hstored : ∀ chain, Begun env.lib record.bundles chain → memory.chainInfos.get? chain ≠ none)
    (hrooted : ∀ claim ∈ record.claims,
      Begun env.lib ((joined v.disk.contents).bundles ++ record.bundles) claim.chain) :
    Posted env (v.wrote env pid record memory) := by
  obtain ⟨hcontents, hread⟩ := @wrote_read env pid v record memory
  have htell := @wrote_tell env pid v record memory
  have hprocessedTo : (v.wrote env pid record memory).store.processedTo
      = v.store.processedTo + env.format.size record := rfl
  have hle := hv.processedTo
  -- the cursor is in place afterwards only if nothing was skipped
  have hlevel : (v.wrote env pid record memory).Level env →
      v.Level env ∧ joined v.disk.contents = joined v.read := by
    intro h
    unfold View.Level at h
    rw [htell, hprocessedTo] at h
    have hzero : env.format.total v.unread = 0 := by omega
    refine ⟨by unfold View.Level; omega, ?_⟩
    rw [joined_contents, joined_of_total_zero hzero, LogFileBuilder.join_empty]
  have hall : joined (v.disk.contents ++ [record]) = (joined v.disk.contents).join record := by
    rw [joined_append]
    exact congrArg _ (LogFileBuilder.join_empty record)
  refine ⟨?_, ?_, ?_, ?_, ?_, habout⟩
  · rw [hcontents]
    exact hv.rooted.append hrooted
  · simp [View.wrote, View.append, View.advance]
  · rw [htell, hprocessedTo]
    omega
  · intro h
    obtain ⟨hbefore, hsame⟩ := hlevel h
    show memory.claims = _
    rw [hread, hall, hsame, LogFileBuilder.claims_join, noted_append, hclaims, hv.claims hbefore]
  · intro h chain hbegun
    obtain ⟨hbefore, hsame⟩ := hlevel h
    rw [hread, hall, hsame, LogFileBuilder.bundles_join] at hbegun
    obtain ⟨bundle, hbundle, info, hinfo⟩ := hbegun
    rcases List.mem_append.mp hbundle with hold | hnew
    · exact hkept chain (hv.stored hbefore chain ⟨bundle, hold, info, hinfo⟩)
    · exact hstored chain ⟨bundle, hnew, info, hinfo⟩

theorem wrote_grown (v : View) (record : LogFileBuilder) (memory : Memory.Store) :
    Grown pid v.disk (v.wrote env pid record memory).disk record.claims where
  records := ⟨[⟨pid, record⟩], rfl, congrArg LogFileBuilder.claims (LogFileBuilder.join_empty record)⟩
  holder _ _ hheld := hheld

/-- The lock stays what it is, and a process that has lost its place stays lost. -/
theorem wrote_locked {v : View} (hv : Posted env v) (hlocked : Locked env pid v)
    (record : LogFileBuilder) (memory : Memory.Store) :
    Locked env pid (v.wrote env pid record memory) := by
  intro hflocked
  rcases hlocked hflocked with hheld | hlost
  · exact Or.inl hheld
  · right
    have hle := hv.processedTo
    unfold View.Level at hlost ⊢
    rw [wrote_tell]
    show ¬_ = v.store.processedTo + env.format.size record
    omega

/-- A message that claims nothing. -/
theorem wrote_quiet {v : View} (hv : Posted env v) (hlocked : Locked env pid v)
    {record : LogFileBuilder} (hrecord : record.claims = [])
    (hstored : ∀ chain, Begun env.lib record.bundles chain →
      v.store.memory.chainInfos.get? chain ≠ none) :
    Quiet env pid v (v.wrote env pid record v.store.memory) := by
  refine ⟨wrote_posted hv ?_ (fun _ h => h) hv.chains hstored ?_, wrote_locked hv hlocked _ _, ?_⟩
  · rw [hrecord]
    rfl
  · rw [hrecord]
    exact fun claim hclaim => absurd hclaim List.not_mem_nil
  · rw [← hrecord]
    exact wrote_grown v record _

/-! ## §2. The calls that claim nothing. -/

/-- **`apply_bundle` and `maybe_reuse_chain`** up to where they have caught up. -/
theorem beginApply_quiet {v : View} (hv : Posted env v) (hlocked : Locked env pid v)
    (hmay : v.store.flocked = true ∨ v.disk.mayLock pid = true) :
    Quiet env pid v (Action.endState (beginApply env pid callback clocks v)) ∧
      ∀ lock v', beginApply env pid callback clocks v = .ok lock v' → Waiting env pid v' := by
  obtain ⟨lock, v₁, h1, hquiet, hflocked⟩ := acquireLock_quiet hv hlocked hmay
  have hread := @refreshHelper_quiet env callback clocks pid v₁ hquiet.posted hquiet.locked
  unfold beginApply
  rw [Action.bind_of_ok h1]
  cases h2 : refreshHelper env callback clocks v₁ with
  | ok n v₂ =>
      rw [h2] at hread
      rw [Action.bind_of_ok h2]
      refine ⟨hquiet.trans hread, ?_⟩
      intro lock' v' h
      injection h with _ h
      rw [← h]
      exact caughtUp_waiting hquiet.posted hquiet.locked hflocked h2
  | error e v₂ =>
      rw [h2] at hread
      rw [Action.bind_of_error h2]
      exact ⟨hquiet.trans hread, by simp⟩

theorem beginReuse_quiet {v : View} (hv : Posted env v) (hlocked : Locked env pid v)
    (hmay : v.store.flocked = true ∨ v.disk.mayLock pid = true) :
    Quiet env pid v (Action.endState (beginReuse env pid callback clocks v)) ∧
      ∀ lock v', beginReuse env pid callback clocks v = .ok lock v' → Waiting env pid v' := by
  obtain ⟨lock, v₁, h1, hquiet, hflocked⟩ := acquireLock_quiet hv hlocked hmay
  have hread := @refreshHelper_quiet env callback clocks pid v₁ hquiet.posted hquiet.locked
  unfold beginReuse
  rw [Action.bind_of_ok h1]
  cases h2 : refreshHelper env callback clocks v₁ with
  | ok n v₂ =>
      rw [h2] at hread
      have hrun : (refreshHelper env callback clocks >>= fun _ => pure lock : Action View Bool) v₁
          = .ok lock v₂ := Action.bind_of_ok h2
      rw [Action.recover_ok hrun]
      refine ⟨hquiet.trans hread, ?_⟩
      intro lock' v' h
      injection h with _ h
      rw [← h]
      exact caughtUp_waiting hquiet.posted hquiet.locked hflocked h2
  | error e v₂ =>
      rw [h2] at hread
      have hrun : (refreshHelper env callback clocks >>= fun _ => pure lock : Action View Bool) v₁
          = .error e v₂ := Action.bind_of_error h2
      rw [Action.recover_error hrun]
      refine ⟨?_, ?_⟩
      · apply Action.Keeps.bind (releaseLock_quiet lock v) (fun _ => Action.Keeps.of _)
        exact hquiet.trans hread
      · intro lock' v' h
        obtain ⟨u, v₃, -, h⟩ := Action.bind_eq_ok.mp h
        exact absurd h (by simp [Action.of])

theorem refresh_quiet {v : View} (hv : Posted env v) (hlocked : Locked env pid v)
    (hmay : v.store.flocked = true ∨ v.disk.mayLock pid = true) :
    Quiet env pid v (Action.endState (refresh env pid callback clocks v)) := by
  obtain ⟨lock, v₁, h1, hquiet, -⟩ := acquireLock_quiet hv hlocked hmay
  have hread := @refreshHelper_quiet env callback clocks pid v₁ hquiet.posted hquiet.locked
  unfold refresh
  rw [Action.bind_of_ok h1]
  apply Action.endState_bind (P := Quiet env pid v) (hquiet.trans hread) (fun _ h => h)
  intro n v₂ _ h2
  exact Action.Keeps.bind (releaseLock_quiet lock v) (fun _ => Action.Keeps.pure n) v₂ h2

/-- **A plain read** takes the lock together with others, and only to read. -/
theorem maybeRefresh_quiet {v : View} (hv : Posted env v) (hlocked : Locked env pid v) :
    Quiet env pid v (Action.endState (maybeRefresh env pid clocks v)) := by
  unfold maybeRefresh
  rw [Action.get_bind]
  cases hflocked : v.store.flocked with
  | true => exact Quiet.refl hv hlocked
  | false =>
      simp only [Bool.false_eq_true, if_false]
      by_cases hlevel : v.tell env = v.store.processedTo
      · rw [decide_eq_true hlevel, ensure_true, Action.of_ok_bind]
        split_ifs with hend
        · have hzero : env.format.total v.unread = 0 := by
            have h := @tell_add_unread env v
            omega
          refine ⟨(seekEnd_posted hv hzero).1, ?_, Grown.refl pid v.disk⟩
          intro h
          change v.store.flocked = true at h
          rw [hflocked] at h
          exact absurd h (by simp)
        · rw [Action.modify_bind]
          have hshared : Posted env (v.lockShared pid) :=
            ⟨hv.rooted, hv.position, hv.processedTo, hv.claims, hv.stored, hv.chains⟩
          obtain ⟨hposted, -, herror⟩ := @refreshHelper_posted env none clocks _ hshared
          have hdisk := refreshHelper_disk env none clocks (v.lockShared pid)
          have hgrown : Grown pid v.disk
              (Action.endState (refreshHelper env none clocks (v.lockShared pid))).disk [] := by
            rw [hdisk]
            exact .of_records rfl fun _ _ h => h
          cases hrun : refreshHelper env none clocks (v.lockShared pid) with
          | ok n v₁ =>
              rw [hrun] at hposted hgrown
              rw [Action.bind_of_ok hrun]
              have hunlocked := @unlock_quiet env pid v₁ hposted
              exact ⟨hunlocked.posted, hunlocked.locked, hgrown.trans hunlocked.grown⟩
          | error e v₁ =>
              -- the lock is not released, but the process has lost its place
              rw [hrun] at hposted hgrown
              rw [Action.bind_of_error hrun]
              exact ⟨hposted, fun _ => Or.inr (herror e v₁ hrun), hgrown⟩
      · rw [decide_eq_false hlevel, ensure_false, Action.of_error_bind]
        exact Quiet.refl hv hlocked

/-- **`save_signing_key`** may skip messages that the process has not read. -/
theorem saveSigningKey_quiet {v : View} (hv : Posted env v) (hlocked : Locked env pid v)
    (key : SigningKey) : Quiet env pid v (Action.endState (saveSigningKey env pid key v)) := by
  have hwrote := @wrote_quiet env pid v hv hlocked
    { keyPairs := [⟨key.verifyKey, key.seed⟩] } rfl (by simp [Begun])
  have hkin : Kin (v.wrote env pid { keyPairs := [⟨key.verifyKey, key.seed⟩] } v.store.memory)
      (Action.endState (saveSigningKey env pid key v)) :=
    .of_same (noteSigningKey_inner _ _ _) rfl rfl
  exact hwrote.trans (hkin.quiet hwrote.posted hwrote.locked)

theorem saveSymmetricKey_quiet {v : View} (hv : Posted env v) (hlocked : Locked env pid v)
    (key : Bytes) : Quiet env pid v (Action.endState (saveSymmetricKey env key v)) := by
  have hkin : Kin v (Action.endState (saveSymmetricKey env key v)) := by
    have hinner := @saveSymmetricKey_inner env key v v (Inner.refl v)
    refine .of_same hinner ?_ ?_
    · unfold saveSymmetricKey memoryCall Memory.saveSymmetricKey
      split <;> split_ifs <;> rfl
    · unfold saveSymmetricKey memoryCall Memory.saveSymmetricKey
      split <;> split_ifs <;> rfl
  exact hkin.quiet hv hlocked

/-! ## §3. The calls that claim. -/

/-- A claim was written, and what the process then knows. -/
structure Claimed (env : Env) (pid : U64) (claim : ClaimBuilder) (v v' : View) : Prop where
  posted : Posted env v'
  locked : Locked env pid v'
  grown : Grown pid v.disk v'.disk [claim]

theorem Claimed.quiet {claim : ClaimBuilder} {v v' v'' : View} (h : Claimed env pid claim v v')
    (h' : Quiet env pid v' v'') : Claimed env pid claim v v'' :=
  ⟨h'.posted, h'.locked, h.grown.trans h'.grown⟩

theorem Quiet.claimed {claim : ClaimBuilder} {v v' v'' : View} (h : Quiet env pid v v')
    (h' : Claimed env pid claim v' v'') : Claimed env pid claim v v'' :=
  ⟨h'.posted, h'.locked, h.grown.trans h'.grown⟩

/-- A message with one claim, on a chain that is begun. -/
theorem wrote_claimed {v : View} (hv : Posted env v) (hlocked : Locked env pid v)
    {record : LogFileBuilder} {claim : ClaimBuilder} (hrecord : record.claims = [claim])
    (hstored : ∀ chain, Begun env.lib record.bundles chain →
      v.store.memory.chainInfos.get? chain ≠ none)
    (hbegun : Begun env.lib ((joined v.disk.contents).bundles ++ record.bundles) claim.chain) :
    Claimed env pid claim v
      (v.wrote env pid record (Memory.addClaim v.store.memory claim)) := by
  refine ⟨wrote_posted hv ?_ (fun _ h => h) hv.chains hstored ?_, wrote_locked hv hlocked _ _, ?_⟩
  · rw [hrecord]
    rfl
  · rw [hrecord]
    intro other hother
    rw [List.mem_singleton.mp hother]
    exact hbegun
  · rw [← hrecord]
    exact wrote_grown v record _

/-- What the rest of `apply_bundle` does. -/
inductive Took (env : Env) (pid : U64) (bundle : Decomposition) (claimChain : Bool)
    (claimTime : U64) (v : View) (r : EStateM.Result Error View Bool) : Prop
  /-- nothing is claimed; a call for a new chain that returns has found a duplicate -/
  | quiet (quiet : Quiet env pid v (Action.endState r))
      (duplicate : claimChain = true → ∀ added v', r = .ok added v' → ∃ info,
        bundle.getInfo env.lib = .ok info ∧
        isNeeded info (v.store.memory.chainInfos.get? info.chain) = .ok false)
  /-- the bundle is written with a claim on its chain -/
  | claimed (hclaim : claimChain = true) (info : BundleInfo)
      (hinfo : bundle.getInfo env.lib = .ok info)
      (claimed : Claimed env pid ⟨info.chain.medallion, info.chain.chainStart, pid, claimTime⟩ v
        (Action.endState r))

/-- A bundle that `MemoryStore.apply_bundle` added, or found to be a duplicate. -/
theorem memoryApply_added {bundle : Decomposition} {clock : Nat → Int} {v v' : View} {added : Bool}
    (h : memoryApply env bundle callback clock v = .ok added v') :
    ∃ info, bundle.getInfo env.lib = .ok info ∧
      (added = true → 0 < info.timestamp ∧ v'.store.memory.chainInfos.get? info.chain ≠ none) ∧
      (added = false →
        isNeeded info (v.store.memory.chainInfos.get? info.chain) = .ok false) := by
  have hstored := @memoryApply_stored env callback bundle clock v v' added h
  unfold memoryApply memoryCall at h
  split at h
  · exact absurd h (by simp)
  · rename_i a hresult
    injection h with ha _
    change (Memory.applyBundle env.lib v.store.memory bundle callback clock).result
      = .ok a at hresult
    obtain ⟨info, hinfo, hanswered⟩ := Memory.applyBundle_answered hresult
    subst ha
    refine ⟨info, hinfo, ?_⟩
    cases hanswered with
    | duplicate hduplicate houtcome =>
        rw [houtcome] at hresult
        injection hresult with hresult
        rw [← hresult]
        exact ⟨fun h => absurd h (by simp), fun _ => hduplicate⟩
    | stored hneeded hstoredResult _ _ _ =>
        rw [hstoredResult] at hresult
        injection hresult with hresult
        rw [← hresult]
        have htime : 0 < info.timestamp :=
          lt_of_le_of_lt (Fin.zero_le _) (isNeeded_eq_true hneeded).1
        exact ⟨fun _ => ⟨htime, hstored hinfo htime⟩, fun h => absurd h (by simp)⟩

/-- What comes after a message was written: the callback, and the lock is released. -/
theorem told_quiet (bundle : Decomposition) (lock : Bool) {v : View} (hv : Posted env v)
    (hlocked : Locked env pid v) :
    Quiet env pid v (Action.endState
      ((callBack callback bundle >>= fun _ => releaseLock pid lock >>= fun _ => pure true :
        Action View Bool) v)) := by
  refine Action.Keeps.bind (P := Quiet env pid v) ?_ ?_ v (Quiet.refl hv hlocked)
  · cases callback with
    | none => exact Action.Keeps.pure ()
    | some f => exact Action.Keeps.of (f bundle)
  · intro _
    exact Action.Keeps.bind (releaseLock_quiet lock v) fun _ => Action.Keeps.pure true

/-- **The rest of `apply_bundle`** claims the chain of a bundle that it adds. -/
theorem finishApply_took {v : View} (hv : Posted env v) (hlocked : Locked env pid v)
    (bundle : Decomposition) (claimChain lock : Bool) (clock : Nat → Int) (claimTime : U64) :
    Took env pid bundle claimChain claimTime v
      (finishApply env pid bundle callback claimChain lock clock claimTime v) := by
  have hkin := @memoryApply_kin env none bundle clock v
  unfold finishApply
  cases h1 : memoryApply env bundle none clock v with
  | error e v₁ =>
      rw [h1] at hkin
      rw [Action.bind_of_error h1]
      exact .quiet (hkin.quiet hv hlocked) (by simp)
  | ok added v₁ =>
      rw [h1] at hkin
      change Kin v v₁ at hkin
      have hquiet := hkin.quiet hv hlocked
      obtain ⟨info, hinfo, hadded, hduplicate⟩ := memoryApply_added h1
      rw [Action.bind_of_ok h1]
      cases added with
      | false =>
          refine .quiet ?_ fun _ _ _ _ => ⟨info, hinfo, hduplicate rfl⟩
          exact Action.Keeps.bind (releaseLock_quiet lock v) (fun _ => Action.Keeps.pure false) v₁
            hquiet
      | true =>
          obtain ⟨htime, hchain⟩ := hadded rfl
          have hstored : ∀ chain, Begun env.lib [bundle] chain →
              v₁.store.memory.chainInfos.get? chain ≠ none := by
            intro chain hbegun
            obtain ⟨other, hother, info', hinfo', -, hchain'⟩ := hbegun
            rw [List.mem_singleton.mp hother, hinfo] at hinfo'
            obtain rfl := Except.ok.inj hinfo'
            rw [← hchain']
            exact hchain
          simp only [if_true]
          unfold writeBundle
          cases claimChain with
          | false =>
              have hwrote := @wrote_quiet env pid v₁ hquiet.posted hquiet.locked
                { bundles := [bundle] } rfl hstored
              have hrest := @told_quiet env callback pid bundle lock _ hwrote.posted hwrote.locked
              exact .quiet ((hquiet.trans hwrote).trans hrest) (by simp)
          | true =>
              simp only [if_true]
              rw [hinfo]
              have hbegun : Begun env.lib ((joined v₁.disk.contents).bundles ++ [bundle])
                  info.chain :=
                ⟨bundle, by simp, info, hinfo, htime, rfl⟩
              have hwrote := @wrote_claimed env pid v₁ hquiet.posted hquiet.locked
                { bundles := [bundle], claims := [⟨_, _, pid, claimTime⟩] }
                ⟨info.chain.medallion, info.chain.chainStart, pid, claimTime⟩ rfl hstored hbegun
              have hrest := @told_quiet env callback pid bundle lock _ hwrote.posted hwrote.locked
              exact .claimed rfl info hinfo ((hquiet.claimed hwrote).quiet hrest)

/-- What the rest of `maybe_reuse_chain` does. -/
inductive Reused (env : Env) (pid : U64) (gone : U64 → Bool) (claimTime : U64) (v : View)
    (r : EStateM.Result Error View (Option BundleInfo)) : Prop
  /-- no chain is found -/
  | quiet (quiet : Quiet env pid v (Action.endState r))
      (result : ∀ found v', r = .ok found v' → found = none)
  /-- the chain of a last claim is claimed, whose process is gone -/
  | claimed (old : ClaimBuilder) (last : LastFor (joined v.disk.contents).claims old)
      (hgone : gone old.processId = true)
      (claimed : Claimed env pid ⟨old.medallion, old.chainStart, pid, claimTime⟩ v
        (Action.endState r))
      (result : ∀ info v', r = .ok (some info) v' → info.chain = old.chain)

/-- **The loop** takes a chain over from a process that is gone. -/
theorem reuseFrom_reused {v : View} (hv : Posted env v) (hlocked : Locked env pid v)
    (hwaiting : Waiting env pid v) (gone : U64 → Bool) (identity : String) (claimTime : U64)
    {claims : List ClaimBuilder}
    (hclaims : ∀ claim ∈ claims, claim ∈ v.store.memory.claims.rows.map (·.2)) :
    Reused env pid gone claimTime v (reuseFrom env pid gone identity claimTime claims v) := by
  induction claims with
  | nil =>
      refine .quiet (Quiet.refl hv hlocked) ?_
      intro found v' h
      injection h with h _
      exact h.symm
  | cons old rest ih =>
      unfold reuseFrom
      rw [Action.get_bind]
      cases hidentity : Memory.getIdentity v.store.memory ⟨old.medallion, old.chainStart⟩ with
      | error e => exact .quiet (Quiet.refl hv hlocked) (by simp [Action.of, Action.bind_eq])
      | ok chainIdentity =>
          rw [Action.of_ok_bind]
          split_ifs with hmatch
          · cases hflocked : v.store.flocked with
            | false =>
                have hrun : addClaim env pid claimTime ⟨old.medallion, old.chainStart⟩ v
                    = .error (.assertionError "self._flocked") v := by
                  unfold addClaim
                  rw [Action.get_bind, hflocked]
                  rfl
                rw [Action.bind_of_error hrun]
                exact .quiet (Quiet.refl hv hlocked) (by simp)
            | true =>
                obtain ⟨hlast, hbegun⟩ := hwaiting.last hv (hclaims old List.mem_cons_self)
                obtain ⟨bundle, hbundle, info⟩ := hbegun
                have hwrote := @wrote_claimed env pid v hv hlocked
                  { claims := [⟨old.medallion, old.chainStart, pid, claimTime⟩] }
                  ⟨old.medallion, old.chainStart, pid, claimTime⟩ rfl (by simp [Begun])
                  ⟨bundle, List.mem_append_left _ hbundle, info⟩
                have hrun : addClaim env pid claimTime ⟨old.medallion, old.chainStart⟩ v
                    = .ok () (v.wrote env pid
                      { claims := [⟨old.medallion, old.chainStart, pid, claimTime⟩] }
                      (Memory.addClaim v.store.memory
                        ⟨old.medallion, old.chainStart, pid, claimTime⟩)) := by
                  unfold addClaim
                  rw [Action.get_bind, hflocked]
                  rfl
                rw [Action.bind_of_ok hrun, Action.get_bind]
                cases hfound : Memory.getLast (v.wrote env pid _ (Memory.addClaim v.store.memory
                    ⟨old.medallion, old.chainStart, pid, claimTime⟩)).store.memory
                    ⟨old.medallion, old.chainStart⟩ with
                | error e => exact .claimed old hlast hmatch.2 hwrote (by simp [Action.of, Action.bind_eq])
                | ok found =>
                    refine .claimed old hlast hmatch.2 hwrote ?_
                    intro info' v' h
                    injection h with h _
                    rw [← Option.some.inj h]
                    exact hv.chains _ _ (orRaise_eq_ok.mp hfound)
          · exact ih fun claim hclaim => hclaims claim (List.mem_cons_of_mem _ hclaim)

theorem Reused.posted {v : View} {gone : U64 → Bool} {claimTime : U64}
    {r : EStateM.Result Error View (Option BundleInfo)} (h : Reused env pid gone claimTime v r) :
    Posted env (Action.endState r) ∧ Locked env pid (Action.endState r) := by
  cases h with
  | quiet hquiet _ => exact ⟨hquiet.posted, hquiet.locked⟩
  | claimed _ _ _ hclaimed _ => exact ⟨hclaimed.posted, hclaimed.locked⟩

/-- What comes after the loop claims nothing, and answers what the loop did. -/
theorem Reused.rest {v : View} {gone : U64 → Bool} {claimTime : U64}
    {r r' : EStateM.Result Error View (Option BundleInfo)} (h : Reused env pid gone claimTime v r)
    (hquiet : Quiet env pid (Action.endState r) (Action.endState r'))
    (hresult : ∀ found v', r' = .ok found v' → ∃ v₁, r = .ok found v₁) :
    Reused env pid gone claimTime v r' := by
  cases h with
  | quiet hbefore hnone =>
      refine .quiet (hbefore.trans hquiet) ?_
      intro found v' hfound
      obtain ⟨v₁, hr⟩ := hresult found v' hfound
      exact hnone found v₁ hr
  | claimed old hlast hgone hclaimed habout =>
      refine .claimed old hlast hgone (hclaimed.quiet hquiet) ?_
      intro info v' hinfo
      obtain ⟨v₁, hr⟩ := hresult (some info) v' hinfo
      exact habout info v₁ hr

theorem releaseLock_run (pid : U64) (lock : Bool) (v : View) :
    ∃ v', releaseLock pid lock v = .ok () v' := by
  cases lock <;> exact ⟨_, rfl⟩

/-- **The rest of `maybe_reuse_chain`** releases the lock also when it raises. -/
theorem finishReuse_reused {v : View} (hv : Posted env v) (hlocked : Locked env pid v)
    (hwaiting : Waiting env pid v) (gone : U64 → Bool) (identity : String) (lock : Bool)
    (claimTime : U64) :
    Reused env pid gone claimTime v (finishReuse env pid gone identity lock claimTime v) := by
  have hloop := @reuseFrom_reused env pid v hv hlocked hwaiting gone identity claimTime
    (v.store.memory.claims.rows.map (·.2)) fun _ h => h
  obtain ⟨hposted, hlocked₁⟩ := hloop.posted
  unfold finishReuse
  cases hrun : reuseFrom env pid gone identity claimTime (v.store.memory.claims.rows.map (·.2)) v with
  | ok found v₁ =>
      rw [hrun] at hloop hposted hlocked₁
      obtain ⟨v₂, hreleased⟩ := releaseLock_run pid lock v₁
      have hquiet := releaseLock_quiet lock v₁ v₁ (Quiet.refl hposted hlocked₁)
      rw [hreleased] at hquiet
      rw [@Action.recover_ok _ _ _ _ v v₂ found]
      · refine hloop.rest ?_ ?_
        · exact hquiet
        · intro found' v' h
          injection h with h _
          exact ⟨v₁, by rw [h]⟩
      · rw [Action.get_bind, Action.bind_of_ok hrun, Action.bind_of_ok hreleased]
        rfl
  | error e v₁ =>
      rw [hrun] at hloop hposted hlocked₁
      obtain ⟨v₂, hreleased⟩ := releaseLock_run pid lock v₁
      have hquiet := releaseLock_quiet lock v₁ v₁ (Quiet.refl hposted hlocked₁)
      rw [hreleased] at hquiet
      rw [@Action.recover_error _ _ _ _ v v₁ e]
      · rw [Action.bind_of_ok hreleased]
        refine hloop.rest ?_ ?_
        · exact hquiet
        · simp [Action.of]
      · rw [Action.get_bind, Action.bind_of_error hrun]

/-! ## §4. Opening the file. -/

/-- **Opening the file** claims nothing. -/
theorem openFile_quiet {disk : Disk} (hrooted : Rooted env.lib disk.contents)
    (hmay : disk.mayLock pid = true) (exclusive : Bool) :
    Quiet env pid ⟨disk, {}⟩ (Action.endState (openFile env pid exclusive clocks ⟨disk, {}⟩)) := by
  have hfresh : Posted env (View.setExclusive exclusive ⟨disk, {}⟩) :=
    ⟨hrooted, Nat.zero_le _, Nat.zero_le _, fun _ => rfl,
      fun _ chain hbegun => by
        obtain ⟨bundle, hbundle, -⟩ := hbegun
        exact absurd hbundle List.not_mem_nil,
      fun chain info h => absurd h (by simp [View.setExclusive])⟩
  have hquiet : Quiet env pid ⟨disk, {}⟩
      ((View.setExclusive exclusive ⟨disk, {}⟩).lockExclusive pid) := by
    have h := lockExclusive_quiet hfresh hmay
    exact ⟨h.posted, h.locked, h.grown⟩
  rw [openFile_eq]
  split_ifs
  · refine Action.Keeps.bind (P := Quiet env pid ⟨disk, {}⟩) ?_
      (fun _ => releaseLock_quiet (!exclusive) _) _ hquiet
    intro v h
    have hwrote := @wrote_quiet env pid v h.posted h.locked header rfl (by simp [Begun, header])
    exact h.trans hwrote
  · refine Action.Keeps.bind (P := Quiet env pid ⟨disk, {}⟩) ?_
      (fun _ => releaseLock_quiet (!exclusive) _) _ hquiet
    exact fun v h => h.trans (refreshHelper_quiet h.posted h.locked)

end Log

end Gink
