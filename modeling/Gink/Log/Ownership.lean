/-
  Gink.Log.Ownership — which process holds a chain of a log file.

  Whoever holds a chain, as the link of his database or as what `_acquire_appendable_link` was
  given, wrote the last claim on it.  The calls may raise anywhere, and a signing key may be
  saved by a process that has not read what others wrote: such a process loses its place in
  the file, and writes no claim any more.

  Main results:
    * `step_guarded` — what each event preserves, when the chains that are started are new;
    * `Guarded.apart` — no chain has two holders.
-/
import Gink.Log.Claiming
import Gink.Log.Discipline

namespace Gink

namespace Log

/-! ## §1. The invariant. -/

/-- The process has the chain as its link, or is about to. -/
def Process.Holds (p : Process) (chain : Chain) : Prop :=
  p.offered = some chain ∨ p.link = some chain

/-- A running process has the chain. -/
def System.Holds (s : System) (pid : U64) (chain : Chain) : Prop :=
  ∃ p, s.status pid = .running p ∧ p.Holds chain

/-- **No two processes** have the same chain as their link. -/
def System.Apart (s : System) : Prop :=
  ∀ first second p q chain, s.status first = .running p → s.status second = .running q →
    p.link = some chain → q.link = some chain → first = second

/-- Every process knows the claims that it has read, and whoever has a chain claimed it last. -/
structure Guarded (env : Env) (s : System) : Prop where
  rooted : Rooted env.lib s.disk.contents
  posted : ∀ pid p, s.status pid = .running p → Posted env (s.view p)
  locked : ∀ pid p, s.status pid = .running p → Locked env pid (s.view p)
  waiting : ∀ pid p, s.status pid = .running p → p.pending.isSome = true →
    Waiting env pid (s.view p)
  owned : Machine.Owned (claimants (joined s.disk.contents).claims) s.Holds

variable {env : Env} {s : System} {pid : U64}

theorem Guarded.apart (h : Guarded env s) : s.Apart :=
  fun _ _ p q _ hp hq hlink hlink' =>
    h.owned.unique ⟨p, hp, Or.inr hlink⟩ ⟨q, hq, Or.inr hlink'⟩

theorem guarded_empty (env : Env) : Guarded env {} where
  rooted n claim hclaim := by
    have hnil : ({} : System).disk.contents.take n = [] := List.take_nil
    rw [hnil] at hclaim
    exact absurd hclaim List.not_mem_nil
  posted pid p h := absurd h (by simp)
  locked pid p h := absurd h (by simp)
  waiting pid p h := absurd h (by simp)
  owned pid chain hheld := by
    obtain ⟨p, hp, -⟩ := hheld
    exact absurd hp (by simp)

/-- Who runs after a step of one process. -/
theorem put_running {v : View} {p' q : Process} {other : U64}
    (h : (s.put pid v p').status other = .running q) :
    other = pid ∧ q = { p' with store := v.store } ∨
      other ≠ pid ∧ s.status other = .running q := by
  change Function.update s.status pid _ other = .running q at h
  by_cases hpid : other = pid
  · subst hpid
    rw [Function.update_self] at h
    injection h with h
    exact Or.inl ⟨rfl, h.symm⟩
  · rw [Function.update_of_ne hpid] at h
    exact Or.inr ⟨hpid, h⟩

/-- **The others**, while the file grows by messages of one process: no claim is written by
anybody but the process that has the lock. -/
theorem others_kept (h : Guarded env s) {disk : Disk} {claims : List ClaimBuilder}
    (hgrown : Grown pid s.disk disk claims) (hrooted : Rooted env.lib disk.contents)
    (halone : claims = [] ∨ s.disk.exclusive = some pid) {other : U64} {q : Process}
    (hother : other ≠ pid) (hq : s.status other = .running q) :
    Posted env ⟨disk, q.store⟩ ∧ Locked env other ⟨disk, q.store⟩ ∧
      (q.pending.isSome = true → Waiting env other ⟨disk, q.store⟩) := by
  have hposted := h.posted other q hq
  obtain ⟨hposted', hlevel⟩ := posted_of_grown hposted hgrown hrooted
  refine ⟨hposted', ?_, ?_⟩
  · intro hflocked
    rcases h.locked other q hq hflocked with hheld | hlost
    · exact Or.inl (hgrown.holder other hother hheld)
    · exact Or.inr fun hlevel' => hlost (hlevel.mp hlevel')
  · intro hpending
    have hwaiting := h.waiting other q hq hpending
    refine ⟨hgrown.holder other hother hwaiting.held, hlevel.mpr hwaiting.level, ?_⟩
    have hnil : claims = [] := by
      rcases halone with hnil | hmine
      · exact hnil
      · have hhis : s.disk.exclusive = some other := hwaiting.held
        rw [hmine] at hhis
        exact absurd (Option.some.inj hhis).symm hother
    obtain ⟨more, hmore, hclaims⟩ := hgrown.records
    have hcontents : disk.contents = s.disk.contents ++ more.map (·.content) := by
      unfold Disk.contents
      rw [hmore, List.map_append]
    have hle : q.store.position ≤ s.disk.contents.length := by
      unfold Disk.contents
      rw [List.length_map]
      exact hposted.position
    show (joined (disk.contents.drop q.store.position)).claims = []
    rw [hcontents, List.drop_append_of_le_length hle, joined_append, LogFileBuilder.claims_join,
      hclaims, hnil, List.append_nil]
    exact hwaiting.unread

/-- **A step of one process.** -/
theorem put_guarded (h : Guarded env s) {v : View} {p' : Process} {claims : List ClaimBuilder}
    (hposted : Posted env v) (hlocked : Locked env pid v)
    (hgrown : Grown pid s.disk v.disk claims)
    (halone : claims = [] ∨ s.disk.exclusive = some pid)
    (hwaiting : p'.pending.isSome = true → Waiting env pid v)
    (howned : Machine.Owned (claimants ((joined s.disk.contents).claims ++ claims))
      (s.put pid v p').Holds) : Guarded env (s.put pid v p') := by
  refine ⟨hposted.rooted, ?_, ?_, ?_, ?_⟩
  · intro other q hq
    rcases put_running hq with ⟨-, rfl⟩ | ⟨hother, hq⟩
    · exact hposted
    · exact (others_kept h hgrown hposted.rooted halone hother hq).1
  · intro other q hq
    rcases put_running hq with ⟨rfl, rfl⟩ | ⟨hother, hq⟩
    · exact hlocked
    · exact (others_kept h hgrown hposted.rooted halone hother hq).2.1
  · intro other q hq
    rcases put_running hq with ⟨rfl, rfl⟩ | ⟨hother, hq⟩
    · exact hwaiting
    · exact (others_kept h hgrown hposted.rooted halone hother hq).2.2
  · show Machine.Owned (claimants (joined v.disk.contents).claims) _
    rw [hgrown.claimed]
    exact howned

/-- Who holds what after a step of one process. -/
theorem holds_put {v : View} {p' : Process} {other : U64} {chain : Chain}
    (h : (s.put pid v p').Holds other chain) : other = pid ∧ p'.Holds chain ∨ s.Holds other chain := by
  obtain ⟨q, hq, hheld⟩ := h
  rcases put_running hq with ⟨rfl, rfl⟩ | ⟨-, hq⟩
  · exact Or.inl ⟨rfl, hheld⟩
  · exact Or.inr ⟨q, hq, hheld⟩

/-- **A step that claims nothing**: the process has no chain that it did not have. -/
theorem quiet_guarded (h : Guarded env s) {v v' : View} {p' : Process} (hv : v.disk = s.disk)
    (hquiet : Quiet env pid v v') (hwaiting : p'.pending.isSome = true → Waiting env pid v')
    (hless : ∀ chain, p'.Holds chain → s.Holds pid chain) : Guarded env (s.put pid v' p') := by
  have hgrown := hquiet.grown
  rw [hv] at hgrown
  refine put_guarded h hquiet.posted hquiet.locked hgrown (Or.inl rfl) hwaiting ?_
  rw [List.append_nil]
  apply h.owned.mono
  intro other chain hheld
  rcases holds_put hheld with ⟨rfl, hp'⟩ | hbefore
  · exact hless chain hp'
  · exact hbefore

/-- **A step that claims a chain** that nobody else has. -/
theorem claim_guarded (h : Guarded env s) {v v' : View} {p' : Process} (hv : v.disk = s.disk)
    {claim : ClaimBuilder} (hclaimed : Claimed env pid claim v v') (hpid : claim.processId = pid)
    (hheld : s.disk.exclusive = some pid) (hidle : p'.pending = none)
    (hfree : ∀ other, s.Holds other claim.chain → other = pid)
    (hless : ∀ chain, p'.Holds chain → s.Holds pid chain ∨ chain = claim.chain) :
    Guarded env (s.put pid v' p') := by
  have hgrown := hclaimed.grown
  rw [hv] at hgrown
  refine put_guarded h hclaimed.posted hclaimed.locked hgrown (Or.inr hheld) ?_ ?_
  · rw [hidle]
    exact fun hpending => absurd hpending (by simp)
  · rw [claimants_append, hpid]
    refine h.owned.claim hfree ?_
    intro other chain hother
    rcases holds_put hother with ⟨rfl, hp'⟩ | hbefore
    · rcases hless chain hp' with hold | hnew
      · exact Or.inl hold
      · exact Or.inr ⟨rfl, hnew⟩
    · exact Or.inl hbefore

/-- **A process is gone**, and has written no claim. -/
theorem gone_guarded (h : Guarded env s) {disk : Disk} (hgrown : Grown pid s.disk disk [])
    (hrooted : Rooted env.lib disk.contents) :
    Guarded env ⟨disk, Function.update s.status pid .exited⟩ := by
  have hothers : ∀ other q, Function.update s.status pid .exited other = .running q →
      other ≠ pid ∧ s.status other = .running q := by
    intro other q hq
    by_cases hpid : other = pid
    · rw [hpid, Function.update_self] at hq
      exact absurd hq (by simp)
    · rw [Function.update_of_ne hpid] at hq
      exact ⟨hpid, hq⟩
  refine ⟨hrooted, ?_, ?_, ?_, ?_⟩
  · intro other q hq
    obtain ⟨hother, hq⟩ := hothers other q hq
    exact (others_kept h hgrown hrooted (Or.inl rfl) hother hq).1
  · intro other q hq
    obtain ⟨hother, hq⟩ := hothers other q hq
    exact (others_kept h hgrown hrooted (Or.inl rfl) hother hq).2.1
  · intro other q hq
    obtain ⟨hother, hq⟩ := hothers other q hq
    exact (others_kept h hgrown hrooted (Or.inl rfl) hother hq).2.2
  · show Machine.Owned (claimants (joined disk.contents).claims) _
    rw [hgrown.claimed, List.append_nil]
    apply h.owned.mono
    intro other chain hheld
    obtain ⟨q, hq, hheld⟩ := hheld
    obtain ⟨-, hq⟩ := hothers other q hq
    exact ⟨q, hq, hheld⟩

/-! ## §2. The steps. -/

/-- **When chains stay apart**: every chain that is started is new to the process. -/
def StartsAfresh (env : Env) (s : System) : Event → Prop
  | .finishApply pid _ _ => ∀ p bundle callback lock, s.status pid = .running p →
      p.pending = some (.apply bundle callback true lock) →
      StartsNew env.lib p.store.memory.chainInfos.get? bundle
  | _ => True

/-- A call that claims nothing, and ends. -/
theorem perform_guarded (h : Guarded env s) {p : Process} (hp : s.status pid = .running p)
    {α : Type} {x : Action View α} {next : α → Process}
    (hquiet : Quiet env pid (s.view p) (Action.endState (x (s.view p))))
    (hwaiting : ∀ a v', x (s.view p) = .ok a v' → (next a).pending.isSome = true →
      Waiting env pid v')
    (hless : ∀ a chain, (next a).Holds chain → p.Holds chain) :
    Guarded env (s.perform pid p x next) := by
  unfold System.perform
  cases hrun : x (s.view p) with
  | ok a v' =>
      rw [hrun] at hquiet
      exact quiet_guarded h rfl hquiet (hwaiting a v' hrun) fun chain hheld =>
        ⟨p, hp, hless a chain hheld⟩
  | error e v' =>
      rw [hrun] at hquiet
      exact quiet_guarded h rfl hquiet (fun hpending => absurd hpending (by simp)) fun chain hheld =>
        ⟨p, hp, hheld⟩

/-- **The rest of `apply_bundle`.** -/
theorem applied_guarded (h : Guarded env s) {p : Process} (hp : s.status pid = .running p)
    {bundle : Decomposition} {callback : Option Callback} {claimChain lock : Bool}
    (hcall : p.pending = some (.apply bundle callback claimChain lock)) (clock : Nat → Int)
    (claimTime : U64)
    (hnew : claimChain = true → StartsNew env.lib p.store.memory.chainInfos.get? bundle) :
    Guarded env (s.applied env pid p bundle callback claimChain lock clock claimTime) := by
  have hposted := h.posted pid p hp
  have hwaiting := h.waiting pid p hp (by rw [hcall]; rfl)
  have htook := @finishApply_took env callback pid (s.view p) hposted (h.locked pid p hp) bundle
    claimChain lock clock claimTime
  unfold System.applied System.perform
  cases htook with
  | quiet hquiet hduplicate =>
      cases hrun : finishApply env pid bundle callback claimChain lock clock claimTime (s.view p) with
      | error e v' =>
          rw [hrun] at hquiet
          exact quiet_guarded h rfl hquiet (fun hpending => absurd hpending (by simp))
            fun chain hheld => ⟨p, hp, hheld⟩
      | ok added v' =>
          have hduplicate := fun hclaim => hduplicate hclaim added v' hrun
          rw [hrun] at hquiet
          refine quiet_guarded h rfl hquiet (fun hpending => absurd hpending (by simp)) ?_
          intro chain hheld
          cases claimChain with
          | false => exact ⟨p, hp, hheld⟩
          | true =>
              -- a chain that is new is not found to be there already
              obtain ⟨info, hinfo, hneeded⟩ := hduplicate rfl
              obtain ⟨htime, hnone⟩ := hnew rfl info hinfo
              change isNeeded info (p.store.memory.chainInfos.get? info.chain) = _ at hneeded
              rw [hnone] at hneeded
              exact absurd hneeded (isNeeded_none_ne_false htime)
  | claimed hclaim info hinfo hclaimed =>
      subst hclaim
      have hfree : ∀ other, s.Holds other info.chain → other = pid := by
        -- a chain of which the store has no bundle was never claimed
        intro other hheld
        have howner := h.owned other _ hheld
        rw [lastOwner_unclaimed] at howner
        · exact absurd howner (by simp)
        · intro claim hclaim heq
          apply hwaiting.stored hposted hclaim
          rw [heq]
          exact (hnew rfl info hinfo).2
      cases hrun : finishApply env pid bundle callback true lock clock claimTime (s.view p) with
      | error e v' =>
          rw [hrun] at hclaimed
          exact claim_guarded h rfl hclaimed rfl hwaiting.held rfl hfree fun chain hheld =>
            Or.inl ⟨p, hp, hheld⟩
      | ok added v' =>
          rw [hrun] at hclaimed
          refine claim_guarded h rfl hclaimed rfl hwaiting.held rfl hfree ?_
          intro chain hheld
          rcases hheld with hoffered | hlink
          · right
            simp only [if_true, hinfo] at hoffered
            exact (Option.some.inj hoffered).symm
          · exact Or.inl ⟨p, hp, Or.inr hlink⟩

/-- **The rest of `maybe_reuse_chain`.** -/
theorem reused_guarded (h : Guarded env s) {p : Process} (hp : s.status pid = .running p)
    {identity : String} {lock : Bool} (hcall : p.pending = some (.reuse identity lock))
    (claimTime : U64) :
    Guarded env (s.perform pid p (finishReuse env pid s.gone identity lock claimTime) fun found =>
      { p with pending := none, offered := found.map (·.chain) }) := by
  have hposted := h.posted pid p hp
  have hwaiting := h.waiting pid p hp (by rw [hcall]; rfl)
  have hreused := @finishReuse_reused env pid (s.view p) hposted (h.locked pid p hp) hwaiting s.gone
    identity lock claimTime
  unfold System.perform
  cases hreused with
  | quiet hquiet hresult =>
      cases hrun : finishReuse env pid s.gone identity lock claimTime (s.view p) with
      | error e v' =>
          rw [hrun] at hquiet
          exact quiet_guarded h rfl hquiet (fun hpending => absurd hpending (by simp))
            fun chain hheld => ⟨p, hp, hheld⟩
      | ok found v' =>
          rw [hresult found v' hrun]
          rw [hrun] at hquiet
          refine quiet_guarded h rfl hquiet (fun hpending => absurd hpending (by simp)) ?_
          intro chain hheld
          rcases hheld with hoffered | hlink
          · exact absurd hoffered (by simp)
          · exact ⟨p, hp, Or.inr hlink⟩
  | claimed old hlast hgone hclaimed hresult =>
      have hfree : ∀ other, s.Holds other old.chain → other = pid := by
        -- the last to claim the chain is gone, and nobody else can have it
        intro other hheld
        have howner := h.owned other _ hheld
        obtain ⟨q, hq, -⟩ := hheld
        have hold : old.processId = other := Option.some.inj (hlast.lastOwner.symm.trans howner)
        unfold System.gone at hgone
        rw [hold, hq] at hgone
        exact absurd hgone (by simp)
      cases hrun : finishReuse env pid s.gone identity lock claimTime (s.view p) with
      | error e v' =>
          rw [hrun] at hclaimed
          exact claim_guarded h rfl hclaimed rfl hwaiting.held rfl hfree fun chain hheld =>
            Or.inl ⟨p, hp, hheld⟩
      | ok found v' =>
          rw [hrun] at hclaimed
          refine claim_guarded h rfl hclaimed rfl hwaiting.held rfl hfree ?_
          intro chain hheld
          rcases hheld with hoffered | hlink
          · cases found with
            | none => exact absurd hoffered (by simp)
            | some info =>
                right
                rw [← Option.some.inj hoffered]
                exact hresult info v' hrun
          · exact Or.inl ⟨p, hp, Or.inr hlink⟩

/-- **A process starts**, and has no chain. -/
theorem opened_guarded (h : Guarded env s) (hmay : s.disk.mayLock pid = true) (exclusive : Bool)
    (clocks : Clocks) : Guarded env (s.opened env pid exclusive clocks) := by
  have hquiet := @openFile_quiet env clocks pid s.disk h.rooted hmay exclusive
  have hview : s.view {} = ⟨s.disk, {}⟩ := rfl
  unfold System.opened
  rw [hview]
  cases hrun : openFile env pid exclusive clocks ⟨s.disk, {}⟩ with
  | ok u v' =>
      rw [hrun] at hquiet
      refine quiet_guarded h rfl hquiet (fun hpending => absurd hpending (by simp)) ?_
      intro chain hheld
      rcases hheld with hoffered | hlink
      · exact absurd hoffered (by simp)
      · exact absurd hlink (by simp)
  | error e v' =>
      rw [hrun] at hquiet
      have hunlocked := hquiet.trans (@unlock_quiet env pid v' hquiet.posted)
      exact gone_guarded h hunlocked.grown hunlocked.posted.rooted

/-- **What each such event preserves.** -/
theorem step_guarded (env : Env) (s : System) (e : Event) (h : Guarded env s)
    (hafresh : StartsAfresh env s e) : Guarded env (s.step env e) := by
  have hstep := System.step_stepped env s e
  generalize s.step env e = s' at hstep ⊢
  cases hstep with
  | nothing => exact h
  | start exclusive clocks hunused hmay => exact opened_guarded h hmay exclusive clocks
  | @beginApply pid p bundle callback claimChain clocks hidle hmay hlink =>
      have hp := (idle_eq_some.mp hidle).1
      obtain ⟨hquiet, hwaiting⟩ := @beginApply_quiet env callback clocks pid (s.view p)
        (h.posted pid p hp) (h.locked pid p hp) (mayLock_cases hmay)
      exact perform_guarded h hp hquiet (fun lock v' hrun _ => hwaiting lock v' hrun)
        fun _ chain hheld => hheld
  | @finishApply pid p bundle callback claimChain lock clock claimTime hrunning hcall =>
      refine applied_guarded h hrunning hcall clock claimTime ?_
      intro hclaim
      rw [hclaim] at hcall
      exact hafresh p bundle callback lock hrunning hcall
  | @refresh pid p callback clocks hidle hmay =>
      obtain ⟨hp, hpending⟩ := idle_eq_some.mp hidle
      have hquiet := @refresh_quiet env callback clocks pid (s.view p) (h.posted pid p hp)
        (h.locked pid p hp) (mayLock_cases hmay)
      exact perform_guarded h hp hquiet (fun _ _ _ hp' => absurd hp' (by simp [hpending]))
        fun _ chain hheld => hheld
  | @read pid p clocks hidle hmay =>
      obtain ⟨hp, hpending⟩ := idle_eq_some.mp hidle
      have hquiet := @maybeRefresh_quiet env clocks pid (s.view p) (h.posted pid p hp)
        (h.locked pid p hp)
      exact perform_guarded h hp hquiet (fun _ _ _ hp' => absurd hp' (by simp [hpending]))
        fun _ chain hheld => hheld
  | @beginReuse pid p identity callback clocks hidle hmay hlink =>
      have hp := (idle_eq_some.mp hidle).1
      obtain ⟨hquiet, hwaiting⟩ := @beginReuse_quiet env callback clocks pid (s.view p)
        (h.posted pid p hp) (h.locked pid p hp) (mayLock_cases hmay)
      exact perform_guarded h hp hquiet (fun lock v' hrun _ => hwaiting lock v' hrun)
        fun _ chain hheld => hheld
  | @finishReuse pid p identity lock claimTime hrunning hcall =>
      exact reused_guarded h hrunning hcall claimTime
  | @adopt pid p chain hidle hoffered =>
      obtain ⟨hp, hpending⟩ := idle_eq_some.mp hidle
      have hquiet := Quiet.refl (h.posted pid p hp) (h.locked pid p hp)
      refine quiet_guarded h rfl hquiet (fun hp' => absurd hp' (by simp [hpending])) ?_
      intro other hheld
      rcases hheld with hnone | hlink
      · exact absurd hnone (by simp)
      · exact ⟨p, hp, Or.inl (hoffered.trans hlink)⟩
  | @saveSigningKey pid p key hidle =>
      obtain ⟨hp, hpending⟩ := idle_eq_some.mp hidle
      have hquiet := saveSigningKey_quiet (h.posted pid p hp) (h.locked pid p hp) key
      exact perform_guarded h hp hquiet (fun _ _ _ hp' => absurd hp' (by simp [hpending]))
        fun _ chain hheld => hheld
  | @saveSymmetricKey pid p key hidle =>
      obtain ⟨hp, hpending⟩ := idle_eq_some.mp hidle
      have hquiet := saveSymmetricKey_quiet (h.posted pid p hp) (h.locked pid p hp) key
      exact perform_guarded h hp hquiet (fun _ _ _ hp' => absurd hp' (by simp [hpending]))
        fun _ chain hheld => hheld
  | @exit pid p hrunning =>
      have hunlocked := @unlock_quiet env pid (s.view p) (h.posted pid p hrunning)
      exact gone_guarded h hunlocked.grown hunlocked.posted.rooted

end Log

end Gink
