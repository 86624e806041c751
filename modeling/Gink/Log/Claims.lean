/-
  Gink.Log.Claims — what a process knows of the claims in a log file.

  A process whose cursor stands where `_processed_to` says has taken in every claim before
  the cursor; a process that skipped messages shows it by its cursor, and its next call
  raises.  Only the calls that wait for the lock write claims, so while a process has the
  lock in the middle of a call it knows every claim in the file.

  Main results:
    * `posted_of_grown` — what others append takes nothing away;
    * `refreshHelper_posted` — reading keeps this so, also when it raises;
    * `caughtUp_waiting` — a call that has caught up knows every claim.
-/
import Gink.Log.Calls
import Gink.Memory.Accepted
import Gink.Stores.Claims

namespace Gink

namespace Log

variable {env : Env} {callback : Option Callback} {clocks : Clocks} {pid : U64}

/-! ## §1. Claims that were noted. -/

/-- `_claims` once claims are noted one after the other. -/
def noted (table : Table U64 ClaimBuilder) (claims : List ClaimBuilder) : Table U64 ClaimBuilder :=
  claims.foldl (fun t claim => t.put claim.medallion claim) table

theorem noted_append (table : Table U64 ClaimBuilder) (l m : List ClaimBuilder) :
    noted table (l ++ m) = noted (noted table l) m :=
  List.foldl_append ..

/-- **`_get_claims`** has the last claim for each medallion. -/
theorem lastFor_of_noted {claims : List ClaimBuilder} {r : U64 × ClaimBuilder}
    (h : r ∈ (noted ∅ claims).rows) : r.1 = r.2.medallion ∧ LastFor claims r.2 := by
  induction claims using List.reverseRecOn with
  | nil => exact absurd h List.not_mem_nil
  | append_singleton claims new ih =>
      rw [noted_append] at h
      change r ∈ ((noted ∅ claims).put new.medallion new).rows at h
      rw [lastFor_append]
      rcases Table.mem_rows_put.mp h with rfl | ⟨hne, hr⟩
      · exact ⟨rfl, Or.inl rfl⟩
      · obtain ⟨hkey, hlast⟩ := ih hr
        rw [hkey] at hne
        exact ⟨hkey, Or.inr ⟨hne, hlast⟩⟩

/-! ## §2. What a process knows. -/

/-- A bundle of the chain, at a positive time, is among some bundles. -/
def Begun (lib : Externals) (bundles : List Decomposition) (chain : Chain) : Prop :=
  ∃ bundle ∈ bundles, ∃ info, bundle.getInfo lib = .ok info ∧ 0 < info.timestamp ∧
    info.chain = chain

/-- Every claim is on a chain that was begun before it, or in the same message. -/
def Rooted (lib : Externals) (contents : List LogFileBuilder) : Prop :=
  ∀ n, ∀ claim ∈ (joined (contents.take n)).claims,
    Begun lib (joined (contents.take n)).bundles claim.chain

/-- The info of a chain is about the chain. -/
def AboutChains (chains : Table Chain BundleInfo) : Prop :=
  ∀ chain info, chains.get? chain = some info → info.chain = chain

/-- The messages before the cursor. -/
def View.read (v : View) : List LogFileBuilder := v.disk.contents.take v.store.position

/-- The cursor is where the process believes it to be. -/
def View.Level (env : Env) (v : View) : Prop := v.tell env = v.store.processedTo

/-- Where a process stands: it may have skipped messages, but then its cursor shows it. -/
structure Posted (env : Env) (v : View) : Prop where
  rooted : Rooted env.lib v.disk.contents
  position : v.store.position ≤ v.disk.records.length
  processedTo : v.store.processedTo ≤ v.tell env
  claims : v.Level env → v.store.memory.claims = noted ∅ (joined v.read).claims
  stored : v.Level env → ∀ chain, Begun env.lib (joined v.read).bundles chain →
    v.store.memory.chainInfos.get? chain ≠ none
  chains : AboutChains v.store.memory.chainInfos

/-- A process that believes to have the lock has it, or has lost its place. -/
def Locked (env : Env) (pid : U64) (v : View) : Prop :=
  v.store.flocked = true → v.disk.exclusive = some pid ∨ ¬v.Level env

/-- What a step of one process does to the file: messages with these claims are appended,
and nobody else loses the lock. -/
structure Grown (pid : U64) (disk disk' : Disk) (claims : List ClaimBuilder) : Prop where
  records : ∃ more, disk'.records = disk.records ++ more ∧
    (joined (more.map (·.content))).claims = claims
  holder : ∀ other, other ≠ pid → disk.exclusive = some other → disk'.exclusive = some other

theorem Grown.refl (pid : U64) (disk : Disk) : Grown pid disk disk [] where
  records := ⟨[], by simp, rfl⟩
  holder _ _ h := h

theorem Grown.trans {disk disk' disk'' : Disk} {claims claims' : List ClaimBuilder}
    (h : Grown pid disk disk' claims) (h' : Grown pid disk' disk'' claims') :
    Grown pid disk disk'' (claims ++ claims') := by
  obtain ⟨more, hmore, hclaims⟩ := h.records
  obtain ⟨more', hmore', hclaims'⟩ := h'.records
  refine ⟨⟨more ++ more', ?_, ?_⟩, ?_⟩
  · rw [hmore', hmore, List.append_assoc]
  · rw [List.map_append, joined_append, LogFileBuilder.claims_join, hclaims, hclaims']
  · exact fun other hother hheld => h'.holder other hother (h.holder other hother hheld)

theorem Grown.of_records {disk disk' : Disk} (hrecords : disk'.records = disk.records)
    (hholder : ∀ other, other ≠ pid → disk.exclusive = some other →
      disk'.exclusive = some other) : Grown pid disk disk' [] where
  records := ⟨[], by rw [hrecords, List.append_nil], rfl⟩
  holder := hholder

theorem Grown.claimed {disk disk' : Disk} {claims : List ClaimBuilder}
    (h : Grown pid disk disk' claims) :
    (joined disk'.contents).claims = (joined disk.contents).claims ++ claims := by
  obtain ⟨more, hmore, hclaims⟩ := h.records
  unfold Disk.contents
  rw [hmore, List.map_append, joined_append, LogFileBuilder.claims_join, hclaims]

/-- Code that claims nothing, also when it raises. -/
structure Quiet (env : Env) (pid : U64) (v v' : View) : Prop where
  posted : Posted env v'
  locked : Locked env pid v'
  grown : Grown pid v.disk v'.disk []

theorem Quiet.refl {v : View} (hv : Posted env v) (hlocked : Locked env pid v) :
    Quiet env pid v v :=
  ⟨hv, hlocked, Grown.refl pid v.disk⟩

theorem Quiet.trans {v v' v'' : View} (h : Quiet env pid v v') (h' : Quiet env pid v' v'') :
    Quiet env pid v v'' :=
  ⟨h'.posted, h'.locked, h.grown.trans h'.grown⟩

/-- Where the file grows, a process knows what it knew. -/
theorem posted_of_grown {v : View} {disk : Disk} {claims : List ClaimBuilder} (hv : Posted env v)
    (hg : Grown pid v.disk disk claims) (hrooted : Rooted env.lib disk.contents) :
    Posted env ⟨disk, v.store⟩ ∧ ((⟨disk, v.store⟩ : View).Level env ↔ v.Level env) := by
  obtain ⟨more, hmore, -⟩ := hg.records
  have hread : (⟨disk, v.store⟩ : View).read = v.read := by
    unfold View.read Disk.contents
    rw [hmore, List.map_append, List.take_append_of_le_length (by simpa using hv.position)]
  have htell : (⟨disk, v.store⟩ : View).tell env = v.tell env := congrArg env.format.total hread
  have hlevel : (⟨disk, v.store⟩ : View).Level env ↔ v.Level env := by
    unfold View.Level
    rw [htell]
  refine ⟨⟨hrooted, ?_, ?_, ?_, ?_, hv.chains⟩, hlevel⟩
  · show v.store.position ≤ disk.records.length
    rw [hmore, List.length_append]
    exact Nat.le_add_right_of_le hv.position
  · rw [htell]
    exact hv.processedTo
  · rw [hlevel, hread]
    exact hv.claims
  · rw [hlevel, hread]
    exact hv.stored

/-! ## §3. Reading. -/

/-- Code that stays inside the object: it notes no claim, and the chains that are stored stay
stored. -/
structure Kin (v v' : View) : Prop extends Inner v v' where
  claims : v'.store.memory.claims = v.store.memory.claims
  kept : ∀ chain, v.store.memory.chainInfos.get? chain ≠ none →
    v'.store.memory.chainInfos.get? chain ≠ none
  about : AboutChains v.store.memory.chainInfos → AboutChains v'.store.memory.chainInfos

theorem Kin.of_same {v v' : View} (h : Inner v v')
    (hclaims : v'.store.memory.claims = v.store.memory.claims)
    (hchains : v'.store.memory.chainInfos = v.store.memory.chainInfos) : Kin v v' where
  toInner := h
  claims := hclaims
  kept := by
    rw [hchains]
    exact fun _ h => h
  about := by
    rw [hchains]
    exact id

theorem Kin.refl (v : View) : Kin v v := .of_same (Inner.refl v) rfl rfl

theorem Kin.trans {v v' v'' : View} (h : Kin v v') (h' : Kin v' v'') : Kin v v'' where
  toInner := h.toInner.trans h'.toInner
  claims := h'.claims.trans h.claims
  kept chain hchain := h'.kept chain (h.kept chain hchain)
  about hv := h'.about (h.about hv)

theorem Inner.read_eq {v v' : View} (h : Inner v v') : v'.read = v.read := by
  unfold View.read
  rw [h.disk, h.position]

theorem Inner.level_iff {v v' : View} (h : Inner v v') : v'.Level env ↔ v.Level env := by
  unfold View.Level View.tell
  rw [h.disk, h.position, h.processedTo]

/-- Such code leaves a process where it stands. -/
theorem Kin.posted {v v' : View} (h : Kin v v') (hv : Posted env v) : Posted env v' := by
  refine ⟨?_, ?_, ?_, ?_, ?_, h.about hv.chains⟩
  · rw [h.disk]
    exact hv.rooted
  · rw [h.position, h.disk]
    exact hv.position
  · rw [h.processedTo]
    unfold View.tell
    rw [h.disk, h.position]
    exact hv.processedTo
  · intro hlevel
    rw [h.claims, h.read_eq]
    exact hv.claims (h.level_iff.mp hlevel)
  · intro hlevel
    rw [h.read_eq]
    exact fun chain hbegun => h.kept chain (hv.stored (h.level_iff.mp hlevel) chain hbegun)

theorem Inner.locked {v v' : View} (h : Inner v v') (hv : Locked env pid v) : Locked env pid v' := by
  unfold Locked
  rw [h.flocked, h.disk, h.level_iff]
  exact hv

theorem Kin.quiet {v v' : View} (h : Kin v v') (hv : Posted env v) (hlocked : Locked env pid v) :
    Quiet env pid v v' := by
  refine ⟨h.posted hv, h.toInner.locked hlocked, ?_⟩
  rw [h.disk]
  exact Grown.refl pid v.disk

/-- What applying a bundle does to the chain infos. -/
theorem memoryApply_kin (bundle : Decomposition) (clock : Nat → Int) (v : View) :
    Kin v (Action.endState (memoryApply env bundle callback clock v)) := by
  have hend : Action.endState (memoryApply env bundle callback clock v)
      = v.remember (Memory.applyBundle env.lib v.store.memory bundle callback clock) := by
    unfold memoryApply memoryCall
    cases (Memory.applyBundle env.lib v.store.memory bundle callback clock).result <;> rfl
  have haside := @Memory.applyBundle_aside env.lib v.store.memory bundle callback clock
  have hstep := (Memory.applyBundle_step env.lib v.store.memory bundle callback clock).1
  rw [hend]
  refine ⟨⟨rfl, rfl, rfl, rfl, rfl⟩, haside.claims, ?_, ?_⟩
  · intro chain hchain
    cases hstep with
    | kept _ hchains =>
        show (Memory.applyBundle _ _ _ _ _).store.chainInfos.get? chain ≠ none
        rw [hchains]
        exact hchain
    | stored _ _ info _ _ _ _ _ hchains =>
        show (Memory.applyBundle _ _ _ _ _).store.chainInfos.get? chain ≠ none
        rw [hchains, Table.get?_put]
        split_ifs
        · simp
        · exact hchain
  · intro habout chain found hfound
    change (Memory.applyBundle _ _ _ _ _).store.chainInfos.get? chain = some found at hfound
    cases hstep with
    | kept _ hchains =>
        rw [hchains] at hfound
        exact habout chain found hfound
    | stored _ _ info _ _ _ _ _ hchains =>
        rw [hchains, Table.get?_put] at hfound
        split_ifs at hfound with heq
        · rw [← Option.some.inj hfound, heq]
        · exact habout chain found hfound

/-- Once a bundle at a positive time was applied, its chain is stored. -/
theorem memoryApply_stored {bundle : Decomposition} {clock : Nat → Int} {v v' : View} {added : Bool}
    (h : memoryApply env bundle callback clock v = .ok added v') {info : BundleInfo}
    (hinfo : bundle.getInfo env.lib = .ok info) (htime : 0 < info.timestamp) :
    v'.store.memory.chainInfos.get? info.chain ≠ none := by
  unfold memoryApply memoryCall at h
  split at h
  · exact absurd h (by simp)
  · rename_i a hresult
    injection h with _ h
    change (Memory.applyBundle env.lib v.store.memory bundle callback clock).result
      = .ok a at hresult
    obtain ⟨info', hinfo', hanswered⟩ := Memory.applyBundle_answered hresult
    obtain rfl : info = info' := Except.ok.inj (hinfo.symm.trans hinfo')
    subst h
    show (Memory.applyBundle env.lib v.store.memory bundle callback clock).store.chainInfos.get? _
      ≠ none
    cases hanswered with
    | duplicate hduplicate houtcome =>
        rw [houtcome]
        show v.store.memory.chainInfos.get? info.chain ≠ none
        intro hnone
        rw [hnone] at hduplicate
        exact isNeeded_none_ne_false htime hduplicate
    | stored _ _ _ _ hchains =>
        rw [hchains, Table.get?_put, if_pos rfl]
        simp

/-- What is kept of the chain infos while messages are taken in. -/
def ChainsKept (v v' : View) : Prop :=
  (∀ chain, v.store.memory.chainInfos.get? chain ≠ none →
    v'.store.memory.chainInfos.get? chain ≠ none) ∧
  (AboutChains v.store.memory.chainInfos → AboutChains v'.store.memory.chainInfos)

theorem ChainsKept.refl (v : View) : ChainsKept v v := ⟨fun _ h => h, id⟩

theorem ChainsKept.trans {v v' v'' : View} (h : ChainsKept v v') (h' : ChainsKept v' v'') :
    ChainsKept v v'' :=
  ⟨fun chain hchain => h'.1 chain (h.1 chain hchain), fun hv => h'.2 (h.2 hv)⟩

theorem Kin.chainsKept {v v' : View} (h : Kin v v') : ChainsKept v v' := ⟨h.kept, h.about⟩

theorem applyBundles_kin (bundles : List Decomposition) (v : View) :
    ∀ n, Action.Keeps (Kin v) (applyBundles env callback clocks n bundles) := by
  induction bundles with
  | nil => exact fun n => Action.Keeps.pure ()
  | cons bundle rest ih =>
      intro n
      unfold applyBundles
      apply Action.Keeps.bind
      · exact Action.Keeps.modify fun v' h => h.trans (.of_same (noteApplied_inner _ v') rfl rfl)
      intro _
      apply Action.Keeps.bind
      · exact fun v' h => h.trans (memoryApply_kin bundle (clocks n) v')
      intro _
      exact ih (n + 1)

theorem applyBundles_stored {bundles : List Decomposition} :
    ∀ {n : Nat} {v v' : View}, applyBundles env callback clocks n bundles v = .ok () v' →
      ∀ chain, Begun env.lib bundles chain → v'.store.memory.chainInfos.get? chain ≠ none := by
  induction bundles with
  | nil =>
      intro n v v' _ chain hbegun
      obtain ⟨bundle, hbundle, -⟩ := hbegun
      exact absurd hbundle List.not_mem_nil
  | cons bundle rest ih =>
      intro n v v' h chain hbegun
      unfold applyBundles at h
      rw [Action.modify_bind] at h
      obtain ⟨added, v₁, h1, h2⟩ := Action.bind_eq_ok.mp h
      obtain ⟨other, hother, info, hinfo, htime, hchain⟩ := hbegun
      rcases List.mem_cons.mp hother with rfl | hother
      · have hstored := memoryApply_stored h1 hinfo htime
        have hkin : Kin v₁ v' := (applyBundles_kin rest v₁ (n + 1)).ok h2 (Kin.refl v₁)
        rw [← hchain]
        exact hkin.kept _ hstored
      · exact ih h2 chain ⟨other, hother, info, hinfo, htime, hchain⟩

theorem noteClaims_noted {claims : List ClaimBuilder} :
    ∀ {v v' : View}, noteClaims claims v = .ok () v' →
      v'.store.memory.claims = noted v.store.memory.claims claims ∧
        v'.store.memory.chainInfos = v.store.memory.chainInfos := by
  induction claims with
  | nil =>
      intro v v' h
      obtain rfl : v = v' := by
        injection h
      exact ⟨rfl, rfl⟩
  | cons claim rest ih =>
      intro v v' h
      unfold noteClaims at h
      rw [Action.modify_bind, Action.modify_bind] at h
      exact ih h

theorem noteClaims_chainsKept (claims : List ClaimBuilder) (v : View) :
    Action.Keeps (ChainsKept v) (noteClaims claims) := by
  induction claims with
  | nil => exact Action.Keeps.pure ()
  | cons claim rest ih =>
      unfold noteClaims
      apply Action.Keeps.bind
      · exact Action.Keeps.modify fun v' h => h
      intro _
      apply Action.Keeps.bind
      · exact Action.Keeps.modify fun v' h => h
      intro _
      exact ih

theorem noteKeyPairs_kin (keyPairs : List KeyPairBuilder) (v : View) :
    Action.Keeps (Kin v) (noteKeyPairs keyPairs) := by
  induction keyPairs with
  | nil => exact Action.Keeps.pure ()
  | cons keyPair rest ih =>
      unfold noteKeyPairs
      apply Action.Keeps.bind
      · exact Action.Keeps.modify fun v' h => h.trans (.of_same (noteApplied_inner _ v') rfl rfl)
      intro _
      apply Action.Keeps.of_bind
      intro publicKey _
      apply Action.Keeps.of_bind
      intro secretKey _
      apply Action.Keeps.bind
      · exact Action.Keeps.modify fun v' h =>
          h.trans (.of_same (noteSigningKey_inner publicKey secretKey v') rfl rfl)
      intro _
      exact ih

/-- **Taking in** what was read keeps the chain infos about their chains, also when it
raises. -/
theorem takeIn_chainsKept (read : LogFileBuilder) (v : View) :
    Action.Keeps (ChainsKept v) (takeIn env callback clocks read) := by
  unfold takeIn
  apply Action.Keeps.bind
  · exact Action.Keeps.modify fun v' h => h
  intro _
  apply Action.Keeps.bind
  · exact fun v' h => h.trans (applyBundles_kin read.bundles v' 0 v' (Kin.refl v')).chainsKept
  intro _
  apply Action.Keeps.bind (noteClaims_chainsKept read.claims v)
  intro _
  exact fun v' h => h.trans (noteKeyPairs_kin read.keyPairs v' v' (Kin.refl v')).chainsKept

/-- What was taken in **is known**. -/
theorem takeIn_known {read : LogFileBuilder} {v v' : View}
    (h : takeIn env callback clocks read v = .ok () v') :
    v'.store.memory.claims = noted v.store.memory.claims read.claims ∧
      ∀ chain, Begun env.lib read.bundles chain →
        v'.store.memory.chainInfos.get? chain ≠ none := by
  unfold takeIn at h
  rw [Action.modify_bind] at h
  obtain ⟨u₁, v₁, h1, h⟩ := Action.bind_eq_ok.mp h
  obtain ⟨u₂, v₂, h2, h3⟩ := Action.bind_eq_ok.mp h
  have hbundles := (applyBundles_kin read.bundles _ 0).ok h1 (Kin.refl _)
  obtain ⟨hclaims, hchains⟩ := noteClaims_noted h2
  have hkeys := (noteKeyPairs_kin read.keyPairs v₂).ok h3 (Kin.refl v₂)
  refine ⟨?_, ?_⟩
  · rw [hkeys.claims, hclaims, hbundles.claims]
    rfl
  · intro chain hbegun
    apply hkeys.kept
    rw [hchains]
    exact applyBundles_stored h1 chain hbegun

/-- Messages without bytes say nothing. -/
theorem joined_of_total_zero {l : List LogFileBuilder} (h : env.format.total l = 0) :
    joined l = {} := by
  induction l with
  | nil => rfl
  | cons record rest ih =>
      have hsum : env.format.size record + env.format.total rest = 0 := h
      have hempty : record = {} := by
        by_contra hne
        have := env.format.size_pos record hne
        omega
      show record.join (joined rest) = {}
      rw [ih (by omega), hempty]
      rfl

theorem tell_seekEnd (v : View) :
    v.seekEnd.tell env = v.tell env + env.format.total v.unread := by
  rw [tell_add_unread]
  show env.format.total (v.disk.contents.take v.disk.records.length) = _
  rw [List.take_of_length_le (by simp [Disk.contents])]

/-- The messages are those before the cursor and those after it. -/
theorem joined_contents (v : View) :
    joined v.disk.contents = (joined v.read).join (joined v.unread) := by
  rw [← joined_append]
  unfold View.read View.unread
  rw [List.take_append_drop]

theorem read_seekEnd (v : View) : joined v.seekEnd.read = (joined v.read).join (joined v.unread) := by
  rw [← joined_contents]
  exact congrArg joined (take_contents v.disk)

/-- Where there is nothing to read, the cursor may go to the end. -/
theorem seekEnd_posted {v : View} (hv : Posted env v) (hzero : env.format.total v.unread = 0) :
    Posted env v.seekEnd ∧ (v.seekEnd.Level env ↔ v.Level env) := by
  have htell : v.seekEnd.tell env = v.tell env := by rw [tell_seekEnd, hzero, Nat.add_zero]
  have hread : joined v.seekEnd.read = joined v.read := by
    rw [read_seekEnd, joined_of_total_zero hzero, LogFileBuilder.join_empty]
  have hlevel : v.seekEnd.Level env ↔ v.Level env := by
    unfold View.Level
    rw [htell]
    rfl
  refine ⟨⟨hv.rooted, le_refl _, ?_, ?_, ?_, hv.chains⟩, hlevel⟩
  · rw [htell]
    exact hv.processedTo
  · rw [hread, hlevel]
    exact hv.claims
  · rw [hread, hlevel]
    exact hv.stored

/-- A refresh with nothing to read. -/
theorem refreshHelper_of_nothing {v : View} (hlevel : v.Level env)
    (hzero : env.format.total v.unread = 0) :
    refreshHelper env callback clocks v = .ok 0 v.seekEnd := by
  unfold View.Level at hlevel
  unfold refreshHelper
  rw [Action.get_bind, decide_eq_true hlevel, ensure_true, Action.of_ok_bind, Action.modify_bind,
    if_pos hzero]
  rfl

/-- What a refresh that returns has found and leaves. -/
structure CaughtUp (env : Env) (v v' : View) : Prop where
  before : v.Level env
  after : v'.Level env
  atEnd : v'.store.position = v'.disk.records.length
  flocked : v'.store.flocked = v.store.flocked

/-- **A refresh** leaves a process that knows what it has read, or one that has lost its
place: then it has raised. -/
theorem refreshHelper_posted {v : View} (hv : Posted env v) :
    Posted env (Action.endState (refreshHelper env callback clocks v)) ∧
      (∀ n v', refreshHelper env callback clocks v = .ok n v' → CaughtUp env v v') ∧
      ∀ e v', refreshHelper env callback clocks v = .error e v' → ¬v'.Level env := by
  have hinner := @takeIn_inner env callback clocks
    (joined v.unread) v.seekEnd v.seekEnd (Inner.refl _)
  have hkept := @takeIn_chainsKept env callback clocks
    (joined v.unread) v.seekEnd v.seekEnd (ChainsKept.refl _)
  rcases refreshHelper_cases env callback clocks v with
    ⟨hlost, e, hrun⟩ | ⟨hlevel, ⟨hzero, hrun⟩ | ⟨v₁, htaken, hrun⟩ | ⟨e, v₁, htaken, hrun⟩⟩
  · rw [hrun]
    refine ⟨hv, by simp, ?_⟩
    intro e' v' h
    injection h with _ h
    rw [← h]
    exact hlost
  · rw [hrun]
    obtain ⟨hposted, hlevel'⟩ := seekEnd_posted hv hzero
    refine ⟨hposted, ?_, by simp⟩
    intro n v' h
    injection h with _ h
    rw [← h]
    exact ⟨hlevel, hlevel'.mpr hlevel, rfl, rfl⟩
  · rw [htaken] at hinner hkept
    change Inner v.seekEnd v₁ at hinner
    change ChainsKept v.seekEnd v₁ at hkept
    obtain ⟨hclaims, hstored⟩ := takeIn_known htaken
    have htell : v₁.tell env = v.tell env + env.format.total v.unread := by
      rw [← tell_seekEnd]
      unfold View.tell
      rw [hinner.disk, hinner.position]
    have hlevel' : (v₁.advance (env.format.total v.unread)).Level env := by
      show v₁.tell env = v₁.store.processedTo + env.format.total v.unread
      rw [htell, hinner.processedTo, hlevel]
      rfl
    have hread : joined v₁.read = (joined v.read).join (joined v.unread) := by
      rw [hinner.read_eq, read_seekEnd]
    rw [hrun]
    refine ⟨⟨?_, ?_, le_of_eq hlevel'.symm, ?_, ?_, hkept.2 hv.chains⟩, ?_, by simp⟩
    · show Rooted env.lib v₁.disk.contents
      rw [hinner.disk]
      exact hv.rooted
    · show v₁.store.position ≤ v₁.disk.records.length
      rw [hinner.position, hinner.disk]
      exact le_refl _
    · intro _
      show v₁.store.memory.claims = noted ∅ (joined v₁.read).claims
      rw [hclaims, hread, LogFileBuilder.claims_join, noted_append, ← hv.claims hlevel]
      rfl
    · intro _ chain hbegun
      change Begun env.lib (joined v₁.read).bundles chain at hbegun
      rw [hread, LogFileBuilder.bundles_join] at hbegun
      obtain ⟨bundle, hbundle, info, hinfo⟩ := hbegun
      rcases List.mem_append.mp hbundle with hbefore | hnew
      · exact hkept.1 chain (hv.stored hlevel chain ⟨bundle, hbefore, info, hinfo⟩)
      · exact hstored chain ⟨bundle, hnew, info, hinfo⟩
    · intro n v' h
      injection h with _ h
      rw [← h]
      refine ⟨hlevel, hlevel', ?_, hinner.flocked⟩
      show v₁.store.position = v₁.disk.records.length
      rw [hinner.position, hinner.disk]
      rfl
  · -- what was read is not counted, so the next call will find the cursor out of place
    rw [htaken] at hinner hkept
    change Inner v.seekEnd v₁ at hinner
    change ChainsKept v.seekEnd v₁ at hkept
    have hpos : 0 < env.format.total v.unread := by
      rcases Nat.eq_zero_or_pos (env.format.total v.unread) with hzero | hpos
      · rw [refreshHelper_of_nothing hlevel hzero] at hrun
        exact absurd hrun (by simp)
      · exact hpos
    have htell : v₁.tell env = v₁.store.processedTo + env.format.total v.unread := by
      rw [hinner.processedTo]
      show _ = v.store.processedTo + _
      rw [← hlevel, ← tell_seekEnd]
      unfold View.tell
      rw [hinner.disk, hinner.position]
    have hlost : ¬v₁.Level env := by
      unfold View.Level
      omega
    have hle : v₁.store.processedTo ≤ v₁.tell env := by omega
    rw [hrun]
    refine ⟨⟨?_, ?_, hle, ?_, ?_, hkept.2 hv.chains⟩, by simp, ?_⟩
    · show Rooted env.lib v₁.disk.contents
      rw [hinner.disk]
      exact hv.rooted
    · show v₁.store.position ≤ v₁.disk.records.length
      rw [hinner.position, hinner.disk]
      exact le_refl _
    · exact fun hlevel' => absurd hlevel' hlost
    · exact fun hlevel' => absurd hlevel' hlost
    · intro e' v' h
      injection h with _ h
      rw [← h]
      exact hlost

theorem refreshHelper_quiet {v : View} (hv : Posted env v) (hlocked : Locked env pid v) :
    Quiet env pid v (Action.endState (refreshHelper env callback clocks v)) := by
  obtain ⟨hposted, hok, herror⟩ := @refreshHelper_posted env callback clocks v hv
  have hdisk := refreshHelper_disk env callback clocks v
  refine ⟨hposted, ?_, ?_⟩
  · cases hrun : refreshHelper env callback clocks v with
    | ok n v' =>
        have hrefreshed := hok n v' hrun
        rw [hrun] at hdisk
        change v'.disk = v.disk at hdisk
        intro hflocked
        change v'.store.flocked = true at hflocked
        rw [hrefreshed.flocked] at hflocked
        rcases hlocked hflocked with hheld | hlost
        · left
          show v'.disk.exclusive = some pid
          rw [hdisk]
          exact hheld
        · exact absurd hrefreshed.before hlost
    | error e v' => exact fun _ => Or.inr (herror e v' hrun)
  · rw [hdisk]
    exact Grown.refl pid v.disk

/-! ## §4. The lock. -/

/-- In the middle of a call a process has the lock, and knows every claim in the file. -/
structure Waiting (env : Env) (pid : U64) (v : View) : Prop where
  held : v.disk.exclusive = some pid
  level : v.Level env
  unread : (joined v.unread).claims = []

theorem mayLock_holder {disk : Disk} (h : disk.mayLock pid = true) {other : U64}
    (hother : other ≠ pid) : disk.exclusive ≠ some other := by
  intro hheld
  unfold Disk.mayLock at h
  rw [hheld, Bool.and_eq_true] at h
  exact hother (of_decide_eq_true h.1)

theorem lockExclusive_quiet {v : View} (hv : Posted env v) (hmay : v.disk.mayLock pid = true) :
    Quiet env pid v (v.lockExclusive pid) where
  posted := ⟨hv.rooted, hv.position, hv.processedTo, hv.claims, hv.stored, hv.chains⟩
  locked _ := Or.inl rfl
  grown := .of_records rfl fun _ hother hheld => absurd hheld (mayLock_holder hmay hother)

theorem unlock_quiet {v : View} (hv : Posted env v) : Quiet env pid v (v.unlock pid) where
  posted := ⟨hv.rooted, hv.position, hv.processedTo, hv.claims, hv.stored, hv.chains⟩
  locked hflocked := absurd hflocked (by simp [View.unlock])
  grown := by
    refine .of_records rfl ?_
    intro other hother hheld
    show (if v.disk.exclusive = some pid then none else v.disk.exclusive) = some other
    rw [hheld, if_neg]
    exact fun heq => hother (Option.some.inj heq)

/-- **The lock** is taken by a process that may take it, or believes to have it. -/
theorem acquireLock_quiet {v : View} (hv : Posted env v) (hlocked : Locked env pid v)
    (hmay : v.store.flocked = true ∨ v.disk.mayLock pid = true) :
    ∃ lock v', acquireLock pid v = .ok lock v' ∧ Quiet env pid v v' ∧ v'.store.flocked = true := by
  unfold acquireLock
  rw [Action.get_bind]
  cases hflocked : v.store.flocked with
  | true => exact ⟨false, v, rfl, Quiet.refl hv hlocked, hflocked⟩
  | false =>
      rcases hmay with hmay | hmay
      · rw [hflocked] at hmay
        exact absurd hmay (by simp)
      · exact ⟨true, v.lockExclusive pid, rfl, lockExclusive_quiet hv hmay, rfl⟩

theorem releaseLock_quiet (lock : Bool) (v : View) :
    Action.Keeps (Quiet env pid v) (releaseLock pid lock) := by
  unfold releaseLock
  split_ifs
  · exact Action.Keeps.modify fun v' h => h.trans (unlock_quiet h.posted)
  · exact Action.Keeps.pure ()

/-- A call that takes the lock and **catches up** knows every claim in the file, until it is
over. -/
theorem caughtUp_waiting {v v' : View} {n : Nat} (hv : Posted env v) (hlocked : Locked env pid v)
    (hflocked : v.store.flocked = true) (hrun : refreshHelper env callback clocks v = .ok n v') :
    Waiting env pid v' := by
  obtain ⟨-, hok, -⟩ := @refreshHelper_posted env callback clocks v hv
  have hrefreshed := hok n v' hrun
  have hdisk := refreshHelper_disk env callback clocks v
  rw [hrun] at hdisk
  change v'.disk = v.disk at hdisk
  refine ⟨?_, hrefreshed.after, ?_⟩
  · rw [hdisk]
    exact (hlocked hflocked).resolve_right fun hlost => hlost hrefreshed.before
  · have hnil : v'.unread = [] := by
      unfold View.unread
      rw [hrefreshed.atEnd]
      exact List.drop_of_length_le (by simp [Disk.contents])
    rw [hnil]
    rfl

/-- The chains that are claimed are stored. -/
theorem Waiting.stored {v : View} (h : Waiting env pid v) (hv : Posted env v)
    {claim : ClaimBuilder} (hclaim : claim ∈ (joined v.disk.contents).claims) :
    v.store.memory.chainInfos.get? claim.chain ≠ none := by
  rw [joined_contents, LogFileBuilder.claims_join, h.unread, List.append_nil] at hclaim
  exact hv.stored h.level _ (hv.rooted v.store.position claim hclaim)

/-- The store has the last claim for each medallion. -/
theorem Waiting.last {v : View} (h : Waiting env pid v) (hv : Posted env v) {old : ClaimBuilder}
    (hold : old ∈ v.store.memory.claims.rows.map (·.2)) :
    LastFor (joined v.disk.contents).claims old ∧
      Begun env.lib (joined v.disk.contents).bundles old.chain := by
  obtain ⟨r, hr, rfl⟩ := List.mem_map.mp hold
  rw [hv.claims h.level] at hr
  have hlast := (lastFor_of_noted hr).2
  obtain ⟨bundle, hbundle, info⟩ := hv.rooted v.store.position r.2 hlast.mem
  rw [joined_contents, LogFileBuilder.claims_join, LogFileBuilder.bundles_join, h.unread,
    List.append_nil]
  exact ⟨hlast, bundle, List.mem_append_left _ hbundle, info⟩

end Log

end Gink
