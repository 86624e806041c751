/-
  Gink.Log.Calls — the law that one process keeps on a shared log file, call by call.

  A process has `Caught` up to its cursor when it has applied the messages before it, each
  once, and counts exactly their bytes as processed.  Reading what others wrote keeps the
  law, and so does writing at the end of the file.

  Main results:
    * `refreshHelper_placed`, `caught_up` — a refresh returns, with everything applied;
    * `finishApply_standing`, `finishReuse_standing`, `saveSigningKey_standing` — writing;
    * `openFile_cases` — opening the file.
-/
import Gink.Log.Code

namespace Gink

namespace Log

variable {env : Env} {callback : Option Callback} {clocks : Clocks} {pid : U64}

/-! ## §1. What can be taken in. -/

/-- None of the bundles makes `MemoryStore.apply_bundle` raise, nor the callback, when they
are applied in turn. -/
def Applies (env : Env) (callback : Option Callback) (clocks : Clocks) :
    Nat → List Decomposition → Memory.Store → Prop
  | _, [], _ => True
  | n, bundle :: rest, memory =>
      (∃ added, (Memory.applyBundle env.lib memory bundle callback (clocks n)).result = .ok added) ∧
      Applies env callback clocks (n + 1) rest
        (Memory.applyBundle env.lib memory bundle callback (clocks n)).store

/-- Key pairs of the lengths that `VerifyKey` and `SigningKey` ask for. -/
def KeysFit (keyPairs : List KeyPairBuilder) : Prop :=
  ∀ keyPair ∈ keyPairs, keyPair.publicKey.length = 32 ∧ keyPair.secretKey.length = 32

/-- A message as the processes write them. -/
structure Sound (record : LogFileBuilder) : Prop where
  nonempty : record ≠ {}
  keyPairs : KeysFit record.keyPairs

theorem memoryCall_ok {α : Type} {method : Memory.Store → Memory.Outcome α} {v : View} {a : α}
    (h : (method v.store.memory).result = .ok a) :
    memoryCall method v = .ok a (v.remember (method v.store.memory)) := by
  unfold memoryCall
  rw [h]

theorem applyBundles_ok {bundles : List Decomposition} :
    ∀ {n : Nat} {v : View}, Applies env callback clocks n bundles v.store.memory →
      ∃ v', applyBundles env callback clocks n bundles v = .ok () v' := by
  induction bundles with
  | nil => exact fun _ => ⟨_, rfl⟩
  | cons bundle rest ih =>
      intro n v h
      obtain ⟨⟨added, hadded⟩, hrest⟩ := h
      unfold applyBundles
      rw [Action.modify_bind]
      have hcall : memoryApply env bundle callback (clocks n) (v.noteApplied { bundles := [bundle] })
          = .ok added _ := memoryCall_ok hadded
      rw [Action.bind_eq, hcall]
      exact ih hrest

theorem noteClaims_ok {claims : List ClaimBuilder} :
    ∀ {v : View}, ∃ v', noteClaims claims v = .ok () v' := by
  induction claims with
  | nil => exact fun {v} => ⟨v, rfl⟩
  | cons claim rest ih =>
      intro v
      unfold noteClaims
      rw [Action.modify_bind, Action.modify_bind]
      exact ih

theorem noteKeyPairs_ok {keyPairs : List KeyPairBuilder} (h : KeysFit keyPairs) :
    ∀ {v : View}, ∃ v', noteKeyPairs keyPairs v = .ok () v' := by
  induction keyPairs with
  | nil => exact fun {v} => ⟨v, rfl⟩
  | cons keyPair rest ih =>
      intro v
      obtain ⟨hpublic, hsecret⟩ := h keyPair List.mem_cons_self
      unfold noteKeyPairs
      rw [Action.modify_bind]
      unfold verifyKey signingKey
      rw [if_pos hpublic, if_pos hsecret, Action.of_ok_bind, Action.of_ok_bind, Action.modify_bind]
      exact ih fun k hk => h k (List.mem_cons_of_mem _ hk)

/-- What applies and fits is **taken in** without an exception. -/
theorem takeIn_ok {read : LogFileBuilder} {v : View}
    (h : Applies env callback clocks 0 read.bundles v.store.memory) (hkeys : KeysFit read.keyPairs) :
    ∃ v', takeIn env callback clocks read v = .ok () v' := by
  unfold takeIn
  rw [Action.modify_bind]
  obtain ⟨v₁, h1⟩ := applyBundles_ok (v := v.noteApplied { magicNumber := read.magicNumber }) h
  obtain ⟨v₂, h2⟩ := @noteClaims_ok read.claims v₁
  rw [Action.bind_of_ok h1, Action.bind_of_ok h2]
  exact noteKeyPairs_ok hkeys

/-! ## §2. The law for one process. -/

/-- The process has applied the messages before its cursor, each once and nothing else, and
has counted their bytes. -/
structure Caught (env : Env) (v : View) : Prop where
  position : v.store.position ≤ v.disk.records.length
  processedTo : v.store.processedTo = v.tell env
  applied : v.store.applied = joined (v.disk.contents.take v.store.position)

/-- Besides, it has applied what it wrote. -/
structure Placed (env : Env) (pid : U64) (v : View) : Prop where
  sound : ∀ record ∈ v.disk.contents, Sound record
  caught : Caught env v
  own : ∀ n r, v.disk.records[n]? = some r → r.writer = pid → n < v.store.position

/-- The lock has no part in it. -/
theorem Placed.of_same {v v' : View} (h : Placed env pid v)
    (hrecords : v'.disk.records = v.disk.records) (hposition : v'.store.position = v.store.position)
    (hprocessedTo : v'.store.processedTo = v.store.processedTo)
    (happlied : v'.store.applied = v.store.applied) : Placed env pid v' := by
  have hcontents : v'.disk.contents = v.disk.contents := by
    unfold Disk.contents
    rw [hrecords]
  refine ⟨?_, ⟨?_, ?_, ?_⟩, ?_⟩
  · rw [hcontents]
    exact h.sound
  · rw [hposition, hrecords]
    exact h.caught.position
  · rw [hprocessedTo, h.caught.processedTo]
    unfold View.tell
    rw [hcontents, hposition]
  · rw [happlied, hcontents, hposition]
    exact h.caught.applied
  · rw [hrecords, hposition]
    exact h.own

/-- And it knows whether it has the lock. -/
structure Standing (env : Env) (pid : U64) (v : View) : Prop extends Placed env pid v where
  shared : v.disk.shared = []
  held : v.store.flocked = true ↔ v.disk.exclusive = some pid

/-- What code of a process may do to the file: messages of its own are appended, and the
hold of others on the lock is not touched. -/
structure Moved (pid : U64) (v v' : View) : Prop where
  records : ∃ more, v'.disk.records = v.disk.records ++ more ∧ ∀ r ∈ more, r.writer = pid
  holder : ∀ other, other ≠ pid → (v'.disk.exclusive = some other ↔ v.disk.exclusive = some other)
  exclusive : v'.store.exclusive = v.store.exclusive

theorem Moved.refl (pid : U64) (v : View) : Moved pid v v where
  records := ⟨[], by simp, by simp⟩
  holder _ _ := Iff.rfl
  exclusive := rfl

theorem Moved.trans {v v' v'' : View} (h : Moved pid v v') (h' : Moved pid v' v'') :
    Moved pid v v'' := by
  obtain ⟨more, hmore, hwriter⟩ := h.records
  obtain ⟨more', hmore', hwriter'⟩ := h'.records
  refine ⟨⟨more ++ more', ?_, ?_⟩, ?_, h'.exclusive.trans h.exclusive⟩
  · rw [hmore', hmore, List.append_assoc]
  · intro r hr
    rcases List.mem_append.mp hr with hr | hr
    · exact hwriter r hr
    · exact hwriter' r hr
  · exact fun other hother => (h'.holder other hother).trans (h.holder other hother)

/-- Code that leaves the file and its own place in it alone. -/
theorem Inner.standing {v v' : View} (h : Inner v v')
    (happlied : v'.store.applied = v.store.applied) (hv : Standing env pid v) :
    Standing env pid v' where
  toPlaced := hv.toPlaced.of_same (by rw [h.disk]) h.position h.processedTo happlied
  shared := by
    rw [h.disk]
    exact hv.shared
  held := by
    rw [h.flocked, h.disk]
    exact hv.held

theorem Inner.moved {v v' : View} (h : Inner v v') : Moved pid v v' where
  records := ⟨[], by simp [h.disk], by simp⟩
  holder _ _ := by rw [h.disk]
  exclusive := h.exclusive

/-! ## §3. Reading. -/

/-- A refresh that goes through: everything in the file is applied. -/
structure Refreshed (env : Env) (pid : U64) (v v' : View) : Prop where
  placed : Placed env pid v'
  disk : v'.disk = v.disk
  position : v'.store.position = v.disk.records.length
  flocked : v'.store.flocked = v.store.flocked
  exclusive : v'.store.exclusive = v.store.exclusive

theorem Refreshed.moved {v v' : View} (h : Refreshed env pid v v') : Moved pid v v' where
  records := ⟨[], by simp [h.disk], by simp⟩
  holder _ _ := by rw [h.disk]
  exclusive := h.exclusive

theorem Refreshed.standing {v v' : View} (h : Refreshed env pid v v') (hv : Standing env pid v) :
    Standing env pid v' where
  toPlaced := h.placed
  shared := by
    rw [h.disk]
    exact hv.shared
  held := by
    rw [h.flocked, h.disk]
    exact hv.held

theorem take_contents (disk : Disk) : disk.contents.take disk.records.length = disk.contents :=
  List.take_of_length_le (by simp [Disk.contents])

theorem unread_sound {v : View} (hv : Placed env pid v) : ∀ record ∈ v.unread, Sound record :=
  fun record hrecord => hv.sound record (List.mem_of_mem_drop hrecord)

theorem joined_fit {l : List LogFileBuilder} (h : ∀ record ∈ l, Sound record) :
    KeysFit (joined l).keyPairs := by
  rw [joined_keyPairs]
  intro keyPair hkeyPair
  obtain ⟨record, hrecord, hkey⟩ := List.mem_flatMap.mp hkeyPair
  exact (h record hrecord).keyPairs keyPair hkey

/-- A process with nothing left to read stands at the end. -/
theorem position_of_unread {v : View} (hv : Placed env pid v)
    (hzero : env.format.total v.unread = 0) : v.store.position = v.disk.records.length := by
  have hnil : v.unread = [] :=
    (env.format.total_eq_zero fun r hr => (unread_sound hv r hr).nonempty).mp hzero
  have hle := List.drop_eq_nil_iff.mp hnil
  have := hv.caught.position
  simp only [Disk.contents, List.length_map] at hle
  omega

theorem seekEnd_of_atEnd {v : View} (h : v.store.position = v.disk.records.length) :
    v.seekEnd = v := by
  unfold View.seekEnd
  rw [← h]

/-- **A refresh** that returns has applied everything in the file. -/
theorem refreshHelper_refreshed {v v' : View} {n : Nat} (hv : Placed env pid v)
    (h : refreshHelper env callback clocks v = .ok n v') : Refreshed env pid v v' := by
  rcases refreshHelper_cases env callback clocks v with
    ⟨-, e, hrun⟩ | ⟨-, ⟨hzero, hrun⟩ | ⟨v₁, htaken, hrun⟩ | ⟨e, v₁, -, hrun⟩⟩
  · rw [hrun] at h
    exact absurd h (by simp)
  · -- nothing was read: the cursor stood at the end already
    obtain rfl : v.seekEnd = v' := by
      rw [hrun] at h
      injection h
    refine ⟨?_, rfl, rfl, rfl, rfl⟩
    rw [seekEnd_of_atEnd (position_of_unread hv hzero)]
    exact hv
  · obtain rfl : v₁.advance (env.format.total v.unread) = v' := by
      rw [hrun] at h
      injection h
    have hinner : Inner v.seekEnd v₁ := by
      have h := @takeIn_inner env callback clocks (joined v.unread) v.seekEnd v.seekEnd
        (Inner.refl _)
      rw [htaken] at h
      exact h
    have hdisk : v₁.disk = v.disk := hinner.disk
    have hposition : v₁.store.position = v.disk.records.length := hinner.position
    refine ⟨⟨?_, ⟨?_, ?_, ?_⟩, ?_⟩, hdisk, hposition, hinner.flocked, hinner.exclusive⟩
    · show ∀ record ∈ v₁.disk.contents, Sound record
      rw [hdisk]
      exact hv.sound
    · show v₁.store.position ≤ v₁.disk.records.length
      rw [hposition, hdisk]
    · show v₁.store.processedTo + env.format.total v.unread
        = env.format.total (v₁.disk.contents.take v₁.store.position)
      rw [hposition, hdisk, take_contents, ← tell_add_unread, ← hv.caught.processedTo,
        hinner.processedTo]
      rfl
    · show v₁.store.applied = joined (v₁.disk.contents.take v₁.store.position)
      rw [takeIn_applied htaken, hposition, hdisk, take_contents]
      show v.store.applied.join _ = _
      rw [hv.caught.applied, ← joined_append]
      unfold View.unread
      rw [List.take_append_drop]
    · intro n r hr _
      show n < v₁.store.position
      rw [hposition, ← hdisk]
      exact (List.getElem?_eq_some_iff.mp hr).1
  · rw [hrun] at h
    exact absurd h (by simp)

/-- Under the law it finds its cursor where it expects it, so it **returns** when what it
reads can be applied. -/
theorem refreshHelper_placed {v : View} (hv : Placed env pid v)
    (happlies : Applies env callback clocks 0 (joined v.unread).bundles v.store.memory) :
    ∃ n v', refreshHelper env callback clocks v = .ok n v' ∧ Refreshed env pid v v' := by
  obtain ⟨v₀, h0⟩ := takeIn_ok (v := v.seekEnd) happlies (joined_fit (unread_sound hv))
  rcases refreshHelper_cases env callback clocks v with
    ⟨htell, -⟩ | ⟨-, ⟨-, hrun⟩ | ⟨v₁, -, hrun⟩ | ⟨e, v₁, htaken, -⟩⟩
  · exact absurd hv.caught.processedTo.symm htell
  · exact ⟨_, _, hrun, refreshHelper_refreshed hv hrun⟩
  · exact ⟨_, _, hrun, refreshHelper_refreshed hv hrun⟩
  · rw [h0] at htaken
    exact absurd htaken (by simp)

/-! ## §4. Writing and the lock. -/

/-- Code of a process that has read everything keeps it so, and keeps its lock. -/
structure Acting (env : Env) (pid : U64) (v v' : View) : Prop where
  standing : Standing env pid v'
  moved : Moved pid v v'
  atEnd : v'.store.position = v'.disk.records.length
  flocked : v'.store.flocked = v.store.flocked

theorem Acting.refl {v : View} (hv : Standing env pid v)
    (hend : v.store.position = v.disk.records.length) : Acting env pid v v :=
  ⟨hv, Moved.refl pid v, hend, rfl⟩

theorem Acting.trans {v v' v'' : View} (h : Acting env pid v v') (h' : Acting env pid v' v'') :
    Acting env pid v v'' :=
  ⟨h'.standing, h.moved.trans h'.moved, h'.atEnd, h'.flocked.trans h.flocked⟩

theorem Acting.inner {v v' v'' : View} (h : Acting env pid v v') (h' : Inner v' v'')
    (happlied : v''.store.applied = v'.store.applied) : Acting env pid v v'' := by
  refine ⟨h'.standing happlied h.standing, h.moved.trans h'.moved, ?_, h'.flocked.trans h.flocked⟩
  rw [h'.position, h'.disk]
  exact h.atEnd

/-- **Writing** at the end of the file. -/
theorem append_acting {v : View} (hv : Standing env pid v)
    (hend : v.store.position = v.disk.records.length) {record : LogFileBuilder}
    (hsound : Sound record) :
    Acting env pid v ((v.append pid record).advance (env.format.size record)) := by
  have hcontents : ((v.append pid record).advance (env.format.size record)).disk.contents
      = v.disk.contents ++ [record] := by
    simp [View.append, View.advance, Disk.contents]
  have htake : (v.disk.contents ++ [record]).take (v.disk.records.length + 1)
      = v.disk.contents ++ [record] :=
    List.take_of_length_le (by simp [Disk.contents])
  have htaken : v.disk.contents.take v.store.position = v.disk.contents := by
    rw [hend, take_contents]
  refine ⟨⟨⟨?_, ⟨?_, ?_, ?_⟩, ?_⟩, hv.shared, hv.held⟩, ⟨⟨[⟨pid, record⟩], rfl, by simp⟩,
    fun _ _ => Iff.rfl, rfl⟩, ?_, rfl⟩
  · rw [hcontents]
    intro r hr
    rcases List.mem_append.mp hr with hr | hr
    · exact hv.sound r hr
    · rw [List.mem_singleton.mp hr]
      exact hsound
  · simp [View.append, View.advance]
  · unfold View.tell
    rw [hcontents]
    show v.store.processedTo + env.format.size record
      = env.format.total ((v.disk.contents ++ [record]).take (v.disk.records.length + 1))
    rw [htake, LogFormat.total_append, hv.caught.processedTo]
    unfold View.tell
    rw [htaken]
    simp [LogFormat.total]
  · rw [hcontents]
    show v.store.applied.join record
      = joined ((v.disk.contents ++ [record]).take (v.disk.records.length + 1))
    rw [htake, hv.caught.applied, htaken, joined_append]
    simp [joined]
  · intro n r hr _
    show n < v.disk.records.length + 1
    have hlt := (List.getElem?_eq_some_iff.mp hr).1
    have hlength : ((v.append pid record).advance (env.format.size record)).disk.records.length
        = v.disk.records.length + 1 := by
      simp [View.append, View.advance]
    omega
  · simp [View.append, View.advance]

theorem write_acting {v v' : View} (h : Acting env pid v v') {record : LogFileBuilder}
    (hsound : Sound record) :
    ∃ v'', write env pid record v' = .ok () v'' ∧ Acting env pid v v'' :=
  ⟨_, rfl, h.trans (append_acting h.standing h.atEnd hsound)⟩

theorem lockExclusive_standing {v : View} (hv : Standing env pid v) :
    Standing env pid (v.lockExclusive pid) :=
  ⟨hv.toPlaced.of_same rfl rfl rfl rfl, hv.shared, ⟨fun _ => rfl, fun _ => rfl⟩⟩

theorem mayLock_iff {disk : Disk} (hshared : disk.shared = []) :
    disk.mayLock pid = true ↔ disk.exclusive = none ∨ disk.exclusive = some pid := by
  unfold Disk.mayLock
  rw [hshared]
  cases disk.exclusive <;> simp

theorem lockExclusive_moved {v : View} (hshared : v.disk.shared = [])
    (hmay : v.disk.mayLock pid = true) : Moved pid v (v.lockExclusive pid) where
  records := ⟨[], by simp [View.lockExclusive], by simp⟩
  holder other hother := by
    show some pid = some other ↔ v.disk.exclusive = some other
    rcases (mayLock_iff hshared).mp hmay with h | h
    · simp [h, hother.symm]
    · rw [h]
  exclusive := rfl

theorem unlock_standing {v : View} (hv : Standing env pid v) : Standing env pid (v.unlock pid) := by
  refine ⟨hv.toPlaced.of_same rfl rfl rfl rfl, ?_, ?_⟩
  · show v.disk.shared.filter _ = []
    rw [hv.shared]
    rfl
  · show false = true ↔ (if v.disk.exclusive = some pid then none else v.disk.exclusive) = some pid
    split_ifs with h
    · simp
    · simp [h]

theorem unlock_moved (v : View) : Moved pid v (v.unlock pid) where
  records := ⟨[], by simp [View.unlock], by simp⟩
  holder other hother := by
    show (if v.disk.exclusive = some pid then none else v.disk.exclusive) = some other ↔ _
    split_ifs with h
    · simp [h, hother.symm]
    · exact Iff.rfl
  exclusive := rfl

/-- **The lock** is taken, when it is free, by a process that does not have it. -/
theorem acquireLock_standing {v : View} (hv : Standing env pid v)
    (hmay : v.store.flocked = true ∨ v.disk.mayLock pid = true) :
    ∃ v', acquireLock pid v = .ok (!v.store.flocked) v' ∧ Standing env pid v' ∧ Moved pid v v' ∧
      v'.store.flocked = true ∧ v'.disk.records = v.disk.records ∧
      v'.store.position = v.store.position ∧ v'.store.memory = v.store.memory := by
  unfold acquireLock
  rw [Action.get_bind]
  cases hflocked : v.store.flocked with
  | true => exact ⟨v, rfl, hv, Moved.refl pid v, hflocked, rfl, rfl, rfl⟩
  | false =>
      rcases hmay with hmay | hmay
      · rw [hflocked] at hmay
        exact absurd hmay (by simp)
      · exact ⟨v.lockExclusive pid, rfl, lockExclusive_standing hv,
          lockExclusive_moved hv.shared hmay, rfl, rfl, rfl, rfl⟩

/-- **The lock** is released by the call that took it. -/
theorem releaseLock_standing {v : View} (hv : Standing env pid v) {lock : Bool} :
    ∃ v', releaseLock pid lock v = .ok () v' ∧ Standing env pid v' ∧ Moved pid v v' ∧
      v'.store.flocked = (v.store.flocked && !lock) ∧ v'.disk.records = v.disk.records ∧
      v'.store.position = v.store.position := by
  cases lock with
  | true =>
      exact ⟨v.unlock pid, rfl, unlock_standing hv, unlock_moved v, (Bool.and_false _).symm, rfl, rfl⟩
  | false => exact ⟨v, rfl, hv, Moved.refl pid v, (Bool.and_true _).symm, rfl, rfl⟩

/-! ## §5. The calls. -/

/-- What a call leaves that returns, or that is interrupted with the lock in hand. -/
structure Called (env : Env) (pid : U64) (v v' : View) : Prop where
  standing : Standing env pid v'
  moved : Moved pid v v'

/-- A call takes the lock and **catches up**. -/
theorem caught_up {v : View} (hv : Standing env pid v)
    (hmay : v.store.flocked = true ∨ v.disk.mayLock pid = true)
    (happlies : Applies env callback clocks 0 (joined v.unread).bundles v.store.memory) :
    ∃ v₁ n v', acquireLock pid v = .ok (!v.store.flocked) v₁ ∧
      refreshHelper env callback clocks v₁ = .ok n v' ∧ Called env pid v v' ∧
      v'.store.flocked = true ∧ v'.store.position = v'.disk.records.length ∧
      v'.disk.records = v.disk.records := by
  obtain ⟨v₁, h1, hv₁, hm₁, hf₁, hrecords, hposition, hmemory⟩ := acquireLock_standing hv hmay
  have hunread : v₁.unread = v.unread := by
    unfold View.unread Disk.contents
    rw [hrecords, hposition]
  rw [← hunread, ← hmemory] at happlies
  obtain ⟨n, v', h2, hv'⟩ := refreshHelper_placed hv₁.toPlaced happlies
  refine ⟨v₁, n, v', h1, h2, ⟨hv'.standing hv₁, hm₁.trans hv'.moved⟩, ?_, ?_, ?_⟩
  · rw [hv'.flocked, hf₁]
  · rw [hv'.position, hv'.disk]
  · rw [hv'.disk, hrecords]

theorem beginApply_standing {v : View} (hv : Standing env pid v)
    (hmay : v.store.flocked = true ∨ v.disk.mayLock pid = true)
    (happlies : Applies env callback clocks 0 (joined v.unread).bundles v.store.memory) :
    ∃ v', beginApply env pid callback clocks v = .ok (!v.store.flocked) v' ∧ Called env pid v v' ∧
      v'.store.flocked = true ∧ v'.store.position = v'.disk.records.length ∧
      v'.disk.records = v.disk.records := by
  obtain ⟨v₁, n, v', h1, h2, hrest⟩ := caught_up hv hmay happlies
  refine ⟨v', ?_, hrest⟩
  unfold beginApply
  rw [Action.bind_of_ok h1, Action.bind_of_ok h2]
  rfl

theorem beginReuse_standing {v : View} (hv : Standing env pid v)
    (hmay : v.store.flocked = true ∨ v.disk.mayLock pid = true)
    (happlies : Applies env callback clocks 0 (joined v.unread).bundles v.store.memory) :
    ∃ v', beginReuse env pid callback clocks v = .ok (!v.store.flocked) v' ∧ Called env pid v v' ∧
      v'.store.flocked = true ∧ v'.store.position = v'.disk.records.length ∧
      v'.disk.records = v.disk.records := by
  obtain ⟨v₁, n, v', h1, h2, hrest⟩ := caught_up hv hmay happlies
  refine ⟨v', ?_, hrest⟩
  unfold beginReuse
  rw [Action.bind_of_ok h1]
  apply Action.recover_ok
  rw [Action.bind_of_ok h2]
  rfl

/-- **`refresh`** leaves the lock as it was. -/
theorem refresh_standing {v : View} (hv : Standing env pid v)
    (hmay : v.store.flocked = true ∨ v.disk.mayLock pid = true)
    (happlies : Applies env callback clocks 0 (joined v.unread).bundles v.store.memory) :
    ∃ n v', refresh env pid callback clocks v = .ok n v' ∧ Called env pid v v' ∧
      v'.store.flocked = v.store.flocked ∧ v'.store.position = v'.disk.records.length ∧
      v'.disk.records = v.disk.records := by
  obtain ⟨v₁, n, v₂, h1, h2, hcalled, hf₂, hend, hrecords⟩ := caught_up hv hmay happlies
  obtain ⟨v', h3, hv', hm', hf', hrecords', hposition⟩ :=
    @releaseLock_standing env pid v₂ hcalled.standing (!v.store.flocked)
  refine ⟨n, v', ?_, ⟨hv', hcalled.moved.trans hm'⟩, ?_, ?_, ?_⟩
  · unfold refresh
    rw [Action.bind_of_ok h1, Action.bind_of_ok h2, Action.bind_of_ok h3]
    rfl
  · rw [hf', hf₂]
    simp
  · rw [hposition, hend, hrecords']
  · rw [hrecords', hrecords]

/-- **A plain read** that is not in the middle of a call leaves no lock behind. -/
theorem maybeRefresh_standing {v : View} (hv : Standing env pid v)
    (happlies : v.store.flocked = false →
      Applies env none clocks 0 (joined v.unread).bundles v.store.memory) :
    ∃ v', maybeRefresh env pid clocks v = .ok () v' ∧ Called env pid v v' ∧
      v'.store.flocked = v.store.flocked ∧ v'.disk.records = v.disk.records := by
  unfold maybeRefresh
  rw [Action.get_bind]
  cases hflocked : v.store.flocked with
  | true => exact ⟨v, rfl, ⟨hv, Moved.refl pid v⟩, hflocked, rfl⟩
  | false =>
      have happlies := happlies hflocked
      simp only [Bool.false_eq_true, if_false]
      rw [decide_eq_true hv.caught.processedTo.symm, ensure_true, Action.of_ok_bind]
      split_ifs with hend
      · -- there is nothing to read
        have hzero : env.format.total v.unread = 0 := by
          have h := @tell_add_unread env v
          rw [hend, hv.caught.processedTo] at h
          omega
        rw [Action.modify_apply, seekEnd_of_atEnd (position_of_unread hv.toPlaced hzero)]
        exact ⟨v, rfl, ⟨hv, Moved.refl pid v⟩, hflocked, rfl⟩
      · -- the messages are read under the shared lock
        have hshared : Placed env pid (v.lockShared pid) := hv.toPlaced.of_same rfl rfl rfl rfl
        obtain ⟨n, v₁, h1, hv₁⟩ := refreshHelper_placed hshared happlies
        rw [Action.modify_bind, Action.bind_of_ok h1]
        have hexclusive : v₁.disk.exclusive = v.disk.exclusive := by rw [hv₁.disk]; rfl
        have hfree : v.disk.exclusive ≠ some pid := by
          intro hheld
          rw [hv.held.mpr hheld] at hflocked
          exact absurd hflocked (by simp)
        have hkept : (v₁.unlock pid).disk.exclusive = v.disk.exclusive := by
          show (if v₁.disk.exclusive = some pid then none else v₁.disk.exclusive) = _
          rw [hexclusive, if_neg hfree]
        refine ⟨v₁.unlock pid, rfl, ⟨⟨hv₁.placed.of_same rfl rfl rfl rfl, ?_, ?_⟩,
          ⟨⟨[], ?_, by simp⟩, ?_, ?_⟩⟩, rfl, ?_⟩
        · show v₁.disk.shared.filter _ = []
          rw [hv₁.disk]
          show (pid :: v.disk.shared).filter _ = []
          rw [hv.shared]
          simp
        · rw [hkept]
          exact ⟨fun h => absurd h Bool.false_ne_true, fun h => absurd h hfree⟩
        · show v₁.disk.records = _
          rw [hv₁.disk, List.append_nil]
          rfl
        · intro other _
          rw [hkept]
        · exact hv₁.exclusive
        · show v₁.disk.records = _
          rw [hv₁.disk]
          rfl

theorem noteClaim_acting (claim : ClaimBuilder) (v : View) :
    Action.Keeps (Acting env pid v) (modify (View.noteClaim claim) : Action View PUnit) :=
  Action.Keeps.modify fun v' h => h.inner (noteClaim_inner claim v') rfl

theorem write_keeps {record : LogFileBuilder} (hsound : Sound record) (v : View) :
    Action.Keeps (Acting env pid v) (write env pid record) := by
  intro v' h
  obtain ⟨v'', hrun, hv''⟩ := write_acting h hsound
  rw [hrun]
  exact hv''

theorem sound_of_bundle (bundle : Decomposition) (claims : List ClaimBuilder) :
    Sound { bundles := [bundle], claims } :=
  ⟨by simp, by simp [KeysFit]⟩

theorem sound_of_claim (claim : ClaimBuilder) : Sound { claims := [claim] } :=
  ⟨by simp, by simp [KeysFit]⟩

/-- A bundle that `MemoryStore.apply_bundle` took has an info. -/
theorem getInfo_of_applied {memory : Memory.Store} {bundle : Decomposition} {clock : Nat → Int}
    {added : Bool}
    (h : (Memory.applyBundle env.lib memory bundle callback clock).result = .ok added) :
    ∃ info, bundle.getInfo env.lib = .ok info := by
  unfold Decomposition.getInfo
  cases hb : bundle.getBuilder env.lib with
  | error e =>
      unfold Memory.applyBundle at h
      rw [hb] at h
      exact absurd h (by simp)
  | ok builder => exact ⟨_, rfl⟩

theorem writeBundle_acting {v v' : View} (h : Acting env pid v v') {bundle : Decomposition}
    {info : BundleInfo} (hinfo : bundle.getInfo env.lib = .ok info) (claimChain : Bool)
    (claimTime : U64) :
    ∃ v'', writeBundle env pid bundle claimChain claimTime v' = .ok () v'' ∧
      Acting env pid v v'' := by
  unfold writeBundle
  cases claimChain with
  | false => exact write_acting h (sound_of_bundle bundle [])
  | true =>
      simp only [if_true]
      rw [hinfo, Action.of_ok_bind, Action.modify_bind]
      exact write_acting (h.inner (noteClaim_inner _ _) rfl) (sound_of_bundle bundle _)

/-- Applying the bundle does not raise, nor does the callback that is told of it. -/
def Lands (env : Env) (memory : Memory.Store) (bundle : Decomposition) (callback : Option Callback)
    (clock : Nat → Int) : Prop :=
  ∃ added, (Memory.applyBundle env.lib memory bundle none clock).result = .ok added ∧
    (added = true → ∀ f, callback = some f → f bundle = .ok ())

/-- What the call that took the lock leaves of it. -/
structure Finished (env : Env) (pid : U64) (lock : Bool) (v v' : View) : Prop
    extends Called env pid v v' where
  flocked : v'.store.flocked = (v.store.flocked && !lock)
  atEnd : v'.store.position = v'.disk.records.length

theorem Acting.finish {v v' : View} (h : Acting env pid v v') (lock : Bool) :
    ∃ v'', releaseLock pid lock v' = .ok () v'' ∧ Finished env pid lock v v'' := by
  obtain ⟨v'', hrun, hv'', hm'', hf'', hrecords, hposition⟩ :=
    @releaseLock_standing env pid v' h.standing lock
  refine ⟨v'', hrun, ⟨hv'', h.moved.trans hm''⟩, ?_, ?_⟩
  · rw [hf'', h.flocked]
  · rw [hposition, hrecords]
    exact h.atEnd

/-- **The rest of `apply_bundle`** writes what the store took. -/
theorem finishApply_standing {v : View} (hv : Standing env pid v)
    (hend : v.store.position = v.disk.records.length) {bundle : Decomposition}
    {clock : Nat → Int} (hlands : Lands env v.store.memory bundle callback clock)
    (claimChain lock : Bool) (claimTime : U64) :
    ∃ added v', finishApply env pid bundle callback claimChain lock clock claimTime v
        = .ok added v' ∧ Finished env pid lock v v' := by
  obtain ⟨added, hresult, hcallback⟩ := hlands
  obtain ⟨info, hinfo⟩ := getInfo_of_applied hresult
  have hcall : memoryApply env bundle none clock v = .ok added _ := memoryCall_ok hresult
  have hacting : Acting env pid v
      (v.remember (Memory.applyBundle env.lib v.store.memory bundle none clock)) :=
    (Acting.refl hv hend).inner ⟨rfl, rfl, rfl, rfl, rfl⟩ rfl
  unfold finishApply
  rw [Action.bind_of_ok hcall]
  cases added with
  | false =>
      obtain ⟨v', hrelease, hv'⟩ := hacting.finish lock
      simp only [Bool.false_eq_true, if_false]
      rw [Action.bind_of_ok hrelease]
      exact ⟨false, v', rfl, hv'⟩
  | true =>
      obtain ⟨v₁, hwrite, hv₁⟩ := writeBundle_acting hacting hinfo claimChain claimTime
      obtain ⟨v', hrelease, hv'⟩ := hv₁.finish lock
      have hcalled : callBack callback bundle v₁ = .ok () v₁ := by
        cases callback with
        | none => rfl
        | some f =>
            show Action.of (f bundle) v₁ = .ok () v₁
            rw [hcallback rfl f rfl]
            rfl
      simp only [if_true]
      rw [Action.bind_of_ok hwrite, Action.bind_of_ok hcalled, Action.bind_of_ok hrelease]
      exact ⟨true, v', rfl, hv'⟩

theorem addClaim_acting (claimTime : U64) (chain : Chain) (v : View) :
    Action.Keeps (Acting env pid v) (addClaim env pid claimTime chain) := by
  unfold addClaim
  apply Action.Keeps.get_bind
  intro v' h
  refine Action.Keeps.of_bind (P := Acting env pid v) ?_ v' h
  intro _ _
  apply Action.Keeps.bind (noteClaim_acting _ v)
  intro _
  exact write_keeps (sound_of_claim _) v

theorem reuseFrom_acting (gone : U64 → Bool) (identity : String) (claimTime : U64)
    (claims : List ClaimBuilder) (v : View) :
    Action.Keeps (Acting env pid v) (reuseFrom env pid gone identity claimTime claims) := by
  induction claims with
  | nil => exact Action.Keeps.pure none
  | cons old rest ih =>
      unfold reuseFrom
      apply Action.Keeps.get_bind
      intro v' h
      refine Action.Keeps.of_bind (P := Acting env pid v) ?_ v' h
      intro chainIdentity _
      split_ifs
      · apply Action.Keeps.bind (addClaim_acting _ _ v)
        intro _
        apply Action.Keeps.get_bind
        intro v'' h''
        refine Action.Keeps.of_bind (P := Acting env pid v) ?_ v'' h''
        exact fun _ _ => Action.Keeps.pure _
      · exact ih

/-- **The rest of `maybe_reuse_chain`** releases the lock also when it raises. -/
theorem finishReuse_standing {v : View} (hv : Standing env pid v)
    (hend : v.store.position = v.disk.records.length) (gone : U64 → Bool) (identity : String)
    (lock : Bool) (claimTime : U64) :
    Finished env pid lock v
      (Action.endState (finishReuse env pid gone identity lock claimTime v)) := by
  have hloop := @reuseFrom_acting env pid gone identity claimTime
    (v.store.memory.claims.rows.map (·.2)) v v (Acting.refl hv hend)
  unfold finishReuse
  cases hrun : reuseFrom env pid gone identity claimTime (v.store.memory.claims.rows.map (·.2)) v with
  | ok found v₁ =>
      rw [hrun] at hloop
      change Acting env pid v v₁ at hloop
      obtain ⟨v', hrelease, hv'⟩ := hloop.finish lock
      rw [@Action.recover_ok _ _ _ _ v v' found]
      · exact hv'
      · rw [Action.get_bind, Action.bind_of_ok hrun, Action.bind_of_ok hrelease]
        rfl
  | error e v₁ =>
      rw [hrun] at hloop
      change Acting env pid v v₁ at hloop
      obtain ⟨v', hrelease, hv'⟩ := hloop.finish lock
      rw [@Action.recover_error _ _ _ _ v v₁ e]
      · rw [Action.bind_of_ok hrelease]
        exact hv'
      · rw [Action.get_bind, Action.bind_of_error hrun]

/-- **`save_signing_key`** by a process that has read everything. -/
theorem saveSigningKey_standing {v : View} (hv : Standing env pid v)
    (hend : v.store.position = v.disk.records.length) (key : SigningKey) :
    ∃ v', saveSigningKey env pid key v = .ok () v' ∧ Acting env pid v v' := by
  have hsound : Sound { keyPairs := [⟨key.verifyKey, key.seed⟩] } := by
    refine ⟨by simp, ?_⟩
    intro keyPair hkeyPair
    rw [List.mem_singleton.mp hkeyPair]
    exact ⟨key.length_verifyKey, key.length_seed⟩
  obtain ⟨v₁, hrun, hv₁⟩ := write_acting (Acting.refl hv hend) hsound
  unfold saveSigningKey
  rw [Action.bind_of_ok hrun]
  exact ⟨_, rfl, hv₁.inner (noteSigningKey_inner _ _ v₁) rfl⟩

theorem saveSymmetricKey_inner (key : Bytes) (v : View) :
    Action.Keeps (Inner v) (saveSymmetricKey env key) :=
  memoryCall_inner _ v

theorem saveSymmetricKey_applied (key : Bytes) (v : View) :
    (Action.endState (saveSymmetricKey env key v)).store.applied = v.store.applied := by
  unfold saveSymmetricKey memoryCall
  split <;> rfl

/-! ## §6. Opening the file. -/

/-- Nothing that takes place while the file is opened, and raises, writes to it. -/
theorem refreshHelper_disk (env : Env) (callback : Option Callback) (clocks : Clocks) (v : View) :
    (Action.endState (refreshHelper env callback clocks v)).disk = v.disk := by
  have hinner : ∀ e v₁, takeIn env callback clocks (joined v.unread) v.seekEnd = .error e v₁ →
      v₁.disk = v.disk := by
    intro e v₁ htaken
    have h := @takeIn_inner env callback clocks (joined v.unread) v.seekEnd v.seekEnd (Inner.refl _)
    rw [htaken] at h
    exact h.disk
  have hinner' : ∀ v₁, takeIn env callback clocks (joined v.unread) v.seekEnd = .ok () v₁ →
      v₁.disk = v.disk := by
    intro v₁ htaken
    have h := @takeIn_inner env callback clocks (joined v.unread) v.seekEnd v.seekEnd (Inner.refl _)
    rw [htaken] at h
    exact h.disk
  rcases refreshHelper_cases env callback clocks v with
    ⟨-, e, hrun⟩ | ⟨-, ⟨-, hrun⟩ | ⟨v₁, htaken, hrun⟩ | ⟨e, v₁, htaken, hrun⟩⟩
  · rw [hrun]
    rfl
  · rw [hrun]
    rfl
  · rw [hrun]
    exact hinner' v₁ htaken
  · rw [hrun]
    exact hinner e v₁ htaken

theorem fresh_standing {disk : Disk} (hsound : ∀ record ∈ disk.contents, Sound record)
    (hshared : disk.shared = []) (hwriter : ∀ r ∈ disk.records, r.writer ≠ pid)
    (hfree : disk.exclusive ≠ some pid) (exclusive : Bool) :
    Standing env pid (View.setExclusive exclusive ⟨disk, {}⟩) where
  sound := hsound
  caught := ⟨Nat.zero_le _, rfl, rfl⟩
  own _ r hr hpid := absurd hpid (hwriter r (List.mem_of_getElem? hr))
  shared := hshared
  held := ⟨fun h => absurd h Bool.false_ne_true, fun h => absurd h hfree⟩

/-- The file is locked first, with either way to open it. -/
theorem openFile_eq (disk : Disk) (exclusive : Bool) :
    openFile env pid exclusive clocks ⟨disk, {}⟩ =
      (if env.format.total disk.contents = 0 then
          write env pid header >>= fun _ => releaseLock pid (!exclusive)
        else refreshHelper env none clocks >>= fun _ => releaseLock pid (!exclusive) :
          Action View Unit)
        ((View.setExclusive exclusive ⟨disk, {}⟩).lockExclusive pid) := by
  unfold openFile
  rw [Action.modify_bind]
  cases exclusive with
  | false =>
      have hlock : acquireLock pid (View.setExclusive false ⟨disk, {}⟩)
          = .ok true ((View.setExclusive false ⟨disk, {}⟩).lockExclusive pid) := rfl
      rw [if_neg Bool.false_ne_true]
      show (acquireLock pid >>= _ : Action View Unit) _ = _
      rw [Action.bind_of_ok hlock, Action.get_bind]
      show (if env.format.total disk.contents = 0 then _ else _ : Action View Unit) _ = _
      split_ifs <;> rfl
  | true =>
      have hlock : acquireLock pid ((View.setExclusive true ⟨disk, {}⟩).lockExclusive pid)
          = .ok false ((View.setExclusive true ⟨disk, {}⟩).lockExclusive pid) := rfl
      rw [if_pos rfl, Action.modify_bind]
      show (acquireLock pid >>= _ : Action View Unit) _ = _
      rw [Action.bind_of_ok hlock, Action.get_bind]
      show (if env.format.total disk.contents = 0 then _ else _ : Action View Unit) _ = _
      split_ifs <;> rfl

/-- **Opening the file** leaves a process that has applied all of it, or no process. -/
theorem openFile_cases {disk : Disk} {exclusive : Bool}
    (hv : Standing env pid (View.setExclusive exclusive ⟨disk, {}⟩))
    (hmay : disk.mayLock pid = true) :
    (∃ v', openFile env pid exclusive clocks ⟨disk, {}⟩ = .ok () v' ∧
      Called env pid (View.setExclusive exclusive ⟨disk, {}⟩) v' ∧ v'.store.flocked = exclusive) ∨
    ∃ e v', openFile env pid exclusive clocks ⟨disk, {}⟩ = .error e v' ∧
      v'.disk = { disk with exclusive := some pid } := by
  rw [openFile_eq]
  have hm := @lockExclusive_moved pid _ hv.shared hmay
  have hlocked := lockExclusive_standing hv
  generalize hv₀ : View.setExclusive exclusive ⟨disk, {}⟩ = v₀ at hv hm hlocked ⊢
  have hdisk : (v₀.lockExclusive pid).disk = { disk with exclusive := some pid } := by
    rw [← hv₀]
    rfl
  have hcontents : (v₀.lockExclusive pid).disk.contents = disk.contents := by
    rw [hdisk]
    rfl
  have hexclusive : (v₀.lockExclusive pid).store.exclusive = exclusive := by
    rw [← hv₀]
    rfl
  -- with the lock in hand and everything applied, the lock is released or kept
  have hfinish : ∀ {v₁ : View}, Standing env pid v₁ → Moved pid (v₀.lockExclusive pid) v₁ →
      v₁.store.flocked = true →
      ∃ v', releaseLock pid (!exclusive) v₁ = .ok () v' ∧ Called env pid v₀ v' ∧
        v'.store.flocked = exclusive := by
    intro v₁ hv₁ hm₁ hf₁
    obtain ⟨v', hrun, hv', hm', hf', -⟩ :=
      @releaseLock_standing env pid v₁ hv₁ (!exclusive)
    refine ⟨v', hrun, ⟨hv', (hm.trans hm₁).trans hm'⟩, ?_⟩
    rw [hf', hf₁]
    simp
  split_ifs with hzero
  · have hnil : disk.contents = [] :=
      (env.format.total_eq_zero fun r hr => (hv.sound r (by rw [← hv₀]; exact hr)).nonempty).mp hzero
    have hend : (v₀.lockExclusive pid).store.position
        = (v₀.lockExclusive pid).disk.records.length := by
      rw [hdisk, ← hv₀]
      show 0 = disk.records.length
      rw [List.map_eq_nil_iff.mp hnil]
      rfl
    have hheader : Sound header := ⟨by decide, by simp [KeysFit, header]⟩
    obtain ⟨v₁, hrun, hv₁⟩ := write_acting (Acting.refl hlocked hend) hheader
    obtain ⟨v', hrelease, hv'⟩ := hfinish hv₁.standing hv₁.moved hv₁.flocked
    refine Or.inl ⟨v', ?_, hv'⟩
    rw [Action.bind_of_ok hrun]
    exact hrelease
  · cases hrun : refreshHelper env none clocks (v₀.lockExclusive pid) with
    | error e v₁ =>
        refine Or.inr ⟨e, v₁, Action.bind_of_error hrun, ?_⟩
        · have h := refreshHelper_disk env none clocks (v₀.lockExclusive pid)
          rw [hrun] at h
          exact h.trans hdisk
    | ok n v₁ =>
        have hv₁ := refreshHelper_refreshed hlocked.toPlaced hrun
        obtain ⟨v', hrelease, hv'⟩ := hfinish (hv₁.standing hlocked) hv₁.moved hv₁.flocked
        refine Or.inl ⟨v', ?_, hv'⟩
        rw [Action.bind_of_ok hrun]
        exact hrelease

end Log

end Gink
