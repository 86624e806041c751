/-
  Gink.Js.FileLock — the file lock of a JavaScript `LogBackedStore` within one process
  (LogBackedStore.ts, LockableFile.ts, PromiseChainLock.ts).

  The operations of a process take turns wherever one of them awaits something.  They share
  one file handle and one flag `fileLocked`.  The system lock belongs to the handle: `flock`
  succeeds at once when another operation of the process has the lock already, and the first
  one that is done lets go of it for all of them.  The memory lock keeps some of the
  operations apart, but not all of them.

  Main results:
    * `lock_kept` — whoever appends has the lock from its pull on, only the operation that took
      it lets go of it, and it does, where the lock is only given to an operation when no other
      one has it.
    * `lock_lost` — a getter lets go of the lock under an `addBundle`.
-/
import Gink.Machine.Run

namespace Gink

namespace Js

/-! ## §1. The operations. -/

/-- What comes to the file lock. -/
inductive Operation where
  | addBundle
  | acquireChain
  | saveKeyPair
  /-- `initializeLogBackedStore()` -/
  | opening
  /-- what the watcher of the file calls -/
  | watcher
  /-- what reads from the store: it pulls from the file first -/
  | getter
  deriving DecidableEq

/-- What an operation awaits.  In between it runs on its own. -/
inductive Awaiting where
  | nothing
  /-- `memoryLock.acquireLock()` -/
  | memoryLock
  /-- the operation's own `lockFile(true)` -/
  | lockFile
  /-- `getFileLength()` in `pullDataFromFile()` -/
  | fileLength
  /-- `lockFile(true)` in `pullDataFromFile()` -/
  | pullLock
  /-- the reading, and the adding to the internal store, in `pullDataFromFile()` -/
  | contents (lockedByPull : Bool)
  /-- `unlockFile()` in `pullDataFromFile()` -/
  | pullUnlock
  /-- whatever the operation does besides, appending to the file included -/
  | work
  /-- the operation's own `unlockFile()` -/
  | unlockFile
  deriving DecidableEq

structure Task where
  operation : Operation := .getter
  awaiting : Awaiting := .nothing
  deriving DecidableEq

/-- The locks of a store.  `flock` and its callback, which sets `fileLocked`, are one step:
whoever looks at the flag in between could have looked before that. -/
structure FileLock where
  exclusive : Bool
  fileLocked : Bool
  /-- the operation whose `flock` found the lock free -/
  taken : Option Nat := none
  memoryLock : Option Nat := none
  tasks : Nat → Task := fun _ => {}

/-- What can happen next.  What the file holds, and what throws, is left open. -/
inductive LockEvent where
  | start (id : Nat) (operation : Operation)
  | memoryLock (id : Nat)
  | flock (id : Nat)
  /-- `more`: the file is longer than what has been read -/
  | fileLength (id : Nat) (more : Bool)
  | contents (id : Nat)
  | append (id : Nat)
  /-- `addBundle` pulls once more before it appends the bundle -/
  | pullAgain (id : Nat)
  | finish (id : Nat)
  | unflock (id : Nat)
  | throws (id : Nat)

namespace FileLock

/-- A store just opened; in exclusive mode it has the lock until it is closed. -/
def opened (exclusive : Bool) : FileLock := { exclusive, fileLocked := exclusive }

/-- The operation awaits something else. -/
def await (s : FileLock) (id : Nat) (awaiting : Awaiting) : FileLock :=
  { s with tasks := Function.update s.tasks id { s.tasks id with awaiting } }

/-- After its lock an operation pulls; `saveKeyPair` does not. -/
def locked (s : FileLock) (id : Nat) : FileLock :=
  s.await id (if (s.tasks id).operation = .saveKeyPair then .work else .fileLength)

/-- `if (!this.exclusive) await this.lockFile(true)`. -/
def lockUnlessExclusive (s : FileLock) (id : Nat) : FileLock :=
  if s.exclusive then s.locked id else s.await id .lockFile

def start (s : FileLock) (id : Nat) (operation : Operation) : FileLock :=
  if (s.tasks id).awaiting = .nothing then
    let s : FileLock := { s with tasks := Function.update s.tasks id { operation } }
    match operation with
    | .getter => s.await id .fileLength
    | .acquireChain => s.lockUnlessExclusive id
    | .addBundle | .saveKeyPair | .opening | .watcher => s.await id .memoryLock
  else s

def acquireMemoryLock (s : FileLock) (id : Nat) : FileLock :=
  if (s.tasks id).awaiting = .memoryLock ∧ s.memoryLock = none then
    { s with memoryLock := some id }.lockUnlessExclusive id
  else s

/-- `flock(fd, "ex")`: nothing happens to a lock that the handle has already. -/
def flock (s : FileLock) (id : Nat) : FileLock :=
  let s' : FileLock := { s with
    fileLocked := true
    taken := if s.taken = none then some id else s.taken }
  match (s.tasks id).awaiting with
  | .lockFile => s'.locked id
  | .pullLock => s'.await id (.contents true)
  | _ => s

/-- A pull comes back to the operation; a getter has nothing else to do with the file. -/
def pulled (s : FileLock) (id : Nat) : FileLock :=
  s.await id (if (s.tasks id).operation = .getter then .nothing else .work)

/-- `if (this.redTo == totalSize) return; if (!this.fileLocked) …`. -/
def fileLength (s : FileLock) (id : Nat) (more : Bool) : FileLock :=
  if (s.tasks id).awaiting = .fileLength then
    if more then
      if s.fileLocked then s.await id (.contents false) else s.await id .pullLock
    else s.pulled id
  else s

def contents (s : FileLock) (id : Nat) : FileLock :=
  match (s.tasks id).awaiting with
  | .contents lockedByPull => if lockedByPull then s.await id .pullUnlock else s.pulled id
  | _ => s

/-- `unlockingFunction()`. -/
def releaseMemoryLock (s : FileLock) (id : Nat) : FileLock :=
  { s with memoryLock := if s.memoryLock = some id then none else s.memoryLock }

/-- The end of an operation: `if (!this.exclusive) await this.unlockFile()`.  `addBundle` and
the opening of the store let go of the memory lock before the file is unlocked. -/
def leave (s : FileLock) (id : Nat) : FileLock :=
  if s.exclusive then (s.releaseMemoryLock id).await id .nothing
  else
    match (s.tasks id).operation with
    | .addBundle | .opening => (s.releaseMemoryLock id).await id .unlockFile
    | .acquireChain | .saveKeyPair | .watcher | .getter => s.await id .unlockFile

/-- Something throws: only `addBundle` cleans up, in its `finally`. -/
def throws (s : FileLock) (id : Nat) : FileLock :=
  match (s.tasks id).awaiting with
  | .fileLength | .contents _ | .work =>
      if (s.tasks id).operation = .addBundle then s.leave id else s.await id .nothing
  | _ => s

/-- `ensure(this.fileLocked)` and the write. -/
def append (s : FileLock) (id : Nat) : FileLock :=
  if (s.tasks id).awaiting = .work ∧ s.fileLocked = false then s.throws id else s

def pullAgain (s : FileLock) (id : Nat) : FileLock :=
  if (s.tasks id).awaiting = .work ∧ (s.tasks id).operation = .addBundle then
    s.await id .fileLength
  else s

def finish (s : FileLock) (id : Nat) : FileLock :=
  if (s.tasks id).awaiting = .work then s.leave id else s

/-- `flock(fd, "un")`, whoever has taken the lock. -/
def unflock (s : FileLock) (id : Nat) : FileLock :=
  let s' : FileLock := { s with fileLocked := false, taken := none }
  match (s.tasks id).awaiting with
  | .unlockFile => (s'.releaseMemoryLock id).await id .nothing
  | .pullUnlock => s'.pulled id
  | _ => s

def step (s : FileLock) : LockEvent → FileLock
  | .start id operation => s.start id operation
  | .memoryLock id => s.acquireMemoryLock id
  | .flock id => s.flock id
  | .fileLength id more => s.fileLength id more
  | .contents id => s.contents id
  | .append id => s.append id
  | .pullAgain id => s.pullAgain id
  | .finish id => s.finish id
  | .unflock id => s.unflock id
  | .throws id => s.throws id

end FileLock

/-! ## §2. What is promised, and when. -/

/-- The operation is one that appends, between the beginning of its pull and the end of what it
appends. -/
def Task.writes (task : Task) : Prop :=
  (task.operation = .addBundle ∨ task.operation = .acquireChain ∨
    task.operation = .saveKeyPair) ∧
  match task.awaiting with
  | .fileLength | .pullLock | .contents _ | .pullUnlock | .work => True
  | .nothing | .memoryLock | .lockFile | .unlockFile => False

/-- The operation has asked for the lock and was given it. -/
def Task.needsLock : Task → Bool
  | ⟨.getter, .contents lockedByPull⟩ => lockedByPull
  | ⟨.getter, .pullUnlock⟩ => true
  | ⟨.getter, _⟩ => false
  | ⟨_, .fileLength⟩ | ⟨_, .contents _⟩ | ⟨_, .work⟩ | ⟨_, .unlockFile⟩ => true
  | _ => false

namespace FileLock

/-- Who writes has the lock, and who has the lock needs it. -/
structure Kept (s : FileLock) : Prop where
  held : ∀ id, (s.tasks id).writes → s.exclusive ∨ s.taken ≠ none
  needed : ∀ id, s.taken = some id → (s.tasks id).needsLock

/-- Only the operation that took the lock lets go of it. -/
def ReleasedByOwner (s : FileLock) (e : LockEvent) : Prop :=
  ∀ id, s.taken = some id → (s.step e).taken ≠ some id → e = .unflock id

/-- The lock is given to an operation when no other one has it, and nothing throws in an
operation that has it, other than `addBundle`. -/
def Alone (s : FileLock) : LockEvent → Prop
  | .flock id => (s.tasks id).awaiting = .lockFile ∨ (s.tasks id).awaiting = .pullLock →
      s.taken = none
  | .throws id => s.taken = some id → (s.tasks id).operation = .addBundle
  | _ => True

/-! ## §3. The invariant. -/

/-- Where an operation can be when no two of them have the lock. -/
def Fits (exclusive : Bool) : Task → Bool
  | ⟨.getter, .memoryLock⟩ | ⟨.getter, .lockFile⟩ | ⟨.getter, .work⟩ | ⟨.getter, .unlockFile⟩ =>
      false
  | ⟨.getter, .pullLock⟩ | ⟨.getter, .pullUnlock⟩ => !exclusive
  | ⟨.getter, .contents lockedByPull⟩ => !(exclusive && lockedByPull)
  | ⟨.getter, _⟩ => true
  | ⟨_, .pullLock⟩ | ⟨_, .pullUnlock⟩ | ⟨_, .contents true⟩ => false
  | ⟨_, .lockFile⟩ | ⟨_, .unlockFile⟩ => !exclusive
  | _ => true

attribute [local simp] Fits Task.needsLock

structure Inv (s : FileLock) : Prop where
  taken : ∀ id, s.taken = some id ↔ s.exclusive = false ∧ (s.tasks id).needsLock
  flag : s.fileLocked = (s.exclusive || s.taken.isSome)
  fits : ∀ id, Fits s.exclusive (s.tasks id)

variable {s : FileLock}

/-- One operation goes on; what it does to the lock has to be its own business. -/
theorem Inv.move (h : Inv s) {id : Nat} {task : Task} {taken memoryLock : Option Nat}
    {fileLocked : Bool}
    (hothers : ∀ other, other ≠ id → (taken = some other ↔ s.taken = some other))
    (hown : taken = some id ↔ s.exclusive = false ∧ task.needsLock)
    (hflag : fileLocked = (s.exclusive || taken.isSome)) (hfits : Fits s.exclusive task) :
    Inv ⟨s.exclusive, fileLocked, taken, memoryLock, Function.update s.tasks id task⟩ := by
  refine ⟨?_, hflag, ?_⟩
  · intro other
    show taken = some other ↔ s.exclusive = false ∧ (Function.update s.tasks id task other).needsLock
    by_cases hid : other = id
    · subst hid
      rw [Function.update_self]
      exact hown
    · rw [Function.update_of_ne hid, hothers other hid]
      exact h.taken other
  · intro other
    show Fits s.exclusive (Function.update s.tasks id task other)
    by_cases hid : other = id
    · subst hid
      rw [Function.update_self]
      exact hfits
    · rw [Function.update_of_ne hid]
      exact h.fits other

/-- It goes on and needs the lock as before. -/
theorem Inv.stay (h : Inv s) {id : Nat} {task : Task} (memoryLock : Option Nat)
    (hneeds : s.exclusive = false → task.needsLock = (s.tasks id).needsLock)
    (hfits : Fits s.exclusive task) :
    Inv ⟨s.exclusive, s.fileLocked, s.taken, memoryLock, Function.update s.tasks id task⟩ := by
  refine h.move (fun _ _ => Iff.rfl) ?_ h.flag hfits
  rw [h.taken id]
  constructor
  · intro howner
    exact ⟨howner.1, by rw [hneeds howner.1]; exact howner.2⟩
  · intro howner
    exact ⟨howner.1, by rw [← hneeds howner.1]; exact howner.2⟩

/-- The same, where the operation only comes to await something else. -/
theorem Inv.await (h : Inv s) {id : Nat} {awaiting : Awaiting}
    (hneeds : s.exclusive = false →
      Task.needsLock ⟨(s.tasks id).operation, awaiting⟩ = (s.tasks id).needsLock)
    (hfits : Fits s.exclusive ⟨(s.tasks id).operation, awaiting⟩) : Inv (s.await id awaiting) :=
  h.stay s.memoryLock hneeds hfits

theorem Inv.withMemoryLock (h : Inv s) (memoryLock : Option Nat) :
    Inv { s with memoryLock := memoryLock } :=
  ⟨h.taken, h.flag, h.fits⟩

/-- Whoever needs the lock finds the flag set. -/
theorem Inv.fileLocked (h : Inv s) {id : Nat}
    (hneeds : s.exclusive = false → (s.tasks id).needsLock) : s.fileLocked = true := by
  rw [h.flag]
  cases hexclusive : s.exclusive with
  | true => rfl
  | false =>
      have htaken := (h.taken id).mpr ⟨hexclusive, hneeds hexclusive⟩
      rw [htaken]
      rfl

/-! ## §4. What the steps do. -/

theorem Inv.locked (h : Inv s) {id : Nat} (hoperation : (s.tasks id).operation ≠ .getter)
    (hexclusive : s.exclusive = true) : Inv (s.locked id) := by
  unfold FileLock.locked
  refine h.await (fun hshared => absurd (hexclusive.symm.trans hshared) (by simp)) ?_
  cases hop : (s.tasks id).operation <;> simp [Fits, hop] at hoperation ⊢

theorem Inv.lockUnlessExclusive (h : Inv s) {id : Nat}
    (hoperation : (s.tasks id).operation ≠ .getter) (hneeds : (s.tasks id).needsLock = false) :
    Inv (s.lockUnlessExclusive id) := by
  unfold FileLock.lockUnlessExclusive
  by_cases hexclusive : s.exclusive = true
  · rw [if_pos hexclusive]
    exact h.locked hoperation hexclusive
  · rw [if_neg hexclusive]
    refine h.await (fun _ => ?_) ?_
    · rw [hneeds]
      cases hop : (s.tasks id).operation <;> rfl
    · rw [Bool.not_eq_true] at hexclusive
      rw [hexclusive]
      cases hop : (s.tasks id).operation <;> simp [Fits, hop] at hoperation ⊢

theorem Inv.start (h : Inv s) (id : Nat) (operation : Operation) :
    Inv (s.start id operation) := by
  unfold FileLock.start
  by_cases hidle : (s.tasks id).awaiting = .nothing
  · rw [if_pos hidle]
    have hneeds : (s.tasks id).needsLock = false := by
      rcases htask : s.tasks id with ⟨old, awaiting⟩
      rw [htask] at hidle
      obtain rfl : awaiting = .nothing := hidle
      cases old <;> rfl
    have hfresh : Inv { s with tasks := Function.update s.tasks id { operation } } := by
      refine h.stay s.memoryLock (fun _ => ?_) ?_
      · rw [hneeds]
        cases operation <;> rfl
      · cases operation <;> rfl
    have hself : ({ s with tasks := Function.update s.tasks id { operation } } :
        FileLock).tasks id = { operation } := Function.update_self ..
    dsimp only
    generalize ({ s with tasks := Function.update s.tasks id { operation } } : FileLock) = fresh
      at hfresh hself ⊢
    cases operation with
    | getter =>
        refine hfresh.await (fun _ => ?_) ?_ <;> rw [hself] <;> rfl
    | acquireChain =>
        refine hfresh.lockUnlessExclusive ?_ ?_ <;> rw [hself]
        · exact Operation.noConfusion
        · rfl
    | addBundle | saveKeyPair | opening | watcher =>
        refine hfresh.await (fun _ => ?_) ?_ <;> rw [hself] <;> rfl
  · rw [if_neg hidle]
    exact h

theorem Inv.acquireMemoryLock (h : Inv s) (id : Nat) : Inv (s.acquireMemoryLock id) := by
  unfold FileLock.acquireMemoryLock
  by_cases hfree : (s.tasks id).awaiting = .memoryLock ∧ s.memoryLock = none
  · rw [if_pos hfree]
    have hfits := h.fits id
    rcases htask : s.tasks id with ⟨operation, awaiting⟩
    rw [htask] at hfits hfree
    obtain rfl : awaiting = .memoryLock := hfree.1
    refine (h.withMemoryLock (some id)).lockUnlessExclusive ?_ ?_
    · show (s.tasks id).operation ≠ .getter
      rw [htask]
      rintro (rfl : operation = .getter)
      exact absurd hfits (by simp [Fits])
    · show (s.tasks id).needsLock = false
      rw [htask]
      cases operation <;> rfl
  · rw [if_neg hfree]
    exact h

/-- **The lock is given** to an operation when no other one has it. -/
theorem Inv.flock (h : Inv s) {id : Nat} (halone : s.Alone (.flock id)) : Inv (s.flock id) := by
  have hfits := h.fits id
  have hgiven : ∀ awaiting, s.taken = none → s.exclusive = false →
      Task.needsLock ⟨(s.tasks id).operation, awaiting⟩ →
      Fits s.exclusive ⟨(s.tasks id).operation, awaiting⟩ →
      Inv ({ s with fileLocked := true, taken := if s.taken = none then some id else s.taken }.await
        id awaiting) := by
    intro awaiting hfree hshared hneeds hfits'
    refine h.move (fun other hother => ?_) ?_ ?_ hfits'
    · rw [if_pos hfree, hfree]
      constructor
      · intro hid
        exact absurd (Option.some.inj hid).symm hother
      · intro hnone
        cases hnone
    · rw [if_pos hfree]
      exact ⟨fun _ => ⟨hshared, hneeds⟩, fun _ => rfl⟩
    · rw [if_pos hfree, hshared]
      rfl
  unfold FileLock.flock
  dsimp only
  split
  · rename_i hawaiting
    have hfree := halone (.inl hawaiting)
    rcases htask : s.tasks id with ⟨operation, awaiting⟩
    rw [htask] at hfits hawaiting hgiven
    obtain rfl : awaiting = .lockFile := hawaiting
    have hshared : s.exclusive = false := by cases operation <;> simp_all [Fits]
    unfold FileLock.locked
    show Inv (FileLock.await _ id (if (s.tasks id).operation = .saveKeyPair then _ else _))
    rw [htask]
    apply hgiven _ hfree hshared
    · cases operation <;> first | rfl | exact absurd hfits (by simp [Fits])
    · cases operation <;> rfl
  · rename_i hawaiting
    have hfree := halone (.inr hawaiting)
    rcases htask : s.tasks id with ⟨operation, awaiting⟩
    rw [htask] at hfits hawaiting hgiven
    obtain rfl : awaiting = .pullLock := hawaiting
    -- only a getter comes to lock the file in its pull
    obtain rfl : operation = .getter := by
      cases operation <;> first | rfl | exact absurd hfits (by simp [Fits])
    have hshared : s.exclusive = false := by simpa [Fits] using hfits
    apply hgiven _ hfree hshared rfl
    rw [hshared]
    rfl
  · exact h

theorem Inv.pulled (h : Inv s) {id : Nat}
    (hneeds : s.exclusive = false →
      ((s.tasks id).needsLock ↔ (s.tasks id).operation ≠ .getter)) : Inv (s.pulled id) := by
  unfold FileLock.pulled
  refine h.await (fun hshared => ?_) ?_
  · have hneeds := hneeds hshared
    rw [Bool.eq_iff_iff, hneeds]
    cases hop : (s.tasks id).operation <;> simp [Task.needsLock]
  · cases hop : (s.tasks id).operation <;> rfl

theorem Inv.fileLength (h : Inv s) (id : Nat) (more : Bool) : Inv (s.fileLength id more) := by
  have hfits := h.fits id
  unfold FileLock.fileLength
  by_cases hawaiting : (s.tasks id).awaiting = .fileLength
  · rw [if_pos hawaiting]
    have hneeds : (s.tasks id).needsLock ↔ (s.tasks id).operation ≠ .getter := by
      rcases htask : s.tasks id with ⟨operation, awaiting⟩
      rw [htask] at hawaiting
      obtain rfl : awaiting = .fileLength := hawaiting
      cases operation <;> simp [Task.needsLock]
    cases more with
    | false => exact h.pulled (fun _ => hneeds)
    | true =>
        rw [if_pos rfl]
        by_cases hlocked : s.fileLocked = true
        · rw [if_pos hlocked]
          refine h.await (fun _ => ?_) ?_
          · rw [Bool.eq_iff_iff, hneeds]
            cases hop : (s.tasks id).operation <;> simp [Task.needsLock]
          · cases hop : (s.tasks id).operation <;> simp [Fits]
        · rw [if_neg hlocked]
          -- who has a lock of its own has found the flag set
          have hgetter : (s.tasks id).operation = .getter := by
            by_contra hop
            exact hlocked (h.fileLocked (fun _ => hneeds.mpr hop))
          have hshared : s.exclusive = false := by
            have hflag := h.flag
            rw [Bool.not_eq_true] at hlocked
            rw [hlocked] at hflag
            exact (Bool.or_eq_false_iff.mp hflag.symm).1
          refine h.await (fun _ => ?_) ?_
          · rw [Bool.eq_iff_iff, hneeds, hgetter]
            simp [Task.needsLock]
          · rw [hgetter, hshared]
            rfl
  · rw [if_neg hawaiting]
    exact h

theorem Inv.contents (h : Inv s) (id : Nat) : Inv (s.contents id) := by
  have hfits := h.fits id
  unfold FileLock.contents
  split
  · rename_i lockedByPull hawaiting
    rcases htask : s.tasks id with ⟨operation, awaiting⟩
    rw [htask] at hfits hawaiting
    obtain rfl : awaiting = .contents lockedByPull := hawaiting
    cases lockedByPull with
    | true =>
        obtain rfl : operation = .getter := by
          cases operation <;> first | rfl | exact absurd hfits (by simp [Fits])
        refine h.await (fun _ => ?_) ?_
        · rw [htask]
          rfl
        · rw [htask]
          simpa [Fits] using hfits
    | false =>
        refine h.pulled (fun _ => ?_)
        rw [htask]
        cases operation <;> simp [Task.needsLock]
  · exact h

theorem Inv.leave (h : Inv s) {id : Nat} (hoperation : (s.tasks id).operation ≠ .getter)
    (hneeds : s.exclusive = false → (s.tasks id).needsLock) : Inv (s.leave id) := by
  unfold FileLock.leave
  have hfree : Inv (s.releaseMemoryLock id) := h.withMemoryLock _
  by_cases hexclusive : s.exclusive = true
  · rw [if_pos hexclusive]
    refine hfree.await (fun hshared => absurd (hexclusive.symm.trans hshared) (by simp)) ?_
    cases hop : ((s.releaseMemoryLock id).tasks id).operation <;> rfl
  · rw [if_neg hexclusive]
    rw [Bool.not_eq_true] at hexclusive
    have hneeds := hneeds hexclusive
    have hunlock : Task.needsLock ⟨(s.tasks id).operation, .unlockFile⟩ =
        (s.tasks id).needsLock := by
      rw [hneeds]
      cases hop : (s.tasks id).operation <;> first | rfl | exact absurd hop hoperation
    have hfits : Fits s.exclusive ⟨(s.tasks id).operation, .unlockFile⟩ := by
      rw [hexclusive]
      cases hop : (s.tasks id).operation <;> first | rfl | exact absurd hop hoperation
    split
    · exact hfree.await (fun _ => hunlock) hfits
    · exact hfree.await (fun _ => hunlock) hfits
    · exact h.await (fun _ => hunlock) hfits
    · exact h.await (fun _ => hunlock) hfits
    · exact h.await (fun _ => hunlock) hfits
    · exact h.await (fun _ => hunlock) hfits

theorem Inv.throws (h : Inv s) {id : Nat} (halone : s.Alone (.throws id)) :
    Inv (s.throws id) := by
  have hfits := h.fits id
  have hthrown : (s.tasks id).awaiting = .fileLength ∨ (s.tasks id).awaiting = .work ∨
      (∃ lockedByPull, (s.tasks id).awaiting = .contents lockedByPull) →
      Inv (if (s.tasks id).operation = .addBundle then s.leave id else s.await id .nothing) := by
    intro hawaiting
    by_cases hop : (s.tasks id).operation = .addBundle
    · rw [if_pos hop]
      refine h.leave (by rw [hop]; exact Operation.noConfusion) (fun _ => ?_)
      rcases htask : s.tasks id with ⟨operation, awaiting⟩
      rw [htask] at hop hawaiting hfits
      obtain rfl : operation = .addBundle := hop
      rcases hawaiting with hw | hw | ⟨lockedByPull, hw⟩
      · obtain rfl : awaiting = .fileLength := hw
        rfl
      · obtain rfl : awaiting = .work := hw
        rfl
      · obtain rfl : awaiting = .contents lockedByPull := hw
        rfl
    · rw [if_neg hop]
      refine h.await (fun hshared => ?_) ?_
      · have hnot : ¬(s.tasks id).needsLock := fun hneeds =>
          hop (halone ((h.taken id).mpr ⟨hshared, hneeds⟩))
        rw [Bool.not_eq_true] at hnot
        rw [hnot]
        cases hop' : (s.tasks id).operation <;> rfl
      · cases hop' : (s.tasks id).operation <;> rfl
  unfold FileLock.throws
  split
  · rename_i hawaiting
    exact hthrown (.inl hawaiting)
  · rename_i lockedByPull hawaiting
    exact hthrown (.inr (.inr ⟨lockedByPull, hawaiting⟩))
  · rename_i hawaiting
    exact hthrown (.inr (.inl hawaiting))
  · exact h

/-- In the middle of its work an operation is no getter, and has the lock. -/
theorem Inv.work (h : Inv s) {id : Nat} (hawaiting : (s.tasks id).awaiting = .work) :
    (s.tasks id).operation ≠ .getter ∧ (s.tasks id).needsLock := by
  have hfits := h.fits id
  rcases htask : s.tasks id with ⟨operation, awaiting⟩
  rw [htask] at hawaiting hfits
  obtain rfl : awaiting = .work := hawaiting
  cases operation <;> simp [Fits, Task.needsLock] at hfits ⊢

theorem Inv.append (h : Inv s) (id : Nat) : Inv (s.append id) := by
  unfold FileLock.append
  by_cases hlost : (s.tasks id).awaiting = .work ∧ s.fileLocked = false
  · have hlocked := h.fileLocked (fun _ => (h.work hlost.1).2)
    rw [hlost.2] at hlocked
    cases hlocked
  · rw [if_neg hlost]
    exact h

theorem Inv.pullAgain (h : Inv s) (id : Nat) : Inv (s.pullAgain id) := by
  unfold FileLock.pullAgain
  by_cases hwork : (s.tasks id).awaiting = .work ∧ (s.tasks id).operation = .addBundle
  · rw [if_pos hwork]
    refine h.await (fun _ => ?_) ?_
    · rw [(h.work hwork.1).2, hwork.2]
      rfl
    · rw [hwork.2]
      rfl
  · rw [if_neg hwork]
    exact h

theorem Inv.finish (h : Inv s) (id : Nat) : Inv (s.finish id) := by
  unfold FileLock.finish
  by_cases hwork : (s.tasks id).awaiting = .work
  · rw [if_pos hwork]
    exact h.leave (h.work hwork).1 (fun _ => (h.work hwork).2)
  · rw [if_neg hwork]
    exact h

/-- Whoever is about to unlock the file has taken the lock. -/
theorem Inv.unlocking (h : Inv s) {id : Nat}
    (hawaiting : (s.tasks id).awaiting = .unlockFile ∨ (s.tasks id).awaiting = .pullUnlock) :
    s.taken = some id ∧ s.exclusive = false := by
  have hfits := h.fits id
  rcases htask : s.tasks id with ⟨operation, awaiting⟩
  have hneeds : s.exclusive = false ∧ (s.tasks id).needsLock := by
    rw [htask] at hawaiting hfits ⊢
    rcases hawaiting with hw | hw
    · obtain rfl : awaiting = .unlockFile := hw
      cases operation <;> simp_all [Fits, Task.needsLock]
    · obtain rfl : awaiting = .pullUnlock := hw
      cases operation <;> simp_all [Fits, Task.needsLock]
  exact ⟨(h.taken id).mpr hneeds, hneeds.1⟩

/-- **The lock is let go of** by the operation that has it. -/
theorem Inv.unflock (h : Inv s) (id : Nat) : Inv (s.unflock id) := by
  have hfits := h.fits id
  have hfreed : ∀ (task : Task) (memoryLock : Option Nat), s.taken = some id →
      s.exclusive = false → task.needsLock = false → Fits s.exclusive task →
      Inv ⟨s.exclusive, false, none, memoryLock, Function.update s.tasks id task⟩ := by
    intro task memoryLock htaken hshared hneeds hfits'
    refine h.move (fun other hother => ?_) ?_ ?_ hfits'
    · rw [htaken]
      constructor
      · intro hnone
        cases hnone
      · intro hid
        exact absurd (Option.some.inj hid).symm hother
    · rw [hneeds]
      simp
    · rw [hshared]
      rfl
  unfold FileLock.unflock
  dsimp only
  split
  · rename_i hawaiting
    obtain ⟨htaken, hshared⟩ := h.unlocking (.inl hawaiting)
    apply hfreed _ _ htaken hshared
    · show Task.needsLock ⟨(s.tasks id).operation, .nothing⟩ = false
      cases (s.tasks id).operation <;> rfl
    · show Fits s.exclusive ⟨(s.tasks id).operation, .nothing⟩
      cases (s.tasks id).operation <;> rfl
  · rename_i hawaiting
    obtain ⟨htaken, hshared⟩ := h.unlocking (.inr hawaiting)
    -- this is a getter, which has nothing else to do
    have hgetter : (s.tasks id).operation = .getter := by
      rcases htask : s.tasks id with ⟨operation, awaiting⟩
      rw [htask] at hawaiting hfits
      obtain rfl : awaiting = .pullUnlock := hawaiting
      cases operation <;> first | rfl | exact absurd hfits (by simp [Fits])
    unfold FileLock.pulled
    show Inv (FileLock.await _ id (if (s.tasks id).operation = .getter then _ else _))
    rw [if_pos hgetter]
    apply hfreed _ _ htaken hshared
    · show Task.needsLock ⟨(s.tasks id).operation, .nothing⟩ = false
      rw [hgetter]
      rfl
    · show Fits s.exclusive ⟨(s.tasks id).operation, .nothing⟩
      rw [hgetter]
      rfl
  · exact h

theorem Inv.step (h : Inv s) (e : LockEvent) (halone : s.Alone e) : Inv (s.step e) := by
  cases e with
  | start id operation => exact h.start id operation
  | memoryLock id => exact h.acquireMemoryLock id
  | flock id => exact h.flock halone
  | fileLength id more => exact h.fileLength id more
  | contents id => exact h.contents id
  | append id => exact h.append id
  | pullAgain id => exact h.pullAgain id
  | finish id => exact h.finish id
  | unflock id => exact h.unflock id
  | throws id => exact h.throws halone

theorem Inv.opened (exclusive : Bool) : Inv (opened exclusive) where
  taken := by
    intro id
    constructor
    · intro hnone
      cases hnone
    · intro hneeds
      cases hneeds.2
  flag := (Bool.or_false exclusive).symm
  fits := fun _ => rfl

/-! ## §5. What follows. -/

theorem Inv.kept (h : Inv s) : Kept s where
  held := by
    intro id hwrites
    have hfits := h.fits id
    cases hexclusive : s.exclusive with
    | true => exact .inl rfl
    | false =>
        right
        have hneeds : (s.tasks id).needsLock := by
          rcases htask : s.tasks id with ⟨operation, awaiting⟩
          rw [htask] at hwrites hfits
          obtain ⟨hop, hawaiting⟩ := hwrites
          rcases hop with hop | hop | hop
          all_goals
            obtain rfl : operation = _ := hop
            cases awaiting <;> first | rfl | exact hawaiting.elim | cases hfits
        rw [(h.taken id).mpr ⟨hexclusive, hneeds⟩]
        exact Option.some_ne_none id
  needed := fun id htaken => ((h.taken id).mp htaken).2

@[simp] theorem taken_await (id : Nat) (awaiting : Awaiting) :
    (s.await id awaiting).taken = s.taken := rfl

theorem taken_lockUnlessExclusive (id : Nat) : (s.lockUnlessExclusive id).taken = s.taken := by
  unfold FileLock.lockUnlessExclusive FileLock.locked
  split <;> rfl

theorem taken_leave (id : Nat) : (s.leave id).taken = s.taken := by
  unfold FileLock.leave
  split
  · rfl
  · split <;> rfl

theorem taken_throws (id : Nat) : (s.throws id).taken = s.taken := by
  unfold FileLock.throws
  split
  · split
    · exact taken_leave id
    · rfl
  · split
    · exact taken_leave id
    · rfl
  · split
    · exact taken_leave id
    · rfl
  · rfl

/-- A lock that is taken stays so, but for a step that unlocks the file. -/
theorem taken_step {owner : Nat} (htaken : s.taken = some owner) {e : LockEvent}
    (hunflock : ∀ id, e ≠ .unflock id) : (s.step e).taken = some owner := by
  rw [← htaken]
  cases e with
  | start id operation =>
      show (s.start id operation).taken = _
      unfold FileLock.start
      split
      · cases operation <;> first | rfl | exact taken_lockUnlessExclusive id
      · rfl
  | memoryLock id =>
      show (s.acquireMemoryLock id).taken = _
      unfold FileLock.acquireMemoryLock
      split
      · exact taken_lockUnlessExclusive id
      · rfl
  | flock id =>
      have hkept : (if s.taken = none then some id else s.taken) = s.taken := by
        rw [htaken]
        exact if_neg (Option.some_ne_none owner)
      show (s.flock id).taken = _
      unfold FileLock.flock
      dsimp only
      split
      · exact hkept
      · exact hkept
      · rfl
  | fileLength id more =>
      show (s.fileLength id more).taken = _
      unfold FileLock.fileLength
      split_ifs <;> rfl
  | contents id =>
      show (s.contents id).taken = _
      unfold FileLock.contents
      split
      · split_ifs <;> rfl
      · rfl
  | append id =>
      show (s.append id).taken = _
      unfold FileLock.append
      split
      · exact taken_throws id
      · rfl
  | pullAgain id =>
      show (s.pullAgain id).taken = _
      unfold FileLock.pullAgain
      split <;> rfl
  | finish id =>
      show (s.finish id).taken = _
      unfold FileLock.finish
      split
      · exact taken_leave id
      · rfl
  | unflock id => exact absurd rfl (hunflock id)
  | throws id => exact taken_throws id

theorem Inv.releasedByOwner (h : Inv s) (e : LockEvent) : s.ReleasedByOwner e := by
  intro owner htaken hlost
  by_contra hother
  apply hlost
  by_cases hunflock : ∀ id, e ≠ .unflock id
  · exact taken_step htaken hunflock
  · push Not at hunflock
    obtain ⟨id, rfl⟩ := hunflock
    show (s.unflock id).taken = some owner
    have hawaits : ¬((s.tasks id).awaiting = .unlockFile ∨ (s.tasks id).awaiting = .pullUnlock) := by
      intro hawaiting
      have hid := htaken.symm.trans (h.unlocking hawaiting).1
      exact hother (by rw [Option.some.inj hid])
    unfold FileLock.unflock
    dsimp only
    split
    · rename_i hawaiting
      exact absurd (.inl hawaiting) hawaits
    · rename_i hawaiting
      exact absurd (.inr hawaiting) hawaits
    · exact htaken

/-- **The lock is kept over a whole write**, only its owner lets go of it, and nobody keeps it
without need: in every run in which the lock is only given to an operation when no other one
has it. -/
theorem lock_kept (exclusive : Bool) (events : List LockEvent)
    (halone : Machine.AllSteps step Alone (opened exclusive) events) :
    Kept (Machine.run step (opened exclusive) events) ∧
      Machine.AllSteps step ReleasedByOwner (opened exclusive) events := by
  constructor
  · have hinv := Machine.run_invariant (I := Inv) (fun _ e hs hstep => Inv.step hs e hstep)
      events _ (.opened exclusive) halone
    exact hinv.kept
  · exact Machine.allSteps_of_invariant (I := Inv) (fun _ e hs hstep => Inv.step hs e hstep)
      (fun _ e hs _ => Inv.releasedByOwner hs e) events _ (.opened exclusive) halone

instance (s : FileLock) : DecidablePred s.Alone
  | .flock id => inferInstanceAs (Decidable ((s.tasks id).awaiting = .lockFile ∨
      (s.tasks id).awaiting = .pullLock → s.taken = none))
  | .throws id => inferInstanceAs (Decidable (s.taken = some id →
      (s.tasks id).operation = .addBundle))
  | .start .. | .memoryLock _ | .fileLength .. | .contents _ | .append _ | .pullAgain _
  | .finish _ | .unflock _ => .isTrue trivial

/-- A bundle is added, and a getter, which finds the file longer and not locked, comes to the
lock when that is done. -/
def inTurn : List LockEvent :=
  [.start 1 .addBundle, .memoryLock 1, .start 2 .getter, .fileLength 2 true, .flock 1,
    .fileLength 1 true, .contents 1, .append 1, .finish 1, .unflock 1, .flock 2, .contents 2,
    .unflock 2]

theorem lock_kept_inTurn :
    Kept (Machine.run step (opened false) inTurn) ∧
      Machine.AllSteps step ReleasedByOwner (opened false) inTurn := by
  apply lock_kept false inTurn
  refine ⟨trivial, trivial, trivial, trivial, ?_, trivial, trivial, trivial, trivial, trivial,
    ?_, trivial, trivial, trivial⟩ <;> decide

/-- The getter comes to the lock while the bundle is added, and is done first. -/
def underneath : List LockEvent :=
  [.start 1 .addBundle, .memoryLock 1, .start 2 .getter, .fileLength 2 true, .flock 1, .flock 2,
    .fileLength 1 true, .contents 2, .unflock 2, .contents 1]

/-- **It unlocks the file**, and the bundle is yet to be appended. -/
theorem lock_lost : ¬ Kept (Machine.run step (opened false) underneath) := by
  intro h
  have hheld := h.held 1 ⟨.inl rfl, trivial⟩
  exact absurd hheld (by decide)

end FileLock

end Js

end Gink
