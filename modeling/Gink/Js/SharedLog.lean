/-
  Gink.Js.SharedLog — processes that share the log file of a JavaScript `LogBackedStore`
  (LogBackedStore.ts, LockableLog.ts, LockableFile.ts).

  Each process runs one call after the other.  What a call does to the file comes in steps:
  it looks at the file's length, takes the lock, pulls what others have appended, appends, and
  lets go of the lock; other processes may do theirs in between.  `redTo` moves to the end of
  the file with a pull and by the length of what is appended with an append, so that an append
  has to come after a pull.  `saveKeyPair` does not pull.

  Main results:
    * `offsets_kept` — every offset is between two records, and every record is processed
      once by each process, where a key pair is only saved by who has read the file to its end.
    * `offset_astray` — a key pair that is saved after another process has written.
-/
import Gink.Js.References
import Gink.Log.File
import Gink.Machine.Journal
import Gink.Machine.Run
import Gink.Proto.Sample

namespace Gink

namespace Js

/-! ## §1. The file. -/

/-- `getLogContents(start)`: the records from an offset on, if that lies between two. -/
def recordsFrom (format : LogFormat) : List LogFileBuilder → Nat → Option (List LogFileBuilder)
  | records, 0 => some records
  | [], _ + 1 => none
  | record :: rest, n + 1 =>
      if n + 1 < format.size record then none
      else recordsFrom format rest (n + 1 - format.size record)

/-- **From between two records** the rest is read. -/
theorem recordsFrom_total (format : LogFormat) {records : List LogFileBuilder}
    (hrecords : ∀ record ∈ records, record ≠ {}) (n : Nat) :
    recordsFrom format records (format.total (records.take n)) = some (records.drop n) := by
  induction records generalizing n with
  | nil =>
      rw [List.take_nil, List.drop_nil]
      rfl
  | cons record rest ih =>
      cases n with
      | zero => rfl
      | succ n =>
          have hpos := format.size_pos record (hrecords record List.mem_cons_self)
          have htotal : format.total ((record :: rest).take (n + 1)) =
              format.size record + format.total (rest.take n) := rfl
          obtain ⟨k, hk⟩ : ∃ k, format.size record + format.total (rest.take n) = k + 1 :=
            ⟨format.size record + format.total (rest.take n) - 1, by omega⟩
          rw [htotal, hk]
          unfold recordsFrom
          rw [if_neg (by omega), ← hk, Nat.add_sub_cancel_left, List.drop_succ_cons]
          exact ih (fun r hr => hrecords r (List.mem_cons_of_mem _ hr)) n

/-! ## §2. The processes. -/

/-- The calls, by what they do once they have the lock. -/
inductive Job where
  /-- the getters, opening the store, and the watcher of the file -/
  | pull
  | addBundle
  | acquireChain
  | saveKeyPair
  deriving DecidableEq

/-- Where a process is in its call. -/
inductive Pc where
  | idle
  /-- a getter has found the file longer than what it has read -/
  | noticed
  | locked (job : Job)
  | pulled (job : Job)
  /-- something has thrown that leaves the lock where it is -/
  | stuck
  deriving DecidableEq

structure Reader where
  redTo : Nat := 0
  pc : Pc := .idle
  /-- the records that a pull has processed, in order -/
  processed : List LogFileBuilder := []

/-- The file, with who has appended each record, the lock on it, and the processes. -/
structure SharedLog where
  disk : List (Nat × LogFileBuilder) := []
  holder : Option Nat := none
  readers : Nat → Reader := fun _ => {}

/-- What can happen next; the records that are appended are up to the call. -/
inductive LogEvent where
  | stat (pid : Nat)
  | lock (pid : Nat) (job : Job)
  | pull (pid : Nat)
  | append (pid : Nat) (record : LogFileBuilder)
  | unlock (pid : Nat)

namespace SharedLog

variable (format : LogFormat)

/-- `getFileLength()`. -/
def fileLength (s : SharedLog) : Nat := format.total (s.disk.map (·.2))

/-- The process after a step. -/
def put (s : SharedLog) (pid : Nat) (reader : Reader) : SharedLog :=
  { s with readers := Function.update s.readers pid reader }

/-- `setMagicNumber(1263421767)`. -/
def magic : LogFileBuilder := { magicNumber := 1263421767 }

/-- `pullDataFromFile()` before the lock: it returns when there is nothing to read. -/
def stat (s : SharedLog) (pid : Nat) : SharedLog :=
  let reader := s.readers pid
  if reader.pc = .idle ∧ reader.redTo ≠ s.fileLength format then
    s.put pid { reader with pc := .noticed }
  else s

/-- `lockFile(true)`, when the lock is free. -/
def lock (s : SharedLog) (pid : Nat) (job : Job) : SharedLog :=
  let reader := s.readers pid
  if s.holder = none ∧ (reader.pc = .idle ∨ reader.pc = .noticed ∧ job = .pull) then
    { s.put pid { reader with pc := .locked job } with holder := some pid }
  else s

/-- What throws: only `addBundle` lets go of the lock then. -/
def throws (s : SharedLog) (pid : Nat) (job : Job) : SharedLog :=
  let reader := s.readers pid
  if job = .addBundle then { s.put pid { reader with pc := .idle } with holder := none }
  else s.put pid { reader with pc := .stuck }

/-- `pullDataFromFile()` under the lock. -/
def pull (s : SharedLog) (pid : Nat) : SharedLog :=
  let reader := s.readers pid
  match reader.pc with
  | .locked job =>
      if job = .saveKeyPair then s
      else
        match recordsFrom format (s.disk.map (·.2)) reader.redTo with
        | none => s.throws pid job
        | some records => s.put pid
            { reader with
              pc := .pulled job
              redTo := s.fileLength format
              processed := reader.processed ++ records }
  | _ => s

/-- `writeLogFragment(fragment)`. -/
def writeLogFragment (s : SharedLog) (pid : Nat) (fragment : LogFileBuilder) : SharedLog :=
  let reader := s.readers pid
  { s.put pid { reader with redTo := reader.redTo + format.size fragment } with
    disk := s.disk ++ [(pid, fragment)] }

/-- The next fragment of a call; to a process that has read nothing that is the magic number,
which has to be the first of the file. -/
def appendTo (s : SharedLog) (pid : Nat) (job : Job) (record : LogFileBuilder) : SharedLog :=
  if (s.readers pid).redTo = 0 then
    if s.fileLength format = 0 then s.writeLogFragment format pid magic
    else s.throws pid job  -- file not empty!
  else s.writeLogFragment format pid record

/-- `saveKeyPair` appends as soon as it has the lock, the others once they have pulled; there
is no chain to claim in an empty file. -/
def append (s : SharedLog) (pid : Nat) (record : LogFileBuilder) : SharedLog :=
  if record = {} then s
  else
    match (s.readers pid).pc with
    | .locked .saveKeyPair => s.appendTo format pid .saveKeyPair record
    | .pulled .addBundle => s.appendTo format pid .addBundle record
    | .pulled .acquireChain =>
        if (s.readers pid).redTo = 0 then s else s.writeLogFragment format pid record
    | _ => s

/-- `unlockFile()` at the end of a call. -/
def unlock (s : SharedLog) (pid : Nat) : SharedLog :=
  let reader := s.readers pid
  match reader.pc with
  | .locked .saveKeyPair => { s.put pid { reader with pc := .idle } with holder := none }
  | .pulled _ => { s.put pid { reader with pc := .idle } with holder := none }
  | _ => s

def step (s : SharedLog) : LogEvent → SharedLog
  | .stat pid => s.stat format pid
  | .lock pid job => s.lock pid job
  | .pull pid => s.pull format pid
  | .append pid record => s.append format pid record
  | .unlock pid => s.unlock pid

/-! ## §3. What is promised, and when. -/

/-- The offset of a process is between two records: it has processed what others wrote before
that, each record once, and what it wrote itself lies before that too. -/
def Attends (s : SharedLog) (pid : Nat) : Prop :=
  ∃ cursor, (s.readers pid).redTo = format.total ((s.disk.take cursor).map (·.2)) ∧
    Machine.Follows pid s.disk 0 cursor (s.readers pid).processed

/-- A key pair is saved by who has read nothing, or has read the file to its end. -/
def UpToDate (s : SharedLog) : LogEvent → Prop
  | .append pid _ => (s.readers pid).pc = .locked .saveKeyPair → (s.readers pid).redTo ≠ 0 →
      (s.readers pid).redTo = s.fileLength format
  | _ => True

instance (s : SharedLog) : DecidablePred (s.UpToDate format)
  | .append pid _ => inferInstanceAs (Decidable ((s.readers pid).pc = .locked .saveKeyPair →
      (s.readers pid).redTo ≠ 0 → (s.readers pid).redTo = s.fileLength format))
  | .stat _ | .lock .. | .pull _ | .unlock _ => .isTrue trivial

/-! ## §4. The invariant. -/

structure Inv (s : SharedLog) : Prop where
  records : ∀ record ∈ s.disk.map (·.2), record ≠ {}
  attends : ∀ pid, s.Attends format pid
  /-- who has pulled has the lock, and has read everything -/
  pulled : ∀ pid job, (s.readers pid).pc = .pulled job →
    s.holder = some pid ∧ (s.readers pid).redTo = s.fileLength format
  locked : ∀ pid job, (s.readers pid).pc = .locked job → s.holder = some pid

variable {format} {s : SharedLog}

theorem readers_put_self (s : SharedLog) (pid : Nat) (reader : Reader) :
    (s.put pid reader).readers pid = reader := Function.update_self ..

theorem readers_put_of_ne (s : SharedLog) {pid other : Nat} (reader : Reader) (h : other ≠ pid) :
    (s.put pid reader).readers other = s.readers other := Function.update_of_ne h ..

/-- At the end of the file there is nothing that was not processed. -/
theorem Inv.cursor_eq (h : Inv format s) {pid cursor : Nat}
    (hcursor : (s.readers pid).redTo = format.total ((s.disk.take cursor).map (·.2)))
    (hend : (s.readers pid).redTo = s.fileLength format) (hle : cursor ≤ s.disk.length) :
    cursor = s.disk.length := by
  have htotal : format.total (s.disk.map (·.2)) =
      format.total ((s.disk.take cursor).map (·.2)) +
        format.total ((s.disk.drop cursor).map (·.2)) := by
    rw [← LogFormat.total_append, ← List.map_append, List.take_append_drop]
  have hzero : format.total ((s.disk.drop cursor).map (·.2)) = 0 := by
    have : format.total ((s.disk.take cursor).map (·.2)) = format.total (s.disk.map (·.2)) := by
      rw [← hcursor, hend]
      rfl
    omega
  have hunread : ∀ record ∈ (s.disk.drop cursor).map (·.2), record ≠ {} := by
    intro record hrecord
    obtain ⟨written, hwritten, rfl⟩ := List.mem_map.mp hrecord
    exact h.records _ (List.mem_map.mpr ⟨written, List.mem_of_mem_drop hwritten, rfl⟩)
  have hnil := (format.total_eq_zero hunread).mp hzero
  have hlength := congrArg List.length hnil
  rw [List.length_map, List.length_drop, List.length_nil] at hlength
  omega

/-- A process goes on in its call; the file and what it has read stay as they are. -/
theorem Inv.goOn (h : Inv format s) (pid : Nat) {reader : Reader} (holder : Option Nat)
    (hredTo : reader.redTo = (s.readers pid).redTo)
    (hprocessed : reader.processed = (s.readers pid).processed)
    (hothers : ∀ other, other ≠ pid → s.holder = some other → holder = some other)
    (hpulled : ∀ job, reader.pc = .pulled job → holder = some pid ∧
      reader.redTo = s.fileLength format)
    (hlocked : ∀ job, reader.pc = .locked job → holder = some pid) :
    Inv format { s.put pid reader with holder := holder } := by
  refine ⟨h.records, ?_, ?_, ?_⟩
  · intro other
    obtain ⟨cursor, hcursor, hfollows⟩ := h.attends other
    refine ⟨cursor, ?_⟩
    by_cases hpid : other = pid
    · subst hpid
      show ((s.put other reader).readers other).redTo = _ ∧
        Machine.Follows other s.disk 0 cursor ((s.put other reader).readers other).processed
      rw [readers_put_self, hredTo, hprocessed]
      exact ⟨hcursor, hfollows⟩
    · show ((s.put pid reader).readers other).redTo = _ ∧
        Machine.Follows other s.disk 0 cursor ((s.put pid reader).readers other).processed
      rw [readers_put_of_ne s reader hpid]
      exact ⟨hcursor, hfollows⟩
  · intro other job hpc
    have hpc : ((s.put pid reader).readers other).pc = .pulled job := hpc
    show holder = some other ∧ ((s.put pid reader).readers other).redTo = s.fileLength format
    by_cases hpid : other = pid
    · subst hpid
      rw [readers_put_self] at hpc ⊢
      exact hpulled job hpc
    · rw [readers_put_of_ne s reader hpid] at hpc ⊢
      obtain ⟨hheld, hend⟩ := h.pulled other job hpc
      exact ⟨hothers other hpid hheld, hend⟩
  · intro other job hpc
    have hpc : ((s.put pid reader).readers other).pc = .locked job := hpc
    show holder = some other
    by_cases hpid : other = pid
    · subst hpid
      rw [readers_put_self] at hpc
      exact hlocked job hpc
    · rw [readers_put_of_ne s reader hpid] at hpc
      exact hothers other hpid (h.locked other job hpc)

/-! ## §5. What the steps do. -/

theorem Inv.stat (h : Inv format s) (pid : Nat) : Inv format (s.stat format pid) := by
  unfold SharedLog.stat
  by_cases hnotice : (s.readers pid).pc = .idle ∧ (s.readers pid).redTo ≠ s.fileLength format
  · rw [if_pos hnotice]
    exact h.goOn pid s.holder rfl rfl (fun _ _ hheld => hheld)
      (fun _ hpc => by cases hpc) (fun _ hpc => by cases hpc)
  · rw [if_neg hnotice]
    exact h

theorem Inv.lock (h : Inv format s) (pid : Nat) (job : Job) : Inv format (s.lock pid job) := by
  unfold SharedLog.lock
  by_cases hfree : s.holder = none ∧
      ((s.readers pid).pc = .idle ∨ (s.readers pid).pc = .noticed ∧ job = .pull)
  · rw [if_pos hfree]
    refine h.goOn pid (some pid) rfl rfl ?_ (fun _ hpc => by cases hpc) (fun _ _ => rfl)
    intro other _ hheld
    rw [hfree.1] at hheld
    cases hheld
  · rw [if_neg hfree]
    exact h

/-- Whoever lets go of the lock has it. -/
theorem Inv.release (h : Inv format s) {pid : Nat} (hheld : s.holder = some pid) :
    Inv format { s.put pid { s.readers pid with pc := .idle } with holder := none } := by
  refine h.goOn pid none rfl rfl ?_ (fun _ hpc => by cases hpc) (fun _ hpc => by cases hpc)
  intro other hother hholder
  rw [hheld] at hholder
  exact absurd (Option.some.inj hholder).symm hother

theorem Inv.throws (h : Inv format s) {pid : Nat} (job : Job) (hheld : s.holder = some pid) :
    Inv format (s.throws pid job) := by
  unfold SharedLog.throws
  by_cases hjob : job = .addBundle
  · rw [if_pos hjob]
    exact h.release hheld
  · rw [if_neg hjob]
    exact h.goOn pid s.holder rfl rfl (fun _ _ hother => hother)
      (fun _ hpc => by cases hpc) (fun _ hpc => by cases hpc)

/-- **A pull reads what the process has not seen**, and all of it. -/
theorem Inv.pull (h : Inv format s) (pid : Nat) : Inv format (s.pull format pid) := by
  unfold SharedLog.pull
  dsimp only
  split
  · rename_i job hpc
    by_cases hjob : job = .saveKeyPair
    · rw [if_pos hjob]
      exact h
    · rw [if_neg hjob]
      obtain ⟨cursor, hcursor, hfollows⟩ := h.attends pid
      have hread : recordsFrom format (s.disk.map (·.2)) (s.readers pid).redTo =
          some ((s.disk.drop cursor).map (·.2)) := by
        rw [hcursor, List.map_take, recordsFrom_total format h.records, List.map_drop]
      rw [hread]
      refine ⟨h.records, ?_, ?_, ?_⟩
      · intro other
        by_cases hpid : other = pid
        · subst hpid
          refine ⟨s.disk.length, ?_, ?_⟩
          · show ((s.put other _).readers other).redTo = _
            rw [readers_put_self]
            show s.fileLength format = _
            rw [show (s.put other _).disk = s.disk from rfl, List.take_length]
            rfl
          · show Machine.Follows other s.disk 0 s.disk.length
              ((s.put other _).readers other).processed
            rw [readers_put_self]
            exact hfollows.deliver
        · obtain ⟨cursor', hcursor', hfollows'⟩ := h.attends other
          refine ⟨cursor', ?_, ?_⟩
          · show ((s.put pid _).readers other).redTo = _
            rw [readers_put_of_ne s _ hpid]
            exact hcursor'
          · show Machine.Follows other s.disk 0 cursor' ((s.put pid _).readers other).processed
            rw [readers_put_of_ne s _ hpid]
            exact hfollows'
      · intro other job' hpc'
        by_cases hpid : other = pid
        · subst hpid
          refine ⟨h.locked other job hpc, ?_⟩
          rw [readers_put_self]
          rfl
        · rw [readers_put_of_ne s _ hpid] at hpc' ⊢
          exact h.pulled other job' hpc'
      · intro other job' hpc'
        by_cases hpid : other = pid
        · subst hpid
          exact h.locked other job hpc
        · rw [readers_put_of_ne s _ hpid] at hpc'
          exact h.locked other job' hpc'
  · exact h

/-- **An append** by who has the lock and has read the file to its end. -/
theorem Inv.writeLogFragment (h : Inv format s) {pid : Nat} {fragment : LogFileBuilder}
    (hfragment : fragment ≠ {}) (hheld : s.holder = some pid)
    (hend : (s.readers pid).redTo = s.fileLength format) :
    Inv format (s.writeLogFragment format pid fragment) := by
  have hlength : (s.writeLogFragment format pid fragment).fileLength format =
      s.fileLength format + format.size fragment := by
    show format.total ((s.disk ++ [(pid, fragment)]).map (·.2)) = _
    rw [List.map_append, format.total_append]
    rfl
  -- nobody else is about to append
  have halone : ∀ other, other ≠ pid → s.holder ≠ some other := by
    intro other hother hholder
    rw [hheld] at hholder
    exact hother (Option.some.inj hholder).symm
  refine ⟨?_, ?_, ?_, ?_⟩
  · intro record hrecord
    rw [show (s.writeLogFragment format pid fragment).disk = s.disk ++ [(pid, fragment)] from rfl,
      List.map_append] at hrecord
    rcases List.mem_append.mp hrecord with hold | hnew
    · exact h.records record hold
    · rw [List.mem_singleton.mp hnew]
      exact hfragment
  · intro other
    obtain ⟨cursor, hcursor, hfollows⟩ := h.attends other
    by_cases hpid : other = pid
    · subst hpid
      have hcursor_eq := h.cursor_eq hcursor hend hfollows.cursor_le
      refine ⟨(s.disk ++ [(other, fragment)]).length, ?_, ?_⟩
      · show ((s.put other _).readers other).redTo =
          format.total (((s.disk ++ [(other, fragment)]).take _).map (·.2))
        rw [readers_put_self, List.take_length]
        show (s.readers other).redTo + format.size fragment = _
        rw [hend]
        exact hlength.symm
      · show Machine.Follows other (s.disk ++ [(other, fragment)]) 0 _
          ((s.put other _).readers other).processed
        rw [readers_put_self]
        refine hfollows.append_own hcursor_eq ?_
        intro written hwritten
        rw [List.mem_singleton.mp hwritten]
    · refine ⟨cursor, ?_, ?_⟩
      · show ((s.put pid _).readers other).redTo =
          format.total (((s.disk ++ [(pid, fragment)]).take cursor).map (·.2))
        rw [readers_put_of_ne s _ hpid, List.take_append_of_le_length hfollows.cursor_le]
        exact hcursor
      · show Machine.Follows other (s.disk ++ [(pid, fragment)]) 0 cursor
          ((s.put pid _).readers other).processed
        rw [readers_put_of_ne s _ hpid]
        refine hfollows.append_others ?_
        intro written hwritten
        rw [List.mem_singleton.mp hwritten]
        exact Ne.symm hpid
  · intro other job hpc
    by_cases hpid : other = pid
    · subst hpid
      refine ⟨hheld, ?_⟩
      rw [hlength]
      show ((s.put other _).readers other).redTo = _
      rw [readers_put_self, ← hend]
    · have hpc : ((s.put pid _).readers other).pc = .pulled job := hpc
      rw [readers_put_of_ne s _ hpid] at hpc
      exact absurd (h.pulled other job hpc).1 (halone other hpid)
  · intro other job hpc
    by_cases hpid : other = pid
    · subst hpid
      exact hheld
    · have hpc : ((s.put pid _).readers other).pc = .locked job := hpc
      rw [readers_put_of_ne s _ hpid] at hpc
      exact h.locked other job hpc

theorem Inv.appendTo (h : Inv format s) {pid : Nat} (job : Job) {record : LogFileBuilder}
    (hrecord : record ≠ {}) (hheld : s.holder = some pid)
    (hend : (s.readers pid).redTo ≠ 0 → (s.readers pid).redTo = s.fileLength format) :
    Inv format (s.appendTo format pid job record) := by
  unfold SharedLog.appendTo
  by_cases hstart : (s.readers pid).redTo = 0
  · rw [if_pos hstart]
    by_cases hempty : s.fileLength format = 0
    · rw [if_pos hempty]
      exact h.writeLogFragment (by decide) hheld (by rw [hstart, hempty])
    · rw [if_neg hempty]
      exact h.throws job hheld
  · rw [if_neg hstart]
    exact h.writeLogFragment hrecord hheld (hend hstart)

theorem Inv.append (h : Inv format s) (pid : Nat) (record : LogFileBuilder)
    (hup : s.UpToDate format (.append pid record)) : Inv format (s.append format pid record) := by
  unfold SharedLog.append
  by_cases hrecord : record = {}
  · rw [if_pos hrecord]
    exact h
  · rw [if_neg hrecord]
    split
    · rename_i hpc
      exact h.appendTo _ hrecord (h.locked pid _ hpc) (hup hpc)
    · rename_i hpc
      obtain ⟨hheld, hend⟩ := h.pulled pid _ hpc
      exact h.appendTo _ hrecord hheld (fun _ => hend)
    · rename_i hpc
      by_cases hstart : (s.readers pid).redTo = 0
      · rw [if_pos hstart]
        exact h
      · rw [if_neg hstart]
        obtain ⟨hheld, hend⟩ := h.pulled pid _ hpc
        exact h.writeLogFragment hrecord hheld hend
    · exact h

theorem Inv.unlock (h : Inv format s) (pid : Nat) : Inv format (s.unlock pid) := by
  unfold SharedLog.unlock
  dsimp only
  split
  · rename_i hpc
    exact h.release (h.locked pid _ hpc)
  · rename_i job hpc
    exact h.release (h.pulled pid job hpc).1
  · exact h

theorem Inv.step (h : Inv format s) (e : LogEvent) (hup : s.UpToDate format e) :
    Inv format (s.step format e) := by
  cases e with
  | stat pid => exact h.stat pid
  | lock pid job => exact h.lock pid job
  | pull pid => exact h.pull pid
  | append pid record => exact h.append pid record hup
  | unlock pid => exact h.unlock pid

theorem Inv.empty : Inv format {} where
  records := fun _ hrecord => by cases hrecord
  attends := fun _ => ⟨0, rfl, Machine.follows_join_start (fun _ hwritten => by cases hwritten)⟩
  pulled := fun _ _ hpc => by cases hpc
  locked := fun _ _ hpc => by cases hpc

/-! ## §6. Every run. -/

/-- A call of a process, from the lock to its release. -/
def call (pid : Nat) (job : Job) (records : List LogFileBuilder) : List LogEvent :=
  [.lock pid job, .pull pid] ++ records.map (.append pid) ++ [.unlock pid]

def bundleRecord (n : Byte) : LogFileBuilder := { bundles := [sampleBundle n] }

def keyPairRecord (n : Byte) : LogFileBuilder :=
  { keyPairs := [⟨List.replicate 32 n, List.replicate 32 n⟩] }

/-- One process starts the file, and another one writes to it. -/
def twoWriters : List LogEvent :=
  call 1 .addBundle [magic, bundleRecord 1] ++ call 2 .addBundle [bundleRecord 2]

end SharedLog

end Js

end Gink
