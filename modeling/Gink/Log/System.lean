/-
  Gink.Log.System — processes that share a log file.

  Each process has a `LogBackedStore` on the file and a `Database` on the store.  An event
  is one step of one process; a call that waits for the file lock is two events, so a step
  of another process may come between them.  An event that has to wait, or that makes no
  sense where it comes, changes nothing.
-/
import Gink.Log.Store
import Gink.Machine.Run

namespace Gink

namespace Log

/-- A call that is under way: the file lock is held and the store has caught up.  `lock`
says whether the call took the lock and has to release it. -/
inductive Pending where
  | apply (bundle : Decomposition) (callback : Option Callback) (claimChain lock : Bool)
  | reuse (identity : String) (lock : Bool)

/-- A process with its store and its database. -/
structure Process where
  store : LogStore := {}
  pending : Option Pending := none
  /-- the chain that `_acquire_appendable_link` was given and has not put to use yet -/
  offered : Option Chain := none
  /-- the chain of the database's `_last_link` -/
  link : Option Chain := none
  /-- for reference: how many bundles there were when it had opened the file -/
  opened : Nat := 0

/-- Where a process id stands; ids are not used again. -/
inductive Status where
  | unused
  | running (process : Process)
  | exited

/-- The file and the processes. -/
structure System where
  disk : Disk := {}
  status : U64 → Status := fun _ => .unused

/-- One step of one process. -/
inductive Event where
  /-- the process starts and opens the file -/
  | start (pid : U64) (exclusive : Bool) (clocks : Clocks)
  | beginApply (pid : U64) (bundle : Decomposition) (callback : Option Callback)
      (claimChain : Bool) (clocks : Clocks)
  | finishApply (pid : U64) (clock : Nat → Int) (claimTime : U64)
  | refresh (pid : U64) (callback : Option Callback) (clocks : Clocks)
  /-- a plain read, which starts with `_maybe_refresh()` -/
  | read (pid : U64) (clocks : Clocks)
  | beginReuse (pid : U64) (identity : String) (callback : Option Callback) (clocks : Clocks)
  | finishReuse (pid : U64) (claimTime : U64)
  /-- `_acquire_appendable_link` makes what it was given the link -/
  | adopt (pid : U64)
  | saveSigningKey (pid : U64) (key : SigningKey)
  | saveSymmetricKey (pid : U64) (key : Bytes)
  | exit (pid : U64)

namespace System

variable (env : Env)

/-- A process that has no call under way. -/
def idle (s : System) (pid : U64) : Option Process :=
  match s.status pid with
  | .running p => if p.pending.isNone then some p else none
  | _ => none

/-- `is_certainly_gone(process_id)`. -/
def gone (s : System) (pid : U64) : Bool :=
  match s.status pid with
  | .running _ => false
  | _ => true

/-- The file as the process finds it, and its own store. -/
def view (s : System) (p : Process) : View := ⟨s.disk, p.store⟩

/-- The process after code of its own, with the file as the code left it. -/
def put (s : System) (pid : U64) (v : View) (p : Process) : System where
  disk := v.disk
  status := Function.update s.status pid (.running { p with store := v.store })

/-- Code of a process runs; `next` says what the process goes on with after an answer,
and an exception ends the call. -/
def perform {α : Type} (s : System) (pid : U64) (p : Process) (x : Action View α)
    (next : α → Process) : System :=
  match x (s.view p) with
  | .ok a v => s.put pid v (next a)
  | .error _ v => s.put pid v { p with pending := none }

/-- The process has the lock, or may take it. -/
def mayLock (s : System) (pid : U64) (p : Process) : Bool :=
  p.store.flocked || s.disk.mayLock pid

/-- The process has the lock, need not take it, or may take it together with others. -/
def mayRead (s : System) (pid : U64) (p : Process) : Bool :=
  p.store.flocked || s.disk.mayShare pid ||
    decide (env.format.total s.disk.contents = p.store.processedTo)

/-- A store is opened; without one the process has nothing to do with the file. -/
def opened (s : System) (pid : U64) (exclusive : Bool) (clocks : Clocks) : System :=
  match openFile env pid exclusive clocks (s.view {}) with
  | .ok _ v => s.put pid v { opened := (items v.disk.records).length }
  | .error _ v =>
      { disk := (v.unlock pid).disk, status := Function.update s.status pid .exited }

/-- The process ends, and with it its hold on the file. -/
def left (s : System) (pid : U64) (p : Process) : System where
  disk := ((s.view p).unlock pid).disk
  status := Function.update s.status pid .exited

/-- The rest of a call of `apply_bundle`. -/
def applied (s : System) (pid : U64) (p : Process) (bundle : Decomposition)
    (callback : Option Callback) (claimChain lock : Bool) (clock : Nat → Int) (claimTime : U64) :
    System :=
  s.perform pid p (finishApply env pid bundle callback claimChain lock clock claimTime) fun _ =>
    { p with
      pending := none
      offered := if claimChain then (bundle.getInfo env.lib).toOption.map (·.chain)
        else p.offered }

/-- The system after an event. -/
def step (s : System) : Event → System
  | .start pid exclusive clocks =>
      match s.status pid with
      | .unused => if s.disk.mayLock pid then s.opened env pid exclusive clocks else s
      | _ => s
  | .beginApply pid bundle callback claimChain clocks =>
      match s.idle pid with
      | some p =>
          if s.mayLock pid p && !(claimChain && p.link.isSome) then
            s.perform pid p (Log.beginApply env pid callback clocks) fun lock =>
              { p with pending := some (.apply bundle callback claimChain lock) }
          else s
      | none => s
  | .finishApply pid clock claimTime =>
      match s.status pid with
      | .running p => match p.pending with
          | some (.apply bundle callback claimChain lock) =>
              s.applied env pid p bundle callback claimChain lock clock claimTime
          | _ => s
      | _ => s
  | .refresh pid callback clocks =>
      match s.idle pid with
      | some p =>
          if s.mayLock pid p then s.perform pid p (Log.refresh env pid callback clocks) fun _ => p
          else s
      | none => s
  | .read pid clocks =>
      match s.idle pid with
      | some p =>
          if s.mayRead env pid p then s.perform pid p (maybeRefresh env pid clocks) fun _ => p
          else s
      | none => s
  | .beginReuse pid identity callback clocks =>
      match s.idle pid with
      | some p =>
          if s.mayLock pid p && p.link.isNone then
            s.perform pid p (Log.beginReuse env pid callback clocks) fun lock =>
              { p with pending := some (.reuse identity lock) }
          else s
      | none => s
  | .finishReuse pid claimTime =>
      match s.status pid with
      | .running p => match p.pending with
          | some (.reuse identity lock) =>
              s.perform pid p (Log.finishReuse env pid s.gone identity lock claimTime) fun found =>
                { p with pending := none, offered := found.map (·.chain) }
          | _ => s
      | _ => s
  | .adopt pid =>
      match s.idle pid with
      | some p => match p.offered with
          | some chain => s.put pid (s.view p) { p with offered := none, link := some chain }
          | none => s
      | none => s
  | .saveSigningKey pid key =>
      match s.idle pid with
      | some p => s.perform pid p (Log.saveSigningKey env pid key) fun _ => p
      | none => s
  | .saveSymmetricKey pid key =>
      match s.idle pid with
      | some p => s.perform pid p (Log.saveSymmetricKey env key) fun _ => p
      | none => s
  | .exit pid =>
      match s.status pid with
      | .running p => s.left pid p
      | _ => s

/-- What an event that takes effect does. -/
inductive Stepped (s : System) : Event → System → Prop
  | nothing (e : Event) : Stepped s e s
  | start {pid : U64} (exclusive : Bool) (clocks : Clocks) (hunused : s.status pid = .unused)
      (hmay : s.disk.mayLock pid = true) :
      Stepped s (.start pid exclusive clocks) (s.opened env pid exclusive clocks)
  | beginApply {pid : U64} {p : Process} (bundle : Decomposition) (callback : Option Callback)
      (claimChain : Bool) (clocks : Clocks) (hidle : s.idle pid = some p)
      (hmay : s.mayLock pid p = true) (hlink : claimChain = true → p.link = none) :
      Stepped s (.beginApply pid bundle callback claimChain clocks)
        (s.perform pid p (Log.beginApply env pid callback clocks) fun lock =>
          { p with pending := some (.apply bundle callback claimChain lock) })
  | finishApply {pid : U64} {p : Process} {bundle : Decomposition} {callback : Option Callback}
      {claimChain lock : Bool} (clock : Nat → Int) (claimTime : U64)
      (hrunning : s.status pid = .running p)
      (hcall : p.pending = some (.apply bundle callback claimChain lock)) :
      Stepped s (.finishApply pid clock claimTime)
        (s.applied env pid p bundle callback claimChain lock clock claimTime)
  | refresh {pid : U64} {p : Process} (callback : Option Callback) (clocks : Clocks)
      (hidle : s.idle pid = some p) (hmay : s.mayLock pid p = true) :
      Stepped s (.refresh pid callback clocks)
        (s.perform pid p (Log.refresh env pid callback clocks) fun _ => p)
  | read {pid : U64} {p : Process} (clocks : Clocks) (hidle : s.idle pid = some p)
      (hmay : s.mayRead env pid p = true) :
      Stepped s (.read pid clocks) (s.perform pid p (maybeRefresh env pid clocks) fun _ => p)
  | beginReuse {pid : U64} {p : Process} (identity : String) (callback : Option Callback)
      (clocks : Clocks) (hidle : s.idle pid = some p) (hmay : s.mayLock pid p = true)
      (hlink : p.link = none) :
      Stepped s (.beginReuse pid identity callback clocks)
        (s.perform pid p (Log.beginReuse env pid callback clocks) fun lock =>
          { p with pending := some (.reuse identity lock) })
  | finishReuse {pid : U64} {p : Process} {identity : String} {lock : Bool} (claimTime : U64)
      (hrunning : s.status pid = .running p) (hcall : p.pending = some (.reuse identity lock)) :
      Stepped s (.finishReuse pid claimTime)
        (s.perform pid p (Log.finishReuse env pid s.gone identity lock claimTime) fun found =>
          { p with pending := none, offered := found.map (·.chain) })
  | adopt {pid : U64} {p : Process} {chain : Chain} (hidle : s.idle pid = some p)
      (hoffered : p.offered = some chain) :
      Stepped s (.adopt pid) (s.put pid (s.view p) { p with offered := none, link := some chain })
  | saveSigningKey {pid : U64} {p : Process} (key : SigningKey) (hidle : s.idle pid = some p) :
      Stepped s (.saveSigningKey pid key)
        (s.perform pid p (Log.saveSigningKey env pid key) fun _ => p)
  | saveSymmetricKey {pid : U64} {p : Process} (key : Bytes) (hidle : s.idle pid = some p) :
      Stepped s (.saveSymmetricKey pid key)
        (s.perform pid p (Log.saveSymmetricKey env key) fun _ => p)
  | exit {pid : U64} {p : Process} (hrunning : s.status pid = .running p) :
      Stepped s (.exit pid) (s.left pid p)

/-- **A step** does nothing, or one of these. -/
theorem step_stepped (s : System) (e : Event) : Stepped env s e (s.step env e) := by
  cases e with
  | start pid exclusive clocks =>
      cases hstatus : s.status pid with
      | unused =>
          simp only [step, hstatus]
          split_ifs with hmay
          · exact .start exclusive clocks hstatus hmay
          · exact .nothing _
      | running p =>
          simp only [step, hstatus]
          exact .nothing _
      | exited =>
          simp only [step, hstatus]
          exact .nothing _
  | beginApply pid bundle callback claimChain clocks =>
      cases hidle : s.idle pid with
      | none =>
          simp only [step, hidle]
          exact .nothing _
      | some p =>
          simp only [step, hidle]
          split_ifs with hmay
          · rw [Bool.and_eq_true, Bool.not_eq_true', Bool.and_eq_false_iff] at hmay
            refine .beginApply bundle callback claimChain clocks hidle hmay.1 ?_
            intro hclaim
            rcases hmay.2 with hfalse | hnone
            · rw [hclaim] at hfalse
              exact absurd hfalse (by simp)
            · exact Option.isSome_eq_false_iff.mp hnone |> Option.isNone_iff_eq_none.mp
          · exact .nothing _
  | finishApply pid clock claimTime =>
      cases hstatus : s.status pid with
      | unused =>
          simp only [step, hstatus]
          exact .nothing _
      | exited =>
          simp only [step, hstatus]
          exact .nothing _
      | running p =>
          cases hcall : p.pending with
          | none =>
              simp only [step, hstatus, hcall]
              exact .nothing _
          | some call =>
              cases call with
              | apply bundle callback claimChain lock =>
                  simp only [step, hstatus, hcall]
                  exact .finishApply clock claimTime hstatus hcall
              | reuse identity lock =>
                  simp only [step, hstatus, hcall]
                  exact .nothing _
  | refresh pid callback clocks =>
      cases hidle : s.idle pid with
      | none =>
          simp only [step, hidle]
          exact .nothing _
      | some p =>
          simp only [step, hidle]
          split_ifs with hmay
          · exact .refresh callback clocks hidle hmay
          · exact .nothing _
  | read pid clocks =>
      cases hidle : s.idle pid with
      | none =>
          simp only [step, hidle]
          exact .nothing _
      | some p =>
          simp only [step, hidle]
          split_ifs with hmay
          · exact .read clocks hidle hmay
          · exact .nothing _
  | beginReuse pid identity callback clocks =>
      cases hidle : s.idle pid with
      | none =>
          simp only [step, hidle]
          exact .nothing _
      | some p =>
          simp only [step, hidle]
          split_ifs with hmay
          · rw [Bool.and_eq_true, Option.isNone_iff_eq_none] at hmay
            exact .beginReuse identity callback clocks hidle hmay.1 hmay.2
          · exact .nothing _
  | finishReuse pid claimTime =>
      cases hstatus : s.status pid with
      | unused =>
          simp only [step, hstatus]
          exact .nothing _
      | exited =>
          simp only [step, hstatus]
          exact .nothing _
      | running p =>
          cases hcall : p.pending with
          | none =>
              simp only [step, hstatus, hcall]
              exact .nothing _
          | some call =>
              cases call with
              | apply bundle callback claimChain lock =>
                  simp only [step, hstatus, hcall]
                  exact .nothing _
              | reuse identity lock =>
                  simp only [step, hstatus, hcall]
                  exact .finishReuse claimTime hstatus hcall
  | adopt pid =>
      cases hidle : s.idle pid with
      | none =>
          simp only [step, hidle]
          exact .nothing _
      | some p =>
          cases hoffered : p.offered with
          | none =>
              simp only [step, hidle, hoffered]
              exact .nothing _
          | some chain =>
              simp only [step, hidle, hoffered]
              exact .adopt hidle hoffered
  | saveSigningKey pid key =>
      cases hidle : s.idle pid with
      | none =>
          simp only [step, hidle]
          exact .nothing _
      | some p =>
          simp only [step, hidle]
          exact .saveSigningKey key hidle
  | saveSymmetricKey pid key =>
      cases hidle : s.idle pid with
      | none =>
          simp only [step, hidle]
          exact .nothing _
      | some p =>
          simp only [step, hidle]
          exact .saveSymmetricKey key hidle
  | exit pid =>
      cases hstatus : s.status pid with
      | unused =>
          simp only [step, hstatus]
          exact .nothing _
      | running p =>
          simp only [step, hstatus]
          exact .exit hstatus
      | exited =>
          simp only [step, hstatus]
          exact .nothing _

end System

end Log

end Gink
