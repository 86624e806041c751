/-
  Gink.Lmdb.Retention — switching the retention of history on and off (lmdb_store.py).

  `stop_history` clears the flag in one transaction and drops the history in another.  The
  second rolls back when something is raised, the first has been committed by then.
-/
import Gink.Lmdb.Aside
import Gink.Lmdb.Store
import Gink.Stores.TakenIn

namespace Gink

namespace Lmdb

/-! ## §1. The methods. -/

/-- The loop of `drop_history`, on the rows from the cursor on.  Deleting under the cursor moves
it to the next row; past the last one the key is empty, which ends the loop. -/
def dropRemovals (asOf : Int) : List (Bytes × Bytes) → Contents → Except Error Contents
  | [], c => .ok c
  | row :: rest, c =>
      if row.1 = [] then .ok c
      else do
        let timestamp ← decodeMuts row.1
        let timestamp ← orRaise (.assertionError "removal with 0 timestamp?") timestamp
        if timestamp > asOf then return c
        else
          let removal ← RemovalKey.fromBytes row.2
          let c ← removeEntry removal.removing c
          let removals ← deleteRow c.removals row.2
          dropRemovals asOf rest { c with
            removals, removalsByTime := c.removalsByTime.erase row.1 }

/-- `drop_history(as_of)`, once the time is resolved. -/
def dropHistory (asOf : Int) (s : Store) : Outcome Unit :=
  match dropRemovals asOf s.db.contents.removalsByTime.rows s.db.contents with
  | .error e => ⟨s, [], .error e⟩
  | .ok contents => ⟨{ s with db := { s.db with contents } }, [], .ok ()⟩

/-- `start_history()`. -/
def startHistory (s : Store) : Store := { s with db := { s.db with retainEntries := true } }

/-- `stop_history()`; `now` is what `generate_timestamp()` returns. -/
def stopHistory (now : Int) (s : Store) : Outcome Unit :=
  dropHistory now { s with db := { s.db with retainEntries := false } }

/-- Dropping history takes entries away and adds none. -/
theorem dropRemovals_shrunk (asOf : Int) (rows : List (Bytes × Bytes)) (c : Contents) :
    ∀ c', dropRemovals asOf rows c = .ok c' → Shrunk c c' := by
  fun_induction dropRemovals asOf rows c with
  | case1 c =>
      intro c' h
      injection h with h
      rw [h]
      exact .refl _
  | case2 row rest c hempty =>
      intro c' h
      injection h with h
      rw [h]
      exact .refl _
  | case3 row rest c hkey ih =>
      intro c' h
      obtain ⟨decoded, -, h⟩ := bind_eq_ok.mp h
      obtain ⟨timestamp, -, h⟩ := bind_eq_ok.mp h
      split_ifs at h with hlater
      · rw [← pure_eq_ok.mp h]
        exact .refl _
      · obtain ⟨removal, -, h⟩ := bind_eq_ok.mp h
        obtain ⟨c₁, hremove, h⟩ := bind_eq_ok.mp h
        obtain ⟨removals, -, h⟩ := bind_eq_ok.mp h
        have hrest := ih c₁ removals c' h
        have hone := removeEntry_shrunk hremove
        exact ⟨fun row hrow => hone.entries row (hrest.entries row hrow),
          hrest.containers.trans hone.containers, hrest.clearances.trans hone.clearances,
          hrest.totals.trans hone.totals⟩

/-! ## §2. Runs. -/

/-- A call of `apply_bundle`, or one that has to do with the retention of history. -/
inductive Turn where
  | apply (call : Call)
  | startHistory
  | stopHistory (now : Int)
  | dropHistory (asOf : Int)

/-- The store that the call leaves. -/
def Turn.run (lib : Externals) (s : Store) : Turn → Store
  | .apply call => (call.run lib s).store
  | .startHistory => Lmdb.startHistory s
  | .stopHistory now => (Lmdb.stopHistory now s).store
  | .dropHistory asOf => (Lmdb.dropHistory asOf s).store

/-- The changes of the bundle it takes in. -/
def Turn.ops (lib : Externals) (s : Store) : Turn → List Op
  | .apply call => (takenIn lib call.bundle s.db.lastInfos
      (call.run lib s).store.db.lastInfos).flatMap (·.ops lib s.db.symmetricKey)
  | _ => []

/-- The store after calls one after the other. -/
def runTurns (lib : Externals) : Store → List Turn → Store
  | s, [] => s
  | s, turn :: rest => runTurns lib (turn.run lib s) rest

/-- The changes taken in by them. -/
def opsTaken (lib : Externals) : Store → List Turn → List Op
  | _, [] => []
  | s, turn :: rest => turn.ops lib s ++ opsTaken lib (turn.run lib s) rest

/-- The call leaves the retention of history on if it is on. -/
def Turn.Retains : Turn → Prop
  | .apply _ | .startHistory => True
  | .stopHistory _ | .dropHistory _ => False

section
variable {lib : Externals}

/-- A call keeps what every change keeps. -/
theorem Call.along {P : List Op → Contents → Prop} {s : Store} {call : Call} {ops : List Op}
    (hstep : ∀ committed info ops offset change seen seen' c c', P ops c →
      applyChange lib committed s.db.retainEntries info offset seen c change = (seen', .ok c') →
      P (ops ++ [⟨info, offset, change⟩]) c')
    (happly : s.applyChanges = true) (h : P ops s.db.contents) :
    P (ops ++ (Turn.apply call).ops lib s) (call.run lib s).store.db.contents := by
  show P (ops ++ (takenIn lib call.bundle s.db.lastInfos
    (call.run lib s).store.db.lastInfos).flatMap (·.ops lib s.db.symmetricKey)) _
  rcases Call.taken lib s call with ⟨htaken, hdb⟩ | ⟨builder, info, htaken, -, -, hwritten⟩
  · rw [htaken, hdb, List.flatMap_nil, List.append_nil]
    exact h
  · obtain ⟨changes, hchanges, happlied⟩ := (writeBundle_ok hwritten).1.contents
    have hops : (TakenIn.mk builder info).ops lib s.db.symmetricKey = opsFrom info 1 changes := by
      unfold TakenIn.ops
      have hopen : openChanges lib s.db.symmetricKey builder = .ok changes := hchanges
      simp only [hopen]
    have hon : (refreshHelper s call.callback).store.applyChanges = true := happly
    rw [if_pos hon] at happlied
    rw [htaken, List.flatMap_singleton, hops]
    exact applyChangesFrom_along (fun ops offset change seen seen' c c' => hstep _ _ ops offset
      change seen seen' c c') h happlied

/-- The flags that a call does not write to. -/
theorem Call.flags (s : Store) (call : Call) :
    (call.run lib s).store.applyChanges = s.applyChanges ∧
      (call.run lib s).store.db.retainEntries = s.db.retainEntries := by
  cases applyBundle_step lib s call.bundle call.callback call.claimChain call.clock with
  | kept hdb hflag _ => exact ⟨hflag, congrArg Db.retainEntries hdb⟩
  | committed builder _ info _ _ hw hflag _ => exact ⟨hflag, hw.retainEntries⟩

/-- Dropping history keeps what the loop keeps, and leaves everything when that raises. -/
theorem dropHistory_retains {P : Contents → Prop} {asOf : Int} {s : Store}
    (hdrop : ∀ rows c', dropRemovals asOf rows s.db.contents = .ok c' → P c')
    (h : P s.db.contents) :
    P (dropHistory asOf s).store.db.contents ∧
      (dropHistory asOf s).store.applyChanges = s.applyChanges ∧
      (dropHistory asOf s).store.db.retainEntries = s.db.retainEntries := by
  unfold dropHistory
  cases hloop : dropRemovals asOf s.db.contents.removalsByTime.rows s.db.contents with
  | error e => exact ⟨h, rfl, rfl⟩
  | ok contents => exact ⟨hdrop _ _ hloop, rfl, rfl⟩

/-- **What every change keeps, every run keeps**: under the settings of the flag that `R` allows,
and when dropping history keeps it if these include no history. -/
theorem runTurns_along {P : List Op → Contents → Prop} {R : Bool → Prop}
    (hstep : ∀ committed retaining info ops offset change seen seen' c c', R retaining →
      P ops c → applyChange lib committed retaining info offset seen c change = (seen', .ok c') →
      P (ops ++ [⟨info, offset, change⟩]) c')
    (hon : R true)
    (hdrop : R false → ∀ ops asOf rows c c', P ops c → dropRemovals asOf rows c = .ok c' → P ops c')
    {turns : List Turn} :
    ∀ {s : Store} {ops : List Op}, (∀ turn ∈ turns, turn.Retains ∨ R false) →
      s.applyChanges = true → R s.db.retainEntries → P ops s.db.contents →
      P (ops ++ opsTaken lib s turns) (runTurns lib s turns).db.contents := by
  induction turns with
  | nil =>
      intro s ops _ _ _ h
      show P (ops ++ []) s.db.contents
      rw [List.append_nil]
      exact h
  | cons turn rest ih =>
      intro s ops hturns happly hflag h
      show P (ops ++ (turn.ops lib s ++ opsTaken lib (turn.run lib s) rest)) _
      rw [← List.append_assoc]
      have hrest : ∀ turn ∈ rest, turn.Retains ∨ R false :=
        fun turn hturn => hturns turn (List.mem_cons_of_mem _ hturn)
      have hone := hturns turn List.mem_cons_self
      cases turn with
      | apply call =>
          obtain ⟨happly', hflag'⟩ := @Call.flags lib s call
          refine ih hrest (happly'.trans happly) ?_ ?_
          · show R (call.run lib s).store.db.retainEntries
            rw [hflag']
            exact hflag
          · exact Call.along (fun _ _ _ _ _ _ _ _ _ hc => hstep _ _ _ _ _ _ _ _ _ _ hflag hc)
              happly h
      | startHistory =>
          refine ih hrest happly hon ?_
          show P (ops ++ []) s.db.contents
          rw [List.append_nil]
          exact h
      | stopHistory now =>
          have hoff := hone.resolve_left id
          obtain ⟨hdropped, happly', hflag'⟩ := @dropHistory_retains (P ops) now
            { s with db := { s.db with retainEntries := false } }
            (fun rows c' hloop => hdrop hoff _ _ _ _ _ h hloop) h
          refine ih hrest (happly'.trans happly) ?_ ?_
          · show R (stopHistory now s).store.db.retainEntries
            unfold stopHistory
            rw [hflag']
            exact hoff
          · show P (ops ++ []) _
            rw [List.append_nil]
            exact hdropped
      | dropHistory asOf =>
          have hoff := hone.resolve_left id
          obtain ⟨hdropped, happly', hflag'⟩ := @dropHistory_retains (P ops) asOf s
            (fun rows c' hloop => hdrop hoff _ _ _ _ _ h hloop) h
          refine ih hrest (happly'.trans happly) ?_ ?_
          · show R (dropHistory asOf s).store.db.retainEntries
            rw [hflag']
            exact hflag
          · show P (ops ++ []) _
            rw [List.append_nil]
            exact hdropped

end

end Lmdb

end Gink
