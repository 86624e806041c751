/-
  Gink.Memory.Retention — switching the retention of history on and off (memory_store.py).
-/
import Gink.Memory.Accepted
import Gink.Memory.Aside
import Gink.Stores.TakenIn

namespace Gink

namespace Memory

open Gink.Action

/-! ## §1. The methods. -/

/-- `self._removals.pop(key)`. -/
def popRemoval (key : Bytes) : Action Contents Unit := do
  let c ← get
  let (_, removals) ← Action.of (popRow c.removals key)
  set { c with removals }

/-- The loop of `drop_history` over the keys that the removals had when it began. -/
def dropRemovals (asOf : Int) : List Bytes → Action Contents Unit
  | [] => pure ()
  | key :: rest => do
      let removal ← Action.of (RemovalKey.fromBytes key)
      if removal.movement.timestamp > asOf then pure ()
      else do
        removeEntry removal.removing
        popRemoval key
        dropRemovals asOf rest

/-- `drop_history(as_of)`, once the time is resolved. -/
def dropHistory (asOf : Int) : Action Store Unit := do
  let s ← get
  onContents (dropRemovals asOf (s.contents.removals.rows.map (·.1)))

/-- `start_history()`. -/
def startHistory (s : Store) : Store := { s with retainingEntries := true }

/-- `stop_history()`; `now` is what `generate_timestamp()` returns. -/
def stopHistory (now : Int) : Action Store Unit := do
  modify fun s => { s with retainingEntries := false }
  dropHistory now

/-- Dropping history adds nothing to the main dictionaries. -/
theorem dropRemovals_shrinks (asOf : Int) (keys : List Bytes) :
    Shrinks (dropRemovals asOf keys) := by
  induction keys with
  | nil => exact fun _ => Keeps.pure _
  | cons key rest ih =>
      intro c₀
      refine Keeps.of_bind fun removal _ => ?_
      split_ifs with hlater
      · exact Keeps.pure _
      · refine Keeps.bind (removeEntry_shrinks _ c₀) fun _ => Keeps.bind ?_ fun _ => ih c₀
        apply Keeps.get_bind
        intro c hc
        cases popRow c.removals key with
        | error e => exact hc
        | ok r => exact hc.trans ⟨fun _ h => h, fun _ h => h, rfl, rfl, rfl⟩

/-! ## §2. Runs. -/

/-- A call of `apply_bundle`, or one that has to do with the retention of history. -/
inductive Turn where
  | apply (call : Call)
  | startHistory
  | stopHistory (now : Int)
  | dropHistory (asOf : Int)

/-- The store that the call leaves. -/
def Turn.run (lib : Externals) (s : Store) : Turn → Store
  | .apply call => (call.run lib s).store
  | .startHistory => Memory.startHistory s
  | .stopHistory now => endState (Memory.stopHistory now s)
  | .dropHistory asOf => endState (Memory.dropHistory asOf s)

/-- The changes of the bundle it takes in. -/
def Turn.ops (lib : Externals) (s : Store) : Turn → List Op
  | .apply call => (takenIn lib call.bundle s.chainInfos.get?
      (call.run lib s).store.chainInfos.get?).flatMap (·.ops lib s.symmetricKey)
  | _ => []

/-- The store after calls one after the other. -/
def runTurns (lib : Externals) : Store → List Turn → Store
  | s, [] => s
  | s, turn :: rest => runTurns lib (turn.run lib s) rest

/-- The changes taken in by them. -/
def opsTaken (lib : Externals) : Store → List Turn → List Op
  | _, [] => []
  | s, turn :: rest => turn.ops lib s ++ opsTaken lib (turn.run lib s) rest

/-- The changes of the bundle that a call takes in are applied to the last: none raises. -/
def CallWhole (lib : Externals) (s : Store) (call : Call) : Prop :=
  ∀ b ∈ takenIn lib call.bundle s.chainInfos.get? (call.run lib s).store.chainInfos.get?,
    ∀ changes, openChanges lib s.symmetricKey b.builder = .ok changes →
      ∃ c, applyChangesFrom s.retainingEntries call.clock b.info 1 changes s.contents = .ok () c

/-- Every call of a run does so. -/
def Whole (lib : Externals) : Store → List Turn → Prop
  | _, [] => True
  | s, turn :: rest =>
      (∀ call, turn = .apply call → CallWhole lib s call) ∧ Whole lib (turn.run lib s) rest

/-- The call leaves the retention of history on if it is on. -/
def Turn.Retains : Turn → Prop
  | .apply _ | .startHistory => True
  | .stopHistory _ | .dropHistory _ => False

/-- What relates the changes so far to the dictionaries, and is kept by one more, holds after
the changes of a bundle. -/
theorem applyChangesFrom_along {retaining : Bool} {clock : Nat → Int} {info : BundleInfo}
    {P : List Op → Contents → Prop}
    (hstep : ∀ ops now offset change c c', P ops c →
      applyChange retaining now info offset change c = .ok () c' →
      P (ops ++ [⟨info, offset, change⟩]) c')
    {changes : List ChangeBuilder} :
    ∀ {ops : List Op} {offset : Nat} {c c' : Contents}, P ops c →
      applyChangesFrom retaining clock info offset changes c = .ok () c' →
      P (ops ++ opsFrom info offset changes) c' := by
  induction changes with
  | nil =>
      intro ops offset c c' hc h
      unfold applyChangesFrom at h
      rw [pure_apply, EStateM.Result.ok.injEq] at h
      rw [opsFrom_nil, List.append_nil]
      exact h.2 ▸ hc
  | cons change rest ih =>
      intro ops offset c c' hc h
      unfold applyChangesFrom at h
      obtain ⟨u, c₁, hone, h⟩ := Action.bind_eq_ok.mp h
      have hrest := ih (hstep _ _ _ _ _ _ hc hone) h
      rw [List.append_assoc] at hrest
      exact hrest

section
variable {lib : Externals}

/-- A call keeps what every change keeps. -/
theorem Call.along {P : List Op → Contents → Prop} {s : Store} {call : Call} {ops : List Op}
    (hstep : ∀ info ops now offset change c c', P ops c →
      applyChange s.retainingEntries now info offset change c = .ok () c' →
      P (ops ++ [⟨info, offset, change⟩]) c')
    (hwhole : CallWhole lib s call) (h : P ops s.contents) :
    P (ops ++ (Turn.apply call).ops lib s) (call.run lib s).store.contents := by
  show P (ops ++ (takenIn lib call.bundle s.chainInfos.get?
    (call.run lib s).store.chainInfos.get?).flatMap (·.ops lib s.symmetricKey)) _
  rcases Call.taken lib s call with ⟨htaken, -, hcontents⟩ | ⟨b, htaken, -, -, hcontents⟩
  · rw [htaken, hcontents, List.flatMap_nil, List.append_nil]
    exact h
  · have hb := hwhole b (by rw [htaken]; exact List.mem_singleton_self b)
    rw [htaken, List.flatMap_singleton, hcontents]
    unfold Store.applied TakenIn.ops
    cases hopen : openChanges lib s.symmetricKey b.builder with
    | error e =>
        simp only
        rw [List.append_nil]
        exact h
    | ok changes =>
        obtain ⟨c, hc⟩ := hb changes hopen
        simp only
        rw [hc]
        exact applyChangesFrom_along (fun ops now offset change c c' => hstep _ ops now offset
          change c c') h hc

/-- Dropping history adds nothing, also when it raises. -/
theorem dropHistory_shrunk (asOf : Int) (s : Store) :
    Shrunk s.contents (endState (dropHistory asOf s)).contents ∧
      (endState (dropHistory asOf s)).retainingEntries = s.retainingEntries := by
  unfold dropHistory
  rw [get_bind]
  unfold onContents
  rw [endState_within]
  exact ⟨dropRemovals_shrinks asOf _ s.contents s.contents (Shrunk.refl _), rfl⟩

/-- **What every change keeps, every run keeps** whose bundles are applied to the last: under the
settings of the flag that `R` allows, and when history is dropped if these include no history. -/
theorem runTurns_along {P : List Op → Contents → Prop} {R : Bool → Prop}
    (hstep : ∀ retaining info ops now offset change c c', R retaining → P ops c →
      applyChange retaining now info offset change c = .ok () c' →
      P (ops ++ [⟨info, offset, change⟩]) c')
    (hon : R true) (hdrop : R false → ∀ ops c c', P ops c → Shrunk c c' → P ops c')
    {turns : List Turn} :
    ∀ {s : Store} {ops : List Op}, (∀ turn ∈ turns, turn.Retains ∨ R false) →
      Whole lib s turns → R s.retainingEntries → P ops s.contents →
      P (ops ++ opsTaken lib s turns) (runTurns lib s turns).contents := by
  induction turns with
  | nil =>
      intro s ops _ _ _ h
      show P (ops ++ []) s.contents
      rw [List.append_nil]
      exact h
  | cons turn rest ih =>
      intro s ops hturns hwhole hflag h
      show P (ops ++ (turn.ops lib s ++ opsTaken lib (turn.run lib s) rest)) _
      rw [← List.append_assoc]
      have hrest : ∀ turn ∈ rest, turn.Retains ∨ R false :=
        fun turn hturn => hturns turn (List.mem_cons_of_mem _ hturn)
      have hone := hturns turn List.mem_cons_self
      cases turn with
      | apply call =>
          refine ih hrest hwhole.2 ?_ ?_
          · show R (call.run lib s).store.retainingEntries
            unfold Call.run
            rw [(applyBundle_aside s call.bundle call.callback call.clock).retainingEntries]
            exact hflag
          · exact Call.along (fun _ _ _ _ _ _ _ hc => hstep _ _ _ _ _ _ _ _ hflag hc)
              (hwhole.1 call rfl) h
      | startHistory =>
          refine ih hrest hwhole.2 hon ?_
          show P (ops ++ []) s.contents
          rw [List.append_nil]
          exact h
      | stopHistory now =>
          have hoff := hone.resolve_left id
          obtain ⟨hshrunk, hflag'⟩ := dropHistory_shrunk now { s with retainingEntries := false }
          refine ih hrest hwhole.2 ?_ ?_
          · show R (endState (dropHistory now { s with retainingEntries := false })).retainingEntries
            rw [hflag']
            exact hoff
          · show P (ops ++ []) _
            rw [List.append_nil]
            exact hdrop hoff _ _ _ h hshrunk
      | dropHistory asOf =>
          have hoff := hone.resolve_left id
          obtain ⟨hshrunk, hflag'⟩ := dropHistory_shrunk asOf s
          refine ih hrest hwhole.2 ?_ ?_
          · show R (endState (dropHistory asOf s)).retainingEntries
            rw [hflag']
            exact hflag
          · show P (ops ++ []) _
            rw [List.append_nil]
            exact hdrop hoff _ _ _ h hshrunk

end

end Memory

end Gink
