/-
  Gink.Memory.Clearances — which clearances a `MemoryStore` holds.

  Nothing deletes a row of `_clearances`, with or without history: the dictionary holds
  every clearance that was ever applied.
-/
import Gink.Memory.Retained

namespace Gink

namespace Memory

open Gink.Action

/-- The key of every row spells a container and an address with a time and a
medallion. -/
def ClearanceKeys (t : Table Bytes ClearanceBuilder) : Prop :=
  ∀ row ∈ t.rows, ∃ container z : Muid,
    row.1 = container.toBytes ++ z.toBytes ∧ z.timeField.val ≠ 0 ∧ z.medallionField.val ≠ 0

/-- The container has a row for the clearance. -/
def Recorded (c : Contents) (container z : Muid) : Prop :=
  ∃ value, (container.toBytes ++ z.toBytes, value) ∈ c.clearances.rows

/-! ## §1. Entries and movements leave clearances and containers alone. -/

/-- What is said of the containers and the clearances only. -/
def Beside (P : Table Muid ContainerBuilder → Table Bytes ClearanceBuilder → Prop) (c : Contents) :
    Prop :=
  P c.containers c.clearances

section
variable {P : Table Muid ContainerBuilder → Table Bytes ClearanceBuilder → Prop}

theorem Beside.shrunk {c c' : Contents} (h : Beside P c) (hless : Shrunk c c') : Beside P c' := by
  unfold Beside
  rw [hless.containers, hless.clearances]
  exact h

theorem Beside.aside {c c' : Contents} (h : Beside P c) (hsame : SameRows c c') : Beside P c' :=
  h.shrunk hsame.shrunk

theorem addToTotal_beside (container : Muid) (builder : EntryBuilder) :
    Keeps (Beside P) (addToTotal container builder) := by
  unfold addToTotal
  split_ifs
  · apply Keeps.get_bind
    intro c hc
    cases integerOf builder <;> exact hc
  · exact Keeps.pure _

theorem addEntry_beside (retaining : Bool) (now : Int) (info : BundleInfo) (offset : Nat)
    (builder : EntryBuilder) : Keeps (Beside P) (addEntry retaining now info offset builder) :=
  addEntry_keeps Beside.aside (fun _ => addToTotal_beside _ _)
    (fun _ => (replaceFound_shrinks _ _ _ _).keeps Beside.shrunk)
    fun _ _ _ _ => Keeps.modify fun _ hc => hc

theorem placeMoved_beside (dest : Int) (container entryMuid movementMuid : Muid)
    (expiry : Option Int) (old : Bytes) :
    Keeps (Beside P) (placeMoved dest container entryMuid movementMuid expiry old) := by
  unfold placeMoved
  split_ifs
  · refine Keeps.of_bind fun bytes _ => Keeps.get_bind fun c hc => ?_
    cases c.placements.get? old <;> exact hc
  · exact Keeps.modify fun c hc => hc

theorem addMovement_beside (info : BundleInfo) (offset : Nat) (builder : MovementBuilder) :
    Keeps (Beside P) (addMovement info offset builder) :=
  addMovement_keeps Beside.aside fun _ _ _ _ _ _ _ => placeMoved_beside _ _ _ _ _ _

end

/-! ## §2. What holds of the clearances in every run. -/

/-- A clearance adds a row, and no other change touches them. -/
theorem applyChange_clearanceKeys (retaining : Bool) (now : Int) (info : BundleInfo) (offset : Nat)
    (change : ChangeBuilder) :
    Keeps (fun c => ClearanceKeys c.clearances) (applyChange retaining now info offset change) := by
  cases change with
  | unset => exact Keeps.of (.error (.valueError "didn't recognize change"))
  | container builder => exact Keeps.of_bind fun _ _ => Keeps.modify fun c hc => hc
  | entry builder =>
      refine Keeps.of_bind fun muid _ => Keeps.bind ?_ fun _ =>
        addEntry_beside (P := fun _ clearances => ClearanceKeys clearances) _ _ _ _ _
      apply Keeps.get_bind
      intro c hc
      split_ifs <;> exact hc
  | movement builder =>
      exact addMovement_beside (P := fun _ clearances => ClearanceKeys clearances) info offset builder
  | clearance builder =>
      refine Keeps.of_bind fun container _ => Keeps.of_bind fun clearance hm => Keeps.modify ?_
      intro c hc row hrow
      rcases Table.mem_rows_put.mp hrow with rfl | ⟨-, hrow⟩
      · exact ⟨container, clearance, rfl, create_timeField hm, changeMuid_medallion hm⟩
      · exact hc row hrow

/-- **In every state of every run**, with history or without. -/
theorem runCalls_clearanceKeys (lib : Externals) (symmetricKeys : List (Nat × Bytes))
    (retaining : Bool) (calls : List Call) :
    ClearanceKeys (runCalls lib (newStore symmetricKeys retaining) calls).contents.clearances := by
  have hstart : StoreKeeps retaining (fun c => ClearanceKeys c.clearances)
      (newStore symmetricKeys retaining) := ⟨rfl, by simp [ClearanceKeys, newStore]⟩
  exact (runCalls_keeps (applyChange_clearanceKeys retaining) lib calls _ hstart).2

end Memory

end Gink
