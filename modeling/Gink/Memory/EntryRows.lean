/-
  Gink.Memory.EntryRows — which entries a `MemoryStore` holds, with history and without.

  The dictionaries lose rows in many ways and gain them in few, so what every entry of the
  applied bundles has, every stored entry has.
-/
import Gink.Memory.Clearances
import Gink.Proto.Ops
import Gink.Stores.ResetEntries

namespace Gink

namespace Memory

open Gink.Action

/-! ## §1. The stored entries. -/

/-- Every stored entry has `P`, and every placement is placed by an address with a
medallion. -/
structure Stocked (P : EntryBuilder → Prop) (c : Contents) : Prop where
  entries : ∀ row ∈ c.entries.rows, P row.2
  placers : ∀ row ∈ c.placements.rows, ∀ m : Muid, Placement.placerSlice row.1 = m.toBytes →
    m.medallionField.val ≠ 0

section
variable {P : EntryBuilder → Prop}

/-- A loss of entries and placements does not break it. -/
theorem Stocked.shrunk {c c' : Contents} (h : Stocked P c) (hless : Shrunk c c') : Stocked P c' :=
  ⟨fun row hrow => h.entries row (hless.entries row hrow),
    fun row hrow => h.placers row (hless.placements row hrow)⟩

theorem Stocked.aside {c c' : Contents} (h : Stocked P c) (hsame : SameRows c c') : Stocked P c' :=
  h.shrunk hsame.shrunk

theorem Stocked.frame {c c' : Contents} (h : Stocked P c) (he : c'.entries = c.entries)
    (hp : c'.placements = c.placements) : Stocked P c' := by
  refine ⟨?_, ?_⟩
  · rw [he]
    exact h.entries
  · rw [hp]
    exact h.placers

theorem addToTotal_stocked (container : Muid) (builder : EntryBuilder) :
    Keeps (Stocked P) (addToTotal container builder) := by
  unfold addToTotal
  split_ifs
  · apply Keeps.get_bind
    intro c hc
    cases integerOf builder with
    | error e => exact hc
    | ok amount => exact hc.frame rfl rfl
  · exact Keeps.pure _

theorem Stocked.readEntry {c : Contents} (hc : Stocked P c) {muid : Muid} {builder : EntryBuilder}
    (h : readEntry c muid = .ok builder) : P builder :=
  hc.entries _ (Table.get?_eq_some_iff.mp (orRaise_eq_ok.mp h))

/-- A new placement. -/
theorem placers_put {t : Table Bytes Muid} {p : Placement} {bytes : Bytes} {value : Muid}
    (h : ∀ row ∈ t.rows, ∀ m : Muid, Placement.placerSlice row.1 = m.toBytes →
      m.medallionField.val ≠ 0)
    (hb : p.toBytes = .ok bytes) (hplacer : p.placer.medallionField.val ≠ 0) :
    ∀ row ∈ (t.put bytes value).rows, ∀ m : Muid, Placement.placerSlice row.1 = m.toBytes →
      m.medallionField.val ≠ 0 := by
  intro row hrow m hm
  rcases Table.mem_rows_put.mp hrow with rfl | ⟨-, hrow⟩
  · rw [Placement.placer_of_toBytes hb] at hm
    rw [← Muid.toBytes_injective hm]
    exact hplacer
  · exact h row hrow m hm

theorem storeEntry_stocked {builder : EntryBuilder} {placement : Placement} {bytes : Bytes}
    (hnew : P builder) (hb : placement.toBytes = .ok bytes)
    (hplacer : placement.placer.medallionField.val ≠ 0) :
    Keeps (Stocked P) (storeEntry builder placement bytes) := by
  intro c hc
  refine ⟨?_, placers_put hc.placers hb hplacer⟩
  intro row hrow
  rcases Table.mem_rows_put.mp hrow with rfl | ⟨-, hrow⟩
  · exact hnew
  · exact hc.entries row hrow

theorem addEntry_stocked (retaining : Bool) (now : Int) (info : BundleInfo) (offset : Nat)
    {builder : EntryBuilder} (hnew : P builder) :
    Keeps (Stocked P) (addEntry retaining now info offset builder) := by
  refine addEntry_keeps Stocked.aside (fun _ => addToTotal_stocked _ _)
    (fun _ => (replaceFound_shrinks _ _ _ _).keeps Stocked.shrunk) ?_
  intro placement bytes hp hb
  exact storeEntry_stocked hnew hb (changeMuid_medallion (Placement.fromBuilder_eq_ok hp).1)

theorem placeMoved_stocked (dest : Int) (container entryMuid : Muid) {movementMuid : Muid}
    (expiry : Option Int) (old : Bytes) (hm : movementMuid.medallionField.val ≠ 0) :
    Keeps (Stocked P) (placeMoved dest container entryMuid movementMuid expiry old) := by
  unfold placeMoved
  split_ifs
  · refine Keeps.of_bind fun bytes hb => Keeps.get_bind fun c hc => ?_
    cases c.placements.get? old with
    | none => exact hc
    | some moved => exact ⟨hc.entries, placers_put hc.placers hb hm⟩
  · exact Keeps.modify fun c hc => hc.frame rfl rfl

theorem addMovement_stocked (info : BundleInfo) (offset : Nat) (builder : MovementBuilder) :
    Keeps (Stocked P) (addMovement info offset builder) :=
  addMovement_keeps Stocked.aside fun _ _ _ _ _ _ hm =>
    placeMoved_stocked _ _ _ _ _ (changeMuid_medallion hm)

/-- **One turn of the loop** keeps it, when an entry that is added has `P`. -/
theorem applyChange_stocked (retaining : Bool) (now : Int) (info : BundleInfo) (offset : Nat)
    {change : ChangeBuilder} (hnew : ∀ e, change = .entry e → P e) :
    Keeps (Stocked P) (applyChange retaining now info offset change) := by
  cases change with
  | unset => exact Keeps.of (.error (.valueError "didn't recognize change"))
  | container builder =>
      exact Keeps.of_bind fun _ _ => Keeps.modify fun c hc => hc.frame rfl rfl
  | entry builder =>
      refine Keeps.of_bind fun muid _ => Keeps.bind ?_ fun _ =>
        addEntry_stocked retaining now info offset (hnew builder rfl)
      apply Keeps.get_bind
      intro c hc
      split_ifs
      · exact hc.frame rfl rfl
      · exact hc
  | movement builder => exact addMovement_stocked info offset builder
  | clearance builder =>
      exact Keeps.of_bind fun container _ => Keeps.of_bind fun clearance _ =>
        Keeps.modify fun c hc => hc.frame rfl rfl

theorem applyChangesFrom_stocked (retaining : Bool) (clock : Nat → Int) (info : BundleInfo)
    {changes : List ChangeBuilder} (hnew : ∀ e, .entry e ∈ changes → P e) :
    ∀ offset, Keeps (Stocked P) (applyChangesFrom retaining clock info offset changes) := by
  induction changes with
  | nil => exact fun _ => Keeps.pure _
  | cons change rest ih =>
      intro offset
      exact Keeps.bind (applyChange_stocked _ _ _ _ fun e he => hnew e (he ▸ List.mem_cons_self))
        fun _ => ih (fun e he => hnew e (List.mem_cons_of_mem _ he)) (offset + 1)

/-! ## §2. Runs. -/

/-- The symmetric keys are as given, and the dictionaries as they should be. -/
def StoreStocked (P : EntryBuilder → Prop) (keys : List (Nat × Bytes)) (s : Store) : Prop :=
  s.symmetricKeys = keys ∧ Stocked P s.contents

/-- `_symmetric_keys[key_id]` of given keys. -/
def keyOf (keys : List (Nat × Bytes)) (keyId : U64) : Except Error Bytes :=
  orRaise (.keyError "symmetric_keys") (keys.lookup keyId.val)

variable {keys : List (Nat × Bytes)} {lib : Externals}

theorem applyNeeded_stocked (clock : Nat → Int) (bundle : Decomposition) (builder : BundleBuilder)
    (info : BundleInfo) (old : Option BundleInfo)
    (hnew : ∀ changes, openChanges lib (keyOf keys) builder = .ok changes →
      ∀ e, .entry e ∈ changes → P e) :
    Keeps (StoreStocked P keys) (applyNeeded lib clock bundle builder info old) := by
  have hkey : Keeps (StoreStocked P keys) (chainKey builder info old) := by
    unfold chainKey
    split_ifs
    · exact Keeps.bind (Keeps.modify fun s hs => hs) fun _ => Keeps.of_bind fun _ _ =>
        Keeps.bind (Keeps.modify fun s hs => hs) fun _ => Keeps.pure _
    · exact Keeps.get_bind fun s hs => Keeps.of_bind (fun _ _ => Keeps.of_bind fun _ _ =>
        Keeps.of_bind fun _ _ => Keeps.pure _) s hs
  refine Keeps.bind (Keeps.bind hkey fun key => Keeps.of_bind fun _ _ =>
    Keeps.modify fun s hs => hs) fun _ => ?_
  apply Keeps.get_bind
  intro s hs
  refine Keeps.of_bind (fun changes hchanges => ?_) s hs
  have hopened : openChanges lib (keyOf keys) builder = .ok changes := by
    rw [← hchanges]
    congr 1
    funext keyId
    unfold keyOf Store.symmetricKey
    rw [hs.1]
  intro t ht
  have happlied := applyChangesFrom_stocked s.retainingEntries clock info (hnew changes hopened) 1
    t.contents ht.2
  unfold onContents Action.within
  cases hr : applyChangesFrom s.retainingEntries clock info 1 changes t.contents with
  | ok u c =>
      rw [hr] at happlied
      exact ⟨ht.1, happlied⟩
  | error e c =>
      rw [hr] at happlied
      exact ⟨ht.1, happlied⟩

theorem applyBundle_stocked {s : Store} (bundle : Decomposition) (callback : Option Callback)
    (clock : Nat → Int) (hnew : EntriesOf P lib (keyOf keys) bundle) (h : StoreStocked P keys s) :
    StoreStocked P keys (applyBundle lib s bundle callback clock).store := by
  unfold applyBundle
  cases hb : bundle.getBuilder lib with
  | error e => exact h
  | ok builder =>
      simp only
      generalize BundleInfo.ofBuilder builder (lib.digest bundle.bundleBytes) = info
      cases isNeeded info (s.chainInfos.get? info.chain) with
      | error e => exact h
      | ok needed =>
          cases needed with
          | false => exact h
          | true =>
              simp only
              have happlied := applyNeeded_stocked clock bundle builder info
                (s.chainInfos.get? info.chain) (hnew builder · hb) s h
              cases hr : applyNeeded lib clock bundle builder info (s.chainInfos.get? info.chain) s with
              | error e s' =>
                  rw [hr] at happlied
                  exact happlied
              | ok u s' =>
                  rw [hr] at happlied
                  cases callback with
                  | none => exact happlied
                  | some f =>
                      simp only
                      cases f bundle with
                      | error e => exact happlied
                      | ok u => exact happlied

/-- **What all entries of the applied bundles have, all stored entries have**, in every state
of every run. -/
theorem runCalls_stocked {calls : List Call} :
    ∀ {s : Store}, (∀ call ∈ calls, EntriesOf P lib (keyOf keys) call.bundle) →
      StoreStocked P keys s → StoreStocked P keys (runCalls lib s calls) := by
  induction calls with
  | nil => exact fun _ h => h
  | cons call rest ih =>
      intro s hcalls h
      exact ih (fun c hc => hcalls c (List.mem_cons_of_mem _ hc))
        (applyBundle_stocked call.bundle call.callback call.clock (hcalls call List.mem_cons_self) h)

end

end Memory

end Gink
