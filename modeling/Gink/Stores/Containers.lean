/-
  Gink.Stores.Containers — whose addresses the containers tables hold.

  A container gets a row when a change defines it, and when an entry is written to it.  For the
  latter both stores take the address as the entry spells it: what the entry leaves out, because
  it is that of its bundle, is a 0 in the row.  Such an address no change can have.

  Main results:
    * `containers_real` — as long as entries spell the addresses out, or what they spell has a
      row already, every container that is listed is one that a change defines or an entry names;
    * `relative_container_listed` — a container defined and written to in one bundle.
-/
import Gink.Lmdb.Definitions
import Gink.Memory.Accepted
import Gink.Memory.Clearances
import Gink.Stores.TakenIn
import Gink.Proto.Sample

namespace Gink

/-! ## §1. Real containers. -/

/-- The address that a change can have: bundles are not taken in with timestamp 0, and offsets
start at 1. -/
def Muid.OfChange (m : Muid) : Prop :=
  ∃ (info : BundleInfo) (offset : Nat), info.timestamp ≠ 0 ∧ 1 ≤ offset ∧
    Muid.make info.timestamp.val info.medallion.val offset = .ok m

/-- A change has a time. -/
theorem Muid.OfChange.timeField_ne {m : Muid} (h : m.OfChange) : m.timeField.val ≠ 0 := by
  obtain ⟨info, offset, htime, -, hmake⟩ := h
  obtain ⟨⟨-, hlt⟩, -, -, rfl⟩ := Muid.make_eq_ok.mp hmake
  have hval := Muid.val_field (2 ^ 52) (info.timestamp.val : Int)
  have hne : info.timestamp.val ≠ 0 := fun h0 => htime (Fin.ext h0)
  show (Muid.field (2 ^ 52) (info.timestamp.val : Int)).val ≠ 0
  omega

/-- The change defines the container, or is an entry that names it, references resolved. -/
def Op.Brings (op : Op) (m : Muid) : Prop :=
  match op.change with
  | .container _ => Muid.make op.info.timestamp.val op.info.medallion.val op.offset = .ok m
  | .entry entry => resolve op.info.context entry.containerField = .ok m
  | _ => False

/-- One of the changes brings the container, which has an address. -/
def RealContainer (ops : List Op) (m : Muid) : Prop := m.OfChange ∧ ∃ op ∈ ops, op.Brings m

theorem RealContainer.mono {ops ops' : List Op} {m : Muid} (h : RealContainer ops m)
    (hsub : ∀ op ∈ ops, op ∈ ops') : RealContainer ops' m := by
  obtain ⟨hchange, op, hop, hbrings⟩ := h
  exact ⟨hchange, op, hsub op hop, hbrings⟩

/-- **What is listed is real.** -/
def ListsReal (ops : List Op) (listed : Except Error (List (Muid × ContainerBuilder))) : Prop :=
  ∃ containers, listed = .ok containers ∧ ∀ x ∈ containers, RealContainer ops x.1

/-- An entry spells out the address of its container, which is that of a change, or it is passed
over. -/
def Op.Spelt (passed : EntryBuilder → Muid → Prop) (op : Op) : Prop :=
  match op.change with
  | .entry entry => ∀ muid, entry.containerField.literal = .ok muid →
      passed entry muid ∨ (resolve op.info.context entry.containerField = .ok muid ∧ muid.OfChange)
  | _ => True

section
variable {ops : List Op} {info : BundleInfo} {offset : Nat}

/-- A container change brings a real container. -/
theorem realContainer_of_container {builder : ContainerBuilder} {m : Muid}
    (hop : ⟨info, offset, .container builder⟩ ∈ ops) (htime : info.timestamp ≠ 0)
    (hoffset : 1 ≤ offset)
    (hm : Muid.make info.timestamp.val info.medallion.val offset = .ok m) :
    RealContainer ops m :=
  ⟨⟨info, offset, htime, hoffset, hm⟩, _, hop, hm⟩

/-- So does an entry that spells it out. -/
theorem realContainer_of_entry {entry : EntryBuilder} {m : Muid}
    {passed : EntryBuilder → Muid → Prop} (hop : ⟨info, offset, .entry entry⟩ ∈ ops)
    (hspelt : Op.Spelt passed ⟨info, offset, .entry entry⟩)
    (hm : entry.containerField.literal = .ok m) (hnew : ¬ passed entry m) :
    RealContainer ops m := by
  rcases hspelt m hm with hpassed | ⟨hresolve, hchange⟩
  · exact absurd hpassed hnew
  · exact ⟨hchange, _, hop, hresolve⟩

end

/-! ## §2. `LmdbStore`. -/

namespace Lmdb

/-- `list_containers()`. -/
def listContainers (c : Contents) : Except Error (List (Muid × ContainerBuilder)) :=
  c.containers.rows.mapM fun r => (Muid.fromBytes r.1).map fun m => (m, r.2)

/-- Every row is that of a real container. -/
def RealRows (ops : List Op) (c : Contents) : Prop :=
  ∀ r ∈ c.containers.rows, ∃ m : Muid, r.1 = m.toBytes ∧ RealContainer ops m

/-- An entry that the loop passes over: it is for a global container, or for one that has been
seen or has a row. -/
def Passed (seen : List Muid) (committed : Contents) (entry : EntryBuilder) (muid : Muid) : Prop :=
  entry.containerField.timestamp = -1 ∨ muid ∈ seen ∨ committed.Defines muid

theorem RealRows.listsReal {ops : List Op} {c : Contents} (h : RealRows ops c) :
    ListsReal ops (listContainers c) := by
  unfold listContainers
  have hall : ∀ rows : List (Bytes × ContainerBuilder),
      (∀ r ∈ rows, ∃ m : Muid, r.1 = m.toBytes ∧ RealContainer ops m) →
      ListsReal ops (rows.mapM fun r => (Muid.fromBytes r.1).map fun m => (m, r.2)) := by
    intro rows
    induction rows with
    | nil => exact fun _ => ⟨[], rfl, fun x hx => absurd hx List.not_mem_nil⟩
    | cons r rest ih =>
        intro hrows
        obtain ⟨m, hm, hreal⟩ := hrows r List.mem_cons_self
        obtain ⟨listed, hlisted, hrest⟩ := ih fun r' hr' => hrows r' (List.mem_cons_of_mem _ hr')
        refine ⟨(m, r.2) :: listed, ?_, ?_⟩
        · rw [List.mapM_cons, hm, Muid.fromBytes_toBytes, hlisted]
          rfl
        · intro x hx
          rcases List.mem_cons.mp hx with rfl | hx
          · exact hreal
          · exact hrest x hx
  exact hall _ h

section
variable {lib : Externals} {committed c c' : Contents} {retaining : Bool} {info : BundleInfo}
  {offset : Nat} {ops : List Op} {seen₀ seen seen' : List Muid}

theorem RealRows.of_eq (h : RealRows ops c) (hsame : c'.containers = c.containers) :
    RealRows ops c' := by
  unfold RealRows
  rw [hsame]
  exact h

theorem RealRows.put (h : RealRows ops c) {m : Muid} (hm : RealContainer ops m)
    (builder : ContainerBuilder) :
    RealRows ops { c with containers := c.containers.put m.toBytes builder } := by
  intro r hr
  rcases Table.mem_rows_put.mp hr with rfl | ⟨-, hr⟩
  · exact ⟨m, rfl, hm⟩
  · exact h r hr

/-- **One change** keeps the rows real, and what has been seen stays so. -/
theorem applyChange_real {change : ChangeBuilder} (hop : ⟨info, offset, change⟩ ∈ ops)
    (htime : info.timestamp ≠ 0) (hoffset : 1 ≤ offset)
    (hspelt : Op.Spelt (Passed seen₀ committed) ⟨info, offset, change⟩)
    (hseen : ∀ m ∈ seen₀, m ∈ seen) (h : RealRows ops c)
    (happly : applyChange lib committed retaining info offset seen c change = (seen', .ok c')) :
    RealRows ops c' ∧ ∀ m ∈ seen₀, m ∈ seen' := by
  have h1 := congrArg Prod.fst happly
  have h2 := congrArg Prod.snd happly
  cases change with
  | unset => exact nomatch h2
  | container builder =>
      obtain rfl : seen = seen' := h1
      obtain ⟨m, hm, rfl⟩ := map_eq_ok.mp h2
      exact ⟨h.put (realContainer_of_container hop htime hoffset hm) builder, hseen⟩
  | entry entry =>
      unfold applyChange at h1 h2
      cases hm : entry.containerField.literal with
      | error e =>
          simp only [hm] at h2
          exact nomatch h2
      | ok m =>
          simp only [hm] at h1 h2
          have hsame := (addEntry_rows h2).2.1
          rw [← h1]
          unfold noteContainer at hsame ⊢
          split_ifs at hsame ⊢ with hin hknown
          · exact ⟨h.of_eq hsame, hseen⟩
          · exact ⟨h.of_eq hsame, hseen⟩
          · have hnew : ¬ Passed seen₀ committed entry m := by
              rintro (hglobal | hbefore | hdefined)
              · exact hknown (Or.inr hglobal)
              · exact hin (hseen m hbefore)
              · exact hknown (Or.inl hdefined)
            have hreal := realContainer_of_entry hop hspelt hm hnew
            exact ⟨(h.put hreal ⟨entry.behavior⟩).of_eq hsame,
              fun m' hm' => List.mem_cons_of_mem _ (hseen m' hm')⟩
  | movement builder =>
      obtain rfl : seen = seen' := h1
      exact ⟨h.of_eq (applyMovement_shrunk h2).containers, hseen⟩
  | clearance builder =>
      obtain rfl : seen = seen' := h1
      obtain ⟨container, clearance, -, -, hshrunk⟩ := applyClearance_rows h2
      exact ⟨h.of_eq hshrunk.containers, hseen⟩

/-- **The changes of a bundle.** -/
theorem applyChangesFrom_real {changes : List ChangeBuilder} (htime : info.timestamp ≠ 0) :
    ∀ {offset : Nat} {seen seen' : List Muid} {c c' : Contents}, 1 ≤ offset →
      (∀ op ∈ opsFrom info offset changes, op ∈ ops ∧ op.Spelt (Passed seen₀ committed)) →
      (∀ m ∈ seen₀, m ∈ seen) → RealRows ops c →
      applyChangesFrom lib committed retaining info offset changes seen c = (seen', .ok c') →
      RealRows ops c' := by
  induction changes with
  | nil =>
      intro offset seen seen' c c' _ _ _ h happly
      injection happly with _ hc
      injection hc with hc
      rw [← hc]
      exact h
  | cons change rest ih =>
      intro offset seen seen' c c' hoffset hops hseen h happly
      unfold applyChangesFrom at happly
      cases hone : applyChange lib committed retaining info offset seen c change with
      | mk seen₁ r =>
          cases r with
          | error e =>
              rw [hone] at happly
              cases (congrArg Prod.snd happly)
          | ok c₁ =>
              rw [hone] at happly
              obtain ⟨hop, hspelt⟩ := hops _ List.mem_cons_self
              obtain ⟨h₁, hseen₁⟩ := applyChange_real hop htime hoffset hspelt hseen h hone
              exact ih (Nat.le_succ_of_le hoffset)
                (fun op hop => hops op (List.mem_cons_of_mem _ hop)) hseen₁ h₁ happly

end

/-- The bundle that a call takes in spells the containers of its entries out. -/
def CallSpells (lib : Externals) (s : Store) (call : Call) : Prop :=
  ∀ b ∈ takenIn lib call.bundle s.db.lastInfos (call.run lib s).store.db.lastInfos,
    ∀ op ∈ b.ops lib s.db.symmetricKey, op.Spelt (Passed s.seenContainers s.db.contents)

/-- Every call of a run does so. -/
def Spells (lib : Externals) : Store → List Call → Prop
  | _, [] => True
  | s, call :: rest => CallSpells lib s call ∧ Spells lib (call.run lib s).store rest

/-- A needed bundle has a timestamp. -/
theorem timestamp_ne_zero {info : BundleInfo} {old : Option BundleInfo}
    (h : isNeeded info old = .ok true) : info.timestamp ≠ 0 := by
  have hlt := (isNeeded_eq_true h).1
  intro hzero
  rw [hzero] at hlt
  exact absurd hlt (Fin.not_lt_zero _)

/-- **One call** keeps the rows real. -/
theorem Call.real {lib : Externals} {s : Store} {ops : List Op} {call : Call}
    (hspells : CallSpells lib s call) (h : RealRows ops s.db.contents) :
    RealRows (ops ++ (takenIn lib call.bundle s.db.lastInfos
        (call.run lib s).store.db.lastInfos).flatMap (·.ops lib s.db.symmetricKey))
      (call.run lib s).store.db.contents ∧
    (call.run lib s).store.db.symmetricKeys = s.db.symmetricKeys := by
  have hmono : ∀ ops', RealRows (ops ++ ops') s.db.contents := by
    intro ops' r hr
    obtain ⟨m, hm, hreal⟩ := h r hr
    exact ⟨m, hm, hreal.mono fun op hop => List.mem_append_left _ hop⟩
  rcases Call.taken lib s call with
    ⟨-, hdb⟩ | ⟨builder, info, htaken, hneeded, -, hwritten⟩
  · rw [hdb]
    exact ⟨hmono _, rfl⟩
  · unfold CallSpells at hspells
    rw [htaken] at hspells ⊢
    have hw := (writeBundle_ok hwritten).1
    refine ⟨?_, hw.symmetricKeys⟩
    obtain ⟨changes, hchanges, happlied⟩ := hw.contents
    have hops : (TakenIn.mk builder info).ops lib s.db.symmetricKey = opsFrom info 1 changes := by
      unfold TakenIn.ops
      have hopen : openChanges lib s.db.symmetricKey builder = .ok changes := hchanges
      simp only [hopen]
    rw [List.flatMap_singleton, hops]
    have hspelt := hspells _ List.mem_cons_self
    rw [hops] at hspelt
    cases hflag : s.applyChanges with
    | true =>
        have hon : (refreshHelper s call.callback).store.applyChanges = true := hflag
        rw [if_pos hon] at happlied
        exact applyChangesFrom_real (timestamp_ne_zero hneeded) (le_refl 1)
          (fun op hop => ⟨List.mem_append_right _ hop, hspelt op hop⟩) (fun _ hm => hm)
          (hmono _) happlied
    | false =>
        have hoff : (refreshHelper s call.callback).store.applyChanges = false := hflag
        rw [if_neg (by simp [hoff])] at happlied
        have hsame : s.db.contents = (call.run lib s).store.db.contents :=
          Except.ok.inj (congrArg Prod.snd happlied)
        rw [← hsame]
        exact hmono _

/-- **Every run** keeps them real. -/
theorem runCalls_real {lib : Externals} {calls : List Call} :
    ∀ {s : Store} {ops : List Op}, Spells lib s calls → RealRows ops s.db.contents →
      RealRows (ops ++ (takenInBy lib s calls).flatMap (·.ops lib s.db.symmetricKey))
        (runCalls lib s calls).db.contents := by
  induction calls with
  | nil =>
      intro s ops _ h
      show RealRows (ops ++ []) s.db.contents
      rw [List.append_nil]
      exact h
  | cons call rest ih =>
      intro s ops hspells h
      obtain ⟨hreal, hkeys⟩ := Call.real hspells.1 h
      have hkey : (call.run lib s).store.db.symmetricKey = s.db.symmetricKey := by
        funext keyId
        unfold Db.symmetricKey
        rw [hkeys]
      have hrest := ih hspells.2 hreal
      rw [hkey, List.append_assoc, ← List.flatMap_append] at hrest
      exact hrest

end Lmdb

/-! ## §3. `MemoryStore`. -/

namespace Memory

open Gink.Action

/-- An entry that the loop passes over: it is for a global container, or for one that has a
row. -/
def Passed (c : Contents) (_ : EntryBuilder) (muid : Muid) : Prop :=
  muid.timestamp = -1 ∨ (c.containers.get? muid).isSome = true

/-- Every row is that of a real container, and those of `c₀` are still there. -/
def RealRows (ops : List Op) (c₀ : Contents) (containers : Table Muid ContainerBuilder)
    (_ : Table Bytes ClearanceBuilder) : Prop :=
  (∀ r ∈ containers.rows, RealContainer ops r.1) ∧
    ∀ m, (c₀.containers.get? m).isSome = true → (containers.get? m).isSome = true

section
variable {ops : List Op} {c₀ : Contents} {info : BundleInfo} {offset : Nat}

theorem RealRows.put {containers : Table Muid ContainerBuilder}
    {clearances : Table Bytes ClearanceBuilder} (h : RealRows ops c₀ containers clearances)
    {m : Muid} (hm : RealContainer ops m) (builder : ContainerBuilder) :
    RealRows ops c₀ (containers.put m builder) clearances := by
  refine ⟨?_, ?_⟩
  · intro r hr
    rcases Table.mem_rows_put.mp hr with rfl | ⟨-, hr⟩
    · exact hm
    · exact h.1 r hr
  · intro m' hm'
    rw [Table.get?_put]
    split_ifs
    · rfl
    · exact h.2 m' hm'

/-- **One change** keeps the rows real, also when it raises. -/
theorem applyChange_real {change : ChangeBuilder} (retaining : Bool) (now : Int)
    (hop : ⟨info, offset, change⟩ ∈ ops) (htime : info.timestamp ≠ 0) (hoffset : 1 ≤ offset)
    (hspelt : Op.Spelt (Passed c₀) ⟨info, offset, change⟩) :
    Keeps (Beside (RealRows ops c₀)) (applyChange retaining now info offset change) := by
  cases change with
  | unset => exact Keeps.of (.error (.valueError "didn't recognize change"))
  | container builder =>
      refine Keeps.of_bind fun m hm => Keeps.modify fun c hc => ?_
      have hmake := Lmdb.make_of_changeMuid hm
      exact hc.put (realContainer_of_container hop htime hoffset hmake) builder
  | entry entry =>
      refine Keeps.of_bind fun m hm => Keeps.bind ?_ fun _ => addEntry_beside _ _ _ _ _
      apply Keeps.get_bind
      intro c hc
      split_ifs with hnew
      · have hnot : ¬ Passed c₀ entry m := by
          rintro (hglobal | hbefore)
          · exact hnew.1 hglobal
          · have hsome := hc.2 m hbefore
            rw [hnew.2] at hsome
            exact absurd hsome (by decide)
        exact hc.put (realContainer_of_entry hop hspelt hm hnot) ⟨entry.behavior⟩
      · exact hc
  | movement builder => exact addMovement_beside info offset builder
  | clearance builder =>
      exact Keeps.of_bind fun _ _ => Keeps.of_bind fun _ _ => Keeps.modify fun c hc => hc

/-- **The changes of a bundle.** -/
theorem applyChangesFrom_real (retaining : Bool) (clock : Nat → Int) (htime : info.timestamp ≠ 0)
    {changes : List ChangeBuilder} :
    ∀ {offset : Nat}, 1 ≤ offset →
      (∀ op ∈ opsFrom info offset changes, op ∈ ops ∧ op.Spelt (Passed c₀)) →
      Keeps (Beside (RealRows ops c₀)) (applyChangesFrom retaining clock info offset changes) := by
  induction changes with
  | nil => exact fun _ _ => Keeps.pure _
  | cons change rest ih =>
      intro offset hoffset hops
      obtain ⟨hop, hspelt⟩ := hops _ List.mem_cons_self
      exact Keeps.bind (applyChange_real retaining _ hop htime hoffset hspelt) fun _ =>
        ih (Nat.le_succ_of_le hoffset) fun op hop => hops op (List.mem_cons_of_mem _ hop)

end

/-- The bundle that a call takes in spells the containers of its entries out. -/
def CallSpells (lib : Externals) (s : Store) (call : Call) : Prop :=
  ∀ b ∈ takenIn lib call.bundle s.chainInfos.get? (call.run lib s).store.chainInfos.get?,
    ∀ op ∈ b.ops lib s.symmetricKey, op.Spelt (Passed s.contents)

/-- Every call of a run does so. -/
def Spells (lib : Externals) : Store → List Call → Prop
  | _, [] => True
  | s, call :: rest => CallSpells lib s call ∧ Spells lib (call.run lib s).store rest

/-- **One call** keeps the rows real. -/
theorem Call.real {lib : Externals} {s : Store} {ops : List Op} {call : Call}
    (hspells : CallSpells lib s call)
    (h : ∀ r ∈ s.contents.containers.rows, RealContainer ops r.1) :
    ∀ r ∈ (call.run lib s).store.contents.containers.rows, RealContainer
      (ops ++ (takenIn lib call.bundle s.chainInfos.get?
        (call.run lib s).store.chainInfos.get?).flatMap (·.ops lib s.symmetricKey)) r.1 := by
  have hmono : ∀ ops', ∀ r ∈ s.contents.containers.rows, RealContainer (ops ++ ops') r.1 :=
    fun ops' r hr => (h r hr).mono fun op hop => List.mem_append_left _ hop
  rcases Call.taken lib s call with ⟨-, -, hcontents⟩ | ⟨b, htaken, hneeded, -, hcontents⟩
  · rw [hcontents]
    exact hmono _
  · unfold CallSpells at hspells
    rw [htaken] at hspells ⊢
    rw [hcontents, List.flatMap_singleton]
    have hspelt := hspells b List.mem_cons_self
    unfold Store.applied
    unfold TakenIn.ops at hspelt ⊢
    cases hopen : openChanges lib s.symmetricKey b.builder with
    | error e => exact hmono _
    | ok changes =>
        rw [hopen] at hspelt
        have hkeeps := @applyChangesFrom_real (ops ++ opsFrom b.info 1 changes) s.contents b.info
          s.retainingEntries call.clock (Lmdb.timestamp_ne_zero hneeded) changes 1 (le_refl 1)
          fun op hop => ⟨List.mem_append_right _ hop, hspelt op hop⟩
        exact (hkeeps s.contents ⟨hmono _, fun _ hm => hm⟩).1

/-- **Every run** keeps them real. -/
theorem runCalls_real {lib : Externals} {calls : List Call} :
    ∀ {s : Store} {ops : List Op}, Spells lib s calls →
      (∀ r ∈ s.contents.containers.rows, RealContainer ops r.1) →
      ∀ r ∈ (runCalls lib s calls).contents.containers.rows, RealContainer
        (ops ++ (takenInBy lib s calls).flatMap (·.ops lib s.symmetricKey)) r.1 := by
  induction calls with
  | nil =>
      intro s ops _ h
      show ∀ r ∈ s.contents.containers.rows, RealContainer (ops ++ []) r.1
      rw [List.append_nil]
      exact h
  | cons call rest ih =>
      intro s ops hspells h
      have hreal := Call.real hspells.1 h
      have hkey : (call.run lib s).store.symmetricKey = s.symmetricKey := by
        funext keyId
        have hkeys : (call.run lib s).store.symmetricKeys = s.symmetricKeys :=
          (applyBundle_aside s call.bundle call.callback call.clock).symmetricKeys
        unfold Store.symmetricKey
        rw [hkeys]
      have hrest := ih hspells.2 hreal
      rw [hkey, List.append_assoc, ← List.flatMap_append] at hrest
      exact hrest

end Memory

/-! ## §4. Where all listed containers are real. -/

/-- **The containers table holds only real containers**, in every state of a run whose bundles
spell the containers of their entries out: each one that `list_containers` yields has an address
that a change can have, and a change taken in defines it or is an entry that names it. -/
theorem containers_real (lib : Externals) :
    (∀ keys retainBundles retainEntries applyChanges calls,
      let s := { Lmdb.newStore keys retainBundles retainEntries with applyChanges }
      Lmdb.Spells lib s calls →
      ListsReal ((Lmdb.takenInBy lib s calls).flatMap (·.ops lib s.db.symmetricKey))
        (Lmdb.listContainers (Lmdb.runCalls lib s calls).db.contents)) ∧
    ∀ keys retainingEntries calls,
      let s := Memory.newStore keys retainingEntries
      Memory.Spells lib s calls →
      ListsReal ((Memory.takenInBy lib s calls).flatMap (·.ops lib s.symmetricKey))
        (.ok (Memory.listContainers (Memory.runCalls lib s calls).contents)) := by
  refine ⟨?_, ?_⟩
  · intro keys retainBundles retainEntries applyChanges calls s hspells
    have hstart : Lmdb.RealRows [] s.db.contents := fun r hr => absurd hr List.not_mem_nil
    exact (Lmdb.runCalls_real hspells hstart).listsReal
  · intro keys retainingEntries calls s hspells
    have hstart : ∀ r ∈ s.contents.containers.rows, RealContainer [] r.1 :=
      fun r hr => absurd hr List.not_mem_nil
    exact ⟨_, rfl, Memory.runCalls_real hspells hstart⟩

/-- A directory is defined by the first change of a bundle and written to by the second, which
spells the address of the directory like this. -/
def definedAndUsed (container : MuidBuilder) : List ChangeBuilder :=
  [.container ⟨.directory⟩, .entry {
    container := some container
    behavior := .directory
    subject := some (.key (some (.characters "k")))
    contains := some (.value (.characters "v")) }]

def definedAndUsedInfo : BundleInfo := ⟨10, 7, 10, 0, List.replicate 32 0, ""⟩

/-- What a store takes in that is given the bundle. -/
def definedAndUsedTaken (container : MuidBuilder) : TakenIn :=
  ⟨startingBundle 10 7 (definedAndUsed container), definedAndUsedInfo⟩

/-- With the address spelt out in full. -/
def speltAddress : MuidBuilder := ⟨10, 7, 1⟩

/-- With timestamp and medallion left out. -/
def relativeAddress : MuidBuilder := ⟨0, 0, 1⟩

def lmdbUses : List Lmdb.Call := [{ bundle := sampleBundle 0, clock := ⟨100, 0, 0⟩ }]

def memoryUses : List Memory.Call := [{ bundle := sampleBundle 0 }]

def usedExternals (container : MuidBuilder) : Externals :=
  sampleExternals [startingBundle 10 7 (definedAndUsed container)]

/-- The changes of the bundle that spells the address out do so. -/
theorem definedAndUsed_spelt {passed : EntryBuilder → Muid → Prop} {op : Op}
    (hop : op ∈ opsFrom definedAndUsedInfo 1 (definedAndUsed speltAddress)) : op.Spelt passed := by
  rcases List.mem_cons.mp hop with rfl | hop
  · exact trivial
  · rw [List.mem_singleton.mp hop]
    intro muid hmuid
    have hsame : Muid.mk 10 7 1 = muid := Except.ok.inj hmuid
    rw [← hsame]
    exact Or.inr ⟨rfl, definedAndUsedInfo, 1, by decide, le_refl 1, rfl⟩

theorem containers_real_spelt :
    ListsReal (opsFrom definedAndUsedInfo 1 (definedAndUsed speltAddress))
      (Lmdb.listContainers (Lmdb.runCalls (usedExternals speltAddress)
        (Lmdb.newStore ∅ true true) lmdbUses).db.contents) ∧
    ListsReal (opsFrom definedAndUsedInfo 1 (definedAndUsed speltAddress))
      (.ok (Memory.listContainers (Memory.runCalls (usedExternals speltAddress)
        (Memory.newStore [] true) memoryUses).contents)) := by
  refine ⟨(containers_real (usedExternals speltAddress)).1 ∅ true true true lmdbUses ⟨?_, trivial⟩,
    (containers_real (usedExternals speltAddress)).2 [] true memoryUses ⟨?_, trivial⟩⟩
  · intro b hb op hop
    have hb' : b ∈ [definedAndUsedTaken speltAddress] := hb
    rw [List.mem_singleton.mp hb'] at hop
    exact definedAndUsed_spelt hop
  · intro b hb op hop
    have hb' : b ∈ [definedAndUsedTaken speltAddress] := hb
    rw [List.mem_singleton.mp hb'] at hop
    exact definedAndUsed_spelt hop

/-- **The entry makes a container of its own**, with an address of no change. -/
theorem relative_container_listed :
    (∀ ops, ¬ ListsReal ops (Lmdb.listContainers (Lmdb.runCalls (usedExternals relativeAddress)
      (Lmdb.newStore ∅ true true) lmdbUses).db.contents)) ∧
    ∀ ops, ¬ ListsReal ops (.ok (Memory.listContainers (Memory.runCalls
      (usedExternals relativeAddress) (Memory.newStore [] true) memoryUses).contents)) := by
  have hnot : ∀ {ops listed}, listed = .ok [(⟨0, 0, 1⟩, ⟨.directory⟩), (⟨10, 7, 1⟩, ⟨.directory⟩)] →
      ¬ ListsReal ops listed := by
    rintro ops listed rfl ⟨containers, hlisted, hreal⟩
    rw [← Except.ok.inj hlisted] at hreal
    exact (hreal _ List.mem_cons_self).1.timeField_ne rfl
  exact ⟨fun ops => hnot (by decide), fun ops => hnot (by decide)⟩

end Gink
