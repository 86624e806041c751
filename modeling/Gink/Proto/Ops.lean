/-
  Gink.Proto.Ops — the changes of a history, each at its place.

  A bundle that has been opened is its info and its changes.  Flattened, a history is
  a list of `Op`s, and a change is told apart from every other one by the timestamp
  and medallion of its bundle and its offset there.
-/
import Gink.Proto.Coding
import Mathlib

namespace Gink

/-- A bundle whose changes have been opened. -/
structure OpenBundle where
  info : BundleInfo
  changes : List ChangeBuilder

/-- A change at its place in a bundle. -/
structure Op where
  info : BundleInfo
  offset : Nat
  change : ChangeBuilder

/-- The changes from the one with the given offset on. -/
def opsFrom (info : BundleInfo) : Nat → List ChangeBuilder → List Op
  | _, [] => []
  | offset, change :: rest => ⟨info, offset, change⟩ :: opsFrom info (offset + 1) rest

/-- The changes of a bundle; offsets start at 1. -/
def OpenBundle.ops (b : OpenBundle) : List Op := opsFrom b.info 1 b.changes

/-- The changes of a history. -/
def allOps (history : List OpenBundle) : List Op := history.flatMap OpenBundle.ops

/-- What addresses in a bundle start with. -/
def OpenBundle.stamp (b : OpenBundle) : U64 × U64 := (b.info.timestamp, b.info.medallion)

/-- Different bundles have different timestamps or medallions. -/
def DistinctStamps (history : List OpenBundle) : Prop :=
  history.Pairwise (fun a b => a.stamp ≠ b.stamp)

instance : DecidablePred DistinctStamps := fun history =>
  inferInstanceAs (Decidable (history.Pairwise (fun a b => a.stamp ≠ b.stamp)))

instance : Std.Symm (fun a b : OpenBundle => a.stamp ≠ b.stamp) := ⟨fun _ _ h => h.symm⟩

/-- The order of the bundles is immaterial to that. -/
theorem DistinctStamps.perm {l m : List OpenBundle} (h : DistinctStamps l) (hperm : l.Perm m) :
    DistinctStamps m :=
  (hperm.pairwise_iff (fun hab => hab.symm)).mp h

/-! ## §1. Opening a bundle. -/

/-- The info and the changes of a bundle, with the keys a store has. -/
def Decomposition.opened (lib : Externals) (symmetricKey : U64 → Except Error Bytes)
    (d : Decomposition) : Except Error OpenBundle := do
  let builder ← d.getBuilder lib
  let changes ← openChanges lib symmetricKey builder
  return ⟨.ofBuilder builder (lib.digest d.bundleBytes), changes⟩

/-- The bundles that open, opened. -/
def openAll (lib : Externals) (symmetricKey : U64 → Except Error Bytes)
    (bundles : List Decomposition) : List OpenBundle :=
  bundles.filterMap (fun d => (d.opened lib symmetricKey).toOption)

theorem mem_openAll {lib : Externals} {symmetricKey : U64 → Except Error Bytes}
    {bundles : List Decomposition} {b : OpenBundle} :
    b ∈ openAll lib symmetricKey bundles ↔ ∃ d ∈ bundles, d.opened lib symmetricKey = .ok b := by
  unfold openAll
  rw [List.mem_filterMap]
  refine exists_congr fun d => and_congr_right fun _ => ?_
  cases d.opened lib symmetricKey <;> simp [Except.toOption]

theorem openAll_cons {lib : Externals} {symmetricKey : U64 → Except Error Bytes}
    {d : Decomposition} {b : OpenBundle} (rest : List Decomposition)
    (h : d.opened lib symmetricKey = .ok b) :
    openAll lib symmetricKey (d :: rest) = b :: openAll lib symmetricKey rest := by
  simp [openAll, h, Except.toOption]

/-! ## §2. Addresses of changes. -/

@[simp] theorem opsFrom_nil (info : BundleInfo) (offset : Nat) : opsFrom info offset [] = [] := rfl

@[simp] theorem opsFrom_cons (info : BundleInfo) (offset : Nat) (change : ChangeBuilder)
    (rest : List ChangeBuilder) :
    opsFrom info offset (change :: rest)
      = ⟨info, offset, change⟩ :: opsFrom info (offset + 1) rest := rfl

theorem mem_opsFrom {info : BundleInfo} {changes : List ChangeBuilder} {op : Op} :
    ∀ {offset : Nat}, op ∈ opsFrom info offset changes →
      op.info = info ∧ offset ≤ op.offset ∧ op.change ∈ changes := by
  induction changes with
  | nil => intro offset h; simp at h
  | cons change rest ih =>
      intro offset h
      rcases List.mem_cons.mp h with rfl | h
      · exact ⟨rfl, le_refl _, List.mem_cons_self⟩
      · obtain ⟨h1, h2, h3⟩ := ih h
        exact ⟨h1, by omega, List.mem_cons_of_mem _ h3⟩

/-- Within a bundle the offset tells changes apart. -/
theorem opsFrom_inj {info : BundleInfo} {changes : List ChangeBuilder} {op op' : Op} :
    ∀ {offset : Nat}, op ∈ opsFrom info offset changes → op' ∈ opsFrom info offset changes →
      op.offset = op'.offset → op = op' := by
  induction changes with
  | nil => intro offset h; simp at h
  | cons change rest ih =>
      intro offset h h' heq
      rcases List.mem_cons.mp h with rfl | h <;> rcases List.mem_cons.mp h' with rfl | h'
      · rfl
      · have := (mem_opsFrom h').2.1
        simp only at heq
        omega
      · have := (mem_opsFrom h).2.1
        simp only at heq
        omega
      · exact ih h h' heq

/-- **A change is determined by its address**, in a history of distinct bundles. -/
theorem op_eq_of_changeMuid {history : List OpenBundle} (hdistinct : DistinctStamps history)
    {op op' : Op} (h : op ∈ allOps history) (h' : op' ∈ allOps history) {m : Muid}
    (hm : changeMuid op.info op.offset = .ok m) (hm' : changeMuid op'.info op'.offset = .ok m) :
    op = op' := by
  obtain ⟨b, hb, hop⟩ := List.mem_flatMap.mp h
  obtain ⟨b', hb', hop'⟩ := List.mem_flatMap.mp h'
  obtain ⟨ht, hmed, hoff⟩ := changeMuid_inj hm hm'
  rw [(mem_opsFrom hop).1, (mem_opsFrom hop').1] at ht hmed
  by_cases hbb : b = b'
  · subst hbb
    exact opsFrom_inj hop hop' hoff
  · have hne : b.stamp ≠ b'.stamp :=
      List.Pairwise.forall hdistinct hb hb' hbb
    exact absurd (Prod.ext ht hmed) hne

end Gink
