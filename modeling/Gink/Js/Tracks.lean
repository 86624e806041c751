/-
  Gink.Js.Tracks — where an entry of an ordered container was put last.

  The changes of a history tell of each entry where it was placed, where it was moved, and
  whether it was deleted or its container cleared since.  Nothing here depends on what a store
  makes of the changes: this is what its answers are compared with.
-/
import Gink.Js.MemoryStoreRows
import Gink.Machine.Run

namespace Gink

namespace Js

/-! ## §1. Tracks. -/

/-- `Placement`: a container, the key there, and the change that put an entry under it. -/
structure Placement (κ : Type) where
  container : MuidTuple
  key : κ
  placement : MuidTuple
  deriving DecidableEq, Repr

/-- What has become of an entry: its last place, whether any movement came, whether the last one
deleted it, and whether its container was cleared since it was put there. -/
structure Track where
  place : Placement StorageKey
  moved : Bool := false
  deleted : Bool := false
  cleared : Bool := false

/-- It is in no container any more. -/
def Track.gone (k : Track) : Bool := k.deleted || k.cleared

/-- A movement of the entry, to another key or, with zero for the key, out of the container. -/
def Track.move (k : Track) (m : Movement) : Track :=
  if m.dest = 0 then { k with moved := true, deleted := true }
  else { place := ⟨k.place.container, .number m.dest, m.movementId⟩, moved := true }

/-- A clearance. -/
def Track.clear (k : Track) (z : Clearance) : Track :=
  if z.containerId = k.place.container then { k with cleared := true } else k

/-- Where an entry is put that is added. -/
def placedAt (b : EntryBuilder) (op : Op) : Except JsError (Placement StorageKey) := do
  let container ← extractContainerMuid b op.info
  let key ← getStorageKey b (changeAddress op.info op.offset)
  return ⟨container, key, changeAddress op.info op.offset⟩

/-- What a change makes of the track of an entry; none is an entry that was not added. -/
def trackAfter (entry : MuidTuple) (k : Option Track) (op : Op) : Option Track :=
  match op.change with
  | .entry b =>
      if changeAddress op.info op.offset = entry then
        (placedAt b op).toOption.map fun place => { place }
      else k
  | .movement b =>
      match (extractMovement b op.info op.offset).toOption with
      | some m => if m.entryId = entry then k.map fun k => k.move m else k
      | none => k
  | .clearance _ =>
      match IndexedDb.clearanceOf op with
      | some z => k.map fun k => k.clear z
      | none => k
  | .container _ | .unset => k

/-- The track after some changes. -/
def trackOf (entry : MuidTuple) (ops : List Op) : Option Track :=
  Machine.run (trackAfter entry) none ops

/-- **Where the entry is at a time**: the place that the last entry or movement of before that
time gave it, unless it is gone. -/
def locationAt (history : List OpenBundle) (entry : MuidTuple) (t : Int) :
    Option (Placement StorageKey) :=
  match trackOf entry (allOps (before t history)) with
  | some k => if k.gone then none else some k.place
  | none => none

/-- What an entry says of its place. -/
def Entry.place (e : Entry) : Placement StorageKey := ⟨e.containerId, e.storageKey, e.placementId⟩

/-- No entry of another kind is put into the container. -/
def HoldsOrdered (ops : List Op) (container : MuidTuple) : Prop :=
  ∀ op ∈ ops, ∀ b, op.change = .entry b → extractContainerMuid b op.info = .ok container →
    b.behavior = .sequence ∨ b.behavior = .edgeType

/-- If the muid is of an entry, that is of an ordered container. -/
def OfOrdered (ops : List Op) (entry : MuidTuple) : Prop :=
  ∀ op ∈ ops, changeAddress op.info op.offset = entry → ∀ b container, op.change = .entry b →
    extractContainerMuid b op.info = .ok container → HoldsOrdered ops container

/-- Movements name entries with muids. -/
def MovesMuids (ops : List Op) : Prop :=
  ∀ op ∈ ops, ∀ b m, op.change = .movement b → extractMovement b op.info op.offset = .ok m →
    IsMuid m.entryId

/-! ## §2. Changes in the order of their addresses. -/

/-- Every change comes before those that follow it, by the addresses. -/
def InOrder (ops : List Op) : Prop :=
  ops.Pairwise fun a b =>
    (changeAddress a.info a.offset).Before (changeAddress b.info b.offset)

theorem inOrder_opsFrom {info : BundleInfo} {changes : List ChangeBuilder} :
    ∀ {offset : Nat}, InOrder (opsFrom info offset changes) := by
  induction changes with
  | nil => exact fun {_} => List.Pairwise.nil
  | cons change rest ih =>
      intro offset
      refine List.Pairwise.cons (fun op hop => ?_) ih
      obtain ⟨hinfo, hlater, -⟩ := mem_opsFrom hop
      refine Or.inr ⟨?_, Or.inr ⟨?_, ?_⟩⟩
      · rw [hinfo]
        rfl
      · rw [hinfo]
        rfl
      · show (offset : Int) < (op.offset : Int)
        omega

/-- **The changes of a history** in the order of the timestamps are in the order of their
addresses. -/
theorem Increasing.inOrder {history : List OpenBundle} (h : Increasing history) :
    InOrder (allOps history) := by
  unfold InOrder allOps
  rw [List.pairwise_flatMap]
  refine ⟨fun b _ => inOrder_opsFrom, h.imp fun hlt x hx y hy => Or.inl ?_⟩
  show (x.info.timestamp.val : Int) < (y.info.timestamp.val : Int)
  rw [(mem_opsFrom hx).1, (mem_opsFrom hy).1]
  exact Int.ofNat_lt.mpr hlt

theorem MuidTuple.Before.trans {a b c : MuidTuple} (h : a.Before b) (h' : b.Before c) :
    a.Before c := by
  unfold MuidTuple.Before at *
  omega

theorem MuidTuple.Before.ne {a b : MuidTuple} (h : a.Before b) : a ≠ b := by
  intro heq
  subst heq
  unfold MuidTuple.Before at h
  omega

theorem MuidTuple.Before.timestamp_le {a b : MuidTuple} (h : a.Before b) :
    a.timestamp ≤ b.timestamp := by
  unfold MuidTuple.Before at h
  omega

/-- What is asked of the changes of a history. -/
structure Legitimate (ops : List Op) (entry : MuidTuple) : Prop where
  inOrder : InOrder ops
  fits : ∀ op ∈ ops, FitsDigits op
  retains : ∀ op ∈ ops, Retains op.change
  moves : MovesMuids ops
  ofOrdered : OfOrdered ops entry

/-- The changes of before a time. -/
def early (t : Int) (ops : List Op) : List Op :=
  ops.filter fun op => decide ((op.info.timestamp.val : Int) < t)

theorem allOps_before (t : Int) (history : List OpenBundle) :
    allOps (before t history) = early t (allOps history) := by
  induction history with
  | nil => rfl
  | cons b rest ih =>
      have hops : ∀ op ∈ b.ops, op.info = b.info := fun op hop => (mem_opsFrom hop).1
      have hcons : allOps (b :: rest) = b.ops ++ allOps rest := rfl
      have hsplit : early t (allOps (b :: rest)) = early t b.ops ++ early t (allOps rest) := by
        rw [hcons]
        exact List.filter_append ..
      rw [hsplit, ← ih]
      by_cases hearly : (b.info.timestamp.val : Int) < t
      · have hall : early t b.ops = b.ops :=
          List.filter_eq_self.mpr fun op hop => by simpa [hops op hop] using hearly
        have hkept : before t (b :: rest) = b :: before t rest :=
          List.filter_cons_of_pos (by simpa using hearly)
        rw [hall, hkept]
        rfl
      · have hnone : early t b.ops = [] :=
          List.filter_eq_nil_iff.mpr fun op hop => by simpa [hops op hop] using hearly
        have hkept : before t (b :: rest) = before t rest :=
          List.filter_cons_of_neg (by simpa using hearly)
        rw [hnone, hkept, List.nil_append]

/-- While changes are early, all before them are. -/
theorem InOrder.early_snoc {past : List Op} {op : Op} {t : Int} (h : InOrder (past ++ [op])) :
    early t (past ++ [op]) = if (op.info.timestamp.val : Int) < t then past ++ [op]
      else early t past := by
  have hlast := (List.pairwise_append.mp h).2.2
  unfold early
  rw [List.filter_append]
  split_ifs with hearly
  · rw [List.filter_eq_self.mpr, List.filter_cons_of_pos (by simpa using hearly)]
    · rfl
    · intro a ha
      have hle : (a.info.timestamp.val : Int) ≤ (op.info.timestamp.val : Int) :=
        (hlast a ha op (List.mem_singleton.mpr rfl)).timestamp_le
      rw [decide_eq_true_eq]
      omega
  · rw [List.filter_cons_of_neg (by simpa using hearly), List.filter_nil, List.append_nil]

/-- The early changes are the beginning. -/
theorem InOrder.split {ops : List Op} (h : InOrder ops) (t : Int) :
    ∃ late, ops = early t ops ++ late ∧ ∀ op ∈ late, t ≤ (op.info.timestamp.val : Int) := by
  induction ops using List.reverseRecOn with
  | nil => exact ⟨[], rfl, fun op hop => absurd hop List.not_mem_nil⟩
  | append_singleton past op ih =>
      obtain ⟨late, hsplit, hlate⟩ := ih (List.pairwise_append.mp h).1
      rw [h.early_snoc]
      split_ifs with hearly
      · exact ⟨[], (List.append_nil _).symm, fun op hop => absurd hop List.not_mem_nil⟩
      · refine ⟨late ++ [op], ?_, fun a ha => ?_⟩
        · rw [← List.append_assoc, ← hsplit]
        · rcases List.mem_append.mp ha with ha | ha
          · exact hlate a ha
          · rw [List.mem_singleton.mp ha]
            omega

/-! ## §3. What tracks tell. -/

section
variable {entry : MuidTuple} {past more : List Op} {op : Op} {k k' : Track}

theorem trackOf_append : trackOf entry (past ++ more)
    = Machine.run (trackAfter entry) (trackOf entry past) more := Machine.run_append _ _ _

theorem trackOf_snoc : trackOf entry (past ++ [op]) = trackAfter entry (trackOf entry past) op :=
  trackOf_append

/-- What a change can make of a track: the entry is added, moved, its container cleared, or
nothing. -/
theorem trackAfter_cases (before : Option Track) (op : Op) :
    (∃ b place, op.change = .entry b ∧ changeAddress op.info op.offset = entry ∧
      placedAt b op = .ok place ∧ trackAfter entry before op = some { place }) ∨
    (∃ b m, op.change = .movement b ∧ extractMovement b op.info op.offset = .ok m ∧
      m.entryId = entry ∧ trackAfter entry before op = before.map fun k => k.move m) ∨
    (∃ z, IndexedDb.clearanceOf op = some z ∧
      trackAfter entry before op = before.map fun k => k.clear z) ∨
    (IndexedDb.clearanceOf op = none ∧ trackAfter entry before op = before) ∨
    ((∃ b, op.change = .entry b) ∧ changeAddress op.info op.offset = entry ∧
      trackAfter entry before op = none) := by
  have hother : ∀ {change}, op.change = change → (∀ b, change ≠ .clearance b) →
      IndexedDb.clearanceOf op = none := by
    intro change hchange hno
    unfold IndexedDb.clearanceOf
    rw [hchange]
    cases change <;> first | rfl | exact absurd rfl (hno _)
  cases hchange : op.change with
  | entry b =>
      by_cases hentry : changeAddress op.info op.offset = entry
      · cases hplace : placedAt b op with
        | ok place =>
            refine .inl ⟨b, place, rfl, hentry, hplace, ?_⟩
            unfold trackAfter
            simp only [hchange, if_pos hentry, hplace]
            rfl
        | error e =>
            refine .inr (.inr (.inr (.inr ⟨⟨b, rfl⟩, hentry, ?_⟩)))
            unfold trackAfter
            simp only [hchange, if_pos hentry, hplace]
            rfl
      · refine .inr (.inr (.inr (.inl ⟨hother hchange (fun _ => nofun), ?_⟩)))
        unfold trackAfter
        simp only [hchange, if_neg hentry]
  | movement b =>
      cases hextract : extractMovement b op.info op.offset with
      | ok m =>
          by_cases hentry : m.entryId = entry
          · refine .inr (.inl ⟨b, m, rfl, hextract, hentry, ?_⟩)
            unfold trackAfter
            simp only [hchange, hextract]
            exact if_pos hentry
          · refine .inr (.inr (.inr (.inl ⟨hother hchange (fun _ => nofun), ?_⟩)))
            unfold trackAfter
            simp only [hchange, hextract]
            exact if_neg hentry
      | error e =>
          refine .inr (.inr (.inr (.inl ⟨hother hchange (fun _ => nofun), ?_⟩)))
          unfold trackAfter
          simp only [hchange, hextract]
          rfl
  | clearance b =>
      cases hclear : IndexedDb.clearanceOf op with
      | some z =>
          refine .inr (.inr (.inl ⟨z, rfl, ?_⟩))
          unfold trackAfter
          simp only [hchange, hclear]
      | none =>
          refine .inr (.inr (.inr (.inl ⟨rfl, ?_⟩)))
          unfold trackAfter
          simp only [hchange, hclear]
  | container _ | unset =>
      refine .inr (.inr (.inr (.inl ⟨hother hchange (fun _ => nofun), ?_⟩)))
      unfold trackAfter
      simp only [hchange]

/-- The address of the placement an entry is added with. -/
theorem placedAt_placement {b : EntryBuilder} {place : Placement StorageKey}
    (h : placedAt b op = .ok place) : place.placement = changeAddress op.info op.offset := by
  obtain ⟨container, -, h1⟩ := bind_eq_ok.mp h
  obtain ⟨key, -, h2⟩ := bind_eq_ok.mp h1
  rw [← pure_eq_ok.mp h2]

theorem extractMovement_ok {b : MovementBuilder} {info : BundleInfo} {offset : Nat} {m : Movement}
    (h : extractMovement b info offset = .ok m) :
    m.movementId = changeAddress info offset ∧ m.purge = b.purge := by
  obtain ⟨e, -, h1⟩ := bind_eq_ok.mp h
  rw [← pure_eq_ok.mp h1]
  exact ⟨rfl, rfl⟩

/-- What is known of a track after some changes. -/
structure Known (entry : MuidTuple) (past : List Op) (k : Track) : Prop where
  added : ∃ op ∈ past, changeAddress op.info op.offset = entry
  made : ∃ op ∈ past, changeAddress op.info op.offset = k.place.placement
  after : k.place.placement = entry ∨ entry.Before k.place.placement
  unmoved : k.moved = false → k.place.placement = entry ∧ k.deleted = false
  relocated : k.moved = true → k.deleted = false → entry.Before k.place.placement
  cleared : ∀ op ∈ past, ∀ z, IndexedDb.clearanceOf op = some z →
    z.containerId = k.place.container → k.place.placement.Before z.clearanceId → k.cleared = true

theorem Known.mono (h : Known entry past k) (hclear : IndexedDb.clearanceOf op = none) :
    Known entry (past ++ [op]) k := by
  obtain ⟨a, ha, hadded⟩ := h.added
  obtain ⟨b, hb, hmade⟩ := h.made
  refine ⟨⟨a, List.mem_append_left _ ha, hadded⟩, ⟨b, List.mem_append_left _ hb, hmade⟩, h.after,
    h.unmoved, h.relocated, fun o ho z hz => ?_⟩
  rcases List.mem_append.mp ho with ho | ho
  · exact h.cleared o ho z hz
  · rw [List.mem_singleton.mp ho, hclear] at hz
    cases hz

/-- At a place made by the last change no clearance has come yet. -/
theorem not_cleared_yet (horder : InOrder (past ++ [op])) {place : MuidTuple}
    (hplace : place = changeAddress op.info op.offset) {o : Op} (ho : o ∈ past ++ [op])
    {z : Clearance} (hz : IndexedDb.clearanceOf o = some z) : ¬ place.Before z.clearanceId := by
  intro hbefore
  rw [MemoryStore.clearanceOf_address hz, hplace] at hbefore
  rcases List.mem_append.mp ho with ho | ho
  · exact (hbefore.trans ((List.pairwise_append.mp horder).2.2 o ho op
      (List.mem_singleton.mpr rfl))).ne rfl
  · rw [List.mem_singleton.mp ho] at hbefore
    exact hbefore.ne rfl

/-- A movement after what is known. -/
theorem Known.move (h : Known entry past k) (horder : InOrder (past ++ [op])) {m : Movement}
    (hm : m.movementId = changeAddress op.info op.offset)
    (hclear : IndexedDb.clearanceOf op = none) : Known entry (past ++ [op]) (k.move m) := by
  obtain ⟨a, ha, hadded⟩ := h.added
  have hmono := h.mono hclear
  unfold Track.move
  split_ifs with hdest
  · exact ⟨hmono.added, hmono.made, hmono.after, fun hmoved => Bool.noConfusion hmoved,
      fun _ hdeleted => Bool.noConfusion hdeleted, hmono.cleared⟩
  · have hlater : entry.Before m.movementId := by
      rw [hm, ← hadded]
      exact (List.pairwise_append.mp horder).2.2 a ha op (List.mem_singleton.mpr rfl)
    exact ⟨hmono.added, ⟨op, List.mem_append_right _ (List.mem_singleton.mpr rfl), hm.symm⟩,
      Or.inr hlater, fun hmoved => Bool.noConfusion hmoved, fun _ _ => hlater,
      fun o ho z hz _ hbefore => absurd hbefore (not_cleared_yet horder hm ho hz)⟩

theorem Known.clear (h : Known entry past k) {z : Clearance}
    (hclear : IndexedDb.clearanceOf op = some z) : Known entry (past ++ [op]) (k.clear z) := by
  obtain ⟨a, ha, hadded⟩ := h.added
  obtain ⟨b, hb, hmade⟩ := h.made
  have hadded' : ∃ o ∈ past ++ [op], changeAddress o.info o.offset = entry :=
    ⟨a, List.mem_append_left _ ha, hadded⟩
  have hmade' : ∃ o ∈ past ++ [op], changeAddress o.info o.offset = k.place.placement :=
    ⟨b, List.mem_append_left _ hb, hmade⟩
  unfold Track.clear
  split_ifs with hcontainer
  · exact ⟨hadded', hmade', h.after, h.unmoved, h.relocated, fun _ _ _ _ _ _ => rfl⟩
  · refine ⟨hadded', hmade', h.after, h.unmoved, h.relocated, fun o ho y hy hyc hbefore => ?_⟩
    rcases List.mem_append.mp ho with ho | ho
    · exact h.cleared o ho y hy hyc hbefore
    · rw [List.mem_singleton.mp ho, hclear] at hy
      injection hy with hy
      exact absurd (hy ▸ hyc) hcontainer

/-- **What is known of a track.** -/
theorem trackOf_known (horder : InOrder past) (h : trackOf entry past = some k) :
    Known entry past k := by
  induction past using List.reverseRecOn generalizing k with
  | nil => exact Option.noConfusion rfl (heq_of_eq h)
  | append_singleton past op ih =>
      rw [trackOf_snoc] at h
      have hpast := (List.pairwise_append.mp horder).1
      have hself : op ∈ past ++ [op] := List.mem_append_right _ (List.mem_singleton.mpr rfl)
      rcases @trackAfter_cases entry (trackOf entry past) op with
        ⟨b, place, -, haddress, hplace, hafter⟩ | ⟨b, m, hchange, hextract, hentry, hafter⟩ |
        ⟨z, hz, hafter⟩ | ⟨hclear, hafter⟩ | ⟨-, -, hafter⟩
      · rw [hafter] at h
        injection h with h
        have hplacement := placedAt_placement hplace
        rw [← h]
        exact ⟨⟨op, hself, haddress⟩, ⟨op, hself, hplacement.symm⟩,
          Or.inl (hplacement.trans haddress), fun _ => ⟨hplacement.trans haddress, rfl⟩,
          fun hmoved => Bool.noConfusion hmoved,
          fun o ho z hz _ hbefore => absurd hbefore (not_cleared_yet horder hplacement ho hz)⟩
      · rw [hafter] at h
        obtain ⟨k₀, hk₀, rfl⟩ := Option.map_eq_some_iff.mp h
        have hclear : IndexedDb.clearanceOf op = none := by
          unfold IndexedDb.clearanceOf
          rw [hchange]
        exact (ih hpast hk₀).move horder (extractMovement_ok hextract).1 hclear
      · rw [hafter] at h
        obtain ⟨k₀, hk₀, rfl⟩ := Option.map_eq_some_iff.mp h
        exact (ih hpast hk₀).clear hz
      · rw [hafter] at h
        exact (ih hpast h).mono hclear
      · rw [hafter] at h
        exact Option.noConfusion rfl (heq_of_eq h)

/-- **Later changes** keep an entry that was added; one that no movement has come for since is
where it was. -/
theorem trackOf_later (h : trackOf entry past = some k)
    (hother : ∀ op ∈ more, changeAddress op.info op.offset ≠ entry) :
    ∃ k', trackOf entry (past ++ more) = some k' ∧
      (k'.moved = false → k.moved = false ∧ k'.place = k.place) := by
  induction more using List.reverseRecOn with
  | nil => exact ⟨k, by rw [List.append_nil, h], fun hmoved => ⟨hmoved, rfl⟩⟩
  | append_singleton more op ih =>
      obtain ⟨k₁, hk₁, hkept⟩ := ih fun a ha => hother a (List.mem_append_left _ ha)
      have hne := hother op (List.mem_append_right _ (List.mem_singleton.mpr rfl))
      rw [← List.append_assoc, trackOf_snoc, hk₁]
      rcases @trackAfter_cases entry (some k₁) op with
        ⟨b, place, -, haddress, -, -⟩ | ⟨b, m, -, -, -, hafter⟩ | ⟨z, -, hafter⟩ | ⟨-, hafter⟩ |
        ⟨-, haddress, -⟩
      · exact absurd haddress hne
      · refine ⟨k₁.move m, hafter, fun hmoved => ?_⟩
        have htrue : (k₁.move m).moved = true := by
          unfold Track.move
          split_ifs <;> rfl
        rw [htrue] at hmoved
        exact Bool.noConfusion hmoved
      · refine ⟨k₁.clear z, hafter, ?_⟩
        have hsame : (k₁.clear z).moved = k₁.moved ∧ (k₁.clear z).place = k₁.place := by
          unfold Track.clear
          split_ifs <;> exact ⟨rfl, rfl⟩
        rw [hsame.1, hsame.2]
        exact hkept
      · exact ⟨k₁, hafter, hkept⟩
      · exact absurd haddress hne

theorem OfOrdered.mono (h : OfOrdered past entry) (hsub : more ⊆ past) : OfOrdered more entry :=
  fun o ho haddress b container hb hc x hx =>
    h o (hsub ho) haddress b container hb hc x (hsub hx)

/-- **An entry of an ordered container** stands at a position. -/
theorem trackOf_positioned (hordered : OfOrdered past entry) (h : trackOf entry past = some k) :
    ∃ n, k.place.key = .number n := by
  induction past using List.reverseRecOn generalizing k with
  | nil => exact Option.noConfusion rfl (heq_of_eq h)
  | append_singleton past op ih =>
      have hpast : OfOrdered past entry := hordered.mono (List.subset_append_left _ _)
      have hself : op ∈ past ++ [op] := List.mem_append_right _ (List.mem_singleton.mpr rfl)
      rw [trackOf_snoc] at h
      rcases @trackAfter_cases entry (trackOf entry past) op with
        ⟨b, place, hchange, haddress, hplace, hafter⟩ | ⟨b, m, -, -, -, hafter⟩ |
        ⟨z, -, hafter⟩ | ⟨-, hafter⟩ | ⟨-, -, hafter⟩
      · rw [hafter] at h
        injection h with h
        obtain ⟨container, hcontainer, h1⟩ := bind_eq_ok.mp hplace
        obtain ⟨key, hkey, h2⟩ := bind_eq_ok.mp h1
        rw [← h, ← pure_eq_ok.mp h2]
        have hbehavior := hordered op hself haddress b container hchange hcontainer op hself b hchange
          hcontainer
        unfold getStorageKey at hkey
        rcases hbehavior with hb | hb <;>
        · simp only [hb, Except.ok.injEq] at hkey
          exact ⟨_, hkey.symm⟩
      · rw [hafter] at h
        obtain ⟨k₀, hk₀, rfl⟩ := Option.map_eq_some_iff.mp h
        have hkept := ih hpast hk₀
        unfold Track.move
        split_ifs
        · exact hkept
        · exact ⟨_, rfl⟩
      · rw [hafter] at h
        obtain ⟨k₀, hk₀, rfl⟩ := Option.map_eq_some_iff.mp h
        have hkept := ih hpast hk₀
        unfold Track.clear
        split_ifs <;> exact hkept
      · rw [hafter] at h
        exact ih hpast h
      · rw [hafter] at h
        exact Option.noConfusion rfl (heq_of_eq h)

/-- The container of the place was cleared, at a time after it and before the given one. -/
def ClearedSince (ops : List Op) (t : Int) (place : Placement StorageKey) : Prop :=
  ∃ op ∈ ops, ∃ z, IndexedDb.clearanceOf op = some z ∧ z.containerId = place.container ∧
    place.placement.timestamp < z.clearanceId.timestamp ∧ z.clearanceId.timestamp < t

end

/-! ## §4. Runs over the changes. -/

section
variable {σ : Type} {apply : Op → σ → Except JsError σ}

/-- Changes applied one after the other. -/
def applyOps (apply : Op → σ → Except JsError σ) : List Op → σ → Except JsError σ
  | [], c => .ok c
  | op :: rest, c => do
      let c ← apply op c
      applyOps apply rest c

theorem applyOps_append {l m : List Op} :
    ∀ {c : σ}, applyOps apply (l ++ m) c = applyOps apply l c >>= applyOps apply m := by
  induction l with
  | nil => exact rfl
  | cons op rest ih =>
      intro c
      show (apply op c >>= fun c => applyOps apply (rest ++ m) c) = _
      show _ = (apply op c >>= fun c => applyOps apply rest c) >>= applyOps apply m
      cases apply op c with
      | error e => rfl
      | ok c1 => exact ih

theorem applyOps_applied {ops : List Op} : ∀ {c c' : σ}, applyOps apply ops c = .ok c' →
    ∀ op ∈ ops, ∃ before after, apply op before = .ok after := by
  induction ops with
  | nil => exact fun _ op hop => absurd hop List.not_mem_nil
  | cons first rest ih =>
      intro c c' h op hop
      obtain ⟨c1, hone, hrest⟩ := bind_eq_ok.mp h
      rcases List.mem_cons.mp hop with rfl | hop
      · exact ⟨c, c1, hone⟩
      · exact ih hrest op hop

/-- **What every change keeps** holds after all of them; it may tell of the changes so far. -/
theorem applyOps_keeps {I : List Op → σ → Prop} {start : σ} (hstart : I [] start) :
    ∀ {ops : List Op} {c : σ},
      (∀ past op rest c c', ops = past ++ op :: rest → I past c → apply op c = .ok c' →
        I (past ++ [op]) c') →
      applyOps apply ops start = .ok c → I ops c := by
  intro ops
  induction ops using List.reverseRecOn with
  | nil =>
      intro c _ h
      injection h with h
      exact h ▸ hstart
  | append_singleton past op ih =>
      intro c hkeeps h
      rw [applyOps_append] at h
      obtain ⟨c1, hpast, hlast⟩ := bind_eq_ok.mp h
      obtain ⟨c2, hone, hdone⟩ := bind_eq_ok.mp hlast
      injection hdone with hdone
      subst hdone
      refine hkeeps past op [] c1 c2 rfl (ih (fun past' a rest c c' hsplit => ?_) hpast) hone
      exact hkeeps past' a (rest ++ [op]) c c' (by rw [hsplit]; simp)

end

end Js

end Gink
