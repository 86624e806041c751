/-
  Gink.Lmdb.ResetEnds — a recursive reset comes to its end (lmdb_store.py).

  Containers may contain each other in circles; what ends the recursion is the set `seen`.
  What ends the loop over the keys of one container is that each hop lands below the row it
  starts from, and that rests on the rows: a row that reads as a key packed above the one
  it is stored under is found again and again.
-/
import Gink.Lmdb.Reset
import Gink.Lmdb.KeyedConvergence
import Gink.Stores.ResetEntries

namespace Gink

open Machine (Generator)
open Machine.Generator (Holds Returns)

namespace Lmdb

/-! ## §1. What the walk can come to. -/

/-- The muid that the entry of a row holds, read as the entry of `muid`. -/
def pointeeOf (c : Contents) (row : Bytes × Bytes) (muid : Except Error Muid) : Option Muid :=
  match muid, readEntry c row.2 with
  | .ok m, .ok builder => match decodeEntryOccupant m builder with
      | .ok occupant => occupant.muid?
      | .error _ => none
  | _, _ => none

/-- The muids that the entries of the placements hold. -/
def pointees (c : Contents) : List Muid :=
  c.placements.rows.flatMap fun row =>
    [Muid.fromBytes (Placement.placerSlice row.1), Muid.fromBytes row.2].filterMap (pointeeOf c row)

/-- Only a pointee is recursed on. -/
def Reaches (c : Contents) (occupant : Occupant) : Prop :=
  ∀ m, occupant.muid? = some m → m ∈ pointees c

section
variable {c : Contents} {row : Bytes × Bytes} {builder : EntryBuilder} {occupant : Occupant}

theorem reaches_of_muid (hrow : row ∈ c.placements.rows) {m : Muid}
    (hm : Muid.fromBytes (Placement.placerSlice row.1) = .ok m ∨ Muid.fromBytes row.2 = .ok m)
    (hb : readEntry c row.2 = .ok builder) (ho : decodeEntryOccupant m builder = .ok occupant) :
    Reaches c occupant := by
  intro p hp
  have hpointee : pointeeOf c row (.ok m) = some p := by
    unfold pointeeOf
    rw [hb]
    show (match decodeEntryOccupant m builder with
      | .ok occupant => occupant.muid?
      | .error _ => none) = _
    rw [ho]
    exact hp
  apply List.mem_flatMap.mpr
  refine ⟨row, hrow, List.mem_filterMap.mpr ?_⟩
  rcases hm with hm | hm
  · exact ⟨_, List.mem_cons_self, hm ▸ hpointee⟩
  · exact ⟨_, List.mem_cons_of_mem _ List.mem_cons_self, hm ▸ hpointee⟩

/-- The entry under a placement, read as the entry of its placer. -/
theorem reaches_of_placement (hrow : row ∈ c.placements.rows) {behavior : Behavior}
    {placement : Placement} (hp : Placement.fromBytes row.1 behavior = .ok placement)
    (hb : readEntry c row.2 = .ok builder)
    (ho : decodeEntryOccupant placement.placer builder = .ok occupant) : Reaches c occupant :=
  reaches_of_muid hrow (Or.inl (placer_of_fromBytes hp)) hb ho

theorem reaches_deletion : Reaches c .deletion := by
  intro m hm
  cases hm

end

/-! ## §2. The loop over the keys. -/

section
variable {c : Contents} {q : KeyedReset} {row : Bytes × Bytes} {placement : Placement}
  {builder : EntryBuilder} {P : Seen → Prop}

theorem containedThen_reaches {key : MiddleKey} {past : Option EntryBuilder × Occupant}
    (h : containedThen c q row key = .ok past) : Reaches c past.2 := by
  unfold containedThen at h
  obtain ⟨lastClear, -, h⟩ := bind_eq_ok.mp h
  obtain ⟨instant, -, h⟩ := bind_eq_ok.mp h
  obtain ⟨limit, -, h⟩ := bind_eq_ok.mp h
  obtain ⟨_, -, h⟩ := bind_eq_ok.mp h
  cases hfound : toLastBefore c.placements (row.1.take (row.1.length - 24)) limit with
  | none =>
      rw [hfound] at h
      rw [← pure_eq_ok.mp h]
      exact reaches_deletion
  | some found =>
      rw [hfound] at h
      obtain ⟨placement, hplacement, h⟩ := bind_eq_ok.mp h
      obtain ⟨builder, hbuilder, h⟩ := bind_eq_ok.mp h
      split at h
      · obtain ⟨occupant, hoccupant, h⟩ := bind_eq_ok.mp h
        rw [← pure_eq_ok.mp h]
        exact reaches_of_placement (toLastBefore_found hfound).1 hplacement hbuilder hoccupant
      · rw [← pure_eq_ok.mp h]
        exact reaches_deletion

theorem restoreKey_holds (key : MiddleKey) (past : Option EntryBuilder) (contained : Occupant) :
    Holds P (fun _ => True) (· ≠ .spent) (restoreKey q key past contained) := by
  unfold restoreKey
  split
  · apply attempt_bind_holds
    intro entry _
    exact Holds.yielding trivial
  · exact Holds.yielding trivial
  · exact Holds.pure ()

theorem settleKey_holds (key : MiddleKey) (containedNow : Occupant) :
    Holds P (fun _ => True) (· ≠ .spent) (settleKey c q row key containedNow) := by
  apply attempt_bind_holds
  intro past _
  split
  · exact Holds.pure _
  · apply Holds.bind (restoreKey_holds _ _ _)
    intro _
    exact Holds.pure _

theorem settleKey_returns (key : MiddleKey) (containedNow : Occupant) :
    Returns (Reaches c) (settleKey c q row key containedNow) := by
  unfold settleKey
  refine Returns.bind (R := fun past => Reaches c past.2)
    (attempt_returns fun _ h => containedThen_reaches h) ?_
  intro past hpast
  split
  · exact Returns.pure hpast
  · exact Returns.bind (Returns.trivial _) fun _ _ => Returns.pure hpast

theorem resetKey_holds :
    Holds P (fun _ => True) (· ≠ .spent) (resetKey c q row placement builder) := by
  unfold resetKey
  split
  · exact attempt_holds _
  · split
    · exact attempt_bind_holds fun _ _ => settleKey_holds _ _
    · exact settleKey_holds _ _

/-- A key is recursed on for what it holds, or held. -/
theorem resetKey_returns (hrow : row ∈ c.placements.rows)
    (hp : Placement.fromBytes row.1 q.behavior = .ok placement)
    (hb : readEntry c row.2 = .ok builder) :
    Returns (Reaches c) (resetKey c q row placement builder) := by
  unfold resetKey
  split
  · exact attempt_returns fun _ ho => reaches_of_placement hrow hp hb ho
  · split
    · exact Returns.bind (Returns.trivial _) fun _ _ => settleKey_returns _ _
    · exact settleKey_returns _ _

theorem recurseOn_holds {recurse : Muid → Resetting Unit} {occupant : Occupant}
    (hreach : Reaches c occupant)
    (hrec : ∀ m ∈ pointees c, Holds P (fun _ => True) (· ≠ .spent) (recurse m)) :
    Holds P (fun _ => True) (· ≠ .spent) (recurseOn recurse occupant) := by
  apply Holds.read_bind
  intro s hs
  cases s with
  | none => exact Holds.pure () none hs
  | some l =>
      cases hm : occupant.muid? with
      | none => exact Holds.pure () (some l) hs
      | some m => exact hrec m (hreach m hm) (some l) hs

end

/-- The behaviors of the containers whose keys the loop goes through. -/
def keyedBehaviors : List Behavior :=
  [.directory, .box, .group, .keySet, .property, .pairMap, .pairSet]

/-- The hop from a row is aimed at the row or below it: the key it reads as packs no higher
than the bytes it is stored under. -/
def HopsDown (container : Muid) (behavior : Behavior) (row : Bytes × Bytes) : Prop :=
  ∀ placement limit, Placement.fromBytes row.1 behavior = .ok placement →
    (Placement.mk container placement.middle ⟨0, 0, 0⟩ none).toBytes = .ok limit → limit ≤ row.1

/-- Every row of every keyed container can be hopped from. -/
def KeysDescend (c : Contents) : Prop :=
  ∀ row ∈ c.placements.rows, ∀ container behavior, container.toBytes.isPrefixOf row.1 = true →
    getBehavior c container = .ok behavior → behavior ∈ keyedBehaviors →
      HopsDown container behavior row

/-- The same, computed: on the container, the behavior and the key a row reads as. -/
def hopsDown (c : Contents) (row : Bytes × Bytes) : Bool :=
  match (do
    let container ← Muid.fromBytes (row.1.take 16)
    let behavior ← getBehavior c container
    if behavior ∉ keyedBehaviors then return true
    let placement ← Placement.fromBytes row.1 behavior
    let limit ← (Placement.mk container placement.middle ⟨0, 0, 0⟩ none).toBytes
    return decide (limit ≤ row.1) : Except Error Bool) with
  | .ok down => down
  | .error _ => true

theorem keysDescend_of_all {c : Contents} (h : c.placements.rows.all (hopsDown c) = true) :
    KeysDescend c := by
  intro row hrow container behavior hpre hbehavior hkeyed placement limit hp hlimit
  have hcontainer : Muid.fromBytes (row.1.take 16) = .ok container := by
    obtain ⟨rest, hrest⟩ := List.isPrefixOf_iff_prefix.mp hpre
    rw [← hrest, List.take_left' (Muid.length_toBytes container), Muid.fromBytes_toBytes]
  have hdown := List.all_eq_true.mp h row hrow
  unfold hopsDown at hdown
  rw [hcontainer] at hdown
  change (match (getBehavior c container >>= _ : Except Error Bool) with
    | .ok down => down
    | .error _ => true) = true at hdown
  rw [hbehavior] at hdown
  change (match (if behavior ∉ keyedBehaviors then _ else _ : Except Error Bool) with
    | .ok down => down
    | .error _ => true) = true at hdown
  rw [if_neg (not_not.mpr hkeyed), hp] at hdown
  change (match ((Placement.mk container placement.middle ⟨0, 0, 0⟩ none).toBytes >>= _
    : Except Error Bool) with
    | .ok down => down
    | .error _ => true) = true at hdown
  rw [hlimit] at hdown
  exact of_decide_eq_true hdown

/-- How many rows lie below a key. -/
def rowsBelow (c : Contents) (key : Bytes) : Nat :=
  (c.placements.rows.filter (fun r => decide (r.1 < key))).length

theorem rowsBelow_lt {c : Contents} {r : Bytes × Bytes} {key : Bytes}
    (hr : r ∈ c.placements.rows) (hlt : r.1 < key) : rowsBelow c r.1 < rowsBelow c key := by
  have hsub : c.placements.rows.filter (fun x => decide (x.1 < r.1))
      = (c.placements.rows.filter (fun x => decide (x.1 < key))).filter
          (fun x => decide (x.1 < r.1)) := by
    rw [List.filter_filter]
    apply List.filter_congr
    intro x _
    by_cases hx : x.1 < r.1
    · simp [hx, hx.trans hlt]
    · simp [hx]
  unfold rowsBelow
  rw [hsub]
  apply List.length_filter_lt_length_iff_exists.mpr
  exact ⟨r, List.mem_filter.mpr ⟨hr, decide_eq_true hlt⟩, by simp⟩

theorem rowsBelow_le (c : Contents) (key : Bytes) : rowsBelow c key ≤ c.placements.rows.length :=
  List.length_filter_le _ _

/-- **The loop ends**: each hop lands on a row with fewer rows below it. -/
theorem keyedResetLoop_holds {c : Contents} {q : KeyedReset} {recurse : Muid → Resetting Unit}
    {P : Seen → Prop}
    (hdescend : ∀ row ∈ c.placements.rows, q.container.toBytes.isPrefixOf row.1 = true →
      HopsDown q.container q.behavior row)
    (hrec : ∀ m ∈ pointees c, Holds P (fun _ => True) (· ≠ .spent) (recurse m)) (fuel : Nat)
    (found : Option (Bytes × Bytes))
    (hfound : ∀ row, found = some row → row ∈ c.placements.rows ∧
      q.container.toBytes.isPrefixOf row.1 = true ∧ rowsBelow c row.1 < fuel) :
    Holds P (fun _ => True) (· ≠ .spent) (keyedResetLoop c q recurse fuel found) := by
  induction fuel generalizing found with
  | zero =>
      cases found with
      | none => exact Holds.pure ()
      | some row => exact absurd (hfound row rfl).2.2 (Nat.not_lt_zero _)
  | succ fuel ih =>
      cases found with
      | none => exact Holds.pure ()
      | some row =>
          obtain ⟨hrow, hpre, hbelow⟩ := hfound row rfl
          apply attempt_bind_holds
          intro placement hp
          apply attempt_bind_holds
          intro builder hb
          apply Holds.bind_returns resetKey_holds (resetKey_returns hrow hp hb)
          intro occupant hreach
          apply Holds.bind (recurseOn_holds hreach hrec)
          intro _
          split
          · exact Holds.pure ()
          · apply attempt_bind_holds
            intro limit hlimit
            apply ih
            intro next hnext
            obtain ⟨hmem, hlt, hpre'⟩ := toLastBefore_found hnext
            have hlower : next.1 < row.1 :=
              lt_of_lt_of_le hlt (hdescend row hrow hpre placement limit hp hlimit)
            have := rowsBelow_lt hmem hlower
            exact ⟨hmem, hpre', by omega⟩

/-! ## §3. The loop over the placements. -/

section
variable {c : Contents} {q : OrderedReset} {P : Seen → Prop}

theorem reissueLoop_holds (describing : Bytes) (rows : List (Bytes × Bytes)) (issued : List Bytes)
    (offset : Int) :
    Holds P (fun _ => True) (· ≠ .spent) (reissueLoop c describing rows issued offset) := by
  induction rows generalizing issued offset with
  | nil => exact Holds.pure ()
  | cons row rest ih =>
      unfold reissueLoop
      split
      · exact Holds.pure ()
      · split
        · exact ih _ _
        · refine attempt_bind_holds fun builder _ => attempt_bind_holds fun muid _ =>
            attempt_bind_holds fun builder _ => attempt_bind_holds fun back _ => ?_
          exact Holds.bind (Holds.yielding trivial) fun _ => ih _ _

theorem reissueProperties_holds (describing : Bytes) (toTime : Int) :
    Holds P (fun _ => True) (· ≠ .spent) (reissueProperties c describing toTime) := by
  unfold reissueProperties
  apply attempt_bind_holds
  intro instant _
  split
  · exact Holds.pure ()
  · exact reissueLoop_holds _ _ _ _

theorem undoPlacement_holds (entryMuid : Muid) (placement : Placement)
    (location previous : Option Placement) :
    Holds P (fun _ => True) (· ≠ .spent)
      (undoPlacement q entryMuid placement location previous) := by
  unfold undoPlacement
  split
  · cases previous with
    | none => exact Holds.yielding trivial
    | some previous =>
        refine attempt_bind_holds fun positionThen _ => attempt_bind_holds fun positionNow _ => ?_
        split
        · exact Holds.yielding trivial
        · exact Holds.pure ()
  · exact Holds.pure ()

theorem restorePlacement_holds {recurse : Muid → Resetting Unit} {row : Bytes × Bytes}
    (hrow : row ∈ c.placements.rows) {entryMuid : Muid} (hmuid : Muid.fromBytes row.2 = .ok entryMuid)
    (hrec : ∀ m ∈ pointees c, Holds P (fun _ => True) (· ≠ .spent) (recurse m))
    (placement : Placement) (location previous : Option Placement) :
    Holds P (fun _ => True) (· ≠ .spent)
      (restorePlacement c q recurse row.2 entryMuid placement location previous) := by
  unfold restorePlacement
  split
  · apply attempt_bind_holds
    intro builder hbuilder
    apply attempt_bind_holds
    intro occupant hoccupant
    apply Holds.bind (recurseOn_holds (reaches_of_muid hrow (Or.inr hmuid) hbuilder hoccupant) hrec)
    intro _
    split
    · refine attempt_bind_holds fun builder _ => attempt_bind_holds fun position _ => ?_
      apply Holds.bind (Holds.yielding trivial)
      intro _
      split
      · exact reissueProperties_holds _ _
      · exact Holds.pure ()
    · exact Holds.pure ()
  · exact Holds.pure ()

theorem orderedResetLoop_holds {recurse : Muid → Resetting Unit}
    (hrec : ∀ m ∈ pointees c, Holds P (fun _ => True) (· ≠ .spent) (recurse m))
    (rows : List (Bytes × Bytes)) (hrows : ∀ row ∈ rows, row ∈ c.placements.rows) :
    Holds P (fun _ => True) (· ≠ .spent) (orderedResetLoop c q recurse rows) := by
  induction rows with
  | nil => exact Holds.pure ()
  | cons row rest ih =>
      unfold orderedResetLoop
      split
      · exact Holds.pure ()
      · apply attempt_bind_holds
        intro placement _
        apply attempt_bind_holds
        intro entryMuid hmuid
        refine attempt_bind_holds fun location _ => attempt_bind_holds fun previous _ => ?_
        apply Holds.bind (undoPlacement_holds _ _ _ _)
        intro _
        apply Holds.bind
          (restorePlacement_holds (hrows row List.mem_cons_self) hmuid hrec _ _ _)
        intro _
        exact ih fun r hr => hrows r (List.mem_cons_of_mem row hr)

end

/-! ## §4. The recursion. -/

/-- The containers processed so far: those of `base` and more, none of them twice. -/
def Seeing (base : List Muid) (seen : Seen) : Prop :=
  ∃ processed, seen = some processed ∧ base ⊆ processed ∧ processed.Nodup

/-- What is not processed yet. -/
def unseen (targets processed : List Muid) : Nat :=
  (targets.filter (fun m => decide (m ∉ processed))).length

theorem unseen_cons_lt {targets base : List Muid} {m : Muid} (hm : m ∈ targets)
    (hnew : m ∉ base) : unseen targets (m :: base) < unseen targets base := by
  have hsub : targets.filter (fun x => decide (x ∉ m :: base))
      = (targets.filter (fun x => decide (x ∉ base))).filter
          (fun x => decide (x ∉ m :: base)) := by
    rw [List.filter_filter]
    apply List.filter_congr
    intro x _
    by_cases hx : x ∈ base
    · simp [hx]
    · simp [hx]
  unfold unseen
  rw [hsub]
  apply List.length_filter_lt_length_iff_exists.mpr
  exact ⟨m, List.mem_filter.mpr ⟨hm, by simpa using hnew⟩, by simp⟩

section
variable {c : Contents} {base : List Muid} {container : Muid} {toTime : Int}

/-- A container is processed when it is not among the processed ones, and is one of them from
then on. -/
theorem enter_holds {rest : Resetting Unit}
    (h : container ∉ base → Holds (Seeing (container :: base)) (fun _ => True) (· ≠ .spent) rest) :
    Holds (Seeing base) (fun _ => True) (· ≠ .spent) (Generator.read >>= fun seen =>
      if !(enter container seen).1 then pure ()
      else Generator.write (enter container seen).2 >>= fun _ => rest : Resetting Unit) := by
  apply Holds.read_bind
  rintro _ ⟨processed, rfl, hbase, hnodup⟩
  by_cases hin : container ∈ processed
  · have henter : enter container (some processed) = (false, some processed) := if_pos hin
    rw [henter]
    exact Holds.pure () _ ⟨processed, rfl, hbase, hnodup⟩
  · have henter : enter container (some processed) = (true, some (container :: processed)) :=
      if_neg hin
    rw [henter]
    have hin' : container ∉ base := fun hb => hin (hbase hb)
    refine Holds.within (s := some (container :: processed)) (h hin')
      ⟨_, rfl, ?_, List.nodup_cons.mpr ⟨hin, hnodup⟩⟩ ?_
    · exact List.cons_subset_cons container hbase
    · rintro t ⟨later, rfl, hlater, hnodup'⟩
      exact ⟨later, rfl, fun m hm => hlater (List.mem_cons_of_mem _ hm), hnodup'⟩

theorem vertexReset_holds {P : Seen → Prop} :
    Holds P (fun _ => True) (· ≠ .spent) (vertexReset c container toTime) := by
  unfold vertexReset
  refine attempt_bind_holds fun instant _ => attempt_bind_holds fun previous _ =>
    attempt_bind_holds fun isDeleted _ => ?_
  split
  · exact Holds.yielding trivial
  · exact Holds.pure ()

theorem accumulatorReset_holds {P : Seen → Prop} :
    Holds P (fun _ => True) (· ≠ .spent) (accumulatorReset c container toTime) := by
  unfold accumulatorReset
  exact attempt_bind_holds fun previous _ => attempt_bind_holds fun current _ =>
    Holds.yielding trivial

theorem keyedReset_holds {recurse : Muid → Resetting Unit} {behavior : Behavior} {fuel : Nat}
    (hdescend : ∀ row ∈ c.placements.rows, container.toBytes.isPrefixOf row.1 = true →
      HopsDown container behavior row)
    (hfuel : c.placements.rows.length < fuel)
    (hrec : container ∉ base → ∀ m ∈ pointees c,
      Holds (Seeing (container :: base)) (fun _ => True) (· ≠ .spent) (recurse m)) :
    Holds (Seeing base) (fun _ => True) (· ≠ .spent)
      (keyedReset c container toTime recurse none behavior fuel) := by
  apply enter_holds
  intro hnew
  refine attempt_bind_holds fun lastClearTime _ => attempt_bind_holds fun keyBytes hkey => ?_
  have hnone : keyBytes = [] := (Except.ok.inj (show Except.ok [] = Except.ok keyBytes from hkey)).symm
  apply keyedResetLoop_holds (q := ⟨container, toTime, behavior, none, lastClearTime⟩) hdescend
    (hrec hnew)
  intro row hrow
  rw [hnone, List.append_nil] at hrow
  obtain ⟨hmem, -, hpre⟩ := toLastBefore_found hrow
  exact ⟨hmem, hpre, lt_of_le_of_lt (rowsBelow_le c row.1) hfuel⟩

theorem orderedReset_holds {recurse : Muid → Resetting Unit}
    (hrec : container ∉ base → ∀ m ∈ pointees c,
      Holds (Seeing (container :: base)) (fun _ => True) (· ≠ .spent) (recurse m)) :
    Holds (Seeing base) (fun _ => True) (· ≠ .spent)
      (orderedReset c container toTime recurse) := by
  apply enter_holds
  intro hnew
  refine attempt_bind_holds fun lastClearTime _ => attempt_bind_holds fun clearBeforeTo _ => ?_
  exact orderedResetLoop_holds (hrec hnew) _ fun r hr => (List.mem_filter.mp hr).1

/-- **The recursion ends**: every container entered is one less to enter, and there is fuel
for each of them and for the rows of one. -/
theorem containerReset_holds (hc : KeysDescend c) (t : Int) {targets : List Muid}
    (htargets : pointees c ⊆ targets) (fuel : Nat) (base : List Muid) (container : Muid)
    (hin : container ∈ targets)
    (hfuel : unseen targets base + c.placements.rows.length + 2 ≤ fuel) :
    Holds (Seeing base) (fun _ => True) (· ≠ .spent) (containerReset c t fuel container) := by
  induction fuel generalizing base container with
  | zero => omega
  | succ fuel ih =>
      have hrec : container ∉ base → ∀ m ∈ pointees c, Holds (Seeing (container :: base))
          (fun _ => True) (· ≠ .spent) (containerReset c t fuel m) := by
        intro hnew m hm
        have := unseen_cons_lt hin hnew
        exact ih (container :: base) m (htargets hm) (by omega)
      unfold containerReset
      apply attempt_bind_holds
      intro behavior hbehavior
      have hdescend (hkeyed : behavior ∈ keyedBehaviors) : ∀ row ∈ c.placements.rows,
          container.toBytes.isPrefixOf row.1 = true → HopsDown container behavior row :=
        fun row hrow hpre => hc row hrow container behavior hpre hbehavior hkeyed
      split
      case h_1 => exact vertexReset_holds
      case h_2 | h_3 | h_4 | h_5 | h_6 | h_7 | h_8 =>
        exact keyedReset_holds (hdescend (by decide)) (by omega) hrec
      case h_9 | h_10 | h_11 => exact orderedReset_holds hrec
      case h_12 => exact accumulatorReset_holds
      case h_13 => exact Holds.stop (by decide)

end

/-! ## §5. A walk without an end. -/

/-- **A row that is found again**: when the hop from a row lands on the row itself, and nothing
on the way raises, the loop does not end. -/
theorem keyedResetLoop_stuck {c : Contents} {q : KeyedReset} {recurse : Muid → Resetting Unit}
    {row : Bytes × Bytes} {placement : Placement} {builder : EntryBuilder} {occupant : Occupant}
    {limit : Bytes} (hall : q.singleUserKey = none)
    (hp : Placement.fromBytes row.1 q.behavior = .ok placement)
    (hb : readEntry c row.2 = .ok builder)
    (hquiet : placement.placer.timestamp < q.toTime ∧ q.lastClearTime < q.toTime)
    (ho : decodeEntryOccupant placement.placer builder = .ok occupant)
    (hleaf : occupant.muid? = none)
    (hlimit : (Placement.mk q.container placement.middle ⟨0, 0, 0⟩ none).toBytes = .ok limit)
    (hagain : toLastBefore c.placements q.container.toBytes limit = some row) (fuel : Nat)
    (seen : Seen) :
    (keyedResetLoop c q recurse fuel (some row) seen).result = .error .spent := by
  induction fuel with
  | zero => rfl
  | succ fuel ih =>
      have hkey : resetKey c q row placement builder = attempt (.ok occupant) := by
        unfold resetKey
        rw [if_pos hquiet, ho]
      have hrecurse : recurseOn recurse occupant seen = ⟨[], seen, .ok ()⟩ := by
        unfold recurseOn
        rw [Generator.read_bind, hleaf]
        cases seen <;> rfl
      have hturn : keyedResetLoop c q recurse (fuel + 1) (some row) seen
          = (recurseOn recurse occupant >>= fun _ => keyedResetLoop c q recurse fuel (some row) :
              Resetting Unit) seen := by
        show (attempt (Placement.fromBytes row.1 q.behavior) >>= _ : Resetting Unit) seen = _
        rw [hp]
        show (attempt (readEntry c row.2) >>= _ : Resetting Unit) seen = _
        rw [hb]
        show (resetKey c q row placement builder >>= _ : Resetting Unit) seen = _
        rw [hkey]
        show (recurseOn recurse occupant >>= _ : Resetting Unit) seen = _
        rw [hall]
        show (recurseOn recurse occupant >>= fun _ => (attempt (Placement.mk q.container
          placement.middle ⟨0, 0, 0⟩ none).toBytes >>= _ : Resetting Unit) : Resetting Unit) seen = _
        rw [hlimit]
        show (recurseOn recurse occupant >>= fun _ => keyedResetLoop c q recurse fuel
          (toLastBefore c.placements q.container.toBytes limit) : Resetting Unit) seen = _
        rw [hagain]
      rw [hturn, Generator.bind_apply, hrecurse]
      exact ih

/-! ## §6. Recursive resets. -/

/-- How much fuel a reset needs at most. -/
def enoughFuel (c : Contents) : Nat := (pointees c).length + c.placements.rows.length + 3

/-- An entry that holds its own directory under a key. -/
def holdingItself (key : String) : ChangeBuilder :=
  .entry {
    container := some ⟨0, 0, 1⟩
    behavior := .directory
    subject := some (.key (some (.characters key)))
    contains := some (.pointee ⟨0, 0, 1⟩) }

/-- A directory that holds itself twice. -/
def circleStore : Contents :=
  (runCalls (sampleExternals [startingBundle 5 1
      [.container ⟨.directory⟩, holdingItself "a", holdingItself "b"]])
    (newStore ∅ true true) [sampleCall 0 1]).db.contents

/-- An entry of a sequence in the global directory; its position packs to the bytes of a key
message with two members, of which the second one counts. -/
def misplacedEntry : ChangeBuilder :=
  .entry {
    container := some (globalBuilder .directory)
    behavior := .sequence
    effective := 0x0801120461626364
    contains := some (.value (.characters "x")) }

/-- A store that has it. -/
def misplacedStore : Contents :=
  (runCalls (sampleExternals [startingBundle 5 1 [misplacedEntry]]) (newStore ∅ true true)
    [sampleCall 0 1]).db.contents

/-- The row of that entry. -/
def misplacedRow : Bytes × Bytes :=
  ((globalMuid .directory).toBytes ++ packSigned 0x0801120461626364 ++ (⟨5, 1, 1⟩ : Muid).toBytes
    ++ packSigned 0, (⟨5, 1, 1⟩ : Muid).toBytes)

end Lmdb

end Gink
