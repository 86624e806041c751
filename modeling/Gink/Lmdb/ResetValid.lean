/-
  Gink.Lmdb.ResetValid — the changes of a reset of an `LmdbStore` pass `validate_bundle`.

  What a reset yields is an entry of the store, reworded or not, or of its own making.  One
  of these the validator refuses: the deletion of what a box holds.
-/
import Gink.Lmdb.EntryRows
import Gink.Lmdb.Reset
import Gink.Stores.ResetEntries

namespace Gink

open Machine (Generator)
open Machine.Generator (Holds Returns)

namespace Lmdb

/-! ## §1. Where the reset would write what is refused. -/

/-- The entry of a placement of the container holds the muid, read under its own address or
that of its placer. -/
def Holding (c : Contents) (container muid : Muid) : Prop :=
  ∃ row ∈ c.placements.rows, container.toBytes.isPrefixOf row.1 = true ∧
    ∃ entryMuid builder occupant,
      (Muid.fromBytes row.2 = .ok entryMuid ∨
        Muid.fromBytes (Placement.placerSlice row.1) = .ok entryMuid) ∧
      readEntry c row.2 = .ok builder ∧
      decodeEntryOccupant entryMuid builder = .ok occupant ∧ occupant.muid? = some muid

/-- The containers that the reset of one may come to: itself, and when the reset recurses what
it holds, and so on. -/
def Scope (c : Contents) (recursive : Bool) (root muid : Muid) : Prop :=
  muid = root ∨ recursive = true ∧ Relation.TransGen (Holding c) root muid

/-- The containers that a reset may come to, by what it is asked for. -/
def ComesTo (c : Contents) (container : Option Muid) (userKey : Option UserKey) (recursive : Bool)
    (m : Muid) : Prop :=
  match container, userKey with
  | none, none => .ok m ∈ allContainers c
  | none, some _ => False
  | some root, none => Scope c recursive root m
  | some root, some _ => recursive = true ∧ Relation.TransGen (Holding c) root m

/-- What the last row of a box holds, unless it is cleared, has come since `to_time`, or has
been cleared and come since. -/
structure HoldsSince (c : Contents) (toTime : Int) (box : Muid) (row : Bytes × Bytes) : Prop where
  last : toLast c.placements box.toBytes = some row
  parsed : ∃ placement builder time, Placement.fromBytes row.1 .box = .ok placement ∧
    readEntry c row.2 = .ok builder ∧ builder.deletion = false ∧
    timeOfPriorClear c box (-1) = .ok time ∧ time ≤ placement.placer.timestamp ∧
    (toTime ≤ placement.placer.timestamp ∨ toTime ≤ time)

/-- The last row of the box before `to_time`, if there is one, was cleared by then or deletes. -/
def HeldNothing (c : Contents) (toTime : Int) (box : Muid) : Prop :=
  ∃ instant limit time, Muid.instant toTime = .ok instant ∧
    (Placement.mk box .none instant none).toBytes = .ok limit ∧
    timeOfPriorClear c box toTime = .ok time ∧
    ∀ row, toLastBefore c.placements box.toBytes limit = some row →
      ∃ placement builder, Placement.fromBytes row.1 .box = .ok placement ∧
        readEntry c row.2 = .ok builder ∧
        (placement.placer.timestamp ≤ time ∨ builder.deletion = true)

/-- The box holds something now, and held nothing then: the reset would delete. -/
def BoxFilled (c : Contents) (toTime : Int) (box : Muid) : Prop :=
  getBehavior c box = .ok .box ∧ (∃ row, HoldsSince c toTime box row) ∧ HeldNothing c toTime box

/-- The entry was where the row places it at `to_time`, and is not there any longer: it is
issued again. -/
structure Reissued (c : Contents) (toTime : Int) (container : Muid) (row : Bytes × Bytes)
    (entryMuid : Muid) (placement : Placement) (builder : EntryBuilder) : Prop where
  member : row ∈ c.placements.rows
  own : container.toBytes.isPrefixOf row.1 = true
  muid : Muid.fromBytes row.2 = .ok entryMuid
  parsed : Placement.fromBytes row.1 .sequence = .ok placement
  stored : readEntry c row.2 = .ok builder
  previous : getLocation c entryMuid toTime = .ok (some placement)
  uncleared : ∃ time, timeOfPriorClear c container toTime = .ok time ∧ time < placement.placedTime
  gone : getLocation c entryMuid (-1) = .ok none ∨
    ∃ time, timeOfPriorClear c container (-1) = .ok time ∧ placement.placedTime < time

/-- What describes the entry up to `instant` describes something. -/
def DescribersDescribe (c : Contents) (entryBytes : Bytes) (instant : Muid) : Prop :=
  ∀ row ∈ c.indexes.byDescribing.rows, entryBytes.isPrefixOf row.1 = true →
    row.1 < entryBytes ++ instant.toBytes →
    ∀ builder, readEntry c (row.1.drop 16) = .ok builder → builder.describing?.isSome = true

/-- An edge that the reset issues again is listed as described by an entry that describes
nothing. -/
def EdgeMisdescribed (c : Contents) (toTime : Int) (container : Muid) : Prop :=
  (∃ behavior, getBehavior c container = .ok behavior ∧
    behavior ∈ [Behavior.sequence, .edgeType, .eventType]) ∧
  ∃ row entryMuid placement builder, Reissued c toTime container row entryMuid placement builder ∧
    builder.behavior = .edgeType ∧
    ∃ instant, Muid.instant toTime = .ok instant ∧ ¬ DescribersDescribe c row.2 instant

/-- The reset of the container writes nothing that is refused. -/
def WritesValid (c : Contents) (toTime : Int) (container : Muid) : Prop :=
  ¬ BoxFilled c toTime container ∧ ¬ EdgeMisdescribed c toTime container

/-! ## §2. Generators that yield valid changes. -/

/-- A reset that does not recurse keeps no set. -/
def Recursing (recursive : Bool) (seen : Seen) : Prop := seen.isSome = true → recursive = true

/-- Every change it yields is valid. -/
def Yields {α : Type} (recursive : Bool) (g : Resetting α) : Prop :=
  Holds (Recursing recursive) ChangeBuilder.Valid (fun _ => True) g

section
variable {α β : Type} {recursive : Bool}

theorem Yields.pure (a : α) : Yields recursive (pure a) := Holds.pure a

theorem Yields.bind {g : Resetting α} {f : α → Resetting β} (hg : Yields recursive g)
    (hf : ∀ a, Yields recursive (f a)) : Yields recursive (g >>= f) :=
  Holds.bind hg hf

theorem Yields.entry {e : EntryBuilder} (h : e.wellFormed = true) :
    Yields recursive (Generator.yielding (.entry e)) := Holds.yielding h

theorem Yields.movement (container entryMuid : Muid) (dest : Int) :
    Yields recursive (Generator.yielding (movementOf container entryMuid dest)) :=
  Holds.yielding True.intro

theorem Yields.attempt (x : Except Error α) : Yields recursive (Gink.attempt x) :=
  Holds.of fun _ _ => True.intro

theorem Yields.attempt_bind {x : Except Error α} {f : α → Resetting β}
    (hf : ∀ a, x = .ok a → Yields recursive (f a)) : Yields recursive (Gink.attempt x >>= f) :=
  Holds.of_bind (fun _ _ => True.intro) fun a ha => hf a (mapError_eq_ok.mp ha)

theorem Yields.stop (e : Halt) : Yields recursive (Generator.stop e : Resetting α) :=
  Holds.stop True.intro

end

/-! ## §3. Keyed containers. -/

section
variable {c : Contents} {q : KeyedReset} {row : Bytes × Bytes} {placement : Placement}
  {builder : EntryBuilder} {occupant : Occupant} {recursive : Bool}

/-- What a key held is an entry of the store. -/
theorem containedThen_entry (hc : EveryEntry (·.wellFormed = true) c) {key : MiddleKey}
    {past : Option EntryBuilder × Occupant} (h : containedThen c q row key = .ok past) :
    ∀ e, past.1 = some e → e.wellFormed = true := by
  unfold containedThen at h
  obtain ⟨lastClear, -, h⟩ := bind_eq_ok.mp h
  obtain ⟨instant, -, h⟩ := bind_eq_ok.mp h
  obtain ⟨limit, -, h⟩ := bind_eq_ok.mp h
  obtain ⟨_, -, h⟩ := bind_eq_ok.mp h
  intro e he
  cases hfound : toLastBefore c.placements (row.1.take (row.1.length - 24)) limit with
  | none =>
      rw [hfound] at h
      rw [← pure_eq_ok.mp h] at he
      cases he
  | some found =>
      rw [hfound] at h
      obtain ⟨placement, -, h⟩ := bind_eq_ok.mp h
      obtain ⟨builder, hbuilder, h⟩ := bind_eq_ok.mp h
      have hvalid := readEntry_of_every hc hbuilder
      split at h
      · obtain ⟨occupant, -, h⟩ := bind_eq_ok.mp h
        rw [← pure_eq_ok.mp h] at he
        exact Option.some.inj he ▸ hvalid
      · rw [← pure_eq_ok.mp h] at he
        exact Option.some.inj he ▸ hvalid

theorem restoreKey_yields (key : MiddleKey) {past : Option EntryBuilder} {contained : Occupant}
    (hpast : ∀ e, past = some e → e.wellFormed = true)
    (hbox : q.behavior = .box → contained ≠ .deletion) :
    Yields recursive (restoreKey q key past contained) := by
  unfold restoreKey
  split
  · apply Yields.attempt_bind
    intro entry hentry
    exact Yields.entry (createDeletingEntry_wellFormed hentry fun hb => hbox hb rfl)
  · exact Yields.entry (hpast _ rfl)
  · exact Yields.pure ()

/-- **A box would be emptied**: what the code compares when it writes a deletion. -/
theorem boxFilled_of_deletion (hbehavior : getBehavior c q.container = .ok .box)
    (hq : q.behavior = .box) (hclear : timeOfPriorClear c q.container (-1) = .ok q.lastClearTime)
    (hpre : q.container.toBytes.isPrefixOf row.1 = true)
    (hplace : toLast c.placements q.container.toBytes = some row ∨ row.1 < boxFloor q.container)
    (hp : Placement.fromBytes row.1 .box = .ok placement) (hb : readEntry c row.2 = .ok builder)
    (hchanged : ¬ (placement.placer.timestamp < q.toTime ∧ q.lastClearTime < q.toTime))
    (hnow : q.lastClearTime ≤ placement.placer.timestamp) (hholds : builder.deletion = false)
    {past : Option EntryBuilder × Occupant}
    (hpast : containedThen c q row placement.middle = .ok past) (hdeleted : past.2 = .deletion) :
    BoxFilled c q.toTime q.container := by
  unfold containedThen at hpast
  rw [middle_of_box hp] at hpast
  obtain ⟨time, htime, hpast⟩ := bind_eq_ok.mp hpast
  obtain ⟨instant, hinstant, hpast⟩ := bind_eq_ok.mp hpast
  obtain ⟨limit, hlimit, hpast⟩ := bind_eq_ok.mp hpast
  obtain ⟨_, hsame, hpast⟩ := bind_eq_ok.mp hpast
  obtain ⟨hthrough, hlen⟩ := box_throughMiddle hlimit (of_decide_eq_true (ensure_eq_ok.mp hsame))
  have hlast : toLast c.placements q.container.toBytes = some row := by
    rcases hplace with hlast | hless
    · exact hlast
    · -- no row of that length lies below the floor
      exfalso
      obtain ⟨rest, hrest⟩ := List.isPrefixOf_iff_prefix.mp hpre
      unfold boxFloor at hless
      rw [← hrest, Bytes.append_lt_append_left_iff] at hless
      refine not_lt_zeros ?_ hless
      rw [← hrest, List.length_append, Muid.length_toBytes] at hlen
      omega
  refine ⟨hbehavior, ⟨row, hlast, placement, builder, q.lastClearTime, hp, hb, hholds, hclear, hnow,
    ?_⟩, instant, limit, time, hinstant, hlimit, htime, ?_⟩
  · by_cases h : q.toTime ≤ placement.placer.timestamp
    · exact Or.inl h
    · exact Or.inr (not_lt.mp fun h' => hchanged ⟨not_le.mp h, h'⟩)
  · intro found hfound
    rw [hthrough, hfound, hq] at hpast
    obtain ⟨placementThen, hplacementThen, hpast⟩ := bind_eq_ok.mp hpast
    obtain ⟨builderThen, hbuilderThen, hpast⟩ := bind_eq_ok.mp hpast
    refine ⟨placementThen, builderThen, hplacementThen, hbuilderThen, ?_⟩
    split at hpast
    · obtain ⟨occupant, hoccupant, hpast⟩ := bind_eq_ok.mp hpast
      rw [← pure_eq_ok.mp hpast] at hdeleted
      rw [show occupant = .deletion from hdeleted] at hoccupant
      exact Or.inr (deletion_of_decode hoccupant)
    · rename_i hless
      exact Or.inl (not_lt.mp hless)

/-- What is recursed on, the container holds. -/
def HeldBy (c : Contents) (container : Muid) (occupant : Occupant) : Prop :=
  ∀ m, occupant.muid? = some m → Holding c container m

theorem heldBy_deletion {container : Muid} : HeldBy c container .deletion := by
  intro m hm
  cases hm

theorem heldBy_of_row {container entryMuid : Muid} (hrow : row ∈ c.placements.rows)
    (hpre : container.toBytes.isPrefixOf row.1 = true)
    (hm : Muid.fromBytes row.2 = .ok entryMuid ∨
      Muid.fromBytes (Placement.placerSlice row.1) = .ok entryMuid)
    (hb : readEntry c row.2 = .ok builder)
    (ho : decodeEntryOccupant entryMuid builder = .ok occupant) : HeldBy c container occupant :=
  fun _ h => ⟨row, hrow, hpre, entryMuid, builder, occupant, hm, hb, ho, h⟩

theorem containedThen_heldBy {key : MiddleKey} {past : Option EntryBuilder × Occupant}
    (h : containedThen c q row key = .ok past) : HeldBy c q.container past.2 := by
  unfold containedThen at h
  obtain ⟨lastClear, -, h⟩ := bind_eq_ok.mp h
  obtain ⟨instant, -, h⟩ := bind_eq_ok.mp h
  obtain ⟨limit, hlimit, h⟩ := bind_eq_ok.mp h
  obtain ⟨_, hsame, h⟩ := bind_eq_ok.mp h
  have hlow := container_of_throughMiddle hlimit (of_decide_eq_true (ensure_eq_ok.mp hsame))
  cases hfound : toLastBefore c.placements (row.1.take (row.1.length - 24)) limit with
  | none =>
      rw [hfound] at h
      rw [← pure_eq_ok.mp h]
      exact heldBy_deletion
  | some found =>
      obtain ⟨hmem, -, hpre⟩ := toLastBefore_found hfound
      have hown : q.container.toBytes.isPrefixOf found.1 = true :=
        List.isPrefixOf_iff_prefix.mpr (hlow.trans (List.isPrefixOf_iff_prefix.mp hpre))
      rw [hfound] at h
      obtain ⟨placement, hplacement, h⟩ := bind_eq_ok.mp h
      obtain ⟨builder, hbuilder, h⟩ := bind_eq_ok.mp h
      split at h
      · obtain ⟨occupant, hoccupant, h⟩ := bind_eq_ok.mp h
        rw [← pure_eq_ok.mp h]
        exact heldBy_of_row hmem hown (Or.inr (placer_of_fromBytes hplacement)) hbuilder hoccupant
      · rw [← pure_eq_ok.mp h]
        exact heldBy_deletion

theorem settleKey_bind_yields {α : Type} (hc : EveryEntry (·.wellFormed = true) c)
    {key : MiddleKey} {now : Occupant} {f : Occupant → Resetting α}
    (hbox : q.behavior = .box → now ≠ .deletion → ∀ past,
      containedThen c q row key = .ok past → past.2 ≠ .deletion)
    (hf : ∀ o, HeldBy c q.container o → Yields recursive (f o)) :
    Yields recursive (settleKey c q row key now >>= f) := by
  unfold settleKey
  rw [Generator.bind_assoc]
  apply Yields.attempt_bind
  intro past hpast
  have hheld := containedThen_heldBy hpast
  split
  · exact hf _ hheld
  · rename_i hdiffer
    rw [Generator.bind_assoc]
    refine Yields.bind (restoreKey_yields key (containedThen_entry hc hpast) ?_) fun _ =>
      hf _ hheld
    intro hq hdeleted
    refine hbox hq ?_ past hpast hdeleted
    -- two deletions are equal
    intro hnow
    rw [hnow, hdeleted] at hdiffer
    exact hdiffer rfl

theorem resetKey_bind_yields {α : Type} (hc : EveryEntry (·.wellFormed = true) c)
    {f : Occupant → Resetting α} (hrow : row ∈ c.placements.rows)
    (hpre : q.container.toBytes.isPrefixOf row.1 = true)
    (hp : Placement.fromBytes row.1 q.behavior = .ok placement)
    (hb : readEntry c row.2 = .ok builder)
    (hbox : q.behavior = .box → builder.deletion = false →
      ¬ (placement.placer.timestamp < q.toTime ∧ q.lastClearTime < q.toTime) →
      q.lastClearTime ≤ placement.placer.timestamp →
      ∀ past, containedThen c q row placement.middle = .ok past → past.2 ≠ .deletion)
    (hf : ∀ o, HeldBy c q.container o → Yields recursive (f o)) :
    Yields recursive (resetKey c q row placement builder >>= f) := by
  unfold resetKey
  split
  · exact Yields.attempt_bind fun o ho =>
      hf o (heldBy_of_row hrow hpre (Or.inr (placer_of_fromBytes hp)) hb ho)
  · rename_i hchanged
    split
    · rename_i hnow
      rw [Generator.bind_assoc]
      apply Yields.attempt_bind
      intro now hoccupant
      refine settleKey_bind_yields hc ?_ hf
      intro hq hheld
      refine hbox hq ?_ hchanged hnow
      cases hd : builder.deletion with
      | false => rfl
      | true => exact absurd (decode_of_deletion hd hoccupant) hheld
    · refine settleKey_bind_yields hc ?_ hf
      exact fun _ hheld => absurd rfl hheld

/-- The recursion of a reset that recurses writes what is valid. -/
def Recurses (c : Contents) (recursive : Bool) (container : Muid)
    (recurse : Muid → Resetting Unit) : Prop :=
  recursive = true → ∀ m, Holding c container m → Yields recursive (recurse m)

theorem recurseOn_yields {container : Muid} {recurse : Muid → Resetting Unit}
    (hrec : Recurses c recursive container recurse) (hheld : HeldBy c container occupant) :
    Yields recursive (recurseOn recurse occupant) := by
  apply Holds.read_bind
  intro seen hseen
  cases seen with
  | none => exact Yields.pure () none hseen
  | some l =>
      cases hm : occupant.muid? with
      | none => exact Yields.pure () (some l) hseen
      | some m => exact hrec (hseen rfl) m (hheld m hm) (some l) hseen

theorem keyedResetLoop_yields (hc : EveryEntry (·.wellFormed = true) c)
    {recurse : Muid → Resetting Unit} (hrec : Recurses c recursive q.container recurse)
    (hbox : q.behavior = .box → getBehavior c q.container = .ok .box ∧
      timeOfPriorClear c q.container (-1) = .ok q.lastClearTime ∧
      ¬ BoxFilled c q.toTime q.container) (fuel : Nat) (found : Option (Bytes × Bytes))
    (hfound : ∀ row, found = some row → row ∈ c.placements.rows ∧
      q.container.toBytes.isPrefixOf row.1 = true ∧ (q.behavior = .box →
        toLast c.placements q.container.toBytes = some row ∨ row.1 < boxFloor q.container)) :
    Yields recursive (keyedResetLoop c q recurse fuel found) := by
  induction fuel generalizing found with
  | zero =>
      cases found with
      | none => exact Yields.pure ()
      | some row => exact Yields.stop _
  | succ fuel ih =>
      cases found with
      | none => exact Yields.pure ()
      | some row =>
          obtain ⟨hrow, hpre, hplace⟩ := hfound row rfl
          apply Yields.attempt_bind
          intro placement hp
          apply Yields.attempt_bind
          intro builder hb
          apply resetKey_bind_yields hc hrow hpre hp hb
          · intro hq hheld hchanged hnow past hpast hdeleted
            obtain ⟨hbehavior, hclear, hnot⟩ := hbox hq
            rw [hq] at hp
            exact hnot (boxFilled_of_deletion hbehavior hq hclear hpre (hplace hq) hp hb hchanged
              hnow hheld hpast hdeleted)
          intro occupant hheld
          apply Yields.bind (recurseOn_yields hrec hheld)
          intro _
          split
          · exact Yields.pure ()
          · apply Yields.attempt_bind
            intro limit hlimit
            apply ih
            intro next hnext
            obtain ⟨hmem, hless, hpre'⟩ := toLastBefore_found hnext
            refine ⟨hmem, hpre', fun hq => Or.inr (lt_of_lt_of_eq hless ?_)⟩
            rw [hq] at hp
            rw [middle_of_box hp] at hlimit
            exact Except.ok.inj (hlimit.symm.trans (toBytes_boxFloor q.container))

end

/-! ## §4. Ordered containers. -/

section
variable {c : Contents} {q : OrderedReset} {recursive : Bool}

theorem reissueLoop_yields (hc : EveryEntry (·.wellFormed = true) c) {describing : Bytes}
    (rows : List (Bytes × Bytes)) (issued : List Bytes) (offset : Int)
    (hrows : ∀ row ∈ rows, describing.isPrefixOf row.1 = true → ∀ builder,
      readEntry c (row.1.drop 16) = .ok builder → builder.describing?.isSome = true) :
    Yields recursive (reissueLoop c describing rows issued offset) := by
  induction rows generalizing issued offset with
  | nil => exact Yields.pure ()
  | cons row rest ih =>
      have hrest := fun r hr => hrows r (List.mem_cons_of_mem row hr)
      unfold reissueLoop
      split
      · exact Yields.pure ()
      · rename_i hpre
        have hpre : describing.isPrefixOf row.1 = true := by simpa using hpre
        split
        · exact ih _ _ hrest
        · apply Yields.attempt_bind
          intro builder hbuilder
          apply Yields.attempt_bind
          intro describerMuid _
          apply Yields.attempt_bind
          intro normal hnormal
          apply Yields.attempt_bind
          intro back _
          have halike : builder.Alike (fun _ => True) normal := normalized_alike True.intro hnormal
          have hdescribes : normal.describing?.isSome = true := by
            rw [halike.describing]
            exact hrows row List.mem_cons_self hpre builder hbuilder
          refine Yields.bind (Yields.entry ?_) fun _ => ih _ _ hrest
          exact (halike.trans (.setDescribing hdescribes _)).wellFormed
            (readEntry_of_every hc hbuilder)

theorem reissueProperties_yields (hc : EveryEntry (·.wellFormed = true) c) {describing : Bytes}
    {toTime : Int} (h : ∀ instant, Muid.instant toTime = .ok instant →
      DescribersDescribe c describing instant) :
    Yields recursive (reissueProperties c describing toTime) := by
  unfold reissueProperties
  apply Yields.attempt_bind
  intro instant hi
  cases hfound : toLastSuffix c.indexes.byDescribing describing instant.toBytes with
  | none => exact Yields.pure ()
  | some found =>
      apply reissueLoop_yields hc
      intro row hrow hpre
      obtain ⟨hmem, hle⟩ := List.mem_filter.mp (List.mem_reverse.mp hrow)
      exact h instant hi row hmem hpre
        (lt_of_le_of_lt (of_decide_eq_true hle) (toLastBefore_found hfound).2.1)

theorem undoPlacement_yields (entryMuid : Muid) (placement : Placement)
    (location previous : Option Placement) :
    Yields recursive (undoPlacement q entryMuid placement location previous) := by
  unfold undoPlacement
  split
  · cases previous with
    | none => exact Yields.movement _ _ _
    | some previous =>
        apply Yields.attempt_bind
        intro positionThen _
        apply Yields.attempt_bind
        intro positionNow _
        split
        · exact Yields.movement _ _ _
        · exact Yields.pure ()
  · exact Yields.pure ()

theorem restorePlacement_yields (hc : EveryEntry (·.wellFormed = true) c)
    {recurse : Muid → Resetting Unit} (hrec : Recurses c recursive q.container recurse)
    {row : Bytes × Bytes} (hrow : row ∈ c.placements.rows)
    (hpre : q.container.toBytes.isPrefixOf row.1 = true) {entryMuid : Muid}
    (hmuid : Muid.fromBytes row.2 = .ok entryMuid) {placement : Placement}
    {location previous : Option Placement}
    (hedge : ∀ builder, readEntry c row.2 = .ok builder → previous = some placement →
      q.clearBeforeTo < placement.placedTime →
      location = none ∨ q.lastClearTime > placement.placedTime → builder.behavior = .edgeType →
        ∀ instant, Muid.instant q.toTime = .ok instant → DescribersDescribe c row.2 instant) :
    Yields recursive
      (restorePlacement c q recurse row.2 entryMuid placement location previous) := by
  unfold restorePlacement
  split
  · rename_i hprevious
    apply Yields.attempt_bind
    intro builder hb
    apply Yields.attempt_bind
    intro occupant ho
    apply Yields.bind (recurseOn_yields hrec (heldBy_of_row hrow hpre (Or.inl hmuid) hb ho))
    intro _
    split
    · rename_i hgone
      apply Yields.attempt_bind
      intro normal hnormal
      apply Yields.attempt_bind
      intro position _
      have halike : builder.Alike (fun _ => True) normal := normalized_alike True.intro hnormal
      refine Yields.bind (Yields.entry ?_) fun _ => ?_
      · exact (halike.trans (.setEffective normal position)).wellFormed (readEntry_of_every hc hb)
      · split
        · rename_i hbehavior
          apply reissueProperties_yields hc
          exact hedge builder hb hprevious.1 hprevious.2 hgone
            (halike.behavior.symm.trans hbehavior)
        · exact Yields.pure ()
    · exact Yields.pure ()
  · exact Yields.pure ()

theorem orderedResetLoop_yields (hc : EveryEntry (·.wellFormed = true) c)
    {recurse : Muid → Resetting Unit} (hrec : Recurses c recursive q.container recurse)
    (hlast : timeOfPriorClear c q.container (-1) = .ok q.lastClearTime)
    (hbefore : timeOfPriorClear c q.container q.toTime = .ok q.clearBeforeTo)
    (hbehavior : ∃ behavior, getBehavior c q.container = .ok behavior ∧
      behavior ∈ [Behavior.sequence, .edgeType, .eventType])
    (hvalid : ¬ EdgeMisdescribed c q.toTime q.container) (rows : List (Bytes × Bytes))
    (hrows : ∀ row ∈ rows, row ∈ c.placements.rows) :
    Yields recursive (orderedResetLoop c q recurse rows) := by
  induction rows with
  | nil => exact Yields.pure ()
  | cons row rest ih =>
      unfold orderedResetLoop
      split
      · exact Yields.pure ()
      · rename_i hpre
        have hpre : q.container.toBytes.isPrefixOf row.1 = true := by simpa using hpre
        apply Yields.attempt_bind
        intro placement hparsed
        apply Yields.attempt_bind
        intro entryMuid hmuid
        apply Yields.attempt_bind
        intro location hlocation
        apply Yields.attempt_bind
        intro previous hprevious
        apply Yields.bind (undoPlacement_yields _ _ _ _)
        intro _
        refine Yields.bind (restorePlacement_yields hc hrec (hrows row List.mem_cons_self) hpre
          hmuid ?_) fun _ => ih fun r hr => hrows r (List.mem_cons_of_mem row hr)
        intro builder hb hsame hclear hgone hedge instant hi
        by_contra hnot
        refine hvalid ⟨hbehavior, row, entryMuid, placement, builder,
          ⟨hrows row List.mem_cons_self, hpre, hmuid, hparsed, hb, hsame ▸ hprevious,
            ⟨_, hbefore, hclear⟩, ?_⟩, hedge, instant, hi, hnot⟩
        rcases hgone with hnone | hcleared
        · exact Or.inl (hnone ▸ hlocation)
        · exact Or.inr ⟨_, hlast, hcleared⟩

end

/-! ## §5. Any container. -/

section
variable {c : Contents} {container : Muid} {toTime : Int} {recursive : Bool}

/-- Whether or not a container is gone through, it is the set that is written. -/
theorem enter_yields {rest : Resetting Unit} (h : Yields recursive rest) :
    Yields recursive (Generator.read >>= fun seen =>
      if !(enter container seen).1 then pure ()
      else Generator.write (enter container seen).2 >>= fun _ => rest) := by
  apply Holds.read_bind
  intro seen hseen
  have hwritten : Recursing recursive (enter container seen).2 := by
    intro hsome
    rw [enter_isSome] at hsome
    exact hseen hsome
  cases hin : (enter container seen).1 with
  | true =>
      rw [if_neg (by decide)]
      exact Yields.bind (Holds.write hwritten) (fun _ => h) seen hseen
  | false =>
      rw [if_pos (by decide)]
      exact Yields.pure () seen hseen

theorem vertexReset_yields : Yields recursive (vertexReset c container toTime) := by
  unfold vertexReset
  refine Yields.attempt_bind fun instant _ => Yields.attempt_bind fun previous _ =>
    Yields.attempt_bind fun isDeleted _ => ?_
  split
  · exact Yields.entry (vertexEntry_wellFormed _ _)
  · exact Yields.pure ()

theorem accumulatorReset_yields : Yields recursive (accumulatorReset c container toTime) :=
  Yields.attempt_bind fun _ _ => Yields.attempt_bind fun _ _ =>
    Yields.entry (accumulatorEntry_wellFormed _ _ _)

theorem keyedReset_yields (hc : EveryEntry (·.wellFormed = true) c)
    {recurse : Muid → Resetting Unit} (hrec : Recurses c recursive container recurse)
    (key : Option UserKey)
    {behavior : Behavior} (fuel : Nat)
    (hbox : behavior = .box → key = none ∧ getBehavior c container = .ok .box ∧
      ¬ BoxFilled c toTime container) :
    Yields recursive (keyedReset c container toTime recurse key behavior fuel) := by
  apply enter_yields
  apply Yields.attempt_bind
  intro lastClearTime hclear
  apply Yields.attempt_bind
  intro keyBytes hkey
  apply keyedResetLoop_yields (q := ⟨container, toTime, behavior, key, lastClearTime⟩) hc hrec
  · intro hq
    obtain ⟨-, hbehavior, hnot⟩ := hbox hq
    exact ⟨hbehavior, hclear, hnot⟩
  · intro row hrow
    obtain ⟨hmem, -, hpre⟩ := toLastBefore_found hrow
    refine ⟨hmem, ?_, ?_⟩
    · exact List.isPrefixOf_iff_prefix.mpr
        ((List.prefix_append _ _).trans (List.isPrefixOf_iff_prefix.mp hpre))
    · intro hq
      obtain ⟨hnone, -, -⟩ := hbox hq
      subst hnone
      rw [← Except.ok.inj (show Except.ok [] = Except.ok keyBytes from hkey), List.append_nil] at hrow
      exact Or.inl hrow

theorem orderedReset_yields (hc : EveryEntry (·.wellFormed = true) c)
    {recurse : Muid → Resetting Unit} (hrec : Recurses c recursive container recurse)
    (hbehavior : ∃ behavior, getBehavior c container = .ok behavior ∧
      behavior ∈ [Behavior.sequence, .edgeType, .eventType])
    (hvalid : ¬ EdgeMisdescribed c toTime container) :
    Yields recursive (orderedReset c container toTime recurse) := by
  apply enter_yields
  apply Yields.attempt_bind
  intro lastClearTime hlast
  apply Yields.attempt_bind
  intro clearBeforeTo hbefore
  apply orderedResetLoop_yields (q := ⟨container, toTime, lastClearTime, clearBeforeTo⟩) hc hrec
    hlast hbefore hbehavior hvalid
  exact fun r hr => (List.mem_filter.mp hr).1

theorem containerReset_yields (hc : EveryEntry (·.wellFormed = true) c) (fuel : Nat)
    (hvalid : ∀ m, Scope c recursive container m → WritesValid c toTime m) :
    Yields recursive (containerReset c toTime fuel container) := by
  induction fuel generalizing container with
  | zero => exact Yields.stop _
  | succ fuel ih =>
      have hrec : Recurses c recursive container (containerReset c toTime fuel) := by
        intro hrecursive m hm
        apply ih
        rintro m' (rfl | ⟨-, hheld⟩)
        · exact hvalid m' (Or.inr ⟨hrecursive, .single hm⟩)
        · exact hvalid m' (Or.inr ⟨hrecursive, .head hm hheld⟩)
      obtain ⟨hbox, hedge⟩ := hvalid container (Or.inl rfl)
      unfold containerReset
      apply Yields.attempt_bind
      intro behavior hbehavior
      split
      case h_1 => exact vertexReset_yields
      case h_3 => exact keyedReset_yields hc hrec none _ fun _ => ⟨rfl, hbehavior, hbox⟩
      case h_2 | h_4 | h_5 | h_6 | h_7 | h_8 =>
        exact keyedReset_yields hc hrec none _ fun h => by cases h
      case h_9 | h_10 | h_11 =>
        exact orderedReset_yields hc hrec ⟨_, hbehavior, by decide⟩ hedge
      case h_12 => exact accumulatorReset_yields
      case h_13 => exact Yields.stop _

end

/-- **What a reset yields is valid** when the entries of the store are and no container that it
comes to makes it write what is refused. -/
theorem getResetChanges_valid {c : Contents} (hc : EveryEntry (·.wellFormed = true) c) (fuel : Nat)
    (toTime : Int) (container : Option Muid) (userKey : Option UserKey) (recursive : Bool)
    (hvalid : ∀ m, ComesTo c container userKey recursive m → WritesValid c toTime m) :
    ∀ change ∈ (getResetChanges c fuel toTime container userKey recursive).yielded,
      change.Valid := by
  have hseen : Recursing recursive (if recursive = true then some [] else none : Seen) := by
    intro h
    cases recursive with
    | true => rfl
    | false => cases h
  cases container with
  | none =>
      cases userKey with
      | some key =>
          intro change hchange
          exact absurd hchange List.not_mem_nil
      | none =>
          have hall : Yields false (Generator.forEach (fun found => do
              let muid ← attempt found
              containerReset c toTime fuel muid) (allContainers c)) := by
            apply Holds.forEach
            intro found hfound
            apply Yields.attempt_bind
            rintro m rfl
            apply containerReset_yields hc
            rintro m' (rfl | ⟨hrecursive, -⟩)
            · exact hvalid m' hfound
            · cases hrecursive
          exact (hall none fun h => by cases h).1
  | some root =>
      cases userKey with
      | none =>
          have hroot : Yields recursive (containerReset c toTime fuel root) :=
            containerReset_yields hc fuel hvalid
          exact (hroot _ hseen).1
      | some key =>
          have hkey : Yields recursive (keyedReset c root toTime (containerReset c toTime fuel)
              (some key) .directory fuel) := by
            refine keyedReset_yields hc (fun hrecursive m hm => ?_) _ _ fun h => by cases h
            apply containerReset_yields hc
            rintro m' (rfl | ⟨-, hheld⟩)
            · exact hvalid m' ⟨hrecursive, .single hm⟩
            · exact hvalid m' ⟨hrecursive, .head hm hheld⟩
          exact (hkey _ hseen).1

end Lmdb

end Gink
