/-
  Gink.Memory.ResetValid — the changes of a reset of a `MemoryStore` pass `validate_bundle`.

  As for the other store, what a reset yields is an entry of the store, reworded or not, or of
  its own making, and the deletion of what a box holds is what the validator refuses.  The
  stored builders are edited on the way; they only get reworded.
-/
import Gink.Memory.EntryRows
import Gink.Memory.ResetKeeps

namespace Gink

open Machine (Generator)
open Machine.Generator (Holds Returns)

namespace Memory

/-! ## §1. Where the reset would write what is refused. -/

/-- Under which addresses a stored builder is normalised: its own, or that of an entry that
is listed with it as its property. -/
def EditContext (c : Contents) (muid context : Muid) : Prop :=
  context = muid ∨ ∃ row ∈ c.byDescribing.rows, Muid.fromBytes row.2 = .ok muid ∧
    Muid.fromBytes (row.1.drop 16) = .ok context

/-- The entry of a placement of the container holds the muid, read under its own address or
that of its placer, perhaps after it has been normalised. -/
def Refers (c : Contents) (container muid : Muid) : Prop :=
  ∃ row ∈ c.placements.rows, row.1.take 16 = container.toBytes ∧
    ∃ entryMuid builder reference restated,
      (row.2 = entryMuid ∨ Muid.fromBytes (Placement.placerSlice row.1) = .ok entryMuid) ∧
      readEntry c row.2 = .ok builder ∧ builder.pointee? = some reference ∧
      Restated (EditContext c row.2) reference restated ∧
      resolve entryMuid.context restated = .ok muid

/-- The containers that the reset of one may come to: itself, and when the reset recurses what
it refers to, and so on. -/
def Reach (c : Contents) (recursive : Bool) (root muid : Muid) : Prop :=
  muid = root ∨ recursive = true ∧ Relation.TransGen (Refers c) root muid

/-- The containers that a reset may come to, by what it is asked for. -/
def GoesTo (c : Contents) (container : Option Muid) (userKey : Option UserKey) (recursive : Bool)
    (m : Muid) : Prop :=
  match container, userKey with
  | none, none => m ∈ allContainers c
  | none, some _ => False
  | some root, none => Reach c recursive root m
  | some root, some _ => recursive = true ∧ Relation.TransGen (Refers c) root m

/-- What the last row of a box holds, unless it is cleared, has come since `to_time`, or has
been cleared and come since. -/
structure HoldsSince (c : Contents) (toTime : Int) (box : Muid) (row : Bytes × Muid) : Prop where
  last : getLastRow c.placements (box.toBytes ++ ones 16) = some row
  own : row.1.take 16 = box.toBytes
  parsed : ∃ placement builder time, Placement.fromBytes row.1 .box = .ok placement ∧
    readEntry c row.2 = .ok builder ∧ builder.deletion = false ∧
    timeOfPriorClear c box (-1) = .ok time ∧ time ≤ placement.placer.timestamp ∧
    (toTime ≤ placement.placer.timestamp ∨ toTime ≤ time)

/-- The last row of the box before `to_time`, if there is one, was cleared by then or deletes. -/
def HeldNothing (c : Contents) (toTime : Int) (box : Muid) : Prop :=
  ∃ instant limit time, Muid.instant toTime = .ok instant ∧
    (Placement.mk box .none instant none).toBytes = .ok limit ∧
    timeOfPriorClear c box toTime = .ok time ∧
    ∀ row, (irange c.placements box.toBytes limit).getLast? = some row →
      ∃ placement builder, Placement.fromBytes row.1 .box = .ok placement ∧
        readEntry c row.2 = .ok builder ∧
        (placement.placer.timestamp ≤ time ∨ builder.deletion = true)

/-- The box holds something now, and held nothing then: the reset would delete. -/
def BoxFilled (c : Contents) (toTime : Int) (box : Muid) : Prop :=
  getBehavior c box = .ok .box ∧ (∃ row, HoldsSince c toTime box row) ∧ HeldNothing c toTime box

/-- Where an entry is stored under the muid of a property that describes the entry up to
`instant`, that one describes something. -/
def DescribersDescribe (c : Contents) (muid instant : Muid) : Prop :=
  ∀ row ∈ irange c.byDescribing muid.toBytes (muid.toBytes ++ instant.toBytes),
    ∀ property, Muid.fromBytes row.2 = .ok property →
    ∀ builder, readEntry c property = .ok builder → builder.describing?.isSome = true

/-- An edge that the reset issues again is described by a property under whose muid an entry
is stored that describes nothing. -/
def EdgeMisdescribed (c : Contents) (toTime : Int) (container : Muid) : Prop :=
  ∃ behavior row placement builder, getBehavior c container = .ok behavior ∧
    (behavior = .sequence ∨ behavior = .edgeType) ∧
    Reissued c toTime container behavior row placement builder ∧ builder.behavior = .edgeType ∧
    ∃ instant, Muid.instant toTime = .ok instant ∧ ¬ DescribersDescribe c row.2 instant

/-- The reset of the container writes nothing that is refused. -/
def WritesValid (c : Contents) (toTime : Int) (container : Muid) : Prop :=
  ¬ BoxFilled c toTime container ∧ ¬ EdgeMisdescribed c toTime container

/-! ## §2. Generators that yield valid changes. -/

/-- The dictionaries are as they were but for builders that have been reworded, and a reset
that does not recurse keeps no set. -/
structure Reworded (c : Contents) (recursive : Bool) (s : ResetState) : Prop where
  contents : s.contents = { c with entries := s.contents.entries }
  stored : ∀ muid builder, readEntry s.contents muid = .ok builder →
    ∃ old, readEntry c muid = .ok old ∧ old.Alike (EditContext c muid) builder
  seen : s.seen.isSome = true → recursive = true

theorem Reworded.initial {c : Contents} {recursive : Bool} {seen : Seen}
    (h : seen.isSome = true → recursive = true) : Reworded c recursive ⟨seen, c⟩ :=
  ⟨rfl, fun _ builder hb => ⟨builder, hb, .refl builder⟩, h⟩

/-- Every change it yields is valid, and stored builders are only reworded. -/
def Yields {α : Type} (c : Contents) (recursive : Bool) (g : Resetting α) : Prop :=
  Holds (Reworded c recursive) ChangeBuilder.Valid (fun _ => True) g

section
variable {α β : Type} {c : Contents} {recursive : Bool}

theorem Yields.pure (a : α) : Yields c recursive (pure a) := Holds.pure a

theorem Yields.bind {g : Resetting α} {f : α → Resetting β} (hg : Yields c recursive g)
    (hf : ∀ a, Yields c recursive (f a)) : Yields c recursive (g >>= f) :=
  Holds.bind hg hf

theorem Yields.entry {e : EntryBuilder} (h : e.wellFormed = true) :
    Yields c recursive (Generator.yielding (.entry e)) := Holds.yielding h

theorem Yields.movement (container entryMuid : Muid) (dest : Int) :
    Yields c recursive (Generator.yielding (movementOf container entryMuid dest)) :=
  Holds.yielding True.intro

theorem Yields.attempt (x : Except Error α) : Yields c recursive (Gink.attempt x) :=
  Holds.of fun _ _ => True.intro

theorem Yields.attempt_bind {x : Except Error α} {f : α → Resetting β}
    (hf : ∀ a, x = .ok a → Yields c recursive (f a)) :
    Yields c recursive (Gink.attempt x >>= f) :=
  Holds.of_bind (fun _ _ => True.intro) fun a ha => hf a (mapError_eq_ok.mp ha)

theorem Yields.stop (e : Halt) : Yields c recursive (Generator.stop e : Resetting α) :=
  Holds.stop True.intro

theorem Yields.consult (f : Contents → Except Error α) : Yields c recursive (consult f) :=
  Holds.read_bind fun s hs => Yields.attempt (f s.contents) s hs

/-- What is read is what reworded dictionaries say. -/
theorem Yields.consult_bind {f : Contents → Except Error α} {g : α → Resetting β}
    (hg : ∀ s a, Reworded c recursive s → f s.contents = .ok a → Yields c recursive (g a)) :
    Yields c recursive (Memory.consult f >>= g) := by
  apply Holds.bind_of (Yields.consult f)
  intro s hs a ha hstate
  exact hg s a hs (mapError_eq_ok.mp ha) _ hstate

/-- What does not look at the entries reads as it did. -/
theorem Yields.consult_same {f : Contents → Except Error α} {g : α → Resetting β}
    (hf : ∀ entries, f { c with entries } = f c)
    (hg : ∀ a, f c = .ok a → Yields c recursive (g a)) :
    Yields c recursive (Memory.consult f >>= g) := by
  apply Yields.consult_bind
  intro s a hs ha
  rw [hs.contents, hf] at ha
  exact hg a ha

/-- A stored builder that is read has at most been reworded. -/
theorem Yields.readEntry_bind {muid : Muid} {g : EntryBuilder → Resetting β}
    (hg : ∀ builder old, readEntry c muid = .ok old →
      old.Alike (EditContext c muid) builder → Yields c recursive (g builder)) :
    Yields c recursive (Memory.consult (readEntry · muid) >>= g) := by
  apply Yields.consult_bind
  intro s builder hs hb
  obtain ⟨old, hold, halike⟩ := hs.stored muid builder hb
  exact hg builder old hold halike

/-- **An edit that rewords** rewords. -/
theorem Yields.editEntry {muid : Muid} {edit : Action EntryBuilder Unit}
    (h : ∀ builder old, readEntry c muid = .ok old → old.Alike (EditContext c muid) builder →
      builder.Alike (EditContext c muid) (Action.endState (edit builder))) :
    Yields c recursive (editEntry muid edit) := by
  apply Holds.read_bind
  intro s hs
  refine Yields.attempt_bind (x := readEntry s.contents muid) ?_ s hs
  intro builder hbuilder
  obtain ⟨old, hold, halike⟩ := hs.stored muid builder hbuilder
  have hedited := halike.trans (h builder old hold halike)
  have hstore (e : EntryBuilder) (he : old.Alike (EditContext c muid) e) :
      Reworded c recursive { s with contents :=
        { s.contents with entries := s.contents.entries.put muid e } } := by
    refine ⟨?_, ?_, hs.seen⟩
    · rw [hs.contents]
    · intro muid' builder' hb'
      have hget := orRaise_eq_ok.mp hb'
      rw [show ({ s.contents with entries := s.contents.entries.put muid e } : Contents).entries
        = s.contents.entries.put muid e from rfl, Table.get?_put] at hget
      split_ifs at hget with heq
      · subst heq
        cases hget
        exact ⟨old, hold, he⟩
      · exact hs.stored muid' builder' (orRaise_eq_ok.mpr hget)
  cases hedit : edit builder with
  | ok u e =>
      rw [hedit] at hedited
      exact Holds.write (hstore e hedited)
  | error err e =>
      rw [hedit] at hedited
      exact Yields.bind (Holds.write (hstore e hedited)) fun _ => Yields.stop _

theorem Yields.yieldEntry (hc : Stocked (·.wellFormed = true) c) (muid : Muid) :
    Yields c recursive (yieldEntry muid) :=
  Yields.readEntry_bind fun _ _ hold halike => Yields.entry (halike.wellFormed (hc.readEntry hold))

end

/-! ## §3. Keyed containers. -/

/-- What is recursed on, the container refers to. -/
def ReferredTo (c : Contents) (container : Muid) (occupant : Occupant) : Prop :=
  ∀ m, occupant.muid? = some m → Refers c container m

section
variable {c : Contents} {q : KeyedReset} {row : Bytes × Muid} {placement : Placement}
  {builder : EntryBuilder} {occupant : Occupant} {recursive : Bool}

theorem referredTo_deletion {container : Muid} : ReferredTo c container .deletion := by
  intro m hm
  cases hm

theorem referredTo_of_row {container entryMuid : Muid} {old : EntryBuilder}
    (hrow : row ∈ c.placements.rows) (hown : row.1.take 16 = container.toBytes)
    (hm : row.2 = entryMuid ∨ Muid.fromBytes (Placement.placerSlice row.1) = .ok entryMuid)
    (hold : readEntry c row.2 = .ok old) (halike : old.Alike (EditContext c row.2) builder)
    (ho : decodeEntryOccupant entryMuid builder = .ok occupant) :
    ReferredTo c container occupant := by
  intro m h
  obtain ⟨restated, hrestated, hresolved⟩ := pointee_of_decode ho h
  obtain ⟨reference, hreference, hways⟩ := halike.restated restated hrestated
  exact ⟨row, hrow, hown, entryMuid, old, reference, restated, hm, hold, hreference, hways,
    hresolved⟩

/-- What was found when it was asked what a key held: nothing, or a row of the container. -/
theorem containedThen_found {s : ResetState} (hs : Reworded c recursive s) {key : MiddleKey}
    {past : Option EntryBuilder × Occupant}
    (h : containedThen s.contents q row key = .ok past) :
    ∃ time instant limit, timeOfPriorClear c q.container q.toTime = .ok time ∧
      Muid.instant q.toTime = .ok instant ∧
      (Placement.mk q.container key instant none).toBytes = .ok limit ∧
      limit.take (limit.length - 24) = row.1.take (row.1.length - 24) ∧
      match (irange c.placements (row.1.take (row.1.length - 24)) limit).getLast? with
      | none => past = (none, .deletion)
      | some found => found ∈ c.placements.rows ∧ found.1.take 16 = q.container.toBytes ∧
          ∃ placement old builder, Placement.fromBytes found.1 q.behavior = .ok placement ∧
            readEntry c found.2 = .ok old ∧ old.Alike (EditContext c found.2) builder ∧
            past.1 = some builder ∧
            if placement.placer.timestamp > time then
              decodeEntryOccupant placement.placer builder = .ok past.2
            else past.2 = .deletion := by
  unfold containedThen at h
  obtain ⟨time, htime, h⟩ := bind_eq_ok.mp h
  obtain ⟨instant, hinstant, h⟩ := bind_eq_ok.mp h
  obtain ⟨limit, hlimit, h⟩ := bind_eq_ok.mp h
  obtain ⟨_, hsame, h⟩ := bind_eq_ok.mp h
  have hsame := of_decide_eq_true (ensure_eq_ok.mp hsame)
  have htime : timeOfPriorClear c q.container q.toTime = .ok time := by
    rw [hs.contents] at htime
    exact htime
  refine ⟨time, instant, limit, htime, hinstant, hlimit, hsame, ?_⟩
  have hplacements : s.contents.placements = c.placements := by rw [hs.contents]
  rw [hplacements] at h
  cases hfound : (irange c.placements (row.1.take (row.1.length - 24)) limit).getLast? with
  | none =>
      rw [hfound] at h
      exact (pure_eq_ok.mp h).symm
  | some found =>
      obtain ⟨hmem, hown⟩ := own_of_between (container_of_throughMiddle hlimit hsame)
        (container_of_limit hlimit) (List.mem_of_getLast? hfound)
      rw [hfound] at h
      obtain ⟨placement, hplacement, h⟩ := bind_eq_ok.mp h
      obtain ⟨builder, hbuilder, h⟩ := bind_eq_ok.mp h
      obtain ⟨old, hold, halike⟩ := hs.stored found.2 builder hbuilder
      refine ⟨hmem, hown, placement, old, builder, hplacement, hold, halike, ?_⟩
      split at h
      · rename_i hless
        obtain ⟨occupant, hoccupant, h⟩ := bind_eq_ok.mp h
        rw [← pure_eq_ok.mp h, if_pos hless]
        exact ⟨rfl, hoccupant⟩
      · rename_i hless
        rw [← pure_eq_ok.mp h, if_neg hless]
        exact ⟨rfl, rfl⟩

/-- What a key held is an entry of the store. -/
theorem containedThen_entry (hc : Stocked (·.wellFormed = true) c) {s : ResetState}
    (hs : Reworded c recursive s) {key : MiddleKey} {past : Option EntryBuilder × Occupant}
    (h : containedThen s.contents q row key = .ok past) :
    ∀ e, past.1 = some e → e.wellFormed = true := by
  intro e he
  obtain ⟨time, instant, limit, -, -, -, -, h⟩ := containedThen_found hs h
  split at h
  · rw [h] at he
    cases he
  · obtain ⟨-, -, placement, old, builder, -, hold, halike, hpast, -⟩ := h
    cases hpast.symm.trans he
    exact halike.wellFormed (hc.readEntry hold)

theorem containedThen_referredTo {s : ResetState} (hs : Reworded c recursive s) {key : MiddleKey}
    {past : Option EntryBuilder × Occupant}
    (h : containedThen s.contents q row key = .ok past) : ReferredTo c q.container past.2 := by
  obtain ⟨time, instant, limit, -, -, -, -, h⟩ := containedThen_found hs h
  split at h
  · rw [h]
    exact referredTo_deletion
  · obtain ⟨hmem, hown, placement, old, builder, hplacement, hold, halike, -, h⟩ := h
    split_ifs at h
    · exact referredTo_of_row hmem hown (Or.inr (placer_of_fromBytes hplacement)) hold halike h
    · rw [h]
      exact referredTo_deletion

theorem restoreKey_yields (key : MiddleKey) {past : Option EntryBuilder} {contained : Occupant}
    (hpast : ∀ e, past = some e → e.wellFormed = true)
    (hbox : q.behavior = .box → contained ≠ .deletion) :
    Yields c recursive (restoreKey q key past contained) := by
  unfold restoreKey
  split
  · apply Yields.attempt_bind
    intro entry hentry
    exact Yields.entry (createDeletingEntry_wellFormed hentry fun hb => hbox hb rfl)
  · exact Yields.entry (hpast _ rfl)
  · exact Yields.pure ()

/-- **A box would be emptied**: what the code compares when it writes a deletion. -/
theorem boxFilled_of_deletion (hc : Stocked (·.wellFormed = true) c) {s : ResetState}
    (hs : Reworded c recursive s) (hbehavior : getBehavior c q.container = .ok .box)
    (hq : q.behavior = .box) (hclear : timeOfPriorClear c q.container (-1) = .ok q.lastClearTime)
    (hrow : row ∈ c.placements.rows) (hown : row.1.take 16 = q.container.toBytes)
    (hplace : getLastRow c.placements (q.container.toBytes ++ ones 16) = some row ∨
      row.1 ≤ boxFloor q.container)
    (hp : Placement.fromBytes row.1 .box = .ok placement) (hb : readEntry c row.2 = .ok builder)
    (hchanged : ¬ (placement.placer.timestamp < q.toTime ∧ q.lastClearTime < q.toTime))
    (hnow : q.lastClearTime ≤ placement.placer.timestamp) (hholds : builder.deletion = false)
    {past : Option EntryBuilder × Occupant}
    (hpast : containedThen s.contents q row placement.middle = .ok past)
    (hdeleted : past.2 = .deletion) :
    BoxFilled c q.toTime q.container := by
  obtain ⟨time, instant, limit, htime, hinstant, hlimit, hsame, hpast⟩ :=
    containedThen_found hs hpast
  rw [middle_of_box hp] at hlimit
  obtain ⟨hthrough, hlen⟩ := box_throughMiddle hlimit hsame
  have hlast : getLastRow c.placements (q.container.toBytes ++ ones 16) = some row := by
    rcases hplace with hlast | hless
    · exact hlast
    · -- the row at the floor would have no placer
      exfalso
      have hfloor := eq_boxFloor hown hlen hless
      refine hc.placers row hrow ⟨0, 0, 0⟩ ?_ rfl
      have hplacer := Placement.placer_of_toBytes (toBytes_boxFloor q.container)
      rw [hfloor, hplacer]
  refine ⟨hbehavior, ⟨row, hlast, hown, placement, builder, q.lastClearTime, hp, hb, hholds,
    hclear, hnow, ?_⟩, instant, limit, time, hinstant, hlimit, htime, ?_⟩
  · by_cases h : q.toTime ≤ placement.placer.timestamp
    · exact Or.inl h
    · exact Or.inr (not_lt.mp fun h' => hchanged ⟨not_le.mp h, h'⟩)
  · intro found hfound
    rw [hthrough, hfound, hq] at hpast
    obtain ⟨-, -, placementThen, old, builderThen, hplacementThen, hold, halike, -, hpast⟩ := hpast
    refine ⟨placementThen, old, hplacementThen, hold, ?_⟩
    split_ifs at hpast with hless
    · rw [hdeleted] at hpast
      rw [← halike.deletion]
      exact Or.inr (deletion_of_decode hpast)
    · exact Or.inl (not_lt.mp hless)

theorem settleKey_bind_yields {α : Type} (hc : Stocked (·.wellFormed = true) c)
    {key : MiddleKey} {now : Occupant} {f : Occupant → Resetting α}
    (hbox : q.behavior = .box → now ≠ .deletion → ∀ s past, Reworded c recursive s →
      containedThen s.contents q row key = .ok past → past.2 ≠ .deletion)
    (hf : ∀ o, ReferredTo c q.container o → Yields c recursive (f o)) :
    Yields c recursive (settleKey q row key now >>= f) := by
  unfold settleKey
  rw [Generator.bind_assoc]
  apply Yields.consult_bind
  intro s past hs hpast
  have hheld := containedThen_referredTo hs hpast
  split
  · exact hf _ hheld
  · rename_i hdiffer
    rw [Generator.bind_assoc]
    refine Yields.bind (restoreKey_yields key (containedThen_entry hc hs hpast) ?_) fun _ =>
      hf _ hheld
    intro hq hdeleted
    refine hbox hq ?_ s past hs hpast hdeleted
    -- two deletions are equal
    intro hnow
    rw [hnow, hdeleted] at hdiffer
    exact hdiffer rfl

theorem resetKey_bind_yields {α : Type} {old : EntryBuilder}
    (hc : Stocked (·.wellFormed = true) c) {f : Occupant → Resetting α}
    (hrow : row ∈ c.placements.rows) (hown : row.1.take 16 = q.container.toBytes)
    (hp : Placement.fromBytes row.1 q.behavior = .ok placement)
    (hold : readEntry c row.2 = .ok old) (halike : old.Alike (EditContext c row.2) builder)
    (hbox : q.behavior = .box → builder.deletion = false →
      ¬ (placement.placer.timestamp < q.toTime ∧ q.lastClearTime < q.toTime) →
      q.lastClearTime ≤ placement.placer.timestamp → ∀ s past, Reworded c recursive s →
      containedThen s.contents q row placement.middle = .ok past → past.2 ≠ .deletion)
    (hf : ∀ o, ReferredTo c q.container o → Yields c recursive (f o)) :
    Yields c recursive (resetKey q row placement builder >>= f) := by
  unfold resetKey
  split
  · exact Yields.attempt_bind fun o ho =>
      hf o (referredTo_of_row hrow hown (Or.inr (placer_of_fromBytes hp)) hold halike ho)
  · rename_i hchanged
    split
    · rename_i hnow
      rw [Generator.bind_assoc]
      apply Yields.attempt_bind
      intro now hoccupant
      refine settleKey_bind_yields hc ?_ hf
      intro hq hheld
      refine hbox hq ?_ hchanged hnow
      cases hd : builder.deletion with
      | false => rfl
      | true => exact absurd (decode_of_deletion hd hoccupant) hheld
    · refine settleKey_bind_yields hc ?_ hf
      exact fun _ hheld => absurd rfl hheld

/-- The recursion of a reset that recurses writes what is valid. -/
def RecursesValid (c : Contents) (recursive : Bool) (container : Muid)
    (recurse : Muid → Resetting Unit) : Prop :=
  recursive = true → ∀ m, Refers c container m → Yields c recursive (recurse m)

theorem recurseOn_yields {container : Muid} {recurse : Muid → Resetting Unit}
    (hrec : RecursesValid c recursive container recurse)
    (hheld : ReferredTo c container occupant) :
    Yields c recursive (recurseOn recurse occupant) := by
  apply Holds.read_bind
  intro s hs
  cases hseen : s.seen with
  | none => exact Yields.pure () s hs
  | some l =>
      cases hm : occupant.muid? with
      | none => exact Yields.pure () s hs
      | some m => exact hrec (hs.seen (by rw [hseen]; rfl)) m (hheld m hm) s hs

theorem keyedResetLoop_yields (hc : Stocked (·.wellFormed = true) c)
    {recurse : Muid → Resetting Unit} (hrec : RecursesValid c recursive q.container recurse)
    (hbox : q.behavior = .box → getBehavior c q.container = .ok .box ∧
      timeOfPriorClear c q.container (-1) = .ok q.lastClearTime ∧
      ¬ BoxFilled c q.toTime q.container) (fuel : Nat) (found : Option (Bytes × Muid))
    (hfound : ∀ row, found = some row → row ∈ c.placements.rows ∧ (q.behavior = .box →
      getLastRow c.placements (q.container.toBytes ++ ones 16) = some row ∨
        row.1 ≤ boxFloor q.container)) :
    Yields c recursive (keyedResetLoop q recurse fuel found) := by
  induction fuel generalizing found with
  | zero =>
      cases found with
      | none => exact Yields.pure ()
      | some row => exact Yields.stop _
  | succ fuel ih =>
      cases found with
      | none => exact Yields.pure ()
      | some row =>
          obtain ⟨hrow, hplace⟩ := hfound row rfl
          unfold keyedResetLoop
          split
          · exact Yields.pure ()
          · rename_i hown
            have hown := not_not.mp hown
            apply Yields.attempt_bind
            intro placement hp
            apply Yields.readEntry_bind
            intro builder old hold halike
            apply resetKey_bind_yields hc hrow hown hp hold halike
            · intro hq hheld hchanged hnow s past hs hpast hdeleted
              obtain ⟨hbehavior, hclear, hnot⟩ := hbox hq
              rw [hq] at hp
              rw [halike.deletion] at hheld
              exact hnot (boxFilled_of_deletion hc hs hbehavior hq hclear hrow hown (hplace hq) hp
                hold hchanged hnow hheld hpast hdeleted)
            intro occupant hheld
            apply Yields.bind (recurseOn_yields hrec hheld)
            intro _
            split
            · exact Yields.pure ()
            · apply Yields.attempt_bind
              intro limit hlimit
              apply Holds.read_bind
              intro s hs
              refine ih _ ?_ s hs
              intro next hnext
              have hplacements : s.contents.placements = c.placements := by rw [hs.contents]
              rw [hplacements] at hnext
              obtain ⟨hmem, hle, -⟩ := Table.lastWhere_eq_some_iff.mp hnext
              refine ⟨hmem, fun hq => Or.inr (le_of_le_of_eq (of_decide_eq_true hle) ?_)⟩
              rw [hq] at hp
              rw [middle_of_box hp] at hlimit
              exact Except.ok.inj (hlimit.symm.trans (toBytes_boxFloor q.container))

end

/-! ## §4. Ordered containers. -/

section
variable {c : Contents} {q : OrderedReset} {recursive : Bool}

theorem reissueLoop_yields (hc : Stocked (·.wellFormed = true) c) {describing : Bytes}
    (rows : List (Bytes × Bytes)) (issued : List Bytes) (offset : Int)
    (hrows : ∀ row ∈ rows, row ∈ c.byDescribing.rows ∧
      ∀ property, Muid.fromBytes row.2 = .ok property → ∀ builder,
        readEntry c property = .ok builder → builder.describing?.isSome = true) :
    Yields c recursive (reissueLoop describing rows issued offset) := by
  induction rows generalizing issued offset with
  | nil => exact Yields.pure ()
  | cons row rest ih =>
      have hrest := fun r hr => hrows r (List.mem_cons_of_mem row hr)
      obtain ⟨hrow, hdescribes⟩ := hrows row List.mem_cons_self
      rw [reissueLoop_cons]
      split
      · exact Yields.pure ()
      · split
        · exact ih _ _ hrest
        · apply Yields.attempt_bind
          intro property hproperty
          apply Yields.readEntry_bind
          intro _ _ _ _
          apply Yields.attempt_bind
          intro describerMuid hdescriber
          have hcontext : EditContext c property describerMuid :=
            Or.inr ⟨row, hrow, hproperty, hdescriber⟩
          have hnormal : Yields c recursive
              (editEntry property (normalizeEntryBuilder describerMuid)) := by
            apply Yields.editEntry
            intro builder old hold halike
            exact endState_alike (normalizeEntryBuilder_alike describerMuid builder hcontext)
          apply Yields.bind hnormal
          intro _
          apply Yields.attempt_bind
          intro back _
          have hback : Yields c recursive (editEntry property
              (modify fun e => { e with subject := some (.describing back.putInto) })) := by
            apply Yields.editEntry
            intro builder old hold halike
            refine .setDescribing ?_ _
            rw [halike.describing]
            exact hdescribes property hproperty old hold
          apply Yields.bind hback
          intro _
          exact Yields.bind (Yields.yieldEntry hc property) fun _ => ih _ _ hrest

theorem reissueProperties_yields (hc : Stocked (·.wellFormed = true) c) {muid : Muid}
    {toTime : Int} (h : ∀ instant, Muid.instant toTime = .ok instant →
      DescribersDescribe c muid instant) :
    Yields c recursive (reissueProperties muid.toBytes toTime) := by
  unfold reissueProperties
  apply Yields.attempt_bind
  intro instant hi
  apply Holds.read_bind
  intro s hs
  refine reissueLoop_yields hc _ [] 0 ?_ s hs
  intro row hrow
  have hrow := List.mem_reverse.mp hrow
  have hdescribing : s.contents.byDescribing = c.byDescribing := by rw [hs.contents]
  rw [hdescribing] at hrow
  exact ⟨(List.mem_filter.mp hrow).1, h instant hi row hrow⟩

theorem undoPlacement_yields (entryMuid : Muid) (placement : Placement)
    (location previous : Option Placement) :
    Yields c recursive (undoPlacement q entryMuid placement location previous) := by
  unfold undoPlacement
  split
  · cases previous with
    | none => exact Yields.movement _ _ _
    | some previous =>
        apply Yields.attempt_bind
        intro positionThen _
        apply Yields.attempt_bind
        intro positionNow _
        split
        · exact Yields.movement _ _ _
        · exact Yields.pure ()
  · exact Yields.pure ()

theorem restorePlacement_yields (hc : Stocked (·.wellFormed = true) c)
    {recurse : Muid → Resetting Unit} (hrec : RecursesValid c recursive q.container recurse)
    {row : Bytes × Muid} (hrow : row ∈ c.placements.rows)
    (hown : row.1.take 16 = q.container.toBytes) {placement : Placement}
    {location previous : Option Placement}
    (hedge : ∀ old, readEntry c row.2 = .ok old → previous = some placement →
      q.clearBeforeTo < placement.placedTime →
      location = none ∨ q.lastClearTime > placement.placedTime → old.behavior = .edgeType →
        ∀ instant, Muid.instant q.toTime = .ok instant → DescribersDescribe c row.2 instant) :
    Yields c recursive (restorePlacement q recurse row.2 placement location previous) := by
  unfold restorePlacement
  split
  · rename_i hprevious
    apply Yields.readEntry_bind
    intro builder old hold halike
    apply Yields.attempt_bind
    intro occupant ho
    have hheld := referredTo_of_row hrow hown (Or.inl rfl) hold halike ho
    apply Yields.bind (recurseOn_yields hrec hheld)
    intro _
    split
    · rename_i hgone
      have hnormal : Yields c recursive (editEntry row.2 (normalizeEntryBuilder row.2)) := by
        apply Yields.editEntry
        intro builder _ _ _
        exact endState_alike (normalizeEntryBuilder_alike row.2 builder (Or.inl rfl))
      apply Yields.bind hnormal
      intro _
      apply Yields.attempt_bind
      intro position _
      have hplaced : Yields c recursive (editEntry row.2
          (modify fun e => { e with effective := position })) := by
        apply Yields.editEntry
        intro builder _ _ _
        exact .setEffective builder position
      apply Yields.bind hplaced
      intro _
      apply Yields.bind (Yields.yieldEntry hc row.2)
      intro _
      split
      · rename_i hbehavior
        apply reissueProperties_yields hc
        exact hedge old hold hprevious.1 hprevious.2 hgone
          (halike.behavior.symm.trans hbehavior)
      · exact Yields.pure ()
    · exact Yields.pure ()
  · exact Yields.pure ()

theorem orderedResetLoop_yields (hc : Stocked (·.wellFormed = true) c)
    {recurse : Muid → Resetting Unit} (hrec : RecursesValid c recursive q.container recurse)
    (hlast : timeOfPriorClear c q.container (-1) = .ok q.lastClearTime)
    (hbefore : timeOfPriorClear c q.container q.toTime = .ok q.clearBeforeTo)
    (hbehavior : getBehavior c q.container = .ok q.behavior)
    (hordered : q.behavior = .sequence ∨ q.behavior = .edgeType)
    (hvalid : ¬ EdgeMisdescribed c q.toTime q.container) (rows : List (Bytes × Muid))
    (hrows : ∀ row ∈ rows, row ∈ c.placements.rows) :
    Yields c recursive (orderedResetLoop q recurse rows) := by
  induction rows with
  | nil => exact Yields.pure ()
  | cons row rest ih =>
      have hrow := hrows row List.mem_cons_self
      unfold orderedResetLoop
      split
      · exact Yields.pure ()
      · rename_i hown
        have hown := not_not.mp hown
        apply Yields.attempt_bind
        intro placement hparsed
        apply Yields.consult_same fun _ => rfl
        intro location hlocation
        apply Yields.consult_same fun _ => rfl
        intro previous hprevious
        apply Yields.bind (undoPlacement_yields _ _ _ _)
        intro _
        refine Yields.bind (restorePlacement_yields hc hrec hrow hown ?_) fun _ =>
          ih fun r hr => hrows r (List.mem_cons_of_mem row hr)
        intro old hold hsame hclear hgone hedge instant hi
        by_contra hnot
        subst hsame
        refine hvalid ⟨q.behavior, row, placement, old, hbehavior, hordered,
          ⟨hrow, hown, hparsed, hold, hprevious, ⟨_, hbefore, hclear⟩, ?_⟩, hedge, instant, hi,
          hnot⟩
        rcases hgone with hnone | hcleared
        · exact Or.inl (hnone ▸ hlocation)
        · exact Or.inr ⟨_, hlast, hcleared⟩

end

/-! ## §5. Any container. -/

section
variable {c : Contents} {container : Muid} {toTime : Int} {recursive : Bool}

/-- Whether or not a container is gone through, it is the set that is written. -/
theorem enter_yields {rest : ResetState → Resetting Unit}
    (h : ∀ s, Reworded c recursive s → Yields c recursive (rest s)) :
    Yields c recursive (Generator.read >>= fun s =>
      if !(enter container s.seen).1 then pure ()
      else Generator.write { s with seen := (enter container s.seen).2 } >>= fun _ => rest s) := by
  apply Holds.read_bind
  intro s hs
  have hwritten : Reworded c recursive { s with seen := (enter container s.seen).2 } :=
    ⟨hs.contents, hs.stored, by rw [enter_isSome]; exact hs.seen⟩
  cases hin : (enter container s.seen).1 with
  | true =>
      rw [if_neg (by decide)]
      exact Yields.bind (Holds.write hwritten) (fun _ => h s hs) s hs
  | false =>
      rw [if_pos (by decide)]
      exact Yields.pure () s hs

theorem vertexReset_yields : Yields c recursive (vertexReset container toTime) := by
  apply Yields.attempt_bind
  intro instant _
  apply Yields.consult_bind
  intro _ previous _ _
  apply Yields.consult_bind
  intro _ isDeleted _ _
  split
  · exact Yields.entry (vertexEntry_wellFormed _ _)
  · exact Yields.pure ()

theorem accumulatorReset_yields : Yields c recursive (accumulatorReset container toTime) := by
  apply Yields.consult_bind
  intro _ previous _ _
  apply Yields.consult_bind
  intro _ current _ _
  exact Yields.entry (accumulatorEntry_wellFormed _ _ _)

theorem keyedReset_yields (hc : Stocked (·.wellFormed = true) c)
    {recurse : Muid → Resetting Unit} (hrec : RecursesValid c recursive container recurse)
    (key : Option UserKey) {behavior : Behavior} (fuel : Nat)
    (hbox : behavior = .box → key = none ∧ getBehavior c container = .ok .box ∧
      ¬ BoxFilled c toTime container) :
    Yields c recursive (keyedReset container toTime recurse key behavior fuel) := by
  apply enter_yields
  intro s hs
  apply Yields.consult_same fun _ => rfl
  intro lastClearTime hclear
  apply Yields.attempt_bind
  intro keyBytes hkey
  apply keyedResetLoop_yields (q := ⟨container, toTime, behavior, key, lastClearTime⟩) hc hrec
  · intro hq
    obtain ⟨-, hbehavior, hnot⟩ := hbox hq
    exact ⟨hbehavior, hclear, hnot⟩
  · intro row hrow
    have hplacements : s.contents.placements = c.placements := by rw [hs.contents]
    rw [hplacements] at hrow
    refine ⟨(Table.lastWhere_eq_some_iff.mp hrow).1, ?_⟩
    intro hq
    obtain ⟨hnone, -, -⟩ := hbox hq
    subst hnone
    rw [← Except.ok.inj (show Except.ok [] = Except.ok keyBytes from hkey), List.append_nil] at hrow
    exact Or.inl hrow

theorem orderedReset_yields (hc : Stocked (·.wellFormed = true) c)
    {recurse : Muid → Resetting Unit} {behavior : Behavior}
    (hrec : RecursesValid c recursive container recurse)
    (hbehavior : getBehavior c container = .ok behavior)
    (hordered : behavior = .sequence ∨ behavior = .edgeType)
    (hvalid : ¬ EdgeMisdescribed c toTime container) :
    Yields c recursive (orderedReset container toTime recurse behavior) := by
  apply enter_yields
  intro s hs
  apply Yields.consult_same fun _ => rfl
  intro lastClearTime hlast
  apply Yields.consult_same fun _ => rfl
  intro clearBeforeTo hbefore
  apply orderedResetLoop_yields (q := ⟨container, toTime, behavior, lastClearTime, clearBeforeTo⟩)
    hc hrec hlast hbefore hbehavior hordered hvalid
  intro row hrow
  have hplacements : s.contents.placements = c.placements := by rw [hs.contents]
  rw [hplacements] at hrow
  exact (List.mem_filter.mp hrow).1

theorem containerReset_yields (hc : Stocked (·.wellFormed = true) c) (fuel : Nat)
    (hvalid : ∀ m, Reach c recursive container m → WritesValid c toTime m) :
    Yields c recursive (containerReset toTime fuel container) := by
  induction fuel generalizing container with
  | zero => exact Yields.stop _
  | succ fuel ih =>
      have hrec : RecursesValid c recursive container (containerReset toTime fuel) := by
        intro hrecursive m hm
        apply ih
        rintro m' (rfl | ⟨-, hheld⟩)
        · exact hvalid m' (Or.inr ⟨hrecursive, .single hm⟩)
        · exact hvalid m' (Or.inr ⟨hrecursive, .head hm hheld⟩)
      obtain ⟨hbox, hedge⟩ := hvalid container (Or.inl rfl)
      unfold containerReset
      apply Yields.consult_same fun _ => rfl
      intro behavior hbehavior
      split
      case h_1 => exact vertexReset_yields
      case h_3 => exact keyedReset_yields hc hrec none _ fun _ => ⟨rfl, hbehavior, hbox⟩
      case h_2 | h_4 | h_5 | h_6 | h_7 | h_8 =>
        exact keyedReset_yields hc hrec none _ fun h => by cases h
      case h_9 => exact orderedReset_yields hc hrec hbehavior (Or.inl rfl) hedge
      case h_10 => exact orderedReset_yields hc hrec hbehavior (Or.inr rfl) hedge
      case h_11 => exact Yields.pure ()
      case h_12 => exact accumulatorReset_yields
      case h_13 => exact Yields.stop _

end

/-- **What a reset yields is valid** when the entries of the store are and no container that it
comes to makes it write what is refused. -/
theorem getResetChanges_valid {c : Contents} (hc : Stocked (·.wellFormed = true) c) (fuel : Nat)
    (toTime : Int) (container : Option Muid) (userKey : Option UserKey) (recursive : Bool)
    (hvalid : ∀ m, GoesTo c container userKey recursive m → WritesValid c toTime m) :
    ∀ change ∈ (getResetChanges c fuel toTime container userKey recursive).yielded,
      change.Valid := by
  have hseen : (if recursive = true then some [] else none : Seen).isSome = true →
      recursive = true := by
    cases recursive <;> simp
  cases container with
  | none =>
      cases userKey with
      | some key =>
          intro change hchange
          exact absurd hchange List.not_mem_nil
      | none =>
          have hall : Yields c false (Generator.forEach (containerReset toTime fuel)
              (allContainers c)) := by
            apply Holds.forEach
            intro m hm
            apply containerReset_yields hc
            rintro m' (rfl | ⟨hrecursive, -⟩)
            · exact hvalid m' hm
            · cases hrecursive
          exact (hall _ (.initial fun h => by cases h)).1
  | some root =>
      cases userKey with
      | none =>
          have hroot : Yields c recursive (containerReset toTime fuel root) :=
            containerReset_yields hc fuel hvalid
          exact (hroot _ (.initial hseen)).1
      | some key =>
          have hkey : Yields c recursive (keyedReset root toTime (containerReset toTime fuel)
              (some key) .directory fuel) := by
            refine keyedReset_yields hc (fun hrecursive m hm => ?_) _ _ fun h => by cases h
            apply containerReset_yields hc
            rintro m' (rfl | ⟨-, hheld⟩)
            · exact hvalid m' ⟨hrecursive, .single hm⟩
            · exact hvalid m' ⟨hrecursive, .head hm hheld⟩
          exact (hkey _ (.initial hseen)).1

end Memory

end Gink
