/-
  Gink.Memory.ResetKeeps — when a reset leaves a `MemoryStore` as it was (memory_store.py).

  The changes of a reset are to be written by whoever asked for them; the dictionaries hold
  live builders, though, and an entry that is issued again from an ordered container is
  edited where it is stored.  The edits are traced here: nothing else writes, and they do
  nothing to a builder that is in the form they aim at.
-/
import Gink.Memory.Reset
import Gink.Memory.Store
import Gink.Stores.ResetEntries
import Gink.Bytes.Lex
import Gink.Proto.Sample

namespace Gink

open Machine (Generator)
open Machine.Generator (Holds Returns)

namespace Memory

/-! ## §1. What a reset comes to. -/

/-- The entry of a placement of the container holds the muid, read under its own address or
that of its placer. -/
def Holding (c : Contents) (container muid : Muid) : Prop :=
  ∃ row ∈ c.placements.rows, row.1.take 16 = container.toBytes ∧
    ∃ entryMuid builder occupant,
      (row.2 = entryMuid ∨ Muid.fromBytes (Placement.placerSlice row.1) = .ok entryMuid) ∧
      readEntry c row.2 = .ok builder ∧
      decodeEntryOccupant entryMuid builder = .ok occupant ∧ occupant.muid? = some muid

/-- Inside a container: itself, and what its entries hold, and so on. -/
inductive Within (c : Contents) (root : Muid) : Muid → Prop
  | root : Within c root root
  | held {container muid : Muid} :
      Within c root container → Holding c container muid → Within c root muid

theorem Within.trans {c : Contents} {root middle muid : Muid} (h : Within c root middle)
    (h' : Within c middle muid) : Within c root muid := by
  induction h' with
  | root => exact h
  | held _ hheld ih => exact ih.held hheld

/-- The containers that the reset of one may come to. -/
def Scope (c : Contents) (recursive : Bool) (root muid : Muid) : Prop :=
  muid = root ∨ recursive = true ∧ Within c root muid

/-! ## §2. What the edits do not touch. -/

/-- The builder is what it is edited to: its references are absolute and it says the position
it has. -/
def Settled (muid : Muid) (placement : Placement) (builder : EntryBuilder) : Prop :=
  Action.endState (normalizeEntryBuilder muid builder) = builder ∧
    ∀ position, placement.middle.position = .ok position → builder.effective = position

/-- No property that describes the entry up to `instant` shares its muid with an entry. -/
def PropertiesApart (c : Contents) (muid instant : Muid) : Prop :=
  ∀ row ∈ irange c.byDescribing muid.toBytes (muid.toBytes ++ instant.toBytes),
    ∀ property, Muid.fromBytes row.2 = .ok property → c.entries.get? property = none

/-- The entry was where the row places it at `to_time`, and is not there any longer: it is
issued again. -/
structure Reissued (c : Contents) (toTime : Int) (container : Muid) (behavior : Behavior)
    (row : Bytes × Muid) (placement : Placement) (builder : EntryBuilder) : Prop where
  member : row ∈ c.placements.rows
  own : row.1.take 16 = container.toBytes
  parsed : Placement.fromBytes row.1 behavior = .ok placement
  stored : readEntry c row.2 = .ok builder
  previous : (getLocation c row.2 toTime >>= parseLocation behavior) = .ok (some placement)
  uncleared : ∃ time, timeOfPriorClear c container toTime = .ok time ∧ time < placement.placedTime
  gone : (getLocation c row.2 (-1) >>= parseLocation behavior) = .ok none ∨
    ∃ time, timeOfPriorClear c container (-1) = .ok time ∧ placement.placedTime < time

/-- The reset of the container finds nothing to edit: what it issues again is settled, and so
is what describes it. -/
def NothingToEdit (c : Contents) (toTime : Int) (container : Muid) : Prop :=
  ∀ behavior row placement builder, getBehavior c container = .ok behavior →
    behavior = .sequence ∨ behavior = .edgeType →
    Reissued c toTime container behavior row placement builder →
      Settled row.2 placement builder ∧
        (builder.behavior = .edgeType →
          ∀ instant, Muid.instant toTime = .ok instant → PropertiesApart c row.2 instant)

/-! ## §3. Generators that keep the dictionaries. -/

/-- The dictionaries are as they were, and a reset that does not recurse keeps no set. -/
def Kept (c : Contents) (recursive : Bool) (s : ResetState) : Prop :=
  s.contents = c ∧ (s.seen.isSome = true → recursive = true)

/-- The generator leaves the dictionaries as they were, also when it raises. -/
def Resetting.Keeps {α : Type} (c : Contents) (recursive : Bool) (g : Resetting α) : Prop :=
  Holds (Kept c recursive) (fun _ => True) (fun _ => True) g

section
variable {α β : Type} {c : Contents} {recursive : Bool}

theorem Resetting.Keeps.pure (a : α) : Resetting.Keeps c recursive (pure a) := Holds.pure a

theorem Resetting.Keeps.bind {g : Resetting α} {f : α → Resetting β}
    (hg : Resetting.Keeps c recursive g) (hf : ∀ a, Resetting.Keeps c recursive (f a)) :
    Resetting.Keeps c recursive (g >>= f) :=
  Holds.bind hg hf

theorem Resetting.Keeps.yielding (change : ChangeBuilder) :
    Resetting.Keeps c recursive (Generator.yielding change) := Holds.yielding True.intro

theorem Resetting.Keeps.stop (e : Halt) :
    Resetting.Keeps c recursive (Generator.stop e : Resetting α) :=
  Holds.stop True.intro

theorem Resetting.Keeps.attempt (x : Except Error α) :
    Resetting.Keeps c recursive (Gink.attempt x) :=
  Holds.of fun _ _ => True.intro

theorem Resetting.Keeps.attempt_bind {x : Except Error α} {f : α → Resetting β}
    (hf : ∀ a, x = .ok a → Resetting.Keeps c recursive (f a)) :
    Resetting.Keeps c recursive (Gink.attempt x >>= f) :=
  Holds.of_bind (fun _ _ => True.intro) fun a ha => hf a (mapError_eq_ok.mp ha)

theorem Resetting.Keeps.consult (f : Contents → Except Error α) :
    Resetting.Keeps c recursive (consult f) :=
  Holds.read_bind fun s hs => Resetting.Keeps.attempt (f s.contents) s hs

/-- What was read is what the kept dictionaries say. -/
theorem Resetting.Keeps.consult_bind {f : Contents → Except Error α} {g : α → Resetting β}
    (hg : ∀ a, f c = .ok a → Resetting.Keeps c recursive (g a)) :
    Resetting.Keeps c recursive (Memory.consult f >>= g) := by
  apply Holds.bind_of (Resetting.Keeps.consult f)
  intro s hs a ha hstate
  have ha' : f s.contents = .ok a := mapError_eq_ok.mp ha
  rw [hs.1] at ha'
  exact hg a ha' _ hstate

/-- **An edit that changes nothing** changes nothing. -/
theorem Resetting.Keeps.editEntry {muid : Muid} {edit : Action EntryBuilder Unit}
    (h : ∀ builder, readEntry c muid = .ok builder →
      Action.endState (edit builder) = builder) :
    Resetting.Keeps c recursive (editEntry muid edit) := by
  apply Holds.read_bind
  intro s hs
  obtain ⟨hcontents, hseen⟩ := hs
  subst hcontents
  refine Resetting.Keeps.attempt_bind (x := readEntry s.contents muid) ?_ s ⟨rfl, hseen⟩
  intro builder hbuilder
  have hstored : s.contents.entries.put muid builder = s.contents.entries :=
    Table.put_eq_self (orRaise_eq_ok.mp hbuilder)
  have hstore : Kept s.contents recursive { s with contents :=
      { s.contents with entries := s.contents.entries.put muid builder } } := by
    rw [hstored]
    exact ⟨rfl, hseen⟩
  have hsame := h builder hbuilder
  cases hedit : edit builder with
  | ok u e =>
      rw [hedit] at hsame
      subst hsame
      exact Holds.write hstore
  | error err e =>
      rw [hedit] at hsame
      subst hsame
      exact Resetting.Keeps.bind (Holds.write hstore) fun _ => Resetting.Keeps.stop _

theorem Resetting.Keeps.yieldEntry (muid : Muid) : Resetting.Keeps c recursive (yieldEntry muid) :=
  Resetting.Keeps.consult_bind fun _ _ => Resetting.Keeps.yielding _

end

/-! ## §4. Keyed containers. -/

/-- Recursion is kept to what the container holds. -/
def Reaches (c : Contents) (container : Muid) (occupant : Occupant) : Prop :=
  ∀ m, occupant.muid? = some m → Holding c container m

section
variable {c : Contents} {recursive : Bool} {container : Muid} {occupant : Occupant}

theorem reaches_deletion : Reaches c container .deletion := by
  intro m hm
  cases hm

theorem reaches_of_row {row : Bytes × Muid} (hrow : row ∈ c.placements.rows)
    (hown : row.1.take 16 = container.toBytes) {entryMuid : Muid} {builder : EntryBuilder}
    (hm : row.2 = entryMuid ∨ Muid.fromBytes (Placement.placerSlice row.1) = .ok entryMuid)
    (hb : readEntry c row.2 = .ok builder)
    (ho : decodeEntryOccupant entryMuid builder = .ok occupant) : Reaches c container occupant :=
  fun _ h => ⟨row, hrow, hown, entryMuid, builder, occupant, hm, hb, ho, h⟩

/-- A row between two strings that start with a container is of that container. -/
theorem own_of_between {low high : Bytes} {row : Bytes × Muid}
    (hlow : container.toBytes <+: low) (hhigh : container.toBytes <+: high)
    (hrow : row ∈ irange c.placements low high) :
    row ∈ c.placements.rows ∧ row.1.take 16 = container.toBytes := by
  obtain ⟨hmem, hbounds⟩ := List.mem_filter.mp hrow
  rw [Bool.and_eq_true, decide_eq_true_eq, decide_eq_true_eq] at hbounds
  obtain ⟨rest, hrest⟩ := Bytes.prefix_of_le_of_le hlow hhigh hbounds.1 hbounds.2
  exact ⟨hmem, by rw [← hrest, List.take_left' (Muid.length_toBytes container)]⟩

theorem containedThen_reaches {q : KeyedReset} {row : Bytes × Muid} {key : MiddleKey}
    {past : Option EntryBuilder × Occupant} (h : containedThen c q row key = .ok past) :
    Reaches c q.container past.2 := by
  unfold containedThen at h
  obtain ⟨lastClear, -, h⟩ := bind_eq_ok.mp h
  obtain ⟨instant, -, h⟩ := bind_eq_ok.mp h
  obtain ⟨limit, hlimit, h⟩ := bind_eq_ok.mp h
  obtain ⟨_, hsame, h⟩ := bind_eq_ok.mp h
  have hsame := of_decide_eq_true (ensure_eq_ok.mp hsame)
  have hhigh := container_of_limit hlimit
  have hlow := container_of_throughMiddle hlimit hsame
  cases hfound : (irange c.placements (row.1.take (row.1.length - 24)) limit).getLast? with
  | none =>
      rw [hfound] at h
      rw [← pure_eq_ok.mp h]
      exact reaches_deletion
  | some found =>
      obtain ⟨hmem, hown⟩ := own_of_between hlow hhigh (List.mem_of_getLast? hfound)
      rw [hfound] at h
      obtain ⟨placement, hplacement, h⟩ := bind_eq_ok.mp h
      obtain ⟨builder, hbuilder, h⟩ := bind_eq_ok.mp h
      split at h
      · obtain ⟨occupant, hoccupant, h⟩ := bind_eq_ok.mp h
        rw [← pure_eq_ok.mp h]
        exact reaches_of_row hmem hown (Or.inr (placer_of_fromBytes hplacement)) hbuilder hoccupant
      · rw [← pure_eq_ok.mp h]
        exact reaches_deletion

theorem restoreKey_keeps (q : KeyedReset) (key : MiddleKey) (past : Option EntryBuilder)
    (contained : Occupant) : Resetting.Keeps c recursive (restoreKey q key past contained) := by
  unfold restoreKey
  split
  · exact Resetting.Keeps.attempt_bind fun entry _ => Resetting.Keeps.yielding _
  · exact Resetting.Keeps.yielding _
  · exact Resetting.Keeps.pure ()

/-- The recursion of a container whose contents are in scope. -/
def Recurses (c : Contents) (recursive : Bool) (container : Muid) (recurse : Muid → Resetting Unit) :
    Prop :=
  recursive = true → ∀ m, Holding c container m → Resetting.Keeps c recursive (recurse m)

theorem recurseOn_keeps {recurse : Muid → Resetting Unit}
    (hrec : Recurses c recursive container recurse) (hreach : Reaches c container occupant) :
    Resetting.Keeps c recursive (recurseOn recurse occupant) := by
  apply Holds.read_bind
  intro s hs
  cases hseen : s.seen with
  | none => exact Resetting.Keeps.pure () s hs
  | some l =>
      cases hm : occupant.muid? with
      | none => exact Resetting.Keeps.pure () s hs
      | some m => exact hrec (hs.2 (by rw [hseen]; rfl)) m (hreach m hm) s hs

theorem settleKey_bind_keeps {α : Type} {q : KeyedReset} {row : Bytes × Muid} {key : MiddleKey}
    {now : Occupant} {f : Occupant → Resetting α}
    (hf : ∀ o, Reaches c q.container o → Resetting.Keeps c recursive (f o)) :
    Resetting.Keeps c recursive (settleKey q row key now >>= f) := by
  unfold settleKey
  rw [Generator.bind_assoc]
  apply Resetting.Keeps.consult_bind
  intro past hpast
  have hreach := containedThen_reaches hpast
  split
  · exact hf _ hreach
  · rw [Generator.bind_assoc]
    exact Resetting.Keeps.bind (restoreKey_keeps _ _ _ _) fun _ => hf _ hreach

/-- A key is recursed on for what it holds, or held. -/
theorem resetKey_bind_keeps {α : Type} {q : KeyedReset} {row : Bytes × Muid}
    {placement : Placement} {builder : EntryBuilder} {f : Occupant → Resetting α}
    (hrow : row ∈ c.placements.rows) (hown : row.1.take 16 = q.container.toBytes)
    (hp : Placement.fromBytes row.1 q.behavior = .ok placement)
    (hb : readEntry c row.2 = .ok builder)
    (hf : ∀ o, Reaches c q.container o → Resetting.Keeps c recursive (f o)) :
    Resetting.Keeps c recursive (resetKey q row placement builder >>= f) := by
  unfold resetKey
  split
  · exact Resetting.Keeps.attempt_bind fun o ho =>
      hf o (reaches_of_row hrow hown (Or.inr (placer_of_fromBytes hp)) hb ho)
  · split
    · rw [Generator.bind_assoc]
      exact Resetting.Keeps.attempt_bind fun _ _ => settleKey_bind_keeps hf
    · exact settleKey_bind_keeps hf

theorem keyedResetLoop_keeps {q : KeyedReset} {recurse : Muid → Resetting Unit}
    (hrec : Recurses c recursive q.container recurse) (fuel : Nat) (found : Option (Bytes × Muid))
    (hfound : ∀ row, found = some row → row ∈ c.placements.rows) :
    Resetting.Keeps c recursive (keyedResetLoop q recurse fuel found) := by
  induction fuel generalizing found with
  | zero =>
      cases found with
      | none => exact Resetting.Keeps.pure ()
      | some row => exact Resetting.Keeps.stop _
  | succ fuel ih =>
      cases found with
      | none => exact Resetting.Keeps.pure ()
      | some row =>
          unfold keyedResetLoop
          split
          · exact Resetting.Keeps.pure ()
          · rename_i hown
            have hown := not_not.mp hown
            apply Resetting.Keeps.attempt_bind
            intro placement hp
            apply Resetting.Keeps.consult_bind
            intro builder hb
            apply resetKey_bind_keeps (hfound row rfl) hown hp hb
            intro occupant hreach
            apply Resetting.Keeps.bind (recurseOn_keeps hrec hreach)
            intro _
            split
            · exact Resetting.Keeps.pure ()
            · apply Resetting.Keeps.attempt_bind
              intro limit _
              apply Holds.read_bind
              intro s hs
              refine ih _ ?_ s hs
              intro next hnext
              rw [hs.1] at hnext
              exact (Table.lastWhere_eq_some_iff.mp hnext).1

/-- Whether or not a container is gone through, it is the set that is written. -/
theorem enter_keeps {rest : ResetState → Resetting Unit}
    (h : ∀ s, s.contents = c → Resetting.Keeps c recursive (rest s)) :
    Resetting.Keeps c recursive (Generator.read >>= fun s =>
      if !(enter container s.seen).1 then pure ()
      else Generator.write { s with seen := (enter container s.seen).2 } >>= fun _ => rest s) := by
  apply Holds.read_bind
  intro s hs
  have hwritten : Kept c recursive { s with seen := (enter container s.seen).2 } :=
    ⟨hs.1, by rw [enter_isSome]; exact hs.2⟩
  cases hin : (enter container s.seen).1 with
  | true =>
      rw [if_neg (by decide)]
      exact Resetting.Keeps.bind (Holds.write hwritten) (fun _ => h s hs.1) s hs
  | false =>
      rw [if_pos (by decide)]
      exact Resetting.Keeps.pure () s hs

theorem keyedReset_keeps {toTime : Int} {recurse : Muid → Resetting Unit}
    (hrec : Recurses c recursive container recurse) (key : Option UserKey) (behavior : Behavior)
    (fuel : Nat) :
    Resetting.Keeps c recursive (keyedReset container toTime recurse key behavior fuel) := by
  apply enter_keeps
  intro s hs
  apply Resetting.Keeps.consult_bind
  intro lastClearTime _
  apply Resetting.Keeps.attempt_bind
  intro keyBytes _
  apply keyedResetLoop_keeps (q := ⟨container, toTime, behavior, key, lastClearTime⟩) hrec
  intro row hrow
  rw [hs] at hrow
  exact (Table.lastWhere_eq_some_iff.mp hrow).1

/-! ## §5. Ordered containers. -/

/-- One turn of the loop. -/
theorem reissueLoop_cons (describing : Bytes) (row : Bytes × Bytes) (rest : List (Bytes × Bytes))
    (issued : List Bytes) (offset : Int) :
    reissueLoop describing (row :: rest) issued offset =
      if !describing.isPrefixOf row.1 then pure ()
      else if row.2 ∈ issued then reissueLoop describing rest issued offset
      else (do
        let property ← attempt (Muid.fromBytes row.2)
        let _ ← consult (readEntry · property)
        let describerMuid ← attempt (Muid.fromBytes (row.1.drop 16))
        editEntry property (normalizeEntryBuilder describerMuid)
        let back ← attempt (Muid.make 0 0 (offset - 1))
        editEntry property (modify fun e => { e with subject := some (.describing back.putInto) })
        yieldEntry property
        reissueLoop describing rest (row.2 :: issued) (offset - 1)) := rfl

theorem reissueLoop_keeps {describing : Bytes} (rows : List (Bytes × Bytes)) (issued : List Bytes)
    (offset : Int) (hrows : ∀ row ∈ rows, ∀ property, Muid.fromBytes row.2 = .ok property →
      c.entries.get? property = none) :
    Resetting.Keeps c recursive (reissueLoop describing rows issued offset) := by
  induction rows generalizing issued offset with
  | nil => exact Resetting.Keeps.pure ()
  | cons row rest ih =>
      have hrest := fun r hr => hrows r (List.mem_cons_of_mem row hr)
      rw [reissueLoop_cons]
      split
      · exact Resetting.Keeps.pure ()
      · split
        · exact ih _ _ hrest
        · apply Resetting.Keeps.attempt_bind
          intro property hproperty
          apply Resetting.Keeps.consult_bind
          intro builder hbuilder
          have hnone := hrows row List.mem_cons_self property hproperty
          rw [readEntry, hnone, orRaise_none] at hbuilder
          cases hbuilder

theorem reissueProperties_keeps {entryMuid : Muid} {toTime : Int}
    (h : ∀ instant, Muid.instant toTime = .ok instant → PropertiesApart c entryMuid instant) :
    Resetting.Keeps c recursive (reissueProperties entryMuid.toBytes toTime) := by
  unfold reissueProperties
  apply Resetting.Keeps.attempt_bind
  intro instant hi
  apply Holds.read_bind
  intro s hs
  refine reissueLoop_keeps _ [] 0 ?_ s hs
  intro row hrow
  rw [hs.1] at hrow
  exact h instant hi row (List.mem_reverse.mp hrow)

theorem undoPlacement_keeps (q : OrderedReset) (entryMuid : Muid) (placement : Placement)
    (location previous : Option Placement) :
    Resetting.Keeps c recursive (undoPlacement q entryMuid placement location previous) := by
  unfold undoPlacement
  split
  · cases previous with
    | none => exact Resetting.Keeps.yielding _
    | some previous =>
        apply Resetting.Keeps.attempt_bind
        intro positionThen _
        apply Resetting.Keeps.attempt_bind
        intro positionNow _
        split
        · exact Resetting.Keeps.yielding _
        · exact Resetting.Keeps.pure ()
  · exact Resetting.Keeps.pure ()

theorem restorePlacement_keeps {q : OrderedReset} {recurse : Muid → Resetting Unit}
    {row : Bytes × Muid} {placement : Placement} {location previous : Option Placement}
    (hrec : Recurses c recursive q.container recurse) (hrow : row ∈ c.placements.rows)
    (hown : row.1.take 16 = q.container.toBytes)
    (hedit : ∀ builder, readEntry c row.2 = .ok builder → previous = some placement →
      q.clearBeforeTo < placement.placedTime →
      location = none ∨ q.lastClearTime > placement.placedTime →
        Settled row.2 placement builder ∧ (builder.behavior = .edgeType →
          ∀ instant, Muid.instant q.toTime = .ok instant → PropertiesApart c row.2 instant)) :
    Resetting.Keeps c recursive (restorePlacement q recurse row.2 placement location previous) := by
  unfold restorePlacement
  split
  · rename_i hprevious
    apply Resetting.Keeps.consult_bind
    intro builder hb
    apply Resetting.Keeps.attempt_bind
    intro occupant ho
    apply Resetting.Keeps.bind (recurseOn_keeps hrec (reaches_of_row hrow hown (Or.inl rfl) hb ho))
    intro _
    split
    · rename_i hgone
      obtain ⟨⟨hnormal, hposition⟩, hproperties⟩ := hedit builder hb hprevious.1 hprevious.2 hgone
      have hsame (other : EntryBuilder) (h : readEntry c row.2 = .ok other) : other = builder :=
        Except.ok.inj (h.symm.trans hb)
      have hfirst : Resetting.Keeps c recursive (editEntry row.2 (normalizeEntryBuilder row.2)) := by
        apply Resetting.Keeps.editEntry
        intro other h
        rw [hsame other h]
        exact hnormal
      apply Resetting.Keeps.bind hfirst
      intro _
      apply Resetting.Keeps.attempt_bind
      intro position hpos
      have hsecond : Resetting.Keeps c recursive (editEntry row.2
          (modify fun e => { e with effective := position })) := by
        apply Resetting.Keeps.editEntry
        intro other h
        rw [hsame other h]
        show { builder with effective := position } = builder
        rw [← hposition position hpos]
      apply Resetting.Keeps.bind hsecond
      intro _
      apply Resetting.Keeps.bind (Resetting.Keeps.yieldEntry row.2)
      intro _
      split
      · rename_i hedge
        exact reissueProperties_keeps (hproperties hedge)
      · exact Resetting.Keeps.pure ()
    · exact Resetting.Keeps.pure ()
  · exact Resetting.Keeps.pure ()

theorem orderedResetLoop_keeps {q : OrderedReset} {recurse : Muid → Resetting Unit}
    (hrec : Recurses c recursive q.container recurse)
    (hlast : timeOfPriorClear c q.container (-1) = .ok q.lastClearTime)
    (hbefore : timeOfPriorClear c q.container q.toTime = .ok q.clearBeforeTo)
    (hbehavior : getBehavior c q.container = .ok q.behavior)
    (hordered : q.behavior = .sequence ∨ q.behavior = .edgeType)
    (hc : NothingToEdit c q.toTime q.container) (rows : List (Bytes × Muid))
    (hrows : ∀ row ∈ rows, row ∈ c.placements.rows) :
    Resetting.Keeps c recursive (orderedResetLoop q recurse rows) := by
  induction rows with
  | nil => exact Resetting.Keeps.pure ()
  | cons row rest ih =>
      have hrow := hrows row List.mem_cons_self
      unfold orderedResetLoop
      split
      · exact Resetting.Keeps.pure ()
      · rename_i hown
        have hown := not_not.mp hown
        apply Resetting.Keeps.attempt_bind
        intro placement hparsed
        apply Resetting.Keeps.consult_bind
        intro location hlocation
        apply Resetting.Keeps.consult_bind
        intro previous hprevious
        apply Resetting.Keeps.bind (undoPlacement_keeps _ _ _ _ _)
        intro _
        refine Resetting.Keeps.bind (restorePlacement_keeps hrec hrow hown ?_) fun _ =>
          ih fun r hr => hrows r (List.mem_cons_of_mem row hr)
        intro builder hb hsame hclear hgone
        subst hsame
        refine hc q.behavior row placement builder hbehavior hordered
          ⟨hrow, hown, hparsed, hb, hprevious, ⟨_, hbefore, hclear⟩, ?_⟩
        rcases hgone with hnone | hcleared
        · exact Or.inl (hnone ▸ hlocation)
        · exact Or.inr ⟨_, hlast, hcleared⟩

theorem orderedReset_keeps {toTime : Int} {recurse : Muid → Resetting Unit} {behavior : Behavior}
    (hrec : Recurses c recursive container recurse)
    (hbehavior : getBehavior c container = .ok behavior)
    (hordered : behavior = .sequence ∨ behavior = .edgeType)
    (hc : NothingToEdit c toTime container) :
    Resetting.Keeps c recursive (orderedReset container toTime recurse behavior) := by
  apply enter_keeps
  intro s hs
  apply Resetting.Keeps.consult_bind
  intro lastClearTime hlast
  apply Resetting.Keeps.consult_bind
  intro clearBeforeTo hbefore
  apply orderedResetLoop_keeps (q := ⟨container, toTime, behavior, lastClearTime, clearBeforeTo⟩)
    hrec hlast hbefore hbehavior hordered hc
  intro row hrow
  rw [hs] at hrow
  exact (List.mem_filter.mp hrow).1

/-! ## §6. Any container. -/

theorem vertexReset_keeps (toTime : Int) :
    Resetting.Keeps c recursive (vertexReset container toTime) := by
  apply Resetting.Keeps.attempt_bind
  intro instant _
  apply Resetting.Keeps.consult_bind
  intro previous _
  apply Resetting.Keeps.consult_bind
  intro isDeleted _
  split
  · exact Resetting.Keeps.yielding _
  · exact Resetting.Keeps.pure ()

theorem accumulatorReset_keeps (toTime : Int) :
    Resetting.Keeps c recursive (accumulatorReset container toTime) :=
  Resetting.Keeps.consult_bind fun _ _ => Resetting.Keeps.consult_bind fun _ _ =>
    Resetting.Keeps.yielding _

theorem containerReset_keeps {toTime : Int} (fuel : Nat)
    (hc : ∀ m, Scope c recursive container m → NothingToEdit c toTime m) :
    Resetting.Keeps c recursive (containerReset toTime fuel container) := by
  induction fuel generalizing container with
  | zero => exact Resetting.Keeps.stop _
  | succ fuel ih =>
      have hrec : Recurses c recursive container (containerReset toTime fuel) := by
        intro hrecursive m hm
        apply ih
        intro m' hm'
        refine hc m' (Or.inr ⟨hrecursive, ?_⟩)
        rcases hm' with rfl | ⟨-, hwithin⟩
        · exact Within.root.held hm
        · exact (Within.root.held hm).trans hwithin
      have hown := hc container (Or.inl rfl)
      unfold containerReset
      apply Resetting.Keeps.consult_bind
      intro behavior hbehavior
      split
      case h_1 => exact vertexReset_keeps toTime
      case h_2 | h_3 | h_4 | h_5 | h_6 | h_7 | h_8 => exact keyedReset_keeps hrec _ _ _
      case h_9 => exact orderedReset_keeps hrec hbehavior (Or.inl rfl) hown
      case h_10 => exact orderedReset_keeps hrec hbehavior (Or.inr rfl) hown
      case h_11 => exact Resetting.Keeps.pure ()
      case h_12 => exact accumulatorReset_keeps toTime
      case h_13 => exact Resetting.Keeps.stop _

end

/-- The containers that a reset may come to, by what it is asked for. -/
def ComesTo (c : Contents) (container : Option Muid) (userKey : Option UserKey) (recursive : Bool)
    (m : Muid) : Prop :=
  match container, userKey with
  | none, none => m ∈ allContainers c
  | none, some _ => False
  | some root, none => Scope c recursive root m
  | some root, some _ => recursive = true ∧ ∃ held, Holding c root held ∧ Within c held m

/-- An entry of the global sequence. -/
def listedBundle : BundleBuilder := startingBundle 5 1 [sampleEntry .sequence none "x"]

/-- Its removal. -/
def removingBundle : BundleBuilder := followingBundle 7 0 listedBundle
  [.movement { container := globalBuilder .sequence, entry := ⟨5, 1, 1⟩, dest := 0 }]

/-- A store that has the entry. -/
def listedStore : Contents :=
  (runCalls (sampleExternals [listedBundle]) (newStore [] true)
    [{ bundle := sampleBundle 0 }]).contents

/-- A store that had it. -/
def removedStore : Contents :=
  (runCalls (sampleExternals [listedBundle, removingBundle]) (newStore [] true)
    [{ bundle := sampleBundle 0 }, { bundle := sampleBundle 1 }]).contents

/-- The row of the entry. -/
def listedRow : Bytes × Muid :=
  ((globalMuid .sequence).toBytes ++ packSigned 5 ++ (⟨5, 1, 1⟩ : Muid).toBytes ++ packSigned 0,
    ⟨5, 1, 1⟩)

end Memory

end Gink
