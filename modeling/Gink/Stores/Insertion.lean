/-
  Gink.Stores.Insertion — `Sequence.insert(index, value)` over both stores (sequence.py).

  The entry gets a position that is drawn between those of its neighbours; for the index 0 it
  is the first position less a number drawn from 0 to 1000000.

  Main results:
    * `insert_stands_before_iff` — the value stands before the index whatever was drawn, but
      at the index 0 only if the number is neither 0 nor as large as the first position;
    * `drawn_zero_stands_behind` — with a 0 it stands behind the first entry.
-/
import Gink.Lmdb.Insertion
import Gink.Memory.Insertion
import Gink.Stores.Slices

namespace Gink

/-! ## §1. Insertions into what is listed. -/

/-- A sequence lists `l` at `asOf`, and is changed by `entryMuid` before `later`. -/
structure Inserting (l : List PositionedEntry) (info : BundleInfo) (offset : Nat)
    (container entryMuid : Muid) (asOf later : Int) : Prop where
  muid : changeMuid info offset = .ok entryMuid
  container : resolve entryMuid.context container.putInto = .ok container
  times : 0 < entryMuid.timestamp ∧ asOf ≤ entryMuid.timestamp ∧ entryMuid.timestamp < later
  /-- the entries were placed by changes, which have a time -/
  stamped : ∀ x ∈ l, 0 ≤ x.positioner.timestamp
  spaced : Spaced l
  past : ∀ x ∈ l, x.position ≤ entryMuid.timestamp

/-- The entry that `insert` adds comes to stand before the index. -/
def Inserts {Value : Type} (read : Option Int → Int → Bool → Except Error (List PositionedEntry))
    (getOccupant : EntryBuilder → Muid → Except Error Value) (randint : Int → Int → Int)
    (l : List PositionedEntry) (entryMuid : Muid) (contains : Option Contains) (i : Nat)
    (listedAfter : Int → Except Error (List PositionedEntry)) : Prop :=
  ∃ p, newPosition randint (positionAt read getOccupant) none (some i) = .ok p ∧
    InsertedBefore l entryMuid contains i (listedAfter p)

section
variable {Value : Type} {getOccupant : EntryBuilder → Muid → Except Error Value}
  {randint : Int → Int → Int} {l : List PositionedEntry} {info : BundleInfo} {offset : Nat}
  {container entryMuid : Muid} {contains : Option Contains} {asOf later : Int} {i : Nat}

/-- What is listed was placed by earlier changes. -/
theorem Inserting.placers_lt (h : Inserting l info offset container entryMuid asOf later)
    (hplaced : ∀ x ∈ l, x.positioner.timestamp < asOf) : ∀ x ∈ l, x.positioner < entryMuid := by
  intro x hx
  have hbefore := hplaced x hx
  have hafter := h.times.2.1
  by_contra hnot
  have hle := Muid.timestamp_le_of_le (not_lt.mp hnot) (h.stamped x hx)
  omega

/-- The positions at the indexes of the list. -/
theorem positionAt_listed {read : Option Int → Int → Bool → Except Error (List PositionedEntry)}
    (hread : ∀ j (h : j < l.length), read (some 1) j false = .ok [l[j]])
    (hoccupants : ∀ x ∈ l, ∃ v, getOccupant x.builder x.entryMuid = .ok v) :
    ∀ j (h : j < l.length), positionAt read getOccupant (j : Int) = .ok l[j].position := by
  intro j hj
  obtain ⟨v, hv⟩ := hoccupants _ (List.getElem_mem hj)
  have hforward : decide ((j : Int) < 0) = false := by simp
  unfold positionAt
  simp only [if_neg (not_lt.mpr (Int.natCast_nonneg j)), hforward, hread j hj]
  show (getOccupant l[j].builder l[j].entryMuid >>= fun _ => _) = _
  rw [hv]
  rfl

/-- **Over any store** that lists by positions what is added. -/
theorem inserts_iff {read : Option Int → Int → Bool → Except Error (List PositionedEntry)}
    {listedAfter : Int → Except Error (List PositionedEntry)} (hdraws : Draws randint)
    (h : Inserting l info offset container entryMuid asOf later)
    (hadds : AddsAt l entryMuid.timestamp later entryMuid contains listedAfter)
    (hsorted : l.Pairwise (fun a b => a.position ≤ b.position) ∧ ∀ x ∈ l, 0 ≤ x.position)
    (hothers : ∀ x ∈ l, x.entryMuid ≠ entryMuid)
    (hread : ∀ j (h : j < l.length), read (some 1) j false = .ok [l[j]])
    (hoccupants : ∀ x ∈ l, ∃ v, getOccupant x.builder x.entryMuid = .ok v) (hi : i < l.length) :
    Inserts read getOccupant randint l entryMuid contains i listedAfter ↔
      1 ≤ i ∨ 0 < randint 0 1000000 ∧ randint 0 1000000 < l[0].position := by
  have hpresent : Present l entryMuid.timestamp entryMuid :=
    ⟨h.times.1, hsorted.1, fun x hx => ⟨hsorted.2 x hx, h.past x hx⟩, hothers⟩
  exact hadds.inserts_iff hpresent h.times.2.2 hdraws h.spaced
    (positionAt_listed hread hoccupants) hi

end

/-- **A value that is inserted** stands before the index, unless this is 0 and the number drawn
is 0 or not below the position of the first entry. -/
theorem insert_stands_before_iff {Value : Type} (getOccupant : EntryBuilder → Muid → Except Error Value)
    {randint : Int → Int → Int} (hdraws : Draws randint) {l : List PositionedEntry}
    {info : BundleInfo} {offset : Nat} {container entryMuid : Muid} {asOf later : Int}
    (hinserting : Inserting l info offset container entryMuid asOf later)
    (hoccupants : ∀ x ∈ l, ∃ v, getOccupant x.builder x.entryMuid = .ok v)
    (contains : Option Contains) {i : Nat} (hi : i < l.length) :
    (∀ lib committed retaining (c : Lmdb.Contents), Lmdb.Unheard c container entryMuid →
      Lmdb.MayAdd info container entryMuid contains →
      Lmdb.getOrderedEntries c container asOf = .ok l →
      Lmdb.getOrderedEntries c container later = .ok l →
      (Inserts (@Lmdb.getOrderedEntries c container asOf · · · 0) getOccupant randint l entryMuid
        contains i (Lmdb.listedAfter lib committed retaining info offset c container contains later) ↔
      1 ≤ i ∨ 0 < randint 0 1000000 ∧ randint 0 1000000 < l[0].position)) ∧
    ∀ retaining now (c : Memory.Contents), Memory.Unheard c container entryMuid →
      Memory.getOrderedEntries c container asOf = .ok l →
      Memory.getOrderedEntries c container later = .ok l →
      (Inserts (@Memory.getOrderedEntries c container asOf · · · 0) getOccupant randint l entryMuid
        contains i (Memory.listedAfter c retaining now info offset container contains later) ↔
      1 ≤ i ∨ 0 < randint 0 1000000 ∧ randint 0 1000000 < l[0].position) := by
  have hne : l ≠ [] := List.ne_nil_of_length_pos (by omega)
  have htimes := hinserting.times
  constructor
  · intro lib committed retaining c hunheard hmay hread hlater
    have hplaced := Lmdb.listed_placed hread
    have hadds := @Lmdb.listedAfter_addsAt lib committed c container entryMuid contains retaining
      info offset later l hlater hne hunheard hinserting.muid hinserting.container hmay
      (hinserting.placers_lt fun x hx => (hplaced x hx).1) ⟨htimes.1, htimes.2.2⟩
    refine inserts_iff hdraws hinserting hadds (Lmdb.listed_sorted hread) ?_
      (fun j hj => Lmdb.getOrderedEntries_at hread hj) hoccupants hi
    intro x hx hsame
    obtain ⟨row, hrow, hmuid⟩ := (hplaced x hx).2
    exact (hunheard.rows row hrow).1 (hsame ▸ hmuid)
  · intro retaining now c hunheard hread hlater
    have hplaced := Memory.listed_placed hread
    have hadds := @Memory.listedAfter_addsAt c container entryMuid contains retaining now info offset
      later l hlater hne hunheard hinserting.muid hinserting.container
      (hinserting.placers_lt fun x hx => (hplaced x hx).1) ⟨htimes.1, htimes.2.2⟩
    refine inserts_iff hdraws hinserting hadds (Memory.listed_sorted hread) ?_
      (fun j hj => Memory.getOrderedEntries_at hread hj) hoccupants hi
    intro x hx hsame
    obtain ⟨row, hrow, hmuid⟩ := (hplaced x hx).2
    exact (hunheard.rows row hrow).1 (hsame ▸ hmuid)

/-! ## §2. Two entries. -/

/-- A sequence with entries at 10 and 14. -/
def twoEntries : Externals := sampleExternals [startingBundle 20 7 [entryAt 10, entryAt 14]]

def twoInLmdb : Lmdb.Contents :=
  (Lmdb.runTurns twoEntries (Lmdb.newStore ∅ true true) lmdbSequence).db.contents

def twoInMemory : Memory.Contents :=
  (Memory.runTurns twoEntries (Memory.newStore [] true) memorySequence).contents

/-- The bundle of the insertion. -/
def insertInfo : BundleInfo := ⟨60, 7, 20, 20, List.replicate 31 0 ++ [0], ""⟩

def insertMuid : Muid := ⟨60, 7, 1⟩

def insertedValue : Option Contains := some (.value (.integer "7"))

/-- Draws the least number. -/
def least (a _ : Int) : Int := a

theorem draws_least : Draws least := fun _ _ h => ⟨le_rfl, h⟩

/-- What is found at an entry. -/
def contained (builder : EntryBuilder) (_ : Muid) : Except Error (Option Contains) :=
  .ok builder.contains

def builderAt (position : Int) : EntryBuilder :=
  sequenceEntry (globalMuid .sequence) (some (.value (.integer "1"))) position

/-- The list of both stores. -/
def twoListed : List PositionedEntry :=
  [⟨10, ⟨20, 7, 1⟩, ⟨20, 7, 1⟩, builderAt 10⟩, ⟨14, ⟨20, 7, 2⟩, ⟨20, 7, 2⟩, builderAt 14⟩]

theorem inserting_two :
    Inserting twoListed insertInfo 1 (globalMuid .sequence) insertMuid 50 100 where
  muid := rfl
  container := rfl
  times := by decide
  stamped := by
    intro x hx
    simp only [twoListed, List.mem_cons, List.not_mem_nil, or_false] at hx
    rcases hx with rfl | rfl <;> decide
  spaced := by
    unfold Spaced twoListed
    rw [List.isChain_pair]
    decide
  past := by
    intro x hx
    simp only [twoListed, List.mem_cons, List.not_mem_nil, or_false] at hx
    rcases hx with rfl | rfl <;> decide

theorem unheard_in_lmdb : Lmdb.Unheard twoInLmdb (globalMuid .sequence) insertMuid :=
  ⟨by decide +kernel, by decide +kernel⟩

theorem unheard_in_memory : Memory.Unheard twoInMemory (globalMuid .sequence) insertMuid :=
  ⟨by decide +kernel, by decide +kernel⟩

theorem may_add_seven : Lmdb.MayAdd insertInfo (globalMuid .sequence) insertMuid insertedValue where
  own := by decide
  refers := by
    intro pointee h
    cases h

set_option maxRecDepth 100000 in
theorem listed_in_lmdb :
    Lmdb.getOrderedEntries twoInLmdb (globalMuid .sequence) 50 = .ok twoListed ∧
    Lmdb.getOrderedEntries twoInLmdb (globalMuid .sequence) 100 = .ok twoListed := ⟨rfl, rfl⟩

set_option maxRecDepth 100000 in
theorem listed_in_memory :
    Memory.getOrderedEntries twoInMemory (globalMuid .sequence) 50 = .ok twoListed ∧
    Memory.getOrderedEntries twoInMemory (globalMuid .sequence) 100 = .ok twoListed := ⟨rfl, rfl⟩

theorem insert_stands_before_iff_two :
    Inserts (@Lmdb.getOrderedEntries twoInLmdb (globalMuid .sequence) 50 · · · 0) contained least
      twoListed insertMuid insertedValue 1 (Lmdb.listedAfter twoEntries twoInLmdb true insertInfo 1
        twoInLmdb (globalMuid .sequence) insertedValue 100) ∧
    Inserts (@Memory.getOrderedEntries twoInMemory (globalMuid .sequence) 50 · · · 0) contained least
      twoListed insertMuid insertedValue 1 (Memory.listedAfter twoInMemory true 90 insertInfo 1
        (globalMuid .sequence) insertedValue 100) := by
  have h := insert_stands_before_iff contained draws_least inserting_two
    (fun x _ => ⟨x.builder.contains, rfl⟩) insertedValue (show 1 < twoListed.length by decide)
  exact ⟨(h.1 twoEntries twoInLmdb true twoInLmdb unheard_in_lmdb may_add_seven listed_in_lmdb.1
      listed_in_lmdb.2).mpr
      (Or.inl le_rfl),
    (h.2 true 90 twoInMemory unheard_in_memory listed_in_memory.1 listed_in_memory.2).mpr (Or.inl le_rfl)⟩

set_option maxRecDepth 100000 in
/-- **With a 0 drawn** the entry gets the position of the first one, and stands behind it. -/
theorem drawn_zero_stands_behind :
    Draws least ∧ Inserting twoListed insertInfo 1 (globalMuid .sequence) insertMuid 50 100 ∧
    Lmdb.getOrderedEntries twoInLmdb (globalMuid .sequence) 50 = .ok twoListed ∧
    Memory.getOrderedEntries twoInMemory (globalMuid .sequence) 50 = .ok twoListed ∧
    ¬ Inserts (@Lmdb.getOrderedEntries twoInLmdb (globalMuid .sequence) 50 · · · 0) contained least
      twoListed insertMuid insertedValue 0 (Lmdb.listedAfter twoEntries twoInLmdb true insertInfo 1
        twoInLmdb (globalMuid .sequence) insertedValue 100) ∧
    ¬ Inserts (@Memory.getOrderedEntries twoInMemory (globalMuid .sequence) 50 · · · 0) contained least
      twoListed insertMuid insertedValue 0 (Memory.listedAfter twoInMemory true 90 insertInfo 1
        (globalMuid .sequence) insertedValue 100) := by
  -- the first of the list is still the entry at 10
  have hbehind : ∀ {x : Except Error (List PositionedEntry)} {first : PositionedEntry}
      {rest : List PositionedEntry}, x = .ok (first :: rest) → first.entryMuid ≠ insertMuid →
      ¬ InsertedBefore twoListed insertMuid insertedValue 0 x := by
    intro x first rest hx hfirst hinserted
    obtain ⟨e, he, hlisted⟩ := hinserted
    have hsame : first :: rest = e :: twoListed := Except.ok.inj (hx.symm.trans hlisted)
    rw [(List.cons.inj hsame).1] at hfirst
    exact hfirst he.1
  refine ⟨draws_least, inserting_two, listed_in_lmdb.1, listed_in_memory.1, ?_, ?_⟩
  · intro hinserts
    obtain ⟨p, hp, hinserted⟩ := hinserts
    have hten : p = 10 := (Except.ok.inj hp).symm
    rw [hten] at hinserted
    exact @hbehind _ ⟨10, ⟨20, 7, 1⟩, ⟨20, 7, 1⟩, builderAt 10⟩ _ rfl (by decide) hinserted
  · intro hinserts
    obtain ⟨p, hp, hinserted⟩ := hinserts
    have hten : p = 10 := (Except.ok.inj hp).symm
    rw [hten] at hinserted
    exact @hbehind _ ⟨10, ⟨20, 7, 1⟩, ⟨20, 7, 1⟩, builderAt 10⟩ _ rfl (by decide) hinserted

end Gink
