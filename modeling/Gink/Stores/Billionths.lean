/-
  Gink.Stores.Billionths — the totals of accumulators.

  Each store adds the integer of an accumulator entry to a running total when it takes the
  entry in, so the total is the sum of the entries whatever their order and whether history is
  retained.  While it is, the entries are all still there, and a read as of a time adds up
  those it reaches; at both ends of the range of timestamps it goes wrong.

  Main results:
    * `billionths_sum` — what `get_billionths` returns, over all runs;
    * `late_entry_counted` — an entry with the timestamp that reads as -1, and a time past the
      range.
-/
import Gink.Lmdb.Billionths
import Gink.Memory.Billionths
import Gink.Proto.Sample

namespace Gink

/-- The entries for the accumulator are apart, and nothing else is written to it. -/
structure Increments (acc : Muid) (ops : List Op) : Prop where
  distinct : DistinctEntries ops
  onlyAdds : ∀ op ∈ ops, Op.OnlyAdds acc op

/-- The order of the changes is immaterial to the sum up to a time. -/
theorem billionthsOf_upTo_perm (acc : Muid) (t : Int) {ops ops' : List Op} (h : ops.Perm ops') :
    billionthsOf acc (upTo t ops) = billionthsOf acc (upTo t ops') :=
  billionthsOf_perm acc (h.filter _)

/-- **`get_billionths` is order-free**, in every state of every run.  The current total is the sum
of the entries taken in, with history or without; and if history was retained throughout, the
total as of a time is the sum of those up to it, unless in `LmdbStore` one has the timestamp that
a muid reads as -1, and in `MemoryStore` for times up to the last timestamp. -/
theorem billionths_sum (lib : Externals) (acc : Muid) :
    (∀ keys retainBundles retainEntries turns entries,
      let s := Lmdb.newStore keys retainBundles retainEntries
      let c := (Lmdb.runTurns lib s turns).db.contents
      entries.Perm (Lmdb.opsTaken lib s turns) →
      Lmdb.getBillionths c acc (-1) = .ok (billionthsOf acc entries) ∧
      (retainEntries = true → (∀ turn ∈ turns, turn.Retains) →
        Increments acc (Lmdb.opsTaken lib s turns) →
        (∀ op ∈ Lmdb.opsTaken lib s turns, Lmdb.Op.Dated acc op) →
        ∀ t, 0 < t → Lmdb.getBillionths c acc t = .ok (billionthsOf acc (upTo t entries)))) ∧
    ∀ keys retainingEntries turns entries,
      let s := Memory.newStore keys retainingEntries
      let c := (Memory.runTurns lib s turns).contents
      Memory.Whole lib s turns → entries.Perm (Memory.opsTaken lib s turns) →
      Memory.getBillionths c acc (-1) = .ok (billionthsOf acc entries) ∧
      (retainingEntries = true → (∀ turn ∈ turns, turn.Retains) →
        Increments acc (Memory.opsTaken lib s turns) →
        ∀ t, 0 < t → t < 2 ^ 52 →
          (∀ op ∈ Memory.opsTaken lib s turns, Memory.Op.NotLast acc t op) →
          Memory.getBillionths c acc t = .ok (billionthsOf acc (upTo t entries))) := by
  refine ⟨?_, ?_⟩
  · intro keys retainBundles retainEntries turns entries s c hperm
    refine ⟨?_, ?_⟩
    · have htotals : Totals acc (Lmdb.opsTaken lib s turns) c.totals :=
        Lmdb.runTurns_totals turns rfl rfl
      unfold Lmdb.getBillionths
      rw [if_pos rfl, billionthsOf_perm acc hperm]
      exact congrArg Except.ok htotals
    · intro hretain hturns hincrements hdated t ht
      have hholds : Holds Muid.toBytes acc (Lmdb.opsTaken lib s turns) c.entries c.placements :=
        Lmdb.runTurns_holds hturns rfl hretain hincrements.distinct hincrements.onlyAdds
          (Holds.start _ acc)
      rw [Lmdb.getBillionths_eq ht hholds hincrements.distinct hdated,
        billionthsOf_upTo_perm acc t hperm]
  · intro keys retainingEntries turns entries s c hwhole hperm
    refine ⟨?_, ?_⟩
    · have htotals : Totals acc (Memory.opsTaken lib s turns) c.totals :=
        Memory.runTurns_totals hwhole rfl
      unfold Memory.getBillionths
      rw [if_pos rfl, billionthsOf_perm acc hperm]
      exact congrArg Except.ok htotals
    · intro hretain hturns hincrements t ht hlt hlast
      have hholds : Holds id acc (Memory.opsTaken lib s turns) c.entries c.placements :=
        Memory.runTurns_holds hturns hwhole hretain hincrements.distinct hincrements.onlyAdds
          (Holds.start _ acc)
      rw [Memory.getBillionths_eq ht hlt hholds hincrements.distinct hlast,
        billionthsOf_upTo_perm acc t hperm]

/-! ## Two entries, and one at the end of time. -/

/-- An entry for the global accumulator. -/
def incrementBy (digits : String) : ChangeBuilder :=
  .entry {
    container := some (globalBuilder .accumulator)
    behavior := .accumulator
    contains := some (.value (.integer digits)) }

/-- Two bundles that are taken in, one entry each. -/
def twoIncrements : Externals :=
  sampleExternals [startingBundle 10 7 [incrementBy "5"], startingBundle 20 8 [incrementBy "-2"]]

def incrementInfo (timestamp medallion : U64) (n : Byte) : BundleInfo :=
  ⟨timestamp, medallion, timestamp, 0, List.replicate 31 0 ++ [n], ""⟩

/-- Their entries. -/
def twoIncrementOps : List Op :=
  [⟨incrementInfo 10 7 0, 1, incrementBy "5"⟩, ⟨incrementInfo 20 8 1, 1, incrementBy "-2"⟩]

def lmdbIncrements : List Lmdb.Turn :=
  [.apply { bundle := sampleBundle 0, clock := ⟨100, 0, 0⟩ }, .startHistory,
    .apply { bundle := sampleBundle 1, clock := ⟨200, 0, 0⟩ }]

def memoryIncrements : List Memory.Turn :=
  [.apply { bundle := sampleBundle 0 }, .startHistory, .apply { bundle := sampleBundle 1 }]

theorem twoIncrementOps_increments : Increments (globalMuid .accumulator) twoIncrementOps := by
  refine ⟨by unfold DistinctEntries; decide, ?_⟩
  intro op hop
  rcases List.mem_cons.mp hop with rfl | hop
  · exact fun _ _ _ => rfl
  · rw [List.mem_singleton.mp hop]
    exact fun _ _ _ => rfl

theorem memoryIncrements_whole :
    Memory.Whole twoIncrements (Memory.newStore [] true) memoryIncrements := by
  refine ⟨?_, fun _ h => (by cases h), ?_, trivial⟩
  · rintro call ⟨rfl⟩ b hb changes hopen
    have hb' : b ∈ [(⟨startingBundle 10 7 [incrementBy "5"], incrementInfo 10 7 0⟩ : TakenIn)] := hb
    rw [List.mem_singleton.mp hb'] at hopen ⊢
    rw [← Except.ok.inj hopen]
    exact ⟨_, rfl⟩
  · rintro call ⟨rfl⟩ b hb changes hopen
    have hb' : b ∈ [(⟨startingBundle 20 8 [incrementBy "-2"], incrementInfo 20 8 1⟩ : TakenIn)] := hb
    rw [List.mem_singleton.mp hb'] at hopen ⊢
    rw [← Except.ok.inj hopen]
    exact ⟨_, rfl⟩

theorem billionths_sum_two :
    (let c := (Lmdb.runTurns twoIncrements (Lmdb.newStore ∅ true true) lmdbIncrements).db.contents
     Lmdb.getBillionths c (globalMuid .accumulator) (-1) = .ok 3 ∧
      Lmdb.getBillionths c (globalMuid .accumulator) 15 = .ok 5) ∧
    (let c := (Memory.runTurns twoIncrements (Memory.newStore [] true) memoryIncrements).contents
     Memory.getBillionths c (globalMuid .accumulator) (-1) = .ok 3 ∧
      Memory.getBillionths c (globalMuid .accumulator) 15 = .ok 5) := by
  have hlmdb := (billionths_sum twoIncrements (globalMuid .accumulator)).1 ∅ true true
    lmdbIncrements twoIncrementOps (List.Perm.refl _)
  have hmemory := (billionths_sum twoIncrements (globalMuid .accumulator)).2 [] true
    memoryIncrements twoIncrementOps memoryIncrements_whole (List.Perm.refl _)
  refine ⟨⟨hlmdb.1, hlmdb.2 rfl ?_ twoIncrementOps_increments ?_ 15 (by decide)⟩,
    hmemory.1, hmemory.2 rfl ?_ twoIncrementOps_increments 15 (by decide) (by decide) ?_⟩
  · intro turn hturn
    simp only [lmdbIncrements, List.mem_cons, List.not_mem_nil, or_false] at hturn
    rcases hturn with rfl | rfl | rfl <;> exact trivial
  · intro op hop
    have hop' : op ∈ twoIncrementOps := hop
    simp only [twoIncrementOps, List.mem_cons, List.not_mem_nil, or_false] at hop'
    rcases hop' with rfl | rfl
    · exact fun _ _ _ => by decide
    · exact fun _ _ _ => by decide
  · intro turn hturn
    simp only [memoryIncrements, List.mem_cons, List.not_mem_nil, or_false] at hturn
    rcases hturn with rfl | rfl | rfl <;> exact trivial
  · intro op hop
    have hop' : op ∈ twoIncrementOps := hop
    simp only [twoIncrementOps, List.mem_cons, List.not_mem_nil, or_false] at hop'
    rcases hop' with rfl | rfl
    · exact fun _ _ _ _ => by decide
    · exact fun _ _ _ _ => by decide

/-- The entry of a bundle with the greatest timestamp there is. -/
def lateIncrement : Externals :=
  sampleExternals [startingBundle (2 ^ 52 - 1) 7 [incrementBy "5"]]

def lateIncrementOps : List Op := [⟨incrementInfo (2 ^ 52 - 1) 7 0, 1, incrementBy "5"⟩]

/-- **`LmdbStore` counts the entry at every time**, and `MemoryStore` refuses times past the
greatest timestamp. -/
theorem late_entry_counted :
    (let s := Lmdb.newStore ∅ true true
     let turns : List Lmdb.Turn := [.apply { bundle := sampleBundle 0, clock := ⟨100, 0, 0⟩ }]
     let c := (Lmdb.runTurns lateIncrement s turns).db.contents
     Lmdb.opsTaken lateIncrement s turns = lateIncrementOps ∧
      Increments (globalMuid .accumulator) lateIncrementOps ∧
      Lmdb.getBillionths c (globalMuid .accumulator) 5
        ≠ .ok (billionthsOf (globalMuid .accumulator) (upTo 5 lateIncrementOps))) ∧
    (let s := Memory.newStore [] true
     let turns : List Memory.Turn := [.apply { bundle := sampleBundle 0 }]
     let c := (Memory.runTurns lateIncrement s turns).contents
     Memory.Whole lateIncrement s turns ∧
      Memory.opsTaken lateIncrement s turns = lateIncrementOps ∧
      Memory.getBillionths c (globalMuid .accumulator) (2 ^ 52)
        ≠ .ok (billionthsOf (globalMuid .accumulator) (upTo (2 ^ 52) lateIncrementOps))) := by
  refine ⟨⟨rfl, ⟨by unfold DistinctEntries; decide, ?_⟩, by decide⟩, ⟨?_, trivial⟩, rfl, by decide⟩
  · intro op hop
    rw [List.mem_singleton.mp hop]
    exact fun _ _ _ => rfl
  · rintro call ⟨rfl⟩ b hb changes hopen
    have hb' : b ∈ [(⟨startingBundle (2 ^ 52 - 1) 7 [incrementBy "5"],
        incrementInfo (2 ^ 52 - 1) 7 0⟩ : TakenIn)] := hb
    rw [List.mem_singleton.mp hb'] at hopen ⊢
    rw [← Except.ok.inj hopen]
    exact ⟨_, rfl⟩

end Gink
