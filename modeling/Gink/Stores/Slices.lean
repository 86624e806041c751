/-
  Gink.Stores.Slices — `get_ordered_entries` with a limit, an offset, backwards, or from a
  position on.

  Main results:
    * `ordered_entries_slices` — these take slices of the list that the stores give without
      them, in every state;
    * `negative_position_hides` — a position below -1 sorts behind all others, and a scan that
      goes by numbers ends there.
-/
import Gink.Lmdb.Slices
import Gink.Memory.Slices
import Gink.Memory.Retention
import Gink.Proto.Sample

namespace Gink

/-- **Slices of a sequence are slices**, from any position that is not negative.  In `LmdbStore`
after every run that has placed nothing in the container at a position from -2^63 to -2, in
`MemoryStore` always. -/
theorem ordered_entries_slices (lib : Externals) (container : Muid) :
    (∀ keys retainBundles retainEntries turns,
      let s := Lmdb.newStore keys retainBundles retainEntries
      let c := (Lmdb.runTurns lib s turns).db.contents
      (∀ op ∈ Lmdb.opsTaken lib s turns, op.OrdersIn container) →
      (∀ op ∈ Lmdb.opsTaken lib s turns, op.ForwardIn container) →
      ∀ asOf l, Lmdb.getOrderedEntries c container asOf = .ok l →
        Slices (@Lmdb.getOrderedEntries c container asOf) l) ∧
    ∀ (c : Memory.Contents) asOf l, Memory.getOrderedEntries c container asOf = .ok l →
      Slices (@Memory.getOrderedEntries c container asOf) l := by
  refine ⟨?_, fun c asOf l h => Memory.getOrderedEntries_slices h⟩
  intro keys retainBundles retainEntries turns s c hordered hforward asOf l h
  refine Lmdb.getOrderedEntries_slices ?_ h
  intro row hrow hpre
  obtain ⟨op, hop, hplaces⟩ := Lmdb.runTurns_placements turns rfl rfl row hrow
  exact hplaces.inPlace (hordered op hop) (hforward op hop) hpre

/-! ## Positions ahead, and one behind. -/

/-- An entry of the global sequence at a position. -/
def entryAt (position : Int) : ChangeBuilder :=
  .entry {
    container := some (globalBuilder .sequence)
    behavior := .sequence
    effective := position
    contains := some (.value (.integer "1")) }

/-- Two entries, one of them in the future. -/
def twoAhead : Externals := sampleExternals [startingBundle 20 7 [entryAt 10, entryAt 1000]]

/-- With an entry at a negative position. -/
def oneBehind : Externals :=
  sampleExternals [startingBundle 20 7 [entryAt 10, entryAt 1000, entryAt (-5)]]

def sequenceInfo : BundleInfo := ⟨20, 7, 20, 0, List.replicate 31 0 ++ [0], ""⟩

def lmdbSequence : List Lmdb.Turn := [.apply { bundle := sampleBundle 0, clock := ⟨100, 0, 0⟩ }]

def memorySequence : List Memory.Turn := [.apply { bundle := sampleBundle 0 }]

theorem exists_of_length {x : Except Error (List PositionedEntry)} {n : Nat}
    (h : x.map List.length = .ok n) : ∃ l, x = .ok l ∧ l.length = n := map_eq_ok.mp h

theorem ordered_entries_slices_two :
    (let c := (Lmdb.runTurns twoAhead (Lmdb.newStore ∅ true true) lmdbSequence).db.contents
     ∃ l, Lmdb.getOrderedEntries c (globalMuid .sequence) 50 = .ok l ∧
      Slices (@Lmdb.getOrderedEntries c (globalMuid .sequence) 50) l ∧ l.length = 1) ∧
    (let c := (Memory.runTurns twoAhead (Memory.newStore [] true) memorySequence).contents
     ∃ l, Memory.getOrderedEntries c (globalMuid .sequence) 50 = .ok l ∧
      Slices (@Memory.getOrderedEntries c (globalMuid .sequence) 50) l ∧ l.length = 1) := by
  refine ⟨?_, ?_⟩
  · intro c
    obtain ⟨l, hl, hlen⟩ : ∃ l, Lmdb.getOrderedEntries c (globalMuid .sequence) 50 = .ok l ∧
      l.length = 1 := exists_of_length (by decide)
    refine ⟨l, hl, ?_, hlen⟩
    refine (ordered_entries_slices twoAhead (globalMuid .sequence)).1 ∅ true true lmdbSequence
      ?_ ?_ 50 l hl
    · intro op hop
      have hop' : op ∈ [(⟨sequenceInfo, 1, entryAt 10⟩ : Op), ⟨sequenceInfo, 2, entryAt 1000⟩] := hop
      simp only [List.mem_cons, List.not_mem_nil, or_false] at hop'
      rcases hop' with rfl | rfl
      · exact fun _ _ _ => Or.inl rfl
      · exact fun _ _ _ => Or.inl rfl
    · intro op hop
      have hop' : op ∈ [(⟨sequenceInfo, 1, entryAt 10⟩ : Op), ⟨sequenceInfo, 2, entryAt 1000⟩] := hop
      simp only [List.mem_cons, List.not_mem_nil, or_false] at hop'
      rcases hop' with rfl | rfl
      · exact fun _ _ _ => by decide
      · exact fun _ _ _ => by decide
  · intro c
    obtain ⟨l, hl, hlen⟩ : ∃ l, Memory.getOrderedEntries c (globalMuid .sequence) 50 = .ok l ∧
      l.length = 1 := exists_of_length (by decide)
    exact ⟨l, hl, (ordered_entries_slices twoAhead (globalMuid .sequence)).2 c 50 l hl, hlen⟩

/-- **Backwards `LmdbStore` finds nothing** once there is an entry at a negative position, and
from a negative position on neither store does. -/
theorem negative_position_hides :
    (let c := (Lmdb.runTurns oneBehind (Lmdb.newStore ∅ true true) lmdbSequence).db.contents
     ∃ l, Lmdb.getOrderedEntries c (globalMuid .sequence) 50 = .ok l ∧
      Lmdb.getOrderedEntries c (globalMuid .sequence) 50 none 0 true ≠ .ok l.reverse ∧
      Lmdb.getOrderedEntries c (globalMuid .sequence) 50 none 0 false (-4)
        ≠ .ok (l.filter fun e => decide (-4 ≤ e.position))) ∧
    (let c := (Memory.runTurns twoAhead (Memory.newStore [] true) memorySequence).contents
     ∃ l, Memory.getOrderedEntries c (globalMuid .sequence) 50 = .ok l ∧
      Memory.getOrderedEntries c (globalMuid .sequence) 50 none 0 false (-4)
        ≠ .ok (l.filter fun e => decide (-4 ≤ e.position))) := by
  have hlonger : ∀ {x : Except Error (List PositionedEntry)} {l : List PositionedEntry},
      x.map List.length = .ok 0 → l.length = 1 → x ≠ .ok l := by
    rintro x l hx hl rfl
    have hzero : l.length = 0 := Except.ok.inj hx
    omega
  have hfilter : ∀ {l : List PositionedEntry}, (l.all fun e => decide (-4 ≤ e.position)) = true →
      l.length = 1 → (l.filter fun e => decide (-4 ≤ e.position)).length = 1 := by
    intro l hall hl
    rw [List.filter_eq_self.mpr (List.all_eq_true.mp hall), hl]
  have hsingle : ∀ {x : Except Error (List PositionedEntry)},
      x.map (fun l => (l.length, l.all fun e => decide (-4 ≤ e.position))) = .ok (1, true) →
        ∃ l, x = .ok l ∧ l.length = 1 ∧ (l.filter fun e => decide (-4 ≤ e.position)).length = 1 := by
    intro x hx
    obtain ⟨l, hl, hparts⟩ := map_eq_ok.mp hx
    obtain ⟨hlen, hall⟩ := Prod.mk.inj hparts
    exact ⟨l, hl, hlen, hfilter hall hlen⟩
  refine ⟨?_, ?_⟩
  · intro c
    obtain ⟨l, hl, hlen, hkept⟩ := hsingle
      (x := Lmdb.getOrderedEntries c (globalMuid .sequence) 50) (by decide +kernel)
    refine ⟨l, hl, hlonger (by decide +kernel) ?_, hlonger (by decide +kernel) hkept⟩
    rw [List.length_reverse, hlen]
  · intro c
    obtain ⟨l, hl, hlen, hkept⟩ := hsingle
      (x := Memory.getOrderedEntries c (globalMuid .sequence) 50) (by decide +kernel)
    exact ⟨l, hl, hlonger (by decide +kernel) hkept⟩

end Gink
