/-
  Gink.Js.OrderedAsOf — time travel of the JavaScript stores for ordered containers.

  A `MemoryStore` compares the time of every placement with the as-of time.  An
  `IndexedDbStore` bounds the positions it scans by the as-of time, and lists what was moved
  to an earlier position later on.

  Main results:
    * `ordered_asOf` — a read in the past finds what the store of back then held, with a
      `MemoryStore` always, with an `IndexedDbStore` exactly when nothing that came later
      stands at a position of before the time.
    * `ordered_asOf_later` — an entry that is moved, and shows at its new place before that.
-/
import Gink.Js.IndexedDbAsOf
import Gink.Js.MemoryStoreAsOf
import Gink.Js.OrderedConvergence

namespace Gink

namespace Js

variable {history : List OpenBundle} {t : Int}

/-- **A read in the past of an `IndexedDbStore`.** -/
theorem IndexedDb.History.getOrderedEntries_asOf {c c₀ : IndexedDb.Contents}
    (h : IndexedDb.History true history c) (h₀ : IndexedDb.History true (before t history) c₀)
    (hincreasing : Increasing history) (hunpurged : Unpurged history) (ht : 0 < t)
    (trxns trxns₀ : List Int) (now now₀ : Int) (container : MuidTuple) :
    IndexedDb.getOrderedEntries c trxns now container none (some t) =
        IndexedDb.getOrderedEntries c₀ trxns₀ now₀ container none (some t) ↔
      (IndexedDb.year2020 < t → IndexedDb.KeepsClear c container t) := by
  obtain ⟨hstamped₀, hstamped, hagree⟩ := h.agreeBefore h₀ hincreasing hunpurged
  have hstanding := hagree.standing_eq_iff hstamped₀ hstamped ht container
  have hresolve : ∀ (trxns : List Int) (otherwise : Option Int),
      IndexedDb.resolveAsOf trxns (some t) otherwise =
        if t > IndexedDb.year2020 then .ok (some t)
        else .error ⟨"don't know how to interpret asOf"⟩ := by
    intro trxns otherwise
    unfold IndexedDb.resolveAsOf IndexedDb.asOfToTimestamp
    simp only [if_neg (show t ≠ 0 by omega)]
    by_cases hyear : t > IndexedDb.year2020
    · rw [if_pos hyear, if_pos hyear]
      rfl
    · rw [if_neg hyear, if_neg (by omega), if_neg hyear]
      rfl
  unfold IndexedDb.getOrderedEntries
  rw [hresolve, hresolve]
  by_cases hyear : t > IndexedDb.year2020
  · rw [if_pos hyear]
    show Except.ok (IndexedDb.standing c container (some t)) =
      Except.ok (IndexedDb.standing c₀ container (some t)) ↔ _
    rw [Except.ok.injEq, hstanding]
    exact ⟨fun hclear _ => hclear, fun hclear => hclear hyear⟩
  · rw [if_neg hyear]
    exact ⟨fun _ hlater => absurd hlater hyear, fun _ => rfl⟩

/-- **A read in the past of a `MemoryStore`.** -/
theorem MemoryStore.History.getOrderedEntries_asOf {walks : MemoryStore.Walks}
    {d d₀ : MemoryStore.Contents} (h : MemoryStore.History walks true history d)
    (h₀ : MemoryStore.History walks true (before t history) d₀)
    (hincreasing : Increasing history) (hunpurged : Unpurged history)
    (hspellable : MemoryStore.Spellable history) (ht : 0 < t)
    (trxns trxns₀ : List Int) (now now₀ : Int) (container : MuidTuple) :
    MemoryStore.getOrderedEntries d trxns now container none (some t) =
      MemoryStore.getOrderedEntries d₀ trxns₀ now₀ container none (some t) := by
  by_cases hfits : t < 16 ^ 13
  · obtain ⟨hstamped₀, hstamped, hagree⟩ :=
      h.agreeBefore h₀ hincreasing hunpurged hspellable ⟨ht.le, hfits⟩
    exact hagree.getOrderedEntries_eq hstamped₀ hstamped ⟨ht, hfits⟩ trxns trxns₀ now now₀ container
  · -- a bundle of such a time has no changes
    have hsame : d = d₀ := by
      obtain ⟨after, hsplit, hlate⟩ := hincreasing.split t
      have hall := h.applyEach
      rw [hsplit, applyEach_append, h₀.applyEach] at hall
      refine applyEach_keeps (I := (· = d₀)) (fun b hb c c' hc happly => ?_) rfl hall
      have hnone : b.changes = [] := by
        cases hchanges : b.changes with
        | nil => rfl
        | cons change rest =>
            have hop : (⟨b.info, 1, change⟩ : Op) ∈ allOps history := by
              refine List.mem_flatMap.mpr ⟨b, hsplit ▸ List.mem_append_right _ hb, ?_⟩
              unfold OpenBundle.ops
              rw [hchanges, opsFrom_cons]
              exact List.mem_cons_self
            have hlt : (b.info.timestamp.val : Int) < 16 ^ 13 := (hspellable _ hop).timestamp.2
            have := hlate b hb
            omega
      unfold MemoryStore.applyBundle at happly
      rw [hnone] at happly
      injection happly with happly
      exact happly ▸ hc
    rw [hsame]
    have htrxns : ∀ trxns : List Int, MemoryStore.asOfToTimestamp trxns t = .ok t := by
      intro trxns
      unfold MemoryStore.asOfToTimestamp IndexedDb.asOfToTimestamp
      rw [if_pos]
      unfold IndexedDb.year2020
      omega
    unfold MemoryStore.getOrderedEntries
    simp only [if_neg (show t ≠ 0 by omega), htrxns]

/-- **Time travel.**  For bundles applied in the order of their timestamps, none of which
purges anything, a read at a time finds what it found when the store had the bundles of before
that time: with a `MemoryStore` always, with an `IndexedDbStore` exactly when nothing that was
placed from that time on stands at a position of before it. -/
theorem ordered_asOf (walks : MemoryStore.Walks) (hincreasing : Increasing history)
    (hunpurged : Unpurged history) (hspellable : MemoryStore.Spellable history) (ht : 0 < t) :
    (∀ c c₀, IndexedDb.History true history c → IndexedDb.History true (before t history) c₀ →
      ∀ trxns trxns₀ now now₀ container,
        (IndexedDb.getOrderedEntries c trxns now container none (some t) =
            IndexedDb.getOrderedEntries c₀ trxns₀ now₀ container none (some t) ↔
          (IndexedDb.year2020 < t → IndexedDb.KeepsClear c container t))) ∧
    (∀ d d₀, MemoryStore.History walks true history d →
      MemoryStore.History walks true (before t history) d₀ →
      ∀ trxns trxns₀ now now₀ container,
        MemoryStore.getOrderedEntries d trxns now container none (some t) =
          MemoryStore.getOrderedEntries d₀ trxns₀ now₀ container none (some t)) := by
  constructor
  · intro c c₀ h h₀
    exact h.getOrderedEntries_asOf h₀ hincreasing hunpurged ht
  · intro d d₀ h h₀
    exact h.getOrderedEntries_asOf h₀ hincreasing hunpurged hspellable ht

/-- What the stores list at the time of the second bundle, by placement. -/
def idbListedAt (t : Int) (history : List OpenBundle) : Option (List MuidTuple) :=
  ((IndexedDb.applyAll true history {}) >>= fun c =>
    IndexedDb.getOrderedEntries c [] 1700000000000000 ⟨-1, -1, Behavior.sequence.code⟩ none
      (some t)).toOption.map (List.map Entry.placementId)

/-- The entry is deleted later: both stores have it at the time before, wherever it stands. -/
theorem ordered_asOf_deleted :
    let history := [addedEntry, movedEntry 2 0]
    ∃ c c₀ d d₀, IndexedDb.applyAll true history {} = .ok c ∧
      IndexedDb.applyAll true (before 1600000000000002 history) {} = .ok c₀ ∧
      MemoryStore.applyAll ⟨id, id⟩ true history {} = .ok d ∧
      MemoryStore.applyAll ⟨id, id⟩ true (before 1600000000000002 history) {} = .ok d₀ ∧
      (IndexedDb.getOrderedEntries c [] 0 ⟨-1, -1, 7⟩ none (some 1600000000000002) =
          IndexedDb.getOrderedEntries c₀ [] 0 ⟨-1, -1, 7⟩ none (some 1600000000000002) ↔
        (IndexedDb.year2020 < 1600000000000002 →
          IndexedDb.KeepsClear c ⟨-1, -1, 7⟩ 1600000000000002)) ∧
      MemoryStore.getOrderedEntries d [] 0 ⟨-1, -1, 7⟩ none (some 1600000000000002) =
        MemoryStore.getOrderedEntries d₀ [] 0 ⟨-1, -1, 7⟩ none (some 1600000000000002) := by
  intro history
  obtain ⟨c, hc⟩ : ∃ c, IndexedDb.applyAll true history {} = .ok c := ⟨_, rfl⟩
  obtain ⟨c₀, hc₀⟩ : ∃ c, IndexedDb.applyAll true (before 1600000000000002 history) {} = .ok c :=
    ⟨_, rfl⟩
  obtain ⟨d, hd⟩ : ∃ c, MemoryStore.applyAll ⟨id, id⟩ true history {} = .ok c := ⟨_, rfl⟩
  obtain ⟨d₀, hd₀⟩ : ∃ c, MemoryStore.applyAll ⟨id, id⟩ true
      (before 1600000000000002 history) {} = .ok c := ⟨_, rfl⟩
  obtain ⟨hidb, hmemory⟩ := @ordered_asOf history 1600000000000002 ⟨id, id⟩ (by decide +kernel)
    (by decide +kernel) (by decide +kernel) (by norm_num)
  have h := IndexedDb.History.start.applyAll hc
  have h₀ := IndexedDb.History.start.applyAll hc₀
  have hm := MemoryStore.History.start.applyAll hd
  have hm₀ := MemoryStore.History.start.applyAll hd₀
  rw [List.nil_append] at h h₀ hm hm₀
  exact ⟨c, c₀, d, d₀, hc, hc₀, hd, hd₀, hidb c c₀ h h₀ [] [] 0 0 _, hmemory d d₀ hm hm₀ [] [] 0 0 _⟩

/-- **It is moved to position 7**: at the time of the movement an `IndexedDbStore` lists it at
both places. -/
theorem ordered_asOf_later :
    let history := [addedEntry, movedEntry 2 7]
    (Increasing history ∧ Unpurged history ∧ MemoryStore.Spellable history) ∧
      idbListedAt 1600000000000002 history =
        some [⟨1600000000000002, 2, 1⟩, ⟨1600000000000001, 1, 1⟩] ∧
      idbListedAt 1600000000000002 (before 1600000000000002 history) =
        some [⟨1600000000000001, 1, 1⟩] := by
  refine ⟨?_, ?_, ?_⟩
  · decide +kernel
  · decide +kernel
  · decide +kernel

end Js

end Gink
