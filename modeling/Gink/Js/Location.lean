/-
  Gink.Js.Location — when both stores find an entry where it was at a time.

  Neither store looks for the last place of before the time.  A `MemoryStore` answers with the
  last place of all, or with nothing if that was ever removed; an `IndexedDbStore` has nothing
  once a movement of before the time came for the entry.  So both are right of an entry that is
  there at the time exactly when no movement ever comes for it, and of one that is gone when
  each has a reason of its own to find nothing.  The key of a `MemoryStore` is a string besides.

  Main results:
    * `location_iff` — the condition, with keys compared by their texts and as they are.
    * `location_moved` — an entry that is moved once, seen at three times.
-/
import Gink.Js.IndexedDbLocation
import Gink.Js.MemoryStoreLocation
import Gink.Js.OrderedConvergence

namespace Gink

namespace Js

/-! ## §1. What the answers have to be. -/

/-- The answer of a `MemoryStore` is the place, with keys that are the same. -/
def Gives (same : Str → StorageKey → Prop) :
    Option (Placement Str) → Option (Placement StorageKey) → Prop
  | none, none => True
  | some a, some place =>
      a.container = place.container ∧ same a.key place.key ∧ a.placement = place.placement
  | _, _ => False

/-- The string is how the key is written. -/
def IsText (text : Str) (key : StorageKey) : Prop := text = MemoryStore.storageKeyToString key

/-- The string is the key. -/
def IsSameKey (text : Str) : StorageKey → Prop
  | .characters s => text = Idb.units s
  | _ => False

/-- Both stores answer with the place of the entry at the time. -/
structure Locates (same : Str → StorageKey → Prop) (history : List OpenBundle)
    (d : MemoryStore.Contents) (c : IndexedDb.Contents) (trxns : List Int) (now : Int)
    (entry : MuidTuple) (asOf : Option Int) (t : Int) : Prop where
  memory : ∃ answer, MemoryStore.getLocation d trxns now entry asOf = .ok answer ∧
    Gives same answer (locationAt history entry t)
  indexedDb : IndexedDb.getLocation c trxns now entry asOf = .ok (locationAt history entry t)

/-! ## §2. When they do. -/

/-- Each store has a reason to find nothing of an entry that is gone: the clearance of the
container that the last place of all is before, or, for an `IndexedDbStore`, a movement of before
the time, and for a `MemoryStore` that the entry ends deleted, or a timestamp after 2^51. -/
def MissesBoth (ops : List Op) (t : Int) (k last : Track) : Prop :=
  (ClearedSince ops t last.place ∨ k.moved = true) ∧
    (last.deleted = true ∨ ClearedSince ops t last.place ∨
      2 ^ 51 < last.place.placement.timestamp)

/-- No movement ever comes for the entry, and its muids are read back from their spellings. -/
def StaysPut (last : Track) : Prop :=
  last.moved = false ∧ Legible last.place.container ∧ Legible last.place.placement

/-- The entry was never added; or it was added before the time, and either is gone by then and
missed by both stores, or it stays where it was put. -/
def IsFound (history : List OpenBundle) (entry : MuidTuple) (t : Int) : Prop :=
  ∀ last, trackOf entry (allOps history) = some last →
    ∃ k, trackOf entry (allOps (before t history)) = some k ∧
      ((k.gone = true ∧ MissesBoth (allOps history) t k last) ∨ (k.gone = false ∧ StaysPut last))

/-- A history in the order of the timestamps that keeps everything, with muids that fit their
digits; the muid asked for is that of an entry of an ordered container, or of no entry. -/
structure EntryHistory (history : List OpenBundle) (entry : MuidTuple) : Prop where
  increasing : Increasing history
  unpurged : Unpurged history
  fits : Fitting history
  moves : MovesMuids (allOps history)
  ofOrdered : OfOrdered (allOps history) entry
  muid : IsMuid entry

variable {history : List OpenBundle} {walks : MemoryStore.Walks} {d : MemoryStore.Contents}
  {c : IndexedDb.Contents} {trxns : List Int} {now t : Int} {entry : MuidTuple}
  {asOf : Option Int} {k last : Track} {same : Str → StorageKey → Prop}

theorem EntryHistory.legitimate (h : EntryHistory history entry) :
    Legitimate (allOps history) entry := by
  refine ⟨h.increasing.inOrder, h.fits, fun op hop => ?_, h.moves, h.ofOrdered⟩
  obtain ⟨b, hb, hop⟩ := List.mem_flatMap.mp hop
  exact h.unpurged b hb op.change (mem_opsFrom hop).2.2

/-- The changes from the time on, after those of before it. -/
theorem EntryHistory.split (h : EntryHistory history entry) (t : Int) :
    ∃ late, allOps history = allOps (before t history) ++ late ∧
      ∀ op ∈ late, t ≤ (op.info.timestamp.val : Int) := by
  obtain ⟨late, hsplit, hlate⟩ := h.increasing.inOrder.split t
  exact ⟨late, by rw [allOps_before, ← hsplit], hlate⟩

/-- An entry that has a track before the time has one in the end. -/
theorem EntryHistory.later (h : EntryHistory history entry)
    (hk : trackOf entry (allOps (before t history)) = some k) :
    ∃ last, trackOf entry (allOps history) = some last ∧
      (last.moved = false → k.moved = false ∧ last.place = k.place) := by
  obtain ⟨late, hsplit, -⟩ := h.split t
  have horder := h.increasing.inOrder
  rw [hsplit] at horder ⊢
  obtain ⟨hbefore, -, hcross⟩ := List.pairwise_append.mp horder
  obtain ⟨o, ho, hadded⟩ := (trackOf_known hbefore hk).added
  exact trackOf_later hk fun op hop heq => (hcross o ho op hop).ne (hadded.trans heq.symm)

/-- Of an entry that is added from the time on nothing happens before. -/
theorem EntryHistory.added_late (h : EntryHistory history entry)
    (hlast : trackOf entry (allOps history) = some last)
    (hnone : trackOf entry (allOps (before t history)) = none) :
    t ≤ entry.timestamp ∧ t ≤ last.place.placement.timestamp := by
  obtain ⟨late, hsplit, hlate⟩ := h.split t
  have horder := h.increasing.inOrder
  rw [hsplit] at horder hlast
  rw [trackOf_append, hnone] at hlast
  have hknown := trackOf_known (List.pairwise_append.mp horder).2.1 hlast
  obtain ⟨o, ho, hadded⟩ := hknown.added
  have hentry : t ≤ entry.timestamp := by
    rw [← hadded]
    exact hlate o ho
  refine ⟨hentry, ?_⟩
  rcases hknown.after with heq | hbefore
  · rw [heq]
    exact hentry
  · exact le_trans hentry hbefore.timestamp_le

/-- The container of a place that is not gone was not cleared since. -/
theorem EntryHistory.not_cleared (h : EntryHistory history entry)
    (hk : trackOf entry (allOps (before t history)) = some k) (hthere : k.gone = false) :
    ¬ ClearedSince (allOps history) t k.place := by
  rintro ⟨op, hop, z, hz, hcontainer, hlow, hhigh⟩
  obtain ⟨late, hsplit, hlate⟩ := h.split t
  have hearly : op ∈ allOps (before t history) := by
    rw [hsplit] at hop
    rcases List.mem_append.mp hop with hop | hop
    · exact hop
    · have hle : t ≤ z.clearanceId.timestamp := by
        rw [MemoryStore.clearanceOf_address hz]
        exact hlate op hop
      omega
  have horder := h.increasing.inOrder
  rw [hsplit] at horder
  have hcleared := (trackOf_known (List.pairwise_append.mp horder).1 hk).cleared op hearly z hz
    hcontainer (Or.inl hlow)
  unfold Track.gone at hthere
  rw [hcleared, Bool.or_true] at hthere
  exact Bool.noConfusion hthere

/-! ## §3. The answers of the stores. -/

theorem contained_of_applied (h : MemoryStore.History walks true history d) :
    IndexedDb.Contained (allOps history) := by
  intro op hop b hchange
  obtain ⟨before, after, happlied⟩ := applyOps_applied h.applyOps op hop
  rw [hchange] at happlied
  obtain ⟨e, hbuild, -⟩ := bind_eq_ok.mp happlied
  exact ⟨_, (MemoryStore.buildEntry_place hbuild).2⟩

/-- The answer of a `MemoryStore` about an entry that was added. -/
theorem memory_answer (h : MemoryStore.History walks true history d)
    (hhistory : EntryHistory history entry) (ht : 0 < t ∧ t < 16 ^ 13)
    (hasOf : MemoryStore.asOfTime trxns now asOf = .ok t)
    (hlast : trackOf entry (allOps history) = some last) :
    (last.deleted = true ∨ ClearedSince (allOps history) t last.place ∨
        2 ^ 51 < last.place.placement.timestamp →
      MemoryStore.getLocation d trxns now entry asOf = .ok none) ∧
    (¬ (last.deleted = true ∨ ClearedSince (allOps history) t last.place ∨
        2 ^ 51 < last.place.placement.timestamp) →
      MemoryStore.getLocation d trxns now entry asOf =
        (strToMuidTuple (muidTupleToString last.place.container)).map fun container =>
          some ⟨container, MemoryStore.storageKeyToString last.place.key,
            readBack 13 last.place.placement.timestamp, readBack 11 last.place.placement.medallion,
            readBack 8 last.place.placement.offset⟩) ∧
    IsMuid last.place.placement := by
  obtain ⟨hrows, htracked⟩ := h.tracked hhistory.legitimate
  rw [hlast] at htracked
  obtain ⟨e, he, -, hplace, hleft⟩ := htracked
  have hkey := trackOf_positioned hhistory.ofOrdered hlast
  rw [← hplace] at hkey
  obtain ⟨hgone, hthere⟩ := hrows.getLocation_some hasOf ht he hkey
  rw [← hleft, ← hplace]
  exact ⟨hgone, hthere, (hrows.spelled.placements _ he.stored).2.placement.muid⟩

theorem memory_unadded (h : MemoryStore.History walks true history d)
    (hhistory : EntryHistory history entry)
    (hasOf : MemoryStore.asOfTime trxns now asOf = .ok t)
    (hnone : trackOf entry (allOps history) = none) :
    MemoryStore.getLocation d trxns now entry asOf = .ok none := by
  obtain ⟨hrows, htracked⟩ := h.tracked hhistory.legitimate
  rw [hnone] at htracked
  exact hrows.getLocation_none hasOf hhistory.muid htracked

/-- The answer of an `IndexedDbStore` about an entry that was added before the time. -/
theorem indexedDb_answer (h : IndexedDb.History true history c)
    (hhistory : EntryHistory history entry) (hcontained : IndexedDb.Contained (allOps history))
    (hasOf : MemoryStore.asOfTime trxns now asOf = .ok t)
    (hlast : trackOf entry (allOps history) = some last)
    (hk : trackOf entry (allOps (before t history)) = some k) :
    (ClearedSince (allOps history) t last.place ∨ k.moved = true →
      IndexedDb.getLocation c trxns now entry asOf = .ok none) ∧
    (¬ (ClearedSince (allOps history) t last.place ∨ k.moved = true) →
      IndexedDb.getLocation c trxns now entry asOf = .ok (some last.place)) := by
  obtain ⟨hrows, hlocated, hleaves⟩ := h.located (t := t) hhistory.legitimate hcontained
  rw [hlast] at hlocated
  obtain ⟨⟨e, he, hplace⟩, -⟩ := hlocated
  rw [allOps_before] at hk
  rw [← hleaves k hk, ← hplace]
  exact hrows.getLocation_some hasOf he

/-- One that is added later it finds all the same. -/
theorem indexedDb_added_late (h : IndexedDb.History true history c)
    (hhistory : EntryHistory history entry) (hcontained : IndexedDb.Contained (allOps history))
    (hasOf : MemoryStore.asOfTime trxns now asOf = .ok t)
    (hlast : trackOf entry (allOps history) = some last)
    (hnone : trackOf entry (allOps (before t history)) = none) :
    IndexedDb.getLocation c trxns now entry asOf = .ok (some last.place) := by
  obtain ⟨hentry, hplaced⟩ := hhistory.added_late hlast hnone
  obtain ⟨hrows, hlocated, -⟩ := h.located (t := t) hhistory.legitimate hcontained
  rw [hlast] at hlocated
  obtain ⟨⟨e, he, hplace⟩, -⟩ := hlocated
  rw [← hplace] at hplaced ⊢
  refine (hrows.getLocation_some hasOf he).2 (not_or.mpr ⟨?_, ?_⟩)
  · rintro ⟨op, -, z, -, -, hlow, hhigh⟩
    omega
  · rintro ⟨r, hr, hremoving, hlt⟩
    have hle := (hrows.removed r hr).2.1.timestamp_le
    rw [hremoving] at hle
    omega

theorem indexedDb_unadded (h : IndexedDb.History true history c)
    (hhistory : EntryHistory history entry) (hcontained : IndexedDb.Contained (allOps history))
    (hasOf : MemoryStore.asOfTime trxns now asOf = .ok t)
    (hnone : trackOf entry (allOps history) = none) :
    IndexedDb.getLocation c trxns now entry asOf = .ok none := by
  obtain ⟨hrows, hlocated, -⟩ := h.located (t := t) hhistory.legitimate hcontained
  rw [hnone] at hlocated
  exact hrows.getLocation_none hasOf hlocated

/-! ## §4. Answers that are right. -/

theorem locationAt_of_track (hk : trackOf entry (allOps (before t history)) = some k) :
    locationAt history entry t = if k.gone then none else some k.place := by
  unfold locationAt
  rw [hk]

theorem gives_none {answer : Option (Placement Str)} : Gives same answer none ↔ answer = none := by
  cases answer <;> simp [Gives]

section
variable (hd : MemoryStore.History walks true history d) (hc : IndexedDb.History true history c)
  (hhistory : EntryHistory history entry) (ht : 0 < t ∧ t < 16 ^ 13)
  (hasOf : MemoryStore.asOfTime trxns now asOf = .ok t)

include hd hc hhistory ht hasOf

omit ht in
/-- An entry that was never added. -/
theorem locates_unadded (hlast : trackOf entry (allOps history) = none) :
    Locates IsText history d c trxns now entry asOf t := by
  have hnone : trackOf entry (allOps (before t history)) = none := by
    cases hk : trackOf entry (allOps (before t history)) with
    | none => rfl
    | some k =>
        obtain ⟨last, hsome, -⟩ := hhistory.later hk
        rw [hlast] at hsome
        cases hsome
  have hnowhere : locationAt history entry t = none := by
    unfold locationAt
    rw [hnone]
  refine ⟨⟨none, memory_unadded hd hhistory hasOf hlast, ?_⟩, ?_⟩
  · rw [hnowhere]
    trivial
  · rw [hnowhere]
    exact indexedDb_unadded hc hhistory (contained_of_applied hd) hasOf hlast

/-- An entry that is gone at the time. -/
theorem locates_gone_iff (hlast : trackOf entry (allOps history) = some last)
    (hk : trackOf entry (allOps (before t history)) = some k) (hgone : k.gone = true) :
    Locates IsText history d c trxns now entry asOf t ↔ MissesBoth (allOps history) t k last := by
  obtain ⟨hnone, hsome, -⟩ := memory_answer hd hhistory ht hasOf hlast
  obtain ⟨hidbNone, hidbSome⟩ :=
    indexedDb_answer hc hhistory (contained_of_applied hd) hasOf hlast hk
  have hat := locationAt_of_track hk
  rw [if_pos hgone] at hat
  constructor
  · intro h
    obtain ⟨⟨answer, hanswer, hgives⟩, hidb⟩ := h
    rw [hat] at hgives hidb
    rw [gives_none.mp hgives] at hanswer
    constructor
    · by_contra hno
      rw [hidbSome hno] at hidb
      cases hidb
    · by_contra hno
      rw [hsome hno] at hanswer
      cases hread : strToMuidTuple (muidTupleToString last.place.container) <;>
        rw [hread] at hanswer <;> cases hanswer
  · intro h
    refine ⟨⟨none, hnone h.2, ?_⟩, ?_⟩
    · rw [hat]
      trivial
    · rw [hat]
      exact hidbNone h.1

/-- An entry that is there. -/
theorem locates_there_iff (hlast : trackOf entry (allOps history) = some last)
    (hk : trackOf entry (allOps (before t history)) = some k) (hthere : k.gone = false) :
    Locates IsText history d c trxns now entry asOf t ↔ StaysPut last := by
  obtain ⟨hnone, hsome, hmuid⟩ := memory_answer hd hhistory ht hasOf hlast
  obtain ⟨hidbNone, hidbSome⟩ :=
    indexedDb_answer hc hhistory (contained_of_applied hd) hasOf hlast hk
  have hknown := trackOf_known hhistory.increasing.inOrder hlast
  have hat := locationAt_of_track hk
  rw [hthere, if_neg Bool.false_ne_true] at hat
  obtain ⟨last', hlast', hkept⟩ := hhistory.later hk
  obtain rfl : last = last' := Option.some.inj (hlast.symm.trans hlast')
  have huncleared := hhistory.not_cleared hk hthere
  constructor
  · intro h
    obtain ⟨⟨answer, hanswer, hgives⟩, hidb⟩ := h
    rw [hat] at hgives hidb
    -- an `IndexedDbStore` has the last place of all, and only if nothing came before the time
    have hfound : ¬ (ClearedSince (allOps history) t last.place ∨ k.moved = true) := by
      intro hno
      rw [hidbNone hno] at hidb
      cases hidb
    rw [hidbSome hfound] at hidb
    have hplace : last.place = k.place := by
      injection hidb with hidb
      injection hidb
    have hunmoved : k.moved = false := by
      rw [← Bool.not_eq_true]
      exact fun hno => hfound (Or.inr hno)
    have hfirst : last.place.placement = entry := by
      rw [hplace]
      obtain ⟨late, hsplit, -⟩ := hhistory.split t
      have horder := hhistory.increasing.inOrder
      rw [hsplit] at horder
      exact ((trackOf_known (List.pairwise_append.mp horder).1 hk).unmoved hunmoved).1
    -- a `MemoryStore` has it only if nothing ever removed it
    have hthere' : ¬ (last.deleted = true ∨ ClearedSince (allOps history) t last.place ∨
        2 ^ 51 < last.place.placement.timestamp) := by
      intro hno
      rw [hnone hno] at hanswer
      injection hanswer with hanswer
      rw [← hanswer] at hgives
      exact hgives
    rw [hsome hthere'] at hanswer
    cases hread : strToMuidTuple (muidTupleToString last.place.container) with
    | error e =>
        rw [hread] at hanswer
        cases hanswer
    | ok container =>
        rw [hread] at hanswer
        injection hanswer with hanswer
        rw [← hanswer] at hgives
        obtain ⟨hcontainer, -, hplacement⟩ := hgives
        rw [← hplace] at hcontainer hplacement
        refine ⟨?_, hread.trans (congrArg Except.ok hcontainer),
          (strToMuidTuple_spelling hmuid).trans (congrArg Except.ok hplacement)⟩
        rw [← Bool.not_eq_true]
        intro hmoved
        have hdeleted : last.deleted = false := by
          rw [← Bool.not_eq_true]
          exact fun hno => hthere' (Or.inl hno)
        exact (hknown.relocated hmoved hdeleted).ne hfirst.symm
  · intro h
    obtain ⟨hunmoved, hcontainer, hplacement⟩ := h
    obtain ⟨hmoved, hplace⟩ := hkept hunmoved
    have hread := strToMuidTuple_spelling hmuid
    rw [show strToMuidTuple (muidTupleToString last.place.placement) = _ from hplacement] at hread
    have hback := Except.ok.inj hread
    have hcase : ¬ (last.deleted = true ∨ ClearedSince (allOps history) t last.place ∨
        2 ^ 51 < last.place.placement.timestamp) := by
      rintro (hdeleted | hcleared | hlate)
      · rw [(hknown.unmoved hunmoved).2] at hdeleted
        exact Bool.noConfusion hdeleted
      · exact huncleared (hplace ▸ hcleared)
      · have hsame : last.place.placement.timestamp = readBack 13 last.place.placement.timestamp :=
          congrArg MuidTuple.timestamp hback
        have h0 := hmuid.timestamp.1
        rcases MemoryStore.readBack_timestamp hmuid.timestamp.2 with ⟨-, hneg⟩ | ⟨hearly, -⟩ <;>
          omega
    refine ⟨⟨some ⟨last.place.container, MemoryStore.storageKeyToString last.place.key,
      last.place.placement⟩, (hsome hcase).trans ?_, ?_⟩, ?_⟩
    · rw [show strToMuidTuple (muidTupleToString last.place.container) = _ from hcontainer, ← hback]
      rfl
    · rw [hat, hplace]
      exact ⟨rfl, rfl, rfl⟩
    · rw [hat, ← hplace]
      refine hidbSome (not_or.mpr ⟨fun hcleared => huncleared (hplace ▸ hcleared), ?_⟩)
      rw [hmoved]
      exact Bool.false_ne_true

/-- **Both stores are right** exactly when the entry is found. -/
theorem locates_iff :
    Locates IsText history d c trxns now entry asOf t ↔ IsFound history entry t := by
  cases hlast : trackOf entry (allOps history) with
  | none =>
      refine iff_of_true (locates_unadded hd hc hhistory hasOf hlast) fun last h => ?_
      rw [hlast] at h
      cases h
  | some last =>
      have hfound : IsFound history entry t ↔
          ∃ k, trackOf entry (allOps (before t history)) = some k ∧
            ((k.gone = true ∧ MissesBoth (allOps history) t k last) ∨
              (k.gone = false ∧ StaysPut last)) := by
        constructor
        · exact fun h => h last hlast
        · intro h last' hlast'
          rw [hlast] at hlast'
          injection hlast' with hlast'
          exact hlast' ▸ h
      rw [hfound]
      cases hk : trackOf entry (allOps (before t history)) with
      | none =>
          -- an `IndexedDbStore` finds it before it is there
          refine iff_of_false (fun h => ?_) fun h => ?_
          · have hright := h.indexedDb
            rw [indexedDb_added_late hc hhistory (contained_of_applied hd) hasOf hlast hk] at hright
            unfold locationAt at hright
            rw [hk] at hright
            cases hright
          · obtain ⟨k, hk', -⟩ := h
            cases hk'
      | some k =>
          simp only [Option.some.injEq, exists_eq_left']
          cases hcase : k.gone with
          | true =>
              rw [locates_gone_iff hd hc hhistory ht hasOf hlast hk hcase]
              simp
          | false =>
              rw [locates_there_iff hd hc hhistory ht hasOf hlast hk hcase]
              simp

end

/-- **The location of an entry.**  Up to how keys are written, both stores are right exactly
when the entry is found.  As to the keys themselves, a `MemoryStore` has a string where there is a
number, so both are right when the entry is found to be nowhere. -/
theorem location_iff (hd : MemoryStore.History walks true history d)
    (hc : IndexedDb.History true history c) (hhistory : EntryHistory history entry)
    (ht : 0 < t ∧ t < 16 ^ 13) (hasOf : MemoryStore.asOfTime trxns now asOf = .ok t) :
    (Locates IsText history d c trxns now entry asOf t ↔ IsFound history entry t) ∧
    (Locates IsSameKey history d c trxns now entry asOf t ↔
      IsFound history entry t ∧ locationAt history entry t = none) := by
  have htext := locates_iff hd hc hhistory ht hasOf
  refine ⟨htext, ?_⟩
  rw [← htext]
  constructor
  · intro h
    obtain ⟨⟨answer, hanswer, hgives⟩, hidb⟩ := h
    have hnowhere : locationAt history entry t = none := by
      unfold locationAt at hgives ⊢
      cases hk : trackOf entry (allOps (before t history)) with
      | none => rfl
      | some k =>
          simp only [hk] at hgives ⊢
          cases hgone : k.gone with
          | true => rfl
          | false =>
              -- the key of an entry that is there is a number
              rw [hgone, if_neg Bool.false_ne_true] at hgives
              obtain ⟨late, hsplit, -⟩ := hhistory.split t
              have hsub : allOps (before t history) ⊆ allOps history :=
                hsplit ▸ List.subset_append_left _ _
              obtain ⟨n, hn⟩ := trackOf_positioned (hhistory.ofOrdered.mono hsub) hk
              cases answer with
              | none => exact absurd hgives id
              | some a =>
                  have hsame := hgives.2.1
                  rw [hn] at hsame
                  exact absurd hsame id
    refine ⟨⟨⟨answer, hanswer, ?_⟩, hidb⟩, hnowhere⟩
    rw [hnowhere] at hgives ⊢
    rw [gives_none.mp hgives]
    trivial
  · intro h
    obtain ⟨⟨⟨answer, hanswer, hgives⟩, hidb⟩, hnowhere⟩ := h
    refine ⟨⟨answer, hanswer, ?_⟩, hidb⟩
    rw [hnowhere] at hgives ⊢
    rw [gives_none.mp hgives]
    trivial

/-! ## §5. An entry that is moved. -/

/-- The sequence all entries here are put into. -/
def sampleSequence : MuidTuple := ⟨-1, -1, Behavior.sequence.code⟩

/-- The muid of the entry. -/
def addedMuid : MuidTuple := ⟨1600000000000001, 1, 1⟩

theorem addedEntry_history : EntryHistory [addedEntry] addedMuid := by
  have hop : ∀ op ∈ allOps [addedEntry],
      op = ⟨addedEntry.info, 1, sampleEntry .sequence none "entry"⟩ := fun op hop =>
    List.mem_singleton.mp hop
  refine ⟨by decide +kernel, by decide +kernel, fun op h => ?_, fun op h b m hchange => ?_,
    fun op h _ b container _ _ o ho b' hb' _ => ?_, by decide +kernel⟩
  · rw [hop op h]
    exact .entry rfl ⟨by decide +kernel, by decide⟩ rfl (Or.inr ⟨rfl, rfl, by decide, by decide⟩) rfl
      trivial
  · rw [hop op h] at hchange
    cases hchange
  · rw [hop o ho] at hb'
    cases hb'
    exact Or.inl rfl

/-- While no movement comes, both stores have the entry where it was put. -/
theorem location_iff_unmoved :
    ∃ d c, MemoryStore.applyAll ⟨id, id⟩ true [addedEntry] {} = .ok d ∧
      IndexedDb.applyAll true [addedEntry] {} = .ok c ∧
      Locates IsText [addedEntry] d c [] 0 addedMuid (some 1600000000000002) 1600000000000002 := by
  obtain ⟨d, hd⟩ : ∃ d, MemoryStore.applyAll ⟨id, id⟩ true [addedEntry] {} = .ok d := ⟨_, rfl⟩
  obtain ⟨c, hc⟩ : ∃ c, IndexedDb.applyAll true [addedEntry] {} = .ok c := ⟨_, rfl⟩
  have hmemory := MemoryStore.History.start.applyAll hd
  have hidb := IndexedDb.History.start.applyAll hc
  rw [List.nil_append] at hmemory hidb
  refine ⟨d, c, hd, hc, (location_iff hmemory hidb addedEntry_history (by norm_num) rfl).1.mpr ?_⟩
  intro last hlast
  have htrack : trackOf addedMuid (allOps [addedEntry])
      = some { place := ⟨sampleSequence, .number 1600000000000001, addedMuid⟩ } := rfl
  rw [htrack] at hlast
  injection hlast with hlast
  rw [← hlast]
  refine ⟨_, rfl, Or.inr ⟨rfl, rfl, ?_, ?_⟩⟩
  · unfold Legible
    decide +kernel
  · unfold Legible
    decide +kernel

/-- What the stores answer about the entry after the bundles. -/
def memoryLocation (history : List OpenBundle) (t : Int) :
    Option (Option (Placement Str)) :=
  (MemoryStore.applyAll ⟨id, id⟩ true history {} >>= fun d =>
    MemoryStore.getLocation d [] 0 addedMuid (some t)).toOption

def idbLocation (history : List OpenBundle) (t : Int) :
    Option (Option (Placement StorageKey)) :=
  (IndexedDb.applyAll true history {} >>= fun c =>
    IndexedDb.getLocation c [] 0 addedMuid (some t)).toOption

/-- **The entry is moved to position 7.**  Before it was, both stores have it there already;
afterwards a `MemoryStore` has it there, with a string for the key, and an `IndexedDbStore` does not
find it. -/
theorem location_moved :
    let history := [addedEntry, movedEntry 2 7]
    let first : Placement StorageKey := ⟨sampleSequence, .number 1600000000000001, addedMuid⟩
    let second : Placement StorageKey := ⟨sampleSequence, .number 7, ⟨1600000000000002, 2, 1⟩⟩
    let text : Placement Str := ⟨sampleSequence, [55], ⟨1600000000000002, 2, 1⟩⟩
    (Increasing history ∧ Unpurged history) ∧
    (locationAt history addedMuid 1600000000000002 = some first ∧
      memoryLocation history 1600000000000002 = some (some text) ∧
      idbLocation history 1600000000000002 = some (some second)) ∧
    (locationAt history addedMuid 1600000000000003 = some second ∧
      memoryLocation history 1600000000000003 = some (some text) ∧
      idbLocation history 1600000000000003 = some none) := by
  refine ⟨?_, ?_, ?_⟩
  · decide +kernel
  · decide +kernel
  · decide +kernel

end Js

end Gink
