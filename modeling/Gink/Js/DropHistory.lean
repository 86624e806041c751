/-
  Gink.Js.DropHistory — `dropHistory` and the present (IndexedDbStore.ts).

  Where an entry replaces another of its key, the removal names the earlier one, so that the
  last entry of a key is never deleted, in whatever order they came.  A movement names a row
  that nothing replaces; that row is gone from the sequence or the edges once the time of the
  movement is past, but a read by key would still find it.
-/
import Gink.Js.DroppedReads
import Gink.Js.OrderedConvergence

namespace Gink

namespace Js

open Gink.Idb (Key Range index visited lastIn)
open MemoryStore (isKeyed)

namespace IndexedDb

/-! ## §1. Rows under keys. -/

/-- Movements name entries of sequences and edge types only. -/
def MovesOrdered (ops : List Op) : Prop :=
  ∀ op ∈ ops, ∀ b m, op.change = .movement b → extractMovement b op.info op.offset = .ok m →
    ∀ o ∈ ops, ∀ builder, o.change = .entry builder →
      changeAddress o.info o.offset = m.entryId → accumulates builder.behavior = true

/-- What holds of the rows after the changes so far. -/
structure Kept (past : List Op) (c : Contents) : Prop where
  /-- every row stands under its placement, which is the address of a change -/
  stamped : Stamped (fun p => ∃ op ∈ past, changeAddress op.info op.offset = p) c
  /-- every entry was made by a change -/
  made : ∀ e, Stored c e → ∃ op ∈ past, ∃ builder, op.change = .entry builder ∧
    changeAddress op.info op.offset = e.entryId ∧ builder.behavior = e.behavior
  /-- the entries under keys are where they were put -/
  still : ∀ e, Stored c e → accumulates e.behavior = false → e.placementId = e.entryId ∧
    (isKeyed e.behavior = true ↔ e.storageKey ≠ .empty)
  /-- and the removals of such a row leave it a later one of its key -/
  outlived : ∀ e, Stored c e → accumulates e.behavior = false → ∀ k r,
    (k, r) ∈ c.removals.rows → r.removing = e.placementId →
      ∃ e', Stored c e' ∧ accumulates e'.behavior = false ∧ Supersedes e' e

section
variable {c c' : Contents} {past : List Op} {op : Op} {container : Option MuidTuple}
  {beforeTs : Int}

theorem Kept.start : Kept [] {} := by
  refine ⟨⟨?_, ?_, ?_⟩, ?_, ?_, ?_⟩ <;> simp [Stored]

/-- **The last row of a key** is named by no removal. -/
theorem Kept.exists_last (h : Kept past c) {e : Entry} (he : Stored c e)
    (hacc : accumulates e.behavior = false) :
    ∃ l, Stored c l ∧ accumulates l.behavior = false ∧ (l = e ∨ Supersedes l e) ∧
      ∀ k r, (k, r) ∈ c.removals.rows → r.removing ≠ l.placementId := by
  classical
  -- of the rows that are the entry or stand in for it, the one placed last
  have hsorted := c.entries.sorted.filter fun r =>
    decide (accumulates r.2.behavior = false ∧ (r.2 = e ∨ Supersedes r.2 e))
  obtain ⟨p, hp⟩ := he
  have hin : (p, e) ∈ c.entries.rows.filter fun r =>
      decide (accumulates r.2.behavior = false ∧ (r.2 = e ∨ Supersedes r.2 e)) :=
    List.mem_filter.mpr ⟨hp, by simpa using hacc⟩
  obtain ⟨⟨k, l⟩, hlast⟩ :=
    Option.isSome_iff_exists.mp (List.getLast?_isSome.mpr (List.ne_nil_of_mem hin))
  obtain ⟨hl, htest⟩ := List.mem_filter.mp (List.mem_of_getLast? hlast)
  obtain ⟨hlacc, hstands⟩ := of_decide_eq_true htest
  refine ⟨l, ⟨k, hl⟩, hlacc, hstands, fun j r hr hremoving => ?_⟩
  obtain ⟨x, ⟨p', hx⟩, hxacc, hsup⟩ := h.outlived l ⟨k, hl⟩ hlacc j r hr hremoving
  have hsup' : Supersedes x e := by
    rcases hstands with rfl | hbetween
    · exact hsup
    · exact Supersedes.trans x l e hsup hbetween
  have hle := Table.le_getLast?_of_mem hsorted hlast
    (List.mem_filter.mpr ⟨hx, by simpa using ⟨hxacc, Or.inr hsup'⟩⟩)
  rw [show p' = x.placementId.key from h.stamped.entry_key hx,
    show k = l.placementId.key from h.stamped.entry_key hl] at hle
  exact absurd (MuidTuple.key_lt.mpr hsup.later) (not_lt.mpr hle)

theorem not_dropped_of_unnamed {e : Entry}
    (hunnamed : ∀ k r, (k, r) ∈ c.removals.rows → r.removing ≠ e.placementId) :
    ¬ Dropped c container beforeTs e := by
  intro hdropped
  obtain ⟨-, r, hr, hremoving⟩ := hdropped
  obtain ⟨k, hk⟩ := mem_removalsBefore hr
  exact hunnamed k r hk hremoving

/-- **What is dropped of the rows under keys** has rows that stay and stand in for it. -/
theorem Kept.outlivedAll (h : Kept past c) : Outlived c container beforeTs := by
  intro e hdropped hacc
  obtain ⟨l, hl, hlacc, hstands, hunnamed⟩ := h.exists_last hdropped.1 hacc
  have hstays : ¬ Dropped c container beforeTs l := not_dropped_of_unnamed hunnamed
  rcases hstands with rfl | hsup
  · exact absurd hdropped hstays
  · obtain ⟨hplace, hkeyed⟩ := h.still e hdropped.1 hacc
    obtain ⟨hplace', hkeyed'⟩ := h.still l hl hlacc
    refine ⟨l, hl, hstays, hsup, ?_, ?_⟩
    · rw [Bool.eq_iff_iff, hkeyed, hkeyed', hsup.key]
    · rw [← hplace, ← hplace']
      exact hsup.later.timestamp_le

/-- A row under a key that is dropped is not the last of it. -/
theorem Kept.not_last (h : Kept past c) {id : MuidTuple} {key : StorageKey} {e : Entry}
    (hdropped : Dropped c container beforeTs e) (hacc : accumulates e.behavior = false) :
    ¬ LastWritten c id key none e := by
  intro hlast
  obtain ⟨l, hl, -, hsup, -⟩ := h.outlivedAll e hdropped hacc
  have hle := hlast.last l ⟨hl, hsup.container.trans hlast.written.container,
    hsup.key.trans hlast.written.key, fun t ht => nomatch ht⟩
  exact absurd (MuidTuple.key_lt.mpr hsup.later) (not_lt.mpr hle)

/-- **Dropping** keeps it so. -/
theorem Kept.dropped (h : Kept past c) (hdrops : Drops c c' container beforeTs) :
    Kept past c' := by
  refine ⟨hdrops.stamped h.stamped, fun e he => h.made e (hdrops.stored_iff.mp he).1,
    fun e he => h.still e (hdrops.stored_iff.mp he).1, fun e he hacc k r hr hremoving => ?_⟩
  obtain ⟨hold, -⟩ := hdrops.stored_iff.mp he
  obtain ⟨l, hl, hlacc, hstands, hunnamed⟩ := h.exists_last hold hacc
  have hr' := ((hdrops.removals _).mp hr).1
  rcases hstands with rfl | hsup
  · exact absurd hremoving (hunnamed k r hr')
  · exact ⟨l, hdrops.stored_iff.mpr ⟨hl, not_dropped_of_unnamed hunnamed⟩, hlacc, hsup⟩

/-! ## §2. One change. -/

/-- A later row of the same key stands in for the row. -/
def StoodFor (c : Contents) (e : Entry) : Prop :=
  ∃ e', Stored c e' ∧ accumulates e'.behavior = false ∧ Supersedes e' e

/-- A row that a change makes: of its own address, and of an entry made by it or before. -/
structure NewRow (past : List Op) (op : Op) (e : Entry) : Prop where
  placed : e.placementId = changeAddress op.info op.offset
  made : ∃ o ∈ past ++ [op], ∃ builder, o.change = .entry builder ∧
    changeAddress o.info o.offset = e.entryId ∧ builder.behavior = e.behavior
  still : accumulates e.behavior = false → e.placementId = e.entryId ∧
    (isKeyed e.behavior = true ↔ e.storageKey ≠ .empty)

/-- What a change may do to the rows. -/
structure Changes (past : List Op) (op : Op) (c c' : Contents) : Prop where
  entries : ∀ r ∈ c'.entries.rows, r ∈ c.entries.rows ∨
    (r.1 = Entry.primary r.2 ∧ NewRow past op r.2)
  removals : ∀ r ∈ c'.removals.rows, r ∈ c.removals.rows ∨
    (r.1 = r.2.removalId.key ∧ ∃ e, Stored c e ∧ r.2.removing = e.placementId ∧
      (accumulates e.behavior = false → StoodFor c' e))
  clearances : ∀ r ∈ c'.clearances.rows, r ∈ c.clearances.rows ∨
    (r.1 = r.2.key ∧ r.2.clearanceId = changeAddress op.info op.offset)
  /-- a row under a key is lost to a later one of the key, or with the whole container -/
  lost : ∀ e, Stored c e → accumulates e.behavior = false → Stored c' e ∨ StoodFor c' e ∨
    ∀ z, Stored c' z → z.containerId ≠ e.containerId

/-- **One change** keeps the last rows of keys unnamed. -/
theorem Kept.step (h : Kept past c) (hchanges : Changes past op c c')
    (hfresh : ∀ o ∈ past, changeAddress o.info o.offset ≠ changeAddress op.info op.offset) :
    Kept (past ++ [op]) c' := by
  have hlater : ∀ p, (∃ o ∈ past, changeAddress o.info o.offset = p) →
      ∃ o ∈ past ++ [op], changeAddress o.info o.offset = p := fun p hp => by
    obtain ⟨o, ho, heq⟩ := hp
    exact ⟨o, List.mem_append_left _ ho, heq⟩
  have hlast : op ∈ past ++ [op] := List.mem_append_right _ (List.mem_singleton.mpr rfl)
  refine ⟨⟨?_, ?_, ?_⟩, ?_, ?_, ?_⟩
  · intro r hr
    rcases hchanges.entries r hr with hold | hnew
    · obtain ⟨hkey, hp⟩ := h.stamped.entries r hold
      exact ⟨hkey, hlater _ hp⟩
    · exact ⟨hnew.1, op, hlast, hnew.2.placed.symm⟩
  · intro r hr
    rcases hchanges.removals r hr with hold | ⟨hkey, e, ⟨k, hk⟩, hremoving, -⟩
    · obtain ⟨hkey, hp⟩ := h.stamped.removals r hold
      exact ⟨hkey, hlater _ hp⟩
    · exact ⟨hkey, hremoving.symm ▸ hlater _ (h.stamped.entries _ hk).2⟩
  · intro r hr
    rcases hchanges.clearances r hr with hold | hnew
    · obtain ⟨hkey, hp⟩ := h.stamped.clearances r hold
      exact ⟨hkey, hlater _ hp⟩
    · exact ⟨hnew.1, op, hlast, hnew.2.symm⟩
  · intro e he
    obtain ⟨k, hk⟩ := he
    rcases hchanges.entries _ hk with hold | hnew
    · obtain ⟨o, ho, hmade⟩ := h.made e ⟨k, hold⟩
      exact ⟨o, List.mem_append_left _ ho, hmade⟩
    · exact hnew.2.made
  · intro e he
    obtain ⟨k, hk⟩ := he
    rcases hchanges.entries _ hk with hold | hnew
    · exact h.still e ⟨k, hold⟩
    · exact hnew.2.still
  · intro e he hacc j r hr hremoving
    obtain ⟨k, hk⟩ := he
    -- what a removal names was there before the change
    have hnamed : ∃ o ∈ past, changeAddress o.info o.offset = r.removing := by
      rcases hchanges.removals _ hr with hold | ⟨-, x, ⟨i, hi⟩, hx, -⟩
      · exact (h.stamped.removals _ hold).2
      · have hx : r.removing = x.placementId := hx
        exact hx.symm ▸ (h.stamped.entries _ hi).2
    rcases hchanges.entries _ hk with hold | ⟨-, hnew⟩
    · rcases hchanges.removals _ hr with hprior | ⟨-, x, hx, hxremoving, hstood⟩
      · obtain ⟨y, hy, hyacc, hsup⟩ := h.outlived e ⟨k, hold⟩ hacc j r hprior hremoving
        rcases hchanges.lost y hy hyacc with hstays | ⟨w, hw, hwacc, hwsup⟩ | hpurged
        · exact ⟨y, hstays, hyacc, hsup⟩
        · exact ⟨w, hw, hwacc, Supersedes.trans w y e hwsup hsup⟩
        · exact absurd hsup.container.symm (hpurged e ⟨k, hk⟩)
      · have hsame : x = e := h.stamped.proper.placement_inj hx ⟨k, hold⟩
          (hxremoving.symm.trans hremoving)
        subst hsame
        exact hstood hacc
    · obtain ⟨o, ho, heq⟩ := hnamed
      exact absurd (heq.trans (hremoving.trans hnew.placed)) (hfresh o ho)

/-- A change that leaves the rows alone. -/
theorem Changes.nothing (hentries : c'.entries = c.entries) (hremovals : c'.removals = c.removals)
    (hclearances : ∀ r ∈ c'.clearances.rows, r ∈ c.clearances.rows ∨
      (r.1 = r.2.key ∧ r.2.clearanceId = changeAddress op.info op.offset)) :
    Changes past op c c' := by
  refine ⟨fun r hr => Or.inl (hentries ▸ hr), fun r hr => Or.inl (hremovals ▸ hr), hclearances,
    fun e he _ => Or.inl ?_⟩
  unfold Stored
  rw [hentries]
  exact he

/-- What replaces a row stands in for it. -/
theorem Kept.replaced (h : Kept past c) {e search : Entry}
    (hnew : ∀ o ∈ past, changeAddress o.info o.offset ≠ e.placementId)
    (hsearch : replacedBy c e = some search) : Stored c search ∧ Supersedes e search := by
  unfold replacedBy at hsearch
  obtain ⟨hstored, hin, -⟩ := (Idb.lastIn_index h.stamped.separates_entries).mp hsearch
  obtain ⟨hcontainer, hkey, hle⟩ := includes_replaced.mp hin
  refine ⟨hstored, hcontainer.symm, hkey.symm, ?_⟩
  obtain ⟨k, hk⟩ := hstored
  obtain ⟨o, ho, haddress⟩ := (h.stamped.entries _ hk).2
  have hne : search.placementId.key ≠ e.placementId.key := fun heq =>
    hnew o ho (haddress.trans (MuidTuple.key_injective heq))
  exact MuidTuple.key_lt.mp (lt_of_le_of_ne hle hne)

/-- The row that an entry makes. -/
theorem newRow_of_entry {builder : EntryBuilder} (hchange : op.change = .entry builder) {e : Entry}
    (hbuild : buildEntry builder op.info op.offset = .ok e) : NewRow past op e := by
  obtain ⟨hbehavior, hkey, hid, hplace⟩ := indexedDb_buildsRecords _ _ _ _ hbuild
  refine ⟨hplace, ⟨op, List.mem_append_right _ (List.mem_singleton.mpr rfl), builder, hchange,
    hid.symm, hbehavior.symm⟩, fun hacc => ⟨hplace.trans hid.symm, ?_⟩⟩
  rw [hbehavior] at hacc ⊢
  constructor
  · exact key_ne_empty hkey
  · intro hne
    by_contra hother
    exact hne (key_eq_empty hkey (by simpa using hother) hacc)

/-- **An entry** replaces at most the row that it stands in for. -/
theorem Kept.applyEntry (h : Kept past c) {keepingHistory : Bool} {builder : EntryBuilder}
    (hchange : op.change = .entry builder)
    (hfresh : ∀ o ∈ past, changeAddress o.info o.offset ≠ changeAddress op.info op.offset)
    (happlied : applyEntry keepingHistory op.info op.offset builder c = .ok c') :
    Changes past op c c' := by
  obtain ⟨e, hbuild, h1⟩ := bind_eq_ok.mp happlied
  obtain ⟨c1, hreplace, h2⟩ := bind_eq_ok.mp h1
  obtain ⟨entries, hadd, h3⟩ := bind_eq_ok.mp h2
  have hnew : ∀ o ∈ past, changeAddress o.info o.offset ≠ e.placementId := by
    rw [(indexedDb_buildsRecords _ _ _ _ hbuild).2.2.2]
    exact hfresh
  have hrows := addRecord_rows hadd
  have hentry : ∀ r, r = (Entry.primary e, e) → r.1 = Entry.primary r.2 ∧ NewRow past op r.2 :=
    fun r hr => hr ▸ ⟨rfl, newRow_of_entry hchange hbuild⟩
  have hstored : ∀ x, Stored c1 x → Stored { c1 with entries } x := fun x hx => by
    obtain ⟨k, hk⟩ := hx
    exact ⟨k, (hrows _).mpr (Or.inl hk)⟩
  rw [← pure_eq_ok.mp h3]
  -- unless a row is replaced, the entry is only added
  have hadded : c1 = c → Changes past op c { c1 with entries } := by
    intro hsame
    subst hsame
    exact ⟨fun r hr => ((hrows r).mp hr).imp_right (hentry r), fun r hr => Or.inl hr,
      fun r hr => Or.inl hr, fun x hx _ => Or.inl (hstored x hx)⟩
  unfold replaceFound at hreplace
  by_cases hacc : accumulates e.behavior = true
  · rw [if_pos hacc] at hreplace
    exact hadded (Except.ok.inj hreplace).symm
  · rw [if_neg hacc] at hreplace
    cases hsearch : replacedBy c e with
    | none =>
        simp only [hsearch] at hreplace
        exact hadded (Except.ok.inj hreplace).symm
    | some search =>
        simp only [hsearch] at hreplace
        obtain ⟨hold, hsup⟩ := h.replaced hnew hsearch
        have hstood : StoodFor { c1 with entries } search :=
          ⟨e, ⟨_, (hrows _).mpr (Or.inr rfl)⟩, by simpa using hacc, hsup⟩
        cases keepingHistory with
        | true =>
            rw [if_pos rfl] at hreplace
            obtain ⟨removals, hremoval, hdone⟩ := bind_eq_ok.mp hreplace
            have hc1 := pure_eq_ok.mp hdone
            subst hc1
            refine ⟨fun r hr => ((hrows r).mp hr).imp_right (hentry r), fun r hr => ?_,
              fun r hr => Or.inl hr, fun x hx _ => Or.inl (hstored x hx)⟩
            rcases (addRecord_rows hremoval r).mp hr with hprior | hlatest
            · exact Or.inl hprior
            · subst hlatest
              exact Or.inr ⟨rfl, search, hold, rfl, fun _ => hstood⟩
        | false =>
            rw [if_neg Bool.false_ne_true] at hreplace
            have hc1 := Except.ok.inj hreplace
            subst hc1
            refine ⟨fun r hr => ?_, fun r hr => Or.inl hr, fun r hr => Or.inl hr,
              fun x hx _ => ?_⟩
            · rcases (hrows r).mp hr with hprior | hlatest
              · exact Or.inl (mem_erase_iff.mp hprior).1
              · exact Or.inr (hentry r hlatest)
            · obtain ⟨k, hk⟩ := hx
              by_cases hgone : k = search.placementId.key
              · have hsame : x = search := h.stamped.proper.placement_inj ⟨k, hk⟩ hold
                  (MuidTuple.key_injective ((h.stamped.entry_key hk).symm.trans hgone))
                exact Or.inr (Or.inl (hsame ▸ hstood))
              · exact Or.inl (hstored x ⟨k, mem_erase_iff.mpr ⟨hk, hgone⟩⟩)

/-- What a seek for an entry's location finds is a placement of the entry. -/
theorem Kept.of_lastLocation (h : Kept past c) {entry : MuidTuple} {e : Entry}
    (hseek : lastLocation c entry = some e) : Stored c e ∧ e.entryId = entry := by
  have hseparates : Idb.Separates c.entries Entry.location := by
    intro r hr r' hr' hkey
    unfold Entry.location at hkey
    simp only [Key.array.injEq, List.cons.injEq, MuidTuple.key_inj, and_true] at hkey
    exact h.stamped.proper.placement_inj ⟨r.1, hr⟩ ⟨r'.1, hr'⟩ hkey.2
  obtain ⟨⟨k, hk⟩, hin, -⟩ := (Idb.lastIn_index hseparates).mp hseek
  refine ⟨⟨k, hk⟩, (includes_location ?_).mp hin⟩
  obtain ⟨o, -, haddress⟩ := (h.stamped.entries _ hk).2
  rw [show e.placementId = changeAddress o.info o.offset from haddress.symm]
  exact Int.natCast_nonneg _

/-- The new place of a moved entry is the only new row. -/
theorem placeMoved_rows {m : Movement} {found : Entry} {c1 : Contents}
    (hplaced : placeMoved m found c = .ok c1) :
    (∀ r ∈ c1.entries.rows, r ∈ c.entries.rows ∨
      r = (m.movementId.key, Entry.movedTo found m)) ∧
      (∀ r ∈ c.entries.rows, r ∈ c1.entries.rows) ∧ c1.removals = c.removals ∧
        c1.clearances = c.clearances := by
  unfold placeMoved at hplaced
  by_cases hdest : m.dest ≠ 0
  · rw [if_pos hdest] at hplaced
    obtain ⟨entries, hadd, hdone⟩ := bind_eq_ok.mp hplaced
    rw [← pure_eq_ok.mp hdone]
    exact ⟨fun r hr => (addRecord_rows hadd r).mp hr,
      fun r hr => (addRecord_rows hadd r).mpr (Or.inl hr), rfl, rfl⟩
  · rw [if_neg hdest] at hplaced
    rw [← Except.ok.inj hplaced]
    exact ⟨fun r hr => Or.inl hr, fun r hr => hr, rfl, rfl⟩

/-- **A movement** of an entry of a sequence or an edge type leaves the rows under keys. -/
theorem Kept.applyMovement (h : Kept past c) {keepingHistory : Bool} {builder : MovementBuilder}
    (hmoves : ∀ m, extractMovement builder op.info op.offset = .ok m → ∀ o ∈ past, ∀ b,
      o.change = .entry b → changeAddress o.info o.offset = m.entryId →
        accumulates b.behavior = true)
    (happlied : applyMovement keepingHistory op.info op.offset builder c = .ok c') :
    Changes past op c c' := by
  obtain ⟨m, hextract, h1⟩ := bind_eq_ok.mp happlied
  have hmovement := (extractMovement_ok hextract).1
  cases hseek : lastLocation c m.entryId with
  | none =>
      simp only [hseek] at h1
      rw [← pure_eq_ok.mp h1]
      exact Changes.nothing rfl rfl fun r hr => Or.inl hr
  | some found =>
      simp only [hseek] at h1
      obtain ⟨c1, hplaced, hleft⟩ := bind_eq_ok.mp h1
      obtain ⟨hfound, hid⟩ := h.of_lastLocation hseek
      obtain ⟨o, ho, b, hb, haddress, hbehavior⟩ := h.made found hfound
      have hacc : accumulates found.behavior = true := by
        rw [← hbehavior]
        exact hmoves m hextract o ho b hb (haddress.trans hid)
      obtain ⟨hrows, hkept, hremovals, hclearances⟩ := placeMoved_rows hplaced
      have hentry : ∀ r, r = (m.movementId.key, Entry.movedTo found m) →
          r.1 = Entry.primary r.2 ∧ NewRow past op r.2 := by
        intro r hr
        subst hr
        refine ⟨rfl, hmovement, ⟨o, List.mem_append_left _ ho, b, hb, haddress, hbehavior⟩, ?_⟩
        intro hnot
        rw [show (Entry.movedTo found m).behavior = found.behavior from rfl, hacc] at hnot
        cases hnot
      unfold leaveOld at hleft
      by_cases herase : (m.purge || !keepingHistory) = true
      · rw [if_pos herase] at hleft
        rw [← Except.ok.inj hleft]
        refine ⟨fun r hr => ?_, fun r hr => Or.inl (hremovals ▸ hr),
          fun r hr => Or.inl (hclearances ▸ hr), fun x hx hxacc => Or.inl ?_⟩
        · exact (hrows r (mem_erase_iff.mp hr).1).imp_right (hentry r)
        · obtain ⟨k, hk⟩ := hx
          refine ⟨k, mem_erase_iff.mpr ⟨hkept _ hk, fun hgone => ?_⟩⟩
          have hsame : x = found := h.stamped.proper.placement_inj ⟨k, hk⟩ hfound
            (MuidTuple.key_injective ((h.stamped.entry_key hk).symm.trans hgone))
          rw [hsame, hacc] at hxacc
          cases hxacc
      · rw [if_neg herase] at hleft
        obtain ⟨removals, hadd, hdone⟩ := bind_eq_ok.mp hleft
        rw [← pure_eq_ok.mp hdone]
        refine ⟨fun r hr => (hrows r hr).imp_right (hentry r), fun r hr => ?_,
          fun r hr => Or.inl (hclearances ▸ hr), fun x hx _ => Or.inl ?_⟩
        · rcases (addRecord_rows hadd r).mp hr with hprior | hlatest
          · exact Or.inl (hremovals ▸ hprior)
          · subst hlatest
            refine Or.inr ⟨rfl, found, hfound, rfl, fun hnot => ?_⟩
            rw [hacc] at hnot
            cases hnot
        · obtain ⟨k, hk⟩ := hx
          exact ⟨k, hkept _ hk⟩

theorem mem_eraseWhere_iff {V : Type} {t : Table Key V} {p : Key → Bool} {r : Key × V} :
    r ∈ (t.eraseWhere p).rows ↔ r ∈ t.rows ∧ p r.1 = false := by
  unfold Table.eraseWhere
  rw [List.mem_filter, Bool.not_eq_true']

/-- **A clearance** that purges deletes all of its container. -/
theorem changes_of_clearance {builder : ClearanceBuilder}
    (happlied : applyClearance op.info op.offset builder c = .ok c') : Changes past op c c' := by
  obtain ⟨b, -, h1⟩ := bind_eq_ok.mp happlied
  obtain ⟨id, -, h2⟩ := bind_eq_ok.mp h1
  obtain ⟨clearances, hadd, h3⟩ := bind_eq_ok.mp h2
  have hcleared : ∀ r ∈ clearances.rows,
      r ∈ (if builder.purge then purge id c else c).clearances.rows ∨
        (r.1 = r.2.key ∧ r.2.clearanceId = changeAddress op.info op.offset) := fun r hr =>
    ((addRecord_rows hadd r).mp hr).imp_right fun hlatest => by subst hlatest; exact ⟨rfl, rfl⟩
  rw [← pure_eq_ok.mp h3]
  by_cases hpurge : builder.purge = true
  · rw [if_pos hpurge] at hcleared ⊢
    refine ⟨fun r hr => Or.inl (mem_eraseWhere_iff.mp hr).1,
      fun r hr => Or.inl (mem_eraseWhere_iff.mp hr).1,
      fun r hr => (hcleared r hr).imp_left fun hin => (mem_eraseWhere_iff.mp hin).1,
      fun x hx _ => ?_⟩
    obtain ⟨k, hk⟩ := hx
    have hget : ∀ {j : Key} {y : Entry}, (j, y) ∈ c.entries.rows →
        ((c.entries.get? j).any fun e => decide (e.containerId = id)) =
          decide (y.containerId = id) := fun hy => by
      rw [Table.get?_eq_some_iff.mpr hy]
      rfl
    by_cases hsame : x.containerId = id
    · -- nothing of the container stays
      refine Or.inr (Or.inr fun z hz hid => ?_)
      obtain ⟨j, hj⟩ := hz
      obtain ⟨hrow, hout⟩ := mem_eraseWhere_iff.mp hj
      rw [hget hrow, hid, hsame, decide_eq_false_iff_not] at hout
      exact hout rfl
    · refine Or.inl ⟨k, mem_eraseWhere_iff.mpr ⟨hk, ?_⟩⟩
      rw [hget hk, decide_eq_false_iff_not]
      exact hsame
  · rw [if_neg hpurge] at hcleared ⊢
    exact Changes.nothing rfl rfl hcleared

/-! ## §3. Runs. -/

/-- **One change**, with history kept or not. -/
theorem Kept.applyChange (h : Kept past c) {keepingHistory : Bool}
    (hmoves : MovesOrdered (past ++ [op]))
    (hfresh : ∀ o ∈ past, changeAddress o.info o.offset ≠ changeAddress op.info op.offset)
    (happlied : applyChange keepingHistory op.info op.offset c op.change = .ok c') :
    Kept (past ++ [op]) c' := by
  refine h.step ?_ hfresh
  cases hchange : op.change with
  | container container =>
      rw [hchange] at happlied
      obtain ⟨containers, -, h1⟩ := bind_eq_ok.mp happlied
      rw [← pure_eq_ok.mp h1]
      exact Changes.nothing rfl rfl fun r hr => Or.inl hr
  | entry builder =>
      rw [hchange] at happlied
      exact h.applyEntry hchange hfresh happlied
  | movement builder =>
      rw [hchange] at happlied
      refine h.applyMovement (fun m hm o ho b hb haddress => ?_) happlied
      exact hmoves op (List.mem_append_right _ (List.mem_singleton.mpr rfl)) builder m hchange hm o
        (List.mem_append_left _ ho) b hb haddress
  | clearance builder =>
      rw [hchange] at happlied
      exact changes_of_clearance happlied
  | unset =>
      rw [hchange] at happlied
      cases happlied

theorem MovesOrdered.mono {ops ops' : List Op} (h : MovesOrdered ops') (hsub : ops ⊆ ops') :
    MovesOrdered ops := fun op hop b m hchange hm o ho =>
  h op (hsub hop) b m hchange hm o (hsub ho)

/-- **One bundle.** -/
theorem Kept.applyChangesFrom {keepingHistory : Bool} {info : BundleInfo}
    {changes : List ChangeBuilder} :
    ∀ {offset : Nat} {past : List Op} {c : Contents}, Kept past c →
      MovesOrdered (past ++ opsFrom info offset changes) →
      MemoryStore.Separate (past ++ opsFrom info offset changes) →
      applyChangesFrom keepingHistory info offset changes c = .ok c' →
      Kept (past ++ opsFrom info offset changes) c' := by
  induction changes with
  | nil =>
      intro offset past c h _ _ happlied
      rw [← Except.ok.inj happlied]
      simpa [opsFrom] using h
  | cons change rest ih =>
      intro offset past c h hmoves hseparate happlied
      obtain ⟨c1, hone, hrest⟩ := bind_eq_ok.mp happlied
      rw [opsFrom_cons, List.append_cons] at hmoves hseparate ⊢
      have hfresh : ∀ o ∈ past, changeAddress o.info o.offset ≠ changeAddress info offset :=
        fun o ho => (List.pairwise_append.mp (List.pairwise_append.mp hseparate).1).2.2 o ho
          ⟨info, offset, change⟩ (List.mem_singleton.mpr rfl)
      have hfirst := @Kept.applyChange c c1 past ⟨info, offset, change⟩ h keepingHistory
        (hmoves.mono (List.subset_append_left _ _)) hfresh hone
      exact ih hfirst hmoves hseparate hrest

/-- **Every run** keeps the last rows of keys unnamed. -/
theorem Reached.kept {history : List OpenBundle} (h : Reached history c)
    (hmoves : MovesOrdered (allOps history)) (hdistinct : DistinctStamps history) :
    Kept (allOps history) c := by
  induction h with
  | start => exact Kept.start
  | @bundle past c c' b keepingHistory _ happlied ih =>
      have hops : allOps (past ++ [b]) = allOps past ++ b.ops := by simp [allOps]
      have hseparate := MemoryStore.separate_allOps hdistinct
      rw [hops] at hmoves hseparate ⊢
      have hpast := ih (hmoves.mono (List.subset_append_left _ _))
        (List.pairwise_append.mp hdistinct).1
      exact Kept.applyChangesFrom hpast hmoves hseparate happlied
  | @dropped past c c' trxns today container time _ hdrop ih =>
      have hpast := ih hmoves hdistinct
      obtain ⟨beforeTs, -, hdrops⟩ := dropHistory_drops hpast.stamped hdrop
      exact hpast.dropped hdrops

theorem History.reached {keepingHistory : Bool} {history : List OpenBundle}
    (h : History keepingHistory history c) : Reached history c := by
  induction h with
  | start => exact .start
  | next _ happlied ih => exact .bundle ih happlied

/-! ## §4. The present. -/

/-- The container holds no entries of a sequence, an edge type or an accumulator. -/
def HoldsKeys (c : Contents) (id : MuidTuple) : Prop :=
  ∀ e, Stored c e → e.containerId = id → accumulates e.behavior = false

/-- **Dropping history and the present.**  Reads by key of containers that hold keys are as before,
and, where the time is not after the present, so are the reads of all sequences and edges.  Each
other read is as before exactly when no dropped row is one that it returns. -/
theorem dropHistory_keeps {history : List OpenBundle} (h : Reached history c)
    (hmoves : MovesOrdered (allOps history)) (hdistinct : DistinctStamps history)
    {trxns : List Int} {today : Int} {before : Option Int}
    (htime : MemoryStore.asOfTime trxns today before = .ok beforeTs)
    (hdrop : dropHistory c trxns today container before = .ok c') (now : Int) :
    (∀ id, HoldsKeys c id →
      (∀ key, getEntryByKey c' trxns id key none = getEntryByKey c trxns id key none) ∧
        getKeyedEntries c' trxns id none = getKeyedEntries c trxns id none) ∧
    (beforeTs ≤ now + 1 →
      (∀ id through, getOrderedEntries c' trxns now id through none =
        getOrderedEntries c trxns now id through none) ∧
      ∀ vertex source, getEntriesBySourceOrTarget c' trxns now vertex source none =
        getEntriesBySourceOrTarget c trxns now vertex source none) ∧
    (∀ id key, getEntryByKey c' trxns id key none = getEntryByKey c trxns id key none ↔
      ∀ e, Dropped c container beforeTs e → accumulates e.behavior = true →
        LastWritten c id key none e → e.placementId.timestamp < getClearanceTime c id none) ∧
    (∀ id, getKeyedEntries c' trxns id none = getKeyedEntries c trxns id none ↔
      ((∃ e, Dropped c container beforeTs e ∧ e.containerId = id ∧ accumulates e.behavior = true) →
        ∃ e, Stored c e ∧ ¬ Dropped c container beforeTs e ∧ e.containerId = id ∧
          isKeyed e.behavior = false)) ∧
    (∀ id, (∀ through, getOrderedEntries c' trxns now id through none =
        getOrderedEntries c trxns now id through none) ↔
      ∀ e, Dropped c container beforeTs e → e.containerId = id → Reaches (now + 1) e →
        getClearanceTime c id (some (now + 1)) ≤ e.placementId.timestamp → RemovedBy c now e) ∧
    (∀ vertex source, getEntriesBySourceOrTarget c' trxns now vertex source none =
        getEntriesBySourceOrTarget c trxns now vertex source none ↔
      ∀ e, Dropped c container beforeTs e → Entry.ends source e = [vertex] →
        (∃ n, e.storageKey = .number n) → e.placementId.timestamp ≤ now →
        getClearanceTime c vertex (some (now + 1)) ≤ e.placementId.timestamp →
        RemovedBy c now e) := by
  have hkept := h.kept hmoves hdistinct
  have hc := hkept.stamped
  have hdrops : Drops c c' container beforeTs := by
    obtain ⟨time, hsame, hdrops⟩ := dropHistory_drops hc hdrop
    rw [htime] at hsame
    exact Except.ok.inj hsame ▸ hdrops
  have hentry : ∀ id key, getEntryByKey c' trxns id key none = getEntryByKey c trxns id key none ↔
      ∀ e, Dropped c container beforeTs e → accumulates e.behavior = true →
        LastWritten c id key none e → e.placementId.timestamp < getClearanceTime c id none := by
    intro id key
    rw [hdrops.entryByKey_iff hc]
    refine forall₂_congr fun e hdropped => ⟨fun hall _ => hall, fun hall hlast => ?_⟩
    -- no row under a key that is dropped is the last of it
    cases hacc : accumulates e.behavior with
    | true => exact hall hacc hlast
    | false => exact absurd hlast (hkept.not_last hdropped hacc)
  have hkeyed := fun id => @Drops.keyedEntries_iff c c' _ container beforeTs id hdrops hc
    hkept.outlivedAll trxns
  have hordered := fun id => hdrops.ordered_iff hc trxns now id
  have hends := fun vertex source => hdrops.attached_iff hc trxns now vertex source
  refine ⟨fun id hholds => ⟨fun key => ?_, ?_⟩, fun hpast => ⟨fun id => ?_, fun vertex source => ?_⟩,
    hentry, hkeyed, hordered, hends⟩
  · refine (hentry id key).mpr fun e hdropped hacc hlast => ?_
    rw [hholds e hdropped.1 hlast.written.container] at hacc
    cases hacc
  · refine (hkeyed id).mpr fun hex => ?_
    obtain ⟨e, hdropped, hid, hacc⟩ := hex
    rw [hholds e hdropped.1 hid] at hacc
    cases hacc
  · exact (hordered id).mpr fun e hdropped _ _ _ => hdropped.removedBy hc hpast
  · exact (hends vertex source).mpr fun e hdropped _ _ _ _ => hdropped.removedBy hc hpast

end

/-! ## §5. A deletion of after the present. -/

/-- The sequence that the entry is put into. -/
def listedIn : MuidTuple := ⟨-1, -1, Behavior.sequence.code⟩

theorem deletedEntry_moves : MovesOrdered (allOps [addedEntry, movedEntry 2 0]) := by
  intro op _ b m _ _ o ho builder hbuilder _
  have hops : o = ⟨addedEntry.info, 1, sampleEntry .sequence none "entry"⟩ ∨
      o ∈ (movedEntry 2 0).ops := by
    have hall : allOps [addedEntry, movedEntry 2 0] =
      ⟨addedEntry.info, 1, sampleEntry .sequence none "entry"⟩ :: (movedEntry 2 0).ops := rfl
    rw [hall] at ho
    exact List.mem_cons.mp ho
  rcases hops with rfl | hmoved
  · cases hbuilder
    rfl
  · rw [List.mem_singleton.mp hmoved] at hbuilder
    cases hbuilder

/-- Dropped once the deletion is past, history takes nothing from the sequence. -/
theorem dropHistory_keeps_deleted :
    ∃ c c', Reached [addedEntry, movedEntry 2 0] c ∧
      dropHistory c [] 1600000000000005 none none = .ok c' ∧
      ∀ through, getOrderedEntries c' [] 1600000000000005 listedIn through none =
        getOrderedEntries c [] 1600000000000005 listedIn through none := by
  obtain ⟨c, hc⟩ : ∃ c, applyAll true [addedEntry, movedEntry 2 0] {} = .ok c := ⟨_, rfl⟩
  have hreached := (History.start.applyAll hc).reached
  rw [List.nil_append] at hreached
  obtain ⟨c', hdrop⟩ : ∃ c', dropHistory c [] 1600000000000005 none none = .ok c' := ⟨_, rfl⟩
  refine ⟨c, c', hreached, hdrop, fun through => ?_⟩
  have hkeeps := dropHistory_keeps hreached deletedEntry_moves (by decide +kernel) rfl hdrop
    1600000000000005
  exact (hkeeps.2.1 (by norm_num)).1 listedIn through

/-- What the sequence lists at a time, before history is dropped and afterwards, and what it has
under the key of the entry. -/
def listedAround (now before : Int) : Except JsError (List (List MuidTuple)) := do
  let c ← applyAll true [addedEntry, movedEntry 2 0] {}
  let c' ← dropHistory c [] now none (some before)
  let listed ← getOrderedEntries c [] now listedIn none none
  let listed' ← getOrderedEntries c' [] now listedIn none none
  let found ← getEntryByKey c [] listedIn (.number 1600000000000001) none
  let found' ← getEntryByKey c' [] listedIn (.number 1600000000000001) none
  return [listed.map Entry.placementId, listed'.map Entry.placementId,
    found.toList.map Entry.placementId, found'.toList.map Entry.placementId]

/-- **The deletion is of after the present**, from a clock that is ahead; history of up to a later
time is dropped, and the entry is gone at once.  Where the deletion is past the list stays as it
is, but a read by the position of the entry finds it before and not afterwards. -/
theorem dropHistory_future :
    (listedAround 1600000000000001 1600000000000003).toOption = some
      [[⟨1600000000000001, 1, 1⟩], [], [⟨1600000000000001, 1, 1⟩], []] ∧
    (listedAround 1600000000000005 1600000000000004).toOption = some
      [[], [], [⟨1600000000000001, 1, 1⟩], []] := by
  constructor
  · decide +kernel
  · decide +kernel

end IndexedDb

end Js

end Gink
