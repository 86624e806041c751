/-
  Gink.Memory.Aside — the statements of a change that add no row to the main dictionaries.

  Most of what a change does writes to the removals and to the indexes by name and by
  description, or takes entries and placements away.  `Aside` and `Shrinks` say so of each
  method, so that an invariant of the main dictionaries is checked where they gain a row.
-/
import Gink.Memory.Changes

namespace Gink

namespace Memory

open Gink.Action

/-! ## §1. What may differ. -/

/-- The same dictionaries but for the removals and the indexes by name and by description. -/
structure SameRows (c c' : Contents) : Prop where
  entries : c'.entries = c.entries
  containers : c'.containers = c.containers
  placements : c'.placements = c.placements
  locations : c'.locations = c.locations
  clearances : c'.clearances = c.clearances
  totals : c'.totals = c.totals

theorem SameRows.refl (c : Contents) : SameRows c c := ⟨rfl, rfl, rfl, rfl, rfl, rfl⟩

theorem SameRows.trans {c c' c'' : Contents} (h : SameRows c c') (h' : SameRows c' c'') :
    SameRows c c'' :=
  ⟨h'.entries.trans h.entries, h'.containers.trans h.containers,
    h'.placements.trans h.placements, h'.locations.trans h.locations,
    h'.clearances.trans h.clearances, h'.totals.trans h.totals⟩

/-- No entry and no placement is new, and containers, clearances and totals are the same. -/
structure Shrunk (c c' : Contents) : Prop where
  entries : ∀ row ∈ c'.entries.rows, row ∈ c.entries.rows
  placements : ∀ row ∈ c'.placements.rows, row ∈ c.placements.rows
  containers : c'.containers = c.containers
  clearances : c'.clearances = c.clearances
  totals : c'.totals = c.totals

theorem Shrunk.refl (c : Contents) : Shrunk c c :=
  ⟨fun _ h => h, fun _ h => h, rfl, rfl, rfl⟩

theorem Shrunk.trans {c c' c'' : Contents} (h : Shrunk c c') (h' : Shrunk c' c'') :
    Shrunk c c'' :=
  ⟨fun row hrow => h.entries row (h'.entries row hrow),
    fun row hrow => h.placements row (h'.placements row hrow),
    h'.containers.trans h.containers, h'.clearances.trans h.clearances,
    h'.totals.trans h.totals⟩

theorem SameRows.shrunk {c c' : Contents} (h : SameRows c c') : Shrunk c c' := by
  refine ⟨?_, ?_, h.containers, h.clearances, h.totals⟩
  · rw [h.entries]
    exact fun _ hrow => hrow
  · rw [h.placements]
    exact fun _ hrow => hrow

/-- The code writes to removals and indexes only. -/
def Aside {α : Type} (x : Action Contents α) : Prop := ∀ c, Keeps (SameRows c) x

/-- The code adds nothing to the main dictionaries. -/
def Shrinks {α : Type} (x : Action Contents α) : Prop := ∀ c, Keeps (Shrunk c) x

section
variable {α : Type} {x : Action Contents α} {P : Contents → Prop}

theorem Aside.keeps (hx : Aside x) (hP : ∀ {c c'}, P c → SameRows c c' → P c') : Keeps P x :=
  fun c hc => hP hc (hx c c (SameRows.refl c))

theorem Shrinks.keeps (hx : Shrinks x) (hP : ∀ {c c'}, P c → Shrunk c c' → P c') : Keeps P x :=
  fun c hc => hP hc (hx c c (Shrunk.refl c))

theorem Aside.shrinks (hx : Aside x) : Shrinks x := fun _ =>
  hx.keeps fun h hsame => h.trans hsame.shrunk

end

/-! ## §2. Indexes and removals. -/

theorem popName_aside (key : Bytes) : Aside (popName key) := by
  intro c₀
  apply Keeps.get_bind
  intro c hc
  cases popRow c.byName key with
  | error e => exact hc
  | ok r => exact hc.trans ⟨rfl, rfl, rfl, rfl, rfl, rfl⟩

theorem popDescribing_aside (key : Bytes) : Aside (popDescribing key) := by
  intro c₀
  apply Keeps.get_bind
  intro c hc
  cases popRow c.byDescribing key with
  | error e => exact hc
  | ok r => exact hc.trans ⟨rfl, rfl, rfl, rfl, rfl, rfl⟩

theorem removeName_aside (entryMuid containerMuid : Muid) (builder : EntryBuilder) :
    Aside (removeName entryMuid containerMuid builder) := by
  intro c₀
  unfold removeName
  split_ifs
  · refine Keeps.of_bind fun name _ => ?_
    cases name with
    | none => exact Keeps.pure _
    | some name => exact popName_aside _ c₀
  · exact Keeps.pure _

theorem addDescribing_aside (info : BundleInfo) (builder : EntryBuilder)
    (container entryMuid : Muid) : Aside (addDescribing info builder container entryMuid) := by
  intro c₀
  unfold addDescribing
  cases builder.describing? with
  | none => exact Keeps.pure _
  | some describing =>
      exact Keeps.of_bind fun _ _ =>
        Keeps.modify fun c hc => hc.trans ⟨rfl, rfl, rfl, rfl, rfl, rfl⟩

theorem addName_aside (info : BundleInfo) (builder : EntryBuilder) (container entryMuid : Muid) :
    Aside (addName info builder container entryMuid) := by
  intro c₀
  unfold addName
  split_ifs
  · cases builder.value? with
    | none => exact Keeps.pure _
    | some value =>
        cases builder.describing? with
        | none => exact Keeps.pure _
        | some describing =>
            refine Keeps.of_bind fun _ _ => Keeps.of_bind fun name _ => ?_
            cases name with
            | none => exact Keeps.pure _
            | some name =>
                exact Keeps.modify fun c hc => hc.trans ⟨rfl, rfl, rfl, rfl, rfl, rfl⟩
  · exact Keeps.pure _

theorem dropDescribed_aside (info : BundleInfo) (builder : EntryBuilder)
    (container entryMuid : Muid) : Aside (dropDescribed info builder container entryMuid) := by
  intro c₀
  have hlast : ∀ describing : MuidBuilder, Keeps (SameRows c₀) (do
      let describingMuid ← Action.of (resolve info.context describing)
      popDescribing (describingMuid.toBytes ++ entryMuid.toBytes)) := fun describing =>
    Keeps.of_bind fun _ _ => popDescribing_aside _ c₀
  unfold dropDescribed
  cases builder.describing? with
  | none => exact Keeps.pure _
  | some describing =>
      cases builder.hasDeletion with
      | false => exact Keeps.pure _
      | true =>
          simp only
          split_ifs
          · apply Keeps.get_bind
            intro c hc
            cases (irange c.byName ([0] ++ entryMuid.toBytes)
                (ones 16 ++ [0] ++ entryMuid.toBytes)).getLast? with
            | none => exact hlast describing c hc
            | some row =>
                exact Keeps.bind (popName_aside row.1 c₀) (fun _ => hlast describing) c hc
          · exact hlast describing

/-- While history is kept, replacing records a removal and no more. -/
theorem replaceFound_aside (now : Int) (builder : EntryBuilder) (placement : Placement) :
    Aside (replaceFound true now builder placement) := by
  intro c₀
  unfold replaceFound
  by_cases hr : newEntriesReplace builder.behavior = true
  · rw [if_pos hr]
    apply Keeps.get_bind
    intro c hc
    refine Keeps.of_bind (fun _ _ => Keeps.of_bind ?_) c hc
    intro found _
    cases found with
    | none => exact Keeps.pure _
    | some found => exact Keeps.modify fun c hc => hc.trans ⟨rfl, rfl, rfl, rfl, rfl, rfl⟩
  · rw [if_neg hr]
    exact Keeps.pure _

/-! ## §3. Removing an entry. -/

theorem popRow_rows {K V : Type} [LinearOrder K] {t t' : Table K V} {k : K} {v : V}
    (h : popRow t k = .ok (v, t')) : ∀ row ∈ t'.rows, row ∈ t.rows := by
  unfold popRow at h
  cases hv : t.get? k with
  | none =>
      rw [hv] at h
      cases h
  | some w =>
      rw [hv] at h
      injection h with h
      injection h with _ h
      rw [← h]
      exact fun row hrow => (List.mem_filter.mp hrow).1

theorem popEntry_shrinks (entryMuid : Muid) : Shrinks (popEntry entryMuid) := by
  intro c₀
  apply Keeps.get_bind
  intro c hc
  cases hr : popRow c.entries entryMuid with
  | error e => exact hc
  | ok r => exact hc.trans ⟨popRow_rows hr, fun _ h => h, rfl, rfl, rfl⟩

theorem popPlacement_shrinks (location : Option Bytes) : Shrinks (popPlacement location) := by
  intro c₀
  apply Keeps.get_bind
  intro c hc
  refine Keeps.of_bind (fun key _ => ?_) c hc
  intro c' hc'
  cases hr : popRow c.placements key with
  | error e => exact hc'
  | ok r => exact hc.trans ⟨fun _ h => h, popRow_rows hr, rfl, rfl, rfl⟩

theorem removeEntry_shrinks (entryMuid : Muid) : Shrinks (removeEntry entryMuid) := by
  intro c₀
  have hlocation : Keeps (Shrunk c₀) (removeFirstLocation entryMuid) := by
    apply Keeps.get_bind
    intro c hc
    cases irangeFrom c.locations (toLex (entryMuid, epoch)) with
    | nil => exact hc
    | cons row rest =>
        have hdrop : Keeps (Shrunk c₀) (modify fun c : Contents =>
            { c with locations := c.locations.erase row.1 }) :=
          Keeps.modify fun c hc => hc.trans ⟨fun _ h => h, fun _ h => h, rfl, rfl, rfl⟩
        have hpop := Keeps.bind (popPlacement_shrinks row.2 c₀) fun _ => hdrop
        exact Keeps.of_bind (fun _ _ => hpop) c hc
  exact Keeps.bind (popEntry_shrinks _ c₀) fun builder => Keeps.bind hlocation fun _ =>
    Keeps.of_bind fun containerMuid _ => (removeName_aside _ _ _).shrinks c₀

/-- Replacing adds nothing, with history or without. -/
theorem replaceFound_shrinks (retaining : Bool) (now : Int) (builder : EntryBuilder)
    (placement : Placement) : Shrinks (replaceFound retaining now builder placement) := by
  cases retaining with
  | true => exact (replaceFound_aside now builder placement).shrinks
  | false =>
      intro c₀
      unfold replaceFound
      by_cases hr : newEntriesReplace builder.behavior = true
      · rw [if_pos hr]
        apply Keeps.get_bind
        intro c hc
        refine Keeps.of_bind (fun _ _ => Keeps.of_bind ?_) c hc
        intro found _
        cases found with
        | none => exact Keeps.pure _
        | some found => exact removeEntry_shrinks found.address c₀
      · rw [if_neg hr]
        exact Keeps.pure _

/-! ## §4. Adding and moving. -/

section
variable {P : Contents → Prop} {retaining : Bool} {now : Int} {info : BundleInfo} {offset : Nat}

/-- What is kept when an entry is added: the total, what it replaces and its rows are looked at,
the rest writes to the indexes. -/
theorem addEntry_keeps {builder : EntryBuilder} (haside : ∀ {c c'}, P c → SameRows c c' → P c')
    (htotal : ∀ container, Keeps P (addToTotal container builder))
    (hreplace : ∀ placement, Keeps P (replaceFound retaining now builder placement))
    (hstore : ∀ placement bytes, Placement.fromBuilder builder info offset = .ok placement →
      placement.toBytes = .ok bytes → Keeps P (storeEntry builder placement bytes)) :
    Keeps P (addEntry retaining now info offset builder) := by
  refine Keeps.of_bind fun placement hp => Keeps.bind (htotal _) fun _ => ?_
  split_ifs
  · exact Keeps.pure _
  · exact Keeps.of_bind fun bytes hb => Keeps.bind (hreplace _) fun _ =>
      Keeps.bind (hstore placement bytes hp hb) fun _ =>
      Keeps.bind ((addDescribing_aside _ _ _ _).keeps haside) fun _ =>
      Keeps.bind ((addName_aside _ _ _ _).keeps haside) fun _ =>
      (dropDescribed_aside _ _ _ _).keeps haside

/-- What is kept when an entry is moved: only its new place is looked at. -/
theorem addMovement_keeps {builder : MovementBuilder}
    (haside : ∀ {c c'}, P c → SameRows c c' → P c')
    (hplace : ∀ container entryMuid movementMuid expiry old,
      resolve info.context builder.container = .ok container →
      changeMuid info offset = .ok movementMuid →
      Keeps P (placeMoved builder.dest container entryMuid movementMuid expiry old)) :
    Keeps P (addMovement info offset builder) := by
  refine Keeps.of_bind fun container hcontainer => Keeps.of_bind fun entryMuid _ =>
    Keeps.of_bind fun movementMuid hm => Keeps.get_bind fun c hc => ?_
  refine Keeps.of_bind (fun location _ => ?_) c hc
  cases location with
  | none => exact Keeps.pure _
  | some oldPlacement =>
      refine Keeps.of_bind fun old _ => ?_
      split_ifs
      · exact Keeps.pure _
      · exact Keeps.pure _
      · exact Keeps.bind (Keeps.modify fun c hc => haside hc ⟨rfl, rfl, rfl, rfl, rfl, rfl⟩)
          fun _ => hplace _ _ _ _ _ hcontainer hm

/-- **An added entry**: its amount goes to the total first, and that is all for an accumulator
without history. -/
theorem addEntry_stages {builder : EntryBuilder} {c c' : Contents} {u : Unit}
    (h : addEntry retaining now info offset builder c = .ok u c') :
    ∃ placement c₁, Placement.fromBuilder builder info offset = .ok placement ∧
      addToTotal placement.container builder c = .ok () c₁ ∧
      ((builder.behavior = .accumulator ∧ retaining = false ∧ c' = c₁) ∨
        ∃ bytes c₂, placement.toBytes = .ok bytes ∧ Shrunk c₁ c₂ ∧
          (retaining = true → SameRows c₁ c₂) ∧
          SameRows { c₂ with
            entries := c₂.entries.put placement.placer builder
            placements := c₂.placements.put bytes placement.placer
            locations := c₂.locations.put (toLex (placement.placer, placement.placer))
              (some bytes) } c') := by
  obtain ⟨placement, c₀, hp, h1⟩ := Action.bind_eq_ok.mp h
  obtain ⟨hp, hc₀⟩ := of_eq_ok.mp hp
  obtain ⟨u₁, c₁, ht, h2⟩ := Action.bind_eq_ok.mp h1
  rw [hc₀] at ht
  refine ⟨placement, c₁, hp, ht, ?_⟩
  split_ifs at h2 with htotal
  · rw [pure_apply, EStateM.Result.ok.injEq] at h2
    exact Or.inl ⟨htotal.1, htotal.2, h2.2.symm⟩
  · obtain ⟨bytes, c₁', hb, h3⟩ := Action.bind_eq_ok.mp h2
    obtain ⟨hb, hc₁⟩ := of_eq_ok.mp hb
    obtain ⟨u₂, c₂, hr, h4⟩ := Action.bind_eq_ok.mp h3
    obtain ⟨u₃, c₃, hs, h5⟩ := Action.bind_eq_ok.mp h4
    rw [hc₁] at hr
    unfold storeEntry at hs
    rw [modify_apply, EStateM.Result.ok.injEq] at hs
    refine Or.inr ⟨bytes, c₂, hb,
      (replaceFound_shrinks _ _ _ _ c₁).ok hr (Shrunk.refl _), ?_, ?_⟩
    · rintro rfl
      exact (replaceFound_aside _ _ _ c₁).ok hr (SameRows.refl _)
    · -- the rest writes to the indexes
      obtain ⟨u₄, c₄, h₄, h6⟩ := Action.bind_eq_ok.mp h5
      obtain ⟨u₅, c₅, h₅, h7⟩ := Action.bind_eq_ok.mp h6
      have hafter := (addDescribing_aside _ _ _ _ _).ok h₄ (SameRows.refl _)
      have hafter := (addName_aside _ _ _ _ _).ok h₅ hafter
      have hafter := (dropDescribed_aside _ _ _ _ _).ok h7 hafter
      rw [hs.2]
      exact hafter

end

end Memory

end Gink
