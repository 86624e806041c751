/-
  Gink.Js.Courses — what becomes of one entry of an ordered container.

  The two JavaScript stores keep the placements of an entry in tables of their own, but a
  movement does the same in both: it removes the entry's last placement, whichever movement
  is newer, and places the entry anew unless it deletes it.  An entry's course is the list
  of its placements and removals.  Each change concerns the course of one entry, so what a
  store holds depends on the order of the changes only through the order of those of each
  entry.
-/
import Gink.Js.IndexedDb
import Gink.Machine.Cells

namespace Gink

namespace Js

/-! ## §1. Courses. -/

/-- What a change does to an entry: it is placed first, or moved. -/
inductive Event where
  | placed (e : Entry)
  | moved (m : Movement)

/-- The entry it concerns. -/
def Event.subject : Event → MuidTuple
  | .placed e => e.entryId
  | .moved m => m.entryId

/-- The placements and removals of an entry so far. -/
structure Course where
  entries : List Entry := []
  removals : List Removal := []

/-- The removal of the placement that a movement has found. -/
def Movement.removal (m : Movement) (found : Entry) : Removal where
  containerId := m.containerId
  removalId := m.movementId
  dest := m.dest
  entryId := m.entryId
  removing := found.placementId

namespace Course

section
variable {κ : Type} [LinearOrder κ] (rank : MuidTuple → κ)

/-- Its last placement, in the order of the table a store looks it up in. -/
def last (c : Course) : Option Entry := c.entries.argmax fun e => rank e.placementId

/-- One event. -/
def act (c : Course) : Event → Course
  | .placed e => { c with entries := c.entries ++ [e] }
  | .moved m =>
      match c.last rank with
      | none => c
      | some found =>
          { entries := if m.dest ≠ 0 then c.entries ++ [IndexedDb.Entry.movedTo found m] else c.entries
            removals := c.removals ++ [m.removal found] }

/-- One event, on the courses of all entries by what a store names them. -/
def step {ι : Type} [DecidableEq ι] (name : MuidTuple → ι) : (ι → Course) → Event → ι → Course :=
  Machine.stepCell (fun e => some (name e.subject)) (act rank)

/-- The courses after some events. -/
def courses {ι : Type} [DecidableEq ι] (name : MuidTuple → ι) (events : List Event) : ι → Course :=
  Machine.run (step rank name) (fun _ => {}) events

variable {rank} {ι : Type} [DecidableEq ι] {name : MuidTuple → ι} {t : ι → Course} {i : ι}

theorem courses_append (l m : List Event) :
    courses rank name (l ++ m) = Machine.run (step rank name) (courses rank name l) m :=
  Machine.run_append _ _ _

theorem step_self {v : Event} (h : name v.subject = i) : step rank name t v i = (t i).act rank v :=
  if_pos (congrArg some h)

theorem step_of_ne {v : Event} (h : name v.subject ≠ i) : step rank name t v i = t i :=
  if_neg fun heq => h (Option.some.inj heq)

/-- A placed entry joins its course. -/
theorem mem_entries_placed {e x : Entry} :
    x ∈ (step rank name t (.placed e) i).entries ↔
      x ∈ (t i).entries ∨ (name e.entryId = i ∧ x = e) := by
  by_cases h : name e.entryId = i
  · rw [step_self (v := .placed e) h]
    simp [act, h]
  · rw [step_of_ne (v := .placed e) h]
    simp [h]

theorem removals_placed {e : Entry} :
    (step rank name t (.placed e) i).removals = (t i).removals := by
  unfold step Machine.stepCell act
  split_ifs <;> rfl

/-- A movement that finds no placement changes nothing. -/
theorem step_moved_none {m : Movement} (h : (t (name m.entryId)).last rank = none) :
    step rank name t (.moved m) = t := by
  funext i
  by_cases hi : name m.entryId = i
  · rw [step_self (v := .moved m) hi, ← hi]
    unfold act
    simp only [h]
  · exact step_of_ne (v := .moved m) hi

/-- One that finds a placement places the entry anew, unless it deletes it. -/
theorem mem_entries_moved {m : Movement} {found x : Entry}
    (h : (t (name m.entryId)).last rank = some found) :
    x ∈ (step rank name t (.moved m) i).entries ↔ x ∈ (t i).entries ∨
      (name m.entryId = i ∧ m.dest ≠ 0 ∧ x = IndexedDb.Entry.movedTo found m) := by
  by_cases hi : name m.entryId = i
  · rw [step_self (v := .moved m) hi, ← hi]
    unfold act
    simp only [h]
    by_cases hdest : m.dest = 0
    · simp [hdest]
    · simp [hdest]
  · rw [step_of_ne (v := .moved m) hi]
    simp [hi]

/-- And records the removal of what it found. -/
theorem mem_removals_moved {m : Movement} {found : Entry} {r : Removal}
    (h : (t (name m.entryId)).last rank = some found) :
    r ∈ (step rank name t (.moved m) i).removals ↔ r ∈ (t i).removals ∨
      (name m.entryId = i ∧ r = m.removal found) := by
  by_cases hi : name m.entryId = i
  · rw [step_self (v := .moved m) hi, ← hi]
    unfold act
    simp [h]
  · rw [step_of_ne (v := .moved m) hi]
    simp [hi]

theorem last_mem {c : Course} {e : Entry} (h : c.last rank = some e) : e ∈ c.entries :=
  List.argmax_mem (Option.mem_def.mpr h)

/-- A placement that no other one reaches is the last. -/
theorem last_eq {c : Course} {e : Entry} (he : e ∈ c.entries)
    (hmax : ∀ x ∈ c.entries, rank e.placementId ≤ rank x.placementId → x = e) :
    c.last rank = some e := by
  unfold last
  cases hbest : c.entries.argmax fun e => rank e.placementId with
  | none =>
      rw [List.argmax_eq_none] at hbest
      rw [hbest] at he
      exact absurd he List.not_mem_nil
  | some best =>
      have hle := List.le_of_mem_argmax he (Option.mem_def.mpr hbest)
      exact congrArg some (hmax best (List.argmax_mem (Option.mem_def.mpr hbest)) hle)

end

/-- The same placements and removals. -/
def Same (c d : Course) : Prop :=
  (∀ e, e ∈ c.entries ↔ e ∈ d.entries) ∧ ∀ r, r ∈ c.removals ↔ r ∈ d.removals

theorem Same.refl (c : Course) : c.Same c := ⟨fun _ => Iff.rfl, fun _ => Iff.rfl⟩

end Course

/-! ## §2. Events of a history. -/

/-- A change of an ordered container, which purges nothing. -/
def IsOrdered : ChangeBuilder → Prop
  | .entry b => b.behavior = .sequence ∨ b.behavior = .edgeType
  | .movement b => b.purge = false
  | .clearance b => b.purge = false
  | .container _ | .unset => True

instance : DecidablePred IsOrdered := fun change =>
  match change with
  | .entry b => inferInstanceAs (Decidable (b.behavior = .sequence ∨ b.behavior = .edgeType))
  | .movement b => inferInstanceAs (Decidable (b.purge = false))
  | .clearance b => inferInstanceAs (Decidable (b.purge = false))
  | .container _ | .unset => isTrue trivial

/-- All changes of the history are of that kind. -/
def OrderedHistory (history : List OpenBundle) : Prop :=
  ∀ op ∈ allOps history, IsOrdered op.change

instance : DecidablePred OrderedHistory := fun history =>
  inferInstanceAs (Decidable (∀ op ∈ allOps history, IsOrdered op.change))

/-- The event that a change is, with the record a store makes of an entry. -/
def eventOf (build : EntryBuilder → BundleInfo → Nat → Except JsError Entry) (op : Op) :
    Option Event :=
  match op.change with
  | .entry b => (build b op.info op.offset).toOption.map .placed
  | .movement b => (extractMovement b op.info op.offset).toOption.map .moved
  | _ => none

/-- The events of a history. -/
def eventsOf (build : EntryBuilder → BundleInfo → Nat → Except JsError Entry)
    (history : List OpenBundle) : List Event :=
  (allOps history).filterMap (eventOf build)

/-! ## §3. Orders that make no difference. -/

/-- The event deletes the entry. -/
def Event.Deletes : Event → Prop
  | .placed _ => False
  | .moved m => m.dest = 0

instance : DecidablePred Event.Deletes := fun v =>
  match v with
  | .placed _ => isFalse id
  | .moved m => inferInstanceAs (Decidable (m.dest = 0))

/-- The changes of one entry in two runs: they are in the same order, or the entry is placed
and then only deleted, any number of times. -/
def SameTurns (l l' : List Event) : Prop :=
  l = l' ∨ ∃ e dels dels', l = .placed e :: dels ∧ l' = .placed e :: dels' ∧ dels.Perm dels' ∧
    ∀ d ∈ dels, d.Deletes

section
variable {κ : Type} [LinearOrder κ] {rank : MuidTuple → κ}

/-- Deletions of a placed entry only record removals of that placement. -/
theorem Course.run_deletes {e : Entry} {dels : List Event} :
    ∀ {removals : List Removal}, (∀ d ∈ dels, d.Deletes) →
      ∃ more : List Removal, Machine.run (Course.act rank) ⟨[e], removals⟩ dels
          = ⟨[e], removals ++ more⟩ ∧
        ∀ r, r ∈ more ↔ ∃ m, .moved m ∈ dels ∧ r = m.removal e := by
  induction dels with
  | nil => exact fun _ => ⟨[], by simp [Machine.run], by simp⟩
  | cons d rest ih =>
      intro removals hdel
      cases d with
      | placed x => exact absurd (hdel _ List.mem_cons_self) id
      | moved m =>
          have hdest : m.dest = 0 := hdel _ List.mem_cons_self
          have hstep : Course.act rank ⟨[e], removals⟩ (.moved m)
              = ⟨[e], removals ++ [m.removal e]⟩ := by
            have hlast : Course.last rank ⟨[e], removals⟩ = some e := rfl
            unfold Course.act
            simp only [hlast, hdest, ne_eq, not_true_eq_false, if_false]
          obtain ⟨more, hrun, hmore⟩ := @ih (removals ++ [m.removal e])
            fun d hd => hdel d (List.mem_cons_of_mem _ hd)
          refine ⟨m.removal e :: more, ?_, fun r => ?_⟩
          · show Machine.run _ (Course.act rank ⟨[e], removals⟩ (.moved m)) rest = _
            rw [hstep, hrun, List.append_assoc]
            rfl
          · rw [List.mem_cons, hmore]
            constructor
            · rintro (rfl | ⟨n, hn, rfl⟩)
              · exact ⟨m, List.mem_cons_self, rfl⟩
              · exact ⟨n, List.mem_cons_of_mem _ hn, rfl⟩
            · rintro ⟨n, hn, rfl⟩
              rcases List.mem_cons.mp hn with hn | hn
              · injection hn with hn
                exact Or.inl (hn ▸ rfl)
              · exact Or.inr ⟨n, hn, rfl⟩

/-- **Such orders lead to the same course.** -/
theorem SameTurns.same {l l' : List Event} (h : SameTurns l l') :
    (Machine.run (Course.act rank) {} l).Same (Machine.run (Course.act rank) {} l') := by
  rcases h with rfl | ⟨e, dels, dels', rfl, rfl, hperm, hdel⟩
  · exact Course.Same.refl _
  · obtain ⟨more, hrun, hmore⟩ := @Course.run_deletes _ _ rank e dels [] hdel
    obtain ⟨more', hrun', hmore'⟩ := @Course.run_deletes _ _ rank e dels' []
      fun d hd => hdel d (hperm.mem_iff.mpr hd)
    show (Machine.run (Course.act rank) ⟨[e], []⟩ dels).Same
      (Machine.run (Course.act rank) ⟨[e], []⟩ dels')
    rw [hrun, hrun']
    refine ⟨fun _ => Iff.rfl, fun r => ?_⟩
    simp only [List.nil_append]
    rw [hmore, hmore']
    simp only [hperm.mem_iff]

/-- The events of one entry. -/
def turns {ι : Type} [DecidableEq ι] (name : MuidTuple → ι) (i : ι) (events : List Event) :
    List Event :=
  Machine.concerning (fun e => some (name e.subject)) i events

/-- **Runs that give every entry the same turns** lead to the same courses. -/
theorem courses_same {ι : Type} [DecidableEq ι] {name : MuidTuple → ι} {l l' : List Event}
    (h : ∀ i, SameTurns (turns name i l) (turns name i l')) (i : ι) :
    (Course.courses rank name l i).Same (Course.courses rank name l' i) :=
  Machine.run_stepCell_rel (fun i => (h i).same) i

end

end Js

end Gink
