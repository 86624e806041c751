/-
  Gink.Database.BoundBundler — building up a bundle and committing it (bound_bundler.py,
  bundler.py).

  A bundler counts what it is handed, keeps what it accepts, and gives out addresses that
  get their timestamp when the bundle is stored.  Only `rollback` closes it: after a commit it
  is as open as before, so whoever commits again, or leaves the `with` block around an
  explicit commit, stores the same changes a second time; and a change that is refused has been
  counted already, so the addresses given out after it are off by one.

  Main results:
    * `changes_stored_once` — while nobody does that, each change is stored at most once, the
      addresses name the stored changes, and nothing more is accepted after a commit;
    * `committed_twice` — a with block around a commit.
-/
import Gink.Proto.Ops

namespace Gink

/-! ## §1. The bundler. -/

/-- What `add_change` may be handed. -/
inductive Addition where
  | change (builder : ChangeBuilder)
  | entry (builder : EntryBuilder)
  | container (builder : ContainerBuilder)

/-- `BoundBundler`, the database aside. -/
structure BoundBundler where
  isOpen : Bool := true
  countItems : Nat := 0
  changes : List ChangeBuilder := []
  /-- `_decomposition.get_info()` -/
  decomposition : Option BundleInfo := none

/-- What comes of `self._database.receive(...)` and all that leads up to it. -/
inductive Receipt where
  /-- raised before anything was stored, or not added -/
  | refused (e : Error)
  | stored (info : BundleInfo)
  /-- stored, and then raised -/
  | raisedAfter (info : BundleInfo) (e : Error)

namespace BoundBundler

/-- `add_change(builder)`: the offset of the address that is returned. -/
def addChange (b : BoundBundler) (builder : Addition) : Except Error Nat × BoundBundler :=
  if b.isOpen = false then (.error (.assertionError "bundle not open"), b)
  else
    let b := { b with countItems := b.countItems + 1 }
    match builder with
    | .entry e =>
        if b.countItems = 1 ∧ e.containerField.timestamp = 0 then
          (.error (.valueError "attempting to add an entry to an undefined container"), b)
        else (.ok b.countItems, { b with changes := b.changes ++ [.entry e] })
    | .change c => (.ok b.countItems, { b with changes := b.changes ++ [c] })
    | .container _ => (.error (.assertionError "isinstance(builder, ChangeBuilder)"), b)

/-- `rollback()`. -/
def rollback (b : BoundBundler) : BoundBundler := { b with isOpen := false }

/-- `commit(_skip_if_empty)`, with the bundle that is stored, if one is. -/
def commit (b : BoundBundler) (skipIfEmpty : Bool) (receipt : Receipt) :
    Except Error Unit × BoundBundler × List OpenBundle :=
  if b.isOpen = false then (.error (.valueError "bundle isn't open"), b, [])
  else if skipIfEmpty = true ∧ b.changes.isEmpty = true then (.ok (), b, [])
  else match receipt with
    | .refused e => (.error e, b, [])
    | .stored info => (.ok (), { b with decomposition := some info }, [⟨info, b.changes⟩])
    | .raisedAfter info e => (.error e, b, [⟨info, b.changes⟩])

end BoundBundler

/-! ## §2. Runs. -/

/-- `Bundler._local.active` of the thread. -/
inductive Active where
  | none
  | this
  | other
  deriving DecidableEq

/-- A bundler, the bundles it has stored and the addresses it has given out, each with the
change it was given for. -/
structure BundlerState where
  bundler : BoundBundler := {}
  active : Active := .none
  stored : List OpenBundle := []
  handed : List (Nat × ChangeBuilder) := []

/-- What is done with a bundler, or by another one of the thread. -/
inductive BundlerStep where
  | addChange (builder : Addition)
  | commit (skipIfEmpty : Bool) (receipt : Receipt)
  | rollback
  | enter
  /-- leaving the block, by an exception or not -/
  | exit (raised : Bool) (receipt : Receipt)
  | otherEnters
  | otherExits

namespace BundlerState

/-- What is accepted is the last of the changes. -/
def addChange (s : BundlerState) (builder : Addition) : Except Error Unit × BundlerState :=
  match s.bundler.addChange builder with
  | (.error e, b) => (.error e, { s with bundler := b })
  | (.ok offset, b) =>
      (.ok (), { s with
        bundler := b
        handed := s.handed ++ b.changes.getLast?.toList.map (offset, ·) })

def commit (s : BundlerState) (skipIfEmpty : Bool) (receipt : Receipt) :
    Except Error Unit × BundlerState :=
  match s.bundler.commit skipIfEmpty receipt with
  | (result, b, stored) => (result, { s with bundler := b, stored := s.stored ++ stored })

/-- One step, and whether it raised; `__exit__` commits or rolls back. -/
def step (s : BundlerState) : BundlerStep → Except Error Unit × BundlerState
  | .addChange builder => s.addChange builder
  | .commit skipIfEmpty receipt => s.commit skipIfEmpty receipt
  | .rollback => (.ok (), { s with bundler := s.bundler.rollback })
  | .enter =>
      if s.active = .none then (.ok (), { s with active := .this })
      else (.error (.runtimeError "already in a context"), s)
  | .exit raised receipt =>
      if s.active ≠ .this then (.error (.assertionError "Bundler._local.active == self"), s)
      else
        let s := { s with active := .none }
        if raised then (.ok (), { s with bundler := s.bundler.rollback })
        else s.commit true receipt
  | .otherEnters => (.ok (), if s.active = .none then { s with active := .other } else s)
  | .otherExits => (.ok (), if s.active = .other then { s with active := .none } else s)

/-- The state after the steps. -/
def run (s : BundlerState) : List BundlerStep → BundlerState
  | [] => s
  | step :: rest => (s.step step).2.run rest

end BundlerState

/-! ## §3. The condition. -/

/-- An addition that is not refused once it has been counted. -/
def Addition.Acceptable (count : Nat) : Addition → Prop
  | .change _ => True
  | .entry e => count = 0 → e.containerField.timestamp ≠ 0
  | .container _ => False

/-- Nothing is raised once the bundle is stored. -/
def Receipt.Clean : Receipt → Prop
  | .raisedAfter _ _ => False
  | _ => True

/-- The step adds or commits. -/
def BundlerStep.Uses : BundlerStep → Prop
  | .addChange _ | .commit _ _ | .exit false _ => True
  | _ => False

/-- Nothing is added to an open bundler or committed with it once it has stored a bundle,
what is added to it is not refused, and nothing is raised after storing. -/
def StepMeets (s : BundlerState) (step : BundlerStep) : Prop :=
  (step.Uses → s.bundler.isOpen = true → s.stored = []) ∧
  match step with
  | .addChange builder => builder.Acceptable s.bundler.countItems
  | .commit _ receipt | .exit false receipt => receipt.Clean
  | _ => True

/-- All steps meet the condition, each in the state it is taken in. -/
def StepsMeet (s : BundlerState) : List BundlerStep → Prop
  | [] => True
  | step :: rest => StepMeets s step ∧ StepsMeet (s.step step).2 rest

/-! ## §4. What steps keep. -/

/-- The count is that of the changes, the addresses are those of the changes they were given
for, and what has been stored is one bundle of all of them. -/
structure Sound (s : BundlerState) : Prop where
  counted : s.bundler.countItems = s.bundler.changes.length
  handed : ∀ x ∈ s.handed, 1 ≤ x.1 ∧ s.bundler.changes[x.1 - 1]? = some x.2
  stored : s.stored = [] ∨ ∃ info, s.bundler.decomposition = some info ∧
    s.stored = [⟨info, s.bundler.changes⟩]

theorem sound_start : Sound {} :=
  ⟨rfl, fun _ h => absurd h List.not_mem_nil, Or.inl rfl⟩

/-- A closed bundler takes nothing. -/
theorem BundlerState.addChange_closed {s : BundlerState} (h : s.bundler.isOpen = false)
    (builder : Addition) :
    s.addChange builder = (.error (.assertionError "bundle not open"), s) := by
  have hbundler :
      s.bundler.addChange builder = (.error (.assertionError "bundle not open"), s.bundler) :=
    if_pos h
  unfold BundlerState.addChange
  rw [hbundler]

/-- A closed bundler commits nothing. -/
theorem BundlerState.commit_closed {s : BundlerState} (h : s.bundler.isOpen = false)
    (skipIfEmpty : Bool) (receipt : Receipt) :
    s.commit skipIfEmpty receipt = (.error (.valueError "bundle isn't open"), s) := by
  have hbundler : s.bundler.commit skipIfEmpty receipt
      = (.error (.valueError "bundle isn't open"), s.bundler, []) := if_pos h
  unfold BundlerState.commit
  rw [hbundler]
  simp only [List.append_nil]

/-- An acceptable addition is the next change, and its address says so. -/
theorem BundlerState.addChange_open {s : BundlerState} {builder : Addition}
    (h : s.bundler.isOpen = true) (hbuilder : builder.Acceptable s.bundler.countItems) :
    ∃ c, s.addChange builder = (.ok (), { s with
      bundler := { s.bundler with
        countItems := s.bundler.countItems + 1
        changes := s.bundler.changes ++ [c] }
      handed := s.handed ++ [(s.bundler.countItems + 1, c)] }) := by
  have hopen : ¬ s.bundler.isOpen = false := by simp [h]
  cases builder with
  | container c => exact absurd hbuilder id
  | change c =>
      refine ⟨c, ?_⟩
      unfold BundlerState.addChange BoundBundler.addChange
      rw [if_neg hopen]
      simp
  | entry e =>
      refine ⟨.entry e, ?_⟩
      have hdefined : ¬ (s.bundler.countItems + 1 = 1 ∧ e.containerField.timestamp = 0) := by
        rintro ⟨hfirst, hzero⟩
        exact hbuilder (by omega) hzero
      unfold BundlerState.addChange BoundBundler.addChange
      rw [if_neg hopen]
      simp only
      rw [if_neg hdefined]
      simp

/-- **An addition** keeps it sound. -/
theorem Sound.addChange {s : BundlerState} (hs : Sound s) {builder : Addition}
    (hfirst : s.bundler.isOpen = true → s.stored = [])
    (hbuilder : builder.Acceptable s.bundler.countItems) : Sound (s.addChange builder).2 := by
  cases hopen : s.bundler.isOpen with
  | false =>
      rw [BundlerState.addChange_closed hopen]
      exact hs
  | true =>
      obtain ⟨c, hadded⟩ := BundlerState.addChange_open hopen hbuilder
      rw [hadded]
      refine ⟨?_, ?_, Or.inl (hfirst hopen)⟩
      · show s.bundler.countItems + 1 = (s.bundler.changes ++ [c]).length
        rw [hs.counted, List.length_append]
        rfl
      · intro x hx
        show 1 ≤ x.1 ∧ (s.bundler.changes ++ [c])[x.1 - 1]? = some x.2
        rcases List.mem_append.mp hx with hx | hx
        · obtain ⟨hpos, hat⟩ := hs.handed x hx
          refine ⟨hpos, ?_⟩
          rw [List.getElem?_append_left (List.getElem?_eq_some_iff.mp hat).1]
          exact hat
        · rw [List.mem_singleton.mp hx]
          refine ⟨Nat.le_add_left 1 _, ?_⟩
          rw [Nat.add_sub_cancel, hs.counted]
          exact List.getElem?_concat_length

/-- **A commit** keeps it sound. -/
theorem Sound.commit {s : BundlerState} (hs : Sound s) {skipIfEmpty : Bool} {receipt : Receipt}
    (hfirst : s.bundler.isOpen = true → s.stored = []) (hclean : receipt.Clean) :
    Sound (s.commit skipIfEmpty receipt).2 := by
  cases hopen : s.bundler.isOpen with
  | false =>
      rw [BundlerState.commit_closed hopen]
      exact hs
  | true =>
      have hnone := hfirst hopen
      have hopen' : ¬ s.bundler.isOpen = false := by simp [hopen]
      unfold BundlerState.commit BoundBundler.commit
      rw [if_neg hopen']
      by_cases hskip : skipIfEmpty = true ∧ s.bundler.changes.isEmpty = true
      · rw [if_pos hskip]
        exact ⟨hs.counted, hs.handed, Or.inl (by rw [hnone]; rfl)⟩
      · rw [if_neg hskip]
        cases receipt with
        | refused e => exact ⟨hs.counted, hs.handed, Or.inl (by rw [hnone]; rfl)⟩
        | raisedAfter info e => exact absurd hclean id
        | stored info => exact ⟨hs.counted, hs.handed, Or.inr ⟨info, rfl, by rw [hnone]; rfl⟩⟩

/-- Which bundler of the thread is active is of no matter. -/
theorem Sound.activated {s : BundlerState} (hs : Sound s) (active : Active) :
    Sound { s with active := active } :=
  ⟨hs.counted, hs.handed, hs.stored⟩

/-- **One step** that meets the condition keeps it sound. -/
theorem Sound.step {s : BundlerState} (hs : Sound s) {step : BundlerStep} (h : StepMeets s step) :
    Sound (s.step step).2 := by
  obtain ⟨hfirst, hfine⟩ := h
  cases step with
  | addChange builder => exact hs.addChange (hfirst trivial) hfine
  | commit skipIfEmpty receipt => exact hs.commit (hfirst trivial) hfine
  | rollback => exact ⟨hs.counted, hs.handed, hs.stored⟩
  | enter =>
      simp only [BundlerState.step]
      by_cases hactive : s.active = .none
      · rw [if_pos hactive]
        exact hs.activated .this
      · rw [if_neg hactive]
        exact hs
  | exit raised receipt =>
      simp only [BundlerState.step]
      by_cases hactive : s.active ≠ .this
      · rw [if_pos hactive]
        exact hs
      · rw [if_neg hactive]
        cases raised with
        | true => exact ⟨hs.counted, hs.handed, hs.stored⟩
        | false => exact (hs.activated .none).commit (hfirst trivial) hfine
  | otherEnters =>
      simp only [BundlerState.step]
      by_cases hactive : s.active = .none
      · rw [if_pos hactive]
        exact hs.activated .other
      · rw [if_neg hactive]
        exact hs
  | otherExits =>
      simp only [BundlerState.step]
      by_cases hactive : s.active = .other
      · rw [if_pos hactive]
        exact hs.activated .none
      · rw [if_neg hactive]
        exact hs

theorem Sound.run {steps : List BundlerStep} :
    ∀ {s : BundlerState}, Sound s → StepsMeet s steps → Sound (s.run steps) := by
  induction steps with
  | nil => exact fun h _ => h
  | cons step rest ih => exact fun h hmeets => ih (h.step hmeets.1) hmeets.2

/-! ## §5. After a commit, and after a rollback. -/

/-- Steps that add or commit are rejected by a closed bundler. -/
theorem BundlerState.step_rejected {s : BundlerState} {step : BundlerStep} (huses : step.Uses)
    (h : s.bundler.isOpen = false) : ∃ e, (s.step step).1 = .error e := by
  cases step with
  | addChange builder => exact ⟨_, congrArg Prod.fst (BundlerState.addChange_closed h builder)⟩
  | commit skipIfEmpty receipt =>
      exact ⟨_, congrArg Prod.fst (BundlerState.commit_closed h skipIfEmpty receipt)⟩
  | exit raised receipt =>
      cases raised with
      | true => exact absurd huses id
      | false =>
          simp only [BundlerState.step]
          by_cases hactive : s.active ≠ .this
          · rw [if_pos hactive]
            exact ⟨_, rfl⟩
          · rw [if_neg hactive]
            have hleft : ({ s with active := .none } : BundlerState).bundler.isOpen = false := h
            exact ⟨_, congrArg Prod.fst (BundlerState.commit_closed hleft true receipt)⟩
  | rollback => exact absurd huses id
  | enter => exact absurd huses id
  | otherEnters => exact absurd huses id
  | otherExits => exact absurd huses id

/-- A closed bundler stays closed and stores nothing. -/
theorem BundlerState.step_closed {s : BundlerState} (h : s.bundler.isOpen = false)
    (step : BundlerStep) :
    (s.step step).2.bundler.isOpen = false ∧ (s.step step).2.stored = s.stored := by
  cases step with
  | addChange builder =>
      have hadd := BundlerState.addChange_closed h builder
      show (s.addChange builder).2.bundler.isOpen = false ∧
        (s.addChange builder).2.stored = s.stored
      rw [hadd]
      exact ⟨h, rfl⟩
  | commit skipIfEmpty receipt =>
      have hcommit := BundlerState.commit_closed h skipIfEmpty receipt
      show (s.commit skipIfEmpty receipt).2.bundler.isOpen = false ∧
        (s.commit skipIfEmpty receipt).2.stored = s.stored
      rw [hcommit]
      exact ⟨h, rfl⟩
  | rollback => exact ⟨rfl, rfl⟩
  | enter =>
      simp only [BundlerState.step]
      split_ifs <;> exact ⟨h, rfl⟩
  | exit raised receipt =>
      simp only [BundlerState.step]
      by_cases hactive : s.active ≠ .this
      · rw [if_pos hactive]
        exact ⟨h, rfl⟩
      · rw [if_neg hactive]
        cases raised with
        | true => exact ⟨rfl, rfl⟩
        | false =>
            have hleft : ({ s with active := .none } : BundlerState).bundler.isOpen = false := h
            have hcommit := BundlerState.commit_closed hleft true receipt
            show (BundlerState.commit _ true receipt).2.bundler.isOpen = false ∧ _
            rw [hcommit]
            exact ⟨h, rfl⟩
  | otherEnters =>
      simp only [BundlerState.step]
      split_ifs <;> exact ⟨h, rfl⟩
  | otherExits =>
      simp only [BundlerState.step]
      split_ifs <;> exact ⟨h, rfl⟩

/-- **A rolled-back bundler stores nothing**, whatever is done with it. -/
theorem BundlerState.run_closed {steps : List BundlerStep} :
    ∀ {s : BundlerState}, s.bundler.isOpen = false → (s.run steps).stored = s.stored := by
  induction steps with
  | nil => exact fun _ => rfl
  | cons step rest ih =>
      intro s h
      obtain ⟨hclosed, hstored⟩ := BundlerState.step_closed h step
      exact (ih hclosed).trans hstored

theorem BundlerState.run_append (s : BundlerState) (before after : List BundlerStep) :
    s.run (before ++ after) = (s.run before).run after := by
  induction before generalizing s with
  | nil => rfl
  | cons step rest ih => exact ih _

theorem StepsMeet.append {before after : List BundlerStep} :
    ∀ {s : BundlerState}, StepsMeet s (before ++ after) → StepsMeet (s.run before) after := by
  induction before with
  | nil => exact fun h => h
  | cons step rest ih => exact fun h => ih h.2

/-! ## §6. Stored at most once. -/

/-- Each change is at the offset after those before it. -/
theorem mem_opsFrom_of_getElem? {info : BundleInfo} {changes : List ChangeBuilder}
    {c : ChangeBuilder} : ∀ {offset i : Nat}, changes[i]? = some c →
      (⟨info, offset + i, c⟩ : Op) ∈ opsFrom info offset changes := by
  induction changes with
  | nil => exact fun h => absurd h (by simp)
  | cons change rest ih =>
      intro offset i h
      cases i with
      | zero =>
          have hfirst : change = c := Option.some.inj h
          rw [hfirst]
          exact List.mem_cons_self
      | succ i =>
          have hrest : (⟨info, offset + 1 + i, c⟩ : Op) ∈ opsFrom info (offset + 1) rest := ih h
          have hoffset : offset + (i + 1) = offset + 1 + i := by omega
          rw [hoffset]
          exact List.mem_cons_of_mem _ hrest

/-- What has been stored, at most one bundle. -/
theorem Sound.stored_length {s : BundlerState} (hs : Sound s) : s.stored.length ≤ 1 := by
  rcases hs.stored with h | ⟨info, -, h⟩
  · rw [h]
    exact Nat.zero_le _
  · rw [h]
    exact le_refl _

/-- The addresses name the stored changes. -/
theorem Sound.names {s : BundlerState} (hs : Sound s) {x : Nat × ChangeBuilder}
    (hx : x ∈ s.handed) {b : OpenBundle} (hb : b ∈ s.stored) :
    s.bundler.decomposition = some b.info ∧ (⟨b.info, x.1, x.2⟩ : Op) ∈ b.ops := by
  rcases hs.stored with h | ⟨info, hinfo, h⟩
  · rw [h] at hb
    exact absurd hb List.not_mem_nil
  · rw [h] at hb
    rw [List.mem_singleton.mp hb]
    refine ⟨hinfo, ?_⟩
    obtain ⟨hpos, hat⟩ := hs.handed x hx
    have hop := @mem_opsFrom_of_getElem? info _ _ 1 _ hat
    have hoffset : 1 + (x.1 - 1) = x.1 := by omega
    rw [hoffset] at hop
    exact hop

/-- **A bundler's changes are stored at most once**, and the addresses it gave out name them;
once they are, everything that adds or commits is rejected, and once it is rolled back
nothing more is stored.  So it is as long as nothing is added to a bundler, or committed with it,
that is still open after it has stored its bundle, no addition is refused once counted, and
nothing is raised after storing. -/
theorem changes_stored_once (steps : List BundlerStep) (h : StepsMeet {} steps) :
    (∀ n, ((BundlerState.run {} steps).stored.filter (n < ·.changes.length)).length ≤ 1)
    ∧ (∀ x ∈ (BundlerState.run {} steps).handed, ∀ b ∈ (BundlerState.run {} steps).stored,
        (BundlerState.run {} steps).bundler.decomposition = some b.info
        ∧ (⟨b.info, x.1, x.2⟩ : Op) ∈ b.ops)
    ∧ (∀ before step after, steps = before ++ step :: after → step.Uses →
        (BundlerState.run {} before).stored ≠ [] →
        ∃ e, ((BundlerState.run {} before).step step).1 = .error e)
    ∧ (∀ before after, steps = before ++ after →
        (BundlerState.run {} before).bundler.isOpen = false →
        (BundlerState.run {} steps).stored = (BundlerState.run {} before).stored) := by
  have hs : Sound (BundlerState.run {} steps) := sound_start.run h
  refine ⟨?_, ?_, ?_, ?_⟩
  · intro n
    exact (List.length_filter_le _ _).trans hs.stored_length
  · intro x hx b hb
    exact hs.names hx hb
  · intro before step after hsteps huses hstored
    rw [hsteps] at h
    have hmeets : StepMeets (BundlerState.run {} before) step := h.append.1
    have hclosed : (BundlerState.run {} before).bundler.isOpen = false := by
      by_contra hopen
      exact hstored (hmeets.1 huses (by simpa using hopen))
    exact BundlerState.step_rejected huses hclosed
  · intro before after hsteps hclosed
    rw [hsteps, BundlerState.run_append]
    exact BundlerState.run_closed hclosed

/-- A change is added and committed, and the bundler closed; then one more is tried. -/
def committedThenClosed : List BundlerStep :=
  [.addChange (.change .unset), .commit true (.stored ⟨10, 7, 10, 0, [], ""⟩), .rollback,
    .addChange (.change .unset)]

theorem meets_committedThenClosed : StepsMeet {} committedThenClosed :=
  ⟨⟨fun _ _ => rfl, trivial⟩, ⟨fun _ _ => rfl, trivial⟩, ⟨fun h => absurd h id, trivial⟩,
    ⟨fun _ h => absurd h (by decide), trivial⟩, trivial⟩

theorem changes_stored_once_closed :
    (∀ n, ((BundlerState.run {} committedThenClosed).stored.filter
        (n < ·.changes.length)).length ≤ 1)
    ∧ (BundlerState.run {} committedThenClosed).stored.length = 1 :=
  ⟨(changes_stored_once committedThenClosed meets_committedThenClosed).1, rfl⟩

/-- A `with` block with a commit in it. -/
def committedInside : List BundlerStep :=
  [.enter, .addChange (.change .unset), .commit true (.stored ⟨10, 7, 10, 0, [], ""⟩),
    .exit false (.stored ⟨20, 7, 10, 10, [], ""⟩)]

/-- **The first change is stored twice**: leaving the block commits again. -/
theorem committed_twice :
    ((BundlerState.run {} committedInside).stored.filter (0 < ·.changes.length)).length = 2
    ∧ (BundlerState.run {} committedInside).stored.map (·.info.timestamp) = [10, 20] :=
  ⟨rfl, rfl⟩

end Gink
