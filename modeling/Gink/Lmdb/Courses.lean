/-
  Gink.Lmdb.Courses — where the entries of an `LmdbStore` have been, one place after the other
  (lmdb_store.py).

  The locations table has a row for the change that added an entry and one for every movement
  that was carried out.  A movement starts from the last row of its entry and goes past it, so
  each placement is left at most once, by the change that follows it.

  Main results:
    * `Courses.step` — one change of an ordered container keeps this.
    * `runCalls_courses` — so it holds after any calls whose bundles differ in time.
-/
import Gink.Lmdb.Keyed
import Gink.Lmdb.Slices

namespace Gink

namespace Lmdb

/-! ## §1. Courses. -/

/-- The change at the address `m` put the entry `e` somewhere, or removed it. -/
def Located (c : Contents) (e m : Muid) : Prop := ∃ value, (locationKey e m, value) ∈ c.locations.rows

/-- **The courses of the entries**: each starts with the entry's own address and goes up, no
change belongs to two of them, every placement is a stop, and a removal leads from one stop to
the next. -/
structure Courses (c : Contents) : Prop where
  stops : ∀ row ∈ c.locations.rows, ∃ e m : Muid, row.1 = locationKey e m ∧ e ≤ m ∧
    m.timeField.val < 2 ^ 52 - 1 ∧ (c.entries.get? e.toBytes).isSome ∧
    (row.2 ≠ [] → Placement.placerSlice row.2 = m.toBytes)
  start : ∀ e : Muid, (c.entries.get? e.toBytes).isSome → Located c e e
  owner : ∀ e e' m, Located c e m → Located c e' m → e = e'
  placed : ∀ row ∈ c.placements.rows, ∃ e m : Muid, row.2 = e.toBytes ∧
    Placement.placerSlice row.1 = m.toBytes ∧ Located c e m
  removed : ∀ row ∈ c.removals.rows, ∃ container p m e : Muid,
    row.1 = (RemovalKey.mk container p m).toBytes ∧ Located c e p ∧ Located c e m ∧ p < m ∧
      ∀ q, Located c e q → p < q → m ≤ q

theorem Courses.empty : Courses {} where
  stops := fun row hrow => absurd hrow List.not_mem_nil
  start := fun e he => absurd he (by simp)
  owner := fun e e' m ⟨value, h⟩ => absurd h List.not_mem_nil
  placed := fun row hrow => absurd hrow List.not_mem_nil
  removed := fun row hrow => absurd hrow List.not_mem_nil

/-- A stop of the same time as `a` comes before `a`. -/
def Fresh (c : Contents) (a : Muid) : Prop :=
  ∀ e m, Located c e m → m.timeField = a.timeField → m < a

section
variable {c c' : Contents} {e e' m m' a : Muid}

theorem locationKey_inj : locationKey e m = locationKey e' m' ↔ e = e' ∧ m = m' := by
  unfold locationKey
  constructor
  · intro h
    obtain ⟨he, hm⟩ := List.append_inj h (by simp)
    exact ⟨Muid.toBytes_injective he, Muid.toBytes_injective hm⟩
  · rintro ⟨rfl, rfl⟩
    rfl

theorem Courses.located (h : Courses c) (hl : Located c e m) :
    e ≤ m ∧ m.timeField.val < 2 ^ 52 - 1 ∧ (c.entries.get? e.toBytes).isSome := by
  obtain ⟨value, hrow⟩ := hl
  obtain ⟨e', m', hkey, hle, hordinary, hstored, -⟩ := h.stops _ hrow
  obtain ⟨rfl, rfl⟩ := locationKey_inj.mp hkey
  exact ⟨hle, hordinary, hstored⟩

theorem located_put {value : Bytes} (hlocations : c'.locations = c.locations.put (locationKey e m) value) :
    Located c' e' m' ↔ (e' = e ∧ m' = m) ∨ Located c e' m' := by
  unfold Located
  rw [hlocations]
  constructor
  · rintro ⟨v, hrow⟩
    rcases Table.mem_rows_put.mp hrow with heq | ⟨-, hrow⟩
    · exact Or.inl (locationKey_inj.mp (Prod.mk.inj heq).1)
    · exact Or.inr ⟨v, hrow⟩
  · rintro (⟨rfl, rfl⟩ | ⟨v, hrow⟩)
    · exact ⟨value, Table.mem_rows_put.mpr (Or.inl rfl)⟩
    · by_cases hsame : locationKey e' m' = locationKey e m
      · exact ⟨value, Table.mem_rows_put.mpr (Or.inl (by rw [hsame]))⟩
      · exact ⟨v, Table.mem_rows_put.mpr (Or.inr ⟨hsame, hrow⟩)⟩

/-- **The last stop** of an entry. -/
theorem Courses.last (h : Courses c) {row : Bytes × Bytes}
    (hlast : toLast c.locations e.toBytes = some row) :
    ∃ p, row.1 = locationKey e p ∧ Located c e p ∧ (∀ q, Located c e q → q ≤ p) ∧
      (row.2 ≠ [] → Placement.placerSlice row.2 = p.toBytes) := by
  have hshort : ∀ r ∈ c.locations.rows, ∀ x, r.1 = e.toBytes ++ x → x < List.replicate 40 255 := by
    intro r hr x hx
    obtain ⟨e', m, hkey, -⟩ := h.stops r hr
    rw [hkey] at hx
    obtain ⟨-, hm⟩ := List.append_inj hx (by simp)
    rw [← hm]
    exact Bytes.lt_replicate_of_length_lt (by simp)
  rw [toLast_eq_lastWhere _ _ hshort] at hlast
  obtain ⟨hrow, hpre, hmax⟩ := Table.lastWhere_eq_some_iff.mp hlast
  obtain ⟨e', p, hkey, -, -, -, hplacer⟩ := h.stops row hrow
  have hsame : e = e' := by
    have hpart := List.isPrefixOf_iff_prefix.mp hpre
    rw [hkey] at hpart
    exact Muid.toBytes_injective
      (Bytes.prefix_unique (by simp) hpart (List.prefix_append _ _))
  subst hsame
  refine ⟨p, hkey, ⟨row.2, hkey ▸ hrow⟩, ?_, hplacer⟩
  rintro q ⟨value, hq⟩
  have hle := hmax _ hq (List.isPrefixOf_iff_prefix.mpr (List.prefix_append _ _))
  rw [hkey] at hle
  exact Muid.toBytes_le_iff.mp ((Bytes.append_le_append_left_iff _ _ _).mp hle)

end

/-! ## §2. One change. -/

section
variable {lib : Externals} {committed c c' : Contents} {info : BundleInfo} {offset : Nat}
  {change : ChangeBuilder} {seen seen' : List Muid} {a : Muid}

/-- An entry that is added starts a course. -/
theorem Courses.added (h : Courses c) {builder : EntryBuilder} {bytes : Bytes}
    (hfresh : Fresh c a) (hordinary : a.timeField.val < 2 ^ 52 - 1)
    (hplacer : Placement.placerSlice bytes = a.toBytes)
    (hentries : c'.entries = c.entries.put a.toBytes builder)
    (hplacements : c'.placements = c.placements.put bytes a.toBytes)
    (hlocations : c'.locations = c.locations.put (locationKey a a) bytes)
    (hremovals : c'.removals = c.removals) : Courses c' := by
  have hold : ∀ {e m}, Located c e m → Located c' e m := fun hl =>
    (located_put hlocations).mpr (Or.inr hl)
  have hnew : Located c' a a := (located_put hlocations).mpr (Or.inl ⟨rfl, rfl⟩)
  have hunused : ∀ e, ¬ Located c e a := fun e hl => absurd (hfresh e a hl rfl) (lt_irrefl a)
  have hunstored : ¬ (c.entries.get? a.toBytes).isSome := fun hs => hunused a (h.start a hs)
  have hstored : ∀ e : Muid, (c'.entries.get? e.toBytes).isSome ↔
      e = a ∨ (c.entries.get? e.toBytes).isSome := by
    intro e
    rw [hentries, Table.get?_put]
    by_cases he : e = a
    · simp [he]
    · simp [he]
  refine ⟨?_, ?_, ?_, ?_, ?_⟩
  · intro row hrow
    rw [hlocations] at hrow
    rcases Table.mem_rows_put.mp hrow with rfl | ⟨-, hrow⟩
    · exact ⟨a, a, rfl, le_refl a, hordinary, (hstored a).mpr (Or.inl rfl), fun _ => hplacer⟩
    · obtain ⟨e, m, hkey, hle, hm, hs, hp⟩ := h.stops row hrow
      exact ⟨e, m, hkey, hle, hm, (hstored e).mpr (Or.inr hs), hp⟩
  · intro e he
    rcases (hstored e).mp he with rfl | hs
    · exact hnew
    · exact hold (h.start e hs)
  · intro e e' m he he'
    rcases (located_put hlocations).mp he with ⟨rfl, rfl⟩ | he
    · rcases (located_put hlocations).mp he' with ⟨rfl, -⟩ | he'
      · rfl
      · exact absurd he' (hunused e')
    · rcases (located_put hlocations).mp he' with ⟨rfl, rfl⟩ | he'
      · exact absurd he (hunused e)
      · exact h.owner e e' m he he'
  · intro row hrow
    rw [hplacements] at hrow
    rcases Table.mem_rows_put.mp hrow with rfl | ⟨-, hrow⟩
    · exact ⟨a, a, rfl, hplacer, hnew⟩
    · obtain ⟨e, m, hvalue, hm, hl⟩ := h.placed row hrow
      exact ⟨e, m, hvalue, hm, hold hl⟩
  · intro row hrow
    rw [hremovals] at hrow
    obtain ⟨container, p, m, e, hkey, hp, hm, hlt, hnext⟩ := h.removed row hrow
    refine ⟨container, p, m, e, hkey, hold hp, hold hm, hlt, ?_⟩
    intro q hq hpq
    rcases (located_put hlocations).mp hq with ⟨rfl, rfl⟩ | hq
    · exact absurd (h.located hp).2.2 hunstored
    · exact hnext q hq hpq

/-- A movement that is carried out goes on with a course. -/
theorem Courses.moved (h : Courses c) {builder : MovementBuilder} {container entryMuid : Muid}
    {entry : EntryBuilder} {row : Bytes × Bytes} {placer : Muid} {placed : Placement}
    (hfresh : Fresh c a) (hordinary : a.timeField.val < 2 ^ 52 - 1)
    (hmovable : Movable c info offset builder container entryMuid a entry row placer placed)
    (hmoved : Moved builder container entryMuid a placed c c') : Courses c' := by
  obtain ⟨p, hkey, hp, hmax, hslice⟩ := h.last hmovable.located
  have hplaced : placed.placer = p := by
    have hparsed := hmovable.parsed
    unfold Placement.fromBytes at hparsed
    obtain ⟨q, hq, hparsed⟩ := bind_eq_ok.mp hparsed
    obtain ⟨middle, -, hparsed⟩ := bind_eq_ok.mp hparsed
    obtain ⟨inside, -, hparsed⟩ := bind_eq_ok.mp hparsed
    obtain ⟨expiry, -, hparsed⟩ := bind_eq_ok.mp hparsed
    rw [hslice hmovable.present, Muid.fromBytes_toBytes] at hq
    rw [← pure_eq_ok.mp hparsed]
    exact (Except.ok.inj hq).symm
  -- the movement comes after the last stop: not before it in time, and new
  have hlt : p < a := by
    have hplacer := hmovable.placer_eq
    rw [hkey] at hplacer
    unfold locationKey at hplacer
    rw [slice_clearance, Muid.fromBytes_toBytes] at hplacer
    have horder := hmovable.inOrder
    rw [← Except.ok.inj hplacer, Muid.timestamp_of_ne (by have := (h.located hp).2.1; omega),
      Muid.timestamp_of_ne (by omega)] at horder
    rcases lt_or_eq_of_le (show p.timeField ≤ a.timeField by
      rw [Fin.le_def]; omega) with hless | hsame
    · exact Muid.lt_iff_toNat_lt.mpr ((Muid.toNat_lt_iff p a).mpr (Or.inl hless))
    · exact hfresh entryMuid p hp hsame
  have hunused : ∀ e, ¬ Located c e a := fun e hl => absurd (hfresh e a hl rfl) (lt_irrefl a)
  obtain ⟨byTime, hcases⟩ := hmoved
  -- what both kinds of movement write
  obtain ⟨value, hlocations, hentries, hremovals, hvalue, hplacements⟩ : ∃ value,
      c'.locations = c.locations.put (locationKey entryMuid a) value ∧ c'.entries = c.entries ∧
      c'.removals = c.removals.put (RemovalKey.mk container placed.placer a).toBytes (some builder) ∧
      (value ≠ [] → Placement.placerSlice value = a.toBytes) ∧
      (c'.placements = c.placements ∨ ∃ bytes, Placement.placerSlice bytes = a.toBytes ∧
        c'.placements = c.placements.put bytes entryMuid.toBytes) := by
    rcases hcases with ⟨-, rfl⟩ | ⟨-, bytes, hb, rfl⟩
    · exact ⟨[], rfl, rfl, rfl, fun hne => absurd rfl hne, Or.inl rfl⟩
    · have hb' := Placement.placer_of_toBytes hb
      exact ⟨bytes, rfl, rfl, rfl, fun _ => hb', Or.inr ⟨bytes, hb', rfl⟩⟩
  have hold : ∀ {e m}, Located c e m → Located c' e m := fun hl =>
    (located_put hlocations).mpr (Or.inr hl)
  have hnew : Located c' entryMuid a := (located_put hlocations).mpr (Or.inl ⟨rfl, rfl⟩)
  refine ⟨?_, ?_, ?_, ?_, ?_⟩
  · intro row hrow
    rw [hlocations] at hrow
    rw [hentries]
    rcases Table.mem_rows_put.mp hrow with rfl | ⟨-, hrow⟩
    · exact ⟨entryMuid, a, rfl, (h.located hp).1.trans hlt.le, hordinary, (h.located hp).2.2, hvalue⟩
    · exact h.stops row hrow
  · intro e he
    rw [hentries] at he
    exact hold (h.start e he)
  · intro e e' m he he'
    rcases (located_put hlocations).mp he with ⟨rfl, rfl⟩ | he
    · rcases (located_put hlocations).mp he' with ⟨rfl, -⟩ | he'
      · rfl
      · exact absurd he' (hunused e')
    · rcases (located_put hlocations).mp he' with ⟨rfl, rfl⟩ | he'
      · exact absurd he (hunused e)
      · exact h.owner e e' m he he'
  · intro row hrow
    have hrow' : row ∈ c.placements.rows ∨ ∃ bytes, Placement.placerSlice bytes = a.toBytes ∧
        row = (bytes, entryMuid.toBytes) := by
      rcases hplacements with hsame | ⟨bytes, hb, hput⟩
      · rw [hsame] at hrow
        exact Or.inl hrow
      · rw [hput] at hrow
        rcases Table.mem_rows_put.mp hrow with rfl | ⟨-, hrow⟩
        · exact Or.inr ⟨bytes, hb, rfl⟩
        · exact Or.inl hrow
    rcases hrow' with hrow | ⟨bytes, hb, rfl⟩
    · obtain ⟨e, m, hv, hm, hl⟩ := h.placed row hrow
      exact ⟨e, m, hv, hm, hold hl⟩
    · exact ⟨entryMuid, a, rfl, hb, hnew⟩
  · intro row hrow
    rw [hremovals] at hrow
    rcases Table.mem_rows_put.mp hrow with rfl | ⟨-, hrow⟩
    · refine ⟨container, p, a, entryMuid, by rw [hplaced], hold hp, hnew, hlt, ?_⟩
      intro q hq hpq
      rcases (located_put hlocations).mp hq with ⟨-, rfl⟩ | hq
      · exact le_refl _
      · exact absurd hpq (not_lt.mpr (hmax q hq))
    · obtain ⟨container, p', m, e, hkey, hp', hm, hlt', hnext⟩ := h.removed row hrow
      refine ⟨container, p', m, e, hkey, hold hp', hold hm, hlt', ?_⟩
      intro q hq hpq
      rcases (located_put hlocations).mp hq with ⟨rfl, rfl⟩ | hq
      · exact (hmax m hm).trans hlt.le
      · exact hnext q hq hpq

/-- What a change of an ordered container leaves of the courses, and where it may stop. -/
theorem Courses.step (h : Courses c) (hfresh : ∀ a, changeMuid info offset = .ok a → Fresh c a)
    (hordinary : info.timestamp.val ≠ 2 ^ 52 - 1) (hqueued : IsQueued change)
    (happlied : applyChange lib committed true info offset seen c change = (seen', .ok c')) :
    Courses c' ∧ ∀ e m, Located c' e m → Located c e m ∨ changeMuid info offset = .ok m := by
  have hordinary : ∀ {a}, changeMuid info offset = .ok a → a.timeField.val < 2 ^ 52 - 1 := by
    intro a hm
    have hfits := a.timeField.isLt
    have htime := (changeMuid_eq_ok hm).1
    omega
  cases applyChange_effect happlied with
  | container builder c containers =>
      exact ⟨⟨h.stops, h.start, h.owner, h.placed, h.removed⟩, fun e m hl => Or.inl hl⟩
  | entry builder c c' containers hadded =>
      obtain ⟨placement, bytes, removals, byTime, totals, indexes, -, hp, hb, -, hkept, -, rfl⟩ :=
        addEntry_ok hadded
      have hm := (Placement.fromBuilder_eq_ok hp).1
      have hremovals : removals = c.removals := by
        apply hkept
        rcases hqueued with hb | hb
        · rw [hb]
          rfl
        · rw [hb]
          rfl
      refine ⟨h.added (hfresh _ hm) (hordinary hm) (Placement.placer_of_toBytes hb) rfl rfl rfl hremovals, ?_⟩
      intro e m hl
      have hput : Located c e m ∨ (e = placement.placer ∧ m = placement.placer) :=
        Or.comm.mp ((located_put (by rfl)).mp hl)
      rcases hput with hl | ⟨-, rfl⟩
      · exact Or.inl hl
      · exact Or.inr hm
  | movement builder c c' happlied =>
      rcases applyMovement_ok happlied with rfl | ⟨container, entryMuid, movementMuid, entry, row,
        placer, placed, hmovable, hmoved⟩
      · exact ⟨h, fun e m hl => Or.inl hl⟩
      · have hm := hmovable.movement_eq
        refine ⟨h.moved (hfresh _ hm) (hordinary hm) hmovable hmoved, ?_⟩
        intro e m hl
        have hput : ∃ value, c'.locations = c.locations.put (locationKey entryMuid movementMuid) value := by
          obtain ⟨byTime, ⟨-, rfl⟩ | ⟨-, bytes, -, rfl⟩⟩ := hmoved
          · exact ⟨_, rfl⟩
          · exact ⟨_, rfl⟩
        obtain ⟨value, hput⟩ := hput
        rcases (located_put hput).mp hl with ⟨-, rfl⟩ | hl
        · exact Or.inr hm
        · exact Or.inl hl
  | clearance builder c c' happlied =>
      obtain ⟨container, clearanceMuid, -, -, rfl⟩ := applyClearance_ok happlied
      exact ⟨⟨h.stops, h.start, h.owner, h.placed, h.removed⟩, fun e m hl => Or.inl hl⟩

/-- The stops of the bundle's time belong to its changes before the offset. -/
def Preceding (c : Contents) (info : BundleInfo) (offset : Nat) : Prop :=
  ∀ e m, Located c e m → m.timeField.val = info.timestamp.val →
    m.medallionField.val = info.medallion.val ∧ m.offsetField.val < offset

theorem Preceding.fresh (h : Preceding c info offset) (hm : changeMuid info offset = .ok a) :
    Fresh c a := by
  intro e m hl htime
  obtain ⟨ht, hmedallion, hoffset, -⟩ := changeMuid_eq_ok hm
  obtain ⟨hsame, hless⟩ := h e m hl (by rw [htime, ht])
  rw [Muid.lt_iff_toNat_lt, Muid.toNat_lt_iff, Fin.lt_def, Fin.lt_def, Fin.lt_def, Fin.ext_iff,
    Fin.ext_iff]
  rw [Fin.ext_iff] at htime
  omega

/-- **The changes of a bundle.** -/
theorem applyChangesFrom_courses (hordinary : info.timestamp.val ≠ 2 ^ 52 - 1) :
    ∀ {changes : List ChangeBuilder} {offset : Nat} {seen seen' : List Muid} {c c' : Contents},
      (∀ change ∈ changes, IsQueued change) → Courses c → Preceding c info offset →
      applyChangesFrom lib committed true info offset changes seen c = (seen', .ok c') →
      Courses c' ∧ ∀ e m, Located c' e m → Located c e m ∨ m.timeField.val = info.timestamp.val := by
  intro changes
  induction changes with
  | nil =>
      intro offset seen seen' c c' _ hc _ h
      simp only [applyChangesFrom, Prod.mk.injEq, Except.ok.injEq] at h
      rw [← h.2]
      exact ⟨hc, fun e m hl => Or.inl hl⟩
  | cons change rest ih =>
      intro offset seen seen' c c' hqueued hc hpreceding h
      unfold applyChangesFrom at h
      cases hone : applyChange lib committed true info offset seen c change with
      | mk seen₁ r =>
          cases r with
          | error e => simp [hone] at h
          | ok c₁ =>
              simp only [hone] at h
              obtain ⟨hc₁, hstops⟩ := hc.step (fun a hm => hpreceding.fresh hm) hordinary
                (hqueued change List.mem_cons_self) hone
              have hnext : Preceding c₁ info (offset + 1) := by
                intro e m hl hsame
                rcases hstops e m hl with hl | hm
                · have := hpreceding e m hl hsame
                  omega
                · obtain ⟨-, hmedallion, hoffset, -⟩ := changeMuid_eq_ok hm
                  omega
              obtain ⟨hc', hrest⟩ := ih (fun x hx => hqueued x (List.mem_cons_of_mem _ hx)) hc₁
                hnext h
              refine ⟨hc', ?_⟩
              intro e m hl
              rcases hrest e m hl with hl | hsame
              · rcases hstops e m hl with hl | hm
                · exact Or.inl hl
                · exact Or.inr (changeMuid_eq_ok hm).1
              · exact Or.inr hsame

end

/-! ## §3. Calls. -/

/-- The changes of the bundle, if it opens, were taken in, or the tables are as they were. -/
def Call.Takes (lib : Externals) (keys : U64 → Except Error Bytes) (call : Call)
    (c c' : Contents) : Prop :=
  c' = c ∨ ∃ b seen seen', call.bundle.opened lib keys = .ok b ∧
    applyChangesFrom lib c true b.info 1 b.changes seen c = (seen', .ok c')

/-- What one more call keeps holds after all calls. -/
theorem runCalls_each {lib : Externals} {P : List Call → Contents → Prop} {calls : List Call}
    {keys : U64 → Except Error Bytes}
    (hstep : ∀ past call c c', past ++ [call] <+: calls → P past c → call.Takes lib keys c c' →
      P (past ++ [call]) c') {s : Store} (happly : s.applyChanges = true)
    (hretain : s.db.retainEntries = true) (hkeys : s.db.symmetricKey = keys)
    (hstart : P [] s.db.contents) : P calls (runCalls lib s calls).db.contents := by
  have hall : ∀ (rest past : List Call) (s : Store), past ++ rest = calls →
      s.applyChanges = true → s.db.retainEntries = true → s.db.symmetricKey = keys →
      P past s.db.contents → P calls (runCalls lib s rest).db.contents := by
    intro rest
    induction rest with
    | nil =>
        intro past s hsplit _ _ _ hp
        rw [List.append_nil] at hsplit
        exact hsplit ▸ hp
    | cons call rest ih =>
        intro past s hsplit happly hretain hkeys hp
        have hpart : past ++ [call] <+: calls := ⟨rest, by rw [← hsplit]; simp⟩
        have hnext : past ++ [call] ++ rest = calls := by rw [← hsplit]; simp
        unfold runCalls
        cases applyBundle_step lib s call.bundle call.callback call.claimChain call.clock with
        | kept hdb hflag _ =>
            have hdb : (call.run lib s).store.db = s.db := hdb
            refine ih (past ++ [call]) _ hnext (hflag.trans happly) (by rw [hdb]; exact hretain)
              (by rw [hdb]; exact hkeys) (hstep past call _ _ hpart hp (Or.inl (by rw [hdb])))
        | committed builder hopen info hinfo _ hw hflag _ =>
            refine ih (past ++ [call]) _ hnext (hflag.trans happly) (hw.retainEntries.trans hretain)
              ?_ (hstep past call _ _ hpart hp (Or.inr ?_))
            · rw [← hkeys]
              funext keyId
              unfold Db.symmetricKey
              rw [show (call.run lib s).store.db.symmetricKeys = _ from hw.symmetricKeys]
            · obtain ⟨changes, hchanges, happlied⟩ := hw.contents
              rw [happly, if_pos rfl, hretain] at happlied
              refine ⟨⟨info, changes⟩, _, _, ?_, happlied⟩
              unfold Decomposition.opened
              rw [hinfo, ← hkeys]
              exact bind_eq_ok.mpr ⟨builder, hopen, bind_eq_ok.mpr ⟨changes, hchanges, rfl⟩⟩
  exact hall calls [] s rfl happly hretain hkeys hstart

/-- The bundle of the call is stamped with this time. -/
def Call.StampedAt (lib : Externals) (call : Call) (time : Nat) : Prop :=
  ∃ info, call.bundle.getInfo lib = .ok info ∧ info.timestamp.val = time

theorem stampedAt_of_opened {lib : Externals} {keys : U64 → Except Error Bytes} {call : Call}
    {b : OpenBundle} (h : call.bundle.opened lib keys = .ok b) :
    call.StampedAt lib b.info.timestamp.val := by
  unfold Decomposition.opened at h
  obtain ⟨builder, hbuilder, h⟩ := bind_eq_ok.mp h
  obtain ⟨changes, -, h⟩ := bind_eq_ok.mp h
  rw [← pure_eq_ok.mp h]
  refine ⟨_, ?_, rfl⟩
  unfold Decomposition.getInfo
  rw [hbuilder]
  rfl

/-- The bundles of different calls differ in time. -/
def DistinctTimes (lib : Externals) (calls : List Call) : Prop :=
  calls.Pairwise fun a b => ∀ time, a.StampedAt lib time → ¬ b.StampedAt lib time

/-- The bundle of the call changes ordered containers only, and is not stamped with the reserved
time. -/
def Call.Queued (lib : Externals) (keys : U64 → Except Error Bytes) (call : Call) : Prop :=
  ∀ b, call.bundle.opened lib keys = .ok b →
    b.info.timestamp.val ≠ 2 ^ 52 - 1 ∧ ∀ change ∈ b.changes, IsQueued change

/-- **The courses after any calls** whose bundles differ in time and change ordered containers:
each stop is one of a bundle that was offered. -/
theorem runCalls_courses {lib : Externals} {calls : List Call} {keys : U64 → Except Error Bytes}
    (hdistinct : DistinctTimes lib calls) (hqueued : ∀ call ∈ calls, call.Queued lib keys)
    {s : Store} (happly : s.applyChanges = true) (hretain : s.db.retainEntries = true)
    (hkeys : s.db.symmetricKey = keys) (hempty : s.db.contents = {}) :
    Courses (runCalls lib s calls).db.contents ∧
      ∀ e m, Located (runCalls lib s calls).db.contents e m →
        ∃ call ∈ calls, call.StampedAt lib m.timeField.val := by
  refine runCalls_each (P := fun past c => Courses c ∧ ∀ e m, Located c e m →
    ∃ call ∈ past, call.StampedAt lib m.timeField.val) ?_ happly hretain hkeys ?_
  · rintro past call c c' hpart ⟨hc, hstops⟩ (rfl | ⟨b, seen, seen', hopen, happlied⟩)
    · refine ⟨hc, ?_⟩
      intro e m hl
      obtain ⟨other, hother, hat⟩ := hstops e m hl
      exact ⟨other, List.mem_append_left _ hother, hat⟩
    · have hcall : call ∈ calls := hpart.subset (by simp)
      obtain ⟨hreserved, hchanges⟩ := hqueued call hcall b hopen
      have hat := stampedAt_of_opened hopen
      -- no bundle before this one has its time
      have hpreceding : Preceding c b.info 1 := by
        intro e m hl hsame
        obtain ⟨other, hother, hotherAt⟩ := hstops e m hl
        have hpair := hdistinct.sublist hpart.sublist
        have hapart := (List.pairwise_append.mp hpair).2.2 other hother call (by simp)
        exact absurd (hsame ▸ hat) (hapart _ hotherAt)
      have htaken := applyChangesFrom_courses hreserved hchanges hc hpreceding happlied
      refine ⟨htaken.1, ?_⟩
      intro e m hl
      rcases htaken.2 e m hl with hl | hsame
      · obtain ⟨other, hother, hotherAt⟩ := hstops e m hl
        exact ⟨other, List.mem_append_left _ hother, hotherAt⟩
      · exact ⟨call, by simp, hsame ▸ hat⟩
  · rw [hempty]
    exact ⟨.empty, fun e m ⟨value, hrow⟩ => absurd hrow List.not_mem_nil⟩

end Lmdb

end Gink
