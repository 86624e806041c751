/-
  Gink.Proto.Normalised — what `normalize_entry_builder` makes of an entry (coding.py).

  A reference that names its timestamp and medallion, with an offset that is not negative,
  is read alike in every context.  Normalising leaves an entry with such references alone,
  unless one reached back beyond the start of its bundle: the address it stood for has a
  negative offset, which is read as a relative one again.
-/
import Gink.Proto.Occupant

namespace Gink

/-! ## §1. Addresses as references. -/

theorem Muid.make_self (m : Muid) : Muid.make m.timestamp m.medallion m.offset = .ok m := by
  have htime := m.timeField.isLt
  have hmedallion := m.medallionField.isLt
  have hoffset := m.offsetField.isLt
  rw [Muid.make_eq_ok]
  refine ⟨?_, ?_, ?_, ?_⟩
  · unfold Muid.timestamp
    split_ifs <;> omega
  · unfold Muid.medallion
    split_ifs <;> omega
  · unfold Muid.offset
    split_ifs <;> omega
  · obtain ⟨time, medallion, offset⟩ := m
    simp only [Muid.mk.injEq, Fin.ext_iff]
    refine ⟨?_, ?_, ?_⟩
    · have hval := Muid.val_field (2 ^ 52) (Muid.timestamp ⟨time, medallion, offset⟩)
      unfold Muid.timestamp at hval ⊢
      simp only at hval htime ⊢
      split_ifs at hval ⊢ <;> omega
    · have hval := Muid.val_field (2 ^ 44) (Muid.medallion ⟨time, medallion, offset⟩)
      unfold Muid.medallion at hval ⊢
      simp only at hval hmedallion ⊢
      split_ifs at hval ⊢ <;> omega
    · have hval := Muid.val_field (2 ^ 32) (Muid.offset ⟨time, medallion, offset⟩)
      unfold Muid.offset at hval ⊢
      simp only at hval hoffset ⊢
      split_ifs at hval ⊢ <;> omega

theorem Muid.offset_make {t d o : Int} {m : Muid} (h : Muid.make t d o = .ok m)
    (hsmall : -2 ^ 31 ≤ o ∧ o < 2 ^ 31) : m.offset = o := by
  obtain ⟨-, -, -, rfl⟩ := Muid.make_eq_ok.mp h
  have hval := Muid.val_field (2 ^ 32) o
  unfold Muid.offset
  simp only
  split_ifs <;> omega

theorem Muid.timestamp_make {t d o : Int} {m : Muid} (h : Muid.make t d o = .ok m) (ht : t ≠ 0) :
    m.timestamp ≠ 0 := by
  obtain ⟨hrange, -, -, rfl⟩ := Muid.make_eq_ok.mp h
  have hval := Muid.val_field (2 ^ 52) t
  unfold Muid.timestamp
  simp only
  split_ifs <;> omega

theorem Muid.medallion_make {t d o : Int} {m : Muid} (h : Muid.make t d o = .ok m) (hd : d ≠ 0) :
    m.medallion ≠ 0 := by
  obtain ⟨-, hrange, -, rfl⟩ := Muid.make_eq_ok.mp h
  have hval := Muid.val_field (2 ^ 44) d
  unfold Muid.medallion
  simp only
  split_ifs <;> omega

/-! ## §2. References that are resolved. -/

/-- The offset a reference stands for, read at the offset of an address. -/
def MuidBuilder.offsetAt (own : Muid) (r : MuidBuilder) : Int :=
  if r.offset < 0 then own.offset + r.offset else r.offset

/-- The reference does not reach back beyond the start of the bundle. -/
def MuidBuilder.WithinBundle (own : Muid) (r : MuidBuilder) : Prop :=
  0 ≤ r.offset ∨ 0 ≤ own.offset + r.offset

/-- The offset fits its protobuf field. -/
def MuidBuilder.Fits (r : MuidBuilder) : Prop := -2 ^ 31 ≤ r.offset ∧ r.offset < 2 ^ 31

variable {own other m : Muid} {r r' : MuidBuilder}

theorem Muid.offset_bounds (m : Muid) : -2 ^ 31 ≤ m.offset ∧ m.offset < 2 ^ 31 := by
  have hoffset := m.offsetField.isLt
  unfold Muid.offset
  split_ifs <;> omega

theorem resolve_eq_ok : resolve own.context r = .ok m ↔
    orElse r.timestamp own.timestamp ≠ 0 ∧ orElse r.medallion own.medallion ≠ 0 ∧
      Muid.make (orElse r.timestamp own.timestamp) (orElse r.medallion own.medallion)
        (r.offsetAt own) = .ok m := by
  have hrelative : orElse 0 r.offset = r.offset := if_pos rfl
  unfold resolve Muid.create MuidBuilder.offsetAt
  simp only [hrelative]
  split_ifs with hneg
  · simp only [Muid.context, orRaise_some, Except.map, bind_eq_ok, ensure_eq_ok]
    simp [and_left_comm]
    exact and_congr decide_eq_true_iff (and_congr decide_eq_true_iff Iff.rfl)
  · simp only [Muid.context, pure_eq_ok, bind_eq_ok, ensure_eq_ok]
    simp [and_left_comm]
    exact and_congr decide_eq_true_iff (and_congr decide_eq_true_iff Iff.rfl)

/-- An address as a reference: it is read as itself everywhere unless its offset is negative. -/
theorem resolve_putInto (htime : m.timestamp ≠ 0) (hmedallion : m.medallion ≠ 0) :
    (∀ other : Muid, resolve other.context m.putInto = .ok m) ↔ 0 ≤ m.offset := by
  have ht : ∀ other : Muid, orElse m.putInto.timestamp other.timestamp = m.timestamp :=
    fun _ => if_neg htime
  have hd : ∀ other : Muid, orElse m.putInto.medallion other.medallion = m.medallion :=
    fun _ => if_neg hmedallion
  constructor
  · intro hall
    by_contra hneg
    have hbounds := m.offset_bounds
    -- read at offset 1 it is the address after
    have hone := (resolve_eq_ok.mp (hall ⟨0, 0, 1⟩)).2.2
    have hat : m.putInto.offsetAt ⟨0, 0, 1⟩ = 1 + m.offset := if_pos (not_le.mp hneg)
    rw [hat] at hone
    have hsame := Muid.offset_make hone (by omega)
    omega
  · intro hoffset other
    have hat : m.putInto.offsetAt other = m.offset := if_neg (not_lt.mpr hoffset)
    rw [resolve_eq_ok, ht, hd, hat]
    exact ⟨htime, hmedallion, m.make_self⟩

/-- The offset of the address that a reference is read as. -/
theorem offset_of_resolve (hown : 0 ≤ own.offset) (hr : r.Fits)
    (h : resolve own.context r = .ok m) : m.offset = r.offsetAt own := by
  obtain ⟨-, -, hmake⟩ := resolve_eq_ok.mp h
  have hbounds := own.offset_bounds
  unfold MuidBuilder.Fits at hr
  refine Muid.offset_make hmake ?_
  unfold MuidBuilder.offsetAt
  split_ifs <;> omega

/-- One reference is read at an address as another one is everywhere. -/
def ReadsAlike (own : Muid) (r r' : MuidBuilder) : Prop :=
  ∃ m, resolve own.context r = .ok m ∧ ∀ other : Muid, resolve other.context r' = .ok m

/-- **A reference made absolute** is read everywhere as it was, if it is within the bundle. -/
theorem readsAlike_iff (hown : 0 ≤ own.offset) (hr : r.Fits) (h : resolve own.context r = .ok m) :
    ReadsAlike own r m.putInto ↔ r.WithinBundle own := by
  obtain ⟨htime, hmedallion, hmake⟩ := resolve_eq_ok.mp h
  have habsolute := resolve_putInto (Muid.timestamp_make hmake htime)
    (Muid.medallion_make hmake hmedallion)
  have hwithin : 0 ≤ m.offset ↔ r.WithinBundle own := by
    rw [offset_of_resolve hown hr h]
    unfold MuidBuilder.offsetAt MuidBuilder.WithinBundle
    split_ifs <;> omega
  rw [← hwithin, ← habsolute]
  constructor
  · intro halike
    obtain ⟨m', hm', hall⟩ := halike
    rw [h] at hm'
    rw [Except.ok.inj hm']
    exact Except.ok.inj hm' ▸ hall
  · exact fun hall => ⟨m, h, hall⟩

/-! ## §3. The members of an entry. -/

/-- The subject with its references made absolute. -/
def subjectAt (own : Muid) : Option Subject → Except Error (Option Subject)
  | some (.pair pair) => do
      let left ← resolve own.context pair.left
      let rite ← resolve own.context pair.rite
      return some (.pair ⟨left.putInto, rite.putInto⟩)
  | some (.describing describing) => do
      let describes ← resolve own.context describing
      return some (.describing describes.putInto)
  | subject => .ok subject

/-- What the entry contains, made absolute. -/
def containsAt (own : Muid) : Option Contains → Except Error (Option Contains)
  | some (.pointee pointee) => do
      let pointeeMuid ← resolve own.context pointee
      return some (.pointee pointeeMuid.putInto)
  | contains => .ok contains

/-- One part of `normalize_entry_builder`: what a member refers to is made absolute. -/
def PartDone (own : Muid) (member : EntryBuilder → Option MuidBuilder)
    (edit : Muid → EntryBuilder → EntryBuilder) (s s' : EntryBuilder) : Prop :=
  match member s with
  | none => s' = s
  | some reference => ∃ m, resolve own.context reference = .ok m ∧ s' = edit m s

theorem normalizePart_eq_ok {member : EntryBuilder → Option MuidBuilder}
    {edit : Muid → EntryBuilder → EntryBuilder} {next : Action EntryBuilder Unit}
    {s e' : EntryBuilder} :
    ((get >>= fun s => match member s with
      | none => next
      | some reference => Action.of (resolve own.context reference) >>= fun m =>
          modify (edit m) >>= fun _ => next : Action EntryBuilder Unit) s) = .ok ⟨⟩ e' ↔
      ∃ s', PartDone own member edit s s' ∧ next s' = .ok ⟨⟩ e' := by
  rw [Action.get_bind]
  unfold PartDone
  cases hmember : member s with
  | none => simp
  | some reference =>
      simp only
      cases hresolved : resolve own.context reference with
      | error err => simp [Action.of_error_bind]
      | ok m => simp [Action.of_ok_bind, Action.modify_bind]

/-- The last part: both ends of a pair. -/
theorem normalizePair_eq_ok {s e' : EntryBuilder} :
    ((do
      match (← get).pair? with
      | none => pure ()
      | some pair => do
          let left ← Action.of (resolve own.context pair.left)
          modify fun e => { e with subject := some (.pair { pair with left := left.putInto }) }
          let rite ← Action.of (resolve own.context pair.rite)
          modify fun e => { e with subject := some (.pair ⟨left.putInto, rite.putInto⟩) } :
        Action EntryBuilder Unit) s) = .ok ⟨⟩ e' ↔
      match s.pair? with
      | none => e' = s
      | some pair => ∃ left rite, resolve own.context pair.left = .ok left ∧
          resolve own.context pair.rite = .ok rite ∧
          e' = { s with subject := some (.pair ⟨left.putInto, rite.putInto⟩) } := by
  rw [Action.get_bind]
  cases hpair : s.pair? with
  | none => simp [Action.pure_apply, eq_comm]
  | some pair =>
      simp only
      cases hleft : resolve own.context pair.left with
      | error err => simp [Action.of_error_bind]
      | ok left =>
          rw [Action.of_ok_bind, Action.modify_bind]
          cases hrite : resolve own.context pair.rite with
          | error err => simp [Action.of_error_bind]
          | ok rite => simp [Action.of_ok_bind, Action.modify_apply, eq_comm]

/-- The container, and then the parts one after the other. -/
theorem normalizeEntryBuilder_parts {e e' : EntryBuilder} {container : Muid}
    (h : resolve own.context e.containerField = .ok container) :
    normalizeEntryBuilder own e = .ok ⟨⟩ e' ↔
      ∃ s₁, PartDone own EntryBuilder.describing?
          (fun m s => { s with subject := some (.describing m.putInto) })
          { e with container := some container.putInto } s₁ ∧
        ∃ s₂, PartDone own EntryBuilder.pointee?
            (fun m s => { s with contains := some (.pointee m.putInto) }) s₁ s₂ ∧
          match s₂.pair? with
          | none => e' = s₂
          | some pair => ∃ left rite, resolve own.context pair.left = .ok left ∧
              resolve own.context pair.rite = .ok rite ∧
              e' = { s₂ with subject := some (.pair ⟨left.putInto, rite.putInto⟩) } := by
  unfold normalizeEntryBuilder
  rw [Action.get_bind, h, Action.of_ok_bind, Action.modify_bind]
  exact normalizePart_eq_ok.trans (exists_congr fun _ => and_congr_right fun _ =>
    normalizePart_eq_ok.trans (exists_congr fun _ => and_congr_right fun _ => normalizePair_eq_ok))

/-- **A normalised entry** has its container, its subject and what it contains made absolute,
and the rest as it was. -/
theorem normalizeEntryBuilder_eq_ok {e e' : EntryBuilder} :
    normalizeEntryBuilder own e = .ok ⟨⟩ e' ↔
      ∃ container subject contains, resolve own.context e.containerField = .ok container ∧
        subjectAt own e.subject = .ok subject ∧ containsAt own e.contains = .ok contains ∧
        e' = { e with container := some container.putInto, subject, contains } := by
  cases hcontainer : resolve own.context e.containerField with
  | error err =>
      unfold normalizeEntryBuilder
      rw [Action.get_bind, hcontainer]
      simp [Action.of_error_bind]
  | ok container =>
      rw [normalizeEntryBuilder_parts hcontainer]
      obtain ⟨c, behavior, subject, contains, expiry, effective, purge⟩ := e
      -- the two ends of a pair come last, what the entry contains before them
      rcases subject with _ | ⟨k⟩ | ⟨pair⟩ | ⟨describing⟩
      case some.pair =>
        rcases contains with _ | ⟨v⟩ | ⟨d⟩ | ⟨pointee⟩ <;>
          simp [PartDone, EntryBuilder.describing?, EntryBuilder.pointee?, EntryBuilder.pair?,
            subjectAt, containsAt, bind_eq_ok, map_eq_ok] <;> grind
      all_goals
        rcases contains with _ | ⟨v⟩ | ⟨d⟩ | ⟨pointee⟩ <;>
          simp [PartDone, EntryBuilder.describing?, EntryBuilder.pointee?, EntryBuilder.pair?,
            subjectAt, containsAt, map_eq_ok]

/-! ## §4. Portable entries. -/

/-- The references of a subject. -/
def subjectReferences : Option Subject → List MuidBuilder
  | some (.pair pair) => [pair.left, pair.rite]
  | some (.describing describing) => [describing]
  | _ => []

def containsReferences : Option Contains → List MuidBuilder
  | some (.pointee pointee) => [pointee]
  | _ => []

/-- The references of an entry. -/
def EntryBuilder.references (e : EntryBuilder) : List MuidBuilder :=
  e.containerField :: (subjectReferences e.subject ++ containsReferences e.contains)

/-- The subjects are the same, up to references that are read alike. -/
def SubjectsAlike (own : Muid) : Option Subject → Option Subject → Prop
  | some (.pair pair), some (.pair pair') =>
      ReadsAlike own pair.left pair'.left ∧ ReadsAlike own pair.rite pair'.rite
  | some (.describing describing), some (.describing describing') =>
      ReadsAlike own describing describing'
  | subject, subject' => subject' = subject

/-- So is what the entries contain. -/
def ContainsAlike (own : Muid) : Option Contains → Option Contains → Prop
  | some (.pointee pointee), some (.pointee pointee') => ReadsAlike own pointee pointee'
  | contains, contains' => contains' = contains

/-- `e'` says everywhere what `e` says at its own address: each of its references is read in
every context as that of `e` is there, the other fields are the same, and normalising it again
changes nothing. -/
structure Portable (own : Muid) (e e' : EntryBuilder) : Prop where
  container : ReadsAlike own e.containerField e'.containerField
  subject : SubjectsAlike own e.subject e'.subject
  contains : ContainsAlike own e.contains e'.contains
  behavior : e'.behavior = e.behavior
  expiry : e'.expiry = e.expiry
  effective : e'.effective = e.effective
  purge : e'.purge = e.purge
  settled : ∀ other : Muid, normalizeEntryBuilder other e' = .ok ⟨⟩ e'

/-- The reference can be read at the address, and is within its bundle. -/
def ReadsWithin (own : Muid) (r : MuidBuilder) : Prop :=
  (∃ m, resolve own.context r = .ok m) ∧ r.WithinBundle own

/-- A reference made absolute is read alike exactly when it was within its bundle. -/
theorem readsWithin_of_alike (hown : 0 ≤ own.offset) (hr : r.Fits)
    (h : resolve own.context r = .ok m) (halike : ReadsAlike own r m.putInto) :
    ReadsWithin own r :=
  ⟨⟨m, h⟩, (readsAlike_iff hown hr h).mp halike⟩

theorem ReadsWithin.portable (h : ReadsWithin own r) (hown : 0 ≤ own.offset) (hr : r.Fits) :
    ∃ m, resolve own.context r = .ok m ∧ ReadsAlike own r m.putInto ∧
      ∀ other : Muid, resolve other.context m.putInto = .ok m := by
  obtain ⟨⟨m, hm⟩, hwithin⟩ := h
  have halike := (readsAlike_iff hown hr hm).mpr hwithin
  refine ⟨m, hm, halike, ?_⟩
  obtain ⟨m', hm', hall⟩ := halike
  rw [hm] at hm'
  rw [Except.ok.inj hm']
  exact Except.ok.inj hm' ▸ hall

/-! The subject. -/

theorem subject_readsWithin (hown : 0 ≤ own.offset) {s s' : Option Subject}
    (hfits : ∀ r ∈ subjectReferences s, r.Fits) (h : subjectAt own s = .ok s')
    (halike : SubjectsAlike own s s') : ∀ r ∈ subjectReferences s, ReadsWithin own r := by
  rcases s with _ | ⟨k⟩ | ⟨pair⟩ | ⟨describing⟩
  case some.pair =>
    obtain ⟨left, hleft, h⟩ := bind_eq_ok.mp h
    obtain ⟨rite, hrite, h⟩ := bind_eq_ok.mp h
    rw [← pure_eq_ok.mp h] at halike
    intro r hr
    have hfit := hfits r hr
    rcases List.mem_cons.mp hr with rfl | hr
    · exact readsWithin_of_alike hown hfit hleft halike.1
    · obtain rfl := List.mem_singleton.mp hr
      exact readsWithin_of_alike hown hfit hrite halike.2
  case some.describing =>
    obtain ⟨m, hm, h⟩ := bind_eq_ok.mp h
    rw [← pure_eq_ok.mp h] at halike
    intro r hr
    have hfit := hfits r hr
    obtain rfl := List.mem_singleton.mp hr
    exact readsWithin_of_alike hown hfit hm halike
  all_goals exact fun r hr => absurd hr List.not_mem_nil

theorem subject_portable (hown : 0 ≤ own.offset) {s : Option Subject}
    (hfits : ∀ r ∈ subjectReferences s, r.Fits)
    (h : ∀ r ∈ subjectReferences s, ReadsWithin own r) :
    ∃ s', subjectAt own s = .ok s' ∧ SubjectsAlike own s s' ∧
      ∀ other : Muid, subjectAt other s' = .ok s' := by
  rcases s with _ | ⟨k⟩ | ⟨pair⟩ | ⟨describing⟩
  case some.pair =>
    have hin : pair.left ∈ subjectReferences (some (.pair pair)) := List.mem_cons_self
    have hin' : pair.rite ∈ subjectReferences (some (.pair pair)) :=
      List.mem_cons_of_mem _ List.mem_cons_self
    obtain ⟨left, hleft, hlike, hall⟩ := (h _ hin).portable hown (hfits _ hin)
    obtain ⟨rite, hrite, hlike', hall'⟩ := (h _ hin').portable hown (hfits _ hin')
    refine ⟨some (.pair ⟨left.putInto, rite.putInto⟩), ?_, ⟨hlike, hlike'⟩, fun other => ?_⟩
    · simp [subjectAt, hleft, hrite, bind, Except.bind, pure, Except.pure]
    · simp [subjectAt, hall, hall', bind, Except.bind, pure, Except.pure]
  case some.describing =>
    have hin : describing ∈ subjectReferences (some (.describing describing)) :=
      List.mem_cons_self
    obtain ⟨m, hm, hlike, hall⟩ := (h _ hin).portable hown (hfits _ hin)
    refine ⟨some (.describing m.putInto), ?_, hlike, fun other => ?_⟩
    · simp [subjectAt, hm, bind, Except.bind, pure, Except.pure]
    · simp [subjectAt, hall, bind, Except.bind, pure, Except.pure]
  case none => exact ⟨none, rfl, rfl, fun _ => rfl⟩
  case some.key => exact ⟨some (.key k), rfl, rfl, fun _ => rfl⟩

/-! What it contains. -/

theorem contains_readsWithin (hown : 0 ≤ own.offset) {s s' : Option Contains}
    (hfits : ∀ r ∈ containsReferences s, r.Fits) (h : containsAt own s = .ok s')
    (halike : ContainsAlike own s s') : ∀ r ∈ containsReferences s, ReadsWithin own r := by
  rcases s with _ | ⟨v⟩ | ⟨d⟩ | ⟨pointee⟩
  case some.pointee =>
    obtain ⟨m, hm, h⟩ := bind_eq_ok.mp h
    rw [← pure_eq_ok.mp h] at halike
    intro r hr
    have hfit := hfits r hr
    obtain rfl := List.mem_singleton.mp hr
    exact readsWithin_of_alike hown hfit hm halike
  all_goals exact fun r hr => absurd hr List.not_mem_nil

theorem contains_portable (hown : 0 ≤ own.offset) {s : Option Contains}
    (hfits : ∀ r ∈ containsReferences s, r.Fits)
    (h : ∀ r ∈ containsReferences s, ReadsWithin own r) :
    ∃ s', containsAt own s = .ok s' ∧ ContainsAlike own s s' ∧
      ∀ other : Muid, containsAt other s' = .ok s' := by
  rcases s with _ | ⟨v⟩ | ⟨d⟩ | ⟨pointee⟩
  case some.pointee =>
    have hin : pointee ∈ containsReferences (some (.pointee pointee)) := List.mem_cons_self
    obtain ⟨m, hm, hlike, hall⟩ := (h _ hin).portable hown (hfits _ hin)
    refine ⟨some (.pointee m.putInto), ?_, hlike, fun other => ?_⟩
    · simp [containsAt, hm, bind, Except.bind, pure, Except.pure]
    · simp [containsAt, hall, bind, Except.bind, pure, Except.pure]
  case none => exact ⟨none, rfl, rfl, fun _ => rfl⟩
  case some.value => exact ⟨some (.value v), rfl, rfl, fun _ => rfl⟩
  case some.deletion => exact ⟨some (.deletion d), rfl, rfl, fun _ => rfl⟩

/-- **Normalising makes an entry portable** exactly when every reference of it can be read at
the entry's address and none reaches back beyond the start of the bundle. -/
theorem normalizeEntryBuilder_portable {own : Muid} {e : EntryBuilder} (hown : 0 ≤ own.offset)
    (hfits : ∀ r ∈ e.references, r.Fits) :
    (∃ e', normalizeEntryBuilder own e = .ok ⟨⟩ e' ∧ Portable own e e') ↔
      ∀ r ∈ e.references, ReadsWithin own r := by
  have hcontainerFits := hfits _ List.mem_cons_self
  have hsubjectFits : ∀ r ∈ subjectReferences e.subject, r.Fits := fun r hr =>
    hfits r (List.mem_cons_of_mem _ (List.mem_append_left _ hr))
  have hcontainsFits : ∀ r ∈ containsReferences e.contains, r.Fits := fun r hr =>
    hfits r (List.mem_cons_of_mem _ (List.mem_append_right _ hr))
  constructor
  · intro hnormal r hr
    obtain ⟨e', hrun, hportable⟩ := hnormal
    obtain ⟨container, subject, contains, hcontainer, hsubject, hcontains, rfl⟩ :=
      normalizeEntryBuilder_eq_ok.mp hrun
    rcases List.mem_cons.mp hr with rfl | hr
    · exact readsWithin_of_alike hown hcontainerFits hcontainer hportable.container
    · rcases List.mem_append.mp hr with hr | hr
      · exact subject_readsWithin hown hsubjectFits hsubject hportable.subject r hr
      · exact contains_readsWithin hown hcontainsFits hcontains hportable.contains r hr
  · intro hall
    obtain ⟨container, hcontainer, hlike, hsame⟩ :=
      (hall _ List.mem_cons_self).portable hown hcontainerFits
    obtain ⟨subject, hsubject, hsubjectLike, hsubjectSame⟩ := subject_portable hown hsubjectFits
      fun r hr => hall r (List.mem_cons_of_mem _ (List.mem_append_left _ hr))
    obtain ⟨contains, hcontains, hcontainsLike, hcontainsSame⟩ :=
      contains_portable hown hcontainsFits
        fun r hr => hall r (List.mem_cons_of_mem _ (List.mem_append_right _ hr))
    refine ⟨{ e with container := some container.putInto, subject, contains },
      normalizeEntryBuilder_eq_ok.mpr ⟨container, subject, contains, hcontainer, hsubject,
        hcontains, rfl⟩, hlike, hsubjectLike, hcontainsLike, rfl, rfl, rfl, rfl, fun other => ?_⟩
    -- what was made absolute is found absolute
    exact normalizeEntryBuilder_eq_ok.mpr ⟨container, subject, contains, hsame other,
      hsubjectSame other, hcontainsSame other, rfl⟩

/-- A box entry in the fourth place of a bundle, which points to the change before the last. -/
def relativeEntry (offset : Int) : EntryBuilder where
  container := some ⟨-1, -1, 1⟩
  behavior := .box
  contains := some (.pointee ⟨0, 0, offset⟩)

def fourthPlace : Muid := ⟨1600000000000000, 77, 4⟩

theorem normalizeEntryBuilder_portable_sample :
    (∃ e', normalizeEntryBuilder fourthPlace (relativeEntry (-2)) = .ok ⟨⟩ e' ∧
        Portable fourthPlace (relativeEntry (-2)) e') ↔
      ∀ r ∈ (relativeEntry (-2)).references, ReadsWithin fourthPlace r :=
  normalizeEntryBuilder_portable (by decide) (by
    show ∀ r ∈ [⟨-1, -1, 1⟩, ⟨0, 0, -2⟩], MuidBuilder.Fits r
    simp [MuidBuilder.Fits])

/-- **A reference to before the start of the bundle** stays a relative one. -/
theorem normalizeEntryBuilder_not_portable :
    ¬ ∃ e', normalizeEntryBuilder fourthPlace (relativeEntry (-6)) = .ok ⟨⟩ e' ∧
      Portable fourthPlace (relativeEntry (-6)) e' := by
  intro h
  obtain ⟨e', hrun, hportable⟩ := h
  obtain ⟨container, subject, contains, -, -, hcontains, rfl⟩ :=
    normalizeEntryBuilder_eq_ok.mp hrun
  have hfits : ∀ r ∈ containsReferences (relativeEntry (-6)).contains, r.Fits := by
    show ∀ r ∈ [⟨0, 0, -6⟩], MuidBuilder.Fits r
    simp [MuidBuilder.Fits]
  have hwithin := (contains_readsWithin (by decide) hfits hcontains hportable.contains ⟨0, 0, -6⟩
    (List.mem_singleton.mpr rfl)).2
  unfold MuidBuilder.WithinBundle at hwithin
  exact absurd hwithin (by decide)

end Gink
