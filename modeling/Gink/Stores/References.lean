/-
  Gink.Stores.References — what a relative reference stands for, place by place.

  A reference with zero timestamp and medallion points into its own bundle: to the change
  with its offset, or, counted back from the change it stands in, to an earlier one.  The
  stores read the references of a change in many places.  `Field` lists the fields that
  hold one, and beside it stand the places where the Python loops and the JavaScript
  stores turn each into an address:

    resolve entryMuid.context b    the change's own address, which has an offset
    resolve newInfo.context b      the bundle info, which has none
    b.literal                      not resolved at all
    builderToMuid, ofBundle        the JavaScript side: the offset as it stands

  `references_uniform_iff` says when all places agree.
-/
import Gink.Lmdb.Changes
import Gink.Memory.Changes
import Gink.Js.References

namespace Gink

/-! ## §1. The fields and the places they are read. -/

/-- A field of a change that holds a reference. -/
inductive Field where
  | entryContainer
  | describing
  | pointee
  | pairLeft
  | pairRite
  | movementContainer
  | movementEntry
  | clearanceContainer
  deriving DecidableEq, Repr

/-- What a Python store makes of the reference of a bundle's change at one place. -/
abbrev PythonSite := BundleInfo → Nat → MuidBuilder → Except Error Muid

/-- The same for a JavaScript store. -/
abbrev JsSite := BundleInfo → Nat → MuidBuilder → Except Js.JsError Js.MuidTuple

/-- `Muid.create(context=entry_muid, builder=...)`. -/
def byEntry : PythonSite := fun info offset b => do
  let entryMuid ← changeMuid info offset
  resolve entryMuid.context b

/-- `Muid.create(context=new_info, builder=...)`. -/
def byBundle : PythonSite := fun info _ b => resolve info.context b

/-- `Muid(b.timestamp, b.medallion, b.offset)`. -/
def unresolved : PythonSite := fun _ _ b => b.literal

namespace Field

/-- Where an `LmdbStore` resolves the field: placements and indexes by the entry's own
address; names, movements and clearances by the bundle. -/
def lmdbSites : Field → List PythonSite
  | entryContainer | pointee | pairLeft | pairRite => [byEntry]
  | describing => [byEntry, byBundle]
  | movementContainer | movementEntry | clearanceContainer => [byBundle]

/-- Where a `MemoryStore` does; it keeps no index by pointee. -/
def memorySites : Field → List PythonSite
  | entryContainer | pairLeft | pairRite => [byEntry]
  | pointee => []
  | describing => [byEntry, byBundle]
  | movementContainer | movementEntry | clearanceContainer => [byBundle]

/-- Where both change loops look up whether an entry's container has been defined, and
define it. -/
def definitionSites : Field → List PythonSite
  | entryContainer => [unresolved]
  | _ => []

/-- `builderToMuid(b, { timestamp, medallion, offset })`. -/
def byChange : JsSite := fun info offset b => do
  Js.builderToMuid (← Js.message b) (Js.changeAddress info offset)

/-- Where the JavaScript stores read the field. -/
def jsSites : Field → List JsSite
  | entryContainer => [fun info _ b => Js.extractContainerMuid { container := some b } info]
  | describing | clearanceContainer => [byChange]
  | pointee => [fun info _ b => .ok ((Js.buildPointeeList b info).headD ⟨0, 0, 0⟩)]
  | pairLeft => [byChange, fun info _ b =>
      (Js.buildPairLists { left := b, rite := b } info).map (·.1.headD ⟨0, 0, 0⟩)]
  | pairRite => [byChange, fun info _ b =>
      (Js.buildPairLists { left := b, rite := b } info).map (·.2.headD ⟨0, 0, 0⟩)]
  | movementContainer => [fun info offset b =>
      (Js.extractMovement { container := b, entry := b } info offset).map Js.Movement.containerId]
  | movementEntry => [fun info offset b =>
      (Js.extractMovement { entry := b } info offset).map Js.Movement.entryId]

end Field

/-- Every place that resolves the field takes the reference for the target. -/
def Resolved (field : Field) (info : BundleInfo) (offset : Nat) (b : MuidBuilder) (target : Muid) :
    Prop :=
  (∀ site ∈ field.lmdbSites ++ field.memorySites, site info offset b = .ok target) ∧
    ∀ site ∈ field.jsSites, (site info offset b).map Js.MuidTuple.address = .ok target

/-- **The reference denotes the target wherever the field is read.** -/
def Uniform (field : Field) (info : BundleInfo) (offset : Nat) (b : MuidBuilder) (target : Muid) :
    Prop :=
  Resolved field info offset b target ∧
    ∀ site ∈ field.definitionSites, site info offset b = .ok target

/-! ## §2. These are the places of the models. -/

section
variable {info : BundleInfo} {offset : Nat} {e : Error}

/-- And a clearance. -/
theorem Lmdb.applyClearance_raises {builder : ClearanceBuilder} {retaining : Bool} {c : Contents}
    (h : byBundle info offset builder.container = .error e) :
    applyClearance retaining info offset builder c = .error e := by
  unfold applyClearance
  rw [show resolve info.context builder.container = .error e from h]
  rfl

end

/-! ## §3. A reference within the bundle. -/

/-- The reference to the change `n` of its own bundle, or `-n` changes back. -/
def relative (n : Int) : MuidBuilder := { offset := n }

section
variable {info : BundleInfo} {offset earlier : Nat} {m target : Muid}

/-- The attributes of an address are as good as its fields: all ones read -1 and are
written back as all ones. -/
theorem make_attributes {n : Int}
    (h : Muid.make m.timeField.val m.medallionField.val n = .ok target) :
    Muid.make m.timestamp m.medallion n = .ok target := by
  have h1 := m.timeField.isLt
  have h2 := m.medallionField.isLt
  obtain ⟨-, -, hn, rfl⟩ := Muid.make_eq_ok.mp h
  have htime : Muid.field (2 ^ 52) m.timestamp = Muid.field (2 ^ 52) (m.timeField.val : Int) := by
    apply Fin.ext
    have hl := Muid.val_field (2 ^ 52) m.timestamp
    have hr := Muid.val_field (2 ^ 52) (m.timeField.val : Int)
    unfold Muid.timestamp at hl ⊢
    split_ifs at hl ⊢ <;> omega
  have hmedallion :
      Muid.field (2 ^ 44) m.medallion = Muid.field (2 ^ 44) (m.medallionField.val : Int) := by
    apply Fin.ext
    have hl := Muid.val_field (2 ^ 44) m.medallion
    have hr := Muid.val_field (2 ^ 44) (m.medallionField.val : Int)
    unfold Muid.medallion at hl ⊢
    split_ifs at hl ⊢ <;> omega
  rw [← htime, ← hmedallion]
  refine Muid.make_eq_ok.mpr ⟨?_, ?_, hn, rfl⟩
  · unfold Muid.timestamp
    split_ifs <;> omega
  · unfold Muid.medallion
    split_ifs <;> omega

/-- A relative reference with a positive offset takes everything else from the context. -/
theorem resolve_relative {context : Context} {n : Int} (hn : 0 < n) (ht : context.timestamp ≠ 0)
    (hm : context.medallion ≠ 0) :
    resolve context (relative n) = Muid.make context.timestamp context.medallion n := by
  have hoff : orElse 0 (relative n).offset = n := rfl
  have htime : orElse (relative n).timestamp context.timestamp = context.timestamp := rfl
  have hmed : orElse (relative n).medallion context.medallion = context.medallion := rfl
  unfold resolve Muid.create
  simp only [hoff, htime, hmed, if_neg (show ¬ n < 0 by omega), ne_eq, ht, hm, not_false_eq_true,
    decide_true, ensure_true, bind, Except.bind, pure, Except.pure]

/-- The address of a change is made of what its bundle says. -/
theorem changeMuid_make (h : changeMuid info offset = .ok m) :
    Muid.make info.timestamp.val info.medallion.val offset = .ok m := by
  obtain ⟨ht, hm, ho, -⟩ := changeMuid_eq_ok h
  have h1 := m.timeField.isLt
  have h2 := m.medallionField.isLt
  have h3 := m.offsetField.isLt
  refine Muid.make_eq_ok.mpr ⟨by omega, by omega, by omega, ?_⟩
  obtain ⟨t, d, o⟩ := m
  simp only at ht hm ho
  simp only [Muid.mk.injEq]
  refine ⟨Fin.ext ?_, Fin.ext ?_, Fin.ext ?_⟩
  · have := Muid.val_field (2 ^ 52) (info.timestamp.val : Int)
    omega
  · have := Muid.val_field (2 ^ 44) (info.medallion.val : Int)
    omega
  · have := Muid.val_field (2 ^ 32) (offset : Int)
    omega

/-- A positive offset names a change of the bundle the context stands for. -/
theorem resolve_bundle (hpos : 1 ≤ earlier) :
    resolve info.context (relative earlier) = changeMuid info earlier := by
  have hoff : orElse (earlier : Int) (({} : MuidBuilder).offset) = orElse 0 (relative earlier).offset := by
    show orElse (earlier : Int) 0 = orElse 0 (earlier : Int)
    unfold orElse
    rw [if_neg (by omega), if_pos rfl]
  unfold changeMuid resolve Muid.create
  rw [hoff]
  rfl

/-- Where a change has an address, so has every earlier one. -/
theorem changeMuid_earlier (h : changeMuid info offset = .ok m) (hpos : 1 ≤ earlier)
    (hlt : earlier < offset) :
    ∃ target, changeMuid info earlier = .ok target ∧ target.timeField = m.timeField ∧
      target.medallionField = m.medallionField ∧ target.offsetField.val = earlier := by
  obtain ⟨ht, hm, ho, htime⟩ := changeMuid_eq_ok h
  have hmed := changeMuid_medallion h
  obtain ⟨htb, hmb, hob, -⟩ := Muid.make_eq_ok.mp (changeMuid_make h)
  have hne : info.context.timestamp ≠ 0 := by
    show (info.timestamp.val : Int) ≠ 0
    omega
  have hne' : info.context.medallion ≠ 0 := by
    show (info.medallion.val : Int) ≠ 0
    omega
  have hok : ∃ target, changeMuid info earlier = .ok target := by
    rw [← resolve_bundle hpos, resolve_relative (by omega) hne hne']
    exact ⟨_, Muid.make_eq_ok.mpr ⟨htb, hmb, by omega, rfl⟩⟩
  obtain ⟨target, htarget⟩ := hok
  obtain ⟨ht', hm', ho', -⟩ := changeMuid_eq_ok htarget
  exact ⟨target, htarget, Fin.ext (by omega), Fin.ext (by omega), ho'⟩

/-- By the entry's own address a positive offset leads to the same change. -/
theorem byEntry_positive (h : changeMuid info offset = .ok m) (hpos : 1 ≤ earlier)
    (htarget : changeMuid info earlier = .ok target) :
    byEntry info offset (relative earlier) = .ok target := by
  obtain ⟨ht, hm, -, htime⟩ := changeMuid_eq_ok h
  have hmed := changeMuid_medallion h
  have hne : m.context.timestamp ≠ 0 := by
    show m.timestamp ≠ 0
    unfold Muid.timestamp
    split_ifs <;> omega
  have hne' : m.context.medallion ≠ 0 := by
    show m.medallion ≠ 0
    unfold Muid.medallion
    split_ifs <;> omega
  show (changeMuid info offset >>= fun entryMuid => resolve entryMuid.context (relative earlier)) = _
  rw [h]
  show resolve m.context (relative earlier) = _
  rw [resolve_relative (by omega) hne hne']
  refine make_attributes ?_
  rw [ht, hm]
  exact changeMuid_make htarget

/-! ## §4. The JavaScript side. -/

/-- What `ofBundle` and `builderToMuid` make of a relative reference: the bundle's stamp
and the offset as it stands. -/
def stamped (info : BundleInfo) (n : Int) : Js.MuidTuple :=
  ⟨info.timestamp.val, info.medallion.val, n⟩

theorem jsSites_relative (field : Field) {n : Int} (hn : n ≠ 0) :
    ∀ site ∈ field.jsSites, site info offset (relative n) = .ok (stamped info n) := by
  have hset : (relative n : MuidBuilder) ≠ {} := by
    intro heq
    exact hn (congrArg MuidBuilder.offset heq)
  have hmessage : Js.message (relative n) = .ok (relative n) := if_neg hset
  have hchange : Field.byChange info offset (relative n) = .ok (stamped info n) := by
    unfold Field.byChange
    rw [hmessage]
    show Js.builderToMuid (relative n) (Js.changeAddress info offset) = _
    have hoff : Js.ensureNumber (relative n).offset "zero offset" = .ok n := if_neg hn
    unfold Js.builderToMuid
    rw [hoff]
    rfl
  have hmovement : ∀ b : MovementBuilder, b.entry = relative n →
      Js.extractMovement b info offset = .ok {
        entryId := stamped info n
        movementId := Js.changeAddress info offset
        containerId := if b.container = {} then ⟨0, 0, 0⟩ else Js.ofBundle b.container info
        dest := b.dest
        purge := b.purge } := by
    intro b hb
    unfold Js.extractMovement
    rw [hb, hmessage]
    rfl
  have hpair : Js.buildPairLists { left := relative n, rite := relative n } info
      = .ok ([stamped info n], [stamped info n]) := by
    unfold Js.buildPairLists
    rw [hmessage]
    rfl
  intro site hsite
  cases field with
  | entryContainer =>
      obtain rfl := List.mem_singleton.mp hsite
      rfl
  | describing | clearanceContainer =>
      obtain rfl := List.mem_singleton.mp hsite
      exact hchange
  | pointee =>
      obtain rfl := List.mem_singleton.mp hsite
      rfl
  | pairLeft | pairRite =>
      rcases List.mem_pair.mp hsite with rfl | rfl
      · exact hchange
      · simp only [hpair]
        rfl
  | movementContainer =>
      obtain rfl := List.mem_singleton.mp hsite
      simp only [hmovement, if_neg hset]
      rfl
  | movementEntry =>
      obtain rfl := List.mem_singleton.mp hsite
      simp only [hmovement]
      rfl

/-- The offset as it stands is the target's exactly when it was counted from the front. -/
theorem stamped_address_iff (h : changeMuid info offset = .ok m) (hpos : 1 ≤ earlier)
    (hlt : earlier < offset) (htarget : changeMuid info earlier = .ok target) {n : Int}
    (hn : n = earlier ∨ n = (earlier : Int) - offset) :
    (stamped info n).address = target ↔ 0 < n := by
  obtain ⟨-, -, hoff, -⟩ := changeMuid_eq_ok h
  obtain ⟨-, -, ho, -⟩ := changeMuid_eq_ok htarget
  have hbound := m.offsetField.isLt
  obtain ⟨-, -, -, hmake⟩ := Muid.make_eq_ok.mp (changeMuid_make htarget)
  constructor
  · intro haddress
    have hval : ((Muid.field (2 ^ 32) n).val : Int) = earlier := by
      rw [← ho, ← haddress]
      rfl
    have := Muid.val_field (2 ^ 32) n
    omega
  · intro hposn
    have hn' : n = earlier := by omega
    rw [hn', hmake]
    rfl

/-! ## §5. When the places agree. -/

/-- **A relative reference to an earlier change** denotes that change at every place that
resolves its field, in all four stores, exactly when it counts from the front; and the
container of an entry is besides taken unresolved where both change loops look for its
definition, so that it never denotes the change everywhere. -/
theorem references_uniform_iff (info : BundleInfo) (offset earlier : Nat) (n : Int) (m : Muid)
    (h : changeMuid info offset = .ok m) (hpos : 1 ≤ earlier) (hlt : earlier < offset)
    (hn : n = earlier ∨ n = (earlier : Int) - offset) :
    ∃ target, changeMuid info earlier = .ok target ∧ ∀ field,
      (Resolved field info offset (relative n) target ↔ 0 < n) ∧
      (Uniform field info offset (relative n) target ↔ 0 < n ∧ field ≠ .entryContainer) := by
  obtain ⟨target, htarget, -⟩ := changeMuid_earlier h hpos hlt
  refine ⟨target, htarget, fun field => ?_⟩
  have hzero : n ≠ 0 := by omega
  have hjs : (∀ site ∈ field.jsSites,
      (site info offset (relative n)).map Js.MuidTuple.address = .ok target) ↔ 0 < n := by
    rw [← stamped_address_iff h hpos hlt htarget hn]
    constructor
    · intro hall
      obtain ⟨site, hsite⟩ : ∃ site, site ∈ field.jsSites := by
        cases field <;> exact ⟨_, List.mem_cons_self⟩
      have hone := hall site hsite
      rw [jsSites_relative field hzero site hsite] at hone
      injection hone
    · intro haddress site hsite
      rw [jsSites_relative field hzero site hsite, ← haddress]
      rfl
  have hpython : 0 < n → ∀ site ∈ field.lmdbSites ++ field.memorySites,
      site info offset (relative n) = .ok target := by
    intro hposn
    have hn' : n = earlier := by omega
    have hentry : byEntry info offset (relative n) = .ok target := by
      rw [hn']
      exact byEntry_positive h hpos htarget
    have hbundle : byBundle info offset (relative n) = .ok target := by
      rw [hn', ← htarget]
      exact resolve_bundle hpos
    have hsites : ∀ site ∈ field.lmdbSites ++ field.memorySites, site = byEntry ∨ site = byBundle := by
      intro site hsite
      cases field <;>
        simp only [Field.lmdbSites, Field.memorySites, List.cons_append, List.nil_append,
          List.mem_cons, List.not_mem_nil, or_false] at hsite <;> tauto
    intro site hsite
    rcases hsites site hsite with rfl | rfl
    · exact hentry
    · exact hbundle
  have hresolved : Resolved field info offset (relative n) target ↔ 0 < n :=
    ⟨fun hr => hjs.mp hr.2, fun hposn => ⟨hpython hposn, hjs.mpr hposn⟩⟩
  refine ⟨hresolved, ?_⟩
  unfold Uniform
  rw [hresolved]
  refine and_congr_right fun _ => ?_
  constructor
  · rintro hdef rfl
    -- the unresolved address has time zero, the target its bundle's
    have hliteral := hdef unresolved List.mem_cons_self
    obtain ⟨-, -, -, hmake⟩ := Muid.make_eq_ok.mp (show Muid.make 0 0 n = .ok target from hliteral)
    obtain ⟨ht, -, -, htime⟩ := changeMuid_eq_ok htarget
    rw [hmake] at ht
    exact htime ht.symm
  · intro hfield site hsite
    cases field <;> first | exact absurd rfl hfield | simp [Field.definitionSites] at hsite

end

/-- A bundle whose second change is looked at. -/
def relativeInfo : BundleInfo where
  timestamp := 5
  medallion := 1
  chainStart := 5
  previous := 0
  hash := []
  comment := ""

/-- Its second change refers to the first. -/
theorem references_uniform_iff_sample :
    ∃ target, changeMuid relativeInfo 1 = .ok target ∧ ∀ field,
      (Resolved field relativeInfo 2 (relative 1) target ↔ 0 < (1 : Int)) ∧
      (Uniform field relativeInfo 2 (relative 1) target ↔ 0 < (1 : Int) ∧ field ≠ .entryContainer) :=
  references_uniform_iff relativeInfo 2 1 1 ⟨5, 1, 2⟩ (by decide +kernel) (by decide) (by decide)
    (Or.inl rfl)

/-- Counted back from itself, the first change is reached by an entry's fields in Python
only: a clearance raises there, and in JavaScript stands for a change that does not exist.
Counted from the front it is not the container whose definition is looked up. -/
theorem references_not_uniform :
    changeMuid relativeInfo 1 = .ok ⟨5, 1, 1⟩ ∧
    byEntry relativeInfo 2 (relative (-1)) = .ok ⟨5, 1, 1⟩ ∧
    Lmdb.applyClearance true relativeInfo 2 { container := relative (-1) } {}
      = .error (.valueError "invalid context for negative offset") ∧
    ¬ Uniform .clearanceContainer relativeInfo 2 (relative (-1)) ⟨5, 1, 1⟩ ∧
    ¬ Uniform .entryContainer relativeInfo 2 (relative 1) ⟨5, 1, 1⟩ := by
  have hraises : byBundle relativeInfo 2 (relative (-1))
      = .error (.valueError "invalid context for negative offset") := by decide +kernel
  refine ⟨by decide +kernel, by decide +kernel, Lmdb.applyClearance_raises hraises, ?_, ?_⟩
  · rintro ⟨⟨hpython, -⟩, -⟩
    have := hpython byBundle List.mem_cons_self
    rw [hraises] at this
    exact absurd this (by simp)
  · rintro ⟨-, hdefinition⟩
    have := hdefinition unresolved List.mem_cons_self
    exact absurd this (by decide +kernel)

end Gink
