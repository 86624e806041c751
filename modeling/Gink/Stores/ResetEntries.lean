/-
  Gink.Stores.ResetEntries — the entries that a reset writes, and `validate_bundle`.

  A reset writes deletions, vertices and accumulators of its own making, and entries of the
  store, some of them with their references made absolute, with a position, or describing
  something else.  Which members an entry has is what the validator looks at, and rewording
  an entry leaves that alone.
-/
import Gink.Proto.Validation
import Gink.Stores.Resetting

namespace Gink

/-! ## §1. Rewording an entry. -/

/-- A reference, made absolute any number of times in some of the contexts. -/
inductive Restated (contexts : Muid → Prop) : MuidBuilder → MuidBuilder → Prop
  | same (b : MuidBuilder) : Restated contexts b b
  | again {b b' : MuidBuilder} {context m : Muid} : Restated contexts b b' → contexts context →
      resolve context.context b' = .ok m → Restated contexts b m.putInto

theorem Restated.trans {contexts : Muid → Prop} {b b' b'' : MuidBuilder}
    (h : Restated contexts b b') (h' : Restated contexts b' b'') : Restated contexts b b'' := by
  induction h' with
  | same => exact h
  | again _ hcontext hm ih => exact ih.again hcontext hm

/-- `e'` has the members that `e` has; what they refer to may differ, and what the entry
holds is restated. -/
structure EntryBuilder.Alike (contexts : Muid → Prop) (e e' : EntryBuilder) : Prop where
  behavior : e'.behavior = e.behavior
  key : e'.key = e.key
  hasKey : e'.hasKey = e.hasKey
  pair : e'.pair?.isSome = e.pair?.isSome
  describing : e'.describing?.isSome = e.describing?.isSome
  value : e'.value? = e.value?
  pointee : e'.pointee?.isSome = e.pointee?.isSome
  restated : ∀ b', e'.pointee? = some b' → ∃ b, e.pointee? = some b ∧ Restated contexts b b'
  deletion : e'.deletion = e.deletion
  container : e.container.isSome = true → e'.container.isSome = true

namespace EntryBuilder.Alike

variable {contexts : Muid → Prop} {e e' e'' : EntryBuilder}

theorem samePointee (h : e'.pointee? = e.pointee?) (b' : MuidBuilder)
    (hb : e'.pointee? = some b') : ∃ b, e.pointee? = some b ∧ Restated contexts b b' :=
  ⟨b', h ▸ hb, .same b'⟩

theorem refl (e : EntryBuilder) : e.Alike contexts e :=
  ⟨rfl, rfl, rfl, rfl, rfl, rfl, rfl, samePointee rfl, rfl, id⟩

theorem trans (h : e.Alike contexts e') (h' : e'.Alike contexts e'') : e.Alike contexts e'' where
  behavior := h'.behavior.trans h.behavior
  key := h'.key.trans h.key
  hasKey := h'.hasKey.trans h.hasKey
  pair := h'.pair.trans h.pair
  describing := h'.describing.trans h.describing
  value := h'.value.trans h.value
  pointee := h'.pointee.trans h.pointee
  restated := by
    intro b'' hb''
    obtain ⟨b', hb', hsecond⟩ := h'.restated b'' hb''
    obtain ⟨b, hb, hfirst⟩ := h.restated b' hb'
    exact ⟨b, hb, hfirst.trans hsecond⟩
  deletion := h'.deletion.trans h.deletion
  container := h'.container ∘ h.container

/-- **The validator does not see the difference.** -/
theorem wellFormed (h : e.Alike contexts e') (hw : e.wellFormed = true) : e'.wellFormed = true := by
  have hvalue : e'.hasUserValue = e.hasUserValue := by
    unfold EntryBuilder.hasUserValue
    rw [h.value]
  have hcontents : e'.hasContents = e.hasContents := by
    unfold EntryBuilder.hasContents
    rw [hvalue, h.pointee]
  have hkey : e'.hasUserKey = e.hasUserKey := by
    unfold EntryBuilder.hasUserKey
    rw [h.key]
  unfold EntryBuilder.wellFormed at hw ⊢
  rw [h.behavior, h.hasKey, hcontents, h.pair, h.deletion, hkey, h.describing, h.value]
  cases hb : e.behavior with
  | vertex =>
      rw [hb] at hw
      exact h.container hw
  | _ =>
      rw [hb] at hw
      exact hw

/-! What a reset edits. -/

theorem setContainer (e : EntryBuilder) (m : MuidBuilder) :
    e.Alike contexts { e with container := some m } :=
  ⟨rfl, rfl, rfl, rfl, rfl, rfl, rfl, samePointee rfl, rfl, fun _ => rfl⟩

theorem setEffective (e : EntryBuilder) (t : Int) : e.Alike contexts { e with effective := t } :=
  ⟨rfl, rfl, rfl, rfl, rfl, rfl, rfl, samePointee rfl, rfl, id⟩

theorem setDescribing (h : e.describing?.isSome = true) (m : MuidBuilder) :
    e.Alike contexts { e with subject := some (.describing m) } := by
  obtain ⟨container, behavior, subject, contains, expiry, effective, purge⟩ := e
  cases subject with
  | none => cases h
  | some subject =>
      cases subject with
      | describing d => exact ⟨rfl, rfl, rfl, rfl, rfl, rfl, rfl, samePointee rfl, rfl, id⟩
      | key k => cases h
      | pair p => cases h

theorem setPair (h : e.pair?.isSome = true) (p : Pair) :
    e.Alike contexts { e with subject := some (.pair p) } := by
  obtain ⟨container, behavior, subject, contains, expiry, effective, purge⟩ := e
  cases subject with
  | none => cases h
  | some subject =>
      cases subject with
      | pair p => exact ⟨rfl, rfl, rfl, rfl, rfl, rfl, rfl, samePointee rfl, rfl, id⟩
      | key k => cases h
      | describing d => cases h

theorem setPointee {reference : MuidBuilder} {context m : Muid} (h : e.pointee? = some reference)
    (hcontext : contexts context) (hm : resolve context.context reference = .ok m) :
    e.Alike contexts { e with contains := some (.pointee m.putInto) } := by
  obtain ⟨container, behavior, subject, contains, expiry, effective, purge⟩ := e
  cases contains with
  | none => cases h
  | some contains =>
      cases contains with
      | pointee p =>
          cases h
          refine ⟨rfl, rfl, rfl, rfl, rfl, rfl, rfl, ?_, rfl, id⟩
          intro b' hb'
          cases hb'
          exact ⟨reference, rfl, (Restated.same reference).again hcontext hm⟩
      | value v => cases h
      | deletion d => cases h

end EntryBuilder.Alike

section Normalising

open Gink.Action

variable {contexts : Muid → Prop} (entryMuid : Muid) (e : EntryBuilder)

/-- The last part of `normalize_entry_builder`. -/
theorem normalizePair_alike : Keeps (e.Alike contexts) (do
    match (← get).pair? with
    | none => pure ()
    | some pair => do
        let left ← Action.of (resolve entryMuid.context pair.left)
        modify fun e => { e with subject := some (.pair { pair with left := left.putInto }) }
        let rite ← Action.of (resolve entryMuid.context pair.rite)
        modify fun e => { e with subject := some (.pair ⟨left.putInto, rite.putInto⟩) }) := by
  apply Keeps.get_bind
  intro e' h'
  cases hp : e'.pair? with
  | none => exact h'
  | some pair =>
      have hsome (s : EntryBuilder) (hs : e.Alike contexts s) : s.pair?.isSome = true := by
        rw [hs.pair, ← h'.pair, hp]
        rfl
      exact Keeps.of_bind (fun left _ => Keeps.bind
        (Keeps.modify fun s hs => hs.trans (.setPair (hsome s hs) _)) fun _ =>
        Keeps.of_bind fun rite _ => Keeps.modify fun s hs => hs.trans (.setPair (hsome s hs) _)) e' h'

/-- A part that edits what a member refers to, before the next part. -/
theorem normalizePart_alike {member : EntryBuilder → Option MuidBuilder}
    {edit : Muid → EntryBuilder → EntryBuilder} {next : Action EntryBuilder Unit}
    (hedit : ∀ s reference m, member s = some reference →
      resolve entryMuid.context reference = .ok m → s.Alike contexts (edit m s))
    (hnext : Keeps (e.Alike contexts) next) : Keeps (e.Alike contexts) (get >>= fun s =>
      match member s with
      | none => next
      | some reference => Action.of (resolve entryMuid.context reference) >>= fun m =>
          modify (edit m) >>= fun _ => next) := by
  apply Keeps.get_bind
  intro e' h'
  cases hm : member e' with
  | none => exact hnext e' h'
  | some reference =>
      simp only
      cases hresolved : resolve entryMuid.context reference with
      | error err => exact h'
      | ok m => exact hnext (edit m e') (h'.trans (hedit e' reference m hm hresolved))

/-- **Normalising rewords**, also when it raises on the way. -/
theorem normalizeEntryBuilder_alike (hcontext : contexts entryMuid) :
    Keeps (e.Alike contexts) (normalizeEntryBuilder entryMuid) := by
  unfold normalizeEntryBuilder
  apply Keeps.get_bind
  intro e₁ h₁
  refine Keeps.of_bind (fun containerMuid _ => Keeps.bind
    (Keeps.modify fun s hs => hs.trans (.setContainer s _)) fun _ => ?_) e₁ h₁
  apply normalizePart_alike
  · exact fun s reference m hs _ => .setDescribing (Option.isSome_of_eq_some hs) _
  apply normalizePart_alike
  · exact fun s reference m hs hm => .setPointee hs hcontext hm
  exact normalizePair_alike entryMuid e

end Normalising

theorem endState_alike {contexts : Muid → Prop} {e : EntryBuilder}
    {edit : Action EntryBuilder Unit} (h : Action.Keeps (e.Alike contexts) edit) :
    e.Alike contexts (Action.endState (edit e)) := by
  have hend := h e (.refl e)
  cases hedit : edit e with
  | ok u e' =>
      rw [hedit] at hend
      exact hend
  | error err e' =>
      rw [hedit] at hend
      exact hend

theorem normalized_alike {contexts : Muid → Prop} {entryMuid : Muid} {e e' : EntryBuilder}
    (hcontext : contexts entryMuid) (h : normalized entryMuid e = .ok e') :
    e.Alike contexts e' := by
  have hkeeps := normalizeEntryBuilder_alike entryMuid e hcontext e (.refl e)
  unfold normalized at h
  cases hn : normalizeEntryBuilder entryMuid e with
  | ok u e₁ =>
      rw [hn] at h hkeeps
      exact Except.ok.inj h ▸ hkeeps
  | error err e₁ =>
      rw [hn] at h
      cases h

/-! ## §2. Entries of a reset's own making. -/

/-- **A deleting entry is well formed**, except that of a box. -/
theorem createDeletingEntry_wellFormed {muid : Muid} {key : MiddleKey} {behavior : Behavior}
    {e : EntryBuilder} (h : createDeletingEntry muid key behavior = .ok e) (hbox : behavior ≠ .box) :
    e.wellFormed = true := by
  unfold createDeletingEntry at h
  cases behavior with
  | box => exact absurd rfl hbox
  | directory | keySet =>
      cases key with
      | key k =>
          obtain ⟨b, -, rfl⟩ := map_eq_ok.mp h
          rfl
      | _ => cases h
  | property | group =>
      cases key with
      | muid m =>
          injection h with h
          rw [← h]
          rfl
      | _ => cases h
  | pairSet | pairMap =>
      cases key with
      | pair l r =>
          injection h with h
          rw [← h]
          rfl
      | _ => cases h
  | _ => cases h

theorem vertexEntry_wellFormed (container : Muid) (wasDeleted : Bool) :
    (vertexEntry container wasDeleted).wellFormed = true := rfl

/-- The digits of a natural number. -/
theorem toDigits_decimal (m : Nat) : (Nat.toDigits 10 m).isEmpty = false ∧
    (Nat.toDigits 10 m).all Char.isDigit = true := by
  constructor
  · rw [List.isEmpty_eq_false_iff]
    exact Nat.toDigits_ne_nil
  · rw [List.all_eq_true]
    exact fun c hc => Nat.isDigit_of_mem_toDigits (by decide) (by decide) hc

/-- **An int is written as the validator wants it.** -/
theorem isDecimal_toString (n : Int) : isDecimal (toString n) = true := by
  unfold isDecimal
  cases n with
  | ofNat m =>
      obtain ⟨hne, hall⟩ := toDigits_decimal m
      have htext : (toString (Int.ofNat m)).toList = Nat.toDigits 10 m := by
        show (Nat.repr m).toList = _
        exact Nat.toList_repr
      rw [htext]
      -- the first digit is no sign
      cases hd : Nat.toDigits 10 m with
      | nil =>
          rw [hd] at hne
          cases hne
      | cons c rest =>
          rw [hd] at hall
          have hc : c ≠ '-' := by
            rintro rfl
            cases hall
          split
          · rename_i heq
            injection heq with hsign
            exact absurd hsign hc
          · show (true && (c :: rest).all Char.isDigit) = true
            rw [hall]
            rfl
  | negSucc m =>
      obtain ⟨hne, hall⟩ := toDigits_decimal (m + 1)
      have htext : (toString (Int.negSucc m)).toList = '-' :: Nat.toDigits 10 (m + 1) := by
        show ("-" ++ Nat.repr (m + 1)).toList = _
        rw [String.toList_append, Nat.toList_repr]
        rfl
      rw [htext]
      simp only [hne, hall]
      rfl

theorem accumulatorEntry_wellFormed (container : Muid) (previous current : Int) :
    (accumulatorEntry container previous current).wellFormed = true :=
  isDecimal_toString _

/-! ## §3. What an entry holds, and where. -/

/-- Only a deletion reads as one. -/
theorem deletion_of_decode {muid : Muid} {builder : EntryBuilder}
    (h : decodeEntryOccupant muid builder = .ok .deletion) : builder.deletion = true := by
  unfold decodeEntryOccupant at h
  by_cases hd : builder.deletion = true
  · exact hd
  · exfalso
    rw [if_neg hd] at h
    split at h
    · obtain ⟨m, -, hm⟩ := map_eq_ok.mp h
      cases hm
    · obtain ⟨v, -, hv⟩ := map_eq_ok.mp h
      cases hv
    · obtain ⟨left, -, h⟩ := bind_eq_ok.mp h
      obtain ⟨rite, -, h⟩ := bind_eq_ok.mp h
      cases pure_eq_ok.mp h
    · split_ifs at h
      cases h

theorem decode_of_deletion {muid : Muid} {builder : EntryBuilder} {occupant : Occupant}
    (h : builder.deletion = true) (ho : decodeEntryOccupant muid builder = .ok occupant) :
    occupant = .deletion := by
  unfold decodeEntryOccupant at ho
  rw [if_pos h] at ho
  exact (Except.ok.inj ho).symm

/-- What an entry holds, if that is a muid, its pointee refers to. -/
theorem pointee_of_decode {muid m : Muid} {builder : EntryBuilder} {occupant : Occupant}
    (ho : decodeEntryOccupant muid builder = .ok occupant) (hm : occupant.muid? = some m) :
    ∃ pointee, builder.pointee? = some pointee ∧ resolve muid.context pointee = .ok m := by
  unfold decodeEntryOccupant at ho
  by_cases hd : builder.deletion = true
  · rw [if_pos hd] at ho
    rw [← Except.ok.inj ho] at hm
    cases hm
  · rw [if_neg hd] at ho
    cases hp : builder.pointee? with
    | some pointee =>
        rw [hp] at ho
        obtain ⟨m', hm', rfl⟩ := map_eq_ok.mp ho
        injection hm with hm
        exact ⟨pointee, rfl, hm ▸ hm'⟩
    | none =>
        exfalso
        rw [hp] at ho
        split at ho
        · rename_i heq
          cases heq
        · obtain ⟨v, -, rfl⟩ := map_eq_ok.mp ho
          cases hm
        · obtain ⟨left, -, ho⟩ := bind_eq_ok.mp ho
          obtain ⟨rite, -, ho⟩ := bind_eq_ok.mp ho
          rw [← pure_eq_ok.mp ho] at hm
          cases hm
        · split_ifs at ho
          rw [← Except.ok.inj ho] at hm
          cases hm

/-- What is compared when the keys are gone through is what the row itself starts with; the row
of a box is one of 40 bytes then. -/
theorem box_throughMiddle {data : Bytes} {box instant : Muid} {limit : Bytes}
    (hlimit : (Placement.mk box .none instant none).toBytes = .ok limit)
    (hsame : limit.take (limit.length - 24) = data.take (data.length - 24)) :
    data.take (data.length - 24) = box.toBytes ∧ data.length = 40 := by
  obtain ⟨middle, expiry, hmiddle, hexpiry, rfl⟩ := Placement.toBytes_eq_ok hlimit
  have hnil : middle = [] := (Except.ok.inj hmiddle).symm
  have hlen : expiry.length = 8 := length_of_encodeMuts hexpiry
  subst hnil
  have htake : (box.toBytes ++ [] ++ instant.toBytes ++ expiry).take
      ((box.toBytes ++ [] ++ instant.toBytes ++ expiry).length - 24) = box.toBytes := by
    rw [List.append_nil, List.append_assoc]
    have : (box.toBytes ++ (instant.toBytes ++ expiry)).length - 24 = box.toBytes.length := by
      simp only [List.length_append, Muid.length_toBytes, hlen]
    rw [this, List.take_left]
  rw [show ((⟨box, .none, instant, none⟩ : Placement)).container = box from rfl,
    show ((⟨box, .none, instant, none⟩ : Placement)).placer = instant from rfl, htake] at hsame
  refine ⟨hsame.symm, ?_⟩
  have := congrArg List.length hsame
  rw [List.length_take, Muid.length_toBytes] at this
  omega

theorem middle_of_box {placement : Placement} {data : Bytes}
    (h : Placement.fromBytes data .box = .ok placement) : placement.middle = .none := by
  unfold Placement.fromBytes at h
  obtain ⟨placer, -, h⟩ := bind_eq_ok.mp h
  obtain ⟨middle, hmiddle, h⟩ := bind_eq_ok.mp h
  obtain ⟨container, -, h⟩ := bind_eq_ok.mp h
  obtain ⟨expiry, -, h⟩ := bind_eq_ok.mp h
  rw [← pure_eq_ok.mp h]
  exact (Except.ok.inj hmiddle).symm

/-- Zeroes sort first. -/
theorem not_lt_zeros {n : Nat} : ∀ {x : Bytes}, x.length = n → ¬ x < List.replicate n 0 := by
  induction n with
  | zero =>
      intro x _ h
      exact List.not_lt_nil x h
  | succ n ih =>
      intro x hx h
      cases x with
      | nil => cases hx
      | cons b rest =>
          rw [List.replicate_succ, List.cons_lt_cons_iff] at h
          rcases h with h | ⟨-, h⟩
          · exact absurd h (Fin.not_lt_zero b)
          · exact ih (by simpa using hx) h

/-- The hop within a box is aimed below its rows. -/
def boxFloor (box : Muid) : Bytes := box.toBytes ++ List.replicate 24 0

/-- No other row of a box as long as its rows are lies below the floor. -/
theorem eq_boxFloor {box : Muid} {data : Bytes} (hown : data.take 16 = box.toBytes)
    (hlen : data.length = 40) (hle : data ≤ boxFloor box) : data = boxFloor box := by
  have hdata : data = box.toBytes ++ data.drop 16 := by rw [← hown, List.take_append_drop]
  have hlow : ¬ data.drop 16 < List.replicate 24 0 :=
    not_lt_zeros (by rw [List.length_drop, hlen])
  have hhigh : ¬ List.replicate 24 0 < data.drop 16 := by
    intro h
    rw [hdata] at hle
    exact not_lt.mpr hle ((Bytes.append_lt_append_left_iff _ _ _).mpr h)
  rw [hdata, le_antisymm (not_lt.mp hhigh) (not_lt.mp hlow)]
  rfl

theorem toBytes_boxFloor (box : Muid) :
    (Placement.mk box .none ⟨0, 0, 0⟩ none).toBytes = .ok (boxFloor box) := by
  show Except.ok (box.toBytes ++ [] ++ (⟨0, 0, 0⟩ : Muid).toBytes ++ packSigned 0) = _
  rw [List.append_nil, List.append_assoc]
  rfl

theorem placer_of_fromBytes {data : Bytes} {behavior : Behavior} {p : Placement}
    (h : Placement.fromBytes data behavior = .ok p) :
    Muid.fromBytes (Placement.placerSlice data) = .ok p.placer := by
  unfold Placement.fromBytes at h
  obtain ⟨placer, hplacer, h⟩ := bind_eq_ok.mp h
  obtain ⟨middle, -, h⟩ := bind_eq_ok.mp h
  obtain ⟨container, -, h⟩ := bind_eq_ok.mp h
  obtain ⟨expiry, -, h⟩ := bind_eq_ok.mp h
  rw [← pure_eq_ok.mp h]
  exact hplacer

/-- Placements start with their container. -/
theorem container_of_limit {p : Placement} {limit : Bytes} (hlimit : p.toBytes = .ok limit) :
    p.container.toBytes <+: limit := by
  obtain ⟨middle, expiry, -, -, rfl⟩ := Placement.toBytes_eq_ok hlimit
  rw [List.append_assoc, List.append_assoc]
  exact List.prefix_append _ _

theorem container_of_throughMiddle {p : Placement} {limit data : Bytes}
    (hlimit : p.toBytes = .ok limit)
    (hsame : limit.take (limit.length - 24) = data.take (data.length - 24)) :
    p.container.toBytes <+: data.take (data.length - 24) := by
  rw [← hsame]
  obtain ⟨middle, expiry, -, hexpiry, rfl⟩ := Placement.toBytes_eq_ok hlimit
  have hlen : expiry.length = 8 := length_of_encodeMuts hexpiry
  rw [List.append_assoc, List.append_assoc]
  exact List.prefix_take_iff.mpr ⟨List.prefix_append _ _, by
    simp only [List.length_append, Muid.length_toBytes, hlen]
    omega⟩

/-! ## §4. What the validator accepts. -/

/-- Every entry that comes with the bundle, also encrypted, has the property. -/
def EntriesOf (P : EntryBuilder → Prop) (lib : Externals) (symmetricKey : U64 → Except Error Bytes)
    (d : Decomposition) : Prop :=
  ∀ builder changes, d.getBuilder lib = .ok builder →
    openChanges lib symmetricKey builder = .ok changes → ∀ e, .entry e ∈ changes → P e

/-- `validate_bundle` has nothing against the change. -/
def ChangeBuilder.Valid : ChangeBuilder → Prop
  | .entry e => e.wellFormed = true
  | _ => True

theorem validateBundle_eq_ok {builder : BundleBuilder} :
    validateBundle builder = .ok () ↔ ∀ change ∈ builder.changes, change.Valid := by
  unfold validateBundle
  induction builder.changes with
  | nil => simp [pure, Except.pure]
  | cons change rest ih =>
      rw [List.forM_eq_forM, List.forM_cons, List.forall_mem_cons, ← ih]
      cases change with
      | entry e =>
          show (ensure e.wellFormed e.validationError >>= _) = _ ↔ e.wellFormed = true ∧ _
          cases e.wellFormed <;> simp [bind, Except.bind]
      | _ => simp [bind, Except.bind, ChangeBuilder.Valid]

end Gink
