/-
  Gink.Keyed.Packing — packed placements of any behavior (coding.py).

  A packed placement is its container, its middle, its placer and its expiry, one after the
  other without separators.  The middles of one behavior are prefix-free, so the rows of a
  container and those of one of its keys stand together, and a row can be taken apart again.
  What does not come back is a middle or an expiry that packs to one of the two special
  values, or to nothing at all (`Packable`).
-/
import Gink.Keyed.Order
import Gink.Proto.Validation

namespace Gink

/-! ## §1. The middles of a behavior. -/

/-- The middle keys that accepted entries of the behavior have; positions are `sint64`. -/
def MiddleFits : Behavior → MiddleKey → Prop
  | .sequence, .queue t | .edgeType, .queue t => -2 ^ 63 ≤ t ∧ t < 2 ^ 63
  | .vertex, .none | .accumulator, .none => True
  | behavior, k => KeyOf behavior k

/-- What such a middle can be. -/
theorem MiddleFits.cases {behavior : Behavior} {k : MiddleKey} (h : MiddleFits behavior k) :
    (KeyOf behavior k) ∨ ((behavior = .sequence ∨ behavior = .edgeType) ∧
      ∃ t, k = .queue t ∧ -2 ^ 63 ≤ t ∧ t < 2 ^ 63) ∨
    ((behavior = .vertex ∨ behavior = .accumulator) ∧ k = .none) := by
  unfold MiddleFits at h
  split at h
  · exact Or.inr (Or.inl ⟨Or.inl rfl, _, rfl, h⟩)
  · exact Or.inr (Or.inl ⟨Or.inr rfl, _, rfl, h⟩)
  · exact Or.inr (Or.inr ⟨Or.inl rfl, rfl⟩)
  · exact Or.inr (Or.inr ⟨Or.inr rfl, rfl⟩)
  · exact Or.inl h

/-- The middle key of an accepted entry. -/
theorem middleFits_of_builder {builder : EntryBuilder} {m : Muid} {k : MiddleKey}
    (hvalid : builder.wellFormed = true) (h : Placement.middleOf builder m = .ok k)
    (heffective : -2 ^ 63 ≤ builder.effective ∧ builder.effective < 2 ^ 63) :
    MiddleFits builder.behavior k := by
  have htime := m.timestamp_ge
  have hsmall := m.timeField.isLt
  have hposition : -2 ^ 63 ≤ orElse builder.effective m.timestamp ∧
      orElse builder.effective m.timestamp < 2 ^ 63 := by
    unfold orElse Muid.timestamp at *
    split_ifs at * <;> omega
  have hkeyed : builder.hasUserKey = true → ∃ key, builder.key = some key :=
    fun h => Option.isSome_iff_exists.mp h
  unfold Placement.middleOf at h
  unfold EntryBuilder.wellFormed at hvalid
  cases hbehavior : builder.behavior
  all_goals rw [hbehavior] at h hvalid
  all_goals simp only [Bool.and_eq_true] at h hvalid
  case directory | keySet =>
      obtain ⟨key, hkey⟩ := hkeyed hvalid.1
      rw [hkey] at h
      cases h
      trivial
  case box | vertex | accumulator =>
      cases h
      trivial
  case sequence | edgeType =>
      cases h
      exact hposition
  case property | group | braid =>
      obtain ⟨described, -, rfl⟩ := map_eq_ok.mp h
      trivial
  case pairSet | pairMap =>
      obtain ⟨left, -, h⟩ := bind_eq_ok.mp h
      obtain ⟨rite, -, h⟩ := bind_eq_ok.mp h
      cases h
      trivial
  all_goals cases h

/-! ## §2. Packing. -/

theorem packSigned_inj {s t : Int} (hs : -2 ^ 63 ≤ s ∧ s < 2 ^ 63) (ht : -2 ^ 63 ≤ t ∧ t < 2 ^ 63) :
    packSigned s = packSigned t ↔ s = t := by
  unfold packSigned
  rw [Bytes.beEncode_inj (by omega) (by omega)]
  omega

theorem encodeMuts_eq {t : Int} (ht : -2 ^ 63 ≤ t ∧ t < 2 ^ 63) : encodeMuts t = .ok (packSigned t) := by
  unfold encodeMuts intInf
  rw [if_neg (by omega), if_pos ht]

/-- Two special values aside, a packed time reads back. -/
theorem decodeMuts_signed {t : Int} (ht : -2 ^ 63 ≤ t ∧ t < 2 ^ 63) :
    decodeMuts (packSigned t) = .ok (if t = 0 then none else if t = -1 then some intInf else some t) := by
  have hraw : (Bytes.beDecode (packSigned t) : Int) = t % 2 ^ 64 := by
    unfold packSigned
    rw [Bytes.beDecode_beEncode (by omega)]
    omega
  unfold decodeMuts
  rw [if_pos (length_packSigned t)]
  simp only [hraw]
  split_ifs <;> first | rfl | omega | exact congrArg _ (congrArg _ (by omega))

/-- **Packed middles of a behavior are prefix-free.** -/
theorem MiddleFits.append_inj {behavior : Behavior} {k k' : MiddleKey} {b b' x y : Bytes}
    (hk : MiddleFits behavior k) (hk' : MiddleFits behavior k') (hb : k.toBytes = .ok b)
    (hb' : k'.toBytes = .ok b') (h : b ++ x = b' ++ y) : k = k' ∧ x = y := by
  rcases hk.cases with hkey | ⟨hordered, t, rfl, ht⟩ | ⟨halone, rfl⟩
  · have hkey' : KeyOf behavior k' := by
      rcases hk'.cases with hkey' | ⟨rfl | rfl, -⟩ | ⟨rfl | rfl, -⟩
      · exact hkey'
      all_goals exact absurd hkey (by cases k <;> exact id)
    exact hkey.append_inj hkey' hb hb' h
  · have hordered' : ∃ t, k' = .queue t ∧ -2 ^ 63 ≤ t ∧ t < 2 ^ 63 := by
      rcases hk'.cases with hkey' | ⟨-, hposition⟩ | ⟨halone, -⟩
      · rcases hordered with rfl | rfl <;> cases k' <;> exact absurd hkey' id
      · exact hposition
      · rcases hordered with rfl | rfl <;> rcases halone with h | h <;> cases h
    obtain ⟨t', rfl, ht'⟩ := hordered'
    have hb : packSigned t = b := Except.ok.inj ((encodeMuts_eq ht).symm.trans hb)
    have hb' : packSigned t' = b' := Except.ok.inj ((encodeMuts_eq ht').symm.trans hb')
    rw [← hb, ← hb'] at h
    obtain ⟨hsame, hrest⟩ := List.append_inj h (by simp)
    rw [(packSigned_inj ht ht').mp hsame]
    exact ⟨rfl, hrest⟩
  · have hnone : k' = .none := by
      rcases hk'.cases with hkey' | ⟨hordered, -⟩ | ⟨-, hnone⟩
      · rcases halone with rfl | rfl <;> cases k' <;> exact absurd hkey' id
      · rcases hordered with rfl | rfl <;> rcases halone with h | h <;> cases h
      · exact hnone
    subst hnone
    cases hb
    cases hb'
    exact ⟨rfl, h⟩

/-! ## §3. Placements. -/

/-- The entry packs to what reads back: its expiry is one of a signed field or the unsigned
top, an integer key is in range, and its position is not -1, which stands for infinity. -/
def Packable (builder : EntryBuilder) (info : BundleInfo) : Prop :=
  (builder.expiry.val < 2 ^ 63 ∨ builder.expiry.val = 2 ^ 64 - 1) ∧
  match builder.behavior with
  | .directory | .keySet => ∀ n, builder.key = some (.number n) → n.natAbs ≤ keyMax
  | .sequence | .edgeType => builder.effective ≠ -1 ∧
      (builder.effective = 0 → info.timestamp.val ≠ 2 ^ 52 - 1)
  | _ => True

/-- The placement reads back from its packed form, which packs to the same bytes again. -/
def RoundTrips (behavior : Behavior) (p : Placement) : Prop :=
  ∃ data, p.toBytes = .ok data ∧ Placement.fromBytes data behavior = .ok p ∧
    (Placement.fromBytes data behavior).bind Placement.toBytes = .ok data

/-- Packed placements stand by container, then by key, then by placer. -/
structure Grouped (p q : Placement) : Prop where
  /-- A container and key in front of another pair is that pair. -/
  separate : ∀ b b', p.middle.toBytes = .ok b → q.middle.toBytes = .ok b' →
    p.container.toBytes ++ b <+: q.container.toBytes ++ b' →
      p.container = q.container ∧ p.middle = q.middle
  containers : ∀ data data', p.toBytes = .ok data → q.toBytes = .ok data' →
    p.container ≠ q.container → (data < data' ↔ p.container < q.container)
  keys : ∀ data data' b b', p.toBytes = .ok data → q.toBytes = .ok data' →
    p.middle.toBytes = .ok b → q.middle.toBytes = .ok b' → p.container = q.container →
      p.middle ≠ q.middle → (data < data' ↔ b < b')
  placers : ∀ data data', p.toBytes = .ok data → q.toBytes = .ok data' →
    p.container = q.container → p.middle = q.middle → p.placer ≠ q.placer →
      (data < data' ↔ p.placer < q.placer)

section
variable {builder : EntryBuilder} {info : BundleInfo} {offset : Nat} {p : Placement}

/-- Read back, a packed placement is its parts read back. -/
theorem fromBytes_append {container placer : Muid} {middle expiry : Bytes} (behavior : Behavior)
    (hexpiry : expiry.length = 8) :
    Placement.fromBytes (container.toBytes ++ middle ++ placer.toBytes ++ expiry) behavior = (do
      let key ← Placement.middleFromBytes middle behavior
      let time ← decodeMuts expiry
      return ⟨container, key, placer, time⟩) := by
  obtain ⟨h1, h2, h3, h4⟩ := @Placement.slices_append container.toBytes middle placer.toBytes expiry
    (Muid.length_toBytes container) (Muid.length_toBytes placer) hexpiry
  unfold Placement.fromBytes
  rw [h1, h2, h3, h4, Muid.fromBytes_toBytes, Muid.fromBytes_toBytes]
  rfl

/-- The middle of an accepted entry reads back unless it is a position of -1. -/
theorem middle_reads_back {behavior : Behavior} {k : MiddleKey} {b : Bytes}
    (hk : MiddleFits behavior k) (hb : k.toBytes = .ok b) (hzero : k ≠ .queue 0) :
    Placement.middleFromBytes b behavior = .ok k ↔ k ≠ .queue (-1) := by
  rcases hk.cases with hkey | ⟨hordered, t, rfl, ht⟩ | ⟨halone, rfl⟩
  · refine iff_of_true (hkey.middleFromBytes hb) ?_
    rintro rfl
    cases behavior <;> exact hkey
  · have hpacked : packSigned t = b := Except.ok.inj ((encodeMuts_eq ht).symm.trans hb)
    have ht0 : t ≠ 0 := fun h => hzero (h ▸ rfl)
    have hread : Placement.middleFromBytes b behavior
        = .ok (.queue (if t = -1 then intInf else t)) := by
      have hdecode : decodeMuts (b.take 8) = .ok (some (if t = -1 then intInf else t)) := by
        rw [← hpacked, List.take_of_length_le (by simp), decodeMuts_signed ht, if_neg ht0]
        split_ifs <;> rfl
      have hlen : b.length = 8 := by rw [← hpacked, length_packSigned]
      rcases hordered with rfl | rfl
      all_goals
        unfold Placement.middleFromBytes
        simp only [hdecode, hlen]
        rfl
    rw [hread]
    constructor
    · rintro hsame heq
      rw [MiddleKey.queue.inj heq] at hsame
      exact absurd hsame (by decide)
    · intro hne
      have hne : t ≠ -1 := fun h => hne (h ▸ rfl)
      rw [if_neg hne]
  · cases hb
    refine iff_of_true ?_ (by simp)
    rcases halone with rfl | rfl <;> rfl

/-- The expiry that a placement has for an entry. -/
def placedExpiry (builder : EntryBuilder) : Option Int :=
  if builder.expiry.val = 0 then none else some builder.expiry.val

/-- The expiry of an entry reads back whenever it packs. -/
theorem expiry_packs_iff (builder : EntryBuilder) :
    (∃ b, encodeMuts ((placedExpiry builder).getD 0) = .ok b) ↔
      (builder.expiry.val < 2 ^ 63 ∨ builder.expiry.val = 2 ^ 64 - 1) := by
  have hlt := builder.expiry.isLt
  unfold placedExpiry encodeMuts intInf
  by_cases hzero : builder.expiry.val = 0
  · rw [if_pos hzero, Option.getD_none]
    exact iff_of_true ⟨_, rfl⟩ (Or.inl (by omega))
  · rw [if_neg hzero, Option.getD_some]
    split_ifs with htop hfits
    · exact iff_of_true ⟨_, rfl⟩ (Or.inr (by omega))
    · exact iff_of_true ⟨_, rfl⟩ (Or.inl (by omega))
    · refine iff_of_false ?_ (by omega)
      rintro ⟨b, hb⟩
      cases hb

theorem expiry_reads_back {b : Bytes} (hb : encodeMuts ((placedExpiry builder).getD 0) = .ok b) :
    decodeMuts b = .ok (placedExpiry builder) := by
  have hfits := (expiry_packs_iff builder).mp ⟨b, hb⟩
  unfold placedExpiry at hb ⊢
  by_cases hzero : builder.expiry.val = 0
  · rw [if_pos hzero, Option.getD_none] at hb
    cases hb
    rw [if_pos hzero]
    exact decodeMuts_signed (t := 0) (by omega)
  · rw [if_neg hzero, Option.getD_some] at hb
    rw [if_neg hzero]
    rcases hfits with hsmall | htop
    · have ht : -2 ^ 63 ≤ (builder.expiry.val : Int) ∧ (builder.expiry.val : Int) < 2 ^ 63 := by omega
      rw [encodeMuts_eq ht] at hb
      cases hb
      rw [decodeMuts_signed ht, if_neg (by omega), if_neg (by omega)]
    · have hinf : (builder.expiry.val : Int) = intInf := by
        unfold intInf
        omega
      rw [hinf] at hb ⊢
      unfold encodeMuts at hb
      rw [if_pos rfl] at hb
      cases hb
      exact decodeMuts_signed (t := -1) (by omega)

/-- A middle that does not pack is an integer key out of range. -/
theorem middle_packs_iff {behavior : Behavior} {k : MiddleKey} (hk : MiddleFits behavior k) :
    (∃ b, k.toBytes = .ok b) ↔ ∀ n, k = .key (.number n) → n.natAbs ≤ keyMax := by
  cases k with
  | none => exact iff_of_true ⟨_, rfl⟩ (fun n h => nomatch h)
  | muid m => exact iff_of_true ⟨_, rfl⟩ (fun n h => nomatch h)
  | pair l r => exact iff_of_true ⟨_, rfl⟩ (fun n h => nomatch h)
  | queue t =>
      rcases hk.cases with hkey | ⟨-, t', ht', hrange⟩ | ⟨-, hnone⟩
      · exact absurd hkey (by cases behavior <;> exact id)
      · cases ht'
        exact iff_of_true ⟨_, encodeMuts_eq hrange⟩ (fun n h => nomatch h)
      · cases hnone
  | key key =>
      cases key with
      | octets b => exact iff_of_true ⟨_, rfl⟩ (fun n h => nomatch h)
      | characters c => exact iff_of_true ⟨_, rfl⟩ (fun n h => nomatch h)
      | number n =>
          unfold MiddleKey.toBytes encodeKey
          simp only
          split_ifs with hlarge
          · refine iff_of_false ?_ (fun h => absurd (h n rfl) (not_le.mpr hlarge))
            rintro ⟨b, hb⟩
            cases hb
          · refine iff_of_true ⟨_, rfl⟩ ?_
            rintro n' h
            cases h
            exact not_lt.mp hlarge

/-- **A placement reads back** exactly when it packs and its position is not -1. -/
theorem roundTrips_iff {behavior : Behavior} (hk : MiddleFits behavior p.middle)
    (hzero : p.middle ≠ .queue 0) (hexpiry : p.expiry = placedExpiry builder) :
    RoundTrips behavior p ↔
      (builder.expiry.val < 2 ^ 63 ∨ builder.expiry.val = 2 ^ 64 - 1) ∧
        (∀ n, p.middle = .key (.number n) → n.natAbs ≤ keyMax) ∧ p.middle ≠ .queue (-1) := by
  rw [← expiry_packs_iff, ← middle_packs_iff hk]
  constructor
  · rintro ⟨data, hdata, hback, -⟩
    obtain ⟨middle, expiry, hmiddle, he, rfl⟩ := Placement.toBytes_eq_ok hdata
    rw [hexpiry] at he
    refine ⟨⟨_, he⟩, ⟨_, hmiddle⟩, (middle_reads_back hk hmiddle hzero).mp ?_⟩
    rw [fromBytes_append behavior (length_of_encodeMuts he)] at hback
    obtain ⟨key, hkey, hback⟩ := bind_eq_ok.mp hback
    obtain ⟨time, -, hback⟩ := bind_eq_ok.mp hback
    rw [hkey, ← pure_eq_ok.mp hback]
  · rintro ⟨⟨expiry, he⟩, ⟨middle, hmiddle⟩, hne⟩
    have hdata : p.toBytes = .ok (p.container.toBytes ++ middle ++ p.placer.toBytes ++ expiry) := by
      unfold Placement.toBytes
      rw [hmiddle, hexpiry, he]
      rfl
    have hback : Placement.fromBytes (p.container.toBytes ++ middle ++ p.placer.toBytes ++ expiry)
        behavior = .ok p := by
      rw [fromBytes_append behavior (length_of_encodeMuts he),
        (middle_reads_back hk hmiddle hzero).mpr hne, expiry_reads_back he, ← hexpiry]
      rfl
    refine ⟨_, hdata, hback, ?_⟩
    rw [hback]
    exact hdata

/-- **Packed placements of one behavior are grouped.** -/
theorem grouped {behavior : Behavior} {q : Placement} (hp : MiddleFits behavior p.middle)
    (hq : MiddleFits behavior q.middle) : Grouped p q := by
  constructor
  · rintro b b' hb hb' ⟨x, hx⟩
    rw [List.append_assoc] at hx
    obtain ⟨hcontainer, hrest⟩ := List.append_inj hx (by simp)
    have hrest : b ++ x = b' ++ [] := by rw [hrest, List.append_nil]
    exact ⟨Muid.toBytes_injective hcontainer, (hp.append_inj hq hb hb' hrest).1⟩
  · intro data data' hdata hdata' hne
    obtain ⟨middle, expiry, -, -, rfl⟩ := Placement.toBytes_eq_ok hdata
    obtain ⟨middle', expiry', -, -, rfl⟩ := Placement.toBytes_eq_ok hdata'
    simp only [List.append_assoc]
    rw [Bytes.append_lt_append_iff (by simp), Muid.toBytes_inj, Muid.toBytes_lt_iff]
    exact ⟨fun h => h.elim id fun h => absurd h.1 hne, Or.inl⟩
  · intro data data' b b' hdata hdata' hb hb' hcontainer hne
    obtain ⟨middle, expiry, hmiddle, -, rfl⟩ := Placement.toBytes_eq_ok hdata
    obtain ⟨middle', expiry', hmiddle', -, rfl⟩ := Placement.toBytes_eq_ok hdata'
    cases Except.ok.inj (hmiddle.symm.trans hb)
    cases Except.ok.inj (hmiddle'.symm.trans hb')
    have hdiverge {k k' : MiddleKey} {c c' : Bytes} (hk : MiddleFits behavior k)
        (hk' : MiddleFits behavior k') (hc : k.toBytes = .ok c) (hc' : k'.toBytes = .ok c')
        (hne : k ≠ k') : ¬ c <+: c' := by
      rintro ⟨x, hx⟩
      have hx : c ++ x = c' ++ [] := by rw [hx, List.append_nil]
      exact hne (hk.append_inj hk' hc hc' hx).1
    rw [hcontainer]
    simp only [List.append_assoc]
    rw [Bytes.append_lt_append_left_iff]
    exact Bytes.append_lt_append_of_diverge (hdiverge hp hq hb hb' hne)
      (hdiverge hq hp hb' hb (Ne.symm hne)) _ _
  · intro data data' hdata hdata' hcontainer hmiddle hne
    obtain ⟨middle, expiry, hb, -, rfl⟩ := Placement.toBytes_eq_ok hdata
    obtain ⟨middle', expiry', hb', -, rfl⟩ := Placement.toBytes_eq_ok hdata'
    rw [← hmiddle] at hb'
    cases Except.ok.inj (hb.symm.trans hb')
    rw [hcontainer]
    simp only [List.append_assoc]
    rw [Bytes.append_lt_append_left_iff, Bytes.append_lt_append_left_iff,
      Bytes.append_lt_append_iff (by simp), Muid.toBytes_inj, Muid.toBytes_lt_iff]
    exact ⟨fun h => h.elim id fun h => absurd h.1 hne, Or.inl⟩

/-- A position is that of the entry or, when it has none, the entry's timestamp. -/
theorem position_eq (h : changeMuid info offset = .ok p.placer)
    (hmiddle : p.middle = .queue (orElse builder.effective p.placer.timestamp)) :
    p.middle ≠ .queue 0 ∧ (p.middle = .queue (-1) ↔
      builder.effective = -1 ∨ (builder.effective = 0 ∧ info.timestamp.val = 2 ^ 52 - 1)) := by
  obtain ⟨htime, -, -, hzero⟩ := changeMuid_eq_ok h
  have hlt := p.placer.timeField.isLt
  have hstamp : p.placer.timestamp ≠ 0 ∧
      (p.placer.timestamp = -1 ↔ info.timestamp.val = 2 ^ 52 - 1) := by
    unfold Muid.timestamp
    rw [htime]
    split_ifs with htop
    · exact ⟨by omega, iff_of_true rfl htop⟩
    · exact ⟨by omega, iff_of_false (fun heq => by omega) htop⟩
  rw [hmiddle]
  unfold orElse
  refine ⟨?_, ?_⟩
  · intro heq
    have hposition := MiddleKey.queue.inj heq
    split_ifs at hposition with h0
    · exact hstamp.1 hposition
    · exact h0 hposition
  · rw [MiddleKey.queue.injEq, ← hstamp.2]
    split_ifs with h0
    · simp [h0]
    · simp [h0]

/-- What decides whether a placement reads back can be told from the entry. -/
theorem packable_iff (h : Placement.fromBuilder builder info offset = .ok p)
    (hvalid : builder.wellFormed = true) :
    p.middle ≠ .queue 0 ∧ (Packable builder info ↔
      (builder.expiry.val < 2 ^ 63 ∨ builder.expiry.val = 2 ^ 64 - 1) ∧
        (∀ n, p.middle = .key (.number n) → n.natAbs ≤ keyMax) ∧ p.middle ≠ .queue (-1)) := by
  obtain ⟨hchange, -, hmiddle, -⟩ := Placement.fromBuilder_eq_ok h
  unfold Packable
  unfold Placement.middleOf at hmiddle
  unfold EntryBuilder.wellFormed at hvalid
  cases hbehavior : builder.behavior
  all_goals rw [hbehavior] at hmiddle hvalid
  all_goals simp only [Bool.and_eq_true] at hmiddle hvalid
  case directory | keySet =>
      obtain ⟨key, hkey⟩ := Option.isSome_iff_exists.mp hvalid.1
      rw [hkey] at hmiddle
      have hp : p.middle = .key key := (Except.ok.inj hmiddle).symm
      rw [hp, hkey]
      simp
  case sequence | edgeType =>
      obtain ⟨hzero, hone⟩ := position_eq hchange (Except.ok.inj hmiddle).symm
      have hp := (Except.ok.inj hmiddle).symm
      refine ⟨hzero, and_congr_right fun _ => ?_⟩
      rw [ne_eq (a := p.middle), hone]
      constructor
      · rintro ⟨hne, himp⟩
        refine ⟨fun n hn => ?_, ?_⟩
        · rw [hp] at hn
          cases hn
        · rintro (heq | ⟨h0, htop⟩)
          · exact hne heq
          · exact himp h0 htop
      · rintro ⟨-, hnot⟩
        exact ⟨fun heq => hnot (Or.inl heq), fun h0 htop => hnot (Or.inr ⟨h0, htop⟩)⟩
  case box | vertex | accumulator =>
      rw [← Except.ok.inj hmiddle]
      simp
  case property | group | braid =>
      obtain ⟨described, -, hp⟩ := map_eq_ok.mp hmiddle
      rw [← hp]
      simp
  case pairSet | pairMap =>
      obtain ⟨left, -, hmiddle⟩ := bind_eq_ok.mp hmiddle
      obtain ⟨rite, -, hmiddle⟩ := bind_eq_ok.mp hmiddle
      rw [← Except.ok.inj hmiddle]
      simp
  all_goals cases hmiddle

end

/-- **Placements of accepted entries** of one behavior read back and stand by container, key
and placer, exactly when both entries are packable. -/
theorem placements_encode_iff (builder builder' : EntryBuilder) (info info' : BundleInfo)
    (offset offset' : Nat) (p q : Placement)
    (hp : Placement.fromBuilder builder info offset = .ok p)
    (hq : Placement.fromBuilder builder' info' offset' = .ok q)
    (hvalid : builder.wellFormed = true) (hvalid' : builder'.wellFormed = true)
    (heffective : -2 ^ 63 ≤ builder.effective ∧ builder.effective < 2 ^ 63)
    (heffective' : -2 ^ 63 ≤ builder'.effective ∧ builder'.effective < 2 ^ 63)
    (hbehavior : builder.behavior = builder'.behavior) :
    (RoundTrips builder.behavior p ∧ RoundTrips builder'.behavior q ∧ Grouped p q) ↔
      Packable builder info ∧ Packable builder' info' := by
  have hfits := middleFits_of_builder hvalid (Placement.fromBuilder_eq_ok hp).2.2.1 heffective
  have hfits' := middleFits_of_builder hvalid' (Placement.fromBuilder_eq_ok hq).2.2.1 heffective'
  obtain ⟨hzero, hpackable⟩ := packable_iff hp hvalid
  obtain ⟨hzero', hpackable'⟩ := packable_iff hq hvalid'
  rw [hpackable, hpackable',
    ← roundTrips_iff hfits hzero (Placement.fromBuilder_eq_ok hp).2.2.2,
    ← roundTrips_iff hfits' hzero' (Placement.fromBuilder_eq_ok hq).2.2.2]
  rw [← hbehavior] at hfits'
  exact ⟨fun h => ⟨h.1, h.2.1⟩, fun h => ⟨h.1, h.2, grouped hfits hfits'⟩⟩

/-- An entry of the global sequence at a position. -/
def positionedEntry (effective : Int) : EntryBuilder where
  container := some { timestamp := -1, medallion := -1, offset := 2 }
  behavior := .sequence
  effective := effective
  contains := some (.value (.characters "x"))

/-- Two positions, one of them negative. -/
theorem placements_encode_iff_sample :
    (RoundTrips .sequence ⟨globalMuid .sequence, .queue (-7), ⟨5, 1, 1⟩, none⟩ ∧
      RoundTrips .sequence ⟨globalMuid .sequence, .queue 9, ⟨5, 1, 2⟩, none⟩ ∧
      Grouped ⟨globalMuid .sequence, .queue (-7), ⟨5, 1, 1⟩, none⟩
        ⟨globalMuid .sequence, .queue 9, ⟨5, 1, 2⟩, none⟩) ↔
      Packable (positionedEntry (-7)) ⟨5, 1, 5, 0, [], ""⟩ ∧
        Packable (positionedEntry 9) ⟨5, 1, 5, 0, [], ""⟩ :=
  placements_encode_iff (positionedEntry (-7)) (positionedEntry 9) _ _ 1 2 _ _ rfl rfl rfl rfl
    (by decide) (by decide) rfl

/-- The position -1 reads back as infinity. -/
theorem position_lost :
    Placement.fromBuilder (positionedEntry (-1)) ⟨5, 1, 5, 0, [], ""⟩ 1
        = .ok ⟨globalMuid .sequence, .queue (-1), ⟨5, 1, 1⟩, none⟩ ∧
      (positionedEntry (-1)).wellFormed = true ∧
      ¬ RoundTrips .sequence ⟨globalMuid .sequence, .queue (-1), ⟨5, 1, 1⟩, none⟩ := by
  refine ⟨rfl, rfl, ?_⟩
  intro hround
  have hrange : MiddleFits .sequence (.queue (-1)) := by
    show (-2 ^ 63 : Int) ≤ -1 ∧ (-1 : Int) < 2 ^ 63
    omega
  have hexpiry : none = placedExpiry (positionedEntry (-1)) := rfl
  exact ((roundTrips_iff hrange (by simp) hexpiry).mp hround).2.2 rfl

end Gink
