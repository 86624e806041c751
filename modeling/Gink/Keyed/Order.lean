/-
  Gink.Keyed.Order — how the rows of one keyed container sort.

  All entries of a keyed container have keys of one kind, and packed keys of one kind
  are prefix-free.  The rows of a key are therefore adjacent in the placements table,
  sorted by the address that placed them, and the rows of different keys do not
  interleave.
-/
import Gink.Proto.Coding

namespace Gink

/-! ## §1. Keys of one kind. -/

/-- The keys that entries in a container of the behavior have. -/
def KeyOf : Behavior → MiddleKey → Prop
  | .directory, .key _ | .keySet, .key _ => True
  | .box, .none => True
  | .property, .muid _ | .group, .muid _ | .braid, .muid _ => True
  | .pairSet, .pair _ _ | .pairMap, .pair _ _ => True
  | _, _ => False

/-- How keys of a kind are packed. -/
inductive PackedKey : MiddleKey → Bytes → Prop
  | none : PackedKey .none []
  | key (k : UserKey) : PackedKey (.key k) k.serialize
  | muid (m : Muid) : PackedKey (.muid m) m.toBytes
  | pair (l r : Muid) : PackedKey (.pair l r) (l.toBytes ++ r.toBytes)

theorem encodeKey_eq_ok {k : UserKey} {b : Bytes} (h : encodeKey k = .ok b) : b = k.serialize := by
  cases k with
  | number n =>
      unfold encodeKey at h
      simp only at h
      split_ifs at h
      injection h with h
      exact h.symm
  | octets b' =>
      injection h with h
      exact h.symm
  | characters s =>
      injection h with h
      exact h.symm

theorem encodeKey_bounded {k : UserKey} {b : Bytes} (h : encodeKey k = .ok b) (n : Int)
    (hn : k = .number n) : n.natAbs < 2 ^ 53 := by
  subst hn
  unfold encodeKey keyMax at h
  simp only at h
  split_ifs at h
  omega

theorem KeyOf.packed {behavior : Behavior} {k : MiddleKey} {b : Bytes} (hk : KeyOf behavior k)
    (hb : k.toBytes = .ok b) : PackedKey k b := by
  cases k with
  | none =>
      injection hb with hb
      exact hb ▸ .none
  | key k => exact encodeKey_eq_ok hb ▸ .key k
  | muid m =>
      injection hb with hb
      exact hb ▸ .muid m
  | pair l r =>
      injection hb with hb
      exact hb ▸ .pair l r
  | queue t => cases behavior <;> exact absurd hk id

/-- **Packed keys of one kind are prefix-free.** -/
theorem KeyOf.append_inj {behavior : Behavior} {k k' : MiddleKey} {b b' x y : Bytes}
    (hk : KeyOf behavior k) (hk' : KeyOf behavior k') (hb : k.toBytes = .ok b)
    (hb' : k'.toBytes = .ok b') (h : b ++ x = b' ++ y) : k = k' ∧ x = y := by
  cases hk.packed hb with
  | none =>
      cases hk'.packed hb' with
      | none => exact ⟨rfl, h⟩
      | _ => cases behavior <;> first | exact absurd hk id | exact absurd hk' id
  | key k =>
      cases hk'.packed hb' with
      | key k' =>
          obtain ⟨rfl, hxy⟩ := UserKey.serialize_append_inj h
          exact ⟨rfl, hxy⟩
      | _ => cases behavior <;> first | exact absurd hk id | exact absurd hk' id
  | muid m =>
      cases hk'.packed hb' with
      | muid m' =>
          obtain ⟨hm, hxy⟩ := List.append_inj h (by simp)
          exact ⟨congrArg _ (Muid.toBytes_injective hm), hxy⟩
      | _ => cases behavior <;> first | exact absurd hk id | exact absurd hk' id
  | pair l r =>
      cases hk'.packed hb' with
      | pair l' r' =>
          obtain ⟨hm, hxy⟩ := List.append_inj h (by simp)
          obtain ⟨hl, hr⟩ := List.append_inj hm (by simp)
          rw [Muid.toBytes_injective hl, Muid.toBytes_injective hr]
          exact ⟨rfl, hxy⟩
      | _ => cases behavior <;> first | exact absurd hk id | exact absurd hk' id

/-- A packed key reads back. -/
theorem KeyOf.middleFromBytes {behavior : Behavior} {k : MiddleKey} {b : Bytes}
    (hk : KeyOf behavior k) (hb : k.toBytes = .ok b) :
    Placement.middleFromBytes b behavior = .ok k := by
  cases hk.packed hb with
  | none => cases behavior <;> first | exact absurd hk id | rfl
  | key k =>
      have hread := decodeKey_serialize k (encodeKey_bounded hb)
      cases behavior <;> first | exact absurd hk id | skip
      · simp [Placement.middleFromBytes, hread, Except.map]
      · simp [Placement.middleFromBytes, hread, Except.map]
  | muid m =>
      cases behavior <;> first | exact absurd hk id | skip
      all_goals simp [Placement.middleFromBytes, Except.map]
  | pair l r =>
      cases behavior <;> first | exact absurd hk id | skip
      all_goals
        unfold Placement.middleFromBytes
        rw [List.take_left' (Muid.length_toBytes l), List.drop_left' (Muid.length_toBytes l),
          Muid.fromBytes_toBytes, Muid.fromBytes_toBytes]
        rfl

/-! ## §2. The rows of a container. -/

/-- The packed placement of an entry; an expiry of 0 is none. -/
def expiringKey (container : Muid) (packed : Bytes) (placer : Muid) (expiry : U64) : Bytes :=
  container.toBytes ++ packed ++ placer.toBytes ++ packSigned expiry.val

/-- The packed placement of an entry that does not expire. -/
def rowKey (container : Muid) (packed : Bytes) (placer : Muid) : Bytes :=
  container.toBytes ++ packed ++ placer.toBytes ++ packSigned 0

theorem rowKey_eq (container : Muid) (packed : Bytes) (placer : Muid) :
    rowKey container packed placer = expiringKey container packed placer 0 := rfl

/-- The expiry that is read out of a row. -/
def readExpiry (expiry : U64) : Option Int :=
  if expiry.val = 0 then none
  else if expiry.val = 2 ^ 64 - 1 then some intInf
  else if expiry.val < 2 ^ 63 then some expiry.val
  else some (expiry.val - 2 ^ 64)

/-- The entry has expired by the time. -/
def Expired (asOf : Int) (expiry : U64) : Prop := ∃ e, readExpiry expiry = some e ∧ e < asOf

theorem expired_iff {asOf : Int} {expiry : U64} :
    (readExpiry expiry).any (fun e => decide (e < asOf)) = true ↔ Expired asOf expiry := by
  unfold Expired
  cases readExpiry expiry <;> simp

theorem not_expired_zero (asOf : Int) : ¬ Expired asOf 0 := by
  rintro ⟨e, he, -⟩
  cases he

theorem decodeMuts_readExpiry (expiry : U64) :
    decodeMuts (packSigned expiry.val) = .ok (readExpiry expiry) := by
  have hlt := expiry.isLt
  have hmod : ((expiry.val : Int) % 2 ^ 64).toNat = expiry.val := by omega
  have hraw : Bytes.beDecode (packSigned expiry.val) = expiry.val := by
    unfold packSigned
    rw [hmod]
    exact Bytes.beDecode_beEncode hlt
  unfold decodeMuts readExpiry
  rw [if_pos (length_packSigned _), hraw]
  simp only
  split_ifs <;> first | rfl | omega

theorem toBytes_eq_rowKey {container placer : Muid} {k : MiddleKey} {row : Bytes} :
    (Placement.mk container k placer none).toBytes = .ok row
      ↔ ∃ b, k.toBytes = .ok b ∧ row = rowKey container b placer := by
  have hzero : encodeMuts 0 = .ok (packSigned 0) := by decide
  constructor
  · intro h
    obtain ⟨b, expiry, hb, he, rfl⟩ := Placement.toBytes_eq_ok h
    rw [show ((none : Option Int).getD 0) = 0 from rfl, hzero] at he
    injection he with he
    exact ⟨b, hb, he ▸ rfl⟩
  · rintro ⟨b, hb, rfl⟩
    exact bind_eq_ok.mpr ⟨b, hb, bind_eq_ok.mpr ⟨_, hzero, rfl⟩⟩

section
variable (container : Muid) (b : Bytes) (placer : Muid) (e : U64)

/-- The parts of a row key. -/
theorem expiringKey_slices :
    (expiringKey container b placer e).take 16 = container.toBytes ∧
      Placement.middleSlice (expiringKey container b placer e) = b ∧
      Placement.placerSlice (expiringKey container b placer e) = placer.toBytes ∧
      Placement.expirySlice (expiringKey container b placer e) = packSigned e.val :=
  Placement.slices_append (Muid.length_toBytes container) (Muid.length_toBytes placer)
    (length_packSigned _)

/-- What precedes the placer. -/
theorem expiringKey_throughMiddle :
    (expiringKey container b placer e).take ((expiringKey container b placer e).length - 24)
      = container.toBytes ++ b := by
  have hlen : (expiringKey container b placer e).length - 24 = (container.toBytes ++ b).length := by
    unfold expiringKey
    simp only [List.length_append, Muid.length_toBytes, length_packSigned]
    omega
  rw [hlen]
  unfold expiringKey
  rw [List.append_assoc (container.toBytes ++ b)]
  exact List.take_left

theorem prefix_expiringKey : container.toBytes ++ b <+: expiringKey container b placer e := by
  unfold expiringKey
  rw [List.append_assoc (container.toBytes ++ b)]
  exact List.prefix_append _ _

theorem container_prefix_expiringKey : container.toBytes <+: expiringKey container b placer e :=
  (List.prefix_append _ _).trans (prefix_expiringKey container b placer e)

end

theorem rowKey_slices (container : Muid) (b : Bytes) (placer : Muid) :
    (rowKey container b placer).take 16 = container.toBytes ∧
      Placement.middleSlice (rowKey container b placer) = b ∧
      Placement.placerSlice (rowKey container b placer) = placer.toBytes ∧
      Placement.expirySlice (rowKey container b placer) = packSigned 0 :=
  expiringKey_slices container b placer 0

theorem container_prefix_rowKey (container : Muid) (b : Bytes) (m : Muid) :
    container.toBytes <+: rowKey container b m := container_prefix_expiringKey container b m 0

/-- A row key reads back as its placement. -/
theorem fromBytes_expiringKey {behavior : Behavior} {k : MiddleKey} {b : Bytes}
    (container placer : Muid) (e : U64) (hk : KeyOf behavior k) (hb : k.toBytes = .ok b) :
    Placement.fromBytes (expiringKey container b placer e) behavior
      = .ok ⟨container, k, placer, readExpiry e⟩ := by
  obtain ⟨h1, h2, h3, h4⟩ := expiringKey_slices container b placer e
  unfold Placement.fromBytes
  rw [h1, h2, h3, h4, decodeMuts_readExpiry, hk.middleFromBytes hb, Muid.fromBytes_toBytes,
    Muid.fromBytes_toBytes]
  rfl

/-- The rows of a key sort by placer, and by expiry after that. -/
theorem expiringKey_lt_iff (container : Muid) (b : Bytes) {m n : Muid} {e e' : U64} :
    expiringKey container b m e < expiringKey container b n e' ↔
      m < n ∨ m = n ∧ packSigned e.val < packSigned e'.val := by
  unfold expiringKey
  rw [List.append_assoc, List.append_assoc _ n.toBytes, Bytes.append_lt_append_left_iff,
    Bytes.append_lt_append_iff (by simp), Muid.toBytes_lt_iff, Muid.toBytes_inj]

section
variable (expiry : Muid → U64)

/-- With one expiry for each placer they sort by placer. -/
theorem expiringKey_lt_expiringKey (container : Muid) (b : Bytes) {m n : Muid} :
    expiringKey container b m (expiry m) < expiringKey container b n (expiry n) ↔ m < n := by
  rw [expiringKey_lt_iff]
  constructor
  · rintro (h | ⟨rfl, h⟩)
    · exact h
    · exact absurd h (lt_irrefl _)
  · exact Or.inl

theorem expiringKey_le_expiringKey (container : Muid) (b : Bytes) {m n : Muid} :
    expiringKey container b m (expiry m) ≤ expiringKey container b n (expiry n) ↔ m ≤ n := by
  rw [← not_lt, ← not_lt, expiringKey_lt_expiringKey]

end

/-- Against an address where the placer would stand. -/
theorem expiringKey_lt_append (container : Muid) (b : Bytes) (e : U64) {m n : Muid} :
    expiringKey container b m e < container.toBytes ++ b ++ n.toBytes ↔ m < n := by
  unfold expiringKey
  rw [List.append_assoc, Bytes.append_lt_append_left_iff]
  have h := Bytes.append_lt_append_iff (a := m.toBytes) (b := n.toBytes) (x := packSigned e.val)
    (y := []) (by simp)
  rw [List.append_nil] at h
  rw [h, Muid.toBytes_lt_iff]
  constructor
  · rintro (h | ⟨-, h⟩)
    · exact h
    · exact absurd h (Bytes.not_lt_nil _)
  · exact Or.inl

/-- The first address at the reserved time. -/
def reserved : Muid := ⟨⟨2 ^ 52 - 1, by omega⟩, 0, 0⟩

/-- A row's tail is below it. -/
theorem placer_lt_reserved {m : Muid} (hm : m.timeField.val < 2 ^ 52 - 1) (tail : Bytes) :
    m.toBytes ++ tail < reserved.toBytes := by
  have hlt : m < reserved := by
    rw [Muid.lt_iff_toNat_lt, Muid.toNat_lt_iff]
    refine Or.inl ?_
    rw [Fin.lt_def]
    exact hm
  have h := Bytes.append_lt_append_iff (a := m.toBytes) (b := reserved.toBytes)
    (x := tail) (y := []) (by simp)
  rw [List.append_nil] at h
  exact h.mpr (Or.inl (Muid.toBytes_lt_iff.mpr hlt))

section
variable {behavior : Behavior} {k k' : MiddleKey} {b b' : Bytes}

/-- Whatever starts with the key is a row of the key. -/
theorem key_eq_of_head (hk : KeyOf behavior k) (hk' : KeyOf behavior k') (hb : k.toBytes = .ok b)
    (hb' : k'.toBytes = .ok b') {container m : Muid} {e : U64}
    (h : container.toBytes ++ b <+: expiringKey container b' m e) : k = k' := by
  obtain ⟨x, hx⟩ := h
  unfold expiringKey at hx
  simp only [List.append_assoc] at hx
  exact (hk.append_inj hk' hb hb' (List.append_cancel_left hx)).1

/-- Keys of one kind do not continue one another. -/
theorem KeyOf.not_prefix (hk : KeyOf behavior k) (hk' : KeyOf behavior k') (hb : k.toBytes = .ok b)
    (hb' : k'.toBytes = .ok b') (hne : k ≠ k') : ¬ b <+: b' := by
  rintro ⟨x, hx⟩
  have h : b ++ x = b' ++ [] := by rw [hx, List.append_nil]
  exact hne (hk.append_inj hk' hb hb' h).1

/-- Different keys are packed differently. -/
theorem KeyOf.packed_inj (hk : KeyOf behavior k) (hk' : KeyOf behavior k') (hb : k.toBytes = .ok b)
    (hb' : k'.toBytes = .ok b') : b = b' ↔ k = k' := by
  constructor
  · rintro rfl
    exact (hk.append_inj hk' hb hb' (show b ++ [] = b ++ [] from rfl)).1
  · rintro rfl
    rw [hb] at hb'
    injection hb'

/-- Rows of different keys compare as the keys do. -/
theorem expiringKey_lt_of_ne (hk : KeyOf behavior k) (hk' : KeyOf behavior k')
    (hb : k.toBytes = .ok b) (hb' : k'.toBytes = .ok b') (hne : k ≠ k') {container m m' : Muid}
    {e e' : U64} : expiringKey container b m e < expiringKey container b' m' e' ↔ b < b' := by
  unfold expiringKey
  simp only [List.append_assoc]
  rw [Bytes.append_lt_append_left_iff]
  exact Bytes.append_lt_append_of_diverge (hk.not_prefix hk' hb hb' hne)
    (hk'.not_prefix hk hb' hb (Ne.symm hne)) _ _

/-- Below a key are the rows of smaller keys. -/
theorem expiringKey_lt_key (hk : KeyOf behavior k) (hk' : KeyOf behavior k')
    (hb : k.toBytes = .ok b) (hb' : k'.toBytes = .ok b') {container m : Muid} {e : U64} :
    expiringKey container b m e < container.toBytes ++ b' ↔ b < b' := by
  unfold expiringKey
  simp only [List.append_assoc]
  rw [Bytes.append_lt_append_left_iff]
  by_cases hkk : k = k'
  · subst hkk
    obtain rfl : b = b' := (hk.packed_inj hk' hb hb').mpr rfl
    have h1 : ¬ b ++ (m.toBytes ++ packSigned e.val) < b := not_lt.mpr (Bytes.le_append _ _)
    have h2 : ¬ b < b := lt_irrefl b
    exact ⟨fun h => absurd h h1, fun h => absurd h h2⟩
  · have h := Bytes.append_lt_append_of_diverge (hk.not_prefix hk' hb hb' hkk)
      (hk'.not_prefix hk hb' hb (Ne.symm hkk)) (m.toBytes ++ packSigned e.val) []
    rw [List.append_nil] at h
    exact h

end

end Gink
