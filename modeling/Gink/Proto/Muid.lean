/-
  Gink.Proto.Muid — global addresses (muid.py, docs/muid.md).

  A muid is (timestamp, medallion, offset), written with 13, 11 and 8 hex digits.
  The class keeps the three numbers as Python ints in which the all-ones pattern
  reads -1 and offsets are signed, so an object is determined by the three digit
  strings: they are the fields here, and `timestamp`, `medallion`, `offset` are
  the ints the source's attributes return.  Packed big-endian into 16 bytes,
  muids sort as their triples do.
-/
import Gink.Bytes.BigEndian
import Gink.Proto.Errors

namespace Gink

instance neZeroTime : NeZero (2 ^ 52) := ⟨by decide⟩

instance neZeroMedallion : NeZero (2 ^ 44) := ⟨by decide⟩

instance neZeroOffset : NeZero (2 ^ 32) := ⟨by decide⟩

/-- `Muid`: the three fixed-width fields of the packed address. -/
structure Muid where
  timeField : Fin (2 ^ 52)
  medallionField : Fin (2 ^ 44)
  offsetField : Fin (2 ^ 32)
  deriving DecidableEq, Repr

namespace Muid

/-! ## §1. Attributes and construction. -/

/-- `muid.timestamp`: `TIMESTAMP_MOD - 1` is stored as -1. -/
def timestamp (m : Muid) : Int :=
  if m.timeField.val = 2 ^ 52 - 1 then -1 else m.timeField.val

/-- `muid.medallion`: `MEDALLION_MOD - 1` is stored as -1. -/
def medallion (m : Muid) : Int :=
  if m.medallionField.val = 2 ^ 44 - 1 then -1 else m.medallionField.val

/-- `muid.offset`: the upper half of the range is negative. -/
def offset (m : Muid) : Int :=
  if m.offsetField.val < 2 ^ 31 then m.offsetField.val else m.offsetField.val - 2 ^ 32

/-- The field of width `w` that an int reduces to. -/
def field (w : Nat) [NeZero w] (n : Int) : Fin w := Fin.ofNat w (n % w).toNat

/-- `Muid(timestamp, medallion, offset)` of three ints. -/
def make (timestamp medallion offset : Int) : Except Error Muid := do
  ensure (!(timestamp ≥ 2 ^ 52 || timestamp < -1)) (.valueError "timestamp out of range")
  ensure (!(medallion ≥ 2 ^ 44 || medallion < -1)) (.valueError "medallion out of range")
  ensure (!(offset ≥ 2 ^ 32 || offset ≤ -2 ^ 32)) (.valueError "offset out of range")
  return ⟨field _ timestamp, field _ medallion, field _ offset⟩

/-! ## §2. The packed form. -/

/-- The 128-bit integer the packed form spells. -/
def toNat (m : Muid) : Nat :=
  m.timeField.val * 2 ^ 76 + m.medallionField.val * 2 ^ 32 + m.offsetField.val

/-- `bytes(muid)`. -/
def toBytes (m : Muid) : Bytes := Bytes.beEncode 16 m.toNat

/-- `Muid.from_bytes(data)`. -/
def fromBytes (data : Bytes) : Except Error Muid :=
  if data.length = 16 then
    let total := Bytes.beDecode data
    .ok ⟨Fin.ofNat _ (total / 2 ^ 76), Fin.ofNat _ (total / 2 ^ 32), Fin.ofNat _ total⟩
  else .error (.valueError "expect a muid to be 16 bytes")

theorem toNat_lt (m : Muid) : m.toNat < 256 ^ 16 := by
  have h1 := m.timeField.isLt
  have h2 := m.medallionField.isLt
  have h3 := m.offsetField.isLt
  unfold toNat
  omega

@[simp] theorem length_toBytes (m : Muid) : m.toBytes.length = 16 := Bytes.length_beEncode _ _

/-- Packed muids compare as the triples (timestamp, medallion, offset) do. -/
theorem toNat_lt_iff (m n : Muid) :
    m.toNat < n.toNat ↔ m.timeField < n.timeField ∨ (m.timeField = n.timeField ∧
      (m.medallionField < n.medallionField ∨
        (m.medallionField = n.medallionField ∧ m.offsetField < n.offsetField))) := by
  have h2 := m.medallionField.isLt
  have h3 := m.offsetField.isLt
  have h5 := n.medallionField.isLt
  have h6 := n.offsetField.isLt
  unfold toNat
  simp only [Fin.lt_def, Fin.ext_iff]
  omega

theorem toNat_injective : Function.Injective toNat := by
  rintro ⟨t, d, o⟩ ⟨t', d', o'⟩ h
  have h2 := d.isLt
  have h3 := o.isLt
  have h5 := d'.isLt
  have h6 := o'.isLt
  unfold toNat at h
  simp only [Muid.mk.injEq, Fin.ext_iff] at h ⊢
  omega

/-- The source compares muids by their fields modulo the field sizes, which is the
order of the packed integers. -/
instance : LinearOrder Muid := LinearOrder.lift' toNat toNat_injective

theorem lt_iff_toNat_lt {m n : Muid} : m < n ↔ m.toNat < n.toNat := Iff.rfl

theorem le_iff_toNat_le {m n : Muid} : m ≤ n ↔ m.toNat ≤ n.toNat := Iff.rfl

/-- Time leads the order. -/
theorem timeField_le_of_le {m n : Muid} (h : m ≤ n) : m.timeField ≤ n.timeField := by
  by_contra hlt
  exact absurd ((toNat_lt_iff n m).mpr (Or.inl (not_le.mp hlt))) (not_lt.mpr h)

theorem toBytes_lt_iff {m n : Muid} : m.toBytes < n.toBytes ↔ m < n :=
  Bytes.beEncode_lt_iff m.toNat_lt n.toNat_lt

theorem toBytes_le_iff {m n : Muid} : m.toBytes ≤ n.toBytes ↔ m ≤ n :=
  Bytes.beEncode_le_iff m.toNat_lt n.toNat_lt

theorem toBytes_injective : Function.Injective toBytes := fun _ _ h =>
  toNat_injective ((Bytes.beEncode_inj (toNat_lt _) (toNat_lt _)).mp h)

@[simp] theorem toBytes_inj {m n : Muid} : m.toBytes = n.toBytes ↔ m = n :=
  toBytes_injective.eq_iff

/-- Unpacking undoes packing. -/
@[simp] theorem fromBytes_toBytes (m : Muid) : fromBytes m.toBytes = .ok m := by
  have h1 := m.timeField.isLt
  have h2 := m.medallionField.isLt
  have h3 := m.offsetField.isLt
  rw [fromBytes, if_pos (length_toBytes m), toBytes, Bytes.beDecode_beEncode m.toNat_lt]
  obtain ⟨t, d, o⟩ := m
  simp only [toNat, Except.ok.injEq, Muid.mk.injEq, Fin.ext_iff, Fin.val_ofNat] at *
  omega

/-- Whatever unpacks is the packed form of the result. -/
theorem toBytes_of_fromBytes {b : Bytes} {m : Muid} (h : fromBytes b = .ok m) :
    m.toBytes = b := by
  unfold fromBytes at h
  split_ifs at h with hlen
  have hlt := Bytes.beDecode_lt b
  rw [hlen] at hlt
  injection h with h
  have htotal : m.toNat = Bytes.beDecode b := by
    subst h
    simp only [toNat, Fin.val_ofNat]
    omega
  rw [toBytes, htotal, ← hlen, Bytes.beEncode_beDecode]

/-! ## §3. The instant of an as-of read. -/

/-- `Muid(as_of, 0, 0)`: the first address an as-of read does not see.  With -1 it
stands past every ordinary timestamp. -/
def instant (asOf : Int) : Except Error Muid := make asOf 0 0

/-- The timestamp field an as-of argument stands for. -/
def instantField (asOf : Int) : Nat := (asOf % 2 ^ 52).toNat

theorem make_eq_ok {t d o : Int} {m : Muid} :
    make t d o = .ok m ↔ (-1 ≤ t ∧ t < 2 ^ 52) ∧ (-1 ≤ d ∧ d < 2 ^ 44) ∧
      (-2 ^ 32 < o ∧ o < 2 ^ 32) ∧ m = ⟨field _ t, field _ d, field _ o⟩ := by
  simp only [make, bind_eq_ok, ensure_eq_ok, pure_eq_ok]
  simp only [ge_iff_le, Bool.not_eq_true', Bool.or_eq_false_iff, decide_eq_false_iff_not,
    exists_and_left, exists_const]
  constructor
  · rintro ⟨h1, h2, h3, rfl⟩
    exact ⟨⟨by omega, by omega⟩, ⟨by omega, by omega⟩, ⟨by omega, by omega⟩, rfl⟩
  · rintro ⟨h1, h2, h3, rfl⟩
    exact ⟨⟨by omega, by omega⟩, ⟨by omega, by omega⟩, ⟨by omega, by omega⟩, rfl⟩

@[simp] theorem val_field (w : Nat) [NeZero w] (n : Int) :
    ((field w n).val : Int) = n % w := by
  have hpos : (0 : Int) < w := by
    have := NeZero.pos w
    omega
  have h0 := Int.emod_nonneg n hpos.ne'
  simp only [field, Fin.val_ofNat]
  rw [Int.natCast_emod, Int.toNat_of_nonneg h0, Int.emod_emod]

theorem instant_eq_ok {t : Int} {m : Muid} :
    instant t = .ok m ↔ (-1 ≤ t ∧ t < 2 ^ 52) ∧ m = ⟨field _ t, 0, 0⟩ := by
  rw [instant, make_eq_ok]
  constructor
  · rintro ⟨h, -, -, rfl⟩
    exact ⟨h, rfl⟩
  · rintro ⟨h, rfl⟩
    exact ⟨h, by decide, by decide, rfl⟩

/-- An address precedes the instant exactly when its timestamp field does. -/
theorem lt_instant_iff {t : Int} {i m : Muid} (h : instant t = .ok i) :
    m < i ↔ m.timeField < i.timeField := by
  obtain ⟨-, rfl⟩ := instant_eq_ok.mp h
  rw [lt_iff_toNat_lt, toNat_lt_iff]
  simp only [Fin.not_lt_zero]
  tauto

/-- Ordinary timestamps: the reserved all-ones pattern aside, the attribute is the
field. -/
theorem timestamp_of_ne {m : Muid} (h : m.timeField.val ≠ 2 ^ 52 - 1) :
    m.timestamp = m.timeField.val := if_neg h

theorem timestamp_ge (m : Muid) : -1 ≤ m.timestamp := by
  unfold timestamp
  split_ifs <;> omega

end Muid

end Gink
