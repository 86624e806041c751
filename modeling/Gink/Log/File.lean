/-
  Gink.Log.File — the log file of a `LogBackedStore` (proto/log_file.proto).

  The file is what its writers appended, one serialized message after the other.
  Protobuf reads messages written one after the other as one message with the lists
  joined, so what a reader gets from some place on is `joined` of the records there.
  A place in the file is a number of records; its offset is in bytes.
-/
import Gink.Proto.BundleInfo

namespace Gink

/-- key_pair.proto. -/
structure KeyPairBuilder where
  publicKey : Bytes
  secretKey : Bytes
  deriving DecidableEq, Repr

/-- log_file.proto. -/
structure LogFileBuilder where
  magicNumber : Nat := 0
  claims : List ClaimBuilder := []
  bundles : List Decomposition := []
  keyPairs : List KeyPairBuilder := []
  deriving DecidableEq, Repr

/-- What two messages written one after the other are read as. -/
def LogFileBuilder.join (a b : LogFileBuilder) : LogFileBuilder where
  magicNumber := if b.magicNumber = 0 then a.magicNumber else b.magicNumber
  claims := a.claims ++ b.claims
  bundles := a.bundles ++ b.bundles
  keyPairs := a.keyPairs ++ b.keyPairs

/-- The same for any number of messages. -/
def joined : List LogFileBuilder → LogFileBuilder
  | [] => {}
  | record :: rest => record.join (joined rest)

/-- How long serialized messages are; only the empty message has no bytes. -/
structure LogFormat where
  size : LogFileBuilder → Nat
  size_pos : ∀ record, record ≠ {} → 0 < size record

/-- The bytes that records take. -/
def LogFormat.total (format : LogFormat) (records : List LogFileBuilder) : Nat :=
  (records.map format.size).sum

/-! ## Joining. -/

namespace LogFileBuilder

@[simp] theorem join_empty (a : LogFileBuilder) : a.join {} = a := by
  simp [join]

@[simp] theorem empty_join (a : LogFileBuilder) : ({} : LogFileBuilder).join a = a := by
  unfold join
  simp only [List.nil_append]
  split_ifs with h
  · rw [← h]
  · rfl

theorem join_assoc (a b c : LogFileBuilder) : (a.join b).join c = a.join (b.join c) := by
  unfold join
  simp only [List.append_assoc]
  congr 1
  split_ifs with h1 h2 <;> simp_all

@[simp] theorem bundles_join (a b : LogFileBuilder) : (a.join b).bundles = a.bundles ++ b.bundles :=
  rfl

@[simp] theorem claims_join (a b : LogFileBuilder) : (a.join b).claims = a.claims ++ b.claims := rfl

@[simp] theorem keyPairs_join (a b : LogFileBuilder) :
    (a.join b).keyPairs = a.keyPairs ++ b.keyPairs := rfl

end LogFileBuilder

theorem joined_append (l m : List LogFileBuilder) : joined (l ++ m) = (joined l).join (joined m) := by
  induction l with
  | nil => simp [joined]
  | cons record rest ih =>
      show record.join (joined (rest ++ m)) = (record.join (joined rest)).join (joined m)
      rw [ih, LogFileBuilder.join_assoc]

theorem joined_bundles (l : List LogFileBuilder) : (joined l).bundles = l.flatMap (·.bundles) := by
  induction l with
  | nil => rfl
  | cons record rest ih =>
      rw [List.flatMap_cons, ← ih]
      rfl

theorem joined_keyPairs (l : List LogFileBuilder) :
    (joined l).keyPairs = l.flatMap (·.keyPairs) := by
  induction l with
  | nil => rfl
  | cons record rest ih =>
      rw [List.flatMap_cons, ← ih]
      rfl

/-! ## Offsets. -/

namespace LogFormat

variable (format : LogFormat)

@[simp] theorem total_nil : format.total [] = 0 := rfl

theorem total_append (l m : List LogFileBuilder) :
    format.total (l ++ m) = format.total l + format.total m := by
  simp [total]

/-- Only no records take no bytes. -/
theorem total_eq_zero {l : List LogFileBuilder} (hl : ∀ record ∈ l, record ≠ {}) :
    format.total l = 0 ↔ l = [] := by
  constructor
  · intro h
    cases l with
    | nil => rfl
    | cons record rest =>
        have hpos := format.size_pos record (hl record List.mem_cons_self)
        have hsum : format.size record + format.total rest = 0 := h
        omega
  · intro h
    rw [h]
    rfl

end LogFormat

namespace Log

/-- Lengths of messages: the magic number takes five bytes, a key pair 70. -/
def sampleFormat : LogFormat where
  size record := (if record.magicNumber = 0 then 0 else 5) + 26 * record.claims.length +
    (record.bundles.map fun bundle => bundle.bundleBytes.length + 3).sum +
    70 * record.keyPairs.length
  size_pos record h := by
    by_contra hzero
    apply h
    obtain ⟨magicNumber, claims, bundles, keyPairs⟩ := record
    split_ifs at hzero with hmagic
    · have hmagic : magicNumber = 0 := hmagic
      have hclaims : claims = [] := List.length_eq_zero_iff.mp (by simp only at hzero; omega)
      have hkeyPairs : keyPairs = [] := List.length_eq_zero_iff.mp (by simp only at hzero; omega)
      have hbundles : bundles = [] := by
        cases bundles with
        | nil => rfl
        | cons bundle rest =>
            simp only [List.map_cons, List.sum_cons] at hzero
            omega
      rw [hclaims, hkeyPairs, hbundles, hmagic]
    · simp only at hzero
      omega

end Log

end Gink
