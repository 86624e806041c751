/-
  Gink.Proto.BundleInfo — chains, bundle metadata and when a bundle is needed
  (tuples.py, bundle_info.py, decomposition.py, utilities.py).

  Hashing, signatures, decryption and protobuf parsing are third-party code; they
  are the fields of `Externals`, about which nothing is assumed beyond being
  functions (the same bytes always hash, verify, decrypt and parse the same way).
-/
import Gink.Proto.Muid
import Gink.Proto.Value

namespace Gink

/-! ## §1. The libraries underneath. -/

/-- PyNaCl and protobuf, as far as the stores call them. -/
structure Externals where
  /-- `blake2b(data, digest_size=32)`. -/
  digest : Bytes → Bytes
  length_digest : ∀ data, (digest data).length = 32
  /-- `VerifyKey(key).verify(signed)` does not raise. -/
  verify : Bytes → Bytes → Bool
  /-- `SecretBox(key).decrypt(encrypted)`, `none` when it raises. -/
  decrypt : Bytes → Bytes → Option Bytes
  /-- `shorthash(data, key)` cut to 52 bits. -/
  shorterHash : Bytes → Fin (2 ^ 52)
  /-- `BundleBuilder().ParseFromString(data)`, `none` when it raises. -/
  parseBundle : Bytes → Option BundleBuilder
  /-- `value_builder.SerializeToString()`. -/
  serializeValue : ValueBuilder → Bytes
  /-- `muid_builder.SerializeToString()`. -/
  serializeMuid : MuidBuilder → Bytes

/-- `VerifyKey(data)`: only the length is checked. -/
def verifyKey (data : Bytes) : Except Error Bytes :=
  if data.length = 32 then .ok data
  else .error (.valueError "The key must be exactly 32 bytes long")

/-! ## §2. Chains and bundle infos. -/

/-- `Chain`. -/
structure Chain where
  medallion : U64
  chainStart : U64
  deriving DecidableEq, Repr

namespace Chain

/-- The pair as one number, medallion first. -/
def toNat (c : Chain) : Nat := c.medallion.val * 2 ^ 64 + c.chainStart.val

theorem toNat_injective : Function.Injective toNat := by
  rintro ⟨m, s⟩ ⟨m', s'⟩ h
  have h1 := s.isLt
  have h2 := s'.isLt
  unfold toNat at h
  simp only [Chain.mk.injEq, Fin.ext_iff] at h ⊢
  omega

/-- Named tuples compare field by field. -/
instance : LinearOrder Chain := LinearOrder.lift' toNat toNat_injective

theorem toNat_lt (c : Chain) : c.toNat < 256 ^ 16 := by
  have h1 := c.medallion.isLt
  have h2 := c.chainStart.isLt
  unfold toNat
  omega

/-- `bytes(chain)`: `pack(">QQ", medallion, chain_start)`. -/
def toBytes (c : Chain) : Bytes := Bytes.beEncode 16 c.toNat

theorem toBytes_injective : Function.Injective toBytes := fun _ _ h =>
  toNat_injective ((Bytes.beEncode_inj (toNat_lt _) (toNat_lt _)).mp h)

@[simp] theorem toBytes_inj {c d : Chain} : c.toBytes = d.toBytes ↔ c = d :=
  toBytes_injective.eq_iff

end Chain

/-- `BundleInfo`; an absent comment is the empty one. -/
structure BundleInfo where
  timestamp : U64
  medallion : U64
  chainStart : U64
  previous : U64
  hash : Bytes
  comment : String
  deriving DecidableEq, Repr

namespace BundleInfo

/-- `bundle_info.get_chain()`. -/
def chain (i : BundleInfo) : Chain := ⟨i.medallion, i.chainStart⟩

/-- `bytes(bundle_info)`. -/
def toBytes (i : BundleInfo) : Bytes :=
  Bytes.beEncode 8 i.timestamp.val ++ Bytes.beEncode 8 i.medallion.val
    ++ Bytes.beEncode 8 i.chainStart.val ++ Bytes.beEncode 8 i.previous.val
    ++ i.hash ++ utf8 i.comment

/-- One field of `struct.unpack(">QQQQ", data)`. -/
def unpackField (data : Bytes) (start : Nat) : U64 :=
  Fin.ofNat _ (Bytes.beDecode ((data.drop start).take 8))

/-- `BundleInfo(encoded=data)`; an absent hash is the empty one. -/
def fromBytes (data : Bytes) : Except Error BundleInfo :=
  if data.length < 32 then .error (.valueError "need at least 32 bytes to unpack")
  else (orRaise (.valueError "'utf-8' codec can't decode") (fromUtf8 (data.drop 64))).map
    fun comment =>
      { timestamp := unpackField data 0
        medallion := unpackField data 8
        chainStart := unpackField data 16
        previous := unpackField data 24
        hash := (data.take 64).drop 32
        comment }

theorem unpackField_append {a b : Bytes} {n : U64} {start : Nat} (h : a.length = start) :
    unpackField (a ++ Bytes.beEncode 8 n.val ++ b) start = n := by
  have hn := n.isLt
  unfold unpackField
  rw [← h, List.append_assoc, List.drop_left, List.take_left' (Bytes.length_beEncode 8 n.val),
    Bytes.beDecode_beEncode (by omega)]
  exact Fin.ext (by simp)

/-- **Round trip** of an info whose hash has the length of a digest. -/
theorem fromBytes_toBytes (i : BundleInfo) (h : i.hash.length = 32) :
    fromBytes i.toBytes = .ok i := by
  have hlen : ¬ i.toBytes.length < 32 := by
    unfold toBytes
    simp only [List.length_append, Bytes.length_beEncode]
    omega
  have hdrop : i.toBytes.drop 64 = utf8 i.comment := by
    unfold toBytes
    rw [List.drop_left' (by simp [h])]
  have hhash : (i.toBytes.take 64).drop 32 = i.hash := by
    unfold toBytes
    rw [List.take_left' (by simp [h]), List.drop_left' (by simp)]
  have h0 : unpackField i.toBytes 0 = i.timestamp := by
    unfold toBytes
    rw [List.append_assoc, List.append_assoc, List.append_assoc, List.append_assoc]
    exact unpackField_append (a := []) rfl
  have h1 : unpackField i.toBytes 8 = i.medallion := by
    unfold toBytes
    rw [List.append_assoc, List.append_assoc, List.append_assoc]
    exact unpackField_append (by simp)
  have h2 : unpackField i.toBytes 16 = i.chainStart := by
    unfold toBytes
    rw [List.append_assoc, List.append_assoc]
    exact unpackField_append (by simp)
  have h3 : unpackField i.toBytes 24 = i.previous := by
    unfold toBytes
    rw [List.append_assoc]
    exact unpackField_append (by simp)
  unfold fromBytes
  rw [if_neg hlen, hdrop, fromUtf8_utf8, orRaise_some, hhash, h0, h1, h2, h3]
  rfl

/-- `BundleInfo(builder=builder, hex_hash=...)`. -/
def ofBuilder (b : BundleBuilder) (hash : Bytes) : BundleInfo where
  timestamp := b.timestamp
  medallion := b.medallion
  chainStart := b.chainStart
  previous := b.previous
  hash := hash
  comment := b.comment

end BundleInfo

/-- `_essential_tuple()`: what `BundleInfo.__lt__`, `__eq__` and `__hash__` look at. -/
structure InfoKey where
  timestamp : U64
  medallion : U64
  chainStart : U64
  deriving DecidableEq, Repr

namespace InfoKey

/-- The triple as one number. -/
def toNat (k : InfoKey) : Nat :=
  k.timestamp.val * 2 ^ 128 + k.medallion.val * 2 ^ 64 + k.chainStart.val

theorem toNat_injective : Function.Injective toNat := by
  rintro ⟨t, m, s⟩ ⟨t', m', s'⟩ h
  have h1 := s.isLt
  have h2 := s'.isLt
  have h3 := m.isLt
  have h4 := m'.isLt
  unfold toNat at h
  simp only [InfoKey.mk.injEq, Fin.ext_iff] at h ⊢
  omega

instance : LinearOrder InfoKey := LinearOrder.lift' toNat toNat_injective

theorem lt_iff_toNat_lt {a b : InfoKey} : a < b ↔ a.toNat < b.toNat := Iff.rfl

end InfoKey

/-- The sort key of a bundle info. -/
def BundleInfo.essential (i : BundleInfo) : InfoKey := ⟨i.timestamp, i.medallion, i.chainStart⟩

/-! ## §3. Bundles. -/

/-- `Decomposition`: the signed bytes of a bundle, opened on demand. -/
structure Decomposition where
  bundleBytes : Bytes
  deriving DecidableEq, Repr

namespace Decomposition

/-- `decomposition.get_builder()`: the body after the 64-byte signature. -/
def getBuilder (lib : Externals) (d : Decomposition) : Except Error BundleBuilder :=
  orRaise .decodeError (lib.parseBundle (d.bundleBytes.drop 64))

/-- `decomposition.get_info()`. -/
def getInfo (lib : Externals) (d : Decomposition) : Except Error BundleInfo :=
  (d.getBuilder lib).map fun b => .ofBuilder b (lib.digest d.bundleBytes)

end Decomposition

/-- The changes of a bundle, decrypted when they are encrypted; `symmetricKey` looks
the key up in the store. -/
def openChanges (lib : Externals) (symmetricKey : U64 → Except Error Bytes)
    (builder : BundleBuilder) : Except Error (List ChangeBuilder) :=
  if builder.encrypted = [] then .ok builder.changes
  else do
    ensure builder.changes.isEmpty
      (.valueError "did not expect plain changes when using encryption")
    ensure (builder.keyId ≠ 0) (.valueError "expected to have a key_id when encrypted is present")
    let key ← symmetricKey builder.keyId
    let decrypted ← orRaise .cryptoError (lib.decrypt key builder.encrypted)
    let inner ← orRaise .decodeError (lib.parseBundle decrypted)
    return inner.changes

/-! ## §4. Around a call. -/

/-- What the callback does with a bundle; it may raise. -/
abbrev Callback := Decomposition → Except Error Unit

/-- What a callback, if there is one, is handed of some bundles. -/
def handed (callback : Option Callback) (bundles : List Decomposition) : List Decomposition :=
  match callback with
  | none => []
  | some _ => bundles

/-- The values `generate_timestamp()` and `getpid()` return during a call. -/
structure Clock where
  receiveTime : Int
  claimTime : U64 := 0
  processId : U64 := 0
  deriving Inhabited

/-- `create_claim(chain)`. -/
def Clock.createClaim (clock : Clock) (chain : Chain) : ClaimBuilder :=
  ⟨chain.medallion, chain.chainStart, clock.processId, clock.claimTime⟩

/-! ## §5. When a bundle is needed. -/

/-- `seen_through`: the timestamp of the chain's last bundle, 0 without one. -/
def seenThrough (oldInfo : Option BundleInfo) : U64 := (oldInfo.map (·.timestamp)).getD 0

/-- `is_needed(new_info, old_info)`. -/
def isNeeded (newInfo : BundleInfo) (oldInfo : Option BundleInfo) : Except Error Bool :=
  if oldInfo.any (fun old => old.chain ≠ newInfo.chain) then
    .error (.assertionError "old_info.get_chain() == new_info.get_chain()")
  else if seenThrough oldInfo ≥ newInfo.timestamp then
    .ok false
  else if newInfo.timestamp ≠ newInfo.chainStart ∧ newInfo.previous = 0 then
    .error (.valueError "Bundle isn't the start but has no prior.")
  else if (newInfo.previous ≠ 0 ∨ seenThrough oldInfo ≠ 0) ∧
      newInfo.previous ≠ seenThrough oldInfo then
    .error (.valueError "Bundle received without prior link in chain!")
  else
    .ok true

/-- **What a needed bundle looks like**: it is newer than the chain's last bundle
and names that bundle's timestamp as `previous`; without one it starts the chain. -/
theorem isNeeded_eq_true {newInfo : BundleInfo} {oldInfo : Option BundleInfo}
    (h : isNeeded newInfo oldInfo = .ok true) :
    seenThrough oldInfo < newInfo.timestamp ∧ newInfo.previous = seenThrough oldInfo ∧
      (newInfo.timestamp = newInfo.chainStart ∨ newInfo.previous ≠ 0) := by
  unfold isNeeded at h
  split_ifs at h with h0 h1 h2 h3
  · simp at h
  refine ⟨not_le.mp h1, ?_, ?_⟩
  · by_contra hne
    refine h3 ⟨?_, hne⟩
    by_contra hzero
    push Not at hzero
    exact hne (hzero.1.trans hzero.2.symm)
  · by_contra hor
    push Not at hor
    exact h2 hor

end Gink
