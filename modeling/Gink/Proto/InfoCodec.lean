/-
  Gink.Proto.InfoCodec — `BundleInfo` objects, packed and acknowledged (bundle_info.py).

  The objects have an optional hash and an optional comment, both of which the packed form
  leaves out when there are none; what is read back tells the two apart by the length of the
  data alone.  The tables of the stores hold infos that have a hash, which is what
  `BundleInfo` is elsewhere in this development (`plain`).
-/
import Gink.Proto.BundleInfo

namespace Gink

/-! ## §1. Objects and their forms. -/

/-- A `BundleInfo` with all its attributes; the hash is the bytes that `hex_hash` spells. -/
structure InfoObject where
  timestamp : U64
  medallion : U64
  chainStart : U64
  previous : U64
  hexHash : Option Bytes
  comment : Option String
  deriving DecidableEq, Repr

/-- `SyncMessage.Ack`. -/
structure AckBuilder where
  medallion : U64
  chainStart : U64
  timestamp : U64
  previous : U64

namespace InfoObject

/-- `bytes(bundle_info)`. -/
def toBytes (i : InfoObject) : Except Error Bytes := do
  let hash ← orRaise (.assertionError "hex_hash is None!") i.hexHash
  return Bytes.beEncode 8 i.timestamp.val ++ Bytes.beEncode 8 i.medallion.val
    ++ Bytes.beEncode 8 i.chainStart.val ++ Bytes.beEncode 8 i.previous.val
    ++ hash ++ (match i.comment with
      | some comment => utf8 comment
      | none => [])

/-- `BundleInfo(encoded=data)`. -/
def ofEncoded (data : Bytes) : Except Error InfoObject := do
  ensure (!(data.length < 32)) (.valueError "need at least 32 bytes to unpack")
  let comment ←
    if data.length > 64 then
      (orRaise (.valueError "'utf-8' codec can't decode") (fromUtf8 (data.drop 64))).map some
    else pure none
  return {
    timestamp := BundleInfo.unpackField data 0
    medallion := BundleInfo.unpackField data 8
    chainStart := BundleInfo.unpackField data 16
    previous := BundleInfo.unpackField data 24
    hexHash := if data.length > 32 then some ((data.take 64).drop 32) else none
    comment }

/-- `BundleInfo.from_bytes(data)`. -/
def fromBytes (data : Bytes) : Except Error InfoObject := do
  ensure (data.length ≥ 32) (.valueError "bad argument to BundleInfo.from_bytes")
  ofEncoded data

/-- `bundle_info.as_acknowledgement()`. -/
def asAcknowledgement (i : InfoObject) : AckBuilder where
  medallion := i.medallion
  chainStart := i.chainStart
  timestamp := i.timestamp
  previous := i.previous

/-- `BundleInfo.from_ack(sync_message)`: neither hash nor comment. -/
def fromAck (ack : AckBuilder) : InfoObject where
  chainStart := ack.chainStart
  medallion := ack.medallion
  timestamp := ack.timestamp
  previous := ack.previous
  hexHash := none
  comment := none

/-- `_essential_tuple()`. -/
def essential (i : InfoObject) : InfoKey := ⟨i.timestamp, i.medallion, i.chainStart⟩

/-! ## §2. Infos that have a hash. -/

/-- What the tables hold of an object with the hash. -/
def plain (i : InfoObject) (hash : Bytes) : BundleInfo :=
  ⟨i.timestamp, i.medallion, i.chainStart, i.previous, hash, i.comment.getD ""⟩

/-- The object with a comment only if there is one to speak of. -/
def trimmed (i : InfoObject) : InfoObject := { i with comment := i.comment.filter (· ≠ "") }

theorem toBytes_eq {i : InfoObject} {hash : Bytes} (h : i.hexHash = some hash) :
    i.toBytes = .ok (i.plain hash).toBytes := by
  unfold toBytes BundleInfo.toBytes plain
  rw [h]
  cases i.comment <;> rfl

/-- The length says whether there is a comment. -/
theorem length_plain (i : InfoObject) {hash : Bytes} (hlen : hash.length = 32) :
    (i.plain hash).toBytes.length = 64 + (utf8 (i.comment.getD "")).length := by
  unfold BundleInfo.toBytes plain
  simp only [List.length_append, Bytes.length_beEncode]
  omega

theorem utf8_ne_nil {s : String} (h : s ≠ "") : 0 < (utf8 s).length := by
  rw [List.length_pos_iff]
  intro hnil
  exact h (utf8_injective (hnil.trans (show [] = utf8 "" from rfl)))

/-- Reading an object adds to reading an info which parts were there. -/
theorem ofEncoded_of_fromBytes {data : Bytes} {i : BundleInfo} (h : BundleInfo.fromBytes data = .ok i) :
    ofEncoded data = .ok ⟨i.timestamp, i.medallion, i.chainStart, i.previous,
      if data.length > 32 then some i.hash else none,
      if data.length > 64 then some i.comment else none⟩ := by
  unfold BundleInfo.fromBytes at h
  split_ifs at h with hlen
  obtain ⟨comment, hcomment, rfl⟩ := map_eq_ok.mp h
  unfold ofEncoded
  rw [ensure, if_pos (by simpa using hlen)]
  by_cases hlong : data.length > 64
  · rw [if_pos hlong, hcomment, if_pos hlong]
    rfl
  · rw [if_neg hlong, if_neg hlong]
    rfl

/-- **Round trip**, an empty comment being none. -/
theorem fromBytes_plain (i : InfoObject) {hash : Bytes} (h : i.hexHash = some hash)
    (hlen : hash.length = 32) : fromBytes (i.plain hash).toBytes = .ok i.trimmed := by
  have hlength := i.length_plain hlen
  have hread := ofEncoded_of_fromBytes (BundleInfo.fromBytes_toBytes (i.plain hash) hlen)
  unfold fromBytes
  rw [ensure, if_pos (by simp only [decide_eq_true_eq]; omega)]
  refine hread.trans ?_
  rw [if_pos (by omega)]
  obtain ⟨t, m, s, p, hexHash, comment⟩ := i
  obtain rfl : hexHash = some hash := h
  cases comment with
  | none =>
      rw [if_neg (by rw [hlength]; exact lt_irrefl 64)]
      rfl
  | some comment =>
      by_cases hempty : comment = ""
      · subst hempty
        rw [if_neg (by rw [hlength]; exact lt_irrefl 64)]
        rfl
      · have hpos := utf8_ne_nil hempty
        rw [if_pos (by rw [hlength]; exact Nat.lt_add_of_pos_right hpos)]
        unfold trimmed plain
        rw [Option.filter_some, if_pos (by simpa using hempty)]
        rfl

/-! ## §3. Order. -/

/-- The timestamp, the medallion and the start of the chain lead the packed form. -/
theorem toBytes_head (i : BundleInfo) : ∃ tail, i.toBytes =
    Bytes.beEncode 8 i.timestamp.val ++ (Bytes.beEncode 8 i.medallion.val ++
      (Bytes.beEncode 8 i.chainStart.val ++ tail)) := by
  refine ⟨Bytes.beEncode 8 i.previous.val ++ (i.hash ++ utf8 i.comment), ?_⟩
  unfold BundleInfo.toBytes
  simp only [List.append_assoc]

/-- Packed fields in front compare first. -/
theorem field_append_lt_iff (a b : U64) (x y : Bytes) :
    Bytes.beEncode 8 a.val ++ x < Bytes.beEncode 8 b.val ++ y ↔ a < b ∨ (a = b ∧ x < y) := by
  have ha : a.val < 256 ^ 8 := a.isLt
  have hb : b.val < 256 ^ 8 := b.isLt
  rw [Bytes.append_lt_append_iff (by simp), Bytes.beEncode_lt_iff ha hb, Bytes.beEncode_inj ha hb,
    Fin.lt_def, Fin.ext_iff]

/-- `BundleInfo.__lt__` compares the tuples field by field. -/
theorem lt_iff (a b : InfoKey) : a < b ↔ a.timestamp < b.timestamp ∨ (a.timestamp = b.timestamp ∧
    (a.medallion < b.medallion ∨ (a.medallion = b.medallion ∧ a.chainStart < b.chainStart))) := by
  have h1 := a.medallion.isLt
  have h2 := a.chainStart.isLt
  have h3 := b.medallion.isLt
  have h4 := b.chainStart.isLt
  rw [InfoKey.lt_iff_toNat_lt]
  unfold InfoKey.toNat
  simp only [Fin.lt_def, Fin.ext_iff]
  omega

/-- **Packed infos sort as infos do.** -/
theorem toBytes_lt_of_lt {i j : BundleInfo} (h : i.essential < j.essential) : i.toBytes < j.toBytes := by
  obtain ⟨x, hx⟩ := toBytes_head i
  obtain ⟨y, hy⟩ := toBytes_head j
  rw [hx, hy]
  simp only [field_append_lt_iff]
  rcases (lt_iff _ _).mp h with ht | ⟨ht, hm | ⟨hm, hs⟩⟩
  · exact Or.inl ht
  · exact Or.inr ⟨ht, Or.inl hm⟩
  · exact Or.inr ⟨ht, Or.inr ⟨hm, Or.inl hs⟩⟩

/-- **The codecs of `BundleInfo`**: what is packed reads back, packed infos sort as the infos
do, and what is acknowledged is the info, with its `previous`. -/
theorem info_codec (i : InfoObject) (hash : Bytes) (hhash : i.hexHash = some hash)
    (hlen : hash.length = 32) :
    (∃ data, i.toBytes = .ok data ∧ fromBytes data = .ok i.trimmed ∧
      ∀ (j : InfoObject) (hash' data' : Bytes), j.hexHash = some hash' → hash'.length = 32 →
        j.toBytes = .ok data' →
          (i.essential < j.essential → data < data') ∧ (data < data' → i.essential ≤ j.essential)) ∧
    (fromAck i.asAcknowledgement).essential = i.essential ∧
    (fromAck i.asAcknowledgement).previous = i.previous := by
  refine ⟨⟨_, toBytes_eq hhash, fromBytes_plain i hhash hlen, ?_⟩, rfl, rfl⟩
  intro j hash' data' hhash' _ hdata'
  rw [toBytes_eq hhash'] at hdata'
  cases hdata'
  refine ⟨fun hlt => toBytes_lt_of_lt (i := i.plain hash) (j := j.plain hash') hlt, fun hlt => ?_⟩
  by_contra hnot
  have hback := toBytes_lt_of_lt (i := j.plain hash') (j := i.plain hash) (not_le.mp hnot)
  exact absurd hlt (lt_asymm hback)

/-- An info with a comment, and one that has an empty one. -/
theorem info_codec_sample :
    (∃ data, InfoObject.toBytes ⟨5, 1, 5, 0, some (List.replicate 32 7), some ""⟩ = .ok data ∧
      fromBytes data = .ok ⟨5, 1, 5, 0, some (List.replicate 32 7), none⟩) ∧
    ∃ data, InfoObject.toBytes ⟨5, 1, 5, 0, some (List.replicate 32 7), some "start"⟩ = .ok data ∧
      fromBytes data = .ok ⟨5, 1, 5, 0, some (List.replicate 32 7), some "start"⟩ := by
  obtain ⟨⟨data, hdata, hback, -⟩, -⟩ :=
    info_codec ⟨5, 1, 5, 0, some (List.replicate 32 7), some ""⟩ _ rfl rfl
  obtain ⟨⟨data', hdata', hback', -⟩, -⟩ :=
    info_codec ⟨5, 1, 5, 0, some (List.replicate 32 7), some "start"⟩ _ rfl rfl
  exact ⟨⟨data, hdata, hback⟩, data', hdata', hback'⟩

end InfoObject

end Gink
