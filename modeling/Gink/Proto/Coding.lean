/-
  Gink.Proto.Coding — index keys (coding.py) and reference resolution (muid.py).

  A `Placement` is the key of a row in the placements table:

      container (16) ++ middle ++ placer (16) ++ expiry (8)

  where the middle depends on the container's behavior: nothing, a serialised user
  key, a position, one muid or two.  Everything is resolved to absolute addresses
  first (`Muid.create`), so that rows of one container and key are adjacent and
  sorted by the address that placed them.
-/
import Gink.Proto.BundleInfo

namespace Gink

/-! ## §1. Packed times. -/

/-- `INT_INF`: what the packed -1 reads as. -/
def intInf : Int := 2 ^ 64 - 1

/-- `struct.pack(">q", number)` of an int that fits. -/
def packSigned (n : Int) : Bytes := Bytes.beEncode 8 (n % 2 ^ 64).toNat

/-- `encode_muts(number)`. -/
def encodeMuts (n : Int) : Except Error Bytes :=
  if n = intInf then .ok (packSigned (-1))
  else if -2 ^ 63 ≤ n ∧ n < 2 ^ 63 then .ok (packSigned n)
  else .error .structError

/-- `decode_muts(data)`: 0 reads as `None`, -1 as `INT_INF`. -/
def decodeMuts (data : Bytes) : Except Error (Option Int) :=
  if data.length = 8 then
    let raw : Int := Bytes.beDecode data
    if raw = 0 then .ok none
    else if raw = 2 ^ 64 - 1 then .ok (some intInf)
    else if raw < 2 ^ 63 then .ok (some raw)
    else .ok (some (raw - 2 ^ 64))
  else .error .structError

@[simp] theorem length_packSigned (n : Int) : (packSigned n).length = 8 :=
  Bytes.length_beEncode _ _

theorem length_of_encodeMuts {n : Int} {b : Bytes} (h : encodeMuts n = .ok b) :
    b.length = 8 := by
  unfold encodeMuts at h
  split_ifs at h
  · injection h with h
    rw [← h, length_packSigned]
  · injection h with h
    rw [← h, length_packSigned]

/-- Times up to 2^63 sort as numbers when packed. -/
theorem packSigned_lt_iff {n m : Int} (hn : 0 ≤ n ∧ n < 2 ^ 63) (hm : 0 ≤ m ∧ m < 2 ^ 63) :
    packSigned n < packSigned m ↔ n < m := by
  unfold packSigned
  rw [Bytes.beEncode_lt_iff (by omega) (by omega)]
  omega

/-! ## §2. Resolving references. -/

/-- What `Muid.create` takes as its context: a `BundleInfo` or another muid. -/
structure Context where
  timestamp : Int
  medallion : Int
  /-- The offset, when the context is a muid. -/
  offset : Option Int

/-- A bundle info as a context. -/
def BundleInfo.context (i : BundleInfo) : Context := ⟨i.timestamp.val, i.medallion.val, none⟩

/-- A muid as a context. -/
def Muid.context (m : Muid) : Context := ⟨m.timestamp, m.medallion, some m.offset⟩

/-- `a or b` of two ints. -/
def orElse (a b : Int) : Int := if a = 0 then b else a

/-- `Muid.create(context, builder, offset)`. -/
def Muid.create (context : Context) (builder : MuidBuilder) (offset : Int) : Except Error Muid := do
  let timestamp := orElse builder.timestamp context.timestamp
  let medallion := orElse builder.medallion context.medallion
  let relative := orElse offset builder.offset
  let absolute ←
    if relative < 0 then
      (orRaise (.valueError "invalid context for negative offset") context.offset).map (· + relative)
    else pure relative
  ensure (medallion ≠ 0) (.assertionError "no medallion")
  ensure (timestamp ≠ 0) (.assertionError "no timestamp")
  Muid.make timestamp medallion absolute

/-- `Muid.create(context=info, offset=offset)`: the address of a bundle's change. -/
def changeMuid (info : BundleInfo) (offset : Nat) : Except Error Muid :=
  Muid.create info.context {} offset

/-- `Muid.create(context=context, builder=builder)`. -/
def resolve (context : Context) (builder : MuidBuilder) : Except Error Muid :=
  Muid.create context builder 0

/-- `Muid(builder.timestamp, builder.medallion, builder.offset)`, unresolved. -/
def MuidBuilder.literal (b : MuidBuilder) : Except Error Muid :=
  Muid.make b.timestamp b.medallion b.offset

/-- `Muid(-1, -1, behavior)`: the global container of a behavior. -/
def globalMuid (b : Behavior) : Muid := ⟨Muid.field _ (-1), Muid.field _ (-1), Muid.field _ b.code⟩

theorem create_eq_ok {context : Context} {builder : MuidBuilder} {offset : Int} {m : Muid}
    (h : Muid.create context builder offset = .ok m) :
    ∃ absolute, Muid.make (orElse builder.timestamp context.timestamp)
        (orElse builder.medallion context.medallion) absolute = .ok m ∧
      orElse builder.timestamp context.timestamp ≠ 0 ∧
      orElse builder.medallion context.medallion ≠ 0 ∧
      (0 ≤ orElse offset builder.offset → absolute = orElse offset builder.offset) := by
  unfold Muid.create at h
  simp only at h
  split_ifs at h with hneg
  · obtain ⟨a, -, h⟩ := bind_eq_ok.mp h
    obtain ⟨u, hm, h⟩ := bind_eq_ok.mp h
    obtain ⟨u', ht, h⟩ := bind_eq_ok.mp h
    exact ⟨a, h, by simpa using ensure_eq_ok.mp ht, by simpa using ensure_eq_ok.mp hm,
      fun h0 => by omega⟩
  · obtain ⟨a, ha, h⟩ := bind_eq_ok.mp h
    obtain ⟨u, hm, h⟩ := bind_eq_ok.mp h
    obtain ⟨u', ht, h⟩ := bind_eq_ok.mp h
    exact ⟨a, h, by simpa using ensure_eq_ok.mp ht, by simpa using ensure_eq_ok.mp hm,
      fun _ => (pure_eq_ok.mp ha).symm⟩

/-- **The address of a change** spells its bundle's timestamp and medallion and its
offset in the bundle. -/
theorem changeMuid_eq_ok {info : BundleInfo} {offset : Nat} {m : Muid}
    (h : changeMuid info offset = .ok m) :
    m.timeField.val = info.timestamp.val ∧ m.medallionField.val = info.medallion.val ∧
      m.offsetField.val = offset ∧ info.timestamp.val ≠ 0 := by
  obtain ⟨absolute, hmake, hzero, -, habs⟩ := create_eq_ok h
  have hoff : orElse (offset : Int) 0 = offset := by
    unfold orElse
    split_ifs with h0
    · exact h0.symm
    · rfl
  have ht : orElse 0 info.context.timestamp = info.timestamp.val := by simp [orElse, BundleInfo.context]
  have hm : orElse 0 info.context.medallion = info.medallion.val := by simp [orElse, BundleInfo.context]
  have habs' : absolute = offset := by
    rw [habs (by show 0 ≤ orElse (offset : Int) 0; omega)]
    exact hoff
  subst habs'
  rw [show ({} : MuidBuilder).timestamp = 0 from rfl, ht] at hmake hzero
  rw [show ({} : MuidBuilder).medallion = 0 from rfl, hm] at hmake
  obtain ⟨h1, h2, h3, rfl⟩ := Muid.make_eq_ok.mp hmake
  have e1 := Muid.val_field (2 ^ 52) (info.timestamp.val : Int)
  have e2 := Muid.val_field (2 ^ 44) (info.medallion.val : Int)
  have e3 := Muid.val_field (2 ^ 32) (offset : Int)
  refine ⟨?_, ?_, ?_, ?_⟩
  · show (Muid.field (2 ^ 52) (info.timestamp.val : Int)).val = _
    omega
  · show (Muid.field (2 ^ 44) (info.medallion.val : Int)).val = _
    omega
  · show (Muid.field (2 ^ 32) (offset : Int)).val = _
    omega
  · omega

/-- A resolved reference has a time. -/
theorem create_timeField {context : Context} {builder : MuidBuilder} {offset : Int} {m : Muid}
    (h : Muid.create context builder offset = .ok m) : m.timeField.val ≠ 0 := by
  obtain ⟨absolute, hmake, hzero, -, -⟩ := create_eq_ok h
  obtain ⟨h1, -, -, rfl⟩ := Muid.make_eq_ok.mp hmake
  have hval := Muid.val_field (2 ^ 52) (orElse builder.timestamp context.timestamp)
  show (Muid.field (2 ^ 52) (orElse builder.timestamp context.timestamp)).val ≠ 0
  omega

/-- The address of a change has a medallion. -/
theorem changeMuid_medallion {info : BundleInfo} {offset : Nat} {m : Muid}
    (h : changeMuid info offset = .ok m) : m.medallionField.val ≠ 0 := by
  obtain ⟨-, -, -, hne, -⟩ := create_eq_ok h
  have hmed := (changeMuid_eq_ok h).2.1
  have hval : orElse ({} : MuidBuilder).medallion info.context.medallion = info.medallion.val := by
    simp [orElse, BundleInfo.context]
  rw [hval] at hne
  omega

/-- Different changes have different addresses. -/
theorem changeMuid_inj {i j : BundleInfo} {n k : Nat} {m : Muid} (hi : changeMuid i n = .ok m)
    (hj : changeMuid j k = .ok m) :
    i.timestamp = j.timestamp ∧ i.medallion = j.medallion ∧ n = k := by
  obtain ⟨h1, h2, h3, -⟩ := changeMuid_eq_ok hi
  obtain ⟨h4, h5, h6, -⟩ := changeMuid_eq_ok hj
  exact ⟨Fin.ext (by omega), Fin.ext (by omega), by omega⟩

/-! ## §3. Placements. -/

/-- The middle of a placement. -/
inductive MiddleKey where
  | none
  | key (k : UserKey)
  | queue (effectiveTime : Int)
  | muid (m : Muid)
  | pair (left rite : Muid)
  deriving DecidableEq, Repr

/-- `KEY_MAX`. -/
def keyMax : Nat := 2 ^ 53 - 1

/-- `serialize(encode_key(key))`. -/
def encodeKey (k : UserKey) : Except Error Bytes :=
  match k with
  | .number n =>
      if n.natAbs > keyMax then .error (.valueError "integer key outside of allowed range")
      else .ok k.serialize
  | _ => .ok k.serialize

/-- The serialised middle. -/
def MiddleKey.toBytes : MiddleKey → Except Error Bytes
  | .none => .ok []
  | .key k => encodeKey k
  | .queue t => encodeMuts t
  | .muid m => .ok m.toBytes
  | .pair l r => .ok (l.toBytes ++ r.toBytes)

/-- `Placement`; no expiry is `none`. -/
structure Placement where
  container : Muid
  middle : MiddleKey
  placer : Muid
  expiry : Option Int
  deriving DecidableEq, Repr

namespace Placement

/-- `bytes(placement)`. -/
def toBytes (p : Placement) : Except Error Bytes := do
  let middle ← p.middle.toBytes
  let expiry ← encodeMuts (p.expiry.getD 0)
  return p.container.toBytes ++ middle ++ p.placer.toBytes ++ expiry

/-- `placement.get_placed_time()`. -/
def placedTime (p : Placement) : Int := p.placer.timestamp

/-- The middle key an entry gets. -/
def middleOf (builder : EntryBuilder) (entryMuid : Muid) : Except Error MiddleKey :=
  match builder.behavior with
  | .directory | .keySet => .ok (match builder.key with
      | some k => .key k
      | none => .none)
  | .box | .vertex | .accumulator => .ok .none
  | .sequence | .edgeType => .ok (.queue (orElse builder.effective entryMuid.timestamp))
  | .property | .group | .braid =>
      (resolve entryMuid.context (builder.describing?.getD {})).map .muid
  | .pairSet | .pairMap => do
      let left ← resolve entryMuid.context (builder.pair?.getD {}).left
      let rite ← resolve entryMuid.context (builder.pair?.getD {}).rite
      return .pair left rite
  | _ => .error (.valueError "unexpected behavior")

/-- `Placement.from_builder(builder, new_info, offset)`. -/
def fromBuilder (builder : EntryBuilder) (newInfo : BundleInfo) (offset : Nat) :
    Except Error Placement := do
  let entryMuid ← changeMuid newInfo offset
  let container ← resolve entryMuid.context builder.containerField
  let middle ← middleOf builder entryMuid
  return ⟨container, middle, entryMuid, if builder.expiry.val = 0 then none else some builder.expiry.val⟩

theorem fromBuilder_eq_ok {builder : EntryBuilder} {info : BundleInfo} {offset : Nat}
    {p : Placement} (h : fromBuilder builder info offset = .ok p) :
    changeMuid info offset = .ok p.placer ∧
      resolve p.placer.context builder.containerField = .ok p.container ∧
      middleOf builder p.placer = .ok p.middle ∧
      p.expiry = if builder.expiry.val = 0 then none else some (builder.expiry.val : Int) := by
  unfold fromBuilder at h
  obtain ⟨m, hm, h⟩ := bind_eq_ok.mp h
  obtain ⟨c, hc, h⟩ := bind_eq_ok.mp h
  obtain ⟨k, hk, h⟩ := bind_eq_ok.mp h
  rw [← pure_eq_ok.mp h]
  exact ⟨hm, hc, hk, rfl⟩

theorem toBytes_eq_ok {p : Placement} {b : Bytes} (h : p.toBytes = .ok b) :
    ∃ middle expiry, p.middle.toBytes = .ok middle ∧ encodeMuts (p.expiry.getD 0) = .ok expiry ∧
      b = p.container.toBytes ++ middle ++ p.placer.toBytes ++ expiry := by
  unfold toBytes at h
  obtain ⟨middle, hm, h⟩ := bind_eq_ok.mp h
  obtain ⟨expiry, he, h⟩ := bind_eq_ok.mp h
  exact ⟨middle, expiry, hm, he, (pure_eq_ok.mp h).symm⟩

/-- The middle key a behavior reads out of stored bytes. -/
def middleFromBytes (data : Bytes) (behavior : Behavior) : Except Error MiddleKey :=
  match behavior with
  | .directory | .keySet => (decodeKey data).map fun k => match k with
      | some k => .key k
      | none => .none
  | .sequence | .edgeType => do
      let effective ← decodeMuts (data.take 8)
      let effective ← orRaise (.assertionError "effective_time is not None") effective
      ensure (data.length = 8) (.assertionError "expected QueueMiddleKey to be 8 bytes")
      return .queue effective
  | .property | .group | .braid => (Muid.fromBytes data).map .muid
  | .pairSet | .pairMap => do
      let left ← Muid.fromBytes (data.take 16)
      let rite ← Muid.fromBytes (data.drop 16)
      return .pair left rite
  | .box | .vertex | .accumulator => .ok .none
  | _ => .error (.valueError "unexpected behavior")

/-- The slices `data[16:-24]`, `data[-24:-8]` and `data[-8:]`. -/
def middleSlice (data : Bytes) : Bytes := (data.take (data.length - 24)).drop 16

def placerSlice (data : Bytes) : Bytes := (data.take (data.length - 8)).drop (data.length - 24)

def expirySlice (data : Bytes) : Bytes := data.drop (data.length - 8)

/-- The slices of a packed placement are its parts. -/
theorem slices_append {container middle placer expiry : Bytes} (h1 : container.length = 16)
    (h2 : placer.length = 16) (h3 : expiry.length = 8) :
    let data := container ++ middle ++ placer ++ expiry
    data.take 16 = container ∧ middleSlice data = middle ∧ placerSlice data = placer ∧
      expirySlice data = expiry := by
  intro data
  have hlen : data.length = 16 + middle.length + 16 + 8 := by
    simp only [data, List.length_append, h1, h2, h3]
  refine ⟨?_, ?_, ?_, ?_⟩
  · show ((container ++ middle) ++ placer ++ expiry).take 16 = _
    rw [List.append_assoc, List.append_assoc, List.take_left' h1]
  · unfold middleSlice
    rw [hlen, show 16 + middle.length + 16 + 8 - 24 = 16 + middle.length by omega]
    show ((container ++ middle ++ placer ++ expiry).take (16 + middle.length)).drop 16 = _
    rw [List.append_assoc (container ++ middle), List.take_left' (by simp [h1]),
      List.drop_left' h1]
  · unfold placerSlice
    rw [hlen, show 16 + middle.length + 16 + 8 - 8 = 16 + middle.length + 16 by omega,
      show 16 + middle.length + 16 + 8 - 24 = 16 + middle.length by omega]
    show ((container ++ middle ++ placer ++ expiry).take (16 + middle.length + 16)).drop _ = _
    rw [List.take_left' (by simp only [List.length_append, h1, h2]),
      List.drop_left' (by simp only [List.length_append, h1])]
  · unfold expirySlice
    rw [hlen, show 16 + middle.length + 16 + 8 - 8 = 16 + middle.length + 16 by omega]
    exact List.drop_left' (by simp only [List.length_append, h1, h2])

/-- Packed placements of different placers differ. -/
theorem placer_of_toBytes {p : Placement} {b : Bytes} (h : p.toBytes = .ok b) :
    placerSlice b = p.placer.toBytes := by
  obtain ⟨middle, expiry, -, he, rfl⟩ := toBytes_eq_ok h
  exact (slices_append (Muid.length_toBytes _) (Muid.length_toBytes _)
    (length_of_encodeMuts he)).2.2.1

/-- `Placement.from_bytes(data, using)`. -/
def fromBytes (data : Bytes) (behavior : Behavior) : Except Error Placement := do
  let placer ← Muid.fromBytes (placerSlice data)
  let middle ← middleFromBytes (middleSlice data) behavior
  let container ← Muid.fromBytes (data.take 16)
  let expiry ← decodeMuts (expirySlice data)
  return ⟨container, middle, placer, expiry⟩

end Placement

/-! ## §4. The other index keys. -/

/-- `bytes(LocationKey(entry_muid, placement))`. -/
def locationKey (entryMuid placement : Muid) : Bytes := entryMuid.toBytes ++ placement.toBytes

/-- `RemovalKey`. -/
structure RemovalKey where
  container : Muid
  removing : Muid
  movement : Muid
  deriving DecidableEq, Repr

/-- `bytes(removal_key)`. -/
def RemovalKey.toBytes (k : RemovalKey) : Bytes :=
  k.container.toBytes ++ k.removing.toBytes ++ k.movement.toBytes

/-- `RemovalKey.from_bytes(data)`. -/
def RemovalKey.fromBytes (data : Bytes) : Except Error RemovalKey := do
  let container ← Muid.fromBytes (data.take 16)
  let removing ← Muid.fromBytes ((data.take 32).drop 16)
  let movement ← Muid.fromBytes (data.drop 32)
  return ⟨container, removing, movement⟩

/-! ## §5. What reads return (tuples.py). -/

/-- `FoundEntry`. -/
structure FoundEntry where
  address : Muid
  builder : EntryBuilder
  deriving Repr

/-- `PositionedEntry`. -/
structure PositionedEntry where
  position : Int
  positioner : Muid
  entryMuid : Muid
  builder : EntryBuilder
  deriving Repr

/-- `FoundContainer`. -/
structure FoundContainer where
  address : Muid
  builder : ContainerBuilder
  deriving Repr

/-- The position a placement's middle holds; anything but a queue position is refused. -/
def MiddleKey.position : MiddleKey → Except Error Int
  | .queue t => .ok t
  | _ => .error (.assertionError "isinstance(middle_key, QueueMiddleKey)")

/-! ## §6. Entries. -/

/-- `new_entries_replace(behavior)`. -/
def newEntriesReplace (b : Behavior) : Bool :=
  match b with
  | .box | .pairMap | .directory | .keySet | .group | .pairSet | .property | .table | .braid => true
  | _ => false

/-- `ensure_entry_is_valid(builder, context, offset)`. -/
def ensureEntryIsValid (builder : EntryBuilder) (newInfo : BundleInfo) (offset : Nat) :
    Except Error Unit := do
  ensure (builder.behavior ≠ .unspecified) (.valueError "entry lacks a behavior")
  ensure builder.container.isSome (.valueError "no container specified in entry")
  let entryMuid ← changeMuid newInfo offset
  let container ← resolve entryMuid.context builder.containerField
  ensure (!(container.timestamp = -1 && container.medallion > 0 &&
      (newInfo.medallion.val : Int) ≠ container.medallion))
    (.valueError "attempt to modify instance container from other instance")

/-- The name an entry of the global property gives, when its value is a string. -/
def nameOf (builder : EntryBuilder) : Except Error (Option String) :=
  match builder.value?, builder.describing? with
  | some value, some _ => (decodeValue value).map UserValue.str?
  | _, _ => .ok none

/-- `name.encode() + b"\x00" + bytes(entry_muid)`. -/
def byNameKey (name : String) (entryMuid : Muid) : Bytes := utf8 name ++ [0] ++ entryMuid.toBytes

/-- `int(builder.value.integer)`. -/
def integerOf (builder : EntryBuilder) : Except Error Int :=
  match builder.value? with
  | some (.integer digits) => pyInt digits
  | _ => pyInt ""

end Gink
