/-
  Gink.Stores.KeyedReads — keyed lookups of a Python and of a JavaScript replica.

  An `LmdbStore` finds the entry of a key by a seek over packed byte strings, an
  `IndexedDbStore` by a cursor over composite keys.  Both replicas have applied the same
  bundles of keyed entries, each in its own order.  `Shared` says what makes the references
  of a change mean the same numbers on both sides; then every lookup finds the same entry.
-/
import Gink.Stores.KeyedListing
import Gink.Js.IndexedDbKeyed

namespace Gink

/-! ## §1. Addresses on both sides. -/

/-- The three ints of an address as its attributes read: what a program hands to either
side for a container or a key. -/
def Muid.tuple (m : Muid) : Js.MuidTuple := ⟨m.timestamp, m.medallion, m.offset⟩

/-- The three numbers of its fields. -/
def Muid.raw (m : Muid) : Js.MuidTuple :=
  ⟨m.timeField.val, m.medallionField.val, m.offsetField.val⟩

theorem Muid.tuple_injective : Function.Injective Muid.tuple := by
  rintro ⟨t, d, o⟩ ⟨t', d', o'⟩ h
  simp only [Muid.tuple, Muid.timestamp, Muid.medallion, Muid.offset, Js.MuidTuple.mk.injEq] at h
  simp only [Muid.mk.injEq, Fin.ext_iff]
  obtain ⟨h1, h2, h3⟩ := h
  have := t.isLt
  have := t'.isLt
  have := d.isLt
  have := d'.isLt
  have := o.isLt
  have := o'.isLt
  split_ifs at h1 h2 h3 <;> omega

/-- The fields compare on one side as the address on the other. -/
theorem Muid.raw_key_le {m n : Muid} : m.raw.key ≤ n.raw.key ↔ m ≤ n := by
  rw [← not_lt, ← not_lt, Js.MuidTuple.key_lt, Muid.lt_iff_toNat_lt, Muid.toNat_lt_iff]
  simp only [Muid.raw, Fin.lt_def, Fin.ext_iff, Nat.cast_lt, Nat.cast_inj]

theorem Muid.raw_injective : Function.Injective Muid.raw := by
  intro m n h
  have hle := Muid.raw_key_le.mp (le_of_eq (congrArg Js.MuidTuple.key h))
  have hge := Muid.raw_key_le.mp (le_of_eq (congrArg Js.MuidTuple.key h.symm))
  exact le_antisymm hle hge

/-- The address of a change is made of plain numbers. -/
theorem changeAddress_eq {info : BundleInfo} {offset : Nat} {m : Muid}
    (h : changeMuid info offset = .ok m) : Js.changeAddress info offset = m.raw := by
  obtain ⟨ht, hm, ho, -⟩ := changeMuid_eq_ok h
  unfold Js.changeAddress Muid.raw
  rw [ht, hm, ho]

/-- A reference whose numbers both sides keep: its offset counts from the front, and its
timestamp and medallion are not spelled all ones, which Python reads as -1. -/
structure Exact (b : MuidBuilder) : Prop where
  timestamp : b.timestamp ≠ 2 ^ 52 - 1
  medallion : b.medallion ≠ 2 ^ 44 - 1
  offset : 0 ≤ b.offset ∧ b.offset < 2 ^ 31

instance : DecidablePred Exact := fun b =>
  decidable_of_iff (b.timestamp ≠ 2 ^ 52 - 1 ∧ b.medallion ≠ 2 ^ 44 - 1 ∧
      0 ≤ b.offset ∧ b.offset < 2 ^ 31)
    ⟨fun h => ⟨h.1, h.2.1, h.2.2⟩, fun h => ⟨h.timestamp, h.medallion, h.offset⟩⟩

/-- The bundle's own stamp is not all ones. -/
structure PlainStamp (info : BundleInfo) : Prop where
  timestamp : info.timestamp.val ≠ 2 ^ 52 - 1
  medallion : info.medallion.val ≠ 2 ^ 44 - 1

instance : DecidablePred PlainStamp := fun info =>
  decidable_of_iff (info.timestamp.val ≠ 2 ^ 52 - 1 ∧ info.medallion.val ≠ 2 ^ 44 - 1)
    ⟨fun h => ⟨h.1, h.2⟩, fun h => ⟨h.timestamp, h.medallion⟩⟩

/-- The address of a change as a context says what the bundle's info says. -/
theorem PlainStamp.context {info : BundleInfo} (h : PlainStamp info) {offset : Nat} {placer : Muid}
    (hplacer : changeMuid info offset = .ok placer) :
    placer.context.timestamp = info.timestamp.val ∧
      placer.context.medallion = info.medallion.val := by
  obtain ⟨ht, hm, -, -⟩ := changeMuid_eq_ok hplacer
  constructor
  · show placer.timestamp = _
    rw [Muid.timestamp_of_ne (by rw [ht]; exact h.timestamp), ht]
  · show placer.medallion = _
    unfold Muid.medallion
    rw [if_neg (by rw [hm]; exact h.medallion), hm]

/-- **An exact reference** resolves in Python to the address with the numbers that
JavaScript fills in. -/
theorem resolve_exact {info : BundleInfo} {context : Context} {m : Muid} {b : MuidBuilder}
    (hcontext : context.timestamp = info.timestamp.val ∧ context.medallion = info.medallion.val)
    (hinfo : PlainStamp info) (hb : Exact b) (h : resolve context b = .ok m) :
    Js.ofBundle b info = m.tuple := by
  obtain ⟨absolute, hmake, -, -, habs⟩ := create_eq_ok h
  have hoff : orElse 0 b.offset = b.offset := rfl
  have habs' : absolute = b.offset := by
    rw [habs (by rw [hoff]; exact hb.offset.1), hoff]
  rw [hcontext.1, hcontext.2, habs'] at hmake
  obtain ⟨htb, hmb, -, rfl⟩ := Muid.make_eq_ok.mp hmake
  have hb1 := hb.timestamp
  have hb2 := hb.medallion
  have hb3 := hb.offset
  have hi1 := hinfo.timestamp
  have hi2 := hinfo.medallion
  unfold Js.ofBundle Js.filled Muid.tuple Muid.timestamp Muid.medallion Muid.offset
  simp only [Js.MuidTuple.mk.injEq]
  have h1 := Muid.val_field (2 ^ 52) (orElse b.timestamp info.timestamp.val)
  have h2 := Muid.val_field (2 ^ 44) (orElse b.medallion info.medallion.val)
  have h3 := Muid.val_field (2 ^ 32) b.offset
  refine ⟨?_, ?_, ?_⟩
  · unfold orElse at htb h1 ⊢
    split_ifs at htb h1 ⊢ <;> omega
  · unfold orElse at hmb h2 ⊢
    split_ifs at hmb h2 ⊢ <;> omega
  · split_ifs <;> omega

/-! ## §2. Keys on both sides. -/

/-- The behaviors of keyed containers that both sides know. -/
def IsKeyed : Behavior → Prop
  | .directory | .keySet | .box | .property | .group | .pairMap | .pairSet => True
  | _ => False

instance : DecidablePred IsKeyed := fun behavior =>
  match behavior with
  | .directory | .keySet | .box | .property | .group | .pairMap | .pairSet => isTrue trivial
  | .unspecified | .sequence | .vertex | .eventType | .edgeType | .table | .braid | .accumulator
  | .unrecognized _ => isFalse id

/-- The storage key of a key. -/
def storageKey : MiddleKey → Js.StorageKey
  | .none => .empty
  | .key (.number n) => .number n
  | .key (.characters s) => .characters s
  | .key (.octets b) => .octets b
  | .queue t => .number t
  | .muid m => .muid m.tuple
  | .pair l r => .pair l.tuple r.tuple

theorem unwrapKey_eq (k : UserKey) : Js.unwrapKey (some k) = .ok (storageKey (.key k)) := by
  cases k <;> rfl

/-- Keys of one kind are told apart by their storage keys. -/
theorem storageKey_inj {behavior : Behavior} {k k' : MiddleKey} (hk : KeyOf behavior k)
    (hk' : KeyOf behavior k') (h : storageKey k = storageKey k') : k = k' := by
  cases k with
  | queue t => cases behavior <;> exact absurd hk id
  | none =>
      cases k' with
      | none => rfl
      | queue t => cases behavior <;> exact absurd hk' id
      | key u => cases u <;> simp [storageKey] at h
      | muid m => simp [storageKey] at h
      | pair l r => simp [storageKey] at h
  | key u =>
      cases k' with
      | queue t => cases behavior <;> exact absurd hk' id
      | key v => cases u <;> cases v <;> simp_all [storageKey]
      | none => cases u <;> simp [storageKey] at h
      | muid m => cases u <;> simp [storageKey] at h
      | pair l r => cases u <;> simp [storageKey] at h
  | muid m =>
      cases k' with
      | queue t => cases behavior <;> exact absurd hk' id
      | muid n =>
          simp only [storageKey, Js.StorageKey.muid.injEq] at h
          rw [Muid.tuple_injective h]
      | none => simp [storageKey] at h
      | key u => cases u <;> simp [storageKey] at h
      | pair l r => simp [storageKey] at h
  | pair l r =>
      cases k' with
      | queue t => cases behavior <;> exact absurd hk' id
      | pair l' r' =>
          simp only [storageKey, Js.StorageKey.pair.injEq] at h
          rw [Muid.tuple_injective h.1, Muid.tuple_injective h.2]
      | none => simp [storageKey] at h
      | key u => cases u <;> simp [storageKey] at h
      | muid m => simp [storageKey] at h

/-- What `builderToMuid` returns it fills in. -/
theorem builderToMuid_ok {b : MuidBuilder} {info : BundleInfo} {offset : Nat} {t : Js.MuidTuple}
    (h : Js.builderToMuid b (Js.changeAddress info offset) = .ok t) : t = Js.ofBundle b info := by
  obtain ⟨n, hn, h⟩ := Js.bind_eq_ok.mp h
  unfold Js.ensureNumber at hn
  split_ifs at hn
  injection hn with hn
  rw [← Js.pure_eq_ok.mp h, ← hn]
  rfl

theorem message_ok {b b' : MuidBuilder} (h : Js.message b = .ok b') : b' = b := by
  unfold Js.message at h
  split_ifs at h
  injection h with h
  exact h.symm

/-- The references a keyed entry is placed by. -/
structure ExactEntry (builder : EntryBuilder) : Prop where
  container : Exact builder.containerField
  describing : ∀ b ∈ builder.describing?, Exact b
  pair : ∀ p ∈ builder.pair?, Exact p.left ∧ Exact p.rite

instance : DecidablePred ExactEntry := fun builder =>
  decidable_of_iff (Exact builder.containerField ∧ (∀ b ∈ builder.describing?, Exact b) ∧
      ∀ p ∈ builder.pair?, Exact p.left ∧ Exact p.rite)
    ⟨fun h => ⟨h.1, h.2.1, h.2.2⟩, fun h => ⟨h.container, h.describing, h.pair⟩⟩

/-- **Both sides place a keyed entry under the same key**, and it is one of the
container's kind. -/
theorem getStorageKey_eq {builder : EntryBuilder} {info : BundleInfo} {offset : Nat}
    {placer : Muid} {k : MiddleKey} {sk : Js.StorageKey} (hplacer : changeMuid info offset = .ok placer)
    (hinfo : PlainStamp info) (hkeyed : IsKeyed builder.behavior) (hexact : ExactEntry builder)
    (hk : Placement.middleOf builder placer = .ok k)
    (hsk : Js.getStorageKey builder (Js.changeAddress info offset) = .ok sk) :
    sk = storageKey k ∧ KeyOf builder.behavior k := by
  have huser : (builder.behavior = .directory ∨ builder.behavior = .keySet) →
      sk = storageKey k ∧ KeyOf builder.behavior k := by
    intro hb
    have hmiddle : ∀ u, builder.key = some u → k = .key u := by
      intro u hu
      unfold Placement.middleOf at hk
      rcases hb with hb | hb <;> rw [hb] at hk <;> injection hk with hk <;> rw [← hk, hu]
    have hstorage : ∃ u, builder.key = some u ∧ sk = storageKey (.key u) := by
      unfold Js.getStorageKey at hsk
      unfold EntryBuilder.key
      cases hs : builder.subject with
      | none => rcases hb with hb | hb <;> simp [hb, hs] at hsk
      | some subject =>
          cases subject with
          | pair p => rcases hb with hb | hb <;> simp [hb, hs] at hsk
          | describing d => rcases hb with hb | hb <;> simp [hb, hs] at hsk
          | key u? =>
              cases u? with
              | none => rcases hb with hb | hb <;> simp [hb, hs, Js.unwrapKey] at hsk
              | some u =>
                  refine ⟨u, rfl, ?_⟩
                  rcases hb with hb | hb <;> simp only [hb, hs] at hsk <;>
                    rw [unwrapKey_eq] at hsk <;> injection hsk with hsk <;> exact hsk.symm
    obtain ⟨u, hu, rfl⟩ := hstorage
    rw [hmiddle u hu]
    exact ⟨rfl, by rcases hb with hb | hb <;> rw [hb] <;> trivial⟩
  have hmuid : (builder.behavior = .property ∨ builder.behavior = .group) →
      sk = storageKey k ∧ KeyOf builder.behavior k := by
    intro hb
    cases hd : builder.describing? with
    | none =>
        unfold Js.getStorageKey at hsk
        rcases hb with hb | hb <;> simp [hb, hd] at hsk
    | some d =>
        have hresolved : ∃ m, resolve placer.context d = .ok m ∧ k = .muid m := by
          unfold Placement.middleOf at hk
          rcases hb with hb | hb <;> simp only [hb, hd, Option.getD_some] at hk <;>
            cases hr : resolve placer.context d <;> rw [hr] at hk <;>
            simp [Except.map] at hk <;> exact ⟨_, rfl, hk.symm⟩
        have hfilled : sk = .muid (Js.ofBundle d info) := by
          unfold Js.getStorageKey at hsk
          rcases hb with hb | hb <;> simp only [hb, hd] at hsk <;>
            cases hr : Js.builderToMuid d (Js.changeAddress info offset) <;> rw [hr] at hsk <;>
            simp [Except.map] at hsk <;> rw [← hsk, builderToMuid_ok hr]
        obtain ⟨m, hm, rfl⟩ := hresolved
        rw [hfilled, resolve_exact (hinfo.context hplacer) hinfo (hexact.describing d hd) hm]
        exact ⟨rfl, by rcases hb with hb | hb <;> rw [hb] <;> trivial⟩
  have hpair : (builder.behavior = .pairSet ∨ builder.behavior = .pairMap) →
      sk = storageKey k ∧ KeyOf builder.behavior k := by
    intro hb
    cases hp : builder.pair? with
    | none =>
        unfold Js.getStorageKey at hsk
        rcases hb with hb | hb <;> simp [hb, hp] at hsk
    | some p =>
        have hresolved : ∃ l r, resolve placer.context p.left = .ok l ∧
            resolve placer.context p.rite = .ok r ∧ k = .pair l r := by
          unfold Placement.middleOf at hk
          rcases hb with hb | hb <;> simp only [hb, hp, Option.getD_some] at hk <;>
            obtain ⟨l, hl, hk⟩ := bind_eq_ok.mp hk <;> obtain ⟨r, hr, hk⟩ := bind_eq_ok.mp hk <;>
            exact ⟨l, r, hl, hr, (pure_eq_ok.mp hk).symm⟩
        have hfilled : sk = .pair (Js.ofBundle p.left info) (Js.ofBundle p.rite info) := by
          unfold Js.getStorageKey at hsk
          rcases hb with hb | hb <;> simp only [hb, hp] at hsk <;>
            obtain ⟨bl, hbl, hsk⟩ := Js.bind_eq_ok.mp hsk <;>
            obtain ⟨l, hl, hsk⟩ := Js.bind_eq_ok.mp hsk <;>
            obtain ⟨br, hbr, hsk⟩ := Js.bind_eq_ok.mp hsk <;>
            obtain ⟨r, hr, hsk⟩ := Js.bind_eq_ok.mp hsk <;>
            rw [message_ok hbl] at hl <;> rw [message_ok hbr] at hr <;>
            rw [← Js.pure_eq_ok.mp hsk, builderToMuid_ok hl, builderToMuid_ok hr]
        obtain ⟨l, r, hl, hr, rfl⟩ := hresolved
        obtain ⟨hel, her⟩ := hexact.pair p hp
        have hcontext := hinfo.context hplacer
        rw [hfilled, resolve_exact hcontext hinfo hel hl, resolve_exact hcontext hinfo her hr]
        exact ⟨rfl, by rcases hb with hb | hb <;> rw [hb] <;> trivial⟩
  cases hb : builder.behavior with
  | directory => rw [← hb]; exact huser (Or.inl hb)
  | keySet => rw [← hb]; exact huser (Or.inr hb)
  | property => rw [← hb]; exact hmuid (Or.inl hb)
  | group => rw [← hb]; exact hmuid (Or.inr hb)
  | pairSet => rw [← hb]; exact hpair (Or.inl hb)
  | pairMap => rw [← hb]; exact hpair (Or.inr hb)
  | box =>
      unfold Placement.middleOf at hk
      unfold Js.getStorageKey at hsk
      simp only [hb, Except.ok.injEq] at hk hsk
      rw [← hk, ← hsk]
      exact ⟨rfl, trivial⟩
  | _ => rw [hb] at hkeyed; exact absurd hkeyed id

/-! ## §3. The changes both replicas have applied. -/

/-- A change that writes to a keyed container or clears one; nothing expires, and all its
references are exact. -/
def SharedChange : ChangeBuilder → Prop
  | .entry b => IsKeyed b.behavior ∧ b.expiry.val = 0 ∧ ExactEntry b
  | .clearance b => b.purge = false ∧ Exact b.container
  | .movement _ => False
  | .container _ | .unset => True

instance : DecidablePred SharedChange := fun change =>
  match change with
  | .entry b => inferInstanceAs (Decidable (IsKeyed b.behavior ∧ b.expiry.val = 0 ∧ ExactEntry b))
  | .clearance b => inferInstanceAs (Decidable (b.purge = false ∧ Exact b.container))
  | .movement _ => isFalse id
  | .container _ | .unset => isTrue trivial

/-- A change of which both sides read the same. -/
structure Shared (op : Op) : Prop where
  stamp : PlainStamp op.info
  change : SharedChange op.change

instance : DecidablePred Shared := fun op =>
  decidable_of_iff (PlainStamp op.info ∧ SharedChange op.change)
    ⟨fun h => ⟨h.1, h.2⟩, fun h => ⟨h.stamp, h.change⟩⟩

theorem Shared.entry {op : Op} (h : Shared op) {b : EntryBuilder} (hc : op.change = .entry b) :
    IsKeyed b.behavior ∧ b.expiry.val = 0 ∧ ExactEntry b := by
  have hchange := h.change
  rwa [hc] at hchange

theorem Shared.clearance {op : Op} (h : Shared op) {b : ClearanceBuilder}
    (hc : op.change = .clearance b) : b.purge = false ∧ Exact b.container := by
  have hchange := h.change
  rwa [hc] at hchange

theorem Shared.plain {op : Op} (h : Shared op) : Js.IndexedDb.IsPlain op.change := by
  have hchange := h.change
  cases hc : op.change with
  | movement b => rw [hc] at hchange; exact hchange
  | clearance b => exact (h.clearance hc).1
  | _ => trivial

theorem Shared.not_movement {op : Op} (h : Shared op) : ¬ Lmdb.IsMovement op.change := by
  intro hmove
  have hchange := h.change
  cases hc : op.change with
  | movement b => rw [hc] at hchange; exact hchange
  | _ => rw [hc] at hmove; exact hmove

/-- What both replicas recorded of one entry. -/
structure Recorded (op : Op) (builder : EntryBuilder) (placement : Placement) (packed : Bytes)
    (e : Js.Entry) : Prop where
  change : op.change = .entry builder
  named : builder.container.isSome
  placed : Lmdb.Op.placed op = some (builder, placement, packed)
  record : Js.IndexedDb.entryOf op = some e

section
variable {op : Op} {builder : EntryBuilder} {placement : Placement} {packed : Bytes}
  {e : Js.Entry}

/-- **The two records agree** in container, key and address. -/
theorem Recorded.agree (h : Recorded op builder placement packed e) (hshared : Shared op) :
    e.containerId = placement.container.tuple ∧ e.storageKey = storageKey placement.middle ∧
      KeyOf builder.behavior placement.middle ∧ e.placementId = placement.placer.raw ∧
      e.entryId = placement.placer.raw := by
  obtain ⟨-, hp, -⟩ := Lmdb.placed_eq_some.mp h.placed
  obtain ⟨hplacer, hcontainer, hmiddle, -⟩ := Placement.fromBuilder_eq_ok hp
  have hbuild := (Js.IndexedDb.entryOf_eq h.change).mp h.record
  obtain ⟨hcontainerId, hkey, hplacement, hentry⟩ := Js.IndexedDb.buildEntry_ok hbuild
  obtain ⟨hkeyed, -, hexact⟩ := hshared.entry h.change
  have hfilled : e.containerId = Js.ofBundle builder.containerField op.info := by
    obtain ⟨b, hb⟩ := Option.isSome_iff_exists.mp h.named
    unfold Js.IndexedDb.containerIdOf Js.extractContainerMuid at hcontainerId
    unfold EntryBuilder.containerField
    rw [hb] at hcontainerId ⊢
    exact (Js.pure_eq_ok.mp hcontainerId).symm
  obtain ⟨hsk, hkind⟩ := getStorageKey_eq hplacer hshared.stamp hkeyed hexact
    hmiddle hkey
  refine ⟨?_, hsk, hkind, ?_, ?_⟩
  · rw [hfilled, resolve_exact (hshared.stamp.context hplacer) hshared.stamp hexact.container
      hcontainer]
  · rw [hplacement, changeAddress_eq hplacer]
  · rw [hentry, changeAddress_eq hplacer]

/-- It never expires, so its packed placement is a row key. -/
theorem Recorded.row (h : Recorded op builder placement packed e) (hshared : Shared op) :
    ∃ b, placement.middle.toBytes = .ok b ∧
      packed = rowKey placement.container b placement.placer := by
  obtain ⟨-, hp, hbytes⟩ := Lmdb.placed_eq_some.mp h.placed
  obtain ⟨-, -, -, hexpiry⟩ := Placement.fromBuilder_eq_ok hp
  rw [if_pos (hshared.entry h.change).2.1] at hexpiry
  obtain ⟨container, middle, placer, expiry⟩ := placement
  obtain rfl : expiry = none := hexpiry
  exact toBytes_eq_rowKey.mp hbytes

/-- Its time is an ordinary one. -/
theorem Recorded.time (h : Recorded op builder placement packed e) (hshared : Shared op) :
    placement.placer.timeField.val < 2 ^ 52 - 1 := by
  obtain ⟨ht, -, -, -⟩ := changeMuid_eq_ok (Lmdb.placed_placer h.placed)
  have hne := hshared.stamp.timestamp
  have hlt := placement.placer.timeField.isLt
  omega

end

section
variable {lib : Externals} {history history' : List OpenBundle} {c : Lmdb.Contents}
  {c' : Js.IndexedDb.Contents}

/-- A valid entry names its container. -/
theorem named_of_valid {builder : EntryBuilder} {info : BundleInfo} {offset : Nat}
    (h : ensureEntryIsValid builder info offset = .ok ()) : builder.container.isSome := by
  obtain ⟨_, -, h⟩ := bind_eq_ok.mp h
  obtain ⟨_, hsome, -⟩ := bind_eq_ok.mp h
  exact ensure_eq_ok.mp hsome

/-- **Each entry both replicas accepted** has a record on both sides. -/
theorem exists_recorded (h : Lmdb.History lib true history c)
    (h' : Js.IndexedDb.History true history' c') {op : Op} (hop : op ∈ allOps history)
    (hop' : op ∈ allOps history') {builder : EntryBuilder} (hchange : op.change = .entry builder) :
    ∃ placement packed e, Recorded op builder placement packed e := by
  obtain ⟨committed, before, after, seen, seen', happlied⟩ := h.applied op hop
  obtain ⟨jsBefore, jsAfter, hjs⟩ := h'.applied op hop'
  rw [hchange] at happlied hjs
  have hlmdb : builder.container.isSome ∧
      ∃ placement packed, Lmdb.Op.placed op = some (builder, placement, packed) := by
    cases Lmdb.applyChange_effect happlied with
    | entry _ _ _ containers hadded =>
        obtain ⟨placement, bytes, removals, byTime, totals, indexes, hvalid, hp, hb, -⟩ :=
          Lmdb.addEntry_ok hadded
        exact ⟨named_of_valid hvalid, placement, bytes,
          Lmdb.placed_eq_some.mpr ⟨hchange, hp, hb⟩⟩
  obtain ⟨hnamed, placement, packed, hplaced⟩ := hlmdb
  obtain ⟨e, hbuild, -⟩ := Js.bind_eq_ok.mp hjs
  exact ⟨placement, packed, e, hchange, hnamed, hplaced, (Js.IndexedDb.entryOf_eq hchange).mpr hbuild⟩

/-- What both replicas recorded of one clearance. -/
theorem exists_cleared (h : Lmdb.History lib true history c)
    (h' : Js.IndexedDb.History true history' c') {op : Op} (hop : op ∈ allOps history)
    (hop' : op ∈ allOps history') (hshared : Shared op) {builder : ClearanceBuilder}
    (hchange : op.change = .clearance builder) :
    ∃ container clearance : Muid, Lmdb.Op.cleared op = some (container, clearance, builder) ∧
      Js.IndexedDb.clearanceOf op = some ⟨container.tuple, clearance.raw, builder.purge⟩ := by
  obtain ⟨committed, before, after, seen, seen', happlied⟩ := h.applied op hop
  obtain ⟨jsBefore, jsAfter, hjs⟩ := h'.applied op hop'
  rw [hchange] at happlied hjs
  have hlmdb : ∃ container clearance,
      Lmdb.Op.cleared op = some (container, clearance, builder) := by
    cases Lmdb.applyChange_effect happlied with
    | clearance _ _ _ hcleared =>
        obtain ⟨container, clearance, hc, hm, -⟩ := Lmdb.applyClearance_ok hcleared
        exact ⟨container, clearance, Lmdb.cleared_eq_some.mpr ⟨hchange, hc, hm⟩⟩
  obtain ⟨container, clearance, hcleared⟩ := hlmdb
  obtain ⟨-, hcontainer, hclearance⟩ := Lmdb.cleared_eq_some.mp hcleared
  refine ⟨container, clearance, hcleared, ?_⟩
  obtain ⟨b, hb, hjs⟩ := Js.bind_eq_ok.mp hjs
  obtain ⟨t, ht, -⟩ := Js.bind_eq_ok.mp hjs
  have hfilled : t = container.tuple := by
    rw [message_ok hb] at ht
    rw [builderToMuid_ok ht]
    exact resolve_exact ⟨rfl, rfl⟩ hshared.stamp (hshared.clearance hchange).2 hcontainer
  rw [hfilled, changeAddress_eq hclearance] at ht
  unfold Js.IndexedDb.clearanceOf
  rw [hchange]
  simp only [hb, ht, changeAddress_eq hclearance, bind, Except.bind]
  rfl

end

/-! ## §4. One container on both sides. -/

/-- The as-of arguments of the two lookups: the present, spelled -1 and `undefined`, or
the same time, which JavaScript reads as one only after 2020. -/
inductive SameTime : Int → Option Int → Prop
  | present : SameTime (-1) none
  | past (t : Int) (recent : Js.IndexedDb.year2020 < t) (inRange : t < 2 ^ 52) :
      SameTime t (some t)

theorem SameTime.instant {asOf : Int} {asOf' : Option Int} (h : SameTime asOf asOf') :
    ∃ instant, Muid.instant asOf = .ok instant := by
  cases h with
  | present => exact ⟨_, rfl⟩
  | past _ recent inRange =>
      unfold Js.IndexedDb.year2020 at recent
      exact ⟨_, Muid.instant_eq_ok.mpr ⟨⟨by omega, inRange⟩, rfl⟩⟩

theorem SameTime.resolve {asOf : Int} {asOf' : Option Int} (h : SameTime asOf asOf')
    (trxns : List Int) : Js.IndexedDb.resolveAsOf trxns asOf' none = .ok asOf' := by
  cases h with
  | present => rfl
  | past _ recent _ =>
      have hpos := recent
      unfold Js.IndexedDb.year2020 at hpos
      unfold Js.IndexedDb.resolveAsOf Js.IndexedDb.asOfToTimestamp
      simp only [show asOf ≠ 0 by omega, if_false, if_pos (show asOf > Js.IndexedDb.year2020 from recent)]
      rfl

/-- The same changes come before it. -/
theorem SameTime.before {asOf : Int} {asOf' : Option Int} (h : SameTime asOf asOf') {m : Muid}
    (hm : m.timeField.val < 2 ^ 52 - 1) :
    KeyedView.Before asOf m ↔ Js.IndexedDb.BeforeTime asOf' m.raw := by
  unfold KeyedView.Before Muid.instantField Js.IndexedDb.BeforeTime Muid.raw
  cases h with
  | present =>
      have : (-1 % 2 ^ 52 : Int).toNat = 2 ^ 52 - 1 := by decide
      simp only [this, hm, reduceCtorEq, false_implies, implies_true]
  | past _ recent inRange =>
      unfold Js.IndexedDb.year2020 at recent
      simp only [Option.some.injEq, forall_eq']
      omega

/-- All entries of the container have one behavior. -/
def OneKind (history : List OpenBundle) (container : Muid) (behavior : Behavior) : Prop :=
  ∀ op ∈ allOps history, ∀ placed ∈ Lmdb.Op.placed op,
    placed.2.1.container = container → placed.1.behavior = behavior

instance (history : List OpenBundle) (container : Muid) (behavior : Behavior) :
    Decidable (OneKind history container behavior) :=
  inferInstanceAs (Decidable (∀ op ∈ allOps history, ∀ placed ∈ Lmdb.Op.placed op,
    placed.2.1.container = container → placed.1.behavior = behavior))

/-- Two replicas that have applied the same changes, and a container both read alike. -/
structure Replicas (lib : Externals) (history history' : List OpenBundle) (c : Lmdb.Contents)
    (c' : Js.IndexedDb.Contents) (container : Muid) (behavior : Behavior) : Prop where
  lmdb : Lmdb.History lib true history c
  js : Js.IndexedDb.History true history' c'
  same : history.Perm history'
  shared : ∀ op ∈ allOps history, Shared op
  kind : OneKind history container behavior

section
variable {lib : Externals} {history history' : List OpenBundle} {c : Lmdb.Contents}
  {c' : Js.IndexedDb.Contents} {container : Muid} {behavior : Behavior}

theorem Replicas.mem (h : Replicas lib history history' c c' container behavior) {op : Op} :
    op ∈ allOps history ↔ op ∈ allOps history' := by
  have hops : (allOps history).Perm (allOps history') := h.same.flatMap_right _
  exact hops.mem_iff

theorem Replicas.recorded (h : Replicas lib history history' c c' container behavior) {op : Op}
    (hop : op ∈ allOps history) {builder : EntryBuilder} (hchange : op.change = .entry builder) :
    ∃ placement packed e, Recorded op builder placement packed e :=
  exists_recorded h.lmdb h.js hop (h.mem.mp hop) hchange

/-- A change of a bundle is the change of one of its ops. -/
theorem exists_opsFrom {info : BundleInfo} {changes : List ChangeBuilder} {change : ChangeBuilder} :
    ∀ {offset : Nat}, change ∈ changes → ∃ op ∈ opsFrom info offset changes, op.change = change := by
  induction changes with
  | nil => intro offset h; simp at h
  | cons first rest ih =>
      intro offset h
      rcases List.mem_cons.mp h with rfl | h
      · exact ⟨_, List.mem_cons_self, rfl⟩
      · obtain ⟨op, hop, heq⟩ := @ih (offset + 1) h
        exact ⟨op, List.mem_cons_of_mem _ hop, heq⟩

theorem Replicas.movesNothing (h : Replicas lib history history' c c' container behavior) :
    Lmdb.MovesNothing history := by
  intro b hb change hchange
  obtain ⟨op, hop, rfl⟩ : ∃ op ∈ allOps history, op.change = change := by
    obtain ⟨op, hop, heq⟩ := @exists_opsFrom b.info _ _ 1 hchange
    exact ⟨op, List.mem_flatMap.mpr ⟨b, hb, hop⟩, heq⟩
  exact (h.shared op hop).not_movement

theorem Replicas.plain (h : Replicas lib history history' c c' container behavior) :
    Js.IndexedDb.PlainHistory history' :=
  fun op hop => (h.shared op (h.mem.mpr hop)).plain

/-- The placements of the `LmdbStore` are those of the entries. -/
theorem Replicas.placements (h : Replicas lib history history' c c' container behavior)
    {row : Bytes × Bytes} : row ∈ c.placements.rows ↔
      ∃ op ∈ allOps history, ∃ builder placement packed,
        Lmdb.Op.placed op = some (builder, placement, packed) ∧
          row = (packed, placement.placer.toBytes) := by
  have hfunctional : ∀ x ∈ (allOps history).filterMap Lmdb.Op.placementRow,
      ∀ y ∈ (allOps history).filterMap Lmdb.Op.placementRow, x.1 = y.1 → x.2 = y.2 := by
    intro x hx y hy hkey
    obtain ⟨op, -, hopx⟩ := List.mem_filterMap.mp hx
    obtain ⟨op', -, hopy⟩ := List.mem_filterMap.mp hy
    obtain ⟨⟨b, p, bytes⟩, hp, rfl⟩ := Option.map_eq_some_iff.mp hopx
    obtain ⟨⟨b', p', bytes'⟩, hp', rfl⟩ := Option.map_eq_some_iff.mp hopy
    have hslice := Placement.placer_of_toBytes (Lmdb.placed_eq_some.mp hp).2.2
    have hslice' := Placement.placer_of_toBytes (Lmdb.placed_eq_some.mp hp').2.2
    simp only at hkey
    rw [hkey, hslice'] at hslice
    exact hslice.symm
  have hrows := (h.lmdb.rows h.movesNothing).2.1
  obtain ⟨key, value⟩ := row
  rw [← Table.get?_eq_some_iff, hrows, Table.get?_putAll _ hfunctional, List.mem_filterMap]
  simp only [Table.get?_empty, reduceCtorEq, false_and, or_false]
  unfold Lmdb.Op.placementRow
  simp only [Option.map_eq_some_iff, Prod.exists, Prod.mk.injEq]
  constructor
  · rintro ⟨op, hop, b, p, bytes, hp, hkey, hvalue⟩
    exact ⟨op, hop, b, p, bytes, hp, hkey.symm, hvalue.symm⟩
  · rintro ⟨op, hop, b, p, bytes, hp, hkey, hvalue⟩
    exact ⟨op, hop, b, p, bytes, hp, hkey.symm, hvalue.symm⟩

/-- Its clearances are those of the changes. -/
theorem Replicas.clearances (h : Replicas lib history history' c c' container behavior) {z : Muid} :
    (Lmdb.keyedView c container behavior).cleared z ↔ ∃ op ∈ allOps history, ∃ builder,
      Lmdb.Op.cleared op = some (container, z, builder) := by
  have hrows := (h.lmdb.rows h.movesNothing).2.2
  have hkey : (Lmdb.keyedView c container behavior).cleared z ↔
      (c.clearances.get? (container.toBytes ++ z.toBytes)).isSome := by
    rw [Option.isSome_iff_exists]
    exact exists_congr fun value => Table.get?_eq_some_iff.symm
  rw [hkey, hrows, Table.get?_putAll_isSome]
  simp only [Table.get?_empty, Option.isSome_none, Bool.false_eq_true, false_or, List.mem_filterMap]
  unfold Lmdb.Op.clearanceRow
  simp only [Option.map_eq_some_iff, Prod.exists, Prod.mk.injEq]
  constructor
  · rintro ⟨key, value, ⟨op, hop, container', z', builder, hcleared, rfl, rfl⟩, heq⟩
    obtain ⟨hcontainer, hz⟩ := List.append_inj heq (by simp)
    rw [Muid.toBytes_injective hcontainer, Muid.toBytes_injective hz] at hcleared
    exact ⟨op, hop, builder, hcleared⟩
  · rintro ⟨op, hop, builder, hcleared⟩
    exact ⟨_, _, ⟨op, hop, container, z, builder, hcleared, rfl, rfl⟩, rfl⟩

/-- **The container is a keyed one.** -/
theorem Replicas.keyedContainer (h : Replicas lib history history' c c' container behavior) :
    Lmdb.KeyedContainer c container behavior := by
  intro row hrow hpre
  obtain ⟨op, hop, builder, placement, packed, hplaced, rfl⟩ := h.placements.mp hrow
  have hchange := (Lmdb.placed_eq_some.mp hplaced).1
  obtain ⟨placement', packed', e, hrecorded⟩ := h.recorded hop hchange
  obtain ⟨rfl, rfl⟩ : placement = placement' ∧ packed = packed' := by
    have heq := hrecorded.placed
    rw [hplaced] at heq
    simpa using heq
  have hshared := h.shared op hop
  have hcontainer := Lmdb.container_of_head (Lmdb.placed_eq_some.mp hplaced).2.2 hpre
  obtain ⟨b, hb, hpacked⟩ := hrecorded.row hshared
  refine ⟨placement.middle, b, placement.placer, ?_, hb, ?_, hrecorded.time hshared⟩
  · rw [← h.kind op hop (builder, placement, packed) hplaced hcontainer.symm]
    exact (hrecorded.agree hshared).2.2.1
  · rw [hcontainer, hpacked]

/-- The entry `e` of one replica and the address `m` of the other are those of one change,
which wrote to the key of the container. -/
def Wrote (history : List OpenBundle) (container : Muid) (key : MiddleKey) (m : Muid)
    (e : Js.Entry) : Prop :=
  ∃ op ∈ allOps history, ∃ builder placement packed, Recorded op builder placement packed e ∧
    placement.container = container ∧ placement.middle = key ∧ placement.placer = m

theorem Replicas.address (h : Replicas lib history history' c c' container behavior)
    {key : MiddleKey} {m : Muid} {e : Js.Entry} (hw : Wrote history container key m e) :
    e.placementId = m.raw ∧ e.entryId = m.raw ∧ m.timeField.val < 2 ^ 52 - 1 := by
  obtain ⟨op, hop, builder, placement, packed, hrecorded, -, -, rfl⟩ := hw
  obtain ⟨-, -, -, hplacement, hentry⟩ := hrecorded.agree (h.shared op hop)
  exact ⟨hplacement, hentry, hrecorded.time (h.shared op hop)⟩

/-- **Who wrote to a key**, by the placements table. -/
theorem Replicas.has_iff (h : Replicas lib history history' c c' container behavior)
    {key : MiddleKey} {b : Bytes} (hk : KeyOf behavior key) (hb : key.toBytes = .ok b) {m : Muid} :
    (Lmdb.keyedView c container behavior).has key m ↔ ∃ e, Wrote history container key m e := by
  constructor
  · rintro ⟨-, b', hb', hrow⟩
    obtain ⟨op, hop, builder, placement, packed, hplaced, heq⟩ := h.placements.mp hrow
    obtain ⟨k, b'', n, hk'', hb'', heq'', -⟩ :=
      h.keyedContainer _ hrow (container_prefix_rowKey container b' m)
    obtain ⟨placement', packed', e, hrecorded⟩ :=
      h.recorded hop (Lmdb.placed_eq_some.mp hplaced).1
    obtain ⟨rfl, rfl⟩ : placement = placement' ∧ packed = packed' := by
      have hsame := hrecorded.placed
      rw [hplaced] at hsame
      simpa using hsame
    have hshared := h.shared op hop
    obtain ⟨hpacked, hplacer⟩ := Prod.mk.inj heq
    have hcontainer : container = placement.container := by
      refine Lmdb.container_of_head (Lmdb.placed_eq_some.mp hplaced).2.2 ?_
      rw [← hpacked]
      exact container_prefix_rowKey container b' m
    obtain ⟨x, hx, hrow'⟩ := hrecorded.row hshared
    have hmiddle : placement.middle = key := by
      have hkind := (hrecorded.agree hshared).2.2.1
      rw [h.kind op hop (builder, placement, packed) hplaced hcontainer.symm] at hkind
      have hslice : b' = x := by
        rw [← (rowKey_slices container b' m).2.1, hpacked, hrow',
          (rowKey_slices placement.container x placement.placer).2.1]
      exact (hkind.packed_inj hk hx (hslice ▸ hb')).mp rfl
    exact ⟨e, op, hop, builder, placement, packed, hrecorded, hcontainer.symm, hmiddle,
      (Muid.toBytes_injective hplacer).symm⟩
  · rintro ⟨e, op, hop, builder, placement, packed, hrecorded, rfl, rfl, rfl⟩
    obtain ⟨x, hx, hrow⟩ := hrecorded.row (h.shared op hop)
    refine ⟨hk, x, hx, h.placements.mpr ⟨op, hop, builder, placement, packed, hrecorded.placed, ?_⟩⟩
    rw [hrow]

/-- **Who wrote to a key**, by the object store. -/
theorem Replicas.written_iff (h : Replicas lib history history' c c' container behavior)
    {key : MiddleKey} (hk : KeyOf behavior key) {asOf' : Option Int} {e : Js.Entry} :
    Js.IndexedDb.Written c' container.tuple (storageKey key) asOf' e ↔
      ∃ m, Wrote history container key m e ∧ Js.IndexedDb.BeforeTime asOf' m.raw := by
  constructor
  · rintro ⟨⟨k, hrow⟩, hcontainer, hkey, hbefore⟩
    obtain ⟨op, hop, e', he', heq⟩ := ((h.js.rows h.plain).1 _).mp hrow
    obtain rfl : e = e' := (Prod.mk.inj heq).2
    obtain ⟨builder, hchange⟩ : ∃ builder, op.change = .entry builder := by
      cases hc : op.change with
      | entry builder => exact ⟨builder, rfl⟩
      | _ => simp [Js.IndexedDb.entryOf, hc] at he'
    have hop' := h.mem.mpr hop
    obtain ⟨placement, packed, e'', hrecorded⟩ := h.recorded hop' hchange
    obtain rfl : e = e'' := by
      have hsame := hrecorded.record
      rw [he'] at hsame
      exact Option.some.inj hsame
    obtain ⟨hc, hs, hkind, hplacement, -⟩ := hrecorded.agree (h.shared op hop')
    have hcontainer' : placement.container = container :=
      Muid.tuple_injective (hc.symm.trans hcontainer)
    rw [h.kind op hop' (builder, placement, packed) hrecorded.placed hcontainer'] at hkind
    have hmiddle : placement.middle = key := storageKey_inj hkind hk (hs.symm.trans hkey)
    refine ⟨placement.placer, ⟨op, hop', builder, placement, packed, hrecorded, hcontainer',
      hmiddle, rfl⟩, ?_⟩
    rw [← hplacement]
    exact hbefore
  · rintro ⟨m, ⟨op, hop, builder, placement, packed, hrecorded, rfl, rfl, rfl⟩, hbefore⟩
    obtain ⟨hc, hs, -, hplacement, -⟩ := hrecorded.agree (h.shared op hop)
    refine ⟨⟨Js.IndexedDb.Entry.primary e, ?_⟩, hc, hs, hplacement ▸ hbefore⟩
    exact ((h.js.rows h.plain).1 _).mpr ⟨op, h.mem.mp hop, e, hrecorded.record, rfl⟩

/-- **When it was cleared**, by either side. -/
theorem Replicas.cleared_iff (h : Replicas lib history history' c c' container behavior)
    {y : Js.MuidTuple} :
    (∃ z, (z.key, z) ∈ c'.clearances.rows ∧ z.containerId = container.tuple ∧ z.clearanceId = y) ↔
      ∃ z, (Lmdb.keyedView c container behavior).cleared z ∧ y = z.raw ∧
        z.timeField.val < 2 ^ 52 - 1 := by
  constructor
  · rintro ⟨y, hrow, hcontainer, rfl⟩
    obtain ⟨op, hop, y', hy', heq⟩ := ((h.js.rows h.plain).2 _).mp hrow
    obtain rfl : y = y' := (Prod.mk.inj heq).2
    obtain ⟨builder, hchange⟩ : ∃ builder, op.change = .clearance builder := by
      cases hc : op.change with
      | clearance builder => exact ⟨builder, rfl⟩
      | _ => simp [Js.IndexedDb.clearanceOf, hc] at hy'
    have hop' := h.mem.mpr hop
    have hshared := h.shared op hop'
    obtain ⟨container', z, hcleared, hrecord⟩ := exists_cleared h.lmdb h.js hop' hop hshared hchange
    rw [hy'] at hrecord
    injection hrecord with hrecord
    rw [hrecord] at hcontainer ⊢
    rw [Muid.tuple_injective hcontainer] at hcleared
    obtain ⟨ht, -, -, -⟩ := changeMuid_eq_ok (Lmdb.cleared_eq_some.mp hcleared).2.2
    have hne := hshared.stamp.timestamp
    have hlt := z.timeField.isLt
    exact ⟨z, h.clearances.mpr ⟨op, hop', builder, hcleared⟩, rfl, by omega⟩
  · rintro ⟨z, hz, rfl, -⟩
    obtain ⟨op, hop, builder, hcleared⟩ := h.clearances.mp hz
    obtain ⟨container', z', hcleared', hrecord⟩ := exists_cleared h.lmdb h.js hop (h.mem.mp hop)
      (h.shared op hop) (Lmdb.cleared_eq_some.mp hcleared).1
    rw [hcleared] at hcleared'
    obtain ⟨rfl, rfl, -⟩ : container = container' ∧ z = z' ∧ builder = builder := by
      simpa using hcleared'
    exact ⟨_, ((h.js.rows h.plain).2 _).mpr ⟨op, h.mem.mp hop, _, hrecord, rfl⟩, rfl, rfl⟩

section
variable {asOf : Int} {asOf' : Option Int}

/-- Both sides settle on the same change of a key. -/
theorem Replicas.visible_iff (h : Replicas lib history history' c c' container behavior)
    (htime : SameTime asOf asOf') {key : MiddleKey} {b : Bytes} (hk : KeyOf behavior key)
    (hb : key.toBytes = .ok b) {m : Muid} :
    (Lmdb.keyedView c container behavior).Visible asOf key m ↔
      ∃ e, Js.IndexedDb.LastWritten c' container.tuple (storageKey key) asOf' e ∧
        Wrote history container key m e := by
  have hbefore : ∀ {n e}, Wrote history container key n e →
      (KeyedView.Before asOf n ↔ Js.IndexedDb.BeforeTime asOf' n.raw) := fun hw =>
    htime.before (h.address hw).2.2
  constructor
  · rintro ⟨⟨hhas, hb'⟩, hmax⟩
    obtain ⟨e, hw⟩ := (h.has_iff hk hb).mp hhas
    refine ⟨e, ⟨(h.written_iff hk).mpr ⟨m, hw, (hbefore hw).mp hb'⟩, ?_⟩, hw⟩
    intro e' he'
    obtain ⟨n, hn, hnb⟩ := (h.written_iff hk).mp he'
    rw [(h.address hw).1, (h.address hn).1, Muid.raw_key_le]
    exact hmax ⟨(h.has_iff hk hb).mpr ⟨e', hn⟩, (hbefore hn).mpr hnb⟩
  · rintro ⟨e, hlast, hw⟩
    obtain ⟨n, hn, hnb⟩ := (h.written_iff hk).mp hlast.written
    obtain rfl : n = m := Muid.raw_injective ((h.address hn).1.symm.trans (h.address hw).1)
    refine ⟨⟨(h.has_iff hk hb).mpr ⟨e, hw⟩, (hbefore hw).mpr hnb⟩, ?_⟩
    rintro x ⟨hx, hxb⟩
    obtain ⟨e', hw'⟩ := (h.has_iff hk hb).mp hx
    have hle := hlast.last e' ((h.written_iff hk).mpr ⟨x, hw', (hbefore hw').mp hxb⟩)
    rw [(h.address hw).1, (h.address hw').1, Muid.raw_key_le] at hle
    exact hle

/-- Both sides hide the same changes behind a clearance. -/
theorem Replicas.hidden_iff (h : Replicas lib history history' c c' container behavior)
    (htime : SameTime asOf asOf') {m : Muid} :
    (Lmdb.keyedView c container behavior).Hidden asOf m ↔
      m.raw.timestamp < Js.IndexedDb.getClearanceTime c' container.tuple asOf' := by
  have hfinite := Lmdb.keyedView_finite c container behavior
  have hnonneg : 0 ≤ m.raw.timestamp := Int.natCast_nonneg _
  rw [Js.IndexedDb.lt_clearanceTime (h.js.proper h.plain) hnonneg]
  constructor
  · rintro ⟨z, ⟨⟨hz, hzb⟩, -⟩, hlt⟩
    have hordinary : z.timeField.val < 2 ^ 52 - 1 := by
      obtain ⟨op, hop, builder, hcleared⟩ := h.clearances.mp hz
      obtain ⟨ht, -, -, -⟩ := changeMuid_eq_ok (Lmdb.cleared_eq_some.mp hcleared).2.2
      have hne := (h.shared op hop).stamp.timestamp
      have := z.timeField.isLt
      omega
    obtain ⟨y, hy, hc, hid⟩ := h.cleared_iff.mpr ⟨z, hz, rfl, hordinary⟩
    refine ⟨y, hy, hc, ?_, ?_⟩
    · rw [hid]
      exact (htime.before hordinary).mp hzb
    · rw [hid]
      exact Int.ofNat_lt.mpr hlt
  · rintro ⟨y, hy, hc, hyb, hlt⟩
    obtain ⟨z, hz, hid, hordinary⟩ := h.cleared_iff.mp ⟨y, hy, hc, rfl⟩
    rw [hid] at hyb hlt
    exact hfinite.hidden hz ((htime.before hordinary).mpr hyb) (Int.ofNat_lt.mp hlt)

/-- Both lookups find the entry with the same address, or neither finds one. -/
def LookupsAgree (c : Lmdb.Contents) (c' : Js.IndexedDb.Contents) (trxns : List Int)
    (container : Muid) (key : MiddleKey) (asOf : Int) (asOf' : Option Int) : Prop :=
  ∃ found found', Lmdb.getEntryByKey c container key asOf = .ok found ∧
    Js.IndexedDb.getEntryByKey c' trxns container.tuple (storageKey key) asOf' = .ok found' ∧
    found.map (·.address.raw) = found'.map (·.entryId)

/-- **The two replicas look up alike.** -/
theorem Replicas.lookups (h : Replicas lib history history' c c' container behavior)
    (hc : Lmdb.Retained c) (htime : SameTime asOf asOf') {key : MiddleKey} {b : Bytes}
    (hk : KeyOf behavior key) (hb : key.toBytes = .ok b) (trxns : List Int) :
    LookupsAgree c c' trxns container key asOf asOf' := by
  obtain ⟨instant, hinstant⟩ := htime.instant
  obtain ⟨found, hfound, hiff⟩ :=
    Lmdb.getEntryByKey_right h.keyedContainer hc hinstant key b hk hb
  obtain ⟨found', hfound', hiff'⟩ := @Js.IndexedDb.getEntryByKey_eq c' container.tuple asOf'
    (h.js.proper h.plain) trxns asOf' (storageKey key) (htime.resolve trxns)
  refine ⟨found, found', hfound, hfound', ?_⟩
  -- what either side settles on and keeps, the other does too
  have hsettled : ∀ {m e}, Wrote history container key m e →
      (¬ e.placementId.timestamp < Js.IndexedDb.getClearanceTime c' container.tuple asOf' ↔
        ¬ (Lmdb.keyedView c container behavior).Hidden asOf m) := by
    intro m e hw
    rw [h.hidden_iff htime, (h.address hw).1]
  cases found with
  | some r =>
      have hr := (hiff r).mp rfl
      obtain ⟨e, hlast, hw⟩ := (h.visible_iff htime hk hb).mp hr.visible
      rw [(hiff' e).mpr ⟨hlast, (hsettled hw).mpr hr.kept⟩]
      exact congrArg some (h.address hw).2.1.symm
  | none =>
      cases found' with
      | none => rfl
      | some e =>
          obtain ⟨hlast, hkept⟩ := (hiff' e).mp rfl
          obtain ⟨m, hw, -⟩ := (h.written_iff hk).mp hlast.written
          have hvisible := (h.visible_iff htime hk hb).mpr ⟨e, hlast, hw⟩
          obtain ⟨-, x, -, hrow⟩ := hvisible.1.1
          obtain ⟨builder, hbuilder⟩ := Option.isSome_iff_exists.mp (hc.entries _ hrow)
          exact absurd ((hiff ⟨m, builder⟩).mpr ⟨hvisible, (hsettled hw).mp hkept, hbuilder⟩)
            (by simp)

end

end

/-! ## §5. Runs of both stores. -/

/-- A numeric key is a safe integer. -/
def ExactKey : MiddleKey → Prop
  | .key (.number n) => n.natAbs ≤ 2 ^ 53 - 1
  | _ => True

/-- Such keys pack. -/
theorem ExactKey.packs {behavior : Behavior} {key : MiddleKey} (h : ExactKey key)
    (hk : KeyOf behavior key) : ∃ b, key.toBytes = .ok b := by
  cases key with
  | none => exact ⟨_, rfl⟩
  | key k =>
      cases k with
      | number n =>
          have hsmall : ¬ n.natAbs > keyMax := by
            unfold keyMax
            exact not_lt.mpr h
          refine ⟨(UserKey.number n).serialize, ?_⟩
          unfold MiddleKey.toBytes encodeKey
          simp only [if_neg hsmall]
      | octets b => exact ⟨_, rfl⟩
      | characters s => exact ⟨_, rfl⟩
  | muid m => exact ⟨_, rfl⟩
  | pair l r => exact ⟨_, rfl⟩
  | queue t => cases behavior <;> exact absurd hk id

/-- **Keyed lookups agree.**  A run of calls on an `LmdbStore` that keeps its history, and
an `IndexedDbStore` that keeps its own and has applied the accepted bundles in an order of
its own: every lookup in a container of one kind finds the same entry in both. -/
theorem keyed_lookups_agree (lib : Externals) (symmetricKeys : Table Bytes Bytes)
    (retainBundles : Bool) (calls : List Lmdb.Call) (hquiet : ∀ call ∈ calls, call.Quiet)
    (history : List OpenBundle) (c' : Js.IndexedDb.Contents)
    (hjs : Js.IndexedDb.History true history c')
    (hsame : (openAll lib (Lmdb.newStore symmetricKeys retainBundles true).db.symmetricKey
      (Lmdb.accepted lib (Lmdb.newStore symmetricKeys retainBundles true) calls)).Perm history)
    (hshared : ∀ op ∈ allOps history, Shared op) (container : Muid) (behavior : Behavior)
    (hkind : OneKind history container behavior) (key : MiddleKey) (hkey : KeyOf behavior key)
    (hexact : ExactKey key) (trxns : List Int) (asOf : Int) (asOf' : Option Int)
    (htime : SameTime asOf asOf') :
    LookupsAgree (Lmdb.runCalls lib (Lmdb.newStore symmetricKeys retainBundles true) calls).db.contents
      c' trxns container key asOf asOf' := by
  have hlmdb := Lmdb.runCalls_history (Lmdb.newStore symmetricKeys retainBundles true) [] hquiet rfl
    (@Lmdb.History.start lib true)
  rw [List.nil_append] at hlmdb
  obtain ⟨b, hb⟩ := hexact.packs hkey
  have hops : ∀ {op}, op ∈ allOps (openAll lib
      (Lmdb.newStore symmetricKeys retainBundles true).db.symmetricKey
      (Lmdb.accepted lib (Lmdb.newStore symmetricKeys retainBundles true) calls)) →
        op ∈ allOps history := by
    intro op hop
    have hperm := hsame.flatMap_right OpenBundle.ops
    exact hperm.mem_iff.mp hop
  have hreplicas : Replicas lib _ history _ c' container behavior :=
    ⟨hlmdb, hjs, hsame, fun op hop => hshared op (hops hop), fun op hop => hkind op (hops hop)⟩
  exact hreplicas.lookups (Lmdb.runCalls_retained lib symmetricKeys retainBundles calls) htime hkey hb
    trxns

/-- The messages, offered one after the other. -/
def callsOf (messages : List BundleBuilder) : List Lmdb.Call :=
  (List.range messages.length).map fun n => Lmdb.sampleCall (Fin.ofNat _ n) (2 ^ 51)

/-- The bundles an `LmdbStore` accepts of them. -/
def acceptedOf (messages : List BundleBuilder) : List OpenBundle :=
  openAll (sampleExternals messages) (Lmdb.newStore ∅ true true).db.symmetricKey
    (Lmdb.accepted (sampleExternals messages) (Lmdb.newStore ∅ true true) (callsOf messages))

/-- What it then holds. -/
def lmdbAfter (messages : List BundleBuilder) : Lmdb.Contents :=
  (Lmdb.runCalls (sampleExternals messages) (Lmdb.newStore ∅ true true)
    (callsOf messages)).db.contents

/-- What an `IndexedDbStore` holds that has applied the bundles. -/
def idbAfter (history : List OpenBundle) : Js.IndexedDb.Contents :=
  (Js.IndexedDb.applyAll true history {}).toOption.getD {}

theorem idbAfter_history {history : List OpenBundle}
    (h : (Js.IndexedDb.applyAll true history {}).toOption.isSome = true) :
    Js.IndexedDb.History true history (idbAfter history) := by
  obtain ⟨c, hc⟩ := Option.isSome_iff_exists.mp h
  have happly := Js.IndexedDb.toOption_eq_some.mp hc
  have hafter : idbAfter history = c := by
    unfold idbAfter
    rw [hc]
    rfl
  rw [hafter]
  exact Js.IndexedDb.History.start.applyAll happly

/-- Two chains write the key `a` after 2020, a third clears the directory. -/
def recentWriters : List BundleBuilder :=
  [startingBundle 1600000000000005 1 [sampleEntry .directory (some (.key (some (.characters "a")))) "older"],
    startingBundle 1600000000000007 2 [sampleEntry .directory (some (.key (some (.characters "a")))) "newer"],
    startingBundle 1600000000000009 3 [.clearance ⟨globalBuilder .directory, false⟩]]

/-- Between the second write and the clearance both replicas find the second write. -/
theorem keyed_lookups_agree_sample :
    LookupsAgree (lmdbAfter recentWriters) (idbAfter (acceptedOf recentWriters).reverse) []
        (globalMuid .directory) (.key (.characters "a")) 1600000000000008 (some 1600000000000008) ∧
      (Lmdb.getEntryByKey (lmdbAfter recentWriters) (globalMuid .directory)
        (.key (.characters "a")) 1600000000000008).toOption.join.map (·.address.timestamp)
          = some 1600000000000007 := by
  refine ⟨?_, by decide +kernel⟩
  have hjs := @idbAfter_history (acceptedOf recentWriters).reverse (by decide +kernel)
  have hquiet := @Lmdb.quiet_of_no_callback (callsOf recentWriters) (by decide)
  exact keyed_lookups_agree _ ∅ true _ hquiet _ _ hjs (List.reverse_perm _).symm (by decide +kernel)
    (globalMuid .directory) .directory (by decide +kernel) (.key (.characters "a")) trivial trivial
    [] _ _ (.past _ (by decide) (by decide))

/-- Three chains: a box whose container is spelled all ones, a directory with a box entry
in it, and a write before 2020. -/
def mixedWriters : List BundleBuilder :=
  [startingBundle 5 1 [.entry {
      container := some ⟨2 ^ 52 - 1, 1, 5⟩
      behavior := .box
      contains := some (.value (.characters "boxed")) }],
    startingBundle 7 2 [sampleEntry .directory (some (.key (some (.characters "a")))) "entry",
      .entry {
        container := some (globalBuilder .directory)
        behavior := .box
        contains := some (.value (.characters "boxed")) }]]

/-- What agrees is the same as an option. -/
theorem LookupsAgree.options {c : Lmdb.Contents} {c' : Js.IndexedDb.Contents} {trxns : List Int}
    {container : Muid} {key : MiddleKey} {asOf : Int} {asOf' : Option Int}
    (h : LookupsAgree c c' trxns container key asOf asOf') :
    (Lmdb.getEntryByKey c container key asOf).toOption.map (Option.map (·.address.raw)) =
      (Js.IndexedDb.getEntryByKey c' trxns container.tuple (storageKey key) asOf').toOption.map
        (Option.map (·.entryId)) := by
  obtain ⟨found, found', hfound, hfound', heq⟩ := h
  rw [hfound, hfound']
  exact congrArg some heq

/-- **Not every lookup agrees**: JavaScript takes no as-of time before 2020; Python reads
an all-ones timestamp as -1; and a container with entries of two kinds, or a key of another
kind than the container's, is looked up differently. -/
theorem keyed_lookups_disagree :
    ¬ LookupsAgree (lmdbAfter mixedWriters) (idbAfter (acceptedOf mixedWriters)) []
        (globalMuid .directory) (.key (.characters "a")) 8 (some 8) ∧
      ¬ LookupsAgree (lmdbAfter mixedWriters) (idbAfter (acceptedOf mixedWriters)) []
        ⟨2 ^ 52 - 1, 1, 5⟩ .none (-1) none ∧
      ¬ LookupsAgree (lmdbAfter mixedWriters) (idbAfter (acceptedOf mixedWriters)) []
        (globalMuid .directory) .none (-1) none := by
  refine ⟨fun h => absurd h.options ?_, fun h => absurd h.options ?_, fun h => absurd h.options ?_⟩
  · decide +kernel
  · decide +kernel
  · decide +kernel

end Gink
