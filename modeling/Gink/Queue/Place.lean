/-
  Gink.Queue.Place — entries at a position (coding.py).

  The entries of sequences and edge types are placed at a position, and a movement places
  them anew.  A packed placement reads back as it was, except that the position -1 ("hide
  indefinitely") reads as the integer infinity; the other negative positions sort behind
  all others and read back negative.
-/
import Gink.Proto.Ops

namespace Gink

/-! ## §1. Positions. -/

/-- What a packed position reads as. -/
def readPosition (n : Int) : Int := if n = -1 then intInf else n

/-- A position that sorts as it reads. -/
def IsPosition (n : Int) : Prop := n = -1 ∨ n = intInf ∨ 0 < n ∧ n < 2 ^ 63

instance : DecidablePred IsPosition := fun n =>
  inferInstanceAs (Decidable (n = -1 ∨ n = intInf ∨ 0 < n ∧ n < 2 ^ 63))

theorem IsPosition.read {n : Int} (h : IsPosition n) :
    0 < readPosition n ∧ readPosition n ≤ intInf := by
  unfold readPosition intInf
  rcases h with rfl | rfl | h
  · simp
  · unfold intInf
    norm_num
  · rw [if_neg (by omega)]
    omega

/-- Packed, it is the number it reads as. -/
theorem IsPosition.packed {n : Int} (h : IsPosition n) {b : Bytes} (hb : encodeMuts n = .ok b) :
    b = Bytes.beEncode 8 (readPosition n).toNat := by
  unfold encodeMuts at hb
  unfold readPosition packSigned at *
  rcases h with rfl | rfl | h
  · rw [if_neg (by decide), if_pos (by decide)] at hb
    injection hb with hb
    rw [← hb]
    rfl
  · rw [if_pos rfl] at hb
    injection hb with hb
    rw [← hb]
    rfl
  · rw [if_neg (by unfold intInf; omega), if_pos (by omega)] at hb
    injection hb with hb
    rw [← hb, if_neg (by omega), Int.emod_eq_of_lt (by omega) (by omega)]

theorem IsPosition.decode {n : Int} (h : IsPosition n) {b : Bytes} (hb : encodeMuts n = .ok b) :
    decodeMuts b = .ok (some (readPosition n)) := by
  have hlen := length_of_encodeMuts hb
  obtain ⟨h0, hinf⟩ := h.read
  have hval : Bytes.beDecode b = (readPosition n).toNat := by
    rw [h.packed hb]
    refine Bytes.beDecode_beEncode ?_
    unfold intInf at hinf
    omega
  have hraw : ((readPosition n).toNat : Int) = readPosition n := by omega
  unfold decodeMuts
  rw [if_pos hlen, hval, hraw]
  simp only
  rw [if_neg (by omega)]
  by_cases hone : readPosition n = 2 ^ 64 - 1
  · rw [if_pos hone, hone]
    rfl
  · rw [if_neg hone, if_pos ?_]
    unfold readPosition at hone ⊢
    rcases h with rfl | rfl | h
    · exact absurd rfl hone
    · exact absurd rfl hone
    · rw [if_neg (by omega)]
      exact h.2

/-- The expiry of an entry, packed and read back. -/
theorem decodeMuts_expiry {expiry : Option Int} {b : Bytes}
    (hexpiry : ∀ x, expiry = some x → 0 < x) (hb : encodeMuts (expiry.getD 0) = .ok b) :
    decodeMuts b = .ok expiry := by
  cases expiry with
  | none =>
      unfold encodeMuts at hb
      rw [if_neg (by decide), if_pos (by decide)] at hb
      injection hb with hb
      rw [← hb]
      decide
  | some x =>
      have hx := hexpiry x rfl
      have hpos : IsPosition x := by
        unfold encodeMuts at hb
        rw [Option.getD_some] at hb
        split_ifs at hb with hinf hlt
        · exact Or.inr (Or.inl hinf)
        · exact Or.inr (Or.inr ⟨hx, hlt.2⟩)
      rw [hpos.decode hb]
      unfold readPosition
      rw [if_neg (by omega)]

/-! ## §2. Placements at a position. -/

/-- An entry's place: the container, the position as it was given, what placed it there
and the entry's expiry. -/
structure Place where
  container : Muid
  position : Int
  placer : Muid
  expiry : Option Int
  deriving DecidableEq

namespace Place

/-- The placement that is packed. -/
def placement (p : Place) : Placement := ⟨p.container, .queue p.position, p.placer, p.expiry⟩

/-- The placement that is read back. -/
def readBack (p : Place) : Placement :=
  ⟨p.container, .queue (readPosition p.position), p.placer, p.expiry⟩

/-- The place is packed into these bytes. -/
structure Packed (p : Place) (key : Bytes) : Prop where
  bytes : p.placement.toBytes = .ok key
  position : IsPosition p.position
  expiry : ∀ x, p.expiry = some x → 0 < x

variable {p q : Place} {key key' : Bytes}

/-- **A packed place reads back**, for both kinds of ordered container. -/
theorem Packed.fromBytes (h : p.Packed key) {behavior : Behavior}
    (hbehavior : behavior = .sequence ∨ behavior = .edgeType) :
    Placement.fromBytes key behavior = .ok p.readBack := by
  obtain ⟨middle, expiry, hmiddle, hexpiry, rfl⟩ := Placement.toBytes_eq_ok h.bytes
  have hlen := length_of_encodeMuts hmiddle
  obtain ⟨h1, h2, h3, h4⟩ := @Placement.slices_append p.placement.container.toBytes middle
    p.placement.placer.toBytes expiry (Muid.length_toBytes _) (Muid.length_toBytes _)
    (length_of_encodeMuts hexpiry)
  have hread : Placement.middleFromBytes middle behavior = .ok (.queue (readPosition p.position)) := by
    have hdecode := h.position.decode hmiddle
    have htake : middle.take 8 = middle := List.take_of_length_le (by omega)
    rcases hbehavior with rfl | rfl <;>
      simp [Placement.middleFromBytes, htake, hdecode, orRaise, ensure, hlen, bind, Except.bind,
        pure, Except.pure]
  unfold Placement.fromBytes
  simp only [h1, h2, h3, h4, Muid.fromBytes_toBytes, hread, decodeMuts_expiry h.expiry hexpiry,
    bind, Except.bind, pure, Except.pure]
  rfl

theorem Packed.placer_slice (h : p.Packed key) :
    Placement.placerSlice key = p.placer.toBytes := by
  have hplacer : p.placement.placer = p.placer := rfl
  rw [Placement.placer_of_toBytes h.bytes, hplacer]

end Place

/-! ## §3. Histories of ordered containers. -/

/-- A change of containers whose entries have positions. -/
def IsQueued : ChangeBuilder → Prop
  | .entry builder => builder.behavior = .sequence ∨ builder.behavior = .edgeType
  | .movement _ | .clearance _ | .container _ | .unset => True

instance : DecidablePred IsQueued := fun change =>
  match change with
  | .entry builder =>
      inferInstanceAs (Decidable (builder.behavior = .sequence ∨ builder.behavior = .edgeType))
  | .movement _ | .clearance _ | .container _ | .unset => isTrue trivial

/-- The position that a change gives, if it gives one, is none of those that sort behind. -/
def PlacesForward : ChangeBuilder → Prop
  | .entry builder => -1 ≤ builder.effective
  | .movement builder => -1 ≤ builder.dest
  | _ => True

instance : DecidablePred PlacesForward := fun change =>
  match change with
  | .entry builder => inferInstanceAs (Decidable (-1 ≤ builder.effective))
  | .movement builder => inferInstanceAs (Decidable (-1 ≤ builder.dest))
  | .container _ | .clearance _ | .unset => isTrue trivial

/-- All changes are of that kind. -/
structure QueuedHistory (history : List OpenBundle) : Prop where
  queued : ∀ op ∈ allOps history, IsQueued op.change
  forward : ∀ op ∈ allOps history, PlacesForward op.change

end Gink
