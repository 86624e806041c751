/-
  Gink.Queue.Scan — scans of ordered containers by position (coding.py).

  The rows of an ordered container have keys of one form, the position in eight bytes after the
  container.  Seen as unsigned these sort as they should: a scan from a time on, or up to one,
  gets the rows whose positions are at least or below the time.  Both stores rest
  `get_ordered_entries` on it, and `Slices` says what is expected of that.
-/
import Gink.Queue.Place
import Gink.Keyed.Packing
import Gink.Table.Paged

namespace Gink

/-! ## §1. Keys. -/

/-- The key of a row at a position of the container: what follows are the placer and the
expiry. -/
def Lies (container : Muid) (key : Bytes) : Prop :=
  ∃ middle rest : Bytes, middle.length = 8 ∧ rest.length = 24 ∧
    key = container.toBytes ++ (middle ++ rest)

/-- The position in the key, as an unsigned number. -/
def positionOf (key : Bytes) : Nat := Bytes.beDecode ((key.drop 16).take 8)

theorem positionOf_append (container : Muid) {middle : Bytes} (h : middle.length = 8)
    (rest : Bytes) : positionOf (container.toBytes ++ (middle ++ rest)) = Bytes.beDecode middle := by
  unfold positionOf
  rw [List.drop_left' (Muid.length_toBytes container), List.take_left' h]

section
variable {container : Muid} {key key' : Bytes}

theorem Lies.container_prefix (h : Lies container key) :
    container.toBytes.isPrefixOf key = true := by
  obtain ⟨middle, rest, -, -, rfl⟩ := h
  exact List.isPrefixOf_iff_prefix.mpr (List.prefix_append _ _)

/-- The eight bytes, from the number that they spell. -/
theorem middle_eq {middle : Bytes} (h : middle.length = 8) :
    middle = Bytes.beEncode 8 (Bytes.beDecode middle) ∧ Bytes.beDecode middle < 256 ^ 8 := by
  have hlt := Bytes.beDecode_lt middle
  rw [h] at hlt
  refine ⟨?_, hlt⟩
  have hback := Bytes.beEncode_beDecode middle
  rw [h] at hback
  exact hback.symm

/-- Rows further on are at greater positions. -/
theorem Lies.position_le (h : Lies container key) (h' : Lies container key') (hlt : key < key') :
    positionOf key ≤ positionOf key' := by
  obtain ⟨middle, rest, hlen, -, rfl⟩ := h
  obtain ⟨middle', rest', hlen', -, rfl⟩ := h'
  obtain ⟨hmiddle, hfits⟩ := middle_eq hlen
  obtain ⟨hmiddle', hfits'⟩ := middle_eq hlen'
  rw [positionOf_append container hlen, positionOf_append container hlen']
  rw [Bytes.append_lt_append_left_iff, Bytes.append_lt_append_iff (by rw [hlen, hlen']), hmiddle,
    hmiddle', Bytes.beEncode_lt_iff hfits hfits', Bytes.beEncode_inj hfits hfits'] at hlt
  omega

/-- **A scan from a position on** gets the rows at that position and greater ones. -/
theorem Lies.from_le_iff (h : Lies container key) {n : Nat} (hn : n < 256 ^ 8) :
    container.toBytes ++ Bytes.beEncode 8 n ≤ key ↔ n ≤ positionOf key := by
  obtain ⟨middle, rest, hlen, -, rfl⟩ := h
  obtain ⟨hmiddle, hfits⟩ := middle_eq hlen
  rw [positionOf_append container hlen, Bytes.append_le_append_left_iff]
  have hempty := @Bytes.append_lt_append_iff middle (Bytes.beEncode 8 n) rest [] (by simp [hlen])
  rw [List.append_nil] at hempty
  rw [← not_lt, hempty, hmiddle, Bytes.beEncode_lt_iff hfits hn, Bytes.beEncode_inj hfits hn]
  have hback : Bytes.beDecode (Bytes.beEncode 8 (Bytes.beDecode middle)) = Bytes.beDecode middle :=
    Bytes.beDecode_beEncode hfits
  rw [hback]
  have hnil := Bytes.not_lt_nil rest
  constructor
  · intro hle
    by_contra hlt
    exact hle (Or.inl (by omega))
  · rintro hle (hlt | ⟨-, hlt⟩)
    · omega
    · exact hnil hlt

/-- A scan up to a position leaves out the rows at it. -/
theorem Lies.lt_of_le (h : Lies container key) {n : Nat} (hn : n < 256 ^ 8)
    (hle : key ≤ container.toBytes ++ Bytes.beEncode 8 n) : positionOf key < n := by
  obtain ⟨middle, rest, hlen, hrest, rfl⟩ := h
  obtain ⟨hmiddle, hfits⟩ := middle_eq hlen
  rw [positionOf_append container hlen]
  rw [Bytes.append_le_append_left_iff] at hle
  have hlonger : middle ++ rest ≠ Bytes.beEncode 8 n := by
    intro hsame
    have hlength := congrArg List.length hsame
    rw [List.length_append, Bytes.length_beEncode, hlen, hrest] at hlength
    omega
  have hlt := lt_of_le_of_ne hle hlonger
  have hempty := @Bytes.append_lt_append_iff middle (Bytes.beEncode 8 n) rest [] (by simp [hlen])
  rw [List.append_nil] at hempty
  rcases hempty.mp hlt with hlt | ⟨-, hlt⟩
  · rw [hmiddle] at hlt
    exact (Bytes.beEncode_lt_iff hfits hn).mp hlt
  · exact absurd hlt (Bytes.not_lt_nil rest)

/-- A key that is read as a placement at a position has the form. -/
theorem lies_of_fromBytes {placement : Placement}
    (h : Placement.fromBytes key .sequence = .ok placement) :
    Lies placement.container key ∧ ∃ time, placement.middle = .queue time ∧
      decodeMuts (Placement.middleSlice key) = .ok (some time) := by
  unfold Placement.fromBytes at h
  obtain ⟨placer, -, h⟩ := bind_eq_ok.mp h
  obtain ⟨middle, hmiddle, h⟩ := bind_eq_ok.mp h
  obtain ⟨container, hcontainer, h⟩ := bind_eq_ok.mp h
  obtain ⟨expiry, -, h⟩ := bind_eq_ok.mp h
  rw [← pure_eq_ok.mp h]
  unfold Placement.middleFromBytes at hmiddle
  obtain ⟨decoded, hdecoded, hmiddle⟩ := bind_eq_ok.mp hmiddle
  obtain ⟨time, htime, hmiddle⟩ := bind_eq_ok.mp hmiddle
  obtain ⟨_, hlen, hmiddle⟩ := bind_eq_ok.mp hmiddle
  have hlen : (Placement.middleSlice key).length = 8 := of_decide_eq_true (ensure_eq_ok.mp hlen)
  have hkey : key.length = 48 := by
    unfold Placement.middleSlice at hlen
    rw [List.length_drop, List.length_take] at hlen
    omega
  have hslice : Placement.middleSlice key = (key.drop 16).take 8 := by
    unfold Placement.middleSlice
    rw [hkey, List.drop_take]
  rw [List.take_of_length_le (by omega)] at hdecoded
  refine ⟨⟨(key.drop 16).take 8, key.drop 24, by simp [hkey], by simp [hkey], ?_⟩, time,
    (pure_eq_ok.mp hmiddle).symm, ?_⟩
  · show key = container.toBytes ++ _
    rw [Muid.toBytes_of_fromBytes hcontainer]
    have hdrop : key.drop 24 = (key.drop 16).drop 8 := by rw [List.drop_drop]
    rw [hdrop, List.take_append_drop, List.take_append_drop]
  · rw [hdecoded, orRaise_eq_ok.mp htime]

/-! ## §2. Positions that sort as they read. -/

/-- The number of a position from which on a scan can begin, or that an entry can have without
sorting behind the infinite one. -/
def Seekable (n : Int) : Prop := 0 ≤ n ∧ n < 2 ^ 63 ∨ n = intInf

instance : DecidablePred Seekable := fun n =>
  inferInstanceAs (Decidable (0 ≤ n ∧ n < 2 ^ 63 ∨ n = intInf))

theorem Seekable.fits {n : Int} (h : Seekable n) : 0 ≤ n ∧ n.toNat < 256 ^ 8 := by
  unfold Seekable intInf at h
  omega

/-- Packed, it is that number. -/
theorem Seekable.packed {n : Int} (h : Seekable n) :
    encodeMuts n = .ok (Bytes.beEncode 8 n.toNat) := by
  unfold encodeMuts packSigned
  rcases h with ⟨hge, hlt⟩ | rfl
  · rw [if_neg (by unfold intInf; omega), if_pos (by omega), Int.emod_eq_of_lt (by omega) (by omega)]
  · rw [if_pos rfl]
    rfl

/-- What reads back is the number. -/
theorem positionOf_decoded {time : Int} (h : Lies container key)
    (hseekable : Seekable (positionOf key))
    (htime : decodeMuts (Placement.middleSlice key) = .ok (some time)) :
    time = positionOf key := by
  obtain ⟨middle, rest, hlen, hrest, rfl⟩ := h
  have hslice : Placement.middleSlice (container.toBytes ++ (middle ++ rest)) = middle := by
    unfold Placement.middleSlice
    rw [List.length_append, List.length_append, Muid.length_toBytes, hlen, hrest]
    show (List.take 24 _).drop 16 = middle
    rw [List.drop_take, List.drop_left' (Muid.length_toBytes container), List.take_left' hlen]
  rw [hslice] at htime
  rw [positionOf_append container hlen] at hseekable ⊢
  unfold decodeMuts at htime
  rw [if_pos hlen] at htime
  simp only at htime
  unfold Seekable at hseekable
  unfold intInf at hseekable htime
  split_ifs at htime with hzero hinf hpos
  · cases htime
  · rw [← Option.some.inj (Except.ok.inj htime), hinf]
  · exact (Option.some.inj (Except.ok.inj htime)).symm
  · omega

end

/-! ## §3. What is expected of `get_ordered_entries`. -/

/-- The arguments `limit`, `offset`, `desc` and `after` take slices of the list. -/
structure Slices (read : Option Int → Int → Bool → Int → Except Error (List PositionedEntry))
    (l : List PositionedEntry) : Prop where
  reversed : read none 0 true 0 = .ok l.reverse
  /-- a page, in either direction -/
  paged : ∀ (desc : Bool) (limit offset : Nat), read (some limit) offset desc 0
    = .ok (((if desc then l.reverse else l).drop offset).take limit)
  /-- from a position on -/
  since : ∀ after, Seekable after →
    read none 0 false after = .ok (l.filter fun e => decide (after ≤ e.position))
  /-- a page of that, in either direction -/
  both : ∀ after, Seekable after → ∀ (desc : Bool) (limit : Option Int) (offset : Int),
    read limit offset desc after = .ok (Paged.page limit offset
      (Paged.inDirection desc (l.filter fun e => decide (after ≤ e.position))))

/-- The last says the others. -/
theorem Slices.of_both
    {read : Option Int → Int → Bool → Int → Except Error (List PositionedEntry)}
    {l : List PositionedEntry} (hl : ∀ e ∈ l, 0 ≤ e.position)
    (h : ∀ after, Seekable after → ∀ (desc : Bool) (limit : Option Int) (offset : Int),
      read limit offset desc after = .ok (Paged.page limit offset
        (Paged.inDirection desc (l.filter fun e => decide (after ≤ e.position))))) :
    Slices read l := by
  have hall : l.filter (fun e => decide (0 ≤ e.position)) = l :=
    List.filter_eq_self.mpr fun e he => decide_eq_true (hl e he)
  have hzero := h 0 (Or.inl (by norm_num))
  rw [hall] at hzero
  refine ⟨?_, ?_, ?_, h⟩
  · exact hzero true none 0
  · intro desc limit offset
    rw [hzero desc (some limit) offset]
    rfl
  · intro after hafter
    exact h after hafter false none 0

end Gink
