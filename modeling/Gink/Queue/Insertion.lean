/-
  Gink.Queue.Insertion — insertions into a sequence before an index (sequence.py).

  `insert` draws a position between those of two neighbours, or before that of the first
  entry, and adds an entry with it.  Whether the entry comes to stand before the index is
  decided by where the position sorts; `inserts_iff` says when, of any store that lists its
  entries by position.
-/
import Gink.Proto.Occupant
import Gink.Queue.Scan
import Gink.Table.Sorted

namespace Gink

/-! ## §1. Rows with a row put among them. -/

section
variable {K V : Type} [LinearOrder K]

/-- A new key goes between those before it and those after it. -/
theorem Table.rows_put_between (t : Table K V) {k : K} (v : V) (h : ∀ r ∈ t.rows, r.1 ≠ k) :
    (t.put k v).rows = t.rows.filter (fun r => decide (r.1 < k)) ++
      (k, v) :: t.rows.filter (fun r => decide (k < r.1)) := by
  refine Table.eq_of_sorted_of_mem_iff (t.put k v).sorted ?_ ?_
  · refine List.pairwise_append.mpr ⟨t.sorted.filter _, List.pairwise_cons.mpr ⟨?_,
      t.sorted.filter _⟩, ?_⟩
    · exact fun r hr => of_decide_eq_true (List.mem_filter.mp hr).2
    · intro r hr x hx
      have hbefore : r.1 < k := of_decide_eq_true (List.mem_filter.mp hr).2
      rcases List.mem_cons.mp hx with rfl | hx
      · exact hbefore
      · exact hbefore.trans (of_decide_eq_true (List.mem_filter.mp hx).2)
  · intro r
    rw [Table.mem_rows_put, List.mem_append, List.mem_cons, List.mem_filter, List.mem_filter,
      decide_eq_true_eq, decide_eq_true_eq]
    constructor
    · intro hr
      rcases hr with rfl | ⟨hne, hr⟩
      · exact Or.inr (Or.inl rfl)
      · rcases lt_or_gt_of_ne hne with hlt | hgt
        · exact Or.inl ⟨hr, hlt⟩
        · exact Or.inr (Or.inr ⟨hr, hgt⟩)
    · intro hr
      rcases hr with ⟨hr, -⟩ | rfl | ⟨hr, -⟩
      · exact Or.inr ⟨h r hr, hr⟩
      · exact Or.inl rfl
      · exact Or.inr ⟨h r hr, hr⟩

/-- Without it there are those before and those after. -/
theorem Table.rows_between (t : Table K V) {k : K} (h : ∀ r ∈ t.rows, r.1 ≠ k) :
    t.rows = t.rows.filter (fun r => decide (r.1 < k)) ++
      t.rows.filter (fun r => decide (k < r.1)) := by
  refine Table.eq_of_sorted_of_mem_iff t.sorted ?_ ?_
  · refine List.pairwise_append.mpr ⟨t.sorted.filter _, t.sorted.filter _, ?_⟩
    intro r hr x hx
    exact lt_trans (of_decide_eq_true (List.mem_filter.mp hr).2)
      (of_decide_eq_true (List.mem_filter.mp hx).2)
  · intro r
    rw [List.mem_append, List.mem_filter, List.mem_filter, decide_eq_true_eq, decide_eq_true_eq]
    constructor
    · intro hr
      rcases lt_or_gt_of_ne (h r hr) with hlt | hgt
      · exact Or.inl ⟨hr, hlt⟩
      · exact Or.inr ⟨hr, hgt⟩
    · exact fun hr => hr.elim And.left And.left

/-- **A new row that is picked** stands among those that are. -/
theorem Table.filter_put (t : Table K V) {k : K} (v : V) (h : ∀ r ∈ t.rows, r.1 ≠ k)
    (picks : K × V → Bool) (hpicks : picks (k, v) = true) :
    ∃ before after, t.rows.filter picks = before ++ after ∧
      (t.put k v).rows.filter picks = before ++ (k, v) :: after ∧
      (∀ r ∈ before, r.1 < k) ∧ ∀ r ∈ after, k < r.1 := by
  refine ⟨(t.rows.filter fun r => decide (r.1 < k)).filter picks,
    (t.rows.filter fun r => decide (k < r.1)).filter picks, ?_, ?_, ?_, ?_⟩
  · conv_lhs => rw [t.rows_between h]
    rw [List.filter_append]
  · rw [t.rows_put_between v h, List.filter_append, List.filter_cons_of_pos hpicks]
  · exact fun r hr => of_decide_eq_true (List.mem_filter.mp (List.mem_filter.mp hr).1).2
  · exact fun r hr => of_decide_eq_true (List.mem_filter.mp (List.mem_filter.mp hr).1).2

end

namespace Paged

variable {ρ α ε : Type} {shows shows' : ρ → Except ε Bool} {fetch fetch' : ρ → Except ε α}

/-- Rows that are read alike give the same. -/
theorem Gives.congr {row : ρ} {given : Option α} (hshows : shows' row = shows row)
    (hfetch : fetch' row = fetch row) (h : Gives shows fetch row given) :
    Gives shows' fetch' row given := by
  cases given with
  | none => exact hshows.trans h
  | some value => exact ⟨hshows.trans h.1, hfetch.trans h.2⟩

/-- **A row among others**: what it gives stands among what they give. -/
theorem read_between {before after : List ρ} {row : ρ} {value : α} {l : List α}
    (h : read shows fetch (before ++ after) none 0 = .ok l)
    (hsame : ∀ r ∈ before ++ after, shows' r = shows r ∧ fetch' r = fetch r)
    (hrow : Gives shows' fetch' row (some value)) :
    l = before.filterMap (shown shows fetch) ++ after.filterMap (shown shows fetch) ∧
      read shows' fetch' (before ++ row :: after) none 0 = .ok
        (before.filterMap (shown shows fetch) ++ value :: after.filterMap (shown shows fetch)) := by
  have hgives := read_all h
  have hl := Except.ok.inj (h.symm.trans (read_eq hgives))
  have hgives' : ∀ r ∈ before ++ row :: after, ∃ given, Gives shows' fetch' r given := by
    intro r hr
    have hr : r ∈ before ++ after ∨ r = row := by
      simp only [List.mem_append, List.mem_cons] at hr ⊢
      tauto
    rcases hr with hr | rfl
    · obtain ⟨given, hgiven⟩ := hgives r hr
      exact ⟨given, hgiven.congr (hsame r hr).1 (hsame r hr).2⟩
    · exact ⟨_, hrow⟩
  have hshown : ∀ r ∈ before ++ after, shown shows' fetch' r = shown shows fetch r := by
    intro r hr
    obtain ⟨given, hgiven⟩ := hgives r hr
    rw [hgiven.shown, (hgiven.congr (hsame r hr).1 (hsame r hr).2).shown]
  refine ⟨?_, ?_⟩
  · rw [hl, List.filterMap_append]
    rfl
  · rw [read_eq hgives']
    show Except.ok (List.drop 0 _) = _
    rw [List.drop_zero, List.filterMap_append, List.filterMap_cons_some hrow.shown,
      List.filterMap_congr fun r hr => hshown r (List.mem_append_left _ hr),
      List.filterMap_congr fun r hr => hshown r (List.mem_append_right _ hr)]
    rfl

end Paged

section
variable {container : Muid} {key key' : Bytes}

/-- **Rows are ordered by position**, if the one was placed before the other. -/
theorem Lies.lt_iff_position_le (h : Lies container key) (h' : Lies container key')
    (hplacer : Placement.placerSlice key < Placement.placerSlice key') :
    key < key' ↔ positionOf key ≤ positionOf key' := by
  have hparts : ∀ {middle rest : Bytes}, middle.length = 8 → rest.length = 24 →
      Placement.placerSlice (container.toBytes ++ (middle ++ rest)) = rest.take 16 := by
    intro middle rest hmiddle hrest
    unfold Placement.placerSlice
    have hlength : (container.toBytes ++ (middle ++ rest)).length = 48 := by
      simp [hmiddle, hrest]
    rw [hlength, ← List.append_assoc]
    have hfront : (container.toBytes ++ middle).length = 24 := by simp [hmiddle]
    rw [List.take_append, List.drop_append, hfront]
    simp [hmiddle, List.drop_take]
  constructor
  · exact h.position_le h'
  · intro hle
    obtain ⟨middle, rest, hmiddle, hrest, rfl⟩ := h
    obtain ⟨middle', rest', hmiddle', hrest', rfl⟩ := h'
    rw [hparts hmiddle hrest, hparts hmiddle' hrest'] at hplacer
    rw [positionOf_append container hmiddle, positionOf_append container hmiddle'] at hle
    obtain ⟨heq, hfits⟩ := middle_eq hmiddle
    obtain ⟨heq', hfits'⟩ := middle_eq hmiddle'
    have hrests : rest < rest' := by
      rw [← List.take_append_drop 16 rest, ← List.take_append_drop 16 rest',
        Bytes.append_lt_append_iff (by simp [hrest, hrest'])]
      exact Or.inl hplacer
    rw [Bytes.append_lt_append_left_iff, Bytes.append_lt_append_iff (by rw [hmiddle, hmiddle'])]
    rcases Nat.eq_or_lt_of_le hle with hsame | hlt
    · exact Or.inr ⟨by rw [heq, heq', hsame], hrests⟩
    · left
      rw [heq, heq']
      exact (Bytes.beEncode_lt_iff hfits hfits').mpr hlt

end

/-- A muid that is not after another is not of a later time, if that one is of any. -/
theorem Muid.timestamp_le_of_le {m n : Muid} (h : m ≤ n) (hn : 0 ≤ n.timestamp) :
    m.timestamp ≤ n.timestamp := by
  have hfield : m.timeField.val ≤ n.timeField.val := Muid.timeField_le_of_le h
  unfold Muid.timestamp at hn ⊢
  split_ifs at hn ⊢ <;> omega

/-- The key of an entry at a position of the past. -/
theorem exists_key (container placer : Muid) {q : Int} (hq : 0 < q ∧ q < 2 ^ 52) :
    ∃ key, (Placement.mk container (.queue q) placer none).toBytes = .ok key ∧
      Placement.fromBytes key .sequence = .ok ⟨container, .queue q, placer, none⟩ ∧
      Lies container key ∧ (positionOf key : Int) = q ∧
      Placement.placerSlice key = placer.toBytes := by
  have hseekable : Seekable q := Or.inl (by omega)
  have hzero : Seekable 0 := Or.inl (by norm_num)
  have hbytes : (Placement.mk container (.queue q) placer none).toBytes =
      .ok (container.toBytes ++ Bytes.beEncode 8 q.toNat ++ placer.toBytes ++ Bytes.beEncode 8 0) := by
    unfold Placement.toBytes
    show (encodeMuts q >>= fun middle => encodeMuts 0 >>= fun expiry => _) = _
    rw [hseekable.packed, hzero.packed]
    rfl
  have hpacked : (Place.mk container q placer none).Packed
      (container.toBytes ++ Bytes.beEncode 8 q.toNat ++ placer.toBytes ++ Bytes.beEncode 8 0) :=
    ⟨hbytes, Or.inr (Or.inr ⟨hq.1, hq.2.trans (by norm_num)⟩), fun x hx => by cases hx⟩
  have hread : readPosition q = q := by
    unfold readPosition
    rw [if_neg (by omega)]
  have hkey : container.toBytes ++ Bytes.beEncode 8 q.toNat ++ placer.toBytes ++ Bytes.beEncode 8 0 =
      container.toBytes ++ (Bytes.beEncode 8 q.toNat ++ (placer.toBytes ++ Bytes.beEncode 8 0)) := by
    simp only [List.append_assoc]
  refine ⟨_, hbytes, ?_, ⟨_, _, Bytes.length_beEncode _ _, ?_, hkey⟩, ?_, hpacked.placer_slice⟩
  · rw [hpacked.fromBytes (Or.inl rfl)]
    unfold Place.readBack
    rw [hread]
  · simp
  · rw [hkey, positionOf_append container (Bytes.length_beEncode _ _),
      Bytes.beDecode_beEncode (by omega)]
    omega

/-- The key of a negative position is behind those of all times. -/
theorem lies_of_negative {container placer : Muid} {p : Int} (hp : p < 0) {key : Bytes}
    (hkey : (Placement.mk container (.queue p) placer none).toBytes = .ok key) :
    Lies container key ∧ 2 ^ 63 ≤ positionOf key := by
  obtain ⟨middle, expiry, hmiddle, hexpiry, rfl⟩ := Placement.toBytes_eq_ok hkey
  have hmiddle : encodeMuts p = .ok middle := hmiddle
  have hlength := length_of_encodeMuts hmiddle
  have hshape : container.toBytes ++ middle ++ placer.toBytes ++ expiry =
      container.toBytes ++ (middle ++ (placer.toBytes ++ expiry)) := by
    simp only [List.append_assoc]
  show Lies container (container.toBytes ++ middle ++ placer.toBytes ++ expiry) ∧
    2 ^ 63 ≤ positionOf (container.toBytes ++ middle ++ placer.toBytes ++ expiry)
  rw [hshape]
  refine ⟨⟨middle, _, hlength, ?_, rfl⟩, ?_⟩
  · simp [length_of_encodeMuts hexpiry]
  · rw [positionOf_append container hlength]
    unfold encodeMuts packSigned intInf at hmiddle
    rw [if_neg (by omega)] at hmiddle
    split_ifs at hmiddle with hfits
    rw [← Except.ok.inj hmiddle, Bytes.beDecode_beEncode (by omega)]
    omega

/-- What is behind those of all times is read as infinite, or negative. -/
theorem decoded_of_behind {container : Muid} {key : Bytes} (h : Lies container key)
    (hbehind : 2 ^ 63 ≤ positionOf key) {time : Int}
    (htime : decodeMuts (Placement.middleSlice key) = .ok (some time)) :
    time = intInf ∨ time < 0 := by
  obtain ⟨middle, rest, hlen, hrest, rfl⟩ := h
  have hslice : Placement.middleSlice (container.toBytes ++ (middle ++ rest)) = middle := by
    unfold Placement.middleSlice
    rw [List.length_append, List.length_append, Muid.length_toBytes, hlen, hrest]
    show (List.take 24 _).drop 16 = middle
    rw [List.drop_take, List.drop_left' (Muid.length_toBytes container), List.take_left' hlen]
  have hfits := (middle_eq hlen).2
  rw [positionOf_append container hlen] at hbehind
  rw [hslice] at htime
  unfold decodeMuts at htime
  rw [if_pos hlen] at htime
  simp only at htime
  split_ifs at htime
  · cases htime
  · exact Or.inl (Option.some.inj (Except.ok.inj htime)).symm
  · omega
  · right
    rw [← Option.some.inj (Except.ok.inj htime)]
    omega

/-! ## §2. Positions for insertions. -/

/-- The entry that `_add_entry` makes for a sequence; what it contains is the encoded value. -/
def sequenceEntry (muid : Muid) (contains : Option Contains) (effective : Int) : EntryBuilder where
  container := some muid.putInto
  behavior := .sequence
  contains
  effective

/-- `Sequence.at(index)[0].position`, when a store reads pages of the sequence so. -/
def positionAt {Value : Type} (read : Option Int → Int → Bool → Except Error (List PositionedEntry))
    (getOccupant : EntryBuilder → Muid → Except Error Value) (index : Int) : Except Error Int := do
  let offset := if index < 0 then -index - 1 else index
  match ← read (some 1) offset (decide (index < 0)) with
  | [] => throw .indexError
  | positioned :: _ => do
      let _ ← getOccupant positioned.builder positioned.entryMuid
      return positioned.position

/-- `Sequence._position(after, before)`; `at` tells the position at an index. -/
def newPosition (randint : Int → Int → Int) (at' : Int → Except Error Int)
    (after before : Option Int) : Except Error Int := do
  let (after, before) ← match after, before with
    | none, none => throw (.valueError "need to specify at least one index")
    | some after, none =>
        if after ≥ 0 then
          match at' (after + 1) with
          | .ok _ => pure (some after, some (after + 1))
          | .error .indexError => pure (some (-1), none)
          | .error e => throw e
        else pure (some after, none)
    | after, some before => pure (after, some before)
  if before = some 0 then do
    ensure after.isNone (.assertionError "after is None")
    let position ← at' 0
    return position - randint 0 1000000
  else if after = some (-1) then do
    ensure before.isNone (.assertionError "before is None")
    let position ← at' (-1)
    return position + randint 0 1000
  else do
    let after := after.getD (before.getD 0 - 1)
    let before := before.getD (after + 1)
    let p1 ← at' after
    let p2 ← at' before
    if p1 = p2 then throw (.valueError "positions in terms of time are equal")
    let low := min p1 p2
    let high := max p1 p2
    if high - low < 2 then throw (.valueError "not enough space between them")
    return randint (low + 1) (high - 1)

/-- `randint(a, b)` is one of the numbers from `a` to `b`. -/
def Draws (randint : Int → Int → Int) : Prop :=
  ∀ a b, a ≤ b → a ≤ randint a b ∧ randint a b ≤ b

/-- Neighbours are at least 2 apart. -/
def Spaced (l : List PositionedEntry) : Prop :=
  l.IsChain fun a b => 2 ≤ |b.position - a.position|

/-! ## §3. Where an entry comes to stand. -/

/-- An entry added at a position is listed by it, if that is in the past, and is not listed
when the position is negative.  `reads p` is the list after an entry with `effective = p` was
added to a sequence that listed `l`, by a change with the timestamp. -/
structure AddsAt (l : List PositionedEntry) (timestamp asOf : Int) (entryMuid : Muid)
    (contains : Option Contains) (reads : Int → Except Error (List PositionedEntry)) : Prop where
  placed : ∀ p, 0 < orElse p timestamp → orElse p timestamp < asOf →
    ∃ before after e, l = before ++ after ∧
      (e.entryMuid = entryMuid ∧ e.builder.contains = contains) ∧
      (∀ x ∈ before, x.position ≤ orElse p timestamp) ∧
      (∀ x ∈ after, orElse p timestamp < x.position) ∧ reads p = .ok (before ++ e :: after)
  hidden : ∀ p < 0, ∀ l', reads p = .ok l' → ∀ x ∈ l', x.entryMuid ≠ entryMuid

/-- What is known of the sequence when the entry is added. -/
structure Present (l : List PositionedEntry) (timestamp : Int) (entryMuid : Muid) : Prop where
  positive : 0 < timestamp
  sorted : l.Pairwise fun a b => a.position ≤ b.position
  past : ∀ x ∈ l, 0 ≤ x.position ∧ x.position ≤ timestamp
  others : ∀ x ∈ l, x.entryMuid ≠ entryMuid

section
variable {l : List PositionedEntry} {timestamp asOf : Int} {entryMuid : Muid}
  {contains : Option Contains} {reads : Int → Except Error (List PositionedEntry)} {i : Nat} {p : Int}

/-- The entry is listed before the index, with what it contains. -/
def InsertedBefore (l : List PositionedEntry) (entryMuid : Muid) (contains : Option Contains)
    (i : Nat) (listed : Except Error (List PositionedEntry)) : Prop :=
  ∃ e, (e.entryMuid = entryMuid ∧ e.builder.contains = contains) ∧ listed = .ok (l.take i ++ e :: l.drop i)

/-- An element that is not in a list stands at one place in the list with it. -/
theorem eq_length_of_split {α : Type} {β : Type} {f : α → β} {l before after : List α} {e e' : α}
    {i : Nat} (hi : i ≤ l.length) (hl : l = before ++ after) (hother : ∀ x ∈ l, f x ≠ f e)
    (hsame : f e' = f e) (h : before ++ e :: after = l.take i ++ e' :: l.drop i) :
    before.length = i := by
  have hlength : (l.take i).length = i := by rw [List.length_take, min_eq_left hi]
  rcases lt_trichotomy before.length i with hlt | heq | hgt
  · -- the element would be among the first of the list
    have hget := congrArg (fun m => m[before.length]?) h
    simp only [List.getElem?_append_right (le_refl _), Nat.sub_self, List.getElem?_cons_zero] at hget
    rw [List.getElem?_append_left (by omega)] at hget
    have hmem : e ∈ l.take i := List.mem_of_getElem? hget.symm
    exact absurd rfl (hother e (List.mem_of_mem_take hmem))
  · exact heq
  · have hget := congrArg (fun m => m[i]?) h
    rw [List.getElem?_append_left hgt] at hget
    rw [List.getElem?_append_right (by omega), hlength, Nat.sub_self,
      List.getElem?_cons_zero] at hget
    have hmem : e' ∈ before := List.mem_of_getElem? hget
    exact absurd hsame (hother e' (hl ▸ List.mem_append_left _ hmem))

/-- **An entry is inserted** before the index when its position sorts there. -/
theorem AddsAt.inserted_iff (h : AddsAt l timestamp asOf entryMuid contains reads)
    (hpresent : Present l timestamp entryMuid) (hi : i < l.length)
    (hlate : orElse p timestamp < asOf) :
    InsertedBefore l entryMuid contains i (reads p) ↔ 0 < orElse p timestamp ∧
      (∀ x ∈ l.take i, x.position ≤ orElse p timestamp) ∧
      ∀ x ∈ l.drop i, orElse p timestamp < x.position := by
  constructor
  · intro hinserted
    obtain ⟨e, he, hreads⟩ := hinserted
    have hpositive : 0 < orElse p timestamp := by
      by_contra hnot
      have hneg : p < 0 := by
        have := hpresent.positive
        unfold orElse at hnot
        split_ifs at hnot <;> omega
      exact h.hidden p hneg _ hreads e (by simp) he.1
    obtain ⟨before, after, e', hl, he', hbefore, hafter, hreads'⟩ := h.placed p hpositive hlate
    have hsame := Except.ok.inj (hreads'.symm.trans hreads)
    have hlength : before.length = i := eq_length_of_split hi.le hl
      (fun x hx => he'.1 ▸ hpresent.others x hx) (he.1.trans he'.1.symm) hsame
    subst hl
    rw [← hlength, List.take_left, List.drop_left]
    exact ⟨hpositive, hbefore, hafter⟩
  · intro hsorts
    obtain ⟨hpositive, htake, hdrop⟩ := hsorts
    obtain ⟨before, after, e, rfl, he, hbefore, hafter, hreads⟩ := h.placed p hpositive hlate
    have hlength : before.length = i := by
      rw [List.length_append] at hi
      rcases lt_trichotomy before.length i with hlt | heq | hgt
      · -- the first after it would be among those that are not
        have hne : 0 < after.length := by omega
        have hmem : after[0] ∈ (before ++ after).take i := by
          rw [List.take_append, List.take_of_length_le hlt.le]
          refine List.mem_append_right _ ?_
          rw [List.mem_take_iff_getElem]
          exact ⟨0, by omega, rfl⟩
        have hle := htake _ hmem
        have hgt := hafter _ (List.getElem_mem hne)
        omega
      · exact heq
      · have hmem : before[i] ∈ (before ++ after).drop i := by
          rw [List.drop_append_of_le_length hgt.le]
          refine List.mem_append_left _ ?_
          rw [List.mem_drop_iff_getElem]
          exact ⟨0, by omega, by simp⟩
        have hlt := hdrop _ hmem
        have hle := hbefore _ (List.getElem_mem hgt)
        omega
    refine ⟨e, he, ?_⟩
    rw [hreads, ← hlength, List.take_left, List.drop_left]

/-- What `insert` draws its position from. -/
theorem newPosition_before {randint : Int → Int → Int} {at' : Int → Except Error Int}
    (hsorted : l.Pairwise fun a b => a.position ≤ b.position) (hspaced : Spaced l)
    (hat : ∀ j (h : j < l.length), at' j = .ok l[j].position) (hi : i < l.length) :
    newPosition randint at' none (some i) = .ok (if h : 1 ≤ i then
      randint (l[i - 1].position + 1) (l[i].position - 1)
      else l[0].position - randint 0 1000000) ∧
    ∀ h : 1 ≤ i, l[i - 1].position + 2 ≤ l[i].position := by
  have hgap : ∀ h : 1 ≤ i, l[i - 1].position + 2 ≤ l[i].position := by
    intro h
    have hapart := (List.isChain_iff_getElem.mp hspaced) (i - 1) (by omega)
    have hle := List.pairwise_iff_getElem.mp hsorted (i - 1) i (by omega) hi (by omega)
    have hsucc : i - 1 + 1 = i := by omega
    simp only [hsucc] at hapart
    rw [abs_of_nonneg (by omega)] at hapart
    omega
  refine ⟨?_, hgap⟩
  cases i with
  | zero =>
      have hfirst : at' 0 = .ok l[0].position := hat 0 hi
      unfold newPosition
      show (at' 0 >>= fun position => pure (position - randint 0 1000000)) = _
      rw [hfirst]
      rfl
  | succ j =>
      have hnext : at' ((j : Int) + 1) = .ok l[j + 1].position := by
        have h := hat (j + 1) hi
        rw [Nat.cast_succ] at h
        exact h
      have hapart : l[j].position + 2 ≤ l[j + 1].position := hgap (by omega)
      have hne : (some ((j : Int) + 1)) ≠ some 0 := by
        rw [Ne, Option.some.injEq]
        omega
      have hback : (j : Int) + 1 - 1 = j := by omega
      unfold newPosition
      simp only [Nat.cast_succ, bind, Except.bind, pure, Except.pure, hne, if_false,
        Option.getD_none, Option.getD_some, hback, hat j (by omega), hnext, reduceCtorEq]
      rw [if_neg (by omega), min_eq_left (by omega), max_eq_right (by omega), if_neg (by omega)]
      rfl

/-- **An insertion stands before the index** unless the index is 0 and the number drawn is
0, or not below the position of the first entry. -/
theorem AddsAt.inserts_iff (h : AddsAt l timestamp asOf entryMuid contains reads)
    (hpresent : Present l timestamp entryMuid) (hasOf : timestamp < asOf)
    {randint : Int → Int → Int} (hdraws : Draws randint) {at' : Int → Except Error Int}
    (hspaced : Spaced l) (hat : ∀ j (h : j < l.length), at' j = .ok l[j].position)
    (hi : i < l.length) :
    (∃ p, newPosition randint at' none (some i) = .ok p ∧ InsertedBefore l entryMuid contains i (reads p)) ↔
      1 ≤ i ∨ 0 < randint 0 1000000 ∧ randint 0 1000000 < l[0].position := by
  obtain ⟨hposition, hgap⟩ := newPosition_before hpresent.sorted hspaced hat hi
  have hpositive := hpresent.positive
  have hmono : ∀ j k (hjk : j ≤ k) (hk : k < l.length), l[j].position ≤ l[k].position := by
    intro j k hjk hk
    rcases Nat.eq_or_lt_of_le hjk with rfl | hlt
    · exact le_rfl
    · exact List.pairwise_iff_getElem.mp hpresent.sorted j k (by omega) hk hlt
  rw [hposition]
  by_cases hone : 1 ≤ i
  · -- between two neighbours every number does
    have hapart := hgap hone
    obtain ⟨hlow, hhigh⟩ := hdraws _ _ (show l[i - 1].position + 1 ≤ l[i].position - 1 by omega)
    have hbefore := hpresent.past _ (List.getElem_mem (show i - 1 < l.length by omega))
    have hafter := hpresent.past _ (List.getElem_mem hi)
    refine iff_of_true ⟨_, by rw [dif_pos hone], ?_⟩ (Or.inl hone)
    have hkept : orElse (randint (l[i - 1].position + 1) (l[i].position - 1)) timestamp =
        randint (l[i - 1].position + 1) (l[i].position - 1) := by
      unfold orElse
      rw [if_neg (by omega)]
    rw [h.inserted_iff hpresent hi (by omega), hkept]
    refine ⟨by omega, ?_, ?_⟩
    · intro x hx
      obtain ⟨j, hj, rfl⟩ := List.mem_take_iff_getElem.mp hx
      have := hmono j (i - 1) (by omega) (by omega)
      omega
    · intro x hx
      obtain ⟨j, hj, rfl⟩ := List.mem_drop_iff_getElem.mp hx
      have := hmono i (i + j) (by omega) (by omega)
      omega
  · obtain rfl : i = 0 := by omega
    obtain ⟨hlow, hhigh⟩ := hdraws 0 1000000 (by norm_num)
    have hfirst := hpresent.past _ (List.getElem_mem hi)
    rw [dif_neg hone]
    have hlate : orElse (l[0].position - randint 0 1000000) timestamp < asOf := by
      unfold orElse
      split_ifs <;> omega
    have hall : (∀ x ∈ l.drop 0, orElse (l[0].position - randint 0 1000000) timestamp < x.position) ↔
        orElse (l[0].position - randint 0 1000000) timestamp < l[0].position := by
      constructor
      · exact fun hx => hx _ (by rw [List.drop_zero]; exact List.getElem_mem hi)
      · intro hlt x hx
        obtain ⟨j, hj, rfl⟩ := List.mem_drop_iff_getElem.mp hx
        have := hmono 0 (0 + j) (by omega) (by omega)
        omega
    have hdrawn : InsertedBefore l entryMuid contains 0 (reads (l[0].position - randint 0 1000000)) ↔
        0 < randint 0 1000000 ∧ randint 0 1000000 < l[0].position := by
      rw [h.inserted_iff hpresent hi hlate, hall]
      unfold orElse
      constructor
      · intro hsorts
        obtain ⟨hpos, -, hlt⟩ := hsorts
        split_ifs at hpos hlt <;> omega
      · intro hdraw
        rw [if_neg (by omega)]
        exact ⟨by omega, by simp, by omega⟩
    constructor
    · intro hinserted
      obtain ⟨p, hp, hinserted⟩ := hinserted
      rw [← Except.ok.inj hp] at hinserted
      exact Or.inr (hdrawn.mp hinserted)
    · intro hdraw
      rcases hdraw with hnot | hdraw
      · exact absurd hnot hone
      · exact ⟨_, rfl, hdrawn.mpr hdraw⟩

end

end Gink
