/-
  Gink.Js.MemoryStoreAsOf — reads of an ordered container in the past of a JavaScript
  `MemoryStore`.

  Times are compared as strings.  The spellings of muids that fit their digits compare like
  the muids, so that a placement, a removal or a clearance is passed over exactly when it was
  made at the as-of time or later.
-/
import Gink.Js.AsOf
import Gink.Js.MemoryStoreOrdered

namespace Gink

namespace Js

/-! ## §1. How spellings compare. -/

/-- The muid fits the digits it is spelled with. -/
structure IsMuid (m : MuidTuple) : Prop where
  timestamp : 0 ≤ m.timestamp ∧ m.timestamp < 16 ^ 13
  medallion : 0 ≤ m.medallion ∧ m.medallion < 16 ^ 11
  offset : 0 ≤ m.offset ∧ m.offset < 16 ^ 8

instance : DecidablePred IsMuid := fun m =>
  decidable_of_iff ((0 ≤ m.timestamp ∧ m.timestamp < 16 ^ 13) ∧
    (0 ≤ m.medallion ∧ m.medallion < 16 ^ 11) ∧ (0 ≤ m.offset ∧ m.offset < 16 ^ 8))
    ⟨fun h => ⟨h.1, h.2.1, h.2.2⟩, fun h => ⟨h.timestamp, h.medallion, h.offset⟩⟩

theorem IsMuid.isAddress {m : MuidTuple} (h : IsMuid m) : IsAddress m :=
  ⟨h.timestamp.1, h.medallion.1, h.offset.1, h.offset.2⟩

/-- The unit is a digit. -/
def IsDigit (u : Int) : Prop := ∃ n < 16, u = hexDigit n

theorem isDigit_intToHex {value : Int} {padding : Nat} (h0 : 0 ≤ value) :
    ∀ u ∈ intToHex value padding, IsDigit u := by
  intro u hu
  unfold intToHex padStart at hu
  rw [if_neg (not_lt.mpr h0)] at hu
  rcases List.mem_append.mp hu with hu | hu
  · exact ⟨0, by omega, (List.mem_replicate.mp hu).2⟩
  · unfold toString16 at hu
    rw [if_neg (not_lt.mpr h0), List.nil_append] at hu
    split_ifs at hu
    · exact ⟨0, by omega, List.mem_singleton.mp hu⟩
    · obtain ⟨d, hd, rfl⟩ := List.mem_map.mp hu
      exact ⟨d, Nat.digits_lt_base (by omega) (List.mem_reverse.mp hd), rfl⟩

theorem unhexDigit_lt {u : Int} (h : IsDigit u) : unhexDigit u < 16 := by
  obtain ⟨n, hn, rfl⟩ := h
  rwa [unhexDigit_hexDigit hn]

theorem unhexDigit_lt_unhexDigit {u v : Int} (hu : IsDigit u) (hv : IsDigit v) (h : u < v) :
    unhexDigit u < unhexDigit v := by
  obtain ⟨m, hm, rfl⟩ := hu
  obtain ⟨n, hn, rfl⟩ := hv
  rw [unhexDigit_hexDigit hm, unhexDigit_hexDigit hn]
  unfold hexDigit at h
  split_ifs at h <;> omega

theorem hexValue_cons (u : Int) (s : Str) :
    hexValue (u :: s) = unhexDigit u * 16 ^ s.length + hexValue s := by
  unfold hexValue
  rw [List.reverse_cons, List.map_append, Nat.ofDigits_append]
  simp only [List.map_cons, List.map_nil, Nat.ofDigits_singleton, List.length_map,
    List.length_reverse]
  ring

theorem hexValue_lt_pow {s : Str} (h : ∀ u ∈ s, IsDigit u) : hexValue s < 16 ^ s.length := by
  unfold hexValue
  have hlt := @Nat.ofDigits_lt_base_pow_length 16 (s.reverse.map unhexDigit) (by omega) (by
    intro d hd
    obtain ⟨u, hu, rfl⟩ := List.mem_map.mp hd
    exact unhexDigit_lt (h u (List.mem_reverse.mp hu)))
  rwa [List.length_map, List.length_reverse] at hlt

/-- Strings of digits of one length compare like the numbers. -/
theorem hexValue_lt_hexValue : ∀ {a b : Str}, a.length = b.length → (∀ u ∈ a, IsDigit u) →
    (∀ u ∈ b, IsDigit u) → a < b → hexValue a < hexValue b
  | [], b, _, _, _, hlt => by
      cases b with
      | nil => exact absurd hlt (lt_irrefl _)
      | cons v b => simp at *
  | u :: a, [], hlength, _, _, _ => by simp at hlength
  | u :: a, v :: b, hlength, ha, hb, hlt => by
      have hrests : a.length = b.length := by simpa using hlength
      rw [hexValue_cons, hexValue_cons, hrests]
      have ha' : ∀ u ∈ a, IsDigit u := fun x hx => ha x (List.mem_cons_of_mem _ hx)
      have hb' : ∀ u ∈ b, IsDigit u := fun x hx => hb x (List.mem_cons_of_mem _ hx)
      rcases List.cons_lt_cons_iff.mp hlt with huv | ⟨rfl, hrest⟩
      · have hdigit := unhexDigit_lt_unhexDigit (ha u List.mem_cons_self) (hb v List.mem_cons_self)
          huv
        have hbound := hexValue_lt_pow ha'
        rw [hrests] at hbound
        calc unhexDigit u * 16 ^ b.length + hexValue a
            < unhexDigit u * 16 ^ b.length + 16 ^ b.length := by omega
          _ = (unhexDigit u + 1) * 16 ^ b.length := by ring
          _ ≤ unhexDigit v * 16 ^ b.length := Nat.mul_le_mul_right _ hdigit
          _ ≤ unhexDigit v * 16 ^ b.length + hexValue b := Nat.le_add_right _ _
      · exact Nat.add_lt_add_left (hexValue_lt_hexValue hrests ha' hb' hrest) _

theorem intToHex_lt {v w : Int} {padding : Nat} (hpad : 0 < padding)
    (hv : 0 ≤ v ∧ v < 16 ^ padding) (hw : 0 ≤ w ∧ w < 16 ^ padding) :
    intToHex v padding < intToHex w padding ↔ v < w := by
  have hmono : ∀ {x y : Int}, 0 ≤ x ∧ x < 16 ^ padding → 0 ≤ y ∧ y < 16 ^ padding →
      intToHex x padding < intToHex y padding → x < y := by
    intro x y hx hy hlt
    have hvalues := hexValue_lt_hexValue
      ((length_intToHex hpad hx.1 hx.2).trans (length_intToHex hpad hy.1 hy.2).symm)
      (isDigit_intToHex hx.1) (isDigit_intToHex hy.1) hlt
    rw [hexValue_intToHex padding hx.1, hexValue_intToHex padding hy.1] at hvalues
    omega
  constructor
  · exact hmono hv hw
  · intro hlt
    rcases lt_trichotomy (intToHex v padding) (intToHex w padding) with h | h | h
    · exact h
    · have := intToHex_inj hv.1 hw.1 h
      omega
    · have := hmono hw hv h
      omega

/-- Strings whose beginnings have one length compare there first. -/
theorem append_lt_append_iff : ∀ {a a' b b' : Str}, a.length = a'.length →
    (a ++ b < a' ++ b' ↔ a < a' ∨ a = a' ∧ b < b')
  | [], [], b, b', _ => by simp
  | [], u :: a', b, b', h => by simp at h
  | u :: a, [], b, b', h => by simp at h
  | u :: a, v :: a', b, b', h => by
      have ih := @append_lt_append_iff a a' b b' (by simpa using h)
      simp only [List.cons_append, List.cons_lt_cons_iff, ih, List.cons.injEq]
      tauto

/-- **Muids compare like their spellings.** -/
theorem spelling_lt {m n : MuidTuple} (hm : IsMuid m) (hn : IsMuid n) :
    muidTupleToString m < muidTupleToString n ↔ m.timestamp < n.timestamp ∨
      m.timestamp = n.timestamp ∧ (m.medallion < n.medallion ∨
        m.medallion = n.medallion ∧ m.offset < n.offset) := by
  have hlength : ∀ {v w : Int} {padding : Nat}, 0 < padding → 0 ≤ v ∧ v < 16 ^ padding →
      0 ≤ w ∧ w < 16 ^ padding →
      (intToHex v padding).length = (intToHex w padding).length := fun hpad hv hw =>
    (length_intToHex hpad hv.1 hv.2).trans (length_intToHex hpad hw.1 hw.2).symm
  have hcut : ∀ {v w : Int} {padding : Nat} {b b' : Str}, 0 < padding →
      0 ≤ v ∧ v < 16 ^ padding → 0 ≤ w ∧ w < 16 ^ padding →
      (intToHex v padding ++ 45 :: b < intToHex w padding ++ 45 :: b' ↔
        v < w ∨ v = w ∧ b < b') := by
    intro v w padding b b' hpad hv hw
    rw [append_lt_append_iff (hlength hpad hv hw), intToHex_lt hpad hv hw, List.cons_lt_cons_iff]
    refine or_congr_right (and_congr ⟨intToHex_inj hv.1 hw.1, fun h => by rw [h]⟩ ?_)
    simp
  rw [hm.isAddress.spelling, hn.isAddress.spelling]
  simp only [List.append_assoc, List.cons_append]
  rw [hcut (by omega) hm.timestamp hn.timestamp, hcut (by omega) hm.medallion hn.medallion,
    intToHex_lt (by omega) hm.offset hn.offset]

theorem length_spelling {m : MuidTuple} (h : IsMuid m) : (muidTupleToString m).length = 34 := by
  rw [h.isAddress.spelling]
  have h1 := length_intToHex (by omega) h.timestamp.1 h.timestamp.2
  have h2 := length_intToHex (by omega) h.medallion.1 h.medallion.2
  have h3 := length_intToHex (by omega) h.offset.1 h.offset.2
  simp only [List.length_append, List.length_cons, h1, h2, h3]

namespace MemoryStore

/-! ## §2. Rows by their addresses. -/

/-- Entries that have locations. -/
def IsListed (e : Entry) : Prop := e.behavior = .sequence ∨ e.behavior = .edgeType

/-- Every row stands under its key, and was made at an address that satisfies `q`. -/
structure Stamped (q : MuidTuple → Prop) (c : Contents) : Prop where
  placements : ∀ r ∈ c.placements.rows, r.1 = placementKey r.2 ∧ q r.2.placementId
  locations : ∀ r ∈ c.locations.rows, ∃ e, r.2 = placementKey e ∧ IsListed e ∧
    (placementKey e, e) ∈ c.placements.rows
  removals : ∀ r ∈ c.removals.rows, ∃ p m, r.1 = joinedIds (muidTupleToString p)
    (muidTupleToString m) ∧ q p ∧ q m
  clearances : ∀ r ∈ c.clearances.rows, r.1 = clearanceKey r.2 ∧ q r.2.clearanceId

/-- The address at the end of the key is of before the time. -/
def EndsBefore (t : Int) (k : Str) : Prop := lastUnits k < muidTupleToString ⟨t, 0, 0⟩

/-- The rows of before a time are the same. -/
structure AgreeBefore (t : Int) (c c' : Contents) : Prop where
  placements : Table.AgreeOn (EndsBefore t) c.placements c'.placements
  removals : Table.AgreeOn (EndsBefore t) c.removals c'.removals
  clearances : Table.AgreeOn (EndsBefore t) c.clearances c'.clearances

variable {c c' c'' c₀ : Contents} {q q' : MuidTuple → Prop} {t : Int} {walks : Walks}

theorem AgreeBefore.refl (t : Int) (c : Contents) : AgreeBefore t c c :=
  ⟨.refl _ _, .refl _ _, .refl _ _⟩

theorem AgreeBefore.trans (h : AgreeBefore t c c') (h' : AgreeBefore t c' c'') :
    AgreeBefore t c c'' :=
  ⟨h.placements.trans h'.placements, h.removals.trans h'.removals,
    h.clearances.trans h'.clearances⟩

theorem Stamped.mono (h : Stamped q c) (hq : ∀ m, q m → q' m) : Stamped q' c where
  placements := fun r hr => ⟨(h.placements r hr).1, hq _ (h.placements r hr).2⟩
  locations := h.locations
  removals := by
    intro r hr
    obtain ⟨p, m, hkey, hp, hm⟩ := h.removals r hr
    exact ⟨p, m, hkey, hq p hp, hq m hm⟩
  clearances := fun r hr => ⟨(h.clearances r hr).1, hq _ (h.clearances r hr).2⟩

/-- The last units of a key spell the address it ends with. -/
theorem lastUnits_spelling {s : Str} {m : MuidTuple} (h : IsMuid m) :
    lastUnits (s ++ muidTupleToString m) = muidTupleToString m := by
  rw [lastUnits_append (length_le m)]
  unfold lastUnits
  rw [length_spelling h, Nat.sub_self, List.drop_zero]

theorem isMuid_time (ht : 0 ≤ t ∧ t < 16 ^ 13) : IsMuid ⟨t, 0, 0⟩ :=
  ⟨ht, ⟨le_refl _, by norm_num⟩, ⟨le_refl _, by norm_num⟩⟩

/-- Addresses compare with a time by their timestamps. -/
theorem spelling_lt_time {m : MuidTuple} (hm : IsMuid m) (ht : 0 ≤ t ∧ t < 16 ^ 13) :
    muidTupleToString m < muidTupleToString ⟨t, 0, 0⟩ ↔ m.timestamp < t := by
  have hmedallion := hm.medallion.1
  have hoffset := hm.offset.1
  rw [spelling_lt hm (isMuid_time ht)]
  constructor
  · rintro (hlt | ⟨-, hlt | ⟨-, hlt⟩⟩)
    · exact hlt
    · exact absurd hlt (not_lt.mpr hmedallion)
    · exact absurd hlt (not_lt.mpr hoffset)
  · exact Or.inl

/-- And none of them is a time. -/
theorem time_lt_spelling {m : MuidTuple} (hm : IsMuid m) (hoffset : 0 < m.offset)
    (ht : 0 ≤ t ∧ t < 16 ^ 13) :
    muidTupleToString ⟨t, 0, 0⟩ < muidTupleToString m ↔ t ≤ m.timestamp := by
  have hmedallion := hm.medallion.1
  rw [spelling_lt (isMuid_time ht) hm]
  constructor
  · rintro (hlt | ⟨heq, -⟩)
    · exact le_of_lt hlt
    · exact le_of_eq heq
  · intro hle
    rcases lt_or_eq_of_le hle with hlt | heq
    · exact Or.inl hlt
    · refine Or.inr ⟨heq, ?_⟩
      rcases lt_or_eq_of_le hmedallion with hlt | hzero
      · exact Or.inl hlt
      · exact Or.inr ⟨hzero, hoffset⟩

/-! ## §3. What a change writes. -/

/-- The addresses of before a change: those of earlier times, and of earlier changes of its
bundle. -/
def Past (timestamp : Int) (offset : Nat) (m : MuidTuple) : Prop :=
  IsMuid m ∧ 0 < m.offset ∧ (m.timestamp < timestamp ∨ m.timestamp = timestamp ∧ m.offset < offset)

/-- A change at an address that no row has yet. -/
structure Fits (a : MuidTuple) (q q' : MuidTuple → Prop) : Prop where
  muid : IsMuid a
  fresh : ¬ q a
  mono : ∀ m, q m → q' m
  self : q' a
  muids : ∀ m, q m → IsMuid m

theorem fits_changeAddress {info : BundleInfo} {offset : Nat} (hoffset : 0 < offset)
    (hmuid : IsMuid (changeAddress info offset)) :
    Fits (changeAddress info offset) (Past info.timestamp.val offset)
      (Past info.timestamp.val (offset + 1)) where
  muid := hmuid
  fresh := by
    rintro ⟨-, -, hlt | ⟨-, hlt⟩⟩
    · exact lt_irrefl _ hlt
    · exact lt_irrefl _ hlt
  mono := by
    rintro m ⟨hm, hpos, hlt | ⟨heq, hlt⟩⟩
    · exact ⟨hm, hpos, Or.inl hlt⟩
    · exact ⟨hm, hpos, Or.inr ⟨heq, by push_cast; omega⟩⟩
  self := ⟨hmuid, by show (0 : Int) < offset; omega, Or.inr ⟨rfl, by
    show (offset : Int) < ((offset + 1 : Nat) : Int)
    omega⟩⟩
  muids := fun _ hm => hm.1

/-- The removals of placements, by their keys, put into a table. -/
def removing (a : MuidTuple) (ks : List Str) (table : Table Str Unit) : Table Str Unit :=
  ks.foldl (fun t k => t.put (joinedIds (lastUnits k) (muidTupleToString a)) ()) table

/-- At most a placement with its location, removals of placements and a clearance, at the
address of the change. -/
structure Writes (a : MuidTuple) (c c' : Contents) : Prop where
  placements : c'.placements = c.placements ∧ c'.locations = c.locations ∨
    ∃ e, e.placementId = a ∧ c'.placements = c.placements.put (placementKey e) e ∧
      (c'.locations = c.locations ∨
        IsListed e ∧ c'.locations = c.locations.put (locationKey e) (placementKey e))
  removals : ∃ ks, (∀ k ∈ ks, ∃ x, (k, x) ∈ c.placements.rows) ∧
    c'.removals = removing a ks c.removals
  clearances : c'.clearances = c.clearances ∨
    ∃ z, z.clearanceId = a ∧ c'.clearances = c.clearances.put (clearanceKey z) z

variable {a : MuidTuple}

theorem Writes.nothing (a : MuidTuple) (c : Contents) : Writes a c c :=
  ⟨.inl ⟨rfl, rfl⟩, ⟨[], fun _ hk => absurd hk List.not_mem_nil, rfl⟩, .inl rfl⟩

/-- The rows that were there stay, and the new ones are in their place. -/
theorem Writes.stamped (h : Writes a c c') (hfits : Fits a q q') (hc : Stamped q c) :
    Stamped q' c' := by
  have hold := hc.mono hfits.mono
  have hkept : ∀ e x : Entry, e.placementId = a → (placementKey x, x) ∈ c.placements.rows →
      (placementKey x, x) ∈ (c.placements.put (placementKey e) e).rows := by
    intro e x he hx
    refine Table.mem_rows_put.mpr (Or.inr ⟨fun heq => hfits.fresh ?_, hx⟩)
    have hq := (hc.placements _ hx).2
    -- the keys of different addresses are different
    have hids : muidTupleToString x.placementId = muidTupleToString e.placementId :=
      (joinedIds_inj comma_not_spelled comma_not_spelled
        (show joinedIds _ _ = joinedIds _ _ from heq)).2
    rw [he] at hids
    rwa [← muidTupleToString_inj (hfits.muids _ hq).isAddress hfits.muid.isAddress hids]
  refine ⟨?_, ?_, ?_, ?_⟩
  · intro r hr
    rcases h.placements with ⟨heq, -⟩ | ⟨e, he, heq, -⟩
    · exact hold.placements r (heq ▸ hr)
    · rw [heq] at hr
      rcases Table.mem_rows_put.mp hr with rfl | ⟨-, hr⟩
      · exact ⟨rfl, he.symm ▸ hfits.self⟩
      · exact hold.placements r hr
  · intro r hr
    rcases h.placements with ⟨heq, hlocations⟩ | ⟨e, he, heq, hlocations | ⟨hlisted, hlocations⟩⟩
    · rw [hlocations] at hr
      rw [heq]
      exact hc.locations r hr
    · rw [hlocations] at hr
      obtain ⟨x, hvalue, hx, hrow⟩ := hc.locations r hr
      exact ⟨x, hvalue, hx, heq ▸ hkept e x he hrow⟩
    · rw [hlocations] at hr
      rw [heq]
      rcases Table.mem_rows_put.mp hr with rfl | ⟨-, hr⟩
      · exact ⟨e, rfl, hlisted, Table.mem_rows_put.mpr (Or.inl rfl)⟩
      · obtain ⟨x, hvalue, hx, hrow⟩ := hc.locations r hr
        exact ⟨x, hvalue, hx, hkept e x he hrow⟩
  · obtain ⟨ks, hks, heq⟩ := h.removals
    rw [heq]
    clear heq
    -- one removal after the other
    have hstart := hold.removals
    generalize c.removals = table at hstart ⊢
    induction ks generalizing table with
    | nil => exact hstart
    | cons k rest ih =>
        refine ih (fun x hx => hks x (List.mem_cons_of_mem _ hx)) _ ?_
        intro r hr
        rcases Table.mem_rows_put.mp hr with rfl | ⟨-, hr⟩
        · obtain ⟨x, hx⟩ := hks k List.mem_cons_self
          obtain ⟨hkey, hq⟩ := hc.placements _ hx
          have hlast : lastUnits k = muidTupleToString x.placementId := by
            rw [show k = placementKey x from hkey]
            exact lastUnits_spelling (hfits.muids _ hq)
          exact ⟨x.placementId, a, by rw [hlast], hfits.mono _ hq, hfits.self⟩
        · exact hstart r hr
  · intro r hr
    rcases h.clearances with heq | ⟨z, hz, heq⟩
    · exact hold.clearances r (heq ▸ hr)
    · rw [heq] at hr
      rcases Table.mem_rows_put.mp hr with rfl | ⟨-, hr⟩
      · exact ⟨rfl, hz.symm ▸ hfits.self⟩
      · exact hold.clearances r hr

/-- And what was there of before a time is still what there is. -/
theorem Writes.agreeBefore (h : Writes a c c') (ha : IsMuid a) (ht : 0 ≤ t ∧ t < 16 ^ 13)
    (hlate : t ≤ a.timestamp) : AgreeBefore t c c' := by
  have hnot : ∀ s : Str, ¬ EndsBefore t (s ++ muidTupleToString a) := by
    intro s hlt
    unfold EndsBefore at hlt
    rw [lastUnits_spelling ha, spelling_lt_time ha ht] at hlt
    omega
  refine ⟨?_, ?_, ?_⟩
  · rcases h.placements with ⟨heq, -⟩ | ⟨e, rfl, heq, -⟩
    · exact heq ▸ .refl _ _
    · exact heq ▸ Table.agreeOn_put _ _ (hnot _)
  · obtain ⟨ks, -, heq⟩ := h.removals
    rw [heq]
    clear heq
    generalize c.removals = table
    induction ks generalizing table with
    | nil => exact .refl _ _
    | cons k rest ih =>
        have hput := Table.agreeOn_put table () (hnot (lastUnits k ++ comma))
        exact hput.trans (ih _)
  · rcases h.clearances with heq | ⟨z, rfl, heq⟩
    · exact heq ▸ .refl _ _
    · exact heq ▸ Table.agreeOn_put _ _ (hnot _)

/-- `addEntry(entry)`, with history kept. -/
theorem addEntry_writes {e : Entry} (h : addEntry walks true false e c = .ok c')
    (he : IsListed e ∨ e.entryId = e.placementId) :
    Writes e.placementId c c' := by
  unfold addEntry at h
  dsimp only at h
  by_cases hacc : e.behavior = .accumulator ∧ (!isBigint e.value) = true
  · rw [if_pos hacc] at h
    cases h
  · rw [if_neg hacc] at h
    injection h with h
    rw [← h]
    unfold makeRoom
    dsimp only
    by_cases hlisted : e.behavior = .sequence ∨ e.behavior = .edgeType
    · rw [if_pos hlisted]
      exact ⟨.inr ⟨e, rfl, rfl, .inr ⟨hlisted, rfl⟩⟩,
        ⟨[], fun _ hk => absurd hk List.not_mem_nil, rfl⟩, .inl rfl⟩
    · have hentry : e.entryId = e.placementId := he.resolve_left hlisted
      rw [if_neg hlisted, if_neg (by simp), hentry]
      let found := (backFrom c.placements (muidTupleToString e.containerId ++ comma ++
        storageKeyToString e.storageKey) tilde).map Prod.fst
      have hfound : ∀ k ∈ found, ∃ x, (k, x) ∈ c.placements.rows := by
        intro k hk
        obtain ⟨r, hr, rfl⟩ := List.mem_map.mp hk
        have hrow := List.mem_reverse.mp (List.takeWhile_subset _ hr)
        exact ⟨r.2, (Table.mem_rowsWhere.mp hrow).1⟩
      exact ⟨.inr ⟨e, rfl, rfl, .inl rfl⟩, ⟨found, hfound, rfl⟩, .inl rfl⟩

variable {info : BundleInfo} {offset : Nat}

theorem applyMovement_writes {m : Movement} (hc : Stamped q c) (hpurge : m.purge = false)
    (h : applyMovement walks true m c = .ok c') : Writes m.movementId c c' := by
  unfold applyMovement at h
  rw [hpurge, if_neg (by simp)] at h
  cases hseek : toLastWithPrefixBeforeSuffix c.locations (muidTupleToString m.entryId) tilde with
  | none =>
      simp only [hseek, Except.ok.injEq] at h
      exact h ▸ .nothing _ _
  | some location =>
      obtain ⟨hrow, -⟩ := toLast_eq_some hseek
      obtain ⟨x, hvalue, hlisted, hplaced⟩ := hc.locations location hrow
      have hfound : c.placements.get? location.2 = some x := by
        rw [hvalue]
        exact Table.get?_eq_some_iff.mpr hplaced
      have hstored : ∃ x, (location.2, x) ∈ c.placements.rows := ⟨x, hvalue ▸ hplaced⟩
      simp only [hseek, hfound] at h
      unfold replaceMoved at h
      by_cases hdest : m.dest ≠ 0
      · rw [if_pos hdest] at h
        have hwrites := addEntry_writes h (Or.inl hlisted)
        obtain ⟨ks, hks, hremovals⟩ := hwrites.removals
        refine ⟨hwrites.placements, ⟨location.2 :: ks, ?_, hremovals⟩, hwrites.clearances⟩
        intro k hk
        rcases List.mem_cons.mp hk with rfl | hk
        · exact hstored
        · exact hks k hk
      · rw [if_neg hdest] at h
        injection h with h
        rw [← h]
        refine ⟨.inl ⟨rfl, rfl⟩, ⟨[location.2], ?_, rfl⟩, .inl rfl⟩
        intro k hk
        rw [List.mem_singleton.mp hk]
        exact hstored

/-- **One change** that purges nothing writes at its own address. -/
theorem applyChange_writes {change : ChangeBuilder} (hc : Stamped q c) (hretains : Retains change)
    (h : applyChange walks true info offset c change = .ok c') :
    Writes (changeAddress info offset) c c' := by
  cases change with
  | unset => simp [applyChange] at h
  | container container =>
      injection h with h
      rw [← h]
      exact ⟨.inl ⟨rfl, rfl⟩, ⟨[], fun _ hk => absurd hk List.not_mem_nil, rfl⟩, .inl rfl⟩
  | entry entry =>
      obtain ⟨e, hbuild, hadd⟩ := bind_eq_ok.mp h
      obtain ⟨-, hentry, hplacement⟩ := buildEntry_ok hbuild
      rw [show entry.purge = false from hretains] at hadd
      rw [← hplacement]
      exact addEntry_writes hadd (Or.inr (hentry.trans hplacement.symm))
  | movement movement =>
      obtain ⟨m, hextract, hmove⟩ := bind_eq_ok.mp h
      obtain ⟨hpurge, hmovement⟩ : m.purge = false ∧ m.movementId = changeAddress info offset := by
        obtain ⟨b, -, hb⟩ := bind_eq_ok.mp hextract
        rw [← pure_eq_ok.mp hb]
        exact ⟨hretains, rfl⟩
      rw [← hmovement]
      exact applyMovement_writes hc hpurge hmove
  | clearance clearance =>
      obtain ⟨b, -, h1⟩ := bind_eq_ok.mp h
      obtain ⟨container, -, h2⟩ := bind_eq_ok.mp h1
      simp only [show clearance.purge = false from hretains, Bool.false_eq_true, if_false] at h2
      rw [← pure_eq_ok.mp h2]
      exact ⟨.inl ⟨rfl, rfl⟩, ⟨[], fun _ hk => absurd hk List.not_mem_nil, rfl⟩,
        .inr ⟨⟨container, changeAddress info offset, false⟩, rfl, rfl⟩⟩

/-! ## §4. Histories. -/

/-- The changes of a bundle, at addresses no row has yet. -/
theorem applyChangesFrom_keeps {changes : List ChangeBuilder} (ht : 0 ≤ t ∧ t < 16 ^ 13) :
    ∀ {offset : Nat} {c c' : Contents}, 0 < offset → (∀ change ∈ changes, Retains change) →
      (∀ op ∈ opsFrom info offset changes, IsMuid (changeAddress op.info op.offset)) →
      Stamped (Past info.timestamp.val offset) c →
      applyChangesFrom walks true info offset changes c = .ok c' →
      Stamped (Past (info.timestamp.val + 1) 0) c' ∧
        (t ≤ info.timestamp.val → AgreeBefore t c c') := by
  induction changes with
  | nil =>
      intro offset c c' _ _ _ hc h
      injection h with h
      subst h
      refine ⟨hc.mono ?_, fun _ => .refl _ _⟩
      rintro m ⟨hm, hpos, hlt⟩
      refine ⟨hm, hpos, Or.inl ?_⟩
      omega
  | cons change rest ih =>
      intro offset c c' hoffset hretains hmuids hc h
      obtain ⟨c1, hone, hrest⟩ := bind_eq_ok.mp h
      have hmuid : IsMuid (changeAddress info offset) := hmuids _ List.mem_cons_self
      have hwrites := applyChange_writes hc (hretains change List.mem_cons_self) hone
      obtain ⟨hstamped, hagree⟩ := ih (Nat.succ_pos offset)
        (fun x hx => hretains x (List.mem_cons_of_mem _ hx))
        (fun op hop => hmuids op (List.mem_cons_of_mem _ hop))
        (hwrites.stamped (fits_changeAddress hoffset hmuid) hc) hrest
      exact ⟨hstamped, fun hlate => (hwrites.agreeBefore hmuid ht hlate).trans (hagree hlate)⟩

/-- One bundle applied. -/
def applyBundle (walks : Walks) (b : OpenBundle) (c : Contents) : Except JsError Contents :=
  applyChangesFrom walks true b.info 1 b.changes c

theorem History.applyEach {history : List OpenBundle} (h : History walks true history c) :
    applyEach (applyBundle walks) history {} = .ok c := by
  induction h with
  | start => rfl
  | @next past c c' b _ applied ih =>
      rw [applyEach_append, ih]
      show (applyBundle walks b c >>= fun c => Except.ok c) = _
      rw [show applyBundle walks b c = .ok c' from applied]
      rfl

/-- The addresses of the history fit their digits. -/
def Spellable (history : List OpenBundle) : Prop :=
  ∀ op ∈ allOps history, IsMuid (changeAddress op.info op.offset)

instance : DecidablePred Spellable := fun history =>
  inferInstanceAs (Decidable (∀ op ∈ allOps history, IsMuid (changeAddress op.info op.offset)))

/-- Bundles in the order of their timestamps, on top of what is earlier. -/
theorem applyEach_stamped (ht : 0 ≤ t ∧ t < 16 ^ 13) {bundles : List OpenBundle} :
    ∀ (low high : Int) {c c' : Contents}, Increasing bundles → Unpurged bundles →
      Spellable bundles → (∀ b ∈ bundles, low ≤ b.info.timestamp.val ∧
        (b.info.timestamp.val : Int) < high) → low ≤ high →
      Stamped (Past low 0) c → Js.applyEach (applyBundle walks) bundles c = .ok c' →
      Stamped (Past high 0) c' ∧
        ((∀ b ∈ bundles, t ≤ (b.info.timestamp.val : Int)) → AgreeBefore t c c') := by
  have hpast : ∀ {low high : Int} {n : Nat} {m : MuidTuple}, low ≤ high → Past low 0 m →
      Past high n m := by
    rintro low high n m hle ⟨hm, hpos, hlt | ⟨-, hlt⟩⟩
    · exact ⟨hm, hpos, Or.inl (lt_of_lt_of_le hlt hle)⟩
    · exact absurd hpos (not_lt.mpr (le_of_lt hlt))
  induction bundles with
  | nil =>
      intro low high c c' _ _ _ _ hle hc h
      injection h with h
      subst h
      exact ⟨hc.mono fun m hm => hpast hle hm, fun _ => .refl _ _⟩
  | cons b rest ih =>
      intro low high c c' hincreasing hunpurged hspellable hbounds _ hc h
      obtain ⟨hlater, hrest⟩ := List.pairwise_cons.mp hincreasing
      obtain ⟨hlow, hhigh⟩ := hbounds b List.mem_cons_self
      obtain ⟨c1, hone, hmore⟩ := bind_eq_ok.mp h
      have hops : allOps (b :: rest) = b.ops ++ allOps rest := rfl
      obtain ⟨hstamped, hagree⟩ := applyChangesFrom_keeps ht (Nat.one_pos)
        (hunpurged b List.mem_cons_self)
        (fun op hop => hspellable op (hops ▸ List.mem_append_left _ hop))
        (hc.mono fun m hm => hpast hlow hm) hone
      obtain ⟨hstamped', hagree'⟩ := ih (b.info.timestamp.val + 1) high hrest
        (fun x hx => hunpurged x (List.mem_cons_of_mem _ hx))
        (fun op hop => hspellable op (hops ▸ List.mem_append_right _ hop))
        (fun x hx => ⟨by
          have hlt : b.info.timestamp.val < x.info.timestamp.val := hlater x hx
          show (b.info.timestamp.val : Int) + 1 ≤ _
          omega, (hbounds x (List.mem_cons_of_mem _ hx)).2⟩) (by omega) hstamped hmore
      refine ⟨hstamped', fun hlate => ?_⟩
      exact (hagree (hlate b List.mem_cons_self)).trans
        (hagree' fun x hx => hlate x (List.mem_cons_of_mem _ hx))

theorem Stamped.start (q : MuidTuple → Prop) : Stamped q {} :=
  ⟨fun _ hr => absurd hr List.not_mem_nil, fun _ hr => absurd hr List.not_mem_nil,
    fun _ hr => absurd hr List.not_mem_nil, fun _ hr => absurd hr List.not_mem_nil⟩

/-- **The past of a store**: the bundles before a time make a store whose rows are all of
before that time, and everything that follows leaves these as they are. -/
theorem History.agreeBefore {history : List OpenBundle} (h : History walks true history c)
    (h₀ : History walks true (before t history) c₀) (hincreasing : Increasing history)
    (hunpurged : Unpurged history) (hspellable : Spellable history) (ht : 0 ≤ t ∧ t < 16 ^ 13) :
    Stamped (Past t 0) c₀ ∧ Stamped (Past (2 ^ 64) 0) c ∧ AgreeBefore t c₀ c := by
  obtain ⟨after, hsplit, hlate⟩ := hincreasing.split t
  have hops : allOps history = allOps (before t history) ++ allOps after := by
    conv_lhs => rw [hsplit]
    exact List.flatMap_append
  have hparts := List.pairwise_append.mp (hsplit ▸ hincreasing)
  have hmem : ∀ b ∈ after, b ∈ history := fun b hb => hsplit ▸ List.mem_append_right _ hb
  obtain ⟨hstamped, -⟩ := applyEach_stamped ht 0 t hparts.1
    (fun b hb => hunpurged b (mem_before.mp hb).1)
    (fun op hop => hspellable op (hops ▸ List.mem_append_left _ hop))
    (fun b hb => ⟨Int.natCast_nonneg _, (mem_before.mp hb).2⟩) ht.1 (.start _) h₀.applyEach
  have hall := h.applyEach
  rw [hsplit, applyEach_append, h₀.applyEach] at hall
  obtain ⟨hstamped', hagree⟩ := applyEach_stamped ht t (2 ^ 64) hparts.2.1
    (fun b hb => hunpurged b (hmem b hb))
    (fun op hop => hspellable op (hops ▸ List.mem_append_right _ hop))
    (fun b hb => ⟨hlate b hb, by
      have := b.info.timestamp.isLt
      omega⟩) (by omega) hstamped hall
  exact ⟨hstamped, hstamped', hagree hlate⟩

/-! ## §5. Reads. -/

/-- The spelling of an address below a time, or not above it. -/
theorem endsBefore_iff {n : Int} {k : Nat} {m : MuidTuple} (hm : Past n k m)
    (ht : 0 ≤ t ∧ t < 16 ^ 13) (s : Str) :
    EndsBefore t (s ++ muidTupleToString m) ↔
      muidTupleToString m ≤ muidTupleToString ⟨t, 0, 0⟩ := by
  unfold EndsBefore
  rw [lastUnits_spelling hm.1, spelling_lt_time hm.1 ht, ← not_lt, time_lt_spelling hm.1 hm.2.1 ht,
    not_le]

/-- A seek finds something when some key with the prefix is within the bound. -/
theorem toLast_isSome_iff {V : Type} {table : Table Str V} {pre suffix : Str} :
    (toLastWithPrefixBeforeSuffix table pre suffix).isSome = true ↔
      ∃ r ∈ table.rows, pre <+: r.1 ∧ r.1 ≤ pre ++ suffix := by
  constructor
  · intro h
    obtain ⟨r, hr⟩ := Option.isSome_iff_exists.mp h
    obtain ⟨hmem, hpre⟩ := toLast_eq_some hr
    refine ⟨r, hmem, hpre, ?_⟩
    unfold toLastWithPrefixBeforeSuffix at hr
    split at hr
    · cases hr
    · rename_i row hlast
      split at hr
      · injection hr with hr
        subst hr
        exact of_decide_eq_true (Table.lastWhere_eq_some_iff.mp hlast).2.1
      · cases hr
  · rintro ⟨r, hmem, hpre, hle⟩
    obtain ⟨found, hfound, -⟩ := toLast_isSome hmem hpre hle
    rw [hfound]
    rfl

/-- A spelling that starts another one with a comma is the part before. -/
theorem startsWith_joinedIds {p p' : MuidTuple} {s : Str} (hp : IsMuid p) (hp' : IsMuid p')
    (h : muidTupleToString p <+: joinedIds (muidTupleToString p') s) :
    muidTupleToString p = muidTupleToString p' := by
  unfold joinedIds at h
  rw [List.append_assoc] at h
  have hle : (muidTupleToString p).length ≤ (muidTupleToString p').length := by
    rw [length_spelling hp, length_spelling hp']
  have hpre := List.prefix_of_prefix_length_le h (List.prefix_append _ _) hle
  exact hpre.eq_of_length (by rw [length_spelling hp, length_spelling hp'])

/-- The seek for a removal of before the time. -/
theorem AgreeBefore.removed_eq {n n₀ : Int} {k k₀ : Nat} (h : AgreeBefore t c₀ c)
    (h₀ : Stamped (Past n₀ k₀) c₀) (hc : Stamped (Past n k) c) (ht : 0 ≤ t ∧ t < 16 ^ 13)
    {p : MuidTuple} (hp : IsMuid p) :
    (toLastWithPrefixBeforeSuffix c.removals (muidTupleToString p)
        (comma ++ muidTupleToString ⟨t, 0, 0⟩)).isSome =
      (toLastWithPrefixBeforeSuffix c₀.removals (muidTupleToString p)
        (comma ++ muidTupleToString ⟨t, 0, 0⟩)).isSome := by
  have hends : ∀ {n : Int} {k : Nat} {c : Contents}, Stamped (Past n k) c →
      ∀ r ∈ c.removals.rows, muidTupleToString p <+: r.1 →
      r.1 ≤ muidTupleToString p ++ (comma ++ muidTupleToString ⟨t, 0, 0⟩) → EndsBefore t r.1 := by
    intro n k c hc r hr hpre hle
    obtain ⟨p', m, hkey, hp', hm⟩ := hc.removals r hr
    rw [hkey] at hpre hle ⊢
    have hsame := startsWith_joinedIds hp hp'.1 hpre
    rw [hsame, ← List.append_assoc] at hle
    exact (endsBefore_iff hm ht _).mpr (joinedIds_le_joinedIds.mp hle)
  rw [Bool.eq_iff_iff, toLast_isSome_iff, toLast_isSome_iff]
  constructor
  · rintro ⟨r, hr, hpre, hle⟩
    exact ⟨r, (h.removals r (hends hc r hr hpre hle)).mpr hr, hpre, hle⟩
  · rintro ⟨r, hr, hpre, hle⟩
    exact ⟨r, (h.removals r (hends h₀ r hr hpre hle)).mp hr, hpre, hle⟩

/-- A string without commas and a comma start only what is joined to that string. -/
theorem startsWith_comma_iff {a b s : Str} (ha : (44 : Int) ∉ a) (hb : (44 : Int) ∉ b) :
    (a ++ comma) <+: joinedIds b s ↔ a = b := by
  constructor
  · rintro ⟨rest, hrest⟩
    unfold joinedIds at hrest
    simp only [comma, List.append_assoc, List.cons_append, List.nil_append] at hrest
    rcases List.append_eq_append_iff.mp hrest with ⟨x, hx, hcut⟩ | ⟨x, hx, hcut⟩
    · cases x with
      | nil => rw [hx, List.append_nil]
      | cons u x =>
          injection hcut with hu _
          rw [hx, ← hu] at hb
          exact absurd (List.mem_append_right _ List.mem_cons_self) hb
    · cases x with
      | nil => rw [hx, List.append_nil]
      | cons u x =>
          injection hcut with hu _
          rw [hx, ← hu] at ha
          exact absurd (List.mem_append_right _ List.mem_cons_self) ha
  · rintro rfl
    exact ⟨s, rfl⟩

/-- The last clearance is sought among all containers; only one of the container counts. -/
theorem getLastClearanceTime_eq (hc : Stamped q c) (hzero : t ≠ 0) (containerId : Str)
    (hcomma : (44 : Int) ∉ containerId) :
    getLastClearanceTime c containerId t =
      ((c.clearances.lastWhere fun k => decide ((containerId ++ comma) <+: k) &&
        decide (k ≤ joinedIds containerId (muidTupleToString ⟨t, 0, 0⟩))).map
          fun r => r.2.clearanceId.timestamp).getD 0 := by
  have hcontainer : ∀ r ∈ c.clearances.rows, (containerId ++ comma) <+: r.1 ↔
      containerId = muidTupleToString r.2.containerId := by
    intro r hr
    rw [(hc.clearances r hr).1]
    exact startsWith_comma_iff hcomma comma_not_spelled
  unfold getLastClearanceTime
  rw [if_neg hzero]
  dsimp only
  cases hlast : c.clearances.lastWhere fun k =>
      decide (k ≤ joinedIds containerId (muidTupleToString ⟨t, 0, 0⟩)) with
  | none =>
      have hnone := Table.lastWhere_eq_none_iff.mp hlast
      have hnone' : (c.clearances.lastWhere fun k => decide ((containerId ++ comma) <+: k) &&
          decide (k ≤ joinedIds containerId (muidTupleToString ⟨t, 0, 0⟩))) = none :=
        Table.lastWhere_eq_none_iff.mpr fun r hr => by rw [hnone r hr, Bool.and_false]
      simp only [hnone']
      rfl
  | some r =>
      obtain ⟨hr, hle, hmax⟩ := Table.lastWhere_eq_some_iff.mp hlast
      dsimp only
      by_cases hsame : containerId = muidTupleToString r.2.containerId
      · have hfound : (c.clearances.lastWhere fun k => decide ((containerId ++ comma) <+: k) &&
            decide (k ≤ joinedIds containerId (muidTupleToString ⟨t, 0, 0⟩))) = some r := by
          refine Table.lastWhere_eq_some_iff.mpr ⟨hr, ?_, ?_⟩
          · rw [hle, decide_eq_true ((hcontainer r hr).mpr hsame)]
            rfl
          · intro x hx hin
            exact hmax x hx (Bool.and_eq_true_iff.mp hin).2
        rw [if_pos hsame, hfound]
        rfl
      · -- what is of the container would lie between its first key and the bound
        have hnone : (c.clearances.lastWhere fun k => decide ((containerId ++ comma) <+: k) &&
            decide (k ≤ joinedIds containerId (muidTupleToString ⟨t, 0, 0⟩))) = none := by
          refine Table.lastWhere_eq_none_iff.mpr fun x hx => ?_
          by_contra hin
          rw [Bool.not_eq_false, Bool.and_eq_true, decide_eq_true_eq] at hin
          have hxr := hmax x hx hin.2
          have hbetween := startsWith_of_le_of_le hin.1
            (show (containerId ++ comma) <+: joinedIds containerId _ from ⟨_, rfl⟩) hxr
            (of_decide_eq_true hle)
          exact hsame ((hcontainer r hr).mp hbetween)
        rw [if_neg hsame, hnone]
        rfl

/-- Before a time the clearances of both stores are the same. -/
theorem AgreeBefore.getLastClearanceTime_eq {n n₀ : Int} {k k₀ : Nat} (h : AgreeBefore t c₀ c)
    (h₀ : Stamped (Past n₀ k₀) c₀) (hc : Stamped (Past n k) c) (ht : 0 < t ∧ t < 16 ^ 13)
    (container : MuidTuple) :
    getLastClearanceTime c (muidTupleToString container) t =
      getLastClearanceTime c₀ (muidTupleToString container) t := by
  have hends : ∀ {n : Int} {k : Nat} {c : Contents}, Stamped (Past n k) c →
      ∀ r ∈ c.clearances.rows, (decide ((muidTupleToString container ++ comma) <+: r.1) &&
        decide (r.1 ≤ joinedIds (muidTupleToString container)
          (muidTupleToString ⟨t, 0, 0⟩))) = true → EndsBefore t r.1 := by
    intro n k c hc r hr hin
    rw [Bool.and_eq_true, decide_eq_true_eq, decide_eq_true_eq] at hin
    obtain ⟨hkey, hm⟩ := hc.clearances r hr
    obtain ⟨hpre, hle⟩ := hin
    rw [hkey] at hpre hle ⊢
    refine (endsBefore_iff hm ⟨ht.1.le, ht.2⟩ _).mpr ?_
    unfold clearanceKey at hpre hle
    -- the key starts with the container, so it is the container's
    rw [← (startsWith_comma_iff comma_not_spelled comma_not_spelled).mp hpre] at hle
    exact joinedIds_le_joinedIds.mp hle
  have hscan := h.clearances.rowsWhere_eq
    (q := fun k => decide ((muidTupleToString container ++ comma) <+: k) &&
      decide (k ≤ joinedIds (muidTupleToString container) (muidTupleToString ⟨t, 0, 0⟩)))
    (hends h₀) (hends hc)
  rw [MemoryStore.getLastClearanceTime_eq hc (by omega) _ comma_not_spelled,
    MemoryStore.getLastClearanceTime_eq h₀ (by omega) _ comma_not_spelled,
    Table.lastWhere_eq_of_rowsWhere hscan]

/-- The rows that the loop lists. -/
def gather (containerIdStr : Str) : List (Str × Entry) → Except JsError (List (Str × Entry))
  | [] => .ok []
  | (k, entry) :: rest =>
      if muidTupleToString entry.containerId ≠ containerIdStr then .error ⟨"assert failed"⟩
      else do
        let more ← gather containerIdStr rest
        return (k.drop 35, entry) :: more

/-- **The loop** lists the rows of the container that it does not pass over. -/
theorem collect_eq (c : Contents) (containerIdStr : Str) (clearanceTime asOfTs : Int) :
    ∀ {rows : List (Str × Entry)}, rows.Pairwise (fun a b => a.1 < b.1) →
      (∀ r ∈ rows, containerIdStr ≤ r.1) →
      collect c containerIdStr clearanceTime asOfTs none rows =
        gather containerIdStr (rows.filter fun r => decide (r.1.take 34 = containerIdStr) &&
          !passesOver c clearanceTime asOfTs r.1)
  | [], _, _ => rfl
  | (k, entry) :: rest, hsorted, hlow => by
      obtain ⟨hfirst, hrest⟩ := List.pairwise_cons.mp hsorted
      have ih := collect_eq c containerIdStr clearanceTime asOfTs hrest
        fun r hr => hlow r (List.mem_cons_of_mem _ hr)
      unfold collect
      rw [if_neg (by simp)]
      by_cases hcontainer : k.take 34 = containerIdStr
      · rw [if_neg (not_not.mpr hcontainer)]
        by_cases hpasses : passesOver c clearanceTime asOfTs k = true
        · rw [if_pos hpasses, ih, List.filter_cons_of_neg (by simp [hpasses])]
        · rw [if_neg hpasses, List.filter_cons_of_pos (by simp [hcontainer, hpasses])]
          unfold gather
          rw [show (none : Option Nat).map (· - 1) = none from rfl, ih]
      · -- what comes after the container's rows is not the container's
        rw [if_pos hcontainer, List.filter_eq_nil_iff.mpr]
        · rfl
        · intro r hr hin
          rw [Bool.and_eq_true, decide_eq_true_eq] at hin
          rcases List.mem_cons.mp hr with rfl | hr
          · exact hcontainer hin.1
          · have hpre : containerIdStr <+: r.1 := hin.1 ▸ List.take_prefix _ _
            have hbetween : containerIdStr <+: k :=
              startsWith_of_le_of_le (List.prefix_refl containerIdStr) hpre
                (hlow _ List.mem_cons_self) (hfirst r hr).le
            have hlength : containerIdStr.length ≤ 34 := by
              rw [← hin.1]
              exact List.length_take_le _ _
            apply hcontainer
            have htake : k.take 34 <+: k := List.take_prefix _ _
            rcases Nat.lt_or_ge containerIdStr.length 34 with hshort | hfull
            · -- a key of fewer units would be the container itself
              have hr34 : r.1.length = containerIdStr.length := by
                have := congrArg List.length hin.1
                rw [List.length_take] at this
                omega
              have heq := hpre.eq_of_length hr34.symm
              have hkle : r.1 ≤ k := heq ▸ hlow _ List.mem_cons_self
              exact absurd (hfirst r hr) (not_lt.mpr hkle)
            · have hkeep := List.prefix_of_prefix_length_le hbetween htake (by
                rw [List.length_take]
                have := hbetween.length_le
                omega)
              refine (hkeep.eq_of_length ?_).symm
              rw [List.length_take]
              have := hbetween.length_le
              omega

/-- **The past of a `MemoryStore` stays as it is**: what it lists at a time is what it listed
when it had the bundles of before. -/
theorem AgreeBefore.getOrderedEntries_eq {n n₀ : Int} {k k₀ : Nat} (h : AgreeBefore t c₀ c)
    (h₀ : Stamped (Past n₀ k₀) c₀) (hc : Stamped (Past n k) c) (ht : 0 < t ∧ t < 16 ^ 13)
    (trxns trxns₀ : List Int) (now now₀ : Int) (container : MuidTuple) :
    getOrderedEntries c trxns now container none (some t) =
      getOrderedEntries c₀ trxns₀ now₀ container none (some t) := by
  have ht' : 0 ≤ t ∧ t < 16 ^ 13 := ⟨ht.1.le, ht.2⟩
  have hclear := h.getLastClearanceTime_eq h₀ hc ht container
  -- both stores pass over the same rows
  have hpasses : ∀ (clearanceTime : Int) {m : MuidTuple} {s : Str}, IsMuid m →
      passesOver c clearanceTime t (s ++ muidTupleToString m) =
        passesOver c₀ clearanceTime t (s ++ muidTupleToString m) := by
    intro clearanceTime m s hm
    unfold passesOver
    dsimp only
    rw [lastUnits_spelling hm, h.removed_eq h₀ hc ht' hm]
  have hvisible : ∀ {n : Int} {k : Nat} {c : Contents}, Stamped (Past n k) c →
      ∀ (clearanceTime : Int), ∀ r ∈ c.placements.rows,
      (!passesOver c clearanceTime t r.1) = true → EndsBefore t r.1 := by
    intro n k c hc clearanceTime r hr hpasses
    obtain ⟨hkey, hm⟩ := hc.placements r hr
    rw [hkey] at hpasses ⊢
    have hends := (endsBefore_iff hm ht' (muidTupleToString r.2.containerId ++ comma ++
      storageKeyToString r.2.storageKey ++ comma)).mpr
    refine hends ?_
    unfold passesOver at hpasses
    simp only [Bool.not_eq_true', Bool.or_eq_false_iff, decide_eq_false_iff_not, not_lt] at hpasses
    have hlast : lastUnits (placementKey r.2) = muidTupleToString r.2.placementId :=
      lastUnits_spelling hm.1
    rw [hlast] at hpasses
    exact hpasses.1.2
  have hlisted : ∀ clearanceTime : Int,
      (c.placements.rowsWhere fun k => decide (muidTupleToString container ≤ k)).filter
          (fun r => decide (r.1.take 34 = muidTupleToString container) &&
            !passesOver c clearanceTime t r.1) =
        (c₀.placements.rowsWhere fun k => decide (muidTupleToString container ≤ k)).filter
          (fun r => decide (r.1.take 34 = muidTupleToString container) &&
            !passesOver c₀ clearanceTime t r.1) := by
    intro clearanceTime
    refine Table.eq_of_sorted_of_mem_iff ((Table.rowsWhere_sorted _ _).filter _)
      ((Table.rowsWhere_sorted _ _).filter _) fun r => ?_
    rw [List.mem_filter, List.mem_filter, Table.mem_rowsWhere, Table.mem_rowsWhere,
      Bool.and_eq_true, Bool.and_eq_true]
    constructor
    · rintro ⟨⟨hr, hlow⟩, hcontainer, hin⟩
      have hr₀ := (h.placements r (hvisible hc clearanceTime r hr hin)).mpr hr
      obtain ⟨hkey, hm⟩ := hc.placements r hr
      refine ⟨⟨hr₀, hlow⟩, hcontainer, ?_⟩
      rw [hkey] at hin ⊢
      exact (congrArg not (hpasses clearanceTime hm.1)).symm.trans hin
    · rintro ⟨⟨hr, hlow⟩, hcontainer, hin⟩
      have hr' := (h.placements r (hvisible h₀ clearanceTime r hr hin)).mp hr
      obtain ⟨hkey, hm⟩ := h₀.placements r hr
      refine ⟨⟨hr', hlow⟩, hcontainer, ?_⟩
      rw [hkey] at hin ⊢
      exact (congrArg not (hpasses clearanceTime hm.1)).trans hin
  have hcollect : ∀ clearanceTime : Int,
      collect c (muidTupleToString container) clearanceTime t none
          (c.placements.rowsWhere fun k => decide (muidTupleToString container ≤ k)) =
        collect c₀ (muidTupleToString container) clearanceTime t none
          (c₀.placements.rowsWhere fun k => decide (muidTupleToString container ≤ k)) := by
    intro clearanceTime
    rw [collect_eq c _ _ _ (Table.rowsWhere_sorted _ _)
        (fun r hr => of_decide_eq_true (Table.mem_rowsWhere.mp hr).2),
      collect_eq c₀ _ _ _ (Table.rowsWhere_sorted _ _)
        (fun r hr => of_decide_eq_true (Table.mem_rowsWhere.mp hr).2), hlisted]
  have hasOf : ∀ trxns trxns' : List Int, asOfToTimestamp trxns t = asOfToTimestamp trxns' t ∧
      ∀ x, asOfToTimestamp trxns t = .ok x → x = t := by
    intro trxns trxns'
    unfold asOfToTimestamp IndexedDb.asOfToTimestamp
    by_cases hyear : t > IndexedDb.year2020
    · rw [if_pos hyear]
      exact ⟨by rw [if_pos hyear], fun x hx => (Except.ok.inj hx).symm⟩
    · rw [if_neg hyear, if_neg (by omega)]
      exact ⟨by rw [if_neg hyear, if_neg (by omega)], fun x hx => by cases hx⟩
  unfold getOrderedEntries
  simp only [if_neg (show t ≠ 0 by omega)]
  rw [(hasOf trxns trxns₀).1]
  cases hresolved : asOfToTimestamp trxns₀ t with
  | error e => rfl
  | ok x =>
      obtain rfl := (hasOf trxns₀ trxns₀).2 x hresolved
      show collect c _ (getLastClearanceTime c _ _) _ none _ = collect c₀ _ _ _ none _
      rw [hclear]
      exact hcollect _

end MemoryStore

end Js

end Gink
