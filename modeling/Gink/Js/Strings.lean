/-
  Gink.Js.Strings — strings that spell muids (utils.ts).

  A string is the list of its code units, and strings compare by these.
  `muidTupleToString` spells three numbers in uppercase hexadecimal, padded to 13, 11 and
  8 digits, with dashes between.  The addresses of changes can be read back from their
  spelling, and none of these spellings starts with that of another muid.
-/
import Gink.Js.References
import Gink.Idb.Key

namespace Gink

namespace Js

/-! ## §1. Strings. -/

/-- The code units of a string. -/
abbrev Str := List Int

/-- `","`, `"-"` and `"~"`. -/
def comma : Str := [44]

def dash : Str := [45]

def tilde : Str := [126]

/-- `n.toString(16)` in uppercase, for a digit. -/
def hexDigit (n : Nat) : Int := if n < 10 then 48 + n else 55 + n

/-- `n.toString(16).toUpperCase()`. -/
def toString16 (n : Int) : Str :=
  if n = 0 then [48]
  else (if n < 0 then dash else []) ++ (Nat.digits 16 n.natAbs).reverse.map hexDigit

/-- `s.padStart(digits, "0")`. -/
def padStart (s : Str) (digits : Nat) : Str := List.replicate (digits - s.length) 48 ++ s

/-- `intToHex(value, padding)`. -/
def intToHex (value : Int) (padding : Nat) : Str :=
  let twosComplement := if value < 0 then 16 ^ padding + value else value
  padStart (toString16 twosComplement) padding

/-- `muidTupleToString(muidTuple)`. -/
def muidTupleToString (m : MuidTuple) : Str :=
  let timestamp := if m.timestamp = -1 then List.replicate 13 70 else intToHex m.timestamp 13
  timestamp ++ dash ++ intToHex m.medallion 11 ++ dash ++ intToHex m.offset 8

/-! ## §2. What the strings are made of. -/

/-- The units that spell a muid: digits, the letters A to F and the dash. -/
def Spells (u : Int) : Prop := u = 45 ∨ (48 ≤ u ∧ u ≤ 57) ∨ (65 ≤ u ∧ u ≤ 70)

theorem spells_hexDigit {n : Nat} (h : n < 16) : Spells (hexDigit n) := by
  unfold Spells hexDigit
  split_ifs <;> omega

theorem spells_toString16 {n : Int} : ∀ u ∈ toString16 n, Spells u := by
  intro u hu
  unfold toString16 at hu
  split_ifs at hu with h0 hneg
  · rw [List.mem_singleton] at hu
    exact Or.inr (Or.inl (by omega))
  · rcases List.mem_append.mp hu with hu | hu
    · exact Or.inl (List.mem_singleton.mp hu)
    · obtain ⟨d, hd, rfl⟩ := List.mem_map.mp hu
      exact spells_hexDigit (Nat.digits_lt_base (by omega) (List.mem_reverse.mp hd))
  · obtain ⟨d, hd, rfl⟩ := List.mem_map.mp hu
    exact spells_hexDigit (Nat.digits_lt_base (by omega) (List.mem_reverse.mp hd))

theorem spells_intToHex {value : Int} {padding : Nat} : ∀ u ∈ intToHex value padding, Spells u := by
  intro u hu
  unfold intToHex padStart at hu
  rcases List.mem_append.mp hu with hu | hu
  · rw [(List.mem_replicate.mp hu).2]
    exact Or.inr (Or.inl (by omega))
  · exact spells_toString16 u hu

theorem spells_muidTupleToString {m : MuidTuple} : ∀ u ∈ muidTupleToString m, Spells u := by
  have hdash : ∀ u ∈ dash, Spells u := fun u hu => Or.inl (List.mem_singleton.mp hu)
  intro u hu
  unfold muidTupleToString at hu
  simp only [List.mem_append] at hu
  rcases hu with (((hu | hu) | hu) | hu) | hu
  · split_ifs at hu
    · rw [(List.mem_replicate.mp hu).2]
      exact Or.inr (Or.inr (by omega))
    · exact spells_intToHex u hu
  · exact hdash u hu
  · exact spells_intToHex u hu
  · exact hdash u hu
  · exact spells_intToHex u hu

theorem comma_not_spelled {m : MuidTuple} : (44 : Int) ∉ muidTupleToString m := by
  intro h
  have hspells := spells_muidTupleToString 44 h
  unfold Spells at hspells
  omega

/-! ## §3. Strings cut at a separator. -/

section
variable {u : Int} {a b a' b' w : Str}

/-- A string is cut at its last separator in one way. -/
theorem cut_inj (hb : u ∉ b) (hb' : u ∉ b') (h : a ++ u :: b = a' ++ u :: b') :
    a = a' ∧ b = b' := by
  rcases List.append_eq_append_iff.mp h with ⟨c, hc, hcut⟩ | ⟨c, hc, hcut⟩
  · cases c with
    | nil =>
        rw [List.append_nil] at hc
        injection hcut with _ hcut
        exact ⟨hc.symm, hcut⟩
    | cons x c =>
        injection hcut with _ hcut
        rw [hcut] at hb
        exact absurd (List.mem_append_right _ List.mem_cons_self) hb
  · cases c with
    | nil =>
        rw [List.append_nil] at hc
        injection hcut with _ hcut
        exact ⟨hc, hcut.symm⟩
    | cons x c =>
        injection hcut with _ hcut
        rw [hcut] at hb'
        exact absurd (List.mem_append_right _ List.mem_cons_self) hb'

/-- What starts it without the separator starts the part before. -/
theorem startsWith_cut (hw : u ∉ w) (h : w <+: a ++ u :: b) : w <+: a := by
  obtain ⟨r, hr⟩ := h
  rcases List.append_eq_append_iff.mp hr with ⟨c, hc, -⟩ | ⟨c, hc, hcut⟩
  · exact ⟨c, hc.symm⟩
  · cases c with
    | nil =>
        rw [List.append_nil] at hc
        rw [hc]
    | cons x c =>
        injection hcut with hx _
        rw [hc, ← hx] at hw
        exact absurd (List.mem_append_right _ List.mem_cons_self) hw

/-- Strings between two that start with `w` start with `w`. -/
theorem startsWith_of_le_of_le :
    ∀ {w k l m : Str}, w <+: k → w <+: m → k ≤ l → l ≤ m → w <+: l
  | [], _, _, _, _, _, _, _ => List.nil_prefix
  | x :: w, k, l, m, hk, hm, hkl, hlm => by
      obtain ⟨k, rfl⟩ := hk
      obtain ⟨m, rfl⟩ := hm
      cases l with
      | nil => exact absurd hkl (not_le.mpr (List.nil_lt_cons _ _))
      | cons y l =>
          rw [← not_lt, List.cons_append, List.cons_lt_cons_iff] at hkl hlm
          push Not at hkl hlm
          obtain rfl : x = y := le_antisymm hkl.1 hlm.1
          have hl : w <+: l :=
            startsWith_of_le_of_le (List.prefix_append w k) (List.prefix_append w m)
              (hkl.2 rfl) (hlm.2 rfl)
          exact (List.prefix_cons_inj x).mpr hl

end

/-! ## §4. Their length. -/

theorem padding_le_length (value : Int) (padding : Nat) :
    padding ≤ (intToHex value padding).length := by
  unfold intToHex padStart
  simp only [List.length_append, List.length_replicate]
  omega

theorem length_intToHex {value : Int} {padding : Nat} (hpad : 0 < padding) (h0 : 0 ≤ value)
    (hlt : value < 16 ^ padding) : (intToHex value padding).length = padding := by
  have hdigits : (toString16 value).length ≤ padding := by
    unfold toString16
    by_cases hz : value = 0
    · rw [if_pos hz]
      exact Nat.succ_le_of_lt hpad
    · have hnat : value.natAbs < 16 ^ padding := by
        zify
        rwa [abs_of_nonneg h0]
      rw [if_neg hz, if_neg (by omega)]
      simp only [List.nil_append, List.length_map, List.length_reverse]
      rwa [Nat.digits_length_le_iff (by omega)]
  unfold intToHex padStart
  simp only [if_neg (not_lt.mpr h0), List.length_append, List.length_replicate]
  omega

/-- No muid is spelled by fewer than 34 units. -/
theorem length_le (m : MuidTuple) : 34 ≤ (muidTupleToString m).length := by
  have h1 := padding_le_length m.timestamp 13
  have h2 := padding_le_length m.medallion 11
  have h3 := padding_le_length m.offset 8
  unfold muidTupleToString dash
  simp only [List.length_append, List.length_singleton]
  split_ifs
  · rw [List.length_replicate]
    omega
  · omega

/-! ## §5. Reading them back. -/


/-- The value of a digit. -/
def unhexDigit (u : Int) : Nat := if u < 58 then (u - 48).toNat else (u - 55).toNat

/-- The number that a string of digits spells. -/
def hexValue (s : Str) : Nat := Nat.ofDigits 16 (s.reverse.map unhexDigit)

theorem unhexDigit_hexDigit {n : Nat} (h : n < 16) : unhexDigit (hexDigit n) = n := by
  unfold unhexDigit hexDigit
  split_ifs <;> omega

theorem hexValue_intToHex {value : Int} (padding : Nat) (h0 : 0 ≤ value) :
    hexValue (intToHex value padding) = value.toNat := by
  have hzeros : ∀ n, (List.replicate n (48 : Int)).map unhexDigit = List.replicate n 0 := by
    intro n
    rw [List.map_replicate]
    rfl
  have hdigits : Nat.ofDigits 16 ((toString16 value).reverse.map unhexDigit) = value.toNat := by
    unfold toString16
    by_cases hz : value = 0
    · rw [if_pos hz, hz]
      rfl
    · rw [if_neg hz, if_neg (by omega), List.nil_append, ← List.map_reverse, List.reverse_reverse,
        List.map_map]
      have hmap : (Nat.digits 16 value.natAbs).map (unhexDigit ∘ hexDigit)
          = Nat.digits 16 value.natAbs := by
        conv_rhs => rw [← List.map_id (Nat.digits 16 value.natAbs)]
        refine List.map_congr_left fun d hd => ?_
        exact unhexDigit_hexDigit (Nat.digits_lt_base (by omega) hd)
      rw [hmap, Nat.ofDigits_digits]
      omega
  unfold intToHex padStart hexValue
  simp only [if_neg (not_lt.mpr h0)]
  rw [List.reverse_append, List.map_append, Nat.ofDigits_append, hdigits, List.reverse_replicate,
    hzeros, Nat.ofDigits_replicate_zero]
  omega

theorem intToHex_inj {v w : Int} {padding : Nat} (hv : 0 ≤ v) (hw : 0 ≤ w)
    (h : intToHex v padding = intToHex w padding) : v = w := by
  have heq := congrArg hexValue h
  rw [hexValue_intToHex padding hv, hexValue_intToHex padding hw] at heq
  omega

/-! ## §6. Addresses of changes. -/

/-- What the address of a change is: natural numbers, the offset of 32 bits. -/
structure IsAddress (m : MuidTuple) : Prop where
  timestamp : 0 ≤ m.timestamp
  medallion : 0 ≤ m.medallion
  offset : 0 ≤ m.offset ∧ m.offset < 2 ^ 32

/-- The numbers of an address are spelled without a dash. -/
theorem dash_not_mem {value : Int} {padding : Nat} (h0 : 0 ≤ value) :
    (45 : Int) ∉ intToHex value padding := by
  have hdigit : ∀ {n : Nat}, hexDigit n ≠ 45 := by
    intro n
    unfold hexDigit
    split_ifs <;> omega
  intro h
  unfold intToHex padStart at h
  rw [if_neg (not_lt.mpr h0)] at h
  rcases List.mem_append.mp h with h | h
  · have := (List.mem_replicate.mp h).2
    omega
  · unfold toString16 at h
    rw [if_neg (not_lt.mpr h0), List.nil_append] at h
    split_ifs at h
    · have := List.mem_singleton.mp h
      omega
    · obtain ⟨d, -, hd⟩ := List.mem_map.mp h
      exact hdigit hd

theorem IsAddress.spelling {m : MuidTuple} (h : IsAddress m) :
    muidTupleToString m = (intToHex m.timestamp 13 ++ 45 :: intToHex m.medallion 11) ++
      45 :: intToHex m.offset 8 := by
  have htime := h.timestamp
  unfold muidTupleToString dash
  rw [if_neg (by omega)]
  simp only [List.append_assoc, List.cons_append, List.nil_append]

/-- **Addresses are told apart by their spelling.** -/
theorem muidTupleToString_inj {m n : MuidTuple} (hm : IsAddress m) (hn : IsAddress n)
    (h : muidTupleToString m = muidTupleToString n) : m = n := by
  rw [hm.spelling, hn.spelling] at h
  obtain ⟨hfront, ho⟩ := cut_inj (dash_not_mem hm.offset.1) (dash_not_mem hn.offset.1) h
  obtain ⟨ht, hd⟩ := cut_inj (dash_not_mem hm.medallion) (dash_not_mem hn.medallion) hfront
  have e1 := intToHex_inj hm.timestamp hn.timestamp ht
  have e2 := intToHex_inj hm.medallion hn.medallion hd
  have e3 := intToHex_inj hm.offset.1 hn.offset.1 ho
  obtain ⟨t, d, o⟩ := m
  simp only at e1 e2 e3
  rw [e1, e2, e3]

/-- **No muid's spelling starts that of an address**, unless it is the same. -/
theorem startsWith_address {m n : MuidTuple} (hn : IsAddress n)
    (h : muidTupleToString m <+: muidTupleToString n) :
    muidTupleToString m = muidTupleToString n := by
  have hlen : (intToHex n.offset 8).length = 8 :=
    length_intToHex (by omega) hn.offset.1 (by have := hn.offset.2; omega)
  obtain ⟨front, tail, hm, hfront, htail⟩ : ∃ front tail : Str,
      muidTupleToString m = front ++ 45 :: tail ∧ 1 ≤ front.count 45 ∧ 8 ≤ tail.length := by
    refine ⟨(if m.timestamp = -1 then List.replicate 13 70 else intToHex m.timestamp 13) ++ dash ++
      intToHex m.medallion 11, intToHex m.offset 8, ?_, ?_, padding_le_length _ _⟩
    · unfold muidTupleToString dash
      simp only [List.append_assoc, List.cons_append, List.nil_append]
    · rw [List.count_append, List.count_append, dash, List.count_singleton_self]
      omega
  obtain ⟨r, hr⟩ := h
  -- an address has two dashes, so none is left for what comes after the last one of the prefix
  have hnone : (45 : Int) ∉ tail ++ r := by
    have hcount := congrArg (List.count 45) hr
    rw [hm, hn.spelling] at hcount
    simp only [List.count_append, List.count_cons_self,
      List.count_eq_zero.mpr (dash_not_mem hn.timestamp),
      List.count_eq_zero.mpr (dash_not_mem hn.medallion),
      List.count_eq_zero.mpr (dash_not_mem hn.offset.1)] at hcount
    rw [← List.count_eq_zero, List.count_append]
    omega
  rw [hm, hn.spelling, List.append_assoc, List.cons_append] at hr
  obtain ⟨-, htails⟩ := cut_inj hnone (dash_not_mem hn.offset.1) hr
  have hempty : r = [] := by
    have := congrArg List.length htails
    rw [List.length_append, hlen] at this
    exact List.eq_nil_of_length_eq_zero (by omega)
  rw [hm, hn.spelling, ← hr, hempty, List.append_nil]

end Js

end Gink
