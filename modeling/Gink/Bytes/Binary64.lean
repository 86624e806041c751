/-
  Gink.Bytes.Binary64 — integers among the double-precision numbers.

  A number is its 64 bits: sign, exponent and fraction.  An integer becomes the nearest one,
  ties going to the even fraction; below 2^53 nothing is lost.
-/
import Mathlib

namespace Gink

namespace Binary64

/-- The biased exponent. -/
def exponent (bits : Fin (2 ^ 64)) : Nat := bits.val / 2 ^ 52 % 2 ^ 11

def fraction (bits : Fin (2 ^ 64)) : Nat := bits.val % 2 ^ 52

def isNegative (bits : Fin (2 ^ 64)) : Bool := 2 ^ 63 ≤ bits.val

/-- The integer without its sign; fractions, infinities and what is no number are none. -/
def magnitude? (bits : Fin (2 ^ 64)) : Option Nat :=
  if exponent bits = 0 then
    -- below 1 there is only zero
    if fraction bits = 0 then some 0 else none
  else if exponent bits = 2047 then none
  else if 1075 ≤ exponent bits then some ((2 ^ 52 + fraction bits) * 2 ^ (exponent bits - 1075))
  else if 2 ^ (1075 - exponent bits) ∣ 2 ^ 52 + fraction bits then
    some ((2 ^ 52 + fraction bits) / 2 ^ (1075 - exponent bits))
  else none

/-- The integer that a number is; both zeros are 0. -/
def integer? (bits : Fin (2 ^ 64)) : Option Int :=
  (magnitude? bits).map fun m : Nat => if isNegative bits then -(m : Int) else m

/-- The number is one of those integers that are told apart from their neighbours. -/
def isSafeInteger (bits : Fin (2 ^ 64)) : Bool :=
  match integer? bits with
  | some n => n.natAbs ≤ 2 ^ 53 - 1
  | none => false

/-- The exponent and fraction of the nearest number, packed. -/
def packed (m : Nat) : Nat :=
  if m = 0 then 0
  else if Nat.log2 m ≤ 52 then (1023 + Nat.log2 m) * 2 ^ 52 + (m * 2 ^ (52 - Nat.log2 m) - 2 ^ 52)
  else
    let ulp := 2 ^ (Nat.log2 m - 52)
    let up := ulp < 2 * (m % ulp) ∨ ulp = 2 * (m % ulp) ∧ m / ulp % 2 = 1
    (1023 + Nat.log2 m) * 2 ^ 52 + (m / ulp - 2 ^ 52) + if up then 1 else 0

/-- The number nearest to an integer. -/
def ofInt (n : Int) : Fin (2 ^ 64) :=
  Fin.ofNat (2 ^ 64) (packed n.natAbs + if n < 0 then 2 ^ 63 else 0)

/-! ## Integers below 2^53. -/

variable {m : Nat}

/-- The fraction with its leading 1. -/
theorem significand_range (h0 : m ≠ 0) (h : m < 2 ^ 53) : Nat.log2 m ≤ 52 ∧
    2 ^ 52 ≤ m * 2 ^ (52 - Nat.log2 m) ∧ m * 2 ^ (52 - Nat.log2 m) < 2 ^ 53 := by
  have hlow : 2 ^ Nat.log2 m ≤ m := Nat.log2_self_le h0
  have hhigh : m < 2 ^ (Nat.log2 m + 1) := Nat.lt_log2_self
  have hlog : Nat.log2 m ≤ 52 := Nat.le_of_lt_succ ((Nat.log2_lt h0).mpr h)
  have hpos : 0 < 2 ^ (52 - Nat.log2 m) := by positivity
  refine ⟨hlog, ?_, ?_⟩
  · calc 2 ^ 52 = 2 ^ Nat.log2 m * 2 ^ (52 - Nat.log2 m) := by rw [← pow_add]; congr 1; omega
      _ ≤ m * 2 ^ (52 - Nat.log2 m) := Nat.mul_le_mul_right _ hlow
  · calc m * 2 ^ (52 - Nat.log2 m) < 2 ^ (Nat.log2 m + 1) * 2 ^ (52 - Nat.log2 m) :=
          Nat.mul_lt_mul_of_pos_right hhigh hpos
      _ = 2 ^ 53 := by rw [← pow_add]; congr 1; omega

/-- What the number of a small integer is made of. -/
theorem packed_eq (h0 : m ≠ 0) (h : m < 2 ^ 53) :
    packed m = (1023 + Nat.log2 m) * 2 ^ 52 + (m * 2 ^ (52 - Nat.log2 m) - 2 ^ 52) := by
  unfold packed
  rw [if_neg h0, if_pos (significand_range h0 h).1]

theorem packed_lt (h : m < 2 ^ 53) : packed m < 2 ^ 63 := by
  by_cases h0 : m = 0
  · rw [h0]
    decide
  · have hrange := significand_range h0 h
    rw [packed_eq h0 h]
    omega

theorem val_ofInt {n : Int} (h : n.natAbs < 2 ^ 53) :
    (ofInt n).val = packed n.natAbs + if n < 0 then 2 ^ 63 else 0 := by
  have hlt := packed_lt h
  unfold ofInt
  rw [Fin.val_ofNat, Nat.mod_eq_of_lt]
  split_ifs <;> omega

/-- **No integer below 2^53 is changed.** -/
theorem integer?_ofInt {n : Int} (h : n.natAbs < 2 ^ 53) : integer? (ofInt n) = some n := by
  have hval := val_ofInt h
  have hlt := packed_lt h
  have hsign : isNegative (ofInt n) = decide (n < 0) := by
    unfold isNegative
    rw [hval]
    split_ifs with hneg
    · simp [hneg]
    · simp [hneg]
      omega
  have hmagnitude : magnitude? (ofInt n) = some n.natAbs := by
    have hexponent : exponent (ofInt n) = packed n.natAbs / 2 ^ 52 := by
      unfold exponent
      rw [hval]
      split_ifs <;> omega
    have hfraction : fraction (ofInt n) = packed n.natAbs % 2 ^ 52 := by
      unfold fraction
      rw [hval]
      split_ifs <;> omega
    generalize n.natAbs = m at h hexponent hfraction
    by_cases h0 : m = 0
    · have hzero : packed m = 0 := by rw [h0]; rfl
      unfold magnitude?
      rw [hexponent, hfraction, hzero, if_pos (by decide), if_pos (by decide), h0]
    · obtain ⟨hlog, hlow, hhigh⟩ := significand_range h0 h
      have he : exponent (ofInt n) = 1023 + Nat.log2 m := by
        rw [hexponent, packed_eq h0 h]
        omega
      have hf : 2 ^ 52 + fraction (ofInt n) = m * 2 ^ (52 - Nat.log2 m) := by
        rw [hfraction, packed_eq h0 h]
        omega
      have hshift : 1075 - exponent (ofInt n) = 52 - Nat.log2 m := by omega
      unfold magnitude?
      rw [if_neg (by omega), if_neg (by omega), hf, hshift]
      by_cases hmost : 1075 ≤ exponent (ofInt n)
      · have hlast : Nat.log2 m = 52 := by omega
        rw [if_pos hmost, he, hlast]
        simp
      · rw [if_neg hmost, if_pos (Dvd.intro_left m rfl), Nat.mul_div_cancel _ (by positivity)]
  unfold integer?
  rw [hmagnitude, hsign]
  rw [Option.map_some, Option.some.injEq]
  by_cases hneg : n < 0
  · rw [if_pos (decide_eq_true hneg)]
    omega
  · rw [if_neg (by simpa using hneg)]
    omega

theorem isSafeInteger_ofInt {n : Int} (h : n.natAbs ≤ 2 ^ 53 - 1) :
    isSafeInteger (ofInt n) = true := by
  unfold isSafeInteger
  rw [integer?_ofInt (by omega)]
  exact decide_eq_true h

theorem ofInt_inj {n k : Int} (hn : n.natAbs < 2 ^ 53) (hk : k.natAbs < 2 ^ 53)
    (h : ofInt n = ofInt k) : n = k := by
  have heq := congrArg integer? h
  rwa [integer?_ofInt hn, integer?_ofInt hk, Option.some.injEq] at heq

end Binary64

end Gink
