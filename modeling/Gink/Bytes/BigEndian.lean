/-
  Gink.Bytes.BigEndian — fixed-width big-endian numbers.

  Every number inside an index key is packed big-endian at a fixed width, so that
  byte order is numeric order.  `beEncode w n` is that packing; the two facts used
  everywhere are that it can be read back and that it is monotone.
-/
import Gink.Bytes.Lex
import Mathlib

namespace Gink

namespace Bytes

/-- The `w` low bytes of `n`, most significant first. -/
def beEncode : Nat → Nat → Bytes
  | 0, _ => []
  | w + 1, n => Fin.ofNat 256 (n / 256 ^ w) :: beEncode w (n % 256 ^ w)

/-- The number a byte string spells, most significant byte first. -/
def beDecode (b : Bytes) : Nat := b.foldl (fun acc x => acc * 256 + x.val) 0

@[simp] theorem length_beEncode (w n : Nat) : (beEncode w n).length = w := by
  induction w generalizing n with
  | zero => rfl
  | succ w ih => simp [beEncode, ih]

theorem foldl_beDecode (b : Bytes) (acc : Nat) :
    b.foldl (fun acc x => acc * 256 + x.val) acc = acc * 256 ^ b.length + beDecode b := by
  induction b generalizing acc with
  | nil => simp [beDecode]
  | cons x b ih =>
      simp only [List.foldl_cons, beDecode, List.length_cons]
      rw [ih, ih]
      ring

theorem beDecode_cons (x : Byte) (b : Bytes) :
    beDecode (x :: b) = x.val * 256 ^ b.length + beDecode b := by
  rw [beDecode, List.foldl_cons, foldl_beDecode]
  simp

theorem beDecode_lt (b : Bytes) : beDecode b < 256 ^ b.length := by
  induction b with
  | nil => simp [beDecode]
  | cons x b ih =>
      rw [beDecode_cons, List.length_cons, pow_succ]
      have hx : x.val + 1 ≤ 256 := x.isLt
      calc x.val * 256 ^ b.length + beDecode b
          < x.val * 256 ^ b.length + 256 ^ b.length := by omega
        _ = (x.val + 1) * 256 ^ b.length := by ring
        _ ≤ 256 ^ b.length * 256 := by
            rw [mul_comm]
            exact Nat.mul_le_mul_left _ hx

/-- **Reading back**: a number that fits is recovered. -/
theorem beDecode_beEncode {w n : Nat} (h : n < 256 ^ w) : beDecode (beEncode w n) = n := by
  induction w generalizing n with
  | zero => simp at h; simp [h, beEncode, beDecode]
  | succ w ih =>
      have hpos : 0 < 256 ^ w := by positivity
      have hdiv : n / 256 ^ w < 256 := by
        rw [Nat.div_lt_iff_lt_mul hpos, mul_comm, ← pow_succ]
        exact h
      rw [beEncode, beDecode_cons, ih (Nat.mod_lt _ hpos), length_beEncode]
      simp only [Fin.val_ofNat, Nat.mod_eq_of_lt hdiv]
      rw [mul_comm]
      exact Nat.div_add_mod _ _

theorem beEncode_inj {w n m : Nat} (hn : n < 256 ^ w) (hm : m < 256 ^ w) :
    beEncode w n = beEncode w m ↔ n = m :=
  ⟨fun h => by rw [← beDecode_beEncode hn, h, beDecode_beEncode hm], fun h => h ▸ rfl⟩

/-- Packing what a `w`-byte string spells gives the string. -/
theorem beEncode_beDecode (b : Bytes) : beEncode b.length (beDecode b) = b := by
  induction b with
  | nil => rfl
  | cons x b ih =>
      have hpos : 0 < 256 ^ b.length := by positivity
      have hlt := beDecode_lt b
      rw [List.length_cons, beEncode, beDecode_cons]
      have h1 : (x.val * 256 ^ b.length + beDecode b) / 256 ^ b.length = x.val := by
        rw [mul_comm, Nat.mul_add_div hpos, Nat.div_eq_of_lt hlt, Nat.add_zero]
      have h2 : (x.val * 256 ^ b.length + beDecode b) % 256 ^ b.length = beDecode b := by
        rw [mul_comm, Nat.mul_add_mod, Nat.mod_eq_of_lt hlt]
      rw [h1, h2, ih]
      congr 1
      exact Fin.ext (by simp)

/-- **Monotonicity**: byte order is numeric order. -/
theorem beEncode_lt_iff {w n m : Nat} (hn : n < 256 ^ w) (hm : m < 256 ^ w) :
    beEncode w n < beEncode w m ↔ n < m := by
  induction w generalizing n m with
  | zero => simp at hn hm; simp [beEncode, hn, hm]
  | succ w ih =>
      have hpos : 0 < 256 ^ w := by positivity
      have hdn : n / 256 ^ w < 256 := by
        rw [Nat.div_lt_iff_lt_mul hpos, mul_comm, ← pow_succ]
        exact hn
      have hdm : m / 256 ^ w < 256 := by
        rw [Nat.div_lt_iff_lt_mul hpos, mul_comm, ← pow_succ]
        exact hm
      have en := Nat.div_add_mod n (256 ^ w)
      have em := Nat.div_add_mod m (256 ^ w)
      have ln := Nat.mod_lt n hpos
      have lm := Nat.mod_lt m hpos
      rw [beEncode, beEncode, cons_lt_cons_iff, ih ln lm, Fin.lt_def, Fin.ext_iff]
      simp only [Fin.val_ofNat, Nat.mod_eq_of_lt hdn, Nat.mod_eq_of_lt hdm]
      generalize n / 256 ^ w = qn at *
      generalize m / 256 ^ w = qm at *
      constructor
      · rintro (h | ⟨h, h'⟩)
        · have := Nat.mul_le_mul_left (256 ^ w) (Nat.succ_le_of_lt h)
          rw [Nat.mul_succ] at this
          omega
        · subst h
          omega
      · intro h
        rcases lt_trichotomy qn qm with hlt | heq | hgt
        · exact Or.inl hlt
        · subst heq
          exact Or.inr ⟨rfl, by omega⟩
        · have := Nat.mul_le_mul_left (256 ^ w) (Nat.succ_le_of_lt hgt)
          rw [Nat.mul_succ] at this
          omega

theorem beEncode_le_iff {w n m : Nat} (hn : n < 256 ^ w) (hm : m < 256 ^ w) :
    beEncode w n ≤ beEncode w m ↔ n ≤ m := by
  rw [← not_lt, ← not_lt, beEncode_lt_iff hm hn]

end Bytes

end Gink
