/-
  Gink.Bytes.Lex — byte strings under the order LMDB sorts its keys by.

  Keys are compared byte by byte (`memcmp`, the shorter string first when one is a
  prefix of the other), which is the lexicographic order Mathlib puts on lists.
  The facts collected here are the ones an index scan rests on: equal-length heads
  decide a comparison, and the strings that start with a given prefix form an
  interval of the order.
-/
import Mathlib

namespace Gink

abbrev Byte := Fin 256

instance neZeroByte : NeZero 256 := ⟨by decide⟩

abbrev Bytes := List Byte

namespace Bytes

/-! ## §1. Comparing concatenations. -/

theorem cons_lt_cons_iff {a b : Byte} {x y : Bytes} :
    a :: x < b :: y ↔ a < b ∨ (a = b ∧ x < y) := List.cons_lt_cons_iff

theorem not_lt_nil (x : Bytes) : ¬ x < [] := List.not_lt_nil x

theorem nil_lt_cons (a : Byte) (x : Bytes) : ([] : Bytes) < a :: x := List.nil_lt_cons a x

/-- Equal-length heads decide the comparison; on equal heads the tails do. -/
theorem append_lt_append_iff :
    ∀ {a b x y : Bytes}, a.length = b.length →
      (a ++ x < b ++ y ↔ a < b ∨ (a = b ∧ x < y))
  | [], [], x, y, _ => by simp
  | a :: as, b :: bs, x, y, h => by
      have hlen : as.length = bs.length := by simpa using h
      simp only [List.cons_append, cons_lt_cons_iff, append_lt_append_iff hlen, List.cons.injEq]
      tauto

theorem append_lt_append_left_iff (p x y : Bytes) : p ++ x < p ++ y ↔ x < y := by
  rw [append_lt_append_iff rfl]
  simp

theorem append_le_append_left_iff (p x y : Bytes) : p ++ x ≤ p ++ y ↔ x ≤ y := by
  rw [← not_lt, ← not_lt, append_lt_append_left_iff]

/-- Heads that do not continue one another decide the comparison, whatever follows. -/
theorem append_lt_append_of_diverge :
    ∀ {a b : Bytes}, ¬ a <+: b → ¬ b <+: a → ∀ x y, (a ++ x < b ++ y ↔ a < b)
  | [], _, h, _, _, _ => absurd List.nil_prefix h
  | _ :: _, [], _, h', _, _ => absurd List.nil_prefix h'
  | a :: as, b :: bs, h, h', x, y => by
      rw [List.cons_append, List.cons_append, cons_lt_cons_iff, cons_lt_cons_iff]
      by_cases hab : a = b
      · subst hab
        rw [List.prefix_cons_inj] at h h'
        rw [append_lt_append_of_diverge h h' x y]
      · simp [hab]

/-- A prefix never exceeds what it is a prefix of. -/
theorem le_append (p x : Bytes) : p ≤ p ++ x := by
  have h := (append_le_append_left_iff p [] x).mpr (not_lt.mp (not_lt_nil x))
  simpa using h

theorem le_of_isPrefix {p k : Bytes} (h : p <+: k) : p ≤ k := by
  obtain ⟨x, rfl⟩ := h
  exact le_append p x

theorem lt_of_prefix_of_ne {p k : Bytes} (h : p <+: k) (hne : p ≠ k) : p < k :=
  lt_of_le_of_ne (le_of_isPrefix h) hne

/-! ## §2. A prefix cuts out an interval. -/

/-- **Convexity**: whatever lies between two strings that start with `p` starts
with `p`. -/
theorem prefix_of_le_of_le :
    ∀ {p k l m : Bytes}, p <+: k → p <+: m → k ≤ l → l ≤ m → p <+: l
  | [], _, _, _, _, _, _, _ => List.nil_prefix
  | a :: p, k, l, m, hk, hm, hkl, hlm => by
      obtain ⟨k, rfl⟩ := hk
      obtain ⟨m, rfl⟩ := hm
      cases l with
      | nil => exact absurd hkl (not_le.mpr (nil_lt_cons _ _))
      | cons b l =>
          have h1 : ¬ (b < a ∨ (b = a ∧ l < p ++ k)) := by
            have := not_lt.mpr hkl
            rwa [List.cons_append, cons_lt_cons_iff] at this
          have h2 : ¬ (a < b ∨ (a = b ∧ p ++ m < l)) := by
            have := not_lt.mpr hlm
            rwa [List.cons_append, cons_lt_cons_iff] at this
          obtain rfl : a = b := by
            refine le_antisymm ?_ ?_
            · exact not_lt.mp fun h => h1 (Or.inl h)
            · exact not_lt.mp fun h => h2 (Or.inl h)
          have hl : p <+: l :=
            prefix_of_le_of_le (List.prefix_append p k) (List.prefix_append p m)
              (not_lt.mp fun h => h1 (Or.inr ⟨rfl, h⟩))
              (not_lt.mp fun h => h2 (Or.inr ⟨rfl, h⟩))
          exact (List.prefix_cons_inj a).mpr hl

/-- Strings that start with different strings of one length compare as these do. -/
theorem lt_of_prefix_lt {p q k l : Bytes} (hlen : p.length = q.length) (hk : p <+: k)
    (hl : q <+: l) (h : p < q) : k < l := by
  obtain ⟨k, rfl⟩ := hk
  obtain ⟨l, rfl⟩ := hl
  exact (append_lt_append_iff hlen).mpr (Or.inl h)

/-- Two equal-length prefixes of one string are equal. -/
theorem prefix_unique {p q k : Bytes} (hlen : p.length = q.length) (hp : p <+: k)
    (hq : q <+: k) : p = q :=
  (List.prefix_of_prefix_length_le hp hq hlen.le).eq_of_length hlen

/-- The string after every string that starts with `q ++ [c]`. -/
theorem lt_bump {q k : Bytes} {c d : Byte} (hcd : c < d) (hk : q ++ [c] <+: k) :
    k < q ++ [d] := by
  obtain ⟨x, rfl⟩ := hk
  rw [List.append_assoc, append_lt_append_left_iff]
  exact cons_lt_cons_iff.mpr (Or.inl hcd)

/-- Nothing lies between the strings that start with `q ++ [c]` and `q ++ [c + 1]`. -/
theorem prefix_of_lt_bump {q k l : Bytes} {c d : Byte} (hcd : d.val = c.val + 1)
    (hk : q ++ [c] <+: k) (hkl : k ≤ l) (hl : l < q ++ [d]) : q ++ [c] <+: l := by
  have hq : q <+: l :=
    prefix_of_le_of_le ((List.prefix_append q [c]).trans hk) (List.prefix_append q [d]) hkl hl.le
  obtain ⟨x, rfl⟩ := hk
  obtain ⟨y, rfl⟩ := hq
  rw [List.append_assoc, append_le_append_left_iff] at hkl
  rw [append_lt_append_left_iff] at hl
  cases y with
  | nil => exact absurd hkl (not_le.mpr (nil_lt_cons _ _))
  | cons b y =>
      rw [← not_lt, List.singleton_append, cons_lt_cons_iff] at hkl
      rw [cons_lt_cons_iff] at hl
      have hbc : b = c := by
        have h1 : ¬ b.val < c.val := fun h => hkl (Or.inl h)
        have h2 : b.val < d.val := by
          rcases hl with h | ⟨_, h⟩
          · exact h
          · exact absurd h (not_lt_nil y)
        exact Fin.ext (by omega)
      subst hbc
      exact ⟨y, by simp⟩

/-! ## §3. Strings of 0xFF bytes. -/

/-- A shorter string is below one of 0xFF bytes. -/
theorem lt_replicate_of_length_lt :
    ∀ {x : Bytes} {n : Nat}, x.length < n → x < List.replicate n 255
  | [], n + 1, _ => nil_lt_cons _ _
  | a :: x, n + 1, h => by
      rw [List.replicate_succ, cons_lt_cons_iff]
      rcases lt_or_eq_of_le (show a ≤ 255 from Fin.le_last a) with ha | ha
      · exact Or.inl ha
      · exact Or.inr ⟨ha, lt_replicate_of_length_lt (by simpa using h)⟩

theorem lt_replicate_of_head {a : Byte} {x : Bytes} {n : Nat} (ha : a < 255) :
    a :: x < List.replicate (n + 1) 255 := by
  rw [List.replicate_succ, cons_lt_cons_iff]
  exact Or.inl ha

theorem append_lt_replicate :
    ∀ {b y : Bytes} {n : Nat}, y < List.replicate n 255 → b ++ y < List.replicate (b.length + n) 255
  | [], y, n, h => by simpa using h
  | a :: b, y, n, h => by
      rw [List.length_cons, Nat.add_right_comm, List.replicate_succ, List.cons_append,
        cons_lt_cons_iff]
      rcases lt_or_eq_of_le (show a ≤ 255 from Fin.le_last a) with ha | ha
      · exact Or.inl ha
      · exact Or.inr ⟨ha, append_lt_replicate h⟩

/-- Above it are only its own continuations. -/
theorem replicate_lt_iff :
    ∀ {n : Nat} {x : Bytes},
      List.replicate n 255 < x ↔ List.replicate n 255 <+: x ∧ n < x.length
  | 0, [] => by simp
  | 0, a :: x => by simp
  | n + 1, [] => by simp [List.replicate_succ]
  | n + 1, a :: x => by
      have ha : ¬ (255 : Byte) < a := not_lt.mpr (Fin.le_last a)
      rw [List.replicate_succ, cons_lt_cons_iff, replicate_lt_iff, List.cons_prefix_cons,
        List.length_cons]
      constructor
      · rintro (h | ⟨rfl, h, hlen⟩)
        · exact absurd h ha
        · exact ⟨⟨rfl, h⟩, by omega⟩
      · rintro ⟨⟨rfl, h⟩, hlen⟩
        exact Or.inr ⟨rfl, h, by omega⟩

end Bytes

end Gink
