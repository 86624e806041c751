/-
  Gink.Idb.Key — the keys of IndexedDB and their order.

  A key is a number, a string, a byte string or an array of keys.  Numbers come before
  strings, strings before byte strings, byte strings before arrays; strings compare by
  UTF-16 code units, arrays element by element, a proper prefix first.  The order is read
  off a spelling: every key is written as a string of tokens, an array between an opening
  token above all others and a closing one below all others, and the spellings compare
  lexicographically.  `array_cons_lt` gives the comparison of arrays back.
-/
import Mathlib

namespace Gink

namespace Idb

/-! ## §1. Strings as code units. -/

/-- The code units of a character. -/
def utf16 (c : Char) : List Int :=
  if c.toNat < 0x10000 then [c.toNat]
  else [0xD800 + (c.toNat - 0x10000 : Nat) / 1024, 0xDC00 + (c.toNat - 0x10000 : Nat) % 1024]

/-- The code units of a string. -/
def units (s : String) : List Int := s.toList.flatMap utf16

/-- Characters that take one unit are no surrogates. -/
theorem not_surrogate (c : Char) : c.toNat < 0xD800 ∨ 0xDFFF < c.toNat ∧ c.toNat < 0x110000 := by
  have h := c.valid
  unfold UInt32.isValidChar Nat.isValidChar at h
  exact h

/-- A character can be read off the front of a string of units. -/
theorem utf16_append_inj {c d : Char} {x y : List Int} (h : utf16 c ++ x = utf16 d ++ y) :
    c = d ∧ x = y := by
  have hc := not_surrogate c
  have hd := not_surrogate d
  have heq : c.toNat = d.toNat → c = d := fun hn => Char.toNat_inj.mp hn
  unfold utf16 at h
  split_ifs at h <;>
    simp only [List.cons_append, List.nil_append, List.cons.injEq] at h
  · exact ⟨heq (by omega), h.2⟩
  · omega
  · omega
  · exact ⟨heq (by omega), h.2.2⟩

theorem utf16_ne_nil (c : Char) : utf16 c ≠ [] := by
  unfold utf16
  split_ifs
  · exact List.cons_ne_nil _ _
  · exact List.cons_ne_nil _ _

theorem flatMap_utf16_inj : ∀ {l m : List Char}, l.flatMap utf16 = m.flatMap utf16 → l = m
  | [], [], _ => rfl
  | [], d :: m, h => by
      rw [List.flatMap_nil, List.flatMap_cons] at h
      exact absurd (List.append_eq_nil_iff.mp h.symm).1 (utf16_ne_nil d)
  | c :: l, [], h => by
      rw [List.flatMap_nil, List.flatMap_cons] at h
      exact absurd (List.append_eq_nil_iff.mp h).1 (utf16_ne_nil c)
  | c :: l, d :: m, h => by
      rw [List.flatMap_cons, List.flatMap_cons] at h
      obtain ⟨rfl, hrest⟩ := utf16_append_inj h
      rw [flatMap_utf16_inj hrest]

theorem units_injective : Function.Injective units := fun _ _ h =>
  String.toList_injective (flatMap_utf16_inj h)

/-! ## §2. Keys and their spelling. -/

/-- A valid key; of the numbers that are not integers only `Infinity` is used. -/
inductive Key where
  | number (n : Int)
  | infinity
  | string (s : String)
  | binary (b : List (Fin 256))
  | array (items : List Key)

/-- A token: its rank, and what tells tokens of one rank apart. -/
abbrev Token := Nat ×ₗ List Int

/-- The token that ends an array. -/
def close : Token := toLex (0, [])

namespace Key

mutual

/-- A key as a string of tokens. -/
def spell : Key → List Token
  | number n => [toLex (1, [n])]
  | infinity => [toLex (2, [])]
  | string s => [toLex (3, units s)]
  | binary b => [toLex (4, b.map fun x => (x.val : Int))]
  | array items => toLex (5, []) :: spellAll items

/-- The elements of an array and the end of it. -/
def spellAll : List Key → List Token
  | [] => [close]
  | k :: rest => spell k ++ spellAll rest

end

/-- No key starts with the closing token. -/
theorem spell_ne_close (k : Key) (x y : List Token) : spell k ++ x ≠ close :: y := by
  intro h
  cases k <;> simp [spell, close, Prod.ext_iff] at h

mutual

/-- **A key can be read off the front** of a string of tokens. -/
theorem spell_append_inj : ∀ (a : Key) {b : Key} {x y : List Token},
    spell a ++ x = spell b ++ y → a = b ∧ x = y
  | number n, b, x, y, h => by
      cases b <;> simp_all [spell, Prod.ext_iff]
  | infinity, b, x, y, h => by
      cases b <;> simp_all [spell, Prod.ext_iff]
  | string s, b, x, y, h => by
      cases b with
      | string t =>
          simp only [spell, List.cons_append, List.nil_append, List.cons.injEq, toLex_inj,
            Prod.mk.injEq, true_and] at h
          exact ⟨congrArg string (units_injective h.1), h.2⟩
      | _ => simp [spell, Prod.ext_iff] at h
  | binary s, b, x, y, h => by
      cases b with
      | binary t =>
          simp only [spell, List.cons_append, List.nil_append, List.cons.injEq, toLex_inj,
            Prod.mk.injEq, true_and] at h
          have hinj : Function.Injective fun z : Fin 256 => (z.val : Int) := by
            intro u v huv
            exact Fin.ext (by simpa using huv)
          exact ⟨congrArg binary (List.map_injective_iff.mpr hinj h.1), h.2⟩
      | _ => simp [spell, Prod.ext_iff] at h
  | array items, b, x, y, h => by
      cases b with
      | array others =>
          simp only [spell, List.cons_append, List.cons.injEq, true_and] at h
          obtain ⟨hitems, hrest⟩ := spellAll_append_inj items h
          exact ⟨congrArg array hitems, hrest⟩
      | _ => simp [spell, Prod.ext_iff] at h

theorem spellAll_append_inj : ∀ (as : List Key) {bs : List Key} {x y : List Token},
    spellAll as ++ x = spellAll bs ++ y → as = bs ∧ x = y
  | [], [], x, y, h => by
      simp only [spellAll, List.cons_append, List.nil_append, List.cons.injEq, true_and] at h
      exact ⟨rfl, h⟩
  | [], b :: bs, x, y, h => by
      simp only [spellAll, List.cons_append, List.nil_append, List.append_assoc] at h
      exact absurd h.symm (spell_ne_close b _ _)
  | a :: as, [], x, y, h => by
      simp only [spellAll, List.cons_append, List.nil_append, List.append_assoc] at h
      exact absurd h (spell_ne_close a _ _)
  | a :: as, b :: bs, x, y, h => by
      simp only [spellAll, List.append_assoc] at h
      obtain ⟨rfl, hrest⟩ := spell_append_inj a h
      obtain ⟨rfl, hxy⟩ := spellAll_append_inj as hrest
      exact ⟨rfl, hxy⟩

end

theorem spell_injective : Function.Injective spell := by
  intro a b h
  exact (spell_append_inj a (x := []) (y := []) (by rw [h])).1

/-- Keys compare as their spellings. -/
instance : LinearOrder Key := LinearOrder.lift' spell spell_injective

theorem lt_iff_spell_lt {a b : Key} : a < b ↔ spell a < spell b := Iff.rfl

/-! ## §3. Comparing. -/

/-- Lists that differ before either ends compare there, whatever follows. -/
theorem append_lt_append_of_diverge {α : Type} [LinearOrder α] :
    ∀ {a b : List α}, ¬ a <+: b → ¬ b <+: a → ∀ x y, (a ++ x < b ++ y ↔ a < b)
  | [], _, h, _, _, _ => absurd List.nil_prefix h
  | _ :: _, [], _, h', _, _ => absurd List.nil_prefix h'
  | a :: as, b :: bs, h, h', x, y => by
      rw [List.cons_append, List.cons_append, List.cons_lt_cons_iff, List.cons_lt_cons_iff]
      by_cases hab : a = b
      · subst hab
        rw [List.prefix_cons_inj] at h h'
        rw [append_lt_append_of_diverge h h' x y]
      · simp [hab]

theorem append_lt_append_left {α : Type} [LinearOrder α] (p x y : List α) :
    p ++ x < p ++ y ↔ x < y := by
  induction p with
  | nil => rfl
  | cons a p ih =>
      rw [List.cons_append, List.cons_append, List.cons_lt_cons_iff, ih]
      simp

/-- **The first key decides**, and what follows only when it is the same. -/
theorem spell_append_lt (a b : Key) (x y : List Token) :
    spell a ++ x < spell b ++ y ↔ a < b ∨ (a = b ∧ x < y) := by
  by_cases hab : a = b
  · subst hab
    rw [append_lt_append_left]
    simp
  · have hout : ∀ c d : Key, c ≠ d → ¬ spell c <+: spell d := by
      rintro c d hcd ⟨z, hz⟩
      exact hcd (spell_append_inj c (y := []) (by rw [hz, List.append_nil])).1
    rw [append_lt_append_of_diverge (hout a b hab) (hout b a (Ne.symm hab)), lt_iff_spell_lt]
    simp [hab]

/-- **Arrays** compare element by element. -/
@[simp] theorem array_cons_lt {a b : Key} {as bs : List Key} :
    array (a :: as) < array (b :: bs) ↔ a < b ∨ (a = b ∧ array as < array bs) := by
  simp only [lt_iff_spell_lt, spell, spellAll, List.cons_lt_cons_iff, lt_irrefl, true_and,
    false_or, spell_append_lt]

@[simp] theorem array_nil_lt {b : Key} {bs : List Key} : array [] < array (b :: bs) := by
  have hhead : ∃ t rest, spell b ++ spellAll bs = t :: rest ∧ close < t := by
    have hrank : ∀ (n : Nat) (p : List Int), 0 < n → close < (toLex (n, p) : Token) :=
      fun n p hn => Prod.Lex.toLex_lt_toLex.mpr (Or.inl hn)
    cases b <;> exact ⟨_, _, rfl, hrank _ _ (by omega)⟩
  obtain ⟨t, rest, hrest, hlt⟩ := hhead
  simp only [lt_iff_spell_lt, spell, spellAll, List.cons_lt_cons_iff, lt_irrefl, true_and, false_or]
  rw [hrest]
  exact List.cons_lt_cons_iff.mpr (Or.inl hlt)

@[simp] theorem not_array_lt_nil {as : List Key} : ¬ array as < array [] := by
  cases as with
  | nil => exact lt_irrefl _
  | cons a as => exact not_lt.mpr (@array_nil_lt a as).le

@[simp] theorem number_lt_number {m n : Int} : number m < number n ↔ m < n := by
  simp [lt_iff_spell_lt, spell, List.cons_lt_cons_iff, Prod.Lex.toLex_lt_toLex]

@[simp] theorem number_lt_infinity {n : Int} : number n < infinity := by
  simp [lt_iff_spell_lt, spell, List.cons_lt_cons_iff, Prod.Lex.toLex_lt_toLex]

@[simp] theorem not_infinity_lt_number {n : Int} : ¬ infinity < number n :=
  not_lt.mpr number_lt_infinity.le

@[simp] theorem number_lt_array {n : Int} {as : List Key} : number n < array as := by
  simp [lt_iff_spell_lt, spell, List.cons_lt_cons_iff, Prod.Lex.toLex_lt_toLex]

end Key

end Idb

end Gink
