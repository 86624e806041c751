/-
  Gink.Js.KeyTexts — the texts that a JavaScript `MemoryStore` makes of storage keys.

  A key is followed by a comma wherever it stands.  The texts of strings and of byte strings
  end where they can be seen to end, so what follows cannot be taken for a part of them; a
  number, though, is also how the text of a pair begins.
-/
import Gink.Js.MemoryStoreAsOf

namespace Gink

namespace Js

/-! ## §1. Parts between separators. -/

section
variable {u : Int} {a a' b b' : Str}

/-- What stands before the first separator, and what after it. -/
theorem first_cut_inj (ha : u ∉ a) (ha' : u ∉ a') (h : a ++ u :: b = a' ++ u :: b') :
    a = a' ∧ b = b' := by
  have hrev := congrArg List.reverse h
  simp only [List.reverse_append, List.reverse_cons, List.append_assoc, List.cons_append,
    List.nil_append] at hrev
  obtain ⟨hb, hfront⟩ := cut_inj (by simpa using ha) (by simpa using ha') hrev
  exact ⟨List.reverse_injective hfront, List.reverse_injective hb⟩

/-- Below a separator nothing sorts: the parts before it compare first. -/
theorem separated_lt_iff : ∀ {a a' : Str}, (∀ v ∈ a, u < v) → (∀ v ∈ a', u < v) →
    (a ++ u :: b < a' ++ u :: b' ↔ a < a' ∨ a = a' ∧ b < b')
  | [], [], _, _ => by simp
  | [], v :: a', _, ha' => by
      have hv := ha' v List.mem_cons_self
      simp [List.cons_lt_cons_iff, hv]
  | v :: a, [], ha, _ => by
      have hv := ha v List.mem_cons_self
      simp [List.cons_lt_cons_iff, not_lt.mpr hv.le, hv.ne']
  | v :: a, w :: a', ha, ha' => by
      have ih := @separated_lt_iff a a' (fun x hx => ha x (List.mem_cons_of_mem _ hx))
        fun x hx => ha' x (List.mem_cons_of_mem _ hx)
      simp only [List.cons_append, List.cons_lt_cons_iff, ih, List.cons.injEq]
      tauto

/-- With a separator and more behind it a text sorts before those it sorts before itself. -/
theorem separated_le_iff (ha : ∀ v ∈ a, u < v) (ha' : ∀ v ∈ a', u < v) :
    a ++ u :: b ≤ a' ↔ a < a' := by
  induction a generalizing a' with
  | nil =>
      cases a' with
      | nil => simp
      | cons v a' =>
          have hv := ha' v List.mem_cons_self
          rw [← not_lt, List.nil_append, List.cons_lt_cons_iff]
          simp [hv.le, hv.ne']
  | cons v a ih =>
      cases a' with
      | nil => simp
      | cons w a' =>
          have hrest := @ih a' (fun x hx => ha x (List.mem_cons_of_mem _ hx))
            fun x hx => ha' x (List.mem_cons_of_mem _ hx)
          rw [← not_lt] at hrest
          rw [← not_lt, List.cons_append, List.cons_lt_cons_iff, List.cons_lt_cons_iff, ← hrest]
          constructor
          · intro h
            rcases lt_trichotomy v w with hlt | heq | hgt
            · exact Or.inl hlt
            · exact Or.inr ⟨heq, fun hlt => h (Or.inr ⟨heq.symm, hlt⟩)⟩
            · exact absurd (Or.inl hgt) h
          · intro h hnot
            rcases h with hlt | ⟨heq, hnlt⟩
            · rcases hnot with hgt | ⟨heq, -⟩
              · exact lt_asymm hlt hgt
              · exact hlt.ne' heq
            · rcases hnot with hgt | ⟨-, hlt⟩
              · exact hgt.ne' heq
              · exact hnlt hlt

end

/-! ## §2. Muids. -/

/-- The muid of a container or of what a key names: one that fits its digits, or a global
one, whose timestamp and medallion are -1. -/
def Named (m : MuidTuple) : Prop :=
  IsMuid m ∧ m.timestamp < 16 ^ 13 - 1 ∨
    m.timestamp = -1 ∧ m.medallion = -1 ∧ 0 ≤ m.offset ∧ m.offset < 16 ^ 8

theorem length_ones : (intToHex (-1) 11).length = 11 := by decide

/-- The two ways a muid is spelled. -/
theorem Named.spelling {m : MuidTuple} (h : Named m) :
    ∃ front middle : Str, front.length = 13 ∧ middle.length = 11 ∧
      muidTupleToString m = front ++ 45 :: (middle ++ 45 :: intToHex m.offset 8) ∧
      (intToHex m.offset 8).length = 8 := by
  rcases h with ⟨hm, -⟩ | ⟨htime, hmedallion, hlow, hhigh⟩
  · refine ⟨_, _, length_intToHex (by omega) hm.timestamp.1 hm.timestamp.2,
      length_intToHex (by omega) hm.medallion.1 hm.medallion.2, ?_,
      length_intToHex (by omega) hm.offset.1 hm.offset.2⟩
    rw [hm.isAddress.spelling, List.append_assoc, List.cons_append]
  · refine ⟨List.replicate 13 70, intToHex (-1) 11, List.length_replicate, length_ones, ?_,
      length_intToHex (by omega) hlow hhigh⟩
    unfold muidTupleToString dash
    rw [if_pos htime, hmedallion]
    simp

theorem Named.length {m : MuidTuple} (h : Named m) : (muidTupleToString m).length = 34 := by
  obtain ⟨front, middle, hfront, hmiddle, heq, hoffset⟩ := h.spelling
  rw [heq]
  simp [hfront, hmiddle, hoffset]

/-- A muid has a dash behind its first place. -/
theorem Named.dash_mem_tail {m : MuidTuple} (h : Named m) :
    (45 : Int) ∈ (muidTupleToString m).tail := by
  obtain ⟨front, middle, hfront, -, heq, -⟩ := h.spelling
  rw [heq]
  cases front with
  | nil => simp at hfront
  | cons u front => simp

/-- **Named muids are told apart by their spellings.** -/
theorem named_inj {m n : MuidTuple} (hm : Named m) (hn : Named n)
    (h : muidTupleToString m = muidTupleToString n) : m = n := by
  have hmixed : ∀ {m n : MuidTuple}, IsMuid m → m.timestamp < 16 ^ 13 - 1 → n.timestamp = -1 →
      muidTupleToString m ≠ muidTupleToString n := by
    intro m n hm hlt htime heq
    rw [hm.isAddress.spelling, List.append_assoc] at heq
    unfold muidTupleToString at heq
    rw [if_pos htime] at heq
    simp only [List.append_assoc] at heq
    have hfront := (List.append_inj heq
      ((length_intToHex (by omega) hm.timestamp.1 hm.timestamp.2).trans (by simp))).1
    have hvalue := congrArg hexValue hfront
    rw [hexValue_intToHex 13 hm.timestamp.1] at hvalue
    have hones : hexValue (List.replicate 13 70) = 16 ^ 13 - 1 := by decide
    have := hm.timestamp.1
    omega
  rcases hm with ⟨hm, hlt⟩ | ⟨htime, hmedallion, hlow, hhigh⟩
  · rcases hn with ⟨hn, -⟩ | ⟨htime', -, -, -⟩
    · exact muidTupleToString_inj hm.isAddress hn.isAddress h
    · exact absurd h (hmixed hm hlt htime')
  · rcases hn with ⟨hn, hlt⟩ | ⟨htime', hmedallion', hlow', hhigh'⟩
    · exact absurd h.symm (hmixed hn hlt htime)
    · unfold muidTupleToString at h
      rw [if_pos htime, if_pos htime', hmedallion, hmedallion'] at h
      have hoffset := intToHex_inj hlow hlow' (List.append_cancel_left h)
      cases m
      cases n
      simp_all

namespace MemoryStore

/-! ## §3. Numbers. -/

/-- The digits of a number, the last one first. -/
def digitUnits (n : Nat) : Str := (Nat.digits 10 n).map fun d : Nat => (48 : Int) + d

theorem mem_digitUnits {n : Nat} {u : Int} (h : u ∈ digitUnits n) : 48 ≤ u ∧ u ≤ 57 := by
  obtain ⟨d, hd, rfl⟩ := List.mem_map.mp h
  have := Nat.digits_lt_base (by norm_num : 1 < 10) hd
  omega

theorem decimal_eq (n : Int) : decimal n =
    if n = 0 then [48] else (if n < 0 then dash else []) ++ (digitUnits n.natAbs).reverse := by
  unfold decimal digitUnits
  simp [← List.map_reverse, ← List.map_eq_flatMap, Function.comp_def]

/-- A number is written with digits, after a dash if it is negative. -/
theorem mem_decimal {n u : Int} (h : u ∈ decimal n) : u = 45 ∨ 48 ≤ u ∧ u ≤ 57 := by
  rw [decimal_eq] at h
  split_ifs at h with h0 hneg
  · rw [List.mem_singleton] at h
    omega
  · rcases List.mem_append.mp h with hdash | hdigit
    · exact Or.inl (List.mem_singleton.mp hdash)
    · exact Or.inr (mem_digitUnits (List.mem_reverse.mp hdigit))
  · exact Or.inr (mem_digitUnits (List.mem_reverse.mp h))

theorem comma_not_mem_decimal {n : Int} : (44 : Int) ∉ decimal n := by
  intro h
  have := mem_decimal h
  omega

theorem comma_lt_decimal {n : Int} : ∀ u ∈ decimal n, 44 < u := by
  intro u hu
  have := mem_decimal hu
  omega

theorem digitUnits_ne_nil {n : Nat} (h : n ≠ 0) : digitUnits n ≠ [] := by
  unfold digitUnits
  rw [Ne, List.map_eq_nil_iff, Nat.digits_eq_nil_iff_eq_zero]
  exact h

theorem decimal_ne_nil (n : Int) : decimal n ≠ [] := by
  rw [decimal_eq]
  split_ifs with h0 hneg
  · exact List.cons_ne_nil _ _
  · exact List.cons_ne_nil _ _
  · rw [List.nil_append, Ne, List.reverse_eq_nil_iff]
    exact digitUnits_ne_nil (by omega)

/-- Behind the first place there is no dash. -/
theorem dash_not_mem_tail {n : Int} : (45 : Int) ∉ (decimal n).tail := by
  intro h
  rw [decimal_eq] at h
  split_ifs at h with h0 hneg
  · cases h
  · have := mem_digitUnits (List.mem_reverse.mp h)
    omega
  · have := mem_digitUnits (List.mem_reverse.mp (List.mem_of_mem_tail h))
    omega

/-- The number that digits spell, the last one first. -/
def digitValue (s : Str) : Nat := Nat.ofDigits 10 (s.map fun u => (u - 48).toNat)

theorem digitValue_digitUnits (n : Nat) : digitValue (digitUnits n) = n := by
  have hback : ∀ d : Nat, ((48 : Int) + d - 48).toNat = d := by
    intro d
    omega
  unfold digitValue digitUnits
  rw [List.map_map]
  simp only [Function.comp_def, hback, List.map_id']
  exact Nat.ofDigits_digits 10 n

/-- The number that a text spells. -/
def numeral (s : Str) : Int :=
  if s.head? = some 45 then -digitValue s.tail.reverse else digitValue s.reverse

theorem numeral_decimal (n : Int) : numeral (decimal n) = n := by
  rw [decimal_eq]
  unfold numeral
  rcases lt_trichotomy n 0 with hneg | rfl | hpos
  · rw [if_neg hneg.ne, if_pos hneg]
    show (if some (45 : Int) = some 45 then -(digitValue (digitUnits n.natAbs).reverse.reverse : Int)
      else _) = n
    rw [if_pos rfl, List.reverse_reverse, digitValue_digitUnits]
    omega
  · rfl
  · rw [if_neg hpos.ne', if_neg (not_lt.mpr hpos.le), List.nil_append, if_neg,
      List.reverse_reverse, digitValue_digitUnits]
    · omega
    · intro hhead
      have := mem_digitUnits (List.mem_reverse.mp (List.mem_of_head? hhead))
      omega

/-- **Different numbers are written differently.** -/
theorem decimal_injective : Function.Injective decimal :=
  Function.LeftInverse.injective numeral_decimal

/-- **Lists of numbers** are told apart by what they are joined to. -/
theorem joined_injective : ∀ {l l' : List Int}, joined l = joined l' → l = l'
  | [], [], _ => rfl
  | [], [n], h => absurd h.symm (decimal_ne_nil n)
  | [], n :: _ :: _, h => by
      rw [joined, joined] at h
      · simp [decimal_ne_nil] at h
      · simp
  | [n], [], h => absurd h (decimal_ne_nil n)
  | [n], [n'], h => by rw [decimal_injective h]
  | [n], n' :: m' :: l', h => by
      have hcomma : (44 : Int) ∈ joined (n' :: m' :: l') := by simp [joined, comma]
      rw [← h] at hcomma
      exact absurd hcomma comma_not_mem_decimal
  | n :: _ :: _, [], h => by
      rw [joined, joined] at h
      · simp [decimal_ne_nil] at h
      · simp
  | n :: m :: l, [n'], h => by
      have hcomma : (44 : Int) ∈ joined (n :: m :: l) := by simp [joined, comma]
      rw [h] at hcomma
      exact absurd hcomma comma_not_mem_decimal
  | n :: m :: l, n' :: m' :: l', h => by
      have hcut : decimal n ++ 44 :: joined (m :: l) = decimal n' ++ 44 :: joined (m' :: l') := by
        simpa [joined, comma] using h
      obtain ⟨hn, hrest⟩ := first_cut_inj comma_not_mem_decimal comma_not_mem_decimal hcut
      rw [decimal_injective hn, joined_injective hrest]

/-- With a comma behind they are so too, if they are of one length. -/
theorem joined_append_inj : ∀ {l l' : List Int} {x y : Str}, l.length = l'.length → l ≠ [] →
    joined l ++ 44 :: x = joined l' ++ 44 :: y → l = l'
  | [], _, _, _, _, hne, _ => absurd rfl hne
  | [n], [n'], _, _, _, _, h => by
      rw [decimal_injective (first_cut_inj comma_not_mem_decimal comma_not_mem_decimal h).1]
  | [_], n' :: m' :: l', _, _, hlength, _, _ => by simp at hlength
  | [_], [], _, _, hlength, _, _ => by simp at hlength
  | _ :: _ :: _, [], _, _, hlength, _, _ => by simp at hlength
  | _ :: _ :: _, [_], _, _, hlength, _, _ => by simp at hlength
  | n :: m :: l, n' :: m' :: l', x, y, hlength, _, h => by
      have hcut : decimal n ++ 44 :: (joined (m :: l) ++ 44 :: x) =
          decimal n' ++ 44 :: (joined (m' :: l') ++ 44 :: y) := by
        simpa [joined, comma] using h
      obtain ⟨hn, hrest⟩ := first_cut_inj comma_not_mem_decimal comma_not_mem_decimal hcut
      rw [decimal_injective hn, joined_append_inj (Nat.succ.inj hlength) (by simp) hrest]

/-- They are made of commas, dashes and digits. -/
theorem mem_joined : ∀ {l : List Int} {u : Int}, u ∈ joined l → u = 44 ∨ u = 45 ∨ 48 ≤ u ∧ u ≤ 57
  | [], _, h => absurd h List.not_mem_nil
  | [_], _, h => Or.inr (mem_decimal h)
  | n :: m :: l, u, h => by
      have hparts : u ∈ decimal n ∨ u = 44 ∨ u ∈ joined (m :: l) := by
        simpa [joined, comma] using h
      rcases hparts with hn | rfl | hrest
      · exact Or.inr (mem_decimal hn)
      · exact Or.inl rfl
      · exact mem_joined hrest

/-! ## §4. Strings. -/

/-- The number of a lower-case digit. -/
def lowerHex (u : Int) : Int := if u < 58 then u - 48 else u - 87

/-- The unit at the front of an escaped string, and what follows it. -/
def readEscaped : Str → Int × Str
  | [] => (0, [])
  | x :: rest =>
      if x ≠ 92 then (x, rest)
      else
        let y := rest.headD 0
        if y = 117 then
          (16 * lowerHex (rest.getD 3 0) + lowerHex (rest.getD 4 0), rest.drop 5)
        else if y = 98 then (8, rest.tail)
        else if y = 116 then (9, rest.tail)
        else if y = 110 then (10, rest.tail)
        else if y = 102 then (12, rest.tail)
        else if y = 114 then (13, rest.tail)
        else (y, rest.tail)

theorem readEscaped_escapeUnit {u : Int} (h : 0 ≤ u) (rest : Str) :
    readEscaped (escapeUnit u ++ rest) = (u, rest) := by
  by_cases hlow : u < 32
  · interval_cases u <;> rfl
  · unfold escapeUnit
    split_ifs with h1
    · rcases h1 with rfl | rfl <;> rfl
    all_goals first | omega | skip
    show (if u ≠ 92 then (u, rest) else _) = _
    rw [if_pos (by omega)]

/-- No escaped unit begins with a quote. -/
theorem escapeUnit_ne_quote {u : Int} (rest x : Str) : escapeUnit u ++ rest ≠ 34 :: x := by
  intro h
  unfold escapeUnit at h
  split_ifs at h with h1 h2 h3 h4 h5 h6 h7
  all_goals
    have hhead := congrArg List.head? h
    simp at hhead
  omega

/-- An escaped string ends at the first quote that is not escaped. -/
theorem escaped_inj : ∀ {us vs : List Int} {x y : Str}, (∀ u ∈ us, 0 ≤ u) → (∀ v ∈ vs, 0 ≤ v) →
    us.flatMap escapeUnit ++ 34 :: x = vs.flatMap escapeUnit ++ 34 :: y → us = vs
  | [], [], _, _, _, _, _ => rfl
  | [], v :: vs, x, y, _, _, h => by
      rw [List.flatMap_cons, List.append_assoc] at h
      exact absurd h.symm (escapeUnit_ne_quote _ _)
  | u :: us, [], x, y, _, _, h => by
      rw [List.flatMap_cons, List.append_assoc] at h
      exact absurd h (escapeUnit_ne_quote _ _)
  | u :: us, v :: vs, x, y, hus, hvs, h => by
      rw [List.flatMap_cons, List.flatMap_cons, List.append_assoc, List.append_assoc] at h
      have hread := congrArg readEscaped h
      rw [readEscaped_escapeUnit (hus u List.mem_cons_self),
        readEscaped_escapeUnit (hvs v List.mem_cons_self)] at hread
      injection hread with hu hrest
      rw [hu, escaped_inj (fun w hw => hus w (List.mem_cons_of_mem _ hw))
        (fun w hw => hvs w (List.mem_cons_of_mem _ hw)) hrest]

theorem units_nonneg {s : String} : ∀ u ∈ Idb.units s, 0 ≤ u := by
  intro u hu
  obtain ⟨c, -, hc⟩ := List.mem_flatMap.mp hu
  unfold Idb.utf16 at hc
  split_ifs at hc
  · rw [List.mem_singleton] at hc
    omega
  · simp only [List.mem_cons, List.not_mem_nil, or_false] at hc
    rcases hc with rfl | rfl <;> omega

theorem jsonString_inj {s t : String} {x y : Str} (h : jsonString s ++ x = jsonString t ++ y) :
    s = t := by
  unfold jsonString at h
  simp only [List.append_assoc, List.cons_append, List.nil_append, List.cons.injEq, true_and] at h
  exact Idb.units_injective (escaped_inj units_nonneg units_nonneg h)

end MemoryStore

/-! ## §5. Keys. -/

/-- The key names nothing, or what has a muid that can be told from its spelling. -/
def StorageKey.Named : StorageKey → Prop
  | .muid m => Js.Named m
  | _ => True

namespace MemoryStore

/-- What the text of a key, followed by a comma, can begin with. -/
def Opens (u : Int) : StorageKey → Prop
  | .characters _ => u = 34
  | .octets _ => u = 40
  | .empty => u = 44
  | _ => u = 45 ∨ 48 ≤ u ∧ u ≤ 57 ∨ 65 ≤ u ∧ u ≤ 70

theorem opens_decimal (n : Int) (x : Str) : ∃ u rest, decimal n ++ x = u :: rest ∧
    (u = 45 ∨ 48 ≤ u ∧ u ≤ 57 ∨ 65 ≤ u ∧ u ≤ 70) := by
  obtain ⟨u, rest, heq⟩ := List.exists_cons_of_ne_nil (decimal_ne_nil n)
  have hu := mem_decimal (heq ▸ List.mem_cons_self : u ∈ decimal n)
  refine ⟨u, rest ++ x, by rw [heq, List.cons_append], ?_⟩
  omega

theorem opens_key (key : StorageKey) (x : Str) :
    ∃ u rest, storageKeyToString key ++ 44 :: x = u :: rest ∧ Opens u key := by
  cases key with
  | number n => exact opens_decimal n _
  | characters s => exact ⟨34, _, rfl, rfl⟩
  | octets b => exact ⟨40, _, rfl, rfl⟩
  | empty => exact ⟨44, x, rfl, rfl⟩
  | muid m =>
      have hne : muidTupleToString m ≠ [] := by
        intro hnil
        have hlength := length_le m
        rw [hnil] at hlength
        simp at hlength
      obtain ⟨u, rest, heq⟩ := List.exists_cons_of_ne_nil hne
      have hu := spells_muidTupleToString u (heq ▸ List.mem_cons_self : u ∈ muidTupleToString m)
      refine ⟨u, rest ++ 44 :: x, ?_, hu⟩
      show muidTupleToString m ++ 44 :: x = _
      rw [heq, List.cons_append]
  | pair left rite =>
      obtain ⟨u, rest, heq, hu⟩ := opens_decimal left.timestamp
        (comma ++ joined [left.medallion, left.offset, rite.timestamp, rite.medallion, rite.offset] ++
          44 :: x)
      refine ⟨u, rest, ?_, hu⟩
      rw [← heq]
      simp [storageKeyToString, joined]

/-- A named muid is not written like a number. -/
theorem muid_ne_decimal {m : MuidTuple} (h : Named m) {n : Int} : muidTupleToString m ≠ decimal n := by
  intro heq
  have hdash := h.dash_mem_tail
  rw [heq] at hdash
  exact dash_not_mem_tail hdash

/-- The text of a pair begins with a number. -/
theorem pair_text (left rite : MuidTuple) : storageKeyToString (.pair left rite) =
    decimal left.timestamp ++ 44 :: joined [left.medallion, left.offset, rite.timestamp,
      rite.medallion, rite.offset] := by
  simp [storageKeyToString, joined, comma]

/-- **A key is not taken for another one**, except a number for the pairs whose text begins
with it. -/
theorem eq_or_pair_of_text {key key' : StorageKey} (hk : key.Named) (hk' : key'.Named) {x p : Str}
    (hp : (44 : Int) ∉ p)
    (h : storageKeyToString key ++ 44 :: x = storageKeyToString key' ++ 44 :: p) :
    key = key' ∨ ∃ left rite, key' = .pair left rite ∧ key = .number left.timestamp := by
  obtain ⟨u, rest, hu, hopens⟩ := opens_key key x
  obtain ⟨u', rest', hu', hopens'⟩ := opens_key key' p
  obtain rfl : u = u' := by
    rw [hu, hu', List.cons.injEq] at h
    exact h.1
  cases key with
  | characters s =>
      cases key' with
      | characters t => exact Or.inl (congrArg _ (jsonString_inj h))
      | _ =>
          unfold Opens at hopens hopens'
          omega
  | octets b =>
      cases key' with
      | octets b' =>
          left
          have hcut : (40 :: joined (b.map fun x => (x.val : Int))) ++ 41 :: 44 :: x =
              (40 :: joined (b'.map fun x => (x.val : Int))) ++ 41 :: 44 :: p := by
            simpa [storageKeyToString] using h
          have hparen : ∀ l : List Int, (41 : Int) ∉ 40 :: joined l := by
            intro l hin
            rcases List.mem_cons.mp hin with hin | hin
            · omega
            · have := mem_joined hin
              omega
          have heq := (first_cut_inj (hparen _) (hparen _) hcut).1
          have hvalue : Function.Injective fun x : Byte => (x.val : Int) := fun v w hvw =>
            Fin.ext (by simpa using hvw)
          rw [hvalue.list_map (joined_injective (List.cons.inj heq).2)]
      | _ =>
          unfold Opens at hopens hopens'
          omega
  | empty =>
      cases key' with
      | empty => exact Or.inl rfl
      | _ =>
          unfold Opens at hopens hopens'
          omega
  | number n =>
      cases key' with
      | number n' =>
          exact Or.inl (congrArg _ (decimal_injective
            (first_cut_inj comma_not_mem_decimal comma_not_mem_decimal h).1))
      | muid m =>
          have heq := (first_cut_inj comma_not_mem_decimal comma_not_spelled h).1
          exact absurd heq.symm (muid_ne_decimal hk')
      | pair left rite =>
          rw [pair_text, List.append_assoc] at h
          have heq := (first_cut_inj comma_not_mem_decimal comma_not_mem_decimal h).1
          exact Or.inr ⟨left, rite, rfl, congrArg _ (decimal_injective heq)⟩
      | _ =>
          unfold Opens at hopens hopens'
          omega
  | muid m =>
      cases key' with
      | number n' =>
          have heq := (first_cut_inj comma_not_spelled comma_not_mem_decimal h).1
          exact absurd heq (muid_ne_decimal hk)
      | muid m' =>
          exact Or.inl (congrArg _ (named_inj hk hk'
            (first_cut_inj comma_not_spelled comma_not_spelled h).1))
      | pair left rite =>
          rw [pair_text, List.append_assoc] at h
          have heq := (first_cut_inj comma_not_spelled comma_not_mem_decimal h).1
          exact absurd heq (muid_ne_decimal hk)
      | _ =>
          unfold Opens at hopens hopens'
          omega
  | pair left rite =>
      cases key' with
      | number n' =>
          rw [pair_text, List.append_assoc] at h
          obtain ⟨-, hrest⟩ := first_cut_inj comma_not_mem_decimal comma_not_mem_decimal h
          rw [← hrest] at hp
          exact absurd (by simp) hp
      | muid m' =>
          rw [pair_text, List.append_assoc] at h
          have heq := (first_cut_inj comma_not_mem_decimal comma_not_spelled h).1
          exact absurd heq.symm (muid_ne_decimal hk')
      | pair left' rite' =>
          have hlist : [left.timestamp, left.medallion, left.offset, rite.timestamp, rite.medallion,
              rite.offset] = [left'.timestamp, left'.medallion, left'.offset, rite'.timestamp,
              rite'.medallion, rite'.offset] :=
            joined_append_inj rfl (List.cons_ne_nil _ _) h
          simp only [List.cons.injEq, and_true] at hlist
          left
          cases left
          cases rite
          cases left'
          cases rite'
          simp_all
      | _ =>
          unfold Opens at hopens hopens'
          omega

end MemoryStore

end Js

end Gink
