/-
  Gink.Proto.ValueCodec — user values there and back (coding.py).

  `encode_value` looks at the type of a value, `decode_value` at the member of the `oneof`
  that is set.  Everything the first writes the second reads back, lists as tuples, by
  induction over the value.  Integers travel as decimal text, and Python writes no integer
  with more digits than `sys.get_int_max_str_digits()`, so for those nothing is written.
-/
import Gink.Proto.Coding

namespace Gink

/-! ## §1. Values. -/

/-- A `UserValue` as it is handed in.  A datetime is left out: it is encoded by way of
floating point arithmetic. -/
inductive GivenValue where
  | none
  | bool (b : Bool)
  | str (s : String)
  | bytes (b : Bytes)
  | float (bits : U64)
  | int (n : Int)
  | tuple (items : List GivenValue)
  | list (items : List GivenValue)
  | dict (items : List (UserKey × GivenValue))

mutual

/-- The value with tuples for lists. -/
def GivenValue.plain : GivenValue → UserValue
  | .none => .none
  | .bool b => .bool b
  | .str s => .str s
  | .bytes b => .bytes b
  | .float bits => .float bits
  | .int n => .int n
  | .tuple items => .tuple (plainAll items)
  | .list items => .tuple (plainAll items)
  | .dict items => .dict (plainItems items)

def plainAll : List GivenValue → List UserValue
  | [] => []
  | v :: rest => v.plain :: plainAll rest

def plainItems : List (UserKey × GivenValue) → List (UserKey × UserValue)
  | [] => []
  | (k, v) :: rest => (k, v.plain) :: plainItems rest

end

/-- The key is within the key range. -/
def UserKey.InRange : UserKey → Prop
  | .number n => n.natAbs ≤ keyMax
  | _ => True

mutual

/-- Every dict has keys of its own, all within the key range. -/
def GivenValue.Keyed : GivenValue → Prop
  | .tuple items => allKeyed items
  | .list items => allKeyed items
  | .dict items => (items.map Prod.fst).Nodup ∧ (∀ k ∈ items.map Prod.fst, k.InRange) ∧
      itemsKeyed items
  | _ => True

def allKeyed : List GivenValue → Prop
  | [] => True
  | v :: rest => v.Keyed ∧ allKeyed rest

def itemsKeyed : List (UserKey × GivenValue) → Prop
  | [] => True
  | (_, v) :: rest => v.Keyed ∧ itemsKeyed rest

end

/-! ## §2. Decimal texts. -/

/-- The decimal digits of a number; 0 has one. -/
def decimalDigits (n : Nat) : List Nat := if n = 0 then [0] else (Nat.digits 10 n).reverse

/-- `str(n)` of an int. -/
def pyStr (n : Int) : String :=
  String.ofList ((if n < 0 then ['-'] else []) ++
    (decimalDigits n.natAbs).map fun d => Char.ofNat ('0'.toNat + d))

/-- The integer has no more digits than the interpreter writes; a limit of 0 is none. -/
def WithinLimit (limit : Nat) (n : Int) : Prop :=
  limit = 0 ∨ (decimalDigits n.natAbs).length ≤ limit

instance (limit : Nat) (n : Int) : Decidable (WithinLimit limit n) :=
  inferInstanceAs (Decidable (_ ∨ _))

mutual

/-- No integer in the value is longer than the interpreter writes. -/
def GivenValue.Fits (limit : Nat) : GivenValue → Prop
  | .int n => WithinLimit limit n
  | .tuple items => allFit limit items
  | .list items => allFit limit items
  | .dict items => itemsFit limit items
  | _ => True

def allFit (limit : Nat) : List GivenValue → Prop
  | [] => True
  | v :: rest => v.Fits limit ∧ allFit limit rest

def itemsFit (limit : Nat) : List (UserKey × GivenValue) → Prop
  | [] => True
  | (_, v) :: rest => v.Fits limit ∧ itemsFit limit rest

end

/-! ## §3. Encoding. -/

/-- `encode_key(key)`: the member of the `oneof` that is set. -/
def keyBuilder (k : UserKey) : Except Error (Option UserKey) :=
  match k with
  | .number n =>
      if n.natAbs > keyMax then .error (.valueError "integer key outside of allowed range")
      else .ok (some k)
  | _ => .ok (some k)

mutual

/-- `encode_value(value)`, `limit` being `sys.get_int_max_str_digits()`. -/
def encodeValue (limit : Nat) : GivenValue → Except Error ValueBuilder
  | .bytes b => .ok (.octets b)
  | .str s => .ok (.characters s)
  | .bool b => .ok (.special (if b then 1 else 2))
  | .float bits => .ok (.floating bits)
  | .int n =>
      if WithinLimit limit n then .ok (.integer (pyStr n))
      else .error (.valueError "Exceeds the limit for integer string conversion")
  | .none => .ok (.special 3)
  | .tuple items => (encodeValues limit items).map .tuple
  | .list items => (encodeValues limit items).map .tuple
  | .dict items => (encodeItems limit items).map fun built =>
      .document (built.map Prod.fst) (built.map Prod.snd)

def encodeValues (limit : Nat) : List GivenValue → Except Error (List ValueBuilder)
  | [] => .ok []
  | v :: rest => do
      let x ← encodeValue limit v
      let xs ← encodeValues limit rest
      return x :: xs

/-- The keys and values of a document, pair by pair. -/
def encodeItems (limit : Nat) :
    List (UserKey × GivenValue) → Except Error (List (Option UserKey × ValueBuilder))
  | [] => .ok []
  | (k, v) :: rest => do
      let key ← keyBuilder k
      let x ← encodeValue limit v
      let xs ← encodeItems limit rest
      return (key, x) :: xs

end

/-! ## §4. Integers. -/

/-- A digit as it is written. -/
def decimalChar (d : Nat) : Char := Char.ofNat ('0'.toNat + d)

theorem decimalChar_digit {d : Nat} (h : d < 10) :
    (decimalChar d).isDigit = true ∧ (decimalChar d).toNat - '0'.toNat = d ∧
      (decimalChar d).isWhitespace = false ∧ decimalChar d ≠ '-' ∧ decimalChar d ≠ '+' := by
  interval_cases d <;> decide

theorem digitsValue_cons {c : Char} (h : c.isDigit = true) (rest : List Char) (acc : Nat) :
    digitsValue (c :: rest) acc = digitsValue rest (acc * 10 + (c.toNat - '0'.toNat)) := by
  conv_lhs => unfold digitsValue
  rw [if_pos h]

/-- The value of written digits. -/
theorem digitsValue_map (ds : List Nat) (acc : Nat) (h : ∀ d ∈ ds, d < 10) :
    digitsValue (ds.map decimalChar) acc = some (acc * 10 ^ ds.length + Nat.ofDigits 10 ds.reverse) := by
  induction ds generalizing acc with
  | nil => simp [digitsValue]
  | cons d ds ih =>
      obtain ⟨hdigit, hvalue, -⟩ := decimalChar_digit (h d List.mem_cons_self)
      rw [List.map_cons, digitsValue_cons hdigit, hvalue,
        ih _ fun x hx => h x (List.mem_cons_of_mem _ hx), List.reverse_cons, Nat.ofDigits_append,
        Nat.ofDigits_singleton, List.length_reverse, List.length_cons]
      congr 1
      ring

/-- The digits of a number: there are some, and they spell it. -/
theorem decimalDigits_spec (n : Nat) : decimalDigits n ≠ [] ∧ (∀ d ∈ decimalDigits n, d < 10) ∧
    Nat.ofDigits 10 (decimalDigits n).reverse = n := by
  unfold decimalDigits
  by_cases hzero : n = 0
  · rw [if_pos hzero]
    exact ⟨by simp, by simp, by simp [hzero]⟩
  · rw [if_neg hzero]
    refine ⟨?_, ?_, ?_⟩
    · rw [ne_eq, List.reverse_eq_nil_iff]
      exact Nat.digits_ne_nil_iff_ne_zero.mpr hzero
    · exact fun d hd => Nat.digits_lt_base (by decide) (List.mem_reverse.mp hd)
    · rw [List.reverse_reverse, Nat.ofDigits_digits]

theorem naturalText_digits (n : Nat) :
    naturalText ((decimalDigits n).map decimalChar) = some n := by
  obtain ⟨hne, hlt, hvalue⟩ := decimalDigits_spec n
  have hread := digitsValue_map (decimalDigits n) 0 hlt
  rw [Nat.zero_mul, Nat.zero_add, hvalue] at hread
  obtain ⟨d, rest, hds⟩ := List.exists_cons_of_ne_nil hne
  rw [hds, List.map_cons] at hread ⊢
  have hdigit := (decimalChar_digit (hlt d (hds ▸ List.mem_cons_self))).1
  unfold naturalText
  simp only [hdigit]
  exact hread

theorem dropWhile_spaceless {text : List Char} (h : ∀ c ∈ text, c.isWhitespace = false) :
    text.dropWhile Char.isWhitespace = text := by
  cases text with
  | nil => rfl
  | cons c rest => simp [h c List.mem_cons_self]

/-- **An integer reads back from its text.** -/
theorem pyInt_pyStr (n : Int) : pyInt (pyStr n) = .ok n := by
  obtain ⟨hne, hlt, -⟩ := decimalDigits_spec n.natAbs
  have hnatural := naturalText_digits n.natAbs
  have htext : (pyStr n).toList = (if n < 0 then ['-'] else []) ++
      (decimalDigits n.natAbs).map decimalChar := by
    unfold pyStr
    rw [String.toList_ofList]
    rfl
  have hspaceless : ∀ c ∈ (pyStr n).toList, c.isWhitespace = false := by
    intro c hc
    rw [htext] at hc
    rcases List.mem_append.mp hc with hc | hc
    · split_ifs at hc with hneg
      · rw [List.mem_singleton.mp hc]
        decide
      · exact absurd hc List.not_mem_nil
    · obtain ⟨d, hd, rfl⟩ := List.mem_map.mp hc
      exact (decimalChar_digit (hlt d hd)).2.2.1
  have hreverse : ∀ c ∈ (pyStr n).toList.reverse, c.isWhitespace = false :=
    fun c hc => hspaceless c (List.mem_reverse.mp hc)
  unfold pyInt
  rw [dropWhile_spaceless hspaceless, dropWhile_spaceless hreverse, List.reverse_reverse, htext]
  simp only
  by_cases hneg : n < 0
  · rw [if_pos hneg]
    simp only [List.cons_append, List.nil_append, hnatural]
    have hback : -(n.natAbs : Int) = n := by omega
    show Except.ok (-(n.natAbs : Int)) = Except.ok n
    rw [hback]
  · rw [if_neg hneg, List.nil_append]
    -- the first digit is no sign
    obtain ⟨d, rest, hds⟩ := List.exists_cons_of_ne_nil hne
    obtain ⟨-, -, -, hminus, hplus⟩ := decimalChar_digit (hlt d (hds ▸ List.mem_cons_self))
    rw [hds, List.map_cons] at hnatural ⊢
    split
    · rename_i heq
      exact absurd (List.cons.inj heq).1 hminus
    · rename_i heq
      exact absurd (List.cons.inj heq).1 hplus
    · rw [hnatural]
      have hback : (n.natAbs : Int) = n := by omega
      show Except.ok (n.natAbs : Int) = Except.ok n
      rw [hback]

/-! ## §5. Round trip. -/

theorem keyBuilder_ok {k : UserKey} (h : k.InRange) : keyBuilder k = .ok (some k) := by
  unfold keyBuilder
  cases k with
  | number n => exact if_neg (not_lt.mpr h)
  | octets b => rfl
  | characters s => rfl

theorem keyBuilder_eq_ok {k : UserKey} {key : Option UserKey} (h : keyBuilder k = .ok key) :
    key = some k := by
  unfold keyBuilder at h
  split at h
  · split_ifs at h
    cases h
    rfl
  · cases h
    rfl

/-- A new key goes to the end of a dict. -/
theorem dictSet_new {items : List (UserKey × UserValue)} {k : UserKey} (v : UserValue)
    (h : k ∉ items.map Prod.fst) : dictSet items k v = items ++ [(k, v)] := by
  unfold dictSet
  rw [if_neg]
  rw [List.any_eq_true]
  rintro ⟨item, hitem, hkey⟩
  exact h (List.mem_map.mpr ⟨item, hitem, of_decide_eq_true hkey⟩)

theorem plainItems_keys : ∀ items, (plainItems items).map Prod.fst = items.map Prod.fst
  | [] => rfl
  | (k, v) :: rest => by
      rw [plainItems, List.map_cons, List.map_cons, plainItems_keys rest]

mutual

/-- **What is encoded reads back**, lists as tuples. -/
theorem decodeValue_encodeValue {limit : Nat} : ∀ {v : GivenValue} {b : ValueBuilder}, v.Keyed →
    encodeValue limit v = .ok b → decodeValue b = .ok v.plain
  | .none, _, _, h => by cases h; rfl
  | .bool true, _, _, h => by cases h; rfl
  | .bool false, _, _, h => by cases h; rfl
  | .str _, _, _, h => by cases h; rfl
  | .bytes _, _, _, h => by cases h; rfl
  | .float _, _, _, h => by cases h; rfl
  | .int n, b, _, h => by
      unfold encodeValue at h
      split_ifs at h
      cases h
      rw [decodeValue, pyInt_pyStr]
      rfl
  | .tuple items, b, hkeyed, h => by
      obtain ⟨xs, hxs, rfl⟩ := map_eq_ok.mp h
      rw [decodeValue, decodeValues_encodeValues hkeyed hxs]
      rfl
  | .list items, b, hkeyed, h => by
      obtain ⟨xs, hxs, rfl⟩ := map_eq_ok.mp h
      rw [decodeValue, decodeValues_encodeValues hkeyed hxs]
      rfl
  | .dict items, b, hkeyed, h => by
      obtain ⟨xs, hxs, rfl⟩ := map_eq_ok.mp h
      obtain ⟨hnodup, -, hitems⟩ := hkeyed
      have hfresh : ∀ k ∈ items.map Prod.fst, k ∉ ([] : List (UserKey × UserValue)).map Prod.fst :=
        fun _ _ => List.not_mem_nil
      rw [decodeValue, decodeDocument_encodeItems hnodup hitems hfresh hxs]
      rfl

theorem decodeValues_encodeValues {limit : Nat} : ∀ {items : List GivenValue}
    {xs : List ValueBuilder}, allKeyed items → encodeValues limit items = .ok xs →
      decodeValues xs = .ok (plainAll items)
  | [], _, _, h => by cases h; rfl
  | v :: rest, xs, hkeyed, h => by
      obtain ⟨x, hx, h⟩ := bind_eq_ok.mp h
      obtain ⟨ys, hys, h⟩ := bind_eq_ok.mp h
      rw [← pure_eq_ok.mp h, decodeValues, decodeValue_encodeValue hkeyed.1 hx,
        decodeValues_encodeValues hkeyed.2 hys]
      rfl

/-- Read after some other items, a document adds its own. -/
theorem decodeDocument_encodeItems {limit : Nat} : ∀ {items : List (UserKey × GivenValue)}
    {xs : List (Option UserKey × ValueBuilder)} {acc : List (UserKey × UserValue)},
    (items.map Prod.fst).Nodup → itemsKeyed items →
    (∀ k ∈ items.map Prod.fst, k ∉ acc.map Prod.fst) → encodeItems limit items = .ok xs →
      decodeDocument (xs.map Prod.snd) (xs.map Prod.fst) acc = .ok (acc ++ plainItems items)
  | [], _, acc, _, _, _, h => by
      cases h
      rw [plainItems, List.append_nil]
      rfl
  | (k, v) :: rest, xs, acc, hnodup, hkeyed, hfresh, h => by
      obtain ⟨key, hkey, h⟩ := bind_eq_ok.mp h
      obtain ⟨x, hx, h⟩ := bind_eq_ok.mp h
      obtain ⟨ys, hys, h⟩ := bind_eq_ok.mp h
      rw [List.map_cons, List.nodup_cons] at hnodup
      have hfresh' : ∀ k' ∈ rest.map Prod.fst, k' ∉ (acc ++ [(k, v.plain)]).map Prod.fst := by
        intro k' hk' hin
        rw [List.map_append, List.mem_append] at hin
        rcases hin with hin | hin
        · exact hfresh k' (List.mem_cons_of_mem _ hk') hin
        · obtain rfl : k' = k := List.mem_singleton.mp hin
          exact hnodup.1 hk'
      rw [← pure_eq_ok.mp h, List.map_cons, List.map_cons, keyBuilder_eq_ok hkey, decodeDocument,
        decodeValue_encodeValue hkeyed.1 hx]
      show decodeDocument _ _ (dictSet acc k v.plain) = _
      rw [dictSet_new v.plain (hfresh k List.mem_cons_self),
        decodeDocument_encodeItems hnodup.2 hkeyed.2 hfresh' hys, plainItems, List.append_assoc]
      rfl

end

theorem mapped_ok_iff {α β : Type} {x : Except Error α} {f : α → β} :
    (∃ b, x.map f = .ok b) ↔ ∃ a, x = .ok a := by
  cases x with
  | error e => exact iff_of_false (fun ⟨_, h⟩ => nomatch h) (fun ⟨_, h⟩ => nomatch h)
  | ok a => exact iff_of_true ⟨_, rfl⟩ ⟨_, rfl⟩

mutual

/-- Only integers that are too long are refused. -/
theorem encodeValue_ok_iff (limit : Nat) : ∀ {v : GivenValue}, v.Keyed →
    ((∃ b, encodeValue limit v = .ok b) ↔ v.Fits limit)
  | .none, _ => iff_of_true ⟨_, rfl⟩ trivial
  | .bool _, _ => iff_of_true ⟨_, rfl⟩ trivial
  | .str _, _ => iff_of_true ⟨_, rfl⟩ trivial
  | .bytes _, _ => iff_of_true ⟨_, rfl⟩ trivial
  | .float _, _ => iff_of_true ⟨_, rfl⟩ trivial
  | .int n, _ => by
      unfold encodeValue GivenValue.Fits
      split_ifs with hfits
      · exact iff_of_true ⟨_, rfl⟩ hfits
      · refine iff_of_false ?_ hfits
        rintro ⟨b, hb⟩
        cases hb
  | .tuple items, hkeyed => by
      unfold GivenValue.Fits
      rw [← encodeValues_ok_iff limit hkeyed]
      exact mapped_ok_iff
  | .list items, hkeyed => by
      unfold GivenValue.Fits
      rw [← encodeValues_ok_iff limit hkeyed]
      exact mapped_ok_iff
  | .dict items, hkeyed => by
      unfold GivenValue.Fits
      rw [← encodeItems_ok_iff limit hkeyed.2.1 hkeyed.2.2]
      exact mapped_ok_iff

theorem encodeValues_ok_iff (limit : Nat) : ∀ {items : List GivenValue}, allKeyed items →
    ((∃ xs, encodeValues limit items = .ok xs) ↔ allFit limit items)
  | [], _ => iff_of_true ⟨_, rfl⟩ trivial
  | v :: rest, hkeyed => by
      unfold allFit
      rw [← encodeValue_ok_iff limit hkeyed.1, ← encodeValues_ok_iff limit hkeyed.2]
      constructor
      · rintro ⟨xs, h⟩
        obtain ⟨x, hx, h⟩ := bind_eq_ok.mp h
        obtain ⟨ys, hys, -⟩ := bind_eq_ok.mp h
        exact ⟨⟨x, hx⟩, ys, hys⟩
      · rintro ⟨⟨x, hx⟩, ys, hys⟩
        refine ⟨x :: ys, ?_⟩
        unfold encodeValues
        rw [hx, hys]
        rfl

theorem encodeItems_ok_iff (limit : Nat) : ∀ {items : List (UserKey × GivenValue)},
    (∀ k ∈ items.map Prod.fst, k.InRange) → itemsKeyed items →
      ((∃ xs, encodeItems limit items = .ok xs) ↔ itemsFit limit items)
  | [], _, _ => iff_of_true ⟨_, rfl⟩ trivial
  | (k, v) :: rest, hrange, hkeyed => by
      have hrest : ∀ k' ∈ rest.map Prod.fst, k'.InRange :=
        fun k' hk' => hrange k' (List.mem_cons_of_mem _ hk')
      unfold itemsFit
      rw [← encodeValue_ok_iff limit hkeyed.1, ← encodeItems_ok_iff limit hrest hkeyed.2]
      constructor
      · rintro ⟨xs, h⟩
        obtain ⟨key, -, h⟩ := bind_eq_ok.mp h
        obtain ⟨x, hx, h⟩ := bind_eq_ok.mp h
        obtain ⟨ys, hys, -⟩ := bind_eq_ok.mp h
        exact ⟨⟨x, hx⟩, ys, hys⟩
      · rintro ⟨⟨x, hx⟩, ys, hys⟩
        refine ⟨(some k, x) :: ys, ?_⟩
        unfold encodeItems
        rw [keyBuilder_ok (hrange k List.mem_cons_self), hx, hys]
        rfl

end

/-- **Values come back from their encoding**, lists as tuples, exactly when no integer in them
is longer than the interpreter writes. -/
theorem value_round_trip_iff (limit : Nat) (v : GivenValue) (hkeyed : v.Keyed) :
    (∃ b, encodeValue limit v = .ok b ∧ decodeValue b = .ok v.plain) ↔ v.Fits limit := by
  rw [← encodeValue_ok_iff limit hkeyed]
  constructor
  · rintro ⟨b, hb, -⟩
    exact ⟨b, hb⟩
  · rintro ⟨b, hb⟩
    exact ⟨b, hb, decodeValue_encodeValue hkeyed hb⟩

/-- Empty containers, a boolean beside an integer, and a dict in a tuple. -/
def nestedValue : GivenValue :=
  .tuple [.list [], .dict [], .bool true, .int 1,
    .dict [(.number 1, .int (-1)), (.characters "1", .none), (.octets [49], .tuple [])]]

theorem value_round_trip_iff_nested :
    (∃ b, encodeValue 4300 nestedValue = .ok b ∧ decodeValue b = .ok (.tuple [.tuple [], .dict [],
      .bool true, .int 1,
      .dict [(.number 1, .int (-1)), (.characters "1", .none), (.octets [49], .tuple [])]])) ↔
      nestedValue.Fits 4300 := by
  have hkeyed : nestedValue.Keyed := by
    refine ⟨trivial, ⟨List.nodup_nil, fun _ h => absurd h List.not_mem_nil, trivial⟩, trivial, trivial,
      ⟨by decide, ?_, trivial, trivial, trivial, trivial⟩, trivial⟩
    simp [UserKey.InRange, keyMax]
  exact value_round_trip_iff 4300 nestedValue hkeyed

/-- The least number of `k + 1` digits is too long for `k`. -/
theorem not_withinLimit_pow {k : Nat} (hk : 0 < k) : ¬ WithinLimit k (10 ^ k) := by
  have hpos : (10 : Nat) ^ k ≠ 0 := pow_ne_zero k (by decide)
  have hlen : (decimalDigits (10 ^ k)).length = k + 1 := by
    unfold decimalDigits
    rw [if_neg hpos, List.length_reverse, Nat.length_digits 10 _ (by decide) hpos,
      Nat.log_pow (by decide)]
  have habs : ((10 : Int) ^ k).natAbs = 10 ^ k := Int.natAbs_pow 10 k
  unfold WithinLimit
  rw [habs, hlen]
  omega

/-- An integer of 4301 digits is refused by an interpreter with the default limit. -/
theorem long_integer_refused :
    ¬ ∃ b, encodeValue 4300 (.int (10 ^ 4300)) = .ok b ∧ decodeValue b = .ok (.int (10 ^ 4300)) := by
  rintro ⟨b, hb, -⟩
  have hfits := (encodeValue_ok_iff 4300 (v := .int (10 ^ 4300)) trivial).mp ⟨b, hb⟩
  exact not_withinLimit_pow (by decide) hfits

end Gink
