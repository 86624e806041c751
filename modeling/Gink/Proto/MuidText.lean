/-
  Gink.Proto.MuidText — `Muid` objects, printed, packed and parsed (muid.py).

  An object keeps three ints.  The constructor folds the all-ones timestamp and medallion to
  -1 and offsets of the upper half of the range to negative ones; the printed form, and by
  way of it the packed one, spells the three ints modulo the sizes of their fields.  An
  offset below -2^31 is accepted as it is and printed like the one 2^32 above it, so the two
  ways out of an object come back to a different one.  For all other objects `Muid` is the
  same thing (`construct_make`, `ofMuid_plain`).
-/
import Gink.Proto.Muid
import Mathlib

namespace Gink

/-! ## §1. Hexadecimal texts. -/

/-- One digit of `hex(n)[2:].upper()`. -/
def hexChar (d : Nat) : Char := "0123456789ABCDEF".toList.getD d '0'

/-- `hex(n)[2:].upper().zfill(width)`, the digit of 0 being one of the zeros it is filled with. -/
def hexPart (width n : Nat) : List Char :=
  let digits := (Nat.digits 16 n).reverse
  (List.replicate (width - digits.length) 0 ++ digits).map hexChar

/-- The value of a digit of either case. -/
def hexValue? (c : Char) : Option Nat :=
  if '0' ≤ c ∧ c ≤ '9' then some (c.toNat - '0'.toNat)
  else if 'A' ≤ c ∧ c ≤ 'F' then some (c.toNat - 'A'.toNat + 10)
  else if 'a' ≤ c ∧ c ≤ 'f' then some (c.toNat - 'a'.toNat + 10)
  else none

/-- The value of a run of digits, single underscores allowed between them. -/
def hexDigitsValue : List Char → Nat → Option Nat
  | [], acc => some acc
  | c :: rest, acc =>
      match hexValue? c with
      | some d => hexDigitsValue rest (acc * 16 + d)
      | none => if c = '_' then match rest with
            | d :: rest' => match hexValue? d with
                | some v => hexDigitsValue rest' (acc * 16 + v)
                | none => none
            | [] => none
          else none

/-- A non-empty run of digits. -/
def hexNatural : List Char → Option Nat
  | [] => none
  | c :: rest => if (hexValue? c).isSome then hexDigitsValue (c :: rest) 0 else none

/-- Digits that may follow a base specifier. -/
def hexUnsigned (text : List Char) : Option Nat :=
  match text with
  | '0' :: c :: rest =>
      if c = 'x' ∨ c = 'X' then match rest with
        | '_' :: rest' => hexNatural rest'
        | _ => hexNatural rest
      else hexNatural ('0' :: c :: rest)
  | _ => hexNatural text

/-- Python's `int(text, 16)`: white space around, an optional sign, digits. -/
def pyHex (text : List Char) : Except Error Int :=
  let trimmed := ((text.dropWhile Char.isWhitespace).reverse.dropWhile Char.isWhitespace).reverse
  orRaise (.valueError "invalid literal for int() with base 16")
    (match trimmed with
      | '-' :: rest => (hexUnsigned rest).map (fun n => -(n : Int))
      | '+' :: rest => (hexUnsigned rest).map (fun n => (n : Int))
      | rest => (hexUnsigned rest).map (fun n => (n : Int)))

/-- A digit of either case. -/
def IsHex (c : Char) : Prop := (hexValue? c).isSome = true

instance (c : Char) : Decidable (IsHex c) := inferInstanceAs (Decidable (_ = true))

theorem hexValue?_hexChar {d : Nat} (h : d < 16) : hexValue? (hexChar d) = some d := by
  interval_cases d <;> decide

theorem hexDigitsValue_cons {c : Char} {d : Nat} (h : hexValue? c = some d) (rest : List Char)
    (acc : Nat) : hexDigitsValue (c :: rest) acc = hexDigitsValue rest (acc * 16 + d) := by
  conv_lhs => unfold hexDigitsValue
  rw [h]

/-- The value of written digits. -/
theorem hexDigitsValue_map (ds : List Nat) (rest : List Char) (acc : Nat) (h : ∀ d ∈ ds, d < 16) :
    hexDigitsValue (ds.map hexChar ++ rest) acc
      = hexDigitsValue rest (acc * 16 ^ ds.length + Nat.ofDigits 16 ds.reverse) := by
  induction ds generalizing acc with
  | nil => simp
  | cons d ds ih =>
      rw [List.map_cons, List.cons_append,
        hexDigitsValue_cons (hexValue?_hexChar (h d List.mem_cons_self)), ih _ fun x hx => h x (List.mem_cons_of_mem _ hx), List.reverse_cons, Nat.ofDigits_append,
        Nat.ofDigits_singleton, List.length_reverse, List.length_cons]
      congr 1
      ring

theorem isHex_hexChar {d : Nat} (h : d < 16) : IsHex (hexChar d) := by
  unfold IsHex
  rw [hexValue?_hexChar h]
  rfl

theorem IsHex.not_whitespace {c : Char} (h : IsHex c) : c.isWhitespace = false := by
  by_contra hne
  have hspace : c.isWhitespace = true := by simpa using hne
  unfold Char.isWhitespace at hspace
  simp only [Bool.or_eq_true, decide_eq_true_eq] at hspace
  rcases hspace with (((rfl | rfl) | rfl) | rfl) <;> exact absurd h (by decide)

theorem dropWhile_hex {text : List Char} (h : ∀ c ∈ text, IsHex c) :
    text.dropWhile Char.isWhitespace = text := by
  cases text with
  | nil => rfl
  | cons c rest => simp [(h c List.mem_cons_self).not_whitespace]

/-- **A run of digits reads as its value**: no digit is a sign, white space or the `x` of a
base specifier. -/
theorem pyHex_digits {text : List Char} {n : Nat} (hne : text ≠ []) (h : ∀ c ∈ text, IsHex c)
    (hvalue : hexDigitsValue text 0 = some n) : pyHex text = .ok n := by
  have hnatural : hexNatural text = some n := by
    cases text with
    | nil => exact absurd rfl hne
    | cons c rest =>
        have hc : (hexValue? c).isSome = true := h c List.mem_cons_self
        unfold hexNatural
        simp only [hc]
        exact hvalue
  have hunsigned : hexUnsigned text = some n := by
    unfold hexUnsigned
    split
    · rename_i c rest
      have hc := h c (by simp)
      rw [if_neg, hnatural]
      rintro (rfl | rfl) <;> exact absurd hc (by decide)
    · exact hnatural
  have hreverse : ∀ c ∈ text.reverse, IsHex c := fun c hc => h c (List.mem_reverse.mp hc)
  unfold pyHex
  rw [dropWhile_hex h, dropWhile_hex hreverse, List.reverse_reverse]
  simp only
  split
  · exact absurd (h _ List.mem_cons_self) (by decide)
  · exact absurd (h _ List.mem_cons_self) (by decide)
  · rw [hunsigned]
    rfl

/-- The digits that are written. -/
theorem hexPart_digits {width n : Nat} (hn : n < 16 ^ width) :
    ∃ ds : List Nat, hexPart width n = ds.map hexChar ∧ ds.length = width ∧ (∀ d ∈ ds, d < 16) ∧
      Nat.ofDigits 16 ds.reverse = n := by
  have hlen : (Nat.digits 16 n).length ≤ width := Nat.digits_length_le_iff (by decide) n |>.mpr hn
  refine ⟨List.replicate (width - (Nat.digits 16 n).reverse.length) 0 ++ (Nat.digits 16 n).reverse,
    rfl, ?_, ?_, ?_⟩
  · simp only [List.length_append, List.length_replicate, List.length_reverse]
    omega
  · intro d hd
    rcases List.mem_append.mp hd with hd | hd
    · rw [List.eq_of_mem_replicate hd]
      decide
    · exact Nat.digits_lt_base (by decide) (List.mem_reverse.mp hd)
  · rw [List.reverse_append, List.reverse_reverse, List.reverse_replicate,
      Nat.ofDigits_append_replicate_zero, Nat.ofDigits_digits]

theorem length_hexPart {width n : Nat} (hn : n < 16 ^ width) : (hexPart width n).length = width := by
  obtain ⟨ds, hds, hlen, -, -⟩ := hexPart_digits hn
  rw [hds, List.length_map, hlen]

theorem isHex_of_mem_hexPart {width n : Nat} (hn : n < 16 ^ width) :
    ∀ c ∈ hexPart width n, IsHex c := by
  obtain ⟨ds, hds, -, hlt, -⟩ := hexPart_digits hn
  intro c hc
  rw [hds] at hc
  obtain ⟨d, hd, rfl⟩ := List.mem_map.mp hc
  exact isHex_hexChar (hlt d hd)

/-- The value of written numbers, one after the other. -/
theorem hexDigitsValue_hexPart {width n : Nat} (hn : n < 16 ^ width) (rest : List Char) (acc : Nat) :
    hexDigitsValue (hexPart width n ++ rest) acc = hexDigitsValue rest (acc * 16 ^ width + n) := by
  obtain ⟨ds, hds, hlen, hlt, hvalue⟩ := hexPart_digits hn
  rw [hds, hexDigitsValue_map ds rest acc hlt, hlen, hvalue]

/-- **A written number reads back.** -/
theorem pyHex_hexPart {width n : Nat} (hpos : 0 < width) (hn : n < 16 ^ width) :
    pyHex (hexPart width n) = .ok n := by
  have hne : hexPart width n ≠ [] := by
    rw [← List.length_pos_iff, length_hexPart hn]
    exact hpos
  have hvalue := hexDigitsValue_hexPart hn [] 0
  rw [List.append_nil, Nat.zero_mul, Nat.zero_add] at hvalue
  exact pyHex_digits hne (isHex_of_mem_hexPart hn) hvalue

/-! ## §2. Objects. -/

/-- A `Muid` object; no bundler is behind it. -/
structure MuidObject where
  timestamp : Int
  medallion : Int
  offset : Int
  deriving DecidableEq, Repr

/-- `UUID(text).bytes` of a text without `urn:` and braces. -/
def uuidBytes (text : String) : Except Error Bytes := do
  let hex := text.toList.filter (· ≠ '-')
  ensure (hex.length = 32) (.valueError "badly formed hexadecimal UUID string")
  let n ← pyHex hex
  return Bytes.beEncode 16 n.toNat

namespace MuidObject

/-- `Muid(timestamp, medallion, offset)`. -/
def construct (timestamp medallion offset : Int) : Except Error MuidObject := do
  ensure (!(timestamp ≥ 2 ^ 52 || timestamp < -1)) (.valueError "timestamp out of range")
  ensure (!(medallion ≥ 2 ^ 44 || medallion < -1)) (.valueError "medallion out of range")
  ensure (!(offset ≥ 2 ^ 32 || offset ≤ -2 ^ 32)) (.valueError "offset out of range")
  return {
    timestamp := if timestamp = 2 ^ 52 - 1 then -1 else timestamp
    medallion := if medallion = 2 ^ 44 - 1 then -1 else medallion
    offset := if offset < 2 ^ 31 then offset else offset - 2 ^ 32 }

/-- `str(muid)`. -/
def str (m : MuidObject) : String :=
  String.ofList (hexPart 13 (m.timestamp % 2 ^ 52).toNat ++ '-' ::
    (hexPart 11 (m.medallion % 2 ^ 44).toNat ++ '-' :: hexPart 8 (m.offset % 2 ^ 32).toNat))

/-- `bytes(muid)`. -/
def toBytes (m : MuidObject) : Except Error Bytes := uuidBytes m.str

/-- `Muid.from_str(hexed)`. -/
def fromStr (hexed : String) : Except Error MuidObject := do
  ensure ((hexed.toList.filter (· ≠ '-')).length = 32) (.valueError "doesn't look like a valid muid")
  match hexed.toList.splitOn '-' with
  | [time, medallion, offset] => do
      let time ← pyHex time
      let medallion ← pyHex medallion
      let offset ← pyHex offset
      construct time medallion offset
  | _ => .error (.assertionError "len(parts) == 3")

/-- `Muid.from_bytes(data)`. -/
def fromBytes (data : Bytes) : Except Error MuidObject := do
  ensure (data.length = 16) (.valueError "expect a muid to be 16 bytes")
  let total := Bytes.beDecode data
  let rest := total / 2 ^ 32
  construct (rest / 2 ^ 44 : Nat) (rest % 2 ^ 44 : Nat) (total % 2 ^ 32 : Nat)

/-- `Muid.__lt__`: the triples of the fields modulo their sizes. -/
def Less (m n : MuidObject) : Prop :=
  m.timestamp % 2 ^ 52 < n.timestamp % 2 ^ 52 ∨ (m.timestamp % 2 ^ 52 = n.timestamp % 2 ^ 52 ∧
    (m.medallion % 2 ^ 44 < n.medallion % 2 ^ 44 ∨ (m.medallion % 2 ^ 44 = n.medallion % 2 ^ 44 ∧
      m.offset % 2 ^ 32 < n.offset % 2 ^ 32)))

instance (m n : MuidObject) : Decidable (m.Less n) := inferInstanceAs (Decidable (_ ∨ _))

/-! ## §3. Objects and addresses. -/

/-- The address an object spells. -/
def plain (m : MuidObject) : Muid :=
  ⟨Muid.field _ m.timestamp, Muid.field _ m.medallion, Muid.field _ m.offset⟩

/-- The object of an address. -/
def ofMuid (m : Muid) : MuidObject := ⟨m.timestamp, m.medallion, m.offset⟩

theorem construct_eq_ok {t d o : Int} {m : MuidObject} :
    construct t d o = .ok m ↔ (-1 ≤ t ∧ t < 2 ^ 52) ∧ (-1 ≤ d ∧ d < 2 ^ 44) ∧
      (-2 ^ 32 < o ∧ o < 2 ^ 32) ∧ m = ⟨if t = 2 ^ 52 - 1 then -1 else t,
        if d = 2 ^ 44 - 1 then -1 else d, if o < 2 ^ 31 then o else o - 2 ^ 32⟩ := by
  simp only [construct, bind_eq_ok, ensure_eq_ok, pure_eq_ok]
  simp only [ge_iff_le, Bool.not_eq_true', Bool.or_eq_false_iff, decide_eq_false_iff_not,
    exists_and_left, exists_const]
  constructor
  · rintro ⟨h1, h2, h3, rfl⟩
    exact ⟨⟨by omega, by omega⟩, ⟨by omega, by omega⟩, ⟨by omega, by omega⟩, rfl⟩
  · rintro ⟨h1, h2, h3, rfl⟩
    exact ⟨⟨by omega, by omega⟩, ⟨by omega, by omega⟩, ⟨by omega, by omega⟩, rfl⟩

theorem field_congr {w : Nat} [NeZero w] {a b : Int} (h : a % w = b % w) :
    Muid.field w a = Muid.field w b := by
  unfold Muid.field
  rw [h]

/-- Elsewhere in this development the three numbers make the address they spell. -/
theorem construct_make {t d o : Int} {m : MuidObject} (h : construct t d o = .ok m) :
    Muid.make t d o = .ok m.plain := by
  obtain ⟨ht, hd, ho, rfl⟩ := construct_eq_ok.mp h
  refine Muid.make_eq_ok.mpr ⟨ht, hd, ho, ?_⟩
  unfold plain
  simp only [Muid.mk.injEq]
  refine ⟨field_congr ?_, field_congr ?_, field_congr ?_⟩
  · push_cast
    split_ifs <;> omega
  · push_cast
    split_ifs <;> omega
  · push_cast
    split_ifs <;> omega

/-- The numbers an address spells make its object. -/
theorem construct_fields (m : Muid) :
    construct m.timeField.val m.medallionField.val m.offsetField.val = .ok (ofMuid m) := by
  have h1 := m.timeField.isLt
  have h2 := m.medallionField.isLt
  have h3 := m.offsetField.isLt
  refine construct_eq_ok.mpr ⟨by omega, by omega, by omega, ?_⟩
  unfold ofMuid Muid.timestamp Muid.medallion Muid.offset
  simp only [MuidObject.mk.injEq]
  refine ⟨?_, ?_, ?_⟩
  · split_ifs <;> omega
  · split_ifs <;> omega
  · split_ifs <;> omega

/-- An object is that of its address unless its offset is too low. -/
theorem ofMuid_plain {t d o : Int} {m : MuidObject} (h : construct t d o = .ok m) :
    ofMuid m.plain = m ↔ -2 ^ 31 ≤ o := by
  obtain ⟨ht, hd, ho, rfl⟩ := construct_eq_ok.mp h
  have e1 : ((Muid.field (2 ^ 52) (if t = 2 ^ 52 - 1 then -1 else t)).val : Int)
      = (if t = 2 ^ 52 - 1 then -1 else t) % 2 ^ 52 := Muid.val_field _ _
  have e2 : ((Muid.field (2 ^ 44) (if d = 2 ^ 44 - 1 then -1 else d)).val : Int)
      = (if d = 2 ^ 44 - 1 then -1 else d) % 2 ^ 44 := Muid.val_field _ _
  have e3 : ((Muid.field (2 ^ 32) (if o < 2 ^ 31 then o else o - 2 ^ 32)).val : Int)
      = (if o < 2 ^ 31 then o else o - 2 ^ 32) % 2 ^ 32 := Muid.val_field _ _
  unfold ofMuid plain Muid.timestamp Muid.medallion Muid.offset
  simp only
  generalize Muid.field (2 ^ 52) _ = f1 at e1 ⊢
  generalize Muid.field (2 ^ 44) _ = f2 at e2 ⊢
  generalize Muid.field (2 ^ 32) _ = f3 at e3 ⊢
  simp only [MuidObject.mk.injEq]
  constructor
  · rintro ⟨-, -, h3⟩
    split_ifs at h3 e3 <;> omega
  · intro hlow
    refine ⟨?_, ?_, ?_⟩
    · split_ifs at e1 ⊢ <;> omega
    · split_ifs at e2 ⊢ <;> omega
    · split_ifs at e3 ⊢ <;> omega

/-! ## §4. Round trips. -/

/-- The three numbers that are printed. -/
theorem fields_lt (m : Muid) : m.timeField.val < 16 ^ 13 ∧ m.medallionField.val < 16 ^ 11 ∧
    m.offsetField.val < 16 ^ 8 :=
  ⟨m.timeField.isLt, m.medallionField.isLt, m.offsetField.isLt⟩

/-- The printed form is that of the address. -/
theorem str_toList (m : MuidObject) : m.str.toList =
    hexPart 13 m.plain.timeField.val ++ '-' ::
      (hexPart 11 m.plain.medallionField.val ++ '-' :: hexPart 8 m.plain.offsetField.val) := by
  have h1 : (m.plain.timeField.val : Int) = m.timestamp % 2 ^ 52 := Muid.val_field _ _
  have h2 : (m.plain.medallionField.val : Int) = m.medallion % 2 ^ 44 := Muid.val_field _ _
  have h3 : (m.plain.offsetField.val : Int) = m.offset % 2 ^ 32 := Muid.val_field _ _
  unfold str
  rw [String.toList_ofList, ← h1, ← h2, ← h3]
  simp only [Int.toNat_natCast]

/-- The length that `__str__` asserts. -/
theorem length_str (m : MuidObject) : m.str.toList.length = 34 := by
  obtain ⟨h1, h2, h3⟩ := fields_lt m.plain
  rw [str_toList]
  simp only [List.length_append, List.length_cons, length_hexPart h1, length_hexPart h2,
    length_hexPart h3]

theorem not_dash {width n : Nat} (hn : n < 16 ^ width) : ∀ c ∈ hexPart width n, c ≠ '-' := by
  rintro c hc rfl
  exact absurd (isHex_of_mem_hexPart hn _ hc) (by decide)

/-- The digits without the dashes. -/
theorem str_digits (m : MuidObject) : m.str.toList.filter (· ≠ '-') =
    hexPart 13 m.plain.timeField.val ++ (hexPart 11 m.plain.medallionField.val ++
      hexPart 8 m.plain.offsetField.val) := by
  obtain ⟨h1, h2, h3⟩ := fields_lt m.plain
  have hkeep {width n : Nat} (hn : n < 16 ^ width) :
      (hexPart width n).filter (· ≠ '-') = hexPart width n :=
    List.filter_eq_self.mpr fun c hc => by simpa using not_dash hn c hc
  rw [str_toList]
  simp only [List.filter_append, List.filter_cons, hkeep h1, hkeep h2, hkeep h3]
  rfl

/-- The packed form is that of the address. -/
theorem toBytes_eq (m : MuidObject) : m.toBytes = .ok m.plain.toBytes := by
  obtain ⟨h1, h2, h3⟩ := fields_lt m.plain
  have hlen : (m.str.toList.filter (· ≠ '-')).length = 32 := by
    rw [str_digits]
    simp only [List.length_append, length_hexPart h1, length_hexPart h2, length_hexPart h3]
  have hhex : ∀ c ∈ m.str.toList.filter (· ≠ '-'), IsHex c := by
    intro c hc
    rw [str_digits] at hc
    rcases List.mem_append.mp hc with hc | hc
    · exact isHex_of_mem_hexPart h1 c hc
    · rcases List.mem_append.mp hc with hc | hc
      · exact isHex_of_mem_hexPart h2 c hc
      · exact isHex_of_mem_hexPart h3 c hc
  have hvalue : hexDigitsValue (m.str.toList.filter (· ≠ '-')) 0 = some m.plain.toNat := by
    rw [str_digits, hexDigitsValue_hexPart h1, hexDigitsValue_hexPart h2]
    have hlast := hexDigitsValue_hexPart h3 []
    rw [List.append_nil] at hlast
    rw [hlast]
    refine congrArg some ?_
    unfold Muid.toNat
    omega
  have hne : m.str.toList.filter (· ≠ '-') ≠ [] := by
    intro hnil
    rw [hnil] at hlen
    exact absurd hlen (by decide)
  unfold toBytes uuidBytes
  simp only [hlen, pyHex_digits hne hhex hvalue]
  rfl

/-- What is unpacked is the object of the address. -/
theorem fromBytes_toBytes (m : Muid) : fromBytes m.toBytes = .ok (ofMuid m) := by
  have h1 := m.timeField.isLt
  have h2 := m.medallionField.isLt
  have h3 := m.offsetField.isLt
  have htotal : Bytes.beDecode m.toBytes = m.toNat := Bytes.beDecode_beEncode m.toNat_lt
  have htime : m.toNat / 2 ^ 32 / 2 ^ 44 = m.timeField.val := by
    unfold Muid.toNat
    omega
  have hmedallion : m.toNat / 2 ^ 32 % 2 ^ 44 = m.medallionField.val := by
    unfold Muid.toNat
    omega
  have hoffset : m.toNat % 2 ^ 32 = m.offsetField.val := by
    unfold Muid.toNat
    omega
  unfold fromBytes
  simp only [Muid.length_toBytes, htotal, htime, hmedallion, hoffset]
  exact construct_fields m

/-- What is parsed is the object of the address. -/
theorem fromStr_str (m : MuidObject) : fromStr m.str = .ok (ofMuid m.plain) := by
  obtain ⟨h1, h2, h3⟩ := fields_lt m.plain
  have hlen : (m.str.toList.filter (· ≠ '-')).length = 32 := by
    rw [str_digits]
    simp only [List.length_append, length_hexPart h1, length_hexPart h2, length_hexPart h3]
  have hsplit : m.str.toList.splitOn '-' = [hexPart 13 m.plain.timeField.val,
      hexPart 11 m.plain.medallionField.val, hexPart 8 m.plain.offsetField.val] := by
    have hdigits {width n : Nat} (hn : n < 16 ^ width) :
        ∀ c ∈ hexPart width n, (c == '-') = false := fun c hc => by simpa using not_dash hn c hc
    rw [str_toList, List.splitOn, List.splitOnP_append_cons_of_forall_mem (hdigits h1) '-' rfl,
      List.splitOnP_append_cons_of_forall_mem (hdigits h2) '-' rfl,
      List.splitOnP_eq_singleton (hdigits h3)]
  unfold fromStr
  simp only [hlen, hsplit, pyHex_hexPart (by decide) h1, pyHex_hexPart (by decide) h2,
    pyHex_hexPart (by decide) h3]
  exact construct_fields m.plain

/-! ## §5. How the representations agree. -/

theorem less_iff (m n : MuidObject) : m.Less n ↔ m.plain < n.plain := by
  have h1 : (m.plain.timeField.val : Int) = m.timestamp % 2 ^ 52 := Muid.val_field _ _
  have h2 : (m.plain.medallionField.val : Int) = m.medallion % 2 ^ 44 := Muid.val_field _ _
  have h3 : (m.plain.offsetField.val : Int) = m.offset % 2 ^ 32 := Muid.val_field _ _
  have h1' : (n.plain.timeField.val : Int) = n.timestamp % 2 ^ 52 := Muid.val_field _ _
  have h2' : (n.plain.medallionField.val : Int) = n.medallion % 2 ^ 44 := Muid.val_field _ _
  have h3' : (n.plain.offsetField.val : Int) = n.offset % 2 ^ 32 := Muid.val_field _ _
  rw [Muid.lt_iff_toNat_lt, Muid.toNat_lt_iff]
  unfold Less
  simp only [Fin.lt_def, Fin.ext_iff]
  omega

/-- What unpacking and parsing say of an object is the object. -/
def ReadsBack (m : MuidObject) : Prop :=
  (∃ data, m.toBytes = .ok data ∧ fromBytes data = .ok m) ∧ fromStr m.str = .ok m

/-- **The representations of two objects agree**: each reads back from its packed and its
printed form, and they compare as their packed forms do. -/
def Agree (m n : MuidObject) : Prop :=
  m.ReadsBack ∧ n.ReadsBack ∧ ∃ data data', m.toBytes = .ok data ∧ n.toBytes = .ok data' ∧
    (m.Less n ↔ data < data') ∧ (m = n ↔ data = data')

theorem readsBack_iff {t d o : Int} {m : MuidObject} (h : construct t d o = .ok m) :
    m.ReadsBack ↔ -2 ^ 31 ≤ o := by
  rw [← ofMuid_plain h]
  constructor
  · rintro ⟨-, hparsed⟩
    rw [fromStr_str] at hparsed
    exact Except.ok.inj hparsed
  · intro hsame
    refine ⟨⟨_, toBytes_eq m, ?_⟩, ?_⟩
    · rw [fromBytes_toBytes, hsame]
    · rw [fromStr_str, hsame]

/-- **The representations of accepted objects agree exactly when no offset is below -2^31.** -/
theorem representations_agree_iff (t d o t' d' o' : Int) (m n : MuidObject)
    (hm : construct t d o = .ok m) (hn : construct t' d' o' = .ok n) :
    Agree m n ↔ -2 ^ 31 ≤ o ∧ -2 ^ 31 ≤ o' := by
  rw [← readsBack_iff hm, ← readsBack_iff hn]
  refine ⟨fun h => ⟨h.1, h.2.1⟩, fun h => ⟨h.1, h.2, _, _, toBytes_eq m, toBytes_eq n, ?_, ?_⟩⟩
  · rw [less_iff, Muid.toBytes_lt_iff]
  · rw [Muid.toBytes_inj]
    constructor
    · rintro rfl
      rfl
    · intro hsame
      rw [← (ofMuid_plain hm).mpr ((readsBack_iff hm).mp h.1),
        ← (ofMuid_plain hn).mpr ((readsBack_iff hn).mp h.2), hsame]

/-- The top of each range and a relative offset. -/
theorem representations_agree_iff_top :
    Agree ⟨-1, -1, -1⟩ ⟨5, 1, -2147483648⟩ ↔
      (-2 ^ 31 : Int) ≤ 2 ^ 32 - 1 ∧ (-2 ^ 31 : Int) ≤ -2147483648 :=
  representations_agree_iff (2 ^ 52 - 1) (2 ^ 44 - 1) (2 ^ 32 - 1) 5 1 (-2147483648) _ _ rfl rfl

/-- An offset below -2^31 is accepted and comes back 2^32 above. -/
theorem low_offset_lost : construct 5 1 (-4294967295) = .ok ⟨5, 1, -4294967295⟩ ∧
    ¬ Agree ⟨5, 1, -4294967295⟩ ⟨5, 1, -4294967295⟩ := by
  refine ⟨by decide, ?_⟩
  rintro ⟨⟨-, hparsed⟩, -⟩
  rw [fromStr_str] at hparsed
  exact absurd (Except.ok.inj hparsed) (by decide)

end MuidObject

end Gink
