/-
  Gink.Js.MuidText — muids as strings and back (utils.ts).

  Each number is spelled in two's complement of the width of its field.  Reading one back
  decides its sign from its size, whichever field it is: a number of more than half the range
  is taken for a negative one.  Timestamps after 2^51 and medallions after 2^43, which the
  format has room for, come back negative, and the least offset comes back positive.
-/
import Gink.Js.MemoryStoreRows
import Gink.Proto.MuidText

namespace Gink

namespace Js

/-! ## §1. Reading numbers. -/

/-- White space and line terminators. -/
def isSpace (u : Int) : Bool :=
  u ∈ ([9, 10, 11, 12, 13, 32, 160, 5760, 8232, 8233, 8239, 8287, 12288, 65279] : List Int) ||
    (8192 ≤ u && u ≤ 8202)

/-- The value of a digit of either case. -/
def parsedDigit (u : Int) : Option Nat :=
  if 48 ≤ u ∧ u ≤ 57 then some (u - 48).toNat
  else if 65 ≤ u ∧ u ≤ 70 then some (u - 55).toNat
  else if 97 ≤ u ∧ u ≤ 102 then some (u - 87).toNat
  else none

/-- The digits a string starts with. -/
def leadingDigits : Str → List Nat
  | [] => []
  | u :: s => match parsedDigit u with
      | some d => d :: leadingDigits s
      | none => []

/-- `0x` and `0X` may stand before the digits. -/
def withoutMark : Str → Str
  | 48 :: 120 :: s => s
  | 48 :: 88 :: s => s
  | s => s

/-- Digits, without a sign; none is `NaN`. -/
def parseDigits (s : Str) : Option Int :=
  match leadingDigits (withoutMark s) with
  | [] => none
  | digits => some (Nat.ofDigits 16 digits.reverse : Nat)

/-- `parseInt(s, 16)`. -/
def parseInt16 (s : Str) : Option Int :=
  match s.dropWhile isSpace with
  | 45 :: s => (parseDigits s).map (-·)
  | 43 :: s => parseDigits s
  | s => parseDigits s

/-- `muidHexToInt(hexString)`. -/
def muidHexToInt (hexString : Str) : Except JsError Int := do
  if 14 < hexString.length then throw ⟨"assert failed"⟩
  let beginningAddition : Int :=
    if hexString.length = 14 ∧ hexString.head? = some 49 then 16 ^ 14 else 0
  let hexString := if hexString.length = 14 then hexString.tail else hexString
  let mod : Int := 16 ^ hexString.length
  match parseInt16 hexString with
  | none => throw ⟨"The number NaN cannot be converted to a BigInt"⟩
  | some num => return num + beginningAddition - (if num > mod / 2 then mod else 0)

/-- What a function of a string makes of an element that is not there. -/
def ofPart {α : Type} (f : Str → Except JsError α) : Option Str → Except JsError α
  | some s => f s
  | none => throw ⟨"Cannot read properties of undefined (reading 'length')"⟩

/-- `strToMuidTuple(value)`. -/
def strToMuidTuple (value : Str) : Except JsError MuidTuple := do
  let nums := value.splitOn 45
  return ⟨← ofPart muidHexToInt nums[0]?, ← ofPart muidHexToInt nums[1]?,
    ← ofPart muidHexToInt nums[2]?⟩

/-- `strToMuid(value)`. -/
def strToMuid (value : Str) : Except JsError MuidTuple := do
  let nums := value.splitOn 45
  let timestamp ← ofPart muidHexToInt nums[0]?
  let medallion ← ofPart muidHexToInt nums[1]?
  let offset ← ofPart muidHexToInt nums[2]?
  return { timestamp := timestamp, medallion := medallion, offset := offset }

/-- `muidToString(muid)`. -/
def muidToString (muid : MuidTuple) : Except JsError Str := do
  let timestamp := intToHex muid.timestamp 13
  let medallion := intToHex muid.medallion 11
  let offset := intToHex muid.offset 8
  let result := timestamp ++ dash ++ medallion ++ dash ++ offset
  if result.length ≠ 34 then throw ⟨"isn't 34 characters long"⟩
  return result

/-! ## §2. Numbers written and read. -/

/-- A number modulo the size of its field. -/
theorem intToHex_emod {value : Int} {padding : Nat} (hlow : -16 ^ padding ≤ value)
    (hhigh : value < 16 ^ padding) :
    intToHex value padding = intToHex (value % 16 ^ padding) padding := by
  have hpos : (0 : Int) < 16 ^ padding := by positivity
  by_cases hneg : value < 0
  · have hmod : value % 16 ^ padding = 16 ^ padding + value := by
      rw [← Int.add_emod_left, Int.emod_eq_of_lt (by omega) (by omega)]
    rw [hmod]
    unfold intToHex
    rw [if_pos hneg, if_neg (by omega)]
  · rw [Int.emod_eq_of_lt (by omega) hhigh]

theorem parsedDigit_of_isDigit {u : Int} (h : IsDigit u) : parsedDigit u = some (unhexDigit u) := by
  obtain ⟨n, hn, rfl⟩ := h
  rw [unhexDigit_hexDigit hn]
  interval_cases n <;> decide

theorem leadingDigits_of_isDigit : ∀ {s : Str}, (∀ u ∈ s, IsDigit u) →
    leadingDigits s = s.map unhexDigit
  | [], _ => rfl
  | u :: s, h => by
      have ih := leadingDigits_of_isDigit fun x hx => h x (List.mem_cons_of_mem _ hx)
      unfold leadingDigits
      rw [parsedDigit_of_isDigit (h u List.mem_cons_self), ih, List.map_cons]

theorem IsDigit.units {u : Int} (h : IsDigit u) : (48 ≤ u ∧ u ≤ 57) ∨ (65 ≤ u ∧ u ≤ 70) := by
  obtain ⟨n, hn, rfl⟩ := h
  unfold hexDigit
  split_ifs <;> omega

/-- No digit is white space. -/
theorem IsDigit.not_space {u : Int} (h : IsDigit u) : isSpace u = false := by
  obtain ⟨n, hn, rfl⟩ := h
  interval_cases n <;> decide

/-- No digit is the `x` of a mark. -/
theorem withoutMark_of_isDigit {s : Str} (h : ∀ u ∈ s, IsDigit u) : withoutMark s = s := by
  unfold withoutMark
  split
  · have hx := (h 120 (by simp)).units
    omega
  · have hx := (h 88 (by simp)).units
    omega
  · rfl

/-- **A string of digits is read as the number it spells.** -/
theorem parseInt16_of_isDigit {s : Str} (hne : s ≠ []) (h : ∀ u ∈ s, IsDigit u) :
    parseInt16 s = some (hexValue s : Int) := by
  have hdigits : parseDigits s = some (hexValue s : Int) := by
    unfold parseDigits
    rw [withoutMark_of_isDigit h, leadingDigits_of_isDigit h]
    cases s with
    | nil => exact absurd rfl hne
    | cons u s =>
        simp only [List.map_cons]
        unfold hexValue
        rw [List.map_reverse, List.map_cons]
  cases s with
  | nil => exact absurd rfl hne
  | cons u s =>
      have hu := h u List.mem_cons_self
      have hrange := hu.units
      unfold parseInt16
      rw [List.dropWhile_cons_of_neg (by rw [hu.not_space]; exact Bool.false_ne_true)]
      split
      · rename_i hcons
        injection hcons with hsign _
        omega
      · rename_i hcons
        injection hcons with hsign _
        omega
      · exact hdigits

/-- The sign is told from the size. -/
theorem muidHexToInt_digits {s : Str} (hne : s ≠ []) (hlen : s.length ≤ 13)
    (h : ∀ u ∈ s, IsDigit u) : muidHexToInt s = .ok
      (if (hexValue s : Int) > 16 ^ s.length / 2 then hexValue s - 16 ^ s.length
        else hexValue s) := by
  have h14 : ¬ s.length = 14 := by omega
  unfold muidHexToInt
  rw [if_neg (by omega)]
  simp only [h14, false_and, if_false, parseInt16_of_isDigit hne h]
  split_ifs <;> simp [pure, Except.pure]

/-- **What reading makes of a written number.** -/
theorem muidHexToInt_intToHex {value : Int} {padding : Nat} (hpos : 0 < padding)
    (hle : padding ≤ 13) (hlow : -16 ^ padding ≤ value) (hhigh : value < 16 ^ padding) :
    muidHexToInt (intToHex value padding) = .ok
      (if value % 16 ^ padding > 16 ^ padding / 2 then value % 16 ^ padding - 16 ^ padding
        else value % 16 ^ padding) := by
  have hsize : (0 : Int) < 16 ^ padding := by positivity
  have h0 := Int.emod_nonneg value hsize.ne'
  have hlen := length_intToHex hpos h0 (Int.emod_lt_of_pos value hsize)
  have hne : intToHex (value % 16 ^ padding) padding ≠ [] := by
    rw [← List.length_pos_iff, hlen]
    exact hpos
  have hvalue : (hexValue (intToHex (value % 16 ^ padding) padding) : Int)
      = value % 16 ^ padding := by
    rw [hexValue_intToHex padding h0, Int.toNat_of_nonneg h0]
  rw [intToHex_emod hlow hhigh, muidHexToInt_digits hne (by omega) (isDigit_intToHex h0), hlen,
    hvalue]

/-- A number is read back unless it is more than half the range, or the least. -/
theorem muidHexToInt_eq_iff {value : Int} {padding : Nat} (hpos : 0 < padding)
    (hle : padding ≤ 13) (hlow : -(16 ^ padding / 2) ≤ value) (hhigh : value < 16 ^ padding) :
    muidHexToInt (intToHex value padding) = .ok value ↔
      -(16 ^ padding / 2) < value ∧ value ≤ 16 ^ padding / 2 := by
  have hsize : (0 : Int) < 16 ^ padding := by positivity
  have heven : (16 : Int) ^ padding / 2 * 2 = 16 ^ padding := by
    refine Int.ediv_mul_cancel (dvd_trans (by norm_num : (2 : Int) ∣ 16) (dvd_pow_self 16 ?_))
    omega
  rw [muidHexToInt_intToHex hpos hle (by omega) hhigh, Except.ok.injEq]
  generalize (16 : Int) ^ padding = n at *
  by_cases hneg : value < 0
  · have hmod : value % n = n + value := by
      rw [← Int.add_emod_left, Int.emod_eq_of_lt (by omega) (by omega)]
    rw [hmod]
    split_ifs <;> omega
  · rw [Int.emod_eq_of_lt (by omega) hhigh]
    split_ifs <;> omega

/-! ## §3. Muids written and read. -/

/-- The numbers that the format of a muid has room for; -1 is reserved. -/
structure FitsFormat (m : MuidTuple) : Prop where
  timestamp : -1 ≤ m.timestamp ∧ m.timestamp ≤ 2 ^ 52 - 2
  medallion : -1 ≤ m.medallion ∧ m.medallion ≤ 2 ^ 44 - 2
  offset : -2 ^ 31 ≤ m.offset ∧ m.offset < 2 ^ 31

/-- No number is negative. -/
structure Nonnegative (m : MuidTuple) : Prop where
  timestamp : 0 ≤ m.timestamp
  medallion : 0 ≤ m.medallion
  offset : 0 ≤ m.offset

variable {m n : MuidTuple}

/-- The reserved timestamp is spelled like any other. -/
theorem muidTupleToString_eq (m : MuidTuple) : muidTupleToString m =
    intToHex m.timestamp 13 ++ 45 :: (intToHex m.medallion 11 ++ 45 :: intToHex m.offset 8) := by
  have htime : (if m.timestamp = -1 then List.replicate 13 70 else intToHex m.timestamp 13)
      = intToHex m.timestamp 13 := by
    split_ifs with h
    · rw [h]
      decide +kernel
    · rfl
  unfold muidTupleToString dash
  simp only [htime, List.append_assoc, List.cons_append, List.nil_append]

/-- The three numbers as they are written. -/
structure Fields (m : MuidTuple) : Prop where
  timestamp : (intToHex m.timestamp 13).length = 13 ∧ ∀ u ∈ intToHex m.timestamp 13, IsDigit u
  medallion : (intToHex m.medallion 11).length = 11 ∧ ∀ u ∈ intToHex m.medallion 11, IsDigit u
  offset : (intToHex m.offset 8).length = 8 ∧ ∀ u ∈ intToHex m.offset 8, IsDigit u

theorem written {value : Int} {padding : Nat} (hpos : 0 < padding) (hlow : -16 ^ padding ≤ value)
    (hhigh : value < 16 ^ padding) : (intToHex value padding).length = padding ∧
      ∀ u ∈ intToHex value padding, IsDigit u := by
  have hsize : (0 : Int) < 16 ^ padding := by positivity
  have h0 := Int.emod_nonneg value hsize.ne'
  rw [intToHex_emod hlow hhigh]
  exact ⟨length_intToHex hpos h0 (Int.emod_lt_of_pos value hsize), isDigit_intToHex h0⟩

theorem FitsFormat.fields (h : FitsFormat m) : Fields m where
  timestamp := written (by omega) (by have := h.timestamp; omega) (by have := h.timestamp; omega)
  medallion := written (by omega) (by have := h.medallion; omega) (by have := h.medallion; omega)
  offset := written (by omega) (by have := h.offset; omega) (by have := h.offset; omega)

/-- Both functions spell a muid alike. -/
theorem muidToString_eq (h : FitsFormat m) : muidToString m = .ok (muidTupleToString m) := by
  have hfields := h.fields
  have hlen : (intToHex m.timestamp 13 ++ dash ++ intToHex m.medallion 11 ++ dash ++
      intToHex m.offset 8).length = 34 := by
    simp only [List.length_append, hfields.timestamp.1, hfields.medallion.1, hfields.offset.1, dash,
      List.length_singleton]
  unfold muidToString
  simp only [hlen, ne_eq, not_true_eq_false, if_false]
  rw [muidTupleToString_eq]
  simp only [dash, List.append_assoc, List.cons_append, List.nil_append]
  rfl

theorem IsDigit.ne_dash {u : Int} (h : IsDigit u) : (u == 45) = false := by
  have hunits := h.units
  rw [beq_eq_false_iff_ne]
  omega

/-- The parts between the dashes are the numbers. -/
theorem splitOn_spelling (hfields : Fields m) : (muidTupleToString m).splitOn 45 =
    [intToHex m.timestamp 13, intToHex m.medallion 11, intToHex m.offset 8] := by
  rw [muidTupleToString_eq, List.splitOn,
    List.splitOnP_append_cons_of_forall_mem (fun u hu => (hfields.timestamp.2 u hu).ne_dash) 45 rfl,
    List.splitOnP_append_cons_of_forall_mem (fun u hu => (hfields.medallion.2 u hu).ne_dash) 45 rfl,
    List.splitOnP_eq_singleton fun u hu => (hfields.offset.2 u hu).ne_dash]

theorem strToMuid_eq (value : Str) : strToMuid value = strToMuidTuple value := rfl

/-- A muid is read back when its numbers are. -/
theorem strToMuidTuple_eq_ok (h : FitsFormat m) : strToMuidTuple (muidTupleToString m) = .ok m ↔
    muidHexToInt (intToHex m.timestamp 13) = .ok m.timestamp ∧
    muidHexToInt (intToHex m.medallion 11) = .ok m.medallion ∧
    muidHexToInt (intToHex m.offset 8) = .ok m.offset := by
  unfold strToMuidTuple
  rw [splitOn_spelling h.fields]
  simp only [List.getElem?_cons_zero, List.getElem?_cons_succ, ofPart, bind_eq_ok, pure_eq_ok]
  constructor
  · rintro ⟨t, ht, d, hd, o, ho, rfl⟩
    exact ⟨ht, hd, ho⟩
  · rintro ⟨ht, hd, ho⟩
    exact ⟨_, ht, _, hd, _, ho, rfl⟩

/-- **Which muids are read back.** -/
theorem strToMuidTuple_eq_ok_iff (h : FitsFormat m) :
    strToMuidTuple (muidTupleToString m) = .ok m ↔
      m.timestamp ≤ 2 ^ 51 ∧ m.medallion ≤ 2 ^ 43 ∧ -2 ^ 31 < m.offset := by
  have htime := h.timestamp
  have hmedallion := h.medallion
  have hoffset := h.offset
  rw [strToMuidTuple_eq_ok h, muidHexToInt_eq_iff (by omega) (by omega) (by omega) (by omega),
    muidHexToInt_eq_iff (by omega) (by omega) (by omega) (by omega),
    muidHexToInt_eq_iff (by omega) (by omega) (by omega) (by omega)]
  omega

/-- What a number that is not negative comes back as. -/
def readBack (padding : Nat) (value : Int) : Int :=
  if value > 16 ^ padding / 2 then value - 16 ^ padding else value

theorem IsMuid.fields (h : IsMuid m) : Fields m where
  timestamp := written (by omega) (by have := h.timestamp; omega) h.timestamp.2
  medallion := written (by omega) (by have := h.medallion; omega) h.medallion.2
  offset := written (by omega) (by have := h.offset; omega) h.offset.2

/-- **What a muid that fits its digits is read as.** -/
theorem strToMuidTuple_spelling (h : IsMuid m) : strToMuidTuple (muidTupleToString m) =
    .ok ⟨readBack 13 m.timestamp, readBack 11 m.medallion, readBack 8 m.offset⟩ := by
  have hread : ∀ {value : Int} {padding : Nat}, 0 < padding → padding ≤ 13 → 0 ≤ value →
      value < 16 ^ padding → muidHexToInt (intToHex value padding) = .ok (readBack padding value) := by
    intro value padding hpos hle h0 hlt
    have hsize : (0 : Int) < 16 ^ padding := by positivity
    rw [muidHexToInt_intToHex hpos hle (by omega) hlt, Int.emod_eq_of_lt h0 hlt]
    rfl
  unfold strToMuidTuple
  rw [splitOn_spelling h.fields]
  simp only [List.getElem?_cons_zero, List.getElem?_cons_succ, ofPart,
    hread (by omega) (by omega) h.timestamp.1 h.timestamp.2,
    hread (by omega) (by omega) h.medallion.1 h.medallion.2,
    hread (by omega) (by omega) h.offset.1 h.offset.2]
  rfl

/-- The muid is read back from its spelling. -/
def Legible (m : MuidTuple) : Prop := strToMuidTuple (muidTupleToString m) = .ok m

/-! ## §4. The same strings in Python. -/

/-- The digits Python writes are the same units. -/
theorem flatMap_hexPart {width n : Nat} (hpos : 0 < width) :
    (hexPart width n).flatMap Idb.utf16 = intToHex n width := by
  have hunit : ∀ d < 16, Idb.utf16 (hexChar d) = [hexDigit d] := by
    intro d hd
    interval_cases d <;> decide
  have hmap : ∀ ds : List Nat, (∀ d ∈ ds, d < 16) →
      (ds.map hexChar).flatMap Idb.utf16 = ds.map hexDigit := by
    intro ds hds
    induction ds with
    | nil => rfl
    | cons d ds ih =>
        rw [List.map_cons, List.flatMap_cons, hunit d (hds d List.mem_cons_self),
          ih fun x hx => hds x (List.mem_cons_of_mem _ hx)]
        rfl
  have hdigits : ∀ d ∈ (Nat.digits 16 n).reverse, d < 16 := fun d hd =>
    Nat.digits_lt_base (by omega) (List.mem_reverse.mp hd)
  have hzeros : ∀ k, ∀ d ∈ List.replicate k 0, d < 16 := fun k d hd => by
    rw [List.eq_of_mem_replicate hd]
    omega
  unfold hexPart
  rw [hmap _ fun d hd => (List.mem_append.mp hd).elim (hzeros _ d) (hdigits d)]
  have hnat : ¬ (n : Int) < 0 := by omega
  unfold intToHex padStart toString16
  simp only [List.map_append, List.map_replicate, hnat, if_false]
  by_cases hn : n = 0
  · -- the one digit of zero is among the zeros Python fills with
    obtain ⟨w, rfl⟩ : ∃ w, width = w + 1 := ⟨width - 1, by omega⟩
    rw [hn]
    simp [hexDigit, List.replicate_succ']
  · have hnz : ¬ (n : Int) = 0 := by omega
    simp only [hnz, if_false, List.nil_append, Int.natAbs_natCast, List.length_map]
    rfl

/-- **Python spells the muid with the same units.** -/
theorem str_construct (h : FitsFormat m) :
    ∃ p, MuidObject.construct m.timestamp m.medallion m.offset = .ok p ∧
      Idb.units p.str = muidTupleToString m := by
  have htime := h.timestamp
  have hmedallion := h.medallion
  have hoffset := h.offset
  have hpart : ∀ {value : Int} {padding : Nat}, 0 < padding → -16 ^ padding ≤ value →
      value < 16 ^ padding → (hexPart padding (value % 16 ^ padding).toNat).flatMap Idb.utf16
        = intToHex value padding := by
    intro value padding hpos hlow hhigh
    rw [flatMap_hexPart hpos, intToHex_emod hlow hhigh, Int.toNat_of_nonneg]
    exact Int.emod_nonneg _ (by positivity)
  refine ⟨⟨m.timestamp, m.medallion, m.offset⟩, MuidObject.construct_eq_ok.mpr ?_, ?_⟩
  · refine ⟨by omega, by omega, by omega, ?_⟩
    rw [if_neg (by omega), if_neg (by omega), if_pos (by omega)]
  · have hdash : Idb.utf16 '-' = [45] := rfl
    unfold Idb.units MuidObject.str
    rw [String.toList_ofList, muidTupleToString_eq]
    simp only [List.flatMap_append, List.flatMap_cons, hdash]
    have h1 := @hpart m.timestamp 13 (by omega) (by omega) (by omega)
    have h2 := @hpart m.medallion 11 (by omega) (by omega) (by omega)
    have h3 := @hpart m.offset 8 (by omega) (by omega) (by omega)
    norm_num at h1 h2 h3 ⊢
    rw [h1, h2, h3]

/-! ## §5. What the strings are good for. -/

/-- **The strings of a muid stand for it**: either kind reads back, they come in the order of
the numbers, and Python writes the same. -/
structure Faithful (m : MuidTuple) : Prop where
  parsed : (muidToString m >>= strToMuid) = .ok m
  parsedTuple : strToMuidTuple (muidTupleToString m) = .ok m
  ordered : Nonnegative m → ∀ n, FitsFormat n → Nonnegative n → ∃ s s',
    muidToString m = .ok s ∧ muidToString n = .ok s' ∧ (s < s' ↔ m.Before n) ∧
    (muidTupleToString m < muidTupleToString n ↔ m.Before n)
  python : ∃ p, MuidObject.construct m.timestamp m.medallion m.offset = .ok p ∧
    muidToString m = .ok (Idb.units p.str) ∧ muidTupleToString m = Idb.units p.str

/-- Numbers of the format that are not negative fit their digits. -/
theorem FitsFormat.isMuid (h : FitsFormat m) (h0 : Nonnegative m) : IsMuid m := by
  have htime := h.timestamp
  have hmedallion := h.medallion
  have hoffset := h.offset
  exact ⟨⟨h0.timestamp, by omega⟩, ⟨h0.medallion, by omega⟩, ⟨h0.offset, by omega⟩⟩

/-- **The strings of a muid stand for it exactly when its timestamp is at most 2^51, its
medallion at most 2^43 and its offset is not the least.** -/
theorem faithful_iff (h : FitsFormat m) : Faithful m ↔
    m.timestamp ≤ 2 ^ 51 ∧ m.medallion ≤ 2 ^ 43 ∧ -2 ^ 31 < m.offset := by
  rw [← strToMuidTuple_eq_ok_iff h]
  refine ⟨fun hfaithful => hfaithful.parsedTuple, fun hparsed => ⟨?_, hparsed, ?_, ?_⟩⟩
  · rw [muidToString_eq h]
    exact hparsed
  · intro h0 n hn hn0
    have horder := spelling_lt (h.isMuid h0) (hn.isMuid hn0)
    exact ⟨_, _, muidToString_eq h, muidToString_eq hn, horder, horder⟩
  · obtain ⟨p, hp, hstr⟩ := str_construct h
    refine ⟨p, hp, ?_, hstr.symm⟩
    rw [muidToString_eq h, hstr]

/-- The example of the format's description. -/
theorem faithful_iff_described : Faithful ⟨1642579230975519, 1923190821165, 11⟩ ↔
    (1642579230975519 : Int) ≤ 2 ^ 51 ∧ (1923190821165 : Int) ≤ 2 ^ 43 ∧ (-2 ^ 31 : Int) < 11 :=
  faithful_iff ⟨by decide, by decide, by decide⟩

/-- A timestamp of 2041 comes back negative. -/
theorem late_timestamp_negative :
    FitsFormat ⟨2 ^ 51 + 1, 2 ^ 40, 1⟩ ∧ ¬ Faithful ⟨2 ^ 51 + 1, 2 ^ 40, 1⟩ ∧
      muidToString ⟨2 ^ 51 + 1, 2 ^ 40, 1⟩ >>= strToMuid = .ok ⟨1 - 2 ^ 51, 2 ^ 40, 1⟩ := by
  have hread : (muidToString ⟨2 ^ 51 + 1, 2 ^ 40, 1⟩ >>= strToMuid)
      = .ok ⟨1 - 2 ^ 51, 2 ^ 40, 1⟩ := by decide +kernel
  refine ⟨⟨by decide, by decide, by decide⟩, ?_, hread⟩
  intro hfaithful
  have hparsed := hfaithful.parsed
  rw [hread] at hparsed
  exact absurd hparsed (by decide)

end Js

end Gink
