/-
  Gink.Js.Values — user values in JavaScript (utils.ts), and those that come from Python.

  `wrapValue` looks at the type of a value and `unwrapValue` at the member of the `oneof` that
  is set; a `ValueBuilder` holds JavaScript's own strings, numbers and byte arrays.  The keys
  of a document may be byte strings in Python and in `unwrapKey`, but `wrapValue` takes no such
  `Map`.
-/
import Gink.Bytes.Binary64
import Gink.Js.MuidText
import Gink.Proto.ValueCodec

namespace Gink

namespace Js

namespace Values

/-! ## §1. Values. -/

/-- What may be a key of a `Map`: a number, a string, a `Uint8Array` or anything else. -/
inductive JsKey where
  | number (bits : U64)
  | characters (units : Str)
  | octets (bytes : Bytes)
  | other
  deriving DecidableEq

/-- A value; `other` is a function, a symbol or an object of another class. -/
inductive JsValue where
  | undefined
  | null
  | bool (b : Bool)
  | number (bits : U64)
  | bigint (n : Int)
  | string (units : Str)
  | bytes (b : Bytes)
  | array (items : List JsValue)
  | map (entries : List (JsKey × JsValue))
  | object (entries : List (Str × JsValue))
  | date (time : Int)
  | other

/-- A `KeyBuilder`. -/
inductive WrappedKey where
  | unset
  | number (bits : U64)
  | characters (units : Str)
  | octets (bytes : Bytes)
  deriving DecidableEq

/-- A `ValueBuilder`. -/
inductive WrappedValue where
  | unset
  | integer (digits : String)
  | floating (bits : U64)
  | characters (units : Str)
  | special (code : Int)
  | timestamp (micros : Int)
  | document (keys : List WrappedKey) (values : List WrappedValue)
  | tuple (values : List WrappedValue)
  | octets (bytes : Bytes)

/-! ## §2. Big integers. -/

/-- The value of digits of a base. -/
def bigIntDigits (base : Nat) : List Char → Nat → Option Nat
  | [], acc => some acc
  | c :: rest, acc =>
      match hexValue? c with
      | some d => if d < base then bigIntDigits base rest (acc * base + d) else none
      | none => none

/-- A non-empty run of digits. -/
def bigIntNatural (base : Nat) (text : List Char) : Option Int :=
  if text = [] then none else (bigIntDigits base text 0).map fun n : Nat => (n : Int)

/-- `BigInt(text)`: white space around, nothing, a sign and decimal digits, or digits of the
base that stands before them. -/
def bigIntOf (text : String) : Option Int :=
  let space := fun c : Char => isSpace c.toNat
  match ((text.toList.dropWhile space).reverse.dropWhile space).reverse with
  | [] => some 0
  | '-' :: rest => (bigIntNatural 10 rest).map (-·)
  | '+' :: rest => bigIntNatural 10 rest
  | '0' :: c :: rest =>
      if c = 'x' ∨ c = 'X' then bigIntNatural 16 rest
      else if c = 'o' ∨ c = 'O' then bigIntNatural 8 rest
      else if c = 'b' ∨ c = 'B' then bigIntNatural 2 rest
      else bigIntNatural 10 ('0' :: c :: rest)
  | rest => bigIntNatural 10 rest

/-- `n.toString()`: Python writes the same text. -/
def bigIntToString (n : Int) : String := pyStr n

/-! ## §3. Keys. -/

/-- `wrapKey(key)`. -/
def wrapKey : JsKey → Except JsError WrappedKey
  | .characters units => .ok (.characters units)
  | .number bits =>
      if Binary64.isSafeInteger bits then .ok (.number bits)
      else .error ⟨"key not a safe integer"⟩
  | .octets bytes => .ok (.octets bytes)
  | .other => .error ⟨"key not a number or string or bytes"⟩

/-- `unwrapKey(keyBuilder)`. -/
def unwrapKey : WrappedKey → Except JsError JsKey
  | .characters units => .ok (.characters units)
  | .number bits => .ok (.number bits)
  | .octets bytes => .ok (.octets bytes)
  | .unset => .error ⟨"value isn't a number or string!"⟩

/-- A number that is none. -/
def isNaN (bits : U64) : Bool := Binary64.exponent bits = 2047 && Binary64.fraction bits ≠ 0

/-- A `Map` has one zero. -/
def JsKey.normal : JsKey → JsKey
  | .number bits => .number (if bits.val = 2 ^ 63 then 0 else bits)
  | key => key

/-- A `Map` takes the keys for one; two byte arrays are two keys whatever they hold. -/
def JsKey.same : JsKey → JsKey → Bool
  | .number a, .number b => a = b || isNaN a && isNaN b
  | .characters a, .characters b => a = b
  | _, _ => false

/-- `map.set(key, value)`. -/
def mapSet (entries : List (JsKey × JsValue)) (key : JsKey) (value : JsValue) :
    List (JsKey × JsValue) :=
  if entries.any (fun entry => entry.1.same key.normal) then
    entries.map fun entry => if entry.1.same key.normal then (entry.1, value) else entry
  else entries ++ [(key.normal, value)]

/-! ## §4. Wrapping and unwrapping. -/

/-- The floating point arithmetic of dates: `new Date(epochMicros / 1000)` and
`date.getTime() * 1000`. -/
structure Dates where
  ofMicros : Int → Int
  toMicros : Int → Int

/-- The keys that `wrapValue` takes in a `Map`. -/
def requireScalar : JsKey → Except JsError Unit
  | .number _ => .ok ()
  | .characters _ => .ok ()
  | _ => .error ⟨"keys in documents must be numbers or strings"⟩

section
variable (dates : Dates)

mutual

/-- `wrapValue(arg)`. -/
def wrapValue : JsValue → Except JsError WrappedValue
  | .undefined => .error ⟨"assert failed"⟩
  | .bytes b => .ok (.octets b)
  | .date time => .ok (.timestamp (dates.toMicros time))
  | .null => .ok (.special 3)
  | .bool b => .ok (.special (if b then 1 else 2))
  | .string units => .ok (.characters units)
  | .number bits => .ok (.floating bits)
  | .bigint n => .ok (.integer (bigIntToString n))
  | .array items => (wrapValues items).map .tuple
  | .map entries => (wrapEntries entries).map fun built =>
      .document (built.map Prod.fst) (built.map Prod.snd)
  | .object entries => (wrapFields entries).map fun built =>
      .document (built.map Prod.fst) (built.map Prod.snd)
  | .other => .error ⟨"don't know how to wrap"⟩

def wrapValues : List JsValue → Except JsError (List WrappedValue)
  | [] => .ok []
  | v :: rest => do
      let x ← wrapValue v
      let xs ← wrapValues rest
      return x :: xs

/-- The entries of a `Map`. -/
def wrapEntries : List (JsKey × JsValue) → Except JsError (List (WrappedKey × WrappedValue))
  | [] => .ok []
  | (key, val) :: rest => do
      requireScalar key
      let k ← wrapKey key
      let x ← wrapValue val
      let xs ← wrapEntries rest
      return (k, x) :: xs

/-- `Object.entries(arg)`. -/
def wrapFields : List (Str × JsValue) → Except JsError (List (WrappedKey × WrappedValue))
  | [] => .ok []
  | (key, val) :: rest => do
      let k ← wrapKey (.characters key)
      let x ← wrapValue val
      let xs ← wrapFields rest
      return (k, x) :: xs

end

mutual

/-- `unwrapValue(valueBuilder)`. -/
def unwrapValue : WrappedValue → Except JsError JsValue
  | .characters units => .ok (.string units)
  | .floating bits => .ok (.number bits)
  | .integer digits =>
      match bigIntOf digits with
      | some n => .ok (.bigint n)
      | none => .error ⟨"Cannot convert to a BigInt"⟩
  | .special code =>
      if code = 3 then .ok .null
      else if code = 1 then .ok (.bool true)
      else if code = 2 then .ok (.bool false)
      else .error ⟨"bad special"⟩
  | .octets bytes => .ok (.bytes bytes)
  | .document keys values => (unwrapDocument values keys []).map .map
  | .tuple values => (unwrapValues values).map .array
  | .timestamp micros => .ok (.date (dates.ofMicros micros))
  | .unset => .error ⟨"haven't implemented unwrap for this Value"⟩

def unwrapValues : List WrappedValue → Except JsError (List JsValue)
  | [] => .ok []
  | v :: rest => do
      let x ← unwrapValue v
      let xs ← unwrapValues rest
      return x :: xs

/-- The entries of a document: one value for each key, surplus values unread. -/
def unwrapDocument : List WrappedValue → List WrappedKey → List (JsKey × JsValue) →
    Except JsError (List (JsKey × JsValue))
  | _, [], acc => .ok acc
  | [], key :: _, _ => do
      let _ ← unwrapKey key
      .error ⟨"assert failed"⟩
  | v :: values, key :: keys, acc => do
      let k ← unwrapKey key
      let x ← unwrapValue v
      unwrapDocument values keys (mapSet acc k x)

end

end

/-! ## §5. Values that are wrapped read back. -/

mutual

/-- The value with maps for plain objects. -/
def JsValue.asMaps : JsValue → JsValue
  | .array items => .array (allAsMaps items)
  | .map entries => .map (entriesAsMaps entries)
  | .object entries => .map (fieldsAsMaps entries)
  | v => v

def allAsMaps : List JsValue → List JsValue
  | [] => []
  | v :: rest => v.asMaps :: allAsMaps rest

def entriesAsMaps : List (JsKey × JsValue) → List (JsKey × JsValue)
  | [] => []
  | (k, v) :: rest => (k, v.asMaps) :: entriesAsMaps rest

def fieldsAsMaps : List (Str × JsValue) → List (JsKey × JsValue)
  | [] => []
  | (k, v) :: rest => (.characters k, v.asMaps) :: fieldsAsMaps rest

end

/-- No two keys are the same to a `Map`, and zero has no sign. -/
def MapKeys (keys : List JsKey) : Prop :=
  keys.Pairwise (fun a b => a.same b = false) ∧ ∀ k ∈ keys, k.normal = k

mutual

/-- Every `Map` has keys that a `Map` has, every object has names of its own, and nothing is a
`Date`. -/
def JsValue.Proper : JsValue → Prop
  | .array items => allProper items
  | .map entries => MapKeys (entries.map Prod.fst) ∧ entriesProper entries
  | .object entries => (entries.map Prod.fst).Nodup ∧ fieldsProper entries
  | .date _ => False
  | _ => True

def allProper : List JsValue → Prop
  | [] => True
  | v :: rest => v.Proper ∧ allProper rest

def entriesProper : List (JsKey × JsValue) → Prop
  | [] => True
  | (_, v) :: rest => v.Proper ∧ entriesProper rest

def fieldsProper : List (Str × JsValue) → Prop
  | [] => True
  | (_, v) :: rest => v.Proper ∧ fieldsProper rest

end

variable {dates : Dates}

theorem bigIntDigits_map (ds : List Nat) (acc : Nat) (h : ∀ d ∈ ds, d < 10) :
    bigIntDigits 10 (ds.map decimalChar) acc
      = some (acc * 10 ^ ds.length + Nat.ofDigits 10 ds.reverse) := by
  have hchar : ∀ d < 10, hexValue? (decimalChar d) = some d := by
    intro d hd
    interval_cases d <;> decide
  induction ds generalizing acc with
  | nil => simp [bigIntDigits]
  | cons d ds ih =>
      have hd := h d List.mem_cons_self
      rw [List.map_cons]
      conv_lhs => unfold bigIntDigits
      simp only [hchar d hd, hd, if_true]
      rw [ih _ fun x hx => h x (List.mem_cons_of_mem _ hx), List.reverse_cons, Nat.ofDigits_append,
        Nat.ofDigits_singleton, List.length_reverse, List.length_cons]
      congr 1
      ring

theorem bigIntNatural_digits (n : Nat) :
    bigIntNatural 10 ((decimalDigits n).map decimalChar) = some (n : Int) := by
  obtain ⟨hne, hlt, hvalue⟩ := decimalDigits_spec n
  have hread := bigIntDigits_map (decimalDigits n) 0 hlt
  rw [Nat.zero_mul, Nat.zero_add, hvalue] at hread
  unfold bigIntNatural
  rw [if_neg (by simpa using hne), hread]
  rfl

/-- **A big integer reads back from its text.** -/
theorem bigIntOf_pyStr (n : Int) : bigIntOf (pyStr n) = some n := by
  obtain ⟨hne, hlt, -⟩ := decimalDigits_spec n.natAbs
  have hnatural := bigIntNatural_digits n.natAbs
  have hdigit : ∀ d < 10, isSpace ((decimalChar d).toNat) = false ∧ decimalChar d ≠ '-' ∧
      decimalChar d ≠ '+' ∧ (decimalChar d).isDigit = true := by
    intro d hd
    interval_cases d <;> decide
  have htext : (pyStr n).toList = (if n < 0 then ['-'] else []) ++
      (decimalDigits n.natAbs).map decimalChar := by
    unfold pyStr
    rw [String.toList_ofList]
    rfl
  have hspaceless : ∀ c ∈ (pyStr n).toList, isSpace (c.toNat) = false := by
    intro c hc
    rw [htext] at hc
    rcases List.mem_append.mp hc with hc | hc
    · split_ifs at hc with hneg
      · rw [List.mem_singleton.mp hc]
        decide
      · exact absurd hc List.not_mem_nil
    · obtain ⟨d, hd, rfl⟩ := List.mem_map.mp hc
      exact (hdigit d (hlt d hd)).1
  have htrim : ∀ text : List Char, (∀ c ∈ text, isSpace (c.toNat) = false) →
      text.dropWhile (fun c : Char => isSpace c.toNat) = text := by
    intro text h
    cases text with
    | nil => rfl
    | cons c rest => simp [h c List.mem_cons_self]
  unfold bigIntOf
  simp only
  rw [htrim _ hspaceless, htrim _ fun c hc => hspaceless c (List.mem_reverse.mp hc),
    List.reverse_reverse, htext]
  by_cases hneg : n < 0
  · rw [if_pos hneg]
    simp only [List.cons_append, List.nil_append, hnatural, Option.map_some, Option.some.injEq]
    omega
  · have hback : (n.natAbs : Int) = n := by omega
    rw [if_neg hneg, List.nil_append]
    rw [hback] at hnatural
    -- the first digit is no sign, and the second one no mark of a base
    have hall : ∀ c ∈ (decimalDigits n.natAbs).map decimalChar, c ≠ '-' ∧ c ≠ '+' ∧
        c.isDigit = true := by
      intro c hc
      obtain ⟨d, hd, rfl⟩ := List.mem_map.mp hc
      exact (hdigit d (hlt d hd)).2
    generalize (decimalDigits n.natAbs).map decimalChar = text at hnatural hall
    split
    · cases hnatural
    · exact absurd rfl (hall _ List.mem_cons_self).1
    · exact absurd rfl (hall _ List.mem_cons_self).2.1
    · rename_i c rest
      have hc := (hall c (by simp)).2.2
      have hnot : ∀ mark : Char, mark.isDigit = false → c ≠ mark := by
        rintro mark hmark rfl
        rw [hmark] at hc
        cases hc
      rw [if_neg, if_neg, if_neg, hnatural]
      · exact not_or.mpr ⟨hnot _ (by decide), hnot _ (by decide)⟩
      · exact not_or.mpr ⟨hnot _ (by decide), hnot _ (by decide)⟩
      · exact not_or.mpr ⟨hnot _ (by decide), hnot _ (by decide)⟩
    · exact hnatural

/-- A new key goes to the end of a `Map`. -/
theorem mapSet_new {acc : List (JsKey × JsValue)} {key : JsKey} (value : JsValue)
    (hnormal : key.normal = key) (hnew : ∀ k ∈ acc.map Prod.fst, k.same key = false) :
    mapSet acc key value = acc ++ [(key, value)] := by
  unfold mapSet
  rw [hnormal, if_neg]
  rw [List.any_eq_true]
  rintro ⟨entry, hentry, hsame⟩
  rw [hnew entry.1 (List.mem_map_of_mem hentry)] at hsame
  cases hsame

/-- What is said of the keys that are there, with one key more. -/
theorem fresh_concat {acc : List (JsKey × JsValue)} {key : JsKey} {keys : List JsKey}
    (value : JsValue) (hkeys : (key :: keys).Pairwise fun a b => a.same b = false)
    (hfresh : ∀ k ∈ key :: keys, ∀ k' ∈ acc.map Prod.fst, k'.same k = false) :
    ∀ k ∈ keys, ∀ k' ∈ (acc ++ [(key, value)]).map Prod.fst, k'.same k = false := by
  intro k hk k' hk'
  rw [List.map_append, List.mem_append] at hk'
  rcases hk' with hold | hnew
  · exact hfresh k (List.mem_cons_of_mem _ hk) k' hold
  · rw [show k' = key from List.mem_singleton.mp hnew]
    exact (List.pairwise_cons.mp hkeys).1 k hk

/-- A key that is wrapped reads back. -/
theorem unwrapKey_wrapKey {key : JsKey} {k : WrappedKey} (h : wrapKey key = .ok k) :
    unwrapKey k = .ok key := by
  unfold wrapKey at h
  split at h
  · cases h
    rfl
  · split_ifs at h
    cases h
    rfl
  · cases h
    rfl
  · cases h

theorem map_eq_ok {α β : Type} {x : Except JsError α} {f : α → β} {b : β} :
    x.map f = .ok b ↔ ∃ a, x = .ok a ∧ f a = b := by
  cases x with
  | error e => simp [Except.map]
  | ok a => simp [Except.map]

theorem mapKeys_fields {entries : List (Str × JsValue)} (h : (entries.map Prod.fst).Nodup) :
    MapKeys (entries.map fun entry => JsKey.characters entry.1) := by
  refine ⟨?_, ?_⟩
  · rw [List.pairwise_map]
    refine (List.pairwise_map.mp h).imp ?_
    intro a b hne
    exact decide_eq_false hne
  · intro k hk
    obtain ⟨entry, -, rfl⟩ := List.mem_map.mp hk
    rfl

mutual

/-- **What is wrapped reads back**, plain objects as maps. -/
theorem unwrapValue_wrapValue : ∀ {v : JsValue} {b : WrappedValue}, v.Proper →
    wrapValue dates v = .ok b → unwrapValue dates b = .ok v.asMaps
  | .undefined, _, _, h => by cases h
  | .null, _, _, h => by cases h; rfl
  | .bool true, _, _, h => by cases h; rfl
  | .bool false, _, _, h => by cases h; rfl
  | .number _, _, _, h => by cases h; rfl
  | .bigint n, _, _, h => by
      cases h
      rw [unwrapValue, bigIntToString, bigIntOf_pyStr]
      rfl
  | .string _, _, _, h => by cases h; rfl
  | .bytes _, _, _, h => by cases h; rfl
  | .array items, b, hproper, h => by
      obtain ⟨xs, hxs, rfl⟩ := map_eq_ok.mp h
      rw [unwrapValue, unwrapValues_wrapValues hproper hxs]
      rfl
  | .map entries, b, hproper, h => by
      obtain ⟨built, hbuilt, rfl⟩ := map_eq_ok.mp h
      have hfresh : ∀ k ∈ entries.map Prod.fst,
          ∀ k' ∈ ([] : List (JsKey × JsValue)).map Prod.fst, k'.same k = false :=
        fun _ _ _ hk' => absurd hk' List.not_mem_nil
      rw [unwrapValue, unwrapDocument_wrapEntries hproper.1 hproper.2 hfresh hbuilt]
      rfl
  | .object entries, b, hproper, h => by
      obtain ⟨built, hbuilt, rfl⟩ := map_eq_ok.mp h
      have hfresh : ∀ k ∈ entries.map (fun entry => JsKey.characters entry.1),
          ∀ k' ∈ ([] : List (JsKey × JsValue)).map Prod.fst, k'.same k = false :=
        fun _ _ _ hk' => absurd hk' List.not_mem_nil
      rw [unwrapValue, unwrapDocument_wrapFields (mapKeys_fields hproper.1) hproper.2 hfresh hbuilt]
      rfl
  | .date _, _, hproper, _ => absurd hproper id
  | .other, _, _, h => by cases h

theorem unwrapValues_wrapValues : ∀ {items : List JsValue} {xs : List WrappedValue},
    allProper items → wrapValues dates items = .ok xs →
      unwrapValues dates xs = .ok (allAsMaps items)
  | [], _, _, h => by cases h; rfl
  | v :: rest, xs, hproper, h => by
      obtain ⟨x, hx, h⟩ := bind_eq_ok.mp h
      obtain ⟨ys, hys, h⟩ := bind_eq_ok.mp h
      rw [← pure_eq_ok.mp h, unwrapValues, unwrapValue_wrapValue hproper.1 hx,
        unwrapValues_wrapValues hproper.2 hys]
      rfl

/-- Read after some other entries, a document adds its own. -/
theorem unwrapDocument_wrapEntries : ∀ {entries : List (JsKey × JsValue)}
    {built : List (WrappedKey × WrappedValue)} {acc : List (JsKey × JsValue)},
    MapKeys (entries.map Prod.fst) → entriesProper entries →
    (∀ k ∈ entries.map Prod.fst, ∀ k' ∈ acc.map Prod.fst, k'.same k = false) →
    wrapEntries dates entries = .ok built →
      unwrapDocument dates (built.map Prod.snd) (built.map Prod.fst) acc
        = .ok (acc ++ entriesAsMaps entries)
  | [], _, acc, _, _, _, h => by
      cases h
      rw [entriesAsMaps, List.append_nil]
      rfl
  | (key, val) :: rest, built, acc, hkeys, hproper, hfresh, h => by
      obtain ⟨_, -, h⟩ := bind_eq_ok.mp h
      obtain ⟨k, hk, h⟩ := bind_eq_ok.mp h
      obtain ⟨x, hx, h⟩ := bind_eq_ok.mp h
      obtain ⟨ys, hys, h⟩ := bind_eq_ok.mp h
      have hkeys' : MapKeys (rest.map Prod.fst) :=
        ⟨(List.pairwise_cons.mp hkeys.1).2, fun k' hk' => hkeys.2 k' (List.mem_cons_of_mem _ hk')⟩
      rw [← pure_eq_ok.mp h, List.map_cons, List.map_cons, unwrapDocument, unwrapKey_wrapKey hk,
        unwrapValue_wrapValue hproper.1 hx]
      show unwrapDocument dates _ _ (mapSet acc key val.asMaps) = _
      rw [mapSet_new val.asMaps (hkeys.2 key List.mem_cons_self) (hfresh key List.mem_cons_self),
        unwrapDocument_wrapEntries hkeys' hproper.2 (fresh_concat val.asMaps hkeys.1 hfresh) hys,
        entriesAsMaps, List.append_assoc]
      rfl

theorem unwrapDocument_wrapFields : ∀ {entries : List (Str × JsValue)}
    {built : List (WrappedKey × WrappedValue)} {acc : List (JsKey × JsValue)},
    MapKeys (entries.map fun entry => JsKey.characters entry.1) → fieldsProper entries →
    (∀ k ∈ entries.map (fun entry => JsKey.characters entry.1), ∀ k' ∈ acc.map Prod.fst,
      k'.same k = false) →
    wrapFields dates entries = .ok built →
      unwrapDocument dates (built.map Prod.snd) (built.map Prod.fst) acc
        = .ok (acc ++ fieldsAsMaps entries)
  | [], _, acc, _, _, _, h => by
      cases h
      rw [fieldsAsMaps, List.append_nil]
      rfl
  | (key, val) :: rest, built, acc, hkeys, hproper, hfresh, h => by
      obtain ⟨k, hk, h⟩ := bind_eq_ok.mp h
      obtain ⟨x, hx, h⟩ := bind_eq_ok.mp h
      obtain ⟨ys, hys, h⟩ := bind_eq_ok.mp h
      have hkeys' : MapKeys (rest.map fun entry => JsKey.characters entry.1) :=
        ⟨(List.pairwise_cons.mp hkeys.1).2, fun k' hk' => hkeys.2 k' (List.mem_cons_of_mem _ hk')⟩
      rw [← pure_eq_ok.mp h, List.map_cons, List.map_cons, unwrapDocument, unwrapKey_wrapKey hk,
        unwrapValue_wrapValue hproper.1 hx]
      show unwrapDocument dates _ _ (mapSet acc (.characters key) val.asMaps) = _
      rw [mapSet_new val.asMaps (hkeys.2 _ List.mem_cons_self) (hfresh _ List.mem_cons_self),
        unwrapDocument_wrapFields hkeys' hproper.2 (fresh_concat val.asMaps hkeys.1 hfresh) hys,
        fieldsAsMaps, List.append_assoc]
      rfl

end

/-! ## §6. Values from Python. -/

/-- A key of a message, as JavaScript holds it. -/
def parsedKey : Option UserKey → WrappedKey
  | some (.number n) => .number (Binary64.ofInt n)
  | some (.octets b) => .octets b
  | some (.characters s) => .characters (Idb.units s)
  | none => .unset

mutual

/-- The builder that a message is parsed into. -/
def parsed : Gink.ValueBuilder → WrappedValue
  | .unset => .unset
  | .integer digits => .integer digits
  | .floating bits => .floating bits
  | .characters s => .characters (Idb.units s)
  | .special code => .special code
  | .timestamp micros => .timestamp micros
  | .document keys values => .document (keys.map parsedKey) (allParsed values)
  | .tuple values => .tuple (allParsed values)
  | .octets b => .octets b

def allParsed : List Gink.ValueBuilder → List WrappedValue
  | [] => []
  | v :: rest => parsed v :: allParsed rest

end

/-- A key of a dict in JavaScript. -/
def keyInJs : UserKey → JsKey
  | .number n => .number (Binary64.ofInt n)
  | .octets b => .octets b
  | .characters s => .characters (Idb.units s)

mutual

/-- A Python value in JavaScript: integers are big ones, lists and tuples arrays, dicts maps. -/
def inJs : GivenValue → JsValue
  | .none => .null
  | .bool b => .bool b
  | .str s => .string (Idb.units s)
  | .bytes b => .bytes b
  | .float bits => .number bits
  | .int n => .bigint n
  | .tuple items => .array (allInJs items)
  | .list items => .array (allInJs items)
  | .dict items => .map (itemsInJs items)

def allInJs : List GivenValue → List JsValue
  | [] => []
  | v :: rest => inJs v :: allInJs rest

def itemsInJs : List (UserKey × GivenValue) → List (JsKey × JsValue)
  | [] => []
  | (k, v) :: rest => (keyInJs k, inJs v) :: itemsInJs rest

end

mutual

/-- Every dict has keys of its own. -/
def Distinct : GivenValue → Prop
  | .tuple items => allDistinct items
  | .list items => allDistinct items
  | .dict items => (items.map Prod.fst).Nodup ∧ itemsDistinct items
  | _ => True

def allDistinct : List GivenValue → Prop
  | [] => True
  | v :: rest => Distinct v ∧ allDistinct rest

def itemsDistinct : List (UserKey × GivenValue) → Prop
  | [] => True
  | (_, v) :: rest => Distinct v ∧ itemsDistinct rest

end

mutual

/-- No dict in the value has a byte string for a key. -/
def WithoutOctetKeys : GivenValue → Prop
  | .tuple items => allWithoutOctetKeys items
  | .list items => allWithoutOctetKeys items
  | .dict items => (∀ b, UserKey.octets b ∉ items.map Prod.fst) ∧ itemsWithoutOctetKeys items
  | _ => True

def allWithoutOctetKeys : List GivenValue → Prop
  | [] => True
  | v :: rest => WithoutOctetKeys v ∧ allWithoutOctetKeys rest

def itemsWithoutOctetKeys : List (UserKey × GivenValue) → Prop
  | [] => True
  | (_, v) :: rest => WithoutOctetKeys v ∧ itemsWithoutOctetKeys rest

end

variable {limit : Nat}

theorem inRange_of_keyBuilder {k : UserKey} {key : Option UserKey} (h : keyBuilder k = .ok key) :
    k.InRange := by
  cases k with
  | number n =>
      show n.natAbs ≤ keyMax
      by_contra hout
      have hraises : keyBuilder (.number n)
          = .error (.valueError "integer key outside of allowed range") := if_pos (not_le.mp hout)
      rw [hraises] at h
      cases h
  | octets b => trivial
  | characters s => trivial

mutual

/-- What Python encodes has its keys within their range. -/
theorem keyed_of_encodeValue : ∀ {v : GivenValue} {b : Gink.ValueBuilder}, Distinct v →
    encodeValue limit v = .ok b → v.Keyed
  | .none, _, _, _ => trivial
  | .bool _, _, _, _ => trivial
  | .str _, _, _, _ => trivial
  | .bytes _, _, _, _ => trivial
  | .float _, _, _, _ => trivial
  | .int _, _, _, _ => trivial
  | .tuple items, _, hdistinct, h => by
      obtain ⟨xs, hxs, -⟩ := Gink.map_eq_ok.mp h
      exact allKeyed_of_encodeValues hdistinct hxs
  | .list items, _, hdistinct, h => by
      obtain ⟨xs, hxs, -⟩ := Gink.map_eq_ok.mp h
      exact allKeyed_of_encodeValues hdistinct hxs
  | .dict items, _, hdistinct, h => by
      obtain ⟨xs, hxs, -⟩ := Gink.map_eq_ok.mp h
      obtain ⟨hrange, hkeyed⟩ := itemsKeyed_of_encodeItems hdistinct.2 hxs
      exact ⟨hdistinct.1, hrange, hkeyed⟩

theorem allKeyed_of_encodeValues : ∀ {items : List GivenValue} {xs : List Gink.ValueBuilder},
    allDistinct items → encodeValues limit items = .ok xs → allKeyed items
  | [], _, _, _ => trivial
  | v :: rest, _, hdistinct, h => by
      obtain ⟨x, hx, h⟩ := Gink.bind_eq_ok.mp h
      obtain ⟨ys, hys, -⟩ := Gink.bind_eq_ok.mp h
      exact ⟨keyed_of_encodeValue hdistinct.1 hx, allKeyed_of_encodeValues hdistinct.2 hys⟩

theorem itemsKeyed_of_encodeItems : ∀ {items : List (UserKey × GivenValue)}
    {xs : List (Option UserKey × Gink.ValueBuilder)}, itemsDistinct items →
      encodeItems limit items = .ok xs →
        (∀ k ∈ items.map Prod.fst, k.InRange) ∧ itemsKeyed items
  | [], _, _, _ => ⟨fun _ hk => absurd hk List.not_mem_nil, trivial⟩
  | (k, v) :: rest, _, hdistinct, h => by
      obtain ⟨key, hkey, h⟩ := Gink.bind_eq_ok.mp h
      obtain ⟨x, hx, h⟩ := Gink.bind_eq_ok.mp h
      obtain ⟨ys, hys, -⟩ := Gink.bind_eq_ok.mp h
      obtain ⟨hrange, hkeyed⟩ := itemsKeyed_of_encodeItems hdistinct.2 hys
      refine ⟨?_, keyed_of_encodeValue hdistinct.1 hx, hkeyed⟩
      intro k' hk'
      rcases List.mem_cons.mp hk' with rfl | hk'
      · exact inRange_of_keyBuilder hkey
      · exact hrange k' hk'

end

/-- A key of a dict is a key that a `Map` has. -/
theorem normal_keyInJs {k : UserKey} (h : k.InRange) : (keyInJs k).normal = keyInJs k := by
  cases k with
  | number n =>
      have hn : n.natAbs ≤ 2 ^ 53 - 1 := h
      have hval := Binary64.val_ofInt (n := n) (by omega)
      have hlt := Binary64.packed_lt (m := n.natAbs) (by omega)
      unfold keyInJs JsKey.normal
      simp only
      rw [if_neg]
      intro hzero
      -- the sign without a magnitude would be the other zero
      have hinteger := Binary64.integer?_ofInt (n := n) (by omega)
      have hbits : Binary64.ofInt n = ⟨2 ^ 63, by decide⟩ := Fin.ext hzero
      rw [hbits] at hinteger
      have hn0 : (some 0 : Option Int) = some n := hinteger
      obtain rfl : 0 = n := Option.some.inj hn0
      exact absurd hzero (by decide)
  | octets b => rfl
  | characters s => rfl

theorem not_nan_ofInt {n : Int} (h : n.natAbs < 2 ^ 53) : isNaN (Binary64.ofInt n) = false := by
  have hinteger := Binary64.integer?_ofInt h
  by_contra hnan
  have hall : Binary64.exponent (Binary64.ofInt n) = 2047 := by
    unfold isNaN at hnan
    simp only [ne_eq, decide_not, Bool.not_eq_false, Bool.and_eq_true, decide_eq_true_eq] at hnan
    exact hnan.1
  unfold Binary64.integer? Binary64.magnitude? at hinteger
  rw [if_neg (by omega), if_pos hall] at hinteger
  cases hinteger

/-- Different keys of a dict are different to a `Map`. -/
theorem same_keyInJs {k k' : UserKey} (hk : k.InRange) (hk' : k'.InRange) (hne : k ≠ k') :
    (keyInJs k).same (keyInJs k') = false := by
  cases k with
  | number n =>
      cases k' with
      | number n' =>
          have hn : n.natAbs ≤ 2 ^ 53 - 1 := hk
          have hn' : n'.natAbs ≤ 2 ^ 53 - 1 := hk'
          show (decide _ || isNaN _ && isNaN _) = false
          rw [not_nan_ofInt (by omega), Bool.false_and, Bool.or_false, decide_eq_false_iff_not]
          intro heq
          exact hne (congrArg _ (Binary64.ofInt_inj (by omega) (by omega) heq))
      | octets b => rfl
      | characters s => rfl
  | octets b => cases k' <;> rfl
  | characters s =>
      cases k' with
      | number n' => rfl
      | octets b => rfl
      | characters s' =>
          refine decide_eq_false ?_
          intro heq
          exact hne (congrArg _ (Idb.units_injective heq))

theorem unwrapKey_parsedKey {k : UserKey} {key : Option UserKey} (h : keyBuilder k = .ok key) :
    unwrapKey (parsedKey key) = .ok (keyInJs k) := by
  rw [keyBuilder_eq_ok h]
  cases k <;> rfl

theorem itemsInJs_keys : ∀ items : List (UserKey × GivenValue),
    (itemsInJs items).map Prod.fst = (items.map Prod.fst).map keyInJs
  | [] => rfl
  | (k, v) :: rest => by
      rw [itemsInJs, List.map_cons, List.map_cons, List.map_cons, itemsInJs_keys rest]

/-- The keys of a dict are those of a `Map`. -/
theorem mapKeys_items {items : List (UserKey × GivenValue)} (hnodup : (items.map Prod.fst).Nodup)
    (hrange : ∀ k ∈ items.map Prod.fst, k.InRange) :
    MapKeys ((items.map Prod.fst).map keyInJs) := by
  refine ⟨?_, ?_⟩
  · rw [List.pairwise_map]
    refine hnodup.imp_of_mem ?_
    intro a b ha hb hne
    exact same_keyInJs (hrange a ha) (hrange b hb) hne
  · intro k hk
    obtain ⟨key, hkey, rfl⟩ := List.mem_map.mp hk
    exact normal_keyInJs (hrange key hkey)

mutual

/-- **What Python encodes is read in JavaScript.** -/
theorem unwrapValue_parsed : ∀ {v : GivenValue} {b : Gink.ValueBuilder}, v.Keyed →
    encodeValue limit v = .ok b → unwrapValue dates (parsed b) = .ok (inJs v)
  | .none, _, _, h => by cases h; rfl
  | .bool true, _, _, h => by cases h; rfl
  | .bool false, _, _, h => by cases h; rfl
  | .str _, _, _, h => by cases h; rfl
  | .bytes _, _, _, h => by cases h; rfl
  | .float _, _, _, h => by cases h; rfl
  | .int n, b, _, h => by
      unfold encodeValue at h
      split_ifs at h
      cases h
      rw [parsed, unwrapValue, bigIntOf_pyStr]
      rfl
  | .tuple items, b, hkeyed, h => by
      obtain ⟨xs, hxs, rfl⟩ := Gink.map_eq_ok.mp h
      rw [parsed, unwrapValue, unwrapValues_parsed hkeyed hxs]
      rfl
  | .list items, b, hkeyed, h => by
      obtain ⟨xs, hxs, rfl⟩ := Gink.map_eq_ok.mp h
      rw [parsed, unwrapValue, unwrapValues_parsed hkeyed hxs]
      rfl
  | .dict items, b, hkeyed, h => by
      obtain ⟨xs, hxs, rfl⟩ := Gink.map_eq_ok.mp h
      have hfresh : ∀ k ∈ (items.map Prod.fst).map keyInJs,
          ∀ k' ∈ ([] : List (JsKey × JsValue)).map Prod.fst, k'.same k = false :=
        fun _ _ _ hk' => absurd hk' List.not_mem_nil
      rw [parsed, unwrapValue,
        unwrapDocument_parsed (mapKeys_items hkeyed.1 hkeyed.2.1) hkeyed.2.2 hfresh hxs]
      rfl

theorem unwrapValues_parsed : ∀ {items : List GivenValue} {xs : List Gink.ValueBuilder},
    allKeyed items → encodeValues limit items = .ok xs →
      unwrapValues dates (allParsed xs) = .ok (allInJs items)
  | [], _, _, h => by cases h; rfl
  | v :: rest, xs, hkeyed, h => by
      obtain ⟨x, hx, h⟩ := Gink.bind_eq_ok.mp h
      obtain ⟨ys, hys, h⟩ := Gink.bind_eq_ok.mp h
      rw [← Gink.pure_eq_ok.mp h, allParsed, unwrapValues, unwrapValue_parsed hkeyed.1 hx,
        unwrapValues_parsed hkeyed.2 hys]
      rfl

theorem unwrapDocument_parsed : ∀ {items : List (UserKey × GivenValue)}
    {xs : List (Option UserKey × Gink.ValueBuilder)} {acc : List (JsKey × JsValue)},
    MapKeys ((items.map Prod.fst).map keyInJs) → itemsKeyed items →
    (∀ k ∈ (items.map Prod.fst).map keyInJs, ∀ k' ∈ acc.map Prod.fst, k'.same k = false) →
    encodeItems limit items = .ok xs →
      unwrapDocument dates (allParsed (xs.map Prod.snd)) ((xs.map Prod.fst).map parsedKey) acc
        = .ok (acc ++ itemsInJs items)
  | [], _, acc, _, _, _, h => by
      cases h
      rw [itemsInJs, List.append_nil]
      rfl
  | (k, v) :: rest, xs, acc, hkeys, hkeyed, hfresh, h => by
      obtain ⟨key, hkey, h⟩ := Gink.bind_eq_ok.mp h
      obtain ⟨x, hx, h⟩ := Gink.bind_eq_ok.mp h
      obtain ⟨ys, hys, h⟩ := Gink.bind_eq_ok.mp h
      have hkeys' : MapKeys ((rest.map Prod.fst).map keyInJs) :=
        ⟨(List.pairwise_cons.mp hkeys.1).2, fun k' hk' => hkeys.2 k' (List.mem_cons_of_mem _ hk')⟩
      rw [← Gink.pure_eq_ok.mp h, List.map_cons, List.map_cons, List.map_cons, allParsed,
        unwrapDocument, unwrapKey_parsedKey hkey, unwrapValue_parsed hkeyed.1 hx]
      show unwrapDocument dates _ _ (mapSet acc (keyInJs k) (inJs v)) = _
      rw [mapSet_new (inJs v) (hkeys.2 _ List.mem_cons_self) (hfresh _ List.mem_cons_self),
        unwrapDocument_parsed hkeys' hkeyed.2 (fresh_concat (inJs v) hkeys.1 hfresh) hys,
        itemsInJs, List.append_assoc]
      rfl

end

/-- Keys that are no byte strings are wrapped as they came. -/
theorem wrapKey_keyInJs {k : UserKey} {key : Option UserKey} (h : keyBuilder k = .ok key)
    (hscalar : ∀ b, k ≠ .octets b) :
    requireScalar (keyInJs k) = .ok () ∧ wrapKey (keyInJs k) = .ok (parsedKey key) := by
  have hrange := inRange_of_keyBuilder h
  rw [keyBuilder_eq_ok h]
  cases k with
  | number n => exact ⟨rfl, if_pos (Binary64.isSafeInteger_ofInt hrange)⟩
  | octets b => exact absurd rfl (hscalar b)
  | characters s => exact ⟨rfl, rfl⟩

mutual

/-- **What was read is wrapped again** to the builder it was read from. -/
theorem wrapValue_inJs : ∀ {v : GivenValue} {b : Gink.ValueBuilder}, WithoutOctetKeys v →
    encodeValue limit v = .ok b → wrapValue dates (inJs v) = .ok (parsed b)
  | .none, _, _, h => by cases h; rfl
  | .bool true, _, _, h => by cases h; rfl
  | .bool false, _, _, h => by cases h; rfl
  | .str _, _, _, h => by cases h; rfl
  | .bytes _, _, _, h => by cases h; rfl
  | .float _, _, _, h => by cases h; rfl
  | .int n, b, _, h => by
      unfold encodeValue at h
      split_ifs at h
      cases h
      rfl
  | .tuple items, b, hkeys, h => by
      obtain ⟨xs, hxs, rfl⟩ := Gink.map_eq_ok.mp h
      rw [inJs, wrapValue, wrapValues_inJs hkeys hxs]
      rfl
  | .list items, b, hkeys, h => by
      obtain ⟨xs, hxs, rfl⟩ := Gink.map_eq_ok.mp h
      rw [inJs, wrapValue, wrapValues_inJs hkeys hxs]
      rfl
  | .dict items, b, hkeys, h => by
      obtain ⟨xs, hxs, rfl⟩ := Gink.map_eq_ok.mp h
      obtain ⟨built, hbuilt, hfst, hsnd⟩ := wrapEntries_inJs hkeys.1 hkeys.2 hxs
      rw [inJs, wrapValue, hbuilt, parsed, ← hfst, ← hsnd]
      rfl

theorem wrapValues_inJs : ∀ {items : List GivenValue} {xs : List Gink.ValueBuilder},
    allWithoutOctetKeys items → encodeValues limit items = .ok xs →
      wrapValues dates (allInJs items) = .ok (allParsed xs)
  | [], _, _, h => by cases h; rfl
  | v :: rest, xs, hkeys, h => by
      obtain ⟨x, hx, h⟩ := Gink.bind_eq_ok.mp h
      obtain ⟨ys, hys, h⟩ := Gink.bind_eq_ok.mp h
      rw [← Gink.pure_eq_ok.mp h, allInJs, wrapValues, wrapValue_inJs hkeys.1 hx,
        wrapValues_inJs hkeys.2 hys]
      rfl

theorem wrapEntries_inJs : ∀ {items : List (UserKey × GivenValue)}
    {xs : List (Option UserKey × Gink.ValueBuilder)},
    (∀ b, UserKey.octets b ∉ items.map Prod.fst) → itemsWithoutOctetKeys items →
    encodeItems limit items = .ok xs →
      ∃ built, wrapEntries dates (itemsInJs items) = .ok built ∧
        built.map Prod.fst = (xs.map Prod.fst).map parsedKey ∧
        built.map Prod.snd = allParsed (xs.map Prod.snd)
  | [], _, _, _, h => by
      cases h
      exact ⟨[], rfl, rfl, rfl⟩
  | (k, v) :: rest, xs, hscalars, hkeys, h => by
      obtain ⟨key, hkey, h⟩ := Gink.bind_eq_ok.mp h
      obtain ⟨x, hx, h⟩ := Gink.bind_eq_ok.mp h
      obtain ⟨ys, hys, h⟩ := Gink.bind_eq_ok.mp h
      have hscalar : ∀ b, k ≠ .octets b := fun b hb => hscalars b (by rw [hb]; exact List.mem_cons_self)
      have hrest : ∀ b, UserKey.octets b ∉ rest.map Prod.fst :=
        fun b hb => hscalars b (List.mem_cons_of_mem _ hb)
      obtain ⟨built, hbuilt, hfst, hsnd⟩ := wrapEntries_inJs hrest hkeys.2 hys
      obtain ⟨hrequired, hwrapped⟩ := wrapKey_keyInJs hkey hscalar
      rw [← Gink.pure_eq_ok.mp h]
      refine ⟨(parsedKey key, parsed x) :: built, ?_, ?_, ?_⟩
      · rw [itemsInJs, wrapEntries, hrequired, hwrapped, wrapValue_inJs hkeys.1 hx, hbuilt]
        rfl
      · rw [List.map_cons, List.map_cons, List.map_cons, hfst]
      · rw [List.map_cons, List.map_cons, allParsed, hsnd]

end

mutual

/-- **A dict with a byte string for a key** is not wrapped again. -/
theorem withoutOctetKeys_of_wrapValue : ∀ {v : GivenValue} {b : WrappedValue},
    wrapValue dates (inJs v) = .ok b → WithoutOctetKeys v
  | .none, _, _ => trivial
  | .bool _, _, _ => trivial
  | .str _, _, _ => trivial
  | .bytes _, _, _ => trivial
  | .float _, _, _ => trivial
  | .int _, _, _ => trivial
  | .tuple items, _, h => by
      obtain ⟨xs, hxs, -⟩ := map_eq_ok.mp h
      exact allWithoutOctetKeys_of_wrapValues hxs
  | .list items, _, h => by
      obtain ⟨xs, hxs, -⟩ := map_eq_ok.mp h
      exact allWithoutOctetKeys_of_wrapValues hxs
  | .dict items, _, h => by
      obtain ⟨built, hbuilt, -⟩ := map_eq_ok.mp h
      exact itemsWithoutOctetKeys_of_wrapEntries hbuilt

theorem allWithoutOctetKeys_of_wrapValues : ∀ {items : List GivenValue}
    {xs : List WrappedValue}, wrapValues dates (allInJs items) = .ok xs →
      allWithoutOctetKeys items
  | [], _, _ => trivial
  | v :: rest, _, h => by
      obtain ⟨x, hx, h⟩ := bind_eq_ok.mp h
      obtain ⟨ys, hys, -⟩ := bind_eq_ok.mp h
      exact ⟨withoutOctetKeys_of_wrapValue hx, allWithoutOctetKeys_of_wrapValues hys⟩

theorem itemsWithoutOctetKeys_of_wrapEntries : ∀ {items : List (UserKey × GivenValue)}
    {built : List (WrappedKey × WrappedValue)},
    wrapEntries dates (itemsInJs items) = .ok built →
      (∀ b, UserKey.octets b ∉ items.map Prod.fst) ∧ itemsWithoutOctetKeys items
  | [], _, _ => ⟨fun _ => List.not_mem_nil, trivial⟩
  | (k, v) :: rest, _, h => by
      obtain ⟨_, hrequired, h⟩ := bind_eq_ok.mp h
      obtain ⟨_, -, h⟩ := bind_eq_ok.mp h
      obtain ⟨x, hx, h⟩ := bind_eq_ok.mp h
      obtain ⟨ys, hys, -⟩ := bind_eq_ok.mp h
      obtain ⟨hrest, hkeys⟩ := itemsWithoutOctetKeys_of_wrapEntries hys
      refine ⟨?_, withoutOctetKeys_of_wrapValue hx, hkeys⟩
      intro b hb
      rcases List.mem_cons.mp hb with hfirst | hb
      · rw [← show UserKey.octets b = k from hfirst] at hrequired
        cases hrequired
      · exact hrest b hb

end

/-! ## §7. There and back. -/

/-- **Values cross languages** exactly when no dict has a byte string for a key: what
JavaScript wraps it reads back; it reads all that Python encodes, and what it then wraps is
the message it has read, which Python decodes to the value. -/
theorem values_cross (dates : Dates) :
    (∀ (v : JsValue) (b : WrappedValue), v.Proper → wrapValue dates v = .ok b →
      unwrapValue dates b = .ok v.asMaps) ∧
    ∀ (limit : Nat) (v : GivenValue) (b : Gink.ValueBuilder), Distinct v →
      encodeValue limit v = .ok b →
        (∃ x, unwrapValue dates (parsed b) = .ok x) ∧
        ((∃ x j, unwrapValue dates (parsed b) = .ok x ∧ wrapValue dates x = .ok j) ↔
          WithoutOctetKeys v) ∧
        ∀ x j, unwrapValue dates (parsed b) = .ok x → wrapValue dates x = .ok j →
          j = parsed b ∧ decodeValue b = .ok v.plain := by
  refine ⟨fun v b hproper h => unwrapValue_wrapValue hproper h, ?_⟩
  intro limit v b hdistinct h
  have hkeyed := keyed_of_encodeValue hdistinct h
  have hread : unwrapValue dates (parsed b) = .ok (inJs v) := unwrapValue_parsed hkeyed h
  have honly : ∀ {x}, unwrapValue dates (parsed b) = .ok x → x = inJs v := fun hx =>
    Except.ok.inj (hx.symm.trans hread)
  refine ⟨⟨_, hread⟩, ⟨?_, ?_⟩, ?_⟩
  · rintro ⟨x, j, hx, hj⟩
    rw [honly hx] at hj
    exact withoutOctetKeys_of_wrapValue hj
  · intro hkeys
    exact ⟨_, _, hread, wrapValue_inJs hkeys h⟩
  · intro x j hx hj
    rw [honly hx] at hj
    have hagain : wrapValue dates (inJs v) = .ok (parsed b) :=
      wrapValue_inJs (withoutOctetKeys_of_wrapValue hj) h
    exact ⟨Except.ok.inj (hj.symm.trans hagain), decodeValue_encodeValue hkeyed h⟩

/-- Milliseconds and microseconds. -/
def wholeDates : Dates := ⟨(· / 1000), (· * 1000)⟩

/-- A plain object with a list in it, and a dict with a number and a string for keys. -/
theorem values_cross_nested :
    unwrapValue wholeDates (.document [.characters [97]] [.tuple [.integer "-5", .special 3]])
        = .ok (.map [(.characters [97], .array [.bigint (-5), .null])]) ∧
      ∃ x j, unwrapValue wholeDates (parsed (.document [some (.number 7), some (.characters "7")]
        [.special 1, .tuple []])) = .ok x ∧ wrapValue wholeDates x = .ok j := by
  constructor
  · refine (values_cross wholeDates).1 (.object [([97], .array [.bigint (-5), .null])]) _ ?_ rfl
    exact ⟨by decide, ⟨trivial, trivial, trivial⟩, trivial⟩
  · have hdistinct : Distinct (.dict [(.number 7, .bool true), (.characters "7", .list [])]) :=
      ⟨by decide, trivial, trivial, trivial⟩
    refine ((values_cross wholeDates).2 4300 _ _ hdistinct rfl).2.1.mpr ⟨?_, trivial, trivial, trivial⟩
    intro b hb
    simp at hb

/-- A dict with a byte string for a key: JavaScript reads it and cannot write it. -/
theorem octet_key_refused :
    encodeValue 4300 (.dict [(.octets [107], .none)])
        = .ok (.document [some (.octets [107])] [.special 3]) ∧
      unwrapValue wholeDates (parsed (.document [some (.octets [107])] [.special 3]))
        = .ok (.map [(.octets [107], .null)]) ∧
      wrapValue wholeDates (.map [(.octets [107], .null)])
        = .error ⟨"keys in documents must be numbers or strings"⟩ :=
  ⟨rfl, rfl, rfl⟩

end Values

end Js

end Gink
