/-
  Gink.Proto.Keys — user keys and their serialised form (key.proto, coding.py).

  The middle part of a directory's index key is a serialised `Key` message: a tag
  byte, then a varint (numbers, zigzag coded) or a length and that many bytes.
  What the index needs of it is that no serialised key is a proper prefix of
  another one, which follows from `parse_append`: a serialised key can be read off
  the front of any string.
-/
import Gink.Bytes.Lex
import Gink.Proto.Errors
import Mathlib

namespace Gink

/-- `UserKey = Union[str, int, bytes]`, the contents of a `Key` message. -/
inductive UserKey where
  | number (n : Int)
  | octets (b : Bytes)
  | characters (s : String)
  deriving DecidableEq, Repr

/-- The UTF-8 bytes of a string. -/
def utf8 (s : String) : Bytes := s.toUTF8.data.toList.map (·.toFin)

theorem utf8_injective : Function.Injective utf8 := by
  intro s t h
  have hinj : Function.Injective UInt8.toFin := fun a b hab => UInt8.toFin_inj.mp hab
  have h1 := List.map_injective_iff.mpr hinj h
  have h2 : s.toUTF8 = t.toUTF8 := ByteArray.ext (Array.ext' h1)
  exact String.toByteArray_inj.mp h2

/-! ## §1. Varints. -/

/-- Base-128 groups, least significant first, the high bit marking continuation. -/
def varintAux : Nat → Nat → Bytes
  | 0, n => [Fin.ofNat 256 n]
  | fuel + 1, n =>
      if n < 128 then [Fin.ofNat 256 n]
      else Fin.ofNat 256 (n % 128 + 128) :: varintAux fuel (n / 128)

/-- The protobuf varint of `n`. -/
def varint (n : Nat) : Bytes := varintAux n n

/-- Read one varint off the front. -/
def parseVarint : Bytes → Option (Nat × Bytes)
  | [] => none
  | b :: rest =>
      if b.val < 128 then some (b.val, rest)
      else match parseVarint rest with
        | some (n, rest') => some (b.val - 128 + 128 * n, rest')
        | none => none

theorem parseVarint_varintAux (fuel n : Nat) (rest : Bytes) (h : n < 128 * 2 ^ fuel) :
    parseVarint (varintAux fuel n ++ rest) = some (n, rest) := by
  induction fuel generalizing n with
  | zero =>
      have hn : n < 128 := by simpa using h
      have hv : n % 256 = n := Nat.mod_eq_of_lt (by omega)
      simp [varintAux, parseVarint, hv, hn]
  | succ fuel ih =>
      simp only [varintAux]
      split_ifs with hn
      · have hv : n % 256 = n := Nat.mod_eq_of_lt (by omega)
        simp [parseVarint, hv, hn]
      · have hdiv : n / 128 < 128 * 2 ^ fuel := by
          rw [Nat.pow_succ] at h
          omega
        have hv : (n % 128 + 128) % 256 = n % 128 + 128 := Nat.mod_eq_of_lt (by omega)
        have hge : ¬ n % 128 + 128 < 128 := by omega
        simp only [List.cons_append, parseVarint, Fin.val_ofNat, hv, if_neg hge, ih _ hdiv,
          Option.some.injEq, Prod.mk.injEq, and_true]
        omega

/-- A varint can be read off the front of any string. -/
theorem parseVarint_varint (n : Nat) (rest : Bytes) :
    parseVarint (varint n ++ rest) = some (n, rest) := by
  refine parseVarint_varintAux n n rest ?_
  have := Nat.lt_two_pow_self (n := n)
  omega

/-! ## §2. Serialised keys. -/

/-- Zigzag coding of a `sint64`. -/
def zigzag (n : Int) : Nat := if 0 ≤ n then 2 * n.toNat else 2 * (-n).toNat - 1

/-- Its inverse. -/
def unzigzag (n : Nat) : Int := if n % 2 = 0 then (n / 2 : Nat) else -((n + 1) / 2 : Nat)

theorem unzigzag_zigzag (n : Int) : unzigzag (zigzag n) = n := by
  unfold zigzag unzigzag
  split_ifs <;> omega

/-- `serialize(KeyBuilder)` for a builder holding `key`. -/
def UserKey.serialize : UserKey → Bytes
  | .number n => 0x08 :: varint (zigzag n)
  | .octets b => 0x12 :: (varint b.length ++ b)
  | .characters s => 0x1a :: (varint (utf8 s).length ++ utf8 s)

/-- The payload of a serialised key: what `serialize` writes for it, before it is
interpreted as a number, bytes or text. -/
inductive KeyPayload where
  | number (n : Nat)
  | octets (b : Bytes)
  | characters (b : Bytes)
  deriving DecidableEq

/-- The payload of a key. -/
def UserKey.payload : UserKey → KeyPayload
  | .number n => .number (zigzag n)
  | .octets b => .octets b
  | .characters s => .characters (utf8 s)

/-- Read one serialised key off the front. -/
def parsePayload : Bytes → Option (KeyPayload × Bytes)
  | [] => none
  | tag :: rest =>
      match parseVarint rest with
      | none => none
      | some (n, rest') =>
          if tag = 0x08 then some (.number n, rest')
          else if tag = 0x12 then some (.octets (rest'.take n), rest'.drop n)
          else if tag = 0x1a then some (.characters (rest'.take n), rest'.drop n)
          else none

/-- **A serialised key can be read off the front of any string.** -/
theorem parse_append (k : UserKey) (rest : Bytes) :
    parsePayload (k.serialize ++ rest) = some (k.payload, rest) := by
  cases k with
  | number n => simp [UserKey.serialize, parsePayload, parseVarint_varint, UserKey.payload]
  | octets b =>
      simp [UserKey.serialize, parsePayload, parseVarint_varint, UserKey.payload]
  | characters s =>
      simp [UserKey.serialize, parsePayload, parseVarint_varint, UserKey.payload]

theorem UserKey.payload_injective : Function.Injective UserKey.payload := by
  intro a b h
  cases a <;> cases b <;> simp only [UserKey.payload, KeyPayload.number.injEq,
    KeyPayload.octets.injEq, KeyPayload.characters.injEq, reduceCtorEq] at h
  · have hu := congrArg unzigzag h
    rw [unzigzag_zigzag, unzigzag_zigzag] at hu
    rw [hu]
  · rw [h]
  · rw [utf8_injective h]

/-- **Serialised keys are prefix-free**: two keys at the front of one string are
one key, and what follows them is the same. -/
theorem UserKey.serialize_append_inj {a b : UserKey} {x y : Bytes}
    (h : a.serialize ++ x = b.serialize ++ y) : a = b ∧ x = y := by
  have ha := parse_append a x
  rw [h, parse_append b y] at ha
  injection ha with ha
  injection ha with hp hr
  exact ⟨(UserKey.payload_injective hp).symm, hr.symm⟩

/-! ## §3. Reading a stored key back. -/

/-- The string a UTF-8 payload spells, if it spells one. -/
def fromUtf8 (b : Bytes) : Option String :=
  String.fromUTF8? ⟨(b.map (fun x => UInt8.ofFin x)).toArray⟩

theorem fromUtf8_utf8 (s : String) : fromUtf8 (utf8 s) = some s := by
  have hbytes : (⟨((utf8 s).map (fun x => UInt8.ofFin x)).toArray⟩ : ByteArray) = s.toUTF8 := by
    unfold utf8
    rw [List.map_map]
    have hid : ((fun x => UInt8.ofFin x) ∘ fun x : UInt8 => x.toFin) = id := by
      funext x
      simp
    rw [hid, List.map_id]
  unfold fromUtf8
  rw [hbytes]
  simp only [String.fromUTF8?, Option.dite_none_right_eq_some]
  exact ⟨s.isValidUTF8, rfl⟩

/-- The bytes of a varint. -/
theorem length_varintAux (fuel n k : Nat) (hfuel : n < 128 * 2 ^ fuel) (h : n < 128 ^ (k + 1)) :
    (varintAux fuel n).length ≤ k + 1 := by
  induction k generalizing fuel n with
  | zero =>
      have hn : n < 128 := by simpa using h
      cases fuel <;> simp [varintAux, hn]
  | succ k ih =>
      cases fuel with
      | zero => simp [varintAux]
      | succ fuel =>
          simp only [varintAux]
          split_ifs with hn
          · simp
          · rw [List.length_cons]
            have hdiv : n / 128 < 128 * 2 ^ fuel := by
              rw [Nat.pow_succ] at hfuel
              omega
            have hless : n / 128 < 128 ^ (k + 1) := by
              rw [Nat.pow_succ] at h
              omega
            have := ih fuel (n / 128) hdiv hless
            omega

/-- Read a varint of at most `limit` bytes off the front. -/
def readVarint (limit : Nat) (data : Bytes) : Option (Nat × Bytes) :=
  (parseVarint data).filter fun found => decide (data.length ≤ found.2.length + limit)

theorem readVarint_varint (k n : Nat) (rest : Bytes) (h : n < 128 ^ (k + 1)) :
    readVarint (k + 1) (varint n ++ rest) = some (n, rest) := by
  have hfuel : n < 128 * 2 ^ n := by
    have := Nat.lt_two_pow_self (n := n)
    omega
  have hlen : (varint n).length ≤ k + 1 := length_varintAux n n k hfuel h
  unfold readVarint
  rw [parseVarint_varint, Option.filter_some, List.length_append, if_pos (by simp; omega)]

/-- How deep groups may nest. -/
def groupLimit : Nat := 100

/-- The fields of a `Key` message, read one after the other.  All members are in one
`oneof`: the last one that is set stays.  A field of another number or of another wire type
is skipped, and so is a group with all it contains; `groups` are the open ones. -/
def readFields : Nat → List Nat → Bytes → Option UserKey → Option (Option UserKey)
  | _, [], [], found => some found
  | _, _ :: _, [], _ => none
  | 0, _, _ :: _, _ => none
  | fuel + 1, groups, data, found =>
      match readVarint 5 data with
      | none => none
      | some (tag, rest) =>
          let field := tag / 8
          if tag ≥ 2 ^ 32 ∨ field = 0 then none
          else match tag % 8 with
            | 0 => match readVarint 10 rest with
                | none => none
                | some (n, rest) =>
                    if groups = [] ∧ field = 1 then
                      readFields fuel groups rest (some (.number (unzigzag (n % 2 ^ 64))))
                    else readFields fuel groups rest found
            | 1 => if rest.length < 8 then none else readFields fuel groups (rest.drop 8) found
            | 2 => match parseVarint rest with
                | none => none
                | some (n, rest) =>
                    if rest.length < n then none
                    else if groups = [] ∧ field = 2 then
                      readFields fuel groups (rest.drop n) (some (.octets (rest.take n)))
                    else if groups = [] ∧ field = 3 then
                      match fromUtf8 (rest.take n) with
                      | none => none
                      | some s => readFields fuel groups (rest.drop n) (some (.characters s))
                    else readFields fuel groups (rest.drop n) found
            | 3 => if groups.length ≥ groupLimit then none
                else readFields fuel (field :: groups) rest found
            | 4 => if groups.head? = some field then readFields fuel groups.tail rest found
                else none
            | 5 => if rest.length < 4 then none else readFields fuel groups (rest.drop 4) found
            | _ => none

/-- `decode_key(data)` of a stored middle key: `KeyBuilder.FromString`, then the
member of the `oneof` that is set. -/
def decodeKey (data : Bytes) : Except Error (Option UserKey) :=
  orRaise .decodeError (readFields data.length [] data none)

/-- **Round trip**: a stored key reads back as itself. -/
theorem decodeKey_serialize (k : UserKey) (h : ∀ n, k = .number n → n.natAbs < 2 ^ 53) :
    decodeKey k.serialize = .ok (some k) := by
  have htag (tag : Byte) (rest : Bytes) (h : tag.val < 128) :
      readVarint 5 (tag :: rest) = some (tag.val, rest) := by
    simp [readVarint, parseVarint, h]
  unfold decodeKey
  cases k with
  | number n =>
      have hsmall : zigzag n < 2 ^ 64 := by
        have := h n rfl
        unfold zigzag
        split_ifs <;> omega
      have hread := readVarint_varint 9 (zigzag n) [] (hsmall.trans (by decide))
      rw [List.append_nil] at hread
      have hback : unzigzag (zigzag n % 2 ^ 64) = n := by
        rw [Nat.mod_eq_of_lt hsmall, unzigzag_zigzag]
      simp only [UserKey.serialize, List.length_cons, readFields]
      rw [htag 8 _ (by decide)]
      simp only [show ((8 : Byte) : Nat) = 8 from rfl]
      simpa [hread, readFields, orRaise] using hback
  | octets b =>
      simp only [UserKey.serialize, List.length_cons, readFields]
      rw [htag 0x12 _ (by decide)]
      simp [parseVarint_varint, readFields, orRaise]
  | characters s =>
      simp only [UserKey.serialize, List.length_cons, readFields]
      rw [htag 0x1a _ (by decide)]
      simp [parseVarint_varint, readFields, fromUtf8_utf8, orRaise]

end Gink
