/-
  Gink.Proto.Value — user values and the text of integers (coding.py).

  `decode_value` turns a `Value` message into a Python value.  Integers travel as
  decimal text and are read with `int(...)`; doubles and datetimes are carried
  through unread.
-/
import Gink.Proto.Builders

namespace Gink

/-- `UserValue`: what `decode_value` returns. -/
inductive UserValue where
  | none
  | bool (b : Bool)
  | str (s : String)
  | bytes (b : Bytes)
  | float (bits : U64)
  | int (n : Int)
  | datetime (micros : Int)
  | tuple (items : List UserValue)
  | dict (items : List (UserKey × UserValue))
  deriving Repr

/-- The value of a run of decimal digits, single underscores allowed between them. -/
def digitsValue : List Char → Nat → Option Nat
  | [], acc => some acc
  | c :: rest, acc =>
      if c.isDigit then digitsValue rest (acc * 10 + (c.toNat - '0'.toNat))
      else match c, rest with
        | '_', d :: rest' =>
            if d.isDigit then digitsValue rest' (acc * 10 + (d.toNat - '0'.toNat)) else none
        | _, _ => none

/-- A non-empty run of digits. -/
def naturalText : List Char → Option Nat
  | [] => none
  | c :: rest => if c.isDigit then digitsValue (c :: rest) 0 else none

/-- Python's `int(text)`: white space around, an optional sign, digits. -/
def pyInt (text : String) : Except Error Int :=
  let trimmed := ((text.toList.dropWhile Char.isWhitespace).reverse.dropWhile
    Char.isWhitespace).reverse
  orRaise (.valueError "invalid literal for int() with base 10")
    (match trimmed with
      | '-' :: rest => (naturalText rest).map (fun n => -(n : Int))
      | '+' :: rest => (naturalText rest).map (fun n => (n : Int))
      | rest => (naturalText rest).map (fun n => (n : Int)))

/-- `result[key] = value` of a dict: an existing key keeps its place. -/
def dictSet (items : List (UserKey × UserValue)) (k : UserKey) (v : UserValue) :
    List (UserKey × UserValue) :=
  if items.any (fun item => item.1 = k) then
    items.map (fun item => if item.1 = k then (k, v) else item)
  else items ++ [(k, v)]

mutual

/-- `decode_value(value_builder)`. -/
def decodeValue : ValueBuilder → Except Error UserValue
  | .special code =>
      if code = 3 then .ok .none
      else if code = 1 then .ok (.bool true)
      else if code = 2 then .ok (.bool false)
      else .error (.valueError "don't know how to decode")
  | .characters s => .ok (.str s)
  | .octets b => .ok (.bytes b)
  | .floating bits => .ok (.float bits)
  | .integer digits => (pyInt digits).map .int
  | .timestamp micros => .ok (.datetime micros)
  | .tuple values => (decodeValues values).map .tuple
  | .document keys values => (decodeDocument values keys []).map .dict
  | .unset => .error (.valueError "don't know how to decode")

/-- The items of a tuple, in order. -/
def decodeValues : List ValueBuilder → Except Error (List UserValue)
  | [] => .ok []
  | v :: rest => do
      let x ← decodeValue v
      let xs ← decodeValues rest
      return x :: xs

/-- The items of a document: one value for each key, surplus values unread. -/
def decodeDocument : List ValueBuilder → List (Option UserKey) → List (UserKey × UserValue) →
    Except Error (List (UserKey × UserValue))
  | _, [], acc => .ok acc
  | [], _ :: _, _ => .error .indexError
  | v :: values, k :: keys, acc => do
      let decoded ← orRaise (.assertionError "decoded is not None") k
      let x ← decodeValue v
      decodeDocument values keys (dictSet acc decoded x)

end

/-- `isinstance(value, str)`, with the string. -/
def UserValue.str? : UserValue → Option String
  | .str s => some s
  | _ => Option.none

end Gink
