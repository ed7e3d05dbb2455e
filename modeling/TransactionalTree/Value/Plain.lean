/-
**Values in plain JSON.**

The plain form writes a value as the document that says the same, as far as there is one.  A double
is written by its bits, so that none is lost, and a sequence of bytes by hexadecimal digits; both
stand in an object with a single field.

Main definitions:

* `Value.toPlain`, `Value.ofPlain?` — writing and reading a value;
* `Data.toPlain`, `Data.ofPlain?` — writing and reading the data of a node.
-/

import TransactionalTree.Json
import TransactionalTree.Text.Digits
import TransactionalTree.Value

set_option relaxedAutoImplicit false
set_option autoImplicit false

namespace TransactionalTree

/-- The document of a double: its bits as sixteen digits. -/
def Double.toPlain (x : Double) : Json :=
  .object [("f", .string (String.ofList (Text.hexDigits 16 x.bits.toNat)))]

namespace Value

/-! ### Writing -/

mutual

/-- The plain document of a value. -/
def toPlain : Value → Json
  | null => .null
  | bool b => .bool b
  | int i => .whole i.toInt
  | float x => x.toPlain
  | string s => .string s
  | bytes bs =>
      .object [("b", .string (String.ofList (bs.flatMap fun b => Text.hexDigits 2 b.toNat)))]
  | array vs => .list (toPlainAll vs)

/-- The plain documents of the values of a sequence. -/
def toPlainAll : List Value → List Json
  | [] => []
  | v :: vs => toPlain v :: toPlainAll vs

end

/-! ### Reading -/

/-- The bytes that pairs of digits spell. -/
def readBytes? : List Char → Option (List UInt8)
  | [] => some []
  | a :: b :: cs =>
      match Text.hexNumber? [a, b], readBytes? cs with
      | some n, some bs => some (UInt8.ofNat n :: bs)
      | _, _ => none
  | [_] => none

/-- The value of an object with a single field that holds digits. -/
def ofDigits? (tag digits : String) : Option Value :=
  if tag = "f" then
    (Text.hexNumber? digits.toList).bind fun n =>
      if n < UInt64.size then some (.float ⟨UInt64.ofNat n⟩) else none
  else if tag = "b" then (readBytes? digits.toList).map .bytes
  else none

mutual

/-- The value that a plain document stands for, if it stands for one. -/
def ofPlain? : Json → Option Value
  | .null => some .null
  | .bool b => some (.bool b)
  | .whole n =>
      if -0x8000000000000000 ≤ n ∧ n < 0x8000000000000000 then some (.int (Int64.ofInt n)) else none
  | .binary _ => none
  | .string s => some (.string s)
  | .list items => (ofPlainAll? items).map .array
  | .object [(tag, .string digits)] => ofDigits? tag digits
  | .object _ => none

/-- The values that the plain documents of a list stand for. -/
def ofPlainAll? : List Json → Option (List Value)
  | [] => some []
  | item :: items =>
      match ofPlain? item, ofPlainAll? items with
      | some v, some vs => some (v :: vs)
      | _, _ => none

end

end Value

namespace Data

/-- The plain document of data: the value of each key. -/
def toPlain (d : Data) : Json := .object (d.toList.map fun e => (e.1, e.2.toPlain))

/-- The data that a plain document stands for, if it stands for some. -/
def ofPlain? : Json → Option Data
  | .object fields =>
      (fields.mapM fun f => (Value.ofPlain? f.2).map fun v => (f.1, v)).map SortedMap.ofList
  | _ => none

end Data

end TransactionalTree
