/-
**Values and paths as JSON documents.**

A value is written as an object with a single field that is named after the kind of the value and
holds its content; null, which has no content, is also written as the bare name of its kind.  A path
is an object with the list of its names, or a list whose only item is that list.

Main definitions:

* `Value.toTagged`, `Value.ofTagged?` — writing and reading a value;
* `Path.toJson`, `Path.ofJson?` — writing and reading a path.  Reading does not check the names.
-/

import TransactionalTree.Json
import TransactionalTree.Path.Basic
import TransactionalTree.Value

set_option relaxedAutoImplicit false
set_option autoImplicit false

namespace TransactionalTree

namespace Value

/-! ### Writing -/

mutual

/-- The document of a value.  A number that is not finite has no written form and becomes null. -/
def toTagged : Value → Json
  | null => .string "Null"
  | bool b => .object [("Bool", .bool b)]
  | int i => .object [("Int", .whole i.toInt)]
  | float x => .object [("Float", if x.isFinite then .binary x else .null)]
  | string s => .object [("String", .string s)]
  | bytes bs => .object [("Bytes", .list (bs.map fun b => .whole b.toNat))]
  | array vs => .object [("Array", .list (toTaggedAll vs))]

/-- The documents of the values of a sequence. -/
def toTaggedAll : List Value → List Json
  | [] => []
  | v :: vs => toTagged v :: toTaggedAll vs

end

/-! ### Reading -/

/-- A whole number that fits into 64 bits with sign. -/
def readInt? : Json → Option Int64
  | .whole n =>
      if -0x8000000000000000 ≤ n ∧ n < 0x8000000000000000 then some (Int64.ofInt n) else none
  | _ => none

/-- Any number, rounded to the nearest double. -/
def readDouble? : Json → Option Double
  | .whole n => some (.ofInt n)
  | .binary x => some x
  | _ => none

/-- A whole number that fits into a byte. -/
def readByte? : Json → Option UInt8
  | .whole n => if 0 ≤ n ∧ n < 256 then some (UInt8.ofNat n.toNat) else none
  | _ => none

/-- The value of a kind other than a sequence of values, from its content. -/
def ofContent? (tag : String) (content : Json) : Option Value :=
  match tag, content with
  | "Null", .null => some .null
  | "Bool", .bool b => some (.bool b)
  | "Int", n => (readInt? n).map .int
  | "Float", x => (readDouble? x).map .float
  | "String", .string s => some (.string s)
  | "Bytes", .list items => (items.mapM readByte?).map .bytes
  | _, _ => none

mutual

/-- The value that a document stands for; nothing if it is not the document of a value. -/
def ofTagged? : Json → Option Value
  | .string tag => if tag = "Null" then some .null else none
  | .object [(tag, .list items)] =>
      if tag = "Array" then (ofTaggedAll? items).map .array else ofContent? tag (.list items)
  | .object [(tag, content)] => ofContent? tag content
  | _ => none

/-- The values that the documents of a list stand for. -/
def ofTaggedAll? : List Json → Option (List Value)
  | [] => some []
  | item :: items =>
      match ofTagged? item, ofTaggedAll? items with
      | some v, some vs => some (v :: vs)
      | _, _ => none

end

end Value

namespace Path

/-- The document of a path. -/
def toJson (p : Path) : Json := .object [("elements", .list (p.names.map .string))]

/-- The path that a document stands for.  Other fields are ignored, and any text is taken for a
name. -/
def ofJson? : Json → Option Path
  | .list [item] => item.strings?.map Path.mk
  | .object fields => ((Json.object fields).field? "elements").bind fun item =>
      item.strings?.map Path.mk
  | _ => none

end Path

end TransactionalTree
