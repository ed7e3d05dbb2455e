/-
**JSON documents.**

A document as a reader delivers it: objects keep their fields in the order of the text, and a
number is whole or binary according to how it was written.

Main definitions:

* `Json` — a document;
* `Json.field?`, `Json.string?`, `Json.bool?`, `Json.count?`, … — what a document holds;
* `Json.count`, `Json.texts`, `Json.optional` — documents of common shapes.
-/

import TransactionalTree.Double

set_option relaxedAutoImplicit false
set_option autoImplicit false

namespace TransactionalTree

/-- A JSON document. -/
inductive Json where
  /-- The word null. -/
  | null
  /-- A truth value. -/
  | bool (b : Bool)
  /-- A number written without point and exponent. -/
  | whole (n : Int)
  /-- Any other number. -/
  | binary (x : Double)
  /-- A text. -/
  | string (s : String)
  /-- A list. -/
  | list (items : List Json)
  /-- An object: its fields in the order of the text. -/
  | object (fields : List (String × Json))
deriving Repr, Inhabited

namespace Json

/-! ### What a document holds -/

/-- The value of the field `name` of an object. -/
def field? : Json → String → Option Json
  | object fields, name => (fields.find? (·.1 = name)).map (·.2)
  | _, _ => none

/-- The text, of a text. -/
def string? : Json → Option String
  | string s => some s
  | _ => none

/-- The truth value, of a truth value. -/
def bool? : Json → Option Bool
  | bool b => some b
  | _ => none

/-- The number, of a whole number that is not negative. -/
def count? : Json → Option Nat
  | whole n => if 0 ≤ n then some n.toNat else none
  | _ => none

/-- The items, of a list. -/
def items? : Json → Option (List Json)
  | list items => some items
  | _ => none

/-- The texts, of a list of texts. -/
def strings? : Json → Option (List String)
  | list items => items.mapM string?
  | _ => none

/-! ### Documents of common shapes -/

/-- A whole number that is not negative. -/
def count (n : Nat) : Json := whole n

/-- A list of texts. -/
def texts (ss : List String) : Json := list (ss.map string)

/-- Something that may be missing; null if it is. -/
def optional {α : Type} (write : α → Json) (a : Option α) : Json := a.elim null write

end Json

end TransactionalTree
