/-
**Values kept at the nodes of the tree.**

Main definitions:

* `Value` — a value: null, a truth value, a 64-bit integer, a double-precision number, a text, a
  sequence of bytes, or a sequence of values;
* `Value.kind` — the name of the kind of a value;
* `Value.equal` — equality of values, which compares numbers as numbers: values of different kinds
  are never equal, and a value that contains a NaN does not equal itself;
* `Data` — the data of a node: values under text keys.
-/

import TransactionalTree.SortedMap
import TransactionalTree.Double

set_option relaxedAutoImplicit false
set_option autoImplicit false

namespace TransactionalTree

/-- A value kept under a key of a node. -/
inductive Value where
  /-- No information. -/
  | null
  /-- A truth value. -/
  | bool (b : Bool)
  /-- A 64-bit signed integer. -/
  | int (i : Int64)
  /-- A double-precision number. -/
  | float (x : Double)
  /-- A text. -/
  | string (s : String)
  /-- A sequence of bytes. -/
  | bytes (bs : List UInt8)
  /-- A sequence of values. -/
  | array (vs : List Value)
deriving Repr, Inhabited

namespace Value

/-! ### Identity of values -/

mutual

/-- Whether two values are the same, numbers by their bit patterns. -/
def identical : Value → Value → Bool
  | null, null => true
  | bool a, bool b => a = b
  | int a, int b => a = b
  | float a, float b => a = b
  | string a, string b => a = b
  | bytes a, bytes b => a = b
  | array a, array b => identicalAll a b
  | _, _ => false

/-- Whether two sequences of values are the same. -/
def identicalAll : List Value → List Value → Bool
  | [], [] => true
  | a :: as, b :: bs => identical a b && identicalAll as bs
  | _, _ => false

end

mutual

theorem identical_iff : (a b : Value) → (identical a b = true ↔ a = b)
  | array as, b => by cases b <;> simp [identical, identicalAll_iff as]
  | null, b => by cases b <;> simp [identical]
  | bool _, b => by cases b <;> simp [identical]
  | int _, b => by cases b <;> simp [identical]
  | float _, b => by cases b <;> simp [identical]
  | string _, b => by cases b <;> simp [identical]
  | bytes _, b => by cases b <;> simp [identical]

theorem identicalAll_iff : (as bs : List Value) → (identicalAll as bs = true ↔ as = bs)
  | [], bs => by cases bs <;> simp [identicalAll]
  | a :: as, bs => by cases bs <;> simp [identicalAll, identical_iff a, identicalAll_iff as]

end

instance : DecidableEq Value := fun a b => decidable_of_iff _ (identical_iff a b)

/-! ### Equality of values -/

mutual

/-- **Equality of values.**  Numbers are compared as numbers, all else by identity; values of
different kinds are never equal. -/
def equal : Value → Value → Bool
  | null, null => true
  | bool a, bool b => a = b
  | int a, int b => a = b
  | float a, float b => a.equal b
  | string a, string b => a = b
  | bytes a, bytes b => a = b
  | array a, array b => equalAll a b
  | _, _ => false

/-- Equality of sequences of values: equal length, and equal values in every place. -/
def equalAll : List Value → List Value → Bool
  | [], [] => true
  | a :: as, b :: bs => equal a b && equalAll as bs
  | _, _ => false

end

/-! ### The kind of a value -/

/-- The name of the kind of a value. -/
def kind : Value → String
  | null => "Null"
  | bool _ => "Bool"
  | int _ => "Int"
  | float _ => "Float"
  | string _ => "String"
  | bytes _ => "Bytes"
  | array _ => "Array"

/-- Whether the value is null. -/
def isNull : Value → Bool
  | null => true
  | _ => false

/-- The truth value, of a truth value. -/
def bool? : Value → Option Bool
  | bool b => some b
  | _ => none

/-- The integer, of an integer. -/
def int? : Value → Option Int64
  | int i => some i
  | _ => none

/-- The number, of a double-precision number. -/
def float? : Value → Option Double
  | float x => some x
  | _ => none

/-- The text, of a text. -/
def string? : Value → Option String
  | string s => some s
  | _ => none

/-- The bytes, of a sequence of bytes. -/
def bytes? : Value → Option (List UInt8)
  | bytes bs => some bs
  | _ => none

/-- The values, of a sequence of values. -/
def array? : Value → Option (List Value)
  | array vs => some vs
  | _ => none

end Value

/-- The data of a node: values under text keys. -/
abbrev Data := SortedMap String Value

/-- A set of names or keys. -/
abbrev NameSet := SortedSet String

end TransactionalTree
