/-
**Digits.**

Numbers are read from digits and written with them, in base 16 or below.

Main definitions:

* `Text.digit?` — the value of a digit;
* `Text.numberOf`, `Text.hexNumber?` — the number that digits spell;
* `Text.hexDigits` — a number in base 16, filled up with zeros;
* `Text.scalar?` — the character of a code point.
-/

set_option relaxedAutoImplicit false
set_option autoImplicit false

namespace TransactionalTree

namespace Text

/-- The value of a hexadecimal digit, in either case. -/
def digit? (c : Char) : Option Nat :=
  if '0' ≤ c ∧ c ≤ '9' then some (c.toNat - '0'.toNat)
  else if 'a' ≤ c ∧ c ≤ 'f' then some (c.toNat - 'a'.toNat + 10)
  else if 'A' ≤ c ∧ c ≤ 'F' then some (c.toNat - 'A'.toNat + 10)
  else none

/-- The number that digits of the base spell. -/
def numberOf (base : Nat) (ds : List Char) : Nat :=
  ds.foldl (fun n d => base * n + (digit? d).getD 0) 0

/-- The number that hexadecimal digits spell; nothing if another character is among them. -/
def hexNumber? (ds : List Char) : Option Nat :=
  if ds.all fun d => (digit? d).isSome then some (numberOf 16 ds) else none

/-- The lower-case hexadecimal digits of `n`, with zeros in front to make them at least `width`. -/
def hexDigits (width n : Nat) : List Char :=
  let ds := Nat.toDigits 16 n
  List.replicate (width - ds.length) '0' ++ ds

/-- The character with this code point, unless it is a surrogate or beyond the last one. -/
def scalar? (n : Nat) : Option Char := if n.isValidChar then some (Char.ofNat n) else none

end Text

end TransactionalTree
