/-
**Blank characters.**

The characters with the property White_Space, and the removal of blanks from both ends of a text.

Main definitions:

* `Text.isBlank` — whether a character is white space;
* `Text.trim` — a text without the blanks at its two ends.
-/

set_option relaxedAutoImplicit false
set_option autoImplicit false

namespace TransactionalTree

namespace Text

/-- Whether `c` is white space: the controls from tab to carriage return, next line, and the space
and line separators. -/
def isBlank (c : Char) : Bool :=
  (0x09 ≤ c.toNat && c.toNat ≤ 0x0d) || (0x2000 ≤ c.toNat && c.toNat ≤ 0x200a) ||
    [0x20, 0x85, 0xa0, 0x1680, 0x2028, 0x2029, 0x202f, 0x205f, 0x3000].contains c.toNat

/-- The text without the blanks at its two ends. -/
def trim (s : String) : String :=
  String.ofList ((s.toList.dropWhile isBlank).reverse.dropWhile isBlank).reverse

end Text

end TransactionalTree
