/-
**Quoted text.**

A text between double quotes in which every character that would not show is written as an escape:
the quote and the backslash behind a backslash, four controls by a letter, and every other
character that extends its neighbour or has no printed form by its code point in braces.

Main definitions:

* `Text.escape` — how one character stands between the quotes;
* `Text.quote` — the quoted form of a text;
* `Text.quoteList` — several quoted texts, separated by commas.
-/

import TransactionalTree.Text.Digits
import TransactionalTree.Text.GraphemeExtend
import TransactionalTree.Text.Unprintable

set_option relaxedAutoImplicit false
set_option autoImplicit false

namespace TransactionalTree

namespace Text

/-- How `c` stands between double quotes.  The single quote stands for itself. -/
def escape (c : Char) : List Char :=
  if c = '\x00' then ['\\', '0']
  else if c = '\t' then ['\\', 't']
  else if c = '\r' then ['\\', 'r']
  else if c = '\n' then ['\\', 'n']
  else if c = '"' then ['\\', '"']
  else if c = '\\' then ['\\', '\\']
  else if isGraphemeExtend c || isUnprintable c then
    ['\\', 'u', '\x7b'] ++ hexDigits 1 c.toNat ++ ['\x7d']
  else [c]

/-- The text between double quotes, with escapes. -/
def quote (s : String) : String :=
  String.ofList (['"'] ++ s.toList.flatMap escape ++ ['"'])

/-- The quoted texts, separated by a comma and a space. -/
def quoteList (ss : List String) : String := ", ".intercalate (ss.map quote)

end Text

end TransactionalTree
