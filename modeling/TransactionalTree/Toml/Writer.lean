/-
**Writing TOML.**

A plain document is written with one line for each entry, and with the table at the end behind an
empty line and its header.

Main definitions:

* `Toml.Writer.scalarText` — the characters of a value;
* `Toml.Writer.linesOf` — the lines of a document;
* `Toml.print?` — the text of a document;
* `Toml.lineByLine` — **a library**: what is read and written line by line.
-/

import TransactionalTree.Toml.Reader

set_option relaxedAutoImplicit false
set_option autoImplicit false

namespace TransactionalTree

namespace Toml

namespace Writer

/-- The characters of a value. -/
def scalarText : Toml → List Char
  | .string s => '"' :: (s.toList ++ ['"'])
  | .integer n =>
      match n.toInt with
      | .ofNat m => Nat.toDigits 10 m
      | .negSucc m => '-' :: Nat.toDigits 10 (m + 1)
  | .boolean b => (toString b).toList
  | _ => []

/-- The line of an entry. -/
def entryLine (e : String × Toml) : List Char := e.1.toList ++ ' ' :: '=' :: ' ' :: scalarText e.2

/-- The line above the entries of a table. -/
def headerLine (name : String) : List Char := '[' :: (name.toList ++ [']'])

/-- The lines of a document. -/
def linesOf : Entries → List (List Char)
  | [] => []
  | [(name, .table inner)] => [] :: headerLine name :: inner.map entryLine
  | e :: entries => entryLine e :: linesOf entries

/-- The lines, each with a line feed behind it. -/
def unlines (ls : List (List Char)) : List Char := ls.flatMap (· ++ ['\n'])

end Writer

/-- The text of a document, if it is plain. -/
def print? (entries : Entries) : Option String :=
  if isPlain entries then some (String.ofList (Writer.unlines (Writer.linesOf entries))) else none

/-- The name of the alternative that a value stands for: a text, or the key of an empty table or
list. -/
def variant? : Toml → Option String
  | .string s => some s
  | .table [(name, .table [])] => some name
  | .table [(name, .array [])] => some name
  | _ => none

/-- **A library** that reads and writes documents line by line. -/
def lineByLine : Library := ⟨parse?, print?, variant?⟩

end Toml

end TransactionalTree
