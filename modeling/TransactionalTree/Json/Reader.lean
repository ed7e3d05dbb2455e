/-
**Reading JSON.**

The reader follows the grammar of the format closely.  A number without point and exponent that fits
into 64 bits, with or without sign, is whole, and any other is rounded to the nearest double; minus
zero is not whole.  Of two fields of an object with one name the later counts.

Main definitions:

* `Json.Reader.text?`, `Json.Reader.number?`, `Json.Reader.value?` — the parts of a document;
* `Json.parse?` — **the document of a text**.
-/

import TransactionalTree.Json
import TransactionalTree.Text.Digits

set_option relaxedAutoImplicit false
set_option autoImplicit false

namespace TransactionalTree

namespace Json

namespace Reader

/-- The characters behind the blanks in front. -/
def skipSpace (cs : List Char) : List Char :=
  cs.dropWhile fun c => c = ' ' || c = '\t' || c = '\n' || c = '\r'

/-! ### Texts -/

/-- A part of a text: a character, or a code unit given by its number. -/
inductive Piece where
  /-- A character. -/
  | char (c : Char)
  /-- A code unit. -/
  | unit (n : Nat)
deriving DecidableEq, Repr, Inhabited

/-- The character that a letter stands for behind a backslash. -/
def escaped? : Char → Option Char
  | '"' => some '"'
  | '\\' => some '\\'
  | '/' => some '/'
  | 'b' => some '\x08'
  | 'f' => some '\x0c'
  | 'n' => some '\n'
  | 'r' => some '\r'
  | 't' => some '\t'
  | _ => none

/-- Read on within quotes, up to and including the closing one: the parts of the text behind the
parts `seen`, the last one of which comes first, and what follows. -/
def pieces? (seen : List Piece) : List Char → Option (List Piece × List Char)
  | [] => none
  | '"' :: cs => some (seen.reverse, cs)
  | '\\' :: 'u' :: a :: b :: c :: d :: cs =>
      match Text.hexNumber? [a, b, c, d] with
      | some n => pieces? (.unit n :: seen) cs
      | none => none
  | '\\' :: c :: cs =>
      match escaped? c with
      | some c => pieces? (.char c :: seen) cs
      | none => none
  | c :: cs => if c = '\\' || c.toNat < 0x20 then none else pieces? (.char c :: seen) cs

/-- The character of a pair of code units, the first of which is a high surrogate. -/
def paired? (high low : Nat) : Option Char :=
  if 0xdc00 ≤ low ∧ low < 0xe000 then
    Text.scalar? (0x10000 + (high - 0xd800) * 0x400 + (low - 0xdc00))
  else none

/-- The characters of the parts of a text; surrogates have to come in pairs. -/
def join? : List Piece → Option (List Char)
  | [] => some []
  | .char c :: ps => (join? ps).map (c :: ·)
  | .unit n :: ps =>
      if 0xd800 ≤ n ∧ n < 0xdc00 then
        match ps with
        | .unit m :: ps =>
            match paired? n m, join? ps with
            | some c, some cs => some (c :: cs)
            | _, _ => none
        | _ => none
      else match Text.scalar? n, join? ps with
        | some c, some cs => some (c :: cs)
        | _, _ => none

/-- Read on within quotes, up to and including the closing one: the text, and what follows. -/
def text? (cs : List Char) : Option (String × List Char) :=
  (pieces? [] cs).bind fun r => (join? r.1).map fun text => (String.ofList text, r.2)

/-! ### Numbers -/

/-- Digits in front, at least one, and what follows. -/
def digits? (cs : List Char) : Option (List Char × List Char) :=
  let ds := cs.takeWhile Char.isDigit
  if ds = [] then none else some (ds, cs.drop ds.length)

/-- The digits behind a point, if there is one. -/
def fraction? : List Char → Option (Option (List Char) × List Char)
  | '.' :: cs => (digits? cs).map fun r => (some r.1, r.2)
  | cs => some (none, cs)

/-- The exponent, if there is one. -/
def exponent? : List Char → Option (Option Int × List Char)
  | [] => some (none, [])
  | c :: cs =>
      if c = 'e' || c = 'E' then
        let (below, cs) := match cs with
          | '-' :: cs => (true, cs)
          | '+' :: cs => (false, cs)
          | cs => (false, cs)
        (digits? cs).map fun r =>
          let n : Int := Text.numberOf 10 r.1
          (some (if below then -n else n), r.2)
      else some (none, c :: cs)

/-- The whole number with this sign and size, unless it is too large or minus zero. -/
def wholeNumber? (negative : Bool) (n : Nat) : Option Int :=
  if negative then if 0 < n ∧ n ≤ 0x8000000000000000 then some (-(n : Int)) else none
  else if n < UInt64.size then some (n : Int) else none

/-- The number that is made of its parts. -/
def assemble (negative : Bool) (ds : List Char) (fraction : Option (List Char))
    (exponent : Option Int) : Json :=
  let places := fraction.getD []
  let rounded : Json := .binary <|
    .ofDecimal negative (Text.numberOf 10 (ds ++ places)) (exponent.getD 0 - places.length)
  if fraction.isNone && exponent.isNone then
    (wholeNumber? negative (Text.numberOf 10 ds)).elim rounded .whole
  else rounded

/-- Read a number, and what follows. -/
def number? (cs : List Char) : Option (Json × List Char) := do
  let (negative, cs) := match cs with
    | '-' :: cs => (true, cs)
    | cs => (false, cs)
  let (ds, cs) ← digits? cs
  if ds.head? = some '0' && ds.length ≠ 1 then none
  else
    let (fraction, cs) ← fraction? cs
    let (exponent, cs) ← exponent? cs
    some (assemble negative ds fraction exponent, cs)

/-! ### Values -/

/-- The fields with one more in front, unless a later one has its name. -/
def addField (name : String) (v : Json) (fields : List (String × Json)) : List (String × Json) :=
  if fields.any (·.1 = name) then fields else (name, v) :: fields

mutual

/-- Read a value, and what follows; `fuel` is at least twice the number of characters. -/
def value? (fuel : Nat) (cs : List Char) : Option (Json × List Char) :=
  match fuel with
  | 0 => none
  | fuel + 1 =>
      match skipSpace cs with
      | 'n' :: 'u' :: 'l' :: 'l' :: cs => some (.null, cs)
      | 't' :: 'r' :: 'u' :: 'e' :: cs => some (.bool true, cs)
      | 'f' :: 'a' :: 'l' :: 's' :: 'e' :: cs => some (.bool false, cs)
      | '"' :: cs => (text? cs).map fun r => (.string r.1, r.2)
      | '[' :: cs =>
          match skipSpace cs with
          | ']' :: cs => some (.list [], cs)
          | cs => (items? fuel cs).map fun r => (.list r.1, r.2)
      | '\x7b' :: cs =>
          match skipSpace cs with
          | '\x7d' :: cs => some (.object [], cs)
          | cs => (fields? fuel cs).map fun r => (.object r.1, r.2)
      | cs => number? cs

/-- Read the items of a list up to and including its closing bracket. -/
def items? (fuel : Nat) (cs : List Char) : Option (List Json × List Char) :=
  match fuel with
  | 0 => none
  | fuel + 1 =>
      match value? fuel cs with
      | none => none
      | some (v, cs) =>
          match skipSpace cs with
          | ']' :: cs => some ([v], cs)
          | ',' :: cs => (items? fuel cs).map fun r => (v :: r.1, r.2)
          | _ => none

/-- Read the fields of an object up to and including its closing brace. -/
def fields? (fuel : Nat) (cs : List Char) : Option (List (String × Json) × List Char) :=
  match fuel with
  | 0 => none
  | fuel + 1 =>
      match skipSpace cs with
      | '"' :: cs =>
          match (text? cs).map fun r => (r.1, skipSpace r.2) with
          | some (name, ':' :: cs) =>
              match value? fuel cs with
              | none => none
              | some (v, cs) =>
                  match skipSpace cs with
                  | '\x7d' :: cs => some ([(name, v)], cs)
                  | ',' :: cs => (fields? fuel cs).map fun r => (addField name v r.1, r.2)
                  | _ => none
          | _ => none
      | _ => none

end

end Reader

/-- **The document of a text**; nothing if the text is not a document. -/
def parse? (s : String) : Option Json :=
  let cs := s.toList
  match Reader.value? (2 * cs.length + 2) cs with
  | some (v, rest) => if Reader.skipSpace rest = [] then some v else none
  | none => none

end Json

end TransactionalTree
