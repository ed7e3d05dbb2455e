/-
**Reading TOML.**

The reader takes a document apart into lines and reads each line for itself: no value extends over
a line end.  Supported are bare, quoted and dotted keys, table headers, comments, and as values
one-line texts in either kind of quotes, whole and other numbers, truth values, lists and tables
within braces.

Main definitions:

* `Toml.Reader.lines` — the lines of a text;
* `Toml.Reader.key?`, `Toml.Reader.value?`, `Toml.Reader.statement?` — the parts of a line;
* `Toml.parse?` — **the document of a text**.
-/

import TransactionalTree.Double
import TransactionalTree.Text.Digits
import TransactionalTree.Toml.Draft

set_option relaxedAutoImplicit false
set_option autoImplicit false

namespace TransactionalTree

namespace Toml

namespace Reader

/-! ### Characters -/

/-- A blank within a line. -/
def isSpace (c : Char) : Bool := c = ' ' || c = '\t'

/-- A control character other than the tab: not allowed in texts and comments. -/
def isControl (c : Char) : Bool := (c.toNat < 0x20 && c ≠ '\t') || c.toNat = 0x7f

/-- A character of a number or a truth value. -/
def isWord (c : Char) : Bool := c.isAlphanum || c = '-' || c = '_' || c = '+' || c = '.'

/-- The characters behind the blanks in front. -/
def skipSpace (cs : List Char) : List Char := cs.dropWhile isSpace

/-! ### Lines -/

/-- The pieces between line feeds. -/
def rawLines : List Char → List (List Char)
  | [] => [[]]
  | c :: cs =>
      if c = '\n' then [] :: rawLines cs
      else match rawLines cs with
        | [] => [[c]]
        | l :: ls => (c :: l) :: ls

/-- A line without the carriage return that belongs to its line feed. -/
def dropReturn (l : List Char) : List Char :=
  if l.getLast? = some '\r' then l.dropLast else l

/-- The lines of a text: each but the last ends with a line feed, or a carriage return and a line
feed. -/
def lines (cs : List Char) : List (List Char) :=
  let raw := rawLines cs
  raw.dropLast.map dropReturn ++ (raw.getLast?).toList

/-! ### Texts -/

/-- The character that a letter stands for behind a backslash. -/
def escaped? : Char → Option Char
  | 'b' => some '\x08'
  | 't' => some '\t'
  | 'n' => some '\n'
  | 'f' => some '\x0c'
  | 'r' => some '\r'
  | '"' => some '"'
  | '\\' => some '\\'
  | _ => none

/-- Read on within double quotes, up to and including the closing one: the characters meant, and
what follows. -/
def basic? : List Char → Option (List Char × List Char)
  | [] => none
  | '"' :: cs => some ([], cs)
  | '\\' :: 'u' :: a :: b :: c :: d :: cs =>
      match (Text.hexNumber? [a, b, c, d]).bind Text.scalar?, basic? cs with
      | some u, some (text, rest) => some (u :: text, rest)
      | _, _ => none
  | '\\' :: 'U' :: a :: b :: c :: d :: e :: f :: g :: h :: cs =>
      match (Text.hexNumber? [a, b, c, d, e, f, g, h]).bind Text.scalar?, basic? cs with
      | some u, some (text, rest) => some (u :: text, rest)
      | _, _ => none
  | '\\' :: c :: cs =>
      match escaped? c, basic? cs with
      | some u, some (text, rest) => some (u :: text, rest)
      | _, _ => none
  | c :: cs =>
      if c = '\\' || isControl c then none
      else (basic? cs).map fun r => (c :: r.1, r.2)

/-- Read on within single quotes, up to and including the closing one. -/
def literal? : List Char → Option (List Char × List Char)
  | [] => none
  | c :: cs =>
      if c = '\'' then some ([], cs)
      else if isControl c then none
      else (literal? cs).map fun r => (c :: r.1, r.2)

/-! ### Keys -/

/-- Read one key without dots. -/
def simpleKey? : List Char → Option (String × List Char)
  | '"' :: cs => (basic? cs).map fun r => (String.ofList r.1, r.2)
  | '\'' :: cs => (literal? cs).map fun r => (String.ofList r.1, r.2)
  | cs =>
      let bare := cs.takeWhile isBare
      if bare = [] then none else some (String.ofList bare, cs.dropWhile isBare)

/-- Read the further keys behind dots; `fuel` is at least the number of characters. -/
def moreKeys? (fuel : Nat) (cs : List Char) : Option (List String × List Char) :=
  match fuel with
  | 0 => none
  | fuel + 1 =>
      match skipSpace cs with
      | '.' :: cs' =>
          match simpleKey? (skipSpace cs') with
          | none => none
          | some (key, rest) => (moreKeys? fuel rest).map fun r => (key :: r.1, r.2)
      | rest => some ([], rest)

/-- Read a key, with the blanks behind it. -/
def key? (cs : List Char) : Option ((String × List String) × List Char) :=
  match simpleKey? (skipSpace cs) with
  | none => none
  | some (first, rest) =>
      (moreKeys? (rest.length + 1) rest).map fun r => ((first, r.1), r.2)

/-! ### Numbers -/

/-- Digits with single underscores between them, as the digits alone; at least one digit. -/
def groups? (isDigit : Char → Bool) (cs : List Char) : Option (List Char) :=
  let rec go (afterDigit : Bool) : List Char → Option (List Char)
    | [] => if afterDigit then some [] else none
    | c :: cs =>
        if isDigit c then (go true cs).map (c :: ·)
        else if c = '_' && afterDigit then
          match cs with
          | [] => none
          | d :: _ => if isDigit d then go false cs else none
        else none
  go false cs

/-- The number with 64 bits for it and its sign, if that is enough. -/
def fitting? (n : Int) : Option Int64 :=
  if Int64.minValue.toInt ≤ n ∧ n ≤ Int64.maxValue.toInt then some (.ofInt n) else none

/-- A sign in front, and the characters behind it. -/
def sign : List Char → Bool × List Char
  | '-' :: cs => (true, cs)
  | '+' :: cs => (false, cs)
  | cs => (false, cs)

/-- Digits without a superfluous zero in front. -/
def isPlain (ds : List Char) : Bool := ds.head? ≠ some '0' || ds.length = 1

/-- Decimal digits, possibly grouped, without a superfluous zero in front. -/
def decimal? (cs : List Char) : Option (List Char) :=
  match groups? Char.isDigit cs with
  | some ds => if isPlain ds then some ds else none
  | none => none

/-- A whole number: decimal with an optional sign, or in base 16, 8 or 2 behind a mark. -/
def integer? (cs : List Char) : Option Int64 :=
  let based (base : Nat) (isDigit : Char → Bool) (cs : List Char) : Option Int :=
    (groups? isDigit cs).map fun ds => (Text.numberOf base ds : Int)
  let n := match cs with
    | '0' :: 'x' :: cs => based 16 (fun c => (Text.digit? c).isSome) cs
    | '0' :: 'o' :: cs => based 8 (fun c => '0' ≤ c && c ≤ '7') cs
    | '0' :: 'b' :: cs => based 2 (fun c => c = '0' || c = '1') cs
    | cs =>
        let (negative, cs) := sign cs
        (decimal? cs).map fun ds =>
          if negative then -(Text.numberOf 10 ds : Int) else (Text.numberOf 10 ds : Int)
  n.bind fitting?

/-- The characters up to the first that satisfies `p`, and those behind it if there is one. -/
def cut (p : Char → Bool) (cs : List Char) : List Char × Option (List Char) :=
  match cs.dropWhile (!p ·) with
  | [] => (cs, none)
  | _ :: rest => (cs.takeWhile (!p ·), some rest)

/-- Whether the characters are a number that is not whole: with a fraction, an exponent, or both,
or one of the words for infinity and not-a-number.  A number beyond the largest double is none. -/
def isFloat (cs : List Char) : Bool :=
  let (negative, cs) := sign cs
  if cs = ['i', 'n', 'f'] || cs = ['n', 'a', 'n'] then true
  else
    let (mantissa, exponent) := cut (fun c => c = 'e' || c = 'E') cs
    let (whole, fraction) := cut (· = '.') mantissa
    let power : Option (Option Int) := match exponent with
      | none => some none
      | some e =>
          let (below, e) := sign e
          (groups? Char.isDigit e).map fun ds =>
            some (if below then -(Text.numberOf 10 ds : Int) else Text.numberOf 10 ds)
    let places : Option (List Char) := match fraction with
      | none => if exponent.isSome then some [] else none
      | some f => groups? Char.isDigit f
    match decimal? whole, places, power with
    | some w, some f, some e =>
        negative ||
          (Double.ofDecimal false (Text.numberOf 10 (w ++ f)) (e.getD 0 - f.length)).isFinite
    | _, _, _ => false

/-- The value of a word: a truth value or a number. -/
def word? (cs : List Char) : Option Toml :=
  if cs = ['t', 'r', 'u', 'e'] then some (.boolean true)
  else if cs = ['f', 'a', 'l', 's', 'e'] then some (.boolean false)
  else match integer? cs with
    | some n => some (.integer n)
    | none => if isFloat cs then some .float else none

/-! ### Values -/

mutual

/-- Read a value; `fuel` bounds how deep brackets and braces are nested. -/
def value? (fuel : Nat) (cs : List Char) : Option (Toml × List Char) :=
  match fuel with
  | 0 => none
  | fuel + 1 =>
      match cs with
      | '"' :: cs => (basic? cs).map fun r => (.string (String.ofList r.1), r.2)
      | '\'' :: cs => (literal? cs).map fun r => (.string (String.ofList r.1), r.2)
      | '\x7b' :: cs =>
          match skipSpace cs with
          | '\x7d' :: rest => some (.table [], rest)
          | cs => (entries? fuel [] cs).map fun r => (.table (Draft.finishAll r.1), r.2)
      | '[' :: cs => (items? fuel cs).map fun r => (.array r.1, r.2)
      | cs => (word? (cs.takeWhile isWord)).map fun v => (v, cs.dropWhile isWord)

/-- Read the values of a list up to its closing bracket, before which a comma may stand. -/
def items? (fuel : Nat) (cs : List Char) : Option (List Toml × List Char) :=
  match fuel with
  | 0 => none
  | fuel + 1 =>
      match skipSpace cs with
      | ']' :: rest => some ([], rest)
      | cs =>
          match value? fuel cs with
          | none => none
          | some (v, cs) =>
              match skipSpace cs with
              | ']' :: rest => some ([v], rest)
              | ',' :: cs => (items? fuel cs).map fun r => (v :: r.1, r.2)
              | _ => none

/-- Read the entries of a table up to its closing brace, adding to those read before. -/
def entries? (fuel : Nat) (entries : Draft.Entries) (cs : List Char) :
    Option (Draft.Entries × List Char) :=
  match fuel with
  | 0 => none
  | fuel + 1 =>
      match key? cs with
      | some ((first, rest), '=' :: cs) =>
          match value? fuel (skipSpace cs) with
          | none => none
          | some (v, cs) =>
              match Draft.assign first rest v .header entries, skipSpace cs with
              | some entries, '\x7d' :: cs => some (entries, cs)
              | some entries, ',' :: cs => entries? fuel entries cs
              | _, _ => none
      | _ => none

end

/-! ### Statements -/

/-- Nothing is left but blanks and a comment. -/
def isDone (cs : List Char) : Bool :=
  match skipSpace cs with
  | [] => true
  | c :: cs => c = '#' && cs.all (!isControl ·)

/-- What a line says. -/
def statement? (line : List Char) : Option Statement :=
  if isDone line then some .blank
  else match skipSpace line with
    | '[' :: cs =>
        match key? cs with
        | some ((first, rest), ']' :: cs) => if isDone cs then some (.header first rest) else none
        | _ => none
    | cs =>
        match key? cs with
        | some ((first, rest), '=' :: cs) =>
            match value? (cs.length + 1) (skipSpace cs) with
            | some (v, cs) => if isDone cs then some (.assignment first rest v) else none
            | none => none
        | _ => none

end Reader

/-- **The document of a text**; nothing if the text is not a document.  A byte order mark in front
is passed over. -/
def parse? (s : String) : Option Entries :=
  let cs := match s.toList with
    | '\ufeff' :: cs => cs
    | cs => cs
  ((Reader.lines cs).mapM Reader.statement?).bind ofStatements?

end Toml

end TransactionalTree
