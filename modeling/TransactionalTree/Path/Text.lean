/-
**Paths as text.**

A path is written with a separator before each name, and the root as a lone separator.  There are
two ways to read one.  Strict reading refuses two separators with nothing between them and says at
which byte; lenient reading drops empty names.  A single name can be refused in two ways when a
child is named: it is empty, or it contains the separator.

Main definitions:

* `PathError` — why a text or a name is refused, with its wording;
* `Path.toText` — how a path is written;
* `Path.parse` — strict reading;
* `Path.ofText`, `Path.ofNames`, `Path.child` — lenient constructors: names are split at separators
  and empty ones dropped;
* `Path.ofNames?`, `Path.child?` — strict constructors.
-/

import TransactionalTree.Path.Basic
import TransactionalTree.Text.Quoted

set_option relaxedAutoImplicit false
set_option autoImplicit false

namespace TransactionalTree

/-- Why a text or a name does not give a path. -/
inductive PathError where
  /-- Two separators with nothing between them; the second one stands at this byte. -/
  | emptyElement (position : Nat)
  /-- A single name that contains the separator. -/
  | separatorInName (name : String)
  /-- A single name that is empty. -/
  | emptyName
deriving DecidableEq, Repr, Inhabited

namespace PathError

/-- The wording of the refusal. -/
def message : PathError → String
  | emptyElement position => s!"empty element in fqn at position {position}"
  | separatorInName name => "element " ++ Text.quote name ++ " contains the separator"
  | emptyName => "empty element"

end PathError

namespace Path

/-! ### Writing -/

/-- The path as text: a separator before each name, and a lone separator for the root. -/
def toText (p : Path) : String :=
  if p.names.isEmpty then "/" else String.join (p.names.map ("/" ++ ·))

instance : ToString Path := ⟨toText⟩

/-- The path as a record of its names, each of them quoted. -/
def toRecord (p : Path) : String :=
  "Fqn \x7b elements: [" ++ Text.quoteList p.names ++ "] \x7d"

/-! ### Splitting at separators -/

/-- The pieces between the separators, empty ones included. -/
def pieces : List Char → List (List Char)
  | [] => [[]]
  | c :: cs =>
      if c = separator then [] :: pieces cs
      else match pieces cs with
        | [] => [[c]]
        | p :: ps => (c :: p) :: ps

/-- The non-empty pieces of a text, as names. -/
def splitNames (s : String) : List String :=
  ((pieces s.toList).filter (· ≠ [])).map String.ofList

/-! ### Lenient constructors -/

/-- The path of the listed names, each split at separators and empty pieces dropped. -/
def ofNames (ss : List String) : Path := ⟨ss.flatMap splitNames⟩

/-- Lenient reading: empty names are dropped. -/
def ofText (s : String) : Path := ⟨splitNames s⟩

/-- The place below `p` called `name`, which is split at separators. -/
def child (p : Path) (name : String) : Path := ⟨p.names ++ splitNames name⟩

/-! ### Strict constructors -/

/-- Accept a single name, or say why not. -/
def checkName (name : String) : Except PathError String :=
  if name.toList = [] then .error .emptyName
  else if separator ∈ name.toList then .error (.separatorInName name)
  else .ok name

/-- Accept all the names, or refuse the first bad one. -/
def checkNames : List String → Except PathError (List String)
  | [] => .ok []
  | s :: ss =>
      match checkName s with
      | .error e => .error e
      | .ok s =>
          match checkNames ss with
          | .error e => .error e
          | .ok ss => .ok (s :: ss)

/-- The path of exactly the listed names. -/
def ofNames? (ss : List String) : Except PathError Path := (checkNames ss).map Path.mk

/-- The place below `p` with exactly this name. -/
def child? (p : Path) (name : String) : Except PathError Path := (checkName name).map p.push

/-! ### Strict reading -/

/-- The number of bytes that the characters take in UTF-8. -/
def byteLength (cs : List Char) : Nat := cs.foldr (fun c n => c.utf8Size + n) 0

/-- Accept pieces none of which is empty, the first of them starting at byte `position`. -/
def readPieces (position : Nat) : List (List Char) → Except PathError (List String)
  | [] => .ok []
  | p :: ps =>
      if p = [] then .error (.emptyElement position)
      else (readPieces (position + byteLength p + 1) ps).map (String.ofList p :: ·)

/-- The characters without one separator in front. -/
def dropLeading : List Char → List Char
  | [] => []
  | c :: cs => if c = separator then cs else c :: cs

/-- The characters without one separator at the end. -/
def dropTrailing (cs : List Char) : List Char :=
  if cs.getLast? = some separator then cs.dropLast else cs

/-- **Strict reading.**  A leading separator is optional and a trailing one ignored; what is left is
either nothing, which is the root, or names with a single separator between two of them. -/
def parse (s : String) : Except PathError Path :=
  let cs := s.toList
  let body := dropTrailing (dropLeading cs)
  if body = [] then .ok root
  else (readPieces (byteLength cs - byteLength (dropLeading cs)) (pieces body)).map Path.mk

end Path

end TransactionalTree
