/-
**TOML documents, and a library for them.**

A document is a table: values under keys, in the order of the text.  Documents are read and written
by a library, which is a parameter here.  All that is relied on is what it does with plain
documents: they hold texts in which nothing has to be escaped, whole numbers and truth values under
different keys that need no quotes, and maybe one table of such values at the end.

Main definitions:

* `Toml` — a value of a document, as a library shows it;
* `Toml.Library` — what reads and writes documents;
* `Toml.isPlain` — the plain documents;
* `Toml.Library.Faithful` — **plain documents survive being written and read**.
-/

set_option relaxedAutoImplicit false
set_option autoImplicit false

namespace TransactionalTree

/-- A value of a document.  A point in time is shown as a table with one text. -/
inductive Toml where
  /-- A text. -/
  | string (s : String)
  /-- A whole number. -/
  | integer (n : Int64)
  /-- Any other number. -/
  | float
  /-- A truth value. -/
  | boolean (b : Bool)
  /-- A list of values. -/
  | array (items : List Toml)
  /-- A table, its entries in the order of the text. -/
  | table (entries : List (String × Toml))
deriving Repr, Inhabited

namespace Toml

/-- The entries of a table. -/
abbrev Entries := List (String × Toml)

/-- What stands under a key. -/
def lookup {α : Type} (entries : List (String × α)) (key : String) : Option α :=
  (entries.find? (·.1 = key)).map (·.2)

/-! ### Plain documents -/

/-- A character that stands for itself within double quotes. -/
def isVerbatim (c : Char) : Bool := c ≠ '"' && c ≠ '\\' && 0x20 ≤ c.toNat && c.toNat ≠ 0x7f

/-- A character of a key without quotes. -/
def isBare (c : Char) : Bool := c.isAlphanum || c = '-' || c = '_'

/-- A key that needs no quotes. -/
def isBareKey (key : String) : Bool := !key.toList.isEmpty && key.toList.all isBare

/-- A text in which nothing has to be escaped, a whole number or a truth value. -/
def isScalar : Toml → Bool
  | string s => s.toList.all isVerbatim
  | integer _ => true
  | boolean _ => true
  | _ => false

/-- The keys are different and need no quotes. -/
def areBareKeys (keys : List String) : Bool := keys.all isBareKey && decide keys.Nodup

/-- The keys are such keys, and all values are scalars. -/
def isFlat (entries : Entries) : Bool :=
  areBareKeys (entries.map (·.1)) && entries.all (·.2.isScalar)

/-- All values are scalars, but the last one may be a flat table. -/
def isFlatToTheLast : Entries → Bool
  | [] => true
  | [(_, .table inner)] => isFlat inner
  | e :: entries => e.2.isScalar && isFlatToTheLast entries

/-- **A plain document.** -/
def isPlain (entries : Entries) : Bool :=
  areBareKeys (entries.map (·.1)) && isFlatToTheLast entries

/-! ### Libraries -/

/-- What reads and writes documents. -/
structure Library where
  /-- The document of a text; nothing if the text is not one. -/
  parse : String → Option Entries
  /-- The text of a document; nothing if it cannot be written. -/
  print : Entries → Option String
  /-- The name of the alternative, without anything belonging to it, that a value stands for. -/
  variant? : Toml → Option String

/-- **Plain documents survive being written and read**, and a text stands for the alternative of
that name. -/
structure Library.Faithful (L : Library) : Prop where
  /-- What is written of a plain document is read as that document. -/
  roundTrip : ∀ entries, isPlain entries = true →
    ∃ text, L.print entries = some text ∧ L.parse text = some entries
  /-- A text is the name of an alternative. -/
  variant : ∀ s, L.variant? (.string s) = some s

end Toml

end TransactionalTree
