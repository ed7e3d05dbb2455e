/-
**Documents in the making.**

A document comes about line by line.  Until it is done a table remembers how it came about, because
that decides in which ways later lines may add to it.

Main definitions:

* `Toml.Draft` — a value, or a table in the making; `Toml.Origin` — how a table came about;
* `Toml.Draft.assign`, `Toml.Draft.openTable` — the effect of a line;
* `Toml.Draft.finish` — what has been made;
* `Toml.Statement` — what one line of a document says;
* `Toml.ofStatements?` — **the document of a list of lines**.
-/

import TransactionalTree.Toml.Basic

set_option relaxedAutoImplicit false
set_option autoImplicit false

namespace TransactionalTree

namespace Toml

/-- How a table came about. -/
inductive Origin where
  /-- By the header of a table below it. -/
  | implied
  /-- By its own header, or within braces. -/
  | header
  /-- By a key with dots. -/
  | dotted
deriving DecidableEq, Repr, Inhabited

/-- A value that is done, or a table in the making. -/
inductive Draft where
  /-- A value that is done. -/
  | done (v : Toml)
  /-- A table in the making, its entries in the order of the text. -/
  | table (origin : Origin) (entries : List (String × Draft))
deriving Repr, Inhabited

namespace Draft

/-- The entries of a table in the making. -/
abbrev Entries := List (String × Draft)

/-- The entries with what stands under `key` set, at the end if the key is new. -/
def put (key : String) (d : Draft) : Entries → Entries
  | [] => [(key, d)]
  | e :: es => if e.1 = key then (key, d) :: es else e :: put key d es

/-! ### What has been made -/

mutual

/-- The value that has been made. -/
def finish : Draft → Toml
  | done v => v
  | table _ entries => .table (finishAll entries)

/-- The entries that have been made. -/
def finishAll : List (String × Draft) → Toml.Entries
  | [] => []
  | e :: entries => finishEntry e :: finishAll entries

/-- The entry that has been made. -/
def finishEntry : String × Draft → String × Toml
  | (key, d) => (key, d.finish)

end

/-! ### Keys with dots -/

/-- Put a new value under the key that `first` and `rest` spell, in a table that came about by
`origin`.  On the way, tables may be made, and tables that came about by a key with dots or by a
header below them may be entered; the table that takes the value has to be the one that the line
stands in or to have come about by a key with dots. -/
def assign (first : String) (rest : List String) (v : Toml) (origin : Origin) (entries : Entries) :
    Option Entries :=
  match rest with
  | [] =>
      match lookup entries first with
      | none => if origin = .implied then none else some (put first (.done v) entries)
      | some _ => none
  | second :: rest =>
      match lookup entries first with
      | none =>
          (assign second rest v .dotted []).map fun inner =>
            put first (.table .dotted inner) entries
      | some (.table .dotted inner) =>
          (assign second rest v .dotted inner).map fun inner =>
            put first (.table .dotted inner) entries
      | some (.table .implied inner) =>
          (assign second rest v .implied inner).map fun inner =>
            put first (.table .implied inner) entries
      | some _ => none

/-! ### Headers -/

/-- Open the table under the key that `first` and `rest` spell.  Tables on the way are entered or
made; the table itself must be new or so far only implied. -/
def openTable (first : String) (rest : List String) (entries : Entries) : Option Entries :=
  match rest with
  | [] =>
      match lookup entries first with
      | none => some (put first (.table .header []) entries)
      | some (.table .implied inner) => some (put first (.table .header inner) entries)
      | some _ => none
  | second :: rest =>
      match lookup entries first with
      | none =>
          (openTable second rest []).map fun inner => put first (.table .implied inner) entries
      | some (.table origin inner) =>
          (openTable second rest inner).map fun inner => put first (.table origin inner) entries
      | some (.done _) => none

/-- Change the entries of the table under a list of keys, which has been opened before. -/
def editAt (keys : List String) (edit : Entries → Option Entries) (entries : Entries) :
    Option Entries :=
  match keys with
  | [] => edit entries
  | key :: keys =>
      match lookup entries key with
      | some (.table origin inner) =>
          (editAt keys edit inner).map fun inner => put key (.table origin inner) entries
      | _ => none

end Draft

/-! ### Documents -/

/-- What one line says. -/
inductive Statement where
  /-- Nothing. -/
  | blank
  /-- The lines below belong to this table. -/
  | header (first : String) (rest : List String)
  /-- The value under this key. -/
  | assignment (first : String) (rest : List String) (v : Toml)
deriving Repr, Inhabited

/-- The entries that the statements make of `entries`, the table under `current` being open. -/
def run (current : List String) (entries : Draft.Entries) : List Statement → Option Draft.Entries
  | [] => some entries
  | .blank :: ss => run current entries ss
  | .header first rest :: ss =>
      match Draft.openTable first rest entries with
      | none => none
      | some entries => run (first :: rest) entries ss
  | .assignment first rest v :: ss =>
      match Draft.editAt current (Draft.assign first rest v .header) entries with
      | none => none
      | some entries => run current entries ss

/-- **The document of a list of statements**; nothing if they contradict each other. -/
def ofStatements? (ss : List Statement) : Option Entries := (run [] [] ss).map Draft.finishAll

end Toml

end TransactionalTree
