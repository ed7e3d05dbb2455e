/-
**Private copies of nodes.**

A unit of work keeps an entry for each node it has touched: a copy of the committed node, a mark
that no node was there, or a node that the unit of work creates.  The entry remembers what was
observed when it was made and what has been done to it since.

Main definitions:

* `Entry` — the copy of one node;
* `Entry.ofSnapshot`, `Entry.absent`, `Entry.fresh` — the three ways in which an entry starts;
* `Entry.isPresent`, `Entry.isDirty` — what the entry means;
* `Entry.put`, `Entry.putAll`, `Entry.replaceData`, `Entry.removeKey`, `Entry.clearData` — changes
  of the data;
* `Entry.markRemoved`, `Entry.recreate` — changes of the node.
-/

import TransactionalTree.Tree.Reference

set_option relaxedAutoImplicit false
set_option autoImplicit false

namespace TransactionalTree

/-- The private copy of one node. -/
structure Entry where
  /-- The version that was observed when the entry was made; none if there was no node. -/
  readVersion : Option Version := none
  /-- The data. -/
  data : Data := .empty
  /-- The data that was observed when the entry was made. -/
  observed : Option Data := none
  /-- The names of the children that were observed when the entry was made. -/
  children : NameSet := .empty
  /-- The committed node that was copied. -/
  base : Option NodeRef := none
  /-- The data was written. -/
  changed : Bool := false
  /-- The node is made by this unit of work. -/
  created : Bool := false
  /-- The node is removed by this unit of work. -/
  removed : Bool := false
  /-- The node that was observed has to go. -/
  replacesBase : Bool := false
  /-- The lock of the node is held. -/
  locked : Bool := false
deriving DecidableEq, Repr, Inhabited

namespace Entry

/-! ### How an entry starts -/

/-- The copy of a committed node. -/
def ofSnapshot (s : NodeSnapshot) (base : NodeRef) : Entry :=
  { readVersion := some s.version
    data := s.data
    observed := some s.data
    children := s.children
    base := some base }

/-- The mark that there is no node. -/
def absent : Entry := {}

/-! ### What an entry means -/

/-- Whether the node is there for this unit of work. -/
def isPresent (e : Entry) : Bool := !e.removed && (e.created || e.readVersion.isSome)

/-- Whether the entry changes the committed tree. -/
def isDirty (e : Entry) : Bool := e.changed || e.created || e.removed

/-! ### Changes of the data -/

/-- Set the value under `key`; says what was there before. -/
def put (e : Entry) (key : String) (v : Value) : Entry × Option Value :=
  ({ e with changed := true, data := e.data.insert key v }, e.data.get? key)

/-- Set the values of all the keys of `d`. -/
def putAll (e : Entry) (d : Data) : Entry := { e with changed := true, data := e.data.union d }

/-- Set the data to `d`. -/
def replaceData (e : Entry) (d : Data) : Entry := { e with changed := true, data := d }

/-- Remove the value under `key`; says what was there.  Nothing is written if there was nothing. -/
def removeKey (e : Entry) (key : String) : Entry × Option Value :=
  ({ e with changed := e.changed || e.data.contains key, data := e.data.erase key },
    e.data.get? key)

/-- Remove all data.  Nothing is written if there was none. -/
def clearData (e : Entry) : Entry :=
  { e with changed := e.changed || !e.data.isEmpty, data := .empty }

/-! ### Changes of the node -/

/-- Remove the node.  If one was observed, that one has to go. -/
def markRemoved (e : Entry) : Entry :=
  { e with
    replacesBase := e.replacesBase || e.readVersion.isSome
    removed := true
    created := false
    changed := false
    data := .empty
    children := .empty }

/-- Make the node anew, without data and children.  If one was observed, that one has to go. -/
def recreate (e : Entry) : Entry :=
  { e with
    replacesBase := e.replacesBase || e.readVersion.isSome
    removed := false
    created := true
    changed := false
    data := .empty
    children := .empty }

/-- A node that is made where none was observed. -/
def fresh : Entry := recreate absent

/-- Take note that the lock is held. -/
def markLocked (e : Entry) : Entry := { e with locked := true }

end Entry

end TransactionalTree
