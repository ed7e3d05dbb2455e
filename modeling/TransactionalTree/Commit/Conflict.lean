/-
**Conflicts that stop a commit.**

Before anything is merged, the workspace is compared with the committed tree.  A node that is made
needs a parent, a node that is written must still be there, and, if the check is on, every node that
is changed must still have the version that was observed first.

Main definitions:

* `Conflict` — what is in the way, with `Conflict.error`;
* `Base.skewConflicts`, `Base.structureConflicts` — the two kinds of check;
* `Base.conflicts` — all that is in the way of a commit.
-/

import TransactionalTree.View

set_option relaxedAutoImplicit false
set_option autoImplicit false

namespace TransactionalTree

/-- What is in the way of a commit. -/
inductive Conflict where
  /-- The committed node at `path` is not the one that was observed. -/
  | writeSkew (path : Path) (read current : Option Version)
  /-- The node at `path` is made, but its parent is not there. -/
  | missingParent (path parent : Path)
  /-- The node at `path` is written, but it is not there. -/
  | missingNode (path : Path)
deriving DecidableEq, Repr, Inhabited

/-- The failure that a conflict leads to. -/
def Conflict.error : Conflict → TreeError
  | writeSkew path read current => .writeSkew path read current
  | missingParent _ parent => .nodeMissing parent
  | missingNode path => .nodeMissing path

namespace Base

/-- The committed version of the node at `p`. -/
def committedVersion (b : Base) (p : Path) : Option Version := (b.tree.peek? p).map (·.version)

/-- The changed nodes whose committed version is not the one that was observed. -/
def skewConflicts (b : Base) (c : Context) : List Conflict :=
  c.workspace.dirty.filterMap fun e =>
    if b.committedVersion e.1 = e.2.readVersion then none
    else some (.writeSkew e.1 e.2.readVersion (b.committedVersion e.1))

/-- Whether there will be a node at `p` when the nodes below it are merged. -/
def parentPresent (b : Base) (c : Context) (p : Path) : Bool :=
  match c.entry? p with
  | none => b.tree.exists? p
  | some e => if e.created then e.isPresent else e.isPresent && b.tree.exists? p

/-- What is in the way of an entry that is not a removal. -/
def structureConflict (b : Base) (c : Context) (p : Path) (e : Entry) : Option Conflict :=
  if e.created then
    p.parent?.bind fun parent =>
      if b.parentPresent c parent then none else some (.missingParent p parent)
  else if b.tree.exists? p then none
  else some (.missingNode p)

/-- The changes that have nowhere to land. -/
def structureConflicts (b : Base) (c : Context) : List Conflict :=
  c.workspace.dirty.filterMap fun e =>
    if e.2.removed then none else b.structureConflict c e.1 e.2

/-- **All that is in the way of a commit**, with or without the check for write skew. -/
def conflicts (b : Base) (c : Context) (skewCheck : Bool) : List Conflict :=
  (if skewCheck then b.skewConflicts c else []) ++ b.structureConflicts c

end Base

/-- The failure of the first conflict, if there is one. -/
def Conflict.firstError : List Conflict → Except TreeError Unit
  | [] => .ok ()
  | x :: _ => .error x.error

end TransactionalTree
