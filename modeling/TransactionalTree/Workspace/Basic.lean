/-
**Workspaces.**

The entries of a unit of work, by path.  Since a path comes immediately before what is below it, the
entries below a path are those that follow it up to the first that is not below.

Main definitions:

* `Workspace` — the entries by path;
* `Workspace.below`, `Workspace.childrenOf` — the entries below a path, and directly below;
* `Workspace.dropBelow` — the workspace without the entries below a path;
* `Workspace.dirty` — the entries that change the committed tree, in the order of their paths.
-/

import TransactionalTree.Workspace.Entry

set_option relaxedAutoImplicit false
set_option autoImplicit false

namespace TransactionalTree

/-- The entries of a unit of work, by path. -/
abbrev Workspace := SortedMap Path Entry

namespace Workspace

/-- The entries strictly below `p`: those that follow `p` up to the first that is not below it. -/
def below (w : Workspace) (p : Path) : List (Path × Entry) :=
  (w.above p).takeWhile fun e => e.1.isBelow p

/-- The entries directly below `p`. -/
def childrenOf (w : Workspace) (p : Path) : List (Path × Entry) :=
  (w.below p).filter fun e => e.1.isChildOf p

/-- The workspace without the entries strictly below `p`. -/
def dropBelow (w : Workspace) (p : Path) : Workspace := w.eraseAll ((w.below p).map (·.1))

/-- The entries that change the committed tree. -/
def dirty (w : Workspace) : List (Path × Entry) := w.toList.filter fun e => e.2.isDirty

/-- Whether some entry changes the committed tree. -/
def hasChanges (w : Workspace) : Bool := w.toList.any fun e => e.2.isDirty

end Workspace

end TransactionalTree
