/-
**Staging changes in a workspace.**

The steps of which operations are made, as far as they concern the workspace alone: copying a
committed node, making a node, removing a subtree and moving one.  Locks have been taken before, and
nothing here takes one.

Main definitions:

* `Base.copy` — the copy of a committed node;
* `Base.materialize` — an entry for a node that is there;
* `Context.create` — an entry for a node that is made;
* `Base.checkRevival` — an explicit version has to be newer than the removals on the way;
* `Base.stageWrite`, `Base.stageRemoval`, `Base.stageMove` — the steps of the operations.
-/

import TransactionalTree.View

set_option relaxedAutoImplicit false
set_option autoImplicit false

namespace TransactionalTree

/-! ### Single entries -/

/-- The copy of the committed node `n` at `p`. -/
def Base.copy (b : Base) (p : Path) (n : Node) : Entry :=
  .ofSnapshot ⟨n.data, n.version, b.tree.childNames p⟩ ⟨p, n.id⟩

/-- Mark the entry for `p` as locked, if `p` is. -/
def Context.noteLock (c : Context) (p : Path) : Context :=
  if c.holds p then c.modifyEntry p Entry.markLocked else c

/-- **Make sure that a node that is there has an entry**; says whether it is there. -/
def Base.materialize (b : Base) (c : Context) (p : Path) : Context × Bool :=
  match (b.view c).locate p with
  | .staged _ => (c.noteLock p, true)
  | .committed n => ((c.setEntry p (b.copy p n)).noteLock p, true)
  | .missing => (c, false)
  | .hidden => (c, false)

/-- **Make a node at `p`**, anew if there is an entry already. -/
def Context.create (c : Context) (p : Path) : Context :=
  (c.setEntry p ((c.entry? p).elim Entry.fresh Entry.recreate)).noteLock p

/-! ### Explicit versions -/

/-- An explicit version has to be newer than the newest removal on the way to `p`. -/
def Base.checkRevival (b : Base) (c : Context) (p : Path) : Except TreeError Unit :=
  match c.options.version, b.tree.tombstoneVersion p with
  | some version, some removal =>
      if version.newerThan removal then .ok ()
      else .error (.versionConflict p (.because (.notNewer version removal)))
  | _, _ => .ok ()

/-- The check for each of the listed paths; the first that fails counts. -/
def Base.checkRevivals (b : Base) (c : Context) : List Path → Except TreeError Unit
  | [] => .ok ()
  | p :: ps =>
      match b.checkRevival c p with
      | .error e => .error e
      | .ok () => b.checkRevivals c ps

/-! ### Writing -/

/-- **Make sure that the node at `p` has an entry that can be written.**  With `create`, missing
nodes are made; says whether the node is there. -/
def Base.stageWrite (b : Base) (c : Context) (p : Path) (create : Bool) :
    Except TreeError (Context × Bool) :=
  let chain := if create then (b.view c).missingChain p else []
  match b.checkRevivals c chain with
  | .error e => .error e
  | .ok () => .ok (b.materialize (chain.foldl Context.create c) p)

/-! ### Removing -/

/-- **Remove the node at `p`** and all that is below it; says whether it was there. -/
def Base.stageRemoval (b : Base) (c : Context) (p : Path) : Context × Bool :=
  match b.materialize c p with
  | (c, false) => (c, false)
  | (c, true) =>
      ({ c with workspace := c.workspace.dropBelow p }.modifyEntry p Entry.markRemoved, true)

/-! ### Moving -/

/-- The nodes at and below `source` with their data, each at the path it will have below `target`.
-/
def View.relocated (v : View) (source target : Path) : List (Path × Data) :=
  (source :: v.descendants source).filterMap fun p =>
    match v.data? p, p.rebase? source target with
    | some d, some q => some (q, d)
    | _, _ => none

/-- Make the listed nodes with their data. -/
def Context.createAll (c : Context) (nodes : List (Path × Data)) : Context :=
  nodes.foldl (fun c n => (c.create n.1).modifyEntry n.1 (·.replaceData n.2)) c

/-- **Move the subtree at `source` to `target`**, in place of what is there. -/
def Base.stageMove (b : Base) (c : Context) (source target : Path) : Except TreeError Context :=
  let nodes := (b.view c).relocated source target
  match b.checkRevivals c (nodes.map (·.1)) with
  | .error e => .error e
  | .ok () =>
      let cleared := if (b.view c).exists? target then (b.stageRemoval c target).1 else c
      let copied := cleared.createAll nodes
      .ok ((b.stageRemoval copied source).1.recordMove source target)

end TransactionalTree
