/-
**Moving.**

A node is moved, with all that is below it, to become a child of another node, where it keeps its
name; what is at the new place goes.  Some moves make no sense and are refused at once.  A deep move
also locks all that is moved, at its old and at its new place.

Main definitions:

* `MovePlan`, `planMove` — where the node is to go, or why that makes no sense;
* `Base.moveNode` — the move.
-/

import TransactionalTree.Operation.Write

set_option relaxedAutoImplicit false
set_option autoImplicit false

namespace TransactionalTree

/-- What there is to do for a move. -/
inductive MovePlan where
  /-- Nothing: the node is there already. -/
  | stay
  /-- Move it to this path. -/
  | moveTo (target : Path)
deriving DecidableEq, Repr, Inhabited

/-- Where the node at `source` is to go to become a child of `parent`, or why that makes no sense:
the root cannot be moved, a node not below itself, and not in place of a node above it. -/
def planMove (source parent : Path) : Except Refusal MovePlan :=
  match source.name? with
  | none => .error .moveRoot
  | some name =>
      let target := parent.push name
      if parent.isAtOrBelow source then .error (.moveUnderItself source parent)
      else if target = source then .ok .stay
      else if source.isBelow target then .error (.moveOntoAncestor source target)
      else .ok (.moveTo target)

namespace Base

/-- Lock the listed paths and find a node at `p`, or give back what the move has taken. -/
def lockAndFind (b : Base) (w : Work) (taken ps : List Path) (p : Path) : Work × Grant :=
  match w.lockAll taken ps with
  | (w, .refused e) => (w, .refused e)
  | (w, .declined) => (w, .declined)
  | (w, .granted taken) =>
      if (b.view w.context).exists? p then (w, .granted taken)
      else (w.releasePartial taken, .refused (.nodeMissing p))

/-- Take the locks of a move to `target`: first the source, then the new parent, then the rest. -/
def lockMove (b : Base) (w : Work) (source parent target : Path) (deep : Bool) : Work × Grant :=
  match b.lockAndFind w [] (w.locks.parentLock source ++ [source]) source with
  | (w, .granted taken) =>
      match b.lockAndFind w taken [parent] parent with
      | (w, .granted taken) => w.lockAll taken ((b.view w.context).moveLocks source target deep)
      | (w, other) => (w, other)
  | (w, other) => (w, other)

/-- **Move the node at `source` to become a child of `parent`**; says where it is then, or nothing
if the move did nothing because a lock was not free. -/
def moveNode (b : Base) (w : Work) (source parent : Path) (deep : Bool) :
    Work × Except TreeError (Option Path) :=
  match planMove source parent with
  | .error e => (w, .error (.refused e))
  | .ok .stay => (w, .ok (some source))
  | .ok (.moveTo target) =>
      match b.lockMove w source parent target deep with
      | (w, .refused e) => (w, .error e)
      | (w, .declined) => (w, .ok none)
      | (w, .granted taken) =>
          match b.stageMove w.context source target with
          | .error e => (w.releasePartial taken, .error e)
          | .ok c => (w.withContext c, .ok (some target))

end Base

end TransactionalTree
