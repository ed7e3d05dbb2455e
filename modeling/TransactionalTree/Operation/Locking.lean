/-
**Which locks operations need.**

An operation takes all its locks before it changes anything.  What it needs depends on what the unit
of work sees, and not on what is locked, so it is known before the first lock is taken.

Main definitions:

* `Grant` — the outcome of taking locks;
* `Work.lockAll` — take locks, and give back what the operation has taken if that fails;
* `View.writeLocks`, `View.removalLocks`, `View.moveLocks` — what the operations need.
-/

import TransactionalTree.Lock.Manager
import TransactionalTree.Staging

set_option relaxedAutoImplicit false
set_option autoImplicit false

namespace TransactionalTree

/-- The outcome of taking locks for an operation. -/
inductive Grant where
  /-- All are held; these were taken by the operation. -/
  | granted (taken : List Path)
  /-- One was not free, and the operation shall do nothing. -/
  | declined
  /-- One was not free, and the operation fails. -/
  | refused (e : TreeError)
deriving DecidableEq, Repr, Inhabited

namespace Work

/-- **Lock the listed paths for an operation** that has taken `taken` before.  If one of them is not
free, all that the operation has taken is released.  Nothing is locked when the options say so. -/
def lockAll (w : Work) (taken ps : List Path) : Work × Grant :=
  if w.context.options.skipLocking then (w, .granted taken)
  else match w.acquireAll ps with
    | (w, .ok new) => (w, .granted (taken ++ new))
    | (w, .error e) =>
        (w.releasePartial taken,
          if e.isTimeout && w.context.options.failSilently then .declined else .refused e)

/-- The unit of work with another context. -/
def withContext (w : Work) (c : Context) : Work := { w with context := c }

end Work

namespace View

/-- What a write to `p` locks: the node if it is there, else the nodes that are made, with the
parent of the first of them if parents are locked. -/
def writeLocks (v : View) (m : LockManager) (p : Path) (create : Bool) : List Path :=
  match if create then v.missingChain p else [] with
  | [] => [p]
  | top :: rest => m.parentLock top ++ top :: rest

/-- What removing `p` locks: the node and all that is below it, with its parent if parents are
locked. -/
def removalLocks (v : View) (m : LockManager) (p : Path) : List Path :=
  m.parentLock p ++ p :: v.descendants p

/-- What a move locks besides the source and the new parent: the target, all that is below it, and
for a deep move the new and the old places of all that is moved. -/
def moveLocks (v : View) (source target : Path) (deep : Bool) : List Path :=
  let replaced := if v.exists? target then v.descendants target else []
  let moved := if deep then v.descendants source else []
  target :: replaced ++ moved.filterMap (·.rebase? source target) ++ moved

end View

end TransactionalTree
