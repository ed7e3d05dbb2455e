/-
**Locking for units of work.**

A unit of work locks a path at most once: a path that it has locked already is not locked again.
When a list of paths is locked and one of them is not free, the ones that were locked for the list
are released.

Main definitions:

* `LockCounts` — how often locks were taken, released and refused;
* `LockManager` — the table of held locks, with its settings and counts;
* `Work` — a unit of work together with the lock manager: what locking changes;
* `Work.acquire`, `Work.acquireAll`, `Work.acquireForChild` — locking;
* `Work.release`, `Work.releasePartial`, `Work.releaseAll` — releasing.
-/

import TransactionalTree.Config.Basic
import TransactionalTree.Context
import TransactionalTree.Lock.Table

set_option relaxedAutoImplicit false
set_option autoImplicit false

namespace TransactionalTree

/-- How often locks were taken, released and refused. -/
structure LockCounts where
  /-- Locks taken. -/
  acquired : Nat := 0
  /-- Locks released. -/
  released : Nat := 0
  /-- Locks that were not free in time. -/
  timedOut : Nat := 0
  /-- Locks that were to be released by someone who did not hold them. -/
  illegalReleases : Nat := 0
deriving DecidableEq, Repr, Inhabited

namespace LockCounts

/-- Locks taken and not released yet. -/
def outstanding (n : LockCounts) : Nat := n.acquired - n.released

end LockCounts

/-- The locks of a tree. -/
structure LockManager where
  /-- The locks that are held. -/
  table : LockTable
  /-- How long to wait for a lock, in milliseconds. -/
  timeout : Nat
  /-- Whether the parent is locked when a child is inserted or removed. -/
  lockParent : Bool
  /-- The counts. -/
  counts : LockCounts := {}
deriving Inhabited

namespace LockManager

/-- The locks that the settings ask for, all free.  If they are striped, paths fall to them by the
given hash. -/
def ofConfig (c : LockingConfig) (hash : Path → UInt64 := Stripe.hash) : LockManager where
  table := .empty (if c.striped then some ⟨c.stripes, hash⟩ else none)
  timeout := c.timeout
  lockParent := c.lockParent

/-- How long the unit of work waits for a lock. -/
def timeoutFor (m : LockManager) (c : Context) : Nat := c.options.timeout.getD m.timeout

/-- The path whose lock goes with inserting or removing the node at `p`, if there is one. -/
def parentLock (m : LockManager) (p : Path) : List Path :=
  if m.lockParent then p.parent?.toList else []

/-- Release the lock of `p` for `o`. -/
def releaseFor (m : LockManager) (p : Path) (o : Owner) : LockManager × Except TreeError Unit :=
  match m.table.release? p o with
  | some table =>
      ({ m with table, counts := { m.counts with released := m.counts.released + 1 } }, .ok ())
  | none =>
      ({ m with counts := { m.counts with illegalReleases := m.counts.illegalReleases + 1 } },
        .error (.illegalRelease p o))

end LockManager

/-- A unit of work together with the lock manager. -/
structure Work where
  /-- The locks. -/
  locks : LockManager
  /-- The unit of work. -/
  context : Context
deriving Inhabited

namespace Work

/-! ### Locking -/

/-- Lock `p`; says whether it was locked just now. -/
def acquire (w : Work) (p : Path) : Work × Except TreeError Bool :=
  if w.context.holds p then (w, .ok false)
  else
    let m := w.locks
    match m.table.acquire? p w.context.owner with
    | some table =>
        (⟨{ m with table, counts := { m.counts with acquired := m.counts.acquired + 1 } },
          w.context.record p⟩, .ok true)
    | none =>
        (⟨{ m with counts := { m.counts with timedOut := m.counts.timedOut + 1 } }, w.context⟩,
          .error (.timeout p w.context.owner (m.timeoutFor w.context)))

/-- Release `p`, whether or not it was locked. -/
def release (w : Work) (p : Path) : Work × Except TreeError Unit :=
  let (locks, result) := w.locks.releaseFor p w.context.owner
  (⟨locks, w.context.forget p⟩, result)

/-- Release the listed paths, the last one first, and go on when that fails. -/
def releasePartial (w : Work) (ps : List Path) : Work :=
  ps.foldr (fun p w => (w.release p).1) w

/-- Lock the listed paths, `taken` being those that were locked just now. -/
def acquireFrom (w : Work) (taken : List Path) : List Path → Work × Except TreeError (List Path)
  | [] => (w, .ok taken)
  | p :: ps =>
      match w.acquire p with
      | (w, .ok true) => w.acquireFrom (taken ++ [p]) ps
      | (w, .ok false) => w.acquireFrom taken ps
      | (w, .error e) => (w.releasePartial taken, .error e)

/-- **Lock all the listed paths**; says which were locked just now.  If one is not free, these are
released again. -/
def acquireAll (w : Work) (ps : List Path) : Work × Except TreeError (List Path) :=
  w.acquireFrom [] ps

/-- Lock what inserting or removing the node at `p` needs. -/
def acquireForChild (w : Work) (p : Path) : Work × Except TreeError (List Path) :=
  w.acquireAll (w.locks.parentLock p ++ [p])

/-! ### Releasing everything -/

/-- Release the listed paths for `o`, going on when that fails; says what failed first. -/
def releaseEach (m : LockManager) (o : Owner) : List Path → LockManager × Except TreeError Unit
  | [] => (m, .ok ())
  | p :: ps =>
      match m.releaseFor p o with
      | (m, .ok ()) => releaseEach m o ps
      | (m, .error e) => ((releaseEach m o ps).1, .error e)

/-- **Release every path** that the unit of work has locked. -/
def releaseAll (w : Work) : Work × Except TreeError Unit :=
  let (locks, result) := releaseEach w.locks w.context.owner w.context.locked.keys
  (⟨locks, { w.context with locked := .empty }⟩, result)

end Work

end TransactionalTree
