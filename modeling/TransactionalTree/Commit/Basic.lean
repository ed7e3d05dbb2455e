/-
**Commit and rollback.**

A commit checks the workspace, merges it into the committed tree under one version, reports the
changes, and releases all locks.  When the check finds a conflict, nothing is merged and the locks
stay with the unit of work, which has to be rolled back.  A rollback forgets the workspace and
releases the locks.

Main definitions:

* `Store` — a tree with its settings, its locks and its listeners;
* `Store.commit`, `Store.rollback` — the two ways in which a unit of work ends;
* `Ending` — what is left afterwards.
-/

import TransactionalTree.Commit.Conflict
import TransactionalTree.Commit.Merge
import TransactionalTree.Lock.Manager

set_option relaxedAutoImplicit false
set_option autoImplicit false

namespace TransactionalTree

/-- A tree with its settings, its locks and its listeners. -/
structure Store where
  /-- The settings. -/
  config : Config
  /-- The committed tree. -/
  tree : CommittedTree
  /-- The locks. -/
  locks : LockManager
  /-- The names of the listeners, in the order in which they were added. -/
  listeners : List String

namespace Store

/-- A tree with only a root, no locks held and no listeners. -/
def ofConfig (c : Config) (hash : Path → UInt64 := Stripe.hash) : Store :=
  ⟨c, .empty, .ofConfig c.locking hash, []⟩

instance : Inhabited Store := ⟨ofConfig {}⟩

/-- What all units of work see. -/
def base (s : Store) : Base := ⟨s.config.isolation, s.tree⟩

/-- Have a listener told. -/
def addListener (s : Store) (name : String) : Store := { s with listeners := s.listeners ++ [name] }

/-- No longer have a listener told; says whether it was. -/
def removeListener (s : Store) (name : String) : Store × Bool :=
  ({ s with listeners := s.listeners.filter (· ≠ name) }, s.listeners.contains name)

end Store

/-- What is left when a unit of work has ended, or has failed to. -/
structure Ending where
  /-- The tree. -/
  store : Store
  /-- The unit of work. -/
  context : Context
  /-- Whether it went well. -/
  result : Except TreeError Unit
  /-- What the listeners were told. -/
  sent : List Delivery

namespace Store

/-- Forget the workspace, release all locks and tell the listeners. -/
def conclude (s : Store) (c : Context) (committed : Bool) (sent : List Delivery) : Ending :=
  let (work, result) := Work.releaseAll ⟨s.locks, c.clearWorkspace⟩
  { store := { s with locks := work.locks }
    context := work.context
    result := result
    sent := sent ++ deliver s.listeners (completion c.transaction committed) }

/-- The version that a commit stamps on what it writes, and the tree that knows about it. -/
def stamp (s : Store) (c : Context) : Version × CommittedTree :=
  match c.options.version with
  | some v => (v, s.tree)
  | none => s.tree.allocate

/-- The merge of a unit of work that has been checked. -/
def merge (s : Store) (c : Context) : Merge :=
  let (v, tree) := s.stamp c
  mergeAll tree v ⟨c.transaction, c.options.localOnly⟩ c.workspace.dirty

/-- The events of a commit: those of the merge, then the moves. -/
def allEvents (c : Context) (events : List Event) : List Event :=
  events ++ c.moves.map fun m => .moved m.1 m.2 ⟨c.transaction, c.options.localOnly⟩

/-- **Commit.** -/
def commit (s : Store) (c : Context) : Ending :=
  if c.hasChanges then
    match s.base.conflicts c s.config.writeSkewCheckActive with
    | x :: _ => ⟨s, c, .error x.error, []⟩
    | [] =>
        match s.merge c with
        | ⟨tree, .error e⟩ => ⟨{ s with tree }, c, .error e, []⟩
        | ⟨tree, .ok events⟩ =>
            { s with tree }.conclude c true
              (deliver s.listeners ((allEvents c events).map .change))
  else s.conclude c true []

/-- **Roll back.** -/
def rollback (s : Store) (c : Context) : Ending := s.conclude c false []

end Store

end TransactionalTree
