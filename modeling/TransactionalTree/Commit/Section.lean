/-
**Commits under way.**

A commit is not done in one go: it checks the workspace, takes a version, and merges one entry after
the other, and meanwhile others commit as well.  While it does so it holds the guard of the tree.
Commits that only make and update nodes share the guard; one that takes nodes away, or replaces
them, holds it alone.  Who cannot have the guard has to wait.

Main definitions:

* `CommitGuard` — how a commit shares the tree with others, and `Context.commitGuard`, by which
  guard a unit of work commits;
* `CommitPhase`, `CommitSection` — a commit that holds the guard, and how far it has come;
* `Commits` — **a tree with the commits that are under way on it**;
* `Commits.enter`, `Commits.goOn` — a commit asks for the guard, and goes on by one step;
* `Store.close` — what is left afterwards.
-/

import TransactionalTree.Commit.Basic

set_option relaxedAutoImplicit false
set_option autoImplicit false

namespace TransactionalTree

/-- How a commit shares the committed tree with others. -/
inductive CommitGuard where
  /-- Commits that take no node away go together. -/
  | shared
  /-- A commit that takes nodes away goes alone. -/
  | exclusive
deriving DecidableEq, Repr, Inhabited

namespace CommitGuard

/-- The guard for a commit that does, or does not, take nodes away. -/
def enter (structural : Bool) : CommitGuard := if structural then exclusive else shared

/-- Whether the commit goes alone. -/
def isExclusive (g : CommitGuard) : Bool := g = exclusive

end CommitGuard

/-- The guard under which a unit of work commits: it goes alone if one of its changes is about a
committed node that is to be removed or replaced. -/
def Context.commitGuard (c : Context) : CommitGuard :=
  .enter (c.workspace.dirty.any fun a => a.2.replacesBase)

/-- How far a commit has come. -/
inductive CommitPhase where
  /-- It has the guard. -/
  | entered
  /-- The check has found nothing in the way. -/
  | checked
  /-- It merges under a version; some entries are left, and some events are to be reported. -/
  | merging (v : Version) (left : List (Path × Entry)) (events : List Event)
deriving DecidableEq, Repr, Inhabited

/-- A commit that holds the guard. -/
structure CommitSection where
  /-- How it shares the tree with others. -/
  guard : CommitGuard
  /-- The unit of work. -/
  context : Context
  /-- How far it has come. -/
  phase : CommitPhase
deriving DecidableEq, Repr, Inhabited

/-- A tree with the commits that are under way on it. -/
structure Commits where
  /-- The tree. -/
  store : Store
  /-- The commits that hold the guard, by name. -/
  inside : SortedMap String CommitSection := .empty
  /-- What has become of those that have given it back, the earliest first: the events that they
  report, or why they have failed. -/
  outcomes : List (String × Except TreeError (List Event)) := []
deriving Inhabited

namespace Commits

/-- Whether the guard can be had besides those that hold it. -/
def admits (s : Commits) (g : CommitGuard) : Bool :=
  s.inside.toList.all fun a => !g.isExclusive && !a.2.guard.isExclusive

/-- A unit of work asks for the guard to commit under a name.  If it cannot have it, it waits. -/
def enter (s : Commits) (name : String) (c : Context) : Commits :=
  if s.inside.contains name then s
  else if s.admits c.commitGuard then
    { s with inside := s.inside.insert name ⟨c.commitGuard, c, .entered⟩ }
  else s

/-- A commit gives the guard back. -/
def leave (s : Commits) (name : String) (r : Except TreeError (List Event)) : Commits :=
  { s with inside := s.inside.erase name, outcomes := s.outcomes ++ [(name, r)] }

/-- A commit has come further, and the tree is another one. -/
def reach (s : Commits) (name : String) (x : CommitSection) (tree : CommittedTree)
    (phase : CommitPhase) : Commits :=
  { s with
    store := { s.store with tree }
    inside := s.inside.insert name { x with phase } }

/-- **A commit goes on by one step**: it checks the workspace, takes its version, merges the next
entry, or gives the guard back. -/
def goOn (s : Commits) (name : String) (x : CommitSection) : Commits :=
  match x.phase with
  | .entered =>
      match s.store.base.conflicts x.context s.store.config.writeSkewCheckActive with
      | y :: _ => s.leave name (.error y.error)
      | [] => s.reach name x s.store.tree .checked
  | .checked =>
      let (v, tree) := s.store.stamp x.context
      s.reach name x tree (.merging v x.context.workspace.dirty [])
  | .merging _ [] events => s.leave name (.ok (Store.allEvents x.context events))
  | .merging v (a :: left) events =>
      match mergeEntry s.store.tree v ⟨x.context.transaction, x.context.options.localOnly⟩
          a.1 a.2 with
      | .error e => s.leave name (.error e)
      | .ok (tree, more) => s.reach name x tree (.merging v left (events ++ more))

end Commits

/-- What is left of a unit of work that has given the guard back, with the tree as it was then and
what has become of its commit: its locks are released only now, and the listeners told. -/
def Store.close (s : Store) (c : Context) (tree : CommittedTree) :
    Except TreeError (List Event) → Ending
  | .error e => ⟨{ s with tree }, c, .error e, []⟩
  | .ok events =>
      { s with tree }.conclude c true (deliver s.listeners (events.map .change))

end TransactionalTree
