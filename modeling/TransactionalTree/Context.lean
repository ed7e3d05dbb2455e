/-
**Units of work.**

A unit of work is one call of a thread, or a transaction.  It knows who it locks for, which paths it
has locked, its workspace, the moves it has made, and the options that hold for it.

Main definitions:

* `Context` — a unit of work;
* `Context.owner` — who holds its locks;
* `Context.holds`, `Context.record`, `Context.forget` — its locked paths;
* `Context.clearWorkspace` — forgetting what it has done.
-/

import TransactionalTree.Options
import TransactionalTree.Owner
import TransactionalTree.Workspace.Basic

set_option relaxedAutoImplicit false
set_option autoImplicit false

namespace TransactionalTree

/-- A unit of work. -/
structure Context where
  /-- The thread that made it. -/
  thread : ThreadId
  /-- The transaction, if it is one. -/
  transaction : Option TransactionId := none
  /-- The paths it has locked. -/
  locked : SortedSet Path := .empty
  /-- The nodes it has touched. -/
  workspace : Workspace := .empty
  /-- The moves it has made, the oldest first: from where to where. -/
  moves : List (Path × Path) := []
  /-- The options that hold for it. -/
  options : Options := {}
deriving DecidableEq, Repr, Inhabited

namespace Context

/-- The unit of work of a transaction. -/
def ofTransaction (thread : ThreadId) (id : TransactionId) : Context :=
  { thread, transaction := some id }

/-- The unit of work of a single call. -/
def ofThread (thread : ThreadId) : Context := { thread }

/-- Who holds its locks: the transaction if it is one, else the thread. -/
def owner (c : Context) : Owner :=
  match c.transaction with
  | some id => .transaction id
  | none => .thread c.thread

/-! ### Locked paths -/

/-- Whether it has locked `p`. -/
def holds (c : Context) (p : Path) : Bool := c.locked.has p

/-- Take note that `p` is locked. -/
def record (c : Context) (p : Path) : Context := { c with locked := c.locked.add p }

/-- Take note that `p` is no longer locked. -/
def forget (c : Context) (p : Path) : Context := { c with locked := c.locked.erase p }

/-! ### Workspace -/

/-- The entry for `p`. -/
def entry? (c : Context) (p : Path) : Option Entry := c.workspace.get? p

/-- Set the entry for `p`. -/
def setEntry (c : Context) (p : Path) (e : Entry) : Context :=
  { c with workspace := c.workspace.insert p e }

/-- Change the entry for `p`, if there is one. -/
def modifyEntry (c : Context) (p : Path) (f : Entry → Entry) : Context :=
  { c with workspace := c.workspace.modify p f }

/-- Whether it changes the committed tree. -/
def hasChanges (c : Context) : Bool := c.workspace.hasChanges

/-- Take note of a move. -/
def recordMove (c : Context) (source target : Path) : Context :=
  { c with moves := c.moves ++ [(source, target)] }

/-- Forget the workspace and the moves. -/
def clearWorkspace (c : Context) : Context := { c with workspace := .empty, moves := [] }

end Context

end TransactionalTree
