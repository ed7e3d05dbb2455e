/-
**The states of a transaction.**

Main definitions:

* `Status` — active, marked for rollback, committed or rolled back;
* `Status.isCompleted` — committed or rolled back;
* `Status.toText`, `Status.toRecord` — how a state is written.
-/

set_option relaxedAutoImplicit false
set_option autoImplicit false

namespace TransactionalTree

/-- The state of a transaction. -/
inductive Status where
  /-- Operations are accepted. -/
  | active
  /-- A commit was refused; only rolling back is possible. -/
  | markedRollback
  /-- Merged into the tree. -/
  | committed
  /-- Discarded. -/
  | rolledBack
deriving DecidableEq, Repr, Inhabited

namespace Status

/-- Whether the transaction has ended. -/
def isCompleted : Status → Bool
  | active => false
  | markedRollback => false
  | committed => true
  | rolledBack => true

/-- The state in words. -/
def toText : Status → String
  | active => "active"
  | markedRollback => "marked for rollback"
  | committed => "committed"
  | rolledBack => "rolled back"

/-- The name of the state. -/
def toRecord : Status → String
  | active => "Active"
  | markedRollback => "MarkedRollback"
  | committed => "Committed"
  | rolledBack => "RolledBack"

end Status

end TransactionalTree
