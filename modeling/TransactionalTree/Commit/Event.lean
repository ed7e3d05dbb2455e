/-
**Events and listeners.**

A commit reports each change that it has made, and a transaction its end, to every listener.  A
listener that was added twice is told twice.

Main definitions:

* `Event` — a change of the committed tree;
* `Notice` — what a listener is told: a change, or the end of a transaction;
* `Delivery` — a notice on its way to a listener;
* `deliver` — who is told what, in order.
-/

import TransactionalTree.Owner
import TransactionalTree.Path.Basic
import TransactionalTree.Value

set_option relaxedAutoImplicit false
set_option autoImplicit false

namespace TransactionalTree

/-- Who made a change, and whether it is to be passed on. -/
structure Origin where
  /-- The transaction, if it was one. -/
  transaction : Option TransactionId
  /-- Whether the change is not to be passed on. -/
  localOnly : Bool
deriving DecidableEq, Repr, Inhabited

/-- A change of the committed tree. -/
inductive Event where
  /-- A node was made. -/
  | created (path : Path) (after : Data) (origin : Origin)
  /-- The data of a node were written. -/
  | modified (path : Path) (before : Option Data) (after : Data) (origin : Origin)
  /-- A node was removed, with all that was below it. -/
  | removed (path : Path) (before : Option Data) (origin : Origin)
  /-- A subtree was moved. -/
  | moved (source target : Path) (origin : Origin)
deriving DecidableEq, Repr, Inhabited

/-- What a listener is told. -/
inductive Notice where
  /-- The tree was changed. -/
  | change (e : Event)
  /-- A transaction has ended, committed or not. -/
  | completed (transaction : TransactionId) (committed : Bool)
deriving DecidableEq, Repr, Inhabited

/-- A notice on its way to a listener. -/
structure Delivery where
  /-- The name of the listener. -/
  listener : String
  /-- What the listener is told. -/
  notice : Notice
deriving DecidableEq, Repr, Inhabited

/-- **Who is told what**: one notice after the other, each to all listeners in the order in which
they were added. -/
def deliver (listeners : List String) (notices : List Notice) : List Delivery :=
  notices.flatMap fun notice => listeners.map fun listener => ⟨listener, notice⟩

/-- The notice of the end of a transaction; none for a call outside of transactions. -/
def completion (transaction : Option TransactionId) (committed : Bool) : List Notice :=
  transaction.toList.map fun id => .completed id committed

end TransactionalTree
