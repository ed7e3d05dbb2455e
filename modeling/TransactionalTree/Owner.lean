/-
**Who holds a lock.**

A lock is held by a transaction or, outside of transactions, by the calling thread.  Transactions
are numbered; a thread is known by its name and, since a name can be used again once its thread has
ended, by how many threads of that name came before it.

Main definitions:

* `TransactionId`, `ThreadId` — the identities;
* `Owner` — a transaction or a thread;
* `Owner.toText`, `Owner.toRecord` — how an owner is written.
-/

set_option relaxedAutoImplicit false
set_option autoImplicit false

namespace TransactionalTree

/-- The number of a transaction. -/
abbrev TransactionId := Nat

/-- A thread: its name, and how many earlier threads had the same name. -/
structure ThreadId where
  /-- The name of the thread. -/
  name : String
  /-- The number of earlier threads of this name. -/
  generation : Nat
deriving DecidableEq, Repr, Inhabited

/-- The party that holds a lock. -/
inductive Owner where
  /-- A thread that runs a call of its own. -/
  | thread (id : ThreadId)
  /-- A transaction, on whichever thread it runs. -/
  | transaction (id : TransactionId)
deriving DecidableEq, Repr, Inhabited

/-- A transaction as text. -/
def TransactionId.toText (id : TransactionId) : String := s!"GlobalTransaction:<{id}>"

/-- A transaction as a record. -/
def TransactionId.toRecord (id : TransactionId) : String := s!"GlobalTransaction({id})"

/-- A thread as text. -/
def ThreadId.toText (id : ThreadId) : String := "ThreadId(" ++ id.name ++ ")"

namespace Owner

/-- The owner as text. -/
def toText : Owner → String
  | thread id => id.toText
  | transaction id => id.toText

/-- The owner as a record. -/
def toRecord : Owner → String
  | thread id => "Thread(" ++ id.toText ++ ")"
  | transaction id => "Transaction(" ++ id.toRecord ++ ")"

/-- The transaction, if the owner is one. -/
def transaction? : Owner → Option TransactionId
  | thread _ => none
  | transaction id => some id

/-- Whether the owner is a transaction. -/
def isTransaction (o : Owner) : Bool := o.transaction?.isSome

end Owner

end TransactionalTree
