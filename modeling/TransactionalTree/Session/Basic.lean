/-
**Sessions: caches, threads and transactions.**

A session is all that happens in one process: some caches, each with a tree of its own, threads that
use them, and transactions.  A transaction can be known by names, its handles, and can be bound to a
thread, one for each cache; a call of a thread joins the transaction that is bound to it.

Main definitions:

* `Transaction`, `TransactionCounts`, `Cache` — the parts of a session;
* `Session` — the whole;
* `Session.bound?`, `Session.bind`, `Session.unbind` — the bindings of threads;
* `Session.isReferenced` — whether a transaction can be reached;
* `Session.start` — the threads.
-/

import TransactionalTree.Commit.Basic
import TransactionalTree.Double
import TransactionalTree.Operation.Basic

set_option relaxedAutoImplicit false
set_option autoImplicit false

namespace TransactionalTree

/-! ### The parts -/

/-- A transaction. -/
structure Transaction where
  /-- The number of the cache it was begun with. -/
  cache : Nat
  /-- Its state. -/
  status : Status
  /-- What it has done. -/
  context : Context
deriving DecidableEq, Repr, Inhabited

/-- How many transactions of a cache there were. -/
structure TransactionCounts where
  /-- Begun and not ended yet. -/
  active : Nat := 0
  /-- Begun. -/
  started : Nat := 0
  /-- Committed. -/
  committed : Nat := 0
  /-- Rolled back. -/
  rolledBack : Nat := 0
  /-- Refused for write skew when they were to be committed. -/
  skewAborts : Nat := 0
deriving DecidableEq, Repr, Inhabited

namespace TransactionCounts

/-- Ended. -/
def completed (n : TransactionCounts) : Nat := n.committed + n.rolledBack

/-- The share of those begun that were committed. -/
def commitRate (n : TransactionCounts) : Double := .ofRatio n.committed n.started

/-- The share of those begun that were rolled back. -/
def rollbackRate (n : TransactionCounts) : Double := .ofRatio n.rolledBack n.started

/-- One more is begun. -/
def start (n : TransactionCounts) : TransactionCounts :=
  { n with active := n.active + 1, started := n.started + 1 }

/-- One more is committed. -/
def commit (n : TransactionCounts) : TransactionCounts :=
  { n with active := n.active - 1, committed := n.committed + 1 }

/-- One more is rolled back. -/
def rollback (n : TransactionCounts) : TransactionCounts :=
  { n with active := n.active - 1, rolledBack := n.rolledBack + 1 }

/-- One more is refused for write skew. -/
def abort (n : TransactionCounts) : TransactionCounts := { n with skewAborts := n.skewAborts + 1 }

end TransactionCounts

/-- A cache: a tree, and how many transactions it had. -/
structure Cache where
  /-- The tree. -/
  store : Store
  /-- The counts of its transactions. -/
  counts : TransactionCounts := {}
deriving Inhabited

namespace Cache

/-- A cache with the given settings, if they fit together. -/
def ofConfig (c : Config) (hash : Path → UInt64 := Stripe.hash) : Except TreeError Cache :=
  c.validate.map fun c => { store := .ofConfig c hash }

end Cache

/-- A thread is bound to a transaction of a cache. -/
structure Binding where
  /-- The thread. -/
  thread : ThreadId
  /-- The number of the cache. -/
  cache : Nat
  /-- The transaction. -/
  transaction : TransactionId
deriving DecidableEq, Repr, Inhabited

/-- Caches, threads and transactions. -/
structure Session where
  /-- The caches, by number. -/
  caches : List Cache
  /-- The transactions that were begun. -/
  transactions : SortedMap TransactionId Transaction := .empty
  /-- The number of the next transaction. -/
  nextTransaction : TransactionId := (1 : Nat)
  /-- The handles: names for transactions. -/
  handles : SortedMap String TransactionId := .empty
  /-- The bindings of threads. -/
  bindings : List Binding := []
  /-- For each name of a thread, how many threads of that name have ended. -/
  generations : SortedMap String Nat := .empty
  /-- The names of the threads that are running. -/
  running : NameSet := .empty
  /-- What the listeners were told, the earliest first. -/
  sent : List Delivery := []
deriving Inhabited

namespace Session

/-! ### Caches and transactions -/

/-- The cache with this number. -/
def cache (s : Session) (k : Nat) : Cache := s.caches.getD k default

/-- Replace a cache. -/
def setCache (s : Session) (k : Nat) (c : Cache) : Session := { s with caches := s.caches.set k c }

/-- Replace the tree of a cache. -/
def setStore (s : Session) (k : Nat) (store : Store) : Session :=
  s.setCache k { s.cache k with store }

/-- Change the counts of a cache. -/
def count (s : Session) (k : Nat) (f : TransactionCounts → TransactionCounts) : Session :=
  s.setCache k { s.cache k with counts := f (s.cache k).counts }

/-- Whether all transactions of the cache have ended. -/
def isIdle (s : Session) (k : Nat) : Bool := (s.cache k).counts.active = 0

/-- The transaction with this number. -/
def transaction (s : Session) (id : TransactionId) : Transaction :=
  (s.transactions.get? id).getD default

/-- Replace a transaction. -/
def setTransaction (s : Session) (id : TransactionId) (tx : Transaction) : Session :=
  { s with transactions := s.transactions.insert id tx }

/-- The state of a transaction. -/
def status (s : Session) (id : TransactionId) : Status := (s.transaction id).status

/-- The failure of what a transaction does not accept in its present state. -/
def notActive (s : Session) (id : TransactionId) : TreeError :=
  .notActive id (.because (s.status id))

/-- Take note of what the listeners were told. -/
def note (s : Session) (sent : List Delivery) : Session := { s with sent := s.sent ++ sent }

/-! ### Bindings -/

/-- The transaction of the cache that the thread is bound to. -/
def bound? (s : Session) (t : ThreadId) (k : Nat) : Option TransactionId :=
  (s.bindings.find? fun b => b.thread = t && b.cache = k).map (·.transaction)

/-- Remove the binding of the thread to a transaction of the cache. -/
def unbind (s : Session) (t : ThreadId) (k : Nat) : Session :=
  { s with bindings := s.bindings.filter fun b => !(b.thread = t && b.cache = k) }

/-- Bind the thread to a transaction of the cache. -/
def bind (s : Session) (t : ThreadId) (k : Nat) (id : TransactionId) : Session :=
  { s with bindings := (s.unbind t k).bindings ++ [⟨t, k, id⟩] }

/-! ### Handles -/

/-- Whether a transaction can still be reached by a handle or through a thread. -/
def isReferenced (s : Session) (id : TransactionId) : Bool :=
  s.handles.values.contains id || s.bindings.any (·.transaction = id)

/-! ### Threads -/

/-- The running thread of this name, or the one that is to run next. -/
def threadId (s : Session) (name : String) : ThreadId :=
  ⟨name, (s.generations.get? name).getD 0⟩

/-- Take note that a thread of this name is running. -/
def start (s : Session) (name : String) : Session := { s with running := s.running.add name }

end Session

end TransactionalTree
