/-
**What a thread asks of a cache.**

A thread begins, commits and rolls back transactions, lays them aside and takes them up again.  Its
operations join the transaction that is bound to it; without one, each operation is a unit of work
of its own that is committed at once, or rolled back if something fails.

Main definitions:

* `Session.current` — the transaction that the thread is bound to;
* `Session.beginBound`, `Session.commitBound`, `Session.rollbackBound` — its life;
* `Session.suspend`, `Session.resume` — laying aside and taking up;
* `Session.call` — an operation;
* `Session.callThrough`, `Session.addChild`, … — writing through a reference to a node.
-/

import TransactionalTree.Session.Transaction

set_option relaxedAutoImplicit false
set_option autoImplicit false

namespace TransactionalTree

namespace Session

/-! ### Transactions of a thread -/

/-- **The transaction of the cache that the thread is bound to.**  A binding to one that has ended
is removed. -/
def current (s : Session) (t : ThreadId) (k : Nat) : Session × Option TransactionId :=
  match s.bound? t k with
  | none => (s, none)
  | some id => if (s.status id).isCompleted then (s.unbind t k, none) else (s, some id)

/-- **Begin a transaction** and bind the thread to it. -/
def beginBound (s : Session) (t : ThreadId) (k : Nat) : Session × Except TreeError TransactionId :=
  match s.current t k with
  | (s, some id) => (s, .error (.refused (.alreadyBound id)))
  | (s, none) =>
      let (s, id) := s.beginDetached t k
      (s.bind t k id, .ok id)

/-- **Commit** the transaction that the thread is bound to.  The binding goes, unless the commit is
refused. -/
def commitBound (s : Session) (t : ThreadId) (k : Nat) : Session × Except TreeError Unit :=
  match s.current t k with
  | (s, none) => (s, .error (.refused .notBound))
  | (s, some id) =>
      let (s, result) := s.commitTransaction id
      (if (s.status id).isCompleted then s.unbind t k else s, result)

/-- **Roll back** the transaction that the thread is bound to.  The binding goes. -/
def rollbackBound (s : Session) (t : ThreadId) (k : Nat) : Session × Except TreeError Unit :=
  match s.current t k with
  | (s, none) => (s, .error (.refused .notBound))
  | (s, some id) => (s.unbind t k).rollbackTransaction id

/-- **Lay aside** the transaction that the thread is bound to; says which one that is. -/
def suspend (s : Session) (t : ThreadId) (k : Nat) : Session × Option TransactionId :=
  match s.current t k with
  | (s, none) => (s, none)
  | (s, some id) => (s.unbind t k, some id)

/-- **Take up** a transaction: bind the thread to it. -/
def resume (s : Session) (t : ThreadId) (k : Nat) (id : TransactionId) :
    Session × Except TreeError Unit :=
  if (s.transaction id).cache ≠ k then (s, .error (.refused (.foreign id)))
  else if s.status id ≠ .active then (s, .error (s.notActive id))
  else match s.current t k with
    | (s, some other) => (s, .error (.refused (.alreadyBound other)))
    | (s, none) => (s.bind t k id, .ok ())

/-! ### Operations of a thread -/

/-- Carry out an operation as a unit of work of its own: commit it at once, or roll it back if
something fails. -/
def callAlone (s : Session) (t : ThreadId) (k : Nat) (options : Options) (o : Operation) :
    Session × Except TreeError Answer :=
  let store := (s.cache k).store
  let (w, answer) := store.base.perform ⟨store.locks, { Context.ofThread t with options }⟩ o
  let store := { store with locks := w.locks }
  match answer with
  | .error e =>
      let undone := store.rollback w.context
      ((s.setStore k undone.store).note undone.sent, .error e)
  | .ok a =>
      let done := store.commit w.context
      match done.result with
      | .ok () => ((s.setStore k done.store).note done.sent, .ok a)
      | .error e =>
          let undone := done.store.rollback done.context
          ((s.setStore k undone.store).note (done.sent ++ undone.sent), .error e)

/-- **Carry out an operation of a thread**, with options for this one if some are given: in the
transaction that the thread is bound to, or alone. -/
def call (s : Session) (t : ThreadId) (k : Nat) (options : Option Options) (o : Operation) :
    Session × Except TreeError Answer :=
  match s.current t k, options with
  | (s, some id), none => s.performIn id o
  | (s, some id), some options => s.performWith id options o
  | (s, none), options => s.callAlone t k (options.getD {}) o

/-! ### Writing through a reference to a node -/

/-- Carry out an operation if the node that the reference means is valid. -/
def callThrough (s : Session) (t : ThreadId) (k : Nat) (r : NodeRef) (o : Operation) :
    Session × Except TreeError Answer :=
  if (s.cache k).store.tree.isValid r then s.call t k none o
  else (s, .error (.nodeInvalid r.path))

/-- Make a child of the node that the reference means; says where it is. -/
def addChild (s : Session) (t : ThreadId) (k : Nat) (r : NodeRef) (name : String) :
    Session × Except TreeError Path :=
  if (s.cache k).store.tree.isValid r then
    match r.path.child? name with
    | .error fault => (s, .error (.invalidPath fault))
    | .ok p =>
        let (s, answer) := s.call t k none (.putAll p .empty)
        (s, answer.map fun _ => p)
  else (s, .error (.nodeInvalid r.path))

/-- Remove a child of the node that the reference means, with all that is below it. -/
def removeChild (s : Session) (t : ThreadId) (k : Nat) (r : NodeRef) (name : String) :
    Session × Except TreeError Answer :=
  if (s.cache k).store.tree.isValid r then
    match r.path.child? name with
    | .error fault => (s, .error (.invalidPath fault))
    | .ok p => s.call t k none (.removeNode p)
  else (s, .error (.nodeInvalid r.path))

end Session

end TransactionalTree
