/-
**The life of a transaction.**

A transaction is begun, accepts operations while it is active, and ends committed or rolled back.
When a commit is refused, only rolling back is left.  Whatever takes the last handle or binding of a
transaction away also rolls it back, unless it has ended.

Main definitions:

* `Session.beginDetached` — beginning;
* `Session.performIn`, `Session.performWith` — an operation;
* `Session.setOptions` — the options of its later operations;
* `Session.commitTransaction`, `Session.rollbackTransaction` — ending;
* `Session.settle` — rolling back what nobody can reach;
* `Session.name`, `Session.drop`, `Session.keep` — giving and dropping handles;
* `Session.endThread` — the end of a thread.
-/

import TransactionalTree.Session.Basic

set_option relaxedAutoImplicit false
set_option autoImplicit false

namespace TransactionalTree

namespace Session

/-! ### Beginning -/

/-- **Begin a transaction** of the cache that is not bound to a thread. -/
def beginDetached (s : Session) (t : ThreadId) (k : Nat) : Session × TransactionId :=
  let id := s.nextTransaction
  let s := s.setTransaction id ⟨k, .active, .ofTransaction t id⟩
  (({ s with nextTransaction := id + 1 }).count k .start, id)

/-! ### Operations -/

/-- Run a step of a transaction that takes and releases locks and changes what it has done. -/
def stepIn {α : Type} (s : Session) (id : TransactionId)
    (step : Base → Work → Work × Except TreeError α) : Session × Except TreeError α :=
  let tx := s.transaction id
  if tx.status = .active then
    let store := (s.cache tx.cache).store
    let (w, a) := step store.base ⟨store.locks, tx.context⟩
    ((s.setStore tx.cache { store with locks := w.locks }).setTransaction id
      { tx with context := w.context }, a)
  else (s, .error (s.notActive id))

/-- **Carry out an operation in a transaction.** -/
def performIn (s : Session) (id : TransactionId) (o : Operation) :
    Session × Except TreeError Answer :=
  s.stepIn id fun b w => b.perform w o

/-- Carry out an operation in a transaction, with other options for this one. -/
def performWith (s : Session) (id : TransactionId) (options : Options) (o : Operation) :
    Session × Except TreeError Answer :=
  s.stepIn id fun b w =>
    let (w', a) := b.perform (w.withContext { w.context with options }) o
    (w'.withContext { w'.context with options := w.context.options }, a)

/-- Set the options that hold for the later operations of a transaction. -/
def setOptions (s : Session) (id : TransactionId) (options : Options) : Session :=
  let tx := s.transaction id
  s.setTransaction id { tx with context := { tx.context with options } }

/-! ### Ending -/

/-- Take over what is left when a transaction has ended, or has failed to. -/
def absorb (s : Session) (id : TransactionId) (e : Ending) (status : Status) : Session :=
  let tx := s.transaction id
  ((s.setStore tx.cache e.store).setTransaction id
    { tx with context := e.context, status := status }).note e.sent

/-- **Commit a transaction.**  If that is refused, it is marked for rollback; if only its locks
could not be released, it has been committed nevertheless. -/
def commitTransaction (s : Session) (id : TransactionId) : Session × Except TreeError Unit :=
  let tx := s.transaction id
  if tx.status = .active then
    let e := (s.cache tx.cache).store.commit tx.context
    match e.result with
    | .ok () => ((s.absorb id e .committed).count tx.cache .commit, .ok ())
    | .error err =>
        if e.context.hasChanges then
          let s := s.absorb id e .markedRollback
          (if err.isWriteSkew then s.count tx.cache .abort else s, .error err)
        else ((s.absorb id e .committed).count tx.cache .commit, .error err)
  else (s, .error (s.notActive id))

/-- **Roll a transaction back**, if it has not ended. -/
def rollbackTransaction (s : Session) (id : TransactionId) : Session × Except TreeError Unit :=
  let tx := s.transaction id
  if tx.status.isCompleted then (s, .error (s.notActive id))
  else
    let e := (s.cache tx.cache).store.rollback tx.context
    ((s.absorb id e .rolledBack).count tx.cache .rollback, e.result)

/-! ### Transactions that nobody can reach -/

/-- The transactions that have not ended and that nobody can reach. -/
def lost (s : Session) : List TransactionId :=
  (s.transactions.filter fun id tx => !tx.status.isCompleted && !s.isReferenced id).keys

/-- **Roll back the transactions that nobody can reach.** -/
def settle (s : Session) : Session :=
  s.lost.foldl (fun s id => (s.rollbackTransaction id).1) s

/-! ### Handles and threads that go -/

/-- Give a transaction a name.  Another one that had the name loses it. -/
def name (s : Session) (handle : String) (id : TransactionId) : Session :=
  { s with handles := s.handles.insert handle id }.settle

/-- Drop a handle; says whether there was one. -/
def drop (s : Session) (handle : String) : Session × Bool :=
  ({ s with handles := s.handles.erase handle }.settle, s.handles.contains handle)

/-- What becomes of a transaction that was handed out: it is kept under a name, or let go. -/
def keep (s : Session) (handle : Option String) (id : TransactionId) : Session :=
  match handle with
  | some handle => s.name handle id
  | none => s.settle

/-- **End the thread of this name** and drop its bindings; says whether it was running. -/
def endThread (s : Session) (name : String) : Session × Bool :=
  if s.running.has name then
    let t := s.threadId name
    ({ s with
        running := s.running.erase name
        generations := s.generations.insert name (t.generation + 1)
        bindings := s.bindings.filter (·.thread ≠ t) }.settle, true)
  else (s, false)

/-! ### What a transaction shows -/

/-- The transaction as a record. -/
def recordOf (s : Session) (id : TransactionId) : String :=
  "Transaction \x7b gtx: " ++ id.toRecord ++ ", status: " ++ (s.status id).toRecord ++ " \x7d"

end Session

end TransactionalTree
