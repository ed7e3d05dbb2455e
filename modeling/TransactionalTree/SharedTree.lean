/-
**Several units of work on one tree.**

A shared tree is a tree together with the units of work that are under way on it, each under a name.
They take turns: one operation, commit or rollback at a time.

Main definitions:

* `SharedTree` — the tree, the units of work, and what the listeners were told;
* `SharedTree.perform`, `SharedTree.locking` — one step of a unit of work that changes no
  committed node;
* `SharedTree.commit`, `SharedTree.rollback` — the end of a unit of work, which may go on
  afterwards.
-/

import TransactionalTree.Commit.Basic
import TransactionalTree.Operation.Basic

set_option relaxedAutoImplicit false
set_option autoImplicit false

namespace TransactionalTree

/-- A tree and the units of work that are under way on it. -/
structure SharedTree where
  /-- The tree. -/
  store : Store
  /-- The units of work, by name. -/
  contexts : SortedMap String Context
  /-- What the listeners were told, the earliest first. -/
  sent : List Delivery
deriving Inhabited

namespace SharedTree

/-- A new tree without units of work. -/
def ofConfig (c : Config) (hash : Path → UInt64 := Stripe.hash) : SharedTree :=
  ⟨.ofConfig c hash, .empty, []⟩

/-- Begin a unit of work under a name; one of the same name is forgotten, with its locks. -/
def start (s : SharedTree) (name : String) (c : Context) : SharedTree :=
  { s with contexts := s.contexts.insert name c }

/-- A step that takes and releases locks and changes the unit of work. -/
def locking {α : Type} (s : SharedTree) (name : String) (c : Context) (step : Work → Work × α) :
    SharedTree × α :=
  let (w, a) := step ⟨s.store.locks, c⟩
  ({ s with
      store := { s.store with locks := w.locks }
      contexts := s.contexts.insert name w.context }, a)

/-- **Carry out an operation** of a unit of work. -/
def perform (s : SharedTree) (name : String) (c : Context) (o : Operation) :
    SharedTree × Except TreeError Answer :=
  s.locking name c fun w => s.store.base.perform w o

/-- The shared tree after the end of a unit of work. -/
def finish (s : SharedTree) (name : String) (e : Ending) : SharedTree × Except TreeError Unit :=
  ({ store := e.store
     contexts := s.contexts.insert name e.context
     sent := s.sent ++ e.sent }, e.result)

/-- **Commit a unit of work.** -/
def commit (s : SharedTree) (name : String) (c : Context) : SharedTree × Except TreeError Unit :=
  s.finish name (s.store.commit c)

/-- **Roll a unit of work back.** -/
def rollback (s : SharedTree) (name : String) (c : Context) : SharedTree × Except TreeError Unit :=
  s.finish name (s.store.rollback c)

/-- Change the committed tree directly, unless that fails. -/
def changeTree {α : Type} (s : SharedTree)
    (step : CommittedTree → Except TreeError (CommittedTree × α)) :
    SharedTree × Except TreeError α :=
  match step s.store.tree with
  | .error e => (s, .error e)
  | .ok (tree, a) => ({ s with store := { s.store with tree } }, .ok a)

end SharedTree

end TransactionalTree
