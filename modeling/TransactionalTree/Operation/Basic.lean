/-
**Operations as data.**

Main definitions:

* `Operation` — what can be asked of the tree within a unit of work;
* `Answer` — what an operation answers;
* `Base.perform` — **carry out an operation**.
-/

import TransactionalTree.Operation.Move

set_option relaxedAutoImplicit false
set_option autoImplicit false

namespace TransactionalTree

/-- What can be asked of the tree within a unit of work. -/
inductive Operation where
  /-- The value under a key. -/
  | get (p : Path) (key : String)
  /-- The data. -/
  | getData (p : Path)
  /-- The keys. -/
  | getKeys (p : Path)
  /-- The names of the children. -/
  | getChildNames (p : Path)
  /-- Whether there is a node. -/
  | nodeExists (p : Path)
  /-- Set the value under a key. -/
  | put (p : Path) (key : String) (v : Value)
  /-- Set the values of several keys. -/
  | putAll (p : Path) (d : Data)
  /-- Set the data. -/
  | replaceAll (p : Path) (d : Data)
  /-- Remove the value under a key. -/
  | removeKey (p : Path) (key : String)
  /-- Remove all data. -/
  | clearData (p : Path)
  /-- Remove a node and all that is below it. -/
  | removeNode (p : Path)
  /-- Move a node to another parent. -/
  | moveNode (source parent : Path) (deep : Bool)
deriving DecidableEq, Repr, Inhabited

/-- What an operation answers. -/
inductive Answer where
  /-- A value, if there is one. -/
  | value (v : Option Value)
  /-- Data, if there is a node. -/
  | data (d : Option Data)
  /-- Keys or names, if there is a node. -/
  | names (ns : Option NameSet)
  /-- Yes or no. -/
  | flag (b : Bool)
  /-- Done. -/
  | done
  /-- Where the node is now. -/
  | place (p : Option Path)
deriving DecidableEq, Repr, Inhabited

/-- The answer of an operation, made of what its function says. -/
def answering {α : Type} (make : α → Answer) (r : Work × Except TreeError α) :
    Work × Except TreeError Answer :=
  (r.1, r.2.map make)

/-- **Carry out an operation.** -/
def Base.perform (b : Base) (w : Work) : Operation → Work × Except TreeError Answer
  | .get p key => answering .value (b.get w p key)
  | .getData p => answering .data (b.getData w p)
  | .getKeys p => answering .names (b.getKeys w p)
  | .getChildNames p => answering .names (b.getChildNames w p)
  | .nodeExists p => answering .flag (b.nodeExists w p)
  | .put p key v => answering .value (b.put w p key v)
  | .putAll p d => answering (fun _ => .done) (b.putAll w p d)
  | .replaceAll p d => answering (fun _ => .done) (b.replaceAll w p d)
  | .removeKey p key => answering .value (b.removeKey w p key)
  | .clearData p => answering (fun _ => .done) (b.clearData w p)
  | .removeNode p => answering .flag (b.removeNode w p)
  | .moveNode source parent deep => answering .place (b.moveNode w source parent deep)

end TransactionalTree
