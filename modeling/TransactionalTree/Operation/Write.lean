/-
**Writing and removing.**

A write locks what it needs, makes sure that the node has an entry, and changes the entry.  If a
lock is not free, or an explicit version is not accepted, nothing is changed and the locks taken
for the write are released.

Main definitions:

* `Base.prepareWrite`, `Base.writing` — the frame of a write;
* `Base.put`, `Base.putAll`, `Base.replaceAll`, `Base.removeKey`, `Base.clearData` — the writes;
* `Base.removeNode` — removing a subtree; at the root, all that is below it and its data.
-/

import TransactionalTree.Operation.Read

set_option relaxedAutoImplicit false
set_option autoImplicit false

namespace TransactionalTree

namespace Base

/-! ### Writing -/

/-- **Lock the node at `p` and make sure that it has an entry.**  With `create`, missing nodes are
made.  Says whether there is an entry to write to. -/
def prepareWrite (b : Base) (w : Work) (p : Path) (create : Bool) : Work × Except TreeError Bool :=
  match w.lockAll [] ((b.view w.context).writeLocks w.locks p create) with
  | (w, .refused e) => (w, .error e)
  | (w, .declined) => (w, .ok false)
  | (w, .granted taken) =>
      match b.stageWrite w.context p create with
      | .error e => (w.releasePartial taken, .error e)
      | .ok (c, ready) => (w.withContext c, .ok ready)

/-- A write that changes the entry for `p`, or answers `idle` if there is none to write to. -/
def writing {α : Type} (b : Base) (w : Work) (p : Path) (create : Bool) (idle : α)
    (change : Entry → Entry × α) : Work × Except TreeError α :=
  match b.prepareWrite w p create with
  | (w, .error e) => (w, .error e)
  | (w, .ok false) => (w, .ok idle)
  | (w, .ok true) =>
      match w.context.entry? p with
      | none => (w, .error (.nodeMissing p))
      | some e => (w.withContext (w.context.setEntry p (change e).1), .ok (change e).2)

/-- Set the value under a key, making missing nodes; says what was there before. -/
def put (b : Base) (w : Work) (p : Path) (key : String) (v : Value) :
    Work × Except TreeError (Option Value) :=
  b.writing w p true none (·.put key v)

/-- Set the values of all the keys of `d`, making missing nodes. -/
def putAll (b : Base) (w : Work) (p : Path) (d : Data) : Work × Except TreeError Unit :=
  b.writing w p true () fun e => (e.putAll d, ())

/-- Set the data to `d`, making missing nodes. -/
def replaceAll (b : Base) (w : Work) (p : Path) (d : Data) : Work × Except TreeError Unit :=
  b.writing w p true () fun e => (e.replaceData d, ())

/-- Remove the value under a key; says what was there. -/
def removeKey (b : Base) (w : Work) (p : Path) (key : String) :
    Work × Except TreeError (Option Value) :=
  b.writing w p false none (·.removeKey key)

/-- Remove all data of the node at `p`. -/
def clearData (b : Base) (w : Work) (p : Path) : Work × Except TreeError Unit :=
  b.writing w p false () fun e => (e.clearData, ())

/-! ### Removing -/

/-- Remove the node at `p`, which is not the root, and all that is below it; says whether it was
there. -/
def removeBelowRoot (b : Base) (w : Work) (p : Path) : Work × Except TreeError Bool :=
  match w.lockAll [] ((b.view w.context).removalLocks w.locks p) with
  | (w, .refused e) => (w, .error e)
  | (w, .declined) => (w, .ok false)
  | (w, .granted _) =>
      let (c, found) := b.stageRemoval w.context p
      (w.withContext c, .ok found)

/-- Remove the listed nodes, up to the first removal that fails. -/
def removeEach (b : Base) (w : Work) : List Path → Work × Except TreeError Unit
  | [] => (w, .ok ())
  | p :: ps =>
      match b.removeBelowRoot w p with
      | (w, .error e) => (w, .error e)
      | (w, .ok _) => b.removeEach w ps

/-- Remove all that is below the root, one child of the root after the other, and its data. -/
def removeRoot (b : Base) (w : Work) : Work × Except TreeError Bool :=
  let names := ((b.view w.context).childNames .root).getD .empty
  match b.removeEach w (names.keys.map Path.root.push) with
  | (w, .error e) => (w, .error e)
  | (w, .ok ()) =>
      match b.clearData w .root with
      | (w, .error e) => (w, .error e)
      | (w, .ok ()) => (w, .ok true)

/-- **Remove the node at `p`** and all that is below it; says whether it was there. -/
def removeNode (b : Base) (w : Work) (p : Path) : Work × Except TreeError Bool :=
  if p.isRoot then b.removeRoot w else b.removeBelowRoot w p

end Base

end TransactionalTree
