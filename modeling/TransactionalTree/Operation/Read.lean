/-
**Reading.**

Reads take no lock, unless the options ask for it.  When reads are pinned, the first read of a node
puts a copy of it into the workspace, or the mark that there is none, and later reads find that.

Main definitions:

* `Base.pin` — pinning what a read has found;
* `Base.prepareRead` — where a path leads, for a read;
* `Base.get`, `Base.getData`, `Base.getKeys`, `Base.getChildNames`, `Base.nodeExists` — the reads.
-/

import TransactionalTree.Operation.Locking

set_option relaxedAutoImplicit false
set_option autoImplicit false

namespace TransactionalTree

namespace Base

/-- Pin what a read of `p` has found. -/
def pin (b : Base) (c : Context) (p : Path) : Location → Context × Location
  | .committed n => (c.setEntry p (b.copy p n), .staged (b.copy p n))
  | .missing => (c.setEntry p .absent, .hidden)
  | .staged e => (c, .staged e)
  | .hidden => (c, .hidden)

/-- Find out where `p` leads, and pin it if reads are pinned. -/
def look (b : Base) (w : Work) (p : Path) : Work × Location :=
  let l := (b.view w.context).locate p
  if b.isRepeatable then
    let (c, l) := b.pin w.context p l
    (w.withContext c, l)
  else (w, l)

/-- **Where `p` leads, for a read.**  With the option for it, the node is locked and gets an entry
first; when the lock is not free and the operation shall do nothing, the node is not there. -/
def prepareRead (b : Base) (w : Work) (p : Path) : Work × Except TreeError Location :=
  if w.context.options.forceWriteLock then
    match w.lockAll [] [p] with
    | (w, .refused e) => (w, .error e)
    | (w, .declined) => (w, .ok .hidden)
    | (w, .granted _) =>
        let (w, l) := b.look (w.withContext (b.materialize w.context p).1) p
        (w, .ok l)
  else
    let (w, l) := b.look w p
    (w, .ok l)

/-- A read that answers from where the path leads, for the unit of work as it is then. -/
def reading {α : Type} (b : Base) (w : Work) (p : Path) (answer : View → Location → α) :
    Work × Except TreeError α :=
  match b.prepareRead w p with
  | (w, .error e) => (w, .error e)
  | (w, .ok l) => (w, .ok (answer (b.view w.context) l))

/-- The value under a key of the node at `p`, if node and key are there. -/
def get (b : Base) (w : Work) (p : Path) (key : String) : Work × Except TreeError (Option Value) :=
  b.reading w p fun _ l => (View.dataAt l).bind (·.get? key)

/-- The data of the node at `p`, if it is there. -/
def getData (b : Base) (w : Work) (p : Path) : Work × Except TreeError (Option Data) :=
  b.reading w p fun _ l => View.dataAt l

/-- The keys of the node at `p`, if it is there. -/
def getKeys (b : Base) (w : Work) (p : Path) : Work × Except TreeError (Option NameSet) :=
  b.reading w p fun _ l => (View.dataAt l).map (·.keySet)

/-- The names of the children of the node at `p`, if it is there. -/
def getChildNames (b : Base) (w : Work) (p : Path) : Work × Except TreeError (Option NameSet) :=
  b.reading w p fun v l => v.childNamesAt p l

/-- Whether there is a node at `p`. -/
def nodeExists (b : Base) (w : Work) (p : Path) : Work × Except TreeError Bool :=
  b.reading w p fun _ l => l.isPresent

end Base

end TransactionalTree
