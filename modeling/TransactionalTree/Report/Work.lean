/-
**Reports of the tree and of units of work.**

Main definitions:

* `CommittedTree.reportNode`, `CommittedTree.reportBrief` — a node by reference;
* `Entry.report`, `Context.report` — the entries of a unit of work, and the whole of it;
* `LockCounts.report` — the counts of locks;
* `Answer.report` — the answer of an operation.
-/

import TransactionalTree.Lock.Manager
import TransactionalTree.Operation.Basic
import TransactionalTree.Report.Basic
import TransactionalTree.Value.Plain

set_option relaxedAutoImplicit false
set_option autoImplicit false

namespace TransactionalTree

/-! ### Nodes -/

namespace CommittedTree

/-- A node: where it is, whether it is valid, and its version. -/
def reportNode (t : CommittedTree) (r : NodeRef) : Json :=
  .object [("fqn", r.path.report), ("valid", .bool (t.isValid r)),
    ("last_version", (t.lastVersion r).report)]

/-- A node: where it is, and whether it is valid. -/
def reportBrief (t : CommittedTree) (r : NodeRef) : Json :=
  .object [("fqn", r.path.report), ("valid", .bool (t.isValid r))]

end CommittedTree

/-- What a node at this path looked like. -/
def NodeSnapshot.report (s : NodeSnapshot) (p : Path) : Json :=
  .object [("fqn", p.report), ("data", s.data.toPlain), ("version", s.version.report),
    ("children", .texts s.children.keys)]

/-! ### Units of work -/

namespace Entry

/-- A letter for each thing that is true of the entry. -/
def letters (e : Entry) : String :=
  String.join <| [(e.isPresent, "P"), (e.isDirty, "D"), (e.changed, "c"), (e.created, "n"),
    (e.removed, "r"), (e.replacesBase, "b"), (e.locked, "l")].map fun x => if x.1 then x.2 else ""

/-- The entry for `p`; the tree tells whether the node that was copied is still valid. -/
def report (t : CommittedTree) (p : Path) (e : Entry) : Json :=
  .object [("fqn", p.report), ("read", .optional Version.report e.readVersion),
    ("flags", .string e.letters), ("data", e.data.toPlain),
    ("original", .optional Data.toPlain e.observed), ("children", .texts e.children.keys),
    ("base_valid", .optional (fun r => .bool (t.isValid r)) e.base)]

end Entry

/-- A unit of work. -/
def Context.report (t : CommittedTree) (c : Context) : Json :=
  .object [("owner", c.owner.report), ("tx", .optional .count c.transaction),
    ("transactional", .bool c.transaction.isSome), ("options", c.options.report),
    ("num_locks", .count c.locked.size), ("locked", Path.reportAll c.locked.keys),
    ("len", .count c.workspace.size), ("changes", .bool c.hasChanges),
    ("entries", .list (c.workspace.toList.map fun e => Entry.report t e.1 e.2))]

/-- The counts of locks. -/
def LockCounts.report (n : LockCounts) : Json :=
  .list ([n.acquired, n.released, n.timedOut, n.illegalReleases, n.outstanding].map .count)

/-! ### Answers -/

/-- A value that may be missing.  What is missing is told apart from a null that is there. -/
def Value.reportStored (v : Option Value) : Json :=
  .optional (fun v => .object [("v", toPlain v)]) v

/-- The answer of an operation. -/
def Answer.report : Answer → Json
  | value v => Value.reportStored v
  | data d => .optional Data.toPlain d
  | names ns => .optional (fun ns => .texts (SortedMap.keys ns)) ns
  | flag b => .bool b
  | done => .string "ok"
  | place p => .optional Path.report p

end TransactionalTree
