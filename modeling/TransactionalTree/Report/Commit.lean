/-
**Reports of commits.**

Main definitions:

* `Conflict.report`, `Conflict.reportAll` — what is in the way of a commit;
* `Delivery.report` — what a listener was told;
* `Store.report` — the committed tree and the locks.
-/

import TransactionalTree.Commit.Basic
import TransactionalTree.Report.Work

set_option relaxedAutoImplicit false
set_option autoImplicit false

namespace TransactionalTree

/-! ### Conflicts -/

namespace Conflict

/-- What a conflict is about. -/
def details : Conflict → List (String × Json)
  | writeSkew p read current =>
      [("type", .string "write_skew"), ("fqn", p.report), ("read", .optional Version.report read),
        ("current", .optional Version.report current)]
  | missingParent p parent =>
      [("type", .string "missing_parent"), ("fqn", p.report), ("parent", parent.report)]
  | missingNode p => [("type", .string "missing_node"), ("fqn", p.report)]

/-- A conflict with the failure that it leads to. -/
def report (x : Conflict) : Json := .object (("error", x.error.report) :: x.details)

/-- All conflicts of a commit. -/
def reportAll (xs : List Conflict) : Json :=
  .object [("count", .count xs.length), ("valid", .bool xs.isEmpty),
    ("conflicts", .list (xs.map report))]

end Conflict

/-! ### Events -/

/-- Where a change comes from. -/
def Origin.details (o : Origin) : List (String × Json) :=
  [("tx", .optional .count o.transaction), ("local", .bool o.localOnly)]

/-- A change of a node, with the data before and after it. -/
def Event.changeDetails (kind : String) (p : Path) (before after : Option Data) (o : Origin) :
    List (String × Json) :=
  [("e", .string kind), ("fqn", p.report), ("before", .optional Data.toPlain before),
    ("after", .optional Data.toPlain after)] ++ o.details

/-- A change. -/
def Event.details : Event → List (String × Json)
  | created p after o => changeDetails "created" p none (some after) o
  | modified p before after o => changeDetails "modified" p before (some after) o
  | removed p before o => changeDetails "removed" p before none o
  | moved source target o =>
      [("e", .string "moved"), ("from", source.report), ("dest", target.report)] ++ o.details

/-- A notice. -/
def Notice.details : Notice → List (String × Json)
  | change e => e.details
  | completed id committed =>
      [("e", .string "completed"), ("tx", .count id), ("committed", .bool committed)]

/-- What a listener was told. -/
def Delivery.report (d : Delivery) : Json :=
  .object (("to", .string d.listener) :: d.notice.details)

/-! ### Trees -/

/-- The valid nodes with their versions and data, and the locks. -/
def Store.report (s : Store) : Json :=
  .object [
    ("tree", .list (s.tree.validNodes.map fun e =>
      .list [e.1.report, e.2.version.report, Data.toPlain e.2.data])),
    ("locks", .string s.locks.table.report)]

end TransactionalTree
