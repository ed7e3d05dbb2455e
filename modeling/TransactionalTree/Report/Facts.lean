/-
**What is true of a path, a value, a version or an owner.**

Main definitions:

* `Path.reportFacts`, `Path.reportRelation` — a path, and how two paths lie to each other;
* `Value.reportFacts` — a value;
* `Version.reportFacts` — a version beside another;
* `Owner.reportFacts` — a transaction as an owner, beside another and beside a thread.
-/

import TransactionalTree.Report.Basic
import TransactionalTree.Value.Plain

set_option relaxedAutoImplicit false
set_option autoImplicit false

namespace TransactionalTree

/-- The outcome of a comparison as a number: less, equal and greater are -1, 0 and 1. -/
def sign (o : Ordering) : Json := .whole (match o with
  | .lt => -1
  | .eq => 0
  | .gt => 1)

/-- What is true of a path; `index` picks one of its names. -/
def Path.reportFacts (p : Path) (index : Nat) : Json :=
  .object [("len", .count p.depth), ("is_root", .bool p.isRoot), ("is_empty", .bool p.isRoot),
    ("parent", .optional report p.parent?), ("last", .optional .string p.name?),
    ("element", .optional .string p.names[index]?), ("ancestors", reportAll p.ancestors),
    ("display", p.report)]

/-- How two paths lie to each other. -/
def Path.reportRelation (p q : Path) : Json :=
  .object [("eq", .bool (p = q)), ("cmp", sign (compare p q)), ("ancestor", .bool (p.isAbove q)),
    ("descendant", .bool (p.isBelow q)), ("descendant_or_equal", .bool (p.isAtOrBelow q)),
    ("direct_child", .bool (p.isChildOf q)), ("relative", (p.append q).report)]

/-- What is true of a value. -/
def Value.reportFacts (v : Value) : Json :=
  .object [("type", .string v.kind), ("null", .bool v.isNull), ("bool", .optional .bool v.bool?),
    ("int", .optional (fun i => .whole i.toInt) v.int?),
    ("float", .optional Double.toPlain v.float?),
    ("str", .optional .string v.string?),
    ("bytes", .optional (fun bs => .list (bs.map fun b => .count b.toNat)) v.bytes?),
    ("array", .optional (fun vs => .list (vs.map toPlain)) v.array?),
    ("same_as_itself", .bool (v.equal v))]

/-- What is true of a version beside another. -/
def Version.reportFacts (v w : Version) : Json :=
  .object [("newer", .bool (v.newerThan w)), ("cmp", sign (compare v w)), ("max", (max v w).report),
    ("display", .string v.toText), ("initial", .bool (v = initial)), ("default", initial.report)]

/-- What is true of a transaction as an owner, beside another one and beside a thread. -/
def Owner.reportFacts (id other : TransactionId) (thread : ThreadId) : Json :=
  let mine := transaction id
  let its := Owner.thread thread
  .object [("display", .string mine.toText), ("gtx_display", .string id.toText),
    ("id", .optional .count mine.transaction?), ("is_transaction", .bool mine.isTransaction),
    ("eq", .bool (mine = transaction other)), ("cmp", sign (compare id other)),
    ("eq_thread", .bool (mine = its)), ("thread_is_transaction", .bool its.isTransaction),
    ("thread_transaction", .optional .count its.transaction?)]

end TransactionalTree
