/-
**Reports of transactions.**

Main definitions:

* `TransactionCounts.report` — how many transactions of a cache there were;
* `Session.report` — a transaction.
-/

import TransactionalTree.Report.Commit
import TransactionalTree.Session.Basic

set_option relaxedAutoImplicit false
set_option autoImplicit false

namespace TransactionalTree

/-- The counts of the transactions of a cache. -/
def TransactionCounts.report (n : TransactionCounts) : Json :=
  .object [("active", .count n.active), ("started", .count n.started),
    ("committed", .count n.committed), ("rolled_back", .count n.rolledBack),
    ("write_skew_aborts", .count n.skewAborts), ("completed", .count n.completed),
    ("commit_rate", n.commitRate.toPlain), ("rollback_rate", n.rollbackRate.toPlain)]

/-- A transaction. -/
def Session.report (s : Session) (id : TransactionId) : Json :=
  let tx := s.transaction id
  .object [("tx", .count id), ("status", .string tx.status.toText),
    ("active", .bool (tx.status = .active)), ("completed", .bool tx.status.isCompleted),
    ("num_locks", .count tx.context.locked.size), ("options", tx.context.options.report)]

end TransactionalTree
