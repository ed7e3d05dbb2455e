/-
**Reports of failures, owners, versions and settings.**

A report is a JSON document that shows something to the outside.  A path is shown by its text, and
what is missing by null.

Main definitions:

* `Path.report`, `Owner.report`, `Version.report` — paths, owners and versions;
* `PathError.report`, `TreeError.report` — failures.  A wording that is not ours is left out;
* `Config.report`, `Options.report` — settings.
-/

import TransactionalTree.Config.Basic
import TransactionalTree.Json
import TransactionalTree.Options

set_option relaxedAutoImplicit false
set_option autoImplicit false

namespace TransactionalTree

/-! ### Paths, owners and versions -/

/-- A path as its text. -/
def Path.report (p : Path) : Json := .string p.toText

/-- A version as its number. -/
def Version.report (v : Version) : Json := .count v.toNat

/-- A list of paths. -/
def Path.reportAll (ps : List Path) : Json := .list (ps.map report)

/-- A path with its names. -/
def Path.reportParts (p : Path) : Json :=
  .object [("elements", .texts p.names), ("display", p.report)]

/-- An owner by the number of the transaction or the name of the thread. -/
def Owner.report : Owner → Json
  | transaction id => .object [("tx", .count id)]
  | thread id => .object [("thread", .string id.name)]

/-! ### Failures -/

/-- The name of the kind of refusal. -/
def PathError.kind : PathError → String
  | emptyElement _ => "EmptyElement"
  | separatorInName _ => "SeparatorInElement"
  | emptyName => "EmptyName"

/-- Why a text or a name is refused. -/
def PathError.report (e : PathError) : Json :=
  .object [("error", .string e.kind), ("message", .string e.message)]

namespace TreeError

/-- Whether the wording of the failure comes from whoever reads or writes files. -/
def hasForeignWording : TreeError → Bool
  | io _ => true
  | config reason _ =>
      [ConfigFault.unreadable, ConfigFault.unwritable].any fun fault =>
        fault.message.toList.isPrefixOf (reason.toText ConfigFault.message).toList
  | _ => false

/-- A failure. -/
def report (e : TreeError) : Json :=
  .object <| [("error", .string e.kind), ("fqn", .optional Path.report e.path?),
      ("retryable", .bool e.isRetryable)] ++
    if e.hasForeignWording then [] else [("message", .string e.message)]

end TreeError

/-! ### Settings -/

/-- The settings of a tree. -/
def Config.report (c : Config) : Json :=
  .object [("isolation", .string c.isolation.toText), ("write_skew", .bool c.writeSkewCheck),
    ("write_skew_active", .bool c.writeSkewCheckActive), ("timeout", .count c.locking.timeout),
    ("striping", .bool c.locking.striped), ("stripes", .count c.locking.stripes),
    ("parent_lock", .bool c.locking.lockParent)]

/-- The options of a unit of work. -/
def Options.report (o : Options) : Json :=
  .object [("timeout", .optional .count o.timeout), ("version", .optional Version.report o.version),
    ("force", .bool o.forceWriteLock), ("silent", .bool o.failSilently),
    ("local", .bool o.localOnly), ("skip", .bool o.skipLocking)]

end TransactionalTree
