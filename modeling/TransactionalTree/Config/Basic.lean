/-
**Configuration of a tree.**

Main definitions:

* `IsolationLevel` — what reads see of the commits of others, with `IsolationLevel.parse`;
* `LockingConfig`, `Config` — the settings, with their defaults;
* `Config.validate` — the settings fit together.
-/

import TransactionalTree.Text.Blank
import TransactionalTree.TreeError

set_option relaxedAutoImplicit false
set_option autoImplicit false

namespace TransactionalTree

/-! ### Isolation -/

/-- What the reads of a transaction see of the commits of others. -/
inductive IsolationLevel where
  /-- The latest committed node. -/
  | readCommitted
  /-- What the first read of the node saw. -/
  | repeatableRead
deriving DecidableEq, Repr, Inhabited

namespace IsolationLevel

/-- The name of a level. -/
def toText : IsolationLevel → String
  | readCommitted => "READ_COMMITTED"
  | repeatableRead => "REPEATABLE_READ"

/-- The level of a name.  A weaker and a stronger level have names too, which stand for the level
that is offered next to them. -/
def ofName? (name : String) : Option IsolationLevel :=
  if name = "READ_COMMITTED" ∨ name = "READ_UNCOMMITTED" then some readCommitted
  else if name = "REPEATABLE_READ" ∨ name = "SERIALIZABLE" then some repeatableRead
  else none

/-- The text with its ASCII letters in upper case. -/
def upperAscii (s : String) : String := String.ofList (s.toList.map Char.toUpper)

/-- The level of a name in any case and with blanks around it. -/
def parse (s : String) : Except TreeError IsolationLevel :=
  let name := upperAscii (Text.trim s)
  match ofName? name with
  | some level => .ok level
  | none => .error (.configFault (.unknownIsolation name))

end IsolationLevel

/-! ### Settings -/

/-- The settings of the locks. -/
structure LockingConfig where
  /-- How long a write waits for a lock, in milliseconds. -/
  timeout : Nat := 10000
  /-- Whether nodes share a fixed number of locks instead of having one each. -/
  striped : Bool := false
  /-- How many locks are shared, when they are. -/
  stripes : Nat := 500
  /-- Whether the parent is locked when a child is inserted or removed. -/
  lockParent : Bool := false
deriving DecidableEq, Repr, Inhabited

/-- The settings of a tree. -/
structure Config where
  /-- What reads see. -/
  isolation : IsolationLevel := .repeatableRead
  /-- Whether commits are refused when a node changed since it was first read. -/
  writeSkewCheck : Bool := false
  /-- The settings of the locks. -/
  locking : LockingConfig := {}
deriving DecidableEq, Repr, Inhabited

namespace Config

/-- Whether commits are checked for write skew: only reads that can be repeated can be stale. -/
def writeSkewCheckActive (c : Config) : Bool :=
  c.writeSkewCheck && c.isolation = .repeatableRead

/-- The settings, if they fit together: shared locks need at least one lock. -/
def validate (c : Config) : Except TreeError Config :=
  if c.locking.striped ∧ c.locking.stripes = 0 then .error (.configFault .noStripes) else .ok c

end Config

end TransactionalTree
