/-
**Configuration files.**

A configuration is kept in a TOML document with a table for the settings of the locks.  Settings
that are not given have their defaults, and keys without a meaning are passed over.  Documents are
read and written by a library.

Main definitions:

* `Config.ofToml?` — the settings of a document;
* `Config.parse` — the settings of a text;
* `Config.load` — the settings of a file, by its content;
* `Config.toToml?` — the document of settings;
* `Config.toText` — the text of settings;
* `Config.defaultText` — a text with the defaults and an explanation.
-/

import TransactionalTree.Config.Basic
import TransactionalTree.Toml.Basic

set_option relaxedAutoImplicit false
set_option autoImplicit false

namespace TransactionalTree

namespace Config

/-! ### Reading -/

/-- A setting that may be missing, with its default. -/
def setting {α : Type} (given : Option Toml) (fallback : α) (read : Toml → Option α) : Option α :=
  match given with
  | none => some fallback
  | some v => read v

/-- A truth value. -/
def readFlag : Toml → Option Bool
  | .boolean b => some b
  | _ => none

/-- A whole number that is not negative. -/
def readCount : Toml → Option Nat
  | .integer n => if 0 ≤ n then some n.toNatClampNeg else none
  | _ => none

/-- The name of an isolation level, exactly. -/
def readIsolation (L : Toml.Library) (v : Toml) : Option IsolationLevel :=
  (L.variant? v).bind IsolationLevel.ofName?

/-- The settings of the locks, where they are given by their names and places. -/
def readLockingFrom (given : String → Nat → Option Toml) : Option LockingConfig := do
  let timeout ← setting (given "lock_acquisition_timeout_ms" 0) 10000 readCount
  let striped ← setting (given "use_lock_striping" 1) false readFlag
  let stripes ← setting (given "concurrency_level" 2) 500 readCount
  let lockParent ← setting (given "lock_parent_for_child_insert_remove" 3) false readFlag
  return { timeout, striped, stripes, lockParent }

/-- The settings of the locks: a table of them, or a list of the first ones. -/
def readLocking : Toml → Option LockingConfig
  | .table entries => readLockingFrom fun key _ => Toml.lookup entries key
  | .array items => readLockingFrom fun _ place => items[place]?
  | _ => none

/-- The settings of a document; nothing if one of them has a value of the wrong kind. -/
def ofToml? (L : Toml.Library) (entries : Toml.Entries) : Option Config := do
  let isolation ← setting (Toml.lookup entries "isolation_level") .repeatableRead (readIsolation L)
  let writeSkewCheck ← setting (Toml.lookup entries "write_skew_check") false readFlag
  let locking ← setting (Toml.lookup entries "locking") {} readLocking
  return { isolation, writeSkewCheck, locking }

/-- **The settings of a text**, if they fit together. -/
def parse (L : Toml.Library) (text : String) : Except TreeError Config :=
  match (L.parse text).bind (ofToml? L) with
  | none => .error (.configFault .unreadable)
  | some c => c.validate

/-- The settings of a file with the given content, if it exists.  A fault names the file. -/
def load (L : Toml.Library) (file : String) (content : Option String) : Except TreeError Config :=
  match content with
  | none => .error (.io "No such file or directory")
  | some text =>
      match parse L text with
      | .error (.config reason _) => .error (.config reason (some file))
      | result => result

/-! ### Writing -/

/-- The largest number that can be written. -/
def largestWritable : Nat := 0x7fffffffffffffff

/-- A whole number, unless it is too large. -/
def writeCount? (n : Nat) : Option Toml :=
  if n ≤ largestWritable then some (.integer (.ofNat n)) else none

/-- **The document of settings.** -/
def toToml? (c : Config) : Option Toml.Entries := do
  let timeout ← writeCount? c.locking.timeout
  let stripes ← writeCount? c.locking.stripes
  return [("isolation_level", .string c.isolation.toText),
    ("write_skew_check", .boolean c.writeSkewCheck),
    ("locking", .table [
      ("lock_acquisition_timeout_ms", timeout),
      ("use_lock_striping", .boolean c.locking.striped),
      ("concurrency_level", stripes),
      ("lock_parent_for_child_insert_remove", .boolean c.locking.lockParent)])]

/-- **The text of settings.** -/
def toText (L : Toml.Library) (c : Config) : Except TreeError String :=
  match c.toToml?.bind L.print with
  | none => .error (.configFault .unwritable)
  | some text => .ok text

/-- A text with the defaults and an explanation of each setting. -/
def defaultText : String :=
  "# Tree cache configuration\n" ++
  "#\n" ++
  "# Isolation level: \"REPEATABLE_READ\" (default) or \"READ_COMMITTED\"\n" ++
  "isolation_level = \"REPEATABLE_READ\"\n" ++
  "\n" ++
  "# Reject commits of nodes whose committed version changed after they were\n" ++
  "# first read (REPEATABLE_READ only).\n" ++
  "write_skew_check = false\n" ++
  "\n" ++
  "[locking]\n" ++
  "# How long a write waits for a lock before failing (milliseconds)\n" ++
  "lock_acquisition_timeout_ms = 10000\n" ++
  "\n" ++
  "# Share a fixed pool of \x60concurrency_level\x60 locks between all nodes\n" ++
  "use_lock_striping = false\n" ++
  "concurrency_level = 500\n" ++
  "\n" ++
  "# Lock the parent node while one of its children is created or removed\n" ++
  "lock_parent_for_child_insert_remove = false\n"

/-- The content of a file that is given the default text if it does not exist. -/
def orDefault (content : Option String) : Option String := some (content.getD defaultText)

end Config

end TransactionalTree
