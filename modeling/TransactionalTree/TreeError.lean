/-
**What can go wrong.**

Every failure is one constructor that carries its cause, and its wording is one function.

Main definitions:

* `Reason` — a cause from a fixed list, or the words of a caller;
* `Refusal` — why an operation is not allowed;
* `VersionConflict` — why a write with an explicit version is not accepted;
* `ConfigFault` — what is wrong with a configuration;
* `TreeError` — the failures, with `TreeError.kind`, `TreeError.message`, `TreeError.path?` and
  `TreeError.isRetryable`.
-/

import TransactionalTree.Owner
import TransactionalTree.Path.Text
import TransactionalTree.Status
import TransactionalTree.Version

set_option relaxedAutoImplicit false
set_option autoImplicit false

namespace TransactionalTree

/-- A cause from a fixed list, or the words of a caller. -/
inductive Reason (α : Type) where
  /-- A cause from the list. -/
  | because (cause : α)
  /-- The words of a caller. -/
  | words (text : String)
deriving DecidableEq, Repr, Inhabited

/-- The wording of a reason, given the wording of the listed causes. -/
def Reason.toText {α : Type} (wording : α → String) : Reason α → String
  | because cause => wording cause
  | words text => text

/-- Why an operation is not allowed. -/
inductive Refusal where
  /-- The root was to be installed. -/
  | createRoot
  /-- The root was to be removed from the committed tree. -/
  | removeRoot
  /-- The root was to be moved. -/
  | moveRoot
  /-- A node was to be moved to itself or below itself. -/
  | moveUnderItself (source parent : Path)
  /-- A move would replace a node above the moved one. -/
  | moveOntoAncestor (source target : Path)
  /-- The thread already has a transaction. -/
  | alreadyBound (transaction : TransactionId)
  /-- The transaction was begun with another cache. -/
  | foreign (transaction : TransactionId)
  /-- The thread has no transaction. -/
  | notBound
deriving DecidableEq, Repr, Inhabited

/-- The wording of a refusal. -/
def Refusal.message : Refusal → String
  | createRoot => "the root node cannot be created"
  | removeRoot => "the root node cannot be removed"
  | moveRoot => "the root node cannot be moved"
  | moveUnderItself source parent => s!"cannot move {source} under itself ({parent})"
  | moveOntoAncestor source target => s!"moving {source} to {target} would replace its own ancestor"
  | alreadyBound transaction => "thread already bound to " ++ transaction.toText
  | foreign transaction => transaction.toText ++ " belongs to another cache"
  | notBound => "no transaction bound to this thread"

/-- Why a write with an explicit version is not accepted. -/
inductive VersionConflict where
  /-- The node was removed at a version that the given one does not exceed. -/
  | notNewer (version removal : Version)
deriving DecidableEq, Repr, Inhabited

/-- The wording of a version conflict. -/
def VersionConflict.message : VersionConflict → String
  | notNewer version removal =>
      "version " ++ version.toText ++ " does not supersede removal at " ++ removal.toText

/-- What is wrong with a configuration. -/
inductive ConfigFault where
  /-- No isolation level has this name. -/
  | unknownIsolation (word : String)
  /-- Striping is on, without a stripe. -/
  | noStripes
  /-- The text is not a configuration. -/
  | unreadable
  /-- A number is too large to be written. -/
  | unwritable
deriving DecidableEq, Repr, Inhabited

/-- The wording of a configuration fault. -/
def ConfigFault.message : ConfigFault → String
  | unknownIsolation word =>
      "Invalid isolation level '" ++ word ++
        "'. Expected \"READ_COMMITTED\" or \"REPEATABLE_READ\"."
  | noStripes => "concurrency_level must be greater than 0 when use_lock_striping is enabled"
  | unreadable => "Failed to parse config"
  | unwritable => "Failed to serialize config"

/-- A failure. -/
inductive TreeError where
  /-- A lock was not free within the time that its owner was willing to wait. -/
  | timeout (path : Path) (owner : Owner) (milliseconds : Nat)
  /-- The operation refers to a node that is not there. -/
  | nodeMissing (path : Path)
  /-- The node handle refers to a node that has been removed or replaced. -/
  | nodeInvalid (path : Path)
  /-- A write carries a version that is not accepted. -/
  | versionConflict (path : Path) (reason : Reason VersionConflict)
  /-- The committed node is not the one that the transaction saw first. -/
  | writeSkew (path : Path) (expected found : Option Version)
  /-- A lock was released by someone who does not hold it. -/
  | illegalRelease (path : Path) (owner : Owner)
  /-- The transaction does not accept what was asked of it. -/
  | notActive (transaction : TransactionId) (state : Reason Status)
  /-- The operation is not allowed. -/
  | invalidOperation (reason : Reason Refusal)
  /-- A text or a name does not give a path. -/
  | invalidPath (fault : PathError)
  /-- The configuration is not usable; `file` is the file it was read from, if it was read. -/
  | config (reason : Reason ConfigFault) (file : Option String)
  /-- A file could not be read or written. -/
  | io (text : String)
deriving DecidableEq, Repr, Inhabited

namespace TreeError

/-- The refusal of an operation for a listed cause. -/
def refused (cause : Refusal) : TreeError := invalidOperation (.because cause)

/-- A fault of a configuration that was not read from a file. -/
def configFault (cause : ConfigFault) : TreeError := config (.because cause) none

/-- The name of the kind of failure. -/
def kind : TreeError → String
  | timeout .. => "timeout"
  | nodeMissing .. => "node_not_exists"
  | nodeInvalid .. => "node_not_valid"
  | versionConflict .. => "data_versioning"
  | writeSkew .. => "write_skew"
  | illegalRelease .. => "illegal_monitor_state"
  | notActive .. => "transaction_not_active"
  | invalidOperation .. => "invalid_operation"
  | invalidPath .. => "invalid_fqn"
  | config .. => "config"
  | io .. => "io"

/-- The wording of the failure. -/
def message : TreeError → String
  | timeout path owner milliseconds =>
      s!"Unable to acquire lock on {path} for " ++ owner.toText ++ s!" after {milliseconds} ms"
  | nodeMissing path => s!"Node {path} does not exist"
  | nodeInvalid path => s!"Node {path} is not valid; it has been removed, moved or evicted"
  | versionConflict path reason =>
      s!"Data versioning conflict on {path}: " ++ reason.toText VersionConflict.message
  | writeSkew path expected found =>
      s!"Write skew detected on {path}: read version " ++ Version.optionToRecord expected ++
        ", committed version " ++ Version.optionToRecord found
  | illegalRelease path owner =>
      s!"Illegal release of lock on {path} by " ++ owner.toText ++ ": not the current owner"
  | notActive transaction state =>
      "Transaction " ++ transaction.toText ++ " is not active: " ++ state.toText Status.toText
  | invalidOperation reason => "Invalid operation: " ++ reason.toText Refusal.message
  | invalidPath fault => "Invalid fqn: " ++ fault.message
  | config reason file =>
      "Configuration error: " ++ reason.toText ConfigFault.message ++
        (match file with
          | none => ""
          | some file => s!" ({file})")
  | io text => "I/O error: " ++ text

/-- The path that the failure is about, if it is about one. -/
def path? : TreeError → Option Path
  | timeout path .. => some path
  | nodeMissing path => some path
  | nodeInvalid path => some path
  | versionConflict path _ => some path
  | writeSkew path .. => some path
  | illegalRelease path _ => some path
  | _ => none

/-- Whether the whole transaction may succeed when it is rolled back and run again. -/
def isRetryable : TreeError → Bool
  | timeout .. => true
  | versionConflict .. => true
  | writeSkew .. => true
  | _ => false

/-- Whether a lock was not free in time. -/
def isTimeout : TreeError → Bool
  | timeout .. => true
  | _ => false

/-- Whether a commit was refused because of write skew. -/
def isWriteSkew : TreeError → Bool
  | writeSkew .. => true
  | _ => false

end TreeError

end TransactionalTree
