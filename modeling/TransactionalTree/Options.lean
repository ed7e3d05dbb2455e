/-
**Options of a call.**

Main definitions:

* `Options` — the settings that a call or a transaction overrides.
-/

import TransactionalTree.Version

set_option relaxedAutoImplicit false
set_option autoImplicit false

namespace TransactionalTree

/-- The settings that a call or a transaction overrides; by default none. -/
structure Options where
  /-- How long to wait for a lock, in milliseconds, instead of the configured time. -/
  timeout : Option Nat := none
  /-- The version to stamp on every written node, instead of the next one. -/
  version : Option Version := none
  /-- Reads lock the node and take a copy that can be written. -/
  forceWriteLock : Bool := false
  /-- A lock that is not free in time makes the operation do nothing instead of failing. -/
  failSilently : Bool := false
  /-- Changes are marked as not to be passed on. -/
  localOnly : Bool := false
  /-- Writes take no locks. -/
  skipLocking : Bool := false
deriving DecidableEq, Repr, Inhabited

end TransactionalTree
