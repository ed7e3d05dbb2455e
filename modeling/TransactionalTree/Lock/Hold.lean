/-
**A lock and who holds it.**

A lock is free or held by one owner, who may take it again and has to release it once for each time
it was taken.  Since a step is never interrupted, a lock that someone else holds stays held for as
long as anyone may wait for it: taking it fails.

Main definitions:

* `Hold` — an owner and how often the lock was taken;
* `Lock` — a lock, which is free when there is no hold;
* `Lock.take?`, `Lock.release?` — taking and releasing, which fail when someone else holds the lock;
* `Lock.toRecord` — how a lock is written.
-/

import TransactionalTree.Owner

set_option relaxedAutoImplicit false
set_option autoImplicit false

namespace TransactionalTree

/-- An owner that holds a lock, and how often it has taken the lock beyond the first time. -/
structure Hold where
  /-- Who holds the lock. -/
  owner : Owner
  /-- How often the owner has taken the lock again. -/
  again : Nat
deriving DecidableEq, Repr, Inhabited

namespace Hold

/-- How often the lock has to be released until it is free. -/
def count (h : Hold) : Nat := h.again + 1

end Hold

/-- A lock: free, or held. -/
abbrev Lock := Option Hold

namespace Lock

/-- The lock after `o` has taken it; nothing if someone else holds it. -/
def take? (l : Lock) (o : Owner) : Option Hold :=
  match l with
  | none => some ⟨o, 0⟩
  | some h => if h.owner = o then some { h with again := h.again + 1 } else none

/-- The lock after `o` has released it once; nothing if `o` does not hold it. -/
def release? (l : Lock) (o : Owner) : Option Lock :=
  match l with
  | none => none
  | some h =>
      if h.owner = o then
        match h.again with
        | 0 => some none
        | n + 1 => some (some { h with again := n })
      else none

/-- Whether someone holds the lock. -/
def isHeld (l : Lock) : Bool := Option.isSome l

/-- Who holds the lock. -/
def owner? (l : Lock) : Option Owner := Option.map Hold.owner l

/-- How often the lock has to be released until it is free. -/
def count (l : Lock) : Nat := (Option.map Hold.count l).getD 0

/-- Whether `o` holds the lock. -/
def isHeldBy (l : Lock) (o : Owner) : Bool := l.owner? = some o

/-- The lock as a record. -/
def toRecord (l : Lock) : String :=
  "OwnableReentrantLock \x7b owner: " ++
    (match l.owner? with
      | none => "None"
      | some o => "Some(" ++ o.toRecord ++ ")") ++
    ", holds: " ++ toString l.count ++ " \x7d"

end Lock

end TransactionalTree
