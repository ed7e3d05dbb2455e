/-
**The table of held locks.**

Every path has a lock: one of its own, or, when locks are striped, the lock of its stripe.  The
table keeps the locks that are held; all others are free.

Main definitions:

* `LockKey` — what a lock is for: one path or one stripe;
* `LockTable` — the held locks;
* `LockTable.lockOf` — **the lock of a path**;
* `LockTable.acquire?`, `LockTable.release?` — taking and releasing the lock of a path;
* `LockTable.held`, `LockTable.size`, `LockTable.report` — what the table shows.
-/

import TransactionalTree.Lock.Hold
import TransactionalTree.Lock.Stripe
import TransactionalTree.Path.Text

set_option relaxedAutoImplicit false
set_option autoImplicit false

namespace TransactionalTree

/-- What a lock is for. -/
inductive LockKey where
  /-- The one path. -/
  | path (p : Path)
  /-- All paths that fall into the stripe. -/
  | stripe (i : Nat)
deriving DecidableEq, Repr, Inhabited

namespace LockKey

/-- A key as a pair whose order is the order of keys: paths first, then stripes by number. -/
def rank : LockKey → Nat × Path
  | path p => (0, p)
  | stripe i => (i + 1, Path.root)

theorem rank_injective {a b : LockKey} (h : a.rank = b.rank) : a = b := by
  cases a <;> cases b <;> simp_all [rank]

/-- Keys are in the order of their paths or stripes. -/
instance : Ord LockKey :=
  ⟨fun a b => (compare a.rank.1 b.rank.1).then (compare a.rank.2 b.rank.2)⟩

theorem compare_eq (a b : LockKey) :
    compare a b = (compare a.rank.1 b.rank.1).then (compare a.rank.2 b.rank.2) := rfl

/-- The order of pairs: by the number, then by the path. -/
abbrev rankOrder : Nat × Path → Nat × Path → Ordering :=
  compareLex (compareOn Prod.fst) (compareOn Prod.snd)

instance : Std.TransOrd LockKey where
  eq_swap {a b} := (inferInstance : Std.OrientedCmp rankOrder).eq_swap (a := a.rank) (b := b.rank)
  isLE_trans h₁ h₂ := (inferInstance : Std.TransCmp rankOrder).isLE_trans h₁ h₂

instance : Std.LawfulEqOrd LockKey where
  compare_self {a} := by simp
  eq_of_compare {a b} h := by
    rw [compare_eq, Ordering.then_eq_eq] at h
    exact rank_injective (Prod.ext (Std.LawfulEqOrd.eq_of_compare h.1)
      (Std.LawfulEqOrd.eq_of_compare h.2))

end LockKey

/-- The locks that are held.  With striping paths share locks, else there is one for each path. -/
structure LockTable where
  /-- How locks are shared, when they are striped. -/
  striping : Option Striping
  /-- The locks that are held. -/
  holds : SortedMap LockKey Hold

namespace LockTable

/-- A table in which every lock is free.  At least one stripe is needed. -/
def empty (striping : Option Striping) : LockTable := ⟨striping.map .atLeastOne, .empty⟩

instance : Inhabited LockTable := ⟨empty none⟩

/-- The stripe of a path, when locks are striped. -/
def stripeOf (t : LockTable) (p : Path) : Option Nat := t.striping.map fun s => s.index p

/-- Which lock a path has. -/
def keyOf (t : LockTable) (p : Path) : LockKey :=
  match t.stripeOf p with
  | none => .path p
  | some i => .stripe i

/-- **The lock of a path.** -/
def lockOf (t : LockTable) (p : Path) : Lock := t.holds.get? (t.keyOf p)

/-! ### Taking and releasing -/

/-- The table after `o` has taken the lock of `p`; nothing if someone else holds it. -/
def acquire? (t : LockTable) (p : Path) (o : Owner) : Option LockTable :=
  ((t.lockOf p).take? o).map fun h => { t with holds := t.holds.insert (t.keyOf p) h }

/-- The table after `o` has released the lock of `p` once; nothing if `o` does not hold it. -/
def release? (t : LockTable) (p : Path) (o : Owner) : Option LockTable :=
  ((t.lockOf p).release? o).map fun l =>
    match l with
    | none => { t with holds := t.holds.erase (t.keyOf p) }
    | some h => { t with holds := t.holds.insert (t.keyOf p) h }

/-! ### What the table shows -/

/-- Whether the lock of `p` is held. -/
def isLocked (t : LockTable) (p : Path) : Bool := (t.lockOf p).isHeld

/-- Who holds the lock of `p`. -/
def ownerOf (t : LockTable) (p : Path) : Option Owner := (t.lockOf p).owner?

/-- Whether `o` holds the lock of `p`. -/
def owns (t : LockTable) (p : Path) (o : Owner) : Bool := (t.lockOf p).isHeldBy o

/-- How many locks are held. -/
def held (t : LockTable) : Nat := t.holds.size

/-- How many locks there are: all stripes, or the locks of the paths that are locked. -/
def size (t : LockTable) : Nat := (t.striping.map (·.count)).getD t.holds.size

/-- One line for a held lock. -/
def line (key : LockKey) (h : Hold) : String :=
  (match key with
    | .path p => p.toText
    | .stripe i => s!"stripe {i}") ++
    " locked by " ++ h.owner.toText ++ s!" (holds: {h.count})\n"

/-- A line for each held lock, by path or stripe. -/
def report (t : LockTable) : String :=
  String.join (t.holds.toList.map fun e => line e.1 e.2)

end LockTable

end TransactionalTree
