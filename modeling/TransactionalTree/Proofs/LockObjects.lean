/-
**The lock objects, the table of held locks, and a ledger of owners.**

Locks are kept in a container of lock objects.  Without striping it has an object for each path
that is locked: the object is made when the lock of the path is asked for, and dropped when it is
free again.  With striping there is a fixed number of objects, and each path uses that of its
stripe.  The table of held locks (`LockTable`) is the container without its free objects.  Both are
a *ledger* that says of each path or stripe who holds it and how often, and that is all they can be
asked: they answer every sequence of requests as the ledger does, they show what it says, and a
container has the objects that it calls for.

Main definitions:

* `LockObject` — a lock object: who has it, and how often it was taken;
* `LockContainer` — **the lock objects**, one for each path or a fixed number of them;
* `LockLedger` — who holds what, and how often;
* `LockCall`, `serve` — requests to take and release, and the answers to a sequence of them;
* `LockTable.ledger` — the ledger that a table of held locks amounts to;
* `LockContainer.Represents` — **the container is the table, with an object for each lock**.

Main results:

* `LockTable.call_ledger` — a table answers a request as its ledger does, and changes as it does;
* `LockContainer.Represents.call` — a container answers as the table that it represents;
* `LockContainer.Represents.unchanged` — a request that fails changes nothing in the container;
* `containers_refine_ledger` — **containers and tables are ledgers**, for all sequences of requests.
-/

import TransactionalTree.Proofs.Holding
import Mathlib.Data.List.Nodup

set_option relaxedAutoImplicit false
set_option autoImplicit false

namespace TransactionalTree

/-! ### Lock objects -/

/-- A lock object. -/
structure LockObject where
  /-- Who holds the lock. -/
  owner : Option Owner := none
  /-- How often the lock has to be released until it is free. -/
  holds : Nat := 0
deriving DecidableEq, Repr, Inhabited

namespace LockObject

/-- Take the lock for `o`; says whether that was possible.  When someone else holds the lock, the
time to wait for it runs out. -/
def tryLock (l : LockObject) (o : Owner) : Bool × LockObject :=
  match l.owner with
  | none => (true, ⟨some o, 1⟩)
  | some current => if current = o then (true, { l with holds := l.holds + 1 }) else (false, l)

/-- Release the lock once for `o`; says how often it has to be released still.  Nothing if `o` does
not hold the lock. -/
def unlock (l : LockObject) (o : Owner) : Option (Nat × LockObject) :=
  if l.owner = some o ∧ 0 < l.holds then
    match l.holds - 1 with
    | 0 => some (0, ⟨none, 0⟩)
    | n + 1 => some (n + 1, { l with holds := n + 1 })
  else none

/-- Whether someone holds the lock. -/
def isLocked (l : LockObject) : Bool := l.owner.isSome

/-- The object of a lock. -/
def ofLock (l : Lock) : LockObject := ⟨l.owner?, l.count⟩

variable {l : Lock} {o : Owner}

theorem isLocked_ofLock : (ofLock l).isLocked = l.isHeld := by
  cases l <;> rfl

/-- An object is taken exactly as its lock. -/
theorem tryLock_ofLock (l : Lock) (o : Owner) : (ofLock l).tryLock o =
    match l.take? o with
    | some h => (true, ofLock (some h))
    | none => (false, ofLock l) := by
  cases l with
  | none => rfl
  | some h =>
      have howner : (ofLock (some h)).owner = some h.owner := rfl
      simp only [tryLock, howner, Lock.take?]
      split <;> rfl

/-- An object is released exactly as its lock. -/
theorem unlock_ofLock (l : Lock) (o : Owner) :
    (ofLock l).unlock o = (l.release? o).map fun l' => (Lock.count l', ofLock l') := by
  cases l with
  | none => simp [unlock, ofLock, Lock.owner?, Lock.release?]
  | some h =>
      obtain ⟨owner, again⟩ := h
      by_cases ho : owner = o
      · subst ho
        cases again <;> simp [unlock, ofLock, Lock.owner?, Lock.count, Hold.count, Lock.release?]
      · simp [unlock, ofLock, Lock.owner?, Lock.release?, ho]

end LockObject

/-! ### Containers -/

/-- A request for the lock of a path. -/
inductive LockCall where
  /-- Take the lock of `p` for `o`. -/
  | acquire (p : Path) (o : Owner)
  /-- Release the lock of `p` once for `o`. -/
  | release (p : Path) (o : Owner)
deriving DecidableEq, Repr

/-- The answers to a sequence of requests, and what is there afterwards. -/
def serve {σ : Type} (call : σ → LockCall → Bool × σ) (s : σ) : List LockCall → List Bool × σ
  | [] => ([], s)
  | x :: xs =>
      let (answer, s) := call s x
      let (answers, s) := serve call s xs
      (answer :: answers, s)

/-- What holds of two things and is kept by each request that they answer alike holds after every
sequence of requests, which they answer alike. -/
theorem serve_congr {σ τ : Type} (call : σ → LockCall → Bool × σ) (call' : τ → LockCall → Bool × τ)
    {R : σ → τ → Prop}
    (hcall : ∀ {s t}, R s t → ∀ x,
      (call s x).1 = (call' t x).1 ∧ R (call s x).2 (call' t x).2)
    {s : σ} {t : τ} (h : R s t) (xs : List LockCall) :
    (serve call s xs).1 = (serve call' t xs).1 ∧ R (serve call s xs).2 (serve call' t xs).2 := by
  induction xs generalizing s t with
  | nil => exact ⟨rfl, h⟩
  | cons x xs ih =>
      obtain ⟨hanswer, hnext⟩ := hcall h x
      obtain ⟨hanswers, hlast⟩ := ih hnext
      exact ⟨congrArg₂ List.cons hanswer hanswers, hlast⟩

/-- The lock objects of a tree. -/
inductive LockContainer where
  /-- An object for each path that has one. -/
  | perPath (locks : SortedMap Path LockObject)
  /-- An object for each stripe, and the hash by which paths fall to them. -/
  | striped (hash : Path → UInt64) (stripes : List LockObject)

namespace LockContainer

/-- The container before the first request: without objects, or with a free one for each stripe, of
which there is at least one. -/
def ofStriping : Option Striping → LockContainer
  | none => perPath .empty
  | some s => striped s.hash (List.replicate (max s.count 1) {})

/-- The place of the object that the path shares. -/
def stripeOf (hash : Path → UInt64) (stripes : List LockObject) (p : Path) : Nat :=
  Striping.index ⟨stripes.length, hash⟩ p

/-- The object that the path has or shares, if there is one. -/
def current? (c : LockContainer) (p : Path) : Option LockObject :=
  match c with
  | perPath locks => locks.get? p
  | striped hash stripes => stripes[stripeOf hash stripes p]?

/-- Take the lock of `p` for `o`; says whether that was possible.  A path that has no object gets
one first. -/
def acquire (c : LockContainer) (p : Path) (o : Owner) : Bool × LockContainer :=
  let (answer, l) := ((c.current? p).getD {}).tryLock o
  match c with
  | perPath locks => (answer, perPath (locks.insert p l))
  | striped hash stripes => (answer, striped hash (stripes.set (stripeOf hash stripes p) l))

/-- Release the lock of `p` once for `o`; says whether that was possible.  The object of a path is
dropped when it is free. -/
def release (c : LockContainer) (p : Path) (o : Owner) : Bool × LockContainer :=
  match (c.current? p).bind fun l => l.unlock o with
  | none => (false, c)
  | some (left, l) =>
      match c with
      | perPath locks =>
          if left = 0 ∧ l.isLocked = false then (true, perPath ((locks.insert p l).erase p))
          else (true, perPath (locks.insert p l))
      | striped hash stripes => (true, striped hash (stripes.set (stripeOf hash stripes p) l))

/-- Which lock a path has. -/
def keyOf (c : LockContainer) (p : Path) : LockKey :=
  match c with
  | perPath _ => .path p
  | striped hash stripes => .stripe (stripeOf hash stripes p)

/-- The container in which the lock of `p` is `l`. -/
def put (c : LockContainer) (p : Path) (l : Lock) : LockContainer :=
  match c, l with
  | perPath locks, none => perPath (locks.erase p)
  | perPath locks, some h => perPath (locks.insert p (.ofLock (some h)))
  | striped hash stripes, l => striped hash (stripes.set (stripeOf hash stripes p) (.ofLock l))

/-- Answer a request. -/
def call (c : LockContainer) : LockCall → Bool × LockContainer
  | .acquire p o => c.acquire p o
  | .release p o => c.release p o

/-- Whether the lock of `p` is held. -/
def isLocked (c : LockContainer) (p : Path) : Bool := (c.current? p).any LockObject.isLocked

/-- Who holds the lock of `p`. -/
def ownerOf (c : LockContainer) (p : Path) : Option Owner := (c.current? p).bind LockObject.owner

/-- Whether `o` holds the lock of `p`. -/
def ownsLock (c : LockContainer) (p : Path) (o : Owner) : Bool := c.ownerOf p = some o

/-- The objects. -/
def objects : LockContainer → List LockObject
  | perPath locks => locks.values
  | striped _ stripes => stripes

/-- How many locks are held. -/
def numHeld (c : LockContainer) : Nat := c.objects.countP LockObject.isLocked

/-- How many objects there are. -/
def size (c : LockContainer) : Nat := c.objects.length

end LockContainer

/-! ### Ledgers -/

/-- The lock that a path has: its own, or that of its stripe. -/
def LockKey.ofPath (striping : Option Striping) (p : Path) : LockKey :=
  match striping with
  | none => .path p
  | some s => .stripe (Striping.index ⟨max s.count 1, s.hash⟩ p)

/-- Who holds which lock, and how often. -/
@[ext]
structure LockLedger where
  /-- Who holds the lock. -/
  owner : LockKey → Option Owner
  /-- How often the lock was taken and not released. -/
  count : LockKey → Nat

namespace LockLedger

/-- Nobody holds a lock. -/
def empty : LockLedger := ⟨fun _ => none, fun _ => 0⟩

/-- **A lock is taken** exactly if it is free or the same owner has it, and then it is held once
more.  Otherwise nothing changes. -/
def acquire (m : LockLedger) (k : LockKey) (o : Owner) : Bool × LockLedger :=
  if m.owner k = none ∨ m.owner k = some o then
    (true, ⟨Function.update m.owner k (some o), Function.update m.count k (m.count k + 1)⟩)
  else (false, m)

/-- **A lock is released** exactly if `o` holds it, and then it is held once less; when it is not
held any more, it is free.  Otherwise nothing changes. -/
def release (m : LockLedger) (k : LockKey) (o : Owner) : Bool × LockLedger :=
  if m.owner k = some o then
    (true, ⟨if m.count k = 1 then Function.update m.owner k none else m.owner,
      Function.update m.count k (m.count k - 1)⟩)
  else (false, m)

/-- The ledger in which the entry of one lock is that of `l`. -/
def set (m : LockLedger) (k : LockKey) (l : Lock) : LockLedger :=
  ⟨Function.update m.owner k l.owner?, Function.update m.count k l.count⟩

/-- The entry of `k` is that of the lock `l`. -/
def Says (m : LockLedger) (k : LockKey) (l : Lock) : Prop :=
  m.owner k = l.owner? ∧ m.count k = l.count

variable {m : LockLedger} {k : LockKey} {l : Lock}

/-- The ledger lets a lock be taken exactly if the lock does. -/
theorem Says.acquire (h : m.Says k l) (o : Owner) : m.acquire k o =
    match l.take? o with
    | some h => (true, m.set k (some h))
    | none => (false, m) := by
  obtain ⟨howner, hcount⟩ := h
  rw [LockLedger.acquire, howner, hcount]
  cases l with
  | none => rfl
  | some h =>
      by_cases ho : h.owner = o
      · subst ho
        simp [Lock.take?, LockLedger.set, Lock.owner?, Lock.count, Hold.count]
      · simp [Lock.take?, Lock.owner?, ho]

/-- The ledger lets a lock be released exactly if the lock does. -/
theorem Says.release (h : m.Says k l) (o : Owner) : m.release k o =
    match l.release? o with
    | some l' => (true, m.set k l')
    | none => (false, m) := by
  obtain ⟨howner, hcount⟩ := h
  rw [LockLedger.release, hcount]
  cases l with
  | none => simp [howner, Lock.owner?, Lock.release?]
  | some h =>
      obtain ⟨owner, again⟩ := h
      by_cases ho : owner = o
      · subst ho
        cases again with
        -- held once: free afterwards
        | zero => simp [howner, LockLedger.set, Lock.owner?, Lock.count, Hold.count, Lock.release?]
        -- held more often: the owner stays
        | succ n =>
            have hsame : Function.update m.owner k (some owner) = m.owner :=
              Function.update_eq_self_iff.2 howner.symm
            simp [howner, LockLedger.set, Lock.owner?, Lock.count, Hold.count, Lock.release?, hsame]
      · simp [howner, Lock.owner?, ho, Lock.release?]

/-- Answer a request. -/
def call (key : Path → LockKey) (m : LockLedger) : LockCall → Bool × LockLedger
  | .acquire p o => m.acquire (key p) o
  | .release p o => m.release (key p) o

/-- What is shown of the lock of a path is what the ledger says of it. -/
structure ShownBy (m : LockLedger) (key : Path → LockKey) (isLocked : Path → Bool)
    (ownerOf : Path → Option Owner) (owns : Path → Owner → Bool) : Prop where
  /-- Whether it is held. -/
  isLocked : ∀ p, isLocked p = (m.owner (key p)).isSome
  /-- Who holds it. -/
  ownerOf : ∀ p, ownerOf p = m.owner (key p)
  /-- Whether a given owner holds it. -/
  owns : ∀ p o, owns p o = true ↔ m.owner (key p) = some o

end LockLedger

/-! ### The table is a ledger -/

namespace LockTable

variable {t : LockTable}

/-- Answer a request. -/
def call (t : LockTable) : LockCall → Bool × LockTable
  | .acquire p o =>
      match t.acquire? p o with
      | some t' => (true, t')
      | none => (false, t)
  | .release p o =>
      match t.release? p o with
      | some t' => (true, t')
      | none => (false, t)

/-- Who holds which lock, and how often. -/
def ledger (t : LockTable) : LockLedger where
  owner k := Lock.owner? (t.holds.get? k)
  count k := Lock.count (t.holds.get? k)

theorem ledger_states (t : LockTable) (p : Path) : t.ledger.Says (t.keyOf p) (t.lockOf p) :=
  ⟨rfl, rfl⟩

/-- The table in which one lock is `l`. -/
def put (t : LockTable) (k : LockKey) (l : Lock) : LockTable :=
  match l with
  | none => { t with holds := t.holds.erase k }
  | some h => { t with holds := t.holds.insert k h }

theorem get?_put (t : LockTable) (j k : LockKey) (l : Lock) :
    (t.put k l).holds.get? j = if j = k then l else t.holds.get? j := by
  cases l with
  | none => exact SortedMap.get?_erase
  | some h => exact SortedMap.get?_insert

theorem striping_put (t : LockTable) (k : LockKey) (l : Lock) :
    (t.put k l).striping = t.striping := by
  cases l <;> rfl

theorem call_acquire (t : LockTable) (p : Path) (o : Owner) : t.call (.acquire p o) =
    match (t.lockOf p).take? o with
    | some h => (true, t.put (t.keyOf p) (some h))
    | none => (false, t) := by
  rw [call, acquire?]
  cases (t.lockOf p).take? o <;> rfl

theorem call_release (t : LockTable) (p : Path) (o : Owner) : t.call (.release p o) =
    match (t.lockOf p).release? o with
    | some l => (true, t.put (t.keyOf p) l)
    | none => (false, t) := by
  rw [call, release?]
  cases (t.lockOf p).release? o with
  | none => rfl
  | some l => cases l <;> rfl

/-- When one lock changes, so does its entry in the ledger. -/
theorem ledger_put (t : LockTable) (k : LockKey) (l : Lock) :
    (t.put k l).ledger = t.ledger.set k l := by
  ext j : 2
  · simp only [ledger, LockLedger.set, get?_put, Function.update_apply]
    split <;> rfl
  · simp only [ledger, LockLedger.set, get?_put, Function.update_apply]
    split <;> rfl

/-- **A table answers a request as its ledger does, and changes as it does.** -/
theorem call_ledger (t : LockTable) (x : LockCall) :
    (t.call x).1 = (t.ledger.call t.keyOf x).1 ∧
      (t.call x).2.ledger = (t.ledger.call t.keyOf x).2 := by
  cases x with
  | acquire p o =>
      rw [call_acquire, LockLedger.call, (t.ledger_states p).acquire]
      cases (t.lockOf p).take? o with
      | none => exact ⟨rfl, rfl⟩
      | some h => exact ⟨rfl, ledger_put t _ _⟩
  | release p o =>
      rw [call_release, LockLedger.call, (t.ledger_states p).release]
      cases (t.lockOf p).release? o with
      | none => exact ⟨rfl, rfl⟩
      | some l => exact ⟨rfl, ledger_put t _ _⟩

/-- A request that fails changes nothing. -/
theorem unchanged (t : LockTable) {x : LockCall} (hx : (t.call x).1 = false) :
    (t.call x).2 = t := by
  cases x with
  | acquire p o =>
      rw [call_acquire] at hx ⊢
      cases ht : (t.lockOf p).take? o with
      | none => rfl
      | some h => simp [ht] at hx
  | release p o =>
      rw [call_release] at hx ⊢
      cases ht : (t.lockOf p).release? o with
      | none => rfl
      | some l => simp [ht] at hx

/-- Requests do not change which paths share a lock. -/
theorem striping_call (t : LockTable) (x : LockCall) : (t.call x).2.striping = t.striping := by
  cases x with
  | acquire p o =>
      rw [call_acquire]
      cases (t.lockOf p).take? o with
      | none => rfl
      | some h => exact striping_put t _ _
  | release p o =>
      rw [call_release]
      cases (t.lockOf p).release? o with
      | none => rfl
      | some l => exact striping_put t _ _

/-- The keys of the table are the locks that the ledger says are held. -/
theorem mem_keys_holds {k : LockKey} : k ∈ t.holds.keys ↔ (t.ledger.owner k).isSome = true := by
  rw [SortedMap.mem_keys, ← Option.isSome_iff_exists]
  exact (Bool.eq_iff_iff.1 Option.isSome_map).symm

theorem held_eq (t : LockTable) : t.held = t.holds.keys.length := (List.length_map _).symm

theorem shownBy (t : LockTable) : t.ledger.ShownBy t.keyOf t.isLocked t.ownerOf t.owns where
  isLocked _ := (Option.isSome_map (f := Hold.owner)).symm
  ownerOf _ := rfl
  owns _ _ := decide_eq_true_iff

/-- A lock is held so often as the ledger says, and not at all exactly if it is free. -/
theorem ledger_owner_eq_none (t : LockTable) (k : LockKey) :
    t.ledger.owner k = none ↔ t.ledger.count k = 0 := by
  simp only [ledger]
  cases t.holds.get? k with
  | none => exact ⟨fun _ => rfl, fun _ => rfl⟩
  | some h => simp [Lock.owner?, Lock.count, Hold.count]

end LockTable

/-! ### The container is the table -/

namespace LockContainer

variable {c : LockContainer} {t : LockTable} {locks : SortedMap Path LockObject}
  {hash : Path → UInt64} {stripes : List LockObject}

/-- **The container is the table with an object for each lock**: without striping for the locks that
are held, with striping for all. -/
inductive Represents : LockContainer → LockTable → Prop
  /-- Each path whose lock is held has an object, and no other path has one. -/
  | perPath {locks : SortedMap Path LockObject} {t : LockTable} (hstriping : t.striping = none)
      (hobject : ∀ p, locks.get? p =
        (t.holds.get? (.path p)).map fun h => LockObject.ofLock (some h))
      (hheld : ∀ i, t.holds.get? (.stripe i) = none) : Represents (.perPath locks) t
  /-- Each stripe has an object. -/
  | striped {hash : Path → UInt64} {stripes : List LockObject} {t : LockTable}
      (hstriping : t.striping = some ⟨stripes.length, hash⟩)
      (hsome : 0 < stripes.length)
      (hobject : ∀ i < stripes.length, stripes[i]? =
        some (LockObject.ofLock (t.holds.get? (.stripe i))))
      (hheld : ∀ p, t.holds.get? (.path p) = none)
      (hstripes : ∀ i, stripes.length ≤ i → t.holds.get? (.stripe i) = none) :
      Represents (.striped hash stripes) t

namespace Represents

theorem ofStriping (striping : Option Striping) :
    (LockContainer.ofStriping striping).Represents (.empty striping) := by
  have hnone : ∀ k, (LockTable.empty striping).holds.get? k = none := fun _ => rfl
  cases striping with
  | none => exact .perPath rfl (fun _ => rfl) fun i => hnone _
  | some s =>
      have hlen : (List.replicate (max s.count 1) ({} : LockObject)).length = max s.count 1 :=
        List.length_replicate
      refine .striped ?_ ?_ (fun i hi => ?_) (fun p => hnone _) fun i _ => hnone _
      · rw [hlen]
        exact congrArg (fun n => some (Striping.mk n s.hash)) (Nat.max_comm 1 s.count)
      · rw [hlen]
        exact Nat.lt_of_lt_of_le Nat.one_pos (Nat.le_max_right s.count 1)
      · rw [List.getElem?_eq_getElem hi, List.getElem_replicate]
        rfl

/-- Both find the lock of a path under the same key. -/
theorem keyOf (h : c.Represents t) (p : Path) : t.keyOf p = c.keyOf p := by
  cases h with
  | perPath hstriping =>
      rw [LockTable.keyOf, LockTable.stripeOf, hstriping]
      rfl
  | striped hstriping =>
      rw [LockTable.keyOf, LockTable.stripeOf, hstriping]
      rfl

/-- The object of a path is that of its lock; a path without an object has a free lock. -/
theorem current (h : c.Represents t) (p : Path) :
    c.current? p = some (.ofLock (t.lockOf p)) ∨ (c.current? p = none ∧ t.lockOf p = none) := by
  rw [LockTable.lockOf, h.keyOf]
  cases h with
  | perPath hstriping hobject hheld =>
      rw [current?, LockContainer.keyOf, hobject]
      cases t.holds.get? (.path p) with
      | none => exact .inr ⟨rfl, rfl⟩
      | some h => exact .inl rfl
  | striped hstriping hsome hobject hheld hstripes =>
      exact .inl (hobject _ (Striping.index_lt hsome p))

/-- When one lock changes, so does its object. -/
theorem put (h : c.Represents t) (p : Path) (l : Lock) :
    (c.put p l).Represents (t.put (t.keyOf p) l) := by
  rw [h.keyOf]
  cases h with
  | @perPath locks t hstriping hobject hheld =>
      have hput : ∀ q, ((t.put (.path p) l).holds.get? (.path q)) =
          if q = p then l else t.holds.get? (.path q) := by
        intro q
        simp only [LockTable.get?_put, LockKey.path.injEq]
      have hother : ∀ i, (t.put (.path p) l).holds.get? (.stripe i) = none := by
        intro i
        rw [LockTable.get?_put, if_neg (by simp)]
        exact hheld i
      have hstriping' := (LockTable.striping_put t (.path p) l).trans hstriping
      cases l with
      | none =>
          refine .perPath hstriping' (fun q => ?_) hother
          rw [LockContainer.keyOf, SortedMap.get?_erase, hput, hobject]
          split <;> rfl
      | some h =>
          refine .perPath hstriping' (fun q => ?_) hother
          rw [LockContainer.keyOf, SortedMap.get?_insert, hput, hobject]
          split <;> rfl
  | @striped hash stripes t hstriping hsome hobject hheld hstripes =>
      have hindex : stripeOf hash stripes p < stripes.length := Striping.index_lt hsome p
      have hput : ∀ i, (t.put (.stripe (stripeOf hash stripes p)) l).holds.get? (.stripe i) =
          if i = stripeOf hash stripes p then l else t.holds.get? (.stripe i) := by
        intro i
        simp only [LockTable.get?_put, LockKey.stripe.injEq]
      refine .striped ?_ ?_ (fun i hi => ?_) (fun q => ?_) fun i hi => ?_
      · rw [LockContainer.keyOf, LockTable.striping_put, List.length_set]
        exact hstriping
      · rw [List.length_set]
        exact hsome
      · rw [List.length_set] at hi
        rw [LockContainer.keyOf, hput, List.getElem?_set]
        by_cases hip : i = stripeOf hash stripes p
        · rw [if_pos hip.symm, if_pos hindex, if_pos hip]
        · rw [if_neg (Ne.symm hip), if_neg hip]
          exact hobject i hi
      · rw [LockContainer.keyOf, LockTable.get?_put, if_neg (by simp)]
        exact hheld q
      · rw [List.length_set] at hi
        rw [LockContainer.keyOf, hput, if_neg (Nat.ne_of_gt (Nat.lt_of_lt_of_le hindex hi))]
        exact hstripes i hi

/-- A container takes a lock exactly as the table, and keeps its object. -/
theorem acquire (h : c.Represents t) (p : Path) (o : Owner) : c.acquire p o =
    match (t.lockOf p).take? o with
    | some h => (true, c.put p (some h))
    | none => (false, c) := by
  have hcurrent : (c.current? p).getD {} = .ofLock (t.lockOf p) := by
    rcases h.current p with hsome | ⟨hnone, hfree⟩
    · rw [hsome]
      rfl
    · rw [hnone, hfree]
      rfl
  rw [LockContainer.acquire, hcurrent, LockObject.tryLock_ofLock]
  cases ht : (t.lockOf p).take? o with
  | some h' => cases c <;> rfl
  -- refused: the lock is held, so that it has an object, which is stored again as it is
  | none =>
      have hsome : c.current? p = some (.ofLock (t.lockOf p)) := by
        rcases h.current p with hsome | ⟨-, hfree⟩
        · exact hsome
        · rw [hfree] at ht
          simp [Lock.take?] at ht
      cases c with
      | perPath locks =>
          exact congrArg (fun m => (false, LockContainer.perPath m))
            (SortedMap.insert_eq_self hsome)
      | striped hash stripes =>
          refine congrArg (fun l => (false, LockContainer.striped hash l)) ?_
          obtain ⟨hi, hsame⟩ := List.getElem?_eq_some_iff.1 hsome
          rw [← hsame, List.set_getElem_self]

/-- A container releases a lock exactly as the table, and drops the object of a path when it is
free. -/
theorem release (h : c.Represents t) (p : Path) (o : Owner) : c.release p o =
    match (t.lockOf p).release? o with
    | some l => (true, c.put p l)
    | none => (false, c) := by
  have hcurrent : ((c.current? p).bind fun l => l.unlock o) =
      (LockObject.ofLock (t.lockOf p)).unlock o := by
    rcases h.current p with hsome | ⟨hnone, hfree⟩
    · rw [hsome]
      rfl
    · rw [hnone, hfree]
      rfl
  rw [LockContainer.release, hcurrent, LockObject.unlock_ofLock]
  cases (t.lockOf p).release? o with
  | none => rfl
  | some l =>
      cases c with
      | striped hash stripes => rfl
      | perPath locks =>
          cases l with
          | none =>
              exact congrArg (fun m => (true, LockContainer.perPath m))
                (SortedMap.erase_insert_self locks p _)
          | some h => rfl

/-- **A container answers a request as the table that it represents**, and represents it still. -/
theorem call (h : c.Represents t) (x : LockCall) :
    (c.call x).1 = (t.call x).1 ∧ (c.call x).2.Represents (t.call x).2 := by
  cases x with
  | acquire p o =>
      rw [LockContainer.call, h.acquire, LockTable.call_acquire]
      cases (t.lockOf p).take? o with
      | none => exact ⟨rfl, h⟩
      | some h' => exact ⟨rfl, h.put p _⟩
  | release p o =>
      rw [LockContainer.call, h.release, LockTable.call_release]
      cases (t.lockOf p).release? o with
      | none => exact ⟨rfl, h⟩
      | some l => exact ⟨rfl, h.put p _⟩

/-- **A request that fails changes nothing.** -/
theorem unchanged (h : c.Represents t) {x : LockCall} (hx : (c.call x).1 = false) :
    (c.call x).2 = c := by
  cases x with
  | acquire p o =>
      rw [LockContainer.call, h.acquire] at hx ⊢
      cases ht : (t.lockOf p).take? o with
      | none => rfl
      | some h' => simp [ht] at hx
  | release p o =>
      rw [LockContainer.call, h.release] at hx ⊢
      cases ht : (t.lockOf p).release? o with
      | none => rfl
      | some l => simp [ht] at hx

/-- What a container shows of a path is what the ledger of the table says. -/
theorem shownBy (h : c.Represents t) :
    t.ledger.ShownBy t.keyOf c.isLocked c.ownerOf c.ownsLock := by
  have howner : ∀ p, c.ownerOf p = t.ledger.owner (t.keyOf p) := by
    intro p
    rcases h.current p with hsome | ⟨hnone, hfree⟩
    · rw [ownerOf, hsome]
      rfl
    · rw [ownerOf, hnone, (t.ledger_states p).1, hfree]
      rfl
  refine ⟨fun p => ?_, howner, fun p o => ?_⟩
  · rw [← howner, isLocked, ownerOf]
    cases c.current? p <;> rfl
  · rw [ownsLock, howner, decide_eq_true_iff]

/-- The objects of a container with striping, one for each stripe. -/
theorem stripes_eq (hobject : ∀ i < stripes.length, stripes[i]? =
    some (LockObject.ofLock (t.holds.get? (.stripe i)))) :
    stripes = (List.range stripes.length).map fun i => .ofLock (t.holds.get? (.stripe i)) := by
  refine List.ext_getElem (by simp) fun i hi _ => ?_
  rw [List.getElem_map, List.getElem_range]
  exact Option.some_inj.1 ((List.getElem?_eq_getElem hi).symm.trans (hobject i hi))

/-- The keys of the table are the paths that have an object. -/
theorem keys_perPath (h : (LockContainer.perPath locks).Represents t) :
    t.holds.keys.Perm (locks.keys.map .path) := by
  cases h with
  | perPath hstriping hobject hheld =>
      refine (List.perm_ext_iff_of_nodup (SortedMap.keys_nodup _)
        (List.Nodup.map (fun _ _ => LockKey.path.inj) (SortedMap.keys_nodup locks))).2 fun k => ?_
      rw [SortedMap.mem_keys, List.mem_map]
      cases k with
      | path p => simp [SortedMap.mem_keys, hobject]
      | stripe i => simp [hheld]

/-- The keys of the table are the stripes whose lock is held. -/
theorem keys_striped (h : (LockContainer.striped hash stripes).Represents t) :
    t.holds.keys.Perm (((List.range stripes.length).filter fun i =>
      (t.holds.get? (.stripe i)).isSome).map .stripe) := by
  cases h with
  | striped hstriping hsome hobject hheld hstripes =>
      refine (List.perm_ext_iff_of_nodup (SortedMap.keys_nodup _)
        (List.Nodup.map (fun _ _ => LockKey.stripe.inj) (List.nodup_range.filter _))).2 fun k => ?_
      rw [SortedMap.mem_keys, List.mem_map, ← Option.isSome_iff_exists]
      cases k with
      | path p => simp [hheld]
      | stripe i =>
          have hin : (t.holds.get? (.stripe i)).isSome = true → i < stripes.length := by
            intro hi
            by_contra hout
            rw [hstripes i (Nat.le_of_not_lt hout)] at hi
            exact Bool.false_ne_true hi
          simpa using hin

/-- No path has an object that is free. -/
theorem isLocked_of_mem (h : (LockContainer.perPath locks).Represents t) {l : LockObject}
    (hl : l ∈ locks.values) : l.isLocked = true := by
  cases h with
  | perPath hstriping hobject hheld =>
      obtain ⟨e, he, rfl⟩ := List.mem_map.1 hl
      have hget := SortedMap.get?_eq_some_iff.2 he
      rw [hobject] at hget
      obtain ⟨h, -, hl⟩ := Option.map_eq_some_iff.1 hget
      rw [← hl]
      rfl

/-- Of the objects of a container, as many are locked as the table has holds. -/
theorem numHeld (h : c.Represents t) : c.numHeld = t.held := by
  rw [t.held_eq]
  cases c with
  | perPath locks =>
      rw [LockContainer.numHeld, objects, List.countP_eq_length.2 fun _ => h.isLocked_of_mem,
        h.keys_perPath.length_eq, List.length_map, SortedMap.values, SortedMap.keys,
        List.length_map, List.length_map]
  | striped hash stripes =>
      have hkeys := h.keys_striped
      cases h with
      | striped hstriping hsome hobject hheld hstripes =>
          rw [LockContainer.numHeld, objects, stripes_eq hobject, List.countP_map, hkeys.length_eq,
            List.length_map, ← List.countP_eq_length_filter]
          refine List.countP_congr fun i _ => ?_
          rw [Function.comp_apply, LockObject.isLocked_ofLock]
          rfl

/-- A container has as many objects as the table has locks. -/
theorem size (h : c.Represents t) : c.size = t.size := by
  have hheld := h.numHeld
  cases c with
  | perPath locks =>
      have hall : (LockContainer.perPath locks).numHeld = (LockContainer.perPath locks).size :=
        List.countP_eq_length.2 fun _ => h.isLocked_of_mem
      cases h with
      | perPath hstriping =>
          rw [LockTable.size, hstriping]
          exact hall.symm.trans hheld
  | striped hash stripes =>
      cases h with
      | striped hstriping =>
          rw [LockTable.size, hstriping]
          rfl

/-- Without striping there is an object for exactly the locks that are held. -/
theorem exists_locks (h : c.Represents t) (hstriping : t.striping = none) :
    ∃ locks, c = .perPath locks ∧ ∀ p, locks.get? p =
      if (t.ledger.owner (.path p)).isSome then
        some ⟨t.ledger.owner (.path p), t.ledger.count (.path p)⟩
      else none := by
  cases h with
  | perPath _ hobject hheld =>
      refine ⟨_, rfl, fun p => ?_⟩
      have howner : t.ledger.owner (.path p) = Lock.owner? (t.holds.get? (.path p)) := rfl
      have hcount : t.ledger.count (.path p) = Lock.count (t.holds.get? (.path p)) := rfl
      rw [hobject, howner, hcount]
      cases t.holds.get? (.path p) <;> rfl
  | striped hstriping' =>
      rw [hstriping'] at hstriping
      simp at hstriping

/-- With striping there is an object for each stripe. -/
theorem exists_stripes {s : Striping} (h : c.Represents t) (hstriping : t.striping = some s) :
    ∃ stripes, c = .striped s.hash stripes ∧ stripes.length = s.count ∧
      ∀ i < s.count,
        stripes[i]? = some ⟨t.ledger.owner (.stripe i), t.ledger.count (.stripe i)⟩ := by
  cases h with
  | perPath hstriping' =>
      rw [hstriping'] at hstriping
      simp at hstriping
  | striped hstriping' hsome hobject hheld hstripes =>
      obtain rfl := Option.some_inj.1 (hstriping'.symm.trans hstriping)
      exact ⟨_, rfl, rfl, hobject⟩

end Represents

end LockContainer

/-! ### All sequences of requests -/

/-- **Containers and tables are ledgers.**  For every number of stripes and every hash by which
paths fall to them, or no stripes, and every sequence of requests to take and release locks, by any
owners and for any paths: the container of lock objects and the table of held locks give the answers
of the ledger.  A request that fails changes neither.  Both show of each path what the ledger says
of its lock, and they count as many held locks as the ledger has.  Without striping there is a lock
object for exactly the locks that are held; with striping there are always as many as there are
stripes, and at least one; and each says what the ledger says. -/
theorem containers_refine_ledger (striping : Option Striping) (calls : List LockCall) :
    let key := LockKey.ofPath striping
    let c := serve LockContainer.call (.ofStriping striping) calls
    let t := serve LockTable.call (.empty striping) calls
    let m := serve (LockLedger.call key) .empty calls
    -- the answers
    c.1 = m.1 ∧ t.1 = m.1 ∧
    (∀ x, (c.2.call x).1 = false → (c.2.call x).2 = c.2) ∧
    (∀ x, (t.2.call x).1 = false → (t.2.call x).2 = t.2) ∧
    -- what is shown
    m.2.ShownBy key c.2.isLocked c.2.ownerOf c.2.ownsLock ∧
    m.2.ShownBy key t.2.isLocked t.2.ownerOf t.2.owns ∧
    (∀ p, (t.2.lockOf p).count = m.2.count (key p)) ∧
    (∀ k, m.2.owner k = none ↔ m.2.count k = 0) ∧
    (∃ held : List LockKey, held.Nodup ∧ (∀ k, k ∈ held ↔ (m.2.owner k).isSome = true) ∧
      c.2.numHeld = held.length ∧ t.2.held = held.length ∧
      c.2.size = (striping.map fun s => max 1 s.count).getD held.length ∧
      t.2.size = (striping.map fun s => max 1 s.count).getD held.length) ∧
    -- the objects
    match striping with
    | none => ∃ locks, c.2 = .perPath locks ∧ ∀ p, locks.get? p =
        if (m.2.owner (.path p)).isSome then
          some ⟨m.2.owner (.path p), m.2.count (.path p)⟩
        else none
    | some s => ∃ stripes, c.2 = .striped s.hash stripes ∧ stripes.length = max s.count 1 ∧
        ∀ i < max s.count 1, stripes[i]? = some ⟨m.2.owner (.stripe i), m.2.count (.stripe i)⟩ := by
  intro key c t m
  have hkeys : ∀ {t' : LockTable}, t'.striping = striping.map .atLeastOne → t'.keyOf = key := by
    intro t' ht'
    funext p
    rw [LockTable.keyOf, LockTable.stripeOf, ht']
    cases striping with
    | none => rfl
    | some s =>
        exact congrArg (fun n => LockKey.stripe (Striping.index ⟨n, s.hash⟩ p))
          (Nat.max_comm 1 s.count)
  -- the container is the table, and the table is the ledger, after each request
  obtain ⟨hcontainer, hrep⟩ := serve_congr LockContainer.call LockTable.call
    LockContainer.Represents.call (LockContainer.Represents.ofStriping striping) calls
  obtain ⟨htable, hstriping, hledger⟩ := serve_congr LockTable.call (LockLedger.call key)
    (R := fun t' m' => t'.striping = striping.map .atLeastOne ∧ t'.ledger = m')
    (fun {t' m'} h x => by
      obtain ⟨hs, rfl⟩ := h
      obtain ⟨hanswer, hnext⟩ := t'.call_ledger x
      rw [hkeys hs] at hanswer hnext
      exact ⟨hanswer, (t'.striping_call x).trans hs, hnext⟩)
    (s := .empty striping) (t := .empty) ⟨rfl, rfl⟩ calls
  have hm : m.2 = t.2.ledger := hledger.symm
  have hkey : key = t.2.keyOf := (hkeys hstriping).symm
  have hsize : t.2.size = (striping.map fun s => max 1 s.count).getD t.2.holds.keys.length := by
    rw [LockTable.size, hstriping, Option.map_map, ← t.2.held_eq]
    rfl
  rw [hm, hkey]
  refine ⟨hcontainer.trans htable, htable, fun x => hrep.unchanged, fun x => ?_, hrep.shownBy,
    t.2.shownBy, fun p => ((t.2.ledger_states p).2).symm, t.2.ledger_owner_eq_none,
    ⟨t.2.holds.keys, SortedMap.keys_nodup _, fun k => LockTable.mem_keys_holds, ?_, t.2.held_eq,
      ?_, ?_⟩, ?_⟩
  · exact t.2.unchanged
  · exact hrep.numHeld.trans t.2.held_eq
  · exact hrep.size.trans hsize
  · exact hsize
  · cases striping with
    | none => exact hrep.exists_locks hstriping
    | some s =>
        obtain ⟨stripes, hc, hlen, hobject⟩ := hrep.exists_stripes hstriping
        rw [Striping.atLeastOne, Nat.max_comm] at hlen hobject
        exact ⟨stripes, hc, hlen, hobject⟩

/-- With one stripe, who has locked `/a` keeps others from `/b`, and may release it as `/b`. -/
example :
    let o : Owner := .transaction 1
    let o' : Owner := .transaction 2
    let c := serve LockContainer.call (.ofStriping (some ⟨1, Stripe.hash⟩))
      [.acquire ⟨["a"]⟩ o, .acquire ⟨["b"]⟩ o', .release ⟨["b"]⟩ o, .acquire ⟨["b"]⟩ o']
    c.1 = [true, false, true, true] ∧ c.2.objects = [⟨some o', 1⟩] := by
  decide +kernel

end TransactionalTree
