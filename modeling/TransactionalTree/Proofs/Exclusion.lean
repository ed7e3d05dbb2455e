/-
**Mutual exclusion by the lock manager.**

Units of work that have different owners ask the lock manager for locks and give them back.  It
notes which paths a unit of work has locked, while the lock itself only knows its owner and how
often it is held.  The two records agree as long as nobody gives back a path that it has not locked,
or as long as such a path has a lock of its own.  But when paths share a stripe, a unit of work can
give back a path that it has never locked: that takes away the hold of another path, which it has
still noted, and the next one who asks for that path gets it.

Main definitions:

* `LockRequest`, `LockStep` — what is asked of the lock manager, and by whom;
* `SharedTree.takeLock`, `SharedTree.runLocks` — runs of such requests;
* `SharedTree.isStray`, `SharedTree.strayless` — a path is given back that was not locked but shares
  its lock with one that was; whether a run is free of that;
* `SharedTree.Exclusive` — the invariant.

Main results:

* `SharedTree.Exclusive.takeLock` — each request keeps the invariant unless it is stray;
* `SharedTree.locks_exclude` — **mutual exclusion**, when each path has its own lock or no request
  is stray;
* `SharedTree.not_locks_exclude` — a stray request breaks it.
-/

import TransactionalTree.Proofs.Accounts

set_option relaxedAutoImplicit false
set_option autoImplicit false

namespace TransactionalTree

/-! ### Requests -/

/-- What a unit of work asks of the lock manager. -/
inductive LockRequest where
  /-- To lock a path. -/
  | acquire (p : Path)
  /-- To lock all the paths, or none. -/
  | acquireAll (ps : List Path)
  /-- To lock what inserting or removing the node needs. -/
  | acquireForChild (p : Path)
  /-- To give back a path, which may not be locked. -/
  | release (p : Path)
  /-- To give back everything. -/
  | releaseAll
deriving DecidableEq, Repr, Inhabited

/-- What a request does. -/
def LockRequest.apply (w : Work) : LockRequest → Work
  | acquire p => (w.acquire p).1
  | acquireAll ps => (w.acquireAll ps).1
  | acquireForChild p => (w.acquireForChild p).1
  | release p => (w.release p).1
  | releaseAll => w.releaseAll.1

/-- A step of a run of the lock manager. -/
inductive LockStep where
  /-- A unit of work begins under a name, for a thread or for a transaction. -/
  | start (name : String) (thread : ThreadId) (transaction : Option TransactionId)
  /-- A unit of work asks for something. -/
  | ask (name : String) (r : LockRequest)
deriving DecidableEq, Repr, Inhabited

/-- Without stripes each path has a lock of its own. -/
theorem LockTable.keyOf_of_unstriped {t : LockTable} (h : t.striping = none) (p : Path) :
    t.keyOf p = .path p := by
  rw [keyOf, stripeOf, h]
  rfl

namespace Work

variable {w : Work} {p : Path}

theorem traced_acquireAll (w : Work) (ps : List Path) : w.Traced (w.acquireAll ps).1 := by
  obtain ⟨hok, herr⟩ := (Holding.refl w).acquireFrom ps
  rw [acquireAll]
  cases hr : (w.acquireFrom [] ps).2 with
  | ok all => exact (hok all hr).1.traced
  | error e => exact (herr e hr).traced

/-- Giving back a path that is not locked fails and changes no lock, if its lock is not held
otherwise. -/
theorem release_unrecorded (hp : w.context.holds p = false)
    (hfree : w.locks.table.heldBy (w.locks.table.keyOf p) w.context.owner = 0) :
    w.release p = (⟨{ w.locks with counts :=
        { w.locks.counts with illegalReleases := w.locks.counts.illegalReleases + 1 } }, w.context⟩,
      .error (.illegalRelease p w.context.owner)) := by
  have hnone : w.locks.table.release? p w.context.owner = none :=
    LockTable.release?_eq_none_iff.2 hfree
  have hsame : w.context.forget p = w.context := by
    have hlocked : w.context.locked.erase p = w.context.locked := by
      refine SortedMap.ext_get? fun q => ?_
      rw [SortedMap.get?_erase]
      split
      · rename_i hq
        rw [hq, SortedMap.contains_eq_false.1 hp]
      · rfl
    rw [Context.forget, hlocked]
  simp only [release, LockManager.releaseFor, hnone, hsame]

/-- **What each request does**: it takes locks, and gives back locked paths; or it is to give back a
path that is not locked. -/
theorem traced_request (w : Work) (r : LockRequest) :
    w.Traced (r.apply w) ∨ ∃ p, r = .release p ∧ w.context.holds p = false := by
  cases r with
  | acquire p => exact .inl (Traced.refl.acquire p)
  | acquireAll ps => exact .inl (traced_acquireAll w ps)
  | acquireForChild p => exact .inl (traced_acquireAll w _)
  | release p =>
      cases hp : w.context.holds p with
      | true => exact .inl (Traced.refl.release hp)
      | false => exact .inr ⟨p, rfl, hp⟩
  | releaseAll => exact .inl (traced_releaseAll w)

/-- Whether locks are striped never changes. -/
theorem striping_request (w : Work) (r : LockRequest) :
    (r.apply w).locks.table.striping = w.locks.table.striping := by
  rcases traced_request w r with htr | ⟨p, rfl, -⟩
  · exact htr.balanced.striping
  · simp only [LockRequest.apply, release, LockManager.releaseFor]
    split
    · rename_i t ht
      exact (LockTable.heldBy_release? ht).1
    · rfl

end Work

namespace SharedTree

variable {s s' : SharedTree} {name other : String} {c c' : Context} {p : Path} {r : LockRequest}
variable {step : LockStep}

/-! ### Runs -/

/-- **Take a step.**  A request of a unit of work that there is not does nothing, and none begins
under a name that is in use or for an owner that another one has. -/
def takeLock (s : SharedTree) : LockStep → SharedTree
  | .start name thread transaction =>
      if s.contexts.contains name then s else s.take (.start name thread transaction)
  | .ask name r => (s.context? name).elim s fun c => (s.locking name c fun w => (r.apply w, ())).1

/-- Take the listed steps, one after the other. -/
def runLocks (s : SharedTree) (steps : List LockStep) : SharedTree := steps.foldl takeLock s

/-- Whether the step gives back a path that the unit of work has not locked, but that shares its
lock with one that it has. -/
def isStray (s : SharedTree) : LockStep → Bool
  | .ask name (.release p) => (s.context? name).any fun c =>
      !c.holds p && c.locked.keys.any fun q =>
        s.store.locks.table.keyOf q = s.store.locks.table.keyOf p
  | _ => false

/-- Whether no step of the run is stray. -/
def strayless (s : SharedTree) : List LockStep → Bool
  | [] => true
  | step :: steps => !s.isStray step && (s.takeLock step).strayless steps

/-! ### The invariant -/

/-- **The invariant**: units of work have different owners, and each lock is held once for each path
that is noted under it. -/
structure Exclusive (s : SharedTree) : Prop where
  /-- No two units of work have the same owner, and all hold what they have noted. -/
  settled : s.Settled
  /-- Each lock is held once for each noted path. -/
  booked : s.Booked

theorem exclusive_ofConfig (config : Config) (hash : Path → UInt64) :
    (ofConfig config hash).Exclusive :=
  ⟨settled_ofConfig config hash, booked_ofConfig config hash⟩

namespace Exclusive

/-- Who holds a lock has noted a path under it. -/
theorem exists_noted (h : s.Exclusive) (hc : s.context? name = some c) {key : LockKey}
    (hpos : 0 < s.store.locks.table.heldBy key c.owner) :
    ∃ q, c.holds q = true ∧ s.store.locks.table.keyOf q = key := by
  rw [h.booked.held] at hpos
  obtain ⟨⟨d, q⟩, hmem, hq⟩ := List.countP_pos_iff.1 hpos
  simp only [decide_eq_true_eq] at hq
  obtain ⟨⟨other, hd⟩, hnoted⟩ := mem_notes.1 hmem
  by_cases hname : other = name
  · subst hname
    obtain rfl := Option.some.inj (hd.symm.trans hc)
    exact ⟨q, hnoted, hq.2⟩
  · exact absurd hq.1 (h.settled.owners hc hd hname)

/-- A lock under which nothing is noted is not held. -/
theorem heldBy_eq_zero (h : s.Exclusive) (hc : s.context? name = some c)
    (hno : ∀ q, c.holds q = true →
      s.store.locks.table.keyOf q ≠ s.store.locks.table.keyOf p) :
    s.store.locks.table.heldBy (s.store.locks.table.keyOf p) c.owner = 0 := by
  refine Nat.eq_zero_of_not_pos fun hpos => ?_
  obtain ⟨q, hq, hkey⟩ := h.exists_noted hc hpos
  exact hno q hq hkey

/-- A unit of work takes and gives back locks, and notes it. -/
theorem set (h : s.Exclusive) (hc : s.context? name = some c)
    (hcs : s'.contexts = s.contexts.insert name c')
    (hbal : Work.Balanced ⟨s.store.locks, c⟩ ⟨s'.store.locks, c'⟩)
    (hcon : Work.Conserves ⟨s.store.locks, c⟩ ⟨s'.store.locks, c'⟩) : s'.Exclusive :=
  ⟨h.settled.setBalanced hc hcs hbal, h.booked.set hc hcs hbal hcon⟩

/-- **Each request keeps the invariant unless it is stray.** -/
theorem takeLock (h : s.Exclusive) (hstray : s.isStray step = false) :
    (s.takeLock step).Exclusive := by
  cases step with
  | start name thread transaction =>
      simp only [SharedTree.takeLock]
      split
      · exact h
      · rename_i hfree
        have hshared := h.booked.takeShared (.start name thread transaction)
        simp only [SharedTree.takeShared, if_neg hfree] at hshared
        refine ⟨h.settled.take _, ?_⟩
        simp only [SharedTree.take]
        split
        · exact h.booked
        · exact hshared
  | ask name r =>
      simp only [SharedTree.takeLock]
      cases hc : s.context? name with
      | none => exact h
      | some c =>
          rcases Work.traced_request ⟨s.store.locks, c⟩ r with htr | ⟨p, rfl, hp⟩
          · exact h.set hc rfl htr.balanced (htr.conserves (h.settled.accounted hc))
          -- what is not noted is not held, so nothing is given back
          · have hno : ∀ q ∈ c.locked.keys,
                s.store.locks.table.keyOf q ≠ s.store.locks.table.keyOf p := by
              simpa [isStray, hc, show c.holds p = false from hp] using hstray
            have hrelease := Work.release_unrecorded (w := ⟨s.store.locks, c⟩) hp
              (h.heldBy_eq_zero hc fun q hq => hno q (SortedSet.mem_keys.2 hq))
            have hcs : ((some c).elim s fun c => (s.locking name c fun w =>
                ((LockRequest.release p).apply w, ())).1).contexts = s.contexts.insert name c := by
              simp only [Option.elim_some, locking, LockRequest.apply, hrelease]
            refine h.set hc hcs ?_ ?_
            · simp only [Option.elim_some, locking, LockRequest.apply, hrelease]
              exact ⟨rfl, rfl, fun _ _ _ => rfl, id⟩
            · simp only [Option.elim_some, locking, LockRequest.apply, hrelease]
              exact ⟨fun _ => rfl, rfl⟩

/-- **The invariant holds at any time** of a run that is free of stray requests. -/
theorem runLocks (h : s.Exclusive) {steps : List LockStep} (hstray : s.strayless steps = true) :
    (s.runLocks steps).Exclusive := by
  induction steps generalizing s with
  | nil => exact h
  | cons step steps ih =>
      simp only [strayless, Bool.and_eq_true, Bool.not_eq_true'] at hstray
      exact ih (h.takeLock hstray.1) hstray.2

end Exclusive

/-! ### Paths with locks of their own -/

/-- Whether locks are striped never changes. -/
theorem striping_takeLock (s : SharedTree) (step : LockStep) :
    (s.takeLock step).store.locks.table.striping = s.store.locks.table.striping := by
  cases step with
  | start name thread transaction =>
      simp only [takeLock]
      split
      · rfl
      · simp only [take]
        split <;> rfl
  | ask name r =>
      simp only [takeLock]
      cases s.context? name with
      | none => rfl
      | some c => exact Work.striping_request ⟨s.store.locks, c⟩ r

theorem striping_runLocks (s : SharedTree) (steps : List LockStep) :
    (s.runLocks steps).store.locks.table.striping = s.store.locks.table.striping := by
  induction steps generalizing s with
  | nil => rfl
  | cons step steps ih => exact (ih _).trans (striping_takeLock s step)

/-- When each path has a lock of its own no request is stray. -/
theorem isStray_of_unstriped (h : s.store.locks.table.striping = none) (step : LockStep) :
    s.isStray step = false := by
  cases step with
  | start name thread transaction => rfl
  | ask name r =>
      cases r with
      | release p =>
          simp only [isStray, LockTable.keyOf_of_unstriped h]
          cases s.context? name with
          | none => rfl
          | some c =>
              simp only [Option.any_some, LockKey.path.injEq, Bool.and_eq_false_imp,
                Bool.not_eq_true']
              refine fun hp => List.any_eq_false.2 fun q hq heq => ?_
              obtain rfl := of_decide_eq_true heq
              rw [Context.holds, SortedSet.mem_keys.1 hq] at hp
              simp at hp
      | acquire _ => rfl
      | acquireAll _ => rfl
      | acquireForChild _ => rfl
      | releaseAll => rfl

/-- So then no run has stray requests. -/
theorem strayless_of_unstriped (h : s.store.locks.table.striping = none)
    (steps : List LockStep) : s.strayless steps = true := by
  induction steps generalizing s with
  | nil => rfl
  | cons step steps ih =>
      rw [strayless, isStray_of_unstriped h, ih ((striping_takeLock s step).trans h)]
      rfl

/-! ### Mutual exclusion -/

/-- **Mutual exclusion.**  Units of work with different owners ask for locks and give them back in
any order.  When each path has a lock of its own, or else no path is given back that was not locked
but shares its lock with one that was, then at any time:

* each path that a unit of work has noted is covered by a lock that its owner holds;
* no path is noted by two units of work;
* giving back a path that is not noted fails and changes no lock and no note, unless the path shares
  its stripe with one that is noted. -/
theorem locks_exclude (config : Config) (hash : Path → UInt64) (steps : List LockStep)
    (h : config.locking.striped = false ∨ (ofConfig config hash).strayless steps = true) :
    let s := (ofConfig config hash).runLocks steps
    let table := s.store.locks.table
    (∀ name c p, s.context? name = some c → c.holds p = true → table.owns p c.owner = true) ∧
    (∀ name other c c' p, s.context? name = some c → s.context? other = some c' →
      other ≠ name → c.holds p = true → c'.holds p = false) ∧
    ∀ name c p, s.context? name = some c → c.holds p = false →
      (config.locking.striped = true → ∀ q, c.holds q = true → table.keyOf q ≠ table.keyOf p) →
      let r := s.locking name c (·.release p)
      r.2 = .error (.illegalRelease p c.owner) ∧ r.1.store.locks.table = table ∧
        r.1.context? name = some c := by
  intro s table
  have hunstriped : config.locking.striped = false →
      (ofConfig config hash).store.locks.table.striping = none := fun hno => by
    simp [ofConfig, Store.ofConfig, LockManager.ofConfig, LockTable.empty, hno]
  have hs : s.Exclusive := (exclusive_ofConfig config hash).runLocks
    (h.elim (fun hno => strayless_of_unstriped (hunstriped hno) steps) id)
  refine ⟨fun name c p hc hp => ?_, fun name other c c' p hc hc' hne hp =>
    hs.settled.disjoint hc hc' hne hp, fun name c p hc hp hshared => ?_⟩
  · rw [LockTable.owns_iff]
    exact (hs.settled.accounted hc).heldBy_pos hp
  · have hno : ∀ q, c.holds q = true → table.keyOf q ≠ table.keyOf p := fun q hq heq => by
      cases hstriped : config.locking.striped with
      | true => exact hshared hstriped q hq heq
      | false =>
          have hown := (striping_runLocks _ steps).trans (hunstriped hstriped)
          rw [LockTable.keyOf_of_unstriped hown, LockTable.keyOf_of_unstriped hown] at heq
          rw [LockKey.path.inj heq, hp] at hq
          simp at hq
    have hrelease := Work.release_unrecorded (w := ⟨s.store.locks, c⟩) hp
      (hs.heldBy_eq_zero hc hno)
    simp only [locking, hrelease, true_and]
    exact ⟨rfl, SortedMap.get?_insert_self⟩

/-- All paths share one lock. -/
def oneStripe : Config := { locking := { timeout := 0, striped := true, stripes := 1 } }

/-- Two transactions: the first locks `/a` and `/b` and gives back `/b`, and the second one wants
`/b`. -/
def orderlySteps : List LockStep :=
  [.start "t" ⟨"main", 0⟩ (some (1 : Nat)), .start "s" ⟨"main", 0⟩ (some (2 : Nat)),
    .ask "t" (.acquireAll [⟨["a"]⟩, ⟨["b"]⟩]), .ask "t" (.release ⟨["b"]⟩),
    .ask "s" (.acquire ⟨["b"]⟩)]

/-- The lock is still held by the first transaction, for `/a`, so the second one gets nothing and
has nothing to give back. -/
theorem orderly_release_excludes :
    let s := (ofConfig oneStripe).runLocks orderlySteps
    let t := (s.context? "t").getD default
    let c := (s.context? "s").getD default
    s.store.locks.table.owns ⟨["a"]⟩ t.owner = true ∧ c.holds ⟨["a"]⟩ = false ∧
      (s.locking "s" c (·.release ⟨["b"]⟩)).2 = .error (.illegalRelease ⟨["b"]⟩ c.owner) := by
  intro s t c
  have ht : s.context? "t" = some t := by decide +kernel
  have hc : s.context? "s" = some c := by decide +kernel
  have hnoted : t.holds ⟨["a"]⟩ = true := by decide +kernel
  have hlocked : c.locked = .empty := by decide +kernel
  have hno : ∀ q, c.holds q = false := fun q => by
    rw [Context.holds, hlocked]
    rfl
  obtain ⟨hcovered, halone, hrelease⟩ :=
    locks_exclude oneStripe Stripe.hash orderlySteps (.inr (by decide +kernel))
  refine ⟨hcovered "t" t ⟨["a"]⟩ ht hnoted, halone "t" "s" t c _ ht hc (by decide) hnoted, ?_⟩
  refine (hrelease "s" c ⟨["b"]⟩ hc (hno _) fun _ q hq => ?_).1
  rw [hno q] at hq
  simp at hq

/-- The first transaction locks `/a` only and gives back `/b`, and the second one wants `/a`. -/
def straySteps : List LockStep :=
  [.start "t" ⟨"main", 0⟩ (some (1 : Nat)), .start "s" ⟨"main", 0⟩ (some (2 : Nat)),
    .ask "t" (.acquire ⟨["a"]⟩), .ask "t" (.release ⟨["b"]⟩), .ask "s" (.acquire ⟨["a"]⟩)]

/-- **A stray request breaks mutual exclusion**: giving back a path that is not locked succeeds when
it shares its stripe with one that is, and then two units of work have locked the same path, though
only one of them holds the lock. -/
theorem not_locks_exclude :
    ¬∀ (config : Config) (steps : List LockStep),
      let s := (ofConfig config).runLocks steps
      let table := s.store.locks.table
      (∀ name c p, s.context? name = some c → c.holds p = true → table.owns p c.owner = true) ∧
      (∀ name other c c' p, s.context? name = some c → s.context? other = some c' →
        other ≠ name → c.holds p = true → c'.holds p = false) ∧
      ∀ name c p, s.context? name = some c → c.holds p = false →
        let r := s.locking name c (·.release p)
        r.2 = .error (.illegalRelease p c.owner) ∧ r.1.store.locks.table = table := by
  intro h
  let s := (ofConfig oneStripe).runLocks straySteps
  let t := (s.context? "t").getD default
  let c := (s.context? "s").getD default
  have ht : s.context? "t" = some t := by decide +kernel
  have hc : s.context? "s" = some c := by decide +kernel
  obtain ⟨-, halone, -⟩ := h oneStripe straySteps
  have hfree := halone "t" "s" t c ⟨["a"]⟩ ht hc (by decide) (by decide +kernel)
  have hnoted : c.holds ⟨["a"]⟩ = true := by decide +kernel
  rw [hnoted] at hfree
  simp at hfree

end SharedTree

end TransactionalTree
