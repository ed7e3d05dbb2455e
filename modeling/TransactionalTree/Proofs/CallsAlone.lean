/-
**Calls outside of transactions.**

A call of a thread that is bound to no transaction is a unit of work of its own.  It is committed at
once, or rolled back if anything fails, be it a lock, the operation or the commit.  So it gives back
every lock that it has taken, whatever others hold meanwhile, and if it fails it has changed nothing
in the tree.

Main results:

* `Work.Traced.table_eq` — who notes no lock before and after leaves all locks as they were;
* `Session.callAlone_cases` — **what comes of a call alone**: it is rolled back and fails, or is
  committed and answers;
* `Session.call_outside_atomic` — **a call outside of a transaction leaves no trace in the locks**,
  and if it fails none in the tree.
-/

import TransactionalTree.Proofs.Accounts
import TransactionalTree.Proofs.Sessions
import TransactionalTree.Proofs.Undisturbed

set_option relaxedAutoImplicit false
set_option autoImplicit false

namespace TransactionalTree

namespace Work

variable {w w' : Work}

/-- Who has noted nothing, and in the end notes nothing again, leaves all locks as they were. -/
theorem Traced.table_eq (h : w.Traced w') (hw : w.context.locked = .empty)
    (hw' : w'.context.locked = .empty) : w'.locks.table = w.locks.table := by
  have hnone : ∀ {u : Work}, u.context.locked = .empty → ∀ key, u.noted key = 0 := by
    intro u hu key
    rw [noted, hu]
    rfl
  refine LockTable.ext_heldBy h.balanced.striping fun key o => ?_
  by_cases ho : o = w.context.owner
  -- its own locks are taken and given back as often as paths are noted
  · have hcon := h.conserves fun key => by
      rw [hnone hw]
      exact Nat.zero_le _
    have hheld := hcon.held key
    rwa [hnone hw, hnone hw', Nat.add_zero, Nat.add_zero, ← ho] at hheld
  · exact h.balanced.others key o ho

end Work

namespace Session

variable {s : Session} {t : ThreadId} {k : Nat} {options : Options} {o : Operation}

/-! ### What comes of a call alone -/

/-- The unit of work of a call alone, after the operation, and the answer of the operation. -/
def workAlone (s : Session) (t : ThreadId) (k : Nat) (options : Options) (o : Operation) :
    Work × Except TreeError Answer :=
  (s.cache k).store.base.perform
    ⟨(s.cache k).store.locks, { Context.ofThread t with options }⟩ o

/-- The cache whose operation it was, with the locks that were taken. -/
def storeAlone (s : Session) (t : ThreadId) (k : Nat) (options : Options) (o : Operation) :
    Store :=
  { (s.cache k).store with locks := (s.workAlone t k options o).1.locks }

/-- It locks one path after the other. -/
theorem traced_workAlone (s : Session) (t : ThreadId) (k : Nat) (options : Options)
    (o : Operation) : Work.Traced ⟨(s.cache k).store.locks, { Context.ofThread t with options }⟩
      (s.workAlone t k options o).1 :=
  ((s.cache k).store.base.holding_perform _ o).traced

/-- What it has locked it holds, since it began with nothing. -/
theorem accounted_workAlone (s : Session) (t : ThreadId) (k : Nat) (options : Options)
    (o : Operation) : (s.workAlone t k options o).1.Accounted :=
  (traced_workAlone s t k options o).balanced.accounted fun _ => Nat.zero_le _

/-- While nobody else commits, its workspace is about the tree as it is. -/
theorem faithful_workAlone (hs : (s.cache k).store.tree.Sound) :
    Faithful (s.storeAlone t k options o).base (s.workAlone t k options o).1.context.workspace :=
  Faithful.perform (u := ⟨(s.cache k).store.locks, { Context.ofThread t with options }⟩)
    (.empty hs) o

/-- A call alone that is committed answers. -/
theorem callAlone_of_committed {a : Answer} (hr : (s.workAlone t k options o).2 = .ok a)
    (h : ((s.storeAlone t k options o).commit (s.workAlone t k options o).1.context).result =
      .ok ()) :
    let e := (s.storeAlone t k options o).commit (s.workAlone t k options o).1.context
    s.callAlone t k options o = ((s.setStore k e.store).note e.sent, .ok a) := by
  rw [workAlone] at hr
  simp only [callAlone, hr]
  split
  · rfl
  · rename_i err herr
    exact absurd (herr.symm.trans h) (by simp)

/-- A call alone whose commit fails is rolled back after that. -/
theorem callAlone_of_refused {a : Answer} (err : TreeError)
    (hr : (s.workAlone t k options o).2 = .ok a)
    (h : ((s.storeAlone t k options o).commit (s.workAlone t k options o).1.context).result =
      .error err) :
    let e := (s.storeAlone t k options o).commit (s.workAlone t k options o).1.context
    let undone := e.store.rollback e.context
    s.callAlone t k options o =
      ((s.setStore k undone.store).note (e.sent ++ undone.sent), .error err) := by
  rw [workAlone] at hr
  simp only [callAlone, hr]
  split
  · rename_i hok
    exact absurd (hok.symm.trans h) (by simp)
  · rename_i err' herr
    obtain rfl : err' = err := Except.error.inj (herr.symm.trans h)
    rfl

/-- **What comes of a call alone**: it is rolled back and fails, and the tree stays as it was if it
was sound; or it is committed and answers. -/
theorem callAlone_cases (s : Session) (t : ThreadId) (k : Nat) (options : Options)
    (o : Operation) :
    let done := s.storeAlone t k options o
    let c := (s.workAlone t k options o).1.context
    (∃ err tree, (done.tree.Sound → tree = done.tree) ∧ s.callAlone t k options o =
      ((s.setStore k (Store.rollback { done with tree } c).store).note
        (Store.rollback { done with tree } c).sent, .error err)) ∨
    ∃ a, (done.commit c).context.locked = .empty ∧ s.callAlone t k options o =
      ((s.setStore k (done.commit c).store).note (done.commit c).sent, .ok a) := by
  intro done c
  have hacc : Work.Accounted ⟨done.locks, c⟩ := accounted_workAlone s t k options o
  cases hr : (s.workAlone t k options o).2 with
  | error err =>
      refine .inl ⟨err, done.tree, fun _ => rfl, ?_⟩
      rw [workAlone] at hr
      simp only [callAlone, hr]
      rfl
  | ok a =>
      have hok := callAlone_of_committed hr
      have herr := fun err => callAlone_of_refused err hr
      have ho := Store.commit_outcome done c
      generalize Store.commit _ _ = e at ho hok herr ⊢
      cases ho with
      | idle _ => exact .inr ⟨a, rfl, hok (Store.conclude_settled hacc _ _).1⟩
      | refused _ _ => exact .inl ⟨_, done.tree, fun _ => rfl, herr _ rfl⟩
      -- only over a tree that is not sound may a merge fail
      | torn _ _ hm =>
          refine .inl ⟨_, (done.merge c).tree, fun hs => ?_, herr _ rfl⟩
          obtain ⟨events, hok⟩ := Store.merge_of_faithful (faithful_workAlone hs)
          rw [hm] at hok
          simp at hok
      | merged _ _ _ =>
          exact .inr ⟨a, rfl, hok (Store.conclude_settled
            (s := { done with tree := (done.merge c).tree }) hacc _ _).1⟩

/-- **A call alone leaves all locks as they were**, and if it fails also the tree. -/
theorem callAlone_keeps (s : Session) (t : ThreadId) (k : Nat) (options : Options)
    (o : Operation) : ∃ store sent,
      (s.callAlone t k options o).1 = (s.setStore k store).note sent ∧
      store.locks.table = (s.cache k).store.locks.table ∧
      ∀ err, (s.callAlone t k options o).2 = .error err → (s.cache k).store.tree.Sound →
        store.tree = (s.cache k).store.tree := by
  have htaken := traced_workAlone s t k options o
  have hcases := callAlone_cases s t k options o
  generalize s.callAlone t k options o = r at hcases ⊢
  rcases hcases with ⟨err, tree, htree, rfl⟩ | ⟨a, hlocked, rfl⟩
  · refine ⟨_, _, rfl, ?_, fun _ _ => htree⟩
    exact (htaken.trans (Store.conclude_traced { s.storeAlone t k options o with tree } _ false
      [])).table_eq rfl rfl
  · refine ⟨_, _, rfl, ?_, fun err herr => by simp at herr⟩
    exact (htaken.trans (Store.commit_traced (s.storeAlone t k options o) _)).table_eq rfl hlocked

/-! ### Calls of a thread -/

/-- A thread that is bound to nothing calls alone.  At most a binding to a transaction that has
ended goes. -/
theorem call_of_unbound (h : (s.current t k).2 = none) (options : Option Options) (o : Operation) :
    ∃ s₁ : Session, s₁.caches = s.caches ∧ s₁.sent = s.sent ∧
      s.call t k options o = s₁.callAlone t k (options.getD {}) o := by
  have hsame : (s.current t k).1.caches = s.caches ∧ (s.current t k).1.sent = s.sent := by
    simp only [current]
    split
    · exact ⟨rfl, rfl⟩
    · split
      · exact ⟨rfl, rfl⟩
      · exact ⟨rfl, rfl⟩
  refine ⟨(s.current t k).1, hsame.1, hsame.2, ?_⟩
  simp only [call]
  generalize s.current t k = r at h ⊢
  obtain ⟨s₁, found⟩ := r
  obtain rfl : found = none := h
  rfl

/-- **A call outside of a transaction is all or nothing.**  At any time, whatever locks transactions
hold: when a thread that is bound to no transaction has called for an operation, with whatever
options, all locks of all caches are held by the same owners and as often as before, and there are
as many; and if the call fails, all trees are as before, with their tombstones and their counters of
versions. -/
theorem call_outside_atomic (configs : List Config) (hash : Path → UInt64)
    (steps : List SessionStep) (t : ThreadId)
    (k : Nat) (options : Option Options) (o : Operation)
    (h : (((ofConfigs configs hash).run steps).current t k).2 = none) :
    let s := (ofConfigs configs hash).run steps
    let r := s.call t k options o
    (∀ j, (r.1.cache j).store.locks.table = (s.cache j).store.locks.table) ∧
    ∀ err, r.2 = .error err → ∀ j, (r.1.cache j).store.tree = (s.cache j).store.tree := by
  intro s r
  have hsane : s.Sane := (sane_ofConfigs configs hash).run steps
  obtain ⟨s₁, hcaches, -, hcall⟩ := call_of_unbound h options o
  have hcache : ∀ j, s₁.cache j = s.cache j := fun j => by rw [cache, cache, hcaches]
  obtain ⟨store, sent, hnew, hlocks, htree⟩ := callAlone_keeps s₁ t k (options.getD {}) o
  rw [← hcall] at hnew htree
  have hsplit : ∀ j, r.1.cache j = s₁.cache j ∨
      j = k ∧ r.1.cache j = { s₁.cache k with store } := fun j => by
    rw [show r.1 = (s₁.setStore k store).note sent from hnew]
    exact cache_setCache s₁ k { s₁.cache k with store } j
  refine ⟨fun j => ?_, fun err herr j => ?_⟩
  · rw [← hcache]
    rcases hsplit j with hj | ⟨rfl, hj⟩
    · rw [hj]
    · rw [hj]
      exact hlocks
  · have hsound := hsane.sound j
    rw [← hcache] at hsound ⊢
    rcases hsplit j with hj | ⟨rfl, hj⟩
    · rw [hj]
    · rw [hj]
      exact htree err herr hsound

/-- A thread makes `/a/x`, and a transaction writes to it. -/
def blockedSteps : List SessionStep :=
  let main : ThreadId := ⟨"main", 0⟩
  [.call main 0 none (.put ⟨["a", "x"]⟩ "k" (.int 1)),
    .beginDetached main 0 (some "t"), .perform (1 : Nat) (.put ⟨["a", "x"]⟩ "k" (.int 2))]

/-- When the thread then wants to remove `/a`, it gets the lock of `/a` but not that of `/a/x`, and
all is as it was. -/
theorem blocked_call_undone :
    let s := (ofConfigs [{}]).run blockedSteps
    let r := s.call ⟨"main", 0⟩ 0 none (.removeNode ⟨["a"]⟩)
    r.2 = .error (.timeout ⟨["a", "x"]⟩ (.thread ⟨"main", 0⟩) 10000) ∧
      (r.1.cache 0).store.locks.table = (s.cache 0).store.locks.table ∧
      (r.1.cache 0).store.tree = (s.cache 0).store.tree := by
  intro s r
  have hfails : r.2 = .error (.timeout ⟨["a", "x"]⟩ (.thread ⟨"main", 0⟩) 10000) := by
    decide +kernel
  obtain ⟨hlocks, htree⟩ :=
    call_outside_atomic [{}] Stripe.hash blockedSteps ⟨"main", 0⟩ 0 none
    (.removeNode ⟨["a"]⟩) (by decide +kernel)
  exact ⟨hfails, hlocks 0, htree _ hfails 0⟩

end Session

end TransactionalTree
