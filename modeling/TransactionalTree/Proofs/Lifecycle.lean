/-
**The life of a transaction, at any time and on any thread.**

A transaction can end through the thread that is bound to it, through a handle, by a commit that is
refused and a rollback after it, or because nobody can reach it any more.  Whichever way it goes, it
never comes back: it holds no lock, has no workspace and accepts nothing any more, no thread finds
itself bound to it, and the counts of its cache say how it has ended.

Main definitions:

* `Session.skewRefused`, `Session.skewRefusals` — how many commits of a cache a step, or a run, has
  refused for write skew.

Main results:

* `Session.advances_take`, `Session.advances_run` — each step, and so each run, keeps the accounts;
* `Session.transaction_lifecycle` — **the life of a transaction**.
-/

import TransactionalTree.Proofs.CallsAlone
import TransactionalTree.Proofs.Ledgers
import TransactionalTree.Proofs.OwnOptions

set_option relaxedAutoImplicit false
set_option autoImplicit false

namespace TransactionalTree

namespace Session

variable {s : Session} {id : TransactionId} {tx : Transaction} {t : ThreadId} {k : Nat}
variable {refused : Nat → Nat}

/-! ### Operations -/

/-- What a step of a transaction does that only takes and gives back locks and notes it. -/
theorem advances_stepIn {α : Type} {step : Base → Work → Work × Except TreeError α} (h : s.Orderly)
    (hid : s.transactions.get? id = some tx)
    (hstep : ∀ (b : Base) (w : Work),
      w.Balanced (step b w).1 ∧ (w.Accounted → w.Conserves (step b w).1)) :
    s.Advances (fun _ => 0) (s.stepIn id step).1 := by
  simp only [stepIn, transaction_eq hid]
  split
  · rename_i hactive
    obtain ⟨hbal, hcon⟩ := hstep (s.cache tx.cache).store.base
      ⟨(s.cache tx.cache).store.locks, tx.context⟩
    generalize step (s.cache tx.cache).store.base ⟨(s.cache tx.cache).store.locks, tx.context⟩ = r
      at hbal hcon ⊢
    have hchanges : s.Changes id tx { tx with context := r.1.context }
        { s.cache tx.cache with store := { (s.cache tx.cache).store with locks := r.1.locks } }
        ((s.setStore tx.cache { (s.cache tx.cache).store with locks := r.1.locks }).setTransaction
          id { tx with context := r.1.context }) :=
      ⟨hid, rfl, rfl, rfl, rfl, rfl, hbal, hcon⟩
    refine hchanges.advances h (Status.leadsTo_refl _) (fun hdone => ?_)
      (fun _ _ hperm htally => htally.kept hperm rfl (.inr rfl)) (fun _ => rfl) fun _ _ => rfl
    simp [hactive, Status.isCompleted] at hdone
  · exact .refl h

theorem advances_performIn (h : s.Orderly) (hid : s.transactions.get? id = some tx)
    (o : Operation) : s.Advances (fun _ => 0) (s.performIn id o).1 :=
  advances_stepIn h hid fun b w =>
    have htr := (b.holding_perform w o).traced
    ⟨htr.balanced, htr.conserves⟩

/-- Which options hold for an operation is of no matter to the accounts. -/
theorem advances_performWith (h : s.Orderly) (hid : s.transactions.get? id = some tx)
    (options : Options) (o : Operation) :
    s.Advances (fun _ => 0) (s.performWith id options o).1 :=
  advances_stepIn h hid fun b w => by
    have htr := (b.holding_perform (w.withContext { w.context with options }) o).traced
    have hbal := htr.balanced
    exact ⟨⟨hbal.striping, hbal.owner, hbal.others, hbal.accounted⟩, fun ha =>
      have hcon := htr.conserves ha
      ⟨hcon.held, hcon.counts⟩⟩

theorem advances_setOptions (h : s.Orderly) (hid : s.transactions.get? id = some tx)
    (options : Options) : s.Advances (fun _ => 0) (s.setOptions id options) := by
  simp only [setOptions, transaction_eq hid]
  have hchanges : s.Changes id tx { tx with context := { tx.context with options } }
      (s.cache tx.cache)
      (s.setTransaction id { tx with context := { tx.context with options } }) :=
    ⟨hid, rfl, rfl, rfl, rfl, (caches_set_self s tx.cache).symm,
      ⟨rfl, rfl, fun _ _ _ => rfl, fun ha => ha⟩, fun _ => ⟨fun _ => rfl, rfl⟩⟩
  refine hchanges.advances h (Status.leadsTo_refl _) (fun hdone => ?_)
    (fun _ _ hperm htally => htally.kept hperm rfl (.inr rfl)) (fun _ => rfl) fun _ _ => rfl
  -- the options are no part of what has to be given back
  have hended := h.ended hid hdone
  exact hended

/-! ### The end of a transaction -/

/-- Whether it failed for write skew. -/
def isSkewRefusal (result : Except TreeError Unit) : Bool :=
  match result with
  | .ok () => false
  | .error err => err.isWriteSkew

/-- The counts after a commit that was refused. -/
def refusing (result : Except TreeError Unit) : TransactionCounts → TransactionCounts :=
  if isSkewRefusal result then .abort else fun n => n

/-- **What comes of a commit**: it goes through, the changes are told, and the transaction is
committed; or the transaction is marked for rollback and stays as it was. -/
theorem commitTransaction_cases (hid : s.transactions.get? id = some tx)
    (hactive : tx.status = .active) :
    let store := (s.cache tx.cache).store
    (∃ (tree : CommittedTree) (events : List Event), store.GoesThrough tx.context ∧
      (∀ x ∈ events, x.origin = ⟨tx.context.transaction, tx.context.options.localOnly⟩) ∧
      let e := Store.conclude { store with tree } tx.context true
        (deliver store.listeners (events.map .change))
      s.commitTransaction id = ((s.absorb id e .committed).count tx.cache .commit, e.result)) ∨
    ∃ tree err, ¬store.GoesThrough tx.context ∧
      let e : Ending := ⟨{ store with tree }, tx.context, .error err, []⟩
      s.commitTransaction id =
        ((s.absorb id e .markedRollback).count tx.cache (refusing e.result), e.result) := by
  intro store
  simp only [commitTransaction, transaction_eq hid, if_pos hactive]
  rcases store.commit_cases tx.context with ⟨tree, events, hgo, horigin, hcommit⟩ |
    ⟨tree, err, hno, hchanges, hcommit⟩
  · refine .inl ⟨tree, events, hgo, horigin, ?_⟩
    rw [hcommit]
    have hno : (Store.conclude { store with tree } tx.context true
        (deliver store.listeners (events.map .change))).context.hasChanges = false := rfl
    generalize Store.conclude { store with tree } tx.context true _ = e at hno ⊢
    cases e.result with
    | ok u => rfl
    | error err => simp only [hno, Bool.false_eq_true, if_false]
  · refine .inr ⟨tree, err, hno, ?_⟩
    rw [hcommit]
    simp only [hchanges, if_true]
    cases hskew : err.isWriteSkew with
    | true => simp [refusing, isSkewRefusal, hskew]
    | false => simp [refusing, isSkewRefusal, hskew, count_nothing]

/-- A transaction that has not ended comes to another state, and is counted. -/
theorem advances_absorb {e : Ending} {status : Status}
    {f : TransactionCounts → TransactionCounts} (h : s.Orderly)
    (hid : s.transactions.get? id = some tx)
    (htr : Work.Traced ⟨(s.cache tx.cache).store.locks, tx.context⟩ ⟨e.store.locks, e.context⟩)
    (hopen : tx.status.isCompleted = false) (hleads : tx.status.leadsTo status = true)
    (hended : status.isCompleted = true → e.context.locked = .empty ∧ e.context.workspace = .empty)
    (hcounts : ∀ n txs, (n.after status).Tally tx.cache txs → (f n).Tally tx.cache txs)
    (hskew : tx.cache < s.caches.length →
      ∀ n : TransactionCounts, (f n).skewAborts = n.skewAborts + refused tx.cache)
    (hzero : ∀ k, k ≠ tx.cache → refused k = 0) :
    s.Advances refused ((s.absorb id e status).count tx.cache f) := by
  have hchanges : s.Changes id tx { tx with context := e.context, status }
      { s.cache tx.cache with store := e.store, counts := f (s.cache tx.cache).counts }
      ((s.absorb id e status).count tx.cache f) := by
    refine ⟨hid, rfl, ?_, rfl, rfl, ?_, htr.balanced, htr.conserves⟩
    · simp only [absorb, transaction_eq hid]
      rfl
    · simp only [absorb, transaction_eq hid]
      exact caches_count s tx.cache { s.cache tx.cache with store := e.store } f
  exact hchanges.advances h hleads hended
    (fun _ _ hperm htally => hcounts _ _ (htally.moved hperm rfl rfl hopen)) (fun hk => hskew hk _)
    hzero

/-- How many commits are refused for write skew when a transaction of this cache is committed. -/
def refusedOf (cache : Nat) (result : Except TreeError Unit) (k : Nat) : Nat :=
  if cache = k ∧ isSkewRefusal result = true then 1 else 0

theorem refusedOf_eq_zero {result : Except TreeError Unit} (h : isSkewRefusal result = false) :
    refusedOf k result = fun _ => 0 :=
  funext fun j => if_neg fun hc => by simp [h] at hc

/-- **A commit ends the transaction, or marks it for rollback**; what is refused for write skew is
counted. -/
theorem advances_commitTransaction (h : s.Orderly) (hid : s.transactions.get? id = some tx) :
    s.Advances (refusedOf tx.cache (s.commitTransaction id).2) (s.commitTransaction id).1 := by
  have hother : ∀ result k, k ≠ tx.cache → refusedOf tx.cache result k = 0 :=
    fun result k hk => if_neg fun hc => hk hc.1.symm
  by_cases hactive : tx.status = .active
  · have hleads : ∀ status, tx.status.leadsTo status = true := fun status => by rw [hactive]; rfl
    have hopen : tx.status.isCompleted = false := by rw [hactive]; rfl
    rcases commitTransaction_cases hid hactive with ⟨tree, events, -, -, hcommit⟩ |
      ⟨tree, err, -, hcommit⟩
    · rw [hcommit]
      refine advances_absorb h hid (Store.conclude_traced { (s.cache tx.cache).store with tree } _ _
        _) hopen (hleads _) (fun _ => ⟨rfl, rfl⟩) (fun _ _ htally => htally) (fun hk n => ?_)
        (hother _)
      have hok := (Store.conclude_settled (s := { (s.cache tx.cache).store with tree })
        (h.accounted hid hk) true (deliver (s.cache tx.cache).store.listeners
          (events.map .change))).1
      simp [hok, refusedOf, isSkewRefusal, TransactionCounts.commit]
    · rw [hcommit]
      refine advances_absorb h hid .refl hopen (hleads _)
        (fun hdone => by simp [Status.isCompleted] at hdone) (fun n txs htally => ?_)
        (fun _ n => ?_) (hother _)
      · rw [refusing]
        split
        · exact htally.abort
        · exact htally
      · rw [refusing, refusedOf]
        split <;> simp_all [TransactionCounts.abort]
  · simp only [commitTransaction, transaction_eq hid, if_neg hactive]
    rw [refusedOf_eq_zero rfl]
    exact .refl h

/-- A rollback ends the transaction, unless it has ended before. -/
theorem advances_rollbackTransaction (h : s.Orderly) (hid : s.transactions.get? id = some tx) :
    s.Advances (fun _ => 0) (s.rollbackTransaction id).1 := by
  simp only [rollbackTransaction, transaction_eq hid]
  split
  · exact .refl h
  · rename_i hopen
    have hopen : tx.status.isCompleted = false := by simpa using hopen
    exact advances_absorb h hid (Store.conclude_traced (s.cache tx.cache).store tx.context false [])
      hopen (Status.leadsTo_rolledBack hopen) (fun _ => ⟨rfl, rfl⟩) (fun _ _ htally => htally)
      (fun _ _ => rfl) fun _ _ => rfl

/-- Several transactions may be rolled back one after the other. -/
theorem advances_rollbackAll (h : s.Orderly) (ids : List TransactionId)
    (hids : ∀ id ∈ ids, s.isBegun id = true) :
    s.Advances (fun _ => 0) (ids.foldl (fun s id => (s.rollbackTransaction id).1) s) := by
  induction ids generalizing s with
  | nil => exact .refl h
  | cons id ids ih =>
      obtain ⟨tx, htx⟩ := isBegun_iff.1 (hids id List.mem_cons_self)
      have hfirst := advances_rollbackTransaction h htx
      exact hfirst.trans (ih hfirst.orderly fun id hid =>
        hfirst.isBegun (hids id (List.mem_cons_of_mem _ hid)))

theorem advances_settle (h : s.Orderly) : s.Advances (fun _ => 0) s.settle := by
  refine advances_rollbackAll h s.lost fun id hid => ?_
  obtain ⟨tx, htx⟩ := SortedMap.mem_keys.1 hid
  rw [SortedMap.get?_filter] at htx
  exact isBegun_iff.2 ⟨tx, (Option.filter_eq_some_iff.1 htx).1⟩

/-! ### Handles -/

/-- Whatever happens to handles, and whatever bindings go, those who cannot be reached any more are
rolled back. -/
theorem advances_letGo {s' : Session} (h : s.Orderly) (hc : s'.caches = s.caches)
    (htx : s'.transactions = s.transactions) (hnext : s'.nextTransaction = s.nextTransaction)
    (hb : ∀ b ∈ s'.bindings, b ∈ s.bindings) : s.Advances (fun _ => 0) s'.settle :=
  have hgone : s.Advances (fun _ => 0) s' :=
    .of_bindings h htx hnext hc fun b hmem => .inl (hb b hmem)
  hgone.trans (advances_settle hgone.orderly)

theorem advances_name (h : s.Orderly) (handle : String) (id : TransactionId) :
    s.Advances (fun _ => 0) (s.name handle id) :=
  advances_letGo h rfl rfl rfl fun _ hb => hb

theorem advances_keep (h : s.Orderly) (handle : Option String) (id : TransactionId) :
    s.Advances (fun _ => 0) (s.keep handle id) := by
  cases handle with
  | none => exact advances_settle h
  | some handle => exact advances_name h handle id

theorem advances_endThread (h : s.Orderly) (name : String) :
    s.Advances (fun _ => 0) (s.endThread name).1 := by
  simp only [endThread]
  split
  · exact advances_letGo h rfl rfl rfl fun _ hb => (List.mem_filter.1 hb).1
  · exact .refl h

/-! ### Threads -/

theorem advances_unbind (h : s.Orderly) (t : ThreadId) (k : Nat) :
    s.Advances (fun _ => 0) (s.unbind t k) :=
  .of_bindings h rfl rfl rfl fun _ hb => .inl (List.mem_filter.1 hb).1

/-- A thread may be bound to a transaction of the cache. -/
theorem advances_bind (h : s.Orderly) (hid : s.transactions.get? id = some tx)
    (hk : tx.cache = k) : s.Advances (fun _ => 0) (s.bind t k id) := by
  refine .of_bindings h rfl rfl rfl fun b hb => ?_
  rcases List.mem_append.1 hb with hb | hb
  · exact .inl (List.mem_filter.1 hb).1
  · rw [List.mem_singleton.1 hb]
    exact .inr ⟨tx, hid, hk⟩

/-- **Looking up the transaction of a thread** removes at most a binding.  What it finds was begun
with the cache and has not ended. -/
theorem current_cases (h : s.Orderly) (t : ThreadId) (k : Nat) :
    (∃ s₁, s.current t k = (s₁, none) ∧ s.Advances (fun _ => 0) s₁ ∧
      s₁.transactions = s.transactions) ∨
    ∃ id tx, s.current t k = (s, some id) ∧ s.transactions.get? id = some tx ∧ tx.cache = k ∧
      tx.status.isCompleted = false := by
  simp only [current]
  split
  · exact .inl ⟨s, rfl, .refl h, rfl⟩
  · rename_i id hbound
    split
    · exact .inl ⟨s.unbind t k, rfl, advances_unbind h t k, rfl⟩
    · rename_i hopen
      obtain ⟨b, hb, rfl⟩ := Option.map_eq_some_iff.1 hbound
      obtain ⟨tx, htx, hk⟩ := h.bound (List.mem_of_find?_eq_some hb)
      have hcache := List.find?_some hb
      simp only [Bool.and_eq_true, decide_eq_true_eq] at hcache
      rw [status, transaction_eq htx] at hopen
      exact .inr ⟨b.transaction, tx, rfl, htx, hk.trans hcache.2, by simpa using hopen⟩

theorem advances_beginBound (h : s.Orderly) (t : ThreadId) (k : Nat) :
    s.Advances (fun _ => 0) (s.beginBound t k).1 := by
  rcases current_cases h t k with ⟨s₁, hc, hcurrent, -⟩ | ⟨id, tx, hc, -⟩
  · simp only [beginBound, hc]
    have hbegin := advances_beginDetached hcurrent.orderly t k
    have hnew : (s₁.beginDetached t k).1.transactions.get? s₁.nextTransaction =
        some ⟨k, .active, .ofTransaction t s₁.nextTransaction⟩ := SortedMap.get?_insert_self
    exact (hcurrent.trans hbegin).trans (advances_bind hbegin.orderly hnew rfl)
  · simp only [beginBound, hc]
    exact .refl h

theorem advances_commitBound (h : s.Orderly) (t : ThreadId) (k : Nat) :
    s.Advances (refusedOf k (s.commitBound t k).2) (s.commitBound t k).1 := by
  rcases current_cases h t k with ⟨s₁, hc, hcurrent, -⟩ | ⟨id, tx, hc, htx, rfl, -⟩
  · simp only [commitBound, hc]
    rw [refusedOf_eq_zero rfl]
    exact hcurrent
  · simp only [commitBound, hc]
    have hcommit := advances_commitTransaction h htx
    split
    · exact hcommit.trans (advances_unbind hcommit.orderly t tx.cache)
    · exact hcommit

theorem advances_rollbackBound (h : s.Orderly) (t : ThreadId) (k : Nat) :
    s.Advances (fun _ => 0) (s.rollbackBound t k).1 := by
  rcases current_cases h t k with ⟨s₁, hc, hcurrent, -⟩ | ⟨id, tx, hc, htx, -⟩
  · simp only [rollbackBound, hc]
    exact hcurrent
  · simp only [rollbackBound, hc]
    have hunbind := advances_unbind h t k
    exact hunbind.trans (advances_rollbackTransaction hunbind.orderly htx)

theorem advances_suspend (h : s.Orderly) (t : ThreadId) (k : Nat) :
    s.Advances (fun _ => 0) (s.suspend t k).1 := by
  rcases current_cases h t k with ⟨s₁, hc, hcurrent, -⟩ | ⟨id, tx, hc, -⟩
  · simp only [suspend, hc]
    exact hcurrent
  · simp only [suspend, hc]
    exact advances_unbind h t k

theorem advances_resume (h : s.Orderly) (hid : s.transactions.get? id = some tx) :
    s.Advances (fun _ => 0) (s.resume t k id).1 := by
  simp only [resume, transaction_eq hid]
  split
  · exact .refl h
  · rename_i hk
    split
    · exact .refl h
    · rcases current_cases h t k with ⟨s₁, hc, hcurrent, htxs⟩ | ⟨other, tx', hc, -⟩
      · simp only [hc]
        refine hcurrent.trans (advances_bind hcurrent.orderly ?_ (not_not.1 hk))
        rw [htxs]
        exact hid
      · simp only [hc]
        exact .refl h

/-! ### Operations of a thread -/

/-- A tree may take the place of another with the same locks. -/
theorem advances_setStore {store : Store} (h : s.Orderly)
    (hlocks : store.locks.table = (s.cache k).store.locks.table) :
    s.Advances (fun _ => 0) (s.setStore k store) := by
  refine .of_same h rfl rfl (fun _ hb => .inl hb) List.length_set fun j hj => ?_
  have hcache : (s.setStore k store).caches = s.caches.set k { s.cache k with store } := rfl
  rw [cache_of_caches hcache hj]
  split
  · rename_i heq
    rw [heq, hlocks]
    exact ⟨rfl, rfl, fun _ _ => rfl⟩
  · exact ⟨rfl, rfl, fun _ _ => rfl⟩

/-- A call alone leaves the locks as they were. -/
theorem advances_callAlone (h : s.Orderly) (t : ThreadId) (k : Nat) (options : Options)
    (o : Operation) : s.Advances (fun _ => 0) (s.callAlone t k options o).1 := by
  obtain ⟨store, sent, hnew, hlocks, -⟩ := callAlone_keeps s t k options o
  have hstore := advances_setStore h hlocks
  have hnote : (s.setStore k store).Advances (fun _ => 0) ((s.setStore k store).note sent) :=
    .of_bindings hstore.orderly rfl rfl rfl fun _ hb => .inl hb
  rw [hnew]
  exact hstore.trans hnote

theorem advances_call (h : s.Orderly) (t : ThreadId) (k : Nat) (options : Option Options)
    (o : Operation) : s.Advances (fun _ => 0) (s.call t k options o).1 := by
  rcases current_cases h t k with ⟨s₁, hc, hcurrent, -⟩ | ⟨id, tx, hc, htx, -⟩
  · simp only [call, hc]
    exact hcurrent.trans (advances_callAlone hcurrent.orderly t k _ o)
  · simp only [call, hc]
    cases options with
    | none => exact advances_performIn h htx o
    | some options => exact advances_performWith h htx options o

/-! ### Runs -/

/-- How many commits of transactions of this cache the step refuses for write skew.  An operation
that is a unit of work of its own is no transaction, and none of the counts says anything of it. -/
def skewRefused (s : Session) (k : Nat) : SessionStep → Nat
  | .commit id =>
      if s.isBegun id then refusedOf (s.transaction id).cache (s.commitTransaction id).2 k else 0
  | .commitBound t j => refusedOf j (s.commitBound t j).2 k
  | _ => 0

/-- **How many commits of transactions of this cache the run refuses for write skew.** -/
def skewRefusals (s : Session) (k : Nat) : List SessionStep → Nat
  | [] => 0
  | step :: steps => s.skewRefused k step + (s.take step).skewRefusals k steps

/-- A step of a transaction that was begun, or none. -/
theorem advances_within {f : Session → Session} (h : s.Orderly)
    (hf : ∀ tx, s.transactions.get? id = some tx → s.Advances (fun _ => 0) (f s)) :
    s.Advances (fun _ => 0) (s.within id f) := by
  rw [within]
  split
  · rename_i hid
    obtain ⟨tx, htx⟩ := isBegun_iff.1 hid
    exact hf tx htx
  · exact .refl h

/-- **Each step keeps the accounts.** -/
theorem advances_take (h : s.Orderly) (step : SessionStep) :
    s.Advances (fun k => s.skewRefused k step) (s.take step) := by
  cases step with
  | beginBound t k handle =>
      have hbegin := advances_beginBound h t k
      simp only [take]
      generalize s.beginBound t k = r at hbegin
      obtain ⟨s₁, _ | id⟩ := r
      · exact hbegin
      · exact hbegin.trans (advances_keep hbegin.orderly handle id)
  | beginDetached t k handle =>
      have hbegin := advances_beginDetached h t k
      exact hbegin.trans (advances_keep hbegin.orderly handle _)
  | call t k options o => exact advances_call h t k options o
  | perform id o =>
      exact advances_within (f := fun s => (s.performIn id o).1) h fun tx htx =>
        advances_performIn h htx o
  | setOptions id options =>
      exact advances_within (f := fun s => s.setOptions id options) h fun tx htx =>
        advances_setOptions h htx options
  | commitBound t k => exact advances_commitBound h t k
  | rollbackBound t k => exact advances_rollbackBound h t k
  | commit id =>
      simp only [take, within, skewRefused]
      split
      · rename_i hid
        obtain ⟨tx, htx⟩ := isBegun_iff.1 hid
        rw [transaction_eq htx]
        exact advances_commitTransaction h htx
      · exact .refl h
  | rollback id =>
      exact advances_within (f := fun s => (s.rollbackTransaction id).1) h fun tx htx =>
        advances_rollbackTransaction h htx
  | suspend t k handle =>
      have hsuspend := advances_suspend h t k
      simp only [take]
      generalize s.suspend t k = r at hsuspend
      obtain ⟨s₁, _ | id⟩ := r
      · exact hsuspend
      · exact hsuspend.trans (advances_keep hsuspend.orderly handle id)
  | resume t k id =>
      exact advances_within (f := fun s => (s.resume t k id).1) h fun tx htx =>
        advances_resume h htx
  | endThread name => exact advances_endThread h name
  | name handle id =>
      exact advances_within (f := fun s => s.name handle id) h fun _ _ => advances_name h handle id
  | drop handle => exact advances_letGo h rfl rfl rfl fun _ hb => hb
  | addListener k name => exact advances_setStore h rfl
  | removeListener k name => exact advances_setStore h rfl
  | purge k => exact advances_setStore h rfl

/-- **Each run keeps the accounts.** -/
theorem advances_run (h : s.Orderly) (steps : List SessionStep) :
    s.Advances (fun k => s.skewRefusals k steps) (s.run steps) := by
  induction steps generalizing s with
  | nil => exact .refl h
  | cons step steps ih =>
      have hstep := advances_take h step
      exact hstep.trans (ih hstep.orderly)

theorem cache_ofConfigs {configs : List Config} {hash : Path → UInt64} (hk : k < configs.length) :
    (ofConfigs configs hash).cache k = { store := .ofConfig configs[k] hash } := by
  simp [ofConfigs, cache, hk]

theorem orderly_ofConfigs (configs : List Config) (hash : Path → UInt64) :
    (ofConfigs configs hash).Orderly where
  earlier hid := by simp [ofConfigs] at hid
  owner hid := by simp [ofConfigs] at hid
  bound hb := by simp [ofConfigs] at hb
  ended hid := by simp [ofConfigs] at hid
  held hid := by simp [ofConfigs] at hid
  free k hk o _ key := by
    rw [ofConfigs, List.length_map] at hk
    rw [cache_ofConfigs hk]
    rfl
  tally k hk := by
    rw [ofConfigs, List.length_map] at hk
    rw [cache_ofConfigs hk]
    exact ⟨rfl, rfl, rfl, rfl⟩

/-- A transaction that has ended refuses everything, and nothing changes. -/
theorem refuses_of_ended (hid : s.transactions.get? id = some tx)
    (hdone : tx.status.isCompleted = true) :
    (∀ o, s.performIn id o = (s, .error (s.notActive id))) ∧
    (∀ options o, s.performWith id options o = (s, .error (s.notActive id))) ∧
    s.commitTransaction id = (s, .error (s.notActive id)) ∧
    s.rollbackTransaction id = (s, .error (s.notActive id)) := by
  have hactive : ¬tx.status = .active := fun h => by simp [h, Status.isCompleted] at hdone
  refine ⟨fun o => ?_, fun options o => ?_, ?_, ?_⟩
  · simp only [performIn, stepIn, transaction_eq hid, if_neg hactive]
  · simp only [performWith, stepIn, transaction_eq hid, if_neg hactive]
  · simp only [commitTransaction, transaction_eq hid, if_neg hactive]
  · simp only [rollbackTransaction, transaction_eq hid, if_pos hdone]

/-- A thread may begin a transaction exactly if it finds itself bound to none. -/
theorem beginBound_isOk : (s.beginBound t k).2.isOk = true ↔ (s.current t k).2 = none := by
  simp only [beginBound]
  generalize s.current t k = r
  obtain ⟨s₁, _ | id⟩ := r <;> simp [Except.isOk, Except.toBool]

/-- A thread may take up a transaction exactly if that one is an active one of the cache, and the
thread finds itself bound to none. -/
theorem resume_isOk : (s.resume t k id).2.isOk = true ↔
    (s.transaction id).cache = k ∧ s.status id = .active ∧ (s.current t k).2 = none := by
  simp only [resume]
  split
  · rename_i hk
    simp [hk, Except.isOk, Except.toBool]
  · rename_i hk
    split
    · rename_i hactive
      simp [hactive, Except.isOk, Except.toBool]
    · rename_i hactive
      rw [not_not] at hk hactive
      generalize s.current t k = r
      obtain ⟨s₁, _ | other⟩ := r <;> simp [hk, hactive, Except.isOk, Except.toBool]

/-- **The life of a transaction.**  At any time, whatever threads and handles have done:

* a transaction only goes on, from active to marked for rollback or to one of the two ends, and from
  marked for rollback to rolled back;
* one that has ended has no locks, neither noted nor held in any cache, and no workspace, and an
  operation, a commit or a rollback of it fails and changes nothing;
* no thread finds itself bound to one that has ended, and a thread may begin one or take one up only
  when it finds itself bound to none;
* in each cache, as many were begun as are active or have ended in one of the two ways, and the
  count of refusals for write skew is that of the commits that were refused so. -/
theorem transaction_lifecycle (configs : List Config) (hash : Path → UInt64)
    (steps : List SessionStep) :
    let s := (ofConfigs configs hash).run steps
    (∀ id later, s.isBegun id = true →
      (s.status id).leadsTo ((s.run later).status id) = true) ∧
    (∀ id, s.isBegun id = true → (s.status id).isCompleted = true →
      (s.transaction id).context.locked = .empty ∧
      (s.transaction id).context.workspace = .empty ∧
      (∀ k p, (s.cache k).store.locks.table.owns p (.transaction id) = false) ∧
      (∀ o, s.performIn id o = (s, .error (s.notActive id))) ∧
      (∀ options o, s.performWith id options o = (s, .error (s.notActive id))) ∧
      s.commitTransaction id = (s, .error (s.notActive id)) ∧
      s.rollbackTransaction id = (s, .error (s.notActive id))) ∧
    (∀ t k id, (s.current t k).2 = some id →
      s.isBegun id = true ∧ (s.status id).isCompleted = false) ∧
    (∀ t k, (s.beginBound t k).2.isOk = true ↔ (s.current t k).2 = none) ∧
    (∀ t k id, (s.resume t k id).2.isOk = true ↔
      (s.transaction id).cache = k ∧ s.status id = .active ∧ (s.current t k).2 = none) ∧
    ∀ k < configs.length,
      (s.cache k).counts.Tally k s.transactions.values ∧
      (s.cache k).counts.started = (s.cache k).counts.active + (s.cache k).counts.committed +
        (s.cache k).counts.rolledBack ∧
      (s.cache k).counts.skewAborts = (ofConfigs configs hash).skewRefusals k steps := by
  intro s
  have hrun := advances_run (orderly_ofConfigs configs hash) steps
  have hs : s.Orderly := hrun.orderly
  refine ⟨fun id later hid => ?_, fun id hid hdone => ?_, fun t k id hc => ?_, fun t k => ?_,
    fun t k id => ?_, fun k hk => ?_⟩
  · obtain ⟨tx, htx⟩ := isBegun_iff.1 hid
    obtain ⟨tx', htx', hleads⟩ := (advances_run hs later).leads htx
    rwa [status, status, transaction_eq htx, transaction_eq htx']
  · obtain ⟨tx, htx⟩ := isBegun_iff.1 hid
    rw [status, transaction_eq htx] at hdone
    obtain ⟨hlocked, hworkspace⟩ := hs.ended htx hdone
    rw [transaction_eq htx]
    exact ⟨hlocked, hworkspace, hs.not_owns htx hdone, refuses_of_ended htx hdone⟩
  · rcases current_cases hs t k with ⟨s₁, hnone, -⟩ | ⟨other, tx, hsome, htx, -, hopen⟩
    · rw [hnone] at hc
      simp at hc
    · rw [hsome] at hc
      obtain rfl := Option.some.inj hc
      refine ⟨isBegun_iff.2 ⟨tx, htx⟩, ?_⟩
      rwa [status, transaction_eq htx]
  · exact beginBound_isOk
  · exact resume_isOk
  · have hlen : k < (ofConfigs configs hash).caches.length := by
      rw [ofConfigs, List.length_map]
      exact hk
    have htally := hs.tally k (by rw [hrun.length]; exact hlen)
    have hnone : ((ofConfigs configs hash).cache k).counts.skewAborts = 0 := by
      rw [cache_ofConfigs hk]
    refine ⟨htally, htally.total, ?_⟩
    rw [hrun.aborts k hlen, hnone, Nat.zero_add]

/-- One cache whose commits are checked for write skew. -/
def checkedConfigs : List Config := [{ writeSkewCheck := true }]

/-- Two transactions: the first looks for `/a`, the second makes it and is committed, and then the
first makes it as well, is refused, and is rolled back. -/
def refusedSteps : List SessionStep :=
  let main : ThreadId := ⟨"main", 0⟩
  [.beginBound main 0 none, .beginDetached main 0 (some "t"),
    .perform (1 : Nat) (.nodeExists ⟨["a"]⟩),
    .perform (2 : Nat) (.put ⟨["a"]⟩ "k" (.int 1)), .commit (2 : Nat),
    .call main 0 none (.put ⟨["a"]⟩ "k" (.int 2)), .commitBound main 0, .rollbackBound main 0]

/-- The refusal is counted, and the first transaction has no lock and cannot be committed again. -/
theorem refused_counted :
    let s := (ofConfigs checkedConfigs).run refusedSteps
    (s.cache 0).counts.skewAborts = 1 ∧
      (s.cache 0).store.locks.table.owns ⟨["a"]⟩ (.transaction (1 : Nat)) = false ∧
      s.commitTransaction (1 : Nat) = (s, .error (s.notActive (1 : Nat))) := by
  intro s
  obtain ⟨-, hended, -, -, -, hcounts⟩ :=
    transaction_lifecycle checkedConfigs Stripe.hash refusedSteps
  obtain ⟨-, -, hlocks, -, -, hcommit, -⟩ :=
    hended (1 : Nat) (by decide +kernel) (by decide +kernel)
  obtain ⟨-, -, hskew⟩ := hcounts 0 (by decide)
  have hone : (ofConfigs checkedConfigs).skewRefusals 0 refusedSteps = 1 := by decide +kernel
  exact ⟨hskew.trans hone, hlocks 0 ⟨["a"]⟩, hcommit⟩

end Session

end TransactionalTree
