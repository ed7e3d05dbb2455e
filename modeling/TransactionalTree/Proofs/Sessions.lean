/-
**Runs of sessions.**

In a session threads and transactions take turns on several caches.  At any time the trees of all
caches are sound, the workspaces of all transactions are tidy, and the transactions that threads are
bound to have been begun.  Whatever happens, a transaction stays one of its cache, and its own
options stay what they are until they are set; the options that are given to a single operation hold
for that one only.

Main definitions:

* `SessionStep`, `Session.take`, `Session.run` — steps and runs of a session;
* `Session.Sane` — the invariant;
* `Session.Proceeds` — the session has gone on, and all transactions have kept their own options;
* `Session.lastSet` — the options that a transaction was last given as its own.

Main results:

* `Session.proceeds_take` — **only setting the options of a transaction changes them**;
* `Session.Sane.take` — each step keeps the invariant;
* `Session.transaction_run` — what a run leaves of a transaction.
-/

import TransactionalTree.Proofs.Runs
import TransactionalTree.Session.Thread

set_option relaxedAutoImplicit false
set_option autoImplicit false

namespace TransactionalTree

/-! ### Steps and runs -/

/-- A step of a session.  Writing through a reference to a node is a call, or does nothing. -/
inductive SessionStep where
  /-- A thread begins a transaction and is bound to it; it is also kept under a name if one is
  given. -/
  | beginBound (t : ThreadId) (k : Nat) (handle : Option String)
  /-- A transaction is begun to which no thread is bound, and kept under a name or let go. -/
  | beginDetached (t : ThreadId) (k : Nat) (handle : Option String)
  /-- A thread carries out an operation, with options for this one if some are given. -/
  | call (t : ThreadId) (k : Nat) (options : Option Options) (o : Operation)
  /-- An operation is carried out in a transaction. -/
  | perform (id : TransactionId) (o : Operation)
  /-- The options of a transaction are set. -/
  | setOptions (id : TransactionId) (options : Options)
  /-- The transaction that a thread is bound to is committed. -/
  | commitBound (t : ThreadId) (k : Nat)
  /-- The transaction that a thread is bound to is rolled back. -/
  | rollbackBound (t : ThreadId) (k : Nat)
  /-- A transaction is committed. -/
  | commit (id : TransactionId)
  /-- A transaction is rolled back. -/
  | rollback (id : TransactionId)
  /-- A thread lays its transaction aside, which is kept under a name or let go. -/
  | suspend (t : ThreadId) (k : Nat) (handle : Option String)
  /-- A thread takes up a transaction. -/
  | resume (t : ThreadId) (k : Nat) (id : TransactionId)
  /-- A thread ends. -/
  | endThread (name : String)
  /-- A transaction is given a name. -/
  | name (handle : String) (id : TransactionId)
  /-- A name of a transaction is dropped. -/
  | drop (handle : String)
  /-- A listener is added to a cache. -/
  | addListener (k : Nat) (name : String)
  /-- A listener is removed from a cache. -/
  | removeListener (k : Nat) (name : String)
  /-- All tombstones of a cache are dropped. -/
  | purge (k : Nat)
deriving DecidableEq, Repr, Inhabited

namespace Session

/-- A session with a cache for each of the settings, before anything has happened. -/
def ofConfigs (configs : List Config) (hash : Path → UInt64 := Stripe.hash) : Session :=
  { caches := configs.map fun c => { store := .ofConfig c hash } }

/-- The transaction with this number was begun. -/
def isBegun (s : Session) (id : TransactionId) : Bool := s.transactions.contains id

/-- Do something with a transaction that was begun. -/
def within (s : Session) (id : TransactionId) (f : Session → Session) : Session :=
  if s.isBegun id then f s else s

/-- **Take a step.**  A step of a transaction that was not begun does nothing. -/
def take (s : Session) : SessionStep → Session
  | .beginBound t k handle =>
      match s.beginBound t k with
      | (s, .ok id) => s.keep handle id
      | (s, .error _) => s
  | .beginDetached t k handle => (s.beginDetached t k).1.keep handle (s.beginDetached t k).2
  | .call t k options o => (s.call t k options o).1
  | .perform id o => s.within id fun s => (s.performIn id o).1
  | .setOptions id options => s.within id fun s => s.setOptions id options
  | .commitBound t k => (s.commitBound t k).1
  | .rollbackBound t k => (s.rollbackBound t k).1
  | .commit id => s.within id fun s => (s.commitTransaction id).1
  | .rollback id => s.within id fun s => (s.rollbackTransaction id).1
  | .suspend t k handle =>
      match s.suspend t k with
      | (s, some id) => s.keep handle id
      | (s, none) => s
  | .resume t k id => s.within id fun s => (s.resume t k id).1
  | .endThread name => (s.endThread name).1
  | .name handle id => s.within id fun s => s.name handle id
  | .drop handle => (s.drop handle).1
  | .addListener k name => s.setStore k ((s.cache k).store.addListener name)
  | .removeListener k name => s.setStore k ((s.cache k).store.removeListener name).1
  | .purge k =>
      s.setStore k { (s.cache k).store with tree := (s.cache k).store.tree.purge.1 }

/-- Take the listed steps, one after the other. -/
def run (s : Session) (steps : List SessionStep) : Session := steps.foldl take s

/-! ### What goes on -/

/-- **The invariant of all sessions.** -/
structure Sane (s : Session) : Prop where
  /-- The trees of all caches are sound. -/
  sound : ∀ k, (s.cache k).store.tree.Sound
  /-- The workspaces of all transactions are tidy. -/
  tidy : ∀ {id tx}, s.transactions.get? id = some tx → tx.context.workspace.Tidy
  /-- Transactions have smaller numbers than the next one. -/
  earlier : ∀ {id tx}, s.transactions.get? id = some tx → id < s.nextTransaction
  /-- Threads are bound to transactions that were begun. -/
  bound : ∀ {b}, b ∈ s.bindings → s.isBegun b.transaction = true

/-- **The session has gone on**: the invariant holds, and each transaction is still one of its cache
and has its own options. -/
structure Proceeds (s s' : Session) : Prop where
  /-- The invariant holds afterwards. -/
  sane : s'.Sane
  /-- No transaction is forgotten, moved to another cache, or given other options. -/
  kept : ∀ {id tx}, s.transactions.get? id = some tx → ∃ tx',
    s'.transactions.get? id = some tx' ∧ tx'.cache = tx.cache ∧
      tx'.context.options = tx.context.options

variable {s s' s'' : Session} {id other : TransactionId} {tx tx' : Transaction} {t : ThreadId}
variable {k j : Nat} {o : Operation}

theorem isBegun_iff : s.isBegun id = true ↔ ∃ tx, s.transactions.get? id = some tx :=
  SortedMap.contains_iff

theorem transaction_eq (h : s.transactions.get? id = some tx) : s.transaction id = tx := by
  rw [transaction, h]
  rfl

/-- Of a cache that is replaced the new one is there, unless there is no cache of that number. -/
theorem cache_setCache (s : Session) (k : Nat) (c : Cache) (j : Nat) :
    (s.setCache k c).cache j = s.cache j ∨ j = k ∧ (s.setCache k c).cache j = c := by
  simp only [cache, setCache, List.getD_eq_getElem?_getD, List.getElem?_set]
  by_cases hk : k = j
  · subst hk
    by_cases hlen : k < s.caches.length
    · exact .inr ⟨rfl, by simp [hlen]⟩
    · exact .inl (by simp [hlen])
  · exact .inl (by simp [hk])

/-- Replacing the tree of a cache by a sound one keeps all trees sound. -/
theorem sound_setStore (h : s.Sane) (store : Store) (hstore : store.tree.Sound) (j : Nat) :
    ((s.setStore k store).cache j).store.tree.Sound := by
  rcases cache_setCache s k { s.cache k with store } j with hc | ⟨-, hc⟩
  · rw [setStore, hc]
    exact h.sound j
  · rw [setStore, hc]
    exact hstore

/-- Counting changes no tree. -/
theorem store_count (s : Session) (k : Nat) (f : TransactionCounts → TransactionCounts) (j : Nat) :
    ((s.count k f).cache j).store = (s.cache j).store := by
  rcases cache_setCache s k { s.cache k with counts := f (s.cache k).counts } j with hc | ⟨rfl, hc⟩
  · rw [count, hc]
  · rw [count, hc]

namespace Proceeds

theorem trans (h : s.Proceeds s') (h' : s'.Proceeds s'') : s.Proceeds s'' where
  sane := h'.sane
  kept hid := by
    obtain ⟨tx', hid', hcache, hopts⟩ := h.kept hid
    obtain ⟨tx'', hid'', hcache', hopts'⟩ := h'.kept hid'
    exact ⟨tx'', hid'', hcache'.trans hcache, hopts'.trans hopts⟩

theorem isBegun (h : s.Proceeds s') (hid : s.isBegun id = true) : s'.isBegun id = true := by
  obtain ⟨tx, htx⟩ := isBegun_iff.1 hid
  obtain ⟨tx', htx', -⟩ := h.kept htx
  exact isBegun_iff.2 ⟨tx', htx'⟩

/-- The transactions are as before. -/
theorem of_same (h : s.Sane) (hs : ∀ j, (s'.cache j).store.tree.Sound)
    (htx : s'.transactions = s.transactions) (hnext : s'.nextTransaction = s.nextTransaction)
    (hb : ∀ b ∈ s'.bindings, b ∈ s.bindings ∨ s.isBegun b.transaction = true) :
    s.Proceeds s' where
  sane := by
    refine ⟨hs, fun hid => ?_, fun hid => ?_, fun hmem => ?_⟩
    · rw [htx] at hid
      exact h.tidy hid
    · rw [htx] at hid
      rw [hnext]
      exact h.earlier hid
    · rw [Session.isBegun, htx]
      exact (hb _ hmem).elim h.bound fun hbegun => hbegun
  kept hid := ⟨_, by rw [htx]; exact hid, rfl, rfl⟩

theorem refl (h : s.Sane) : s.Proceeds s := .of_same h h.sound rfl rfl fun _ hb => .inl hb

/-- One transaction has done something, and has kept its cache and its own options. -/
theorem of_insert (tx' : Transaction) (h : s.Sane) (hid : s.transactions.get? id = some tx)
    (hs : ∀ j, (s'.cache j).store.tree.Sound) (htidy : tx'.context.workspace.Tidy)
    (hcache : tx'.cache = tx.cache) (hopts : tx'.context.options = tx.context.options)
    (htx : s'.transactions = s.transactions.insert id tx')
    (hnext : s'.nextTransaction = s.nextTransaction) (hb : s'.bindings = s.bindings) :
    s.Proceeds s' := by
  have hkept : ∀ {other : TransactionId} {old : Transaction},
      s.transactions.get? other = some old → ∃ new, s'.transactions.get? other = some new ∧
        new.cache = old.cache ∧ new.context.options = old.context.options := by
    intro other old hold
    rw [htx, SortedMap.get?_insert]
    split
    · rename_i heq
      rw [heq] at hold
      obtain rfl := Option.some.inj (hid.symm.trans hold)
      exact ⟨tx', rfl, hcache, hopts⟩
    · exact ⟨old, hold, rfl, rfl⟩
  refine ⟨⟨hs, fun {other new} hnew => ?_, fun {other new} hnew => ?_, fun hmem => ?_⟩, hkept⟩
  · rw [htx, SortedMap.get?_insert] at hnew
    split at hnew
    · obtain rfl := Option.some.inj hnew
      exact htidy
    · exact h.tidy hnew
  · rw [htx, SortedMap.get?_insert] at hnew
    rw [hnext]
    split at hnew
    · rename_i heq
      rw [heq]
      exact h.earlier hid
    · exact h.earlier hnew
  · rw [hb] at hmem
    obtain ⟨old, hold⟩ := isBegun_iff.1 (h.bound hmem)
    obtain ⟨new, hnew, -⟩ := hkept hold
    exact isBegun_iff.2 ⟨new, hnew⟩

end Proceeds

/-! ### Operations -/

/-- What a step of a transaction does to the session. -/
theorem proceeds_stepIn {α : Type} {step : Base → Work → Work × Except TreeError α} (h : s.Sane)
    (hid : s.transactions.get? id = some tx)
    (hstep : ∀ b w, b.tree.Sound → w.context.workspace.Tidy →
      (step b w).1.context.workspace.Tidy ∧ (step b w).1.context.options = w.context.options) :
    s.Proceeds (s.stepIn id step).1 := by
  simp only [stepIn, transaction_eq hid]
  split
  · obtain ⟨htidy, hopts⟩ := hstep (s.cache tx.cache).store.base
      ⟨(s.cache tx.cache).store.locks, tx.context⟩ (h.sound tx.cache) (h.tidy hid)
    generalize step (s.cache tx.cache).store.base ⟨(s.cache tx.cache).store.locks, tx.context⟩ = r
      at htidy hopts ⊢
    refine .of_insert { tx with context := r.1.context } h hid (fun j => ?_) htidy rfl hopts rfl rfl
      rfl
    exact sound_setStore h { (s.cache tx.cache).store with locks := r.1.locks } (h.sound tx.cache) j
  · exact .refl h

theorem proceeds_performIn (h : s.Sane) (hid : s.transactions.get? id = some tx) (o : Operation) :
    s.Proceeds (s.performIn id o).1 := by
  refine proceeds_stepIn h hid fun b w hb hw => ?_
  obtain ⟨acts, hst⟩ := Base.staged_perform hb hw o
  exact ⟨hst.tidy hb hw, hst.options⟩

/-- **An operation with options of its own** leaves the transaction the options that it had. -/
theorem proceeds_performWith (h : s.Sane) (hid : s.transactions.get? id = some tx)
    (options : Options) (o : Operation) : s.Proceeds (s.performWith id options o).1 := by
  refine proceeds_stepIn h hid fun b w hb hw => ?_
  obtain ⟨acts, hst⟩ := Base.staged_perform
    (w := w.withContext { w.context with options }) hb hw o
  exact ⟨hst.tidy hb hw, rfl⟩

/-! ### The end of a transaction -/

theorem proceeds_absorb {e : Ending} (h : s.Sane) (hid : s.transactions.get? id = some tx)
    (hs : e.store.tree.Sound) (htidy : e.context.workspace.Tidy)
    (hopts : e.context.options = tx.context.options) (status : Status) :
    s.Proceeds (s.absorb id e status) := by
  simp only [absorb, transaction_eq hid]
  refine .of_insert { tx with context := e.context, status := status } h hid (fun j => ?_) htidy rfl
    hopts rfl rfl rfl
  exact sound_setStore h e.store hs j

theorem proceeds_count (h : s.Sane) (k : Nat) (f : TransactionCounts → TransactionCounts) :
    s.Proceeds (s.count k f) := by
  refine .of_same h (fun j => ?_) rfl rfl fun _ hb => .inl hb
  rw [store_count]
  exact h.sound j

theorem proceeds_commitTransaction (h : s.Sane) (hid : s.transactions.get? id = some tx) :
    s.Proceeds (s.commitTransaction id).1 := by
  obtain ⟨hs, htidy⟩ := Store.commit_sane (h.sound tx.cache) (h.tidy hid)
  have hopts := Store.options_commit (s.cache tx.cache).store tx.context
  simp only [commitTransaction, transaction_eq hid]
  generalize (s.cache tx.cache).store.commit tx.context = e at hs htidy hopts
  have habsorb := proceeds_absorb h hid hs htidy hopts
  split
  · split
    · exact (habsorb _).trans (proceeds_count (habsorb _).sane _ _)
    · split
      · simp only
        split
        · exact (habsorb _).trans (proceeds_count (habsorb _).sane _ _)
        · exact habsorb _
      · exact (habsorb _).trans (proceeds_count (habsorb _).sane _ _)
  · exact .refl h

theorem proceeds_rollbackTransaction (h : s.Sane) (hid : s.transactions.get? id = some tx) :
    s.Proceeds (s.rollbackTransaction id).1 := by
  simp only [rollbackTransaction, transaction_eq hid]
  split
  · exact .refl h
  · have habsorb := proceeds_absorb (e := (s.cache tx.cache).store.rollback tx.context) h hid
      (h.sound tx.cache) Workspace.tidy_empty rfl .rolledBack
    exact habsorb.trans (proceeds_count habsorb.sane _ _)

/-- Several transactions may be rolled back one after the other. -/
theorem proceeds_rollbackAll (h : s.Sane) (ids : List TransactionId)
    (hids : ∀ id ∈ ids, s.isBegun id = true) :
    s.Proceeds (ids.foldl (fun s id => (s.rollbackTransaction id).1) s) := by
  induction ids generalizing s with
  | nil => exact .refl h
  | cons id ids ih =>
      obtain ⟨tx, htx⟩ := isBegun_iff.1 (hids id List.mem_cons_self)
      have hfirst := proceeds_rollbackTransaction h htx
      exact hfirst.trans (ih hfirst.sane fun id hid =>
        hfirst.isBegun (hids id (List.mem_cons_of_mem _ hid)))

theorem proceeds_settle (h : s.Sane) : s.Proceeds s.settle := by
  refine proceeds_rollbackAll h s.lost fun id hid => ?_
  obtain ⟨tx, htx⟩ := SortedMap.mem_keys.1 hid
  rw [SortedMap.get?_filter] at htx
  exact isBegun_iff.2 ⟨tx, (Option.filter_eq_some_iff.1 htx).1⟩

/-! ### Handles -/

/-- Whatever happens to handles and bindings, as long as nothing is bound to what was not begun: who
cannot be reached any more is rolled back. -/
theorem proceeds_letGo (h : s.Sane) (hc : s'.caches = s.caches)
    (htx : s'.transactions = s.transactions) (hnext : s'.nextTransaction = s.nextTransaction)
    (hb : ∀ b ∈ s'.bindings, b ∈ s.bindings) : s.Proceeds s'.settle := by
  have hgone : s.Proceeds s' :=
    .of_same h (fun j => by rw [cache, hc]; exact h.sound j) htx hnext fun b hmem =>
      .inl (hb b hmem)
  exact hgone.trans (proceeds_settle hgone.sane)

theorem proceeds_name (h : s.Sane) (handle : String) (id : TransactionId) :
    s.Proceeds (s.name handle id) :=
  proceeds_letGo h rfl rfl rfl fun _ hb => hb

theorem proceeds_keep (h : s.Sane) (handle : Option String) (id : TransactionId) :
    s.Proceeds (s.keep handle id) := by
  cases handle with
  | none => exact proceeds_settle h
  | some handle => exact proceeds_name h handle id

theorem proceeds_endThread (h : s.Sane) (name : String) : s.Proceeds (s.endThread name).1 := by
  simp only [endThread]
  split
  · exact proceeds_letGo h rfl rfl rfl fun _ hb => (List.mem_filter.1 hb).1
  · exact .refl h

/-! ### Threads -/

/-- A transaction that is begun has a number that no other one has. -/
theorem proceeds_beginDetached (h : s.Sane) (t : ThreadId) (k : Nat) :
    s.Proceeds (s.beginDetached t k).1 ∧
      (s.beginDetached t k).1.isBegun (s.beginDetached t k).2 = true := by
  have hne : ∀ {id tx}, s.transactions.get? id = some tx → id ≠ s.nextTransaction := fun hid =>
    Nat.ne_of_lt (h.earlier hid)
  have hget : ∀ id, (s.beginDetached t k).1.transactions.get? id =
      if id = s.nextTransaction then some ⟨k, .active, .ofTransaction t s.nextTransaction⟩
      else s.transactions.get? id := fun id => SortedMap.get?_insert
  refine ⟨⟨⟨fun j => ?_, fun {id tx} hid => ?_, fun {id tx} hid => ?_, fun hmem => ?_⟩,
    fun {id tx} hid => ?_⟩, ?_⟩
  · rw [beginDetached, store_count]
    exact h.sound j
  · rw [hget] at hid
    split at hid
    · obtain rfl := Option.some.inj hid
      exact Workspace.tidy_empty
    · exact h.tidy hid
  · rw [hget] at hid
    show id < s.nextTransaction + 1
    split at hid
    · rename_i heq
      rw [heq]
      exact Nat.lt_succ_self _
    · exact Nat.lt_succ_of_lt (h.earlier hid)
  · obtain ⟨tx, htx⟩ := isBegun_iff.1 (h.bound hmem)
    exact isBegun_iff.2 ⟨tx, by rw [hget, if_neg (hne htx)]; exact htx⟩
  · exact ⟨tx, by rw [hget, if_neg (hne hid)]; exact hid, rfl, rfl⟩
  · exact isBegun_iff.2 ⟨_, by rw [hget]; exact if_pos rfl⟩

theorem proceeds_unbind (h : s.Sane) (t : ThreadId) (k : Nat) : s.Proceeds (s.unbind t k) :=
  .of_same h h.sound rfl rfl fun _ hb => .inl (List.mem_filter.1 hb).1

theorem proceeds_bind (h : s.Sane) (hid : s.isBegun id = true) : s.Proceeds (s.bind t k id) := by
  refine .of_same h h.sound rfl rfl fun b hb => ?_
  rcases List.mem_append.1 hb with hb | hb
  · exact .inl (List.mem_filter.1 hb).1
  · rw [List.mem_singleton.1 hb]
    exact .inr hid

/-- Looking up the transaction of a thread finds one that was begun, if it finds one. -/
theorem proceeds_current (h : s.Sane) (t : ThreadId) (k : Nat) :
    s.Proceeds (s.current t k).1 ∧
      ∀ id, (s.current t k).2 = some id → (s.current t k).1 = s ∧ s.isBegun id = true := by
  simp only [current]
  split
  · exact ⟨.refl h, by simp⟩
  · rename_i id hbound
    split
    · exact ⟨proceeds_unbind h t k, by simp⟩
    · refine ⟨.refl h, ?_⟩
      rintro _ ⟨⟩
      obtain ⟨b, hb, rfl⟩ := Option.map_eq_some_iff.1 hbound
      exact ⟨rfl, h.bound (List.mem_of_find?_eq_some hb)⟩

theorem proceeds_beginBound (h : s.Sane) (t : ThreadId) (k : Nat) :
    s.Proceeds (s.beginBound t k).1 := by
  have hcurrent := (proceeds_current h t k).1
  simp only [beginBound]
  generalize s.current t k = r at hcurrent
  obtain ⟨s₁, _ | id⟩ := r
  · obtain ⟨hbegin, hbegun⟩ := proceeds_beginDetached hcurrent.sane t k
    exact (hcurrent.trans hbegin).trans (proceeds_bind hbegin.sane hbegun)
  · exact hcurrent

theorem proceeds_commitBound (h : s.Sane) (t : ThreadId) (k : Nat) :
    s.Proceeds (s.commitBound t k).1 := by
  obtain ⟨hcurrent, hfound⟩ := proceeds_current h t k
  simp only [commitBound]
  generalize s.current t k = r at hcurrent hfound
  obtain ⟨s₁, _ | id⟩ := r
  · exact hcurrent
  · obtain ⟨rfl, hid⟩ := hfound id rfl
    obtain ⟨tx, htx⟩ := isBegun_iff.1 hid
    have hcommit := proceeds_commitTransaction h htx
    simp only
    split
    · exact hcommit.trans (proceeds_unbind hcommit.sane t k)
    · exact hcommit

theorem proceeds_rollbackBound (h : s.Sane) (t : ThreadId) (k : Nat) :
    s.Proceeds (s.rollbackBound t k).1 := by
  obtain ⟨hcurrent, hfound⟩ := proceeds_current h t k
  simp only [rollbackBound]
  generalize s.current t k = r at hcurrent hfound
  obtain ⟨s₁, _ | id⟩ := r
  · exact hcurrent
  · obtain ⟨rfl, hid⟩ := hfound id rfl
    obtain ⟨tx, htx⟩ := isBegun_iff.1 hid
    have hunbind := proceeds_unbind h t k
    exact hunbind.trans (proceeds_rollbackTransaction hunbind.sane htx)

theorem proceeds_suspend (h : s.Sane) (t : ThreadId) (k : Nat) : s.Proceeds (s.suspend t k).1 := by
  have hcurrent := (proceeds_current h t k).1
  simp only [suspend]
  generalize s.current t k = r at hcurrent
  obtain ⟨s₁, _ | id⟩ := r
  · exact hcurrent
  · exact hcurrent.trans (proceeds_unbind hcurrent.sane t k)

theorem proceeds_resume (h : s.Sane) (hid : s.isBegun id = true) :
    s.Proceeds (s.resume t k id).1 := by
  have hcurrent := (proceeds_current h t k).1
  simp only [resume]
  split
  · exact .refl h
  · split
    · exact .refl h
    · generalize s.current t k = r at hcurrent
      obtain ⟨s₁, _ | other⟩ := r
      · exact hcurrent.trans (proceeds_bind hcurrent.sane (hcurrent.isBegun hid))
      · exact hcurrent

/-- A call alone changes no transaction. -/
theorem proceeds_callAlone (h : s.Sane) (t : ThreadId) (k : Nat) (options : Options)
    (o : Operation) : s.Proceeds (s.callAlone t k options o).1 := by
  have hsound := h.sound k
  obtain ⟨acts, hst⟩ := Base.staged_perform (b := (s.cache k).store.base)
    (w := ⟨(s.cache k).store.locks, { Context.ofThread t with options }⟩) hsound
    Workspace.tidy_empty o
  have htidy := hst.tidy hsound Workspace.tidy_empty
  -- whichever way the call ends, one store takes the place of another
  have hset : ∀ {store : Store} {sent : List Delivery}, store.tree.Sound →
      s.Proceeds ((s.setStore k store).note sent) := fun hstore =>
    .of_same h (sound_setStore h _ hstore) rfl rfl fun _ hb => .inl hb
  dsimp only at htidy
  simp only [callAlone]
  generalize (s.cache k).store.base.perform _ o = r at htidy ⊢
  split
  · exact hset hsound
  · have hcommit := (Store.commit_sane (s := { (s.cache k).store with locks := r.1.locks }) hsound
      htidy).1
    split
    · exact hset hcommit
    · exact hset hcommit

theorem proceeds_call (h : s.Sane) (t : ThreadId) (k : Nat) (options : Option Options)
    (o : Operation) : s.Proceeds (s.call t k options o).1 := by
  obtain ⟨hcurrent, hfound⟩ := proceeds_current h t k
  simp only [call]
  generalize s.current t k = r at hcurrent hfound
  obtain ⟨s₁, _ | id⟩ := r
  · exact hcurrent.trans (proceeds_callAlone hcurrent.sane t k _ o)
  · obtain ⟨rfl, hid⟩ := hfound id rfl
    obtain ⟨tx, htx⟩ := isBegun_iff.1 hid
    cases options with
    | none => exact proceeds_performIn h htx o
    | some options => exact proceeds_performWith h htx options o

/-! ### Runs -/

/-- Setting the options of a transaction changes only these. -/
theorem Sane.setOptions (h : s.Sane) (hid : s.transactions.get? id = some tx) (options : Options) :
    (s.setOptions id options).Sane := by
  have hget : ∀ other, (s.setOptions id options).transactions.get? other =
      if other = id then some { tx with context := { tx.context with options } }
      else s.transactions.get? other := by
    intro other
    simp only [Session.setOptions, setTransaction, transaction_eq hid, SortedMap.get?_insert]
  refine ⟨h.sound, fun {other new} hnew => ?_, fun {other new} hnew => ?_, fun {b} hb => ?_⟩
  · rw [hget] at hnew
    split at hnew
    · obtain rfl := Option.some.inj hnew
      have htidy := h.tidy hid
      exact htidy
    · exact h.tidy hnew
  · rw [hget] at hnew
    split at hnew
    · rename_i heq
      rw [heq]
      exact h.earlier hid
    · exact h.earlier hnew
  · obtain ⟨old, hold⟩ := isBegun_iff.1 (h.bound hb)
    rw [isBegun_iff, hget]
    split
    · exact ⟨_, rfl⟩
    · exact ⟨old, hold⟩

/-- A step of a transaction that was begun, or none. -/
theorem proceeds_within {f : Session → Session} (h : s.Sane)
    (hf : ∀ tx, s.transactions.get? id = some tx → s.Proceeds (f s)) :
    s.Proceeds (s.within id f) := by
  rw [within]
  split
  · rename_i hid
    obtain ⟨tx, htx⟩ := isBegun_iff.1 hid
    exact hf tx htx
  · exact .refl h

/-- **Only setting the options of a transaction changes them.** -/
theorem proceeds_take {step : SessionStep} (h : s.Sane)
    (hstep : ∀ id options, step ≠ .setOptions id options) : s.Proceeds (s.take step) := by
  cases step with
  | beginBound t k handle =>
      have hbegin := proceeds_beginBound h t k
      simp only [take]
      generalize s.beginBound t k = r at hbegin
      obtain ⟨s₁, _ | id⟩ := r
      · exact hbegin
      · exact hbegin.trans (proceeds_keep hbegin.sane handle id)
  | beginDetached t k handle =>
      have hbegin := (proceeds_beginDetached h t k).1
      exact hbegin.trans (proceeds_keep hbegin.sane handle _)
  | call t k options o => exact proceeds_call h t k options o
  | perform id o =>
      exact proceeds_within (f := fun s => (s.performIn id o).1) h fun tx htx =>
        proceeds_performIn h htx o
  | setOptions id options => exact absurd rfl (hstep id options)
  | commitBound t k => exact proceeds_commitBound h t k
  | rollbackBound t k => exact proceeds_rollbackBound h t k
  | commit id =>
      exact proceeds_within (f := fun s => (s.commitTransaction id).1) h fun tx htx =>
        proceeds_commitTransaction h htx
  | rollback id =>
      exact proceeds_within (f := fun s => (s.rollbackTransaction id).1) h fun tx htx =>
        proceeds_rollbackTransaction h htx
  | suspend t k handle =>
      have hsuspend := proceeds_suspend h t k
      simp only [take]
      generalize s.suspend t k = r at hsuspend
      obtain ⟨s₁, _ | id⟩ := r
      · exact hsuspend
      · exact hsuspend.trans (proceeds_keep hsuspend.sane handle id)
  | resume t k id =>
      exact proceeds_within (f := fun s => (s.resume t k id).1) h fun tx htx =>
        proceeds_resume h (isBegun_iff.2 ⟨tx, htx⟩)
  | endThread name => exact proceeds_endThread h name
  | name handle id =>
      exact proceeds_within (f := fun s => s.name handle id) h fun _ _ => proceeds_name h handle id
  | drop handle => exact proceeds_letGo h rfl rfl rfl fun _ hb => hb
  | addListener k name =>
      exact .of_same h (sound_setStore h _ (h.sound k)) rfl rfl fun _ hb => .inl hb
  | removeListener k name =>
      exact .of_same h (sound_setStore h _ (h.sound k)) rfl rfl fun _ hb => .inl hb
  | purge k => exact .of_same h (sound_setStore h _ (h.sound k).purge) rfl rfl fun _ hb => .inl hb

/-- The options that are the own ones of a transaction after a step. -/
def ownAfter (id : TransactionId) (own : Options) : SessionStep → Options
  | .setOptions other options => if other = id then options else own
  | _ => own

/-- **The options that a transaction was last given as its own**, if it had `own` before. -/
def lastSet (id : TransactionId) (own : Options) (steps : List SessionStep) : Options :=
  steps.foldl (ownAfter id) own

/-- **What a step leaves of a transaction.** -/
theorem transaction_take (h : s.Sane) (hid : s.transactions.get? id = some tx)
    (step : SessionStep) : (s.take step).Sane ∧ ∃ tx',
      (s.take step).transactions.get? id = some tx' ∧ tx'.cache = tx.cache ∧
        tx'.context.options = ownAfter id tx.context.options step := by
  by_cases hset : ∃ other options, step = .setOptions other options
  · obtain ⟨other, options, rfl⟩ := hset
    simp only [take, within, ownAfter]
    split
    · rename_i hother
      obtain ⟨old, hold⟩ := isBegun_iff.1 hother
      refine ⟨h.setOptions hold options, ?_⟩
      simp only [Session.setOptions, setTransaction, transaction_eq hold, SortedMap.get?_insert]
      by_cases heq : other = id
      · subst heq
        obtain rfl := Option.some.inj (hid.symm.trans hold)
        exact ⟨_, if_pos rfl, rfl, (if_pos rfl).symm⟩
      · exact ⟨tx, by rw [if_neg (Ne.symm heq)]; exact hid, rfl, (if_neg heq).symm⟩
    · rename_i hother
      have hne : other ≠ id := by
        rintro rfl
        exact hother (isBegun_iff.2 ⟨tx, hid⟩)
      exact ⟨h, tx, hid, rfl, (if_neg hne).symm⟩
  · have hne : ∀ other options, step ≠ .setOptions other options :=
      fun other options heq => hset ⟨other, options, heq⟩
    have hgo := proceeds_take h hne
    obtain ⟨tx', hid', hcache, hopts⟩ := hgo.kept hid
    refine ⟨hgo.sane, tx', hid', hcache, hopts.trans ?_⟩
    cases step with
    | setOptions other options => exact absurd rfl (hne other options)
    | _ => rfl

/-- **Each step keeps the invariant.** -/
theorem Sane.take (h : s.Sane) (step : SessionStep) : (s.take step).Sane := by
  by_cases hset : ∃ id options, step = .setOptions id options
  · obtain ⟨id, options, rfl⟩ := hset
    simp only [Session.take, within]
    split
    · rename_i hid
      obtain ⟨tx, htx⟩ := isBegun_iff.1 hid
      exact h.setOptions htx options
    · exact h
  · exact (proceeds_take h fun id options heq => hset ⟨id, options, heq⟩).sane

theorem Sane.run (h : s.Sane) (steps : List SessionStep) : (s.run steps).Sane := by
  induction steps generalizing s with
  | nil => exact h
  | cons step steps ih => exact ih (h.take step)

/-- **What a run leaves of a transaction**: it stays one of its cache, with the options that it was
last given as its own. -/
theorem transaction_run (h : s.Sane) (hid : s.transactions.get? id = some tx)
    (steps : List SessionStep) : ∃ tx', (s.run steps).transactions.get? id = some tx' ∧
      tx'.cache = tx.cache ∧ tx'.context.options = lastSet id tx.context.options steps := by
  induction steps generalizing s tx with
  | nil => exact ⟨tx, hid, rfl, rfl⟩
  | cons step steps ih =>
      obtain ⟨hs, tx₁, hid₁, hcache₁, hopts₁⟩ := transaction_take h hid step
      obtain ⟨tx', hid', hcache', hopts'⟩ := ih hs hid₁
      refine ⟨tx', hid', hcache'.trans hcache₁, hopts'.trans ?_⟩
      rw [hopts₁]
      rfl

theorem sane_ofConfigs (configs : List Config) (hash : Path → UInt64) :
    (ofConfigs configs hash).Sane where
  sound k := by
    simp only [ofConfigs, cache, List.getD_eq_getElem?_getD, List.getElem?_map]
    cases configs[k]? with
    | none => exact CommittedTree.sound_empty
    | some c => exact CommittedTree.sound_empty
  tidy hid := by simp [ofConfigs] at hid
  earlier hid := by simp [ofConfigs] at hid
  bound hb := by simp [ofConfigs] at hb

end Session

end TransactionalTree
