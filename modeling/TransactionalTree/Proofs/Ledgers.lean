/-
**The accounts of a session.**

The transactions of a cache hold its locks, each of them once for each path that it has noted, and
outside of a call nobody else holds one.  A transaction that has ended has given back all locks and
keeps no workspace.  The counts of a cache are those of its transactions.

Main definitions:

* `Status.leadsTo` — what can become of a transaction in this state;
* `TransactionCounts.Tally` — the counts are those of the listed transactions;
* `Session.Orderly` — **the invariant**: locks, bindings and counts agree with the transactions;
* `Session.Advances` — the session has gone on: the invariant holds, no transaction has gone back,
  and so many more commits were counted as refused for write skew.

Main results:

* `Session.Orderly.not_owns` — a transaction that has ended holds no lock of any cache;
* `Session.Advances.of_same`, `Session.Changes.advances`, `Session.advances_beginDetached` — what
  may happen to a session: nothing to its transactions, something to one of them, or a new one.
-/

import TransactionalTree.Proofs.Accounts
import TransactionalTree.Proofs.Sessions

set_option relaxedAutoImplicit false
set_option autoImplicit false

namespace TransactionalTree

/-! ### The states of a transaction -/

namespace Status

/-- Whether a transaction in the first state may be in the second one later: one that is active may
end or be marked for rollback, and one that is marked may be rolled back. -/
def leadsTo : Status → Status → Bool
  | active, _ => true
  | markedRollback, new => new = markedRollback || new = rolledBack
  | committed, new => new = committed
  | rolledBack, new => new = rolledBack

theorem leadsTo_refl (a : Status) : a.leadsTo a = true := by
  cases a <;> rfl

theorem leadsTo_trans {a b c : Status} (h : a.leadsTo b = true) (h' : b.leadsTo c = true) :
    a.leadsTo c = true := by
  cases a <;> cases b <;> simp_all [leadsTo]

/-- Whatever has not ended may be rolled back. -/
theorem leadsTo_rolledBack {a : Status} (h : a.isCompleted = false) :
    a.leadsTo rolledBack = true := by
  cases a <;> simp_all [leadsTo, isCompleted]

end Status

/-! ### Counts -/

namespace TransactionCounts

/-- The counts after a transaction that had not ended has come to this state. -/
def after (n : TransactionCounts) : Status → TransactionCounts
  | .committed => n.commit
  | .rolledBack => n.rollback
  | .active => n
  | .markedRollback => n

/-- **The counts are those of the listed transactions**, as far as they are of this cache. -/
structure Tally (n : TransactionCounts) (k : Nat) (txs : List Transaction) : Prop where
  /-- Those that have not ended. -/
  active : n.active = txs.countP fun tx => tx.cache = k && !tx.status.isCompleted
  /-- All of them. -/
  started : n.started = txs.countP fun tx => tx.cache = k
  /-- Those that are committed. -/
  committed : n.committed = txs.countP fun tx => tx.cache = k && tx.status = .committed
  /-- Those that are rolled back. -/
  rolledBack : n.rolledBack = txs.countP fun tx => tx.cache = k && tx.status = .rolledBack

namespace Tally

variable {n : TransactionCounts} {k : Nat} {txs txs' : List Transaction} {tx tx' : Transaction}

/-- Each transaction has ended in one of the two ways, or has not ended. -/
theorem total (h : n.Tally k txs) : n.started = n.active + n.committed + n.rolledBack := by
  rw [h.started, h.active, h.committed, h.rolledBack]
  clear h
  induction txs with
  | nil => rfl
  | cons tx txs ih =>
      simp only [List.countP_cons, ih]
      by_cases hk : tx.cache = k
      · cases tx.status <;> simp [hk, Status.isCompleted] <;> omega
      · simp [hk]

theorem countP_replace (P : Transaction → Bool) (h : (tx :: txs').Perm (tx' :: txs)) :
    (txs'.countP P + if P tx then 1 else 0) = txs.countP P + if P tx' then 1 else 0 := by
  have hcount := h.countP_eq P
  rwa [List.countP_cons, List.countP_cons] at hcount

/-- A transaction of another cache is of no matter, nor is one that stays in its state. -/
theorem kept (h : n.Tally k txs) (hperm : (tx :: txs').Perm (tx' :: txs))
    (hcache : tx'.cache = tx.cache) (hsame : tx.cache ≠ k ∨ tx'.status = tx.status) :
    n.Tally k txs' := by
  have hcount : ∀ P : Transaction → Bool, P tx' = P tx → txs'.countP P = txs.countP P := by
    intro P hP
    have hreplace := countP_replace P hperm
    rw [hP] at hreplace
    omega
  constructor
  · rw [hcount, h.active]
    rcases hsame with hk | hs <;> simp [*]
  · rw [hcount, h.started]
    simp [hcache]
  · rw [hcount, h.committed]
    rcases hsame with hk | hs <;> simp [*]
  · rw [hcount, h.rolledBack]
    rcases hsame with hk | hs <;> simp [*]

/-- A transaction that had not ended comes to another state, and is counted. -/
theorem moved (h : n.Tally k txs) (hperm : (tx :: txs').Perm (tx' :: txs))
    (hcache : tx'.cache = tx.cache) (hk : tx.cache = k) (hopen : tx.status.isCompleted = false) :
    (n.after tx'.status).Tally k txs' := by
  have hnot : ∀ status, status.isCompleted = true → tx.status ≠ status := fun status hdone heq => by
    rw [heq, hdone] at hopen
    simp at hopen
  have hk' : tx'.cache = k := hcache.trans hk
  have hactive : (txs'.countP fun tx => tx.cache = k && !tx.status.isCompleted) + 1 =
      n.active + if tx'.status.isCompleted = false then 1 else 0 := by
    have hreplace := countP_replace (fun tx => tx.cache = k && !tx.status.isCompleted) hperm
    simpa [← h.active, hk, hk', hopen] using hreplace
  have hstarted : (txs'.countP fun tx => tx.cache = k) = n.started := by
    have hreplace := countP_replace (fun tx => tx.cache = k) hperm
    simpa [← h.started, hk, hk'] using hreplace
  have hcommitted : (txs'.countP fun tx => tx.cache = k && tx.status = .committed) =
      n.committed + if tx'.status = .committed then 1 else 0 := by
    have hreplace := countP_replace (fun tx => tx.cache = k && tx.status = .committed) hperm
    simpa [← h.committed, hk, hk', hnot .committed rfl] using hreplace
  have hrolled : (txs'.countP fun tx => tx.cache = k && tx.status = .rolledBack) =
      n.rolledBack + if tx'.status = .rolledBack then 1 else 0 := by
    have hreplace := countP_replace (fun tx => tx.cache = k && tx.status = .rolledBack) hperm
    simpa [← h.rolledBack, hk, hk', hnot .rolledBack rfl] using hreplace
  have hpos : tx'.status.isCompleted = true → 1 ≤ n.active := by
    intro hdone
    rw [hdone, if_neg (by simp)] at hactive
    omega
  have hleft : (n.after tx'.status).active + 1 =
      n.active + if tx'.status.isCompleted = false then 1 else 0 := by
    cases hnew : tx'.status with
    | active => rfl
    | markedRollback => rfl
    | committed => exact Nat.sub_add_cancel (hpos (by rw [hnew]; rfl))
    | rolledBack => exact Nat.sub_add_cancel (hpos (by rw [hnew]; rfl))
  refine ⟨by omega, ?_, hcommitted ▸ ?_, hrolled ▸ ?_⟩
  · rw [hstarted]
    cases tx'.status <;> rfl
  · cases tx'.status <;> rfl
  · cases tx'.status <;> rfl

/-- Refusals for write skew are counted apart. -/
theorem abort (h : n.Tally k txs) : n.abort.Tally k txs :=
  ⟨h.active, h.started, h.committed, h.rolledBack⟩

/-- A new transaction is counted. -/
theorem start (h : n.Tally k txs) (hperm : txs'.Perm (tx :: txs)) (hk : tx.cache = k)
    (ha : tx.status = .active) : n.start.Tally k txs' := by
  have hcount := fun P : Transaction → Bool => hperm.countP_eq P
  constructor
  · simp [TransactionCounts.start, hcount, h.active, hk, ha, Status.isCompleted]
  · simp [TransactionCounts.start, hcount, h.started, hk]
  · simp [TransactionCounts.start, hcount, h.committed, ha]
  · simp [TransactionCounts.start, hcount, h.rolledBack, ha]

/-- A new transaction of another cache is of no matter. -/
theorem start_other (h : n.Tally k txs) (hperm : txs'.Perm (tx :: txs)) (hk : tx.cache ≠ k) :
    n.Tally k txs' := by
  have hcount := fun P : Transaction → Bool => hperm.countP_eq P
  constructor
  · simp [hcount, h.active, hk]
  · simp [hcount, h.started, hk]
  · simp [hcount, h.committed, hk]
  · simp [hcount, h.rolledBack, hk]

end Tally

end TransactionCounts

/-! ### The invariant -/

theorem Work.noted_congr {m m' : LockManager} (h : m'.table.striping = m.table.striping)
    (c : Context) (key : LockKey) : Work.noted ⟨m', c⟩ key = Work.noted ⟨m, c⟩ key := by
  rw [Work.noted, Work.noted, LockTable.keyOf_congr h]

namespace Session

/-- **The invariant**: locks, bindings and counts agree with the transactions. -/
structure Orderly (s : Session) : Prop where
  /-- Transactions have smaller numbers than the next one. -/
  earlier : ∀ {id tx}, s.transactions.get? id = some tx → id < s.nextTransaction
  /-- A transaction locks for itself. -/
  owner : ∀ {id tx}, s.transactions.get? id = some tx → tx.context.owner = .transaction id
  /-- Threads are bound to transactions of the cache for which they are bound. -/
  bound : ∀ {b}, b ∈ s.bindings →
    ∃ tx, s.transactions.get? b.transaction = some tx ∧ tx.cache = b.cache
  /-- A transaction that has ended has noted no locks and keeps no workspace. -/
  ended : ∀ {id tx}, s.transactions.get? id = some tx → tx.status.isCompleted = true →
    tx.context.locked = .empty ∧ tx.context.workspace = .empty
  /-- A transaction holds each lock once for each path under it that it has noted. -/
  held : ∀ {id tx}, s.transactions.get? id = some tx → tx.cache < s.caches.length → ∀ key,
    (s.cache tx.cache).store.locks.table.heldBy key (.transaction id) =
      Work.noted ⟨(s.cache tx.cache).store.locks, tx.context⟩ key
  /-- Nobody else holds a lock. -/
  free : ∀ k < s.caches.length, ∀ o,
    (∀ id tx, s.transactions.get? id = some tx → tx.cache = k → o ≠ .transaction id) →
    ∀ key, (s.cache k).store.locks.table.heldBy key o = 0
  /-- The counts are those of the transactions. -/
  tally : ∀ k < s.caches.length, (s.cache k).counts.Tally k s.transactions.values

/-- **The session has gone on**: the invariant holds, each transaction is in a state to which the
earlier one leads, and so many more commits of the caches were counted as refused for write skew. -/
structure Advances (s : Session) (refused : Nat → Nat) (s' : Session) : Prop where
  /-- The invariant holds afterwards. -/
  orderly : s'.Orderly
  /-- There are as many caches as before. -/
  length : s'.caches.length = s.caches.length
  /-- No transaction is forgotten, and none has gone back. -/
  leads : ∀ {id tx}, s.transactions.get? id = some tx →
    ∃ tx', s'.transactions.get? id = some tx' ∧ tx.status.leadsTo tx'.status = true
  /-- What is refused for write skew is counted. -/
  aborts : ∀ k < s.caches.length,
    (s'.cache k).counts.skewAborts = (s.cache k).counts.skewAborts + refused k

variable {s s' s'' : Session} {id other : TransactionId} {tx tx' : Transaction} {t : ThreadId}
variable {k j : Nat} {o : Owner} {refused refused' : Nat → Nat} {c' : Cache}

theorem cache_of_caches (h : s'.caches = s.caches.set k c') (hj : j < s.caches.length) :
    s'.cache j = if j = k then c' else s.cache j := by
  simp only [cache, h, List.getD_eq_getElem?_getD, List.getElem?_set]
  by_cases hk : k = j
  · simp [hk, hj]
  · simp [hk, Ne.symm hk]

/-- Putting a cache back changes nothing. -/
theorem caches_set_self (s : Session) (k : Nat) : s.caches.set k (s.cache k) = s.caches := by
  by_cases hk : k < s.caches.length
  · simp [cache, hk]
  · exact List.set_eq_of_length_le (Nat.le_of_not_lt hk)

/-- Replacing a cache and counting is replacing it by one that has counted. -/
theorem caches_count (s : Session) (k : Nat) (c : Cache)
    (f : TransactionCounts → TransactionCounts) :
    ((s.setCache k c).count k f).caches = s.caches.set k { c with counts := f c.counts } := by
  by_cases hk : k < s.caches.length
  · simp [count, setCache, cache, hk]
  · simp [count, setCache, List.set_eq_of_length_le (Nat.le_of_not_lt hk)]

/-- Counting nothing changes nothing. -/
theorem count_nothing (s : Session) (k : Nat) : s.count k (fun n => n) = s := by
  rw [count, setCache]
  exact congrArg (fun caches => { s with caches }) (caches_set_self s k)

namespace Orderly

/-- What a transaction has noted it holds. -/
theorem accounted (h : s.Orderly) (hid : s.transactions.get? id = some tx)
    (hk : tx.cache < s.caches.length) :
    Work.Accounted ⟨(s.cache tx.cache).store.locks, tx.context⟩ := by
  intro key
  have hheld := h.held hid hk key
  simp only [h.owner hid, hheld]
  exact Nat.le_refl _

/-- **A transaction that has ended holds no lock**, of whatever cache. -/
theorem not_owns (h : s.Orderly) (hid : s.transactions.get? id = some tx)
    (hdone : tx.status.isCompleted = true) (k : Nat) (p : Path) :
    (s.cache k).store.locks.table.owns p (.transaction id) = false := by
  have hzero : ∀ key, (s.cache k).store.locks.table.heldBy key (.transaction id) = 0 := by
    intro key
    by_cases hk : k < s.caches.length
    · by_cases hcache : tx.cache = k
      · subst hcache
        rw [h.held hid hk, Work.noted, (h.ended hid hdone).1]
        rfl
      · refine h.free k hk _ (fun other tx' hother hk' heq => ?_) key
        obtain rfl := Owner.transaction.inj heq
        obtain rfl := Option.some.inj (hid.symm.trans hother)
        exact hcache hk'
    -- there is no such cache
    · have hnone : s.cache k = default := by
        rw [cache, List.getD_eq_getElem?_getD, List.getElem?_eq_none (Nat.le_of_not_lt hk)]
        rfl
      rw [hnone]
      rfl
  rw [LockTable.owns, ← Bool.not_eq_true, Lock.isHeldBy_iff]
  exact Nat.not_lt.2 (Nat.le_of_eq (hzero _))

end Orderly

/-! ### What may happen to a session -/

namespace Advances

theorem trans (h : s.Advances refused s') (h' : s'.Advances refused' s'') :
    s.Advances (fun k => refused k + refused' k) s'' where
  orderly := h'.orderly
  length := h'.length.trans h.length
  leads hid := by
    obtain ⟨tx', hid', hleads⟩ := h.leads hid
    obtain ⟨tx'', hid'', hleads'⟩ := h'.leads hid'
    exact ⟨tx'', hid'', Status.leadsTo_trans hleads hleads'⟩
  aborts k hk := by
    rw [h'.aborts k (by rw [h.length]; exact hk), h.aborts k hk, Nat.add_assoc]

theorem isBegun (h : s.Advances refused s') (hid : s.isBegun id = true) :
    s'.isBegun id = true := by
  obtain ⟨tx, htx⟩ := isBegun_iff.1 hid
  obtain ⟨tx', htx', -⟩ := h.leads htx
  exact isBegun_iff.2 ⟨tx', htx'⟩

/-- Nothing happens to the transactions, and each lock is held as often as before by everyone. -/
theorem of_same (h : s.Orderly) (htx : s'.transactions = s.transactions)
    (hnext : s'.nextTransaction = s.nextTransaction)
    (hb : ∀ b ∈ s'.bindings, b ∈ s.bindings ∨
      ∃ tx, s.transactions.get? b.transaction = some tx ∧ tx.cache = b.cache)
    (hlen : s'.caches.length = s.caches.length)
    (hcaches : ∀ k < s.caches.length, (s'.cache k).counts = (s.cache k).counts ∧
      (s'.cache k).store.locks.table.striping = (s.cache k).store.locks.table.striping ∧
      ∀ key o, (s'.cache k).store.locks.table.heldBy key o =
        (s.cache k).store.locks.table.heldBy key o) : s.Advances (fun _ => 0) s' where
  orderly := by
    refine ⟨fun hid => ?_, fun hid => ?_, fun hmem => ?_, fun hid => ?_,
      fun {id tx} hid hk key => ?_, fun k hk o hfree key => ?_, fun k hk => ?_⟩
    · rw [htx] at hid
      rw [hnext]
      exact h.earlier hid
    · rw [htx] at hid
      exact h.owner hid
    · rw [htx]
      exact (hb _ hmem).elim h.bound fun hbound => hbound
    · rw [htx] at hid
      exact h.ended hid
    · rw [htx] at hid
      rw [hlen] at hk
      obtain ⟨-, hstriping, hheld⟩ := hcaches tx.cache hk
      rw [hheld, Work.noted_congr hstriping]
      exact h.held hid hk key
    · rw [htx] at hfree
      rw [hlen] at hk
      rw [(hcaches k hk).2.2]
      exact h.free k hk o hfree key
    · rw [hlen] at hk
      rw [htx, (hcaches k hk).1]
      exact h.tally k hk
  length := hlen
  leads hid := ⟨_, by rw [htx]; exact hid, Status.leadsTo_refl _⟩
  aborts k hk := by rw [(hcaches k hk).1, Nat.add_zero]

/-- Nothing happens to the transactions and to the caches. -/
theorem of_bindings (h : s.Orderly) (htx : s'.transactions = s.transactions)
    (hnext : s'.nextTransaction = s.nextTransaction) (hcaches : s'.caches = s.caches)
    (hb : ∀ b ∈ s'.bindings, b ∈ s.bindings ∨
      ∃ tx, s.transactions.get? b.transaction = some tx ∧ tx.cache = b.cache) :
    s.Advances (fun _ => 0) s' := by
  have hcache : ∀ k, s'.cache k = s.cache k := fun k => by rw [cache, cache, hcaches]
  refine of_same h htx hnext hb (by rw [hcaches]) fun k _ => ?_
  rw [hcache]
  exact ⟨rfl, rfl, fun _ _ => rfl⟩

theorem refl (h : s.Orderly) : s.Advances (fun _ => 0) s :=
  of_bindings h rfl rfl rfl fun _ hb => .inl hb

end Advances

/-! ### One transaction does something -/

/-- **One transaction does something**: it takes and gives back locks of its cache and notes it, and
all else is as before. -/
structure Changes (s : Session) (id : TransactionId) (tx tx' : Transaction) (c' : Cache)
    (s' : Session) : Prop where
  /-- It was there before. -/
  before : s.transactions.get? id = some tx
  /-- It stays one of its cache. -/
  cache : tx'.cache = tx.cache
  /-- No other transaction has changed. -/
  transactions : s'.transactions = s.transactions.insert id tx'
  /-- None has been begun. -/
  next : s'.nextTransaction = s.nextTransaction
  /-- Threads are bound as before. -/
  bindings : s'.bindings = s.bindings
  /-- No other cache has changed. -/
  caches : s'.caches = s.caches.set tx.cache c'
  /-- The locks of others stay. -/
  balanced : Work.Balanced ⟨(s.cache tx.cache).store.locks, tx.context⟩
    ⟨c'.store.locks, tx'.context⟩
  /-- What it comes to hold it notes. -/
  conserves : Work.Accounted ⟨(s.cache tx.cache).store.locks, tx.context⟩ →
    Work.Conserves ⟨(s.cache tx.cache).store.locks, tx.context⟩ ⟨c'.store.locks, tx'.context⟩

namespace Changes

theorem length (h : s.Changes id tx tx' c' s') : s'.caches.length = s.caches.length := by
  rw [h.caches, List.length_set]

theorem get? (h : s.Changes id tx tx' c' s') (other : TransactionId) :
    s'.transactions.get? other = if other = id then some tx' else s.transactions.get? other := by
  rw [h.transactions, SortedMap.get?_insert]

/-- A transaction afterwards is the one that has changed, or was there before. -/
theorem of_get? (h : s.Changes id tx tx' c' s') {new : Transaction}
    (hnew : s'.transactions.get? other = some new) :
    other = id ∧ new = tx' ∨ other ≠ id ∧ s.transactions.get? other = some new := by
  rw [h.get?] at hnew
  split at hnew
  · rename_i heq
    exact .inl ⟨heq, (Option.some.inj hnew).symm⟩
  · rename_i hne
    exact .inr ⟨hne, hnew⟩

/-- What a transaction has become. -/
theorem exists_get? (h : s.Changes id tx tx' c' s') {old : Transaction}
    (hold : s.transactions.get? other = some old) :
    ∃ new, s'.transactions.get? other = some new ∧ (new = old ∨ old = tx ∧ new = tx') := by
  rw [h.get?]
  split
  · rename_i heq
    rw [heq] at hold
    exact ⟨tx', rfl, .inr ⟨Option.some.inj (hold.symm.trans h.before), rfl⟩⟩
  · exact ⟨old, hold, .inl rfl⟩

theorem cache_self (h : s.Changes id tx tx' c' s') (hk : tx.cache < s.caches.length) :
    s'.cache tx.cache = c' :=
  (cache_of_caches h.caches hk).trans (if_pos rfl)

theorem cache_of_ne (h : s.Changes id tx tx' c' s') (hk : k < s.caches.length)
    (hne : k ≠ tx.cache) : s'.cache k = s.cache k :=
  (cache_of_caches h.caches hk).trans (if_neg hne)

/-- The transaction holds what it has come to note. -/
theorem held_self (h : s.Changes id tx tx' c' s') (hs : s.Orderly)
    (hk : tx.cache < s.caches.length) (key : LockKey) :
    c'.store.locks.table.heldBy key (.transaction id) =
      Work.noted ⟨c'.store.locks, tx'.context⟩ key := by
  have hheld := (h.conserves (hs.accounted h.before hk)).held key
  simp only [hs.owner h.before, hs.held h.before hk] at hheld
  omega

/-- Everyone else holds what he has held before. -/
theorem heldBy_of_ne (h : s.Changes id tx tx' c' s') (hs : s.Orderly) (hk : k < s.caches.length)
    (ho : tx.cache = k → o ≠ .transaction id) (key : LockKey) :
    (s'.cache k).store.locks.table.heldBy key o =
      (s.cache k).store.locks.table.heldBy key o := by
  by_cases hsame : k = tx.cache
  · subst hsame
    rw [h.cache_self hk]
    refine h.balanced.others key o ?_
    rw [hs.owner h.before]
    exact ho rfl
  · rw [h.cache_of_ne hk hsame]

theorem striping (h : s.Changes id tx tx' c' s') (hk : k < s.caches.length) :
    (s'.cache k).store.locks.table.striping = (s.cache k).store.locks.table.striping := by
  by_cases hsame : k = tx.cache
  · subst hsame
    rw [h.cache_self hk]
    exact h.balanced.striping
  · rw [h.cache_of_ne hk hsame]

/-- The locks still agree with the transactions. -/
theorem held (h : s.Changes id tx tx' c' s') (hs : s.Orderly) {new : Transaction}
    (hnew : s'.transactions.get? other = some new) (hk : new.cache < s.caches.length)
    (key : LockKey) : (s'.cache new.cache).store.locks.table.heldBy key (.transaction other) =
      Work.noted ⟨(s'.cache new.cache).store.locks, new.context⟩ key := by
  rcases h.of_get? hnew with ⟨rfl, rfl⟩ | ⟨hne, hold⟩
  · rw [h.cache] at hk ⊢
    rw [h.cache_self hk]
    exact h.held_self hs hk key
  · rw [h.heldBy_of_ne hs hk fun _ heq => hne (Owner.transaction.inj heq),
      Work.noted_congr (h.striping hk)]
    exact hs.held hold hk key

/-- Still nobody else holds a lock. -/
theorem free (h : s.Changes id tx tx' c' s') (hs : s.Orderly) (hk : k < s.caches.length)
    (hfree : ∀ id new, s'.transactions.get? id = some new → new.cache = k → o ≠ .transaction id)
    (key : LockKey) : (s'.cache k).store.locks.table.heldBy key o = 0 := by
  have hself : tx.cache = k → o ≠ .transaction id := fun hcache =>
    hfree id tx' (by rw [h.get?, if_pos rfl]) (h.cache.trans hcache)
  rw [h.heldBy_of_ne hs hk hself]
  refine hs.free k hk o (fun other old hold hcache => ?_) key
  obtain ⟨new, hnew, rfl | ⟨rfl, rfl⟩⟩ := h.exists_get? hold
  · exact hfree other new hnew hcache
  · exact hfree other new hnew (h.cache.trans hcache)

/-- The counts still are those of the transactions, if the change is counted. -/
theorem tally (h : s.Changes id tx tx' c' s') (hs : s.Orderly)
    (hcounts : ∀ txs txs', (tx :: txs').Perm (tx' :: txs) →
      (s.cache tx.cache).counts.Tally tx.cache txs → c'.counts.Tally tx.cache txs')
    (hk : k < s.caches.length) : (s'.cache k).counts.Tally k s'.transactions.values := by
  have hperm : (tx :: s'.transactions.values).Perm (tx' :: s.transactions.values) := by
    rw [h.transactions]
    exact SortedMap.values_insert_perm h.before
  by_cases hsame : k = tx.cache
  · subst hsame
    rw [h.cache_self hk]
    exact hcounts _ _ hperm (hs.tally _ hk)
  · rw [h.cache_of_ne hk hsame]
    exact (hs.tally k hk).kept hperm h.cache (.inl (Ne.symm hsame))

/-- **What one transaction does keeps the accounts**, if it goes on, is counted, and has given all
back when it has ended. -/
theorem advances (h : s.Changes id tx tx' c' s') (hs : s.Orderly)
    (hleads : tx.status.leadsTo tx'.status = true)
    (hended : tx'.status.isCompleted = true →
      tx'.context.locked = .empty ∧ tx'.context.workspace = .empty)
    (hcounts : ∀ txs txs', (tx :: txs').Perm (tx' :: txs) →
      (s.cache tx.cache).counts.Tally tx.cache txs → c'.counts.Tally tx.cache txs')
    (hskew : tx.cache < s.caches.length →
      c'.counts.skewAborts = (s.cache tx.cache).counts.skewAborts + refused tx.cache)
    (hzero : ∀ k, k ≠ tx.cache → refused k = 0) : s.Advances refused s' where
  orderly := by
    refine ⟨fun {other new} hnew => ?_, fun {other new} hnew => ?_, fun {b} hmem => ?_,
      fun {other new} hnew hdone => ?_, fun hnew hk key => ?_, fun k hk o hfree key => ?_,
      fun k hk => ?_⟩
    · rw [h.next]
      rcases h.of_get? hnew with ⟨rfl, -⟩ | ⟨-, hold⟩
      · exact hs.earlier h.before
      · exact hs.earlier hold
    · rcases h.of_get? hnew with ⟨rfl, rfl⟩ | ⟨-, hold⟩
      · exact h.balanced.owner.trans (hs.owner h.before)
      · exact hs.owner hold
    · rw [h.bindings] at hmem
      obtain ⟨old, hold, hk⟩ := hs.bound hmem
      obtain ⟨new, hnew, rfl | ⟨rfl, rfl⟩⟩ := h.exists_get? hold
      · exact ⟨new, hnew, hk⟩
      · exact ⟨new, hnew, h.cache.trans hk⟩
    · rcases h.of_get? hnew with ⟨rfl, rfl⟩ | ⟨-, hold⟩
      · exact hended hdone
      · exact hs.ended hold hdone
    · rw [h.length] at hk
      exact h.held hs hnew hk key
    · rw [h.length] at hk
      exact h.free hs hk hfree key
    · rw [h.length] at hk
      exact h.tally hs hcounts hk
  length := h.length
  leads hold := by
    obtain ⟨new, hnew, rfl | ⟨rfl, rfl⟩⟩ := h.exists_get? hold
    · exact ⟨new, hnew, Status.leadsTo_refl _⟩
    · exact ⟨new, hnew, hleads⟩
  aborts k hk := by
    by_cases hsame : k = tx.cache
    · subst hsame
      rw [h.cache_self hk]
      exact hskew hk
    · rw [h.cache_of_ne hk hsame, hzero k hsame, Nat.add_zero]

end Changes

/-! ### A transaction begins -/

/-- The number of the next transaction is not in use. -/
theorem Orderly.get?_next (h : s.Orderly) : s.transactions.get? s.nextTransaction = none := by
  cases hget : s.transactions.get? s.nextTransaction with
  | none => rfl
  | some old => exact absurd (h.earlier hget) (Nat.lt_irrefl _)

theorem get?_beginDetached : (s.beginDetached t k).1.transactions.get? other =
    if other = s.nextTransaction then some ⟨k, .active, .ofTransaction t s.nextTransaction⟩
    else s.transactions.get? other :=
  SortedMap.get?_insert

/-- A transaction afterwards is new, or was there before. -/
theorem of_get?_beginDetached (hid : (s.beginDetached t k).1.transactions.get? other = some tx) :
    other = s.nextTransaction ∧ tx = ⟨k, .active, .ofTransaction t s.nextTransaction⟩ ∨
      s.transactions.get? other = some tx := by
  rw [get?_beginDetached] at hid
  split at hid
  · rename_i heq
    exact .inl ⟨heq, (Option.some.inj hid).symm⟩
  · exact .inr hid

theorem get?_beginDetached_of_some (h : s.Orderly) (hid : s.transactions.get? other = some tx) :
    (s.beginDetached t k).1.transactions.get? other = some tx := by
  rw [get?_beginDetached, if_neg]
  · exact hid
  · rintro rfl
    rw [h.get?_next] at hid
    simp at hid

theorem length_beginDetached : (s.beginDetached t k).1.caches.length = s.caches.length :=
  List.length_set

theorem counts_beginDetached (hj : j < s.caches.length) :
    ((s.beginDetached t k).1.cache j).counts =
      if k = j then (s.cache j).counts.start else (s.cache j).counts := by
  have hcaches : (s.beginDetached t k).1.caches =
      s.caches.set k { s.cache k with counts := (s.cache k).counts.start } := rfl
  rw [cache_of_caches hcaches hj]
  by_cases hk : j = k
  · subst hk
    simp
  · simp [hk, Ne.symm hk]

/-- **A transaction begins**, without locks, and is counted. -/
theorem advances_beginDetached (h : s.Orderly) (t : ThreadId) (k : Nat) :
    s.Advances (fun _ => 0) (s.beginDetached t k).1 where
  orderly := by
    have hstore : ∀ j, ((s.beginDetached t k).1.cache j).store = (s.cache j).store :=
      fun j => store_count _ k _ j
    refine ⟨fun {other new} hnew => ?_, fun {other new} hnew => ?_, fun {b} hmem => ?_,
      fun {other new} hnew hdone => ?_, fun {other new} hnew hj key => ?_,
      fun j hj o hall key => ?_, fun j hj => ?_⟩
    · show other < s.nextTransaction + 1
      rcases of_get?_beginDetached hnew with ⟨rfl, -⟩ | hold
      · exact Nat.lt_succ_self _
      · exact Nat.lt_succ_of_lt (h.earlier hold)
    · rcases of_get?_beginDetached hnew with ⟨rfl, rfl⟩ | hold
      · rfl
      · exact h.owner hold
    · obtain ⟨old, hold, hcache⟩ := h.bound hmem
      exact ⟨old, get?_beginDetached_of_some h hold, hcache⟩
    · rcases of_get?_beginDetached hnew with ⟨rfl, rfl⟩ | hold
      · simp [Status.isCompleted] at hdone
      · exact h.ended hold hdone
    · rw [length_beginDetached] at hj
      rw [hstore]
      rcases of_get?_beginDetached hnew with ⟨rfl, rfl⟩ | hold
      -- nobody has held a lock under the new number
      · refine (h.free _ hj _ (fun id old hold _ heq => ?_) key).trans rfl
        rw [← Owner.transaction.inj heq, h.get?_next] at hold
        simp at hold
      · exact h.held hold hj key
    · rw [length_beginDetached] at hj
      rw [hstore]
      exact h.free j hj o (fun id old hold => hall id old (get?_beginDetached_of_some h hold)) key
    · rw [length_beginDetached] at hj
      have hperm : (s.beginDetached t k).1.transactions.values.Perm
          (⟨k, .active, .ofTransaction t s.nextTransaction⟩ :: s.transactions.values) :=
        SortedMap.values_insert_perm_of_new h.get?_next
      rw [counts_beginDetached hj]
      split
      · rename_i hk
        exact (h.tally j hj).start hperm hk rfl
      · rename_i hk
        exact (h.tally j hj).start_other hperm hk
  length := length_beginDetached
  leads hold := ⟨_, get?_beginDetached_of_some h hold, Status.leadsTo_refl _⟩
  aborts j hj := by
    rw [counts_beginDetached hj]
    split <;> rfl

end Session

end TransactionalTree
