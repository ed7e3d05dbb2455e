/-
**The end of each transaction is told once.**

A transaction ends by a commit that goes through, by a rollback, or by losing the last reference to
it, and it ends in that step.  In the same step every listener of its cache is told so, and never
again, also when a commit was refused before or when a handle that has ended is used once more.
What the transaction has changed is told in the same step and before its end, and only if it is
committed.

Main definitions:

* `noticesOf` — what a listener is told of a transaction;
* `Session.verdict?` — whether a transaction that has ended is committed;
* `Session.Quiet`, `Session.Ends` — nothing is told of a transaction, or it ends and that is told;
* `Session.Tells` — **of each transaction nothing is told, or it ends**;
* `Session.accepts` — a commit of the transaction goes through;
* `Session.ends` — **the steps that end a transaction**.

Main results:

* `Session.tells_take` — each step tells of a transaction only if it ends it;
* `Session.ends_take` — the steps that are to end a transaction do so, and tell it;
* `Session.run_tells` — so each run does that at most once;
* `Session.completion_told_once` — **exactly one completion for each transaction**.
-/

import TransactionalTree.Proofs.Lifecycle
import TransactionalTree.Proofs.References

set_option relaxedAutoImplicit false
set_option autoImplicit false

namespace TransactionalTree

/-! ### What is told of a transaction -/

/-- Whether a notice is about a transaction: a change that it has made, or its end. -/
def Notice.concerns (id : TransactionId) : Notice → Bool
  | change e => e.origin.transaction = some id
  | completed other _ => other = id

/-- **What a listener is told of a transaction**, in order. -/
def noticesOf (id : TransactionId) (l : String) (sent : List Delivery) : List Notice :=
  (sent.filter fun d => d.listener = l && d.notice.concerns id).map (·.notice)

section Notices

variable {id : TransactionId} {l : String} {ls : List String} {events : List Event}

theorem noticesOf_append (id : TransactionId) (l : String) (sent sent' : List Delivery) :
    noticesOf id l (sent ++ sent') = noticesOf id l sent ++ noticesOf id l sent' := by
  rw [noticesOf, List.filter_append, List.map_append, noticesOf, noticesOf]

/-- One notice is told once for each time that the listener was added. -/
theorem noticesOf_one (id : TransactionId) (l : String) (ls : List String) (n : Notice) :
    noticesOf id l (ls.map fun listener => ⟨listener, n⟩) =
      if n.concerns id then List.replicate (ls.count l) n else [] := by
  induction ls with
  | nil => simp [noticesOf]
  | cons x ls ih =>
      have hstep : noticesOf id l ((x :: ls).map fun listener => (⟨listener, n⟩ : Delivery)) =
          (if x = l ∧ n.concerns id then [n] else []) ++
            noticesOf id l (ls.map fun listener => ⟨listener, n⟩) := by
        by_cases hx : x = l <;> by_cases hn : n.concerns id = true <;>
          simp [noticesOf, hx, hn]
      rw [hstep, ih, List.count_cons]
      by_cases hx : x = l <;> by_cases hn : n.concerns id = true <;>
        simp [hx, hn, List.replicate_succ]

/-- Of all notices those about the transaction are told. -/
theorem noticesOf_deliver (id : TransactionId) (l : String) (ls : List String)
    (notices : List Notice) : noticesOf id l (deliver ls notices) =
      (notices.filter (·.concerns id)).flatMap (List.replicate (ls.count l)) := by
  induction notices with
  | nil => rfl
  | cons n notices ih =>
      have hstep : deliver ls (n :: notices) =
          (ls.map fun listener => ⟨listener, n⟩) ++ deliver ls notices := rfl
      rw [hstep, noticesOf_append, noticesOf_one, ih, List.filter_cons]
      split <;> simp

/-- The changes of a transaction are told of it. -/
theorem noticesOf_changes (h : ∀ x ∈ events, x.origin.transaction = some id) :
    noticesOf id l (deliver ls (events.map .change)) =
      (events.flatMap (List.replicate (ls.count l))).map .change := by
  have hall : (events.map Notice.change).filter (·.concerns id) = events.map .change := by
    refine List.filter_eq_self.2 fun n hn => ?_
    obtain ⟨x, hx, rfl⟩ := List.mem_map.1 hn
    simp [Notice.concerns, h x hx]
  rw [noticesOf_deliver, hall, List.flatMap_map, List.map_flatMap]
  simp

/-- The changes of others are not told of it. -/
theorem noticesOf_changes_other (h : ∀ x ∈ events, x.origin.transaction ≠ some id) :
    noticesOf id l (deliver ls (events.map .change)) = [] := by
  have hnone : (events.map Notice.change).filter (·.concerns id) = [] := by
    refine List.filter_eq_nil_iff.2 fun n hn => ?_
    obtain ⟨x, hx, rfl⟩ := List.mem_map.1 hn
    simp [Notice.concerns, h x hx]
  rw [noticesOf_deliver, hnone]
  rfl

/-- Only of the transaction that ends its end is told. -/
theorem noticesOf_completion (id : TransactionId) (l : String) (ls : List String)
    (transaction : Option TransactionId) (committed : Bool) :
    noticesOf id l (deliver ls (completion transaction committed)) =
      if transaction = some id then List.replicate (ls.count l) (.completed id committed)
      else [] := by
  rw [noticesOf_deliver]
  cases transaction with
  | none => rfl
  | some other =>
      by_cases ho : other = id
      · simp [completion, Notice.concerns, ho]
      · simp [completion, Notice.concerns, ho]

end Notices

/-- Which transaction a unit of work is can be seen from the owner of its locks. -/
theorem Context.transaction_eq (c : Context) : c.transaction = c.owner.transaction? := by
  rw [owner]
  split
  · rename_i heq
    rw [heq]
    rfl
  · rename_i heq
    rw [heq]
    rfl

/-! ### How a transaction has ended -/

/-- If the transaction has ended: of which cache it was one, and whether it is committed. -/
def Transaction.verdict? (tx : Transaction) : Option (Nat × Bool) :=
  if tx.status.isCompleted then some (tx.cache, tx.status = .committed) else none

namespace Session

/-- **How a transaction has ended**, if it has: in which cache, and whether it is committed. -/
def verdict? (s : Session) (id : TransactionId) : Option (Nat × Bool) :=
  (s.transactions.get? id).bind Transaction.verdict?

/-- What a listener was told of a transaction. -/
def told (s : Session) (l : String) (id : TransactionId) : List Notice := noticesOf id l s.sent

/-- Nothing is told of the transaction, and if it has ended it has ended before. -/
structure Quiet (s : Session) (id : TransactionId) (s' : Session) : Prop where
  /-- It has ended if it had ended, and in the same way. -/
  verdict : s'.verdict? id = s.verdict? id
  /-- Nothing is told of it. -/
  told : ∀ l, s'.told l id = s.told l id

/-- **The transaction ends**, committed or not, and that is told to each listener of its cache, once
for each time that it was added.  If it is committed, its changes are told before. -/
structure Ends (s : Session) (id : TransactionId) (committed : Bool) (s' : Session) : Prop where
  /-- It had not ended. -/
  before : s.verdict? id = none
  /-- It has, and that is told. -/
  after : ∃ k, s'.verdict? id = some (k, committed) ∧ ∀ l, ∃ events : List Event,
    (committed = false → events = []) ∧ s'.told l id = s.told l id ++ (events.map .change ++
      List.replicate ((s'.cache k).store.listeners.count l) (.completed id committed))

/-- **Of each transaction nothing is told, or it ends**, and it is one that may end so.  The same
listeners are told afterwards. -/
structure Tells (s : Session) (may : TransactionId → Bool → Prop) (s' : Session) : Prop where
  /-- The listeners stay. -/
  listeners : ∀ k, (s'.cache k).store.listeners = (s.cache k).store.listeners
  /-- Nothing is told, or the transaction ends. -/
  each : ∀ id, s.Quiet id s' ∨ ∃ committed, may id committed ∧ s.Ends id committed s'

variable {s s' s'' : Session} {id other : TransactionId} {tx tx' : Transaction} {t : ThreadId}
variable {k : Nat} {committed : Bool} {may may' : TransactionId → Bool → Prop}
variable {sent : List Delivery}

namespace Quiet

theorem refl (s : Session) (id : TransactionId) : s.Quiet id s := ⟨rfl, fun _ => rfl⟩

theorem trans (h : s.Quiet id s') (h' : s'.Quiet id s'') : s.Quiet id s'' :=
  ⟨h'.verdict.trans h.verdict, fun l => (h'.told l).trans (h.told l)⟩

/-- Nothing of what is told is about the transaction. -/
theorem of_sent (hverdict : s'.verdict? id = s.verdict? id) (hsent : s'.sent = s.sent ++ sent)
    (hnone : ∀ l, noticesOf id l sent = []) : s.Quiet id s' :=
  ⟨hverdict, fun l => by
    rw [Session.told, hsent, noticesOf_append, hnone, List.append_nil, Session.told]⟩

end Quiet

namespace Tells

theorem trans (h : s.Tells may s') (h' : s'.Tells may s'') : s.Tells may s'' where
  listeners k := (h'.listeners k).trans (h.listeners k)
  each id := by
    rcases h.each id with hquiet | ⟨committed, hmay, hends⟩
    · rcases h'.each id with hquiet' | ⟨committed, hmay, hends⟩
      · exact .inl (hquiet.trans hquiet')
      · refine .inr ⟨committed, hmay, hquiet.verdict.symm.trans hends.before, ?_⟩
        obtain ⟨k, hafter, htold⟩ := hends.after
        refine ⟨k, hafter, fun l => ?_⟩
        rw [← hquiet.told]
        exact htold l
    · obtain ⟨k, hafter, htold⟩ := hends.after
      rcases h'.each id with hquiet' | ⟨_, _, hends'⟩
      · refine .inr ⟨committed, hmay, hends.before, k, hquiet'.verdict.trans hafter, fun l => ?_⟩
        rw [hquiet'.told, h'.listeners]
        exact htold l
      -- it ends once only
      · have hopen := hends'.before
        rw [hafter] at hopen
        simp at hopen

theorem mono (h : s.Tells may s') (hmay : ∀ id committed, may id committed → may' id committed) :
    s.Tells may' s' := by
  refine ⟨h.listeners, fun id => (h.each id).imp_right ?_⟩
  rintro ⟨committed, hwas, hends⟩
  exact ⟨committed, hmay id committed hwas, hends⟩

/-- If no transaction may end, nothing is told of any. -/
theorem quiet (h : s.Tells (fun _ _ => False) s') (id : TransactionId) : s.Quiet id s' := by
  rcases h.each id with hquiet | ⟨-, hno, -⟩
  · exact hquiet
  · exact hno.elim

/-- Nothing of what is told is about a transaction. -/
theorem of_sent (hlisteners : ∀ k, (s'.cache k).store.listeners = (s.cache k).store.listeners)
    (hverdict : ∀ id, s'.verdict? id = s.verdict? id) (hsent : s'.sent = s.sent ++ sent)
    (hnone : ∀ id l, noticesOf id l sent = []) : s.Tells may s' :=
  ⟨hlisteners, fun id => .inl (.of_sent (hverdict id) hsent (hnone id))⟩

/-- Nothing happens to the transactions and to the caches, and nothing is told. -/
theorem of_bindings (htx : s'.transactions = s.transactions) (hcaches : s'.caches = s.caches)
    (hsent : s'.sent = s.sent) : s.Tells may s' :=
  of_sent (fun k => by rw [cache, cache, hcaches]) (fun id => by rw [verdict?, verdict?, htx])
    (hsent.trans (List.append_nil _).symm) fun _ _ => rfl

theorem refl (s : Session) : s.Tells may s := of_bindings rfl rfl rfl

end Tells

/-! ### Steps of one transaction -/

theorem verdict?_eq (hid : s.transactions.get? id = some tx) : s.verdict? id = tx.verdict? := by
  rw [verdict?, hid]
  rfl

/-- One transaction has come to be another one. -/
theorem verdict?_insert (htx : s'.transactions = s.transactions.insert id tx')
    (other : TransactionId) :
    s'.verdict? other = if other = id then tx'.verdict? else s.verdict? other := by
  rw [verdict?, htx, SortedMap.get?_insert]
  split
  · rfl
  · rfl

/-- One transaction is replaced by one that has ended if it had ended, and nothing is told. -/
theorem Tells.of_insert (tx' : Transaction) (hsame : s.verdict? id = tx'.verdict?)
    (htx : s'.transactions = s.transactions.insert id tx')
    (hlisteners : ∀ k, (s'.cache k).store.listeners = (s.cache k).store.listeners)
    (hsent : s'.sent = s.sent) : s.Tells may s' := by
  refine .of_sent hlisteners (fun other => ?_) (hsent.trans (List.append_nil _).symm)
    fun _ _ => rfl
  rw [verdict?_insert htx]
  split
  · rename_i heq
    rw [heq, hsame]
  · rfl

/-- Replacing the tree of a cache by one with the same listeners leaves all listeners. -/
theorem listeners_setStore (s : Session) (store : Store)
    (h : store.listeners = (s.cache k).store.listeners) (j : Nat) :
    ((s.setStore k store).cache j).store.listeners = (s.cache j).store.listeners := by
  rcases cache_setCache s k { s.cache k with store } j with hc | ⟨rfl, hc⟩
  · rw [setStore, hc]
  · rw [setStore, hc]
    exact h

theorem tells_beginDetached (h : s.Orderly) (t : ThreadId) (k : Nat) :
    s.Tells may (s.beginDetached t k).1 := by
  have hnew : s.verdict? s.nextTransaction = none := by
    rw [verdict?, Option.eq_none_iff_forall_ne_some.2 fun tx htx =>
      Nat.lt_irrefl _ (h.earlier htx)]
    rfl
  refine .of_insert ⟨k, .active, .ofTransaction t s.nextTransaction⟩ hnew rfl (fun j => ?_) rfl
  simp only [beginDetached, store_count]
  rfl

theorem tells_stepIn {α : Type} {step : Base → Work → Work × Except TreeError α}
    (hid : s.transactions.get? id = some tx) : s.Tells may (s.stepIn id step).1 := by
  simp only [stepIn, transaction_eq hid]
  split
  · generalize step (s.cache tx.cache).store.base ⟨(s.cache tx.cache).store.locks, tx.context⟩ = r
    exact .of_insert { tx with context := r.1.context } ((verdict?_eq hid).trans rfl) rfl
      (listeners_setStore s { (s.cache tx.cache).store with locks := r.1.locks } rfl) rfl
  · exact .refl s

theorem tells_setOptions (hid : s.transactions.get? id = some tx) (options : Options) :
    s.Tells may (s.setOptions id options) := by
  simp only [setOptions, transaction_eq hid]
  exact .of_insert { tx with context := { tx.context with options } }
    ((verdict?_eq hid).trans rfl) rfl (fun _ => rfl) rfl

/-! ### The end of a transaction -/

/-- What is told when a unit of work is concluded: its changes, and then its end if it is a
transaction. -/
theorem noticesOf_conclude (store : Store) (committed : Bool) {c : Context} {events : List Event}
    (horigin : ∀ x ∈ events, x.origin.transaction = c.transaction) (id : TransactionId)
    (l : String) :
    noticesOf id l (store.conclude c committed
        (deliver store.listeners (events.map .change))).sent =
      if c.transaction = some id then
        (events.flatMap (List.replicate (store.listeners.count l))).map .change ++
          List.replicate (store.listeners.count l) (.completed id committed)
      else [] := by
  simp only [Store.conclude]
  rw [noticesOf_append, noticesOf_completion]
  split
  · rename_i hid
    rw [noticesOf_changes fun x hx => (horigin x hx).trans hid]
  · rename_i hid
    rw [noticesOf_changes_other fun x hx heq => hid ((horigin x hx).symm.trans heq)]
    rfl

/-- The listeners of a cache are the same when one of its transactions has ended or failed to. -/
theorem listeners_absorb {e : Ending} (status : Status)
    {f : TransactionCounts → TransactionCounts} (hid : s.transactions.get? id = some tx)
    (h : e.store.listeners = (s.cache tx.cache).store.listeners) (j : Nat) :
    (((s.absorb id e status).count tx.cache f).cache j).store.listeners =
      (s.cache j).store.listeners := by
  rw [store_count, absorb, transaction_eq hid]
  exact listeners_setStore s e.store h j

/-- **A unit of work is concluded**, and its transaction has ended. -/
theorem tells_conclude (tree : CommittedTree) (events : List Event) (status : Status)
    {f : TransactionCounts → TransactionCounts} (h : s.Orderly)
    (hid : s.transactions.get? id = some tx) (hopen : tx.status.isCompleted = false)
    (horigin : ∀ x ∈ events, x.origin.transaction = tx.context.transaction)
    (hdone : status.isCompleted = true) (hnone : status ≠ .committed → events = []) :
    let store := (s.cache tx.cache).store
    let e := Store.conclude { store with tree } tx.context (status = .committed)
      (deliver store.listeners (events.map .change))
    s.Tells (fun other committed => other = id ∧ committed = decide (status = .committed))
      ((s.absorb id e status).count tx.cache f) := by
  intro store e
  have htransaction : tx.context.transaction = some id := by
    rw [tx.context.transaction_eq, h.owner hid]
    rfl
  have htx : ((s.absorb id e status).count tx.cache f).transactions =
      s.transactions.insert id { tx with context := e.context, status } := by
    rw [absorb, transaction_eq hid]
    rfl
  have hsent : ((s.absorb id e status).count tx.cache f).sent = s.sent ++ e.sent := by
    rw [absorb, transaction_eq hid]
    rfl
  have hnotices := noticesOf_conclude { store with tree } (status = .committed) horigin
  have hlisteners := listeners_absorb status (f := f) (e := e) hid rfl
  refine ⟨hlisteners, fun other => ?_⟩
  by_cases ho : other = id
  · subst ho
    refine .inr ⟨_, ⟨rfl, rfl⟩, ?_, tx.cache, ?_, fun l => ?_⟩
    · rw [verdict?_eq hid, Transaction.verdict?, hopen]
      rfl
    · rw [verdict?_insert htx, if_pos rfl, Transaction.verdict?, hdone]
      rfl
    · refine ⟨events.flatMap (List.replicate (store.listeners.count l)), fun hno => ?_, ?_⟩
      · rw [hnone (by simpa using hno)]
        rfl
      · rw [hlisteners, told, hsent, noticesOf_append, hnotices, if_pos htransaction, told]
  · refine .inl (.of_sent ?_ hsent fun l => ?_)
    · rw [verdict?_insert htx, if_neg ho]
    · rw [hnotices, htransaction, if_neg fun heq => ho (Option.some.inj heq).symm]

/-- **A commit of the transaction goes through**: the transaction is active, and what it has
changed, if anything, passes the check and is merged. -/
def accepts (s : Session) (id : TransactionId) : Prop :=
  ∃ tx, s.transactions.get? id = some tx ∧ tx.status = .active ∧
    (s.cache tx.cache).store.GoesThrough tx.context

/-- **A commit that goes through tells that the transaction is committed**; another one tells
nothing. -/
theorem tells_commitTransaction (h : s.Orderly) (hid : s.transactions.get? id = some tx) :
    s.Tells (fun other committed => other = id ∧ committed = true ∧ s.accepts id)
      (s.commitTransaction id).1 := by
  by_cases hactive : tx.status = .active
  · have hopen : tx.status.isCompleted = false := by rw [hactive]; rfl
    rcases commitTransaction_cases hid hactive with ⟨tree, events, hgo, horigin, hcommit⟩ |
      ⟨tree, err, -, hcommit⟩
    · rw [hcommit]
      refine (tells_conclude tree events .committed h hid hopen
        (fun x hx => by rw [horigin x hx]) rfl fun hno => absurd rfl hno).mono ?_
      exact fun other committed hmay => ⟨hmay.1, hmay.2, tx, hid, hactive, hgo⟩
    · rw [hcommit]
      have hsame : s.verdict? id = Transaction.verdict? { tx with status := .markedRollback } := by
        rw [verdict?_eq hid, Transaction.verdict?, Transaction.verdict?, hopen]
        rfl
      refine .of_insert _ hsame ?_ (listeners_absorb .markedRollback hid rfl) ?_
      · rw [absorb, transaction_eq hid]
        rfl
      · rw [absorb, transaction_eq hid]
        exact List.append_nil _
  · simp only [commitTransaction, transaction_eq hid, if_neg hactive]
    exact .refl s

/-- A commit that goes through ends the transaction. -/
theorem not_isOpen_commitTransaction (hgo : s.accepts id) :
    (s.commitTransaction id).1.isOpen id = false := by
  obtain ⟨tx, hid, hactive, hgo⟩ := hgo
  rcases commitTransaction_cases hid hactive with ⟨tree, events, -, -, hcommit⟩ |
    ⟨tree, err, hno, -⟩
  · rw [hcommit]
    exact (isOpen_absorb s id _ .committed).trans (if_pos rfl)
  · exact absurd hgo hno

/-- **A rollback tells that the transaction is not committed**, unless it has ended before. -/
theorem tells_rollbackTransaction (h : s.Orderly) (hid : s.transactions.get? id = some tx) :
    s.Tells (fun other committed => other = id ∧ committed = false)
      (s.rollbackTransaction id).1 := by
  simp only [rollbackTransaction, transaction_eq hid]
  split
  · exact .refl s
  · rename_i hopen
    exact tells_conclude (s.cache tx.cache).store.tree [] .rolledBack h hid (by simpa using hopen)
      (fun x hx => by simp at hx) rfl fun _ => rfl

/-- Several transactions may be rolled back one after the other. -/
theorem tells_rollbackAll (h : s.Orderly) (ids : List TransactionId)
    (hids : ∀ id ∈ ids, s.isBegun id = true) :
    s.Tells (fun id committed => id ∈ ids ∧ committed = false)
      (ids.foldl (fun s id => (s.rollbackTransaction id).1) s) := by
  induction ids generalizing s with
  | nil => exact .refl s
  | cons id ids ih =>
      obtain ⟨tx, htx⟩ := isBegun_iff.1 (hids id List.mem_cons_self)
      have hfirst := advances_rollbackTransaction h htx
      have hrest := ih hfirst.orderly fun id hid =>
        hfirst.isBegun (hids id (List.mem_cons_of_mem _ hid))
      refine ((tells_rollbackTransaction h htx).mono ?_).trans (hrest.mono ?_)
      · rintro other committed ⟨rfl, hb⟩
        exact ⟨List.mem_cons_self, hb⟩
      · rintro other committed ⟨hother, hb⟩
        exact ⟨List.mem_cons_of_mem _ hother, hb⟩

theorem tells_settle (h : s.Orderly) : s.Tells
    (fun id committed => committed = false ∧ s.settle.isBegun id = true ∧
      s.settle.isReferenced id = false) s.settle := by
  have hbegun : ∀ id ∈ s.lost, s.isBegun id = true := fun id hid => by
    obtain ⟨tx, htx, -⟩ := isOpen_iff.1 (mem_lost.1 hid).1
    exact isBegun_iff.2 ⟨tx, htx⟩
  have hstays := stays_settle s
  refine (tells_rollbackAll h s.lost hbegun).mono ?_
  rintro id committed ⟨hid, hb⟩
  refine ⟨hb, (advances_settle h).isBegun (hbegun id hid), ?_⟩
  rw [isReferenced_congr hstays.handles hstays.bindings]
  exact (mem_lost.1 hid).2

/-- Whatever happens to handles and bindings, of those who cannot be reached any more it is told
that they are not committed. -/
theorem tells_letGo (h : s.Orderly) (s' : Session) (hc : s'.caches = s.caches)
    (htx : s'.transactions = s.transactions) (hnext : s'.nextTransaction = s.nextTransaction)
    (hsent : s'.sent = s.sent) (hb : ∀ b ∈ s'.bindings, b ∈ s.bindings) : s.Tells
    (fun id committed => committed = false ∧ s'.settle.isBegun id = true ∧
      s'.settle.isReferenced id = false) s'.settle := by
  have hgone : s.Advances (fun _ => 0) s' :=
    .of_bindings h htx hnext hc fun b hmem => .inl (hb b hmem)
  exact (Tells.of_bindings htx hc hsent).trans (tells_settle hgone.orderly)

theorem tells_name (h : s.Orderly) (handle : String) (id : TransactionId) : s.Tells
    (fun other committed => committed = false ∧ (s.name handle id).isBegun other = true ∧
      (s.name handle id).isReferenced other = false) (s.name handle id) :=
  tells_letGo h { s with handles := s.handles.insert handle id } rfl rfl rfl rfl fun _ hb => hb

theorem tells_keep (h : s.Orderly) (handle : Option String) (id : TransactionId) : s.Tells
    (fun other committed => committed = false ∧ (s.keep handle id).isBegun other = true ∧
      (s.keep handle id).isReferenced other = false) (s.keep handle id) := by
  cases handle with
  | none => exact tells_settle h
  | some handle => exact tells_name h handle id

/-! ### Threads and their calls -/

/-- Looking up the transaction of a thread tells nothing. -/
theorem tells_current {found : Option TransactionId} (hc : s.current t k = (s', found)) :
    s.Tells may s' := by
  obtain rfl : (s.current t k).1 = s' := congrArg Prod.fst hc
  simp only [current]
  split
  · exact .refl s
  · split
    · exact .of_bindings rfl rfl rfl
    · exact .refl s

theorem tells_beginBound (h : s.Orderly) (t : ThreadId) (k : Nat) :
    s.Tells may (s.beginBound t k).1 := by
  rcases current_cases h t k with ⟨s₁, hc, hadvances, -⟩ | ⟨id, tx, hc, -⟩
  · simp only [beginBound, hc]
    exact ((tells_current hc).trans (tells_beginDetached hadvances.orderly t k)).trans
      (.of_bindings rfl rfl rfl)
  · simp only [beginBound, hc]
    exact .refl s

theorem tells_commitBound (h : s.Orderly) (t : ThreadId) (k : Nat) :
    s.Tells (fun id committed => (s.current t k).2 = some id ∧ committed = true ∧ s.accepts id)
      (s.commitBound t k).1 := by
  rcases current_cases h t k with ⟨s₁, hc, -⟩ | ⟨id, tx, hc, htx, -⟩
  · simp only [commitBound, hc]
    exact tells_current hc
  · simp only [commitBound, hc]
    have hcommit : s.Tells (fun other committed => some id = some other ∧ committed = true ∧
        s.accepts other) (s.commitTransaction id).1 :=
      (tells_commitTransaction h htx).mono fun other committed hmay => by
        obtain ⟨rfl, hmay⟩ := hmay
        exact ⟨rfl, hmay⟩
    split
    · exact hcommit.trans (.of_bindings rfl rfl rfl)
    · exact hcommit

theorem tells_rollbackBound (h : s.Orderly) (t : ThreadId) (k : Nat) :
    s.Tells (fun id committed => (s.current t k).2 = some id ∧ committed = false)
      (s.rollbackBound t k).1 := by
  rcases current_cases h t k with ⟨s₁, hc, -⟩ | ⟨id, tx, hc, htx, -⟩
  · simp only [rollbackBound, hc]
    exact tells_current hc
  · simp only [rollbackBound, hc]
    have hunbind := advances_unbind h t k
    refine .trans (show s.Tells _ (s.unbind t k) from .of_bindings rfl rfl rfl)
      ((tells_rollbackTransaction hunbind.orderly htx).mono fun other committed hmay => ?_)
    exact ⟨by rw [hmay.1], hmay.2⟩

theorem tells_suspend (s : Session) (t : ThreadId) (k : Nat) :
    s.Tells may (s.suspend t k).1 := by
  simp only [suspend]
  cases hc : s.current t k with
  | mk s₁ found =>
      cases found with
      | none => exact tells_current hc
      | some id => exact (tells_current hc).trans (.of_bindings rfl rfl rfl)

theorem tells_resume (s : Session) (t : ThreadId) (k : Nat) (id : TransactionId) :
    s.Tells may (s.resume t k id).1 := by
  simp only [resume]
  split
  · exact .refl s
  · split
    · exact .refl s
    · cases hc : s.current t k with
      | mk s₁ found =>
          cases found with
          | none => exact (tells_current hc).trans (.of_bindings rfl rfl rfl)
          | some other => exact tells_current hc

/-- The end of a unit of work that is no transaction is not told. -/
theorem sent_conclude_of_none {store : Store} {c : Context} (h : c.transaction = none) :
    (store.conclude c committed sent).sent = sent := by
  simp only [Store.conclude, h]
  exact List.append_nil _

/-- **A call alone tells its changes**, which are none of a transaction, and no end of one. -/
theorem callAlone_tells (s : Session) (t : ThreadId) (k : Nat) (options : Options)
    (o : Operation) : ∃ (store : Store) (events : List Event),
      store.listeners = (s.cache k).store.listeners ∧
      (∀ x ∈ events, x.origin.transaction = none) ∧
      (s.callAlone t k options o).1 = (s.setStore k store).note
        (deliver (s.cache k).store.listeners (events.map .change)) := by
  have hnone : (s.workAlone t k options o).1.context.transaction = none := by
    rw [Context.transaction_eq, (traced_workAlone s t k options o).balanced.owner]
    rfl
  have hcases := callAlone_cases s t k options o
  generalize (s.workAlone t k options o).1.context = c at hnone hcases
  rcases hcases with ⟨err, tree, -, hcall⟩ | ⟨a, -, hcall⟩
  · refine ⟨(Store.rollback { s.storeAlone t k options o with tree } c).store, [], rfl, by simp, ?_⟩
    rw [hcall, Store.rollback, sent_conclude_of_none hnone]
    rfl
  · rw [hcall]
    rcases (s.storeAlone t k options o).commit_cases c with ⟨tree, events, -, horigin, hcommit⟩ |
      ⟨tree, err, -, -, hcommit⟩
    · refine ⟨((s.storeAlone t k options o).commit c).store, events, by rw [hcommit]; rfl,
        fun x hx => by rw [horigin x hx]; exact hnone, ?_⟩
      rw [hcommit, sent_conclude_of_none hnone]
      rfl
    · refine ⟨((s.storeAlone t k options o).commit c).store, [], by rw [hcommit]; rfl, by simp, ?_⟩
      rw [hcommit]
      rfl

theorem tells_callAlone (s : Session) (t : ThreadId) (k : Nat) (options : Options)
    (o : Operation) : s.Tells may (s.callAlone t k options o).1 := by
  obtain ⟨store, events, hlisteners, horigin, hcall⟩ := callAlone_tells s t k options o
  rw [hcall]
  refine .of_sent (fun j => listeners_setStore s _ hlisteners j) (fun _ => rfl) rfl fun id l => ?_
  exact noticesOf_changes_other fun x hx => by simp [horigin x hx]

theorem tells_call (h : s.Orderly) (t : ThreadId) (k : Nat) (options : Option Options)
    (o : Operation) : s.Tells may (s.call t k options o).1 := by
  rcases current_cases h t k with ⟨s₁, hc, -⟩ | ⟨id, tx, hc, htx, -⟩
  · simp only [call, hc]
    exact (tells_current hc).trans (tells_callAlone s₁ t k _ o)
  · simp only [call, hc]
    cases options with
    | none => exact tells_stepIn htx
    | some options => exact tells_stepIn htx

/-! ### Runs -/

/-- **The step ends the transaction**, committed or not, if it has not ended: by a commit that goes
through or by a rollback, of itself or of what a thread is bound to, or because nobody can reach it
after the step. -/
def ends (s : Session) (step : SessionStep) (id : TransactionId) (committed : Bool) : Prop :=
  match step with
  | .commit other => id = other ∧ committed = true ∧ s.accepts id
  | .rollback other => id = other ∧ committed = false ∧ s.isBegun id = true
  | .commitBound t k => (s.current t k).2 = some id ∧ committed = true ∧ s.accepts id
  | .rollbackBound t k => (s.current t k).2 = some id ∧ committed = false
  | .beginBound .. | .beginDetached .. | .suspend .. | .endThread _ | .name .. | .drop _ =>
      committed = false ∧ (s.take step).isBegun id = true ∧ (s.take step).isReferenced id = false
  | _ => False

/-- A step of a transaction that was begun, or none. -/
theorem tells_within {f : Session → Session}
    (hf : ∀ tx, s.transactions.get? id = some tx → s.Tells may (f s)) :
    s.Tells may (s.within id f) := by
  rw [within]
  split
  · rename_i hid
    obtain ⟨tx, htx⟩ := isBegun_iff.1 hid
    exact hf tx htx
  · exact .refl s

/-- **Each step tells of a transaction only if it ends it.** -/
theorem tells_take (h : s.Orderly) (step : SessionStep) (id : TransactionId) :
    s.Quiet id (s.take step) ∨
      ∃ committed, s.ends step id committed ∧ s.Ends id committed (s.take step) := by
  cases step with
  | beginBound t k handle =>
      have hbegin : s.Tells (fun _ _ => False) (s.beginBound t k).1 := tells_beginBound h t k
      have horderly := (advances_beginBound h t k).orderly
      simp only [ends, take]
      generalize s.beginBound t k = r at hbegin horderly
      obtain ⟨s₁, _ | other⟩ := r
      · exact .inl (hbegin.quiet id)
      · exact ((hbegin.mono fun _ _ hno => hno.elim).trans
          (tells_keep horderly handle other)).each id
  | beginDetached t k handle =>
      exact ((tells_beginDetached h t k).trans
        (tells_keep (advances_beginDetached h t k).orderly handle _)).each id
  | call t k options o => exact (tells_call h t k options o).each id
  | perform other o => exact (tells_within (f := fun s => (s.performIn other o).1)
      fun _ htx => tells_stepIn htx).each id
  | setOptions other options =>
      exact (tells_within (f := fun s => s.setOptions other options)
        fun _ htx => tells_setOptions htx options).each id
  | commitBound t k => exact (tells_commitBound h t k).each id
  | rollbackBound t k => exact (tells_rollbackBound h t k).each id
  | commit other =>
      refine (tells_within (f := fun s => (s.commitTransaction other).1) fun _ htx =>
        (tells_commitTransaction h htx).mono ?_).each id
      rintro _ committed ⟨rfl, hmay⟩
      exact ⟨rfl, hmay⟩
  | rollback other =>
      refine (tells_within (f := fun s => (s.rollbackTransaction other).1) fun tx htx =>
        (tells_rollbackTransaction h htx).mono ?_).each id
      rintro _ committed ⟨rfl, hmay⟩
      exact ⟨rfl, hmay, isBegun_iff.2 ⟨tx, htx⟩⟩
  | suspend t k handle =>
      have hsuspend : s.Tells (fun _ _ => False) (s.suspend t k).1 := tells_suspend s t k
      have horderly := (advances_suspend h t k).orderly
      simp only [ends, take]
      generalize s.suspend t k = r at hsuspend horderly
      obtain ⟨s₁, _ | other⟩ := r
      · exact .inl (hsuspend.quiet id)
      · exact ((hsuspend.mono fun _ _ hno => hno.elim).trans
          (tells_keep horderly handle other)).each id
  | resume t k other =>
      exact (tells_within (f := fun s => (s.resume t k other).1)
        fun _ _ => tells_resume s t k other).each id
  | endThread name =>
      simp only [ends, take, endThread]
      split
      · refine (tells_letGo h { s with
          running := s.running.erase name
          generations := s.generations.insert name ((s.threadId name).generation + 1)
          bindings := s.bindings.filter (·.thread ≠ s.threadId name) } rfl rfl rfl rfl ?_).each id
        exact fun _ hb => (List.mem_filter.1 hb).1
      · exact .inl (.refl s id)
  | name handle other =>
      simp only [ends, take, within]
      split
      · exact (tells_name h handle other).each id
      · exact .inl (.refl s id)
  | drop handle =>
      exact (tells_letGo h { s with handles := s.handles.erase handle } rfl rfl rfl rfl
        fun _ hb => hb).each id
  | addListener k name => exact .inl ⟨rfl, fun _ => rfl⟩
  | removeListener k name => exact .inl ⟨rfl, fun _ => rfl⟩
  | purge k => exact .inl ⟨rfl, fun _ => rfl⟩

theorem verdict?_eq_none_iff :
    s.verdict? id = none ↔ (s.isBegun id = true → s.isOpen id = true) := by
  rw [verdict?, isBegun, SortedMap.contains, isOpen]
  cases s.transactions.get? id with
  | none => simp
  | some tx => cases hdone : tx.status.isCompleted <;> simp [Transaction.verdict?, hdone]

/-- A step ends a transaction in one way at most. -/
theorem ends_unique {step : SessionStep} {committed' : Bool} (h : s.ends step id committed)
    (h' : s.ends step id committed') : committed = committed' := by
  cases step with
  | commit other => exact h.2.1.trans h'.2.1.symm
  | rollback other => exact h.2.1.trans h'.2.1.symm
  | commitBound t k => exact h.2.1.trans h'.2.1.symm
  | rollbackBound t k => exact h.2.trans h'.2.symm
  | beginBound _ _ _ => exact h.1.trans h'.1.symm
  | beginDetached _ _ _ => exact h.1.trans h'.1.symm
  | suspend _ _ _ => exact h.1.trans h'.1.symm
  | endThread _ => exact h.1.trans h'.1.symm
  | name _ _ => exact h.1.trans h'.1.symm
  | drop _ => exact h.1.trans h'.1.symm
  | _ => exact h.elim

/-- **After a step that is to end a transaction it has ended.** -/
theorem ended_take {step : SessionStep} (h : s.Orderly) (ht : (s.take step).Tended)
    (he : s.ends step id committed) :
    (s.take step).isBegun id = true ∧ (s.take step).isOpen id = false := by
  have hlost : (s.take step).isReferenced id = false → (s.take step).isOpen id = false :=
    fun hno => Bool.eq_false_iff.2 fun ho => by
      rw [ht.reached id ho] at hno
      exact absurd hno (by decide)
  have hbegun : s.isBegun id = true → (s.take step).isBegun id = true :=
    (advances_take h step).isBegun
  cases step with
  | commit other =>
      obtain ⟨rfl, -, hgo⟩ := he
      have hid : s.isBegun id = true := by
        obtain ⟨tx, htx, -⟩ := hgo
        exact isBegun_iff.2 ⟨tx, htx⟩
      refine ⟨hbegun hid, ?_⟩
      rw [take, within, if_pos hid]
      exact not_isOpen_commitTransaction hgo
  | rollback other =>
      obtain ⟨rfl, -, hid⟩ := he
      refine ⟨hbegun hid, ?_⟩
      rw [take, within, if_pos hid]
      exact not_isOpen_rollbackTransaction s id
  | commitBound t k =>
      obtain ⟨hc, -, hgo⟩ := he
      rcases current_cases h t k with ⟨s₁, hnone, -⟩ | ⟨other, tx, hsome, htx, -⟩
      · rw [hnone] at hc
        simp at hc
      · rw [hsome] at hc
        obtain rfl := Option.some.inj hc
        refine ⟨hbegun (isBegun_iff.2 ⟨tx, htx⟩), ?_⟩
        have hdone := not_isOpen_commitTransaction hgo
        simp only [take, commitBound, hsome]
        split
        · exact hdone
        · exact hdone
  | rollbackBound t k =>
      obtain ⟨hc, -⟩ := he
      rcases current_cases h t k with ⟨s₁, hnone, -⟩ | ⟨other, tx, hsome, htx, -⟩
      · rw [hnone] at hc
        simp at hc
      · rw [hsome] at hc
        obtain rfl := Option.some.inj hc
        refine ⟨hbegun (isBegun_iff.2 ⟨tx, htx⟩), ?_⟩
        simp only [take, rollbackBound, hsome]
        exact not_isOpen_rollbackTransaction _ _
  | beginBound _ _ _ => exact ⟨he.2.1, hlost he.2.2⟩
  | beginDetached _ _ _ => exact ⟨he.2.1, hlost he.2.2⟩
  | suspend _ _ _ => exact ⟨he.2.1, hlost he.2.2⟩
  | endThread _ => exact ⟨he.2.1, hlost he.2.2⟩
  | name _ _ => exact ⟨he.2.1, hlost he.2.2⟩
  | drop _ => exact ⟨he.2.1, hlost he.2.2⟩
  | _ => exact he.elim

/-- **A step that is to end a transaction ends it**, unless it has ended before, and that is told.
-/
theorem ends_take {step : SessionStep} (h : s.Orderly) (ht : (s.take step).Tended)
    (hopen : s.verdict? id = none) (he : s.ends step id committed) :
    s.Ends id committed (s.take step) := by
  obtain ⟨hbegun, hdone⟩ := ended_take h ht he
  rcases tells_take h step id with hquiet | ⟨committed', he', hends⟩
  · have hstill := verdict?_eq_none_iff.1 (hquiet.verdict.trans hopen) hbegun
    exact absurd (hstill.symm.trans hdone) (by decide)
  · rwa [ends_unique he he']

/-- **Each run tells of a transaction only in the step that ends it**, of which there is one at
most. -/
theorem run_tells (h : s.Orderly) (steps : List SessionStep) (id : TransactionId) :
    s.Quiet id (s.run steps) ∨ ∃ before step after committed, steps = before ++ step :: after ∧
      s.Quiet id (s.run before) ∧ (s.run before).ends step id committed ∧
      (s.run before).Ends id committed ((s.run before).take step) ∧
      ((s.run before).take step).Quiet id (s.run steps) := by
  induction steps generalizing s with
  | nil => exact .inl (.refl s id)
  | cons first steps ih =>
      have hrest := ih (advances_take h first).orderly
      rcases tells_take h first id with hquiet | ⟨committed, hmay, hends⟩
      · rcases hrest with hrest | ⟨before, step, after, committed, hsplit, hbefore, hmay, hends,
          hafter⟩
        · exact .inl (hquiet.trans hrest)
        · exact .inr ⟨first :: before, step, after, committed, by rw [hsplit]; rfl,
            hquiet.trans hbefore, hmay, hends, hafter⟩
      · rcases hrest with hrest | ⟨before, step, after, committed', -, hbefore, -, hends', -⟩
        · exact .inr ⟨[], first, steps, committed, rfl, .refl s id, hmay, hends, hrest⟩
        -- it ends once only
        · obtain ⟨k, hverdict, -⟩ := hends.after
          have hopen := hbefore.verdict.symm.trans hends'.before
          rw [hverdict] at hopen
          simp at hopen

/-- **Exactly one completion for each transaction.**  In every run, for every transaction and every
listener:

* while the transaction has not ended, the listener is told nothing of it;
* one that nobody can reach has ended;
* a commit that goes through, a rollback, and a step after which nobody can reach the transaction,
  be it that a handle is dropped or given to another one, that a thread lays it aside, or that a
  thread ends, end a transaction that has not ended.  In that step the listener is told the changes
  of the transaction, which are none unless it is committed, and then, once for each time that it is
  registered with the cache of the transaction at this time, that the transaction has ended,
  committed if it is committed;
* if it has ended, there is one such step of the run, and neither before nor after it the listener
  was told anything of the transaction;
* a call of a thread that is bound to no transaction tells changes of no transaction, and no end of
  one. -/
theorem completion_told_once (configs : List Config) (hash : Path → UInt64)
    (steps : List SessionStep) (id : TransactionId) :
    let s := (ofConfigs configs hash).run steps
    (s.verdict? id = none → ∀ l, s.told l id = []) ∧
    (s.isBegun id = true → s.isReferenced id = false → (s.verdict? id).isSome = true) ∧
    (∀ step committed, s.verdict? id = none → s.ends step id committed →
      ∃ k, (s.take step).verdict? id = some (k, committed) ∧
        ∀ l, ∃ events : List Event, (committed = false → events = []) ∧
          (s.take step).told l id = events.map .change ++ List.replicate
            (((s.take step).cache k).store.listeners.count l) (.completed id committed)) ∧
    (∀ k committed, s.verdict? id = some (k, committed) →
      ∃ before step after, steps = before ++ step :: after ∧
        let s₀ := (ofConfigs configs hash).run before
        let s₁ := s₀.take step
        s₀.verdict? id = none ∧ s₁.verdict? id = some (k, committed) ∧
        s₀.ends step id committed ∧
        ∀ l, s₀.told l id = [] ∧ s.told l id = s₁.told l id ∧
          ∃ events : List Event, (committed = false → events = []) ∧
            s₁.told l id = events.map .change ++
              List.replicate ((s₁.cache k).store.listeners.count l) (.completed id committed)) ∧
    ∀ t k options o, (s.current t k).2 = none → ∃ events : List Event,
      (∀ x ∈ events, x.origin.transaction = none) ∧ (s.call t k options o).1.sent =
        s.sent ++ deliver (s.cache k).store.listeners (events.map .change) := by
  intro s
  have hnew : (ofConfigs configs hash).verdict? id = none := rfl
  have hsilent : ∀ l, (ofConfigs configs hash).told l id = [] := fun _ => rfl
  have horderly : s.Orderly := (advances_run (orderly_ofConfigs configs hash) steps).orderly
  have hrun := run_tells (orderly_ofConfigs configs hash) steps id
  have hquiet : s.verdict? id = none → ∀ l, s.told l id = [] := fun hopen l => by
    rcases hrun with hquiet | ⟨before, step, after, committed, -, -, -, hends, hafter⟩
    · rw [hquiet.told, hsilent]
    · obtain ⟨k, hverdict, -⟩ := hends.after
      have hsome := hafter.verdict.symm.trans hopen
      rw [hverdict] at hsome
      simp at hsome
  refine ⟨hquiet, fun hid hno => ?_, fun step committed hopen he => ?_,
    fun k committed hdone => ?_, fun t k options o hc => ?_⟩
  · rw [Option.isSome_iff_ne_none]
    intro hopen
    have hreached := (tended_run configs hash steps).reached id (verdict?_eq_none_iff.1 hopen hid)
    exact absurd (hreached.symm.trans hno) (by decide)
  · have htended : (s.take step).Tended :=
      (tended_run configs hash steps).take ((sane_ofConfigs configs hash).run steps) step
    obtain ⟨k, hverdict, htold⟩ := (ends_take horderly htended hopen he).after
    refine ⟨k, hverdict, fun l => ?_⟩
    obtain ⟨events, hevents, hl⟩ := htold l
    rw [hquiet hopen, List.nil_append] at hl
    exact ⟨events, hevents, hl⟩
  · rcases hrun with hquiet |
      ⟨before, step, after, committed', hsplit, hbefore, he, hends, hafter⟩
    · rw [hquiet.verdict, hnew] at hdone
      simp at hdone
    · obtain ⟨k', hverdict, htold⟩ := hends.after
      obtain ⟨rfl, rfl⟩ : k' = k ∧ committed' = committed :=
        Prod.mk.inj (Option.some.inj (hverdict.symm.trans (hafter.verdict.symm.trans hdone)))
      refine ⟨before, step, after, hsplit, hends.before, hverdict, he, fun l => ?_⟩
      have hnone := (hbefore.told l).trans (hsilent l)
      obtain ⟨events, hevents, hl⟩ := htold l
      rw [hnone, List.nil_append] at hl
      exact ⟨hnone, hafter.told l, events, hevents, hl⟩
  · obtain ⟨s₁, hcaches, hsent, hcall⟩ := call_of_unbound hc options o
    obtain ⟨store, events, -, horigin, hnew⟩ := callAlone_tells s₁ t k (options.getD {}) o
    refine ⟨events, horigin, ?_⟩
    rw [hcall, hnew, note, cache, hcaches, ← hsent]
    rfl

/-- A thread makes `/a` in a transaction, which is then committed, and a rollback of it comes too
late.  A listener is there. -/
def attendedSteps : List SessionStep :=
  let main : ThreadId := ⟨"main", 0⟩
  [.addListener 0 "l", .beginBound main 0 none, .call main 0 none (.put ⟨["a"]⟩ "k" (.int 1)),
    .commitBound main 0, .rollback (1 : Nat)]

/-- The listener is told that `/a` was made and then, once, that the transaction is committed, and
both by one step. -/
theorem attended_commit_told_once :
    let s := (ofConfigs [{}]).run attendedSteps
    s.told "l" 1 =
      [.change (.created ⟨["a"]⟩ (.insert .empty "k" (.int 1)) ⟨some (1 : Nat), false⟩),
        .completed 1 true] ∧
    ∃ before step after, attendedSteps = before ++ step :: after ∧
      ((ofConfigs [{}]).run before).told "l" 1 = [] ∧
      ((ofConfigs [{}]).run before).ends step (1 : Nat) true ∧
      s.told "l" 1 = (((ofConfigs [{}]).run before).take step).told "l" 1 := by
  intro s
  obtain ⟨-, -, -, hended, -⟩ := completion_told_once [{}] Stripe.hash attendedSteps 1
  obtain ⟨before, step, after, hsplit, -, -, hmay, htold⟩ := hended 0 true (by decide +kernel)
  obtain ⟨hbefore, hafter, -⟩ := htold "l"
  exact ⟨by decide +kernel, before, step, after, hsplit, hbefore, hmay, hafter⟩

end Session

end TransactionalTree
