/-
**Who can be reached.**

A transaction is reached by a handle or through a thread that is bound to it.  References go when a
handle is dropped or given to another transaction, when a thread lays its transaction aside, and
when a thread ends; whoever is left without any is rolled back in the same step.  So at any time
every transaction that has not ended can be reached.

Main definitions:

* `Session.Stays` — handles and bindings stay, and no transaction opens;
* `Session.Tended` — **every transaction that has not ended can be reached**, and a thread is bound
  to one transaction of a cache at most.

Main results:

* `Session.ended_of_lost` — whoever is left without a reference is rolled back;
* `Session.Tended.take`, `Session.tended_run` — at any time all is tended.
-/

import TransactionalTree.Proofs.Sessions

set_option relaxedAutoImplicit false
set_option autoImplicit false

namespace TransactionalTree

namespace Session

variable {s s' s'' : Session} {id other : TransactionId} {tx tx' : Transaction} {t : ThreadId}
variable {k : Nat} {b b' : Binding}

/-! ### What stays -/

/-- The transaction was begun and has not ended. -/
def isOpen (s : Session) (id : TransactionId) : Bool :=
  (s.transactions.get? id).any (!·.status.isCompleted)

theorem isOpen_iff : s.isOpen id = true ↔
    ∃ tx, s.transactions.get? id = some tx ∧ tx.status.isCompleted = false := by
  rw [isOpen, Option.any_eq_true]
  simp

theorem isReferenced_iff : s.isReferenced id = true ↔
    id ∈ s.handles.values ∨ ∃ b ∈ s.bindings, b.transaction = id := by
  rw [isReferenced, Bool.or_eq_true, List.contains_iff_mem, List.any_eq_true]
  simp

theorem isReferenced_congr (hh : s'.handles = s.handles) (hb : s'.bindings = s.bindings) :
    s'.isReferenced id = s.isReferenced id := by
  rw [isReferenced, hh, hb, isReferenced]

/-- **Handles and bindings stay**, and what has not ended had not ended before. -/
structure Stays (s s' : Session) : Prop where
  /-- The handles. -/
  handles : s'.handles = s.handles
  /-- The bindings. -/
  bindings : s'.bindings = s.bindings
  /-- What has not ended. -/
  opens : ∀ id, s'.isOpen id = true → s.isOpen id = true

namespace Stays

theorem refl (s : Session) : s.Stays s := ⟨rfl, rfl, fun _ h => h⟩

theorem trans (h : s.Stays s') (h' : s'.Stays s'') : s.Stays s'' :=
  ⟨h'.handles.trans h.handles, h'.bindings.trans h.bindings,
    fun id ho => h.opens id (h'.opens id ho)⟩

theorem of_same (htx : s'.transactions = s.transactions) (hh : s'.handles = s.handles)
    (hb : s'.bindings = s.bindings) : s.Stays s' :=
  ⟨hh, hb, fun id ho => by rwa [isOpen, htx] at ho⟩

/-- One transaction is replaced, and if it has not ended it had not. -/
theorem of_insert (hid : s.transactions.get? id = some tx) (tx' : Transaction)
    (hopen : tx'.status.isCompleted = false → tx.status.isCompleted = false)
    (htx : s'.transactions = s.transactions.insert id tx') (hh : s'.handles = s.handles)
    (hb : s'.bindings = s.bindings) : s.Stays s' := by
  refine ⟨hh, hb, fun other ho => ?_⟩
  obtain ⟨new, hnew, hnopen⟩ := isOpen_iff.1 ho
  rw [htx, SortedMap.get?_insert] at hnew
  split at hnew
  · rename_i heq
    obtain rfl := Option.some.inj hnew
    exact isOpen_iff.2 ⟨tx, heq ▸ hid, hopen hnopen⟩
  · exact isOpen_iff.2 ⟨new, hnew, hnopen⟩

end Stays

/-! ### Steps of one transaction -/

theorem stays_stepIn {α : Type} {step : Base → Work → Work × Except TreeError α}
    (hid : s.transactions.get? id = some tx) : s.Stays (s.stepIn id step).1 := by
  simp only [stepIn, transaction_eq hid]
  split
  · generalize step (s.cache tx.cache).store.base ⟨(s.cache tx.cache).store.locks, tx.context⟩ = r
    exact .of_insert hid { tx with context := r.1.context } (fun h => h) rfl rfl rfl
  · exact .refl s

theorem stays_setOptions (hid : s.transactions.get? id = some tx) (options : Options) :
    s.Stays (s.setOptions id options) := by
  simp only [setOptions, transaction_eq hid]
  exact .of_insert hid { tx with context := { tx.context with options } } (fun h => h) rfl rfl rfl

theorem isOpen_absorb (s : Session) (id : TransactionId) (e : Ending) (status : Status) :
    (s.absorb id e status).isOpen other =
      if other = id then !status.isCompleted else s.isOpen other := by
  rw [isOpen, show (s.absorb id e status).transactions = s.transactions.insert id
    { s.transaction id with context := e.context, status := status } from rfl,
    SortedMap.get?_insert]
  split
  · rfl
  · rfl

/-- A transaction that has not ended ends, or fails to. -/
theorem stays_absorb (hid : s.isOpen id = true) (e : Ending) (status : Status) :
    s.Stays (s.absorb id e status) := by
  refine ⟨rfl, rfl, fun other ho => ?_⟩
  rw [isOpen_absorb] at ho
  split at ho
  · rename_i heq
    rwa [heq]
  · exact ho

theorem stays_count (s : Session) (k : Nat) (f : TransactionCounts → TransactionCounts) :
    s.Stays (s.count k f) :=
  .of_same rfl rfl rfl

theorem stays_commitTransaction (hid : s.transactions.get? id = some tx) :
    s.Stays (s.commitTransaction id).1 := by
  simp only [commitTransaction, transaction_eq hid]
  split
  · rename_i hactive
    have habsorb := stays_absorb (isOpen_iff.2 ⟨tx, hid, by rw [hactive]; rfl⟩)
      ((s.cache tx.cache).store.commit tx.context)
    split
    · exact (habsorb _).trans (stays_count _ _ _)
    · split
      · simp only
        split
        · exact (habsorb _).trans (stays_count _ _ _)
        · exact habsorb _
      · exact (habsorb _).trans (stays_count _ _ _)
  · exact .refl s

theorem stays_rollbackTransaction (s : Session) (id : TransactionId) :
    s.Stays (s.rollbackTransaction id).1 := by
  simp only [rollbackTransaction]
  split
  · exact .refl s
  · refine ⟨rfl, rfl, fun other ho => ?_⟩
    have ho := (isOpen_absorb s id _ .rolledBack).symm.trans ho
    split at ho
    · simp [Status.isCompleted] at ho
    · exact ho

/-- **A rollback ends the transaction.** -/
theorem not_isOpen_rollbackTransaction (s : Session) (id : TransactionId) :
    (s.rollbackTransaction id).1.isOpen id = false := by
  simp only [rollbackTransaction]
  split
  · rename_i hdone
    refine Bool.eq_false_iff.2 fun ho => ?_
    obtain ⟨tx, htx, hopen⟩ := isOpen_iff.1 ho
    rw [transaction_eq htx, hopen] at hdone
    simp at hdone
  · exact (isOpen_absorb s id _ .rolledBack).trans (if_pos rfl)

/-! ### Transactions that nobody can reach -/

theorem mem_lost : id ∈ s.lost ↔ s.isOpen id = true ∧ s.isReferenced id = false := by
  rw [lost, SortedMap.mem_keys, SortedMap.get?_filter, isOpen]
  cases s.transactions.get? id <;> simp [Option.filter]

/-- Several transactions may be rolled back one after the other; then they have ended. -/
theorem stays_rollbackAll (s : Session) (ids : List TransactionId) :
    let s' := ids.foldl (fun s id => (s.rollbackTransaction id).1) s
    s.Stays s' ∧ ∀ id ∈ ids, s'.isOpen id = false := by
  induction ids generalizing s with
  | nil => exact ⟨.refl s, by simp⟩
  | cons id ids ih =>
      have hfirst := stays_rollbackTransaction s id
      obtain ⟨hrest, hended⟩ := ih (s.rollbackTransaction id).1
      refine ⟨hfirst.trans hrest, List.forall_mem_cons.2 ⟨?_, hended⟩⟩
      refine Bool.eq_false_iff.2 fun ho => ?_
      have hopen := hrest.opens id ho
      rw [not_isOpen_rollbackTransaction] at hopen
      exact absurd hopen (by decide)

theorem stays_settle (s : Session) : s.Stays s.settle := (stays_rollbackAll s s.lost).1

/-- **Nobody is left whom nobody can reach.** -/
theorem isReferenced_of_settle (s : Session) (h : s.settle.isOpen id = true) :
    s.settle.isReferenced id = true := by
  obtain ⟨hstays, hended⟩ := stays_rollbackAll s s.lost
  rw [← Bool.not_eq_false]
  intro hno
  rw [settle, isReferenced_congr hstays.handles hstays.bindings] at hno
  have hlost := hended id (mem_lost.2 ⟨hstays.opens id h, hno⟩)
  exact absurd (h.symm.trans hlost) (by decide)

/-! ### The invariant -/

/-- **A thread is bound to one transaction of a cache at most.** -/
def Single (s : Session) : Prop :=
  ∀ b ∈ s.bindings, ∀ b' ∈ s.bindings, b.thread = b'.thread → b.cache = b'.cache →
    b.transaction = b'.transaction

namespace Single

theorem of_subset (h : s.Single) (hb : ∀ b ∈ s'.bindings, b ∈ s.bindings) : s'.Single :=
  fun b hmem b' hmem' => h b (hb b hmem) b' (hb b' hmem')

/-- The bindings after a thread that is bound to nothing was bound. -/
theorem bindings_bind (hfree : s.bound? t k = none) (id : TransactionId) :
    (s.bind t k id).bindings = s.bindings ++ [⟨t, k, id⟩] := by
  have hno : ∀ b ∈ s.bindings, b.thread = t → ¬b.cache = k := by simpa [bound?] using hfree
  have hsame : (s.unbind t k).bindings = s.bindings := by
    refine List.filter_eq_self.2 fun b hb => ?_
    rw [← Bool.decide_and, Bool.not_eq_true', decide_eq_false_iff_not]
    exact fun hkey => hno b hb hkey.1 hkey.2
  rw [Session.bind, hsame]

/-- A thread that is bound to nothing may be bound. -/
theorem bind (h : s.Single) (hfree : s.bound? t k = none) (id : TransactionId) :
    (s.bind t k id).Single := by
  have hno : ∀ b ∈ s.bindings, b.thread = t → ¬b.cache = k := by simpa [bound?] using hfree
  intro b hb b' hb' ht hk
  rw [bindings_bind hfree, List.mem_append, List.mem_singleton] at hb hb'
  rcases hb with hb | rfl <;> rcases hb' with hb' | rfl
  · exact h b hb b' hb' ht hk
  · exact absurd hk (hno b hb ht)
  · exact absurd hk.symm (hno b' hb' ht.symm)
  · rfl

/-- A thread is bound to the transaction that it finds itself bound to, and to no other one. -/
theorem transaction_eq (h : s.Single) (hid : s.bound? t k = some id) (hb : b ∈ s.bindings)
    (ht : b.thread = t) (hk : b.cache = k) : b.transaction = id := by
  obtain ⟨b', hb', rfl⟩ := Option.map_eq_some_iff.1 hid
  have hkey := List.find?_some hb'
  rw [Bool.and_eq_true, decide_eq_true_eq, decide_eq_true_eq] at hkey
  exact h b hb b' (List.mem_of_find?_eq_some hb') (ht.trans hkey.1.symm) (hk.trans hkey.2.symm)

end Single

/-- **Every transaction that has not ended can be reached.** -/
structure Tended (s : Session) : Prop where
  /-- By a handle or through a thread. -/
  reached : ∀ id, s.isOpen id = true → s.isReferenced id = true
  /-- No thread is bound to two transactions of a cache. -/
  single : s.Single

namespace Tended

theorem of_stays (h : s.Tended) (hs : s.Stays s') : s'.Tended where
  reached id ho :=
    (isReferenced_congr hs.handles hs.bindings).trans (h.reached id (hs.opens id ho))
  single := h.single.of_subset fun b hb => by rwa [hs.bindings] at hb

/-- Whatever references have gone, those who cannot be reached any more are rolled back. -/
theorem settle (h : s.Single) : s.settle.Tended where
  reached _ := isReferenced_of_settle s
  single := h.of_subset fun b hb => by rwa [(stays_settle s).bindings] at hb

theorem keep (h : s.Single) (handle : Option String) (id : TransactionId) :
    (s.keep handle id).Tended := by
  cases handle with
  | none => exact settle h
  | some handle => exact settle (s := { s with handles := s.handles.insert handle id }) h

/-- A binding may go if its transaction has ended. -/
theorem unbind (h : s.Tended) (hid : s.bound? t k = some id) (hdone : s.isOpen id = false) :
    (s.unbind t k).Tended where
  reached other ho := by
    have ho : s.isOpen other = true := ho
    rcases isReferenced_iff.1 (h.reached other ho) with hh | ⟨b, hb, rfl⟩
    · exact isReferenced_iff.2 (.inl hh)
    · refine isReferenced_iff.2 (.inr ⟨b, List.mem_filter.2 ⟨hb, ?_⟩, rfl⟩)
      rw [← Bool.decide_and, Bool.not_eq_true', decide_eq_false_iff_not]
      rintro ⟨ht, hk⟩
      rw [h.single.transaction_eq hid hb ht hk, hdone] at ho
      exact absurd ho (by decide)
  single := h.single.of_subset fun _ hb => (List.mem_filter.1 hb).1

/-- A thread that is bound to nothing may be bound. -/
theorem bind (h : s.Tended) (hfree : s.bound? t k = none) (id : TransactionId) :
    (s.bind t k id).Tended where
  reached other ho := by
    rcases isReferenced_iff.1 (h.reached other ho) with hh | ⟨b, hb, rfl⟩
    · exact isReferenced_iff.2 (.inl hh)
    · refine isReferenced_iff.2 (.inr ⟨b, ?_, rfl⟩)
      rw [Single.bindings_bind hfree]
      exact List.mem_append_left _ hb
  single := h.single.bind hfree id

/-! ### Threads -/

theorem not_isOpen_of_completed (hdone : (s.status id).isCompleted = true) :
    s.isOpen id = false := by
  refine Bool.eq_false_iff.2 fun ho => ?_
  obtain ⟨tx, htx, hopen⟩ := isOpen_iff.1 ho
  rw [status, transaction_eq htx, hopen] at hdone
  exact absurd hdone (by decide)

/-- **Looking up the transaction of a thread** keeps the invariant.  Who finds none is bound to none
afterwards. -/
theorem current (h : s.Tended) (t : ThreadId) (k : Nat) :
    (∃ s₁, s.current t k = (s₁, none) ∧ s₁.Tended ∧ s₁.bound? t k = none) ∨
      ∃ id, s.current t k = (s, some id) ∧ s.bound? t k = some id := by
  simp only [Session.current]
  split
  · rename_i hnone
    exact .inl ⟨s, rfl, h, hnone⟩
  · rename_i id hid
    split
    · rename_i hdone
      refine .inl ⟨_, rfl, h.unbind hid (not_isOpen_of_completed hdone), ?_⟩
      rw [bound?, Option.map_eq_none_iff, List.find?_eq_none]
      intro b hb
      rw [Bool.not_eq_true, ← Bool.not_eq_true']
      exact (List.mem_filter.1 hb).2
    · exact .inr ⟨id, rfl, hid⟩

theorem commitBound (h : s.Tended) (hs : s.Sane) (t : ThreadId) (k : Nat) :
    (s.commitBound t k).1.Tended := by
  rcases h.current t k with ⟨s₁, hc, hcurrent, -⟩ | ⟨id, hc, hid⟩
  · simp only [Session.commitBound, hc]
    exact hcurrent
  · simp only [Session.commitBound, hc]
    obtain ⟨b, hb, rfl⟩ := Option.map_eq_some_iff.1 hid
    obtain ⟨tx, htx⟩ := isBegun_iff.1 (hs.bound (List.mem_of_find?_eq_some hb))
    have hcommit := stays_commitTransaction htx
    split
    · rename_i hdone
      refine (h.of_stays hcommit).unbind ?_ (not_isOpen_of_completed hdone)
      rw [bound?, hcommit.bindings]
      exact hid
    · exact h.of_stays hcommit

/-- It does not matter whether a binding goes before or after its transaction is rolled back. -/
theorem rollbackTransaction_unbind (s : Session) (id : TransactionId) :
    ((s.unbind t k).rollbackTransaction id).1 = (s.rollbackTransaction id).1.unbind t k := by
  have hsame : (s.unbind t k).transaction id = s.transaction id := rfl
  simp only [rollbackTransaction, hsame]
  split
  · rfl
  · rfl

theorem rollbackBound (h : s.Tended) (t : ThreadId) (k : Nat) :
    (s.rollbackBound t k).1.Tended := by
  rcases h.current t k with ⟨s₁, hc, hcurrent, -⟩ | ⟨id, hc, hid⟩
  · simp only [Session.rollbackBound, hc]
    exact hcurrent
  · simp only [Session.rollbackBound, hc]
    have hrollback := stays_rollbackTransaction s id
    rw [rollbackTransaction_unbind]
    refine (h.of_stays hrollback).unbind ?_ (not_isOpen_rollbackTransaction s id)
    rw [bound?, hrollback.bindings]
    exact hid

theorem resume (h : s.Tended) (t : ThreadId) (k : Nat) (id : TransactionId) :
    (s.resume t k id).1.Tended := by
  simp only [Session.resume]
  split
  · exact h
  · split
    · exact h
    · rcases h.current t k with ⟨s₁, hc, hcurrent, hfree⟩ | ⟨other, hc, -⟩
      · simp only [hc]
        exact hcurrent.bind hfree id
      · simp only [hc]
        exact h

theorem call (h : s.Tended) (hs : s.Sane) (t : ThreadId) (k : Nat) (options : Option Options)
    (o : Operation) : (s.call t k options o).1.Tended := by
  rcases h.current t k with ⟨s₁, hc, hcurrent, -⟩ | ⟨id, hc, hid⟩
  · simp only [Session.call, hc]
    refine hcurrent.of_stays ?_
    simp only [callAlone]
    split
    · exact .of_same rfl rfl rfl
    · split
      · exact .of_same rfl rfl rfl
      · exact .of_same rfl rfl rfl
  · simp only [Session.call, hc]
    obtain ⟨b, hb, rfl⟩ := Option.map_eq_some_iff.1 hid
    obtain ⟨tx, htx⟩ := isBegun_iff.1 (hs.bound (List.mem_of_find?_eq_some hb))
    cases options with
    | none => exact h.of_stays (stays_stepIn htx)
    | some options => exact h.of_stays (stays_stepIn htx)

/-! ### Runs -/

/-- A step of a transaction that was begun, or none. -/
theorem within {f : Session → Session} (h : s.Tended)
    (hf : ∀ tx, s.transactions.get? id = some tx → (f s).Tended) : (s.within id f).Tended := by
  rw [Session.within]
  split
  · rename_i hid
    obtain ⟨tx, htx⟩ := isBegun_iff.1 hid
    exact hf tx htx
  · exact h

/-- **After each step every transaction that has not ended can be reached.** -/
theorem take (h : s.Tended) (hs : s.Sane) (step : SessionStep) : (s.take step).Tended := by
  cases step with
  | beginBound t k handle =>
      rcases h.current t k with ⟨s₁, hc, hcurrent, hfree⟩ | ⟨id, hc, -⟩
      · simp only [Session.take, beginBound, hc]
        exact .keep (Single.bind (s := (s₁.beginDetached t k).1) hcurrent.single hfree _) handle _
      · simp only [Session.take, beginBound, hc]
        exact h
  | beginDetached t k handle => exact .keep (s := (s.beginDetached t k).1) h.single handle _
  | call t k options o => exact h.call hs t k options o
  | perform id o =>
      exact h.within (f := fun s => (s.performIn id o).1) fun _ htx => h.of_stays (stays_stepIn htx)
  | setOptions id options =>
      exact h.within (f := fun s => s.setOptions id options) fun _ htx =>
        h.of_stays (stays_setOptions htx options)
  | commitBound t k => exact h.commitBound hs t k
  | rollbackBound t k => exact h.rollbackBound t k
  | commit id =>
      exact h.within (f := fun s => (s.commitTransaction id).1) fun _ htx =>
        h.of_stays (stays_commitTransaction htx)
  | rollback id =>
      exact h.within (f := fun s => (s.rollbackTransaction id).1) fun _ _ =>
        h.of_stays (stays_rollbackTransaction s id)
  | suspend t k handle =>
      rcases h.current t k with ⟨s₁, hc, hcurrent, -⟩ | ⟨id, hc, -⟩
      · simp only [Session.take, suspend, hc]
        exact hcurrent
      · simp only [Session.take, suspend, hc]
        have hsub : ∀ b ∈ (s.unbind t k).bindings, b ∈ s.bindings :=
          fun _ hb => (List.mem_filter.1 hb).1
        exact .keep (h.single.of_subset hsub) handle id
  | resume t k id =>
      exact h.within (f := fun s => (s.resume t k id).1) fun _ _ => h.resume t k id
  | endThread name =>
      simp only [Session.take, endThread]
      split
      · exact settle (h.single.of_subset fun _ hb => (List.mem_filter.1 hb).1)
      · exact h
  | name handle id =>
      exact h.within (f := fun s => s.name handle id) fun _ _ =>
        settle (s := { s with handles := s.handles.insert handle id }) h.single
  | drop handle => exact settle (s := { s with handles := s.handles.erase handle }) h.single
  | addListener k name => exact h.of_stays (.of_same rfl rfl rfl)
  | removeListener k name => exact h.of_stays (.of_same rfl rfl rfl)
  | purge k => exact h.of_stays (.of_same rfl rfl rfl)

theorem run (h : s.Tended) (hs : s.Sane) (steps : List SessionStep) : (s.run steps).Tended := by
  induction steps generalizing s with
  | nil => exact h
  | cons step steps ih => exact ih (h.take hs step) (hs.take step)

end Tended

/-- **At any time every transaction that has not ended can be reached.** -/
theorem tended_run (configs : List Config) (hash : Path → UInt64) (steps : List SessionStep) :
    ((ofConfigs configs hash).run steps).Tended := by
  refine Tended.run ⟨fun id ho => ?_, fun b hb => ?_⟩ (sane_ofConfigs configs hash) steps
  · obtain ⟨tx, htx, -⟩ := isOpen_iff.1 ho
    simp [ofConfigs] at htx
  · simp [ofConfigs] at hb

end Session

end TransactionalTree
