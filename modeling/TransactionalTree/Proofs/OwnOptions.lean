/-
**Whose options a commit goes by.**

The options of a unit of work say under which version its commit stamps what it writes, and whether
the changes are marked as not to be passed on.  A transaction has options of its own; an operation
in it can be given others, which then hold for its locks and for the check of its version.  But when
the transaction is committed, the options of the operations are long forgotten: everything goes by
the own options of the transaction.

Main definitions:

* `Event.origin` — where an event comes from;
* `Store.GoesThrough` — a commit is not refused.

Main results:

* `Store.commit_cases` — a commit is concluded and tells its changes, or it fails;
* `Store.origin_of_commit` — all events of a commit are marked by the options of its unit of work;
* `Session.commit_goes_by_own_options` — **a transaction is committed under its own options**,
  whatever options its operations were given;
* `Session.not_call_options_govern` — so the options of an operation may count for nothing.
-/

import TransactionalTree.Proofs.Replay
import TransactionalTree.Proofs.Sessions
import TransactionalTree.Proofs.Stamps

set_option relaxedAutoImplicit false
set_option autoImplicit false

namespace TransactionalTree

/-! ### Where events come from -/

/-- Who made the change, and whether it is to be passed on. -/
def Event.origin : Event → Origin
  | created _ _ o => o
  | modified _ _ _ o => o
  | removed _ _ o => o
  | moved _ _ o => o

section Origins

variable {t t' : CommittedTree} {v : Version} {o : Origin} {p : Path} {e : Entry} {x : Event}
variable {es : List (Path × Entry)} {events : List Event}

theorem origin_of_mergeRemoval (hm : mergeRemoval t v o p e = .ok (t', events))
    (hx : x ∈ events) : x.origin = o := by
  simp only [mergeRemoval] at hm
  split at hm
  · split at hm
    · simp at hm
    · obtain ⟨-, rfl⟩ := by simpa using hm
      rw [List.mem_singleton.1 hx]
      rfl
    · obtain ⟨-, rfl⟩ := by simpa using hm
      simp at hx
  · obtain ⟨-, rfl⟩ := by simpa using hm
    simp at hx

theorem origin_of_mergeReplacement (hm : mergeReplacement t v o p e = .ok (t', events))
    (hx : x ∈ events) : x.origin = o := by
  simp only [mergeReplacement] at hm
  split at hm
  · simp at hm
  · obtain ⟨-, rfl⟩ := Prod.mk.inj (Except.ok.inj hm)
    rcases List.mem_append.1 hx with hx | hx
    · obtain ⟨before, -, rfl⟩ := List.mem_map.1 hx
      rfl
    · rw [List.mem_singleton.1 hx]
      rfl

theorem origin_of_mergeCreation (hm : mergeCreation t v o p e = .ok (t', events))
    (hx : x ∈ events) : x.origin = o := by
  simp only [mergeCreation] at hm
  split at hm
  · split at hm
    · split at hm
      · simp at hm
      · obtain ⟨-, rfl⟩ := Prod.mk.inj (Except.ok.inj hm)
        rw [List.mem_singleton.1 hx]
        rfl
    · obtain ⟨-, rfl⟩ := Prod.mk.inj (Except.ok.inj hm)
      simp at hx
  · split at hm
    · simp at hm
    · obtain ⟨-, rfl⟩ := Prod.mk.inj (Except.ok.inj hm)
      rw [List.mem_singleton.1 hx]
      rfl

theorem origin_of_mergeUpdate (hm : mergeUpdate t v o p e = .ok (t', events)) (hx : x ∈ events) :
    x.origin = o := by
  simp only [mergeUpdate] at hm
  split at hm
  · simp at hm
  · obtain ⟨-, rfl⟩ := Prod.mk.inj (Except.ok.inj hm)
    rw [List.mem_singleton.1 hx]
    rfl

/-- The events of one entry come from the unit of work that is merged. -/
theorem origin_of_mergeEntry (hm : mergeEntry t v o p e = .ok (t', events)) (hx : x ∈ events) :
    x.origin = o := by
  simp only [mergeEntry] at hm
  split at hm
  · exact origin_of_mergeRemoval hm hx
  · split at hm
    · split at hm
      · exact origin_of_mergeReplacement hm hx
      · exact origin_of_mergeCreation hm hx
    · split at hm
      · exact origin_of_mergeUpdate hm hx
      · obtain ⟨-, rfl⟩ := Prod.mk.inj (Except.ok.inj hm)
        simp at hx

/-- **All events of a merge come from the unit of work that is merged.** -/
theorem origin_of_mergeAll (hm : (mergeAll t v o es).events = .ok events) (hx : x ∈ events) :
    x.origin = o := by
  induction es generalizing t events with
  | nil =>
      obtain rfl := Except.ok.inj hm
      simp at hx
  | cons a es ih =>
      simp only [mergeAll] at hm
      cases hfirst : mergeEntry t v o a.1 a.2 with
      | error err => simp [hfirst] at hm
      | ok r =>
          obtain ⟨t₁, first⟩ := r
          rw [hfirst] at hm
          simp only at hm
          cases hrest : (mergeAll t₁ v o es).events with
          | error err =>
              rw [hrest] at hm
              simp [Except.map] at hm
          | ok rest =>
              rw [hrest] at hm
              obtain rfl := Except.ok.inj hm
              rcases List.mem_append.1 hx with hx | hx
              · exact origin_of_mergeEntry hfirst hx
              · exact ih hrest hx

/-- **The commit goes through**: nothing was changed, or nothing is in the way and all is merged. -/
def Store.GoesThrough (s : Store) (c : Context) : Prop := c.hasChanges = true → s.Completes c

/-- **What comes of a commit**: it goes through, is concluded, and tells the changes, which are
marked by the options of the unit of work; or it fails, and the unit of work stays as it was. -/
theorem Store.commit_cases (s : Store) (c : Context) :
    (∃ (tree : CommittedTree) (events : List Event), s.GoesThrough c ∧
      (∀ x ∈ events, x.origin = ⟨c.transaction, c.options.localOnly⟩) ∧ s.commit c =
        Store.conclude { s with tree } c true (deliver s.listeners (events.map .change))) ∨
    ∃ tree err, ¬s.GoesThrough c ∧ c.hasChanges = true ∧
      s.commit c = ⟨{ s with tree }, c, .error err, []⟩ := by
  have ho := commit_outcome s c
  generalize s.commit c = ending at ho
  cases ho with
  | idle hno =>
      exact .inl ⟨s.tree, [], fun hchanges => absurd (hno.symm.trans hchanges) (by decide), by simp,
        rfl⟩
  | refused hchanges hx =>
      refine .inr ⟨s.tree, _, fun hgo => ?_, hchanges, rfl⟩
      have hclear := (hgo hchanges).1
      rw [hx] at hclear
      exact absurd hclear (by simp)
  | torn hchanges _ hm =>
      refine .inr ⟨_, _, fun hgo => ?_, hchanges, rfl⟩
      have hmerged := (hgo hchanges).2
      rw [hm] at hmerged
      exact absurd hmerged Bool.false_ne_true
  | @merged events _ hx hm =>
      refine .inl ⟨_, allEvents c events, fun _ => ⟨hx, by rw [hm]; rfl⟩, fun x hx => ?_, rfl⟩
      rcases List.mem_append.1 hx with hx | hx
      · rw [merge_eq] at hm
        exact origin_of_mergeAll hm hx
      · obtain ⟨m, -, rfl⟩ := List.mem_map.1 hx
        rfl

/-- **All events of a commit are marked by the options of its unit of work.** -/
theorem Store.origin_of_commit {s : Store} {c : Context} {l : String}
    (hx : x ∈ heard l (s.commit c).sent) :
    x.origin = ⟨c.transaction, c.options.localOnly⟩ := by
  rcases s.commit_cases c with ⟨tree, events, -, horigin, hcommit⟩ | ⟨tree, err, -, -, hcommit⟩
  · rw [hcommit, conclude, heard_append, heard_deliver_changes, heard_deliver_completion,
      List.append_nil] at hx
    obtain ⟨y, hy, hx⟩ := List.mem_flatMap.1 hx
    obtain rfl := List.eq_of_mem_replicate hx
    exact horigin x hy
  · rw [hcommit] at hx
    simp [heard] at hx

end Origins

/-! ### Commits of transactions -/

namespace Session

variable {s s₀ : Session} {id : TransactionId} {tx : Transaction} {before steps : List SessionStep}

/-- What a commit of a transaction leaves, if it succeeds: its cache has the tree of the commit, or
there is no such cache, and the listeners are told what the commit tells. -/
theorem commitTransaction_ok (hid : s.transactions.get? id = some tx)
    (hok : (s.commitTransaction id).2 = .ok ()) :
    let e := (s.cache tx.cache).store.commit tx.context
    (s.commitTransaction id).1.sent = s.sent ++ e.sent ∧
      (((s.commitTransaction id).1.cache tx.cache).store.tree = (s.cache tx.cache).store.tree ∨
        ((s.commitTransaction id).1.cache tx.cache).store.tree = e.store.tree) := by
  simp only [commitTransaction, transaction_eq hid] at hok ⊢
  generalize (s.cache tx.cache).store.commit tx.context = e at hok ⊢
  split at hok
  · rename_i hactive
    rw [if_pos hactive]
    split at hok
    · rename_i hresult
      simp only [store_count]
      refine ⟨by rw [absorb, transaction_eq hid]; rfl, ?_⟩
      rw [absorb, transaction_eq hid]
      rcases cache_setCache s tx.cache { s.cache tx.cache with store := e.store } tx.cache with
        hcache | ⟨-, hcache⟩
      · exact .inl (congrArg (·.store.tree) hcache)
      · exact .inr (congrArg (·.store.tree) hcache)
    · split at hok
      · simp at hok
      · simp at hok
  · simp at hok

/-- **A transaction is committed under its own options.**  Whatever it and all the others do
between `s₀` and its commit, and whatever options its operations are given: all events of the
commit, to every listener, say whether they are to be passed on as the options say that the
transaction was last given as its own; and what the commit changes in its cache is stamped with the
version that these options name, or with the next one if they name none, save that a tombstone keeps
a newer stamp of its own.  The options of the operations leave no trace. -/
theorem commit_goes_by_own_options {configs : List Config} {hash : Path → UInt64}
    (hstart : (ofConfigs configs hash).run before = s₀) (hid : s₀.transactions.get? id = some tx)
    (hrun : s₀.run steps = s) (hok : (s.commitTransaction id).2 = .ok ()) :
    let own := lastSet id tx.context.options steps
    let tree := (s.cache tx.cache).store.tree
    let ended := (s.commitTransaction id).1
    (∃ sent, ended.sent = s.sent ++ sent ∧
      ∀ l, ∀ x ∈ heard l sent, x.origin.localOnly = own.localOnly) ∧
    ∀ p, Restamped (own.version.getD tree.version.next) (tree.slots.get? p)
      ((ended.cache tx.cache).store.tree.slots.get? p) := by
  intro own tree ended
  have hsane₀ : s₀.Sane := hstart ▸ (sane_ofConfigs configs hash).run before
  have hsane : s.Sane := hrun ▸ hsane₀.run steps
  obtain ⟨tx', hid', hcache, hopts⟩ := transaction_run hsane₀ hid steps
  rw [hrun] at hid'
  obtain ⟨hsent, htree⟩ := commitTransaction_ok hid' hok
  rw [hcache] at hsent htree
  refine ⟨⟨_, hsent, fun l x hx => ?_⟩, fun p => ?_⟩
  · rw [Store.origin_of_commit hx, hopts]
  · rcases htree with hsame | hcommit
    · rw [show (ended.cache tx.cache).store.tree = tree from hsame]
      exact .kept _
    · have hchange := Store.restamped_commit (hsane.sound tx.cache) (hsane.tidy hid') p
      rw [Store.stamp_fst, hopts] at hchange
      rw [show (ended.cache tx.cache).store.tree = _ from hcommit]
      exact hchange

/-- The options of an operation: its changes are not to be passed on, and come under the version 5.
-/
def givenOptions : Options := { localOnly := true, version := some 5 }

/-- A thread begins a transaction, and a listener is there. -/
def givenStart : List SessionStep := [.addListener 0 "l", .beginBound ⟨"main", 0⟩ 0 none]

/-- It makes `/a` with these options. -/
def givenSteps : List SessionStep :=
  [.call ⟨"main", 0⟩ 0 (some givenOptions) (.put ⟨["a"]⟩ "k" (.int 1))]

/-- The session in which the transaction is to be committed. -/
def givenState : Session := ((ofConfigs [{}]).run givenStart).run givenSteps

/-- The commit tells that `/a` is to be passed on, and stamps it with the version 1. -/
theorem given_options_count_for_nothing :
    (∃ sent, (givenState.commitTransaction 1).1.sent = givenState.sent ++ sent ∧
      ∀ l, ∀ x ∈ heard l sent, x.origin.localOnly = false) ∧
    ∃ n, ((givenState.commitTransaction 1).1.cache 0).store.tree.slots.get? ⟨["a"]⟩ = some n ∧
      n.version = 1 := by
  obtain ⟨tx, hid, hcache, hopts⟩ : ∃ tx, ((ofConfigs [{}]).run givenStart).transactions.get? 1 =
      some tx ∧ tx.cache = 0 ∧ tx.context.options = {} :=
    ⟨_, Option.eq_some_of_isSome (by decide +kernel), by decide +kernel, by decide +kernel⟩
  obtain ⟨htold, hstamped⟩ := commit_goes_by_own_options
    (Eq.refl ((ofConfigs [{}]).run givenStart)) hid (Eq.refl givenState) (by decide +kernel)
  have hown : lastSet 1 tx.context.options givenSteps = {} := by
    rw [hopts]
    decide
  rw [hown] at htold hstamped
  rw [hcache] at hstamped
  have hversion : (givenState.cache 0).store.tree.version = 0 := by decide +kernel
  have hold : (givenState.cache 0).store.tree.slots.get? ⟨["a"]⟩ = none := by decide +kernel
  obtain ⟨n, hn⟩ : ∃ n, ((givenState.commitTransaction 1).1.cache 0).store.tree.slots.get?
      ⟨["a"]⟩ = some n := ⟨_, Option.eq_some_of_isSome (by decide +kernel)⟩
  have hslot := hstamped ⟨["a"]⟩
  rw [hversion, hold, hn] at hslot
  cases hslot with
  | stamped _ hv => exact ⟨htold, n, hn, hv⟩

/-- **The options of an operation need not govern what it writes**, though nothing else has written
it. -/
theorem not_call_options_govern :
    ¬∀ (configs : List Config) (before : List SessionStep) (t : ThreadId) (k : Nat)
      (given : Options) (p : Path) (key : String) (value : Value) (id : TransactionId) (n : Node),
      let s₀ := (ofConfigs configs).run before
      let s := s₀.take (.call t k (some given) (.put p key value))
      let ended := s.commitTransaction id
      s₀.bound? t k = some id → (s₀.transaction id).context.workspace = .empty →
      ended.2 = .ok () → (ended.1.cache k).store.tree.peek? p = some n →
      (∀ l, ∀ x ∈ heard l (ended.1.sent.drop s.sent.length),
        x.origin.localOnly = given.localOnly) ∧
        ∀ v, given.version = some v → n.version = v := by
  intro h
  have hversion := (h [{}] givenStart ⟨"main", 0⟩ 0 givenOptions ⟨["a"]⟩ "k" (.int 1) 1 _
    (by decide +kernel) (by decide +kernel) (by decide +kernel)
    (Option.eq_some_of_isSome (by decide +kernel))).2 5 rfl
  revert hversion
  decide +kernel

end Session

end TransactionalTree
