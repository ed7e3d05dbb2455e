/-
**What is rolled back leaves no trace.**

Until it is committed, all that a unit of work does stays in its workspace and in the locks that it
holds; a rollback forgets the one and gives back the others.  So a run in which it has taken part is
the run without it, in which the same is answered to all others, the same is committed and the same
events are told — unless one of its locks was in the way of another one.

Main definitions:

* `SharedTree.replies` — what is answered in the course of a run;
* `SharedTree.isHinderedBy`, `SharedTree.isNeverHindered` — **an owner's lock is refused to another
  unit of work**;
* `Turning` — what a turn makes of the units of work and of the locks;
* `SharedTree.Sole` — an owner has the locks that one unit of work has noted, and no others;
* `SharedTree.Without` — a state, and the same one without a unit of work;
* `Withdrawn` — a unit of work takes part in a run and is rolled back at last.

Main results:

* `SharedTree.Without.ownTurn`, `SharedTree.Without.otherTurn` — **its own turns make no difference
  to the others, nor does it make a difference to theirs**;
* `SharedTree.rollback_leaves_no_trace` — the run is the one without it.
-/

import TransactionalTree.Proofs.Accounts
import TransactionalTree.Proofs.Replay
import TransactionalTree.Proofs.Unhindered

set_option relaxedAutoImplicit false
set_option autoImplicit false

namespace TransactionalTree

/-! ### Who takes a turn -/

namespace Turn

/-- The name of the unit of work that takes the turn. -/
def actor? : Turn → Option String
  | .step taken => taken.actor?
  | .join name _ _ => some name
  | .listen _ => none
  | .unlisten _ => none

/-- The unit of work that begins with the turn: its name, and its owner. -/
def begun? : Turn → Option (String × Owner)
  | .step (.start name thread transaction) => some (name, Context.owner { thread, transaction })
  | .join name thread transaction => some (name, Context.owner { thread, transaction })
  | _ => none

/-- Whether a unit of work of this name begins with the turn. -/
def begins (name : String) (turn : Turn) : Bool := turn.begun?.any fun begun => begun.1 = name

end Turn

namespace SharedTree

/-! ### Answers and refusals -/

/-- What is answered to the unit of work that takes the turn. -/
def reply? (s : SharedTree) : Turn → Option (Except TreeError Answer)
  | .step (.perform name o) => s.ask name o
  | .step (.commit name) =>
      (s.context? name).map fun c => (s.commit name c).2.map fun _ => .done
  | .step (.rollback name) =>
      (s.context? name).map fun c => (s.rollback name c).2.map fun _ => .done
  | _ => none

/-- **What is answered** in the course of a run, turn by turn. -/
def replies (s : SharedTree) : List Turn → List (Turn × Option (Except TreeError Answer))
  | [] => []
  | turn :: turns => (turn, s.reply? turn) :: (s.takeTurn turn).replies turns

/-- The paths whose locks are refused in the turn. -/
def refusals (s : SharedTree) : Turn → List Path
  | .step (.perform name o) =>
      (s.context? name).elim [] fun c => s.store.base.refusals ⟨s.store.locks, c⟩ o
  | _ => []

/-- **The owner is in the way**: it holds a lock that is refused in the turn. -/
def isHinderedBy (s : SharedTree) (o : Owner) (turn : Turn) : Bool :=
  (s.refusals turn).any fun p => s.store.locks.table.owns p o

/-- The owner is in the way of none of the turns that units of work of other names take. -/
def isNeverHindered (s : SharedTree) (name : String) (o : Owner) : List Turn → Bool
  | [] => true
  | turn :: turns =>
      (turn.actor? = some name || !s.isHinderedBy o turn) &&
        (s.takeTurn turn).isNeverHindered name o turns

variable {s : SharedTree} {name : String} {turn : Turn} {turns : List Turn}

/-- A turn leaves the units of work of all other names alone. -/
theorem context?_takeTurn_of_ne (h : turn.actor? ≠ some name) :
    (s.takeTurn turn).context? name = s.context? name := by
  cases turn with
  | step step => exact context?_take_of_ne h
  | join other thread transaction =>
      refine SortedMap.get?_insert_of_ne ?_
      rintro rfl
      exact h rfl
  | listen l => rfl
  | unlisten l => rfl

/-- Turns of others leave a unit of work alone. -/
theorem context?_runTurns_of_ne (h : ∀ turn ∈ turns, turn.actor? ≠ some name) :
    (s.runTurns turns).context? name = s.context? name := by
  induction turns generalizing s with
  | nil => rfl
  | cons turn turns ih =>
      exact (ih fun t ht => h t (List.mem_cons_of_mem _ ht)).trans
        (context?_takeTurn_of_ne (h turn List.mem_cons_self))

end SharedTree

/-! ### What a turn makes of the units of work and of the locks -/

/-- The ways in which a turn can leave the units of work and the locks. -/
inductive Turning (s : SharedTree) (turn : Turn) (s₁ : SharedTree) : Prop
  /-- As they were. -/
  | idle (hcs : s₁.contexts = s.contexts) (hlocks : s₁.store.locks = s.store.locks)
  /-- A unit of work without locks has begun. -/
  | begun {name : String} {c : Context} (hturn : turn.begun? = some (name, c.owner))
      (hlocked : c.locked = .empty) (hcs : s₁.contexts = s.contexts.insert name c)
      (hlocks : s₁.store.locks = s.store.locks)
  /-- A unit of work goes on with other options. -/
  | set {name : String} {c : Context} {options : Options} (hturn : turn.actor? = some name)
      (hc : s.context? name = some c)
      (hcs : s₁.contexts = s.contexts.insert name { c with options })
      (hlocks : s₁.store.locks = s.store.locks)
  /-- A unit of work has taken and given back locks, one after the other. -/
  | traced {name : String} {c c₁ : Context} (hturn : turn.actor? = some name)
      (hc : s.context? name = some c) (hcs : s₁.contexts = s.contexts.insert name c₁)
      (htr : Work.Traced ⟨s.store.locks, c⟩ ⟨s₁.store.locks, c₁⟩)

/-- The time to wait stays. -/
theorem Work.Traced.timeout {w w' : Work} (h : w.Traced w') :
    w'.locks.timeout = w.locks.timeout := by
  induction h with
  | refl => rfl
  | acquire _ p ih =>
      refine Eq.trans ?_ ih
      simp only [Work.acquire]
      split
      · rfl
      · split <;> rfl
  | release _ _ ih =>
      refine Eq.trans ?_ ih
      simp only [Work.release, LockManager.releaseFor]
      split <;> rfl
  | restage _ _ ih => exact ih

namespace SharedTree

variable {s s₁ s' : SharedTree} {name other : String} {o : Owner} {c c₁ : Context}
variable {turn : Turn} {turns : List Turn}

/-- **What a turn can do** to the units of work and to the locks. -/
theorem turning_takeTurn (s : SharedTree) (turn : Turn) : Turning s turn (s.takeTurn turn) := by
  cases turn with
  | join name thread transaction => exact .begun rfl rfl rfl rfl
  | listen l => exact .idle rfl rfl
  | unlisten l => exact .idle rfl rfl
  | step step =>
      simp only [takeTurn]
      cases step with
      | start name thread transaction =>
          simp only [take]
          split
          · exact .idle rfl rfl
          · exact .begun rfl rfl rfl rfl
      | setOptions name options =>
          simp only [take]
          cases hc : s.context? name with
          | none => exact .idle rfl rfl
          | some c => exact .set rfl hc rfl rfl
      | perform name op =>
          simp only [take]
          cases hc : s.context? name with
          | none => exact .idle rfl rfl
          | some c =>
              exact .traced rfl hc rfl (s.store.base.holding_perform ⟨s.store.locks, c⟩ op).traced
      | commit name =>
          simp only [take]
          cases hc : s.context? name with
          | none => exact .idle rfl rfl
          | some c => exact .traced rfl hc rfl (Store.commit_traced s.store c)
      | rollback name =>
          simp only [take]
          cases hc : s.context? name with
          | none => exact .idle rfl rfl
          | some c => exact .traced rfl hc rfl (Store.conclude_traced s.store c _ _)
      | purge => exact .idle rfl rfl

/-! ### An owner of one unit of work -/

/-- **The owner is that of the unit of work of this name** and of no other one, and it holds the
locks that this one has noted, each once for each path. -/
structure Sole (name : String) (o : Owner) (s : SharedTree) : Prop where
  /-- The unit of work locks for the owner. -/
  own : ∀ {c : Context}, s.context? name = some c → c.owner = o
  /-- The others do not. -/
  others : ∀ {other : String} {c : Context}, other ≠ name → s.context? other = some c → c.owner ≠ o
  /-- What is held is noted. -/
  held : ∀ k, s.store.locks.table.heldBy k o =
    (s.context? name).elim 0 fun c => Work.noted ⟨s.store.locks, c⟩ k

namespace Sole

/-- Another unit of work has changed its own locks. -/
theorem of_other (h : Sole name o s) (hne : other ≠ name)
    (hcs : s₁.contexts = s.contexts.insert other c₁) (howner : c₁.owner ≠ o)
    (hstriping : s₁.store.locks.table.striping = s.store.locks.table.striping)
    (hheld : ∀ k, s₁.store.locks.table.heldBy k o = s.store.locks.table.heldBy k o) :
    Sole name o s₁ := by
  have hsame : s₁.context? name = s.context? name := by
    rw [context?_insert hcs, if_neg hne.symm]
    rfl
  constructor
  · intro c hc
    exact h.own (hsame.symm.trans hc)
  · intro n c hn hc
    rw [context?_insert hcs] at hc
    split at hc
    · obtain rfl := Option.some.inj hc
      exact howner
    · exact h.others hn hc
  · intro k
    rw [hheld, h.held, hsame]
    simp only [Work.noted, LockTable.keyOf_congr hstriping]

/-- The unit of work itself has changed its locks. -/
theorem of_own (h : Sole name o s) (hcs : s₁.contexts = s.contexts.insert name c₁)
    (howner : c₁.owner = o)
    (hheld : ∀ k, s₁.store.locks.table.heldBy k o = Work.noted ⟨s₁.store.locks, c₁⟩ k) :
    Sole name o s₁ := by
  constructor
  · intro c hc
    rw [context?_insert hcs, if_pos rfl] at hc
    obtain rfl := Option.some.inj hc
    exact howner
  · intro n c hn hc
    rw [context?_insert hcs, if_neg hn] at hc
    exact h.others hn hc
  · intro k
    rw [hheld, context?_insert hcs, if_pos rfl]
    rfl

/-- **A turn leaves the owner to its unit of work**, unless this begins twice, or another one begins
for the owner. -/
theorem takeTurn (h : Sole name o s)
    (honce : turn.begins name = true → s.context? name = none)
    (howner : ∀ begun ∈ turn.begun?, (begun.2 = o ↔ begun.1 = name)) :
    Sole name o (s.takeTurn turn) := by
  cases turning_takeTurn s turn with
  | idle hcs hlocks =>
      have hsame : ∀ n, (s.takeTurn turn).context? n = s.context? n := fun n => by
        rw [context?, hcs]
        rfl
      refine ⟨fun hc => h.own ((hsame _).symm.trans hc),
        fun hn hc => h.others hn ((hsame _).symm.trans hc), fun k => ?_⟩
      rw [hsame, hlocks]
      exact h.held k
  | @begun other c hturn hlocked hcs hlocks =>
      by_cases hn : other = name
      · subst hn
        have hnone := honce (by simp [Turn.begins, hturn])
        refine h.of_own hcs ((howner _ hturn).2 rfl) fun k => ?_
        have hheld := h.held k
        rw [hnone] at hheld
        rw [hlocks, hheld, Work.noted, hlocked]
        rfl
      · exact h.of_other hn hcs (fun ho => hn ((howner _ hturn).1 ho))
          (congrArg (·.table.striping) hlocks) fun k => congrArg (·.table.heldBy k o) hlocks
  | @set other c options _ hc hcs hlocks =>
      by_cases hn : other = name
      · subst hn
        have ho : c.owner = o := h.own hc
        refine h.of_own hcs ho fun k => ?_
        have hheld := h.held k
        rw [hc] at hheld
        rw [hlocks]
        exact hheld
      · have ho : c.owner ≠ o := h.others hn hc
        exact h.of_other hn hcs ho (congrArg (·.table.striping) hlocks)
          fun k => congrArg (·.table.heldBy k o) hlocks
  | @traced other c c₁ _ hc hcs htr =>
      have hbal := htr.balanced
      by_cases hn : other = name
      · subst hn
        have ho := h.own hc
        have hnoted : ∀ k, s.store.locks.table.heldBy k c.owner =
            Work.noted ⟨s.store.locks, c⟩ k := fun k => by
          rw [ho, h.held k, hc]
          rfl
        refine h.of_own hcs (hbal.owner.trans ho) fun k => ?_
        -- as much has come to be held as has come to be noted
        have hk := (htr.conserves fun k => Nat.le_of_eq (hnoted k).symm).held k
        have hbefore := hnoted k
        simp only at hk
        rw [← ho]
        omega
      · have ho := h.others hn hc
        refine h.of_other hn hcs (fun heq => ho (hbal.owner.symm.trans heq)) hbal.striping
          fun k => hbal.others k o ho.symm

/-- When the unit of work has no path noted, the owner holds no lock. -/
theorem heldBy_eq_zero (h : Sole name o s)
    (hlocked : ∀ c, s.context? name = some c → c.locked = .empty) (k : LockKey) :
    s.store.locks.table.heldBy k o = 0 := by
  rw [h.held]
  cases hc : s.context? name with
  | none => rfl
  | some c =>
      rw [Option.elim_some, Work.noted, hlocked c hc]
      rfl

end Sole

end SharedTree

/-! ### Without one unit of work -/

/-- Whether it is the end of a transaction that locks for this owner. -/
def Notice.isEndOf (o : Owner) : Notice → Bool
  | change _ => false
  | completed id _ => o = .transaction id

/-- What is told apart from the end of the owner's transaction. -/
def apartFrom (o : Owner) (sent : List Delivery) : List Delivery :=
  sent.filter fun d => !d.notice.isEndOf o

section ApartFrom

variable {o : Owner} {c : Context}

theorem apartFrom_append (sent sent' : List Delivery) :
    apartFrom o (sent ++ sent') = apartFrom o sent ++ apartFrom o sent' :=
  List.filter_append _ _

theorem apartFrom_completion (ls : List String) (committed : Bool) (h : c.owner = o) :
    apartFrom o (deliver ls (completion c.transaction committed)) = [] := by
  refine List.filter_eq_nil_iff.2 fun d hd => ?_
  obtain ⟨id, hid, hnotice⟩ := mem_deliver_completion hd
  rw [Context.owner, hid] at h
  simp [hnotice, Notice.isEndOf, ← h]

theorem apartFrom_completion_of_ne (ls : List String) (committed : Bool) (h : c.owner ≠ o) :
    apartFrom o (deliver ls (completion c.transaction committed)) =
      deliver ls (completion c.transaction committed) := by
  refine List.filter_eq_self.2 fun d hd => ?_
  obtain ⟨id, hid, hnotice⟩ := mem_deliver_completion hd
  rw [Context.owner, hid] at h
  simp [hnotice, Notice.isEndOf, Ne.symm h]

theorem apartFrom_changes (ls : List String) (events : List Event) :
    apartFrom o (deliver ls (events.map .change)) = deliver ls (events.map .change) := by
  refine List.filter_eq_self.2 fun d hd => ?_
  obtain ⟨notice, hnotice, hd⟩ := List.mem_flatMap.1 hd
  obtain ⟨l, -, rfl⟩ := List.mem_map.1 hd
  obtain ⟨e, -, rfl⟩ := List.mem_map.1 hnotice
  rfl

/-- The end of a transaction is no event. -/
theorem heard_apartFrom (l : String) (sent : List Delivery) :
    heard l (apartFrom o sent) = heard l sent := by
  rw [heard, apartFrom, List.filterMap_filter]
  refine List.filterMap_congr fun d _ => ?_
  cases hn : d.notice with
  | change e => simp [Notice.isEndOf]
  | completed id committed => simp [Notice.event?]

end ApartFrom

/-- The same tree, with the locks of `o` and without. -/
structure Store.Without (o : Owner) (s s' : Store) : Prop where
  /-- The settings. -/
  config : s'.config = s.config
  /-- The committed tree. -/
  tree : s'.tree = s.tree
  /-- The locks. -/
  locks : s.locks.Without o s'.locks
  /-- The listeners. -/
  listeners : s'.listeners = s.listeners

/-- The same end of a unit of work, with the locks of `o` and without. -/
structure Ending.Alike (o : Owner) (e e' : Ending) : Prop where
  /-- The tree that is left. -/
  store : e.store.Without o e'.store
  /-- The unit of work that is left. -/
  context : e'.context = e.context
  /-- What is answered. -/
  result : e'.result = e.result
  /-- What is told. -/
  sent : e'.sent = e.sent
  /-- The owner's transaction does not end. -/
  apart : apartFrom o e.sent = e.sent

namespace Store.Without

variable {s s' : Store} {c : Context} {o : Owner}

theorem base (h : s.Without o s') : s'.base = s.base := by
  rw [Store.base, Store.base, h.config, h.tree]

theorem merge (h : s.Without o s') (c : Context) : s'.merge c = s.merge c := by
  rw [Store.merge, Store.merge, Store.stamp, Store.stamp, h.tree]

theorem withTree (h : s.Without o s') (tree : CommittedTree) :
    Store.Without o { s with tree } { s' with tree } :=
  ⟨h.config, rfl, h.locks, h.listeners⟩

theorem conclude (h : s.Without o s') (ho : c.owner ≠ o) (committed : Bool)
    {sent : List Delivery} (hsent : apartFrom o sent = sent) :
    Ending.Alike o (s.conclude c committed sent) (s'.conclude c committed sent) := by
  have hwork : Work.Without o ⟨s.locks, c.clearWorkspace⟩ ⟨s'.locks, c.clearWorkspace⟩ :=
    ⟨rfl, ho, h.locks⟩
  obtain ⟨hleft, hresult⟩ := hwork.releaseAll
  exact {
    store := ⟨h.config, h.tree, hleft.locks, h.listeners⟩
    context := hleft.context
    result := hresult
    sent := by
      simp only [Store.conclude, h.listeners]
    apart := by
      simp only [Store.conclude]
      rw [apartFrom_append, hsent, apartFrom_completion_of_ne _ _ ho] }

/-- A commit of another unit of work goes the same way. -/
theorem commit (h : s.Without o s') (ho : c.owner ≠ o) :
    Ending.Alike o (s.commit c) (s'.commit c) := by
  have hbase := h.base
  have hmerge := h.merge c
  obtain ⟨config, tree, locks, listeners⟩ := s'
  obtain rfl : config = s.config := h.config
  obtain rfl : listeners = s.listeners := h.listeners
  simp only [Store.commit, hbase, hmerge]
  split
  · split
    · exact ⟨h, rfl, rfl, rfl, rfl⟩
    · split
      · exact ⟨h.withTree _, rfl, rfl, rfl, rfl⟩
      · exact (h.withTree _).conclude ho true (apartFrom_changes _ _)
  · exact h.conclude ho true rfl

end Store.Without

namespace SharedTree

variable {s s₁ s' : SharedTree} {name other : String} {o : Owner} {c c₁ : Context}
variable {turn : Turn} {turns : List Turn}

/-- **The second state is the first without the unit of work** of this name, without the locks of
its owner, and without what was told of its end. -/
structure Without (name : String) (o : Owner) (s s' : SharedTree) : Prop where
  /-- The tree. -/
  store : s.store.Without o s'.store
  /-- The other units of work. -/
  contexts : ∀ {other : String}, other ≠ name → s'.context? other = s.context? other
  /-- This one is not there. -/
  absent : s'.context? name = none
  /-- What was told. -/
  sent : s'.sent = apartFrom o s.sent

/-- What turns of the owner's unit of work leave as it was, unless it is committed. -/
theorem own_kept (hown : ∀ {c : Context}, s.context? name = some c → c.owner = o)
    (hturn : turn.actor? = some name) (hno : turn ≠ .step (.commit name)) :
    (s.takeTurn turn).store.config = s.store.config ∧
      (s.takeTurn turn).store.tree = s.store.tree ∧
      (s.takeTurn turn).store.listeners = s.store.listeners ∧
      apartFrom o (s.takeTurn turn).sent = apartFrom o s.sent := by
  cases turn with
  | join other thread transaction => exact ⟨rfl, rfl, rfl, rfl⟩
  | listen l => simp [Turn.actor?] at hturn
  | unlisten l => simp [Turn.actor?] at hturn
  | step step =>
      simp only [takeTurn]
      cases step with
      | start other thread transaction =>
          simp only [take]
          split <;> exact ⟨rfl, rfl, rfl, rfl⟩
      | setOptions other options =>
          simp only [take]
          cases s.context? other <;> exact ⟨rfl, rfl, rfl, rfl⟩
      | perform other op =>
          simp only [take]
          cases s.context? other <;> exact ⟨rfl, rfl, rfl, rfl⟩
      | commit other =>
          obtain rfl := Option.some.inj hturn
          exact absurd rfl hno
      | rollback other =>
          obtain rfl := Option.some.inj hturn
          simp only [take]
          cases hc : s.context? other with
          | none => exact ⟨rfl, rfl, rfl, rfl⟩
          | some c =>
              refine ⟨rfl, rfl, rfl, ?_⟩
              have hend := apartFrom_completion s.store.listeners false (hown hc)
              simp only [Option.elim_some, rollback, finish, Store.rollback, Store.conclude]
              rw [apartFrom_append, List.nil_append, hend, List.append_nil]
      | purge => simp [Turn.actor?, Step.actor?] at hturn

namespace Without

/-! ### Its own turns -/

/-- **Its own turns make no difference to the others**, unless it is committed. -/
theorem ownTurn (h : Without name o s s') (hs : Sole name o s)
    (hturn : turn.actor? = some name) (hno : turn ≠ .step (.commit name)) :
    Without name o (s.takeTurn turn) s' := by
  have hlocks : (s.takeTurn turn).store.locks.Without o s'.store.locks := by
    cases turning_takeTurn s turn with
    | idle _ hlocks =>
        rw [hlocks]
        exact h.store.locks
    | begun _ _ _ hlocks =>
        rw [hlocks]
        exact h.store.locks
    | set _ _ _ hlocks =>
        rw [hlocks]
        exact h.store.locks
    | @traced other c c₁ hturn' hc _ htr =>
        obtain rfl := Option.some.inj (hturn'.symm.trans hturn)
        have hbal := htr.balanced
        have hold := h.store.locks
        have ho := hs.own hc
        refine ⟨⟨hold.table.striping.trans hbal.striping.symm, fun k o' hne => ?_,
          hold.table.none⟩, hold.timeout.trans htr.timeout.symm,
          hold.lockParent.trans htr.lockParent.symm⟩
        rw [hold.table.others k o' hne]
        exact (hbal.others k o' (ho.symm ▸ hne)).symm
  obtain ⟨hconfig, htree, hlisteners, hsent⟩ := own_kept (fun hc => hs.own hc) hturn hno
  refine ⟨⟨?_, ?_, hlocks, ?_⟩, fun hne => ?_, h.absent, ?_⟩
  · rw [hconfig]
    exact h.store.config
  · rw [htree]
    exact h.store.tree
  · rw [hlisteners]
    exact h.store.listeners
  · rw [h.contexts hne, context?_takeTurn_of_ne]
    rw [hturn]
    exact fun heq => hne (Option.some.inj heq).symm
  · rw [hsent]
    exact h.sent

/-! ### Turns of others -/

/-- Whether an owner is in use elsewhere does not depend on the unit of work that is left out. -/
theorem isOwnedElsewhere (h : Without name o s s') (hs : Sole name o s) (hne : c.owner ≠ o) :
    s'.isOwnedElsewhere other c.owner = s.isOwnedElsewhere other c.owner := by
  have hiff : ∀ t : SharedTree, t.isOwnedElsewhere other c.owner = true ↔
      ∃ n d, t.context? n = some d ∧ n ≠ other ∧ d.owner = c.owner := by
    intro t
    simp only [SharedTree.isOwnedElsewhere, List.any_eq_true, Bool.and_eq_true, decide_eq_true_eq]
    constructor
    · rintro ⟨⟨n, d⟩, hmem, hn, hd⟩
      exact ⟨n, d, SortedMap.get?_eq_some_iff.2 hmem, hn, hd⟩
    · rintro ⟨n, d, hget, hn, hd⟩
      exact ⟨(n, d), SortedMap.get?_eq_some_iff.1 hget, hn, hd⟩
  rw [Bool.eq_iff_iff, hiff, hiff]
  constructor
  · rintro ⟨n, d, hd, hn, howner⟩
    have hname : n ≠ name := by
      rintro rfl
      rw [h.absent] at hd
      simp at hd
    exact ⟨n, d, (h.contexts hname).symm.trans hd, hn, howner⟩
  · rintro ⟨n, d, hd, hn, howner⟩
    have hname : n ≠ name := by
      rintro rfl
      exact hne (howner.symm.trans (hs.own hd))
    exact ⟨n, d, (h.contexts hname).trans hd, hn, howner⟩

/-- Another unit of work has changed in the same way. -/
theorem of_insert {t t' : SharedTree} (h : Without name o s s') (hne : other ≠ name)
    (hcs : t.contexts = s.contexts.insert other c) (hcs' : t'.contexts = s'.contexts.insert other c)
    (hstore : t.store.Without o t'.store) (hsent : t'.sent = apartFrom o t.sent) :
    Without name o t t' where
  store := hstore
  contexts {n} hn := by
    rw [context?_insert hcs, context?_insert hcs']
    split
    · rfl
    · exact h.contexts hn
  absent := by
    rw [context?_insert hcs', if_neg hne.symm]
    exact h.absent
  sent := hsent

/-- The end of another unit of work. -/
theorem finish {e e' : Ending} (h : Without name o s s') (hne : other ≠ name)
    (he : e.Alike o e') : Without name o (s.finish other e).1 (s'.finish other e').1 := by
  refine h.of_insert hne rfl ?_ he.store ?_
  · simp only [SharedTree.finish, he.context]
  · simp only [SharedTree.finish, apartFrom_append, he.sent, he.apart, h.sent]

/-- An operation of another unit of work goes the same way. -/
theorem perform {op : Operation} (h : Without name o s s') (hne : other ≠ name) (ho : c.owner ≠ o)
    (hfree : Work.Unhindered o ⟨s.store.locks, c⟩ (s.store.base.refusals ⟨s.store.locks, c⟩ op)) :
    Without name o (s.perform other c op).1 (s'.perform other c op).1 ∧
      (s'.perform other c op).2 = (s.perform other c op).2 := by
  have hwork : Work.Without o ⟨s.store.locks, c⟩ ⟨s'.store.locks, c⟩ := ⟨rfl, ho, h.store.locks⟩
  have halike := hwork.perform op hfree
  simp only [SharedTree.perform, locking, h.store.base]
  generalize s.store.base.perform ⟨s.store.locks, c⟩ op = r at halike
  generalize s.store.base.perform ⟨s'.store.locks, c⟩ op = r' at halike
  obtain ⟨hleft, a⟩ := halike
  refine ⟨h.of_insert hne rfl ?_ ?_ h.sent, rfl⟩
  · simp only [hleft.context]
  · exact ⟨h.store.config, h.store.tree, hleft.locks, h.store.listeners⟩

/-- **To others its turns make no difference**, unless its owner is in their way. -/
theorem otherTurn (h : Without name o s s') (hs : Sole name o s)
    (hturn : turn.actor? ≠ some name) (hfree : s.isHinderedBy o turn = false)
    (howner : ∀ begun ∈ turn.begun?, (begun.2 = o ↔ begun.1 = name)) :
    Without name o (s.takeTurn turn) (s'.takeTurn turn) ∧ s'.reply? turn = s.reply? turn := by
  have hname : ∀ {n : String}, turn.actor? = some n → n ≠ name := by
    rintro n hn rfl
    exact hturn hn
  cases turn with
  | join other thread transaction =>
      exact ⟨h.of_insert (hname rfl) rfl rfl h.store h.sent, rfl⟩
  | listen l =>
      refine ⟨⟨⟨h.store.config, h.store.tree, h.store.locks, ?_⟩, h.contexts, h.absent, h.sent⟩,
        rfl⟩
      exact congrArg (· ++ [l]) h.store.listeners
  | unlisten l =>
      refine ⟨⟨⟨h.store.config, h.store.tree, h.store.locks, ?_⟩, h.contexts, h.absent, h.sent⟩,
        rfl⟩
      exact congrArg (List.filter (· ≠ l)) h.store.listeners
  | step step =>
      simp only [takeTurn]
      cases step with
      | start other thread transaction =>
          have hne := hname (n := other) rfl
          have ho : Context.owner { thread, transaction } ≠ o := fun heq =>
            hne ((howner (other, _) rfl).1 heq)
          simp only [take, h.isOwnedElsewhere hs ho]
          split
          · exact ⟨h, rfl⟩
          · exact ⟨h.of_insert hne rfl rfl h.store h.sent, rfl⟩
      | setOptions other options =>
          have hne := hname (n := other) rfl
          simp only [take, h.contexts hne]
          cases s.context? other with
          | none => exact ⟨h, rfl⟩
          | some c => exact ⟨h.of_insert hne rfl rfl h.store h.sent, rfl⟩
      | perform other op =>
          have hne := hname (n := other) rfl
          simp only [take, reply?, ask, h.contexts hne]
          simp only [isHinderedBy, refusals] at hfree
          cases hc : s.context? other with
          | none => exact ⟨h, rfl⟩
          | some c =>
              simp only [hc, Option.elim_some, List.any_eq_false, Bool.not_eq_true] at hfree
              obtain ⟨hleft, hreply⟩ := h.perform hne (hs.others hne hc) hfree
              exact ⟨hleft, congrArg some hreply⟩
      | commit other =>
          have hne := hname (n := other) rfl
          simp only [take, reply?, h.contexts hne]
          cases hc : s.context? other with
          | none => exact ⟨h, rfl⟩
          | some c =>
              have halike := h.store.commit (hs.others hne hc)
              exact ⟨h.finish hne halike, congrArg (fun r => some (Except.map _ r)) halike.result⟩
      | rollback other =>
          have hne := hname (n := other) rfl
          simp only [take, reply?, h.contexts hne]
          cases hc : s.context? other with
          | none => exact ⟨h, rfl⟩
          | some c =>
              have halike : Ending.Alike o (s.store.rollback c) (s'.store.rollback c) :=
                h.store.conclude (hs.others hne hc) false rfl
              exact ⟨h.finish hne halike, congrArg (fun r => some (Except.map _ r)) halike.result⟩
      | purge =>
          refine ⟨⟨⟨h.store.config, ?_, h.store.locks, h.store.listeners⟩, h.contexts, h.absent,
            h.sent⟩, rfl⟩
          exact congrArg (fun t => (CommittedTree.purge t).1) h.store.tree

end Without

/-! ### Whole runs -/

/-- What a run may do about the unit of work that is left out: it begins at most once, no other unit
of work begins for its owner, and it is not committed. -/
structure Confined (name : String) (o : Owner) (s : SharedTree) (turns : List Turn) : Prop where
  /-- It does not begin again. -/
  once : (s.context? name).isSome.toNat + turns.countP (·.begins name) ≤ 1
  /-- The owner is its own. -/
  owner : ∀ turn ∈ turns, ∀ begun ∈ turn.begun?, (begun.2 = o ↔ begun.1 = name)
  /-- It is not committed. -/
  uncommitted : .step (.commit name) ∉ turns

theorem Confined.fresh (h : Confined name o s (turn :: turns)) (hb : turn.begins name = true) :
    s.context? name = none := by
  have honce := h.once
  rw [List.countP_cons_of_pos hb] at honce
  cases hc : s.context? name with
  | none => rfl
  | some c =>
      rw [hc, Option.isSome_some, Bool.toNat_true] at honce
      omega

/-- Only by its beginning the unit of work comes to be there. -/
theorem isSome_context?_takeTurn (s : SharedTree) (turn : Turn) (name : String) :
    ((s.takeTurn turn).context? name).isSome.toNat ≤
      (s.context? name).isSome.toNat + (turn.begins name).toNat := by
  cases turning_takeTurn s turn with
  | idle hcs _ =>
      rw [context?, hcs]
      exact Nat.le_add_right _ _
  | begun hturn _ hcs _ =>
      rw [context?_insert hcs]
      split
      · rename_i hn
        simp [Turn.begins, hturn, hn]
      · exact Nat.le_add_right _ _
  | set _ hc hcs _ =>
      rw [context?_insert hcs]
      split
      · rename_i hn
        simp [hn, hc]
      · exact Nat.le_add_right _ _
  | traced _ hc hcs _ =>
      rw [context?_insert hcs]
      split
      · rename_i hn
        simp [hn, hc]
      · exact Nat.le_add_right _ _

theorem Confined.tail (h : Confined name o s (turn :: turns)) :
    Confined name o (s.takeTurn turn) turns where
  once := by
    have honce := h.once
    have hle := isSome_context?_takeTurn s turn name
    rw [List.countP_cons] at honce
    cases hb : turn.begins name with
    | true =>
        rw [hb] at honce hle
        simp only [Bool.toNat_true, if_true] at honce hle
        omega
    | false =>
        rw [hb] at honce hle
        simp only [Bool.toNat_false, Bool.false_eq_true, if_false] at honce hle
        omega
  owner t ht := h.owner t (List.mem_cons_of_mem _ ht)
  uncommitted ht := h.uncommitted (List.mem_cons_of_mem _ ht)

/-- The turns that units of work of other names take, and those that none takes. -/
def ofOthers (name : String) (turns : List Turn) : List Turn :=
  turns.filter fun turn => turn.actor? ≠ some name

/-- **The whole run is the one without the unit of work**, and its owner has only its locks. -/
theorem Without.runTurns (h : Without name o s s') (hs : Sole name o s)
    (hturns : Confined name o s turns) (hfree : s.isNeverHindered name o turns = true) :
    Without name o (s.runTurns turns) (s'.runTurns (ofOthers name turns)) ∧
      Sole name o (s.runTurns turns) ∧
      s'.replies (ofOthers name turns) =
        (s.replies turns).filter fun r => r.1.actor? ≠ some name := by
  induction turns generalizing s s' with
  | nil => exact ⟨h, hs, rfl⟩
  | cons turn turns ih =>
      rw [isNeverHindered, Bool.and_eq_true, Bool.or_eq_true, decide_eq_true_eq,
        Bool.not_eq_true'] at hfree
      have howner := hturns.owner turn List.mem_cons_self
      have hs₁ := hs.takeTurn hturns.fresh howner
      by_cases hturn : turn.actor? = some name
      · have hno : turn ≠ .step (.commit name) := by
          rintro rfl
          exact hturns.uncommitted List.mem_cons_self
        obtain ⟨hrun, hsole, hreplies⟩ := ih (h.ownTurn hs hturn hno) hs₁ hturns.tail hfree.2
        have hskip : ofOthers name (turn :: turns) = ofOthers name turns :=
          List.filter_cons_of_neg (by simp [hturn])
        rw [hskip]
        refine ⟨hrun, hsole, hreplies.trans ?_⟩
        rw [replies, List.filter_cons_of_neg (by simp [hturn])]
      · obtain ⟨hone, hreply⟩ := h.otherTurn hs hturn (hfree.1.resolve_left hturn) howner
        obtain ⟨hrun, hsole, hreplies⟩ := ih hone hs₁ hturns.tail hfree.2
        have hkeep : ofOthers name (turn :: turns) = turn :: ofOthers name turns :=
          List.filter_cons_of_pos (by simp [hturn])
        rw [hkeep]
        refine ⟨hrun, hsole, ?_⟩
        rw [replies, replies, hreply, hreplies, List.filter_cons_of_pos (by simp [hturn])]

/-- **A unit of work of this name takes part in the run and is rolled back at last.**  It begins
once, for an owner that no other one has, it is never committed, and the last turn that it takes is
its rollback. -/
structure Withdrawn (name : String) (o : Owner) (turns : List Turn) : Prop where
  /-- It begins once. -/
  once : turns.countP (·.begins name) = 1
  /-- It begins for the owner, and no other one does. -/
  owner : ∀ turn ∈ turns, ∀ begun ∈ turn.begun?, (begun.2 = o ↔ begun.1 = name)
  /-- It is not committed. -/
  uncommitted : .step (.commit name) ∉ turns
  /-- It is rolled back at last. -/
  rolledBack : (turns.filter fun turn => turn.actor? = some name).getLast? =
    some (.step (.rollback name))

/-- At last it has no path noted. -/
theorem Withdrawn.locked (h : Withdrawn name o turns)
    (hc : (s.runTurns turns).context? name = some c) :
    c.locked = .empty := by
  obtain ⟨own, hown⟩ := List.getLast?_eq_some_iff.1 h.rolledBack
  obtain ⟨before, rest, rfl, -, hrest⟩ := List.filter_eq_append_iff.1 hown
  obtain ⟨between, after, rfl, -, -, hafter⟩ := List.filter_eq_cons_iff.1 hrest
  have hnone : ∀ turn ∈ after, turn.actor? ≠ some name := fun turn ht => by
    simpa using List.filter_eq_nil_iff.1 hafter turn ht
  rw [← List.append_assoc, runTurns_append] at hc
  have hend : ((s.runTurns (before ++ between)).takeTurn (.step (.rollback name))).context? name =
      some c := (context?_runTurns_of_ne hnone).symm.trans hc
  obtain ⟨d, -, hd⟩ := of_context?_elim hend
  rw [← Option.some.inj (SortedMap.get?_insert_self.symm.trans hd)]
  rfl

/-- **What is rolled back leaves no trace.**  A unit of work, whatever it has done and with
whichever options, is at last rolled back, and no lock request of another one has been refused
because of its owner.  Then the run without it answers the same to all others, and leaves the same
committed tree with its data, its versions, its tombstones and its version counter, the same locks,
and the same other units of work; listeners are told the same but for the end of the one
transaction, and hence the same events.  Its owner holds no lock any more. -/
theorem rollback_leaves_no_trace (config : Config) (hash : Path → UInt64)
    (h : Withdrawn name o turns)
    (hfree : (ofConfig config hash).isNeverHindered name o turns = true) :
    let s := (ofConfig config hash).runTurns turns
    let s' := (ofConfig config hash).runTurns (ofOthers name turns)
    ((ofConfig config hash).replies (ofOthers name turns) =
      ((ofConfig config hash).replies turns).filter fun r => r.1.actor? ≠ some name) ∧
    s'.store.tree = s.store.tree ∧
    s'.sent = apartFrom o s.sent ∧ (∀ l, heard l s'.sent = heard l s.sent) ∧
    (∀ other, other ≠ name → s'.context? other = s.context? other) ∧
    s'.store.locks.table = s.store.locks.table ∧
    ∀ p, s.store.locks.table.owns p o = false := by
  intro s s'
  have hstart : Without name o (ofConfig config hash) (ofConfig config hash) :=
    ⟨⟨rfl, rfl, ⟨⟨rfl, fun _ _ _ => rfl, fun _ => rfl⟩, rfl, rfl⟩, rfl⟩, fun _ => rfl, rfl, rfl⟩
  have hsole : Sole name o (ofConfig config hash) :=
    ⟨fun hc => by simp [context?, ofConfig] at hc, fun _ hc => by simp [context?, ofConfig] at hc,
      fun _ => rfl⟩
  have hconfined : Confined name o (ofConfig config hash) turns :=
    ⟨Nat.le_of_eq ((Nat.zero_add _).trans h.once), h.owner, h.uncommitted⟩
  obtain ⟨hend, hsole', hreplies⟩ := hstart.runTurns hsole hconfined hfree
  have hnone := hsole'.heldBy_eq_zero fun _ hc => h.locked hc
  have htable := hend.store.locks.table
  refine ⟨hreplies, hend.store.tree, hend.sent, fun l => ?_, fun _ hne => hend.contexts hne,
    LockTable.ext_heldBy htable.striping fun k o' => ?_,
    fun p => LockTable.owns_eq_false_iff.2 (hnone _)⟩
  · rw [hend.sent, heard_apartFrom]
  · by_cases ho : o' = o
    · rw [ho, htable.none, hnone]
    · exact htable.others k o' ho

/-- A listener, and three transactions.  The second one looks for `/b` and finds nothing, makes
`/c/d` and moves it, and writes to `/a` when the first one has committed it; then it is rolled
back.  Between these turns the first one makes `/a` and `/b`, of which the third one is refused the
lock, and at last it makes `/c/d`, too. -/
def withdrawnTurns : List Turn :=
  let a : Path := ⟨["a"]⟩
  let b : Path := ⟨["b"]⟩
  let d : Path := ⟨["c", "d"]⟩
  let e : Path := ⟨["e"]⟩
  [.listen "x", .join "s" ⟨"main", 0⟩ (some (1 : Nat)), .join "t" ⟨"main", 0⟩ (some (2 : Nat)),
    .join "u" ⟨"main", 0⟩ (some (3 : Nat)),
    .step (.perform "s" (.put a "k" (.int 1))), .step (.perform "t" (.nodeExists b)),
    .step (.commit "s"), .step (.perform "t" (.put d "k" (.int 2))),
    .step (.perform "s" (.put b "k" (.int 3))), .step (.perform "t" (.put e "k" (.int 4))),
    .step (.perform "u" (.put b "k" (.int 5))), .step (.perform "t" (.moveNode d e true)),
    .step (.commit "s"), .step (.perform "t" (.put a "k" (.int 6))), .step (.rollback "t"),
    .step (.perform "s" (.put d "k" (.int 7))), .step (.commit "s")]

/-- Nothing is left of the second transaction of that run. -/
theorem second_transaction_withdrawn :
    let s := (ofConfig {}).runTurns withdrawnTurns
    let s' := (ofConfig {}).runTurns (ofOthers "t" withdrawnTurns)
    s'.store.tree = s.store.tree ∧ (∀ l, heard l s'.sent = heard l s.sent) ∧
      s'.store.locks.table = s.store.locks.table := by
  have h : Withdrawn "t" (.transaction 2) withdrawnTurns :=
    ⟨by decide +kernel, by decide +kernel, by decide +kernel, by decide +kernel⟩
  obtain ⟨-, htree, -, hheard, -, htable, -⟩ :=
    rollback_leaves_no_trace {} Stripe.hash h (by decide +kernel)
  exact ⟨htree, hheard, htable⟩

end SharedTree

end TransactionalTree
