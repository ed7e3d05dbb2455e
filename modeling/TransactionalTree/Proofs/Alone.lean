/-
**A unit of work that runs alone.**

A unit of work that starts from the committed tree and gets all its locks, while nobody else
commits, does not notice the others.  Its operations answer as on a plain tree, its commit succeeds,
and leaves as the committed tree what the operations have made of the plain tree.

Main definitions:

* `SharedTree.leavesAlone`, `SharedTree.isAlone` — **a run in which a unit of work is alone**;
* `Step.operationOf?`, `SharedTree.answersOf` — its operations, and what they answer;
* `SharedTree.ShowsTo` — a unit of work that sees a plain tree.

Main results:

* `SharedTree.ShowsTo.take_own`, `SharedTree.ShowsTo.run` — what an operation, and a run, make of
  the plain tree;
* `SharedTree.ShowsTo.commit` — the commit leaves the plain tree;
* `SharedTree.alone_is_plain_tree` — a unit of work that runs alone behaves like a plain tree.
-/

import TransactionalTree.Proofs.Undisturbed

set_option relaxedAutoImplicit false
set_option autoImplicit false

namespace TransactionalTree

/-- The operation, if the step is one of the unit of work of this name. -/
def Step.operationOf? (name : String) : Step → Option Operation
  | perform other o => if other = name then some o else none
  | _ => none

namespace SharedTree

/-! ### Runs of a unit of work that is alone -/

/-- **This step leaves the unit of work alone.**  Nobody commits.  The unit of work carries out an
operation whose locks are all free, or sets its options, without an explicit version; the others do
what they like. -/
def leavesAlone (s : SharedTree) (name : String) : Step → Bool
  | .start other _ _ => other ≠ name
  | .setOptions other options => other ≠ name || options.version.isNone
  | .perform other o =>
      other ≠ name || (s.take (.perform other o)).store.locks.counts.timedOut =
        s.store.locks.counts.timedOut
  | .commit _ => false
  | .rollback other => other ≠ name
  | .purge => true

/-- **The unit of work is alone during this run.** -/
def isAlone (s : SharedTree) (name : String) : List Step → Bool
  | [] => true
  | step :: steps => s.leavesAlone name step && (s.take step).isAlone name steps

/-- What the operations of the unit of work answer during a run, one after the other. -/
def answersOf (s : SharedTree) (name : String) : List Step → List (Except TreeError Answer)
  | [] => []
  | step :: steps =>
      ((step.operationOf? name).bind (s.ask name)).toList ++ (s.take step).answersOf name steps

/-- The operations of the unit of work in a run. -/
def operationsOf (name : String) (steps : List Step) : List Operation :=
  steps.filterMap (Step.operationOf? name)

/-- **The unit of work sees a plain tree**, and nothing stands in the way of its writes. -/
def ShowsTo (s : SharedTree) (name : String) (m : PlainTree) : Prop :=
  ∃ c, s.context? name = some c ∧ c.options.version = none ∧ Shows s.store.base c.workspace m

variable {s : SharedTree} {name other : String} {c : Context} {m : PlainTree} {o : Operation}
variable {step : Step} {steps : List Step}

/-- A unit of work that has done nothing yet sees the committed tree. -/
theorem showsTo_start (hs : s.Sane) (hc : s.context? name = some c)
    (hnew : c.workspace = .empty) (hv : c.options.version = none) :
    s.ShowsTo name (.ofTree s.store.tree) := by
  refine ⟨c, hc, hv, ?_⟩
  rw [hnew]
  exact .empty hs.sound

/-- What a step of another one does to the tree: at most, it drops tombstones. -/
theorem base_take (h : s.leavesAlone name step = true) :
    (s.take step).store.base = s.store.base ∨
      (s.take step).store.base = { s.store.base with tree := s.store.base.tree.purge.1 } := by
  cases step with
  | start other thread transaction =>
      simp only [take]
      split <;> exact .inl rfl
  | setOptions other options =>
      simp only [take]
      cases s.context? other <;> exact .inl rfl
  | perform other o =>
      simp only [take]
      cases s.context? other <;> exact .inl rfl
  | commit other => simp [leavesAlone] at h
  | rollback other =>
      simp only [take]
      cases s.context? other <;> exact .inl rfl
  | purge => exact .inr rfl

namespace ShowsTo

/-- A step that is not an operation of the unit of work leaves what it sees. -/
theorem take_other (h : s.ShowsTo name m) (ha : s.leavesAlone name step = true)
    (ho : step.operationOf? name = none) : (s.take step).ShowsTo name m := by
  obtain ⟨c, hc, hv, hshows⟩ := h
  have hafter : Shows (s.take step).store.base c.workspace m := by
    rcases base_take ha with hb | hb
    · rw [hb]
      exact hshows
    · rw [hb]
      exact hshows.purge
  -- of the steps of its own only new options are left: the rest are operations, or not allowed
  by_cases hactor : step.actor? = some name
  · cases step with
    | setOptions other options =>
        obtain rfl := Option.some.inj hactor
        have hoptions : options.version = none := by
          simpa [leavesAlone] using ha
        refine ⟨{ c with options }, ?_, hoptions, hafter⟩
        simp only [take, hc]
        exact SortedMap.get?_insert_self
    | perform other o =>
        obtain rfl := Option.some.inj hactor
        simp [Step.operationOf?] at ho
    | start other thread transaction =>
        obtain rfl := Option.some.inj hactor
        simp [leavesAlone] at ha
    | commit other => simp [leavesAlone] at ha
    | rollback other =>
        obtain rfl := Option.some.inj hactor
        simp [leavesAlone] at ha
    | purge => simp [Step.actor?] at hactor
  · exact ⟨c, (context?_take_of_ne hactor).trans hc, hv, hafter⟩

/-- **An operation of the unit of work does, and answers, what it means.** -/
theorem take_own (h : s.ShowsTo name m) (ha : s.leavesAlone name step = true)
    (ho : step.operationOf? name = some o) :
    (s.take step).ShowsTo name (m.perform o).1 ∧ s.ask name o = some (m.perform o).2 := by
  obtain ⟨c, hc, hv, hshows⟩ := h
  cases step with
  | perform other o' =>
      simp only [Step.operationOf?] at ho
      split at ho
      · rename_i hother
        obtain rfl := Option.some.inj ho
        subst hother
        have ht : (s.perform other c o').1.store.locks.counts.timedOut =
            s.store.locks.counts.timedOut := by
          simpa [leavesAlone, take_perform hc] using ha
        obtain ⟨hafter, hanswer⟩ := Shows.perform (u := ⟨s.store.locks, c⟩) hshows hv ht
        refine ⟨⟨(s.store.base.perform ⟨s.store.locks, c⟩ o').1.context, ?_, ?_, ?_⟩, ?_⟩
        · rw [take_perform hc]
          exact context?_perform
        -- the options are those from before, so there is still no explicit version
        · obtain ⟨acts, hst⟩ := Base.staged_perform (w := ⟨s.store.locks, c⟩)
            hshows.faithful.sound hshows.faithful.tidy o'
          rw [hst.options]
          exact hv
        · rw [take_perform hc]
          exact hafter
        · rw [ask, hc]
          exact congrArg some hanswer
      · simp at ho
  | start _ _ _ => simp [Step.operationOf?] at ho
  | setOptions _ _ => simp [Step.operationOf?] at ho
  | commit _ => simp [Step.operationOf?] at ho
  | rollback _ => simp [Step.operationOf?] at ho
  | purge => simp [Step.operationOf?] at ho

/-- **A run of a unit of work that is alone** does, and answers, what its operations mean. -/
theorem run (h : s.ShowsTo name m) (ha : s.isAlone name steps = true) :
    (s.run steps).ShowsTo name (m.performAll (operationsOf name steps)) ∧
      s.answersOf name steps = m.answers (operationsOf name steps) := by
  induction steps generalizing s m with
  | nil => exact ⟨h, rfl⟩
  | cons step steps ih =>
      rw [isAlone, Bool.and_eq_true] at ha
      rw [run_cons, answersOf, operationsOf, List.filterMap_cons]
      cases ho : step.operationOf? name with
      | none =>
          obtain ⟨hshows, hanswers⟩ := ih (h.take_other ha.1 ho) ha.2
          exact ⟨hshows, hanswers⟩
      | some o =>
          obtain ⟨hafter, hanswer⟩ := h.take_own ha.1 ho
          obtain ⟨hshows, hanswers⟩ := ih hafter ha.2
          refine ⟨hshows, ?_⟩
          rw [Option.bind_some, hanswer, hanswers]
          rfl

/-- **The commit succeeds, and leaves the plain tree.** -/
theorem commit (h : s.ShowsTo name m) (hs : s.Settled)
    (hskew : s.store.config.writeSkewCheckActive = false) :
    ∃ c, s.context? name = some c ∧ (s.commit name c).2 = .ok () ∧
      PlainTree.ofTree (s.commit name c).1.store.tree = m := by
  obtain ⟨c, hc, -, hshows⟩ := h
  refine ⟨c, hc, ?_⟩
  have hacc := hs.accounted hc
  have hno : s.store.base.conflicts c s.store.config.writeSkewCheckActive = [] := by
    rw [Store.conflicts_of_faithful hshows.faithful, hskew]
    rfl
  obtain ⟨hok, hdata⟩ := Store.commit_of_faithful hshows.faithful hacc hno
  have hsound := (Store.commit_sane hshows.faithful.sound hshows.faithful.tidy).1
  refine ⟨hok, SortedMap.ext_get? fun p => ?_⟩
  exact (PlainTree.get?_ofTree hsound p).trans ((hdata p).trans (hshows.data p))

end ShowsTo

/-- **A unit of work that runs alone behaves like a plain tree.**  It starts from the committed tree
and gets all its locks while nobody else commits.  Then its operations answer as on the plain tree,
its commit succeeds, and the committed tree is the plain tree after the operations. -/
theorem alone_is_plain_tree (hs : s.Reachable) (hc : s.context? name = some c)
    (hnew : c.workspace = .empty) (hv : c.options.version = none)
    (hskew : s.store.config.writeSkewCheckActive = false) (ha : s.isAlone name steps = true) :
    s.answersOf name steps =
        (PlainTree.ofTree s.store.tree).answers (operationsOf name steps) ∧
      ∃ c', (s.run steps).context? name = some c' ∧
        ((s.run steps).commit name c').2 = .ok () ∧
        PlainTree.ofTree ((s.run steps).commit name c').1.store.tree =
          (PlainTree.ofTree s.store.tree).performAll (operationsOf name steps) ∧
        ((PlainTree.ofTree s.store.tree).performAll (operationsOf name steps)).Closed := by
  obtain ⟨hshows, hanswers⟩ := (showsTo_start hs.sane hc hnew hv).run ha
  have hskew' : (s.run steps).store.config.writeSkewCheckActive = false := by
    rw [config_run]
    exact hskew
  obtain ⟨c', hc', hok, htree⟩ := hshows.commit (hs.settled.run steps) hskew'
  obtain ⟨_, -, -, hlast⟩ := hshows
  exact ⟨hanswers, c', hc', hok, htree, hlast.closed⟩

/-- One transaction has made `/a/b` and `/c`, and another one begins. -/
def plainState : SharedTree :=
  (ofConfig {}).run
    [.start "s" ⟨"main", 0⟩ (some (1 : Nat)), .start "t" ⟨"main", 0⟩ (some (2 : Nat)),
      .perform "s" (.put ⟨["a", "b"]⟩ "k" (.int 1)), .perform "s" (.put ⟨["c"]⟩ "k" (.int 2)),
      .commit "s"]

/-- The other one moves `/a` below `/c`, makes it anew where it was, and removes what was moved; in
between the first one writes elsewhere. -/
def plainSteps : List Step :=
  [.perform "t" (.getData ⟨["a", "b"]⟩), .perform "t" (.moveNode ⟨["a"]⟩ ⟨["c"]⟩ true),
    .perform "s" (.put ⟨["d"]⟩ "k" (.int 3)), .perform "t" (.put ⟨["a", "b", "e"]⟩ "k" (.int 4)),
    .perform "t" (.removeNode ⟨["c", "a", "b"]⟩), .perform "t" (.getChildNames .root)]

/-- The commit of the other one leaves the plain tree after its operations. -/
theorem moved_and_made_anew :
    ∃ c', (plainState.run plainSteps).context? "t" = some c' ∧
      ((plainState.run plainSteps).commit "t" c').2 = .ok () ∧
      PlainTree.ofTree ((plainState.run plainSteps).commit "t" c').1.store.tree =
        (PlainTree.ofTree plainState.store.tree).performAll (operationsOf "t" plainSteps) := by
  have hs : plainState.Reachable := ⟨_, _, _, rfl⟩
  have hc : plainState.context? "t" = some ((plainState.context? "t").getD default) := by
    decide +kernel
  have ha : plainState.isAlone "t" plainSteps = true := by decide +kernel
  obtain ⟨-, c', hc', hok, htree, -⟩ := alone_is_plain_tree hs hc (by decide +kernel)
    (by decide +kernel) (by decide +kernel) ha
  exact ⟨c', hc', hok, htree⟩

end SharedTree

end TransactionalTree
