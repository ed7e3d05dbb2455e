/-
**Runs of several units of work.**

Units of work take turns on a shared tree: each step is an operation, the end of a unit of work, a
change of its options, the beginning of a new one, or the dropping of tombstones.  At any time no
two units of work have the same owner.  In every state that such a run reaches, the tree is sound
and all workspaces are tidy.

Main definitions:

* `Step`, `SharedTree.take`, `SharedTree.run` — steps and runs;
* `SharedTree.Reachable` — the states that runs reach;
* `Committing` — **the ways in which a commit can go**;
* `SharedTree.Sane` — the invariant of all reachable states.

Main results:

* `Store.commit_outcome` — there are no other ways;
* `SharedTree.Reachable.sane` — the invariant holds.
-/

import TransactionalTree.Proofs.Merging
import TransactionalTree.Proofs.Operations
import TransactionalTree.SharedTree

set_option relaxedAutoImplicit false
set_option autoImplicit false

namespace TransactionalTree

/-! ### Since when something holds -/

/-- **What has come to hold on the way has held since some step**, without a break. -/
theorem foldl_since {σ τ : Type} {f : σ → τ → σ} {s : σ} {steps : List τ} {P : σ → Prop}
    (hfirst : ¬P s) (hlast : P (steps.foldl f s)) :
    ∃ before step after, steps = before ++ step :: after ∧ ¬P (before.foldl f s) ∧
      ∀ k, P ((before ++ step :: after.take k).foldl f s) := by
  induction steps using List.reverseRecOn with
  | nil => exact absurd hlast hfirst
  | append_singleton steps step ih =>
      by_cases hbefore : P (steps.foldl f s)
      · obtain ⟨before, first, after, rfl, hno, hsince⟩ := ih hbefore
        refine ⟨before, first, after ++ [step], by simp, hno, fun k => ?_⟩
        rcases Nat.lt_or_ge after.length k with hk | hk
        · rw [List.take_of_length_le (by rw [List.length_append]; exact hk)]
          simpa using hlast
        · rw [List.take_append_of_le_length hk]
          exact hsince k
      · refine ⟨steps, step, [], rfl, hbefore, fun k => ?_⟩
        rw [List.take_nil]
        exact hlast

/-! ### Steps and runs -/

/-- A step of a run. -/
inductive Step where
  /-- A unit of work begins under a name, for a thread or for a transaction. -/
  | start (name : String) (thread : ThreadId) (transaction : Option TransactionId)
  /-- The options of a unit of work are set. -/
  | setOptions (name : String) (options : Options)
  /-- A unit of work carries out an operation. -/
  | perform (name : String) (o : Operation)
  /-- A unit of work is committed. -/
  | commit (name : String)
  /-- A unit of work is rolled back. -/
  | rollback (name : String)
  /-- All tombstones are dropped. -/
  | purge
deriving DecidableEq, Repr, Inhabited

/-- The name of the unit of work that takes the step. -/
def Step.actor? : Step → Option String
  | start name _ _ => some name
  | setOptions name _ => some name
  | perform name _ => some name
  | commit name => some name
  | rollback name => some name
  | purge => none

namespace SharedTree

/-- The unit of work of this name. -/
def context? (s : SharedTree) (name : String) : Option Context := s.contexts.get? name

/-- Whether a unit of work of another name has this owner. -/
def isOwnedElsewhere (s : SharedTree) (name : String) (o : Owner) : Bool :=
  s.contexts.toList.any fun e => e.1 ≠ name && e.2.owner = o

/-- **Take a step.**  A step of a unit of work that there is not does nothing, and none begins for
an owner that another one has. -/
def take (s : SharedTree) : Step → SharedTree
  | .start name thread transaction =>
      let c : Context := { thread, transaction }
      if s.isOwnedElsewhere name c.owner then s else s.start name c
  | .setOptions name options =>
      (s.context? name).elim s fun c => s.start name { c with options }
  | .perform name o => (s.context? name).elim s fun c => (s.perform name c o).1
  | .commit name => (s.context? name).elim s fun c => (s.commit name c).1
  | .rollback name => (s.context? name).elim s fun c => (s.rollback name c).1
  | .purge => { s with store := { s.store with tree := s.store.tree.purge.1 } }

/-- Take the listed steps, one after the other. -/
def run (s : SharedTree) (steps : List Step) : SharedTree := steps.foldl take s

/-- The state is reached by some run, with some settings and some hash of paths. -/
def Reachable (s : SharedTree) : Prop :=
  ∃ (config : Config) (hash : Path → UInt64) (steps : List Step),
    s = (ofConfig config hash).run steps

variable {s : SharedTree} {name other : String} {c : Context} {o : Operation} {step : Step}
variable {steps : List Step}

@[simp] theorem run_nil (s : SharedTree) : s.run [] = s := rfl

@[simp] theorem run_cons (s : SharedTree) (step : Step) (steps : List Step) :
    s.run (step :: steps) = (s.take step).run steps := rfl

theorem run_append (s : SharedTree) (steps steps' : List Step) :
    s.run (steps ++ steps') = (s.run steps).run steps' :=
  List.foldl_append

theorem Reachable.run (h : s.Reachable) (steps : List Step) : (s.run steps).Reachable := by
  obtain ⟨config, hash, before, rfl⟩ := h
  exact ⟨config, hash, before ++ steps, (run_append _ _ _).symm⟩

theorem take_perform (h : s.context? name = some c) (o : Operation) :
    s.take (.perform name o) = (s.perform name c o).1 := by
  simp [take, h]

/-- What the unit of work answers when it is asked to carry out the operation. -/
def ask (s : SharedTree) (name : String) (o : Operation) : Option (Except TreeError Answer) :=
  (s.context? name).map fun c => (s.perform name c o).2

/-- A step leaves the units of work of all other names alone. -/
theorem context?_take_of_ne (h : step.actor? ≠ some name) :
    (s.take step).context? name = s.context? name := by
  have hne : ∀ {other : String}, some other ≠ some name → name ≠ other := by
    rintro other hne rfl
    exact hne rfl
  cases step with
  | start other thread transaction =>
      simp only [take]
      split
      · rfl
      · exact SortedMap.get?_insert_of_ne (hne h)
  | setOptions other options =>
      simp only [take]
      cases s.context? other with
      | none => rfl
      | some c => exact SortedMap.get?_insert_of_ne (hne h)
  | perform other o =>
      simp only [take]
      cases s.context? other with
      | none => rfl
      | some c => exact SortedMap.get?_insert_of_ne (hne h)
  | commit other =>
      simp only [take]
      cases s.context? other with
      | none => rfl
      | some c => exact SortedMap.get?_insert_of_ne (hne h)
  | rollback other =>
      simp only [take]
      cases s.context? other with
      | none => rfl
      | some c => exact SortedMap.get?_insert_of_ne (hne h)
  | purge => rfl

/-- After an operation the unit of work is what the operation has made of it. -/
theorem context?_perform :
    (s.perform name c o).1.context? name =
      some (s.store.base.perform ⟨s.store.locks, c⟩ o).1.context :=
  SortedMap.get?_insert_self

end SharedTree

/-! ### The end of a unit of work -/

/-- The ways in which a commit can go. -/
inductive Committing (s : Store) (c : Context) : Ending → Prop
  /-- There is nothing to merge. -/
  | idle (h : c.hasChanges = false) : Committing s c (s.conclude c true [])
  /-- Something is in the way. -/
  | refused {x : Conflict} {xs : List Conflict} (h : c.hasChanges = true)
      (hx : s.base.conflicts c s.config.writeSkewCheckActive = x :: xs) :
      Committing s c ⟨s, c, .error x.error, []⟩
  /-- The check has passed, but an entry cannot be merged. -/
  | torn {e : TreeError} (h : c.hasChanges = true)
      (hx : s.base.conflicts c s.config.writeSkewCheckActive = [])
      (hm : (s.merge c).events = .error e) :
      Committing s c ⟨{ s with tree := (s.merge c).tree }, c, .error e, []⟩
  /-- All entries are merged. -/
  | merged {events : List Event} (h : c.hasChanges = true)
      (hx : s.base.conflicts c s.config.writeSkewCheckActive = [])
      (hm : (s.merge c).events = .ok events) :
      Committing s c ({ s with tree := (s.merge c).tree }.conclude c true
        (deliver s.listeners ((Store.allEvents c events).map .change)))

/-- The dirty entries of a tidy workspace can be merged in order. -/
theorem Workspace.Tidy.mergeable {w : Workspace} (h : w.Tidy) : Mergeable w.dirty where
  sorted := Workspace.dirty_pairwise w
  replaces p e hmem hrep := by
    have hc := h.consistent (Workspace.mem_dirty.1 hmem).1
    rw [hc.replacesBase_eq, Bool.and_eq_true, Bool.or_eq_true] at hrep
    exact hrep.2.symm
  root e hmem := by
    obtain ⟨hc, hp⟩ := h.root (Workspace.mem_dirty.1 hmem).1
    exact ⟨(Entry.isPresent_iff.1 hp).1, hc⟩

theorem Workspace.lookup_dirty {w : Workspace} {p : Path} :
    w.dirty.lookup p = (w.get? p).filter (·.isDirty) := by
  refine Option.ext fun e => ?_
  rw [lookup_eq_some (Workspace.dirty_pairwise w), Workspace.mem_dirty, Option.filter_eq_some_iff]

namespace Store

variable {s : Store} {c : Context}

/-- **How a commit goes.** -/
theorem commit_outcome (s : Store) (c : Context) : Committing s c (s.commit c) := by
  simp only [commit]
  by_cases h : c.hasChanges = true
  · rw [if_pos h]
    split
    · rename_i hx
      exact .refused h hx
    · rename_i hx
      have htorn := fun e => @Committing.torn s c e h hx
      have hmerged := fun events => @Committing.merged s c events h hx
      generalize s.merge c = m at htorn hmerged
      obtain ⟨tree, events⟩ := m
      cases events with
      | error e => exact htorn e rfl
      | ok events => exact hmerged events rfl
  · rw [if_neg h]
    exact .idle (by simpa using h)

theorem conclude_tree (committed : Bool) (sent : List Delivery) :
    (s.conclude c committed sent).store.tree = s.tree := rfl

/-- The tree that a merge starts from has the nodes of the committed tree. -/
theorem stamp_tree (s : Store) (c : Context) :
    (s.stamp c).2.slots = s.tree.slots ∧ (s.stamp c).2.nextId = s.tree.nextId := by
  simp only [stamp]
  split
  · exact ⟨rfl, rfl⟩
  · exact ⟨rfl, rfl⟩

theorem merge_eq (s : Store) (c : Context) :
    s.merge c = mergeAll (s.stamp c).2 (s.stamp c).1 ⟨c.transaction, c.options.localOnly⟩
      c.workspace.dirty := rfl

theorem data?_stamp (s : Store) (c : Context) : (s.stamp c).2.data? = s.tree.data? := by
  funext p
  rw [CommittedTree.data?, CommittedTree.data?, CommittedTree.peek?_of_slots (stamp_tree s c).1]

theorem sound_merge (h : s.tree.Sound) (c : Context) : (s.merge c).tree.Sound := by
  simp only [merge, stamp]
  split
  · exact (mergeAll_sound h).1
  · exact (mergeAll_sound h.allocate).1

/-- A merge goes through exactly if all entries have something to land on. -/
theorem merge_isOk_iff_supported (h : s.tree.Sound) (hc : c.workspace.Tidy) :
    (∃ events, (s.merge c).events = .ok events) ↔
      ∀ p e, (p, e) ∈ c.workspace.dirty → Supported s.tree.data? c.workspace.dirty p e := by
  obtain ⟨hslots, hnext⟩ := stamp_tree s c
  rw [merge_eq, mergeAll_isOk_iff (h.of_slots hslots hnext) hc.mergeable, data?_stamp]

/-- **The data after a merge that went through.** -/
theorem data?_merge {events : List Event} (h : s.tree.Sound) (hc : c.workspace.Tidy)
    (hm : (s.merge c).events = .ok events) (p : Path) :
    (s.merge c).tree.data? p = outcome s.tree.data? c.workspace.dirty p := by
  obtain ⟨hslots, hnext⟩ := stamp_tree s c
  rw [merge_eq] at hm ⊢
  rw [mergeAll_data (h.of_slots hslots hnext) hc.mergeable ⟨events, hm⟩, data?_stamp]

/-- **A merge changes a node only if it has a dirty entry or if one above it is taken away.** -/
theorem peek?_merge (h : s.tree.Sound) {p : Path}
    (he : ∀ e, c.workspace.get? p = some e → e.isDirty = false)
    (hcl : clearedAbove c.workspace.dirty p = false) :
    (s.merge c).tree.peek? p = s.tree.peek? p := by
  obtain ⟨hslots, hnext⟩ := stamp_tree s c
  rw [merge_eq, mergeAll_elsewhere (h.of_slots hslots hnext) (fun a ha hp => ?_) hcl,
    CommittedTree.peek?_of_slots hslots]
  obtain ⟨hget, hdirty⟩ := Workspace.mem_dirty.1 ha
  rw [he a.2 (hp ▸ hget)] at hdirty
  simp at hdirty

/-- A commit changes a node only if it has a dirty entry or if one above it is taken away. -/
theorem peek?_commit {p : Path} (h : s.tree.Sound)
    (he : ∀ e, c.workspace.get? p = some e → e.isDirty = false)
    (hcl : clearedAbove c.workspace.dirty p = false) :
    (s.commit c).store.tree.peek? p = s.tree.peek? p := by
  have hmerge := peek?_merge h he hcl
  have ho := commit_outcome s c
  generalize s.commit c = e at ho
  cases ho with
  | idle _ => rw [conclude_tree]
  | refused _ _ => rfl
  | torn _ _ _ => exact hmerge
  | merged _ _ _ =>
      rw [conclude_tree]
      exact hmerge

/-- A commit that succeeds forgets the entries, and keeps the options. -/
theorem context_commit (hok : (s.commit c).result = .ok ()) :
    (s.commit c).context = { c.clearWorkspace with locked := .empty } := by
  have ho := commit_outcome s c
  generalize s.commit c = e at ho hok
  cases ho with
  | idle _ => rfl
  | refused _ _ => simp at hok
  | torn _ _ _ => simp at hok
  | merged _ _ _ => rfl

/-- A commit leaves the entries or forgets them. -/
theorem workspace_commit (s : Store) (c : Context) :
    (s.commit c).context.workspace = .empty ∨
      (s.commit c).context.workspace = c.workspace := by
  have ho := commit_outcome s c
  generalize s.commit c = ending at ho
  cases ho with
  | idle _ => exact .inl rfl
  | refused _ _ => exact .inr rfl
  | torn _ _ _ => exact .inr rfl
  | merged _ _ _ => exact .inl rfl

/-- A commit leaves the options. -/
theorem options_commit (s : Store) (c : Context) :
    (s.commit c).context.options = c.options := by
  have ho := commit_outcome s c
  generalize s.commit c = ending at ho
  cases ho <;> rfl

/-- A commit keeps the tree sound and the workspace tidy. -/
theorem commit_sane (h : s.tree.Sound) (hc : c.workspace.Tidy) :
    (s.commit c).store.tree.Sound ∧ (s.commit c).context.workspace.Tidy := by
  have ho := commit_outcome s c
  generalize s.commit c = e at ho
  cases ho with
  | idle _ => exact ⟨h, Workspace.tidy_empty⟩
  | refused _ _ => exact ⟨h, hc⟩
  | torn _ _ _ => exact ⟨sound_merge h c, hc⟩
  | merged _ _ _ => exact ⟨sound_merge h c, Workspace.tidy_empty⟩

end Store

/-! ### The invariant of all runs -/

namespace SharedTree

/-- The tree is sound and all workspaces are tidy. -/
structure Sane (s : SharedTree) : Prop where
  /-- The tree is sound. -/
  sound : s.store.tree.Sound
  /-- All workspaces are tidy. -/
  tidy : ∀ {name : String} {c : Context}, s.context? name = some c → c.workspace.Tidy

variable {s : SharedTree} {name : String} {c : Context} {step : Step} {steps : List Step}

/-- The settings never change. -/
theorem config_take (s : SharedTree) (step : Step) :
    (s.take step).store.config = s.store.config := by
  cases step with
  | start name thread transaction =>
      simp only [take]
      split <;> rfl
  | setOptions name options =>
      simp only [take]
      cases s.context? name <;> rfl
  | perform name o =>
      simp only [take]
      cases s.context? name <;> rfl
  | commit name =>
      simp only [take]
      cases s.context? name with
      | none => rfl
      | some c =>
          have ho := Store.commit_outcome s.store c
          simp only [Option.elim_some, commit, finish]
          generalize s.store.commit c = e at ho
          cases ho <;> rfl
  | rollback name =>
      simp only [take]
      cases s.context? name <;> rfl
  | purge => rfl

theorem config_run (s : SharedTree) (steps : List Step) :
    (s.run steps).store.config = s.store.config := by
  induction steps generalizing s with
  | nil => rfl
  | cons step steps ih => exact (ih _).trans (config_take s step)

theorem sane_ofConfig (config : Config) (hash : Path → UInt64) : (ofConfig config hash).Sane where
  sound := CommittedTree.sound_empty
  tidy h := by simp [context?, ofConfig] at h

theorem Sane.set (h : s.Sane) {s' : SharedTree} (hs : s'.store.tree.Sound)
    (hc : c.workspace.Tidy) (hcs : s'.contexts = s.contexts.insert name c) : s'.Sane where
  sound := hs
  tidy {other c'} h' := by
    rw [context?, hcs, SortedMap.get?_insert] at h'
    split at h'
    · obtain rfl := Option.some.inj h'
      exact hc
    · exact h.tidy h'

/-- **Each step keeps the invariant.** -/
theorem Sane.take (h : s.Sane) (step : Step) : (s.take step).Sane := by
  cases step with
  | start name thread transaction =>
      simp only [SharedTree.take]
      split
      · exact h
      · exact h.set h.sound Workspace.tidy_empty rfl
  | setOptions name options =>
      simp only [SharedTree.take]
      cases hc : s.context? name with
      | none => exact h
      | some c =>
          have htidy := h.tidy hc
          exact h.set h.sound (c := { c with options }) htidy rfl
  | perform name o =>
      simp only [SharedTree.take]
      cases hc : s.context? name with
      | none => exact h
      | some c =>
          obtain ⟨acts, hst⟩ := Base.staged_perform (b := s.store.base) (w := ⟨s.store.locks, c⟩)
            h.sound (h.tidy hc) o
          exact h.set h.sound (hst.tidy h.sound (h.tidy hc)) rfl
  | commit name =>
      simp only [SharedTree.take]
      cases hc : s.context? name with
      | none => exact h
      | some c =>
          obtain ⟨hs, ht⟩ := Store.commit_sane h.sound (h.tidy hc)
          exact h.set hs ht rfl
  | rollback name =>
      simp only [SharedTree.take]
      cases hc : s.context? name with
      | none => exact h
      | some c => exact h.set h.sound Workspace.tidy_empty rfl
  | purge => exact ⟨h.sound.purge, h.tidy⟩

theorem Sane.run (h : s.Sane) (steps : List Step) : (s.run steps).Sane := by
  induction steps generalizing s with
  | nil => exact h
  | cons step steps ih => exact ih (h.take step)

/-- Only commits change committed nodes. -/
theorem peek?_take (hs : s.Sane) (h : ∀ other, step ≠ .commit other) (p : Path) :
    (s.take step).store.tree.peek? p = s.store.tree.peek? p := by
  cases step with
  | start other thread transaction =>
      simp only [take]
      split <;> rfl
  | setOptions other options =>
      simp only [take]
      cases s.context? other <;> rfl
  | perform other o =>
      simp only [take]
      cases s.context? other <;> rfl
  | commit other => exact absurd rfl (h other)
  | rollback other =>
      simp only [take]
      cases s.context? other <;> rfl
  | purge => exact hs.sound.peek?_purge

/-- **The invariant holds in every reachable state.** -/
theorem Reachable.sane (h : s.Reachable) : s.Sane := by
  obtain ⟨config, hash, steps, rfl⟩ := h
  exact (sane_ofConfig config hash).run steps

end SharedTree

end TransactionalTree
