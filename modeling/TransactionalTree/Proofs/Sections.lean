/-
**Commits under one guard.**

A commit checks its workspace and merges it under the same guard.  While a commit that takes nodes
away holds the guard, nobody else does, so that it is done as if in one go, as `Store.commit` has it.
While a commit that takes no node away holds the guard, others may hold it as well, but none of them
takes a node away either.  So what its check has found is there until it gives the guard back, and
each of its entries can be merged.

Main definitions:

* `CommitStep`, `Commits.run` — commits ask for the guard and go on, in any order;
* `Sparing`, `Keeping` — entries that take no node away, and trees that keep all nodes;
* `CommitSection.Ready` — what the commit has yet to merge has something to land on;
* `Commits.Guarded` — **the invariant** of commits under way.

Main results:

* `Commits.Guarded.take`, `Commits.Guarded.run` — a step keeps the invariant, and so does a run;
* `Commits.guarded_commits` — **a commit that takes nodes away is alone**, and the next entry of any
  other commit can always be merged;
* `Commits.nodes_stay` — while a commit that takes no node away is under way, no node goes;
* `Commits.commit_in_one_go` — **a commit that is alone does what `Store.commit` does**;
* `Commits.steps_lt` — a commit gives the guard back after so many steps of its own.
-/

import TransactionalTree.Commit.Section
import TransactionalTree.Proofs.Atomicity

set_option relaxedAutoImplicit false
set_option autoImplicit false

namespace TransactionalTree

/-! ### Entries that take no node away -/

/-- The entries take no node away. -/
def Sparing (es : List (Path × Entry)) : Prop := ∀ a ∈ es, a.2.replacesBase = false

/-- There is still a node wherever there was one. -/
def Keeping (f g : Path → Option Data) : Prop := ∀ q, (f q).isSome = true → (g q).isSome = true

variable {f g : Path → Option Data} {es : List (Path × Entry)} {p q : Path} {e : Entry}

theorem Keeping.refl (f : Path → Option Data) : Keeping f f := fun _ h => h

/-- Merging an entry that takes no node away keeps all nodes. -/
theorem keeping_mergedData (h : e.replacesBase = false) : Keeping f (mergedData p e f) := by
  intro q hq
  simp only [mergedData, h, Bool.false_and, Bool.false_eq_true, if_false]
  split
  · exact hq
  · split
    · split
      · rfl
      · exact hq
    · split
      · split
        · rename_i hqp
          rw [Option.isSome_map, ← hqp]
          exact hq
        · exact hq
      · exact hq

/-- The more nodes there are, the more there are after an entry has been merged at its own path. -/
theorem isSome_mergedData_self {d d' : Option Data} (h : d.isSome = true → d'.isSome = true)
    (hd : (mergedData p e (fun _ => d) p).isSome = true) :
    (mergedData p e (fun _ => d') p).isSome = true := by
  simp only [mergedData, Path.isAtOrBelow_self, Bool.and_true, if_true] at hd ⊢
  split at hd
  · split at hd
    · simp at hd
    · rename_i hrep
      rw [if_pos ‹_›, if_neg hrep]
      exact h hd
  · rw [if_neg ‹_›]
    split
    · split <;> rfl
    · rw [if_neg ‹_›] at hd
      split
      · rw [if_pos ‹_›, Option.isSome_map] at hd
        rw [Option.isSome_map]
        exact h hd
      · rw [if_neg ‹_›] at hd
        exact h hd

namespace Sparing

theorem tail {a : Path × Entry} (h : Sparing (a :: es)) : Sparing es :=
  fun b hb => h b (List.mem_cons_of_mem _ hb)

theorem clearedAbove (h : Sparing es) (q : Path) : clearedAbove es q = false := by
  rw [TransactionalTree.clearedAbove, List.any_eq_false]
  intro a ha
  simp [h a ha]

/-- The more nodes there are before, the more there are after the entries have been merged. -/
theorem outcome (h : Sparing es) (hk : Keeping f g) :
    Keeping (outcome f es) (TransactionalTree.outcome g es) := by
  intro q hq
  simp only [TransactionalTree.outcome, h.clearedAbove, Bool.false_eq_true, if_false] at hq ⊢
  cases hl : es.lookup q with
  | none =>
      rw [hl] at hq
      exact hk q hq
  | some e =>
      rw [hl] at hq
      exact isSome_mergedData_self (hk q) hq

/-- What has something to land on has it still when there are more nodes. -/
theorem supported (h : Sparing es) (hk : Keeping f g) (hs : Supported f es p e) :
    Supported g es p e := by
  refine hs.imp_right fun hland => ?_
  by_cases hcr : e.created = true
  · rw [if_pos hcr] at hland ⊢
    obtain ⟨r, name, hp, hr⟩ := hland
    exact ⟨r, name, hp, h.outcome hk r hr⟩
  · rw [if_neg hcr] at hland ⊢
    exact fun hch => ⟨h.clearedAbove p, hk p (hland hch).2⟩

end Sparing

/-- A unit of work that shares the guard takes no node away. -/
theorem Context.sparing_of_shared {c : Context} (h : c.commitGuard = .shared) :
    Sparing c.workspace.dirty := by
  rw [commitGuard, CommitGuard.enter] at h
  split at h
  · simp at h
  · rename_i hno
    rw [Bool.not_eq_true, List.any_eq_false] at hno
    exact fun a ha => by simpa using hno a ha

/-- **After the check, entries that take no node away have something to land on.** -/
theorem Store.supported_of_sparing {s : Store} {c : Context} (hc : c.workspace.Tidy)
    (hno : s.base.structureConflicts c = []) (h : Sparing c.workspace.dirty)
    (hmem : (p, e) ∈ c.workspace.dirty) : Supported s.tree.data? c.workspace.dirty p e := by
  rw [Store.supported_iff hc hno hmem, Workspace.isStranded]
  have hreplaced : ∀ r, c.workspace.isReplacedAbove r = false := by
    intro r
    rw [Bool.eq_false_iff]
    intro hcon
    obtain ⟨q, g, -, hg, hcr, hrep⟩ := Workspace.isReplacedAbove_iff.1 hcon
    have hdirty := Workspace.mem_dirty.2 ⟨hg, Entry.isDirty_iff.2 (.inr (.inl hcr))⟩
    rw [h _ hdirty] at hrep
    simp at hrep
  simp [hreplaced]

namespace Store

variable {s : Store} {c : Context}

/-- A commit fails for the first thing that is in its way, -/
theorem commit_refused {z : Conflict} {zs : List Conflict} (hc : c.hasChanges = true)
    (hno : s.base.conflicts c s.config.writeSkewCheckActive = z :: zs) :
    s.commit c = s.close c s.tree (.error z.error) := by
  rw [commit, if_pos hc, hno]
  rfl

/-- and if nothing is, it leaves what has come of the merge. -/
theorem commit_merged (hc : c.hasChanges = true)
    (hno : s.base.conflicts c s.config.writeSkewCheckActive = []) :
    s.commit c = s.close c (s.merge c).tree ((s.merge c).events.map (allEvents c)) := by
  rw [commit, if_pos hc, hno]
  generalize s.merge c = m
  obtain ⟨tree, events⟩ := m
  cases events <;> rfl

end Store

/-! ### Steps -/

/-- A step of commits under way. -/
inductive CommitStep where
  /-- A unit of work asks for the guard. -/
  | enter (name : String) (c : Context)
  /-- The commit of this name goes on. -/
  | goOn (name : String)
  /-- All tombstones are dropped, for which no guard is needed. -/
  | purge
deriving DecidableEq, Repr, Inhabited

/-- Who asks for the guard has a tidy workspace. -/
def CommitStep.Tidy : CommitStep → Prop
  | enter _ c => c.workspace.Tidy
  | _ => True

namespace CommitSection

/-- What is to be merged, once the check has been passed. -/
def left? (x : CommitSection) : Option (List (Path × Entry)) :=
  match x.phase with
  | .entered => none
  | .checked => some x.context.workspace.dirty
  | .merging _ left _ => some left

/-- **What is to be merged has something to land on**, and takes no node away. -/
def Ready (x : CommitSection) (t : CommittedTree) : Prop :=
  ∀ left, x.left? = some left →
    Mergeable left ∧ Sparing left ∧ ∀ a ∈ left, Supported t.data? left a.1 a.2

theorem Ready.mono {x : CommitSection} {t t' : CommittedTree} (h : x.Ready t)
    (hk : Keeping t.data? t'.data?) : x.Ready t' := by
  intro left hleft
  obtain ⟨hmergeable, hspare, hland⟩ := h left hleft
  exact ⟨hmergeable, hspare, fun a ha => hspare.supported hk (hland a ha)⟩

/-- So many steps of its own a commit has to go at most, until it gives the guard back. -/
def remaining (x : CommitSection) : Nat :=
  match x.phase with
  | .entered => x.context.workspace.dirty.length + 3
  | .checked => x.context.workspace.dirty.length + 2
  | .merging _ left _ => left.length + 1

end CommitSection

namespace Commits

/-- Take a step. -/
def take (s : Commits) : CommitStep → Commits
  | .enter name c => s.enter name c
  | .goOn name => (s.inside.get? name).elim s (s.goOn name)
  | .purge => { s with store := { s.store with tree := s.store.tree.purge.1 } }

/-- Take the listed steps, one after the other. -/
def run (s : Commits) (steps : List CommitStep) : Commits := steps.foldl take s

variable {s s' : Commits} {name other : String} {x y : CommitSection} {c : Context}
  {step : CommitStep} {steps : List CommitStep} {tree : CommittedTree} {phase : CommitPhase}
  {r : Except TreeError (List Event)}

/-- **How a commit goes on.** -/
inductive Going (s : Commits) (name : String) (x : CommitSection) : Commits → Prop
  /-- Nothing is in the way. -/
  | passed (hp : x.phase = .entered)
      (hx : s.store.base.conflicts x.context s.store.config.writeSkewCheckActive = []) :
      Going s name x (s.reach name x s.store.tree .checked)
  /-- Something is in the way. -/
  | refused {z : Conflict} {zs : List Conflict} (hp : x.phase = .entered)
      (hx : s.store.base.conflicts x.context s.store.config.writeSkewCheckActive = z :: zs) :
      Going s name x (s.leave name (.error z.error))
  /-- It takes its version. -/
  | stamped (hp : x.phase = .checked) :
      Going s name x (s.reach name x (s.store.stamp x.context).2
        (.merging (s.store.stamp x.context).1 x.context.workspace.dirty []))
  /-- It merges an entry. -/
  | merged {v : Version} {a : Path × Entry} {left : List (Path × Entry)} {events more : List Event}
      {tree : CommittedTree} (hp : x.phase = .merging v (a :: left) events)
      (hm : mergeEntry s.store.tree v ⟨x.context.transaction, x.context.options.localOnly⟩
        a.1 a.2 = .ok (tree, more)) :
      Going s name x (s.reach name x tree (.merging v left (events ++ more)))
  /-- It cannot merge an entry. -/
  | failed {v : Version} {a : Path × Entry} {left : List (Path × Entry)} {events : List Event}
      {e : TreeError} (hp : x.phase = .merging v (a :: left) events)
      (hm : mergeEntry s.store.tree v ⟨x.context.transaction, x.context.options.localOnly⟩
        a.1 a.2 = .error e) :
      Going s name x (s.leave name (.error e))
  /-- It has merged all entries. -/
  | done {v : Version} {events : List Event} (hp : x.phase = .merging v [] events) :
      Going s name x (s.leave name (.ok (Store.allEvents x.context events)))

theorem going_goOn (s : Commits) (name : String) (x : CommitSection) :
    Going s name x (s.goOn name x) := by
  cases hp : x.phase with
  | entered =>
      simp only [goOn, hp]
      cases hx : s.store.base.conflicts x.context s.store.config.writeSkewCheckActive with
      | nil => exact .passed hp hx
      | cons z zs => exact .refused hp hx
  | checked =>
      simp only [goOn, hp]
      exact .stamped hp
  | merging v left events =>
      cases left with
      | nil =>
          simp only [goOn, hp]
          exact .done hp
      | cons a left =>
          simp only [goOn, hp]
          cases hm : mergeEntry s.store.tree v
              ⟨x.context.transaction, x.context.options.localOnly⟩ a.1 a.2 with
          | error e => exact .failed hp hm
          | ok r => exact .merged hp hm

/-! ### The invariant -/

/-- **The invariant of commits under way.** -/
structure Guarded (s : Commits) : Prop where
  /-- The tree is sound. -/
  sound : s.store.tree.Sound
  /-- Each commit has the guard that it asked for, with a tidy workspace. -/
  own : ∀ {name x}, s.inside.get? name = some x →
    x.guard = x.context.commitGuard ∧ x.context.workspace.Tidy
  /-- Whoever is not alone shares the guard. -/
  shared : ∀ {name other x y}, s.inside.get? name = some x → s.inside.get? other = some y →
    other ≠ name → x.guard = .shared ∧ y.guard = .shared
  /-- Who shares the guard can merge what is to be merged. -/
  ready : ∀ {name x}, s.inside.get? name = some x → x.guard = .shared → x.Ready s.store.tree

theorem admits_iff {guard : CommitGuard} : s.admits guard = true ↔
    ∀ name x, s.inside.get? name = some x → guard = .shared ∧ x.guard = .shared := by
  have hshared : ∀ g : CommitGuard, (!g.isExclusive) = true ↔ g = .shared := by
    intro g
    cases g <;> simp [CommitGuard.isExclusive]
  rw [admits, List.all_eq_true]
  simp only [Bool.and_eq_true, hshared]
  exact ⟨fun h name x hx => h (name, x) (SortedMap.get?_eq_some_iff.1 hx),
    fun h a ha => h a.1 a.2 (SortedMap.get?_eq_some_iff.2 ha)⟩

theorem Guarded.enter (h : s.Guarded) (hc : c.workspace.Tidy) : (s.enter name c).Guarded := by
  rw [Commits.enter]
  split
  · exact h
  split
  · rename_i hnew hadmits
    have hothers := admits_iff.1 hadmits
    refine ⟨h.sound, fun {n x} hx => ?_, fun {n m x y} hx hy hne => ?_, fun {n x} hx hg => ?_⟩
    · rw [SortedMap.get?_insert] at hx
      split at hx
      · obtain rfl := Option.some.inj hx
        exact ⟨rfl, hc⟩
      · exact h.own hx
    · rw [SortedMap.get?_insert] at hx hy
      by_cases hn : n = name
      · rw [if_pos hn] at hx
        rw [if_neg (hn ▸ hne)] at hy
        obtain rfl := Option.some.inj hx
        exact hothers m y hy
      · rw [if_neg hn] at hx
        split at hy
        · obtain rfl := Option.some.inj hy
          exact (hothers n x hx).symm
        · exact h.shared hx hy hne
    · rw [SortedMap.get?_insert] at hx
      split at hx
      · obtain rfl := Option.some.inj hx
        intro left hleft
        simp [CommitSection.left?] at hleft
      · exact h.ready hx hg
  · exact h

/-- Nobody else is concerned when a commit gives the guard back. -/
theorem Guarded.leave (h : s.Guarded) : (s.leave name r).Guarded := by
  have hinside : ∀ {n x}, (s.leave name r).inside.get? n = some x → s.inside.get? n = some x := by
    intro n x hx
    rw [Commits.leave, SortedMap.get?_erase] at hx
    split at hx
    · simp at hx
    · exact hx
  exact ⟨h.sound, fun hx => h.own (hinside hx),
    fun hx hy => h.shared (hinside hx) (hinside hy), fun hx => h.ready (hinside hx)⟩

/-- A commit comes further, and the tree changes; if it shares the guard, all nodes are kept. -/
theorem Guarded.reach (h : s.Guarded) (hx : s.inside.get? name = some x) (hsound : tree.Sound)
    (hnext : x.guard = .shared → CommitSection.Ready { x with phase } tree ∧
      Keeping s.store.tree.data? tree.data?) : (s.reach name x tree phase).Guarded := by
  have hinside : ∀ {n y}, (s.reach name x tree phase).inside.get? n = some y →
      ∃ z, s.inside.get? n = some z ∧ y.guard = z.guard ∧ y.context = z.context ∧
        (n ≠ name → y = z) ∧ (n = name → y = { x with phase }) := by
    intro n y hy
    rw [Commits.reach, SortedMap.get?_insert] at hy
    split at hy
    · rename_i hn
      obtain rfl := Option.some.inj hy
      exact ⟨x, hn ▸ hx, rfl, rfl, fun hne => absurd hn hne, fun _ => rfl⟩
    · rename_i hn
      exact ⟨y, hy, rfl, rfl, fun _ => rfl, fun heq => absurd heq hn⟩
  refine ⟨hsound, fun {n y} hy => ?_, fun {n m y z} hy hz hne => ?_, fun {n y} hy hg => ?_⟩
  · obtain ⟨z, hz, hguard, hcontext, -, -⟩ := hinside hy
    rw [hguard, hcontext]
    exact h.own hz
  · obtain ⟨y', hy', hgy, -, -, -⟩ := hinside hy
    obtain ⟨z', hz', hgz, -, -, -⟩ := hinside hz
    rw [hgy, hgz]
    exact h.shared hy' hz' hne
  · obtain ⟨z, hz, hguard, -, hother, hsame⟩ := hinside hy
    by_cases hn : n = name
    · subst hn
      obtain rfl := Option.some.inj (hx.symm.trans hz)
      rw [hsame rfl]
      exact (hnext (hguard ▸ hg)).1
    · rw [hother hn] at hg ⊢
      exact (h.ready hz hg).mono (hnext (h.shared hx hz hn).1).2

/-- A step of a commit under way keeps the invariant; if it shares the guard, all nodes are kept. -/
theorem Guarded.goOn (h : s.Guarded) (hx : s.inside.get? name = some x) :
    (s.goOn name x).Guarded ∧
      (x.guard = .shared → Keeping s.store.tree.data? (s.goOn name x).store.tree.data?) := by
  obtain ⟨hguard, htidy⟩ := h.own hx
  have hspare : x.guard = .shared → Sparing x.context.workspace.dirty := fun hg =>
    Context.sparing_of_shared (hguard ▸ hg)
  -- what is to be merged in a later phase is there, if it is there in this one
  have hready : ∀ {left}, x.guard = .shared → x.left? = some left →
      Mergeable left ∧ Sparing left ∧
        ∀ a ∈ left, Supported s.store.tree.data? left a.1 a.2 :=
    fun hg hleft => h.ready hx hg _ hleft
  have hgo := going_goOn s name x
  generalize s.goOn name x = s' at hgo ⊢
  cases hgo with
  | passed hp hno =>
      refine ⟨h.reach hx h.sound fun hg => ⟨fun left hleft => ?_, .refl _⟩, fun _ => .refl _⟩
      obtain rfl : x.context.workspace.dirty = left := Option.some.inj hleft
      exact ⟨htidy.mergeable, hspare hg, fun a ha => Store.supported_of_sparing htidy
        (Store.structureConflicts_eq_nil hno) (hspare hg) ha⟩
  | refused _ _ => exact ⟨h.leave, fun _ => .refl _⟩
  | stamped hp =>
      have hdata : (s.store.stamp x.context).2.data? = s.store.tree.data? :=
        Store.data?_stamp s.store x.context
      obtain ⟨hslots, hnext⟩ := Store.stamp_tree s.store x.context
      have hkeep : Keeping s.store.tree.data? (s.store.stamp x.context).2.data? :=
        hdata ▸ Keeping.refl _
      refine ⟨h.reach hx (h.sound.of_slots hslots hnext) fun hg =>
        ⟨fun left hleft => ?_, hkeep⟩, fun _ => hkeep⟩
      obtain rfl : x.context.workspace.dirty = left := Option.some.inj hleft
      rw [hdata]
      exact hready hg (by rw [CommitSection.left?, hp])
  | @merged v a left events more tree hp hm =>
      have hmerged := merged_of_mergeEntry h.sound hm
      have hall : x.guard = .shared → Mergeable (a :: left) ∧ Sparing (a :: left) ∧
          ∀ b ∈ a :: left, Supported s.store.tree.data? (a :: left) b.1 b.2 := fun hg =>
        hready hg (by rw [CommitSection.left?, hp])
      have hkeep : x.guard = .shared → Keeping s.store.tree.data? tree.data? := by
        intro hg
        rw [funext hmerged.data]
        exact keeping_mergedData ((hall hg).2.1 a List.mem_cons_self)
      refine ⟨h.reach hx hmerged.sound fun hg => ⟨fun left' hleft => ?_, hkeep hg⟩, hkeep⟩
      obtain rfl : left = left' := Option.some.inj hleft
      obtain ⟨hmergeable, hsparing, hland⟩ := hall hg
      refine ⟨hmergeable.tail, hsparing.tail, fun b hb => ?_⟩
      rw [funext hmerged.data]
      exact (supported_tail hmergeable hb).2 (hland b (List.mem_cons_of_mem _ hb))
  | failed _ _ => exact ⟨h.leave, fun _ => .refl _⟩
  | done _ => exact ⟨h.leave, fun _ => .refl _⟩

theorem Guarded.data?_purge (h : s.Guarded) :
    s.store.tree.purge.1.data? = s.store.tree.data? := by
  funext p
  rw [CommittedTree.data?, CommittedTree.data?, h.sound.peek?_purge]

/-- **A step keeps the invariant.** -/
theorem Guarded.take (h : s.Guarded) (hstep : step.Tidy) : (s.take step).Guarded := by
  cases step with
  | enter name c => exact h.enter hstep
  | goOn name =>
      rw [Commits.take]
      cases hx : s.inside.get? name with
      | none => exact h
      | some x => exact (h.goOn hx).1
  | purge =>
      refine ⟨h.sound.purge, h.own, h.shared, fun hx hg => (h.ready hx hg).mono ?_⟩
      exact h.data?_purge ▸ Keeping.refl _

/-- **A run keeps the invariant.** -/
theorem Guarded.run (h : s.Guarded) (hsteps : ∀ step ∈ steps, step.Tidy) :
    (s.run steps).Guarded := by
  induction steps generalizing s with
  | nil => exact h
  | cons step steps ih =>
      exact ih (h.take (hsteps step List.mem_cons_self))
        fun x hx => hsteps x (List.mem_cons_of_mem _ hx)

theorem guarded_mk {store : Store} (h : store.tree.Sound) : Guarded { store } where
  sound := h
  own hx := by simp at hx
  shared hx := by simp at hx
  ready hx := by simp at hx

/-! ### What the guard is for -/

/-- The next entry of a commit that shares the guard can be merged. -/
theorem Guarded.merges {v : Version} {a : Path × Entry} {left : List (Path × Entry)}
    {events : List Event} (h : s.Guarded) (hx : s.inside.get? name = some x)
    (hg : x.guard = .shared) (hp : x.phase = .merging v (a :: left) events) :
    ∃ t more, mergeEntry s.store.tree v ⟨x.context.transaction, x.context.options.localOnly⟩
      a.1 a.2 = .ok (t, more) := by
  obtain ⟨hmergeable, -, hland⟩ := h.ready hx hg (a :: left) (by rw [CommitSection.left?, hp])
  refine (mergeEntry_isOk_iff h.sound fun hroot => hmergeable.root a.2 ?_).2
    ((supported_head hmergeable).1 (hland a List.mem_cons_self))
  rw [← hroot]
  exact List.mem_cons_self

/-- **What the guard is for.**  However commits ask for the guard and go on, one that takes nodes
away is alone with the tree; and when a commit that takes no node away has passed its check, each of
its entries can be merged when its turn comes, whatever others have committed in the meantime. -/
theorem guarded_commits {store : Store} (hstore : store.tree.Sound)
    (hsteps : ∀ step ∈ steps, step.Tidy) :
    let s := Commits.run { store } steps
    (∀ name other x y, s.inside.get? name = some x → s.inside.get? other = some y →
      other ≠ name → x.guard = .shared ∧ y.guard = .shared) ∧
    ∀ name x v a left events, s.inside.get? name = some x → x.guard = .shared →
      x.phase = .merging v (a :: left) events →
      ∃ t more, mergeEntry s.store.tree v ⟨x.context.transaction, x.context.options.localOnly⟩
        a.1 a.2 = .ok (t, more) := by
  intro s
  have h : s.Guarded := (guarded_mk hstore).run hsteps
  exact ⟨fun _ _ _ _ hx hy hne => h.shared hx hy hne, fun _ _ _ _ _ _ hx hg hp => h.merges hx hg hp⟩

/-- Two units of work that make nodes share the guard, and one that removes a node has to wait. -/
example :
    let s := (SharedTree.ofConfig {}).run
      [.start "s" ⟨"main", 0⟩ (some (1 : Nat)), .perform "s" (.put ⟨["a"]⟩ "k" (.int 1)),
        .commit "s", .perform "s" (.put ⟨["b"]⟩ "k" (.int 2)),
        .start "t" ⟨"main", 0⟩ (some (2 : Nat)), .perform "t" (.put ⟨["c"]⟩ "k" (.int 3)),
        .start "u" ⟨"main", 0⟩ (some (3 : Nat)), .perform "u" (.removeNode ⟨["a"]⟩)]
    let enter (name : String) : CommitStep := .enter name ((s.context? name).getD default)
    (Commits.run { store := s.store } [enter "s", enter "t", enter "u"]).inside.keys =
      ["s", "t"] := by
  decide +kernel

/-! ### As long as a commit is under way -/

/-- The commit holds the guard all the time. -/
def Stays (s : Commits) (name : String) (steps : List CommitStep) : Prop :=
  ∀ k, (s.run (steps.take k)).inside.contains name = true

theorem Stays.first (h : s.Stays name steps) : ∃ x, s.inside.get? name = some x :=
  SortedMap.contains_iff.1 (h 0)

theorem Stays.rest (h : s.Stays name (step :: steps)) : (s.take step).Stays name steps :=
  fun k => h (k + 1)

/-- A step of others leaves the commit where it is, and none changes its guard. -/
theorem inside_take (hx : s.inside.get? name = some x)
    (hy : (s.take step).inside.get? name = some y) :
    y.guard = x.guard ∧ y.context = x.context ∧ (step ≠ .goOn name → y = x) := by
  have hsame : s.inside.get? name = some y →
      y.guard = x.guard ∧ y.context = x.context ∧ (step ≠ .goOn name → y = x) := by
    intro hy
    obtain rfl := Option.some.inj (hx.symm.trans hy)
    exact ⟨rfl, rfl, fun _ => rfl⟩
  cases step with
  | enter other c =>
      rw [Commits.take, Commits.enter] at hy
      split at hy
      · exact hsame hy
      split at hy
      · rename_i hnew _
        rw [SortedMap.get?_insert] at hy
        split at hy
        · rename_i hn
          rw [← hn, SortedMap.contains_iff] at hnew
          exact absurd ⟨x, hx⟩ hnew
        · exact hsame hy
      · exact hsame hy
  | goOn other =>
      rw [Commits.take] at hy
      cases hz : s.inside.get? other with
      | none =>
          rw [hz] at hy
          exact hsame hy
      | some z =>
          rw [hz, Option.elim_some] at hy
          have hreach : ∀ {tree phase}, (s.reach other z tree phase).inside.get? name = some y →
              y.guard = x.guard ∧ y.context = x.context ∧
                (CommitStep.goOn other ≠ .goOn name → y = x) := by
            intro tree phase hy
            rw [Commits.reach, SortedMap.get?_insert] at hy
            split at hy
            · rename_i hn
              obtain rfl := Option.some.inj hy
              obtain rfl := Option.some.inj (hx.symm.trans (hn ▸ hz))
              exact ⟨rfl, rfl, fun hne => absurd (hn ▸ rfl) hne⟩
            · exact hsame hy
          have hleave : ∀ {r}, (s.leave other r).inside.get? name = some y →
              s.inside.get? name = some y := by
            intro r hy
            rw [Commits.leave, SortedMap.get?_erase] at hy
            split at hy
            · simp at hy
            · exact hy
          have hgo := going_goOn s other z
          generalize s.goOn other z = s' at hgo hy
          cases hgo with
          | passed _ _ => exact hreach hy
          | refused _ _ => exact hsame (hleave hy)
          | stamped _ => exact hreach hy
          | merged _ _ => exact hreach hy
          | failed _ _ => exact hsame (hleave hy)
          | done _ => exact hsame (hleave hy)
  | purge => exact hsame hy

/-- **While a commit that takes no node away is under way, no node goes**, whoever commits. -/
theorem nodes_stay (h : s.Guarded) (hsteps : ∀ step ∈ steps, step.Tidy)
    (hx : s.inside.get? name = some x) (hg : x.guard = .shared) (hstay : s.Stays name steps) :
    Keeping s.store.tree.data? (s.run steps).store.tree.data? := by
  induction steps generalizing s x with
  | nil => exact .refl _
  | cons step steps ih =>
      have hfirst : Keeping s.store.tree.data? (s.take step).store.tree.data? := by
        cases step with
        | enter other c =>
            rw [Commits.take, Commits.enter]
            split
            · exact .refl _
            · split <;> exact .refl _
        | goOn other =>
            rw [Commits.take]
            cases hz : s.inside.get? other with
            | none => exact .refl _
            | some z =>
                by_cases hn : other = name
                · rw [hn] at hz
                  obtain rfl := Option.some.inj (hx.symm.trans hz)
                  exact hn ▸ (h.goOn hx).2 hg
                · exact (h.goOn hz).2 (h.shared hx hz hn).2
        | purge => exact h.data?_purge ▸ Keeping.refl _
      obtain ⟨y, hy⟩ := hstay.rest.first
      have hlater := ih (h.take (hsteps step List.mem_cons_self))
        (fun z hz => hsteps z (List.mem_cons_of_mem _ hz)) hy ((inside_take hx hy).1.trans hg)
        hstay.rest
      exact fun q hq => hlater q (hfirst q hq)

/-- With each step of its own a commit has one less to go. -/
theorem remaining_goOn (hy : (s.goOn name x).inside.get? name = some y) : y.remaining + 1 = x.remaining := by
  have hreach : ∀ {tree phase}, (s.reach name x tree phase).inside.get? name = some y →
      y = { x with phase } := by
    intro tree phase hy
    rw [Commits.reach, SortedMap.get?_insert, if_pos rfl] at hy
    exact (Option.some.inj hy).symm
  have hleave : ∀ {r}, (s.leave name r).inside.get? name ≠ some y := by
    intro r hy
    rw [Commits.leave, SortedMap.get?_erase, if_pos rfl] at hy
    simp at hy
  have hgo := going_goOn s name x
  generalize s.goOn name x = s' at hgo hy
  cases hgo with
  | passed hp _ =>
      obtain rfl := hreach hy
      simp only [CommitSection.remaining, hp]
  | refused _ _ => exact absurd hy hleave
  | stamped hp =>
      obtain rfl := hreach hy
      simp only [CommitSection.remaining, hp]
  | merged hp _ =>
      obtain rfl := hreach hy
      simp only [CommitSection.remaining, hp, List.length_cons]
  | failed _ _ => exact absurd hy hleave
  | done _ => exact absurd hy hleave

/-- **A commit gives the guard back** after so many steps of its own, whatever others do. -/
theorem steps_lt (hx : s.inside.get? name = some x) (hstay : s.Stays name steps) :
    steps.count (.goOn name) < x.remaining := by
  induction steps generalizing s x with
  | nil =>
      rw [List.count_nil, CommitSection.remaining]
      split <;> exact Nat.succ_pos _
  | cons step steps ih =>
      obtain ⟨y, hy⟩ := hstay.rest.first
      have hrest := ih hy hstay.rest
      by_cases hstep : step = .goOn name
      · subst hstep
        rw [Commits.take, hx, Option.elim_some] at hy
        rw [List.count_cons_self, ← remaining_goOn hy]
        exact Nat.succ_lt_succ hrest
      · rw [List.count_cons_of_ne hstep, ← (inside_take hx hy).2.2 hstep]
        exact hrest

/-! ### Alone with the tree -/

/-- **How far a commit has come that has been alone** with the tree since it was let in: what it has
yet to merge is what is missing to the merge. -/
def Alone (store : Store) (s : Commits) (x : CommitSection) : Prop :=
  s.store = { store with tree := s.store.tree } ∧
  let conflicts := store.base.conflicts x.context store.config.writeSkewCheckActive
  match x.phase with
  | .entered => s.store.tree = store.tree
  | .checked => s.store.tree = store.tree ∧ conflicts = []
  | .merging v left events => conflicts = [] ∧
      let rest := mergeAll s.store.tree v ⟨x.context.transaction, x.context.options.localOnly⟩ left
      store.merge x.context = ⟨rest.tree, rest.events.map (events ++ ·)⟩

/-- **A step of its own**: the commit has been alone still, or it gives the guard back and has done
what `Store.commit` does. -/
theorem Alone.goOn {store : Store} (h : Alone store s x) (hc : x.context.hasChanges = true) :
    let s' := s.goOn name x
    (∃ y, s'.inside.get? name = some y ∧ y.context = x.context ∧ Alone store s' y ∧
      s'.outcomes = s.outcomes) ∨
    (s'.inside.get? name = none ∧ s'.store = { store with tree := s'.store.tree } ∧
      ∃ r, s'.outcomes = s.outcomes ++ [(name, r)] ∧
        store.commit x.context = store.close x.context s'.store.tree r) := by
  obtain ⟨hstore, hphase⟩ := h
  have hreach : ∀ {tree phase}, (s.reach name x tree phase).inside.get? name =
      some { x with phase } := fun {tree phase} => SortedMap.get?_insert_self
  have hleave : ∀ {r}, (s.leave name r).inside.get? name = none := by
    intro r
    rw [Commits.leave, SortedMap.get?_erase, if_pos rfl]
  have hagain : ∀ tree, ({ s.store with tree } : Store) = { store with tree } := by
    intro tree
    rw [hstore]
  intro s'
  have hgo : Going s name x s' := going_goOn s name x
  generalize s' = s' at hgo ⊢
  cases hgo with
  | passed hp hno =>
      simp only [hp] at hphase
      have hs : s.store = store := hstore.trans (by rw [hphase])
      exact .inl ⟨_, hreach, rfl, ⟨hstore, hphase, hs ▸ hno⟩, rfl⟩
  | refused hp hno =>
      simp only [hp] at hphase
      have hs : s.store = store := hstore.trans (by rw [hphase])
      refine .inr ⟨hleave, hstore, _, rfl, ?_⟩
      rw [Store.commit_refused hc (hs ▸ hno)]
      exact congrArg (store.close x.context · _) hphase.symm
  | stamped hp =>
      simp only [hp] at hphase
      have hs : s.store = store := hstore.trans (by rw [hphase.1])
      refine .inl ⟨_, hreach, rfl, ⟨hagain _, hphase.2, ?_⟩, rfl⟩
      have hnothing : ∀ m : Merge, m = ⟨m.tree, m.events.map ([] ++ ·)⟩ := by
        rintro ⟨tree, events⟩
        cases events <;> rfl
      rw [hs]
      exact hnothing (store.merge x.context)
  | @merged v a left events more tree hp hm =>
      simp only [hp, mergeAll, hm] at hphase
      refine .inl ⟨_, hreach, rfl, ⟨hagain _, hphase.1, ?_⟩, rfl⟩
      have htwice : ∀ m : Merge, (m.events.map (more ++ ·)).map (events ++ ·) =
          m.events.map (events ++ more ++ ·) := by
        rintro ⟨tree, rest⟩
        cases rest <;> simp [Except.map]
      exact hphase.2.trans (congrArg (Merge.mk _) (htwice _))
  | failed hp hm =>
      simp only [hp, mergeAll, hm] at hphase
      refine .inr ⟨hleave, hstore, _, rfl, ?_⟩
      rw [Store.commit_merged hc hphase.1, hphase.2]
      rfl
  | done hp =>
      simp only [hp, mergeAll] at hphase
      refine .inr ⟨hleave, hstore, _, rfl, ?_⟩
      rw [Store.commit_merged hc hphase.1, hphase.2]
      simp only [Except.map, List.append_nil]
      rfl

/-- While a commit that takes nodes away holds the guard, the steps of others change nothing. -/
theorem take_of_exclusive (h : s.Guarded) (hx : s.inside.get? name = some x)
    (hg : x.guard = .exclusive) (hstep : step ≠ .goOn name) (hpurge : step ≠ .purge) :
    s.take step = s := by
  cases step with
  | enter other c =>
      rw [Commits.take, Commits.enter]
      split
      · rfl
      · split
        · rename_i hadmits
          have hcon := (admits_iff.1 hadmits name x hx).2
          rw [hg] at hcon
          simp at hcon
        · rfl
  | goOn other =>
      rw [Commits.take]
      cases hy : s.inside.get? other with
      | none => rfl
      | some y =>
          have hne : other ≠ name := fun hn => hstep (hn ▸ rfl)
          have hcon := (h.shared hx hy hne).1
          rw [hg] at hcon
          simp at hcon
  | purge => exact absurd rfl hpurge

/-- The commit goes on, or others do nothing because it is alone. -/
def IsAlone (name : String) (guard : CommitGuard) (step : CommitStep) : Prop :=
  step = .goOn name ∨ guard = .exclusive ∧ step ≠ .purge

theorem Alone.run {store : Store} (halone : Alone store s x) (h : s.Guarded)
    (hx : s.inside.get? name = some x) (hc : x.context.hasChanges = true)
    (hsteps : ∀ step ∈ steps, IsAlone name x.guard step) (hstay : s.Stays name steps) :
    ∃ y, (s.run steps).inside.get? name = some y ∧ y.context = x.context ∧
      Alone store (s.run steps) y ∧ (s.run steps).outcomes = s.outcomes := by
  induction steps generalizing s x with
  | nil => exact ⟨x, hx, rfl, halone, rfl⟩
  | cons step steps ih =>
      have hlater : ∀ z ∈ steps, IsAlone name x.guard z := fun z hz =>
        hsteps z (List.mem_cons_of_mem _ hz)
      by_cases hstep : step = .goOn name
      · subst hstep
        have htake : s.take (.goOn name) = s.goOn name x := by
          rw [Commits.take, hx]
          rfl
        have hrun : s.run (.goOn name :: steps) = (s.goOn name x).run steps :=
          congrArg (fun s' : Commits => s'.run steps) htake
        obtain ⟨z, hz⟩ := hstay.rest.first
        have hnext : (s.goOn name x).Guarded := (h.goOn hx).1
        rw [htake] at hz
        rw [hrun]
        rcases halone.goOn hc with ⟨y, hy, hcontext, hnow, houtcomes⟩ | ⟨hgone, -⟩
        · have hguard : y.guard = x.guard := (inside_take hx (htake ▸ hy)).1
          obtain ⟨y', hy', hcontext', hlast, houtcomes'⟩ := ih hnow hnext hy (hcontext ▸ hc)
            (hguard ▸ hlater) (htake ▸ hstay.rest)
          exact ⟨y', hy', hcontext'.trans hcontext, hlast, houtcomes'.trans houtcomes⟩
        · rw [hgone] at hz
          simp at hz
      · obtain ⟨hg, hpurge⟩ := (hsteps step List.mem_cons_self).resolve_left hstep
        have hsame := take_of_exclusive h hx hg hstep hpurge
        have hrun : s.run (step :: steps) = s.run steps :=
          congrArg (fun s' : Commits => s'.run steps) hsame
        rw [hrun]
        exact ih halone h hx hc hlater (hsame ▸ hstay.rest)

/-- **A commit that is alone is done in one go.**  From when it is let in until it gives the guard
back, whatever others ask for in between, it has done to the tree what `Store.commit` does, and it
is left with what `Store.commit` leaves. -/
theorem commit_in_one_go {guard : CommitGuard} (h : s.Guarded)
    (hx : s.inside.get? name = some ⟨guard, c, .entered⟩) (hc : c.hasChanges = true)
    (hsteps : ∀ step ∈ steps, IsAlone name guard step) (hstay : s.Stays name steps)
    (hleft : ((s.run steps).take (.goOn name)).inside.contains name = false) :
    let s' := (s.run steps).take (.goOn name)
    s'.store = { s.store with tree := s'.store.tree } ∧
      ∃ r, s'.outcomes = s.outcomes ++ [(name, r)] ∧
        s.store.commit c = s.store.close c s'.store.tree r := by
  have halone : Alone s.store s ⟨guard, c, .entered⟩ := ⟨rfl, rfl⟩
  obtain ⟨y, hy, hcontext, hlast, houtcomes⟩ := halone.run h hx hc hsteps hstay
  have htake : (s.run steps).take (.goOn name) = (s.run steps).goOn name y := by
    rw [Commits.take, hy]
    rfl
  rw [htake] at hleft ⊢
  rcases hlast.goOn (hcontext ▸ hc) with ⟨z, hz, -⟩ | ⟨-, hstore, r, hr, hcommit⟩
  · rw [SortedMap.contains_eq_false, hz] at hleft
    simp at hleft
  · rw [hcontext] at hcommit
    exact ⟨hstore, r, houtcomes ▸ hr, hcommit⟩

end Commits

end TransactionalTree
