/-
**Strict locking.**

When reads are not pinned, parents are locked with the nodes that are inserted and removed, locking
is never skipped and subtrees are moved deeply, then no unit of work is ever in the way of another
one.  What a commit changes its unit of work has locked: every node with an entry, every place where
a node comes or goes, with the parent, and every node that goes with one above it.  So no other unit
of work has staged anything there, or below a node that it has taken away.

Main definitions:

* `Step.isStrict` — the step neither skips locking nor moves a subtree shallowly;
* `SharedTree.Strict` — **all that is staged is locked**.

Main results:

* `Work.Secured.over_commit` — the commit of another unit of work keeps what is secured;
* `SharedTree.Strict.take` — **strict steps keep strict states strict**;
* `SharedTree.strict_locking` — **commits succeed, and commit what is read**.
-/

import TransactionalTree.Proofs.Following
import TransactionalTree.Proofs.Securing

set_option relaxedAutoImplicit false
set_option autoImplicit false

namespace TransactionalTree

variable {b b' : Base} {c d : Context} {p q : Path}

/-! ### Over other trees -/

/-- What is guarded is over every tree with the same nodes. -/
theorem Guarded.congr {w : Workspace} (h : Guarded b c w)
    (hsame : ∀ p, b'.tree.peek? p = b.tree.peek? p) : Guarded b' c w where
  changed := h.changed
  cleared he hb hq hex := by
    rw [CommittedTree.exists?, hsame] at hex
    exact h.cleared he hb hq hex

namespace Work.Secured

variable {m n : LockManager}

/-- A unit of work without entries is secured. -/
theorem of_empty (hb : b.tree.Sound) (hm : m.lockParent = true) (hw : c.workspace = .empty)
    (hskip : c.options.skipLocking = false) : Work.Secured b ⟨m, c⟩ where
  lockParent := hm
  skipLocking := hskip
  faithful := by
    rw [hw]
    exact .empty hb
  covered he := by
    rw [Context.entry?, hw] at he
    simp at he
  guarded := by
    rw [hw]
    exact .empty

/-- What is secured is over every tree with the same nodes, whatever others have locked. -/
theorem congr (h : Work.Secured b ⟨m, c⟩) (hb : b'.tree.Sound)
    (hsame : ∀ p, b'.tree.peek? p = b.tree.peek? p) (hn : n.lockParent = true) :
    Work.Secured b' ⟨n, c⟩ where
  lockParent := hn
  skipLocking := h.skipLocking
  faithful := h.faithful.congr hb hsame
  covered := h.covered
  guarded := h.guarded.congr hsame

/-- Other options keep what is secured, unless they skip locking. -/
theorem withOptions {options : Options} (h : Work.Secured b ⟨m, c⟩)
    (hskip : options.skipLocking = false) : Work.Secured b ⟨m, { c with options }⟩ where
  lockParent := h.lockParent
  skipLocking := hskip
  faithful := h.faithful
  covered := h.covered
  guarded := h.guarded.mono fun _ hq => hq

/-! ### Commits -/

variable {s : Store}

/-- Where reads are not pinned, nothing is in the way of the commit. -/
theorem conflicts_eq_nil (h : Work.Secured s.base ⟨s.locks, c⟩)
    (hiso : s.config.isolation = .readCommitted) :
    s.base.conflicts c s.config.writeSkewCheckActive = [] := by
  rw [Store.conflicts_of_faithful h.faithful, Config.writeSkewCheckActive, hiso]
  simp

section Commit

variable (h : Work.Secured s.base ⟨s.locks, c⟩) (ha : Work.Accounted ⟨s.locks, c⟩)
variable (hiso : s.config.isolation = .readCommitted)
include h ha hiso

/-- **Where a commit makes or removes a node**, the place and its parent are locked. -/
theorem holdsWithParent_of_commit
    (hne : (s.commit c).store.tree.exists? q ≠ s.tree.exists? q) : c.HoldsWithParent q := by
  refine h.guarded.of_differs h.faithful fun heq => hne (Eq.trans ?_ heq)
  have hdata := (Store.commit_of_faithful h.faithful ha (h.conflicts_eq_nil hiso)).2 q
  rw [← CommittedTree.isSome_data?, hdata]
  exact View.isSome_data? _ q

/-- **A node that a commit changes is locked.** -/
theorem holds_of_commit (hne : (s.commit c).store.tree.peek? q ≠ s.tree.peek? q) :
    c.holds q = true := by
  by_contra hnot
  have hsame : (s.commit c).store.tree.exists? q = s.tree.exists? q := by
    by_contra hdiffers
    exact hnot (h.holdsWithParent_of_commit ha hiso hdiffers).1
  cases hex : s.tree.exists? q with
  -- a node comes only where it is made, and there the lock is held
  | false =>
      rw [hex] at hsame
      rw [CommittedTree.exists?, Option.isSome_eq_false_iff, Option.isNone_iff_eq_none] at hex hsame
      exact hne (hsame.trans hex.symm)
  | true =>
      refine hne (Store.peek?_commit h.faithful.sound (fun e he => absurd (h.covered he) hnot) ?_)
      rw [← Bool.not_eq_true]
      intro hcleared
      obtain ⟨r, g, hmem, hr, hb⟩ := clearedAbove_iff.1 hcleared
      exact hnot (h.guarded.cleared (Workspace.mem_dirty.1 hmem).1 hb
        (Path.isAtOrBelow_of_isAbove hr) hex)

variable (hdisjoint : ∀ p, c.holds p = true → d.holds p = false)
include hdisjoint

/-- The commit leaves the nodes that another unit of work has locked. -/
theorem peek?_commit_of_holds (hp : d.holds p = true) :
    (s.commit c).store.tree.peek? p = s.tree.peek? p := by
  by_contra hne
  rw [hdisjoint p (h.holds_of_commit ha hiso hne)] at hp
  simp at hp

/-- The commit makes and removes nothing below a node that another unit of work has locked. -/
theorem exists?_commit_of_holds (hp : d.holds p = true) (name : String) :
    (s.commit c).store.tree.exists? (p.push name) = s.tree.exists? (p.push name) := by
  by_contra hne
  rw [hdisjoint p ((h.holdsWithParent_of_commit ha hiso hne).2 p name rfl)] at hp
  simp at hp

variable (h' : Work.Secured s.base ⟨s.locks, d⟩)
include h'

/-- **The tree has not changed where it matters to another unit of work.** -/
theorem faithful_commit : Faithful (s.commit c).store.base d.workspace := by
  have hsound : (s.commit c).store.base.tree.Sound :=
    (Store.commit_sane h.faithful.sound h.faithful.tidy).1
  have hentry : ∀ {p : Path} {e : Entry}, d.workspace.get? p = some e →
      (s.commit c).store.tree.peek? p = s.tree.peek? p := fun he =>
    h.peek?_commit_of_holds ha hiso hdisjoint (h'.covered he)
  refine h'.faithful.transfer hsound hentry (fun {p e} he _ _ => ?_) fun {p name e} he hp hex => ?_
  · refine SortedSet.ext_has fun name => ?_
    have hsame := h.exists?_commit_of_holds ha hiso hdisjoint (h'.covered he) name
    rw [CommittedTree.mem_childNames, CommittedTree.mem_childNames, ← hsound.exists?_iff,
      ← h'.faithful.sound.exists?_iff]
    exact (congrArg (· = true) hsame).to_iff
  · cases hc : e.created with
    -- a node that is made has its parent locked, one that is there has its parent there
    | true =>
        have hparent : d.holds p = true := (h'.guarded.changed he (.inl hc)).2 p name rfl
        have hsame := h.peek?_commit_of_holds ha hiso hdisjoint hparent
        exact (congrArg Option.isSome hsame).trans hex
    | false =>
        obtain ⟨n, hn, -⟩ := h'.faithful.copied he hp hc
        have hpush := (hentry he).trans hn
        exact hsound.exists?_iff.2 (hsound.parent
          (hsound.exists?_iff.1 (CommittedTree.exists?_iff_peek?.2 ⟨n, hpush⟩)))

/-- Below what another unit of work takes away nothing comes. -/
theorem exists?_of_cleared {e : Entry} (he : d.workspace.get? p = some e)
    (hb : e.replacesBase = true) (hq : q.isAtOrBelow p = true)
    (hex : (s.commit c).store.tree.exists? q = true) : s.tree.exists? q = true := by
  have hsound := (Store.commit_sane h.faithful.sound h.faithful.tidy).1
  induction q using Path.rootOrPush with
  | root => exact h'.faithful.sound.exists?_root
  | push r name ih =>
      rcases Path.isAtOrBelow_iff.1 hq with rfl | hpq
      · have hsame := h.peek?_commit_of_holds ha hiso hdisjoint (h'.covered he)
        exact (congrArg Option.isSome hsame).symm.trans hex
      · have hr : r.isAtOrBelow p = true := Path.isAbove_push.1 hpq
        have hparent := ih hr (hsound.exists?_iff.2 (hsound.parent (hsound.exists?_iff.1 hex)))
        have hheld : d.holds r = true := h'.guarded.cleared he hb hr hparent
        rw [← h.exists?_commit_of_holds ha hiso hdisjoint hheld name]
        exact hex

/-- **The commit of another unit of work keeps what is secured.** -/
theorem over_commit (hm : m.lockParent = true) :
    Work.Secured (s.commit c).store.base ⟨m, d⟩ where
  lockParent := hm
  skipLocking := h'.skipLocking
  faithful := h.faithful_commit ha hiso hdisjoint h'
  covered := h'.covered
  guarded :=
    { changed := h'.guarded.changed
      cleared := fun he hb hq hex => h'.guarded.cleared he hb hq
        (h.exists?_of_cleared ha hiso hdisjoint h' he hb hq hex) }

end Commit

end Work.Secured

/-- A read that is not pinned and takes no lock answers what is seen. -/
theorem Base.perform_getData {u : Work} (hread : b.isRepeatable = false)
    (hforce : u.context.options.forceWriteLock = false) (f : Path) :
    (b.perform u (.getData f)).2 = .ok (.data ((b.view u.context).data? f)) := by
  simp [Base.perform, Base.getData, Base.reading, Base.prepareRead, Base.look, hread, hforce,
    answering, Except.map, View.data?]

/-! ### Runs -/

/-- **The step is strict**: it does not let locking be skipped, and is not a shallow move. -/
def Step.isStrict : Step → Bool
  | setOptions _ options => !options.skipLocking
  | perform _ o => o.isDeep
  | _ => true

namespace SharedTree

variable {s : SharedTree} {name : String} {step : Step} {steps : List Step}

/-- **All that is staged is locked**, and reads are not pinned. -/
structure Strict (s : SharedTree) : Prop where
  /-- Reads see what is committed. -/
  isolation : s.store.config.isolation = .readCommitted
  /-- Parents are locked with the nodes that are inserted and removed. -/
  lockParent : s.store.locks.lockParent = true
  /-- The locks are held for all that is staged. -/
  secured : ∀ {name : String} {c : Context}, s.context? name = some c →
    Work.Secured s.store.base ⟨s.store.locks, c⟩

namespace Strict

theorem isRepeatable (h : s.Strict) : s.store.base.isRepeatable = false := by
  rw [Base.isRepeatable, Store.base, h.isolation]
  rfl

/-- **A commit succeeds**, and commits what is seen. -/
theorem commit (h : s.Strict) (hset : s.Settled) (hc : s.context? name = some c) :
    (s.store.commit c).result = .ok () ∧
      ∀ f, (s.store.commit c).store.tree.data? f = (s.store.base.view c).data? f :=
  Store.commit_of_faithful (h.secured hc).faithful (hset.accounted hc)
    ((h.secured hc).conflicts_eq_nil h.isolation)

/-- What a unit of work does itself leaves it secured. -/
theorem secured_actor (h : s.Strict) (hs : s.Sane) (hset : s.Settled)
    (hstep : step.isStrict = true) (hactor : step.actor? = some name)
    (hc : (s.take step).context? name = some c) :
    Work.Secured (s.take step).store.base ⟨(s.take step).store.locks, c⟩ := by
  have hsound := (hs.take step).sound
  have hlock := (lockParent_take s step).trans h.lockParent
  cases step with
  | start other thread transaction =>
      obtain rfl := Option.some.inj hactor
      simp only [take] at hc hsound hlock ⊢
      split at hc
      · rename_i howned
        rw [if_pos howned]
        exact h.secured hc
      · rename_i howned
        rw [if_neg howned]
        obtain rfl := Option.some.inj (SortedMap.get?_insert_self.symm.trans hc)
        exact .of_empty hs.sound h.lockParent rfl rfl
  | setOptions other options =>
      obtain rfl := Option.some.inj hactor
      obtain ⟨d, hd, hd'⟩ := of_context?_elim hc
      obtain rfl := Option.some.inj (SortedMap.get?_insert_self.symm.trans hd')
      simp only [take, hd, Option.elim_some]
      exact (h.secured hd).withOptions (by simpa [Step.isStrict] using hstep)
  | perform other o =>
      obtain rfl := Option.some.inj hactor
      obtain ⟨d, hd, hd'⟩ := of_context?_elim hc
      obtain rfl := Option.some.inj (context?_perform.symm.trans hd')
      simp only [take, hd, Option.elim_some]
      exact (h.secured hd).perform h.isRepeatable hstep
  | commit other =>
      obtain rfl := Option.some.inj hactor
      obtain ⟨d, hd, hd'⟩ := of_context?_elim hc
      obtain rfl := Option.some.inj (SortedMap.get?_insert_self.symm.trans hd')
      have hended := Store.context_commit (h.commit hset hd).1
      refine .of_empty hsound hlock ?_ ?_
      · rw [hended]
        rfl
      · rw [hended]
        exact (h.secured hd).skipLocking
  | rollback other =>
      obtain rfl := Option.some.inj hactor
      obtain ⟨d, hd, hd'⟩ := of_context?_elim hc
      obtain rfl := Option.some.inj (SortedMap.get?_insert_self.symm.trans hd')
      exact .of_empty hsound hlock rfl (h.secured hd).skipLocking
  | purge => simp [Step.actor?] at hactor

/-- What others do leaves a unit of work secured. -/
theorem secured_other (h : s.Strict) (hs : s.Sane) (hset : s.Settled)
    (hc : s.context? name = some c) (hactor : step.actor? ≠ some name) :
    Work.Secured (s.take step).store.base ⟨(s.take step).store.locks, c⟩ := by
  have hlock := (lockParent_take s step).trans h.lockParent
  by_cases hcommit : ∃ other, step = .commit other
  · obtain ⟨other, rfl⟩ := hcommit
    cases hd : s.context? other with
    | none =>
        simp only [take, hd, Option.elim_none]
        exact h.secured hc
    | some d =>
        have hne : name ≠ other := fun heq => hactor (congrArg some heq.symm)
        simp only [take, hd, Option.elim_some] at hlock ⊢
        exact (h.secured hd).over_commit (hset.accounted hd) h.isolation
          (fun p hp => hset.disjoint hd hc hne hp) (h.secured hc) hlock
  · have hsame := peek?_take hs fun other hstep => hcommit ⟨other, hstep⟩
    exact (h.secured hc).congr (hs.take step).sound hsame hlock

/-- **Strict steps keep strict states strict.** -/
theorem take (h : s.Strict) (hs : s.Sane) (hset : s.Settled) (hstep : step.isStrict = true) :
    (s.take step).Strict where
  isolation := by
    rw [config_take]
    exact h.isolation
  lockParent := (lockParent_take s step).trans h.lockParent
  secured {name c} hc := by
    by_cases hactor : step.actor? = some name
    · exact h.secured_actor hs hset hstep hactor hc
    · rw [context?_take_of_ne hactor] at hc
      exact h.secured_other hs hset hc hactor

theorem run (h : s.Strict) (hs : s.Sane) (hset : s.Settled)
    (hsteps : ∀ step ∈ steps, step.isStrict = true) : (s.run steps).Strict := by
  induction steps generalizing s with
  | nil => exact h
  | cons step steps ih =>
      exact ih (h.take hs hset (hsteps step List.mem_cons_self)) (hs.take step) (hset.take step)
        fun other hother => hsteps other (List.mem_cons_of_mem _ hother)

end Strict

theorem strict_ofConfig {config : Config} {hash : Path → UInt64}
    (hiso : config.isolation = .readCommitted)
    (hparent : config.locking.lockParent = true) : (ofConfig config hash).Strict where
  isolation := hiso
  lockParent := hparent
  secured hc := by simp [context?, ofConfig] at hc

/-- **Strict locking keeps units of work out of each other's way.**  Reads are not pinned, and
parents are locked with the nodes that are inserted and removed.  After any run of strict steps,
every unit of work passes the check of a commit, is merged completely, and commits exactly the data
that it reads. -/
theorem strict_locking {config : Config} {hash : Path → UInt64}
    (hiso : config.isolation = .readCommitted)
    (hparent : config.locking.lockParent = true) (hsteps : ∀ step ∈ steps, step.isStrict = true)
    (hrun : (ofConfig config hash).run steps = s) (hc : s.context? name = some c) :
    s.store.base.conflicts c s.store.config.writeSkewCheckActive = [] ∧
      (∃ events, (s.store.merge c).events = .ok events) ∧
      (s.commit name c).2 = .ok () ∧
      ∀ f, (s.perform name { c with options := { c.options with forceWriteLock := false } }
          (.getData f)).2 = .ok (.data ((s.commit name c).1.store.tree.data? f)) := by
  subst hrun
  have hsettled := (settled_ofConfig config hash).run steps
  have h := (strict_ofConfig hiso hparent).run (sane_ofConfig config hash)
    (settled_ofConfig config hash)
    hsteps
  obtain ⟨hok, hdata⟩ := h.commit hsettled hc
  refine ⟨(h.secured hc).conflicts_eq_nil h.isolation,
    Store.merge_of_faithful (h.secured hc).faithful, hok, fun f => ?_⟩
  refine (Base.perform_getData h.isRepeatable rfl f).trans ?_
  exact congrArg (fun d => Except.ok (Answer.data d)) (hdata f).symm

/-- Reads are not pinned, and parents are locked, with locks that are shared. -/
def strictConfig : Config :=
  { isolation := .readCommitted, locking := { striped := true, lockParent := true } }

/-- One transaction moves `/r/a` below `/r/b`; meanwhile another one commits `/c`, and cannot remove
`/r/b`. -/
def strictSteps : List Step :=
  [.start "s" ⟨"main", 0⟩ (some (1 : Nat)), .start "t" ⟨"main", 0⟩ (some (2 : Nat)),
    .perform "s" (.put ⟨["r", "a", "x"]⟩ "k" (.int 1)),
    .perform "s" (.put ⟨["r", "b"]⟩ "k" (.int 2)), .commit "s",
    .perform "t" (.moveNode ⟨["r", "a"]⟩ ⟨["r", "b"]⟩ true),
    .perform "s" (.put ⟨["c"]⟩ "k" (.int 3)), .perform "s" (.removeNode ⟨["r", "b"]⟩),
    .commit "s"]

/-- The state in which the first one is to be committed. -/
def strictState : SharedTree := (ofConfig strictConfig).run strictSteps

/-- The transaction in that state. -/
def strictContext : Context := (strictState.context? "t").getD default

/-- It commits what it has moved, and reads what it will commit. -/
theorem commit_moved : (strictState.commit "t" strictContext).2 = .ok () ∧
    (strictState.perform "t"
        { strictContext with options := { strictContext.options with forceWriteLock := false } }
        (.getData ⟨["r", "b", "a", "x"]⟩)).2 =
      .ok (.data (some (SortedMap.empty.insert "k" (.int 1)))) := by
  have hsteps : ∀ step ∈ strictSteps, step.isStrict = true := by decide
  have hrun : (ofConfig strictConfig).run strictSteps = strictState := rfl
  have hc : strictState.context? "t" = some strictContext := by decide +kernel
  have hdata : (strictState.commit "t" strictContext).1.store.tree.data? ⟨["r", "b", "a", "x"]⟩ =
      some (SortedMap.empty.insert "k" (.int 1)) := by decide +kernel
  obtain ⟨-, -, hok, hread⟩ := strict_locking rfl rfl hsteps hrun hc
  refine ⟨hok, (hread _).trans ?_⟩
  rw [hdata]

end SharedTree

end TransactionalTree
