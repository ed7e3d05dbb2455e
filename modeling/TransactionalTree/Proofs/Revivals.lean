/-
**Revivals and the removals before them.**

A node may be made where one was removed before.  When the options name a version, an operation
that makes nodes checks it against the newest removal on the way to each of them.  The node is only
put in by the commit, and under the version that the options name by then; meanwhile removals may
have been committed on the way, and nothing is checked again.

Main definitions:

* `Operation.makes` — the nodes that an operation makes;
* `Workspace.hasMade` — there is an entry for a node that was made;
* `SharedTree.MakesAt` — an operation that makes a node is carried out.

Main results:

* `Base.supersedes_of_perform` — an operation is carried out only if an explicit version is newer
  than the removals on the way to all that it makes;
* `SharedTree.exists_making` — **what is made was made by an operation**, and is made since;
* `SharedTree.revival_supersedes_unless_overtaken` — **a revival supersedes the removals before
  it**, unless the version or a removal on the way has changed since the node was made;
* `SharedTree.not_revival_supersedes` — it may then be older.
-/

import TransactionalTree.Proofs.Removals
import TransactionalTree.Proofs.Stamps

set_option relaxedAutoImplicit false
set_option autoImplicit false

namespace TransactionalTree

variable {b : Base} {c : Context} {u : Work} {w w' : Workspace} {acts : List Act}
variable {p q source parent : Path} {v r : Version}

/-! ### Removals on the way -/

namespace CommittedTree

variable {t : CommittedTree} {n : Node}

/-- The newest of several stamps is one of them. -/
theorem mem_of_foldl_newest {ns : List Node} {newest : Option Version}
    (h : ns.foldl (fun newest n => some (newest.elim n.version (max n.version))) newest = some v) :
    newest = some v ∨ ∃ n ∈ ns, n.version = v := by
  induction ns generalizing newest with
  | nil => exact .inl h
  | cons n ns ih =>
      rcases ih h with hfirst | ⟨m, hm, hv⟩
      · obtain hfirst := Option.some.inj hfirst
        cases newest with
        | none => exact .inr ⟨n, List.mem_cons_self, hfirst⟩
        | some x =>
            rw [Option.elim_some] at hfirst
            rcases Std.max_eq_or (a := n.version) (b := x) with hmax | hmax
            · rw [hmax] at hfirst
              exact .inr ⟨n, List.mem_cons_self, hfirst⟩
            · rw [hmax] at hfirst
              exact .inl (congrArg some hfirst)
      · exact .inr ⟨m, List.mem_cons_of_mem _ hm, hv⟩

/-- The newest removal on the way to a path has left a tombstone there. -/
theorem exists_tombstone (h : t.tombstoneVersion p = some v) :
    ∃ q n, p.isAtOrBelow q = true ∧ t.slots.get? q = some n ∧ n.valid = false ∧ n.version = v := by
  rcases mem_of_foldl_newest h with hnone | ⟨n, hn, hv⟩
  · simp at hnone
  · obtain ⟨hn, hvalid⟩ := List.mem_filter.1 hn
    obtain ⟨q, hq, hget⟩ := List.mem_filterMap.1 hn
    exact ⟨q, n, (Path.mem_steps.1 hq).1, hget, by simpa using hvalid, hv⟩

/-- Where there is a removal on the way nothing is found. -/
theorem Sound.peek?_eq_none_of_tombstone (hs : t.Sound) (h : t.tombstoneVersion p = some v) :
    t.peek? p = none := by
  obtain ⟨q, n, hq, hget, hvalid, -⟩ := exists_tombstone h
  refine hs.peek?_none_of_isAtOrBelow hq ?_
  rw [hs.peek?_eq, hget]
  simp [Option.filter, hvalid]

end CommittedTree

/-! ### What operations make -/

/-- **The nodes that the operation makes** in this view, if it is carried out: those that are
missing on the way to what it writes, and those that it moves, at the places where they go. -/
def Operation.makes (v : View) (o : Operation) : List Path :=
  match o with
  | moveNode source parent _ =>
      match planMove source parent with
      | .ok (.moveTo target) => (v.relocated source target).map (·.1)
      | _ => []
  | _ => (o.writePath?.map fun e => v.toMake e.1 e.2).getD []

theorem Operation.makes_of_writePath? {o : Operation} {create : Bool} (v : View)
    (h : o.writePath? = some (p, create)) : o.makes v = v.toMake p create := by
  cases o <;> simp_all [writePath?, makes]

theorem Operation.makes_of_readPath? {o : Operation} (v : View) (h : o.readPath? = some p) :
    o.makes v = [] := by
  cases o <;> simp_all [readPath?, writePath?, makes]

/-- There is an entry for a node that was made at the path. -/
def Workspace.hasMade (w : Workspace) (p : Path) : Bool := (w.get? p).any (·.created)

theorem Workspace.hasMade_iff :
    w.hasMade p = true ↔ ∃ e, w.get? p = some e ∧ e.created = true := by
  rw [hasMade, Option.any_eq_true]

/-- A step that only notes something makes nothing. -/
theorem Note.hasMade (h : Note b w w') (hq : w'.hasMade q = true) : w.hasMade q = true := by
  rw [Workspace.hasMade_iff] at hq ⊢
  obtain ⟨e, he, hc⟩ := hq
  cases h with
  | @copy p n _ =>
      rw [SortedMap.get?_insert] at he
      split at he
      · obtain rfl := Option.some.inj he
        simp [Base.copy, Entry.ofSnapshot] at hc
      · exact ⟨e, he, hc⟩
  | @mark p _ =>
      rw [SortedMap.get?_insert] at he
      split at he
      · obtain rfl := Option.some.inj he
        simp [Entry.absent] at hc
      · exact ⟨e, he, hc⟩
  | lock p =>
      rw [SortedMap.get?_modify] at he
      split at he
      · obtain ⟨f, hf, rfl⟩ := Option.map_eq_some_iff.1 he
        exact ⟨f, hf, hc⟩
      · exact ⟨e, he, hc⟩

/-- **What comes to be made is made by a step.** -/
theorem Stages.hasMade (h : Stages b w acts w') (hq : w'.hasMade q = true) :
    w.hasMade q = true ∨ Act.create q ∈ acts := by
  induction h with
  | refl => exact .inl hq
  | note _ hs ih => exact ih (hs.hasMade hq)
  | act _ hs ih =>
      obtain ⟨e, he, hc⟩ := Workspace.hasMade_iff.1 hq
      rw [List.mem_append, ← or_assoc]
      cases hs with
      | create name _ =>
          rw [SortedMap.get?_insert] at he
          split at he
          · rename_i hqp
            rw [hqp]
            exact .inr (List.mem_singleton_self _)
          · exact .inl (ih (Workspace.hasMade_iff.2 ⟨e, he, hc⟩))
      | write hl hed =>
          rw [SortedMap.get?_insert] at he
          split at he
          · rename_i hqp
            obtain rfl := Option.some.inj he
            rw [hed.created] at hc
            rw [hqp] at ih ⊢
            exact .inl (ih (Workspace.hasMade_iff.2 ⟨_, (View.locate_eq_staged.1 hl).2.1, hc⟩))
          · exact .inl (ih (Workspace.hasMade_iff.2 ⟨e, he, hc⟩))
      | remove _ _ =>
          obtain ⟨-, f, hf, ⟨-, rfl⟩ | ⟨-, rfl⟩⟩ := Workspace.of_get?_remove he
          · simp [Entry.markRemoved] at hc
          · exact .inl (ih (Workspace.hasMade_iff.2 ⟨_, hf, hc⟩))

/-- **An operation with a step that makes a node is carried out**, and is one that makes it. -/
theorem Taking.makes_of_create {o : Operation} {r : Work × Except TreeError Answer}
    (h : Taking b u o r acts) (hq : Act.create q ∈ acts) :
    q ∈ o.makes (b.view u.context) ∧ r.2.isOk = true ∧ u.Untroubled r.1 := by
  cases h with
  | idle _ => simp at hq
  | read _ _ => simp at hq
  | written ho ht _ _ =>
      rw [Operation.makes_of_writePath? _ ho]
      exact ⟨by simpa using hq, rfl, ht⟩
  | removed _ _ => simp at hq
  | emptied hsteps _ =>
      rcases hsteps with rfl | rfl
      · simp at hq
      · simp at hq
  | moved hplan ht _ _ =>
      simp only [Operation.makes, hplan]
      refine ⟨?_, rfl, ht⟩
      simp only [Context.movingActs, List.mem_append, List.mem_singleton, reduceCtorEq,
        or_false] at hq
      rcases hq with hq | hq
      · split at hq <;> simp at hq
      · obtain ⟨m, hm, hq⟩ := List.mem_flatMap.1 hq
        obtain rfl : q = m.1 := by simpa using hq
        exact List.mem_map_of_mem hm

/-- **What comes to be made is made by an operation that is carried out.** -/
theorem Work.makes_of_hasMade {o : Operation} (hb : b.tree.Sound) (hw : u.context.workspace.Tidy)
    (hq : u.context.workspace.hasMade q = false)
    (hq' : (b.perform u o).1.context.workspace.hasMade q = true) :
    q ∈ o.makes (b.view u.context) ∧ (b.perform u o).2.isOk = true ∧
      u.Untroubled (b.perform u o).1 := by
  obtain ⟨acts, htaking⟩ := Base.taking_perform hb hw o
  have hmade := htaking.staged.stages.hasMade hq'
  rw [hq] at hmade
  exact htaking.makes_of_create (hmade.resolve_left Bool.false_ne_true)

/-! ### What is checked -/

namespace Base

/-- An explicit version is newer than the newest removal on the way to the path. -/
def Supersedes (b : Base) (c : Context) (p : Path) : Prop :=
  ∀ v r, c.options.version = some v → b.tree.tombstoneVersion p = some r → r < v

/-- **The check of a path passes exactly if an explicit version supersedes the removals.** -/
theorem checkRevival_eq_ok : b.checkRevival c p = .ok () ↔ b.Supersedes c p := by
  simp only [checkRevival, Supersedes]
  split
  · rename_i v r hv hr
    simp only [hv, hr, Option.some.injEq, Version.newerThan, decide_eq_true_eq]
    by_cases hlt : r < v
    · simp [hlt]
    · simp [hlt]
  · rename_i hnot
    exact ⟨fun _ v r hv hr => absurd hr (hnot v r hv), fun _ => rfl⟩

/-- The check of several paths passes if that of each of them does. -/
theorem checkRevivals_eq_ok {ps : List Path} :
    b.checkRevivals c ps = .ok () ↔ ∀ p ∈ ps, b.Supersedes c p := by
  induction ps with
  | nil => simp [checkRevivals]
  | cons p ps ih =>
      rw [List.forall_mem_cons, ← ih, ← checkRevival_eq_ok, checkRevivals]
      cases b.checkRevival c p with
      | error e => simp
      | ok _ => simp

theorem Supersedes.of_options {c' : Context} (h : b.Supersedes c p)
    (ho : c.options = c'.options) : b.Supersedes c' p := by
  intro v r hv
  rw [← ho] at hv
  exact h v r hv

/-- A write is carried out only if an explicit version supersedes the removals before what it makes.
-/
theorem supersedes_of_writing {α : Type} {create : Bool} {idle : α}
    {change : Entry → Entry × α} (hroot : (b.view u.context).exists? Path.root = true)
    (hok : (b.writing u p create idle change).2.isOk = true)
    (ht : u.Untroubled (b.writing u p create idle change).1)
    (hq : q ∈ (b.view u.context).toMake p create) : b.Supersedes u.context q := by
  simp only [writing, prepareWrite] at hok ht
  obtain ⟨hrel, hcase⟩ :=
    Work.lockAll_cases u [] ((b.view u.context).writeLocks u.locks p create)
  generalize u.lockAll [] ((b.view u.context).writeLocks u.locks p create) = r
    at hrel hcase hok ht
  obtain ⟨u₁, grant⟩ := r
  rcases hcase with ⟨all, rfl, -⟩ | ⟨rfl | ⟨e, rfl⟩, hlt⟩
  · rw [← hrel.view b] at hroot hq
    cases hs : b.stageWrite u₁.context p create with
    | error e => simp [hs, Except.isOk, Except.toBool] at hok
    | ok r =>
        simp only [stageWrite, View.missingChain_eq hroot] at hs
        split at hs
        · simp at hs
        · rename_i hchecked
          exact (checkRevivals_eq_ok.1 hchecked q hq).of_options hrel.options
  · exact absurd ht (Nat.ne_of_gt hlt)
  · exact absurd ht (Nat.ne_of_gt hlt)

/-- A move is carried out only if an explicit version supersedes the removals before what it makes.
-/
theorem supersedes_of_moveNode {deep : Bool}
    (hok : (b.moveNode u source parent deep).2.isOk = true)
    (ht : u.Untroubled (b.moveNode u source parent deep).1)
    (hq : q ∈ (Operation.moveNode source parent deep).makes (b.view u.context)) :
    b.Supersedes u.context q := by
  simp only [Operation.makes] at hq
  split at hq
  · rename_i target hplan
    simp only [moveNode, hplan] at hok ht
    obtain ⟨hrel, hcase⟩ := lockMove_cases b u source parent target deep
    generalize b.lockMove u source parent target deep = r at hrel hcase hok ht
    obtain ⟨u₁, grant⟩ := r
    cases grant with
    | declined =>
        rcases hcase with ⟨_, hgrant, -⟩ | ⟨-, hlt⟩ | ⟨-, ⟨hgrant, -⟩ | ⟨hgrant, -⟩⟩
        · simp at hgrant
        · exact absurd ht (Nat.ne_of_gt hlt)
        · simp at hgrant
        · simp at hgrant
    | refused e => simp [Except.isOk, Except.toBool] at hok
    | granted taken =>
        rw [← hrel.view b] at hq
        cases hs : b.stageMove u₁.context source target with
        | error e => simp [hs, Except.isOk, Except.toBool] at hok
        | ok c =>
            simp only [stageMove] at hs
            split at hs
            · simp at hs
            · rename_i hchecked
              exact (checkRevivals_eq_ok.1 hchecked q hq).of_options hrel.options
  · simp at hq

/-- **An operation is carried out only if an explicit version supersedes the removals** before all
that it makes. -/
theorem supersedes_of_perform {o : Operation} (hb : b.tree.Sound)
    (hw : u.context.workspace.Tidy) (hok : (b.perform u o).2.isOk = true)
    (ht : u.Untroubled (b.perform u o).1) (hq : q ∈ o.makes (b.view u.context)) :
    b.Supersedes u.context q := by
  have hout := perform_outcome b u o
  generalize b.perform u o = r at hout hok ht
  cases hout with
  | reading ho _ _ _ =>
      rw [Operation.makes_of_readPath? _ ho] at hq
      simp at hq
  | writing ho _ _ _ _ _ _ _ =>
      rw [Operation.makes_of_writePath? _ ho] at hq
      exact supersedes_of_writing (hw.exists?_root hb) ((isOk_answering _ _).symm.trans hok) ht hq
  | removal p => simp [Operation.makes, Operation.writePath?] at hq
  | move source parent deep =>
      exact supersedes_of_moveNode ((isOk_answering _ _).symm.trans hok) ht hq

end Base

/-! ### What a commit puts in -/

section Merge

variable {t t' : CommittedTree} {o : Origin} {e : Entry} {es : List (Path × Entry)} {n : Node}

/-- Merging an entry puts a node where there was none only if the entry says that it was made. -/
theorem created_of_entryMerge (h : t.Sound) (hm : EntryMerge t v p e t')
    (hnone : t.peek? q = none) (hsome : t'.peek? q = some n) : q = p ∧ e.created = true := by
  have hupdate : ∀ {d : Data}, t.update p d v = .ok t' → q = p ∧ e.created = true := by
    intro d hu
    rw [h.peek?_update hu] at hsome
    split at hsome
    · rename_i hqp
      rw [← hqp, hnone] at hsome
      simp at hsome
    · rw [hnone] at hsome
      simp at hsome
  cases hm with
  | removal _ _ hrem =>
      rw [h.peek?_remove hrem, hnone] at hsome
      simp at hsome
  | unseen _ _ =>
      rw [hnone] at hsome
      simp at hsome
  | installation _ hc _ hi =>
      rw [h.peek?_install hi, hnone] at hsome
      split at hsome
      · rename_i hqp
        exact ⟨hqp, hc⟩
      · simp at hsome
  | joining _ _ _ _ _ hu => exact hupdate hu
  | keeping _ _ _ _ _ =>
      rw [hnone] at hsome
      simp at hsome
  | update _ _ _ hu => exact hupdate hu
  | nothing _ _ _ =>
      rw [hnone] at hsome
      simp at hsome

/-- **A merge, whole or partial, puts a node where there was none only if it was made.** -/
theorem created_of_mergeAll (h : t.Sound) (hnone : t.peek? q = none)
    (hsome : (mergeAll t v o es).tree.peek? q = some n) :
    ∃ e, (q, e) ∈ es ∧ e.created = true := by
  induction es generalizing t with
  | nil =>
      rw [mergeAll, hnone] at hsome
      simp at hsome
  | cons a es ih =>
      obtain ⟨p, e⟩ := a
      rcases mergeAll_cons t v o (p, e) es with ⟨t₁, events, hm, htree, -⟩ | ⟨-, htree, -⟩
      · rw [htree] at hsome
        cases hq : t₁.peek? q with
        | none =>
            obtain ⟨f, hf, hc⟩ := ih (merged_of_mergeEntry h hm).sound hq hsome
            exact ⟨f, List.mem_cons_of_mem _ hf, hc⟩
        | some m =>
            obtain ⟨rfl, hc⟩ := created_of_entryMerge h (entryMerge_of_ok hm) hnone hq
            exact ⟨e, List.mem_cons_self, hc⟩
      · rw [htree, hnone] at hsome
        simp at hsome

/-- **A commit puts a node where there was none only if the unit of work has made it.** -/
theorem Store.hasMade_of_commit {s : Store} (h : s.tree.Sound) (hnone : s.tree.peek? p = none)
    (hsome : (s.commit c).store.tree.peek? p = some n) : c.workspace.hasMade p = true := by
  rcases tree_commit s c with hsame | hmerge
  · rw [hsame, hnone] at hsome
    simp at hsome
  · obtain ⟨hslots, hnext⟩ := stamp_tree s c
    rw [hmerge, merge_eq] at hsome
    rw [← CommittedTree.peek?_of_slots hslots] at hnone
    obtain ⟨e, he, hc⟩ := created_of_mergeAll (h.of_slots hslots hnext) hnone hsome
    exact Workspace.hasMade_iff.2 ⟨e, (Workspace.mem_dirty.1 he).1, hc⟩

end Merge

/-! ### Runs -/

namespace SharedTree

variable {s s₀ : SharedTree} {name : String} {c : Context} {n : Node} {steps : List Step}

/-- The unit of work of this name has an entry for a node that it has made at the path. -/
def hasMade (s : SharedTree) (name : String) (p : Path) : Bool :=
  (s.context? name).any (·.workspace.hasMade p)

/-- **The operation makes the node at `p`**: it is carried out, and makes it in the view of the unit
of work. -/
def MakesAt (s : SharedTree) (name : String) (c : Context) (o : Operation) (p : Path) : Prop :=
  s.context? name = some c ∧ s.CarriesOut name c o ∧ p ∈ o.makes (s.store.base.view c)

theorem runShared_append (s : SharedTree) (steps steps' : List Step) :
    s.runShared (steps ++ steps') = (s.runShared steps).runShared steps' :=
  List.foldl_append

/-- What a unit of work comes to have made with a step is made by its operation. -/
theorem makesAt_of_hasMade {step : Step} (hs : s.Sane) (h : s.Booked)
    (hq : s.hasMade name p = false) (hq' : (s.takeShared step).hasMade name p = true) :
    ∃ o c, step = .perform name o ∧ s.MakesAt name c o p := by
  rw [← Bool.not_eq_true] at hq
  have hmade : ∀ {c : Context}, s.context? name = some c → c.workspace.hasMade p = true → False :=
    fun hc hc' => hq (by simp [hasMade, hc, hc'])
  rw [hasMade, Option.any_eq_true] at hq'
  obtain ⟨c', hc', hmade'⟩ := hq'
  cases leaving_takeShared h hc' with
  | kept hc hw _ =>
      rw [hw] at hmade'
      exact (hmade hc hmade').elim
  | @performed c o hc hstep =>
      have hbefore : c.workspace.hasMade p = false := Bool.eq_false_iff.2 (hmade hc)
      obtain ⟨hp, hok, ht⟩ := Work.makes_of_hasMade hs.sound (hs.tidy hc) hbefore hmade'
      exact ⟨o, c, hstep, hc, ⟨hok, ht⟩, hp⟩
  | fresh hw _ _ =>
      rw [hw] at hmade'
      simp [Workspace.hasMade] at hmade'

/-- **What a unit of work has made was made by one of its operations**, and it has had the entry
ever since. -/
theorem exists_making (hs : s₀.Sane) (h : s₀.Booked) (hfirst : s₀.hasMade name p = false)
    (hmade : (s₀.runShared steps).hasMade name p = true) :
    ∃ before o c after, steps = before ++ .perform name o :: after ∧
      (s₀.runShared before).MakesAt name c o p ∧
      ∀ k, (s₀.runShared (before ++ .perform name o :: after.take k)).hasMade name p = true := by
  obtain ⟨before, step, after, rfl, hno, hsince⟩ :=
    foldl_since (P := fun s : SharedTree => s.hasMade name p = true)
      (Bool.eq_false_iff.1 hfirst) hmade
  have hstep := hsince 0
  rw [List.take_zero, ← runShared, runShared_append] at hstep
  obtain ⟨o, c, rfl, hmakes⟩ := makesAt_of_hasMade (hs.runShared before) (h.runShared before)
    (Bool.eq_false_iff.2 hno) hstep
  exact ⟨before, o, c, after, rfl, hmakes, hsince⟩

/-- **A revival supersedes the removals before it, unless it is overtaken.**  Let a commit put a
node at `p` while the newest removal on the way there has the stamp `t`.  The node is newer than `t`
exactly if the version is that the options of the commit name, or the next one of the counter if
they name none.  The latter is newer unless the counter was at the last version at some time.  An
operation of the unit of work has made the node, and the unit of work has had the entry ever since.
If at such an operation the options named the same version as at the commit, and a removal no older
than `t` had been committed on the way by then, the node is newer.  Units of work may share owners,
and the commit may stop half way. -/
theorem revival_supersedes_unless_overtaken {config : Config} {hash : Path → UInt64} {t : Version}
    (hrun : (ofConfig config hash).runShared steps = s) (hc : s.context? name = some c)
    (hbefore : s.store.tree.tombstoneVersion p = some t)
    (hafter : (s.commit name c).1.store.tree.peek? p = some n) :
    (t < n.version ↔ (∀ v, c.options.version = some v → t < v) ∧
        (c.options.version = none → t < s.store.tree.version.next)) ∧
      (t < s.store.tree.version.next ∨ (ofConfig config hash).Exhausts steps) ∧
      (∃ before o c₀ after, steps = before ++ .perform name o :: after ∧
        ((ofConfig config hash).runShared before).MakesAt name c₀ o p ∧
        ∀ k, ((ofConfig config hash).runShared
          (before ++ .perform name o :: after.take k)).hasMade name p = true) ∧
      ∀ before o c₀ after, steps = before ++ .perform name o :: after →
        ((ofConfig config hash).runShared before).MakesAt name c₀ o p →
        ∀ v, c₀.options.version = some v → c.options.version = some v →
        ∀ r, ((ofConfig config hash).runShared before).store.tree.tombstoneVersion p = some r →
          t ≤ r → t < n.version := by
  have hsane : s.Sane := hrun ▸ (sane_ofConfig config hash).runShared steps
  have hnone := hsane.sound.peek?_eq_none_of_tombstone hbefore
  have hstamp : n.version = c.options.version.getD s.store.tree.version.next := by
    refine (Store.version_of_commit hsane.sound (hsane.tidy hc) hafter).resolve_left fun hsame => ?_
    rw [hnone] at hsame
    simp at hsame
  have hiff : t < n.version ↔ (∀ v, c.options.version = some v → t < v) ∧
      (c.options.version = none → t < s.store.tree.version.next) := by
    rw [hstamp]
    cases c.options.version with
    | none => simp
    | some v => simp
  refine ⟨hiff, ?_, ?_, ?_⟩
  · rw [or_iff_not_imp_right]
    intro hlast
    obtain ⟨q, m, -, hget, -, rfl⟩ := CommittedTree.exists_tombstone hbefore
    exact lt_next_of_not_exhausts hrun hlast hget
  · have hmade : s.hasMade name p = true := by
      simp [hasMade, hc, Store.hasMade_of_commit hsane.sound hnone hafter]
    rw [← hrun] at hmade
    exact exists_making (sane_ofConfig config hash) (booked_ofConfig config hash) rfl hmade
  · rintro before o c₀ after - ⟨hc₀, ⟨hok, ht⟩, hmakes⟩ v hv hcv r hr hle
    have hsane₀ := (sane_ofConfig config hash).runShared before
    have hnewer := Base.supersedes_of_perform hsane₀.sound (hsane₀.tidy hc₀) hok ht hmakes
    rw [hstamp, hcv]
    exact UInt64.lt_of_le_of_lt hle (hnewer v r hv hr)

/-- `/a/b` is removed, and one transaction makes it again under the version 5.  Before that is
committed, another one removes `/a` under the version 7, which stamps the tombstone of `/a/b` anew,
and makes `/a` once more. -/
def overtakenSteps : List Step :=
  [.start "s" ⟨"main", 0⟩ (some (1 : Nat)), .start "t" ⟨"main", 0⟩ (some (2 : Nat)),
    .perform "s" (.put ⟨["a", "b"]⟩ "k" (.int 1)), .commit "s",
    .perform "s" (.removeNode ⟨["a", "b"]⟩), .commit "s",
    .setOptions "t" { version := some 5 }, .perform "t" (.put ⟨["a", "b"]⟩ "k" (.int 2)),
    .setOptions "s" { version := some 7 }, .perform "s" (.removeNode ⟨["a"]⟩), .commit "s",
    .setOptions "s" { version := some 8 }, .perform "s" (.put ⟨["a"]⟩ "k" (.int 3)), .commit "s"]

/-- The state in which the first transaction is to be committed. -/
def overtakenState : SharedTree := (ofConfig {}).runShared overtakenSteps

/-- The first transaction in that state. -/
def overtakenContext : Context := (overtakenState.context? "t").getD default

/-- The node comes under the version 5 after a removal under the version 7. -/
theorem revival_overtaken :
    ∃ t n, overtakenState.store.tree.tombstoneVersion ⟨["a", "b"]⟩ = some t ∧
      (overtakenState.commit "t" overtakenContext).1.store.tree.peek? ⟨["a", "b"]⟩ = some n ∧
      ¬t < n.version := by
  have hc : overtakenState.context? "t" = some overtakenContext := by decide +kernel
  have ht : overtakenState.store.tree.tombstoneVersion ⟨["a", "b"]⟩ = some 7 := by
    decide +kernel
  obtain ⟨n, hn⟩ : ∃ n, (overtakenState.commit "t" overtakenContext).1.store.tree.peek?
      ⟨["a", "b"]⟩ = some n := ⟨_, Option.eq_some_of_isSome (by decide +kernel)⟩
  refine ⟨_, n, ht, hn, fun hlt => ?_⟩
  have hversion : overtakenContext.options.version = some 5 := by decide +kernel
  have hnewer := (revival_supersedes_unless_overtaken (Eq.refl overtakenState) hc ht hn).1.1 hlt
  exact absurd (hnewer.1 _ hversion) (by decide)

/-- **A revival need not supersede the removals before it.** -/
theorem not_revival_supersedes :
    ¬∀ (config : Config) (steps : List Step) (name : String) (c : Context) (p : Path)
      (t : Version) (n : Node),
      ((ofConfig config).runShared steps).context? name = some c →
      (((ofConfig config).runShared steps).commit name c).2 = .ok () →
      ((ofConfig config).runShared steps).store.tree.tombstoneVersion p = some t →
      (((ofConfig config).runShared steps).commit name c).1.store.tree.peek? p = some n →
      t < n.version := by
  intro h
  have hlt := h {} overtakenSteps "t" overtakenContext ⟨["a", "b"]⟩ 7 _ (by decide +kernel)
    (by decide +kernel) (by decide +kernel) (Option.eq_some_of_isSome (by decide +kernel))
  revert hlt
  decide +kernel

end SharedTree

end TransactionalTree
