/-
**What operations do to a unit of work.**

An operation either gets its locks, and then stages its steps, or a time-out is counted, and then
nothing but locks has changed.  For each kind of operation there is one list of the ways in which it
can go, with what is answered in each of them.

Main definitions:

* `Work.Staged` — a unit of work with the locks, before and after an operation;
* `Reading`, `Writing`, `Removing`, `Moving` — **the ways in which an operation can go**;
* `Taking` — the steps that an operation takes;
* `Operation.avoids` — an operation that does not touch a place.

Main results:

* `Base.reading_outcome`, `Base.writing_outcome`, `Base.removeBelowRoot_outcome`,
  `Base.moveNode_outcome` — there are no other ways;
* `Base.taking_perform` — what steps any operation takes;
* `Base.staged_perform` — every operation is a sequence of steps of the workspace.
-/

import TransactionalTree.Operation.Basic
import TransactionalTree.Proofs.Locking
import TransactionalTree.Proofs.Staging

set_option relaxedAutoImplicit false
set_option autoImplicit false

namespace TransactionalTree

variable {b : Base} {w w' w'' : Work} {acts acts' : List Act} {p q source parent : Path}

/-! ### Steps of a unit of work with the locks -/

namespace Work

/-- The unit of work has taken these steps, and taken or released locks. -/
structure Staged (b : Base) (w : Work) (acts : List Act) (w' : Work) : Prop where
  /-- The steps of the workspace. -/
  stages : Stages b w.context.workspace acts w'.context.workspace
  /-- All else of the unit of work is as before, but for its locks and its record of moves. -/
  same : w'.context =
    { w.context with
      locked := w'.context.locked
      workspace := w'.context.workspace
      moves := w'.context.moves }
  /-- The settings are the same. -/
  lockParent : w'.locks.lockParent = w.locks.lockParent
  /-- Time-outs are counted and never taken back. -/
  timedOut : w.locks.counts.timedOut ≤ w'.locks.counts.timedOut

/-- No time-out was counted. -/
def Untroubled (w w' : Work) : Prop := w'.locks.counts.timedOut = w.locks.counts.timedOut

namespace Staged

theorem refl (w : Work) : Staged b w [] w := ⟨.refl, rfl, rfl, Nat.le_refl _⟩

theorem trans (h : Staged b w acts w') (h' : Staged b w' acts' w'') :
    Staged b w (acts ++ acts') w'' where
  stages := h.stages.trans h'.stages
  same := by
    rw [h'.same, h.same]
  lockParent := h'.lockParent.trans h.lockParent
  timedOut := Nat.le_trans h.timedOut h'.timedOut

theorem of_relocked (h : w.Relocked w') : Staged b w [] w' where
  stages := by
    rw [h.workspace]
    exact .refl
  same := by
    rw [h.context]
  lockParent := h.lockParent
  timedOut := h.timedOut

theorem withContext {c : Context} (h : Context.Staged b w.context acts c) :
    Staged b w acts (w.withContext c) where
  stages := h.stages
  same := by
    rw [Work.withContext, h.same]
  lockParent := rfl
  timedOut := Nat.le_refl _

theorem options (h : Staged b w acts w') : w'.context.options = w.context.options := by
  rw [h.same]

theorem owner (h : Staged b w acts w') : w'.context.owner = w.context.owner := by
  rw [h.same]
  rfl

theorem tidy (h : Staged b w acts w') (hb : b.tree.Sound) (hw : w.context.workspace.Tidy) :
    w'.context.workspace.Tidy :=
  hw.stages hb h.stages

end Staged

end Work

/-! ### Reading -/

/-- The ways in which a read can go. -/
inductive Reading (b : Base) (w : Work) (p : Path) : Work × Except TreeError Location → Prop
  /-- A lock was not free: the node is not there, or the read fails. -/
  | timedOut {w' : Work} {r : Except TreeError Location} (h : w.Relocked w')
      (ht : w.locks.counts.timedOut < w'.locks.counts.timedOut)
      (hr : r = .ok .hidden ∨ ∃ e, r = .error e) : Reading b w p (w', r)
  /-- The read says where the path leads, and has changed no data. -/
  | found {w' : Work} (h : Work.Staged b w [] w') (ht : w.Untroubled w')
      (hd : (b.view w'.context).data? p = (b.view w.context).data? p) :
      Reading b w p (w', .ok ((b.view w'.context).locate p))

namespace Base

/-- Looking says where the path leads afterwards, and changes no data. -/
theorem look_found (b : Base) (w : Work) (p : Path) :
    Work.Staged b w [] (b.look w p).1 ∧ w.Untroubled (b.look w p).1 ∧
      (b.look w p).2 = (b.view (b.look w p).1.context).locate p ∧
      (b.view (b.look w p).1.context).data? p = (b.view w.context).data? p := by
  simp only [look]
  by_cases hr : b.isRepeatable = true
  · rw [if_pos hr]
    cases hl : (b.view w.context).locate p with
    | staged e => exact ⟨.refl w, rfl, hl.symm, rfl⟩
    | hidden => exact ⟨.refl w, rfl, hl.symm, rfl⟩
    | committed n =>
        have hself : (b.view (w.context.setEntry p (b.copy p n))).locate p =
            .staged (b.copy p n) :=
          View.locate_insert_present (View.locate_eq_committed.1 hl).1 rfl
        refine ⟨.withContext (.setEntry (.of_note (.copy hl))), rfl, hself.symm, ?_⟩
        exact (congrArg View.dataAt hself).trans (congrArg View.dataAt hl).symm
    | missing =>
        have hself : (b.view (w.context.setEntry p .absent)).locate p = .hidden :=
          View.locate_insert_self (View.locate_eq_missing.1 hl).1
        refine ⟨.withContext (.setEntry (.of_note (.mark hl))), rfl, hself.symm, ?_⟩
        exact (congrArg View.dataAt hself).trans (congrArg View.dataAt hl).symm
  · rw [if_neg hr]
    exact ⟨.refl w, rfl, rfl, rfl⟩

/-- **How a read goes.** -/
theorem reading_outcome (b : Base) (w : Work) (p : Path) : Reading b w p (b.prepareRead w p) := by
  simp only [prepareRead]
  by_cases hforce : w.context.options.forceWriteLock = true
  · rw [if_pos hforce]
    obtain ⟨hrel, hcase⟩ := Work.lockAll_cases w [] [p]
    generalize w.lockAll [] [p] = r at hrel hcase
    obtain ⟨w₁, grant⟩ := r
    rcases hcase with ⟨all, rfl, ht⟩ | ⟨rfl | ⟨e, rfl⟩, ht⟩
    -- the copy is taken before the look, which then finds it
    · have hm : Context.Staged b w₁.context [] (b.materialize w₁.context p).1 ∧
          (b.view (b.materialize w₁.context p).1).data? p = (b.view w₁.context).data? p := by
        rcases Context.materialize_cases b w₁.context p with ⟨-, -, hst, e, he, hd⟩ | ⟨-, hm⟩
        · refine ⟨hst, ?_⟩
          rw [hd, View.data?, he]
          rfl
        · rw [hm]
          exact ⟨.refl _, rfl⟩
      obtain ⟨hst, ht', hl, hd⟩ := look_found b (w₁.withContext (b.materialize w₁.context p).1) p
      simp only
      rw [hl]
      refine .found (((Work.Staged.of_relocked hrel).trans (.withContext hm.1)).trans hst)
        (ht'.trans ht) ?_
      rw [hd]
      refine hm.2.trans ?_
      rw [hrel.view]
    · exact .timedOut hrel ht (.inl rfl)
    · exact .timedOut hrel ht (.inr ⟨e, rfl⟩)
  · rw [if_neg hforce]
    obtain ⟨hst, ht, hl, hd⟩ := look_found b w p
    rw [hl]
    exact .found hst ht hd

/-- A read takes no step that changes anything. -/
theorem staged_reading {α : Type} (b : Base) (w : Work) (p : Path) (answer : View → Location → α) :
    Work.Staged b w [] (b.reading w p answer).1 := by
  have h := reading_outcome b w p
  simp only [reading]
  generalize b.prepareRead w p = r at h
  cases h with
  | timedOut hrel _ hr =>
      rcases hr with rfl | ⟨e, rfl⟩
      · exact .of_relocked hrel
      · exact .of_relocked hrel
  | found hst _ _ => exact hst

end Base

/-! ### Writing -/

/-- A write locks the nodes that it makes, and the node that it is for. -/
theorem View.mem_writeLocks_of_mem {v : View} {m : LockManager} {create : Bool}
    (hroot : v.exists? Path.root = true) (h : q ∈ v.toMake p create ++ [p]) :
    q ∈ v.writeLocks m p create := by
  have hlast : v.toMake p create ≠ [] → p ∈ v.toMake p create := mem_toMake_of_ne_nil
  have hchain : (if create then v.missingChain p else []) = v.toMake p create := by
    rw [missingChain_eq hroot]
    rfl
  rw [writeLocks, hchain]
  cases hmade : v.toMake p create with
  | nil =>
      rw [hmade] at h
      exact h
  | cons top rest =>
      rw [hmade] at h hlast
      refine List.mem_append_right _ ?_
      rcases List.mem_append.1 h with h | h
      · exact h
      · rw [List.mem_singleton.1 h]
        exact hlast (by simp)

/-- The ways in which a write can go, with or without leave to make nodes. -/
inductive Writing {α : Type} (b : Base) (w : Work) (p : Path) (create : Bool) (idle : α)
    (change : Entry → Entry × α) : Work × Except TreeError α → Prop
  /-- A lock was not free: nothing is done, or the write fails. -/
  | timedOut {w' : Work} {r : Except TreeError α} (h : w.Relocked w')
      (ht : w.locks.counts.timedOut < w'.locks.counts.timedOut)
      (hr : r = .ok idle ∨ ∃ e, r = .error e) : Writing b w p create idle change (w', r)
  /-- The explicit version is not accepted. -/
  | outdated {w' : Work} {e : TreeError} (h : w.Relocked w')
      (hv : w.context.options.version.isSome = true) :
      Writing b w p create idle change (w', .error e)
  /-- There is no node, and none is to be made. -/
  | absent {w' : Work} (h : w.Relocked w') (ht : w.Untroubled w') (hc : create = false)
      (hex : (b.view w.context).exists? p = false) :
      Writing b w p create idle change (w', .ok idle)
  /-- Missing nodes are made, and the data are written. -/
  | written {w' : Work} {e : Entry} (ht : w.Untroubled w') (hp : e.isPresent = true)
      (hentry : w'.context.entry? p = some (change e).1)
      (hst : Work.Staged b w (((b.view w.context).toMake p create).map .create ++
        [.write p (change e).1.data]) w')
      (he : if (b.view w.context).toMake p create = [] then
          (b.view w.context).data? p = some e.data
        else e.data = .empty) : Writing b w p create idle change (w', .ok (change e).2)

namespace Base

/-- Only an explicit version can be refused. -/
theorem checkRevivals_error {c : Context} {ps : List Path} {e : TreeError}
    (h : b.checkRevivals c ps = .error e) : c.options.version.isSome = true := by
  induction ps with
  | nil => simp [checkRevivals] at h
  | cons p ps ih =>
      simp only [checkRevivals] at h
      split at h
      · rename_i he
        simp only [checkRevival] at he
        split at he
        · rename_i hv _
          rw [hv]
          rfl
        · simp at he
      · exact ih h

/-- **How a write goes.** -/
theorem writing_outcome {α : Type} (p : Path) (create : Bool) (idle : α)
    (change : Entry → Entry × α) (hroot : (b.view w.context).exists? Path.root = true)
    (hed : ∀ e : Entry, e.Edited (change e).1) :
    Writing b w p create idle change (b.writing w p create idle change) := by
  simp only [writing, prepareWrite]
  obtain ⟨hrel, hcase⟩ :=
    Work.lockAll_cases w [] ((b.view w.context).writeLocks w.locks p create)
  generalize w.lockAll [] ((b.view w.context).writeLocks w.locks p create) = r at hrel hcase
  obtain ⟨w₁, grant⟩ := r
  rcases hcase with ⟨all, rfl, ht⟩ | ⟨rfl | ⟨e, rfl⟩, ht⟩
  · simp only
    have hview := hrel.view b
    cases hs : b.stageWrite w₁.context p create with
    | error e =>
        refine .outdated (hrel.trans (Work.relocked_releasePartial _ _)) ?_
        rw [← hrel.options]
        simp only [stageWrite] at hs
        split at hs
        · rename_i hv
          exact checkRevivals_error hv
        · simp at hs
    | ok r =>
        obtain ⟨c, ready⟩ := r
        obtain ⟨hst, hcase⟩ := Context.staged_stageWrite (by rw [hview]; exact hroot) hs
        rw [hview] at hst hcase
        rcases hcase with ⟨rfl, rfl, hex, rfl⟩ | ⟨rfl, e, he, hd⟩
        · exact .absent hrel ht rfl hex
        · obtain ⟨-, hget, hp⟩ := View.locate_eq_staged.1 he
          have hget : c.entry? p = some e := hget
          have hset : Context.Staged b c [.write p (change e).1.data]
              (c.setEntry p (change e).1) :=
            .setEntry (.of_stage (.write he (hed e)))
          simp only [Work.withContext, hget]
          refine .written ht hp SortedMap.get?_insert_self ?_ hd
          exact (Work.Staged.of_relocked hrel).trans (.withContext (hst.trans hset))
  · exact .timedOut hrel ht (.inl rfl)
  · exact .timedOut hrel ht (.inr ⟨e, rfl⟩)

end Base

/-! ### Removing -/

/-- The ways in which a removal can go. -/
inductive Removing (b : Base) (w : Work) (p : Path) : Work × Except TreeError Bool → Prop
  /-- A lock was not free: nothing is done, or the removal fails. -/
  | timedOut {w' : Work} {r : Except TreeError Bool} (h : w.Relocked w')
      (ht : w.locks.counts.timedOut < w'.locks.counts.timedOut)
      (hr : r = .ok false ∨ ∃ e, r = .error e) : Removing b w p (w', r)
  /-- There is no node. -/
  | absent {w' : Work} (h : w.Relocked w') (ht : w.Untroubled w')
      (hex : (b.view w.context).exists? p = false) : Removing b w p (w', .ok false)
  /-- The node is removed. -/
  | removed {w' : Work} (ht : w.Untroubled w') (hex : (b.view w.context).exists? p = true)
      (hst : Work.Staged b w [.remove p] w') : Removing b w p (w', .ok true)

/-- The nodes directly below the root. -/
def View.topLevel (v : View) : List Path :=
  ((v.childNames .root).getD .empty).keys.map Path.root.push

theorem View.mem_topLevel {v : View} (h : p ∈ v.topLevel) : ∃ name, p = Path.root.push name := by
  obtain ⟨name, -, rfl⟩ := List.mem_map.1 h
  exact ⟨name, rfl⟩

theorem View.ne_root_of_mem_topLevel {v : View} (h : p ∈ v.topLevel) : p ≠ Path.root := by
  obtain ⟨name, rfl⟩ := mem_topLevel h
  exact Path.push_ne_root

/-- The ways in which the removal of all that is below the root can go. -/
inductive Emptying (b : Base) (w : Work) : Work × Except TreeError Bool → Prop
  /-- The removal of a child of the root fails. -/
  | stopped {w' : Work} {e : TreeError}
      (h : b.removeEach w (b.view w.context).topLevel = (w', .error e)) :
      Emptying b w (w', .error e)
  /-- All its children are removed, and its data are cleared. -/
  | emptied {w' : Work} (h : b.removeEach w (b.view w.context).topLevel = (w', .ok ())) :
      Emptying b w ((b.clearData w' .root).1, (b.clearData w' .root).2.map fun _ => true)

namespace Base

theorem removeRoot_of_error {e : TreeError}
    (h : b.removeEach w (b.view w.context).topLevel = (w', .error e)) :
    b.removeRoot w = (w', .error e) := by
  rw [View.topLevel] at h
  simp only [removeRoot, h]

theorem removeRoot_of_ok (h : b.removeEach w (b.view w.context).topLevel = (w', .ok ())) :
    b.removeRoot w = ((b.clearData w' .root).1, (b.clearData w' .root).2.map fun _ => true) := by
  rw [View.topLevel] at h
  simp only [removeRoot, h]
  generalize b.clearData w' .root = r
  obtain ⟨w'', r⟩ := r
  cases r <;> rfl

/-- There are no other ways. -/
theorem removeRoot_cases (b : Base) (w : Work) : Emptying b w (b.removeRoot w) := by
  cases h : b.removeEach w (b.view w.context).topLevel with
  | mk w' r =>
      cases r with
      | error e =>
          rw [removeRoot_of_error h]
          exact .stopped h
      | ok _ =>
          rw [removeRoot_of_ok h]
          exact .emptied h

/-- **How a removal goes.** -/
theorem removeBelowRoot_outcome (hp : p ≠ Path.root) :
    Removing b w p (b.removeBelowRoot w p) := by
  simp only [removeBelowRoot]
  obtain ⟨hrel, hcase⟩ := Work.lockAll_cases w [] ((b.view w.context).removalLocks w.locks p)
  generalize w.lockAll [] ((b.view w.context).removalLocks w.locks p) = r at hrel hcase
  obtain ⟨w₁, grant⟩ := r
  rcases hcase with ⟨all, rfl, ht⟩ | ⟨rfl | ⟨e, rfl⟩, ht⟩
  · have hview := hrel.view b
    simp only
    rcases Context.stageRemoval_cases (b := b) w₁.context hp with ⟨hex, hfound, hst⟩ | ⟨hex, hm⟩
    · rw [hview] at hex
      rw [hfound]
      exact .removed ht hex ((Work.Staged.of_relocked hrel).trans (.withContext hst))
    · rw [hview] at hex
      rw [hm]
      exact .absent hrel ht hex
  · exact .timedOut hrel ht (.inl rfl)
  · exact .timedOut hrel ht (.inr ⟨e, rfl⟩)

/-- Nothing comes to be unless it is made, and what is removed is gone. -/
theorem exists?_of_no_create {u u' : Workspace} (h : Stages b u acts u')
    (ha : ∀ r, Act.create r ∉ acts) (hq : (View.mk b u').exists? q = true) :
    (View.mk b u).exists? q = true ∧ ∀ r, Act.remove r ∈ acts → ¬q.isAtOrBelow r = true := by
  induction h with
  | refl => exact ⟨hq, fun r hr => by simp at hr⟩
  | @note acts u' u'' _ hs ih =>
      refine ih ha ?_
      rw [View.exists?_iff_data?] at hq ⊢
      rcases View.data?_note hs q with h | ⟨h, -⟩
      · rwa [← h]
      · rw [h] at hq
        simp at hq
  | @act acts a u' u'' _ hs ih =>
      have hbefore := ih fun r hr => ha r (List.mem_append_left _ hr)
      cases hs with
      | create name hl => exact absurd (List.mem_append_right _ (List.mem_singleton_self _)) (ha _)
      | write hl he =>
          rw [View.exists?_iff_data?, View.data?_write hl he] at hq
          have hex : (View.mk b u').exists? q = true := by
            split at hq
            · rename_i hqp
              rw [hqp]
              exact View.exists?_iff.2 (.inl ⟨_, hl⟩)
            · exact View.exists?_iff_data?.2 hq
          obtain ⟨hex', hall⟩ := hbefore hex
          refine ⟨hex', fun x hx => hall x ?_⟩
          simpa using hx
      | remove hr hl =>
          rw [View.exists?_iff_data?, View.data?_remove hl] at hq
          split at hq
          · simp at hq
          · rename_i hqr
            obtain ⟨hex, hall⟩ := hbefore (View.exists?_iff_data?.2 hq)
            refine ⟨hex, fun x hx => ?_⟩
            rcases List.mem_append.1 hx with hx | hx
            · exact hall x hx
            · obtain rfl := by simpa using hx
              exact hqr

theorem no_create_of_map_remove {qs : List Path} (r : Path) : Act.create r ∉ qs.map .remove := by
  simp

/-- **How the removal of several nodes goes**: some are removed, and if no lock was refused none is
left. -/
theorem removeEach_outcome (ps : List Path) (hps : ∀ p ∈ ps, p ≠ Path.root) :
    ∃ (qs : List Path) (w' : Work) (r : Except TreeError Unit),
      b.removeEach w ps = (w', r) ∧ (∀ q ∈ qs, q ∈ ps) ∧
      Work.Staged b w (qs.map .remove) w' ∧
      (w.locks.counts.timedOut < w'.locks.counts.timedOut ∨
        (r = .ok () ∧ w.Untroubled w' ∧ ∀ p ∈ ps, (b.view w'.context).exists? p = false)) := by
  induction ps generalizing w with
  | nil => exact ⟨[], w, .ok (), rfl, fun _ h => h, .refl w, .inr ⟨rfl, rfl, by simp⟩⟩
  | cons p ps ih =>
      have hfirst := removeBelowRoot_outcome (b := b) (w := w) (hps p List.mem_cons_self)
      simp only [removeEach]
      generalize b.removeBelowRoot w p = r at hfirst
      -- the first removal has not failed: the others follow
      have hrest : ∀ {w₁ : Work} (qs₁ : List Path), (∀ q ∈ qs₁, q = p) →
          Work.Staged b w (qs₁.map .remove) w₁ →
          (w.locks.counts.timedOut < w₁.locks.counts.timedOut ∨
            (w.Untroubled w₁ ∧ (b.view w₁.context).exists? p = false)) →
          ∃ (qs : List Path) (w' : Work) (r : Except TreeError Unit),
            b.removeEach w₁ ps = (w', r) ∧ (∀ q ∈ qs, q ∈ p :: ps) ∧
            Work.Staged b w (qs.map .remove) w' ∧
            (w.locks.counts.timedOut < w'.locks.counts.timedOut ∨
              (r = .ok () ∧ w.Untroubled w' ∧
                ∀ q ∈ p :: ps, (b.view w'.context).exists? q = false)) := by
        intro w₁ qs₁ hqs₁ hst₁ hcase₁
        obtain ⟨qs, w', r, hr, hqs, hst, hcase⟩ :=
          ih (w := w₁) fun q hq => hps q (List.mem_cons_of_mem _ hq)
        refine ⟨qs₁ ++ qs, w', r, hr, ?_, ?_, ?_⟩
        · intro q hq
          rcases List.mem_append.1 hq with hq | hq
          · rw [hqs₁ q hq]
            exact List.mem_cons_self
          · exact List.mem_cons_of_mem _ (hqs q hq)
        · rw [List.map_append]
          exact hst₁.trans hst
        · rcases hcase₁ with hlt | ⟨ht₁, hex₁⟩
          · exact .inl (Nat.lt_of_lt_of_le hlt hst.timedOut)
          · rcases hcase with hlt | ⟨hok, ht, hex⟩
            · exact .inl (by rw [← ht₁]; exact hlt)
            · refine .inr ⟨hok, ht.trans ht₁, fun q hq => ?_⟩
              rcases List.mem_cons.1 hq with rfl | hq
              · rw [← Bool.not_eq_true] at hex₁ ⊢
                exact fun h => hex₁ (exists?_of_no_create hst.stages no_create_of_map_remove h).1
              · exact hex q hq
      cases hfirst with
      | timedOut hrel ht hr =>
          rcases hr with rfl | ⟨e, rfl⟩
          · exact hrest [] (by simp) (.of_relocked hrel) (.inl ht)
          · exact ⟨[], _, _, rfl, by simp, .of_relocked hrel, .inl ht⟩
      | absent hrel ht hex =>
          refine hrest [] (by simp) (.of_relocked hrel) (.inr ⟨ht, ?_⟩)
          rw [hrel.view]
          exact hex
      | @removed w₁ ht hex hst =>
          refine hrest [p] (by simp) hst (.inr ⟨ht, ?_⟩)
          rw [← Bool.not_eq_true]
          intro h
          exact (exists?_of_no_create hst.stages (by simp) h).2 p (List.mem_singleton_self _)
            (Path.isAtOrBelow_self p)

/-- **How the removal of the root goes**: if no lock is refused, all its children are removed and
its data are cleared. -/
theorem removeRoot_outcome (hb : b.tree.Sound) (hw : w.context.workspace.Tidy) :
    ∃ (qs : List Path) (acts : List Act) (w' : Work) (r : Except TreeError Bool),
      b.removeRoot w = (w', r) ∧
      (acts = qs.map .remove ∨ acts = qs.map .remove ++ [.write Path.root .empty]) ∧
      (∀ q ∈ qs, ∃ name, q = Path.root.push name) ∧ Work.Staged b w acts w' ∧
      (w.locks.counts.timedOut < w'.locks.counts.timedOut ∨
        w.context.options.version.isSome = true ∨
        (r = .ok true ∧ w.Untroubled w' ∧ acts = qs.map .remove ++ [.write Path.root .empty] ∧
          ∀ names name, (b.view w.context).childNames Path.root = some names →
            names.has name = true →
            (b.view w'.context).exists? (Path.root.push name) = false)) := by
  obtain ⟨qs, w₁, r₁, hr₁, hqs, hst₁, hcase₁⟩ := removeEach_outcome (b := b) (w := w)
    (b.view w.context).topLevel fun _ => View.ne_root_of_mem_topLevel
  have hqs' := fun q hq => View.mem_topLevel (hqs q hq)
  cases r₁ with
  | error e =>
      rw [removeRoot_of_error hr₁]
      refine ⟨qs, _, w₁, .error e, rfl, .inl rfl, hqs', hst₁, .inl ?_⟩
      rcases hcase₁ with hlt | ⟨hok, -⟩
      · exact hlt
      · simp at hok
  | ok _ =>
      rw [removeRoot_of_ok hr₁]
      -- clearing the root is a write that makes no node, and it finds the root
      have hclear := writing_outcome (b := b) (w := w₁) Path.root false ()
        (fun e => (e.clearData, ())) ((hst₁.tidy hb hw).exists?_root hb) fun e => e.edited_clearData
      simp only [clearData]
      generalize b.writing w₁ Path.root false () (fun e => (e.clearData, ())) = r₂ at hclear
      cases hclear with
      | @timedOut w₂ _ hrel ht hr =>
          have hall : Work.Staged b w (qs.map .remove) w₂ := by
            simpa using hst₁.trans (.of_relocked hrel)
          have hlt := Nat.lt_of_le_of_lt hst₁.timedOut ht
          rcases hr with rfl | ⟨e, rfl⟩
          · exact ⟨qs, _, _, _, rfl, .inl rfl, hqs', hall, .inl hlt⟩
          · exact ⟨qs, _, _, _, rfl, .inl rfl, hqs', hall, .inl hlt⟩
      | outdated hrel hv =>
          refine ⟨qs, _, _, _, rfl, .inl rfl, hqs', ?_, .inr (.inl ?_)⟩
          · simpa using hst₁.trans (.of_relocked hrel)
          · rw [← hst₁.options]
            exact hv
      | absent hrel ht hc hex =>
          have hroot := (hst₁.tidy hb hw).exists?_root hb
          rw [Base.view, hroot] at hex
          simp at hex
      | @written w₂ e ht _ _ hst₂ he =>
          have hall : Work.Staged b w (qs.map .remove ++ [.write Path.root .empty]) w₂ :=
            hst₁.trans hst₂
          refine ⟨qs, _, w₂, _, rfl, .inr rfl, hqs', hall, ?_⟩
          rcases hcase₁ with hlt | ⟨-, ht₁, hex⟩
          · exact .inl (by rw [ht]; exact hlt)
          · refine .inr (.inr ⟨rfl, ht.trans ht₁, rfl, fun names name hnames hname => ?_⟩)
            have hgone := hex (Path.root.push name) (List.mem_map.2 ⟨name, ?_, rfl⟩)
            · rw [← Bool.not_eq_true] at hgone ⊢
              refine fun h => hgone (exists?_of_no_create hst₂.stages ?_ h).1
              intro r
              simp [View.toMake]
            · rw [hnames]
              exact SortedSet.mem_keys.2 hname

end Base

/-! ### Moving -/

/-- The ways in which a move can go that makes sense. -/
inductive Moving (b : Base) (w : Work) (source parent target : Path) :
    Work × Except TreeError (Option Path) → Prop
  /-- A lock was not free: nothing is done, or the move fails. -/
  | timedOut {w' : Work} {r : Except TreeError (Option Path)} (h : w.Relocked w')
      (ht : w.locks.counts.timedOut < w'.locks.counts.timedOut)
      (hr : r = .ok none ∨ ∃ e, r = .error e) : Moving b w source parent target (w', r)
  /-- There is no node to move. -/
  | sourceMissing {w' : Work} (h : w.Relocked w') (ht : w.Untroubled w')
      (hs : (b.view w.context).exists? source = false) :
      Moving b w source parent target (w', .error (.nodeMissing source))
  /-- There is no new parent. -/
  | parentMissing {w' : Work} (h : w.Relocked w') (ht : w.Untroubled w')
      (hs : (b.view w.context).exists? source = true)
      (hp : (b.view w.context).exists? parent = false) :
      Moving b w source parent target (w', .error (.nodeMissing parent))
  /-- The explicit version is not accepted. -/
  | outdated {w' : Work} {e : TreeError} (h : w.Relocked w')
      (hv : w.context.options.version.isSome = true) :
      Moving b w source parent target (w', .error e)
  /-- The subtree is moved. -/
  | moved {w' : Work} (ht : w.Untroubled w') (hs : (b.view w.context).exists? source = true)
      (hp : (b.view w.context).exists? parent = true)
      (hst : Work.Staged b w (Context.movingActs (b.view w.context) source target) w') :
      Moving b w source parent target (w', .ok (some target))

namespace Base

/-- Locking and looking for a node: it is there, a time-out is counted, or there is no node. -/
theorem lockAndFind_cases (b : Base) (w : Work) (taken ps : List Path) (p : Path) :
    w.Relocked (b.lockAndFind w taken ps p).1 ∧
    ((∃ all, (b.lockAndFind w taken ps p).2 = .granted all ∧
        w.Untroubled (b.lockAndFind w taken ps p).1 ∧ (b.view w.context).exists? p = true) ∨
      (((b.lockAndFind w taken ps p).2 = .declined ∨
          ∃ e, (b.lockAndFind w taken ps p).2 = .refused e) ∧
        w.locks.counts.timedOut < (b.lockAndFind w taken ps p).1.locks.counts.timedOut) ∨
      ((b.lockAndFind w taken ps p).2 = .refused (.nodeMissing p) ∧
        w.Untroubled (b.lockAndFind w taken ps p).1 ∧ (b.view w.context).exists? p = false)) := by
  simp only [lockAndFind]
  obtain ⟨hrel, hcase⟩ := Work.lockAll_cases w taken ps
  generalize w.lockAll taken ps = r at hrel hcase
  obtain ⟨w₁, grant⟩ := r
  rcases hcase with ⟨all, rfl, ht⟩ | ⟨rfl | ⟨e, rfl⟩, ht⟩
  · simp only [hrel.view b]
    by_cases hex : (b.view w.context).exists? p = true
    · rw [if_pos hex]
      exact ⟨hrel, .inl ⟨all, rfl, ht, hex⟩⟩
    · rw [if_neg hex]
      refine ⟨hrel.trans (Work.relocked_releasePartial _ _),
        .inr (.inr ⟨rfl, ?_, by simpa using hex⟩)⟩
      exact (Work.timedOut_releasePartial _ _).trans ht
  · exact ⟨hrel, .inr (.inl ⟨.inl rfl, ht⟩)⟩
  · exact ⟨hrel, .inr (.inl ⟨.inr ⟨e, rfl⟩, ht⟩)⟩

/-- Taking the locks of a move: source and new parent are there, or it is known what is wrong. -/
theorem lockMove_cases (b : Base) (w : Work) (source parent target : Path) (deep : Bool) :
    w.Relocked (b.lockMove w source parent target deep).1 ∧
    ((∃ all, (b.lockMove w source parent target deep).2 = .granted all ∧
        w.Untroubled (b.lockMove w source parent target deep).1 ∧
        (b.view w.context).exists? source = true ∧ (b.view w.context).exists? parent = true) ∨
      (((b.lockMove w source parent target deep).2 = .declined ∨
          ∃ e, (b.lockMove w source parent target deep).2 = .refused e) ∧
        w.locks.counts.timedOut <
          (b.lockMove w source parent target deep).1.locks.counts.timedOut) ∨
      (w.Untroubled (b.lockMove w source parent target deep).1 ∧
        (((b.lockMove w source parent target deep).2 = .refused (.nodeMissing source) ∧
            (b.view w.context).exists? source = false) ∨
          ((b.lockMove w source parent target deep).2 = .refused (.nodeMissing parent) ∧
            (b.view w.context).exists? source = true ∧
            (b.view w.context).exists? parent = false)))) := by
  simp only [lockMove]
  -- the source first, then the new parent, then what the move itself needs
  obtain ⟨hrel₁, hcase₁⟩ :=
    lockAndFind_cases b w [] (w.locks.parentLock source ++ [source]) source
  generalize b.lockAndFind w [] (w.locks.parentLock source ++ [source]) source = r₁
    at hrel₁ hcase₁
  obtain ⟨w₁, grant₁⟩ := r₁
  rcases hcase₁ with ⟨taken₁, rfl, ht₁, hs⟩ | ⟨rfl | ⟨e, rfl⟩, ht₁⟩ | ⟨rfl, ht₁, hs⟩
  · obtain ⟨hrel₂, hcase₂⟩ := lockAndFind_cases b w₁ taken₁ [parent] parent
    simp only [hrel₁.view b] at hcase₂
    simp only
    generalize b.lockAndFind w₁ taken₁ [parent] parent = r₂ at hrel₂ hcase₂
    obtain ⟨w₂, grant₂⟩ := r₂
    have hrel := hrel₁.trans hrel₂
    rcases hcase₂ with ⟨taken₂, rfl, ht₂, hp⟩ | ⟨hgrant, ht₂⟩ | ⟨rfl, ht₂, hp⟩
    · simp only
      obtain ⟨hrel₃, hcase₃⟩ :=
        Work.lockAll_cases w₂ taken₂ ((b.view w₂.context).moveLocks source target deep)
      refine ⟨hrel.trans hrel₃, ?_⟩
      rcases hcase₃ with ⟨all, hall, ht₃⟩ | ⟨hgrant, ht₃⟩
      · exact .inl ⟨all, hall, ht₃.trans (ht₂.trans ht₁), hs, hp⟩
      · exact .inr (.inl ⟨hgrant, Nat.lt_of_le_of_lt hrel.timedOut ht₃⟩)
    · have hlt := Nat.lt_of_le_of_lt hrel₁.timedOut ht₂
      rcases hgrant with rfl | ⟨e, rfl⟩
      · exact ⟨hrel, .inr (.inl ⟨.inl rfl, hlt⟩)⟩
      · exact ⟨hrel, .inr (.inl ⟨.inr ⟨e, rfl⟩, hlt⟩)⟩
    · exact ⟨hrel, .inr (.inr ⟨ht₂.trans ht₁, .inr ⟨rfl, hs, hp⟩⟩)⟩
  · exact ⟨hrel₁, .inr (.inl ⟨.inl rfl, ht₁⟩)⟩
  · exact ⟨hrel₁, .inr (.inl ⟨.inr ⟨e, rfl⟩, ht₁⟩)⟩
  · exact ⟨hrel₁, .inr (.inr ⟨ht₁, .inl ⟨rfl, hs⟩⟩)⟩

/-- A move that makes sense: the source is not the root, the target has its name and is below the
new parent, and the source is not at or below the target. -/
theorem planMove_moveTo {target : Path} (h : planMove source parent = .ok (.moveTo target)) :
    source ≠ Path.root ∧ (∃ name, source.name? = some name ∧ target = parent.push name) ∧
      ¬source.isAtOrBelow target = true ∧ ¬parent.isAtOrBelow source = true := by
  simp only [planMove] at h
  split at h
  · simp at h
  · rename_i name hname
    split at h
    · simp at h
    · rename_i hpar
      split at h
      · simp at h
      · rename_i hne
        split at h
        · simp at h
        · rename_i hbelow
          obtain rfl := by simpa using h
          refine ⟨?_, ⟨name, hname, rfl⟩, ?_, hpar⟩
          · rintro rfl
            simp [Path.name?] at hname
          · rw [Path.isAtOrBelow_iff]
            rintro (h | h)
            · exact hne h.symm
            · exact hbelow h

/-- Source and target of a move that makes sense are apart. -/
theorem not_isAtOrBelow_of_planMove {target : Path}
    (h : planMove source parent = .ok (.moveTo target)) :
    ¬source.isAtOrBelow target = true ∧ ¬target.isAtOrBelow source = true := by
  obtain ⟨-, ⟨name, -, rfl⟩, hbelow, hparent⟩ := planMove_moveTo h
  refine ⟨hbelow, fun habove => ?_⟩
  rcases Path.push_isAtOrBelow.1 habove with rfl | hunder
  · exact hbelow (Path.isAtOrBelow_self _)
  · exact hparent hunder

/-- **How a move goes** that makes sense. -/
theorem moveNode_outcome {target : Path} (deep : Bool)
    (h : planMove source parent = .ok (.moveTo target)) :
    Moving b w source parent target (b.moveNode w source parent deep) := by
  obtain ⟨hsource, ⟨name, -, rfl⟩, hbelow, -⟩ := planMove_moveTo h
  simp only [moveNode, h]
  obtain ⟨hrel, hcase⟩ := lockMove_cases b w source parent (parent.push name) deep
  generalize b.lockMove w source parent (parent.push name) deep = r at hrel hcase
  obtain ⟨w₁, grant⟩ := r
  rcases hcase with ⟨all, rfl, ht, hs, hp⟩ | ⟨rfl | ⟨e, rfl⟩, ht⟩ | ⟨ht, ⟨rfl, hs⟩ | ⟨rfl, hs, hp⟩⟩
  · have hview := hrel.view b
    simp only
    cases hm : b.stageMove w₁.context source (parent.push name) with
    | error e =>
        refine .outdated (hrel.trans (Work.relocked_releasePartial _ _)) ?_
        rw [← hrel.options]
        simp only [stageMove] at hm
        split at hm
        · rename_i hv
          exact checkRevivals_error hv
        · simp at hm
    | ok c =>
        have hst := Context.staged_stageMove hsource (by rw [hview]; exact hs)
          (by rw [hview]; exact hp) hbelow hm
        rw [hview] at hst
        exact .moved ht hs hp ((Work.Staged.of_relocked hrel).trans (.withContext hst))
  · exact .timedOut hrel ht (.inl rfl)
  · exact .timedOut hrel ht (.inr ⟨e, rfl⟩)
  · exact .sourceMissing hrel ht hs
  · exact .parentMissing hrel ht hs hp

end Base

/-! ### All operations -/

/-- The path that a read looks at; none for what is not a read. -/
def Operation.readPath? : Operation → Option Path
  | get p _ => some p
  | getData p => some p
  | getKeys p => some p
  | getChildNames p => some p
  | nodeExists p => some p
  | _ => none

/-- The path that a write is for, and whether missing nodes are made for it; none for what is not a
write. -/
def Operation.writePath? : Operation → Option (Path × Bool)
  | put p _ _ => some (p, true)
  | putAll p _ => some (p, true)
  | replaceAll p _ => some (p, true)
  | removeKey p _ => some (p, false)
  | clearData p => some (p, false)
  | _ => none

/-- What a write makes of the data of the node; other operations leave them. -/
def Operation.edit (o : Operation) (d : Data) : Data :=
  match o with
  | put _ key v => d.insert key v
  | putAll _ d' => d.union d'
  | replaceAll _ d' => d'
  | removeKey _ key => d.erase key
  | clearData _ => .empty
  | _ => d

/-- What a write answers when it finds these data; if there is no node, it answers as for a node
without data. -/
def Operation.wrote (o : Operation) (d : Data) : Answer :=
  match o with
  | put _ key _ => .value (d.get? key)
  | removeKey _ key => .value (d.get? key)
  | _ => .done

/-- What a read answers when it finds these data, if there is a node, and these names of children.
-/
def Operation.read (o : Operation) (d : Option Data) (names : Option NameSet) : Answer :=
  match o with
  | get _ key => .value (d.bind (·.get? key))
  | getData _ => .data d
  | getKeys _ => .names (d.map (·.keySet))
  | getChildNames _ => .names names
  | _ => .flag d.isSome

/-- **The four kinds of operations.** -/
inductive Performing (b : Base) (w : Work) : Operation → Work × Except TreeError Answer → Prop
  /-- A read. -/
  | reading {α : Type} {o : Operation} {p : Path} (ho : o.readPath? = some p) (make : α → Answer)
      (answer : View → Location → α)
      (hread : ∀ v : View, make (answer v (v.locate p)) = o.read (v.data? p) (v.childNames p)) :
      Performing b w o (answering make (b.reading w p answer))
  /-- A write of data. -/
  | writing {α : Type} {o : Operation} {p : Path} {create : Bool}
      (ho : o.writePath? = some (p, create)) (make : α → Answer) (idle : α)
      (change : Entry → Entry × α) (hed : ∀ e : Entry, e.Edited (change e).1)
      (hdata : ∀ e : Entry, (change e).1.data = o.edit e.data)
      (hidle : make idle = o.wrote .empty)
      (hwrote : ∀ e : Entry, make (change e).2 = o.wrote e.data) :
      Performing b w o (answering make (b.writing w p create idle change))
  /-- A removal. -/
  | removal (p : Path) : Performing b w (.removeNode p) (answering .flag (b.removeNode w p))
  /-- A move. -/
  | move (source parent : Path) (deep : Bool) :
      Performing b w (.moveNode source parent deep)
        (answering .place (b.moveNode w source parent deep))

namespace Base

/-- **Every operation is of one of the four kinds.** -/
theorem perform_outcome (b : Base) (w : Work) (o : Operation) :
    Performing b w o (b.perform w o) := by
  cases o with
  | get p key => exact .reading rfl _ _ fun _ => rfl
  | getData p => exact .reading rfl _ _ fun _ => rfl
  | getKeys p => exact .reading rfl _ _ fun _ => rfl
  | getChildNames p => exact .reading rfl _ _ fun _ => rfl
  | nodeExists p => exact .reading rfl _ _ fun v => congrArg Answer.flag (v.isSome_data? p).symm
  | put p key v =>
      exact .writing rfl _ _ _ (fun e => e.edited_put key v) (fun _ => rfl) rfl fun _ => rfl
  | putAll p d =>
      exact .writing rfl _ _ _ (fun e => e.edited_putAll d) (fun _ => rfl) rfl fun _ => rfl
  | replaceAll p d =>
      exact .writing rfl _ _ _ (fun e => e.edited_replaceData d) (fun _ => rfl) rfl fun _ => rfl
  | removeKey p key =>
      exact .writing rfl _ _ _ (fun e => e.edited_removeKey key) (fun _ => rfl) rfl fun _ => rfl
  | clearData p =>
      exact .writing rfl _ _ _ (fun e => e.edited_clearData) (fun _ => rfl) rfl fun _ => rfl
  | removeNode p => exact .removal p
  | moveNode source parent deep => exact .move source parent deep

end Base

/-! ### The steps of an operation -/

/-- **The steps that an operation takes**, with what it leaves and answers. -/
inductive Taking (b : Base) (w : Work) :
    Operation → Work × Except TreeError Answer → List Act → Prop
  /-- It takes locks at most: one was not free, there is no node, the explicit version is not
  accepted, or the node stays where it is. -/
  | idle {o : Operation} {w' : Work} {r : Except TreeError Answer} (h : w.Relocked w') :
      Taking b w o (w', r) []
  /-- A read takes note of what it finds at most. -/
  | read {o : Operation} {path : Path} {w' : Work} {r : Except TreeError Answer}
      (ho : o.readPath? = some path) (hst : Work.Staged b w [] w') : Taking b w o (w', r) []
  /-- Missing nodes are made, and the data are written. -/
  | written {o : Operation} {path : Path} {create : Bool} {w' : Work} {d : Data} {answer : Answer}
      (ho : o.writePath? = some (path, create)) (ht : w.Untroubled w')
      (hst : Work.Staged b w (((b.view w.context).toMake path create).map .create ++
        [.write path (o.edit d)]) w')
      (hd : if (b.view w.context).toMake path create = [] then
          (b.view w.context).data? path = some d
        else d = .empty) :
      Taking b w o (w', .ok answer)
        (((b.view w.context).toMake path create).map .create ++ [.write path (o.edit d)])
  /-- A node below the root is removed. -/
  | removed {path : Path} {w' : Work} {answer : Answer} (hp : path ≠ Path.root)
      (hst : Work.Staged b w [.remove path] w') :
      Taking b w (.removeNode path) (w', .ok answer) [.remove path]
  /-- Children of the root are removed, and perhaps its data are cleared. -/
  | emptied {w' : Work} {r : Except TreeError Answer} {qs : List Path} {steps : List Act}
      (hsteps : steps = qs.map .remove ∨ steps = qs.map .remove ++ [.write Path.root .empty])
      (hst : Work.Staged b w steps w') : Taking b w (.removeNode .root) (w', r) steps
  /-- A subtree is moved. -/
  | moved {source parent target : Path} {deep : Bool} {w' : Work} {answer : Answer}
      (hplan : planMove source parent = .ok (.moveTo target)) (ht : w.Untroubled w')
      (hs : (b.view w.context).exists? source = true)
      (hst : Work.Staged b w (Context.movingActs (b.view w.context) source target) w') :
      Taking b w (.moveNode source parent deep) (w', .ok answer)
        (Context.movingActs (b.view w.context) source target)

/-- These are steps of the workspace. -/
theorem Taking.staged {o : Operation} {r : Work × Except TreeError Answer}
    (h : Taking b w o r acts) : Work.Staged b w acts r.1 := by
  cases h with
  | idle h => exact .of_relocked h
  | read _ hst => exact hst
  | written _ _ hst _ => exact hst
  | removed _ hst => exact hst
  | emptied _ hst => exact hst
  | moved _ _ _ hst => exact hst

/-- **By itself the operation does nothing at `q`**: it writes neither there nor below, and takes
away neither that node nor one above it. -/
def Operation.avoids (o : Operation) (q : Path) : Bool :=
  match o with
  | removeNode p => !q.isAtOrBelow p
  | moveNode source parent _ =>
      !q.isAtOrBelow source && !source.name?.any fun name => q.isAtOrBelow (parent.push name)
  | _ => o.writePath?.all fun e => !e.1.isAtOrBelow q

theorem Operation.not_isAtOrBelow_of_writePath? {o : Operation} {create : Bool}
    (ho : o.writePath? = some (p, create)) (h : o.avoids q = true) :
    ¬p.isAtOrBelow q = true := by
  cases o <;> simp_all [writePath?, avoids]

/-- **The steps of an operation that avoids a place miss it.** -/
theorem Taking.misses {o : Operation} {r : Work × Except TreeError Answer}
    (h : Taking b w o r acts) (ho : o.avoids q = true) : ∀ a ∈ acts, a.Misses q := by
  cases h with
  | idle _ => simp
  | read _ _ => simp
  | @written _ path create _ _ _ hpath _ _ _ =>
      -- what is made and written is at or above the path
      have hplace : ∀ {r : Path}, path.isAtOrBelow r = true → r ≠ q := by
        rintro r hr rfl
        exact Operation.not_isAtOrBelow_of_writePath? hpath ho hr
      intro a ha
      rcases List.mem_append.1 ha with ha | ha
      · obtain ⟨r, hr, rfl⟩ := List.mem_map.1 ha
        exact hplace (View.isAtOrBelow_of_mem_toMake hr)
      · obtain rfl := List.mem_singleton.1 ha
        exact hplace (Path.isAtOrBelow_self path)
  | @removed path _ _ _ _ =>
      have hnot : ¬q.isAtOrBelow path = true := by simpa [Operation.avoids] using ho
      simpa [Act.Misses] using hnot
  | emptied _ _ => simp [Operation.avoids, Path.isAtOrBelow_root] at ho
  | @moved source parent target _ _ _ hplan _ _ _ =>
      obtain ⟨-, ⟨name, hname, rfl⟩, -⟩ := Base.planMove_moveTo hplan
      have hnot : ¬q.isAtOrBelow source = true ∧
          ∀ name, source.name? = some name → ¬q.isAtOrBelow (parent.push name) = true := by
        simpa [Operation.avoids, Option.any_eq_false] using ho
      -- what is made and written is at or below the target
      have hplace : ∀ {r : Path}, r.isAtOrBelow (parent.push name) = true → r ≠ q := by
        rintro r hr rfl
        exact hnot.2 name hname hr
      intro a ha
      rcases Context.of_mem_movingActs ha with rfl | rfl | ⟨r, hr, rfl | ⟨d, rfl⟩⟩
      · exact hnot.1
      · exact hnot.2 name hname
      · exact hplace hr
      · exact hplace hr

namespace Base

theorem taking_removeNode (hb : b.tree.Sound) (hw : w.context.workspace.Tidy) (p : Path) :
    ∃ acts, Taking b w (.removeNode p) (answering .flag (b.removeNode w p)) acts := by
  simp only [removeNode]
  split
  · rename_i hp
    obtain rfl := Path.isRoot_iff.1 hp
    obtain ⟨qs, acts, w', r, hr, hacts, -, hst, -⟩ := removeRoot_outcome hb hw
    rw [hr]
    exact ⟨acts, .emptied hacts hst⟩
  · rename_i hp
    have hroot : p ≠ Path.root := fun he => hp (Path.isRoot_iff.2 he)
    have h := removeBelowRoot_outcome (b := b) (w := w) hroot
    generalize b.removeBelowRoot w p = r at h
    cases h with
    | timedOut hrel _ _ => exact ⟨_, .idle hrel⟩
    | absent hrel _ _ => exact ⟨_, .idle hrel⟩
    | removed _ _ hst => exact ⟨_, .removed hroot hst⟩

theorem taking_moveNode (b : Base) (w : Work) (source parent : Path) (deep : Bool) :
    ∃ acts, Taking b w (.moveNode source parent deep)
      (answering .place (b.moveNode w source parent deep)) acts := by
  cases hplan : planMove source parent with
  | error e =>
      simp only [moveNode, hplan]
      exact ⟨_, .idle (.refl w)⟩
  | ok plan =>
      cases plan with
      | stay =>
          simp only [moveNode, hplan]
          exact ⟨_, .idle (.refl w)⟩
      | moveTo target =>
          have h := moveNode_outcome (b := b) (w := w) deep hplan
          generalize b.moveNode w source parent deep = r at h
          cases h with
          | timedOut hrel _ _ => exact ⟨_, .idle hrel⟩
          | sourceMissing hrel _ _ => exact ⟨_, .idle hrel⟩
          | parentMissing hrel _ _ _ => exact ⟨_, .idle hrel⟩
          | outdated hrel _ => exact ⟨_, .idle hrel⟩
          | moved ht hs _ hst => exact ⟨_, .moved hplan ht hs hst⟩

/-- **Every operation takes steps in one of these ways.** -/
theorem taking_perform (hb : b.tree.Sound) (hw : w.context.workspace.Tidy) (o : Operation) :
    ∃ acts, Taking b w o (b.perform w o) acts := by
  have h := perform_outcome b w o
  generalize b.perform w o = r at h
  cases h with
  | @reading _ _ p ho _ answer _ => exact ⟨[], .read ho (staged_reading b w p answer)⟩
  | @writing _ _ p create ho make idle change hed hdata _ _ =>
      have h := writing_outcome p create idle change (hw.exists?_root hb) hed
      generalize b.writing w p create idle change = r at h
      cases h with
      | timedOut hrel _ _ => exact ⟨_, .idle hrel⟩
      | outdated hrel _ => exact ⟨_, .idle hrel⟩
      | absent hrel _ _ _ => exact ⟨_, .idle hrel⟩
      | written ht _ _ hst he =>
          rw [hdata] at hst
          exact ⟨_, .written ho ht hst he⟩
  | removal p => exact taking_removeNode hb hw p
  | move source parent deep => exact taking_moveNode b w source parent deep

/-- **Every operation is a sequence of steps of the workspace.** -/
theorem staged_perform (hb : b.tree.Sound) (hw : w.context.workspace.Tidy) (o : Operation) :
    ∃ acts, Work.Staged b w acts (b.perform w o).1 :=
  (taking_perform hb hw o).imp fun _ h => h.staged

end Base

end TransactionalTree
