/-
**A unit of work whose nodes others leave alone.**

Whatever a unit of work does, and whether or not it gets its locks, it makes nodes only where it
sees none.  So as long as the committed nodes stay as they are, its workspace keeps the invariant of
a tree that does not change, and with it every property that each single step keeps.

Main definitions:

* `View.plain` — what is seen, as a plain tree.

Main results:

* `Shows.fits_of_taking` — however an operation goes, it makes nodes only where there are none;
* `Faithful.perform_keeps` — **what each step keeps every operation keeps**;
* `Faithful.congr` — the invariant holds over every tree with the same nodes;
* `Store.commit_of_faithful` — **the commit succeeds**, and commits what was seen.
-/

import TransactionalTree.Proofs.Holding
import TransactionalTree.Proofs.Simulation

set_option relaxedAutoImplicit false
set_option autoImplicit false

namespace TransactionalTree

/-! ### What is seen, as a plain tree -/

namespace View

/-- **What is seen, as a plain tree.** -/
def plain (v : View) : PlainTree :=
  ((v.workspace.keySet.union v.base.tree.slots.keySet).filter
    fun p _ => (v.data? p).isSome).mapValues fun p _ => (v.data? p).getD .empty

variable {b : Base} {w : Workspace} {p : Path}

theorem get?_plain (hb : b.tree.Sound) : (View.mk b w).plain.get? p = (View.mk b w).data? p := by
  rw [plain, SortedMap.get?_mapValues, SortedMap.get?_filter, SortedMap.get?_union,
    SortedMap.keySet, SortedMap.keySet, SortedMap.get?_mapValues, SortedMap.get?_mapValues]
  cases hd : (View.mk b w).data? p with
  | none => simp
  | some d =>
      -- what is seen has an entry or is committed
      rcases View.exists?_iff.1 (View.exists?_iff_data?.2 ⟨d, hd⟩) with ⟨e, hl⟩ | ⟨n, hl⟩
      · have he : w.get? p = some e := (View.locate_eq_staged.1 hl).2.1
        cases hn : b.tree.slots.get? p <;> simp [he]
      · have hn : b.tree.slots.get? p = some n :=
          (hb.peek?_eq_some.1 (View.locate_eq_committed.1 hl).2.2.2).1
        simp [hn]

end View

/-- A workspace over a tree that does not change shows a plain tree. -/
theorem Faithful.shows {b : Base} {w : Workspace} (h : Faithful b w) :
    Shows b w (View.mk b w).plain :=
  ⟨h, fun _ => (View.get?_plain h.sound).symm⟩

/-! ### However an operation goes -/

namespace Shows

variable {b : Base} {w w' : Workspace} {m : PlainTree} {u : Work} {acts : List Act}

/-- **However an operation goes, it makes nodes only where there are none.** -/
theorem fits_of_taking {o : Operation} {r : Work × Except TreeError Answer}
    (h : Shows b u.context.workspace m) (ht : Taking b u o r acts) : m.Fits acts := by
  cases ht with
  | idle _ => exact trivial
  | read _ _ => exact trivial
  | @written _ _ create _ _ _ _ _ _ _ =>
      exact PlainTree.fits_append.2 ⟨h.fits_toMake create, fun q hq => by simp at hq, trivial⟩
  | removed _ _ => exact PlainTree.fits_of_no_create fun q => by simp
  | emptied hsteps _ =>
      refine PlainTree.fits_of_no_create fun q => ?_
      rcases hsteps with rfl | rfl
      · simp
      · simp
  | moved _ _ hs _ => exact h.fits_movingActs hs

/-- What each step keeps all steps keep that make nodes only where there are none. -/
theorem stages_keep {P : Workspace → Prop} (h : Shows b w m) (hs : Stages b w acts w')
    (hf : m.Fits acts) (hw : P w)
    (hnote : ∀ {u u' : Workspace}, Faithful b u → P u → Note b u u' → P u')
    (hstage : ∀ {a : Act} {u u' : Workspace}, a ∈ acts → Faithful b u → P u → Stage b a u u' →
      (∀ p, a = .create p → (View.mk b u).exists? p = false) → P u') : P w' := by
  induction hs with
  | refl => exact hw
  | note hs hn ih => exact hnote (h.stages hs hf).faithful (ih hf hstage) hn
  | act hs ha ih =>
      obtain ⟨hfits, hlast⟩ := PlainTree.fits_append.1 hf
      have hbefore := h.stages hs hfits
      have hprev := ih hfits fun hmem => hstage (List.mem_append_left _ hmem)
      exact hstage (List.mem_append_right _ (List.mem_singleton_self _)) hbefore.faithful hprev ha
        fun p hp => hbefore.exists?_eq_false.2 (hlast.1 p hp)

end Shows

namespace Faithful

variable {b b' : Base} {w : Workspace} {u : Work}

/-- **What each step keeps every operation keeps.** -/
theorem perform_keeps {P : Workspace → Prop} (h : Faithful b u.context.workspace)
    (hu : P u.context.workspace)
    (hnote : ∀ {u u' : Workspace}, Faithful b u → P u → Note b u u' → P u')
    (hstage : ∀ {a : Act} {u u' : Workspace}, Faithful b u → P u → Stage b a u u' →
      (∀ p, a = .create p → (View.mk b u).exists? p = false) → P u') (o : Operation) :
    P (b.perform u o).1.context.workspace := by
  obtain ⟨acts, htaking⟩ := Base.taking_perform h.sound h.tidy o
  exact h.shows.stages_keep htaking.staged.stages (h.shows.fits_of_taking htaking) hu hnote
    fun _ => hstage

/-- **Every operation keeps the invariant.** -/
theorem perform (h : Faithful b u.context.workspace) (o : Operation) :
    Faithful b (b.perform u o).1.context.workspace :=
  h.perform_keeps h (fun _ h hs => h.note hs) (fun _ h hs => h.stage hs) o

/-! ### Over other trees -/

/-- **The invariant holds over every tree with the same nodes.** -/
theorem congr (h : Faithful b w) (hs : b'.tree.Sound)
    (hsame : ∀ p, b'.tree.peek? p = b.tree.peek? p) : Faithful b' w := by
  have hex : ∀ p, b'.tree.exists? p = b.tree.exists? p := fun p => by
    rw [CommittedTree.exists?, CommittedTree.exists?, hsame]
  refine h.transfer hs (fun _ => hsame _) (fun {p e} _ _ _ => ?_) fun _ _ h => (hex _).trans h
  refine SortedSet.ext_has fun name => ?_
  rw [CommittedTree.mem_childNames, CommittedTree.mem_childNames, ← hs.exists?_iff,
    ← h.sound.exists?_iff, hex]

end Faithful

/-! ### Its commit -/

namespace Store

variable {s : Store} {c : Context} {x : Conflict} {xs : List Conflict}

/-- What is in the way of the commit can only be write skew. -/
theorem conflicts_of_faithful (h : Faithful s.base c.workspace) (skewCheck : Bool) :
    s.base.conflicts c skewCheck = if skewCheck then s.base.skewConflicts c else [] := by
  rw [Base.conflicts, h.structureConflicts_eq_nil, List.append_nil]

/-- The merge goes through. -/
theorem merge_of_faithful (h : Faithful s.base c.workspace) :
    ∃ events, (s.merge c).events = .ok events :=
  (merge_isOk_iff_supported h.sound h.tidy).2 fun _ _ hmem => h.supported hmem

/-- **If there is no write skew the commit succeeds**, and commits what was seen. -/
theorem commit_of_faithful (h : Faithful s.base c.workspace) (ha : Work.Accounted ⟨s.locks, c⟩)
    (hno : s.base.conflicts c s.config.writeSkewCheckActive = []) :
    (s.commit c).result = .ok () ∧
      ∀ p, (s.commit c).store.tree.data? p = (s.base.view c).data? p := by
  have hseen := h.outcome_dirty
  have ho := commit_outcome s c
  generalize s.commit c = e at ho
  cases ho with
  | idle hidle =>
      refine ⟨(conclude_settled ha _ _).1, fun p => ?_⟩
      have hnone : c.workspace.dirty = [] := Workspace.dirty_eq_nil_iff.2 hidle
      rw [conclude_tree]
      refine Eq.trans ?_ (hseen p)
      rw [hnone]
      rfl
  | refused _ hx =>
      rw [hno] at hx
      simp at hx
  | torn _ _ hm =>
      obtain ⟨events, hok⟩ := merge_of_faithful h
      rw [hm] at hok
      simp at hok
  | merged _ _ hm =>
      refine ⟨(conclude_settled (s := { s with tree := (s.merge c).tree }) ha _ _).1,
        fun p => ?_⟩
      rw [conclude_tree, data?_merge h.sound h.tidy hm]
      exact hseen p

end Store

end TransactionalTree
