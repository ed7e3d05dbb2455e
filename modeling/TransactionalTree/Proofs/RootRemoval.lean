/-
**The removal of the root is not one unit.**

Removing the root removes its children one after the other and then clears its data, and each of
these steps takes its own locks.  When all locks are free, every child that was listed is gone in
the end; but if reads are pinned, the listing may be older than the children, and one that has come
to be since is overlooked.  When a lock is refused half way, the children that came before stay
removed, and their locks stay held: the operation fails with a time-out and leaves a trace.  If it
shall fail silently, it passes over what is refused, goes on with the next child, and says that the
root was removed.

Main definitions:

* `Base.Removed` — the listed nodes are removed one after the other, with all locks for that free;
* `Base.Removals`, `Base.RootRemoval` — how the removal of several nodes, and of the root, can go;
* `View.Overlooks` — the listing of the root was pinned without this child.

Main results:

* `Work.Same.removeBelowRoot` — a removal does not depend on the counts of locks;
* `Base.removeEach_cases`, `Base.removeRoot_stages` — **whatever is refused, the rest is done**;
* `View.overlooks_iff` — the children that are there but not listed are those that are overlooked;
* `SharedTree.root_removed_child_by_child` — **how the removal of the root goes** at any time;
* `SharedTree.not_root_removed_as_unit` — so a refused lock need not leave all as it was.
-/

import TransactionalTree.Proofs.Removals
import TransactionalTree.Proofs.Undoing

set_option relaxedAutoImplicit false
set_option autoImplicit false

namespace TransactionalTree

variable {b : Base} {w w' w₁ w₂ : Work} {p : Path} {ps done : List Path}

/-! ### What does not depend on the counts of locks -/

namespace Work

/-- The two results differ at most in the counts of locks, and the same number of time-outs is
counted on the way to each. -/
structure SameResult {α : Type} (w w' : Work) (r r' : Work × α) : Prop where
  /-- The works differ at most in counts. -/
  same : r.1.Same r'.1
  /-- The answers are the same. -/
  answer : r'.2 = r.2
  /-- Equally many time-outs are counted. -/
  timedOut : r'.1.locks.counts.timedOut + w.locks.counts.timedOut =
    r.1.locks.counts.timedOut + w'.locks.counts.timedOut

/-- Time-outs that were counted before may be counted in. -/
theorem SameResult.after {α : Type} {u u' : Work} {r r' : Work × α} (h : u.SameResult u' r r')
    (ht : u'.locks.counts.timedOut + w.locks.counts.timedOut =
      u.locks.counts.timedOut + w'.locks.counts.timedOut) : w.SameResult w' r r' where
  same := h.same
  answer := h.answer
  timedOut := by
    have hcount := h.timedOut
    omega

namespace Same

theorem symm (h : w.Same w') : w'.Same w where
  context := h.context.symm
  locks := by rw [h.locks]

theorem acquire (h : w.Same w') (p : Path) : w.SameResult w' (w.acquire p) (w'.acquire p) := by
  obtain ⟨m, c⟩ := w
  obtain ⟨m', c'⟩ := w'
  obtain ⟨hc, hm⟩ := h
  simp only at hc hm
  rw [hc, hm]
  simp only [Work.acquire]
  split
  · exact ⟨⟨rfl, rfl⟩, rfl, Nat.add_comm _ _⟩
  · cases m.table.acquire? p c.owner with
    | some t => exact ⟨⟨rfl, rfl⟩, rfl, Nat.add_comm _ _⟩
    | none =>
        refine ⟨⟨rfl, rfl⟩, rfl, ?_⟩
        simp only
        omega

theorem acquireFrom (h : w.Same w') (taken ps : List Path) :
    w.SameResult w' (w.acquireFrom taken ps) (w'.acquireFrom taken ps) := by
  induction ps generalizing w w' taken with
  | nil => exact ⟨h, rfl, Nat.add_comm _ _⟩
  | cons p ps ih =>
      have hfirst := h.acquire p
      simp only [Work.acquireFrom]
      generalize w.acquire p = r at hfirst
      generalize w'.acquire p = r' at hfirst
      obtain ⟨u, a⟩ := r
      obtain ⟨u', a'⟩ := r'
      obtain ⟨hsame, rfl, ht⟩ := hfirst
      simp only at hsame ht
      rcases a' with e | _ | _
      · refine ⟨hsame.releasePartial taken, rfl, ?_⟩
        simp only [timedOut_releasePartial]
        exact ht
      · exact (ih hsame taken).after ht
      · exact (ih hsame (taken ++ [p])).after ht

theorem lockAll (h : w.Same w') (taken ps : List Path) :
    w.SameResult w' (w.lockAll taken ps) (w'.lockAll taken ps) := by
  have hall := h.acquireFrom [] ps
  simp only [Work.lockAll, acquireAll, h.context]
  split
  · exact ⟨h, rfl, Nat.add_comm _ _⟩
  · generalize w.acquireFrom [] ps = r at hall
    generalize w'.acquireFrom [] ps = r' at hall
    obtain ⟨u, a⟩ := r
    obtain ⟨u', a'⟩ := r'
    obtain ⟨hsame, rfl, ht⟩ := hall
    simp only at hsame ht
    cases a' with
    | ok new => exact ⟨hsame, rfl, ht⟩
    | error e =>
        simp only [hsame.context]
        refine ⟨hsame.releasePartial taken, rfl, ?_⟩
        simp only [timedOut_releasePartial]
        exact ht

/-- **A removal does not depend on the counts of locks.** -/
theorem removeBelowRoot (h : w.Same w') (b : Base) (p : Path) :
    w.SameResult w' (b.removeBelowRoot w p) (b.removeBelowRoot w' p) := by
  have hlocks : (b.view w'.context).removalLocks w'.locks p =
      (b.view w.context).removalLocks w.locks p := by
    rw [h.context, h.locks]
    rfl
  have hall := h.lockAll [] ((b.view w.context).removalLocks w.locks p)
  simp only [Base.removeBelowRoot, hlocks]
  generalize w.lockAll [] _ = r at hall
  generalize w'.lockAll [] _ = r' at hall
  obtain ⟨u, a⟩ := r
  obtain ⟨u', a'⟩ := r'
  obtain ⟨hsame, rfl, ht⟩ := hall
  simp only at hsame ht
  cases a' with
  | granted taken =>
      simp only [hsame.context]
      exact ⟨⟨rfl, hsame.locks⟩, rfl, ht⟩
  | declined => exact ⟨hsame, rfl, ht⟩
  | refused e => exact ⟨hsame, rfl, ht⟩

/-- Nor does a write. -/
theorem writing {α : Type} (h : w.Same w') (b : Base) (p : Path) (create : Bool) (idle : α)
    (change : Entry → Entry × α) :
    w.SameResult w' (b.writing w p create idle change) (b.writing w' p create idle change) := by
  have hlocks : (b.view w'.context).writeLocks w'.locks p create =
      (b.view w.context).writeLocks w.locks p create := by
    rw [h.context, h.locks]
    rfl
  have hall := h.lockAll [] ((b.view w.context).writeLocks w.locks p create)
  simp only [Base.writing, Base.prepareWrite, hlocks]
  generalize w.lockAll [] _ = r at hall
  generalize w'.lockAll [] _ = r' at hall
  obtain ⟨u, a⟩ := r
  obtain ⟨u', a'⟩ := r'
  obtain ⟨hsame, rfl, ht⟩ := hall
  simp only at hsame ht
  cases a' with
  | granted taken =>
      simp only [hsame.context]
      cases b.stageWrite u.context p create with
      | error e =>
          refine ⟨hsame.releasePartial taken, rfl, ?_⟩
          simp only [timedOut_releasePartial]
          exact ht
      | ok r =>
          obtain ⟨c, ready⟩ := r
          cases ready with
          | false => exact ⟨⟨rfl, hsame.locks⟩, rfl, ht⟩
          | true =>
              simp only [withContext]
              cases c.entry? p with
              | none => exact ⟨⟨rfl, hsame.locks⟩, rfl, ht⟩
              | some e => exact ⟨⟨rfl, hsame.locks⟩, rfl, ht⟩
  | declined => exact ⟨hsame, rfl, ht⟩
  | refused e => exact ⟨hsame, rfl, ht⟩

end Same

/-! ### What comes of asking for locks -/

/-- **What comes of asking for locks**: all are granted; or one is not free, and then nothing has
changed, and the operation shall do nothing if it shall fail silently, and else fails with a
time-out. -/
inductive Obtaining (w : Work) : Work × Grant → Prop
  /-- All are granted. -/
  | granted {w' : Work} {taken : List Path} (ht : w.Untroubled w') :
      Obtaining w (w', .granted taken)
  /-- The operation shall do nothing. -/
  | declined {w' : Work} (hs : w.Same w') (ht : w.locks.counts.timedOut < w'.locks.counts.timedOut)
      (hsilent : w.context.options.failSilently = true) : Obtaining w (w', .declined)
  /-- The operation fails. -/
  | refused {w' : Work} {e : TreeError} (hs : w.Same w')
      (ht : w.locks.counts.timedOut < w'.locks.counts.timedOut)
      (hloud : w.context.options.failSilently = false) (he : e.isTimeout = true) :
      Obtaining w (w', .refused e)

theorem refused_lockAll {taken : List Path} {e : TreeError}
    (h : (w.lockAll taken ps).2 = .refused e) :
    w.context.options.failSilently = false ∧ e.isTimeout = true := by
  obtain ⟨hrel, hcase⟩ := acquireFrom_cases w [] ps
  simp only [lockAll, acquireAll] at h
  split at h
  · simp at h
  · generalize w.acquireFrom [] ps = r at hrel hcase h
    obtain ⟨w', r⟩ := r
    rcases hcase with ⟨all, rfl, -⟩ | ⟨e', rfl, he, -⟩
    · simp at h
    · have hoptions : w'.context.options = w.context.options := hrel.options
      simp only [hoptions, he, Bool.true_and] at h
      split at h
      · simp at h
      · rename_i hloud
        obtain rfl := Grant.refused.inj h
        exact ⟨by simpa using hloud, he⟩

theorem obtaining_lockAll (w : Work) (ps : List Path) : w.Obtaining (w.lockAll [] ps) := by
  have hasking := (Undoable.refl w).lockAll ps
  have hcases := (lockAll_cases w [] ps).2
  have hrefused : ∀ e, (w.lockAll [] ps).2 = .refused e → _ := fun _ => refused_lockAll
  generalize w.lockAll [] ps = r at hasking hcases hrefused
  cases hasking with
  | granted h => exact .granted h.untroubled
  | declined hs hsilent => exact .declined hs (hcases.elim (fun h => by simp at h) (·.2)) hsilent
  | refused hs =>
      obtain ⟨hloud, he⟩ := hrefused _ rfl
      exact .refused hs (hcases.elim (fun h => by simp at h) (·.2)) hloud he

/-- **How a step on one node goes**: it is done, or a lock is refused and nothing has changed. -/
inductive Granting {α : Type} (w : Work) (idle : α) : Work × Except TreeError α → Prop
  /-- All its locks were free. -/
  | granted {w' : Work} {a : α} (ht : w.Untroubled w') : Granting w idle (w', .ok a)
  /-- A lock was refused, and the step says that there was nothing to do. -/
  | declined {w' : Work} (hs : w.Same w') (ht : w.locks.counts.timedOut < w'.locks.counts.timedOut)
      (hsilent : w.context.options.failSilently = true) : Granting w idle (w', .ok idle)
  /-- A lock was refused, and the step fails. -/
  | refused {w' : Work} {e : TreeError} (hs : w.Same w')
      (ht : w.locks.counts.timedOut < w'.locks.counts.timedOut)
      (hloud : w.context.options.failSilently = false) (he : e.isTimeout = true) :
      Granting w idle (w', .error e)

end Work

/-! ### One node after the other -/

namespace Base

theorem granting_removeBelowRoot (b : Base) (w : Work) (p : Path) :
    w.Granting false (b.removeBelowRoot w p) := by
  have hall := w.obtaining_lockAll ((b.view w.context).removalLocks w.locks p)
  simp only [removeBelowRoot]
  generalize w.lockAll [] _ = r at hall
  cases hall with
  | granted ht => exact .granted ht
  | declined hs ht hsilent => exact .declined hs ht hsilent
  | refused hs ht hloud he => exact .refused hs ht hloud he

/-- A node that is there already can be written under every version. -/
theorem granting_clearData (b : Base) (w : Work) (p : Path) :
    w.Granting () (b.clearData w p) := by
  have hall := w.obtaining_lockAll ((b.view w.context).writeLocks w.locks p false)
  simp only [clearData, writing, prepareWrite]
  generalize w.lockAll [] _ = r at hall
  cases hall with
  | @granted w₁ taken ht =>
      have hstage : b.stageWrite w₁.context p false = .ok (b.materialize w₁.context p) := rfl
      simp only
      cases hm : b.materialize w₁.context p with
      | mk c ready =>
          rw [hm] at hstage
          rw [hstage]
          cases ready with
          | false => exact .granted ht
          | true =>
              obtain ⟨e, he⟩ := exists_entry_of_stageWrite hstage
              simp only [Work.withContext, he]
              exact .granted ht
  | declined hs ht hsilent => exact .declined hs ht hsilent
  | refused hs ht hloud he => exact .refused hs ht hloud he

/-- A removal keeps the options. -/
theorem options_removeBelowRoot (hp : p ≠ Path.root) :
    (b.removeBelowRoot w p).1.context.options = w.context.options := by
  have hr := removeBelowRoot_outcome (b := b) (w := w) hp
  generalize b.removeBelowRoot w p = r at hr
  cases hr with
  | timedOut h _ _ => exact h.options
  | absent h _ _ => exact h.options
  | removed _ _ hst => exact hst.options

/-- **The listed nodes are removed** one after the other, and all locks for that are free. -/
inductive Removed (b : Base) : Work → List Path → Work → Prop
  /-- There is nothing to remove. -/
  | nil {w : Work} : Removed b w [] w
  /-- One node is removed, and then the others. -/
  | cons {w w₁ w₂ : Work} {p : Path} {ps : List Path} {found : Bool}
      (h : b.removeBelowRoot w p = (w₁, .ok found)) (ht : w.Untroubled w₁)
      (hrest : Removed b w₁ ps w₂) : Removed b w (p :: ps) w₂

namespace Removed

theorem removeEach (h : b.Removed w ps w') : b.removeEach w ps = (w', .ok ()) := by
  induction h with
  | nil => rfl
  | cons h ht hrest ih => simp only [Base.removeEach, h, ih]

theorem untroubled (h : b.Removed w ps w') : w.Untroubled w' := by
  induction h with
  | nil => rfl
  | cons h ht hrest ih => exact ih.trans ht

/-- It does not depend on the counts of locks. -/
theorem congr (h : b.Removed w ps w₁) (hs : w.Same w') :
    ∃ w₁', b.Removed w' ps w₁' ∧ w₁.Same w₁' := by
  induction h generalizing w' with
  | nil => exact ⟨w', .nil, hs⟩
  | @cons w u u₂ p ps found h ht hrest ih =>
      obtain ⟨hsame, hanswer, hcount⟩ := hs.removeBelowRoot b p
      rw [h] at hsame hanswer hcount
      obtain ⟨w₁', hrest', hsame'⟩ := ih hsame
      have hfirst : b.removeBelowRoot w' p = ((b.removeBelowRoot w' p).1, .ok found) :=
        Prod.ext rfl hanswer
      refine ⟨w₁', .cons hfirst ?_ hrest', hsame'⟩
      have hcount : (b.removeBelowRoot w' p).1.locks.counts.timedOut +
          w.locks.counts.timedOut = u.locks.counts.timedOut + w'.locks.counts.timedOut := hcount
      simp only [Work.Untroubled] at ht ⊢
      omega

/-- **What is removed is gone**, and nothing comes to be. -/
theorem outcome (h : b.Removed w ps w') (hps : ∀ p ∈ ps, p ≠ Path.root) :
    (∃ qs : List Path, Work.Staged b w (qs.map .remove) w') ∧
      ∀ p ∈ ps, (b.view w'.context).exists? p = false := by
  obtain ⟨qs, w₁, r, hr, -, hst, hcase⟩ := removeEach_outcome (b := b) (w := w) ps hps
  rw [h.removeEach] at hr
  obtain ⟨rfl, rfl⟩ := Prod.mk.inj hr
  rcases hcase with hlt | ⟨-, -, hgone⟩
  · exact absurd h.untroubled (Nat.ne_of_gt hlt)
  · exact ⟨⟨qs, hst⟩, hgone⟩

theorem options (h : b.Removed w ps w') (hps : ∀ p ∈ ps, p ≠ Path.root) :
    w'.context.options = w.context.options := by
  obtain ⟨⟨qs, hst⟩, -⟩ := h.outcome hps
  exact hst.options

/-- Entries elsewhere stay. -/
theorem entry?_of_not (h : b.Removed w ps w') {q : Path} (hq : ∀ p ∈ ps, ¬q.isAtOrBelow p = true) :
    w'.context.entry? q = w.context.entry? q := by
  induction h with
  | nil => rfl
  | @cons w u u₂ p ps found h ht hrest ih =>
      have hfirst := entry?_removeBelowRoot_of_not (b := b) (u := w) (hq p List.mem_cons_self)
      rw [h] at hfirst
      exact (ih fun p hp => hq p (List.mem_cons_of_mem _ hp)).trans hfirst

end Removed

/-- How the removal of several nodes can go. -/
inductive Removals (b : Base) (w : Work) (ps : List Path) : Work × Except TreeError Unit → Prop
  /-- All are removed. -/
  | all {w' : Work} (h : b.Removed w ps w') : Removals b w ps (w', .ok ())
  /-- Some are passed over, since they shall fail silently. -/
  | some {w₁ w' : Work} {done : List Path} (hd : done.Sublist ps) (h : b.Removed w done w₁)
      (hs : w₁.Same w') (ht : w.locks.counts.timedOut < w'.locks.counts.timedOut)
      (hsilent : w.context.options.failSilently = true) : Removals b w ps (w', .ok ())
  /-- One fails, and those after it are not tried. -/
  | stopped {w₁ w' : Work} {done rest : List Path} {p : Path} {e : TreeError}
      (hps : ps = done ++ p :: rest) (h : b.Removed w done w₁) (hs : w₁.Same w')
      (ht : w.locks.counts.timedOut < w'.locks.counts.timedOut)
      (hloud : w.context.options.failSilently = false) (he : e.isTimeout = true) :
      Removals b w ps (w', .error e)

/-- **Whatever is refused, the rest is removed**, up to the first removal that fails. -/
theorem removeEach_cases (b : Base) (w : Work) (ps : List Path) (hps : ∀ p ∈ ps, p ≠ Path.root) :
    Removals b w ps (b.removeEach w ps) := by
  induction ps generalizing w with
  | nil => exact .all .nil
  | cons p ps ih =>
      have hfirst := b.granting_removeBelowRoot w p
      have hoptions := options_removeBelowRoot (b := b) (w := w) (hps p List.mem_cons_self)
      have hrest := fun w => ih w fun q hq => hps q (List.mem_cons_of_mem _ hq)
      simp only [Base.removeEach]
      cases hr : b.removeBelowRoot w p with
      | mk w₁ r =>
          rw [hr] at hfirst hoptions
          have hrest := hrest w₁
          cases hfirst with
          | granted ht =>
              simp only
              generalize b.removeEach w₁ ps = r' at hrest ⊢
              cases hrest with
              | all h => exact .all (.cons hr ht h)
              | some hd h hs ht' hsilent =>
                  exact .some (hd.cons_cons p) (.cons hr ht h) hs (ht ▸ ht') (hoptions ▸ hsilent)
              | stopped hps h hs ht' hloud he =>
                  exact .stopped (by rw [hps]; rfl) (.cons hr ht h) hs (ht ▸ ht')
                    (hoptions ▸ hloud) he
          -- passed over: the others are removed as if it had not been tried
          | declined hs ht hsilent =>
              simp only
              generalize b.removeEach w₁ ps = r' at hrest ⊢
              cases hrest with
              | all h =>
                  obtain ⟨w₂, h', hsame⟩ := h.congr hs.symm
                  exact .some (ps.sublist_cons_self p) h' hsame.symm
                    (h.untroubled ▸ ht) hsilent
              | some hd h hs' ht' _ =>
                  obtain ⟨w₂, h', hsame⟩ := h.congr hs.symm
                  exact .some (hd.trans (ps.sublist_cons_self p)) h' (hsame.symm.trans hs')
                    (Nat.lt_trans ht ht') hsilent
              | stopped _ _ _ _ hloud _ =>
                  rw [hoptions, hsilent] at hloud
                  simp at hloud
          | refused hs ht hloud he =>
              exact .stopped (List.nil_append (p :: ps)).symm .nil hs ht hloud he

/-- How the removal of the root can go. -/
inductive RootRemoval (b : Base) (w : Work) : Work × Except TreeError Bool → Prop
  /-- All children of the root are removed, and its data are cleared. -/
  | emptied {w₁ w' : Work} (h : b.Removed w (b.view w.context).topLevel w₁)
      (hclear : b.clearData w₁ .root = (w', .ok ())) (ht : w₁.Untroubled w') :
      RootRemoval b w (w', .ok true)
  /-- Some children, or the data, are passed over. -/
  | passedOver {w₁ w' : Work} {done : List Path} (hd : done.Sublist (b.view w.context).topLevel)
      (h : b.Removed w done w₁) (hs : w₁.Same w' ∨ (b.clearData w₁ .root).1.Same w')
      (ht : w.locks.counts.timedOut < w'.locks.counts.timedOut)
      (hsilent : w.context.options.failSilently = true) : RootRemoval b w (w', .ok true)
  /-- A child cannot be removed, or the data cannot be cleared; what came before is done. -/
  | stopped {w₁ w' : Work} {done rest : List Path} {p : Path} {e : TreeError}
      (hps : (b.view w.context).topLevel ++ [.root] = done ++ p :: rest) (h : b.Removed w done w₁)
      (hs : w₁.Same w') (ht : w.locks.counts.timedOut < w'.locks.counts.timedOut)
      (hloud : w.context.options.failSilently = false) (he : e.isTimeout = true) :
      RootRemoval b w (w', .error e)

/-- **There are no other ways.** -/
theorem removeRoot_stages (b : Base) (w : Work) : RootRemoval b w (b.removeRoot w) := by
  have hchildren : ∀ q ∈ (b.view w.context).topLevel, q ≠ Path.root := fun _ =>
    View.ne_root_of_mem_topLevel
  have heach := b.removeEach_cases w _ hchildren
  have hroot := b.removeRoot_cases w
  generalize b.removeRoot w = r at hroot
  cases hroot with
  | stopped h =>
      rw [h] at heach
      cases heach with
      | @stopped w₁ _ done rest p e hps h hs ht hloud he =>
          have hsteps :
              (b.view w.context).topLevel ++ [.root] = done ++ p :: (rest ++ [.root]) := by
            rw [hps, List.append_assoc, List.cons_append]
          exact .stopped hsteps h hs ht hloud he
  | @emptied w₂ h =>
      rw [h] at heach
      have hclear := b.granting_clearData w₂ .root
      cases hr : b.clearData w₂ .root with
      | mk w' r =>
          rw [hr] at hclear
          cases heach with
          | all h =>
              have hsilent' := congrArg Options.failSilently (h.options hchildren)
              cases hclear with
              | granted ht => exact .emptied h hr ht
              | declined hs ht hsilent =>
                  exact .passedOver (List.Sublist.refl _) h (.inl hs) (h.untroubled ▸ ht)
                    (hsilent'.symm.trans hsilent)
              | refused hs ht hloud he =>
                  exact .stopped (Eq.refl ((b.view w.context).topLevel ++ [.root])) h hs
                    (h.untroubled ▸ ht) (hsilent'.symm.trans hloud) he
          | @some w₁ _ done hd h hs ht hsilent =>
              have hsilent' := congrArg Options.failSilently
                (h.options fun q hq => hchildren q (hd.subset hq))
              rw [← hs.context, hsilent] at hsilent'
              cases hclear with
              | granted ht' =>
                  have hwrite := hs.writing b .root false () fun e => (e.clearData, ())
                  have hsame : (b.clearData w₁ .root).1.Same (b.clearData w₂ .root).1 := hwrite.same
                  rw [hr] at hsame
                  exact .passedOver hd h (.inr hsame) (ht' ▸ ht) hsilent
              | declined hs' ht' _ =>
                  exact .passedOver hd h (.inl (hs.trans hs')) (Nat.lt_trans ht ht') hsilent
              | refused _ _ hloud _ =>
                  rw [hsilent'] at hloud
                  simp at hloud

/-- Clearing the data of a node changes no other entry. -/
theorem entry?_clearData_of_ne {q : Path} (hq : q ≠ p) :
    (b.clearData w p).1.context.entry? q = w.context.entry? q := by
  simp only [clearData, writing, prepareWrite]
  have hrel := Work.relocked_lockAll w [] ((b.view w.context).writeLocks w.locks p false)
  generalize w.lockAll [] _ = r at hrel
  obtain ⟨w₁, grant⟩ := r
  have hentry : w₁.context.entry? q = w.context.entry? q :=
    congrArg (SortedMap.get? · q) hrel.workspace
  cases grant with
  | declined => exact hentry
  | refused e => exact hentry
  | granted taken =>
      have hstage : b.stageWrite w₁.context p false = .ok (b.materialize w₁.context p) := rfl
      have hkeep := Context.entry?_materialize_of_ne (b := b) (c := w₁.context) hq
      simp only
      cases hm : b.materialize w₁.context p with
      | mk c ready =>
          rw [hm] at hstage hkeep
          rw [hstage]
          cases ready with
          | false => exact hkeep.trans hentry
          | true =>
              obtain ⟨e, he⟩ := exists_entry_of_stageWrite hstage
              simp only [Work.withContext, he]
              exact (SortedMap.get?_insert_of_ne hq).trans (hkeep.trans hentry)

/-- The root whose data were cleared has none, unless a lock was refused. -/
theorem data?_clearData_root (hex : (b.view w.context).exists? Path.root = true)
    (h : b.clearData w .root = (w', .ok ())) (ht : w.Untroubled w') :
    (b.view w'.context).data? Path.root = some .empty := by
  have hclear := writing_outcome Path.root false () (fun e => (e.clearData, ())) hex
    fun e => e.edited_clearData
  have h : b.writing w .root false () (fun e => (e.clearData, ())) = (w', .ok ()) := h
  rw [h] at hclear
  cases hclear with
  | timedOut _ hlt _ => exact absurd ht (Nat.ne_of_gt hlt)
  | absent _ _ _ hnone =>
      rw [hnone] at hex
      simp at hex
  | @written _ e _ hp hentry _ _ =>
      have hc : ¬(b.view w'.context).isCutOff Path.root = true := by
        rw [View.isCutOff_iff]
        rintro ⟨q, -, hq, -⟩
        exact Path.isAbove_root hq
      rw [View.data?, View.locate_of_entry hc hentry, (e.edited_clearData).isPresent, hp]
      rfl

end Base

/-! ### Children that are overlooked -/

namespace View

variable {x x' : Workspace} {name : String}

/-- **The view overlooks the child of this name**: reads are pinned, and the listing of the root was
pinned without it. -/
structure Overlooks (v : View) (name : String) : Prop where
  /-- What is read is pinned. -/
  repeatable : v.base.isRepeatable = true
  /-- The root was read, and had no such child. -/
  pinned : ∃ e, v.workspace.get? Path.root = some e ∧ e.children.has name = false
  /-- The child was not read. -/
  unread : v.workspace.get? (Path.root.push name) = none
  /-- By now it has come to be. -/
  committed : v.base.tree.exists? (Path.root.push name) = true

theorem push_mem_topLevel {v : View} : Path.root.push name ∈ v.topLevel ↔
    ((v.childNames Path.root).getD .empty).has name = true := by
  rw [topLevel, List.mem_map]
  constructor
  · rintro ⟨m, hm, heq⟩
    obtain ⟨-, rfl⟩ := Path.push_inj.1 heq
    exact SortedSet.mem_keys.1 hm
  · exact fun h => ⟨name, SortedSet.mem_keys.2 h, rfl⟩

/-- A child of the root is there if its entry says so, and without an entry if it is committed. -/
theorem exists?_push_root (hb : b.tree.Sound) (hx : x.Tidy) :
    (View.mk b x).exists? (Path.root.push name) = true ↔
      (∃ e, x.get? (Path.root.push name) = some e ∧ e.isPresent = true) ∨
        (x.get? (Path.root.push name) = none ∧ b.tree.exists? (Path.root.push name) = true) := by
  have hs : ¬(View.mk b x).isShadowed (Path.root.push name) = true := by
    rw [Faithful.isShadowed_push, isShadowed_iff]
    rintro (⟨q, -, hq, -⟩ | ⟨e, he, hc⟩)
    · exact Path.isAbove_root hq
    · rw [(hx.root he).1] at hc
      simp at hc
  rw [Faithful.exists?_push_iff (hx.exists?_root hb), and_iff_right hs]

/-- It does not depend on anything else in the workspace. -/
theorem exists?_push_root_congr (hb : b.tree.Sound) (hx : x.Tidy) (hx' : x'.Tidy)
    (he : x'.get? (Path.root.push name) = x.get? (Path.root.push name)) :
    (View.mk b x').exists? (Path.root.push name) =
      (View.mk b x).exists? (Path.root.push name) := by
  rw [Bool.eq_iff_iff, exists?_push_root hb hx', exists?_push_root hb hx, he]

/-- The names of the children of the root, before their own entries are taken into account, are all
that are committed, unless an older listing is pinned. -/
theorem baseChildNames_root (hb : b.tree.Sound) (hx : x.Tidy)
    (hcommitted : b.tree.exists? (Path.root.push name) = true) :
    ∃ names, (View.mk b x).baseChildNames Path.root ((View.mk b x).locate Path.root) = some names ∧
      (names.has name = false ↔ b.isRepeatable = true ∧
        ∃ e, x.get? Path.root = some e ∧ e.children.has name = false) := by
  have hlisted : (b.tree.childNames Path.root).has name = true :=
    CommittedTree.mem_childNames.2 (hb.exists?_iff.1 hcommitted)
  rcases exists?_iff.1 (hx.exists?_root hb) with ⟨e, hl⟩ | ⟨n, hl⟩
  · obtain ⟨-, he, -⟩ := locate_eq_staged.1 hl
    have he : x.get? Path.root = some e := he
    rw [hl, baseChildNames, (hx.root he).1]
    by_cases hr : b.isRepeatable = true
    · refine ⟨e.children, by simp [hr], ?_⟩
      simp [hr, he]
    · exact ⟨b.tree.childNames Path.root, by simp [hr, hb.exists?_root], by simp [hr, hlisted]⟩
  · obtain ⟨-, hnone, -⟩ := locate_eq_committed.1 hl
    have hnone : x.get? Path.root = none := hnone
    rw [hl]
    exact ⟨b.tree.childNames Path.root, rfl, by simp [hnone, hlisted]⟩

/-- **What is there but not listed is overlooked**, and the other way round. -/
theorem overlooks_iff (hb : b.tree.Sound) (hx : x.Tidy) : (View.mk b x).Overlooks name ↔
    (View.mk b x).exists? (Path.root.push name) = true ∧
      Path.root.push name ∉ (View.mk b x).topLevel := by
  rw [push_mem_topLevel, childNames, childNamesAt, exists?_push_root hb hx]
  constructor
  · rintro ⟨hr, hpinned, hunread, hcommitted⟩
    have hunread : x.get? (Path.root.push name) = none := hunread
    obtain ⟨names, hnames, hhas⟩ := baseChildNames_root hb hx hcommitted
    refine ⟨.inr ⟨hunread, hcommitted⟩, ?_⟩
    rw [hnames, Option.map_some, Option.getD_some, has_overlay]
    simp [hunread, hhas.2 ⟨hr, hpinned⟩]
  · rintro ⟨⟨e, he, hp⟩ | ⟨hunread, hcommitted⟩, hmem⟩
    -- what has an entry is listed if it is there
    · refine absurd ?_ hmem
      have hroot : ((View.mk b x).childNames Path.root).isSome = true :=
        childNames_isSome.trans (hx.exists?_root hb)
      obtain ⟨names, hnames⟩ := Option.isSome_iff_exists.1 hroot
      obtain ⟨base, hbase, rfl⟩ := Option.map_eq_some_iff.1 hnames
      rw [hbase, Option.map_some, Option.getD_some, has_overlay]
      exact .inl ⟨e, he, hp⟩
    · obtain ⟨names, hnames, hhas⟩ := baseChildNames_root hb hx hcommitted
      rw [hnames, Option.map_some, Option.getD_some, has_overlay] at hmem
      have hunlisted : names.has name = false := by
        rw [← Bool.not_eq_true]
        exact fun hname => hmem (.inr ⟨hunread, hname⟩)
      obtain ⟨hr, hpinned⟩ := hhas.1 hunlisted
      exact ⟨hr, hpinned, hunread, hcommitted⟩

end View

namespace Base

/-- Clearing the data of the root leaves its children as they are. -/
theorem exists?_push_clearData (hb : b.tree.Sound) (hw : w.context.workspace.Tidy) (name : String) :
    (b.view (b.clearData w .root).1.context).exists? (Path.root.push name) =
      (b.view w.context).exists? (Path.root.push name) := by
  obtain ⟨acts, hst⟩ := staged_perform hb hw (.clearData .root)
  exact View.exists?_push_root_congr hb hw (hst.tidy hb hw)
    (entry?_clearData_of_ne Path.push_ne_root)

namespace Removed

theorem tidy (h : b.Removed w ps w') (hps : ∀ p ∈ ps, p ≠ Path.root) (hb : b.tree.Sound)
    (hw : w.context.workspace.Tidy) : w'.context.workspace.Tidy := by
  obtain ⟨⟨qs, hst⟩, -⟩ := h.outcome hps
  exact hst.tidy hb hw

/-- When all that is listed is removed, what is overlooked is left. -/
theorem exists?_push_iff (h : b.Removed w (b.view w.context).topLevel w') (hb : b.tree.Sound)
    (hw : w.context.workspace.Tidy) (name : String) :
    (b.view w'.context).exists? (Path.root.push name) = true ↔
      (b.view w.context).Overlooks name := by
  have hchildren : ∀ q ∈ (b.view w.context).topLevel, q ≠ Path.root := fun _ =>
    View.ne_root_of_mem_topLevel
  refine Iff.trans ?_ (View.overlooks_iff hb hw).symm
  by_cases hmem : Path.root.push name ∈ (b.view w.context).topLevel
  · have hgone := (h.outcome hchildren).2 _ hmem
    simp only [hgone, Bool.false_eq_true, false_iff, not_and, not_not]
    exact fun _ => hmem
  · have he : w'.context.entry? (Path.root.push name) = w.context.entry? (Path.root.push name) := by
      refine h.entry?_of_not fun p hp hbelow => ?_
      obtain ⟨m, rfl⟩ := View.mem_topLevel hp
      obtain rfl := Path.push_eq_of_isAtOrBelow hbelow (Path.isAtOrBelow_self _)
      exact hmem hp
    have hsame := View.exists?_push_root_congr hb hw (h.tidy hchildren hb hw) he
    rw [Base.view, hsame]
    exact (and_iff_left hmem).symm

/-- What is removed stays gone when the data of the root are cleared after that. -/
theorem gone_of_cleared (h : b.Removed w ps w₁) (hps : ∀ p ∈ ps, p ∈ (b.view w.context).topLevel)
    (hb : b.tree.Sound) (hw : w.context.workspace.Tidy) (hp : p ∈ ps) :
    (b.view (b.clearData w₁ .root).1.context).exists? p = false := by
  have hroot : ∀ p ∈ ps, p ≠ Path.root := fun p hp => View.ne_root_of_mem_topLevel (hps p hp)
  have hgone := (h.outcome hroot).2 p hp
  obtain ⟨n, rfl⟩ := View.mem_topLevel (hps p hp)
  rw [exists?_push_clearData hb (h.tidy hroot hb hw)]
  exact hgone

/-- **The root is emptied** when all that is listed is removed and its data are cleared, except for
what is overlooked. -/
theorem emptied (h : b.Removed w (b.view w.context).topLevel w₁)
    (hclear : b.clearData w₁ .root = (w', .ok ())) (ht : w₁.Untroubled w') (hb : b.tree.Sound)
    (hw : w.context.workspace.Tidy) : (b.view w'.context).data? Path.root = some .empty ∧
      ∀ n, (b.view w'.context).exists? (Path.root.push n) = true ↔
        (b.view w.context).Overlooks n := by
  have htidy := h.tidy (fun _ => View.ne_root_of_mem_topLevel) hb hw
  refine ⟨data?_clearData_root (htidy.exists?_root hb) hclear ht, fun n => ?_⟩
  have hleft := exists?_push_clearData hb htidy n
  rw [hclear] at hleft
  rw [hleft]
  exact h.exists?_push_iff hb hw n

end Removed

end Base

/-! ### Runs -/

/-- What comes before the place where a list is cut is not its last element. -/
theorem mem_of_append_singleton {α : Type} {l done rest : List α} {a x y : α}
    (h : l ++ [a] = done ++ x :: rest) (hy : y ∈ done) : y ∈ l := by
  rcases List.prefix_concat_iff.1 ⟨x :: rest, h.symm⟩ with hall | hbefore
  · have hlength := congrArg List.length h
    rw [hall] at hlength
    simp at hlength
  · exact List.IsPrefix.subset hbefore hy

namespace SharedTree

variable {s : SharedTree} {name : String} {c : Context}

/-- **How a removal of the root goes.**  If no lock is refused, the children that are listed are
removed, the data are cleared, and exactly the children that the view overlooks are left.  If one is
refused, the children that came before stay removed, with the locks for that: either the removal
fails there with a time-out, or it shall fail silently, passes over what is refused, and says that
the root was removed. -/
theorem root_removed_child_by_child (h : s.Reachable) (hc : s.context? name = some c) :
    let b := s.store.base
    let w : Work := ⟨s.store.locks, c⟩
    let r := s.perform name c (.removeNode .root)
    ∃ w' : Work,
      r.1 = { s with
        store := { s.store with locks := w'.locks }
        contexts := s.contexts.insert name w'.context } ∧
      (w.Untroubled w' → r.2 = .ok (.flag true) ∧
        (b.view w'.context).data? Path.root = some .empty ∧
        ∀ n, (b.view w'.context).exists? (Path.root.push n) = true ↔ (b.view c).Overlooks n) ∧
      (¬w.Untroubled w' → c.options.failSilently = false →
        ∃ (done rest : List Path) (p : Path) (w₁ : Work) (e : TreeError),
          (b.view c).topLevel ++ [.root] = done ++ p :: rest ∧
          b.Removed w done w₁ ∧ w₁.Same w' ∧
          (∀ q ∈ done, (b.view w'.context).exists? q = false) ∧
          (∀ q, (∀ p ∈ done, ¬q.isAtOrBelow p = true) → w'.context.entry? q = c.entry? q) ∧
          r.2 = .error e ∧ e.isTimeout = true) ∧
      (¬w.Untroubled w' → c.options.failSilently = true →
        r.2 = .ok (.flag true) ∧ ∃ (done : List Path) (w₁ : Work),
          done.Sublist (b.view c).topLevel ∧
          b.Removed w done w₁ ∧ (w₁.Same w' ∨ (b.clearData w₁ .root).1.Same w') ∧
          (∀ q ∈ done, (b.view w'.context).exists? q = false) ∧
          ∀ q, q ≠ Path.root → (∀ p ∈ done, ¬q.isAtOrBelow p = true) →
            w'.context.entry? q = c.entry? q) := by
  intro b w r
  have hb : b.tree.Sound := h.sane.sound
  have hw : w.context.workspace.Tidy := h.sane.tidy hc
  have hr : r = s.locking name c fun w => answering .flag (b.removeRoot w) := rfl
  have hstages := b.removeRoot_stages w
  refine ⟨(b.removeRoot w).1, by rw [hr]; rfl, ?_⟩
  have hanswer : r.2 = (b.removeRoot w).2.map .flag := by rw [hr]; rfl
  rw [hanswer]
  generalize b.removeRoot w = r' at hstages
  cases hstages with
  | @emptied w₁ w' hremoved hclear ht =>
      have hall : w.Untroubled w' := ht.trans hremoved.untroubled
      exact ⟨fun _ => ⟨rfl, hremoved.emptied hclear ht hb hw⟩, fun hnot => absurd hall hnot,
        fun hnot => absurd hall hnot⟩
  | @passedOver w₁ w' done hd hremoved hs ht hsilent =>
      have hsilent : c.options.failSilently = true := hsilent
      have hdone : ∀ q ∈ done, q ≠ Path.root := fun q hq =>
        View.ne_root_of_mem_topLevel (hd.subset hq)
      refine ⟨fun hall => absurd hall (Nat.ne_of_gt ht), fun _ hloud => ?_,
        fun _ _ => ⟨rfl, done, w₁, hd, hremoved, hs, ?_⟩⟩
      · rw [hsilent] at hloud
        simp at hloud
      · rcases hs with hs | hs
        · rw [hs.context]
          exact ⟨(hremoved.outcome hdone).2, fun q _ => hremoved.entry?_of_not⟩
        · rw [hs.context]
          exact ⟨fun q => hremoved.gone_of_cleared (fun q hq => hd.subset hq) hb hw,
            fun q hq hnot =>
              (Base.entry?_clearData_of_ne hq).trans (hremoved.entry?_of_not hnot)⟩
  | @stopped w₁ w' done rest p e hps hremoved hs ht hloud he =>
      have hloud : c.options.failSilently = false := hloud
      have hdone : ∀ q ∈ done, q ≠ Path.root := fun q hq =>
        View.ne_root_of_mem_topLevel (mem_of_append_singleton hps hq)
      refine ⟨fun hall => absurd hall (Nat.ne_of_gt ht), fun _ _ => ⟨done, rest, p, w₁, e, hps,
        hremoved, hs, ?_, ?_, rfl, he⟩, fun _ hsilent => ?_⟩
      · rw [hs.context]
        exact (hremoved.outcome hdone).2
      · rw [hs.context]
        exact fun q => hremoved.entry?_of_not
      · rw [hsilent] at hloud
        simp at hloud

/-- One transaction has made `/a` and `/b` and has locked `/b` again, to change it. -/
def halfwaySteps : List Step :=
  [.start "s" ⟨"main", 0⟩ (some (1 : Nat)), .start "t" ⟨"main", 0⟩ (some (2 : Nat)),
    .perform "s" (.put ⟨["a"]⟩ "k" (.int 1)), .perform "s" (.put ⟨["b"]⟩ "k" (.int 1)),
    .commit "s", .perform "s" (.put ⟨["b"]⟩ "k" (.int 2))]

/-- The state in which another transaction is to remove the root. -/
def halfwayState : SharedTree := (ofConfig {}).run halfwaySteps

/-- The other transaction. -/
def halfwayContext : Context := (halfwayState.context? "t").getD default

/-- What comes of the removal. -/
def halfwayRemoval : SharedTree × Except TreeError Answer :=
  halfwayState.perform "t" halfwayContext (.removeNode .root)

theorem reachable_halfwayState : halfwayState.Reachable :=
  ⟨{}, _, halfwaySteps, rfl⟩

theorem context?_halfwayState : halfwayState.context? "t" = some halfwayContext := by
  decide +kernel

/-- The removal fails when `/b` is locked; `/a` is gone by then. -/
theorem removal_stopped_halfway :
    ∃ (done rest : List Path) (p : Path) (c' : Context) (e : TreeError),
      [⟨["a"]⟩, ⟨["b"]⟩, Path.root] = done ++ p :: rest ∧
      halfwayRemoval.1.context? "t" = some c' ∧ c'.holds ⟨["a"]⟩ = true ∧
      (∀ q ∈ done, (halfwayState.store.base.view c').exists? q = false) ∧
      halfwayRemoval.2 = .error e ∧ e.isTimeout = true := by
  obtain ⟨w', hstate, -, hloud, -⟩ :=
    root_removed_child_by_child reachable_halfwayState context?_halfwayState
  have hstate : halfwayRemoval.1 = _ := hstate
  have hlocks : halfwayRemoval.1.store.locks = w'.locks := by rw [hstate]
  have hcontext : halfwayRemoval.1.context? "t" = some w'.context := by
    rw [hstate]
    exact SortedMap.get?_insert_self
  have hrefused : halfwayRemoval.1.store.locks.counts.timedOut ≠
      halfwayState.store.locks.counts.timedOut := by decide +kernel
  have hheld : (halfwayRemoval.1.context? "t").any (·.holds ⟨["a"]⟩) = true := by decide +kernel
  rw [hcontext, Option.any_some] at hheld
  obtain ⟨done, rest, p, w₁, e, hps, -, -, hgone, -, hanswer, he⟩ :=
    hloud (fun ht => hrefused (by rw [hlocks]; exact ht)) (by decide +kernel)
  have hsteps : (halfwayState.store.base.view halfwayContext).topLevel ++ [Path.root] =
      [⟨["a"]⟩, ⟨["b"]⟩, Path.root] := by decide +kernel
  exact ⟨done, rest, p, w'.context, e, hsteps.symm.trans hps, hcontext, hheld, hgone, hanswer, he⟩

/-- A removal of the root for which a lock is refused may leave a trace. -/
theorem not_root_removed_as_unit :
    ¬∀ (s : SharedTree) (name : String) (c : Context), s.Reachable → s.context? name = some c →
      let r := s.perform name c (.removeNode .root)
      s.store.locks.counts.timedOut < r.1.store.locks.counts.timedOut →
      r.1 = { s with store := { s.store with
        locks := { s.store.locks with counts := r.1.store.locks.counts } } } := by
  intro h
  have hsame := h halfwayState "t" halfwayContext reachable_halfwayState context?_halfwayState
    (by decide +kernel)
  have hheld : (halfwayRemoval.1.context? "t").any (·.holds ⟨["a"]⟩) = true := by decide +kernel
  have hfree : halfwayContext.holds ⟨["a"]⟩ = false := by decide +kernel
  have hcontext : halfwayRemoval.1.context? "t" = some halfwayContext := by
    rw [halfwayRemoval, hsame]
    exact context?_halfwayState
  rw [hcontext, Option.any_some, hfree] at hheld
  simp at hheld

end SharedTree

end TransactionalTree
