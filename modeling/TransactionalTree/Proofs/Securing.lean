/-
**Operations lock what they stage.**

A unit of work that never skips locking holds the lock of every node of which it has an entry, and
what it makes, removes or hides is guarded, if parents are locked, subtrees are moved deeply, and
reads are not pinned.  Each operation keeps that.

Main definitions:

* `Work.Secured` — **the locks are held for all that is staged**;
* `Operation.isDeep` — the operation is not a shallow move.

Main results:

* `Work.Secured.staged` — steps whose locks are held keep what is secured;
* `Work.Secured.perform` — **every operation that is deep does**.
-/

import TransactionalTree.Proofs.Guarding
import TransactionalTree.Proofs.Holding

set_option relaxedAutoImplicit false
set_option autoImplicit false

namespace TransactionalTree

variable {b : Base} {u u' : Work} {c : Context} {p q source parent : Path} {acts : List Act}

/-! ### Granted locks -/

namespace Work

/-- When locks are granted, those that were held before still are, and so are those that were asked
for. -/
theorem keeps_of_granted {taken all ps : List Path}
    (h : (u.lockAll taken ps).2 = .granted all) (hp : u.context.holds p = true) :
    (u.lockAll taken ps).1.context.holds p = true := by
  simp only [lockAll] at h ⊢
  split at h
  · rename_i hskip
    rw [if_pos hskip]
    exact hp
  · rename_i hskip
    rw [if_neg hskip]
    have hok := ((Holding.refl u).acquireFrom ps).1
    rw [acquireAll] at h ⊢
    generalize u.acquireFrom [] ps = r at hok h
    obtain ⟨u', r⟩ := r
    cases r with
    | ok new => exact (hok new rfl).2.1 p hp
    | error e =>
        simp only at h
        split at h <;> simp at h

end Work

namespace Base

/-- Locking and looking for a node has locked what was asked for. -/
theorem lockAndFind_granted {taken all ps : List Path}
    (hskip : u.context.options.skipLocking = false)
    (h : (b.lockAndFind u taken ps p).2 = .granted all) :
    (∀ q, u.context.holds q = true → (b.lockAndFind u taken ps p).1.context.holds q = true) ∧
      ∀ q ∈ ps, (b.lockAndFind u taken ps p).1.context.holds q = true := by
  have hkeeps : ∀ new, (u.lockAll taken ps).2 = .granted new →
      ∀ q, u.context.holds q = true → (u.lockAll taken ps).1.context.holds q = true :=
    fun new hnew q => Work.keeps_of_granted hnew
  have hnew : ∀ new, (u.lockAll taken ps).2 = .granted new →
      ∀ q ∈ ps, (u.lockAll taken ps).1.context.holds q = true :=
    fun new hnew q => Work.holds_of_granted hskip hnew
  simp only [lockAndFind] at h ⊢
  generalize u.lockAll taken ps = r at h hkeeps hnew
  obtain ⟨u', grant⟩ := r
  cases grant with
  | declined => simp at h
  | refused e => simp at h
  | granted new =>
      simp only at h ⊢
      split at h
      · rename_i hex
        rw [if_pos hex]
        exact ⟨hkeeps new rfl, hnew new rfl⟩
      · simp at h

/-- **A move has locked all that it asks for.** -/
theorem lockMove_granted {target : Path} {deep : Bool} {all : List Path}
    (hskip : u.context.options.skipLocking = false)
    (h : (b.lockMove u source parent target deep).2 = .granted all) :
    ∀ q ∈ u.locks.parentLock source ++ [source] ++ [parent] ++
        (b.view u.context).moveLocks source target deep,
      (b.lockMove u source parent target deep).1.context.holds q = true := by
  have h₁ : ∀ new, (b.lockAndFind u [] (u.locks.parentLock source ++ [source]) source).2 =
      .granted new → _ := fun _ => lockAndFind_granted hskip
  have hrel₁ := (lockAndFind_cases b u [] (u.locks.parentLock source ++ [source]) source).1
  simp only [lockMove] at h ⊢
  generalize b.lockAndFind u [] (u.locks.parentLock source ++ [source]) source = r₁ at h h₁ hrel₁
  obtain ⟨u₁, grant₁⟩ := r₁
  cases grant₁ with
  | declined => simp at h
  | refused e => simp at h
  | granted taken₁ =>
      have hskip₁ : u₁.context.options.skipLocking = false := by
        rw [hrel₁.options]
        exact hskip
      have h₂ : ∀ new, (b.lockAndFind u₁ taken₁ [parent] parent).2 = .granted new → _ :=
        fun _ => lockAndFind_granted hskip₁
      have hrel₂ := (lockAndFind_cases b u₁ taken₁ [parent] parent).1
      simp only at h ⊢
      generalize b.lockAndFind u₁ taken₁ [parent] parent = r₂ at h h₂ hrel₂
      obtain ⟨u₂, grant₂⟩ := r₂
      cases grant₂ with
      | declined => simp at h
      | refused e => simp at h
      | granted taken₂ =>
          have hskip₂ : u₂.context.options.skipLocking = false := by
            rw [hrel₂.options]
            exact hskip₁
          rw [← (hrel₁.trans hrel₂).view b]
          simp only at h ⊢
          intro q hq
          rcases List.mem_append.1 hq with hq | hq
          · refine Work.keeps_of_granted h ?_
            rcases List.mem_append.1 hq with hq | hq
            · exact (h₂ taken₂ rfl).1 q ((h₁ taken₁ rfl).2 q hq)
            · exact (h₂ taken₂ rfl).2 q hq
          · exact Work.holds_of_granted hskip₂ h hq

end Base

/-! ### What is secured -/

/-- An entry comes to one place only when it is set. -/
theorem Context.touches_setEntry (c : Context) (p : Path) (e : Entry) :
    c.Touches (c.setEntry p e) [p] := by
  intro q hq hnone
  exact (SortedMap.get?_insert_of_ne fun hqp => hq (List.mem_singleton.2 hqp)).trans hnone

/-- **The locks are held for all that is staged.** -/
structure Work.Secured (b : Base) (u : Work) : Prop where
  /-- Parents are locked with the nodes that are inserted and removed. -/
  lockParent : u.locks.lockParent = true
  /-- Locking is not skipped. -/
  skipLocking : u.context.options.skipLocking = false
  /-- The tree has not changed where it matters. -/
  faithful : Faithful b u.context.workspace
  /-- Where there is an entry the lock is held. -/
  covered : ∀ {p : Path} {e : Entry}, u.context.entry? p = some e → u.context.holds p = true
  /-- What is made, removed or hidden is locked. -/
  guarded : Guarded b u.context u.context.workspace

namespace Work.Secured

theorem exists?_root (h : u.Secured b) : (b.view u.context).exists? Path.root = true :=
  h.faithful.tidy.exists?_root h.faithful.sound

/-- Taking more locks keeps what is secured. -/
theorem relocked (h : u.Secured b) (hrel : u.Relocked u')
    (hkeeps : ∀ q, u.context.holds q = true → u'.context.holds q = true) : u'.Secured b where
  lockParent := hrel.lockParent.trans h.lockParent
  skipLocking := by
    rw [hrel.options]
    exact h.skipLocking
  faithful := by
    rw [hrel.workspace]
    exact h.faithful
  covered {p e} he := by
    rw [Context.entry?, hrel.workspace] at he
    exact hkeeps p (h.covered he)
  guarded := by
    rw [hrel.workspace]
    exact h.guarded.mono hkeeps

/-- **Steps whose locks are held keep what is secured**, if they make nodes only where there are
none and if the places of new entries are locked. -/
theorem withContext {ps : List Path} (h : u.Secured b)
    (hst : Context.Staged b u.context acts c) (hfits : (b.view u.context).plain.Fits acts)
    (hlocks : ∀ a ∈ acts, a.IsLocked (b.view u.context) u.context)
    (htouch : u.context.Touches c ps) (hps : ∀ q ∈ ps, u.context.holds q = true) :
    (u.withContext c).Secured b := by
  have hholds : ∀ q, c.holds q = u.context.holds q := Context.Restaged.holds hst.same
  constructor
  · exact h.lockParent
  · rw [Work.withContext, hst.same]
    exact h.skipLocking
  · exact (h.faithful.shows.stages hst.stages hfits).faithful
  · intro q e he
    have he : c.entry? q = some e := he
    refine (hholds q).trans ?_
    by_cases hq : q ∈ ps
    · exact hps q hq
    · cases hbefore : u.context.entry? q with
      | some g => exact h.covered hbefore
      | none =>
          rw [htouch q hq hbefore] at he
          simp at he
  · exact (h.guarded.stages h.faithful hst.stages hfits hlocks).mono fun q hq =>
      (hholds q).trans hq

/-- Asking for locks keeps what is secured, and those that are granted are held. -/
theorem lockAll (h : u.Secured b) (ps : List Path) : (u.lockAll [] ps).1.Secured b ∧
    ∀ all, (u.lockAll [] ps).2 = .granted all →
      ∀ q ∈ ps, (u.lockAll [] ps).1.context.holds q = true :=
  ⟨h.relocked (Work.relocked_lockAll u [] ps) ((Work.Holding.refl u).lockAll ps).keeps,
    fun _ hall _ hq => Work.holds_of_granted h.skipLocking hall hq⟩

/-! ### Operations -/

section Operations

variable (h : u.Secured b)
include h

/-- A read that is not pinned needs no lock, or has it. -/
theorem prepareRead (hread : b.isRepeatable = false) (p : Path) :
    (b.prepareRead u p).1.Secured b := by
  have hlook : ∀ u' : Work, (b.look u' p).1 = u' := by
    intro u'
    simp [Base.look, hread]
  simp only [Base.prepareRead]
  split
  · obtain ⟨h₁, hgranted⟩ := h.lockAll [p]
    generalize u.lockAll [] [p] = r at h₁ hgranted
    obtain ⟨u₁, grant⟩ := r
    cases grant with
    | declined => exact h₁
    | refused e => exact h₁
    | granted taken =>
        simp only [hlook]
        have hst : Context.Staged b u₁.context [] (b.materialize u₁.context p).1 := by
          rcases Context.materialize_cases b u₁.context p with ⟨-, -, hst, -⟩ | ⟨-, hm⟩
          · exact hst
          · rw [hm]
            exact .refl _
        exact h₁.withContext hst trivial (by simp) (Context.touches_materialize b u₁.context p)
          (hgranted taken rfl)
  · exact (hlook u).symm ▸ h

theorem reading {α : Type} (hread : b.isRepeatable = false) (p : Path)
    (answer : View → Location → α) : (b.reading u p answer).1.Secured b := by
  have hp := h.prepareRead hread p
  simp only [Base.reading]
  generalize b.prepareRead u p = r at hp
  obtain ⟨u₁, r⟩ := r
  cases r with
  | error e => exact hp
  | ok l => exact hp

/-- A write locks the nodes that it makes, with their parents, and the node that it changes. -/
theorem writing {α : Type} (p : Path) (create : Bool) (idle : α) (change : Entry → Entry × α)
    (hed : ∀ e : Entry, e.Edited (change e).1) :
    (b.writing u p create idle change).1.Secured b := by
  simp only [Base.writing, Base.prepareWrite]
  have hrel := Work.relocked_lockAll u [] ((b.view u.context).writeLocks u.locks p create)
  have hhold :=
    (Work.Holding.refl u).lockAll ((b.view u.context).writeLocks u.locks p create)
  obtain ⟨h₁, hgranted⟩ := h.lockAll ((b.view u.context).writeLocks u.locks p create)
  generalize u.lockAll [] ((b.view u.context).writeLocks u.locks p create) = r
    at hrel hhold h₁ hgranted
  obtain ⟨u₁, grant⟩ := r
  cases grant with
  | declined => exact h₁
  | refused e => exact h₁
  | granted taken =>
      have hheld := hgranted taken rfl
      rw [← hrel.view b] at hheld
      simp only
      cases hs : b.stageWrite u₁.context p create with
      | error e =>
          exact h.relocked (hrel.trans (Work.relocked_releasePartial _ _))
            hhold.releasePartial.keeps
      | ok r =>
          obtain ⟨c, ready⟩ := r
          obtain ⟨hst, hcase⟩ := Context.staged_stageWrite h₁.exists?_root hs
          have hc : (u₁.withContext c).Secured b := by
            refine h₁.withContext hst (h₁.faithful.shows.fits_toMake create) (fun a ha => ?_)
              (Context.touches_stageWrite h₁.exists?_root hs)
              fun q hq => hheld q (View.mem_writeLocks_of_mem h₁.exists?_root hq)
            obtain ⟨q, hq, rfl⟩ := List.mem_map.1 ha
            exact View.isLocked_toMake h₁.exists?_root h.lockParent hheld hq
          rcases hcase with ⟨rfl, -⟩ | ⟨rfl, e, he, -⟩
          · exact hc
          · have hget : c.entry? p = some e := (View.locate_eq_staged.1 he).2.1
            have hset : Context.Staged b c [.write p (change e).1.data]
                (c.setEntry p (change e).1) := .setEntry (.of_stage (.write he (hed e)))
            have hwritten : ((u₁.withContext c).withContext
                (c.setEntry p (change e).1)).Secured b :=
              hc.withContext hset ⟨by simp, trivial⟩ (by simp [Act.IsLocked])
                (Context.touches_setEntry c p _) (by simpa using hc.covered hget)
            simp only [Work.withContext, hget]
            exact hwritten

/-- A removal locks the parent and all that is seen below. -/
theorem removeBelowRoot (hp : p ≠ Path.root) : (b.removeBelowRoot u p).1.Secured b := by
  simp only [Base.removeBelowRoot]
  have hrel := Work.relocked_lockAll u [] ((b.view u.context).removalLocks u.locks p)
  obtain ⟨h₁, hgranted⟩ := h.lockAll ((b.view u.context).removalLocks u.locks p)
  generalize u.lockAll [] ((b.view u.context).removalLocks u.locks p) = r at hrel h₁ hgranted
  obtain ⟨u₁, grant⟩ := r
  cases grant with
  | declined => exact h₁
  | refused e => exact h₁
  | granted taken =>
      have hheld := hgranted taken rfl
      rw [← hrel.view b] at hheld
      simp only
      rcases Context.stageRemoval_cases (b := b) u₁.context hp with ⟨-, -, hst⟩ | ⟨-, hm⟩
      · refine h₁.withContext hst (PlainTree.fits_of_no_create fun q => by simp) (fun a ha => ?_)
          (Context.touches_stageRemoval b u₁.context p) fun q hq => hheld q ?_
        · rw [List.mem_singleton.1 ha]
          exact View.isLocked_remove h₁.faithful h.lockParent hheld
        · rw [List.mem_singleton.1 hq]
          simp [View.removalLocks]
      · rw [hm]
        exact h₁

end Operations

theorem removeEach (h : u.Secured b) (ps : List Path) (hps : ∀ p ∈ ps, p ≠ Path.root) :
    (b.removeEach u ps).1.Secured b := by
  induction ps generalizing u with
  | nil => exact h
  | cons p ps ih =>
      have hfirst := h.removeBelowRoot (hps p List.mem_cons_self)
      simp only [Base.removeEach]
      generalize b.removeBelowRoot u p = r at hfirst
      obtain ⟨u₁, r⟩ := r
      cases r with
      | error e => exact hfirst
      | ok _ => exact ih hfirst fun q hq => hps q (List.mem_cons_of_mem _ hq)

theorem removeNode (h : u.Secured b) (p : Path) : (b.removeNode u p).1.Secured b := by
  simp only [Base.removeNode]
  split
  · have hchildren := h.removeEach (b.view u.context).topLevel fun _ =>
      View.ne_root_of_mem_topLevel
    have hall := Base.removeRoot_cases b u
    generalize b.removeRoot u = r at hall
    cases hall with
    | stopped hall =>
        rw [hall] at hchildren
        exact hchildren
    | emptied hall =>
        rw [hall] at hchildren
        exact hchildren.writing .root false () _ fun e => e.edited_clearData
  · rename_i hp
    exact h.removeBelowRoot fun he => hp (Path.isRoot_iff.2 he)

/-- A deep move locks all that it removes and makes, at its old and at its new place. -/
theorem moveNode (h : u.Secured b) (source parent : Path) :
    (b.moveNode u source parent true).1.Secured b := by
  simp only [Base.moveNode]
  split
  · exact h
  · exact h
  · rename_i target hplan
    obtain ⟨hsource, ⟨name, -, rfl⟩, hbelow, -⟩ := Base.planMove_moveTo hplan
    obtain ⟨hrel, hcase⟩ := Base.lockMove_cases b u source parent (parent.push name) true
    have hhold := Base.holding_lockMove b u source parent (parent.push name) true
    have hgranted : ∀ all, (b.lockMove u source parent (parent.push name) true).2 =
        .granted all → _ := fun all => Base.lockMove_granted h.skipLocking
    generalize b.lockMove u source parent (parent.push name) true = r
      at hrel hcase hhold hgranted
    obtain ⟨u₁, grant⟩ := r
    have h₁ : u₁.Secured b := h.relocked hrel hhold.keeps
    cases grant with
    | declined => exact h₁
    | refused e => exact h₁
    | granted taken =>
        have hheld := hgranted taken rfl
        rw [← hrel.view b] at hheld hcase
        simp only
        cases hm : b.stageMove u₁.context source (parent.push name) with
        | error e =>
            exact h.relocked (hrel.trans (Work.relocked_releasePartial _ _))
              hhold.releasePartial.keeps
        | ok c =>
            have hex : (b.view u₁.context).exists? source = true ∧
                (b.view u₁.context).exists? parent = true := by
              rcases hcase with ⟨_, -, -, hex⟩ | ⟨hgrant, -⟩ | ⟨-, ⟨hgrant, -⟩ | ⟨hgrant, -⟩⟩
              · exact hex
              · simp at hgrant
              · simp at hgrant
              · simp at hgrant
            have hfrom : u₁.context.holds source = true := hheld source (by simp)
            have hmoved : ∀ q ∈ (b.view u₁.context).moveLocks source (parent.push name) true,
                u₁.context.holds q = true := fun q hq => hheld q (List.mem_append_right _ hq)
            refine h₁.withContext
              (Context.staged_stageMove hsource hex.1 hex.2 hbelow hm)
              (h₁.faithful.shows.fits_movingActs hex.1)
              (View.isLocked_movingActs h₁.faithful hex.1
                (fun r n hr => hheld r ?_) hfrom (hheld parent (by simp)) hmoved)
              (Context.touches_stageMove hm) fun q hq => ?_
            · subst hr
              simp [View.mem_parentLock h.lockParent]
            · simp only [List.mem_append, List.mem_singleton] at hq
              rcases hq with (rfl | hq) | rfl
              · exact hmoved _ (by simp [View.moveLocks])
              · exact hmoved q (View.mem_moveLocks_of_mem hex.1 hq)
              · exact hfrom

end Work.Secured

/-- The operation is not a shallow move. -/
def Operation.isDeep : Operation → Bool
  | moveNode _ _ deep => deep
  | _ => true

/-- **Every operation keeps what is secured**, unless reads are pinned or the operation is a shallow
move. -/
theorem Work.Secured.perform {o : Operation} (h : u.Secured b) (hread : b.isRepeatable = false)
    (ho : o.isDeep = true) : (b.perform u o).1.Secured b := by
  have hp := Base.perform_outcome b u o
  generalize b.perform u o = r at hp
  cases hp with
  | @reading _ _ p _ _ answer _ => exact h.reading hread p answer
  | @writing _ _ p create _ _ idle change hed _ _ _ => exact h.writing p create idle change hed
  | removal p => exact h.removeNode p
  | move source parent deep =>
      obtain rfl : deep = true := ho
      exact h.moveNode source parent

end TransactionalTree
