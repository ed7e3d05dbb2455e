/-
**Operations that fail leave no trace.**

An operation may ask for locks several times, and it can fail each time and also afterwards.  It
then gives back, from the last to the first, exactly what it has taken itself; locks that were held
before are neither taken again nor given back, also when several paths share a lock.  So a failed
operation leaves everything as it was, but for the counts of locks that were taken, released and
refused.

Main definitions:

* `Work.Same` — two works that differ at most in the counts of locks;
* `Work.Undoable` — **giving back the listed paths leads back to the first work**;
* `Work.Asking` — what has come of asking for locks;
* `Work.Failed` — an operation has failed, or a lock was not free for it;
* `Work.Traceless` — if that is so, nothing has changed;
* `Operation.neutral` — what an operation answers that does nothing.

Main results:

* `Work.Undoable.lockAll` — locks that were asked for can be given back;
* `Base.traceless_perform` — no operation that fails leaves a trace;
* `SharedTree.failure_leaves_no_trace` — **the state after a failed operation is the state before
  it**.
-/

import TransactionalTree.Proofs.Holding

set_option relaxedAutoImplicit false
set_option autoImplicit false

namespace TransactionalTree

/-! ### One lock -/

/-- A lock that was taken is released to what it was. -/
theorem Lock.release?_take? {l : Lock} {o : Owner} {h : Hold} (ht : l.take? o = some h) :
    Lock.release? (some h) o = some l := by
  cases l with
  | none =>
      obtain rfl := by simpa [take?] using ht
      simp [release?]
  | some g =>
      simp only [take?] at ht
      split at ht
      · rename_i hg
        obtain rfl := by simpa using ht
        subst hg
        simp [release?]
      · simp at ht

/-- In the table, too, releasing a lock undoes taking it. -/
theorem LockTable.release?_acquire? {t t' : LockTable} {p : Path} {o : Owner}
    (h : t.acquire? p o = some t') : t'.release? p o = some t := by
  obtain ⟨hold, ht, rfl⟩ := Option.map_eq_some_iff.1 h
  have hlock : LockTable.lockOf { t with holds := t.holds.insert (t.keyOf p) hold } p =
      some hold := SortedMap.get?_insert_self
  rw [release?, hlock, Lock.release?_take? ht, Option.map_some]
  cases hl : t.lockOf p with
  | none => exact congrArg (fun m => some { t with holds := m }) (SortedMap.erase_insert hl)
  | some g =>
      have hback : (t.holds.insert (t.keyOf p) hold).insert (t.keyOf p) g = t.holds := by
        rw [SortedMap.insert_insert]
        exact SortedMap.insert_eq_self hl
      exact congrArg (fun m => some { t with holds := m }) hback

/-- Forgetting a path that was not noted before undoes noting it. -/
theorem Context.forget_record {c : Context} {p : Path} (h : c.holds p = false) :
    (c.record p).forget p = c := by
  have hsame : SortedMap.erase (c.locked.add p) p = c.locked :=
    SortedMap.erase_insert (SortedMap.contains_eq_false.1 h)
  rw [forget, record, hsame]

namespace Work

variable {w w' w'' : Work} {p : Path} {ps qs taken : List Path}

/-! ### The same work -/

/-- The two works differ at most in the counts of locks. -/
structure Same (w w' : Work) : Prop where
  /-- The units of work are the same, with their locked paths, entries and moves. -/
  context : w'.context = w.context
  /-- Each lock is held by the same owner and as often. -/
  locks : w'.locks = { w.locks with counts := w'.locks.counts }

namespace Same

theorem refl (w : Work) : w.Same w := ⟨rfl, rfl⟩

theorem trans (h : w.Same w') (h' : w'.Same w'') : w.Same w'' where
  context := h'.context.trans h.context
  locks := by rw [h'.locks, h.locks]

/-- Giving back a path does not depend on the counts. -/
theorem release (h : w.Same w') (p : Path) : (w.release p).1.Same (w'.release p).1 := by
  obtain ⟨m, c⟩ := w
  obtain ⟨m', c'⟩ := w'
  obtain ⟨hc, hm⟩ := h
  simp only at hc hm
  rw [hc, hm]
  simp only [Work.release, LockManager.releaseFor]
  cases m.table.release? p c.owner with
  | none => exact ⟨rfl, rfl⟩
  | some t => exact ⟨rfl, rfl⟩

theorem releasePartial (h : w.Same w') (ps : List Path) :
    (w.releasePartial ps).Same (w'.releasePartial ps) := by
  induction ps with
  | nil => exact h
  | cons p ps ih => exact ih.release p

end Same

/-- Locking one path changes nothing, or can be undone. -/
theorem acquire_undoes (w : Work) (p : Path) :
    w.acquire p = (w, .ok false) ∨
    (∃ w', w.acquire p = (w', .ok true) ∧ w.Same (w'.release p).1 ∧ w.Untroubled w') ∨
    (∃ w' e, w.acquire p = (w', .error e) ∧ w.Same w') := by
  obtain ⟨m, c⟩ := w
  simp only [acquire]
  split
  · exact .inl rfl
  · rename_i hp
    split
    · rename_i t ht
      refine .inr (.inl ⟨_, rfl, ?_, rfl⟩)
      have howner : (c.record p).owner = c.owner := rfl
      simp only [release, LockManager.releaseFor, howner, LockTable.release?_acquire? ht,
        Context.forget_record (Bool.eq_false_iff.2 hp)]
      exact ⟨rfl, rfl⟩
    · exact .inr (.inr ⟨_, _, rfl, rfl, rfl⟩)

/-! ### Giving back what was taken -/

theorem releasePartial_append (w : Work) (ps qs : List Path) :
    w.releasePartial (ps ++ qs) = (w.releasePartial qs).releasePartial ps :=
  List.foldr_append

/-- The second work comes from the first by taking the listed paths, whose locks were free: **giving
them back leads back to the first**. -/
structure Undoable (w w' : Work) (taken : List Path) : Prop where
  /-- Nothing else has changed. -/
  back : w.Same (w'.releasePartial taken)
  /-- No time-out was counted. -/
  untroubled : w.Untroubled w'

/-- What has come of asking for locks. -/
inductive Asking (w : Work) : Work × Grant → Prop
  /-- All are held, and what was taken can be given back. -/
  | granted {w' : Work} {taken : List Path} (h : w.Undoable w' taken) :
      Asking w (w', .granted taken)
  /-- One was not free, and the operation shall fail silently. -/
  | declined {w' : Work} (h : w.Same w') (hs : w.context.options.failSilently = true) :
      Asking w (w', .declined)
  /-- The operation fails. -/
  | refused {w' : Work} {e : TreeError} (h : w.Same w') : Asking w (w', .refused e)

namespace Undoable

theorem refl (w : Work) : w.Undoable w [] := ⟨.refl w, rfl⟩

/-- What was taken last is given back first. -/
theorem trans (h : w.Undoable w' ps) (h' : w'.Undoable w'' qs) : w.Undoable w'' (ps ++ qs) where
  back := by
    rw [releasePartial_append]
    exact h.back.trans (h'.back.releasePartial ps)
  untroubled := h'.untroubled.trans h.untroubled

/-- Only locks are taken. -/
theorem options (h : w.Undoable w' taken) : w'.context.options = w.context.options := by
  rw [← h.back.context]
  exact (relocked_releasePartial w' taken).options.symm

/-- Locking a list can be undone, and if it fails it has been undone. -/
theorem acquireFrom (h : w.Undoable w' taken) (ps : List Path) :
    (∃ w₁ all, w'.acquireFrom taken ps = (w₁, .ok all) ∧ w.Undoable w₁ all) ∨
    (∃ w₁ e, w'.acquireFrom taken ps = (w₁, .error e) ∧ w.Same w₁) := by
  induction ps generalizing w' taken with
  | nil => exact .inl ⟨w', taken, rfl, h⟩
  | cons p ps ih =>
      simp only [Work.acquireFrom]
      rcases acquire_undoes w' p with ha | ⟨w₁, ha, hback, ht⟩ | ⟨w₁, e, ha, hsame⟩
      · rw [ha]
        exact ih h
      · rw [ha]
        have hone : Undoable w' w₁ [p] := ⟨hback, ht⟩
        exact ih (h.trans hone)
      -- refused: what was taken so far is given back
      · rw [ha]
        exact .inr ⟨_, e, rfl, h.back.trans (hsame.releasePartial taken)⟩

/-- **Locks that were asked for can be given back**, and if one was not free they have been. -/
theorem lockAll (h : w.Undoable w' taken) (ps : List Path) : w.Asking (w'.lockAll taken ps) := by
  simp only [Work.lockAll, acquireAll]
  split
  · exact .granted h
  · rcases (refl w').acquireFrom ps with ⟨w₁, new, hok, hundo⟩ | ⟨w₁, e, herr, hsame⟩
    · rw [hok]
      exact .granted (h.trans hundo)
    · have hback := h.back.trans (hsame.releasePartial taken)
      rw [herr]
      simp only
      split
      · rename_i hs
        rw [hsame.context, h.options, Bool.and_eq_true] at hs
        exact .declined hback hs.2
      · exact .refused hback

end Undoable

/-! ### Failing without a trace -/

/-- The operation has failed, or a lock was not free for it. -/
def Failed {α : Type} (w : Work) (r : Work × Except TreeError α) : Prop :=
  (∃ e, r.2 = .error e) ∨ w.locks.counts.timedOut < r.1.locks.counts.timedOut

/-- **If the operation has failed, nothing has changed**; and if it answers although a lock was not
free, then because it shall fail silently, and with `idle`. -/
structure Traceless {α : Type} (w : Work) (idle : α) (r : Work × Except TreeError α) : Prop where
  /-- Nothing has changed but the counts of locks. -/
  same : w.Failed r → w.Same r.1
  /-- The answer is that of an operation that does nothing. -/
  silent : w.Failed r → ∀ a, r.2 = .ok a → w.context.options.failSilently = true ∧ a = idle

namespace Traceless

variable {α : Type} {idle a : α} {e : TreeError}

/-- An operation for which all locks were free, and that answers, has not failed. -/
theorem of_untroubled (ht : w.Untroubled w') : w.Traceless idle (w', .ok a) := by
  have hnot : ¬w.Failed (w', .ok a) := by
    rintro (⟨e, he⟩ | hlt)
    · simp at he
    · exact Nat.lt_irrefl _ (ht ▸ hlt)
  exact ⟨fun h => absurd h hnot, fun h => absurd h hnot⟩

theorem of_error (h : w.Same w') : w.Traceless idle (w', .error e) where
  same _ := h
  silent := by
    intro _ a ha
    simp at ha

theorem of_idle (h : w.Same w') (hs : w.context.options.failSilently = true) :
    w.Traceless idle (w', .ok idle) where
  same _ := h
  silent := by
    intro _ a ha
    exact ⟨hs, (Except.ok.inj ha).symm⟩

/-- The answer may be put in other words. -/
theorem answering {r : Work × Except TreeError α} (h : w.Traceless idle r) (make : α → Answer) :
    w.Traceless (make idle) (answering make r) := by
  obtain ⟨w', r⟩ := r
  cases r with
  | error e => exact of_error (h.same (.inl ⟨e, rfl⟩))
  | ok a =>
      have hfailed : ∀ {β : Type} {b : β}, w.Failed (w', .ok b) → w.Failed (w', .ok a) := by
        rintro β b (⟨e, he⟩ | hlt)
        · simp at he
        · exact .inr hlt
      constructor
      · intro hf
        exact h.same (hfailed hf)
      · intro hf b hb
        obtain ⟨hs, rfl⟩ := h.silent (hfailed hf) a rfl
        exact ⟨hs, (Except.ok.inj hb).symm⟩

end Traceless

end Work

/-! ### Operations -/

/-- What an operation answers that does nothing because a lock was not free. -/
def Operation.neutral : Operation → Answer
  | get _ _ => .value none
  | getData _ => .data none
  | getKeys _ => .names none
  | getChildNames _ => .names none
  | nodeExists _ => .flag false
  | put _ _ _ => .value none
  | putAll _ _ => .done
  | replaceAll _ _ => .done
  | removeKey _ _ => .value none
  | clearData _ => .done
  | removeNode _ => .flag false
  | moveNode _ _ _ => .place none

namespace Base

variable {b : Base} {w w' : Work} {p source : Path} {taken : List Path}

theorem traceless_reading {α : Type} (b : Base) (w : Work) (p : Path)
    (answer : View → Location → α) (idle : α) (hidle : ∀ v, answer v .hidden = idle) :
    w.Traceless idle (b.reading w p answer) := by
  -- looking asks for no lock
  have hlook := fun w₁ => (look_found b w₁ p).2.1
  simp only [reading, prepareRead]
  by_cases hforce : w.context.options.forceWriteLock = true
  · rw [if_pos hforce]
    have h := (Work.Undoable.refl w).lockAll [p]
    generalize w.lockAll [] [p] = r at h
    cases h with
    | granted h => exact .of_untroubled ((hlook _).trans h.untroubled)
    | declined h hs =>
        simp only [hidle]
        exact .of_idle h hs
    | refused h => exact .of_error h
  · rw [if_neg hforce]
    exact .of_untroubled (hlook w)

/-- When the entry is said to be ready, there is one. -/
theorem exists_entry_of_stageWrite {c c' : Context} {create : Bool}
    (h : b.stageWrite c p create = .ok (c', true)) : ∃ e, c'.entry? p = some e := by
  simp only [stageWrite] at h
  split at h
  · simp at h
  · have hm := Except.ok.inj h
    rcases Context.materialize_cases b ((if create then (b.view c).missingChain p
      else []).foldl Context.create c) p with ⟨-, -, -, e, he, -⟩ | ⟨-, hnone⟩
    · rw [hm] at he
      exact ⟨e, (View.locate_eq_staged.1 he).2.1⟩
    · rw [hm] at hnone
      simp at hnone

theorem traceless_writing {α : Type} (b : Base) (w : Work) (p : Path) (create : Bool) (idle : α)
    (change : Entry → Entry × α) :
    w.Traceless idle (b.writing w p create idle change) := by
  simp only [writing, prepareWrite]
  have h := (Work.Undoable.refl w).lockAll ((b.view w.context).writeLocks w.locks p create)
  generalize w.lockAll [] ((b.view w.context).writeLocks w.locks p create) = r at h
  cases h with
  | @granted w₁ taken h =>
      simp only
      cases hst : b.stageWrite w₁.context p create with
      | error e => exact .of_error h.back
      | ok r =>
          obtain ⟨c, ready⟩ := r
          cases ready with
          | false => exact .of_untroubled h.untroubled
          | true =>
              obtain ⟨e, he⟩ := exists_entry_of_stageWrite hst
              simp only [Work.withContext, he]
              exact .of_untroubled h.untroubled
  | declined h hs => exact .of_idle h hs
  | refused h => exact .of_error h

theorem traceless_removeBelowRoot (b : Base) (w : Work) (p : Path) :
    w.Traceless false (b.removeBelowRoot w p) := by
  simp only [removeBelowRoot]
  have h := (Work.Undoable.refl w).lockAll ((b.view w.context).removalLocks w.locks p)
  generalize w.lockAll [] ((b.view w.context).removalLocks w.locks p) = r at h
  cases h with
  | granted h => exact .of_untroubled h.untroubled
  | declined h hs => exact .of_idle h hs
  | refused h => exact .of_error h

/-- Locking and looking for a node: if there is none, what was taken has been given back. -/
theorem asking_lockAndFind (h : w.Undoable w' taken) (ps : List Path) (p : Path) :
    w.Asking (b.lockAndFind w' taken ps p) := by
  simp only [lockAndFind]
  have hl := h.lockAll ps
  generalize w'.lockAll taken ps = r at hl
  cases hl with
  | granted hl =>
      simp only
      split
      · exact .granted hl
      · exact .refused hl.back
  | declined hl hs => exact .declined hl hs
  | refused hl => exact .refused hl

/-- The locks of a move are taken in three rounds, and given back whichever fails. -/
theorem asking_lockMove (b : Base) (w : Work) (source parent target : Path) (deep : Bool) :
    w.Asking (b.lockMove w source parent target deep) := by
  simp only [lockMove]
  have h₁ := asking_lockAndFind (b := b) (.refl w) (w.locks.parentLock source ++ [source]) source
  generalize b.lockAndFind w [] (w.locks.parentLock source ++ [source]) source = r₁ at h₁
  cases h₁ with
  | @granted w₁ taken₁ h₁ =>
      have h₂ := asking_lockAndFind (b := b) h₁ [parent] parent
      simp only
      generalize b.lockAndFind w₁ taken₁ [parent] parent = r₂ at h₂
      cases h₂ with
      | granted h₂ => exact h₂.lockAll _
      | declined h₂ hs => exact .declined h₂ hs
      | refused h₂ => exact .refused h₂
  | declined h₁ hs => exact .declined h₁ hs
  | refused h₁ => exact .refused h₁

theorem traceless_moveNode (b : Base) (w : Work) (source parent : Path) (deep : Bool) :
    w.Traceless none (b.moveNode w source parent deep) := by
  simp only [moveNode]
  split
  · exact .of_error (.refl w)
  · exact .of_untroubled rfl
  · rename_i target _
    have h := asking_lockMove b w source parent target deep
    generalize b.lockMove w source parent target deep = r at h
    cases h with
    | @granted w₁ taken h =>
        simp only
        cases b.stageMove w₁.context source target with
        | error e => exact .of_error h.back
        | ok c => exact .of_untroubled h.untroubled
    | declined h hs => exact .of_idle h hs
    | refused h => exact .of_error h

/-- **No operation that fails leaves a trace**, but for the removal of the root, which removes one
node after the other. -/
theorem traceless_perform (b : Base) (w : Work) {o : Operation}
    (hroot : o ≠ .removeNode Path.root) : w.Traceless o.neutral (b.perform w o) := by
  cases o with
  | get p key => exact (traceless_reading b w p _ none fun _ => rfl).answering _
  | getData p => exact (traceless_reading b w p _ none fun _ => rfl).answering _
  | getKeys p => exact (traceless_reading b w p _ none fun _ => rfl).answering _
  | getChildNames p => exact (traceless_reading b w p _ none fun _ => rfl).answering _
  | nodeExists p => exact (traceless_reading b w p _ false fun _ => rfl).answering _
  | put p key v => exact (traceless_writing b w p true none _).answering _
  | putAll p d => exact (traceless_writing b w p true () _).answering fun _ => .done
  | replaceAll p d => exact (traceless_writing b w p true () _).answering fun _ => .done
  | removeKey p key => exact (traceless_writing b w p false none _).answering _
  | clearData p => exact (traceless_writing b w p false () _).answering fun _ => .done
  | removeNode p =>
      have hp : ¬p.isRoot = true := by
        intro hp
        exact hroot (congrArg Operation.removeNode (Path.isRoot_iff.1 hp))
      simp only [perform, removeNode, if_neg hp]
      exact (traceless_removeBelowRoot b w p).answering _
  | moveNode source parent deep => exact (traceless_moveNode b w source parent deep).answering _

end Base

namespace SharedTree

variable {s : SharedTree} {name : String} {c : Context} {o : Operation}

/-- **The state after a failed operation is the state before it**, but for the counts of locks.  The
operation has failed if it says so, or if a lock was not free for it; in the second case it may
also answer, if it shall fail silently, and then as an operation that does nothing.  The state need
not be a reachable one, and other units of work may hold any locks. -/
theorem failure_leaves_no_trace (hc : s.context? name = some c)
    (hroot : o ≠ .removeNode Path.root)
    (hfail : (∃ e, (s.perform name c o).2 = .error e) ∨
      s.store.locks.counts.timedOut < (s.perform name c o).1.store.locks.counts.timedOut) :
    let s' := (s.perform name c o).1
    s' = { s with store := { s.store with
      locks := { s.store.locks with counts := s'.store.locks.counts } } } ∧
    ∀ a, (s.perform name c o).2 = .ok a → c.options.failSilently = true ∧ a = o.neutral := by
  intro s'
  have h := s.store.base.traceless_perform ⟨s.store.locks, c⟩ hroot
  obtain ⟨hcontext, hlocks⟩ := h.same hfail
  have hstate : s' = { s with
      store := { s.store with
        locks := (s.store.base.perform ⟨s.store.locks, c⟩ o).1.locks }
      contexts := s.contexts.insert name
        (s.store.base.perform ⟨s.store.locks, c⟩ o).1.context } := rfl
  refine ⟨?_, h.silent hfail⟩
  rw [hcontext, SortedMap.insert_eq_self hc, hlocks] at hstate
  exact hstate

/-- The first transaction holds `/b/a/x` for a read.  The second has written to `/a`, whose lock it
holds, and shall fail silently. -/
def heldTargetRun : List Step :=
  let a : Path := ⟨["a"]⟩
  let b : Path := ⟨["b"]⟩
  [.start "s" ⟨"main", 0⟩ (some (1 : Nat)), .start "t" ⟨"main", 0⟩ (some (2 : Nat)),
    .perform "s" (.put (a.push "x") "k" (.int 1)), .perform "s" (.put b "k" (.int 2)), .commit "s",
    .setOptions "s" { forceWriteLock := true }, .perform "s" (.getData ⟨["b", "a", "x"]⟩),
    .setOptions "t" { failSilently := true }, .perform "t" (.put a "k" (.int 3))]

/-- The state in which the second transaction is to move `/a` below `/b`. -/
def heldTargetState : SharedTree :=
  (ofConfig { locking := { lockParent := true } }).run heldTargetRun

/-- The second transaction in that state. -/
def heldTargetContext : Context := (heldTargetState.context? "t").getD default

theorem context?_heldTargetState : heldTargetState.context? "t" = some heldTargetContext := by
  decide +kernel

/-- That move takes the locks of `/`, `/b` and `/b/a`, finds `/b/a/x` held, and gives back these
three, but not that of `/a`. -/
theorem deep_move_given_up :
    let s := heldTargetState
    let s' := (s.perform "t" heldTargetContext (.moveNode ⟨["a"]⟩ ⟨["b"]⟩ true)).1
    s'.store.locks.counts.acquired = s.store.locks.counts.acquired + 3 ∧
      heldTargetContext.holds ⟨["a"]⟩ = true ∧
      s' = { s with store := { s.store with
        locks := { s.store.locks with counts := s'.store.locks.counts } } } :=
  ⟨by decide +kernel, by decide +kernel,
    (failure_leaves_no_trace context?_heldTargetState (by decide) (.inr (by decide +kernel))).1⟩

end SharedTree

end TransactionalTree
