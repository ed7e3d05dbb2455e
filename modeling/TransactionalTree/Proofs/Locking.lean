/-
**What locking does to a unit of work.**

Taking and releasing locks changes nothing of a unit of work but the set of its locked paths.  A
request that is not granted is counted.

Main definitions:

* `Work.Relocked` — a work that differs from another one at most in locks.

Main results:

* `Work.relocked_lockAll`, `Work.relocked_releasePartial` — locking changes locks only;
* `Work.lockAll_cases` — **a grant, or a counted time-out**.
-/

import TransactionalTree.Operation.Locking
import TransactionalTree.Proofs.Maps

set_option relaxedAutoImplicit false
set_option autoImplicit false

namespace TransactionalTree

namespace Context

variable {c : Context} {p q : Path}

@[simp] theorem holds_record : (c.record q).holds p = true ↔ p = q ∨ c.holds p = true :=
  SortedSet.has_add

theorem holds_forget : (c.forget q).holds p = true ↔ p ≠ q ∧ c.holds p = true :=
  SortedSet.has_erase

end Context

namespace Work

variable {w w' w'' : Work} {p : Path} {ps taken : List Path}

/-! ### Only locks change -/

/-- The second work differs from the first at most in locks, and in the counts of locks. -/
structure Relocked (w w' : Work) : Prop where
  /-- Of the unit of work only the locked paths differ. -/
  context : w'.context = { w.context with locked := w'.context.locked }
  /-- The settings are the same. -/
  lockParent : w'.locks.lockParent = w.locks.lockParent
  /-- Time-outs are counted and never taken back. -/
  timedOut : w.locks.counts.timedOut ≤ w'.locks.counts.timedOut

namespace Relocked

theorem refl (w : Work) : w.Relocked w := ⟨rfl, rfl, Nat.le_refl _⟩

theorem trans (h : w.Relocked w') (h' : w'.Relocked w'') : w.Relocked w'' where
  context := by
    rw [h'.context, h.context]
  lockParent := h'.lockParent.trans h.lockParent
  timedOut := Nat.le_trans h.timedOut h'.timedOut

theorem workspace (h : w.Relocked w') : w'.context.workspace = w.context.workspace := by
  rw [h.context]

theorem moves (h : w.Relocked w') : w'.context.moves = w.context.moves := by
  rw [h.context]

theorem options (h : w.Relocked w') : w'.context.options = w.context.options := by
  rw [h.context]

theorem owner (h : w.Relocked w') : w'.context.owner = w.context.owner := by
  rw [h.context]
  rfl

theorem view (h : w.Relocked w') (b : Base) : b.view w'.context = b.view w.context := by
  rw [Base.view, Base.view, h.workspace]

end Relocked

theorem relocked_release (w : Work) (p : Path) : w.Relocked (w.release p).1 := by
  simp only [release, LockManager.releaseFor]
  split <;> exact ⟨rfl, rfl, Nat.le_refl _⟩

theorem relocked_releasePartial (w : Work) (ps : List Path) : w.Relocked (w.releasePartial ps) := by
  induction ps with
  | nil => exact .refl w
  | cons p ps ih => exact ih.trans (relocked_release _ p)

theorem timedOut_releasePartial (w : Work) (ps : List Path) :
    (w.releasePartial ps).locks.counts.timedOut = w.locks.counts.timedOut := by
  induction ps with
  | nil => rfl
  | cons p ps ih =>
      have hstep : w.releasePartial (p :: ps) = ((w.releasePartial ps).release p).1 := rfl
      rw [hstep, ← ih]
      simp only [release, LockManager.releaseFor]
      split <;> rfl

/-- Locking one path: it is held already, it is free, or the request is counted as timed out. -/
theorem acquire_cases (w : Work) (p : Path) :
    (w.context.holds p = true ∧ w.acquire p = (w, .ok false)) ∨
    (w.context.holds p = false ∧ ∃ m, w.acquire p = (⟨m, w.context.record p⟩, .ok true) ∧
      m.lockParent = w.locks.lockParent ∧
      m.counts.timedOut = w.locks.counts.timedOut) ∨
    (∃ m e, w.acquire p = (⟨m, w.context⟩, .error e) ∧ e.isTimeout = true ∧
      m.lockParent = w.locks.lockParent ∧
      m.counts.timedOut = w.locks.counts.timedOut + 1) := by
  simp only [acquire]
  split
  · rename_i hp
    exact .inl ⟨hp, rfl⟩
  · rename_i hp
    have hp' : w.context.holds p = false := by simpa using hp
    split
    · exact .inr (.inl ⟨hp', _, rfl, rfl, rfl⟩)
    · exact .inr (.inr ⟨_, _, rfl, rfl, rfl, rfl⟩)

theorem relocked_acquire (w : Work) (p : Path) : w.Relocked (w.acquire p).1 := by
  rcases acquire_cases w p with ⟨-, h⟩ | ⟨-, m, h, hl, ht⟩ | ⟨m, e, h, -, hl, ht⟩
  · rw [h]
    exact .refl w
  · rw [h]
    exact ⟨rfl, hl, Nat.le_of_eq ht.symm⟩
  · rw [h]
    exact ⟨rfl, hl, by rw [ht]; exact Nat.le_succ _⟩

/-- Locking a list: all is granted and no time-out is counted, or one is. -/
theorem acquireFrom_cases (w : Work) (taken ps : List Path) :
    w.Relocked (w.acquireFrom taken ps).1 ∧
    ((∃ all, (w.acquireFrom taken ps).2 = .ok all ∧
        (w.acquireFrom taken ps).1.locks.counts.timedOut = w.locks.counts.timedOut) ∨
      (∃ e, (w.acquireFrom taken ps).2 = .error e ∧ e.isTimeout = true ∧
        w.locks.counts.timedOut < (w.acquireFrom taken ps).1.locks.counts.timedOut)) := by
  induction ps generalizing w taken with
  | nil => exact ⟨.refl w, .inl ⟨taken, rfl, rfl⟩⟩
  | cons p ps ih =>
      have hfirst := relocked_acquire w p
      simp only [acquireFrom]
      rcases acquire_cases w p with ⟨-, h⟩ | ⟨-, m, h, -, ht⟩ | ⟨m, e, h, he, -, ht⟩
      · rw [h]
        exact ih w taken
      · rw [h] at hfirst ⊢
        obtain ⟨hrest, hcase⟩ := ih ⟨m, w.context.record p⟩ (taken ++ [p])
        refine ⟨hfirst.trans hrest, ?_⟩
        rw [← ht]
        exact hcase
      · rw [h] at hfirst ⊢
        refine ⟨hfirst.trans (relocked_releasePartial _ taken), .inr ⟨e, rfl, he, ?_⟩⟩
        simp only [timedOut_releasePartial, ht]
        exact Nat.lt_succ_self _

/-- **What comes of asking for locks**: they are granted and no time-out is counted, or a time-out
is counted and the operation is declined or refused. -/
theorem lockAll_cases (w : Work) (taken ps : List Path) :
    w.Relocked (w.lockAll taken ps).1 ∧
    ((∃ all, (w.lockAll taken ps).2 = .granted all ∧
        (w.lockAll taken ps).1.locks.counts.timedOut = w.locks.counts.timedOut) ∨
      (((w.lockAll taken ps).2 = .declined ∨ ∃ e, (w.lockAll taken ps).2 = .refused e) ∧
        w.locks.counts.timedOut < (w.lockAll taken ps).1.locks.counts.timedOut)) := by
  simp only [lockAll]
  split
  · exact ⟨.refl w, .inl ⟨taken, rfl, rfl⟩⟩
  · obtain ⟨hrel, hcase⟩ := acquireFrom_cases w [] ps
    rw [acquireAll]
    generalize w.acquireFrom [] ps = r at hrel hcase
    obtain ⟨w', r⟩ := r
    rcases hcase with ⟨all, rfl, ht⟩ | ⟨e, rfl, -, ht⟩
    · exact ⟨hrel, .inl ⟨_, rfl, ht⟩⟩
    · refine ⟨hrel.trans (relocked_releasePartial w' taken), .inr ⟨?_, ?_⟩⟩
      · by_cases hs : (e.isTimeout && w'.context.options.failSilently) = true
        · exact .inl (by simp [hs])
        · exact .inr ⟨e, by simp [hs]⟩
      · rw [timedOut_releasePartial]
        exact ht

theorem relocked_lockAll (w : Work) (taken ps : List Path) : w.Relocked (w.lockAll taken ps).1 :=
  (lockAll_cases w taken ps).1

/-- A path that is held is granted at once. -/
theorem lockAll_of_holds {w : Work} {p : Path} (h : w.context.holds p = true) (taken : List Path) :
    w.lockAll taken [p] = (w, .granted taken) := by
  simp [lockAll, acquireAll, acquireFrom, acquire, h]

end Work

end TransactionalTree
