/-
**Direct changes of the committed tree.**

A commit changes the committed tree through a few functions only, and these can be called by
themselves too, in any order and with any paths, data and versions.  A change that fails leaves
everything as it was.

Main definitions:

* `Change`, `Reply` — a change, and what is answered when it is done;
* `Change.attempt`, `Change.attemptAll`, `Change.replies` — changes one after the other, of anything
  that can be changed;
* `CommittedTree.change`, `CommittedTree.changeAll` — the changes of a committed tree;
* `Changing` — **the ways in which a change of the tree can go**.

Main results:

* `Change.simulates` — two things that answer every change alike, and stay related, answer all
  changes alike;
* `CommittedTree.changing` — every change goes in one of the ways;
* `CommittedTree.Sound.changeAll` — changes keep the tree sound.
-/

import TransactionalTree.Proofs.Committed

set_option relaxedAutoImplicit false
set_option autoImplicit false

namespace TransactionalTree

/-- A change of the nodes of a tree. -/
inductive Change where
  /-- Write the data of a node, or put in a new one if there is none. -/
  | createOrUpdate (p : Path) (d : Data) (v : Version)
  /-- Put in a new node, in place of what is there. -/
  | install (p : Path) (d : Data) (v : Version)
  /-- Replace the data of a node. -/
  | update (p : Path) (d : Data) (v : Version)
  /-- Remove a node and all below it. -/
  | remove (p : Path) (v : Version)
  /-- Drop all tombstones. -/
  | purge
deriving DecidableEq, Repr, Inhabited

/-- What is answered when a change is done; nodes are named by what stands for `ν`. -/
inductive Reply (ν : Type) where
  /-- The node that was written or put in. -/
  | node (r : ν)
  /-- The node that was removed, if there was one. -/
  | removed (r : Option ν)
  /-- The change is done. -/
  | done
deriving DecidableEq, Repr, Inhabited

/-- The same answer with the nodes named otherwise. -/
def Reply.map {ν ξ : Type} (f : ν → ξ) : Reply ν → Reply ξ
  | node r => node (f r)
  | removed r => removed (r.map f)
  | done => done

/-! ### Changes one after the other -/

namespace Change

variable {σ τ ν ξ : Type}

/-- Try a change, which `step` carries out; one that fails leaves all as it was. -/
def attempt (step : σ → Change → Except TreeError (σ × Reply ν)) (s : σ) (ch : Change) :
    σ × Except TreeError (Reply ν) :=
  match step s ch with
  | .error e => (s, .error e)
  | .ok (s', reply) => (s', .ok reply)

/-- What is there after the listed changes were tried, one after the other. -/
def attemptAll (step : σ → Change → Except TreeError (σ × Reply ν)) (s : σ)
    (changes : List Change) : σ :=
  changes.foldl (fun s ch => (attempt step s ch).1) s

/-- What the listed changes answer, one after the other. -/
def replies (step : σ → Change → Except TreeError (σ × Reply ν)) (s : σ) :
    List Change → List (Except TreeError (Reply ν))
  | [] => []
  | ch :: changes => (attempt step s ch).2 :: replies step (attempt step s ch).1 changes

variable {step : σ → Change → Except TreeError (σ × Reply ν)}
variable {step' : τ → Change → Except TreeError (τ × Reply ξ)}

theorem attemptAll_append (s : σ) (before after : List Change) :
    attemptAll step s (before ++ after) = attemptAll step (attemptAll step s before) after :=
  List.foldl_append

/-- **Two things that answer every change alike, and stay related, answer all changes alike.** -/
theorem simulates {R : σ → τ → Prop} {f : ν → ξ}
    (h : ∀ s u ch, R s u → R (attempt step s ch).1 (attempt step' u ch).1 ∧
      (attempt step s ch).2.map (Reply.map f) = (attempt step' u ch).2)
    {s : σ} {u : τ} (hsu : R s u) (changes : List Change) :
    R (attemptAll step s changes) (attemptAll step' u changes) ∧
      (replies step s changes).map (Except.map (Reply.map f)) = replies step' u changes := by
  induction changes generalizing s u with
  | nil => exact ⟨hsu, rfl⟩
  | cons ch changes ih =>
      obtain ⟨hnext, hreply⟩ := h s u ch hsu
      obtain ⟨hall, hreplies⟩ := ih hnext
      refine ⟨hall, ?_⟩
      rw [replies, replies, List.map_cons, hreply, hreplies]

end Change

/-! ### Changes of the committed tree -/

/-- **Change the committed tree.** -/
def CommittedTree.change (t : CommittedTree) :
    Change → Except TreeError (CommittedTree × Reply NodeRef)
  | .createOrUpdate p d v => (t.createOrUpdate p d v).map fun r => (r.1, .node r.2)
  | .install p d v => (t.install p d v).map fun r => (r.1, .node r.2)
  | .update p d v => (t.update p d v).map fun t' => (t', .done)
  | .remove p v => (t.remove p v).map fun r => (r.1, .removed r.2)
  | .purge => .ok (t.purge.1, .done)

/-- **The ways in which a change of the tree can go**: the tree after it, and the answer. -/
inductive Changing (t : CommittedTree) : CommittedTree × Except TreeError (Reply NodeRef) → Prop
  /-- It fails. -/
  | failed (e : TreeError) : Changing t (t, .error e)
  /-- There is nothing to remove. -/
  | idle : Changing t (t, .ok (.removed none))
  /-- A new node is put in. -/
  | installed {p : Path} {d : Data} {v : Version} {t' : CommittedTree} {r : NodeRef}
      (hi : t.install p d v = .ok (t', r)) : Changing t (t', .ok (.node r))
  /-- The data of a node are written, and the node is named. -/
  | written {p : Path} {n : Node} (d : Data) (v : Version) (hn : t.peek? p = some n) :
      Changing t (t.overwrite p n d v, .ok (.node ⟨p, n.id⟩))
  /-- The data of a node are written. -/
  | updated {p : Path} {n : Node} (d : Data) (v : Version) (hn : t.peek? p = some n) :
      Changing t (t.overwrite p n d v, .ok .done)
  /-- A node is removed, with all below it. -/
  | removed {p : Path} {n : Node} (v : Version) (hp : p ≠ Path.root) (hn : t.peek? p = some n) :
      Changing t ((t.bury p v).observe v, .ok (.removed (some ⟨p, n.id⟩)))
  /-- All tombstones are dropped. -/
  | purged : Changing t (t.purge.1, .ok .done)

namespace CommittedTree

variable {t : CommittedTree} {outcome : CommittedTree × Except TreeError (Reply NodeRef)}

theorem changing_install (t : CommittedTree) (p : Path) (d : Data) (v : Version) :
    Changing t (Change.attempt change t (.install p d v)) := by
  simp only [Change.attempt, change]
  cases hi : t.install p d v with
  | error e => exact .failed e
  | ok r => exact .installed hi

/-- **Every change goes in one of the ways.** -/
theorem changing (t : CommittedTree) (ch : Change) : Changing t (Change.attempt change t ch) := by
  cases ch with
  | createOrUpdate p d v =>
      cases hn : t.peek? p with
      | some n =>
          simp only [Change.attempt, change, createOrUpdate, hn]
          exact .written d v hn
      | none =>
          have hi := changing_install t p d v
          simp only [Change.attempt, change] at hi
          simp only [Change.attempt, change, createOrUpdate, hn]
          exact hi
  | install p d v => exact changing_install t p d v
  | update p d v =>
      simp only [Change.attempt, change, update]
      cases hn : t.peek? p with
      | none => exact .failed _
      | some n => exact .updated d v hn
  | remove p v =>
      simp only [Change.attempt, change, remove_eq]
      by_cases hp : p = Path.root
      · rw [if_pos hp]
        exact .failed _
      · rw [if_neg hp]
        cases hn : t.peek? p with
        | none => exact .idle
        | some n => exact .removed v hp hn
  | purge => exact .purged

/-- A change keeps the tree sound. -/
theorem Sound.changing (h : t.Sound) (hc : Changing t outcome) : outcome.1.Sound := by
  cases hc with
  | failed e => exact h
  | idle => exact h
  | installed hi => exact h.install hi
  | written d v hn => exact h.overwrite hn
  | updated d v hn => exact h.overwrite hn
  | removed v hp hn => exact (h.bury hp v).observe v
  | purged => exact h.purge

/-- The tree after the listed changes. -/
def changeAll (t : CommittedTree) (changes : List Change) : CommittedTree :=
  Change.attemptAll change t changes

theorem changeAll_append (t : CommittedTree) (before after : List Change) :
    t.changeAll (before ++ after) = (t.changeAll before).changeAll after :=
  Change.attemptAll_append t before after

/-- **Changes keep the tree sound.** -/
theorem Sound.changeAll (h : t.Sound) (changes : List Change) : (t.changeAll changes).Sound := by
  induction changes generalizing t with
  | nil => exact h
  | cons ch changes ih => exact ih (h.changing (t.changing ch))

end CommittedTree

end TransactionalTree
