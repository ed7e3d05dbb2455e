/-
**The counter of versions.**

A tree gives out versions, takes note of versions that come from elsewhere, and is changed under
versions of either kind, in any order.  Whatever is stamped, also with everything below a node that
goes, and whatever leaves the tree with its stamp, the counter is at least as new.  So a version
that is given out is newer than all stamps there are and newer than all versions that were given out
before.  All this holds until the counter is at the last version; then it starts again.

Main definitions:

* `Stamping`, `CommittedTree.stampAll` — what can be asked of a tree and its counter, one thing
  after the other;
* `CommittedTree.givenOut` — the versions that are given out on the way;
* `CommittedTree.Dominated` — **no stamp is newer than the counter**, of the nodes in the tree and
  of those that have left it.

Main results:

* `CommittedTree.Dominated.changing` — every change keeps the counter ahead;
* `CommittedTree.counter_dominates` — **the counter is ahead of all stamps**, and what it gives out
  is new.
-/

import TransactionalTree.Proofs.Handles
import TransactionalTree.Proofs.Stamps

set_option relaxedAutoImplicit false
set_option autoImplicit false

namespace TransactionalTree

/-- What can be asked of a tree and its counter of versions. -/
inductive Stamping where
  /-- To give out a version. -/
  | allocate
  /-- To take note of a version. -/
  | observe (v : Version)
  /-- To change nodes. -/
  | change (ch : Change)
deriving DecidableEq, Repr, Inhabited

namespace CommittedTree

variable {t : CommittedTree} {outcome : CommittedTree × Except TreeError (Reply NodeRef)}
variable {p : Path} {n : Node} {d : Data} {v : Version} {steps : List Stamping}

/-- The tree after it was asked for something. -/
def stampOne (t : CommittedTree) : Stamping → CommittedTree
  | .allocate => t.allocate.2
  | .observe v => t.observe v
  | .change ch => t.changeAll [ch]

/-- The tree after it was asked for the listed things, one after the other. -/
def stampAll (t : CommittedTree) (steps : List Stamping) : CommittedTree := steps.foldl stampOne t

/-- **The versions that are given out** when the listed things are asked for, in this order. -/
def givenOut (t : CommittedTree) : List Stamping → List Version
  | [] => []
  | .allocate :: steps => t.allocate.1 :: (t.stampOne .allocate).givenOut steps
  | step :: steps => (t.stampOne step).givenOut steps

/-! ### One step -/

/-- **No stamp is newer than the counter**, nor was the stamp of a node when it left the tree. -/
structure Dominated (t : CommittedTree) : Prop where
  /-- The stamps in the tree. -/
  stamped : t.Stamped
  /-- The stamps of nodes that have left it. -/
  retired : ∀ m ∈ t.retired, m.node.version ≤ t.version

theorem dominated_empty : CommittedTree.empty.Dominated :=
  ⟨stamped_empty, fun _ hm => absurd hm List.not_mem_nil⟩

/-- A newer counter is no harm. -/
theorem Dominated.of_same {t' : CommittedTree} (h : t.Dominated) (hs : t'.slots = t.slots)
    (hr : t'.retired = t.retired) (hv : t.version ≤ t'.version) : t'.Dominated where
  stamped := h.stamped.of_slots hs hv
  retired m hm := by
    rw [hr] at hm
    exact UInt64.le_trans (h.retired m hm) hv

/-- A node that is put in takes the place of one whose stamp is known to the counter. -/
theorem Dominated.install {t' : CommittedTree} {r : NodeRef} (h : t.Dominated)
    (hi : t.install p d v = .ok (t', r)) : t'.Dominated ∧ t.version ≤ t'.version := by
  have hstamped := h.stamped.install hi
  obtain ⟨q, name, rfl, -, -, rfl⟩ := install_ok hi
  have hcleared :
      ((if t.isValidAt (q.push name) then t.bury (q.push name) v else t).observe v).Dominated := by
    split
    · exact ⟨h.stamped.observe_bury _ v, fun m hm =>
        UInt64.le_trans (h.retired m hm) (Std.left_le_max)⟩
    · exact h.of_same rfl rfl (Std.left_le_max)
  refine ⟨⟨hstamped, fun m hm => ?_⟩, ?_⟩
  · rw [place_version]
    rcases mem_retired_place.1 hm with ⟨n, hn, rfl⟩ | hm
    · exact hcleared.stamped _ n hn
    · exact hcleared.retired m hm
  · rw [place_version]
    split
    · exact Std.left_le_max
    · exact Std.left_le_max

/-- **Every change keeps the counter ahead**, and never sets it back. -/
theorem Dominated.changing (h : t.Dominated) (hc : Changing t outcome) :
    outcome.1.Dominated ∧ t.version ≤ outcome.1.version := by
  have hwrite : ∀ {p : Path} {n : Node} {d : Data} {v : Version}, t.peek? p = some n →
      (t.overwrite p n d v).Dominated ∧ t.version ≤ (t.overwrite p n d v).version := by
    intro p n d v hn
    refine ⟨⟨h.stamped.update (update_ok.2 ⟨n, hn, rfl⟩), fun m hm => ?_⟩, Std.left_le_max⟩
    exact UInt64.le_trans (h.retired m hm) (Std.left_le_max)
  cases hc with
  | failed e => exact ⟨h, UInt64.le_refl _⟩
  | idle => exact ⟨h, UInt64.le_refl _⟩
  | installed hi => exact h.install hi
  | written d v hn => exact hwrite hn
  | updated d v hn => exact hwrite hn
  | removed v hp hn =>
      refine ⟨⟨h.stamped.observe_bury _ v, fun m hm => ?_⟩, Std.left_le_max⟩
      exact UInt64.le_trans (h.retired m hm) (Std.left_le_max)
  | purged =>
      refine ⟨⟨h.stamped.purge, fun m hm => ?_⟩, UInt64.le_refl _⟩
      rcases mem_retired_purge.1 hm with ⟨q, n, hn, -, rfl⟩ | hm
      · exact h.stamped q n hn
      · exact h.retired m hm

/-- Every step keeps the counter ahead and never sets it back, unless it is at the last version. -/
theorem Dominated.stampOne (h : t.Dominated) (hlast : ¬t.Spent) (step : Stamping) :
    (t.stampOne step).Dominated ∧ t.version ≤ (t.stampOne step).version := by
  cases step with
  | allocate =>
      have hle := UInt64.le_of_lt (lt_allocate hlast)
      exact ⟨h.of_same rfl rfl hle, hle⟩
  | observe v => exact ⟨h.of_same rfl rfl (Std.left_le_max), Std.left_le_max⟩
  | change ch => exact h.changing (t.changing ch)

/-! ### All steps -/

/-- **The counter stays below the last version** while the listed things are asked for. -/
def Unspent (t : CommittedTree) (steps : List Stamping) : Prop :=
  ∀ k, ¬(t.stampAll (steps.take k)).Spent

namespace Unspent

theorem first {step : Stamping} (h : t.Unspent (step :: steps)) : ¬t.Spent := h 0

theorem rest {step : Stamping} (h : t.Unspent (step :: steps)) :
    (t.stampOne step).Unspent steps :=
  fun k => h (k + 1)

theorem last (h : t.Unspent steps) : ¬(t.stampAll steps).Spent := by
  have hlast := h steps.length
  rwa [List.take_length] at hlast

end Unspent

theorem Dominated.stampAll (h : t.Dominated) (hlast : t.Unspent steps) :
    (t.stampAll steps).Dominated ∧ t.version ≤ (t.stampAll steps).version := by
  induction steps generalizing t with
  | nil => exact ⟨h, UInt64.le_refl _⟩
  | cons step steps ih =>
      obtain ⟨hstep, hle⟩ := h.stampOne hlast.first step
      obtain ⟨hrest, hle'⟩ := ih hstep hlast.rest
      exact ⟨hrest, UInt64.le_trans hle hle'⟩

/-- A version that was given out is not newer than the counter. -/
theorem Dominated.le_of_mem_givenOut (h : t.Dominated) (hlast : t.Unspent steps)
    (hv : v ∈ t.givenOut steps) : v ≤ (t.stampAll steps).version := by
  induction steps generalizing t with
  | nil => simp [givenOut] at hv
  | cons step steps ih =>
      have hstep := (h.stampOne hlast.first step).1
      cases step with
      | allocate =>
          rcases List.mem_cons.1 hv with rfl | hv
          -- the counter is that version right after it was given out
          · exact (hstep.stampAll hlast.rest).2
          · exact ih hstep hlast.rest hv
      | observe w => exact ih hstep hlast.rest hv
      | change ch => exact ih hstep hlast.rest hv

/-- The stamp of a node in the tree, or of one that has left it, is not newer than the counter. -/
theorem Dominated.lastVersion_le (h : t.Dominated) (r : NodeRef) : t.lastVersion r ≤ t.version := by
  rw [lastVersion, node?]
  cases hs : t.standing? r with
  | some n => exact h.stamped _ n (standing?_eq_some.1 hs).1
  | none =>
      cases hm : t.retired? r with
      | none => exact UInt64.zero_le
      | some m => exact h.retired m (List.mem_of_find?_eq_some hm)

/-- **The counter is ahead of all stamps**, as long as it stays below the last version.  Versions
are given out and taken note of, and nodes are written, put in, removed and dropped under any
versions.  Then no node in the tree, valid or a tombstone, has a stamp that is newer than the
counter, and no reference to a node, in the tree or not, shows one.  The version that is given out
next is newer than the stamps of all nodes, and newer than every version that was given out
before. -/
theorem counter_dominates {steps : List Stamping} (hlast : CommittedTree.empty.Unspent steps) :
    let t := CommittedTree.empty.stampAll steps
    (∀ p n, t.slots.get? p = some n → n.version ≤ t.version) ∧
    (∀ r, t.lastVersion r ≤ t.version) ∧
    (∀ p n, t.slots.get? p = some n → n.version < t.allocate.1) ∧
    (∀ r, t.lastVersion r < t.allocate.1) ∧
    ∀ v ∈ CommittedTree.empty.givenOut steps, v < t.allocate.1 := by
  intro t
  have h : t.Dominated := (dominated_empty.stampAll hlast).1
  have hnext : t.version < t.allocate.1 := lt_allocate hlast.last
  refine ⟨h.stamped, h.lastVersion_le, fun p n hn => UInt64.lt_of_le_of_lt (h.stamped p n hn) hnext,
    fun r => UInt64.lt_of_le_of_lt (h.lastVersion_le r) hnext, fun v hv => ?_⟩
  exact UInt64.lt_of_le_of_lt (dominated_empty.le_of_mem_givenOut hlast hv) hnext

/-- A node is made under the version 7, which the counter has not given out. -/
def unseenStampings : List Stamping :=
  [.allocate, .change (.createOrUpdate ⟨["a"]⟩ .empty 7)]

/-- The counter goes on behind that version. -/
theorem counter_goes_on :
    ((CommittedTree.empty.stampAll unseenStampings).slots.get? ⟨["a"]⟩).any
      (·.version < (CommittedTree.empty.stampAll unseenStampings).allocate.1) = true := by
  have hlast : CommittedTree.empty.Unspent unseenStampings := by
    intro k
    rcases k with _ | _ | k
    · decide +kernel
    · decide +kernel
    · rw [List.take_of_length_le (Nat.le_add_left 2 k)]
      decide +kernel
  have hsome : ((CommittedTree.empty.stampAll unseenStampings).slots.get? ⟨["a"]⟩).isSome := by
    decide +kernel
  obtain ⟨n, hn⟩ := Option.isSome_iff_exists.1 hsome
  rw [hn, Option.any_some, decide_eq_true_eq]
  exact (counter_dominates hlast).2.2.1 _ n hn

end CommittedTree

end TransactionalTree
