/-
**Sound trees.**

In a tree that was made by the operations, the root is valid, a valid node has a valid parent, and
no identity has been given out that is not below the next one.  So a node is found by going down
from the root exactly if it is valid, and each change of the tree is known by what is found after
it.

Main definitions:

* `CommittedTree.Sound` — the invariant.

Main results:

* `CommittedTree.Sound.peek?_eq` — **what is found is what is valid**;
* `CommittedTree.Sound.peek?_install`, `CommittedTree.Sound.peek?_update`,
  `CommittedTree.Sound.peek?_remove` — what is found after a change;
* `CommittedTree.Sound.install`, `CommittedTree.Sound.update`, `CommittedTree.Sound.remove`,
  `CommittedTree.Sound.purge` — the changes keep a tree sound.
-/

import TransactionalTree.Proofs.Maps
import TransactionalTree.Proofs.Paths
import TransactionalTree.Tree.Basic

set_option relaxedAutoImplicit false
set_option autoImplicit false

namespace TransactionalTree

namespace CommittedTree

variable {t t' : CommittedTree} {p q : Path} {d : Data} {v : Version} {n : Node}

/-- The tree is closed under parents, and its identities have all been given out. -/
structure Sound (t : CommittedTree) : Prop where
  /-- The root is valid. -/
  root : t.isValidAt Path.root = true
  /-- A valid node has a valid parent. -/
  parent : ∀ {p : Path} {name : String}, t.isValidAt (p.push name) = true → t.isValidAt p = true
  /-- Identities are below the next one. -/
  fresh : ∀ {p : Path} {n : Node}, t.slots.get? p = some n → n.id < t.nextId

theorem isValidAt_iff : t.isValidAt p = true ↔ ∃ n, t.slots.get? p = some n ∧ n.valid = true := by
  rw [isValidAt, Option.any_eq_true]

theorem exists?_iff_peek? : t.exists? p = true ↔ ∃ n, t.peek? p = some n := by
  rw [exists?, Option.isSome_iff_exists]

/-- The valid node at a path is in the slot there. -/
theorem get?_of_peek? (h : t.peek? p = some n) : t.slots.get? p = some n := by
  rw [peek?, entry?] at h
  obtain ⟨hentry, -⟩ := Option.filter_eq_some_iff.1 h
  split at hentry
  · exact hentry
  · simp at hentry

theorem mem_childNames {name : String} :
    (t.childNames p).has name = true ↔ t.isValidAt (p.push name) = true := by
  rw [childNames, SortedSet.has_ofElements, List.mem_filterMap, isValidAt_iff]
  constructor
  · rintro ⟨⟨q, n⟩, hmem, h⟩
    split at h
    · rename_i hc
      simp only [Bool.and_eq_true] at hc
      obtain ⟨m, rfl⟩ := Path.isChildOf_iff.1 hc.1
      simp only [Path.name?_push, Option.some.injEq] at h
      subst h
      exact ⟨n, SortedMap.get?_eq_some_iff.2 hmem, hc.2⟩
    · simp at h
  · rintro ⟨n, hget, hvalid⟩
    refine ⟨(p.push name, n), SortedMap.get?_eq_some_iff.1 hget, ?_⟩
    rw [if_pos (by simp [Path.isChildOf_iff.2 ⟨name, rfl⟩, hvalid])]
    exact Path.name?_push p name

namespace Sound

variable (h : t.Sound)
include h

/-! ### Finding nodes -/

theorem valid_of_isAbove (hpq : p.isAbove q = true) (hq : t.isValidAt q = true) :
    t.isValidAt p = true :=
  Path.climb (motive := fun p => t.isValidAt p = true) h.parent (Path.isAtOrBelow_of_isAbove hpq) hq

/-- **What is found going down from the root is what is valid.** -/
theorem peek?_eq (p : Path) : t.peek? p = (t.slots.get? p).filter (·.valid) := by
  simp only [peek?, entry?]
  split
  · rfl
  · rename_i hall
    have hp : ¬t.isValidAt p = true := by
      intro hp
      refine hall (List.all_eq_true.2 fun q hq => ?_)
      exact h.valid_of_isAbove (Path.mem_ancestors.1 hq) hp
    cases hs : t.slots.get? p with
    | none => rfl
    | some n =>
        have : n.valid = false := by
          simpa [isValidAt, hs] using hp
        simp [Option.filter, this]

theorem peek?_eq_some : t.peek? p = some n ↔ t.slots.get? p = some n ∧ n.valid = true := by
  rw [h.peek?_eq, Option.filter_eq_some_iff]

theorem exists?_iff : t.exists? p = true ↔ t.isValidAt p = true := by
  rw [exists?, Option.isSome_iff_exists, isValidAt_iff]
  simp only [h.peek?_eq_some]

theorem peek?_eq_none : t.peek? p = none ↔ ¬t.isValidAt p = true := by
  rw [← h.exists?_iff, exists?, Option.not_isSome_iff_eq_none]

theorem exists?_root : t.exists? Path.root = true := h.exists?_iff.2 h.root

theorem peek?_none_of_isAbove (hpq : p.isAbove q = true) (hp : t.peek? p = none) :
    t.peek? q = none := by
  rw [h.peek?_eq_none] at hp ⊢
  exact fun hq => hp (h.valid_of_isAbove hpq hq)

theorem peek?_none_of_isAtOrBelow (hqp : q.isAtOrBelow p = true) (hp : t.peek? p = none) :
    t.peek? q = none := by
  rcases Path.isAtOrBelow_iff.1 hqp with rfl | hpq
  · exact hp
  · exact h.peek?_none_of_isAbove hpq hp

/-- The valid nodes are those that are found. -/
theorem mem_validNodes : (p, n) ∈ t.validNodes ↔ t.peek? p = some n := by
  rw [validNodes, ← SortedMap.get?_eq_some_iff, SortedMap.get?_filter, h.peek?_eq]

theorem id_lt_of_peek? (hp : t.peek? p = some n) : n.id < t.nextId :=
  h.fresh (h.peek?_eq_some.1 hp).1

end Sound

/-! ### Versions -/

theorem Sound.of_slots (h : t.Sound) (hs : t'.slots = t.slots) (hn : t'.nextId = t.nextId) :
    t'.Sound := by
  have hv : t'.isValidAt = t.isValidAt := by
    funext p
    simp only [isValidAt, hs]
  constructor
  · rw [hv]; exact h.root
  · intro p name
    rw [hv]; exact h.parent
  · intro p n
    rw [hs, hn]; exact h.fresh

theorem peek?_of_slots (hs : t'.slots = t.slots) (p : Path) : t'.peek? p = t.peek? p := by
  have hv : t'.isValidAt = t.isValidAt := by
    funext p
    simp only [isValidAt, hs]
  simp only [peek?, entry?, hv, hs]

@[simp] theorem peek?_observe : (t.observe v).peek? p = t.peek? p := peek?_of_slots rfl p

theorem Sound.allocate (h : t.Sound) : t.allocate.2.Sound := h.of_slots rfl rfl

theorem Sound.observe (h : t.Sound) (v : Version) : (t.observe v).Sound := h.of_slots rfl rfl

/-- The tree with only a root is sound. -/
theorem sound_empty : CommittedTree.empty.Sound := by
  have hget : ∀ p, CommittedTree.empty.slots.get? p =
      if p = Path.root then some ⟨0, true, Version.initial, .empty⟩ else none := by
    intro p
    simp only [CommittedTree.empty, SortedMap.get?_insert, SortedMap.get?_empty]
  constructor
  · rw [isValidAt_iff]
    exact ⟨_, by rw [hget, if_pos rfl], rfl⟩
  · intro p name hp
    obtain ⟨n, hn, -⟩ := isValidAt_iff.1 hp
    rw [hget, if_neg Path.push_ne_root] at hn
    simp at hn
  · intro p n hn
    rw [hget] at hn
    split at hn
    · obtain rfl := Option.some.inj hn
      exact Nat.zero_lt_one
    · simp at hn

/-! ### Removing -/

theorem get?_bury : (t.bury p v).slots.get? q =
    if q.isAtOrBelow p then
      (t.slots.get? q).map fun n => { n with valid := false, version := max n.version v }
    else t.slots.get? q := by
  simp only [bury, SortedMap.get?_mapValues]
  split
  · rfl
  · cases t.slots.get? q <;> rfl

theorem isValidAt_bury :
    (t.bury p v).isValidAt q = true ↔ t.isValidAt q = true ∧ ¬q.isAtOrBelow p = true := by
  rw [isValidAt_iff, isValidAt_iff]
  simp only [get?_bury]
  by_cases hq : q.isAtOrBelow p = true
  · simp [hq]
  · simp [hq]

theorem Sound.bury (h : t.Sound) (hp : p ≠ Path.root) (v : Version) : (t.bury p v).Sound := by
  constructor
  · rw [isValidAt_bury]
    refine ⟨h.root, fun hr => ?_⟩
    rcases Path.isAtOrBelow_iff.1 hr with rfl | hr
    · exact hp rfl
    · exact Path.isAbove_root hr
  · intro q name hq
    rw [isValidAt_bury] at hq ⊢
    refine ⟨h.parent hq.1, fun hqp => hq.2 ?_⟩
    exact Path.push_isAtOrBelow.2 (.inr hqp)
  · intro q n hn
    rw [get?_bury] at hn
    split at hn
    · obtain ⟨m, hm, rfl⟩ := Option.map_eq_some_iff.1 hn
      have hlt := h.fresh hm
      exact hlt
    · exact h.fresh hn

theorem Sound.peek?_bury (h : t.Sound) (hp : p ≠ Path.root) (q : Path) :
    (t.bury p v).peek? q = if q.isAtOrBelow p then none else t.peek? q := by
  rw [(h.bury hp v).peek?_eq, h.peek?_eq, get?_bury]
  split
  · cases t.slots.get? q <;> simp [Option.filter]
  · rfl

/-- What a removal does: nothing at the root, and nothing where there is no node. -/
theorem remove_eq (t : CommittedTree) (p : Path) (v : Version) :
    t.remove p v = if p = Path.root then .error (.refused .removeRoot)
      else match t.peek? p with
        | none => .ok (t, none)
        | some n => .ok ((t.bury p v).observe v, some ⟨p, n.id⟩) := by
  cases hn : t.peek? p with
  | none => simp [remove, hn, Path.isRoot_iff]
  | some n => simp [remove, hn, Path.isRoot_iff]

theorem Sound.remove {r : Option NodeRef} (h : t.Sound) (hr : t.remove p v = .ok (t', r)) :
    t'.Sound := by
  rw [remove_eq] at hr
  split at hr
  · simp at hr
  · rename_i hp
    split at hr
    · obtain ⟨rfl, -⟩ := by simpa using hr
      exact h
    · obtain ⟨rfl, -⟩ := by simpa using hr
      exact (h.bury hp v).observe v

/-- After a removal nothing is found at the path and below it. -/
theorem Sound.peek?_remove {r : Option NodeRef} (h : t.Sound) (hr : t.remove p v = .ok (t', r))
    (q : Path) : t'.peek? q = if q.isAtOrBelow p then none else t.peek? q := by
  rw [remove_eq] at hr
  split at hr
  · simp at hr
  · rename_i hp
    split at hr
    · rename_i hnone
      obtain ⟨rfl, -⟩ := by simpa using hr
      split
      · rename_i hq
        exact h.peek?_none_of_isAtOrBelow hq hnone
      · rfl
    · obtain ⟨rfl, -⟩ := by simpa using hr
      rw [peek?_observe, h.peek?_bury hp]

/-- A removal leaves alone what is not at or below the path. -/
theorem get?_remove_of_not {r : Option NodeRef} (hr : t.remove p v = .ok (t', r))
    (hq : ¬q.isAtOrBelow p = true) : t'.slots.get? q = t.slots.get? q := by
  rw [remove_eq] at hr
  split at hr
  · simp at hr
  · split at hr
    · obtain ⟨rfl, -⟩ := by simpa using hr
      rfl
    · obtain ⟨rfl, -⟩ := by simpa using hr
      exact get?_bury.trans (if_neg hq)

/-- A removal only fails at the root. -/
theorem remove_isOk (hp : p ≠ Path.root) : ∃ t' r, t.remove p v = .ok (t', r) := by
  rw [remove_eq, if_neg hp]
  cases t.peek? p with
  | none => exact ⟨_, _, rfl⟩
  | some n => exact ⟨_, _, rfl⟩

theorem remove_nextId {r : Option NodeRef} (hr : t.remove p v = .ok (t', r)) :
    t'.nextId = t.nextId := by
  rw [remove_eq] at hr
  split at hr
  · simp at hr
  · split at hr <;> obtain ⟨rfl, -⟩ := by simpa using hr
    · rfl
    · rfl

/-! ### Installing -/

theorem place_slots : (t.place p d v).slots = t.slots.insert p ⟨t.nextId, true, v, d⟩ := by
  simp only [place]
  split <;> rfl

theorem place_nextId : (t.place p d v).nextId = t.nextId + 1 := by
  simp only [place]
  split <;> rfl

theorem get?_place : (t.place p d v).slots.get? q =
    if q = p then some ⟨t.nextId, true, v, d⟩ else t.slots.get? q := by
  rw [place_slots, SortedMap.get?_insert]

theorem isValidAt_place :
    (t.place p d v).isValidAt q = true ↔ q = p ∨ t.isValidAt q = true := by
  rw [isValidAt_iff, isValidAt_iff]
  simp only [get?_place]
  by_cases hq : q = p
  · simp [hq]
  · simp [hq]

theorem Sound.place (h : t.Sound) {name : String} (hp : t.isValidAt p = true) :
    (t.place (p.push name) d v).Sound := by
  constructor
  · exact isValidAt_place.2 (.inr h.root)
  · intro q m hq
    rw [isValidAt_place] at hq ⊢
    rcases hq with hq | hq
    · obtain ⟨rfl, -⟩ := Path.push_inj.1 hq
      exact .inr hp
    · exact .inr (h.parent hq)
  · intro q n hn
    rw [place_nextId]
    rw [get?_place] at hn
    split at hn
    · obtain rfl := Option.some.inj hn
      exact Nat.lt_succ_self _
    · exact Nat.lt_succ_of_lt (h.fresh hn)

/-- An installation succeeds exactly below a valid node. -/
theorem install_isOk :
    (∃ t' r, t.install p d v = .ok (t', r)) ↔ ∃ q name, p = q.push name ∧ t.exists? q = true := by
  cases p using Path.rootOrPush with
  | root =>
      simp only [install, Path.parent?_root]
      constructor
      · rintro ⟨_, _, h⟩
        simp at h
      · rintro ⟨q, name, h, -⟩
        exact absurd h.symm Path.push_ne_root
  | push q name =>
      simp only [install, Path.parent?_push]
      constructor
      · rintro ⟨t', r, h⟩
        split at h
        · rename_i hq
          exact ⟨q, name, rfl, hq⟩
        · simp at h
      · rintro ⟨q', name', h, hq⟩
        obtain ⟨rfl, -⟩ := Path.push_inj.1 h
        rw [if_pos hq]
        exact ⟨_, _, rfl⟩

/-- What an installation does: it buries what is there, and puts a new node in its place. -/
theorem install_ok {r : NodeRef} (hi : t.install p d v = .ok (t', r)) :
    ∃ q name, p = q.push name ∧ t.exists? q = true ∧ r = ⟨p, t.nextId⟩ ∧
      t' = ((if t.isValidAt p then t.bury p v else t).observe v).place p d v := by
  obtain ⟨q, name, rfl, hq⟩ := install_isOk.1 ⟨t', r, hi⟩
  simp only [install, Path.parent?_push, if_pos hq, Except.ok.injEq, Prod.mk.injEq] at hi
  exact ⟨q, name, rfl, hq, hi.2.symm, hi.1.symm⟩

theorem install_nextId {r : NodeRef} (hi : t.install p d v = .ok (t', r)) :
    t'.nextId = t.nextId + 1 := by
  obtain ⟨q, name, rfl, -, -, rfl⟩ := install_ok hi
  rw [place_nextId]
  split <;> rfl

/-- The tree in which the installation puts the new node. -/
theorem Sound.cleared (h : t.Sound) {name : String} :
    ((if t.isValidAt (p.push name) then t.bury (p.push name) v else t).observe v).Sound := by
  split
  · exact (h.bury Path.push_ne_root v).observe v
  · exact h.observe v

theorem Sound.install {r : NodeRef} (h : t.Sound) (hi : t.install p d v = .ok (t', r)) :
    t'.Sound := by
  obtain ⟨q, name, rfl, hq, -, rfl⟩ := install_ok hi
  refine Sound.place h.cleared ?_
  rw [h.exists?_iff] at hq
  split
  · refine isValidAt_bury.2 ⟨hq, fun hb => ?_⟩
    exact Path.not_isAtOrBelow_of_isAbove (Path.isAbove_push_self q name) hb
  · exact hq

/-- After an installation the new node is in its place; what is below a valid node that was there is
buried. -/
theorem get?_install {r : NodeRef} (hi : t.install p d v = .ok (t', r)) :
    t'.slots.get? q =
      if q = p then some ⟨t.nextId, true, v, d⟩
      else if t.isValidAt p then (t.bury p v).slots.get? q else t.slots.get? q := by
  obtain ⟨r, name, rfl, -, -, rfl⟩ := install_ok hi
  rw [get?_place]
  split
  · split <;> rfl
  · split <;> rfl

/-- After an installation the new node is found, and nothing below it. -/
theorem Sound.peek?_install {r : NodeRef} (h : t.Sound) (hi : t.install p d v = .ok (t', r))
    (q : Path) : t'.peek? q =
      if q = p then some ⟨t.nextId, true, v, d⟩
      else if p.isAbove q then none else t.peek? q := by
  rw [(h.install hi).peek?_eq]
  obtain ⟨r, name, rfl, -, -, rfl⟩ := install_ok hi
  rw [get?_place]
  by_cases hqp : q = r.push name
  · rw [if_pos hqp, if_pos hqp]
    split <;> rfl
  · rw [if_neg hqp, if_neg hqp, ← h.cleared.peek?_eq]
    by_cases hv : t.isValidAt (r.push name) = true
    · rw [if_pos hv, peek?_observe, h.peek?_bury Path.push_ne_root]
      simp only [Path.isAtOrBelow_iff, hqp, false_or]
    · rw [if_neg hv, peek?_observe]
      split
      · rename_i hbelow
        exact h.peek?_none_of_isAbove hbelow (h.peek?_eq_none.2 hv)
      · rfl

/-! ### Writing -/

theorem get?_overwrite : (t.overwrite p n d v).slots.get? q =
    if q = p then some { n with data := d, version := v } else t.slots.get? q := by
  simp only [overwrite, SortedMap.get?_insert]

theorem Sound.overwrite (h : t.Sound) (hp : t.peek? p = some n) : (t.overwrite p n d v).Sound := by
  obtain ⟨hget, hvalid⟩ := h.peek?_eq_some.1 hp
  have hv : ∀ q, (t.overwrite p n d v).isValidAt q = true ↔ t.isValidAt q = true := by
    intro q
    rw [isValidAt_iff, isValidAt_iff]
    simp only [get?_overwrite]
    by_cases hq : q = p
    · simp [hq, hget, hvalid]
    · simp [hq]
  constructor
  · rw [hv]; exact h.root
  · intro q name
    rw [hv, hv]; exact h.parent
  · intro q m hm
    rw [get?_overwrite] at hm
    split at hm
    · obtain rfl := Option.some.inj hm
      have hlt := h.fresh hget
      exact hlt
    · exact h.fresh hm

/-- The node whose data are written is found with them, and all others as before. -/
theorem Sound.peek?_overwrite (h : t.Sound) (hp : t.peek? p = some n) (q : Path) :
    (t.overwrite p n d v).peek? q =
      if q = p then some { n with data := d, version := v } else t.peek? q := by
  rw [(h.overwrite hp).peek?_eq, get?_overwrite]
  split
  · simp [Option.filter, (h.peek?_eq_some.1 hp).2]
  · rw [h.peek?_eq]

/-- What an update does, where there is a node. -/
theorem update_ok :
    t.update p d v = .ok t' ↔ ∃ n, t.peek? p = some n ∧ t' = t.overwrite p n d v := by
  simp only [update]
  cases t.peek? p with
  | none => simp
  | some n => simp [eq_comm]

theorem Sound.update (h : t.Sound) (hu : t.update p d v = .ok t') : t'.Sound := by
  obtain ⟨n, hn, rfl⟩ := update_ok.1 hu
  exact h.overwrite hn

/-- After an update the same node is found, with the new data. -/
theorem Sound.peek?_update (h : t.Sound) (hu : t.update p d v = .ok t') (q : Path) :
    t'.peek? q =
      if q = p then (t.peek? p).map fun n => { n with data := d, version := v } else t.peek? q := by
  obtain ⟨n, hn, rfl⟩ := update_ok.1 hu
  rw [h.peek?_overwrite hn, hn]
  rfl

theorem update_nextId (hu : t.update p d v = .ok t') : t'.nextId = t.nextId := by
  obtain ⟨n, -, rfl⟩ := update_ok.1 hu
  rfl

/-! ### Dropping tombstones -/

theorem get?_purge : t.purge.1.slots.get? p = (t.slots.get? p).filter (·.valid) := by
  simp only [CommittedTree.purge, SortedMap.get?_filter]

theorem isValidAt_purge : t.purge.1.isValidAt p = t.isValidAt p := by
  rw [Bool.eq_iff_iff, isValidAt_iff, isValidAt_iff]
  simp only [get?_purge, Option.filter_eq_some_iff, and_assoc, and_self]

theorem Sound.purge (h : t.Sound) : t.purge.1.Sound := by
  constructor
  · rw [isValidAt_purge]
    exact h.root
  · intro p name
    rw [isValidAt_purge, isValidAt_purge]
    exact h.parent
  · intro p n hn
    rw [get?_purge, Option.filter_eq_some_iff] at hn
    exact h.fresh hn.1

/-- Dropping tombstones takes away nothing that is found. -/
theorem Sound.peek?_purge (h : t.Sound) : t.purge.1.peek? p = t.peek? p := by
  rw [h.purge.peek?_eq, h.peek?_eq, get?_purge, Option.filter_filter]
  simp only [Bool.and_self]

theorem childNames_purge : t.purge.1.childNames p = t.childNames p := by
  refine SortedSet.ext_has fun name => ?_
  rw [mem_childNames, mem_childNames, isValidAt_purge]

end CommittedTree

end TransactionalTree
