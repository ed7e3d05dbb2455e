/-
**Workspaces and what is seen through them.**

The entries below a path are the ones that its range of the order holds, and dropping them leaves
all others.  What is seen at a path depends on the entries above it and at it: an entry that is not
there cuts off what is below, and an entry made anew shadows what is committed below.

Main results:

* `Workspace.mem_below`, `Workspace.mem_childrenOf` — **the range scan is exact**;
* `Workspace.get?_dropBelow`, `Workspace.mem_dirty` — the entries that stay, and that are merged;
* `View.isCutOff_iff`, `View.isShadowed_iff`, `View.locate_eq_staged` — where a path leads;
* `View.has_overlay` — the names of the children, one by one.
-/

import TransactionalTree.Proofs.Committed
import TransactionalTree.View

set_option relaxedAutoImplicit false
set_option autoImplicit false

namespace TransactionalTree

namespace Workspace

variable {w : Workspace} {p q : Path} {e : Entry}

/-! ### The entries below a path -/

/-- In order, and above `p`, the entries up to the first that is not below `p` are all that are. -/
theorem takeWhile_isBelow {es : List (Path × Entry)}
    (hes : es.Pairwise fun a b => compare a.1 b.1 = .lt) (hp : ∀ a ∈ es, compare p a.1 = .lt) :
    (es.takeWhile fun a => a.1.isBelow p) = es.filter fun a => a.1.isBelow p := by
  induction es with
  | nil => rfl
  | cons a es ih =>
      obtain ⟨ha, hes⟩ := List.pairwise_cons.1 hes
      rw [List.takeWhile_cons, List.filter_cons]
      split
      · rw [ih hes fun b hb => hp b (List.mem_cons_of_mem _ hb)]
      · rename_i hna
        refine (List.filter_eq_nil_iff.2 fun b hb hbelow => hna ?_).symm
        exact Path.isAbove_of_between hbelow (hp a List.mem_cons_self) (ha b hb)

/-- **The range scan finds exactly the entries below a path.** -/
theorem mem_below : (q, e) ∈ w.below p ↔ w.get? q = some e ∧ p.isAbove q = true := by
  have hlt : ∀ a ∈ w.above p, compare p a.1 = .lt := fun a ha => (SortedMap.mem_above.1 ha).2
  rw [below, takeWhile_isBelow (SortedMap.above_pairwise w p) hlt, List.mem_filter,
    SortedMap.mem_above]
  constructor
  · rintro ⟨⟨h, -⟩, habove⟩
    exact ⟨h, habove⟩
  · rintro ⟨h, habove⟩
    exact ⟨⟨h, Path.lt_of_isAbove habove⟩, habove⟩

theorem mem_childrenOf :
    (q, e) ∈ w.childrenOf p ↔ w.get? q = some e ∧ ∃ name, q = p.push name := by
  rw [childrenOf, List.mem_filter, mem_below, Path.isChildOf_iff]
  constructor
  · rintro ⟨⟨h, -⟩, hc⟩
    exact ⟨h, hc⟩
  · rintro ⟨h, name, rfl⟩
    exact ⟨⟨h, Path.isAbove_push_self p name⟩, name, rfl⟩

theorem below_pairwise (w : Workspace) (p : Path) :
    (w.below p).Pairwise fun a b => compare a.1 b.1 = .lt :=
  (SortedMap.above_pairwise w p).sublist (List.takeWhile_sublist _)

theorem childrenOf_pairwise (w : Workspace) (p : Path) :
    (w.childrenOf p).Pairwise fun a b => compare a.1 b.1 = .lt :=
  (below_pairwise w p).sublist List.filter_sublist

/-- Dropping the entries below a path leaves all others. -/
theorem get?_dropBelow :
    (w.dropBelow p).get? q = if p.isAbove q then none else w.get? q := by
  rw [dropBelow, SortedMap.get?_eraseAll]
  by_cases hpq : p.isAbove q = true
  · rw [if_pos hpq]
    split
    · rfl
    · rename_i hmem
      cases hq : w.get? q with
      | none => rfl
      | some e => exact absurd (List.mem_map.2 ⟨_, mem_below.2 ⟨hq, hpq⟩, rfl⟩) hmem
  · rw [if_neg hpq, if_neg]
    intro hmem
    obtain ⟨⟨r, e⟩, hr, rfl⟩ := List.mem_map.1 hmem
    exact hpq (mem_below.1 hr).2

/-- Removing a node drops the entries below it and marks its own. -/
theorem get?_remove : ((w.dropBelow p).modify p .markRemoved).get? q =
    if p.isAbove q then none else if q = p then (w.get? q).map .markRemoved else w.get? q := by
  rw [SortedMap.get?_modify, get?_dropBelow]
  by_cases hpq : p.isAbove q = true
  · simp [hpq]
  · simp only [if_neg hpq]

/-- What is left when a node has been removed is as before, or is the mark at the node itself. -/
theorem of_get?_remove {f : Entry}
    (hf : ((w.dropBelow p).modify p .markRemoved).get? q = some f) : ¬p.isAbove q = true ∧
      ∃ e, w.get? q = some e ∧ (q = p ∧ f = e.markRemoved ∨ q ≠ p ∧ f = e) := by
  rw [get?_remove] at hf
  split at hf
  · simp at hf
  · rename_i hpq
    refine ⟨hpq, ?_⟩
    split at hf
    · rename_i hq
      obtain ⟨e, he, rfl⟩ := Option.map_eq_some_iff.1 hf
      exact ⟨e, he, .inl ⟨hq, rfl⟩⟩
    · rename_i hq
      exact ⟨f, hf, .inr ⟨hq, rfl⟩⟩

/-- Removing a node leaves all entries elsewhere. -/
theorem get?_remove_of_not (h : ¬q.isAtOrBelow p = true) :
    ((w.dropBelow p).modify p .markRemoved).get? q = w.get? q := by
  have hqp : q ≠ p := fun he => h (Path.isAtOrBelow_iff.2 (.inl he))
  have hpq : ¬p.isAbove q = true := fun ha => h (Path.isAtOrBelow_of_isAbove ha)
  rw [get?_remove, if_neg hpq, if_neg hqp]

/-! ### The entries that are merged -/

theorem mem_dirty : (q, e) ∈ w.dirty ↔ w.get? q = some e ∧ e.isDirty = true := by
  rw [dirty, List.mem_filter, SortedMap.get?_eq_some_iff]

theorem dirty_pairwise (w : Workspace) :
    w.dirty.Pairwise fun a b => compare a.1 b.1 = .lt :=
  w.ordered.sublist List.filter_sublist

theorem dirty_eq_nil_iff : w.dirty = [] ↔ w.hasChanges = false := by
  rw [dirty, List.filter_eq_nil_iff, hasChanges, List.any_eq_false]

theorem hasChanges_iff :
    w.hasChanges = true ↔ ∃ q e, w.get? q = some e ∧ e.isDirty = true := by
  rw [hasChanges, List.any_eq_true]
  constructor
  · rintro ⟨⟨q, e⟩, hmem, hd⟩
    exact ⟨q, e, SortedMap.get?_eq_some_iff.2 hmem, hd⟩
  · rintro ⟨q, e, hget, hd⟩
    exact ⟨(q, e), SortedMap.get?_eq_some_iff.1 hget, hd⟩

end Workspace

namespace View

variable {v : View} {p q : Path} {e : Entry} {n : Node} {name : String}

/-! ### Where a path leads -/

theorem isCutOff_iff : v.isCutOff p = true ↔
    ∃ q e, q.isAbove p = true ∧ v.workspace.get? q = some e ∧ e.isPresent = false := by
  simp only [isCutOff, List.any_eq_true, Path.mem_ancestors, Option.any_eq_true]
  simp

theorem isShadowed_iff : v.isShadowed p = true ↔
    ∃ q e, q.isAbove p = true ∧ v.workspace.get? q = some e ∧ e.created = true := by
  simp only [isShadowed, List.any_eq_true, Path.mem_ancestors, Option.any_eq_true]
  simp

theorem isCutOff_of_isAbove (hqp : q.isAbove p = true) (h : v.isCutOff q = true) :
    v.isCutOff p = true := by
  obtain ⟨r, e, hr, he, hp⟩ := isCutOff_iff.1 h
  exact isCutOff_iff.2 ⟨r, e, Path.isAbove_trans hr hqp, he, hp⟩

theorem isShadowed_of_isAbove (hqp : q.isAbove p = true) (h : v.isShadowed q = true) :
    v.isShadowed p = true := by
  obtain ⟨r, e, hr, he, hc⟩ := isShadowed_iff.1 h
  exact isShadowed_iff.2 ⟨r, e, Path.isAbove_trans hr hqp, he, hc⟩

theorem locate_of_entry (hc : ¬v.isCutOff p = true) (he : v.workspace.get? p = some e) :
    v.locate p = if e.isPresent then .staged e else .hidden := by
  simp only [locate, if_neg hc, he]

theorem locate_eq_staged : v.locate p = .staged e ↔
    ¬v.isCutOff p = true ∧ v.workspace.get? p = some e ∧ e.isPresent = true := by
  simp only [locate]
  split
  · rename_i hc
    simp [hc]
  · rename_i hc
    split
    · rename_i f hf
      rw [hf, Option.some.injEq]
      by_cases hp : f.isPresent = true
      · rw [if_pos hp, Location.staged.injEq]
        constructor
        · rintro rfl; exact ⟨hc, rfl, hp⟩
        · exact fun h => h.2.1
      · rw [if_neg hp]
        constructor
        · intro h; simp at h
        · rintro ⟨-, rfl, he⟩; exact absurd he hp
    · rename_i hnone
      simp only [hnone]
      split
      · simp
      · split <;> simp

theorem locate_eq_committed : v.locate p = .committed n ↔
    ¬v.isCutOff p = true ∧ v.workspace.get? p = none ∧ ¬v.isShadowed p = true ∧
      v.base.tree.peek? p = some n := by
  simp only [locate]
  split
  · rename_i hc
    simp [hc]
  · rename_i hc
    split
    · rename_i f hf
      split <;> simp [hf]
    · rename_i hnone
      split
      · rename_i hs
        simp [hs]
      · rename_i hs
        split
        · rename_i m hm
          simp [hc, hnone, hs, hm]
        · rename_i hm
          simp [hm]

theorem locate_eq_missing : v.locate p = .missing ↔
    ¬v.isCutOff p = true ∧ v.workspace.get? p = none ∧ ¬v.isShadowed p = true ∧
      v.base.tree.peek? p = none := by
  simp only [locate]
  split
  · rename_i hc
    simp [hc]
  · rename_i hc
    split
    · rename_i f hf
      split <;> simp [hf]
    · rename_i hnone
      split
      · rename_i hs
        simp [hs]
      · rename_i hs
        split
        · rename_i m hm
          simp [hm]
        · rename_i hm
          simp [hc, hnone, hs, hm]

/-- A path leads to a node that has an entry, or to a committed one that has none. -/
theorem exists?_iff : v.exists? p = true ↔
    (∃ e, v.locate p = .staged e) ∨ ∃ n, v.locate p = .committed n := by
  rw [exists?]
  cases v.locate p <;> simp [Location.isPresent]

theorem not_isCutOff_of_exists? (h : v.exists? p = true) : ¬v.isCutOff p = true := by
  rcases exists?_iff.1 h with ⟨e, he⟩ | ⟨n, hn⟩
  · exact (locate_eq_staged.1 he).1
  · exact (locate_eq_committed.1 hn).1

/-- The entry of a node that is there is present. -/
theorem isPresent_of_exists? (h : v.exists? p = true) (he : v.workspace.get? p = some e) :
    e.isPresent = true := by
  rcases exists?_iff.1 h with ⟨f, hf⟩ | ⟨n, hn⟩
  · obtain ⟨-, hget, hp⟩ := locate_eq_staged.1 hf
    rw [he] at hget
    obtain rfl := Option.some.inj hget
    exact hp
  · have := (locate_eq_committed.1 hn).2.1
    rw [he] at this
    simp at this

/-- Below a node that is there nothing is cut off by it or above it. -/
theorem not_isCutOff_push (h : v.exists? p = true) : ¬v.isCutOff (p.push name) = true := by
  intro hc
  obtain ⟨q, e, hq, he, hp⟩ := isCutOff_iff.1 hc
  rcases Path.isAtOrBelow_iff.1 (Path.isAbove_push.1 hq) with rfl | hq
  · rw [isPresent_of_exists? h he] at hp
    simp at hp
  · exact not_isCutOff_of_exists? h (isCutOff_iff.2 ⟨q, e, hq, he, hp⟩)

theorem isSome_data? (v : View) (p : Path) : (v.data? p).isSome = v.exists? p := by
  rw [exists?, data?]
  cases v.locate p <;> rfl

theorem exists?_iff_data? : v.exists? p = true ↔ ∃ d, v.data? p = some d := by
  rw [← isSome_data?, Option.isSome_iff_exists]

/-! ### The names of the children -/

/-- Overlaying the entry for a child decides about its name only. -/
theorem has_overlayChild {a : Path × Entry} {m : String} (hm : a.1 = p.push m) {names : NameSet} :
    (overlayChild names a).has name = true ↔
      if name = m then a.2.isPresent = true else names.has name = true := by
  simp only [overlayChild, hm, Path.name?_push]
  by_cases hp : a.2.isPresent = true
  · rw [if_pos hp, SortedSet.has_add]
    split <;> simp_all
  · rw [if_neg hp, SortedSet.has_erase]
    split <;> simp_all

/-- Overlaying entries for children changes exactly their names. -/
theorem has_foldl_overlayChild {es : List (Path × Entry)} (hes : ∀ a ∈ es, ∃ m, a.1 = p.push m)
    (hnd : (es.map (·.1)).Nodup) {names : NameSet} :
    (es.foldl overlayChild names).has name = true ↔
      (∃ e, (p.push name, e) ∈ es ∧ e.isPresent = true) ∨
        ((∀ e, (p.push name, e) ∉ es) ∧ names.has name = true) := by
  induction es generalizing names with
  | nil => simp
  | cons a es ih =>
      obtain ⟨m, hm⟩ := hes a List.mem_cons_self
      rw [List.map_cons, List.nodup_cons] at hnd
      rw [List.foldl_cons, ih (fun b hb => hes b (List.mem_cons_of_mem _ hb)) hnd.2]
      have hover : (overlayChild names a).has name = true ↔
          if name = m then a.2.isPresent = true else names.has name = true := has_overlayChild hm
      by_cases hname : name = m
      -- no later entry is about the same child
      · subst hname
        have hnot : ∀ e, (p.push name, e) ∉ es := fun e he =>
          hnd.1 (List.mem_map.2 ⟨_, he, hm.symm⟩)
        have hself : ∀ e, (p.push name, e) ∈ a :: es ↔ e = a.2 := by
          intro e
          rw [List.mem_cons]
          constructor
          · rintro (h | h)
            · rw [← h]
            · exact absurd h (hnot e)
          · rintro rfl
            exact .inl (by rw [← hm])
        simp only [hself, hnot, hover, if_true, exists_eq_left, not_false_eq_true,
          implies_true, true_and, false_and, exists_false, false_or]
        constructor
        · exact .inl
        · rintro (h | ⟨h, -⟩)
          · exact h
          · exact absurd rfl (h a.2)
      · have hne : ∀ e, (p.push name, e) ∈ a :: es ↔ (p.push name, e) ∈ es := by
          intro e
          rw [List.mem_cons]
          refine ⟨fun h => h.resolve_left fun he => ?_, .inr⟩
          rw [← he] at hm
          exact hname (Path.push_inj.1 hm).2
        simp only [hne, hover, if_neg hname]

theorem has_overlay {names : NameSet} :
    ((v.workspace.childrenOf p).foldl overlayChild names).has name = true ↔
      (∃ e, v.workspace.get? (p.push name) = some e ∧ e.isPresent = true) ∨
        (v.workspace.get? (p.push name) = none ∧ names.has name = true) := by
  rw [has_foldl_overlayChild (p := p)]
  · simp only [Workspace.mem_childrenOf, Path.push_inj, true_and, exists_eq', and_true]
    cases v.workspace.get? (p.push name) <;> simp
  · rintro ⟨q, e⟩ ha
    exact (Workspace.mem_childrenOf.1 ha).2
  · exact SortedMap.nodup_fst (Workspace.childrenOf_pairwise v.workspace p)

/-- A path has names of children exactly if there is a node. -/
theorem childNames_isSome : (v.childNames p).isSome = v.exists? p := by
  rw [childNames, childNamesAt, exists?]
  cases v.locate p <;> simp [baseChildNames, Location.isPresent]

/-! ### What is found below a node -/

/-- What is found below a node is a child that is there, or is found below one with a level less. -/
theorem mem_descend_succ {fuel : Nat} : q ∈ v.descend (fuel + 1) p ↔
    ∃ names name, v.childNames p = some names ∧ names.has name = true ∧
      v.exists? (p.push name) = true ∧ (q = p.push name ∨ q ∈ v.descend fuel (p.push name)) := by
  rw [descend]
  cases v.childNames p with
  | none => simp
  | some names =>
      simp only [List.mem_flatMap, SortedSet.mem_keys, Option.some.injEq]
      constructor
      · rintro ⟨name, hm, hq⟩
        split at hq
        · exact ⟨names, name, rfl, hm, ‹_›, List.mem_cons.1 hq⟩
        · simp at hq
      · rintro ⟨_, name, rfl, hm, hex, hq⟩
        exact ⟨name, hm, by rw [if_pos hex]; exact List.mem_cons.2 hq⟩

theorem le_foldl_max (ps : List Path) (d : Nat) :
    d ≤ ps.foldl (fun d p => max d p.depth) d ∧
      ∀ p ∈ ps, p.depth ≤ ps.foldl (fun d p => max d p.depth) d := by
  induction ps generalizing d with
  | nil => simp
  | cons r ps ih =>
      obtain ⟨hd, hps⟩ := ih (max d r.depth)
      rw [List.foldl_cons]
      refine ⟨Nat.le_trans (Nat.le_max_left _ _) hd, fun p hp => ?_⟩
      rcases List.mem_cons.1 hp with rfl | hp
      · exact Nat.le_trans (Nat.le_max_right _ _) hd
      · exact hps p hp

/-- No node is deeper than the bound. -/
theorem depth_le_depthBound (hex : v.exists? p = true) : p.depth ≤ v.depthBound := by
  refine (le_foldl_max _ 0).2 p (List.mem_append.2 ?_)
  rcases exists?_iff.1 hex with ⟨e, hl⟩ | ⟨n, hl⟩
  · exact .inl (SortedMap.mem_keys.2 ⟨e, (locate_eq_staged.1 hl).2.1⟩)
  · have hn := (locate_eq_committed.1 hl).2.2.2
    exact .inr (SortedMap.mem_keys.2 ⟨n, CommittedTree.get?_of_peek? hn⟩)

end View

end TransactionalTree
