/-
**Subtrees in the order of paths.**

The paths at or below a path are an interval of the order, whatever characters their names have: the
comparison goes name by name and not along the written form.  So a scan of a workspace that begins
behind a path and stops at the first entry that is not below it misses nothing.  Putting a subtree
elsewhere exchanges what all its paths have in common at the front and leaves the rest, by which the
paths are compared.

Main results:

* `Workspace.below_eq_filter`, `Workspace.dropBelow_eq_filter` — the scan of a subtree as a filter;
* `Workspace.subtree_scan_exact` — **the scan of a subtree is exact**;
* `Path.rebase?_isomorphism` — **putting a subtree elsewhere is an isomorphism of subtrees**.
-/

import Mathlib.Data.List.TakeWhile
import TransactionalTree.Proofs.Views

set_option relaxedAutoImplicit false
set_option autoImplicit false

namespace TransactionalTree

namespace Path

/-! ### The order of paths -/

theorem compare_total (x y : Path) : compare x y = .lt ∨ x = y ∨ compare y x = .lt := by
  cases h : compare x y with
  | lt => exact .inl rfl
  | eq => exact .inr (.inl (Std.LawfulEqOrd.eq_of_compare h))
  | gt => exact .inr (.inr (Std.OrientedCmp.lt_of_gt h))

end Path

namespace Workspace

variable {w : Workspace} {p : Path}

/-! ### The scan of a subtree -/

/-- What the scan skips at the front is not below the path. -/
theorem filter_above (w : Workspace) (p : Path) :
    (w.above p).filter (fun e => p.isAbove e.1) = w.toList.filter fun e => p.isAbove e.1 := by
  have hfront : (w.toList.takeWhile fun e => (compare e.1 p).isLE).filter
      (fun e => p.isAbove e.1) = [] := by
    refine List.filter_eq_nil_iff.2 fun e he habove => ?_
    have hle := List.mem_takeWhile_imp he
    rw [Std.OrientedCmp.gt_of_lt (Path.lt_of_isAbove habove)] at hle
    simp at hle
  conv_rhs => rw [← List.takeWhile_append_dropWhile (p := fun e => (compare e.1 p).isLE)
    (l := w.toList)]
  rw [List.filter_append, hfront, List.nil_append]
  rfl

/-- The scan stops early and yet finds the same as a look at every entry. -/
theorem below_eq_filter (w : Workspace) (p : Path) :
    w.below p = w.toList.filter fun e => p.isAbove e.1 := by
  have hlt : ∀ a ∈ w.above p, compare p a.1 = .lt := fun a ha => (SortedMap.mem_above.1 ha).2
  rw [below, takeWhile_isBelow (SortedMap.above_pairwise w p) hlt]
  exact filter_above w p

/-- One name below is what has the path as its parent. -/
theorem childrenOf_eq_filter (w : Workspace) (p : Path) :
    w.childrenOf p = w.toList.filter fun e => e.1.parent? = some p := by
  rw [childrenOf, below_eq_filter, List.filter_filter]
  refine List.filter_congr fun e _ => ?_
  rw [Bool.eq_iff_iff, Bool.and_eq_true, Path.isChildOf_iff, decide_eq_true_iff,
    Path.parent?_eq_some]
  refine and_iff_left_of_imp ?_
  rintro ⟨name, hname⟩
  rw [hname]
  exact Path.isAbove_push_self p name

theorem dropBelow_eq_filter (w : Workspace) (p : Path) :
    w.dropBelow p = w.filter fun q _ => !p.isAbove q := by
  refine SortedMap.ext_get? fun q => ?_
  rw [get?_dropBelow, SortedMap.get?_filter]
  cases p.isAbove q <;> cases w.get? q <;> rfl

/-- The scan comes to a node before it comes to what is below that. -/
theorem below_parents_first (w : Workspace) (p : Path) :
    (w.below p).Pairwise fun a b => ¬b.1.isAbove a.1 = true :=
  (below_pairwise w p).imp Path.isAbove_asymm_of_lt

/-- **The scan of a subtree is exact.**  The order of paths is linear, puts a path before all that
is below it, and has nothing else between a path and what is at or below it.  So the scan yields the
entries below the path, all of them and each once, parents first; those one name below are among
them; and dropping what it yields leaves all other entries as they are. -/
theorem subtree_scan_exact (w : Workspace) (p : Path) :
    (∀ x y : Path, compare x y = .lt ∨ x = y ∨ compare y x = .lt) ∧
    (∀ x y : Path, (compare x y).isLE = true → (compare y x).isLE = true → x = y) ∧
    (∀ x y z : Path, (compare x y).isLE = true → (compare y z).isLE = true →
      (compare x z).isLE = true) ∧
    (∀ x : Path, p.isAbove x = true → compare p x = .lt) ∧
    (∀ x d : Path, d.isAtOrBelow p = true → (compare p x).isLE = true →
      (compare x d).isLE = true → x.isAtOrBelow p = true) ∧
    w.below p = w.toList.filter (fun e => p.isAbove e.1) ∧
    ((w.below p).map (·.1)).Nodup ∧
    (w.below p).Pairwise (fun a b => ¬b.1.isAbove a.1 = true) ∧
    w.childrenOf p = w.toList.filter (fun e => e.1.parent? = some p) ∧
    (∀ q, (w.dropBelow p).get? q = if p.isAbove q then none else w.get? q) ∧
    (w.dropBelow p).toList = w.toList.filter (fun e => !p.isAbove e.1) := by
  refine ⟨Path.compare_total, fun x y hxy hyx => ?_, fun x y z => Std.TransCmp.isLE_trans,
    fun x => Path.lt_of_isAbove, fun x d => Path.isAtOrBelow_of_between, below_eq_filter w p,
    SortedMap.nodup_fst (below_pairwise w p), below_parents_first w p, childrenOf_eq_filter w p,
    fun q => get?_dropBelow, ?_⟩
  · exact Std.LawfulEqOrd.eq_of_compare (Std.OrientedCmp.isLE_antisymm hxy hyx)
  · rw [dropBelow_eq_filter]
    rfl

/-- A workspace in which the written forms of other paths come into a subtree: `/a-b` comes before
`/a/b` as text. -/
def crowded : Workspace :=
  SortedMap.empty.insertAll
    [(⟨["a", "b", "c"]⟩, .fresh), (⟨["a-b"]⟩, .fresh), (⟨["a"]⟩, .fresh), (⟨["a", "b"]⟩, .fresh),
      (⟨["a", "d"]⟩, .fresh), (⟨["ab"]⟩, .fresh)]

/-- Below `/a` the scan finds three entries and no others. -/
theorem scan_crowded :
    (crowded.below ⟨["a"]⟩).map (·.1) = [⟨["a", "b"]⟩, ⟨["a", "b", "c"]⟩, ⟨["a", "d"]⟩] ∧
    Path.isAtOrBelow ⟨["a", "b", "c"]⟩ ⟨["a"]⟩ = true ∧
    (crowded.dropBelow ⟨["a"]⟩).keys = [⟨["a"]⟩, ⟨["a-b"]⟩, ⟨["ab"]⟩] := by
  obtain ⟨-, -, -, -, hbetween, hbelow, -, -, -, -, hdrop⟩ := subtree_scan_exact crowded ⟨["a"]⟩
  refine ⟨?_, hbetween ⟨["a", "b", "c"]⟩ ⟨["a", "d"]⟩ (by decide) (by decide) (by decide), ?_⟩
  · rw [hbelow]
    decide +kernel
  · rw [SortedMap.keys, hdrop]
    decide +kernel

end Workspace

namespace Path

/-! ### Putting a subtree elsewhere -/

variable {p p' q q' old new : Path}

theorem isSome_rebase? : (p.rebase? old new).isSome = true ↔ p.isAtOrBelow old = true := by
  rw [rebase?]
  split <;> simp_all

theorem rebase?_inj (h : p.rebase? old new = some q) (h' : p'.rebase? old new = some q') :
    q = q' ↔ p = p' := by
  constructor
  · rintro rfl
    exact rebase?_injective h h'
  · rintro rfl
    exact Option.some.inj (h.symm.trans h')

theorem compare_rebase? (h : p.rebase? old new = some q) (h' : p'.rebase? old new = some q') :
    compare q q' = compare p p' := by
  obtain ⟨ss, hp, hq⟩ := rebase?_eq_some.1 h
  obtain ⟨ts, hp', hq'⟩ := rebase?_eq_some.1 h'
  rw [compare_eq, compare_eq, hp, hq, hp', hq', compare_append_left, compare_append_left]

/-- What is above a path stays above it. -/
theorem isAbove_of_rebase? (h : p.rebase? old new = some q) (h' : p'.rebase? old new = some q')
    (habove : p.isAbove p' = true) : q.isAbove q' = true := by
  obtain ⟨ss, hp, hq⟩ := rebase?_eq_some.1 h
  obtain ⟨ts, hp', hq'⟩ := rebase?_eq_some.1 h'
  obtain ⟨t, us, hus⟩ := isAbove_iff.1 habove
  have hts : ts = ss ++ t :: us := by
    rw [hp, hp', List.append_assoc] at hus
    exact List.append_cancel_left hus
  exact isAbove_iff.2 ⟨t, us, by rw [hq, hq', hts, List.append_assoc]⟩

theorem isAbove_rebase? (h : p.rebase? old new = some q) (h' : p'.rebase? old new = some q') :
    q.isAbove q' = p.isAbove p' :=
  Bool.eq_iff_iff.2 ⟨isAbove_of_rebase? (rebase?_symm h) (rebase?_symm h'),
    isAbove_of_rebase? h h'⟩

theorem isChildOf_of_rebase? (h : p.rebase? old new = some q) (h' : p'.rebase? old new = some q')
    (hchild : p'.isChildOf p = true) : q'.isChildOf q = true := by
  obtain ⟨name, rfl⟩ := isChildOf_iff.1 hchild
  exact isChildOf_iff.2 ⟨name, Option.some.inj (h'.symm.trans (rebase?_push h))⟩

theorem isChildOf_rebase? (h : p.rebase? old new = some q) (h' : p'.rebase? old new = some q') :
    q'.isChildOf q = p'.isChildOf p :=
  Bool.eq_iff_iff.2 ⟨isChildOf_of_rebase? (rebase?_symm h) (rebase?_symm h'),
    isChildOf_of_rebase? h h'⟩

/-- Below the place that moves, the parent moves along. -/
theorem parent?_rebase? (h : p.rebase? old new = some q) (habove : old.isAbove p = true) :
    ∃ r s, p.parent? = some r ∧ r.rebase? old new = some s ∧ q.parent? = some s := by
  induction p using rootOrPush with
  | root => exact absurd habove isAbove_root
  | push r name _ =>
      obtain ⟨s, hs⟩ := Option.isSome_iff_exists.1 (isSome_rebase?.2 (isAbove_push.1 habove))
      obtain rfl := Option.some.inj ((rebase?_push hs).symm.trans h)
      exact ⟨r, s, parent?_push r name, hs, parent?_push s name⟩

/-- **Putting a subtree elsewhere is an isomorphism of subtrees.**  Exactly what is at or below the
old place has a new place, which is at or below the new one and from which it can be put back.  Two
paths stay as they are to each other: in the order, above and below, and parent and child. -/
theorem rebase?_isomorphism (old new : Path) :
    (∀ p : Path, (p.rebase? old new).isSome = true ↔ p.isAtOrBelow old = true) ∧
    (∀ p q : Path, p.rebase? old new = some q →
      q.isAtOrBelow new = true ∧ q.rebase? new old = some p) ∧
    (∀ p p' q q' : Path, p.rebase? old new = some q → p'.rebase? old new = some q' →
      (q = q' ↔ p = p') ∧ compare q q' = compare p p' ∧ q.isAbove q' = p.isAbove p' ∧
        q'.isChildOf q = p'.isChildOf p) ∧
    (∀ p q : Path, p.rebase? old new = some q → old.isAbove p = true →
      ∃ r s, p.parent? = some r ∧ r.rebase? old new = some s ∧ q.parent? = some s) :=
  ⟨fun _ => isSome_rebase?, fun _ _ h => ⟨(rebase?_isAtOrBelow h).2, rebase?_symm h⟩,
    fun _ _ _ _ h h' => ⟨rebase?_inj h h', compare_rebase? h h', isAbove_rebase? h h',
      isChildOf_rebase? h h'⟩,
    fun _ _ => parent?_rebase?⟩

/-- The subtree of `/a` is put at `/a/b`, below itself. -/
theorem rebase?_into_itself :
    (⟨["a", "b", "c"]⟩ : Path).rebase? ⟨["a"]⟩ ⟨["a", "b"]⟩ = some ⟨["a", "b", "b", "c"]⟩ ∧
    (⟨["a", "b", "b", "c"]⟩ : Path).rebase? ⟨["a", "b"]⟩ ⟨["a"]⟩ = some ⟨["a", "b", "c"]⟩ ∧
    Path.isAbove ⟨["a", "b", "b"]⟩ ⟨["a", "b", "b", "c"]⟩ =
      Path.isAbove ⟨["a", "b"]⟩ ⟨["a", "b", "c"]⟩ ∧
    ∃ r s, (⟨["a", "b", "c"]⟩ : Path).parent? = some r ∧
      r.rebase? ⟨["a"]⟩ ⟨["a", "b"]⟩ = some s ∧
      (⟨["a", "b", "b", "c"]⟩ : Path).parent? = some s := by
  have hc : (⟨["a", "b", "c"]⟩ : Path).rebase? ⟨["a"]⟩ ⟨["a", "b"]⟩ =
      some ⟨["a", "b", "b", "c"]⟩ := by decide
  have hb : (⟨["a", "b"]⟩ : Path).rebase? ⟨["a"]⟩ ⟨["a", "b"]⟩ = some ⟨["a", "b", "b"]⟩ := by decide
  obtain ⟨-, hback, hpairs, hparent⟩ := rebase?_isomorphism ⟨["a"]⟩ ⟨["a", "b"]⟩
  exact ⟨hc, (hback _ _ hc).2, (hpairs _ _ _ _ hb hc).2.2.1, hparent _ _ hc (by decide)⟩

end Path

end TransactionalTree
