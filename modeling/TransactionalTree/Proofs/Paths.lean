/-
**Places above and below each other.**

Being above is being a proper initial segment, so what is above a path forms a chain, and every path
is the root or one name below its parent.  In the order of paths a path comes before what is below
it, and nothing that is not below it comes in between.

Main results:

* `Path.isAbove_trans`, `Path.isAbove_push` — being above, along a path;
* `Path.mem_ancestors`, `Path.mem_steps` — the places on the way;
* `Path.rootOrPush` — **induction along a path**;
* `Path.lt_of_isAbove`, `Path.isAtOrBelow_of_between` — what is below a path follows it without a
  gap;
* `Path.rebase?_eq_some` — putting a subtree elsewhere.
-/

import Mathlib.Data.List.Induction
import TransactionalTree.Path.Basic

set_option relaxedAutoImplicit false
set_option autoImplicit false

namespace TransactionalTree

namespace Path

variable {p q r x y : Path} {name : String}

@[ext] theorem ext_names (h : p.names = q.names) : p = q := by
  obtain ⟨ps⟩ := p
  obtain ⟨qs⟩ := q
  exact congrArg Path.mk h

@[simp] theorem names_push (p : Path) (name : String) : (p.push name).names = p.names ++ [name] :=
  rfl

@[simp] theorem names_root : root.names = [] := rfl

/-! ### Being above -/

theorem isAbove_iff_names : p.isAbove q = true ↔ p.names <+: q.names ∧ p ≠ q := by
  rw [isAbove_iff]
  constructor
  · rintro ⟨s, ss, h⟩
    refine ⟨⟨s :: ss, h.symm⟩, ?_⟩
    rintro rfl
    simp at h
  · rintro ⟨⟨t, ht⟩, hne⟩
    cases t with
    | nil => exact absurd (ext_names (by simpa using ht)) hne
    | cons s ss => exact ⟨s, ss, ht.symm⟩

theorem isAtOrBelow_iff : p.isAtOrBelow q = true ↔ p = q ∨ q.isAbove p = true := by
  simp [isAtOrBelow, isBelow]

/-- Another path is at or below this one if this one is above it. -/
theorem isAtOrBelow_of_ne (h : q ≠ p) : q.isAtOrBelow p = p.isAbove q := by
  rw [isAtOrBelow, decide_eq_false h, Bool.false_or, isBelow]

theorem isAtOrBelow_iff_names : p.isAtOrBelow q = true ↔ q.names <+: p.names := by
  rw [isAtOrBelow_iff, isAbove_iff_names]
  constructor
  · rintro (rfl | h)
    · exact List.prefix_refl _
    · exact h.1
  · intro h
    by_cases hpq : p = q
    · exact .inl hpq
    · exact .inr ⟨h, fun e => hpq e.symm⟩

@[simp] theorem isAtOrBelow_self (p : Path) : p.isAtOrBelow p = true :=
  isAtOrBelow_iff.2 (.inl rfl)

@[simp] theorem not_isAbove_self (p : Path) : ¬p.isAbove p = true :=
  fun h => (isAbove_iff_names.1 h).2 rfl

theorem depth_lt_of_isAbove (h : p.isAbove q = true) : p.depth < q.depth := by
  obtain ⟨s, ss, hq⟩ := isAbove_iff.1 h
  simp [depth, hq]

theorem ne_of_isAbove (h : p.isAbove q = true) : p ≠ q := (isAbove_iff_names.1 h).2

theorem isAbove_trans (h : p.isAbove q = true) (h' : q.isAbove r = true) : p.isAbove r = true := by
  obtain ⟨s, ss, hq⟩ := isAbove_iff.1 h
  obtain ⟨u, us, hr⟩ := isAbove_iff.1 h'
  exact isAbove_iff.2 ⟨s, ss ++ u :: us, by rw [hr, hq]; simp⟩

theorem isAbove_of_isAtOrBelow (h : q.isAtOrBelow p = true) (h' : q.isAbove r = true) :
    p.isAbove r = true := by
  rcases isAtOrBelow_iff.1 h with rfl | h
  · exact h'
  · exact isAbove_trans h h'

theorem isAbove_trans_isAtOrBelow (h : p.isAbove q = true) (h' : r.isAtOrBelow q = true) :
    p.isAbove r = true := by
  rcases isAtOrBelow_iff.1 h' with rfl | h'
  · exact h
  · exact isAbove_trans h h'

/-- What is above a path is not at or below it. -/
theorem not_isAtOrBelow_of_isAbove (h : p.isAbove q = true) : ¬p.isAtOrBelow q = true :=
  fun h' => not_isAbove_self p (isAbove_trans_isAtOrBelow h h')

theorem isAtOrBelow_trans (h : p.isAtOrBelow q = true) (h' : q.isAtOrBelow r = true) :
    p.isAtOrBelow r = true :=
  isAtOrBelow_iff_names.2 ((isAtOrBelow_iff_names.1 h').trans (isAtOrBelow_iff_names.1 h))

/-- What is at or below two places has one of them at or below the other. -/
theorem isAtOrBelow_total (h : r.isAtOrBelow p = true) (h' : r.isAtOrBelow q = true) :
    p.isAtOrBelow q = true ∨ q.isAtOrBelow p = true := by
  rw [isAtOrBelow_iff_names] at h h'
  rcases List.prefix_or_prefix_of_prefix h' h with hqp | hpq
  · exact .inl (isAtOrBelow_iff_names.2 hqp)
  · exact .inr (isAtOrBelow_iff_names.2 hpq)

theorem isAtOrBelow_of_isAbove (h : p.isAbove q = true) : q.isAtOrBelow p = true :=
  isAtOrBelow_iff.2 (.inr h)

/-! ### Parents -/

theorem depth_push : (p.push name).depth = p.depth + 1 := by
  simp [depth]

theorem push_ne_root : p.push name ≠ root := by
  intro h
  have := congrArg Path.names h
  simp [push, root] at this

theorem push_inj {n m : String} : p.push n = q.push m ↔ p = q ∧ n = m := by
  constructor
  · intro h
    have := congrArg Path.names h
    simp only [push] at this
    obtain ⟨h₁, h₂⟩ := List.append_inj' this rfl
    exact ⟨ext_names h₁, by simpa using h₂⟩
  · rintro ⟨rfl, rfl⟩; rfl

theorem parent?_eq_some : p.parent? = some q ↔ ∃ name, p = q.push name := by
  constructor
  · intro h
    simp only [parent?] at h
    split at h
    · simp at h
    · rename_i hne
      have hne' : p.names ≠ [] := by simpa using hne
      refine ⟨p.names.getLast hne', ext_names ?_⟩
      obtain rfl := Option.some.inj h
      simp [push, List.dropLast_concat_getLast]
  · rintro ⟨name, rfl⟩
    exact parent?_push q name

theorem isRoot_iff : p.isRoot = true ↔ p = root := by
  constructor
  · intro h
    exact ext_names (by simpa [isRoot, root] using h)
  · rintro rfl; rfl

/-- **Induction along a path**, from the root one name at a time. -/
@[elab_as_elim]
theorem rootOrPush {motive : Path → Prop} (root : motive Path.root)
    (push : ∀ p name, motive p → motive (p.push name)) (p : Path) : motive p := by
  obtain ⟨ps⟩ := p
  induction ps using List.reverseRecOn with
  | nil => exact root
  | append_singleton ps name ih => exact push ⟨ps⟩ name ih

/-- What is above a child is its parent, or above that. -/
theorem isAbove_push : q.isAbove (p.push name) = true ↔ p.isAtOrBelow q = true := by
  rw [isAtOrBelow_iff_names, isAbove_iff_names]
  simp only [push]
  constructor
  · rintro ⟨h, hne⟩
    rcases List.prefix_concat_iff.1 h with h | h
    · exact absurd (ext_names h) hne
    · exact h
  · intro h
    refine ⟨List.prefix_concat_iff.2 (.inr h), ?_⟩
    rintro rfl
    have hlen := h.length_le
    rw [List.length_append, List.length_singleton] at hlen
    omega

@[simp] theorem isAbove_push_self (p : Path) (name : String) : p.isAbove (p.push name) = true :=
  isAbove_push.2 (isAtOrBelow_self p)

theorem push_isAtOrBelow :
    (p.push name).isAtOrBelow q = true ↔ p.push name = q ∨ p.isAtOrBelow q = true := by
  rw [isAtOrBelow_iff, isAbove_push]

theorem isAbove_root : ¬p.isAbove root = true := by
  intro h
  obtain ⟨s, ss, h⟩ := isAbove_iff.1 h
  simp [root] at h

theorem root_isAbove : root.isAbove p = true ↔ p ≠ root := by
  rw [isAbove_iff_names]
  simp only [root, List.nil_prefix, true_and]
  exact ⟨fun h e => h e.symm, fun h e => h e.symm⟩

theorem isAtOrBelow_root (p : Path) : p.isAtOrBelow root = true :=
  isAtOrBelow_iff_names.2 (List.nil_prefix)

/-- What passes from a path to its parent passes to all that is above it. -/
theorem climb {motive : Path → Prop}
    (hparent : ∀ {p : Path} {name : String}, motive (p.push name) → motive p)
    (hqp : q.isAtOrBelow p = true) (hq : motive q) : motive p := by
  induction q using rootOrPush with
  | root =>
      rcases isAtOrBelow_iff.1 hqp with rfl | habove
      · exact hq
      · exact absurd habove isAbove_root
  | push q name ih =>
      rcases push_isAtOrBelow.1 hqp with rfl | hqp
      · exact hq
      · exact ih hqp (hparent hq)

/-- What is below a place is at or below one of its children. -/
theorem exists_child_of_isAbove (h : p.isAbove q = true) :
    ∃ name, q.isAtOrBelow (p.push name) = true := by
  obtain ⟨s, ss, hq⟩ := isAbove_iff.1 h
  exact ⟨s, isAtOrBelow_iff_names.2 ⟨ss, by simp [hq]⟩⟩

/-- The children of a place have nothing in common. -/
theorem push_eq_of_isAtOrBelow {n m : String} (h : q.isAtOrBelow (p.push n) = true)
    (h' : q.isAtOrBelow (p.push m) = true) : n = m := by
  have heq : ∀ {n m : String}, (p.push n).isAtOrBelow (p.push m) = true → n = m := by
    intro n m hnm
    rcases push_isAtOrBelow.1 hnm with heq | hp
    · exact (push_inj.1 heq).2
    · exact absurd hp (not_isAtOrBelow_of_isAbove (isAbove_push_self p m))
  rcases isAtOrBelow_total h h' with hnm | hmn
  · exact heq hnm
  · exact (heq hmn).symm

theorem isChildOf_iff : q.isChildOf p = true ↔ ∃ name, q = p.push name := by
  constructor
  · intro h
    simp only [isChildOf, Bool.and_eq_true, decide_eq_true_eq] at h
    obtain ⟨s, ss, hq⟩ := isAbove_iff.1 h.2
    have hlen := h.1
    rw [hq] at hlen
    have hss : ss = [] := by simpa using hlen
    exact ⟨s, ext_names (by rw [hq, hss]; rfl)⟩
  · rintro ⟨name, rfl⟩
    simp [isChildOf]

/-! ### The places on the way -/

theorem ancestors_root : root.ancestors = [] := rfl

theorem ancestors_push (p : Path) (name : String) :
    (p.push name).ancestors = p.ancestors ++ [p] := by
  simp only [ancestors, names_push, List.length_append, List.length_singleton, List.range_succ,
    List.map_append, List.map_cons, List.map_nil, List.take_left']
  congr 1
  refine List.map_congr_left fun n hn => ?_
  rw [List.take_append_of_le_length (by have := List.mem_range.1 hn; omega)]

/-- The ancestors are the places strictly above. -/
theorem mem_ancestors : q ∈ p.ancestors ↔ q.isAbove p = true := by
  induction p using rootOrPush with
  | root => simp [ancestors_root, isAbove_root]
  | push p name ih =>
      rw [ancestors_push, List.mem_append, ih, isAbove_push, isAtOrBelow_iff, List.mem_singleton]
      exact ⟨fun h => h.symm.imp_left Eq.symm, fun h => h.symm.imp_right Eq.symm⟩

theorem steps_root : root.steps = [] := rfl

theorem steps_push (p : Path) (name : String) :
    (p.push name).steps = p.steps ++ [p.push name] := by
  simp only [steps, names_push, List.length_append, List.length_singleton, List.range_succ,
    List.map_append, List.map_cons, List.map_nil]
  congr 1
  · refine List.map_congr_left fun n hn => ?_
    rw [List.take_append_of_le_length (by have := List.mem_range.1 hn; omega)]
  · rw [List.take_of_length_le (by simp)]
    rfl

/-- The steps lead from the first place below the root down to the path itself. -/
theorem mem_steps : q ∈ p.steps ↔ p.isAtOrBelow q = true ∧ q ≠ root := by
  induction p using rootOrPush with
  | root =>
      simp only [steps_root, List.not_mem_nil, false_iff, not_and, not_not]
      intro h
      rcases isAtOrBelow_iff.1 h with h | h
      · exact h.symm
      · exact absurd h isAbove_root
  | push p name ih =>
      rw [steps_push, List.mem_append, ih, push_isAtOrBelow, List.mem_singleton]
      constructor
      · rintro (⟨h, hne⟩ | rfl)
        · exact ⟨.inr h, hne⟩
        · exact ⟨.inl rfl, push_ne_root⟩
      · rintro ⟨h | h, hne⟩
        · exact .inr h.symm
        · exact .inl ⟨h, hne⟩

/-- No step is taken twice. -/
theorem nodup_steps (p : Path) : p.steps.Nodup := by
  induction p using rootOrPush with
  | root => exact List.nodup_nil
  | push p name ih =>
      rw [steps_push]
      refine List.nodup_append.2 ⟨ih, List.pairwise_singleton _ _, fun q hq r hr => ?_⟩
      rw [List.mem_singleton.1 hr]
      rintro rfl
      exact not_isAtOrBelow_of_isAbove (isAbove_push_self p name) (mem_steps.1 hq).1

/-! ### Order -/

/-- What comes before an extension of a list, and not before the list, extends the list. -/
theorem prefix_of_compare {ps zs : List String} :
    ∀ {ys : List String}, ps <+: zs → (compare ps ys).isLE = true → (compare ys zs).isLE = true →
      ps <+: ys := by
  induction ps generalizing zs with
  | nil => intro ys _ _ _; exact List.nil_prefix
  | cons a ps ih =>
      rintro ys ⟨t, rfl⟩ h h'
      cases ys with
      | nil => simp at h
      | cons b ys =>
          simp only [List.cons_append, List.compare_eq_compareLex,
            List.compareLex_cons_cons] at h h'
          have hab : compare a b = .eq := by
            cases hc : compare a b with
            | eq => rfl
            | gt => simp [hc] at h
            | lt =>
                have := Std.OrientedCmp.gt_of_lt hc
                simp [this] at h'
          obtain rfl : a = b := Std.LawfulEqOrd.eq_of_compare hab
          simp only [hab, Ordering.eq_then] at h h'
          exact List.cons_prefix_cons.2 ⟨rfl, ih ⟨t, rfl⟩ h h'⟩

/-- A common beginning does not count in the order of lists. -/
theorem compare_append_left (ps ss ts : List String) :
    compare (ps ++ ss) (ps ++ ts) = compare ss ts := by
  induction ps with
  | nil => rfl
  | cons a ps ih =>
      have haa : compare a a = .eq := Std.ReflCmp.compare_self
      rw [List.compare_eq_compareLex, List.cons_append, List.cons_append, List.compareLex_cons_cons,
        haa, Ordering.eq_then, ← List.compare_eq_compareLex, ih]

/-- A path comes before what is below it. -/
theorem lt_of_isAbove (h : p.isAbove q = true) : compare p q = .lt := by
  obtain ⟨s, ss, hq⟩ := isAbove_iff.1 h
  calc compare p q = compare (p.names ++ []) (p.names ++ s :: ss) := by
        rw [compare_eq, hq, List.append_nil]
    _ = compare [] (s :: ss) := compare_append_left p.names [] (s :: ss)
    _ = .lt := by simp

theorem isAbove_asymm_of_lt (h : compare p q = .lt) : ¬q.isAbove p = true := by
  intro h'
  have := Std.OrientedCmp.gt_of_lt (lt_of_isAbove h')
  rw [h] at this
  simp at this

/-- **What lies between a path and something at or below it is at or below it.** -/
theorem isAtOrBelow_of_between (h : y.isAtOrBelow p = true) (hx : (compare p x).isLE = true)
    (hy : (compare x y).isLE = true) : x.isAtOrBelow p = true :=
  isAtOrBelow_iff_names.2 (prefix_of_compare (isAtOrBelow_iff_names.1 h) hx hy)

/-- **Nothing else comes between a path and what is below it.** -/
theorem isAbove_of_between (h : p.isAbove y = true) (hx : compare p x = .lt)
    (hy : compare x y = .lt) : p.isAbove x = true := by
  have hat : x.isAtOrBelow p = true :=
    isAtOrBelow_of_between (isAtOrBelow_of_isAbove h) (by rw [hx]; rfl) (by rw [hy]; rfl)
  rcases isAtOrBelow_iff.1 hat with rfl | habove
  · simp at hx
  · exact habove

/-! ### Putting a subtree elsewhere -/

theorem rebase?_eq_some {old new : Path} :
    p.rebase? old new = some q ↔ ∃ ss, p.names = old.names ++ ss ∧ q.names = new.names ++ ss := by
  simp only [rebase?]
  constructor
  · intro h
    split at h
    · rename_i hp
      obtain ⟨ss, hss⟩ := isAtOrBelow_iff_names.1 hp
      obtain rfl := Option.some.inj h
      exact ⟨ss, hss.symm, by simp [← hss]⟩
    · simp at h
  · rintro ⟨ss, hp, hq⟩
    rw [if_pos (isAtOrBelow_iff_names.2 ⟨ss, hp.symm⟩)]
    exact congrArg some (ext_names (by simp [hp, hq]))

theorem rebase?_eq_none {old new : Path} :
    p.rebase? old new = none ↔ ¬p.isAtOrBelow old = true := by
  simp [rebase?]

@[simp] theorem rebase?_self (old new : Path) : old.rebase? old new = some new :=
  rebase?_eq_some.2 ⟨[], by simp⟩

theorem rebase?_isAtOrBelow {old new : Path} (h : p.rebase? old new = some q) :
    p.isAtOrBelow old = true ∧ q.isAtOrBelow new = true := by
  obtain ⟨ss, hp, hq⟩ := rebase?_eq_some.1 h
  exact ⟨isAtOrBelow_iff_names.2 ⟨ss, hp.symm⟩, isAtOrBelow_iff_names.2 ⟨ss, hq.symm⟩⟩

theorem rebase?_symm {old new : Path} (h : p.rebase? old new = some q) :
    q.rebase? new old = some p := by
  obtain ⟨ss, hp, hq⟩ := rebase?_eq_some.1 h
  exact rebase?_eq_some.2 ⟨ss, hq, hp⟩

/-- No two paths are put at the same place. -/
theorem rebase?_injective {old new p' : Path} (h : p.rebase? old new = some q)
    (h' : p'.rebase? old new = some q) : p = p' :=
  Option.some.inj ((rebase?_symm h).symm.trans (rebase?_symm h'))

theorem rebase?_push {old new : Path} (h : p.rebase? old new = some q) :
    (p.push name).rebase? old new = some (q.push name) := by
  obtain ⟨ss, hp, hq⟩ := rebase?_eq_some.1 h
  exact rebase?_eq_some.2 ⟨ss ++ [name], by simp [hp], by simp [hq]⟩

end Path

end TransactionalTree
