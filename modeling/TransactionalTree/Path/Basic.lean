/-
**Paths.**

A path names one place in the tree: the names to follow from the root, outermost first.  The path
without names is the root.  Paths are ordered name by name, so a path stands immediately before
everything below it, and what is below a path is contiguous in the order.

Main definitions:

* `Path` — the names from the root down to a place;
* `Path.WellFormed` — every name is non-empty and free of the separator;
* `Path.parent?`, `Path.ancestors` — the places above;
* `Path.isAbove`, `Path.isAtOrBelow`, `Path.isChildOf` — how two places lie to each other;
* `Path.rebase?` — the place that corresponds to a path when a subtree is put elsewhere.

Main results:

* `Path.isAbove_iff` — being above is being a proper initial segment.
-/

import TransactionalTree.SortedMap

set_option relaxedAutoImplicit false
set_option autoImplicit false

namespace TransactionalTree

/-- A place in the tree, given by the names on the way down from the root. -/
structure Path where
  /-- The names, outermost first. -/
  names : List String
deriving DecidableEq, Repr, Inhabited

namespace Path

/-! ### Order -/

/-- Paths are compared name by name, a path before its extensions; names by code point. -/
instance : Ord Path := ⟨fun p q => compare p.names q.names⟩

theorem compare_eq (p q : Path) : compare p q = compare p.names q.names := rfl

instance : Std.TransOrd Path where
  eq_swap {p q} := by rw [compare_eq, compare_eq]; exact Std.OrientedCmp.eq_swap
  isLE_trans {p q r} h₁ h₂ := by
    rw [compare_eq] at *
    exact Std.TransCmp.isLE_trans h₁ h₂

instance : Std.LawfulEqOrd Path where
  compare_self {p} := by rw [compare_eq]; exact Std.ReflCmp.compare_self
  eq_of_compare {p q} h := by
    rw [compare_eq] at h
    obtain ⟨ps⟩ := p
    obtain ⟨qs⟩ := q
    exact congrArg Path.mk (Std.LawfulEqOrd.eq_of_compare h)

/-! ### Well-formed names -/

/-- The character that stands between names when a path is written. -/
def separator : Char := '/'

/-- A name can be written in a path: it is not empty and does not contain the separator. -/
def GoodName (s : String) : Prop := s.toList ≠ [] ∧ separator ∉ s.toList

instance (s : String) : Decidable (GoodName s) := by unfold GoodName; infer_instance

/-- Every name of the path can be written. -/
def WellFormed (p : Path) : Prop := ∀ s ∈ p.names, GoodName s

instance (p : Path) : Decidable p.WellFormed := by unfold WellFormed; infer_instance

/-! ### Up and down -/

/-- The path without names. -/
def root : Path := ⟨[]⟩

/-- Whether this is the root. -/
def isRoot (p : Path) : Bool := p.names.isEmpty

/-- The number of names. -/
def depth (p : Path) : Nat := p.names.length

/-- The place one name further down. -/
def push (p : Path) (name : String) : Path := ⟨p.names ++ [name]⟩

/-- The place one name up; the root has none. -/
def parent? (p : Path) : Option Path :=
  if p.names.isEmpty then none else some ⟨p.names.dropLast⟩

/-- The last name: what the place is called under its parent.  The root has none. -/
def name? (p : Path) : Option String := p.names.getLast?

/-- The places strictly above, the root first. -/
def ancestors (p : Path) : List Path :=
  (List.range p.names.length).map fun n => ⟨p.names.take n⟩

/-- The places on the way down, from the first below the root to `p` itself; none for the root. -/
def steps (p : Path) : List Path :=
  (List.range p.names.length).map fun n => ⟨p.names.take (n + 1)⟩

/-- The place `q` leads to when it is followed from `p` instead of from the root. -/
def append (p q : Path) : Path := ⟨p.names ++ q.names⟩

/-! ### How two places lie to each other -/

/-- `p` is strictly above `q`. -/
def isAbove (p q : Path) : Bool :=
  p.names.length < q.names.length && p.names.isPrefixOf q.names

/-- `p` is strictly below `q`. -/
def isBelow (p q : Path) : Bool := q.isAbove p

/-- `p` is `q` or below it. -/
def isAtOrBelow (p q : Path) : Bool := p = q || p.isBelow q

/-- `p` is exactly one name below `q`. -/
def isChildOf (p q : Path) : Bool :=
  p.names.length = q.names.length + 1 && q.isAbove p

/-- The place that `p` becomes when what is at or below `old` is put at `new`; nothing if `p` is not
at or below `old`. -/
def rebase? (p old new : Path) : Option Path :=
  if p.isAtOrBelow old then some ⟨new.names ++ p.names.drop old.names.length⟩ else none

/-! ### Small laws -/

/-- Being above is being a proper initial segment. -/
theorem isAbove_iff {p q : Path} :
    p.isAbove q = true ↔ ∃ s ss, q.names = p.names ++ s :: ss := by
  simp only [isAbove, Bool.and_eq_true, decide_eq_true_eq, List.isPrefixOf_iff_prefix]
  constructor
  · rintro ⟨hlt, t, ht⟩
    cases t with
    | nil => simp [← ht] at hlt
    | cons s ss => exact ⟨s, ss, ht.symm⟩
  · rintro ⟨s, ss, h⟩
    exact ⟨by simp [h], s :: ss, h.symm⟩

@[simp] theorem parent?_push (p : Path) (name : String) : (p.push name).parent? = some p := by
  simp [parent?, push]

@[simp] theorem name?_push (p : Path) (name : String) : (p.push name).name? = some name := by
  simp [name?, push]

@[simp] theorem parent?_root : root.parent? = none := rfl

end Path

end TransactionalTree
