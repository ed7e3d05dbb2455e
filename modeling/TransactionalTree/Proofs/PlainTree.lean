/-
**Plain trees.**

A plain tree is a map from the paths of its nodes to their data, and nothing else.  On such a tree
every operation means what its name says: it changes the map directly, without entries, versions
and locks.

Main definitions:

* `PlainTree`, `PlainTree.ofTree` — a plain tree, and the one that is committed;
* `PlainTree.perform` — **what an operation means**;
* `PlainTree.performAll`, `PlainTree.answers` — operations one after the other;
* `PlainTree.Closed` — the root is there, and above a node there are nodes.

Main results:

* `PlainTree.get?_ensure`, `PlainTree.get?_without`, `PlainTree.get?_move` — the nodes after a
  change;
* `PlainTree.moving_eq` — a move is made under the conditions under which it is planned.
-/

import Mathlib.Data.List.Nodup
import TransactionalTree.Proofs.Merging
import TransactionalTree.Proofs.Operations

set_option relaxedAutoImplicit false
set_option autoImplicit false

namespace TransactionalTree

/-- The data of each node, by path. -/
abbrev PlainTree := SortedMap Path Data

namespace PlainTree

/-- The committed nodes with their data. -/
def ofTree (t : CommittedTree) : PlainTree :=
  (t.slots.filter fun _ n => n.valid).mapValues fun _ n => n.data

/-! ### What operations mean -/

/-- The names of the nodes directly below `p`. -/
def childNames (m : PlainTree) (p : Path) : NameSet :=
  .ofElements (m.keys.filterMap fun q => if q.isChildOf p then q.name? else none)

/-- The tree with nodes without data where there was none on the way to `p`. -/
def ensure (m : PlainTree) (p : Path) : PlainTree :=
  p.steps.foldl (fun m q => if m.contains q then m else m.insert q .empty) m

/-- The tree without the node at `p` and all that is below it. -/
def without (m : PlainTree) (p : Path) : PlainTree := m.filter fun q _ => !q.isAtOrBelow p

/-- The tree in which the subtree at `source` is at `target`, in place of what was there. -/
def move (m : PlainTree) (source target : Path) : PlainTree :=
  let cleared := m.without target
  (cleared.without source).insertAll
    (cleared.toList.filterMap fun e => (e.1.rebase? source target).map (·, e.2))

/-- Edit the data of the node at `p`, making missing nodes with `create`.  The answer is made from
the data before; where there is no node it is that for no data. -/
def writing (m : PlainTree) (p : Path) (create : Bool) (edit : Data → Data)
    (answer : Data → Answer) : PlainTree × Except TreeError Answer :=
  let made := if create then m.ensure p else m
  match made.get? p with
  | none => (made, .ok (answer .empty))
  | some d => (made.insert p (edit d), .ok (answer d))

/-- Remove the node at `p` and all that is below it; of the root, all that is below it and its
data. -/
def removing (m : PlainTree) (p : Path) : PlainTree × Except TreeError Answer :=
  if p.isRoot then (SortedMap.empty.insert .root .empty, .ok (.flag true))
  else (m.without p, .ok (.flag (m.contains p)))

/-- Move the node at `source`, if both are there, to become a child of `parent`, where it keeps the
last of its names.  The root has none.  A node does not go into its own subtree.  It stays where it
is if it is a child of `parent` already, and it does not take the place of a node above it. -/
def moving (m : PlainTree) (source parent : Path) : PlainTree × Except TreeError Answer :=
  match source.names.getLast? with
  | none => (m, .error (.refused .moveRoot))
  | some name =>
      let target : Path := ⟨parent.names ++ [name]⟩
      if source.names <+: parent.names then
        (m, .error (.refused (.moveUnderItself source parent)))
      else if source.names.dropLast = parent.names then (m, .ok (.place (some source)))
      else if target.names <+: source.names then
        (m, .error (.refused (.moveOntoAncestor source target)))
      else if !m.contains source then (m, .error (.nodeMissing source))
      else if !m.contains parent then (m, .error (.nodeMissing parent))
      else (m.move source target, .ok (.place (some target)))

/-- **What an operation means.** -/
def perform (m : PlainTree) : Operation → PlainTree × Except TreeError Answer
  | .get p key => (m, .ok (.value ((m.get? p).bind (·.get? key))))
  | .getData p => (m, .ok (.data (m.get? p)))
  | .getKeys p => (m, .ok (.names ((m.get? p).map (·.keySet))))
  | .getChildNames p => (m, .ok (.names ((m.get? p).map fun _ => m.childNames p)))
  | .nodeExists p => (m, .ok (.flag (m.contains p)))
  | .put p key v => m.writing p true (·.insert key v) fun d => .value (d.get? key)
  | .putAll p d => m.writing p true (·.union d) fun _ => .done
  | .replaceAll p d => m.writing p true (fun _ => d) fun _ => .done
  | .removeKey p key => m.writing p false (·.erase key) fun d => .value (d.get? key)
  | .clearData p => m.writing p false (fun _ => .empty) fun _ => .done
  | .removeNode p => m.removing p
  | .moveNode source parent _ => m.moving source parent

/-- The tree after the listed operations. -/
def performAll (m : PlainTree) (os : List Operation) : PlainTree :=
  os.foldl (fun m o => (m.perform o).1) m

/-- What the listed operations answer, one after the other. -/
def answers (m : PlainTree) : List Operation → List (Except TreeError Answer)
  | [] => []
  | o :: os => (m.perform o).2 :: answers (m.perform o).1 os

/-- The root is there, and above a node there are nodes. -/
structure Closed (m : PlainTree) : Prop where
  /-- There is a root. -/
  root : m.contains Path.root = true
  /-- A node has a parent. -/
  parent : ∀ {p : Path} {name : String}, m.contains (p.push name) = true → m.contains p = true

/-! ### The nodes after a change -/

variable {m : PlainTree} {p q source target parent : Path}

theorem get?_ofTree {t : CommittedTree} (h : t.Sound) (p : Path) :
    (ofTree t).get? p = t.data? p := by
  rw [ofTree, SortedMap.get?_mapValues, SortedMap.get?_filter, CommittedTree.data?, h.peek?_eq]

theorem has_childNames {name : String} :
    (m.childNames p).has name = true ↔ m.contains (p.push name) = true := by
  rw [childNames, SortedSet.has_ofElements, List.mem_filterMap, SortedMap.contains_iff,
    ← SortedMap.mem_keys]
  constructor
  · rintro ⟨q, hq, h⟩
    split at h
    · rename_i hc
      obtain ⟨name', rfl⟩ := Path.isChildOf_iff.1 hc
      rw [Path.name?_push, Option.some.injEq] at h
      rwa [← h]
    · simp at h
  · intro h
    refine ⟨p.push name, h, ?_⟩
    rw [if_pos (Path.isChildOf_iff.2 ⟨name, rfl⟩), Path.name?_push]

/-- Where there was no node, there is one without data after the nodes on the way to `p` have been
made. -/
theorem get?_ensure : (m.ensure p).get? q = if q ∈ p.steps ∧ m.get? q = none then some .empty
    else m.get? q := by
  rw [ensure]
  induction p.steps generalizing m with
  | nil => simp
  | cons r rs ih =>
      rw [List.foldl_cons, ih]
      cases hr : m.get? r with
      | some d =>
          have hc : m.contains r = true := SortedMap.contains_iff.2 ⟨d, hr⟩
          have hne : m.get? q = none → q ≠ r := by
            rintro hq rfl
            rw [hr] at hq
            simp at hq
          simp only [hc, if_true, List.mem_cons]
          by_cases hq : m.get? q = none
          · simp [hq, hne hq]
          · simp [hq]
      | none =>
          have hc : m.contains r = false := by simp [SortedMap.contains, hr]
          simp only [hc, Bool.false_eq_true, if_false, List.mem_cons, SortedMap.get?_insert]
          by_cases hq : q = r
          · simp [hq, hr]
          · simp [hq]

theorem get?_without : (m.without p).get? q = if q.isAtOrBelow p then none else m.get? q := by
  rw [without, SortedMap.get?_filter]
  cases q.isAtOrBelow p <;> cases m.get? q <;> rfl

/-- The nodes that a move puts at and below the target. -/
theorem mem_rebased {d : Data} :
    (q, d) ∈ m.toList.filterMap (fun e => (e.1.rebase? source target).map (·, e.2)) ↔
      ∃ p, m.get? p = some d ∧ p.rebase? source target = some q := by
  simp only [List.mem_filterMap, Option.map_eq_some_iff, Prod.mk.injEq, SortedMap.get?_eq_some_iff]
  constructor
  · rintro ⟨⟨p, d'⟩, hmem, q', hq, rfl, rfl⟩
    exact ⟨p, hmem, hq⟩
  · rintro ⟨p, hmem, hq⟩
    exact ⟨(p, d), hmem, q, hq, rfl, rfl⟩

/-- No two paths are put at the same place. -/
theorem nodup_rebase {ps : List Path} (h : ps.Nodup) :
    (ps.filterMap (·.rebase? source target)).Nodup := by
  exact h.filterMap fun p p' q hp hp' => Path.rebase?_injective hp hp'

theorem nodup_rebased : ((m.toList.filterMap fun e =>
    (e.1.rebase? source target).map (·, e.2)).map (·.1)).Nodup := by
  have hkeys : (m.toList.filterMap fun e => (e.1.rebase? source target).map (·, e.2)).map (·.1) =
      m.keys.filterMap (·.rebase? source target) := by
    rw [SortedMap.keys, List.map_filterMap, List.filterMap_map]
    refine List.filterMap_congr fun e _ => ?_
    simp only [Function.comp_apply, Option.map_map]
    exact Option.map_id'
  rw [hkeys]
  exact nodup_rebase (SortedMap.keys_nodup m)

/-- Nothing is both in the subtree that is moved and in that which it replaces. -/
theorem not_isAtOrBelow_both (hst : ¬source.isAtOrBelow target = true)
    (hts : ¬target.isAtOrBelow source = true) (hs : p.isAtOrBelow source = true) :
    ¬p.isAtOrBelow target = true := by
  intro ht
  rcases Path.isAtOrBelow_total hs ht with h | h
  · exact hst h
  · exact hts h

/-- After a move the nodes at and below the target are those that were at and below the source, and
there are none at or below the source. -/
theorem get?_move (hst : ¬source.isAtOrBelow target = true)
    (hts : ¬target.isAtOrBelow source = true) :
    (m.move source target).get? q = match q.rebase? target source with
      | some p => m.get? p
      | none => if q.isAtOrBelow source then none else m.get? q := by
  rw [move]
  cases h : q.rebase? target source with
  | some p =>
      have hq := Path.rebase?_symm h
      have hp := Path.rebase?_isAtOrBelow hq
      have hcleared : (m.without target).get? p = m.get? p := by
        rw [get?_without, if_neg (not_isAtOrBelow_both hst hts hp.1)]
      simp only
      -- below the target there is what was at the place that is moved there, and nothing else
      cases hm : m.get? p with
      | some d =>
          exact SortedMap.get?_insertAll_of_mem nodup_rebased
            (mem_rebased.2 ⟨p, hcleared.trans hm, hq⟩)
      | none =>
          rw [SortedMap.get?_insertAll_of_notMem, get?_without, get?_without, if_pos hp.2]
          · split <;> rfl
          · intro d hmem
            obtain ⟨p', hp', hq'⟩ := mem_rebased.1 hmem
            obtain rfl : p = p' := Path.rebase?_injective hq hq'
            rw [hcleared, hm] at hp'
            simp at hp'
  | none =>
      have hq := Path.rebase?_eq_none.1 h
      rw [SortedMap.get?_insertAll_of_notMem, get?_without, get?_without, if_neg hq]
      intro d hmem
      obtain ⟨p', -, hq'⟩ := mem_rebased.1 hmem
      exact hq (Path.rebase?_isAtOrBelow hq').2

/-! ### Closed trees -/

namespace Closed

variable (h : m.Closed)
include h

/-- Above a node there are nodes. -/
theorem contains_of_isAtOrBelow (hqp : q.isAtOrBelow p = true) (hq : m.contains q = true) :
    m.contains p = true :=
  Path.climb (motive := fun p => m.contains p = true) h.parent hqp hq

theorem get?_eq_none (hqp : q.isAtOrBelow p = true) (hp : m.get? p = none) : m.get? q = none := by
  cases hq : m.get? q with
  | none => rfl
  | some d =>
      have hcon := h.contains_of_isAtOrBelow hqp (SortedMap.contains_iff.2 ⟨d, hq⟩)
      rw [SortedMap.contains, hp] at hcon
      simp at hcon

/-- Without a node there is nothing to drop. -/
theorem without_eq_self (hp : m.get? p = none) : m.without p = m := by
  refine SortedMap.ext_get? fun q => ?_
  rw [get?_without]
  split
  · rename_i hqp
    exact (h.get?_eq_none hqp hp).symm
  · rfl

end Closed

/-! ### Kinds of operations -/

/-- **The conditions of a move are those by which it is planned**: the two are said in different
words, of lists of names and of places that lie above each other. -/
theorem moving_eq : m.moving source parent = match planMove source parent with
    | .error e => (m, .error (.refused e))
    | .ok .stay => (m, .ok (.place (some source)))
    | .ok (.moveTo target) =>
        if !m.contains source then (m, .error (.nodeMissing source))
        else if !m.contains parent then (m, .error (.nodeMissing parent))
        else (m.move source target, .ok (.place (some target))) := by
  cases source using Path.rootOrPush with
  | root => rfl
  | push above name =>
      have hlast : (above.push name).names.getLast? = some name := Path.name?_push above name
      have hunder : parent.isAtOrBelow (above.push name) = true ↔
          (above.push name).names <+: parent.names := Path.isAtOrBelow_iff_names
      have hstay : parent.push name = above.push name ↔
          (above.push name).names.dropLast = parent.names := by
        rw [Path.push_inj, Path.names_push, List.dropLast_concat]
        exact ⟨fun h => by rw [h.1], fun h => ⟨congrArg Path.mk h.symm, rfl⟩⟩
      simp only [moving, planMove, hlast, Path.name?_push, hunder, hstay]
      split
      · rfl
      split
      · rfl
      · rename_i hne
        have honto : (above.push name).isBelow (parent.push name) = true ↔
            parent.names ++ [name] <+: (above.push name).names :=
          Path.isAbove_iff_names.trans (and_iff_left (mt hstay.1 hne))
        simp only [honto]
        split
        · rfl
        · rfl

theorem perform_read {o : Operation} (ho : o.readPath? = some p) :
    m.perform o = (m, .ok (o.read (m.get? p) ((m.get? p).map fun _ => m.childNames p))) := by
  cases o <;> simp [Operation.readPath?] at ho <;> subst ho <;> rfl

theorem perform_write {o : Operation} {create : Bool} (ho : o.writePath? = some (p, create)) :
    m.perform o = m.writing p create o.edit o.wrote := by
  cases o <;> simp [Operation.writePath?] at ho <;> obtain ⟨rfl, rfl⟩ := ho <;> rfl

end PlainTree

end TransactionalTree
