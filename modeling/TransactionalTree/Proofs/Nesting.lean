/-
**The tree that owns its children, laid flat.**

Read off place by place, the tree as it is stored is the tree with one node per path: whatever is
changed in both, the two give the same answers and stay the same.  So adopting the tombstones of a
predecessor, removing child by child and dropping tombstones map by map come to what is said of
paths.  The tree as it is stored names a new node by a name that may come apart at separators, so
the names have to be good.

Main definitions:

* `NestedTree.change`, `NestedTree.changeAll` — the changes of the stored tree;
* `NestedTree.Flattens` — **read off place by place, the stored tree is the other tree**.

Main results:

* `NestedTree.Flattens.peek?_eq`, `NestedTree.Flattens.tombstoneVersion_eq`,
  `NestedTree.Flattens.childEntries_eq`, `NestedTree.Flattens.descendants_eq` — what is found and
  listed;
* `NestedTree.Flattens.overwrite`, `NestedTree.Flattens.bury`, `NestedTree.Flattens.place`,
  `NestedTree.Flattens.purge` — what changes make of it;
* `NestedTree.nested_refines_flat` — **the stored tree refines the tree with one node per path**.
-/

import TransactionalTree.Proofs.ChildMaps
import TransactionalTree.Proofs.Contents
import TransactionalTree.Proofs.PathTexts

set_option relaxedAutoImplicit false
set_option autoImplicit false

namespace TransactionalTree

namespace NestedTree

variable {u u' : NestedTree} {t t' : CommittedTree} {p q : Path} {s s' child parent : Subtree}
variable {d : Data} {v : Version} {n : Node} {name : String}

/-- **Read off place by place, the stored tree is the tree with one node per path.** -/
structure Flattens (u : NestedTree) (t : CommittedTree) : Prop where
  /-- What is at a path is what is at its place. -/
  slots : ∀ q, t.slots.get? q = u.root.slot? q.names
  /-- The same nodes are out of the tree. -/
  retired : t.retired = u.retired
  /-- The next node has the same identity. -/
  nextId : t.nextId = u.nextId
  /-- The same version was given out last. -/
  version : t.version = u.version
  /-- The names are in order and the paths are right. -/
  proper : u.root.Proper Path.root

namespace Flattens

/-! ### Finding nodes -/

section Finding

variable (h : u.Flattens t)
include h

theorem isValidAt_eq (q : Path) : t.isValidAt q = (u.root.slot? q.names).any (·.valid) := by
  rw [CommittedTree.isValidAt, h.slots]

/-- **The walk finds what the places on the way say.** -/
theorem entry?_eq (p : Path) : (u.entry? p).map (·.node) = t.entry? p := by
  rw [NestedTree.entry?, Subtree.entryAt?_eq, CommittedTree.entry?, Path.ancestors, List.all_map]
  simp only [Function.comp_def, h.isValidAt_eq, h.slots]
  split <;> rfl

theorem peek?_eq (p : Path) : (u.peek? p).map (·.node) = t.peek? p := by
  rw [peek?, CommittedTree.peek?, ← h.entry?_eq]
  cases u.entry? p with
  | none => rfl
  | some s => simp only [Option.filter_some, Option.map_some]; split <;> rfl

/-- What is found stands at its place. -/
theorem found (hp : u.peek? p = some s) : u.root.at? p.names = some s ∧ s.node.valid = true ∧
    s.Proper p ∧ t.peek? p = some s.node := by
  obtain ⟨hentry, hvalid⟩ := Option.filter_eq_some_iff.1 hp
  rw [NestedTree.entry?, Subtree.entryAt?_eq] at hentry
  split at hentry
  · refine ⟨hentry, hvalid, ?_, by rw [← h.peek?_eq, hp]; rfl⟩
    have hs := h.proper.at? hentry
    rwa [Path.names_root, List.nil_append] at hs
  · simp at hentry

/-- **The newest removal that the walk meets** is the newest on the way. -/
theorem tombstoneVersion_eq (p : Path) : u.tombstoneVersion p = t.tombstoneVersion p := by
  rw [tombstoneVersion, Subtree.newestRemoval_eq, CommittedTree.tombstoneVersion, Path.steps,
    List.filterMap_map]
  simp only [Function.comp_def, h.slots]

theorem slot?_push (hs : u.root.at? p.names = some s) (name : String) :
    t.slots.get? (p.push name) = (s.below.get? name).map (·.node) := by
  rw [h.slots, Path.names_push, Subtree.slot?_append hs, Subtree.slot?_cons]
  cases s.below.get? name <;> rfl

/-- The valid children have the names of the valid nodes directly below the path. -/
theorem childNames_eq (hs : u.root.at? p.names = some s) :
    SortedSet.ofElements s.below.validNames = t.childNames p := by
  have hproper := h.proper.at? hs
  refine SortedSet.ext_has fun name => ?_
  rw [SortedSet.has_ofElements, ChildMap.mem_validNames hproper.2, CommittedTree.mem_childNames,
    CommittedTree.isValidAt, h.slot?_push hs]
  simp only [Option.any_map, Option.any_eq_true]

/-- **The children, tombstones included, are the nodes directly below the path.** -/
theorem childEntries_eq (hs : u.root.at? p.names = some s) :
    s.below.entries = t.childEntries p := by
  have hproper := h.proper.at? hs
  refine SortedMap.eq_of_mem_iff (ChildMap.entries_pairwise hproper.2) ?_ fun name id => ?_
  · refine List.pairwise_filterMap.2 (t.slots.ordered.imp fun hlt x hx y hy => ?_)
    split at hx <;> split at hy
    · rename_i hp hq
      obtain ⟨a, hp⟩ := Path.isChildOf_iff.1 hp
      obtain ⟨b, hq⟩ := Path.isChildOf_iff.1 hq
      rw [hp, Path.name?_push] at hx
      rw [hq, Path.name?_push] at hy
      obtain rfl := Option.some.inj hx
      obtain rfl := Option.some.inj hy
      rw [hp, hq, Path.compare_eq, Path.names_push, Path.names_push,
        Path.compare_append_left] at hlt
      simpa [List.compare_eq_compareLex, List.compareLex_cons_cons] using hlt
    all_goals simp at hx hy
  · rw [ChildMap.mem_entries hproper.2, CommittedTree.mem_childEntries, h.slot?_push hs]
    cases s.below.get? name <;> simp

/-! ### Listings -/

/-- What is met below a node that is found is what the walk finds below its path. -/
theorem mem_met (hs : u.peek? p = some s) :
    (q, n) ∈ s.below.listing (·.valid) ↔ p.isAbove q = true ∧ t.entry? q = some n := by
  obtain ⟨hentry, hvalid⟩ := Option.filter_eq_some_iff.1 hs
  obtain ⟨-, -, hproper, -⟩ := h.found hs
  have hwalk : ∀ {names : List String}, q.names = p.names ++ names →
      t.entry? q = (s.reach? (·.valid) names).map (·.node) := by
    intro names hq
    rw [NestedTree.entry?, Subtree.entryAt?_eq_reach?] at hentry
    rw [← h.entry?_eq, entry?, Subtree.entryAt?_eq_reach?, hq, Subtree.reach?_append, hentry]
    rfl
  rw [hproper.mem_listing hvalid, Path.isAbove_iff]
  constructor
  · rintro ⟨name, names, d, hq, hd, hn⟩
    exact ⟨⟨name, names, hq⟩, by rw [hwalk hq, hd, Option.map_some, hn]⟩
  · rintro ⟨⟨name, names, hq⟩, hn⟩
    rw [hwalk hq] at hn
    obtain ⟨d, hd, hn⟩ := Option.map_eq_some_iff.1 hn
    exact ⟨name, names, d, hq, hd, hn⟩

/-- **What is collected below a node is what is valid below its path**, in the same order. -/
theorem descendants_eq (ht : t.Sound) (p : Path) : u.descendants p = t.descendants p := by
  have hpeek := h.peek?_eq p
  rw [descendants, CommittedTree.descendants, CommittedTree.exists?, ← hpeek]
  cases hs : u.peek? p with
  | none => rfl
  | some s =>
      obtain ⟨-, -, hproper, -⟩ := h.found hs
      rw [Option.elim_some, Option.map_some, Option.isSome_some, if_pos rfl,
        ChildMap.descendants_eq, SortedMap.keys]
      refine congrArg (List.map Prod.fst) (SortedMap.eq_of_mem_iff
        ((ChildMap.listing_pairwise hproper.2).filter _) (SortedMap.ordered _) fun q n => ?_)
      rw [← SortedMap.get?_eq_some_iff, SortedMap.get?_filter, Option.filter_eq_some_iff,
        List.mem_filter, h.mem_met hs, Path.isBelow, Bool.and_eq_true]
      have hq : t.entry? q = some n ∧ n.valid = true ↔
          t.slots.get? q = some n ∧ n.valid = true := by
        rw [← ht.peek?_eq_some, CommittedTree.peek?, Option.filter_eq_some_iff]
      rw [and_assoc, hq]
      exact and_left_comm

/-- All that is stored, gone through, is all that is at the paths. -/
theorem toList_slots : t.slots.toList =
    (Path.root, u.root.node) :: u.root.below.listing fun _ => true := by
  have hsorted : ((Path.root, u.root.node) :: u.root.below.listing fun _ => true).Pairwise
      fun a b => compare a.1 b.1 = .lt := by
    refine List.pairwise_cons.2 ⟨fun a ha => ?_, ChildMap.listing_pairwise h.proper.2⟩
    obtain ⟨name, names, -, hq, -⟩ := (h.proper.mem_listing (q := a.1) (n := a.2) rfl).1 ha
    exact Path.lt_of_isAbove (Path.isAbove_iff.2 ⟨name, names, hq⟩)
  refine SortedMap.eq_of_mem_iff t.slots.ordered hsorted fun q n => ?_
  rw [← SortedMap.get?_eq_some_iff, h.slots, List.mem_cons, h.proper.mem_listing rfl]
  cases hq : q.names with
  | nil =>
      obtain rfl : q = Path.root := Path.ext_names hq
      simp [Path.names_root, eq_comm]
  | cons name names =>
      have hne : q ≠ Path.root := by
        rintro rfl
        simp at hq
      simp [Path.names_root, hne, Subtree.slot?, Subtree.at?]

end Finding

/-! ### Changes of one node -/

theorem observe (h : u.Flattens t) (v : Version) : (u.observe v).Flattens (t.observe v) where
  slots := h.slots
  retired := h.retired
  nextId := h.nextId
  version := by rw [CommittedTree.observe, NestedTree.observe, h.version]
  proper := h.proper

/-- What is at the places after the node at `p` was changed. -/
theorem slot?_setAt (h : u.Flattens t) (hs : u.root.at? p.names = some s) (q : Path) :
    (u.setAt p s').root.slot? q.names =
      if q.isAtOrBelow p then s'.slot? (q.names.drop p.names.length) else t.slots.get? q := by
  rw [setAt, Subtree.slot?_replaceAt hs, h.slots]
  simp only [Path.isAtOrBelow_iff_names]

theorem proper_setAt (h : u.Flattens t) (hs : u.root.at? p.names = some s) (hs' : s'.Proper p) :
    (u.setAt p s').root.Proper Path.root := by
  refine h.proper.replaceAt hs ?_
  rwa [Path.names_root, List.nil_append]

/-- **Replacing the data of a node** is the same in both trees. -/
theorem overwrite (h : u.Flattens t) (hs : u.peek? p = some s) :
    ((u.observe v).setAt p { s with node := { s.node with data := d, version := v } }).Flattens
      (t.overwrite p s.node d v) := by
  obtain ⟨hat, -, hproper, -⟩ := h.found hs
  have ho := h.observe v
  refine ⟨fun q => ?_, h.retired, h.nextId, ho.version, ho.proper_setAt hat hproper⟩
  rw [ho.slot?_setAt hat, CommittedTree.get?_overwrite]
  by_cases hq : q = p
  · rw [if_pos hq, if_pos (by rw [hq]; exact Path.isAtOrBelow_self p), hq, List.drop_length]
    rfl
  · rw [if_neg hq]
    split
    -- what is below the node is not changed
    · rename_i hbelow
      obtain ⟨name, names, hqn⟩ :=
        Path.isAbove_iff.1 ((Path.isAtOrBelow_iff.1 hbelow).resolve_left hq)
      rw [h.slots, hqn, List.drop_left, Subtree.slot?_append hat]
      rfl
    · rfl

/-- **Removing a node and all below it** is the same in both trees. -/
theorem bury (h : u.Flattens t) (hat : u.root.at? p.names = some s) (hproper : s.Proper p) :
    (u.setAt p (s.invalidate v)).Flattens (t.bury p v) := by
  refine ⟨fun q => ?_, h.retired, h.nextId, h.version,
    h.proper_setAt hat ⟨hproper.1, hproper.2.invalidate⟩⟩
  rw [h.slot?_setAt hat, CommittedTree.get?_bury]
  split
  · rename_i hq
    obtain ⟨names, hqn⟩ := Path.isAtOrBelow_iff_names.1 hq
    rw [h.slots, ← hqn, List.drop_left, Subtree.slot?_append hat, Subtree.slot?_invalidate]
    rfl
  · rfl

/-! ### Installing -/

/-- **The place of a new node is cleared** alike in both trees. -/
theorem clearChild (h : u.Flattens t) (hat : u.root.at? p.names = some s) (hproper : s.Proper p) :
    (u.setAt p (s.clearChild name v)).Flattens
      (if t.isValidAt (p.push name) then t.bury (p.push name) v else t) := by
  have hvalid : t.isValidAt (p.push name) = (s.below.get? name).any (·.node.valid) := by
    rw [CommittedTree.isValidAt, h.slot?_push hat, Option.any_map]
  have hsame : s.clearChild name v = s → (u.setAt p (s.clearChild name v)).Flattens t := by
    intro hs
    refine ⟨fun q => ?_, h.retired, h.nextId, h.version, h.proper_setAt hat (by rwa [hs])⟩
    rw [h.slot?_setAt hat, hs]
    split
    · rename_i hq
      obtain ⟨names, hqn⟩ := Path.isAtOrBelow_iff_names.1 hq
      rw [h.slots, ← hqn, List.drop_left, Subtree.slot?_append hat]
    · rfl
  rw [hvalid]
  cases hc : s.below.get? name with
  | none => exact hsame (by rw [Subtree.clearChild, hc])
  | some c =>
      cases hv : c.node.valid with
      | false => simpa [hv] using hsame (by simp [Subtree.clearChild, hc, hv])
      | true =>
          have hcleared : s.clearChild name v =
              { s with below := s.below.insert name (c.invalidate v) } := by
            simp [Subtree.clearChild, hc, hv]
          have hcat : u.root.at? (p.push name).names = some c :=
            (Subtree.at?_append hat).trans (by rw [Subtree.at?_cons, hc]; rfl)
          -- changing the child in its parent is changing it at its place
          have hset : u.setAt (p.push name) (c.invalidate v) = u.setAt p (s.clearChild name v) := by
            rw [setAt, setAt, Path.names_push, Subtree.replaceAt_append hat, Subtree.replaceAt, hc,
              hcleared]
            rfl
          rw [← hset]
          simpa [hv] using h.bury (v := v) hcat (hproper.2.get? hc)

/-- What a new child adopts is all that is below the place, where nothing is valid. -/
theorem slot?_adopted (h : u.Flattens t) (ht : t.Sound) (hat : u.root.at? p.names = some s)
    (hproper : s.Proper p) (hdead : ¬t.isValidAt (p.push name) = true) {key : String}
    {names : List String} :
    ((s.adopted name).get? key).bind (·.slot? names) =
      t.slots.get? ⟨p.names ++ name :: key :: names⟩ := by
  have hslot : ∀ {c : Subtree}, s.below.get? name = some c → ∀ names,
      t.slots.get? ⟨p.names ++ name :: names⟩ = c.slot? names := by
    intro c hc names
    rw [h.slots, Subtree.slot?_append hat, Subtree.slot?_cons, hc]
    rfl
  cases hc : s.below.get? name with
  | none =>
      rw [Subtree.adopted, hc, h.slots, Subtree.slot?_append hat, Subtree.slot?_cons, hc]
      rfl
  | some c =>
      have hnode : c.node.valid = false := by
        rw [CommittedTree.isValidAt, h.slot?_push hat, hc] at hdead
        simpa using hdead
      have hbelow : c.below.tombstones = c.below := by
        refine ChildMap.tombstones_eq_self (hproper.2.get? hc).2 fun key e he => ?_
        -- a valid child would have a valid parent
        rw [← Bool.not_eq_true]
        intro hvalid
        have hchild : t.isValidAt ((p.push name).push key) = true := by
          have hslot := hslot hc [key]
          rw [Subtree.slot?_cons, he] at hslot
          rw [CommittedTree.isValidAt, Path.push, Path.names_push, List.append_assoc]
          exact (congrArg (Option.any (·.valid)) hslot).trans (by simpa using hvalid)
        exact hdead (ht.parent hchild)
      rw [hslot hc, Subtree.slot?_cons, Subtree.adopted, hc]
      simp only [hnode, Bool.false_eq_true, if_false, hbelow]

/-- **A new node is put in** alike in both trees, where nothing is valid. -/
theorem installed (h : u.Flattens t) (ht : t.Sound) (hat : u.root.at? p.names = some s)
    (hproper : s.Proper p) (hdead : ¬t.isValidAt (p.push name) = true) (hname : Path.GoodName name)
    (hi : s.installChild u.nextId name d v = .ok (s', child)) :
    Flattens { u.setAt p s' with
        retired := (s.below.get? name).toList.map (·.retiree) ++ u.retired
        nextId := u.nextId + 1 } (t.place (p.push name) d v) ∧
      child.ref = ⟨p.push name, t.nextId⟩ := by
  rw [Subtree.installChild] at hi
  split at hi
  swap
  · simp at hi
  obtain ⟨rfl, rfl⟩ := Prod.mk.inj (Except.ok.inj hi)
  have hpath : s.path.child name = p.push name := by
    rw [hproper.1, Path.child_eq_push hname]
  have hadopted : (s.adopted name).Proper (p.push name) := by
    rw [Subtree.adopted]
    split
    · rename_i c hc
      split
      · exact trivial
      · exact (hproper.2.get? hc).2.tombstones
    · exact trivial
  refine ⟨⟨fun q => ?_, ?_, ?_, ?_, ?_⟩, ?_⟩
  · rw [CommittedTree.get?_place, h.nextId]
    refine Eq.trans ?_ (h.slot?_setAt hat q).symm
    by_cases hq : q.isAtOrBelow p = true
    · rw [if_pos hq]
      obtain ⟨names, hqn⟩ := Path.isAtOrBelow_iff_names.1 hq
      rw [← hqn, List.drop_left]
      cases names with
      | nil =>
          have hqp : q = p := Path.ext_names (by rw [← hqn, List.append_nil])
          have hne : q ≠ p.push name := by
            rw [hqp]
            exact Path.ne_of_isAbove (Path.isAbove_push_self p name)
          rw [if_neg hne, h.slots, hqp, ← List.append_nil p.names,
            Subtree.slot?_append hat]
          rfl
      | cons key names =>
          rw [Subtree.slot?_cons, ChildMap.get?_insert]
          by_cases hkey : key = name
          · rw [hkey, if_pos rfl, Option.bind_some]
            cases names with
            | nil =>
                rw [if_pos (Path.ext_names (by rw [← hqn, hkey]; rfl))]
                rfl
            | cons next names =>
                rw [Subtree.slot?_cons, h.slot?_adopted ht hat hproper hdead, if_neg, ← hkey]
                · exact congrArg t.slots.get? (Path.ext_names hqn.symm)
                · intro hcon
                  rw [hcon, Path.names_push] at hqn
                  simpa using congrArg List.length hqn
          · rw [if_neg hkey, if_neg, h.slots, ← hqn, Subtree.slot?_append hat, Subtree.slot?_cons]
            intro hcon
            rw [hcon, Path.names_push] at hqn
            exact hkey (List.cons.inj (List.append_cancel_left hqn)).1
    · rw [if_neg hq, if_neg]
      rintro rfl
      exact hq (Path.isAtOrBelow_of_isAbove (Path.isAbove_push_self p name))
  · have hgone : t.slots.get? (p.push name) = (s.below.get? name).map (·.node) :=
      h.slot?_push hat name
    rw [CommittedTree.place, hgone]
    cases hc : s.below.get? name with
    | none => exact h.retired
    | some c =>
        have hentries := h.childEntries_eq (p := p.push name)
          ((Subtree.at?_append hat).trans (by rw [Subtree.at?_cons, hc]; rfl))
        simp only [Option.map_some, CommittedTree.retire, Option.toList_some, List.map_cons,
          List.map_nil, List.cons_append, List.nil_append, ← hentries, h.retired]
        rw [Subtree.retiree, (hproper.2.get? hc).1]
  · rw [CommittedTree.place_nextId, h.nextId]
  · rw [CommittedTree.place]
    split <;> exact h.version
  · refine h.proper_setAt hat ⟨hproper.1, hproper.2.insert ⟨hpath, ?_⟩⟩
    exact hadopted
  · rw [Subtree.ref, hpath, h.nextId]

/-! ### Dropping tombstones -/

/-- **Dropping the tombstones** is the same in both trees. -/
theorem purge (h : u.Flattens t) (ht : t.Sound) : u.purge.1.Flattens t.purge.1 := by
  have hroot : u.root.node.valid = true := by
    have hvalid := ht.root
    rw [h.isValidAt_eq] at hvalid
    simpa using hvalid
  refine ⟨fun q => ?_, ?_, h.nextId, h.version, h.proper.1, h.proper.2.purge⟩
  · have hwalk : (u.peek? q).map (·.node) = _ := h.peek?_eq q
    rw [CommittedTree.get?_purge, ← ht.peek?_eq, ← hwalk]
    exact (Subtree.slot?_purge h.proper hroot).symm
  · have hdead : u.root.below.dead = ((u.root.below.listing fun _ => true).filter (!·.2.valid)).map
        fun e => ⟨e.1, e.2, t.childEntries e.1⟩ := by
      refine ChildMap.dead_eq h.proper.2 fun name names c d hc hd => ?_
      have hat : u.root.at? (name :: names) = some d := by
        rw [Subtree.at?_cons, hc]
        exact hd
      have hpath : d.path = ⟨name :: names⟩ := (h.proper.at? hat).1
      rw [hpath]
      exact h.childEntries_eq (p := ⟨name :: names⟩) hat
    have hslots : (t.slots.filter fun _ n => !n.valid).toList =
        (u.root.below.listing fun _ => true).filter (!·.2.valid) := by
      calc t.slots.toList.filter (!·.2.valid)
        _ = ((Path.root, u.root.node) :: u.root.below.listing fun _ => true).filter
              (!·.2.valid) := by rw [h.toList_slots]
        _ = (u.root.below.listing fun _ => true).filter (!·.2.valid) := by
              rw [List.filter_cons, hroot]
              rfl
    simp only [CommittedTree.purge, NestedTree.purge, hslots, hdead, h.retired]

/-- Just as many tombstones are dropped from the maps as stand directly below a valid node. -/
theorem purge_count (h : u.Flattens t) (ht : t.Sound) : u.purge.2 = t.purge.2 := by
  have hroot : u.peek? Path.root = some u.root := by
    have hvalid := ht.root
    rw [h.isValidAt_eq] at hvalid
    rw [peek?, entry?, Path.names_root, Subtree.entryAt?, Option.filter_some,
      if_pos (by simpa using hvalid)]
  refine ChildMap.purge_count.trans (congrArg List.length (SortedMap.eq_of_mem_iff
    ((ChildMap.listing_pairwise h.proper.2).filter _) (SortedMap.ordered _) fun q n => ?_))
  rw [List.mem_filter, h.mem_met hroot, ← SortedMap.get?_eq_some_iff, SortedMap.get?_filter,
    Option.filter_eq_some_iff, SortedMap.get?_filter, Option.filter_eq_some_iff, Path.root_isAbove,
    CommittedTree.entry?]
  cases q using Path.rootOrPush with
  | root => simp
  | push q name =>
      -- above the place all nodes are valid if the next one is
      have habove : (q.push name).ancestors.all t.isValidAt = t.isValidAt q := by
        rw [Path.ancestors_push, List.all_append, Bool.eq_iff_iff, Bool.and_eq_true]
        constructor
        · rintro ⟨-, hq⟩
          simpa using hq
        · intro hq
          refine ⟨List.all_eq_true.2 fun r hr => ?_, by simpa using hq⟩
          exact ht.valid_of_isAbove (Path.mem_ancestors.1 hr) hq
      rw [habove, Path.parent?_push, Option.any_some]
      simp only [Path.push_ne_root, ne_eq, not_false_eq_true, true_and]
      cases t.isValidAt q <;> simp

end Flattens

/-! ### Changes one after the other -/

/-- **Change the stored tree.** -/
def change (u : NestedTree) : Change → Except TreeError (NestedTree × Reply NodeRef)
  | .createOrUpdate p d v => (u.createOrUpdate p d v).map fun r => (r.1, .node r.2)
  | .install p d v => (u.install p d v).map fun r => (r.1, .node r.2)
  | .update p d v => (u.update p d v).map fun u' => (u', .done)
  | .remove p v => (u.remove p v).map fun r => (r.1, .removed r.2)
  | .purge => .ok (u.purge.1, .done)

/-- The stored tree after the listed changes. -/
def changeAll (u : NestedTree) (changes : List Change) : NestedTree :=
  Change.attemptAll change u changes

/-- A change of both trees fails alike, or is answered alike and keeps the two the same. -/
inductive Accords : {α : Type} → Except TreeError (NestedTree × α) →
    Except TreeError (CommittedTree × α) → Prop
  /-- The changes fail alike. -/
  | error {α : Type} (e : TreeError) : Accords (α := α) (.error e) (.error e)
  /-- The changes are answered alike. -/
  | ok {α : Type} {u : NestedTree} {t : CommittedTree} (reply : α) (h : u.Flattens t) :
      Accords (.ok (u, reply)) (.ok (t, reply))

theorem Accords.map {α β : Type} {x : Except TreeError (NestedTree × α)}
    {y : Except TreeError (CommittedTree × α)} (h : Accords x y) (f : α → β) :
    Accords (x.map fun r => (r.1, f r.2)) (y.map fun r => (r.1, f r.2)) := by
  cases h with
  | error e => exact .error e
  | ok reply h => exact .ok (f reply) h

theorem accords_install (h : u.Flattens t) (ht : t.Sound) (hp : p.WellFormed) :
    Accords (u.install p d v) (t.install p d v) := by
  cases p using Path.rootOrPush with
  | root => exact .error _
  | push p name =>
      have hname : Path.GoodName name := hp name (by simp)
      simp only [install, CommittedTree.install, Path.parent?_push, Path.name?_push,
        CommittedTree.exists?, ← h.peek?_eq p]
      cases hs : u.peek? p with
      | none => exact .error _
      | some s =>
          obtain ⟨hat, hvalid, hproper, -⟩ := h.found hs
          simp only [Option.map_some, Option.isSome_some, if_true]
          have hcleared : ((u.setAt p (s.clearChild name v)).observe v).Flattens
              ((if t.isValidAt (p.push name) then t.bury (p.push name) v else t).observe v) :=
            (h.clearChild hat hproper).observe v
          have hsound : ((if t.isValidAt (p.push name) then t.bury (p.push name) v
              else t).observe v).Sound := ht.cleared
          have hat' : ((u.setAt p (s.clearChild name v)).observe v).root.at? p.names =
              some (s.clearChild name v) := Subtree.at?_replaceAt hat
          have hproper' := hcleared.proper.at? hat'
          have hvalid' : (s.clearChild name v).node.valid = true := by
            rw [Subtree.clearChild]
            split
            · split <;> exact hvalid
            · exact hvalid
          have hdead : ¬CommittedTree.isValidAt ((if t.isValidAt (p.push name) then
              t.bury (p.push name) v else t).observe v) (p.push name) = true := by
            split
            · exact fun hcon => (CommittedTree.isValidAt_bury.1 hcon).2 (Path.isAtOrBelow_self _)
            · assumption
          obtain ⟨hnew, href⟩ :=
            hcleared.installed (d := d) (v := v) hsound hat' hproper' hdead hname
            (by rw [Subtree.installChild, if_pos hvalid'])
          rw [Subtree.installChild, if_pos hvalid']
          simp only
          rw [href]
          have hid : ((if t.isValidAt (p.push name) then t.bury (p.push name) v
              else t).observe v).nextId = t.nextId := by
            split <;> rfl
          rw [hid]
          exact .ok _ hnew

theorem accords_update {α : Type} (h : u.Flattens t) (reply : α) :
    Accords ((u.update p d v).map (·, reply)) ((t.update p d v).map (·, reply)) := by
  rw [update, CommittedTree.update, ← h.peek?_eq p]
  cases hs : u.peek? p with
  | none => exact .error _
  | some s =>
      obtain ⟨-, hvalid, -, -⟩ := h.found hs
      simp only [Option.map_some, Subtree.replaceData, if_pos hvalid]
      exact .ok reply (h.overwrite hs)

theorem accords_createOrUpdate (h : u.Flattens t) (ht : t.Sound) (hp : p.WellFormed) :
    Accords (u.createOrUpdate p d v) (t.createOrUpdate p d v) := by
  rw [createOrUpdate, CommittedTree.createOrUpdate, ← h.peek?_eq p]
  cases hs : u.peek? p with
  | none => exact accords_install h ht hp
  | some s =>
      obtain ⟨-, hvalid, hproper, -⟩ := h.found hs
      simp only [Option.map_some, Subtree.replaceData, if_pos hvalid]
      have href : (⟨p, s.node.id⟩ : NodeRef) = ⟨s.path, s.node.id⟩ := by rw [hproper.1]
      rw [href]
      exact .ok _ (h.overwrite hs)

theorem accords_remove (h : u.Flattens t) : Accords (u.remove p v) (t.remove p v) := by
  rw [remove, CommittedTree.remove, ← h.peek?_eq p]
  split
  · exact .error _
  cases hs : u.peek? p with
  | none => exact .ok none h
  | some s =>
      obtain ⟨hat, -, hproper, -⟩ := h.found hs
      have hnew := (h.bury (v := v) hat hproper).observe v
      simp only [Option.map_some, Subtree.ref, hproper.1]
      exact .ok _ hnew

end NestedTree

/-- The path that is changed has good names only. -/
def Change.WellNamed : Change → Prop
  | createOrUpdate p _ _ => p.WellFormed
  | install p _ _ => p.WellFormed
  | update p _ _ => p.WellFormed
  | remove p _ => p.WellFormed
  | purge => True

namespace NestedTree

variable {u : NestedTree} {t : CommittedTree} {ch : Change}

/-- **One change goes in the stored tree as it goes in the other.** -/
theorem accords_change (h : u.Flattens t) (ht : t.Sound) (hch : ch.WellNamed) :
    Accords (u.change ch) (t.change ch) := by
  cases ch with
  | createOrUpdate p d v => exact (accords_createOrUpdate h ht hch).map Reply.node
  | install p d v => exact (accords_install h ht hch).map Reply.node
  | update p d v => exact accords_update h Reply.done
  | remove p v => exact (accords_remove h).map Reply.removed
  | purge => exact .ok Reply.done (h.purge ht)

theorem flattens_empty : NestedTree.empty.Flattens CommittedTree.empty where
  slots q := by
    rw [CommittedTree.empty, SortedMap.get?_insert]
    split
    · rename_i hq
      rw [hq]
      rfl
    · rename_i hq
      cases hn : q.names with
      | nil => exact absurd (Path.ext_names hn) hq
      | cons name names => rfl
  retired := rfl
  nextId := rfl
  version := rfl
  proper := ⟨rfl, trivial⟩

/-- **All that can be asked of the stored tree is answered as by the other one.** -/
structure Shows (u : NestedTree) (t : CommittedTree) : Prop where
  /-- The same node, or tombstone, is found at a path. -/
  entry? : ∀ p, (u.entry? p).map (fun s => (s.path, s.node)) = (t.entry? p).map fun n => (p, n)
  /-- The newest removal on the way is the same. -/
  tombstoneVersion : ∀ p, u.tombstoneVersion p = t.tombstoneVersion p
  /-- What is found at a path has the children that are directly below it, by name. -/
  children : ∀ p s, u.entry? p = some s →
    SortedSet.ofElements s.below.validNames = t.childNames p ∧ s.below.entries = t.childEntries p
  /-- The same is collected below a path, in the same order. -/
  descendants : ∀ p, u.descendants p = t.descendants p
  /-- There are as many valid nodes. -/
  size : u.size = t.size
  /-- Just as many tombstones would be dropped. -/
  purge : u.purge.2 = t.purge.2

theorem Flattens.shows (h : u.Flattens t) (ht : t.Sound) : Shows u t := by
  have hat : ∀ {p s}, u.entry? p = some s → u.root.at? p.names = some s := by
    intro p s hs
    rw [NestedTree.entry?, Subtree.entryAt?_eq] at hs
    split at hs
    · exact hs
    · simp at hs
  refine ⟨fun p => ?_, h.tombstoneVersion_eq, fun p s hs => ?_, h.descendants_eq ht, ?_,
    h.purge_count ht⟩
  · rw [← h.entry?_eq]
    cases hs : u.entry? p with
    | none => rfl
    | some s =>
        have hpath : s.path = p := (h.proper.at? (hat hs)).1
        rw [Option.map_some, Option.map_some, Option.map_some, hpath]
  · exact ⟨h.childNames_eq (hat hs), h.childEntries_eq (hat hs)⟩
  · rw [NestedTree.size, CommittedTree.size, h.descendants_eq ht]

/-- **Changes of both trees are answered alike and keep the two the same.** -/
theorem Flattens.changeAll_replies (h : u.Flattens t) (ht : t.Sound) (changes : List Change)
    (hch : ∀ ch ∈ changes, ch.WellNamed) :
    Change.replies change u changes = Change.replies CommittedTree.change t changes ∧
      (u.changeAll changes).Flattens (t.changeAll changes) := by
  induction changes generalizing u t with
  | nil => exact ⟨rfl, h⟩
  | cons ch changes ih =>
      have hnext : (Change.attempt change u ch).1.Flattens
            (Change.attempt CommittedTree.change t ch).1 ∧
          (Change.attempt change u ch).2 = (Change.attempt CommittedTree.change t ch).2 := by
        have haccords := accords_change h ht (hch ch List.mem_cons_self)
        simp only [Change.attempt]
        generalize u.change ch = x, t.change ch = y at haccords
        cases haccords with
        | error e => exact ⟨h, rfl⟩
        | ok reply h' => exact ⟨h', rfl⟩
      obtain ⟨hreplies, hlast⟩ := ih hnext.1 (ht.changing (t.changing ch))
        fun ch hmem => hch ch (List.mem_cons_of_mem _ hmem)
      refine ⟨?_, hlast⟩
      rw [Change.replies, Change.replies, hnext.2, hreplies]

/-- **The stored tree refines the tree with one node per path.**  Whatever is changed, in whatever
order, at paths with good names: both trees give the same answers, with the same nodes, and fail
alike; and after the changes the stored tree, read off place by place, is the other tree, and
everything that can be asked of it is answered alike. -/
theorem nested_refines_flat (changes : List Change) (h : ∀ ch ∈ changes, ch.WellNamed) :
    Change.replies change .empty changes = Change.replies CommittedTree.change .empty changes ∧
    (NestedTree.empty.changeAll changes).Flattens (CommittedTree.empty.changeAll changes) ∧
    Shows (NestedTree.empty.changeAll changes) (CommittedTree.empty.changeAll changes) := by
  obtain ⟨hreplies, hlast⟩ :=
    flattens_empty.changeAll_replies CommittedTree.sound_empty changes h
  exact ⟨hreplies, hlast, hlast.shows (CommittedTree.sound_empty.changeAll changes)⟩

end NestedTree

end TransactionalTree
