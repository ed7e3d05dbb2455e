/-
**Handles of nodes.**

Whoever was given a node keeps a reference to it, whatever becomes of the node.  The node may be
removed, be replaced by another one at the same path, go with something above it, lie for a while as
a tombstone below a node that was made anew, and be dropped.  In all of this the reference tells the
truth: it is valid exactly while the node is the one that is found at its path.

Main definitions:

* `CommittedTree.Tracked` — the tree is sound, and nodes that have left it are not valid;
* `CommittedTree.Silent` — whatever a node is asked for, the answer is that it is not valid;
* `CommittedTree.handles` — the references to all nodes that were ever put in.

Main results:

* `CommittedTree.Tracked.isValid_iff` — a reference is valid exactly if its node is found;
* `CommittedTree.Tracked.valid_before` — no change makes a node valid again;
* `CommittedTree.handle_valid_exactly_while_committed` — **what a reference is worth**, after any
  changes.
-/

import TransactionalTree.Proofs.Changes
import TransactionalTree.Tree.Reference

set_option relaxedAutoImplicit false
set_option autoImplicit false

namespace TransactionalTree

namespace CommittedTree

variable {t t' : CommittedTree} {p q : Path} {d : Data} {v : Version} {n : Node} {r : NodeRef}
variable {outcome : CommittedTree × Except TreeError (Reply NodeRef)}

/-! ### What a reference means -/

theorem peekRef?_eq_some : t.peekRef? p = some r ↔ ∃ n, t.peek? p = some n ∧ r = ⟨p, n.id⟩ := by
  rw [peekRef?, Option.map_eq_some_iff]
  exact exists_congr fun n => and_congr_right fun _ => eq_comm

theorem standing?_eq_some :
    t.standing? r = some n ↔ t.slots.get? r.path = some n ∧ n.id = r.id := by
  rw [standing?, Option.filter_eq_some_iff, decide_eq_true_iff]

/-- A reference means the node at its path, or one that has left the tree. -/
theorem isSome_node? : (t.node? r).isSome = true ↔
    (∃ n, t.slots.get? r.path = some n ∧ n.id = r.id) ∨
      ∃ m ∈ t.retired, m.path = r.path ∧ m.node.id = r.id := by
  simp only [node?]
  cases hs : t.standing? r with
  | some n => exact ⟨fun _ => .inl ⟨n, standing?_eq_some.1 hs⟩, fun _ => rfl⟩
  | none =>
      have hnot : ¬∃ n, t.slots.get? r.path = some n ∧ n.id = r.id := by
        rintro ⟨n, hn⟩
        rw [standing?_eq_some.2 hn] at hs
        simp at hs
      simp [hnot, retired?]

/-- The tree is sound, and what has left it is not valid. -/
structure Tracked (t : CommittedTree) : Prop where
  /-- The tree is sound. -/
  sound : t.Sound
  /-- Nodes that have left the tree are not valid. -/
  invalid : ∀ m ∈ t.retired, m.node.valid = false
  /-- Their identities are below the next one. -/
  fresh : ∀ m ∈ t.retired, m.node.id < t.nextId

theorem tracked_empty : CommittedTree.empty.Tracked :=
  ⟨sound_empty, fun _ hm => absurd hm List.not_mem_nil, fun _ hm => absurd hm List.not_mem_nil⟩

namespace Tracked

variable (h : t.Tracked)
include h

/-- **A reference is valid exactly if its node is found** at its path. -/
theorem isValid_iff : t.isValid r = true ↔ t.peekRef? r.path = some r := by
  have hpeek : t.peekRef? r.path = some r ↔
      ∃ n, t.standing? r = some n ∧ n.valid = true := by
    simp only [peekRef?_eq_some, h.sound.peek?_eq_some, standing?_eq_some]
    constructor
    · rintro ⟨n, ⟨hn, hv⟩, hr⟩
      exact ⟨n, ⟨hn, by rw [hr]⟩, hv⟩
    · rintro ⟨n, ⟨hn, hid⟩, hv⟩
      exact ⟨n, ⟨hn, hv⟩, by rw [hid]⟩
  rw [hpeek, isValid, node?]
  cases hs : t.standing? r with
  | some n => simp
  | none =>
      cases hm : t.retired? r with
      | none => simp
      | some m =>
          have hdead := h.invalid m (List.mem_of_find?_eq_some hm)
          simp [hdead]

/-- A reference that means a node has an identity that was given out. -/
theorem id_lt (hr : (t.node? r).isSome = true) : r.id < t.nextId := by
  rcases isSome_node?.1 hr with ⟨n, hn, hid⟩ | ⟨m, hm, -, hid⟩
  · rw [← hid]
    exact h.sound.fresh hn
  · rw [← hid]
    exact h.fresh m hm

/-- A node that is put in is none of those that a reference meant before. -/
theorem install_new (hi : t.install p d v = .ok (t', r)) : t.node? r = none := by
  obtain ⟨q, name, rfl, -, rfl, -⟩ := install_ok hi
  cases hn : t.node? ⟨q.push name, t.nextId⟩ with
  | none => rfl
  | some n =>
      have hlt := h.id_lt (by rw [hn]; rfl)
      exact absurd hlt (Nat.lt_irrefl t.nextId)

end Tracked

/-! ### One change -/

/-- What is at the path of a new node leaves the tree. -/
theorem mem_retired_place {m : RetiredNode} : m ∈ (t.place p d v).retired ↔
    (∃ n, t.slots.get? p = some n ∧ m = ⟨p, n, t.childEntries p⟩) ∨ m ∈ t.retired := by
  simp only [place]
  cases t.slots.get? p with
  | none => simp
  | some n => simp [retire]

theorem mem_retired_purge {m : RetiredNode} : m ∈ t.purge.1.retired ↔
    (∃ q n, t.slots.get? q = some n ∧ n.valid = false ∧ m = ⟨q, n, t.childEntries q⟩) ∨
      m ∈ t.retired := by
  simp only [purge, List.mem_append, List.mem_map, Prod.exists, ← SortedMap.get?_eq_some_iff,
    SortedMap.get?_filter, Option.filter_eq_some_iff, Bool.not_eq_true', and_assoc]
  refine or_congr_left (exists_congr fun q => exists_congr fun n => ?_)
  exact and_congr_right fun _ => and_congr_right fun _ => eq_comm

/-- Burying takes away no node and leaves identities as they are. -/
theorem exists_get?_bury {id : Nat} :
    (∃ n, (t.bury p v).slots.get? q = some n ∧ n.id = id) ↔
      ∃ n, t.slots.get? q = some n ∧ n.id = id := by
  rw [get?_bury]
  split
  · simp
  · rfl

/-- The tree in which an installation puts the new node: what is at the path is buried. -/
theorem install_place (hi : t.install p d v = .ok (t', r)) :
    ∃ t₁ : CommittedTree, t' = t₁.place p d v ∧ r = ⟨p, t.nextId⟩ ∧ t₁.nextId = t.nextId ∧
      t₁.retired = t.retired ∧ t₁.isValidAt p = false ∧
      ∀ q id, (∃ n, t₁.slots.get? q = some n ∧ n.id = id) ↔
        ∃ n, t.slots.get? q = some n ∧ n.id = id := by
  obtain ⟨q, name, rfl, -, rfl, rfl⟩ := install_ok hi
  refine ⟨_, rfl, rfl, ?_⟩
  split
  · refine ⟨rfl, rfl, ?_, fun _ _ => exists_get?_bury⟩
    rw [Bool.eq_false_iff]
    exact fun hv => (isValidAt_bury.1 hv).2 (Path.isAtOrBelow_self _)
  · rename_i hv
    have hdead : (t.observe v).isValidAt (q.push name) = false := Bool.eq_false_iff.2 hv
    exact ⟨rfl, rfl, hdead, fun _ _ => .rfl⟩

/-- Identities are only given out, never taken back. -/
theorem nextId_changing (hc : Changing t outcome) : t.nextId ≤ outcome.1.nextId := by
  cases hc with
  | installed hi =>
      rw [install_nextId hi]
      exact Nat.le_succ _
  | failed e => exact Nat.le_refl _
  | idle => exact Nat.le_refl _
  | written d v hn => exact Nat.le_refl _
  | updated d v hn => exact Nat.le_refl _
  | removed v hp hn => exact Nat.le_refl _
  | purged => exact Nat.le_refl _

/-- What leaves the tree in a change is not valid, and has been given its identity before. -/
theorem Tracked.changing (h : t.Tracked) (hc : Changing t outcome) : outcome.1.Tracked := by
  have hsound := h.sound.changing hc
  have hnext := nextId_changing hc
  cases hc with
  | @installed p d v t' r hi =>
      obtain ⟨t₁, rfl, -, -, hret, hdead, hids⟩ := install_place hi
      have hleft : ∀ n, t₁.slots.get? p = some n → n.valid = false ∧ n.id < t.nextId := by
        intro n hn
        refine ⟨by simpa [isValidAt, hn] using hdead, ?_⟩
        obtain ⟨m, hm, hid⟩ := (hids p n.id).1 ⟨n, hn, rfl⟩
        rw [← hid]
        exact h.sound.fresh hm
      refine ⟨hsound, fun m hm => ?_, fun m hm => Nat.lt_of_lt_of_le ?_ hnext⟩
      · rcases mem_retired_place.1 hm with ⟨n, hn, rfl⟩ | hm
        · exact (hleft n hn).1
        · rw [hret] at hm
          exact h.invalid m hm
      · rcases mem_retired_place.1 hm with ⟨n, hn, rfl⟩ | hm
        · exact (hleft n hn).2
        · rw [hret] at hm
          exact h.fresh m hm
  | purged =>
      refine ⟨hsound, fun m hm => ?_, fun m hm => ?_⟩
      · rcases mem_retired_purge.1 hm with ⟨q, n, -, hn, rfl⟩ | hm
        · exact hn
        · exact h.invalid m hm
      · rcases mem_retired_purge.1 hm with ⟨q, n, hget, -, rfl⟩ | hm
        · exact h.sound.fresh hget
        · exact h.fresh m hm
  | failed e => exact h
  | idle => exact h
  | written d v hn => exact ⟨hsound, h.invalid, h.fresh⟩
  | updated d v hn => exact ⟨hsound, h.invalid, h.fresh⟩
  | removed v hp hn => exact ⟨hsound, h.invalid, h.fresh⟩

/-- Writing data leaves identities as they are. -/
theorem exists_get?_overwrite {id : Nat} (hn : t.slots.get? p = some n) :
    (∃ m, (t.overwrite p n d v).slots.get? q = some m ∧ m.id = id) ↔
      ∃ m, t.slots.get? q = some m ∧ m.id = id := by
  rw [get?_overwrite]
  split
  · rename_i hq
    rw [hq, hn]
    simp
  · rfl

/-- **No node is lost**: what a reference means after a change it has meant before, and still
means. -/
theorem Tracked.node?_changing (h : t.Tracked) (hc : Changing t outcome)
    (hr : (t.node? r).isSome = true) : (outcome.1.node? r).isSome = true := by
  have hwrite : ∀ {p : Path} {n : Node} {d : Data} {v : Version}, t.peek? p = some n →
      ((t.overwrite p n d v).node? r).isSome = true := by
    intro p n d v hn
    rw [isSome_node?] at hr ⊢
    rwa [exists_get?_overwrite (h.sound.peek?_eq_some.1 hn).1]
  cases hc with
  | @installed p d v t' ref hi =>
      obtain ⟨t₁, rfl, -, -, hret, -, hids⟩ := install_place hi
      rw [isSome_node?, ← hids, ← hret] at hr
      rw [isSome_node?]
      rcases hr with ⟨n, hn, hid⟩ | ⟨m, hm, hid⟩
      · by_cases hp : r.path = p
        -- the node at the path of the new one leaves the tree
        · rw [hp] at hn
          exact .inr ⟨_, mem_retired_place.2 (.inl ⟨n, hn, rfl⟩), hp.symm, hid⟩
        · exact .inl ⟨n, by rw [get?_place, if_neg hp, hn], hid⟩
      · exact .inr ⟨m, mem_retired_place.2 (.inr hm), hid⟩
  | purged =>
      rw [isSome_node?] at hr ⊢
      rcases hr with ⟨n, hn, hid⟩ | ⟨m, hm, hid⟩
      · cases hv : n.valid with
        | true => exact .inl ⟨n, by rw [get?_purge, hn, Option.filter_some, if_pos hv], hid⟩
        | false => exact .inr ⟨_, mem_retired_purge.2 (.inl ⟨r.path, n, hn, hv, rfl⟩), rfl, hid⟩
      · exact .inr ⟨m, mem_retired_purge.2 (.inr hm), hid⟩
  | removed v hp hn =>
      rw [isSome_node?] at hr ⊢
      rw [← exists_get?_bury] at hr
      exact hr
  | failed e => exact hr
  | idle => exact hr
  | written d v hn => exact hwrite hn
  | updated d v hn => exact hwrite hn

/-- **No change makes a node valid again**: a node that is valid after a change, and was there
before, was valid before. -/
theorem Tracked.valid_before (h : t.Tracked) (hc : Changing t outcome)
    (hr : (t.node? r).isSome = true) (hv : outcome.1.isValid r = true) : t.isValid r = true := by
  have hid := h.id_lt hr
  rw [(h.changing hc).isValid_iff, peekRef?_eq_some] at hv
  obtain ⟨n, hn, hrn⟩ := hv
  rw [h.isValid_iff, peekRef?_eq_some]
  have hwrite : ∀ {p : Path} {m : Node} {d : Data} {v : Version}, t.peek? p = some m →
      (t.overwrite p m d v).peek? r.path = some n →
      ∃ n, t.peek? r.path = some n ∧ r = ⟨r.path, n.id⟩ := by
    intro p m d v hm hn
    rw [h.sound.peek?_overwrite hm] at hn
    split at hn
    · rename_i hp
      refine ⟨m, by rw [hp, hm], ?_⟩
      rw [hrn, ← Option.some.inj hn]
    · exact ⟨n, hn, hrn⟩
  cases hc with
  | installed hi =>
      rw [h.sound.peek?_install hi] at hn
      split at hn
      -- the new node has an identity that no node had before
      · have hnew : r.id = t.nextId := by
          rw [hrn, ← Option.some.inj hn]
        exact absurd hid (by rw [hnew]; exact Nat.lt_irrefl _)
      · split at hn
        · simp at hn
        · exact ⟨n, hn, hrn⟩
  | removed v hp hm =>
      rw [peek?_observe, h.sound.peek?_bury hp] at hn
      split at hn
      · simp at hn
      · exact ⟨n, hn, hrn⟩
  | purged =>
      rw [h.sound.peek?_purge] at hn
      exact ⟨n, hn, hrn⟩
  | failed e => exact ⟨n, hn, hrn⟩
  | idle => exact ⟨n, hn, hrn⟩
  | written d v hm => exact hwrite hm hn
  | updated d v hm => exact hwrite hm hn

/-! ### All changes -/

theorem Tracked.changeAll (h : t.Tracked) (changes : List Change) :
    (t.changeAll changes).Tracked := by
  induction changes generalizing t with
  | nil => exact h
  | cons ch changes ih => exact ih (h.changing (t.changing ch))

/-- No node is lost in any changes. -/
theorem Tracked.node?_changeAll (h : t.Tracked) (hr : (t.node? r).isSome = true)
    (changes : List Change) : ((t.changeAll changes).node? r).isSome = true := by
  induction changes generalizing t with
  | nil => exact hr
  | cons ch changes ih =>
      have hc := t.changing ch
      exact ih (h.changing hc) (h.node?_changing hc hr)

/-- A node that is not valid stays so. -/
theorem Tracked.invalid_changeAll (h : t.Tracked) (hr : (t.node? r).isSome = true)
    (hv : t.isValid r = false) (changes : List Change) :
    (t.changeAll changes).isValid r = false := by
  induction changes generalizing t with
  | nil => exact hv
  | cons ch changes ih =>
      have hc := t.changing ch
      refine ih (h.changing hc) (h.node?_changing hc hr) ?_
      rw [Bool.eq_false_iff] at hv ⊢
      intro hnext
      exact hv (h.valid_before hc hr hnext)

/-- The node that an answer names as written or put in. -/
def named? : Except TreeError (Reply NodeRef) → Option NodeRef
  | .ok (.node r) => some r
  | _ => none

theorem named?_eq_some {answer : Except TreeError (Reply NodeRef)} (h : named? answer = some r) :
    answer = .ok (.node r) := by
  match answer with
  | .error _ => simp [named?] at h
  | .ok (.node _) => rw [Option.some.inj h]
  | .ok (.removed _) => simp [named?] at h
  | .ok .done => simp [named?] at h

/-- The nodes that the listed changes name as written or put in. -/
def named (t : CommittedTree) (changes : List Change) : List NodeRef :=
  (Change.replies change t changes).filterMap named?

/-- **The references to all nodes that were ever put in** a new tree: the root, and what the changes
have put in. -/
def handles (changes : List Change) : List NodeRef :=
  ⟨Path.root, 0⟩ :: CommittedTree.empty.named changes

/-- The node that a change names is there after it. -/
theorem node?_of_named? (hc : Changing t outcome) (hr : named? outcome.2 = some r) :
    (outcome.1.node? r).isSome = true := by
  have hreply := named?_eq_some hr
  rw [isSome_node?]
  cases hc with
  | installed hi =>
      obtain rfl := by simpa using hreply
      obtain ⟨t₁, rfl, rfl, hnext, -, -, -⟩ := install_place hi
      exact .inl ⟨_, get?_place.trans (if_pos rfl), hnext⟩
  | written d v hn =>
      obtain rfl := by simpa using hreply
      exact .inl ⟨_, get?_overwrite.trans (if_pos rfl), rfl⟩
  | failed e => simp at hreply
  | idle => simp at hreply
  | updated d v hn => simp at hreply
  | removed v hp hn => simp at hreply
  | purged => simp at hreply

/-- All nodes that were named are there. -/
theorem Tracked.node?_of_named (h : t.Tracked) {changes : List Change}
    (hr : r ∈ t.named changes) : ((t.changeAll changes).node? r).isSome = true := by
  induction changes generalizing t with
  | nil => simp [named, Change.replies] at hr
  | cons ch changes ih =>
      have hc := t.changing ch
      have hnext := h.changing hc
      simp only [named, Change.replies, List.mem_filterMap, List.mem_cons] at hr
      obtain ⟨answer, rfl | hmem, hnamed⟩ := hr
      · exact hnext.node?_changeAll (node?_of_named? hc hnamed) changes
      · exact ih hnext (List.mem_filterMap.2 ⟨answer, hmem, hnamed⟩)

/-- All nodes that were ever put in are there. -/
theorem node?_of_mem_handles {changes : List Change} (hr : r ∈ handles changes) :
    ((CommittedTree.empty.changeAll changes).node? r).isSome = true := by
  rcases List.mem_cons.1 hr with rfl | hr
  · exact tracked_empty.node?_changeAll (by decide) changes
  · exact tracked_empty.node?_of_named hr

/-! ### What is answered for a node -/

/-- **Whatever the node is asked for, the answer is that it is not valid.** -/
structure Silent (t : CommittedTree) (r : NodeRef) : Prop where
  /-- The version. -/
  version : t.versionOf r = .error (.nodeInvalid r.path)
  /-- The data. -/
  data : t.dataOf r = .error (.nodeInvalid r.path)
  /-- The value under a key. -/
  value : ∀ key, t.valueOf r key = .error (.nodeInvalid r.path)
  /-- The keys. -/
  keys : t.keysOf r = .error (.nodeInvalid r.path)
  /-- The names of the nodes directly below. -/
  childNames : t.childNamesOf r = .error (.nodeInvalid r.path)
  /-- One of the nodes directly below. -/
  child : ∀ name, t.childOf r name = .error (.nodeInvalid r.path)
  /-- The nodes directly below. -/
  children : t.childrenRefsOf r = .error (.nodeInvalid r.path)
  /-- All of it at once. -/
  snapshot : t.snapshotOf r = .error (.nodeInvalid r.path)

/-- A node that is not valid answers nothing. -/
theorem read_of_invalid {α : Type} (h : t.isValid r = false) (ask : Node → α) :
    t.read r ask = .error (.nodeInvalid r.path) := by
  have hnone : (t.node? r).filter (·.valid) = none := by
    rw [isValid] at h
    cases hn : t.node? r with
    | none => rfl
    | some n =>
        rw [hn, Option.any_some] at h
        rw [Option.filter_some, if_neg (by simp [h])]
  rw [read, hnone]

theorem silent_of_invalid (h : t.isValid r = false) : t.Silent r := by
  have hnames : t.childNamesOf r = .error (.nodeInvalid r.path) := read_of_invalid h _
  refine ⟨read_of_invalid h _, read_of_invalid h _, fun _ => read_of_invalid h _,
    read_of_invalid h _, hnames, fun _ => read_of_invalid h _, read_of_invalid h _, ?_⟩
  rw [snapshotOf, hnames]

/-- The nodes directly below a path, tombstones included. -/
theorem mem_childEntries {name : String} {id : Nat} : (name, id) ∈ t.childEntries p ↔
    ∃ n, t.slots.get? (p.push name) = some n ∧ n.id = id := by
  simp only [childEntries, List.mem_filterMap]
  constructor
  · rintro ⟨⟨q, n⟩, hmem, hq⟩
    split at hq
    · rename_i hc
      obtain ⟨name', rfl⟩ := Path.isChildOf_iff.1 hc
      rw [Path.name?_push, Option.map_some, Option.some.injEq, Prod.mk.injEq] at hq
      obtain ⟨rfl, hid⟩ := hq
      exact ⟨n, SortedMap.get?_eq_some_iff.2 hmem, hid⟩
    · simp at hq
  · rintro ⟨n, hn, hid⟩
    refine ⟨(p.push name, n), SortedMap.get?_eq_some_iff.1 hn, ?_⟩
    rw [if_pos (Path.isChildOf_iff.2 ⟨name, rfl⟩), Path.name?_push, Option.map_some, hid]

/-- **A valid node lists the valid nodes directly below its path.** -/
theorem Tracked.childNamesOf_eq (h : t.Tracked) (hr : t.isValid r = true) :
    t.childNamesOf r = .ok (t.childNames r.path) := by
  obtain ⟨n, hn, hrn⟩ := peekRef?_eq_some.1 (h.isValid_iff.1 hr)
  have hslot := h.sound.peek?_eq_some.1 hn
  have hstand : t.standing? r = some n := standing?_eq_some.2 ⟨hslot.1, by rw [hrn]⟩
  have hmeans : (t.node? r).filter (·.valid) = some n := by
    rw [node?, hstand, Option.filter_some, if_pos hslot.2]
  simp only [childNamesOf, read, hmeans, Except.ok.injEq]
  refine SortedSet.ext_has fun name => ?_
  rw [SortedSet.has_ofElements, mem_childNames]
  simp only [childrenOf, hstand, List.mem_map, List.mem_filter, Prod.exists]
  -- a child is listed if the node at its path is the one that the entry means, and valid
  constructor
  · rintro ⟨_, r', ⟨⟨name', id, -, heq⟩, hv⟩, rfl⟩
    obtain ⟨rfl, rfl⟩ := Prod.mk.inj heq
    obtain ⟨m, hm, -⟩ := peekRef?_eq_some.1 (h.isValid_iff.1 hv)
    exact isValidAt_iff.2 ⟨m, h.sound.peek?_eq_some.1 hm⟩
  · intro hv
    obtain ⟨m, hm⟩ := isValidAt_iff.1 hv
    refine ⟨name, ⟨r.path.push name, m.id⟩, ⟨⟨name, m.id, ?_, rfl⟩, ?_⟩, rfl⟩
    · exact mem_childEntries.2 ⟨m, hm.1, rfl⟩
    · exact h.isValid_iff.2 (peekRef?_eq_some.2 ⟨m, h.sound.peek?_eq_some.2 hm, rfl⟩)

/-! ### What a reference is worth -/

/-- **A reference to a node is valid exactly while the node is the committed one.**  Take any node
that was put in by some changes.  It is still there, and it is valid exactly if it is what is found
at its path.  If it is not valid, no further changes make it valid, and it answers nothing any more.
Two valid nodes have different paths; dropping tombstones takes away no valid node; and a node that
is put in now is another one. -/
theorem handle_valid_exactly_while_committed (before after : List Change) (r : NodeRef)
    (hr : r ∈ handles before) :
    let t := CommittedTree.empty.changeAll before
    let t' := CommittedTree.empty.changeAll (before ++ after)
    (t.node? r).isSome = true ∧
    (t.isValid r = true ↔ t.peekRef? r.path = some r) ∧
    (t.isValid r = false → t'.isValid r = false ∧ t'.Silent r) ∧
    (∀ r', t.isValid r = true → t.isValid r' = true → r'.path = r.path → r' = r) ∧
    (t.isValid r = true → t.purge.1.isValid r = true ∧ t.purge.1.peekRef? r.path = some r) ∧
    ∀ p d v t₁ r₁, t.install p d v = .ok (t₁, r₁) → r₁ ≠ r := by
  intro t t'
  have htracked : t.Tracked := tracked_empty.changeAll before
  have hnode : (t.node? r).isSome = true := node?_of_mem_handles hr
  refine ⟨hnode, htracked.isValid_iff, fun hv => ?_, fun r' hv hv' hp => ?_, fun hv => ?_,
    fun p d v t₁ r₁ hi heq => ?_⟩
  · have hsplit : t' = t.changeAll after := changeAll_append _ before after
    have hlater : t'.isValid r = false := by
      rw [hsplit]
      exact htracked.invalid_changeAll hnode hv after
    exact ⟨hlater, silent_of_invalid hlater⟩
  · rw [htracked.isValid_iff] at hv hv'
    rw [hp, hv] at hv'
    exact (Option.some.inj hv').symm
  · have hpurged : t.purge.1.Tracked := htracked.changing .purged
    have hpeek : t.purge.1.peekRef? r.path = some r := by
      rw [peekRef?, htracked.sound.peek?_purge]
      exact htracked.isValid_iff.1 hv
    exact ⟨hpurged.isValid_iff.2 hpeek, hpeek⟩
  · have hnone := htracked.install_new hi
    rw [heq] at hnone
    rw [hnone] at hnode
    simp at hnode

/-- The node `/a` is removed and made again, so that what was below it lies below the new one as a
tombstone; the tombstones are dropped, and `/a/b` is made again. -/
def reinstalling : List Change × List Change :=
  let a : Path := ⟨["a"]⟩
  let b : Path := ⟨["a", "b"]⟩
  ([.install a .empty 1, .install b .empty 1, .remove a 2, .install a .empty 3],
    [.purge, .createOrUpdate b .empty 4])

/-- The first node `/a/b` is silent in the end, although there is another one at its path. -/
theorem first_silent :
    (CommittedTree.empty.changeAll (reinstalling.1 ++ reinstalling.2)).Silent ⟨⟨["a", "b"]⟩, 2⟩ :=
  ((handle_valid_exactly_while_committed reinstalling.1 reinstalling.2 ⟨⟨["a", "b"]⟩, 2⟩
    (by decide +kernel)).2.2.1 (by decide +kernel)).2

end CommittedTree

end TransactionalTree
