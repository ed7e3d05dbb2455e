/-
**Dropping tombstones.**

What is dropped are the tombstones and nothing else: every node that can be found stays, with its
data, its version and the names of its children, and so does the counter.  No tombstone is left, at
any depth, because a tombstone that lies below another goes with it.  Such a tombstone is not
counted, though: the count is of those that have a valid node above them.

Main definitions:

* `CommittedTree.tombstones` — the tombstones of a tree, by path;
* `CommittedTree.topTombstones` — those of them that are below no other;
* `CommittedTree.Grown` — every node hangs below a node, which may be a tombstone.

Main results:

* `CommittedTree.Grown.stampAll` — whatever is asked of a tree, it stays grown;
* `CommittedTree.Grown.parent_valid_iff` — below a valid node is what is below no tombstone;
* `CommittedTree.purge_forgets_tombstones` — **only the tombstones go**, and which of them are
  counted.
-/

import TransactionalTree.Proofs.Counter

set_option relaxedAutoImplicit false
set_option autoImplicit false

namespace TransactionalTree

namespace CommittedTree

variable {t : CommittedTree} {outcome : CommittedTree × Except TreeError (Reply NodeRef)}
variable {p q : Path} {n : Node} {d : Data} {v : Version} {name : String}

/-- The tombstones of a tree, by path. -/
def tombstones (t : CommittedTree) : SortedMap Path Node := t.slots.filter fun _ n => !n.valid

theorem contains_tombstones :
    t.tombstones.contains p = true ↔ ∃ n, t.slots.get? p = some n ∧ n.valid = false := by
  rw [SortedMap.contains_iff]
  simp only [tombstones, SortedMap.get?_filter, Option.filter_eq_some_iff, Bool.not_eq_true']

theorem not_isValidAt_of_tombstone (h : t.tombstones.contains p = true) :
    t.isValidAt p = false := by
  obtain ⟨n, hn, hdead⟩ := contains_tombstones.1 h
  rw [isValidAt, hn, Option.any_some, hdead]

/-! ### No node without one above it -/

/-- **Every node hangs below a node**, valid or not. -/
structure Grown (t : CommittedTree) : Prop where
  /-- The valid nodes hang below valid ones, and what has left the tree is not valid. -/
  tracked : t.Tracked
  /-- The tombstones hang below something, too. -/
  parent : ∀ {p : Path} {name : String}, t.slots.contains (p.push name) = true →
    t.slots.contains p = true

theorem Grown.sound (h : t.Grown) : t.Sound := h.tracked.sound

theorem grown_empty : CommittedTree.empty.Grown where
  tracked := tracked_empty
  parent {p name} h := by
    rw [CommittedTree.empty, SortedMap.contains_insert, SortedMap.contains_iff] at h
    rcases h with h | ⟨n, hn⟩
    · exact absurd h Path.push_ne_root
    · simp at hn

/-- It only matters where there are nodes. -/
theorem Grown.of_contains {t' : CommittedTree} (h : t.Grown) (ht : t'.Tracked)
    (hc : ∀ p, t'.slots.contains p = t.slots.contains p) : t'.Grown where
  tracked := ht
  parent {p name} hp := by
    rw [hc] at hp ⊢
    exact h.parent hp

theorem contains_bury : (t.bury p v).slots.contains q = t.slots.contains q := by
  rw [SortedMap.contains, get?_bury, SortedMap.contains]
  split
  · rw [Option.isSome_map]
  · rfl

theorem contains_overwrite (hn : t.peek? p = some n) (hs : t.Sound) :
    (t.overwrite p n d v).slots.contains q = t.slots.contains q := by
  rw [SortedMap.contains, get?_overwrite, SortedMap.contains]
  split
  · rename_i hq
    rw [hq, (hs.peek?_eq_some.1 hn).1]
    rfl
  · rfl

/-- A new node comes below a valid one, and all others stay where they are. -/
theorem Grown.install {t' : CommittedTree} {r : NodeRef} (h : t.Grown)
    (hi : t.install p d v = .ok (t', r)) : t'.Grown where
  tracked := h.tracked.changing (.installed hi)
  parent {q name} hq := by
    have hcontains : ∀ q, t'.slots.contains q = true ↔ q = p ∨ t.slots.contains q = true := by
      intro q
      rw [SortedMap.contains, get?_install hi]
      split
      · simp [*]
      · split
        · rw [← SortedMap.contains, contains_bury]
          simp [*]
        · rw [← SortedMap.contains]
          simp [*]
    obtain ⟨parent, m, rfl, hparent, -⟩ := install_ok hi
    rw [hcontains] at hq ⊢
    rcases hq with hq | hq
    · obtain ⟨rfl, -⟩ := Path.push_inj.1 hq
      obtain ⟨n, hn, -⟩ := isValidAt_iff.1 (h.sound.exists?_iff.1 hparent)
      exact .inr (SortedMap.contains_iff.2 ⟨n, hn⟩)
    · exact .inr (h.parent hq)

theorem Grown.purge (h : t.Grown) : t.purge.1.Grown where
  tracked := h.tracked.changing .purged
  parent {p name} hp := by
    have hvalid : ∀ q, t.purge.1.slots.contains q = t.isValidAt q := by
      intro q
      rw [SortedMap.contains, get?_purge, Option.isSome_filter, isValidAt]
    rw [hvalid] at hp ⊢
    exact h.sound.parent hp

/-- Every change keeps the tree grown. -/
theorem Grown.changing (h : t.Grown) (hc : Changing t outcome) : outcome.1.Grown := by
  have htracked := h.tracked.changing hc
  cases hc with
  | failed e => exact h
  | idle => exact h
  | installed hi => exact h.install hi
  | written d v hn => exact h.of_contains htracked fun _ => contains_overwrite hn h.sound
  | updated d v hn => exact h.of_contains htracked fun _ => contains_overwrite hn h.sound
  | removed v hp hn => exact h.of_contains htracked fun _ => contains_bury
  | purged => exact h.purge

/-- **Whatever is asked of a tree, it stays grown.** -/
theorem Grown.stampAll (h : t.Grown) (steps : List Stamping) : (t.stampAll steps).Grown := by
  induction steps generalizing t with
  | nil => exact h
  | cons step steps ih =>
      refine ih ?_
      cases step with
      | allocate => exact ⟨⟨h.sound.allocate, h.tracked.invalid, h.tracked.fresh⟩, h.parent⟩
      | observe v => exact ⟨⟨h.sound.observe v, h.tracked.invalid, h.tracked.fresh⟩, h.parent⟩
      | change ch => exact h.changing (t.changing ch)

/-- A tombstone hangs directly below a valid node exactly if no tombstone is above it. -/
theorem Grown.parent_valid_iff (h : t.Grown) (hp : t.tombstones.contains p = true) :
    p.parent?.any t.isValidAt = true ↔
      ∀ q, q.isAbove p = true → ¬t.tombstones.contains q = true := by
  obtain ⟨n, hn, hdead⟩ := contains_tombstones.1 hp
  induction p using Path.rootOrPush with
  | root =>
      have hroot := h.sound.root
      rw [not_isValidAt_of_tombstone hp] at hroot
      simp at hroot
  | push p name _ =>
      rw [Path.parent?_push, Option.any_some]
      constructor
      · intro hvalid q hq htomb
        have hqvalid : t.isValidAt q = true :=
          Path.climb (motive := fun p => t.isValidAt p = true) h.sound.parent
            (Path.isAbove_push.1 hq) hvalid
        rw [not_isValidAt_of_tombstone htomb] at hqvalid
        simp at hqvalid
      · intro hnone
        obtain ⟨m, hm⟩ := SortedMap.contains_iff.1
          (h.parent (SortedMap.contains_iff.2 ⟨n, hn⟩))
        cases hvalid : m.valid with
        | true => exact isValidAt_iff.2 ⟨m, hm, hvalid⟩
        | false =>
            exact absurd (contains_tombstones.2 ⟨m, hm, hvalid⟩)
              (hnone p (Path.isAbove_push_self p name))

/-! ### What is left and what is counted -/

/-- A valid reference means the same node as before, and that has the same children. -/
theorem Grown.node?_purge (h : t.Grown) {r : NodeRef} (hr : t.isValid r = true) :
    t.purge.1.node? r = t.node? r ∧ t.purge.1.childNamesOf r = t.childNamesOf r := by
  have hpeek : t.purge.1.peekRef? r.path = t.peekRef? r.path := by
    rw [peekRef?, h.sound.peek?_purge, peekRef?]
  have hr' : t.purge.1.isValid r = true := by
    rw [h.purge.tracked.isValid_iff, hpeek, ← h.tracked.isValid_iff]
    exact hr
  obtain ⟨n, hn, hrn⟩ := peekRef?_eq_some.1 (h.tracked.isValid_iff.1 hr)
  have hid : n.id = r.id := by rw [hrn]
  have hstands : t.standing? r = some n :=
    standing?_eq_some.2 ⟨(h.sound.peek?_eq_some.1 hn).1, hid⟩
  have hstands' : t.purge.1.standing? r = some n := by
    rw [← h.sound.peek?_purge] at hn
    exact standing?_eq_some.2 ⟨(h.purge.sound.peek?_eq_some.1 hn).1, hid⟩
  refine ⟨?_, ?_⟩
  · rw [node?, hstands', node?, hstands]
  · rw [h.purge.tracked.childNamesOf_eq hr', h.tracked.childNamesOf_eq hr, childNames_purge]

/-- No node that is left is a tombstone. -/
theorem valid_of_purge (hn : t.purge.1.slots.get? p = some n) : n.valid = true := by
  rw [get?_purge, Option.filter_eq_some_iff] at hn
  exact hn.2

theorem tombstones_purge (t : CommittedTree) : t.purge.1.tombstones = SortedMap.empty := by
  refine SortedMap.ext_get? fun p => ?_
  rw [SortedMap.get?_empty, ← SortedMap.contains_eq_false, Bool.eq_false_iff]
  intro hp
  obtain ⟨n, hn, hdead⟩ := contains_tombstones.1 hp
  rw [valid_of_purge hn] at hdead
  simp at hdead

theorem valid_of_no_tombstones (h : t.tombstones = SortedMap.empty)
    (hn : t.slots.get? p = some n) : n.valid = true := by
  by_contra hdead
  have htomb := contains_tombstones.2 ⟨n, hn, Bool.eq_false_iff.2 hdead⟩
  rw [h, SortedMap.contains, SortedMap.get?_empty] at htomb
  simp at htomb

/-- A tree without tombstones remembers no removal. -/
theorem tombstoneVersion_of_none (h : t.tombstones = SortedMap.empty) (p : Path) :
    t.tombstoneVersion p = none := by
  have hnil : (p.steps.filterMap t.slots.get?).filter (!·.valid) = [] := by
    refine List.filter_eq_nil_iff.2 fun n hn => ?_
    obtain ⟨q, -, hq⟩ := List.mem_filterMap.1 hn
    rw [valid_of_no_tombstones h hq]
    simp
  rw [tombstoneVersion, hnil]
  rfl

/-- Where there are no tombstones there is nothing to drop. -/
theorem purge_of_none (h : t.tombstones = SortedMap.empty) : t.purge = (t, 0) := by
  have hslots : (t.slots.filter fun _ n => n.valid) = t.slots := by
    refine SortedMap.ext_get? fun p => ?_
    rw [SortedMap.get?_filter]
    cases hn : t.slots.get? p with
    | none => rfl
    | some n => rw [Option.filter_some, if_pos (valid_of_no_tombstones h hn)]
  rw [tombstones] at h
  simp only [CommittedTree.purge, hslots, h]
  rfl

/-- The tombstones that are below no other. -/
def topTombstones (t : CommittedTree) : SortedMap Path Node :=
  t.tombstones.filter fun p _ => p.ancestors.all fun q => !t.tombstones.contains q

/-- **The count is of the tombstones that are below no other.** -/
theorem Grown.purge_count (h : t.Grown) : t.purge.2 = t.topTombstones.size := by
  have hsame : (t.tombstones.filter fun p _ => p.parent?.any t.isValidAt) = t.topTombstones := by
    refine SortedMap.ext_get? fun p => ?_
    rw [topTombstones, SortedMap.get?_filter, SortedMap.get?_filter]
    cases hp : t.tombstones.get? p with
    | none => rfl
    | some n =>
        have hiff := h.parent_valid_iff (SortedMap.contains_iff.2 ⟨n, hp⟩)
        have hall : (p.ancestors.all fun q => !t.tombstones.contains q) =
            p.parent?.any t.isValidAt := by
          rw [Bool.eq_iff_iff, hiff, List.all_eq_true]
          simp only [Path.mem_ancestors, Bool.not_eq_true', Bool.not_eq_true]
        simp only [Option.filter, hall]
  rw [← hsame]
  rfl

/-- All are counted exactly if none is below another. -/
theorem size_topTombstones (t : CommittedTree) : t.topTombstones.size = t.tombstones.size ↔
    ∀ p q, t.tombstones.contains p = true → t.tombstones.contains q = true →
      ¬p.isAbove q = true := by
  have hlength : t.topTombstones.size = t.tombstones.size ↔
      ∀ e ∈ t.tombstones.toList, (e.1.ancestors.all fun q => !t.tombstones.contains q) = true :=
    List.length_filter_eq_length_iff
  rw [hlength]
  constructor
  · intro hall p q hp hq habove
    obtain ⟨n, hn⟩ := SortedMap.contains_iff.1 hq
    have := List.all_eq_true.1 (hall (q, n) (SortedMap.get?_eq_some_iff.1 hn)) p
      (Path.mem_ancestors.2 habove)
    simp [hp] at this
  · rintro hnone ⟨q, n⟩ hn
    refine List.all_eq_true.2 fun p hp => ?_
    rw [Bool.not_eq_true', Bool.eq_false_iff]
    intro htomb
    exact hnone p q htomb (SortedMap.contains_iff.2 ⟨n, SortedMap.get?_eq_some_iff.2 hn⟩)
      (Path.mem_ancestors.1 hp)

/-- **Only the tombstones go.**  Versions are given out and taken note of, and nodes are written,
put in, removed and dropped under any versions.  If then the tombstones are dropped, every node that
is found stays as it is, with the names of its children and for whoever has a reference to it, and
so does the counter; no tombstone is left, no removal is remembered at any path, and dropping them
again changes and counts nothing.
The count is of the tombstones that are below no other, so it is that of all tombstones exactly if
none is below another. -/
theorem purge_forgets_tombstones (steps : List Stamping) :
    let t := CommittedTree.empty.stampAll steps
    (∀ p, t.purge.1.peek? p = t.peek? p) ∧
    (∀ p, t.purge.1.childNames p = t.childNames p) ∧
    (∀ r, t.isValid r = true →
      t.purge.1.node? r = t.node? r ∧ t.purge.1.childNamesOf r = t.childNamesOf r) ∧
    t.purge.1.version = t.version ∧
    t.purge.1.tombstones = SortedMap.empty ∧
    (∀ p, t.purge.1.tombstoneVersion p = none) ∧
    t.purge.1.purge = (t.purge.1, 0) ∧
    t.purge.2 = t.topTombstones.size ∧
    (t.purge.2 = t.tombstones.size ↔ ∀ p q, t.tombstones.contains p = true →
      t.tombstones.contains q = true → ¬p.isAbove q = true) := by
  intro t
  have h : t.Grown := grown_empty.stampAll steps
  refine ⟨fun _ => h.sound.peek?_purge, fun _ => childNames_purge, fun _ => h.node?_purge, rfl,
    tombstones_purge t, tombstoneVersion_of_none (tombstones_purge t),
    purge_of_none (tombstones_purge t), h.purge_count, ?_⟩
  rw [h.purge_count]
  exact size_topTombstones t

/-- `/a` and `/a/b` are made, and `/a` is removed with what is below it. -/
def burialSteps : List Stamping :=
  [.change (.createOrUpdate ⟨["a"]⟩ .empty 1), .change (.createOrUpdate ⟨["a", "b"]⟩ .empty 1),
    .change (.remove ⟨["a"]⟩ 2)]

/-- Of `/a` and `/a/b` only `/a` is counted, since `/a/b` is below it. -/
theorem buried_child_uncounted :
    (CommittedTree.empty.stampAll burialSteps).purge.2 ≠
      (CommittedTree.empty.stampAll burialSteps).tombstones.size := by
  obtain ⟨-, -, -, -, -, -, -, -, hall⟩ := purge_forgets_tombstones burialSteps
  intro hcount
  exact hall.1 hcount ⟨["a"]⟩ ⟨["a", "b"]⟩ (by decide +kernel) (by decide +kernel) (by decide)

/-- The count is not always that of all tombstones. -/
theorem not_purge_counts_tombstones :
    ¬∀ steps : List Stamping, (CommittedTree.empty.stampAll steps).purge.2 =
      (CommittedTree.empty.stampAll steps).tombstones.size := by
  intro h
  exact absurd (h burialSteps) (by decide +kernel)

end CommittedTree

end TransactionalTree
