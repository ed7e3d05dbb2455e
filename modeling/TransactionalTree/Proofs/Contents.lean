/-
**The committed tree is a map.**

Below the surface the committed tree is full of nodes that were removed or replaced, and a node that
is made anew takes over what is left below its path.  None of that is to be seen: what is valid in
the tree is a map from paths to data and versions, in which the root is there and above each node
there is a node, and every change of the tree means a plain change of the map.

Main definitions:

* `NodeMap` — such a map;
* `NodeMap.change` — **what a change means**;
* `Presents` — all that can be seen of the tree is the map.

Main results:

* `NodeMap.install_of_contains` — the map after an installation;
* `agrees_change` — one change goes in the tree as it goes in the map;
* `presents_of_represents` — listings and counts follow from what is found;
* `tree_refines_node_map` — **whatever is changed, the tree answers as the map does and presents
  it**.
-/

import TransactionalTree.Proofs.Handles

set_option relaxedAutoImplicit false
set_option autoImplicit false

namespace TransactionalTree

/-- A map from paths to data and versions, in which the root is there, and above each node there is
a node. -/
structure NodeMap where
  /-- The data and the version of the last write, by path. -/
  entries : SortedMap Path (Data × Version)
  /-- The root is there. -/
  root : entries.contains Path.root = true
  /-- Above a node there is a node. -/
  closed : ∀ p name, entries.contains (p.push name) = true → entries.contains p = true

namespace NodeMap

variable {m : NodeMap} {p q : Path} {c : Data × Version}

/-- The data and the version of the node at a path. -/
def get? (m : NodeMap) (p : Path) : Option (Data × Version) := m.entries.get? p

/-- Whether there is a node at a path. -/
def contains (m : NodeMap) (p : Path) : Bool := m.entries.contains p

/-- The number of nodes. -/
def size (m : NodeMap) : Nat := m.entries.size

theorem contains_eq : m.contains p = (m.get? p).isSome := rfl

/-! ### Setting and dropping -/

/-- The map with only a root, which was never written. -/
def empty : NodeMap where
  entries := SortedMap.empty.insert Path.root (.empty, Version.initial)
  root := by rw [SortedMap.contains, SortedMap.get?_insert_self]; rfl
  closed p name h := by
    rw [SortedMap.contains, SortedMap.get?_insert_of_ne Path.push_ne_root] at h
    simp at h

/-- The map with something else at `p`, above which there has to be a node. -/
def put (m : NodeMap) (p : Path) (c : Data × Version)
    (h : ∀ q, p.parent? = some q → m.contains q = true) : NodeMap where
  entries := m.entries.insert p c
  root := SortedMap.contains_insert.2 (.inr m.root)
  closed q name hq := by
    rcases SortedMap.contains_insert.1 hq with hp | hq
    · refine SortedMap.contains_insert.2 (.inr (h q ?_))
      rw [← hp, Path.parent?_push]
    · exact SortedMap.contains_insert.2 (.inr (m.closed q name hq))

/-- The map without `p`, which is not the root, and without all below it. -/
def without (m : NodeMap) (p : Path) (h : p ≠ Path.root) : NodeMap where
  entries := m.entries.filter fun q _ => !q.isAtOrBelow p
  root := by
    refine SortedMap.contains_filter_keys.2 ⟨?_, m.root⟩
    rw [Bool.not_eq_true', Bool.eq_false_iff, ne_eq, Path.isAtOrBelow_iff, not_or]
    exact ⟨Ne.symm h, Path.isAbove_root⟩
  closed q name hq := by
    obtain ⟨hout, hq⟩ := SortedMap.contains_filter_keys.1 hq
    refine SortedMap.contains_filter_keys.2 ⟨?_, m.closed q name hq⟩
    rw [Bool.not_eq_true', Bool.eq_false_iff] at hout ⊢
    exact fun hqp => hout (Path.push_isAtOrBelow.2 (.inr hqp))

theorem get?_put {h : ∀ q, p.parent? = some q → m.contains q = true} :
    (m.put p c h).get? q = if q = p then some c else m.get? q := SortedMap.get?_insert

theorem get?_without {h : p ≠ Path.root} :
    (m.without p h).get? q = if q.isAtOrBelow p then none else m.get? q := by
  refine SortedMap.get?_filter.trans ?_
  cases q.isAtOrBelow p <;> cases hq : m.entries.get? q <;> simp [get?, hq, Option.filter]

/-- Above a node there is a node. -/
theorem contains_parent (h : m.contains p = true) (hq : p.parent? = some q) :
    m.contains q = true := by
  obtain ⟨name, rfl⟩ := Path.parent?_eq_some.1 hq
  exact m.closed q name h

/-- A path with one above it is still below a node when it is dropped. -/
theorem contains_without_parent (hp : p.parent? = some q) {h : p ≠ Path.root}
    (hq : m.contains q = true) : (m.without p h).contains q = true := by
  obtain ⟨name, rfl⟩ := Path.parent?_eq_some.1 hp
  rw [contains_eq, get?_without, if_neg]
  · exact hq
  · intro hcon
    have habove := Path.isAbove_of_isAtOrBelow hcon (Path.isAbove_push_self q name)
    exact Path.not_isAbove_self _ habove

theorem ne_root_of_parent? (hp : p.parent? = some q) : p ≠ Path.root := by
  rintro rfl
  simp at hp

/-! ### What changes mean -/

/-- A new node, below a node, takes the place of what is there and of all below it. -/
def install (m : NodeMap) (p : Path) (c : Data × Version) :
    Except TreeError (NodeMap × Reply Path) :=
  match hp : p.parent? with
  | none => .error (.refused .createRoot)
  | some q =>
      if hq : m.contains q = true then
        let cleared := m.without p (ne_root_of_parent? hp)
        have hfits : ∀ q', p.parent? = some q' → cleared.contains q' = true := fun q' hq' =>
          contains_without_parent hq' (by rwa [← Option.some.inj (hp.symm.trans hq')])
        .ok (cleared.put p c hfits, .node p)
      else .error (.nodeMissing q)

/-- What is there is replaced. -/
def update (m : NodeMap) (p : Path) (c : Data × Version) :
    Except TreeError (NodeMap × Reply Path) :=
  if hp : m.contains p = true then .ok (m.put p c fun _ => contains_parent hp, .done)
  else .error (.nodeMissing p)

/-- What is there is replaced, or something is put where there is nothing. -/
def createOrUpdate (m : NodeMap) (p : Path) (c : Data × Version) :
    Except TreeError (NodeMap × Reply Path) :=
  if hp : m.contains p = true then .ok (m.put p c fun _ => contains_parent hp, .node p)
  else m.install p c

/-- A node goes, with all below it. -/
def remove (m : NodeMap) (p : Path) : Except TreeError (NodeMap × Reply Path) :=
  if hp : p = Path.root then .error (.refused .removeRoot)
  else if m.contains p then .ok (m.without p hp, .removed (some p))
  else .ok (m, .removed none)

/-- **What a change means.**  A map has no tombstones to be dropped. -/
def change (m : NodeMap) : Change → Except TreeError (NodeMap × Reply Path)
  | .createOrUpdate p d v => m.createOrUpdate p (d, v)
  | .install p d v => m.install p (d, v)
  | .update p d v => m.update p (d, v)
  | .remove p _ => m.remove p
  | .purge => .ok (m, .done)

/-- The map after the listed changes. -/
def changeAll (m : NodeMap) (changes : List Change) : NodeMap := Change.attemptAll change m changes

theorem install_root (hp : p.parent? = none) : m.install p c = .error (.refused .createRoot) := by
  unfold install
  split
  · rfl
  · rename_i hq
    rw [hp] at hq
    simp at hq

theorem install_of_not_contains (hp : p.parent? = some q) (hq : m.contains q = false) :
    m.install p c = .error (.nodeMissing q) := by
  unfold install
  split
  · rename_i hnone
    rw [hp] at hnone
    simp at hnone
  · rename_i q' hq'
    obtain rfl := Option.some.inj (hp.symm.trans hq')
    rw [dif_neg (by simp [hq])]

/-- The map after an installation has the new node, and nothing below it. -/
theorem install_of_contains (hp : p.parent? = some q) (hq : m.contains q = true) :
    ∃ m', m.install p c = .ok (m', .node p) ∧
      ∀ r, m'.get? r = if r = p then some c else if p.isAbove r then none else m.get? r := by
  unfold install
  split
  · rename_i hnone
    rw [hp] at hnone
    simp at hnone
  · rename_i q' hq'
    obtain rfl := Option.some.inj (hp.symm.trans hq')
    rw [dif_pos hq]
    refine ⟨_, rfl, fun r => ?_⟩
    rw [get?_put, get?_without]
    by_cases hr : r = p
    · rw [if_pos hr, if_pos hr]
    · rw [if_neg hr, if_neg hr, Path.isAtOrBelow_of_ne hr]

end NodeMap

/-! ### The valid part of the tree -/

/-- What is found in the tree is what is in the map. -/
def Represents (t : CommittedTree) (m : NodeMap) : Prop :=
  ∀ p, (t.peek? p).map (fun n => (n.data, n.version)) = m.get? p

/-- A change of the tree and of the map fail alike, or are answered alike and keep the two the same.
-/
inductive Agrees : Except TreeError (CommittedTree × Reply NodeRef) →
    Except TreeError (NodeMap × Reply Path) → Prop
  /-- The changes fail alike. -/
  | error (e : TreeError) : Agrees (.error e) (.error e)
  /-- The changes are answered alike, up to which node it is. -/
  | ok {t : CommittedTree} {m : NodeMap} (reply : Reply NodeRef) (h : Represents t m) :
      Agrees (.ok (t, reply)) (.ok (m, reply.map (·.path)))

section Changes

variable {t t' : CommittedTree} {m : NodeMap} {p : Path} {d : Data} {v : Version}

theorem Represents.contains_eq (h : Represents t m) (p : Path) :
    m.contains p = t.exists? p := by
  rw [NodeMap.contains_eq, ← h p, Option.isSome_map, CommittedTree.exists?]

/-- The tree after data were written is the map with the data. -/
theorem Represents.overwrite (h : Represents t m) (hs : t.Sound) {n : Node}
    (hn : t.peek? p = some n) {hp : ∀ q, p.parent? = some q → m.contains q = true} :
    Represents (t.overwrite p n d v) (m.put p (d, v) hp) := by
  intro q
  rw [hs.peek?_overwrite hn, NodeMap.get?_put, ← h q]
  split <;> rfl

theorem agrees_install (hs : t.Sound) (h : Represents t m) :
    Agrees ((t.install p d v).map fun r => (r.1, .node r.2)) (m.install p (d, v)) := by
  cases hp : p.parent? with
  | none =>
      rw [NodeMap.install_root hp]
      simp only [CommittedTree.install, hp]
      exact .error _
  | some q =>
      by_cases hq : m.contains q = true
      · obtain ⟨m', hm', hget⟩ := NodeMap.install_of_contains (c := (d, v)) hp hq
        obtain ⟨name, hname⟩ := Path.parent?_eq_some.1 hp
        obtain ⟨t', r, hi⟩ := (CommittedTree.install_isOk (d := d) (v := v)).2
          ⟨q, name, hname, by rw [← h.contains_eq]; exact hq⟩
        obtain ⟨-, -, -, -, rfl, -⟩ := CommittedTree.install_ok hi
        rw [hi, hm']
        refine .ok (.node _) fun r => ?_
        rw [hget, hs.peek?_install hi, ← h r]
        split
        · rfl
        · split <;> rfl
      · have hq : m.contains q = false := by simpa using hq
        rw [NodeMap.install_of_not_contains hp hq]
        simp only [CommittedTree.install, hp, ← h.contains_eq, hq, Bool.false_eq_true, if_false]
        exact .error _

theorem agrees_createOrUpdate (hs : t.Sound) (h : Represents t m) :
    Agrees ((t.createOrUpdate p d v).map fun r => (r.1, .node r.2))
      (m.createOrUpdate p (d, v)) := by
  have hex := h.contains_eq p
  simp only [CommittedTree.createOrUpdate, NodeMap.createOrUpdate]
  cases hn : t.peek? p with
  | none =>
      rw [dif_neg (by simp [hex, CommittedTree.exists?, hn])]
      exact agrees_install hs h
  | some n =>
      rw [dif_pos (by simp [hex, CommittedTree.exists?, hn])]
      exact .ok (.node _) (h.overwrite hs hn)

theorem agrees_update (hs : t.Sound) (h : Represents t m) :
    Agrees ((t.update p d v).map fun t' => (t', .done)) (m.update p (d, v)) := by
  have hex := h.contains_eq p
  simp only [CommittedTree.update, NodeMap.update]
  cases hn : t.peek? p with
  | none =>
      rw [dif_neg (by simp [hex, CommittedTree.exists?, hn])]
      exact .error _
  | some n =>
      rw [dif_pos (by simp [hex, CommittedTree.exists?, hn])]
      exact .ok .done (h.overwrite hs hn)

theorem agrees_remove (hs : t.Sound) (h : Represents t m) :
    Agrees ((t.remove p v).map fun r => (r.1, .removed r.2)) (m.remove p) := by
  have hex := h.contains_eq p
  rw [CommittedTree.remove_eq, NodeMap.remove]
  by_cases hp : p = Path.root
  · rw [if_pos hp, dif_pos hp]
    exact .error _
  · rw [if_neg hp, dif_neg hp]
    cases hn : t.peek? p with
    | none =>
        rw [if_neg (by simp [hex, CommittedTree.exists?, hn])]
        exact .ok (.removed none) h
    | some n =>
        rw [if_pos (by simp [hex, CommittedTree.exists?, hn])]
        refine .ok (.removed (some ⟨p, n.id⟩)) fun q => ?_
        rw [CommittedTree.peek?_observe, hs.peek?_bury hp, NodeMap.get?_without, ← h q]
        split <;> rfl

/-- **One change goes in the tree as it goes in the map.** -/
theorem agrees_change (hs : t.Sound) (h : Represents t m) (ch : Change) :
    Agrees (t.change ch) (m.change ch) := by
  cases ch with
  | createOrUpdate p d v => exact agrees_createOrUpdate hs h
  | install p d v => exact agrees_install hs h
  | update p d v => exact agrees_update hs h
  | remove p v => exact agrees_remove hs h
  | purge =>
      refine .ok .done fun p => ?_
      rw [hs.peek?_purge]
      exact h p

/-- Tried, a change is answered in the tree as it is in the map, and keeps the two the same. -/
theorem represents_attempt (hs : t.Sound) (h : Represents t m) (ch : Change) :
    Represents (Change.attempt CommittedTree.change t ch).1
      (Change.attempt NodeMap.change m ch).1 ∧
    (Change.attempt CommittedTree.change t ch).2.map (Reply.map (·.path)) =
      (Change.attempt NodeMap.change m ch).2 := by
  have hagrees := agrees_change hs h ch
  simp only [Change.attempt]
  generalize t.change ch = x, m.change ch = y at hagrees
  cases hagrees with
  | error e => exact ⟨h, rfl⟩
  | ok reply h' => exact ⟨h', rfl⟩

theorem represents_empty : Represents .empty .empty := by
  intro p
  rw [CommittedTree.sound_empty.peek?_eq]
  by_cases hp : p = Path.root
  · subst hp
    rfl
  · have ht : CommittedTree.empty.slots.get? p = none := SortedMap.get?_insert_of_ne hp
    have hm : NodeMap.empty.get? p = none := SortedMap.get?_insert_of_ne hp
    rw [ht, hm]
    rfl

end Changes

/-! ### All that can be seen -/

/-- **All that can be seen of the tree is the map.** -/
structure Presents (t : CommittedTree) (m : NodeMap) : Prop where
  /-- What is found at a path has the data and the version that are in the map. -/
  content : ∀ p, (t.peek? p).map (fun n => (n.data, n.version)) = m.get? p
  /-- What is found for a path is a node that was put at that path, if it is in the map. -/
  found : ∀ p, (t.peekRef? p).map (·.path) = if m.contains p then some p else none
  /-- What is found for a path lists the names of those that are directly below it in the map. -/
  childNames : ∀ p r, t.peekRef? p = some r → ∃ names, t.childNamesOf r = .ok names ∧
    ∀ name, names.has name = true ↔ m.contains (p.push name) = true
  /-- All that is below a path in the map is listed, and nothing else. -/
  mem_descendants : ∀ p q, q ∈ t.descendants p ↔ m.contains q = true ∧ p.isAbove q = true
  /-- Nothing is listed twice. -/
  nodup_descendants : ∀ p, (t.descendants p).Nodup
  /-- Nothing is listed after what is below it. -/
  ordered_descendants : ∀ p, (t.descendants p).Pairwise fun q r => ¬r.isAbove q = true
  /-- There are as many nodes as the map has entries. -/
  size : t.size = m.size

section Listings

variable {t : CommittedTree} {m : NodeMap} {p q : Path}

theorem CommittedTree.Sound.mem_descendants (h : t.Sound) :
    q ∈ t.descendants p ↔ t.exists? q = true ∧ p.isAbove q = true := by
  have hkeys : q ∈ (t.slots.filter fun q n => q.isBelow p && n.valid).keys ↔
      t.exists? q = true ∧ p.isAbove q = true := by
    rw [SortedMap.mem_keys, h.exists?_iff, CommittedTree.isValidAt_iff]
    simp only [SortedMap.get?_filter, Option.filter_eq_some_iff, Bool.and_eq_true, Path.isBelow]
    constructor
    · rintro ⟨n, hn, hb, hv⟩
      exact ⟨⟨n, hn, hv⟩, hb⟩
    · rintro ⟨⟨n, hn, hv⟩, hb⟩
      exact ⟨n, hn, hb, hv⟩
  rw [CommittedTree.descendants]
  split
  · exact hkeys
  -- nothing is valid below a path where nothing is
  · rename_i hp
    constructor
    · intro hmem
      exact absurd hmem List.not_mem_nil
    · rintro ⟨hq, hpq⟩
      rw [h.exists?_iff] at hp hq
      exact absurd (h.valid_of_isAbove hpq hq) hp

theorem CommittedTree.descendants_pairwise (t : CommittedTree) (p : Path) :
    (t.descendants p).Pairwise fun q r => compare q r = .lt := by
  rw [descendants]
  split
  · exact SortedMap.keys_pairwise _
  · exact .nil

/-- The nodes of the map are the root and what is below it. -/
theorem perm_keys (h : t.Sound) (hr : Represents t m)
    (hnodup : (t.descendants Path.root).Nodup) :
    (Path.root :: t.descendants Path.root).Perm m.entries.keys := by
  have hroot : Path.root ∉ t.descendants Path.root := by
    rw [h.mem_descendants]
    exact fun hcon => Path.isAbove_root hcon.2
  refine (List.perm_ext_iff_of_nodup (List.nodup_cons.2 ⟨hroot, hnodup⟩)
    (SortedMap.keys_nodup _)).2 fun q => ?_
  have hkeys : q ∈ m.entries.keys ↔ t.exists? q = true := by
    rw [SortedMap.mem_keys, ← SortedMap.contains_iff, ← hr.contains_eq]
    rfl
  rw [hkeys, List.mem_cons, h.mem_descendants, Path.root_isAbove]
  constructor
  · rintro (rfl | hq)
    · exact h.exists?_root
    · exact hq.1
  · intro hq
    by_cases heq : q = Path.root
    · exact .inl heq
    · exact .inr ⟨hq, heq⟩

/-- **Listings and counts follow from what is found.** -/
theorem presents_of_represents (h : t.Tracked) (hr : Represents t m) : Presents t m := by
  have hnodup : ∀ p, (t.descendants p).Nodup := by
    intro p
    refine (t.descendants_pairwise p).imp fun hlt => ?_
    rintro rfl
    simp at hlt
  refine ⟨hr, fun p => ?_, fun p r hp => ?_, fun p q => ?_, hnodup, fun p => ?_, ?_⟩
  · rw [hr.contains_eq, CommittedTree.exists?, CommittedTree.peekRef?]
    cases t.peek? p <;> rfl
  · obtain ⟨n, -, rfl⟩ := CommittedTree.peekRef?_eq_some.1 hp
    refine ⟨_, h.childNamesOf_eq (h.isValid_iff.2 hp), fun name => ?_⟩
    rw [CommittedTree.mem_childNames, hr.contains_eq, h.sound.exists?_iff]
  · rw [h.sound.mem_descendants, hr.contains_eq]
  · exact (t.descendants_pairwise p).imp fun hlt => Path.isAbove_asymm_of_lt hlt
  · have hlen := (perm_keys h.sound hr (hnodup _)).length_eq
    rw [List.length_cons, SortedMap.keys, List.length_map] at hlen
    rw [CommittedTree.size, NodeMap.size, SortedMap.size, ← hlen, Nat.add_comm]

end Listings

/-- **Whatever is changed, in whatever order, the tree answers as the map does and presents it.**
A change fails in the tree exactly if it fails in the map, with the same failure, and then leaves
both as they are; else both answer alike.  And after the changes everything that can be seen of the
tree is the map. -/
theorem tree_refines_node_map (changes : List Change) :
    (Change.replies CommittedTree.change .empty changes).map
        (Except.map (Reply.map (·.path))) =
      Change.replies NodeMap.change .empty changes ∧
    Presents (CommittedTree.empty.changeAll changes) (NodeMap.empty.changeAll changes) := by
  have hstep : ∀ (t : CommittedTree) (m : NodeMap) (ch : Change), t.Sound ∧ Represents t m →
      ((Change.attempt CommittedTree.change t ch).1.Sound ∧
        Represents (Change.attempt CommittedTree.change t ch).1
          (Change.attempt NodeMap.change m ch).1) ∧
      (Change.attempt CommittedTree.change t ch).2.map (Reply.map (·.path)) =
        (Change.attempt NodeMap.change m ch).2 := by
    intro t m ch ⟨hs, hr⟩
    obtain ⟨hnext, hreply⟩ := represents_attempt hs hr ch
    exact ⟨⟨hs.changing (t.changing ch), hnext⟩, hreply⟩
  obtain ⟨⟨-, hr⟩, hreplies⟩ :=
    Change.simulates hstep ⟨CommittedTree.sound_empty, represents_empty⟩ changes
  exact ⟨hreplies, presents_of_represents (CommittedTree.tracked_empty.changeAll changes) hr⟩

end TransactionalTree
