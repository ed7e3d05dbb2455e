/-
**Tombstones remember removals.**

A node goes when it is removed, or when a node above it is removed or replaced.  It stays in the
tree as a tombstone, which is stamped with the version of the change.  Nodes above it may be made
anew, removed and replaced any number of times: the tombstone stays, and its stamp never goes back.
Only a new node at its own path takes its place.

Main definitions:

* `Change.version?`, `Change.takesAway` — under which version a change is made, and what goes with
  it;
* `CommittedTree.Remembers` — **a tombstone with a stamp that is not older than a version**.

Main results:

* `CommittedTree.restamped_change` — what a change makes of each node;
* `CommittedTree.Remembers.change`, `CommittedTree.Remembers.changeAll` — what is remembered stays
  so until there is a node again;
* `CommittedTree.removal_remembered` — **the newest removal on the way to a node that has gone is
  not older than the change with which it went**.
-/

import Mathlib.Data.List.Infix
import TransactionalTree.Proofs.Changes
import TransactionalTree.Proofs.Stamps

set_option relaxedAutoImplicit false
set_option autoImplicit false

namespace TransactionalTree

namespace Change

/-- The version under which the change is made. -/
def version? : Change → Option Version
  | createOrUpdate _ _ v => some v
  | install _ _ v => some v
  | update _ _ v => some v
  | remove _ v => some v
  | purge => none

/-- A node at `p` goes with this change: it is removed, or something above it is removed or
replaced. -/
def takesAway (ch : Change) (p : Path) : Bool :=
  match ch with
  | install q _ _ => q.isAbove p
  | remove q _ => p.isAtOrBelow q
  | _ => false

end Change

namespace CommittedTree

variable {t t' : CommittedTree} {p q : Path} {d : Data} {v w : Version} {n : Node} {ch : Change}
variable {changes : List Change}

/-! ### What a change makes of each node -/

/-- The tree after one change. -/
theorem changeAll_of_ok {r : CommittedTree × Reply NodeRef} (h : t.change ch = .ok r) :
    t.changeAll [ch] = r.1 := by
  simp only [changeAll, Change.attemptAll, List.foldl_cons, List.foldl_nil, Change.attempt, h]

/-- A change that fails changes nothing. -/
theorem changeAll_of_error {e : TreeError} (h : t.change ch = .error e) :
    t.changeAll [ch] = t := by
  simp only [changeAll, Change.attemptAll, List.foldl_cons, List.foldl_nil, Change.attempt, h]

/-- Where there is a node its data are written. -/
theorem changeAll_write_of_some (hn : t.peek? p = some n)
    (hch : ch = .createOrUpdate p d v ∨ ch = .update p d v) :
    t.changeAll [ch] = t.overwrite p n d v := by
  rcases hch with rfl | rfl
  · have hch : t.change (.createOrUpdate p d v) = .ok (t.overwrite p n d v, .node ⟨p, n.id⟩) := by
      simp only [change, createOrUpdate, hn]
      rfl
    exact changeAll_of_ok hch
  · have hch : t.change (.update p d v) = .ok (t.overwrite p n d v, .done) := by
      simp only [change, update, hn]
      rfl
    exact changeAll_of_ok hch

/-- Where there is none a new one is put in. -/
theorem changeAll_createOrUpdate_of_none (hn : t.peek? p = none) :
    t.changeAll [.createOrUpdate p d v] = t.changeAll [.install p d v] := by
  simp only [changeAll, Change.attemptAll, List.foldl_cons, List.foldl_nil, Change.attempt, change,
    createOrUpdate, hn]

/-- Nothing is written where there is no node. -/
theorem changeAll_update_of_none (hn : t.peek? p = none) : t.changeAll [.update p d v] = t :=
  changeAll_of_error (e := .nodeMissing p) (by simp [change, update, hn, Except.map])

/-- What an installation leaves. -/
theorem changeAll_install (t : CommittedTree) (p : Path) (d : Data) (v : Version) :
    t.changeAll [.install p d v] = t ∨
      ∃ t' r, t.install p d v = .ok (t', r) ∧ t.changeAll [.install p d v] = t' := by
  cases hi : t.install p d v with
  | error e => exact .inl (changeAll_of_error (e := e) (by simp [change, hi, Except.map]))
  | ok r =>
      have hch : t.change (.install p d v) = .ok (r.1, .node r.2) := by
        simp [change, hi, Except.map]
      exact .inr ⟨r.1, r.2, rfl, changeAll_of_ok hch⟩

/-- What a removal leaves. -/
theorem changeAll_remove (t : CommittedTree) (p : Path) (v : Version) :
    t.changeAll [.remove p v] = t ∨
      ∃ t' r, t.remove p v = .ok (t', r) ∧ t.changeAll [.remove p v] = t' := by
  cases hr : t.remove p v with
  | error e => exact .inl (changeAll_of_error (e := e) (by simp [change, hr, Except.map]))
  | ok r =>
      have hch : t.change (.remove p v) = .ok (r.1, .removed r.2) := by
        simp [change, hr, Except.map]
      exact .inr ⟨r.1, r.2, rfl, changeAll_of_ok hch⟩

theorem restamped_overwrite (h : t.Sound) (hn : t.peek? p = some n) (q : Path) :
    Restamped v (t.slots.get? q) ((t.overwrite p n d v).slots.get? q) := by
  have hu : t.update p d v = .ok (t.overwrite p n d v) := update_ok.2 ⟨n, hn, rfl⟩
  by_cases hq : q = p
  · rw [hq]
    exact restamped_update h hu
  · rw [get?_update_of_ne hu hq]
    exact .kept _

theorem restamped_of_bury (t : CommittedTree) (p q : Path) (v : Version) :
    Restamped v (t.slots.get? q) ((t.bury p v).slots.get? q) := by
  rcases t.restamped_bury p q v with hsame | ⟨n, hn, hburied⟩
  · rw [hsame]
    exact .kept _
  · rw [hn, hburied]
    exact .buried n

theorem restamped_install {r : NodeRef} (hi : t.install p d v = .ok (t', r)) (q : Path) :
    Restamped v (t.slots.get? q) (t'.slots.get? q) := by
  rw [get?_install hi]
  split
  · exact .stamped rfl rfl
  · split
    · exact t.restamped_of_bury p q v
    · exact .kept _

theorem restamped_remove {r : Option NodeRef} (hr : t.remove p v = .ok (t', r)) (q : Path) :
    Restamped v (t.slots.get? q) (t'.slots.get? q) := by
  rw [remove_eq] at hr
  split at hr
  · simp at hr
  · split at hr
    · obtain ⟨rfl, -⟩ := by simpa using hr
      exact .kept _
    · obtain ⟨rfl, -⟩ := by simpa using hr
      exact t.restamped_of_bury p q v

theorem restamped_changeAll_install (t : CommittedTree) (p q : Path) (d : Data) (v : Version) :
    Restamped v (t.slots.get? q) ((t.changeAll [.install p d v]).slots.get? q) := by
  rcases t.changeAll_install p d v with hsame | ⟨t', r, hi, hch⟩
  · rw [hsame]
    exact .kept _
  · rw [hch]
    exact restamped_install hi q

/-- **What a change makes of each node**: it leaves it alone, stamps it, or buries it. -/
theorem restamped_change (h : t.Sound) (hv : ch.version? = some v) (q : Path) :
    Restamped v (t.slots.get? q) ((t.changeAll [ch]).slots.get? q) := by
  cases ch with
  | createOrUpdate p d w =>
      obtain rfl := Option.some.inj hv
      cases hn : t.peek? p with
      | none =>
          rw [changeAll_createOrUpdate_of_none hn]
          exact t.restamped_changeAll_install p q d w
      | some n =>
          rw [changeAll_write_of_some hn (.inl rfl)]
          exact restamped_overwrite h hn q
  | install p d w =>
      obtain rfl := Option.some.inj hv
      exact t.restamped_changeAll_install p q d w
  | update p d w =>
      obtain rfl := Option.some.inj hv
      cases hn : t.peek? p with
      | none =>
          rw [changeAll_update_of_none hn]
          exact .kept _
      | some n =>
          rw [changeAll_write_of_some hn (.inr rfl)]
          exact restamped_overwrite h hn q
  | remove p w =>
      obtain rfl := Option.some.inj hv
      rcases t.changeAll_remove p w with hsame | ⟨t', r, hr, hch⟩
      · rw [hsame]
        exact .kept _
      · rw [hch]
        exact restamped_remove hr q
  | purge => simp [Change.version?] at hv

/-! ### What goes with a change -/

/-- Putting in a node takes away what is below its place. -/
theorem Sound.takesAway_install (h : t.Sound) (hbefore : t.exists? q = true)
    (hafter : (t.changeAll [.install p d v]).exists? q = false) : p.isAbove q = true := by
  rcases t.changeAll_install p d v with hsame | ⟨t', r, hi, hch⟩
  · rw [hsame, hbefore] at hafter
    simp at hafter
  · rw [hch, exists?, h.peek?_install hi] at hafter
    split at hafter
    · simp at hafter
    · split at hafter
      · assumption
      · rw [← exists?, hbefore] at hafter
        simp at hafter

/-- Writing data takes nothing away. -/
theorem Sound.exists?_overwrite (h : t.Sound) (hn : t.peek? p = some n)
    (hq : t.exists? q = true) : (t.overwrite p n d v).exists? q = true := by
  rw [exists?, h.peek?_overwrite hn]
  split
  · rfl
  · exact hq

/-- **A node goes only with a change that takes it away.** -/
theorem Sound.takesAway_of_gone (h : t.Sound) (hv : ch.version? = some v)
    (hbefore : t.exists? q = true) (hafter : (t.changeAll [ch]).exists? q = false) :
    ch.takesAway q = true := by
  cases ch with
  | createOrUpdate p d w =>
      cases hn : t.peek? p with
      | none =>
          rw [changeAll_createOrUpdate_of_none hn] at hafter
          -- above a node that is there every place has one
          have habove := h.takesAway_install hbefore hafter
          rw [exists?, h.peek?_none_of_isAbove habove hn] at hbefore
          simp at hbefore
      | some n =>
          rw [changeAll_write_of_some hn (.inl rfl), h.exists?_overwrite hn hbefore] at hafter
          simp at hafter
  | install p d w => exact h.takesAway_install hbefore hafter
  | update p d w =>
      cases hn : t.peek? p with
      | none =>
          rw [changeAll_update_of_none hn, hbefore] at hafter
          simp at hafter
      | some n =>
          rw [changeAll_write_of_some hn (.inr rfl), h.exists?_overwrite hn hbefore] at hafter
          simp at hafter
  | remove p w =>
      rcases t.changeAll_remove p w with hsame | ⟨t', r, hr, hch⟩
      · rw [hsame, hbefore] at hafter
        simp at hafter
      · rw [hch, exists?, h.peek?_remove hr] at hafter
        split at hafter
        · assumption
        · rw [← exists?, hbefore] at hafter
          simp at hafter
  | purge => simp [Change.version?] at hv

/-! ### What is remembered -/

/-- **There is a tombstone at `p` whose stamp is not older than `v`.** -/
def Remembers (t : CommittedTree) (p : Path) (v : Version) : Prop :=
  ∃ n, t.slots.get? p = some n ∧ n.valid = false ∧ v ≤ n.version

/-- A node that goes with a change is remembered under its version. -/
theorem Sound.remembers_of_gone (h : t.Sound) (hv : ch.version? = some v)
    (hbefore : t.exists? p = true) (hafter : (t.changeAll [ch]).exists? p = false) :
    (t.changeAll [ch]).Remembers p v := by
  obtain ⟨n, hn, hvalid⟩ := isValidAt_iff.1 (h.exists?_iff.1 hbefore)
  have hgone : ¬(t.changeAll [ch]).isValidAt p = true := by
    rw [← (h.changeAll [ch]).exists?_iff, hafter]
    exact Bool.false_ne_true
  have hchange := restamped_change h hv p
  rw [isValidAt_iff] at hgone
  rw [hn] at hchange
  generalize hnew : (t.changeAll [ch]).slots.get? p = new at hchange hgone
  cases hchange with
  | kept => exact absurd ⟨n, rfl, hvalid⟩ hgone
  | stamped hvalid' _ => exact absurd ⟨_, rfl, hvalid'⟩ hgone
  | buried => exact ⟨_, hnew, rfl, Std.right_le_max⟩

/-- **A change keeps what is remembered**, unless there is a node again. -/
theorem Remembers.change (h : t.Sound) (hm : t.Remembers p v) (hch : ch ≠ .purge)
    (hgone : (t.changeAll [ch]).exists? p = false) : (t.changeAll [ch]).Remembers p v := by
  obtain ⟨n, hn, hdead, hle⟩ := hm
  obtain ⟨w, hw⟩ : ∃ w, ch.version? = some w := by
    cases ch with
    | purge => exact absurd rfl hch
    | _ => exact ⟨_, rfl⟩
  have hchange := restamped_change h hw p
  rw [hn] at hchange
  generalize hnew : (t.changeAll [ch]).slots.get? p = new at hchange
  cases hchange with
  | kept => exact ⟨n, hnew, hdead, hle⟩
  | @stamped _ n' hvalid _ =>
      have hvalidAt := isValidAt_iff.2 ⟨n', hnew, hvalid⟩
      rw [← (h.changeAll [ch]).exists?_iff, hgone] at hvalidAt
      simp at hvalidAt
  | buried => exact ⟨_, hnew, rfl, UInt64.le_trans hle (Std.left_le_max)⟩

/-- **Changes keep what is remembered**, until there is a node again. -/
theorem Remembers.changeAll (h : t.Sound) (hm : t.Remembers p v) (hpurge : Change.purge ∉ changes)
    (hgone : ∀ k, (t.changeAll (changes.take k)).exists? p = false) :
    (t.changeAll changes).Remembers p v := by
  induction changes generalizing t with
  | nil => exact hm
  | cons ch changes ih =>
      rw [List.mem_cons, not_or] at hpurge
      refine ih (h.changeAll [ch]) (hm.change h (Ne.symm hpurge.1) (hgone 1)) hpurge.2 fun k => ?_
      exact hgone (k + 1)

/-- The newest of several stamps is not older than any of them. -/
theorem le_foldl_newest {ns : List Node} (newest : Option Version)
    (h : newest = some v ∨ ∃ n ∈ ns, n.version = v) :
    ∃ w, ns.foldl (fun newest n => some (newest.elim n.version (max n.version))) newest = some w ∧
      v ≤ w := by
  induction ns generalizing newest v with
  | nil => exact ⟨v, h.resolve_right (by simp), UInt64.le_refl v⟩
  | cons n ns ih =>
      have hn : ∀ m : Version, v ≤ m →
          ∃ w, ns.foldl (fun newest n => some (newest.elim n.version (max n.version))) (some m) =
            some w ∧ v ≤ w := by
        intro m hle
        obtain ⟨w, hw, hmw⟩ := ih (some m) (.inl rfl)
        exact ⟨w, hw, UInt64.le_trans hle hmw⟩
      rw [List.foldl_cons]
      rcases h with rfl | ⟨m, hm, rfl⟩
      · exact hn _ (Std.right_le_max)
      · rcases List.mem_cons.1 hm with rfl | hm
        · cases newest with
          | none => exact hn _ (UInt64.le_refl _)
          | some x => exact hn _ (Std.left_le_max)
        · exact ih _ (.inr ⟨m, hm, rfl⟩)

/-- What is remembered at a path is on the way to it. -/
theorem Remembers.tombstoneVersion (hm : t.Remembers p v) (hp : p ≠ Path.root) :
    ∃ w, t.tombstoneVersion p = some w ∧ v ≤ w := by
  obtain ⟨n, hn, hdead, hle⟩ := hm
  have hmem : n ∈ (p.steps.filterMap t.slots.get?).filter (!·.valid) := by
    refine List.mem_filter.2 ⟨List.mem_filterMap.2 ⟨p, ?_, hn⟩, by simp [hdead]⟩
    exact Path.mem_steps.2 ⟨Path.isAtOrBelow_self p, hp⟩
  obtain ⟨w, hw, hnw⟩ := le_foldl_newest none (.inr ⟨n, hmem, rfl⟩)
  exact ⟨w, hw, UInt64.le_trans hle hnw⟩

/-- **Tombstones remember removals.**  In a tree on which any changes were made, let a node go with
a change under the version `v`.  Then it was removed, or something above it was removed or replaced,
and from then on the newest removal on the way to its path is not older than `v`, whatever is
changed anywhere, as long as there is no node at the path again and no tombstones are dropped. -/
theorem removal_remembered (before after : List Change) (ch : Change) (p : Path) (v : Version)
    (hv : ch.version? = some v)
    (hbefore : (CommittedTree.empty.changeAll before).exists? p = true)
    (hgone : ∀ k, (CommittedTree.empty.changeAll (before ++ ch :: after.take k)).exists? p = false)
    (hpurge : Change.purge ∉ after) :
    ch.takesAway p = true ∧
      ∃ w, (CommittedTree.empty.changeAll (before ++ ch :: after)).tombstoneVersion p = some w ∧
        v ≤ w := by
  have hsound := sound_empty.changeAll before
  have hrun : ∀ changes, CommittedTree.empty.changeAll (before ++ ch :: changes) =
      ((CommittedTree.empty.changeAll before).changeAll [ch]).changeAll changes :=
    fun changes => changeAll_append _ before (ch :: changes)
  simp only [hrun] at hgone ⊢
  have hfirst : ((CommittedTree.empty.changeAll before).changeAll [ch]).exists? p = false := hgone 0
  have hroot : p ≠ Path.root := by
    rintro rfl
    rw [(hsound.changeAll [ch]).exists?_root] at hfirst
    simp at hfirst
  refine ⟨hsound.takesAway_of_gone hv hbefore hfirst, ?_⟩
  have hremembers := hsound.remembers_of_gone hv hbefore hfirst
  exact (hremembers.changeAll (hsound.changeAll [ch]) hpurge hgone).tombstoneVersion hroot

/-- `/a` and `/a/b` are made under the version 10. -/
def plantedChanges : List Change :=
  [.createOrUpdate ⟨["a"]⟩ .empty 10, .createOrUpdate ⟨["a", "b"]⟩ .empty 10]

/-- `/a` is removed, made again and replaced, all under older versions than 30. -/
def churningChanges : List Change :=
  [.remove ⟨["a"]⟩ 12, .createOrUpdate ⟨["a"]⟩ .empty 13, .install ⟨["a"]⟩ .empty 14,
    .remove ⟨["a"]⟩ 15, .createOrUpdate ⟨["a"]⟩ .empty 16]

/-- If `/a/b` is removed under the version 30 in between, that is remembered. -/
theorem churned_removal_remembered :
    ∃ w, (CommittedTree.empty.changeAll (plantedChanges ++
      .remove ⟨["a", "b"]⟩ 30 :: churningChanges)).tombstoneVersion ⟨["a", "b"]⟩ = some w ∧
        30 ≤ w := by
  have hgone : ∀ m ∈ churningChanges.inits, (CommittedTree.empty.changeAll (plantedChanges ++
      .remove ⟨["a", "b"]⟩ 30 :: m)).exists? ⟨["a", "b"]⟩ = false := by
    decide +kernel
  exact (removal_remembered plantedChanges churningChanges (.remove ⟨["a", "b"]⟩ 30) ⟨["a", "b"]⟩ 30
    rfl (by decide +kernel) (fun k => hgone _ ((List.mem_inits _ _).2 (List.take_prefix k _)))
    (by decide)).2

end CommittedTree

end TransactionalTree
