/-
**The stamps that commits leave.**

A commit stamps everything that it writes with one version: the one that its options name, or the
next one of the counter.  A node that it removes keeps its own stamp where that is newer.  As long
as the counter is not at the last version it does not fall behind a stamp, so the next version is
newer than all stamps there are; a version that the options name need not be newer than anything,
and nothing compares it with the stamp of a node that is still there.

Main definitions:

* `CommittedTree.Stamped` — no stamp is newer than the counter;
* `CommittedTree.Spent` — the counter is at the last version;
* `Restamped` — **what a commit makes of the node at one path**;
* `SharedTree.Exhausts` — the counter is at the last version at some time of a run.

Main results:

* `restamped_mergeAll` — there is nothing else that a merge, whole or partial, does to a node;
* `SharedTree.stamped_runShared` — the counter is not behind, unless it was at the last version;
* `SharedTree.stamp_goes_back_iff` — **a stamp goes back exactly if the node is written under an
  older version**, which the options of the commit name unless the counter has started again;
* `SharedTree.not_stamps_only_advance` — so it may.
-/

import TransactionalTree.Proofs.Accounts

set_option relaxedAutoImplicit false
set_option autoImplicit false

namespace TransactionalTree

variable {t t' : CommittedTree} {v : Version} {o : Origin} {p q : Path} {e : Entry}
variable {es : List (Path × Entry)} {events : List Event}

/-! ### The counter -/

namespace CommittedTree

variable {d : Data} {n : Node}

/-- **No stamp is newer than the counter.** -/
def Stamped (t : CommittedTree) : Prop :=
  ∀ p n, t.slots.get? p = some n → n.version ≤ t.version

theorem stamped_empty : CommittedTree.empty.Stamped := by
  intro p n hn
  simp only [empty, SortedMap.get?_insert, SortedMap.get?_empty] at hn
  split at hn
  · rw [← Option.some.inj hn]
    exact UInt64.le_refl _
  · simp at hn

/-- A newer counter is no harm. -/
theorem Stamped.of_slots (h : t.Stamped) (hs : t'.slots = t.slots) (hv : t.version ≤ t'.version) :
    t'.Stamped := by
  intro p n hn
  rw [hs] at hn
  exact UInt64.le_trans (h p n hn) hv

/-- **The counter is at the last version**; the next one that it gives out is zero. -/
def Spent (t : CommittedTree) : Prop := t.version = Version.last

instance : Decidable t.Spent := inferInstanceAs (Decidable (t.version = Version.last))

/-- A version that is given out before the last one sets the counter forward. -/
theorem lt_allocate (hlast : ¬t.Spent) : t.version < t.allocate.1 := Version.lt_next hlast

theorem Stamped.allocate (h : t.Stamped) (hlast : ¬t.Spent) : t.allocate.2.Stamped :=
  h.of_slots rfl (UInt64.le_of_lt (lt_allocate hlast))

/-- The next version is newer than all stamps. -/
theorem Stamped.lt_next (h : t.Stamped) (hlast : ¬t.Spent) (hn : t.slots.get? p = some n) :
    n.version < t.version.next :=
  UInt64.lt_of_le_of_lt (h p n hn) (lt_allocate hlast)

/-- What is buried is stamped with a version that is taken note of, or keeps its own. -/
theorem Stamped.observe_bury (h : t.Stamped) (p : Path) (v : Version) :
    ((t.bury p v).observe v).Stamped := by
  intro q n hn
  have hn : (t.bury p v).slots.get? q = some n := hn
  rw [get?_bury] at hn
  show n.version ≤ max t.version v
  split at hn
  · obtain ⟨m, hm, rfl⟩ := Option.map_eq_some_iff.1 hn
    exact Std.max_le_iff.2 ⟨UInt64.le_trans (h q m hm) Std.left_le_max, Std.right_le_max⟩
  · exact UInt64.le_trans (h q n hn) Std.left_le_max

/-- A node that is put in or written is stamped with a version that was taken note of. -/
theorem Stamped.insert {m : Node} (h : t.Stamped) (hm : m.version ≤ t.version)
    (hs : t'.slots = t.slots.insert p m) (hv : t'.version = t.version) : t'.Stamped := by
  intro q n hn
  rw [hs, SortedMap.get?_insert] at hn
  rw [hv]
  split at hn
  · rw [← Option.some.inj hn]
    exact hm
  · exact h q n hn

theorem place_version : (t.place p d v).version = t.version := by
  simp only [place]
  split <;> rfl

/-- A removal leaves the counter, or lets it take note of its version. -/
theorem version_remove {r : Option NodeRef} (hr : t.remove p v = .ok (t', r)) :
    t'.version = t.version ∨ t'.version = max t.version v := by
  rw [remove_eq] at hr
  split at hr
  · simp at hr
  · split at hr
    · obtain ⟨rfl, -⟩ := by simpa using hr
      exact .inl rfl
    · obtain ⟨rfl, -⟩ := by simpa using hr
      exact .inr rfl

/-- The counter takes note of the version of a node that is put in. -/
theorem version_install {r : NodeRef} (hi : t.install p d v = .ok (t', r)) :
    t'.version = max t.version v := by
  obtain ⟨-, -, -, -, -, rfl⟩ := install_ok hi
  rw [place_version]
  split <;> rfl

/-- The counter takes note of the version of a node that is written. -/
theorem version_update (hu : t.update p d v = .ok t') : t'.version = max t.version v := by
  obtain ⟨n, -, rfl⟩ := update_ok.1 hu
  rfl

theorem Stamped.remove {r : Option NodeRef} (h : t.Stamped) (hr : t.remove p v = .ok (t', r)) :
    t'.Stamped := by
  rw [remove_eq] at hr
  split at hr
  · simp at hr
  · split at hr
    · obtain ⟨rfl, -⟩ := by simpa using hr
      exact h
    · obtain ⟨rfl, -⟩ := by simpa using hr
      exact h.observe_bury p v

theorem Stamped.install {r : NodeRef} (h : t.Stamped) (hi : t.install p d v = .ok (t', r)) :
    t'.Stamped := by
  obtain ⟨-, -, -, -, -, rfl⟩ := install_ok hi
  refine Stamped.insert (m := ⟨_, true, v, d⟩) ?_ (Std.right_le_max) place_slots place_version
  split
  · exact h.observe_bury p v
  · exact h.of_slots rfl (Std.left_le_max)

theorem Stamped.update (h : t.Stamped) (hu : t.update p d v = .ok t') : t'.Stamped := by
  obtain ⟨n, -, rfl⟩ := update_ok.1 hu
  exact Stamped.insert (t := t.observe v) (m := { n with data := d, version := v })
    (h.of_slots rfl (Std.left_le_max)) (Std.right_le_max) rfl rfl

theorem Stamped.purge (h : t.Stamped) : t.purge.1.Stamped := by
  intro p n hn
  rw [get?_purge, Option.filter_eq_some_iff] at hn
  exact h p n hn.1

end CommittedTree

/-- Merging an entry keeps the counter ahead. -/
theorem stamped_entryMerge (h : t.Stamped) (hm : EntryMerge t v p e t') : t'.Stamped := by
  cases hm with
  | removal _ _ hrem => exact h.remove hrem
  | unseen _ _ => exact h
  | installation _ _ _ hi => exact h.install hi
  | joining _ _ _ _ _ hu => exact h.update hu
  | keeping _ _ _ _ _ => exact h
  | update _ _ _ hu => exact h.update hu
  | nothing _ _ _ => exact h

/-- Merging an entry leaves the counter, or lets it take note of the version. -/
theorem version_entryMerge (hm : EntryMerge t v p e t') :
    t'.version = t.version ∨ t'.version = max t.version v := by
  cases hm with
  | removal _ _ hrem => exact CommittedTree.version_remove hrem
  | unseen _ _ => exact .inl rfl
  | installation _ _ _ hi => exact .inr (CommittedTree.version_install hi)
  | joining _ _ _ _ _ hu => exact .inr (CommittedTree.version_update hu)
  | keeping _ _ _ _ _ => exact .inl rfl
  | update _ _ _ hu => exact .inr (CommittedTree.version_update hu)
  | nothing _ _ _ => exact .inl rfl

/-- **A merge, whole or partial, leaves the counter, or lets it take note of the version.** -/
theorem version_mergeAll : (mergeAll t v o es).tree.version = t.version ∨
    (mergeAll t v o es).tree.version = max t.version v := by
  induction es generalizing t with
  | nil => exact .inl rfl
  | cons a es ih =>
      rcases mergeAll_cons t v o a es with ⟨t₁, events, hm, htree, -⟩ | ⟨-, htree, -⟩
      · rw [htree]
        rcases version_entryMerge (entryMerge_of_ok hm) with hfirst | hfirst
        · rw [← hfirst]
          exact ih
        · refine .inr ((ih (t := t₁)).elim (·.trans hfirst) fun hrest => ?_)
          rw [hrest, hfirst, Version.max_max]
      · rw [htree]
        exact .inl rfl

theorem stamped_mergeAll (h : t.Stamped) : (mergeAll t v o es).tree.Stamped := by
  induction es generalizing t with
  | nil => exact h
  | cons a es ih =>
      rcases mergeAll_cons t v o a es with ⟨t₁, events, hm, htree, -⟩ | ⟨-, htree, -⟩
      · rw [htree]
        exact ih (stamped_entryMerge h (entryMerge_of_ok hm))
      · rw [htree]
        exact h

/-! ### What becomes of one node -/

/-- **What a commit under the version `v` makes of the node at a path**, tombstones included. -/
inductive Restamped (v : Version) : Option Node → Option Node → Prop
  /-- It leaves it alone. -/
  | kept (n : Option Node) : Restamped v n n
  /-- It writes the node, or puts a new one in its place. -/
  | stamped {n : Option Node} {n' : Node} (hvalid : n'.valid = true) (hv : n'.version = v) :
      Restamped v n (some n')
  /-- It turns the node into a tombstone, or stamps the tombstone anew. -/
  | buried (n : Node) :
      Restamped v (some n) (some { n with valid := false, version := max n.version v })

/-- A node may be buried several times over. -/
theorem Restamped.bury_first {n : Node} {m : Option Node}
    (h : Restamped v (some { n with valid := false, version := max n.version v }) m) :
    Restamped v (some n) m := by
  cases h with
  | kept => exact .buried n
  | stamped hvalid hv => exact .stamped hvalid hv
  | buried =>
      rw [Version.max_max]
      exact .buried n

namespace CommittedTree

variable {d : Data}

/-- A burial leaves a node alone or buries it. -/
theorem restamped_bury (t : CommittedTree) (p q : Path) (v : Version) :
    (t.bury p v).slots.get? q = t.slots.get? q ∨
      ∃ n, t.slots.get? q = some n ∧
        (t.bury p v).slots.get? q = some { n with valid := false, version := max n.version v } := by
  rw [get?_bury]
  split
  · cases hq : t.slots.get? q with
    | none => exact .inl rfl
    | some n => exact .inr ⟨n, rfl, rfl⟩
  · exact .inl rfl

/-- A node that is written is still valid and has the new stamp. -/
theorem restamped_update (h : t.Sound) (hu : t.update p d v = .ok t') :
    Restamped v (t.slots.get? p) (t'.slots.get? p) := by
  obtain ⟨n, hn, rfl⟩ := update_ok.1 hu
  rw [get?_overwrite, if_pos rfl]
  exact .stamped (h.peek?_eq_some.1 hn).2 rfl

theorem get?_update_of_ne (hu : t.update p d v = .ok t') (hq : q ≠ p) :
    t'.slots.get? q = t.slots.get? q := by
  obtain ⟨n, -, rfl⟩ := update_ok.1 hu
  rw [get?_overwrite, if_neg hq]

end CommittedTree

/-- **What merging an entry makes of the node at its path.** -/
theorem restamped_entryMerge (h : t.Sound) (hm : EntryMerge t v p e t') :
    Restamped v (t.slots.get? p) (t'.slots.get? p) := by
  cases hm with
  | @removal _ ref _ _ hrem =>
      rw [CommittedTree.remove_eq] at hrem
      split at hrem
      · simp at hrem
      · split at hrem
        · obtain ⟨rfl, -⟩ := by simpa using hrem
          exact .kept _
        · obtain ⟨rfl, -⟩ := by simpa using hrem
          show Restamped v _ ((t.bury p v).slots.get? p)
          rcases t.restamped_bury p p v with hsame | ⟨n, hn, hburied⟩
          · rw [hsame]
            exact .kept _
          · rw [hn, hburied]
            exact .buried n
  | unseen _ _ => exact .kept _
  | installation _ _ _ hi =>
      rw [CommittedTree.get?_install hi, if_pos rfl]
      exact .stamped rfl rfl
  | joining _ _ _ _ _ hu => exact CommittedTree.restamped_update h hu
  | keeping _ _ _ _ _ => exact .kept _
  | update _ _ _ hu => exact CommittedTree.restamped_update h hu
  | nothing _ _ _ => exact .kept _

/-- At other paths merging an entry only buries, and that only below its path. -/
theorem buried_entryMerge (hm : EntryMerge t v p e t') (hq : q ≠ p) :
    t'.slots.get? q = t.slots.get? q ∨ p.isAbove q = true ∧ ∃ n, t.slots.get? q = some n ∧
      t'.slots.get? q = some { n with valid := false, version := max n.version v } := by
  have hbury : ∀ {t'' : CommittedTree}, t''.slots.get? q = (t.bury p v).slots.get? q →
      t''.slots.get? q = t.slots.get? q ∨ p.isAbove q = true ∧ ∃ n, t.slots.get? q = some n ∧
        t''.slots.get? q = some { n with valid := false, version := max n.version v } := by
    intro t'' heq
    rw [heq]
    by_cases hbelow : q.isAtOrBelow p = true
    · rw [Path.isAtOrBelow_of_ne hq] at hbelow
      exact (t.restamped_bury p q v).imp_right fun hburied => ⟨hbelow, hburied⟩
    · exact .inl (CommittedTree.get?_bury.trans (if_neg hbelow))
  cases hm with
  | removal _ _ hrem =>
      rw [CommittedTree.remove_eq] at hrem
      split at hrem
      · simp at hrem
      · split at hrem
        · obtain ⟨rfl, -⟩ := by simpa using hrem
          exact .inl rfl
        · obtain ⟨rfl, -⟩ := by simpa using hrem
          exact hbury rfl
  | unseen _ _ => exact .inl rfl
  | installation _ _ _ hi =>
      have hget := CommittedTree.get?_install (q := q) hi
      rw [if_neg hq] at hget
      split at hget
      · exact hbury hget
      · exact .inl hget
  | joining _ _ _ _ _ hu => exact .inl (CommittedTree.get?_update_of_ne hu hq)
  | keeping _ _ _ _ _ => exact .inl rfl
  | update _ _ _ hu => exact .inl (CommittedTree.get?_update_of_ne hu hq)
  | nothing _ _ _ => exact .inl rfl

/-- A merge leaves a node alone if it has no entry at or above its path. -/
theorem get?_mergeAll_of_not (hq : ∀ a ∈ es, ¬q.isAtOrBelow a.1 = true) :
    (mergeAll t v o es).tree.slots.get? q = t.slots.get? q := by
  induction es generalizing t with
  | nil => rfl
  | cons a es ih =>
      rcases mergeAll_cons t v o a es with ⟨t₁, events, hm, htree, -⟩ | ⟨-, htree, -⟩
      · have ha := hq a List.mem_cons_self
        have hne : q ≠ a.1 := fun heq => ha (Path.isAtOrBelow_iff.2 (.inl heq))
        rw [htree, ih fun a' ha' => hq a' (List.mem_cons_of_mem _ ha')]
        refine (buried_entryMerge (entryMerge_of_ok hm) hne).resolve_right fun hburied => ?_
        exact ha (Path.isAtOrBelow_of_isAbove hburied.1)
      · rw [htree]

/-- **What a merge, whole or partial, makes of each node.** -/
theorem restamped_mergeAll (h : t.Sound) (hes : Mergeable es) (q : Path) :
    Restamped v (t.slots.get? q) ((mergeAll t v o es).tree.slots.get? q) := by
  induction es generalizing t with
  | nil => exact .kept _
  | cons a es ih =>
      obtain ⟨p, e⟩ := a
      rcases mergeAll_cons t v o (p, e) es with ⟨t₁, events, hm, htree, -⟩ | ⟨-, htree, -⟩
      · have hentry := entryMerge_of_ok hm
        rw [htree]
        by_cases hq : q = p
        -- no entry at or above the path comes later
        · subst hq
          rw [get?_mergeAll_of_not fun a ha => hes.not_isAtOrBelow ha]
          exact restamped_entryMerge h hentry
        · have hrest := ih (merged_of_mergeEntry h hm).sound hes.tail
          rcases buried_entryMerge hentry hq with hsame | ⟨-, n, hn, hburied⟩
          · rw [hsame] at hrest
            exact hrest
          · rw [hburied] at hrest
            rw [hn]
            exact hrest.bury_first
      · rw [htree]
        exact .kept _

/-! ### Commits -/

namespace Store

variable {s : Store} {c : Context}

/-- The version of a commit is the one that its options name, or the next one. -/
theorem stamp_fst (s : Store) (c : Context) :
    (s.stamp c).1 = c.options.version.getD s.tree.version.next := by
  simp only [stamp]
  cases c.options.version <;> rfl

/-- The tree after a commit is as it was, or all or some entries have been merged. -/
theorem tree_commit (s : Store) (c : Context) :
    (s.commit c).store.tree = s.tree ∨ (s.commit c).store.tree = (s.merge c).tree := by
  have ho := commit_outcome s c
  generalize s.commit c = e at ho
  cases ho with
  | idle _ => exact .inl rfl
  | refused _ _ => exact .inl rfl
  | torn _ _ _ => exact .inr rfl
  | merged _ _ _ => exact .inr rfl

/-- **What a commit makes of each node.** -/
theorem restamped_commit (h : s.tree.Sound) (hc : c.workspace.Tidy) (p : Path) :
    Restamped (s.stamp c).1 (s.tree.slots.get? p) ((s.commit c).store.tree.slots.get? p) := by
  rcases tree_commit s c with hsame | hmerge
  · rw [hsame]
    exact .kept _
  · obtain ⟨hslots, hnext⟩ := stamp_tree s c
    rw [hmerge, merge_eq, ← hslots]
    exact restamped_mergeAll (h.of_slots hslots hnext) hc.mergeable p

/-- **A node that is found after a commit** was found before, or has the version of the commit. -/
theorem version_of_commit {n : Node} (h : s.tree.Sound) (hc : c.workspace.Tidy)
    (hn : (s.commit c).store.tree.peek? p = some n) :
    s.tree.peek? p = some n ∨ n.version = c.options.version.getD s.tree.version.next := by
  obtain ⟨hslot, hvalid⟩ := (commit_sane h hc).1.peek?_eq_some.1 hn
  have hchange := restamped_commit h hc p
  rw [hslot, stamp_fst] at hchange
  generalize hold : s.tree.slots.get? p = old at hchange
  cases hchange with
  | kept => exact .inl (h.peek?_eq_some.2 ⟨hold, hvalid⟩)
  | stamped _ hv => exact .inr hv
  | buried => simp at hvalid

/-- **A commit does not turn the counter back**, unless it is at the last version. -/
theorem version_le_commit (hlast : ¬s.tree.Spent) (c : Context) :
    s.tree.version ≤ (s.commit c).store.tree.version := by
  have hstamp : s.tree.version ≤ (s.stamp c).2.version := by
    simp only [stamp]
    split
    · exact UInt64.le_refl _
    · exact UInt64.le_of_lt (CommittedTree.lt_allocate hlast)
  rcases tree_commit s c with hsame | hmerge
  · rw [hsame]
    exact UInt64.le_refl _
  · rw [hmerge, merge_eq]
    refine UInt64.le_trans hstamp ?_
    rcases version_mergeAll with hkept | hnoted
    · rw [hkept]
      exact UInt64.le_refl _
    · rw [hnoted]
      exact Std.left_le_max

theorem stamped_commit (h : s.tree.Stamped) (hlast : ¬s.tree.Spent) (c : Context) :
    (s.commit c).store.tree.Stamped := by
  rcases tree_commit s c with hsame | hmerge
  · rw [hsame]
    exact h
  · rw [hmerge, merge_eq]
    refine stamped_mergeAll ?_
    simp only [stamp]
    split
    · exact h
    · exact h.allocate hlast

end Store

/-! ### Runs -/

namespace SharedTree

variable {s : SharedTree} {name : String} {c : Context} {n n' : Node} {step : Step}
variable {steps : List Step}

/-- **The counter is at the last version** before, during or after the run. -/
def Exhausts (s : SharedTree) (steps : List Step) : Prop :=
  ∃ k, (s.runShared (steps.take k)).store.tree.Spent

/-- Each step keeps the counter ahead, unless it is at the last version. -/
theorem stamped_takeShared (h : s.store.tree.Stamped) (hlast : ¬s.store.tree.Spent) (step : Step) :
    (s.takeShared step).store.tree.Stamped := by
  cases step with
  | start name thread transaction =>
      simp only [takeShared]
      split
      · exact h
      · exact h
  | setOptions name options =>
      simp only [takeShared, take]
      cases s.context? name with
      | none => exact h
      | some c => exact h
  | perform name o =>
      simp only [takeShared, take]
      cases s.context? name with
      | none => exact h
      | some c => exact h
  | commit name =>
      simp only [takeShared, take]
      cases s.context? name with
      | none => exact h
      | some c => exact Store.stamped_commit h hlast c
  | rollback name =>
      simp only [takeShared, take]
      cases s.context? name with
      | none => exact h
      | some c => exact h
  | purge => exact h.purge

/-- **The counter is not behind a stamp**, unless it was at the last version. -/
theorem stamped_runShared (h : s.store.tree.Stamped) (hlast : ¬s.Exhausts steps) :
    (s.runShared steps).store.tree.Stamped := by
  induction steps generalizing s with
  | nil => exact h
  | cons step steps ih =>
      refine ih (stamped_takeShared h (fun hspent => hlast ⟨0, hspent⟩) step) ?_
      exact fun ⟨k, hspent⟩ => hlast ⟨k + 1, hspent⟩

/-- **The next version is newer than the stamp of every node**, unless the counter was at the last
version. -/
theorem lt_next_of_not_exhausts {config : Config} {hash : Path → UInt64}
    (hrun : (ofConfig config hash).runShared steps = s)
    (hlast : ¬(ofConfig config hash).Exhausts steps) (hn : s.store.tree.slots.get? p = some n) :
    n.version < s.store.tree.version.next := by
  subst hrun
  refine (stamped_runShared CommittedTree.stamped_empty hlast).lt_next (fun hspent => ?_) hn
  exact hlast ⟨steps.length, by rwa [List.take_length]⟩

/-- **When a stamp goes back.**  A node that is found before and after a commit, the same or another
one in its place, is unchanged or has the version of the commit; and its stamp is older afterwards
exactly if it is changed and that version is older: the one that the options of the commit name, or
the next one of the counter if they name none.  The latter is older only if the counter was at the
last version at some time, and has started again.  It does not matter whether units of work share
owners, and whether the commit succeeds or stops half way. -/
theorem stamp_goes_back_iff {config : Config} {hash : Path → UInt64}
    (hrun : (ofConfig config hash).runShared steps = s)
    (hc : s.context? name = some c) (hbefore : s.store.tree.peek? p = some n)
    (hafter : (s.commit name c).1.store.tree.peek? p = some n') :
    (n' = n ∨ n'.version = c.options.version.getD s.store.tree.version.next) ∧
      (n'.version < n.version ↔ n' ≠ n ∧
        ((∃ v, c.options.version = some v ∧ v < n.version) ∨
          (c.options.version = none ∧ s.store.tree.version.next < n.version))) ∧
      (s.store.tree.version.next < n.version → (ofConfig config hash).Exhausts steps) := by
  have hsane : s.Sane := hrun ▸ (sane_ofConfig config hash).runShared steps
  have hcases : n' = n ∨ n'.version = c.options.version.getD s.store.tree.version.next := by
    refine (Store.version_of_commit hsane.sound (hsane.tidy hc) hafter).imp_left fun hsame => ?_
    exact Option.some.inj (hsame.symm.trans hbefore)
  refine ⟨hcases, ⟨fun hlt => ?_, ?_⟩, fun hlt => ?_⟩
  · have hne : n' ≠ n := by
      rintro rfl
      exact UInt64.lt_irrefl _ hlt
    refine ⟨hne, ?_⟩
    rw [hcases.resolve_left hne] at hlt
    cases hv : c.options.version with
    | none =>
        rw [hv] at hlt
        exact .inr ⟨rfl, hlt⟩
    | some v =>
        rw [hv] at hlt
        exact .inl ⟨v, rfl, hlt⟩
  · rintro ⟨hne, ⟨v, hv, hlt⟩ | ⟨hv, hlt⟩⟩
    · rw [hcases.resolve_left hne, hv]
      exact hlt
    · rw [hcases.resolve_left hne, hv]
      exact hlt
  · by_contra hlast
    have hnewer := lt_next_of_not_exhausts hrun hlast (hsane.sound.peek?_eq_some.1 hbefore).1
    exact UInt64.lt_asymm hlt hnewer

/-- A unit of work writes `/a` under the version 5, and then once more under the version 3. -/
def agingSteps : List Step :=
  [.start "t" ⟨"main", 0⟩ (some (1 : Nat)), .setOptions "t" { version := some 5 },
    .perform "t" (.put ⟨["a"]⟩ "k" (.int 1)), .commit "t",
    .setOptions "t" { version := some 3 }, .perform "t" (.put ⟨["a"]⟩ "k" (.int 2))]

/-- The state in which the second write is to be committed. -/
def agingState : SharedTree := (ofConfig {}).runShared agingSteps

/-- The unit of work in that state. -/
def agingContext : Context := (agingState.context? "t").getD default

/-- The stamp of `/a` goes back from 5 to 3, since the second write is committed under 3. -/
theorem written_under_older_version :
    ∃ n n', agingState.store.tree.peek? ⟨["a"]⟩ = some n ∧
      (agingState.commit "t" agingContext).1.store.tree.peek? ⟨["a"]⟩ = some n' ∧
      n'.version < n.version := by
  have hc : agingState.context? "t" = some agingContext := by decide +kernel
  obtain ⟨n, hn, hv⟩ : ∃ n, agingState.store.tree.peek? ⟨["a"]⟩ = some n ∧ n.version = 5 :=
    ⟨_, Option.eq_some_of_isSome (by decide +kernel), by decide +kernel⟩
  obtain ⟨n', hn', hv'⟩ : ∃ n', (agingState.commit "t" agingContext).1.store.tree.peek? ⟨["a"]⟩ =
      some n' ∧ n'.version ≠ 5 :=
    ⟨_, Option.eq_some_of_isSome (by decide +kernel), by decide +kernel⟩
  have hiff := (stamp_goes_back_iff (Eq.refl agingState) hc hn hn').2.1
  refine ⟨n, n', hn, hn', hiff.2 ⟨?_, .inl ⟨3, ?_, ?_⟩⟩⟩
  · rintro rfl
    exact hv' hv
  · decide +kernel
  · rw [hv]
    decide

/-- **Stamps do not only advance**: a commit that succeeds may stamp a node with an older one. -/
theorem not_stamps_only_advance :
    ¬∀ (config : Config) (steps : List Step) (name : String) (c : Context) (p : Path) (n n' : Node),
      ((ofConfig config).runShared steps).context? name = some c →
      (((ofConfig config).runShared steps).commit name c).2 = .ok () →
      ((ofConfig config).runShared steps).store.tree.peek? p = some n →
      (((ofConfig config).runShared steps).commit name c).1.store.tree.peek? p = some n' →
      n.version ≤ n'.version := by
  intro h
  have hle := h {} agingSteps "t" agingContext ⟨["a"]⟩ _ _ (by decide +kernel) (by decide +kernel)
    (Option.eq_some_of_isSome (by decide +kernel)) (Option.eq_some_of_isSome (by decide +kernel))
  revert hle
  decide +kernel

end SharedTree

end TransactionalTree
