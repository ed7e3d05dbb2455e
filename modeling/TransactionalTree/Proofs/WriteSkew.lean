/-
**What the check for write skew sees.**

The check compares the observed version of every dirty entry with the committed one.  So a node that
a commit changes through an entry of its own still has the version that was observed first.  But a
removal drops the entries below it with the versions that they have observed, and a node that goes
with a node above it is not compared at all.

Main definitions:

* `Workspace.readVersion?` — the observed version of an entry;
* `Workspace.Watches` — **a version that was observed at a place is not forgotten**, unless the
  entry is dropped, and then no other version takes its place;
* `SharedTree.clearingState` — a state in which a node is to go that has changed since it was read.

Main results:

* `Base.skewConflicts_eq_nil` — what the check compares;
* `Watches.stages` — no step observes another version of a node;
* `SharedTree.write_skew_detected_unless_cleared` — **what is changed through its own entry has the
  version that was read**, and what is cleared with a node above may have any.
-/

import TransactionalTree.Proofs.Following

set_option relaxedAutoImplicit false
set_option autoImplicit false

namespace TransactionalTree

/-! ### What the check compares -/

namespace Base

variable {b : Base} {c : Context}

theorem mem_skewConflicts {x : Conflict} : x ∈ b.skewConflicts c ↔
    ∃ p e, c.entry? p = some e ∧ e.isDirty = true ∧ b.committedVersion p ≠ e.readVersion ∧
      x = .writeSkew p e.readVersion (b.committedVersion p) := by
  rw [skewConflicts, List.mem_filterMap]
  constructor
  · rintro ⟨⟨p, e⟩, hmem, hx⟩
    split at hx
    · simp at hx
    · rename_i hne
      obtain ⟨hget, hd⟩ := Workspace.mem_dirty.1 hmem
      exact ⟨p, e, hget, hd, hne, (Option.some.inj hx).symm⟩
  · rintro ⟨p, e, hget, hd, hne, rfl⟩
    exact ⟨(p, e), Workspace.mem_dirty.2 ⟨hget, hd⟩, if_neg hne⟩

/-- **The check passes** exactly if every changed node has the version that was observed. -/
theorem skewConflicts_eq_nil : b.skewConflicts c = [] ↔
    ∀ p e, c.entry? p = some e → e.isDirty = true → b.committedVersion p = e.readVersion := by
  rw [List.eq_nil_iff_forall_not_mem]
  constructor
  · intro h p e hget hd
    by_contra hne
    exact h _ (mem_skewConflicts.2 ⟨p, e, hget, hd, hne, rfl⟩)
  · intro h x hx
    obtain ⟨p, e, hget, hd, hne, -⟩ := mem_skewConflicts.1 hx
    exact hne (h p e hget hd)

end Base

/-! ### Observed versions -/

namespace Workspace

/-- The version that the entry for `p` has observed. -/
def readVersion? (w : Workspace) (p : Path) : Option Version := (w.get? p).bind (·.readVersion)

/-- Some node strictly above `p` is made or removed. -/
def IsOverruled (w : Workspace) (p : Path) : Prop :=
  ∃ r e, r.isAbove p = true ∧ w.get? r = some e ∧ (e.created = true ∨ e.removed = true)

/-- **The workspace watches for version `v` at `f`**: the entry has observed it, or the entry was
dropped, and what is there now has observed nothing. -/
def Watches (w : Workspace) (f : Path) (v : Version) : Prop :=
  w.readVersion? f = some v ∨ w.IsOverruled f ∧ w.readVersion? f = none

variable {b : Base} {w w' : Workspace} {f p : Path} {v : Version} {e e' : Entry} {a : Act}
variable {acts : List Act}

theorem readVersion?_insert : readVersion? (w.insert p e) f =
    if f = p then e.readVersion else w.readVersion? f := by
  rw [readVersion?, readVersion?, SortedMap.get?_insert]
  split <;> rfl

/-- An entry that takes the place of one with the same version observes no other. -/
theorem readVersion?_insert_same (he : e.readVersion = w.readVersion? p) :
    readVersion? (w.insert p e) f = w.readVersion? f := by
  rw [readVersion?_insert]
  split
  · rename_i hfp
    rw [hfp, he]
  · rfl

theorem readVersion?_modify {g : Entry → Entry} (hg : ∀ e, (g e).readVersion = e.readVersion) :
    readVersion? (w.modify p g) f = w.readVersion? f := by
  rw [readVersion?, readVersion?, SortedMap.get?_modify]
  split
  · cases w.get? f <;> simp [hg]
  · rfl

theorem readVersion?_remove : readVersion? ((w.dropBelow p).modify p .markRemoved) f =
    if p.isAbove f then none else w.readVersion? f := by
  rw [readVersion?_modify (g := Entry.markRemoved) fun _ => rfl, readVersion?, get?_dropBelow]
  split <;> rfl

namespace IsOverruled

/-- A new entry that is made or removed if the one before was leaves what is overruled. -/
theorem insert (h : w.IsOverruled f)
    (he : ∀ g, w.get? p = some g → g.created = true ∨ g.removed = true →
      e.created = true ∨ e.removed = true) : IsOverruled (w.insert p e) f := by
  obtain ⟨r, g, hr, hg, hflag⟩ := h
  by_cases hrp : r = p
  · subst hrp
    exact ⟨r, e, hr, SortedMap.get?_insert_self, he g hg hflag⟩
  · exact ⟨r, g, hr, (SortedMap.get?_insert_of_ne hrp).trans hg, hflag⟩

/-- What is overruled is hidden: no committed node is seen there. -/
theorem locate_ne {n : Node} (h : w.IsOverruled p) : (View.mk b w).locate p ≠ .committed n := by
  intro hl
  obtain ⟨hc, -, hs, -⟩ := View.locate_eq_committed.1 hl
  obtain ⟨r, g, hr, hg, hcreated | hremoved⟩ := h
  · exact hs (View.isShadowed_iff.2 ⟨r, g, hr, hg, hcreated⟩)
  · exact hc (View.isCutOff_iff.2 ⟨r, g, hr, hg, by simp [Entry.isPresent, hremoved]⟩)

theorem note (h : w.IsOverruled f) (hs : Note b w w') : w'.IsOverruled f := by
  cases hs with
  | copy hl =>
      obtain ⟨-, hnone, -, -⟩ := View.locate_eq_committed.1 hl
      refine h.insert fun g hg => ?_
      rw [hnone] at hg
      simp at hg
  | mark hl =>
      obtain ⟨-, hnone, -, -⟩ := View.locate_eq_missing.1 hl
      refine h.insert fun g hg => ?_
      rw [hnone] at hg
      simp at hg
  | lock p =>
      obtain ⟨r, g, hr, hg, hflag⟩ := h
      refine ⟨r, if r = p then g.markLocked else g, hr, ?_, ?_⟩
      · rw [SortedMap.get?_modify, hg]
        split <;> rfl
      · split <;> exact hflag

theorem stage (h : w.IsOverruled f) (hs : Stage b a w w') : w'.IsOverruled f := by
  cases hs with
  | create name hex => exact h.insert fun _ _ _ => .inl (Entry.isPresent_made _).2.1
  | @write _ p e e' hl he =>
      obtain ⟨-, hget, -⟩ := View.locate_eq_staged.1 hl
      refine h.insert fun g hg hflag => ?_
      obtain rfl := Option.some.inj (hget.symm.trans hg)
      rwa [he.created, he.removed]
  | @remove _ p e hp hl =>
      obtain ⟨-, hget, -⟩ := View.locate_eq_staged.1 hl
      have hget : w.get? p = some e := hget
      obtain ⟨r, g, hr, hg, hflag⟩ := h
      by_cases hpf : p.isAbove f = true
      · refine ⟨p, e.markRemoved, hpf, ?_, .inr rfl⟩
        rw [get?_remove, if_neg (Path.not_isAbove_self p), if_pos rfl, hget]
        rfl
      · have hrp : ¬r.isAtOrBelow p = true := fun hrp => hpf (Path.isAbove_of_isAtOrBelow hrp hr)
        exact ⟨r, g, hr, (get?_remove_of_not hrp).trans hg, hflag⟩

end IsOverruled

namespace Watches

theorem of_same (h : w.Watches f v) (hread : w'.readVersion? f = w.readVersion? f)
    (hover : w.IsOverruled f → w'.IsOverruled f) : w'.Watches f v := by
  rw [Watches, hread]
  exact h.imp_right fun ⟨hold, hnone⟩ => ⟨hover hold, hnone⟩

/-- A note observes no other version: what is dropped is hidden, and is not copied again. -/
theorem note (h : w.Watches f v) (hs : Note b w w') : w'.Watches f v := by
  have hover : w.IsOverruled f → w'.IsOverruled f := fun hold => hold.note hs
  cases hs with
  | @copy p n hl =>
      obtain ⟨-, hnone, -, -⟩ := View.locate_eq_committed.1 hl
      have hne : f ≠ p := by
        rintro rfl
        rcases h with hread | ⟨hold, -⟩
        · rw [readVersion?, hnone] at hread
          simp at hread
        · exact hold.locate_ne hl
      exact h.of_same (by rw [readVersion?_insert, if_neg hne]) hover
  | @mark p hl =>
      obtain ⟨-, hnone, -, -⟩ := View.locate_eq_missing.1 hl
      refine h.of_same (readVersion?_insert_same ?_) hover
      rw [readVersion?, hnone]
      rfl
  | lock p => exact h.of_same (readVersion?_modify fun _ => rfl) hover

/-- **No step observes another version**; the removal of a node above drops the entry. -/
theorem stage (h : w.Watches f v) (hs : Stage b a w w') : w'.Watches f v := by
  have hover : w.IsOverruled f → w'.IsOverruled f := fun hold => hold.stage hs
  cases hs with
  | @create _ p name hex =>
      refine h.of_same (readVersion?_insert_same ?_) hover
      rw [readVersion?]
      cases w.get? (p.push name) <;> rfl
  | @write _ p e e' hl he =>
      obtain ⟨-, hget, -⟩ := View.locate_eq_staged.1 hl
      refine h.of_same (readVersion?_insert_same ?_) hover
      rw [readVersion?, hget, he.readVersion]
      rfl
  | @remove _ p e hp hl =>
      by_cases hpf : p.isAbove f = true
      · obtain ⟨-, hget, -⟩ := View.locate_eq_staged.1 hl
        refine .inr ⟨⟨p, e.markRemoved, hpf, ?_, .inr rfl⟩, ?_⟩
        · rw [get?_remove, if_neg (Path.not_isAbove_self p), if_pos rfl]
          exact congrArg (Option.map Entry.markRemoved) hget
        · rw [readVersion?_remove, if_pos hpf]
      · exact h.of_same (by rw [readVersion?_remove, if_neg hpf]) hover

theorem stages (h : w.Watches f v) (hs : Stages b w acts w') : w'.Watches f v := by
  induction hs with
  | refl => exact h
  | note _ hs ih => exact ih.note hs
  | act _ hs ih => exact ih.stage hs

/-- No operation observes another version. -/
theorem perform {u : Work} (h : u.context.workspace.Watches f v) (hb : b.tree.Sound)
    (hw : u.context.workspace.Tidy) (o : Operation) :
    (b.perform u o).1.context.workspace.Watches f v := by
  obtain ⟨acts, hst⟩ := Base.staged_perform hb hw o
  exact h.stages hst.stages

/-- An entry that has observed a version has observed the one that is watched for. -/
theorem eq_of_readVersion {v' : Version} (h : w.Watches f v) (he : w.get? f = some e)
    (hv : e.readVersion = some v') : v' = v := by
  have hread : w.readVersion? f = some v' := by rw [readVersion?, he, Option.bind_some, hv]
  rcases h with h | ⟨-, h⟩
  · exact Option.some.inj (hread.symm.trans h)
  · rw [hread] at h
    simp at h

end Watches

/-- Whether the entry for `f` changes the committed tree. -/
def isDirtyAt (w : Workspace) (f : Path) : Bool := (w.get? f).any (·.isDirty)

end Workspace

/-! ### What the check does not compare -/

namespace Base

variable {b b' : Base} {c : Context} {f : Path} {n : Node}

/-- What has nowhere to land depends only on which nodes there are. -/
theorem structureConflicts_congr (h : ∀ p, b'.tree.exists? p = b.tree.exists? p) :
    b'.structureConflicts c = b.structureConflicts c := by
  have hparent : ∀ p, b'.parentPresent c p = b.parentPresent c p := by
    intro p
    rw [parentPresent, parentPresent, h]
  simp only [structureConflicts, structureConflict, hparent, h]

/-- **The version of a node without a dirty entry is not compared**: the check passes for any. -/
theorem conflicts_overwrite (hb : b.tree.Sound) (hn : b.tree.peek? f = some n)
    (hf : c.workspace.isDirtyAt f = false) (hx : b.conflicts c true = []) (version : Version) :
    Base.conflicts { b with tree := b.tree.overwrite f n n.data version } c true = [] := by
  have hpeek := hb.peek?_overwrite (d := n.data) (v := version) hn
  rw [conflicts, if_pos rfl, List.append_eq_nil_iff] at hx ⊢
  obtain ⟨hskew, hstruct⟩ := hx
  refine ⟨skewConflicts_eq_nil.2 fun p e he hd => ?_, ?_⟩
  · have hpf : p ≠ f := by
      rintro rfl
      rw [Workspace.isDirtyAt, show c.workspace.get? p = some e from he] at hf
      exact absurd hd (by simpa using hf)
    rw [← skewConflicts_eq_nil.1 hskew p e he hd, committedVersion, committedVersion, hpeek,
      if_neg hpf]
  · rw [structureConflicts_congr fun p => ?_]
    · exact hstruct
    · rw [CommittedTree.exists?, CommittedTree.exists?, hpeek]
      split
      · rename_i hpf
        rw [hpf, hn]
        rfl
      · rfl

end Base

/-- **What a merge changes** has a dirty entry, or goes with a node above that the check has
compared. -/
theorem Store.merge_changes {s : Store} {c : Context} {f : Path} (hs : s.tree.Sound)
    (hx : s.base.skewConflicts c = [])
    (hne : (s.merge c).tree.peek? f ≠ s.tree.peek? f) :
    c.workspace.isDirtyAt f = true ∨
      ∃ r g, r.isAbove f = true ∧ c.entry? r = some g ∧ g.replacesBase = true ∧
        s.base.committedVersion r = g.readVersion := by
  by_contra hnot
  rw [not_or, Bool.not_eq_true] at hnot
  obtain ⟨hclean, habove⟩ := hnot
  refine hne (peek?_merge hs (fun e he => ?_) ?_)
  · rw [Workspace.isDirtyAt, he] at hclean
    simpa using hclean
  · rw [← Bool.not_eq_true]
    intro hcleared
    obtain ⟨r, g, hmem, hr, hb⟩ := clearedAbove_iff.1 hcleared
    obtain ⟨hget, hd⟩ := Workspace.mem_dirty.1 hmem
    exact habove ⟨r, g, hr, hget, hb, Base.skewConflicts_eq_nil.1 hx r g hget hd⟩

/-! ### What is detected -/

/-- The step sets a version for what is written. -/
def Step.setsVersion : Step → Bool
  | setOptions _ options => options.version.isSome
  | _ => false

namespace SharedTree

variable {s s' : SharedTree} {name : String} {c c' : Context} {f : Path} {steps : List Step}

/-- A commit that succeeds has passed the check, and has merged the workspace if it changes a
node. -/
theorem changed_by_commit (hskew : s.store.config.writeSkewCheckActive = true)
    (hok : (s.commit name c).2 = .ok ())
    (hchanged : (s.commit name c).1.store.tree.peek? f ≠ s.store.tree.peek? f) :
    s.store.base.conflicts c true = [] ∧
      (s.store.merge c).tree.peek? f ≠ s.store.tree.peek? f := by
  have ho := Store.commit_outcome s.store c
  simp only [commit, finish] at hok hchanged
  generalize s.store.commit c = e at ho hok hchanged
  cases ho with
  | idle _ => exact absurd rfl hchanged
  | refused _ _ => simp at hok
  | torn _ _ _ => simp at hok
  | merged _ hx _ =>
      rw [hskew] at hx
      exact ⟨hx, hchanged⟩

/-- **Write skew is detected unless the node is cleared away.**  A unit of work has observed a
version of a node and goes on, while others do what they like; then its commit succeeds and changes
the node.  If it does so through an entry for the node, the node had the version that was observed.
Otherwise the node goes with one above it, of which the version was compared; that of the node
itself was not, and the commit would have passed the check with any other version of it. -/
theorem write_skew_detected_unless_cleared {v : Version} {n : Node} (hs : s.Reachable)
    (hskew : s.store.config.writeSkewCheckActive = true) (hc : s.context? name = some c)
    (hread : c.workspace.readVersion? f = some v) (hgo : s.goesOnThroughout name steps = true)
    (hrun : s.run steps = s') (hc' : s'.context? name = some c')
    (hok : (s'.commit name c').2 = .ok ()) (hn : s'.store.tree.peek? f = some n)
    (hchanged : (s'.commit name c').1.store.tree.peek? f ≠ some n) :
    if c'.workspace.isDirtyAt f then n.version = v
    else (∃ r g, r.isAbove f = true ∧ c'.entry? r = some g ∧ g.replacesBase = true ∧
        s'.store.base.committedVersion r = g.readVersion) ∧
      ∀ version, Base.conflicts { s'.store.base with
        tree := s'.store.tree.overwrite f n n.data version } c' true = [] := by
  subst hrun
  have hwatch : c'.workspace.Watches f v := by
    refine following_run (P := fun w => w.Watches f v) hs.sane hs.settled
      (fun b u o hb hw h => h.perform hb hw o) hgo (fun d hd => ?_) hc'
    obtain rfl := Option.some.inj (hc.symm.trans hd)
    exact .inl hread
  have hskew' : (s.run steps).store.config.writeSkewCheckActive = true := by
    rw [config_run]
    exact hskew
  rw [← hn] at hchanged
  obtain ⟨hx, hmerge⟩ := changed_by_commit hskew' hok hchanged
  have hpass : (s.run steps).store.base.skewConflicts c' = [] := by
    rw [Base.conflicts, if_pos rfl, List.append_eq_nil_iff] at hx
    exact hx.1
  split
  · rename_i hdirty
    rw [Workspace.isDirtyAt] at hdirty
    obtain ⟨e, he, hd⟩ := (Option.any_eq_true _ _).1 hdirty
    have hv := Base.skewConflicts_eq_nil.1 hpass f e he hd
    have hcommitted : (s.run steps).store.base.committedVersion f = some n.version := by
      rw [Base.committedVersion, show (s.run steps).store.base.tree.peek? f = some n from hn]
      rfl
    exact hwatch.eq_of_readVersion he (hv.symm.trans hcommitted)
  · rename_i hdirty
    have hclean : c'.workspace.isDirtyAt f = false := by simpa using hdirty
    have hsound := (hs.run steps).sane.sound
    refine ⟨(Store.merge_changes hsound hpass hmerge).resolve_left hdirty, ?_⟩
    exact Base.conflicts_overwrite hsound hn hclean hx

/-- The settings under which the check is on. -/
def checkingConfig : Config := { writeSkewCheck := true }

/-- One transaction makes `/a/b`, and another one reads it. -/
def watchingSteps : List Step :=
  [.start "s" ⟨"main", 0⟩ (some (1 : Nat)), .start "t" ⟨"main", 0⟩ (some (2 : Nat)),
    .perform "s" (.put ⟨["a", "b"]⟩ "k" (.int 1)), .commit "s",
    .perform "t" (.get ⟨["a", "b"]⟩ "k")]

/-- The first one changes `/a/b`, and the other one removes `/a`. -/
def clearingSteps : List Step :=
  [.perform "s" (.put ⟨["a", "b"]⟩ "k" (.int 2)), .commit "s",
    .perform "t" (.removeNode ⟨["a"]⟩)]

/-- The state in which `/a/b` was read. -/
def watchingState : SharedTree := (ofConfig checkingConfig).run watchingSteps

/-- The state in which the other transaction is to be committed. -/
def clearingState : SharedTree := watchingState.run clearingSteps

/-- The other transaction in that state. -/
def clearingContext : Context := (clearingState.context? "t").getD default

/-- The node `/a/b` in that state. -/
def clearedNode : Node := (clearingState.store.tree.peek? ⟨["a", "b"]⟩).getD default

/-- The node `/a/b` goes with `/a`, of which the version was compared. -/
theorem changed_node_cleared : ∃ r g, r.isAbove ⟨["a", "b"]⟩ = true ∧
    clearingContext.entry? r = some g ∧ g.replacesBase = true ∧
    clearingState.store.base.committedVersion r = g.readVersion := by
  have hc : watchingState.context? "t" = some ((watchingState.context? "t").getD default) := by
    decide +kernel
  have hgo : watchingState.goesOnThroughout "t" clearingSteps = true := by decide +kernel
  have hrun : watchingState.run clearingSteps = clearingState := rfl
  have hc' : clearingState.context? "t" = some clearingContext := by decide +kernel
  have h := write_skew_detected_unless_cleared (f := ⟨["a", "b"]⟩) (v := (1 : Version))
    (n := clearedNode) ⟨checkingConfig, _, watchingSteps, rfl⟩ (by decide +kernel) hc
    (by decide +kernel) hgo hrun hc' (by decide +kernel) (by decide +kernel) (by decide +kernel)
  rw [if_neg (by decide +kernel)] at h
  exact h.1

/-- Not all write skew is detected, not even if nobody sets a version: the transaction has read
version `1` of `/a/b`, and takes away version `2`. -/
theorem not_write_skew_detected :
    ¬∀ (config : Config) (before steps : List Step) (name : String) (c c' : Context) (f : Path)
      (v : Version) (n : Node), config.writeSkewCheckActive = true →
      (∀ step ∈ before ++ steps, step.setsVersion = false) →
      ((ofConfig config).run before).context? name = some c →
      c.workspace.readVersion? f = some v →
      ((ofConfig config).run before).goesOnThroughout name steps = true →
      (((ofConfig config).run before).run steps).context? name = some c' →
      ((((ofConfig config).run before).run steps).commit name c').2 = .ok () →
      (((ofConfig config).run before).run steps).store.tree.peek? f = some n →
      ((((ofConfig config).run before).run steps).commit name c').1.store.tree.peek? f ≠ some n →
      n.version = v := by
  intro h
  have hsame := h checkingConfig watchingSteps clearingSteps "t"
    ((watchingState.context? "t").getD default) clearingContext ⟨["a", "b"]⟩ 1 clearedNode
    rfl (by decide +kernel) (by decide +kernel) (by decide +kernel) (by decide +kernel)
    (by decide +kernel) (by decide +kernel) (by decide +kernel) (by decide +kernel)
  have hversion : clearedNode.version = 2 := by decide +kernel
  rw [hversion] at hsame
  simp at hsame

end SharedTree

end TransactionalTree
