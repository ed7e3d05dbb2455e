/-
**Good names along a run.**

If operations make nodes only at paths whose names can be written, all that is seen, changed or
committed is at such paths, and all names that are listed are good.  Then it does not matter that
the path of a child is made by a constructor that takes its name apart: the name is one piece.  And
then the tree of a run is that of nodes that own their children, under the same changes.

Main definitions:

* `Operation.WellNamed`, `Step.WellNamed` — nodes are made at paths with good names only;
* `View.GoodPlaces` — **all that is seen or was changed is at paths with good names**;
* `Stamping.WellNamed`, `NestedTree.stampAll` — what is asked of the tree, and asked of the stored
  tree.

Main results:

* `View.GoodPlaces.goodName` — the names that are listed are good;
* `Taking.goodPlaces` — an operation keeps all places good;
* `SharedTree.GoodPlaces.runShared` — so does a run;
* `SharedTree.stored_tree_of_run` — **the tree of a run is the stored tree**, laid flat.
-/

import TransactionalTree.Proofs.Counter
import TransactionalTree.Proofs.Nesting
import TransactionalTree.Proofs.Tombstones

set_option relaxedAutoImplicit false
set_option autoImplicit false

namespace TransactionalTree

variable {b : Base} {w w' : Workspace} {u : Work} {p q source target parent : Path} {e : Entry}
variable {name : String} {names : NameSet} {acts : List Act}

/-! ### Places of nodes -/

/-- All nodes and tombstones of the tree are at paths with good names. -/
def CommittedTree.GoodPlaces (t : CommittedTree) : Prop :=
  ∀ p n, t.slots.get? p = some n → p.WellFormed

/-- The entries for nodes that are there or were changed are at paths with good names, and so are
the children that were seen below them. -/
def Workspace.GoodPlaces (w : Workspace) : Prop :=
  ∀ p e, w.get? p = some e → (e.isPresent = true ∨ e.isDirty = true) →
    p.WellFormed ∧ ∀ name, e.children.has name = true → Path.GoodName name

theorem Workspace.goodPlaces_empty : Workspace.GoodPlaces SortedMap.empty := by
  intro p e he
  simp at he

/-- **All that is seen or was changed is at paths with good names.** -/
structure View.GoodPlaces (v : View) : Prop where
  /-- The committed nodes. -/
  committed : v.base.tree.GoodPlaces
  /-- The entries. -/
  staged : v.workspace.GoodPlaces

namespace View.GoodPlaces

theorem goodName_of_push (h : (q.push name).WellFormed) : Path.GoodName name :=
  h name (by simp)

/-- The names of children that are committed are good. -/
theorem goodName_of_committed {v : View} (h : v.GoodPlaces)
    (hm : (v.base.tree.childNames q).has name = true) : Path.GoodName name := by
  obtain ⟨n, hn, -⟩ := CommittedTree.isValidAt_iff.1 (CommittedTree.mem_childNames.1 hm)
  exact goodName_of_push (h.committed _ n hn)

/-- **What is seen is at a path with good names.** -/
theorem wellFormed {v : View} (h : v.GoodPlaces) (hp : v.exists? p = true) : p.WellFormed := by
  rcases View.exists?_iff.1 hp with ⟨e, he⟩ | ⟨n, hn⟩
  · obtain ⟨-, hget, hpresent⟩ := View.locate_eq_staged.1 he
    exact (h.staged p e hget (.inl hpresent)).1
  · obtain ⟨-, -, -, hpeek⟩ := View.locate_eq_committed.1 hn
    exact h.committed p n (CommittedTree.get?_of_peek? hpeek)

/-- **The names of the children are good.** -/
theorem goodName {v : View} (h : v.GoodPlaces) (hn : v.childNames q = some names)
    (hm : names.has name = true) : Path.GoodName name := by
  obtain ⟨base, hbase, rfl⟩ := Option.map_eq_some_iff.1 hn
  rcases View.has_overlay.1 hm with ⟨e, he, hp⟩ | ⟨-, hm⟩
  · exact goodName_of_push (h.staged _ e he (.inl hp)).1
  · cases hl : v.locate q with
    | staged e =>
        obtain ⟨-, he, hp⟩ := View.locate_eq_staged.1 hl
        rw [hl, baseChildNames] at hbase
        obtain rfl := Option.some.inj hbase
        split at hm
        · simp at hm
        split at hm
        · exact (h.staged q e he (.inl hp)).2 name hm
        split at hm
        · exact h.goodName_of_committed hm
        · simp at hm
    | committed n =>
        rw [hl, baseChildNames] at hbase
        obtain rfl := Option.some.inj hbase
        exact h.goodName_of_committed hm
    | missing => simp [hl, baseChildNames] at hbase
    | hidden => simp [hl, baseChildNames] at hbase

/-- So the path of a child is made of its name as it is. -/
theorem child_eq_push {v : View} (h : v.GoodPlaces) (hn : v.childNames q = some names)
    (hm : names.has name = true) : q.child name = q.push name :=
  Path.child_eq_push (h.goodName hn hm)

/-! ### Steps of a workspace -/

/-- Another entry that is at a good place, or says that there is nothing. -/
theorem insert (h : (View.mk b w).GoodPlaces)
    (he : (e.isPresent = true ∨ e.isDirty = true) →
      p.WellFormed ∧ ∀ name, e.children.has name = true → Path.GoodName name) :
    (View.mk b (w.insert p e)).GoodPlaces where
  committed := h.committed
  staged q f hf := by
    rw [SortedMap.get?_insert] at hf
    split at hf
    · rename_i hq
      obtain rfl := Option.some.inj hf
      rw [hq]
      exact he
    · exact h.staged q f hf

/-- Taking note of something keeps all places good. -/
theorem note (h : (View.mk b w).GoodPlaces) (hn : Note b w w') : (View.mk b w').GoodPlaces := by
  cases hn with
  | @copy p n hl =>
      have hp : (View.mk b w).exists? p = true := View.exists?_iff.2 (.inr ⟨n, hl⟩)
      exact h.insert fun _ => ⟨h.wellFormed hp, fun name hm => h.goodName_of_committed hm⟩
  | @mark p _ =>
      refine h.insert fun hcon => ?_
      simp [Entry.absent, Entry.isPresent, Entry.isDirty] at hcon
  | lock p =>
      refine ⟨h.committed, fun q f hf hmeans => ?_⟩
      rw [SortedMap.get?_modify] at hf
      split at hf
      · obtain ⟨e, he, rfl⟩ := Option.map_eq_some_iff.1 hf
        exact h.staged q e he hmeans
      · exact h.staged q f hf hmeans

/-- A change keeps all places good if it makes no node at a bad one. -/
theorem stage {a : Act} (h : (View.mk b w).GoodPlaces) (hs : Stage b a w w')
    (ha : ∀ p, a = .create p → p.WellFormed) : (View.mk b w').GoodPlaces := by
  cases hs with
  | @create _ p name _ =>
      refine h.insert fun _ => ⟨ha _ rfl, fun child hm => ?_⟩
      cases he : w.get? (p.push name) <;>
        simp [he, Entry.fresh, Entry.recreate, Entry.absent] at hm
  | write hl hed =>
      obtain ⟨-, he, hp⟩ := View.locate_eq_staged.1 hl
      refine h.insert fun _ => ?_
      rw [hed.children]
      exact h.staged _ _ he (.inl hp)
  | remove _ hl =>
      refine ⟨h.committed, fun q f hf hmeans => ?_⟩
      obtain ⟨-, g, hg, ⟨rfl, rfl⟩ | ⟨-, rfl⟩⟩ := Workspace.of_get?_remove hf
      · have hq : (View.mk b w).exists? q = true := View.exists?_iff.2 (.inl ⟨_, hl⟩)
        exact ⟨h.wellFormed hq, fun name hm => by simp [Entry.markRemoved] at hm⟩
      · exact h.staged q f hg hmeans

theorem stages (h : (View.mk b w).GoodPlaces) (hs : Stages b w acts w')
    (hacts : ∀ p, Act.create p ∈ acts → p.WellFormed) : (View.mk b w').GoodPlaces := by
  induction hs with
  | refl => exact h
  | note _ hn ih => exact (ih hacts).note hn
  | act _ hs ih =>
      exact (ih fun p hp => hacts p (List.mem_append_left _ hp)).stage hs fun p hp =>
        hacts p (hp ▸ List.mem_append_right _ (List.mem_singleton_self _))

end View.GoodPlaces

/-! ### Operations -/

/-- **The operation makes nodes only at paths with good names**: those on the way to a place that it
writes, or those below the new parent of a node that it moves. -/
def Operation.WellNamed : Operation → Prop
  | moveNode _ parent _ => parent.WellFormed
  | o => ∀ a, o.writePath? = some a → a.1.WellFormed

theorem Operation.WellNamed.wellFormed {o : Operation} {create : Bool} (h : o.WellNamed)
    (ho : o.writePath? = some (p, create)) : p.WellFormed := by
  cases o with
  | moveNode source parent deep => simp [writePath?] at ho
  | _ => exact h _ ho

/-- What is above a path with good names has good names. -/
theorem Path.WellFormed.of_isAtOrBelow (h : p.WellFormed) (hq : p.isAtOrBelow q = true) :
    q.WellFormed :=
  h.of_subset (Path.isAtOrBelow_iff_names.1 hq).subset

/-- What is seen at and below the source gets good names at and below a good target. -/
theorem View.GoodPlaces.of_mem_relocated {v : View} {a : Path × Data} (h : v.GoodPlaces)
    (ht : target.WellFormed) (ha : a ∈ v.relocated source target) : a.1.WellFormed := by
  obtain ⟨p, -, hp⟩ := List.mem_filterMap.1 ha
  split at hp
  · rename_i d q hd hq
    obtain rfl := Option.some.inj hp
    obtain ⟨names, hpn, hqn⟩ := Path.rebase?_eq_some.1 hq
    have hwell : p.WellFormed := h.wellFormed (View.exists?_iff_data?.2 ⟨d, hd⟩)
    intro name hname
    rw [hqn] at hname
    rcases List.mem_append.1 hname with hname | hname
    · exact ht name hname
    · exact hwell name (hpn ▸ List.mem_append_right _ hname)
  · simp at hp

/-- **The steps of an operation make nodes only at good places.** -/
theorem Taking.wellFormed {o : Operation} {r : Work × Except TreeError Answer}
    (h : (b.view u.context).GoodPlaces) (ho : o.WellNamed) (ht : Taking b u o r acts)
    (hp : Act.create p ∈ acts) : p.WellFormed := by
  cases ht with
  | idle _ => simp at hp
  | read _ _ => simp at hp
  | @written _ path create _ _ _ hpath _ _ _ =>
      have hmake : p ∈ (b.view u.context).toMake path create := by simpa using hp
      exact (ho.wellFormed hpath).of_isAtOrBelow (View.isAtOrBelow_of_mem_toMake hmake)
  | removed _ _ => simp at hp
  | emptied hsteps _ => rcases hsteps with rfl | rfl <;> simp at hp
  | @moved source parent target _ _ _ hplan _ hs _ =>
      obtain ⟨-, ⟨name, hname, rfl⟩, -⟩ := Base.planMove_moveTo hplan
      have htarget : (parent.push name).WellFormed := by
        intro m hm
        rcases List.mem_append.1 hm with hm | hm
        · exact ho m hm
        · rw [List.mem_singleton.1 hm]
          exact h.wellFormed hs name (List.mem_of_getLast? hname)
      simp only [Context.movingActs, List.mem_append, List.mem_singleton, reduceCtorEq,
        or_false] at hp
      rcases hp with hp | hp
      · split at hp <;> simp at hp
      · obtain ⟨a, ha, hmem⟩ := List.mem_flatMap.1 hp
        obtain rfl : p = a.1 := by simpa using hmem
        exact h.of_mem_relocated htarget ha

/-- **An operation keeps all places good.** -/
theorem View.GoodPlaces.perform {o : Operation} (h : (b.view u.context).GoodPlaces)
    (hb : b.tree.Sound) (hw : u.context.workspace.Tidy) (ho : o.WellNamed) :
    (b.view (b.perform u o).1.context).GoodPlaces := by
  obtain ⟨acts, ht⟩ := Base.taking_perform hb hw o
  exact h.stages ht.staged.stages fun p hp => ht.wellFormed h ho hp

/-! ### What is asked of the tree -/

/-- What is changed is at a path with good names. -/
def Stamping.WellNamed : Stamping → Prop
  | allocate => True
  | observe _ => True
  | change ch => ch.WellNamed

namespace NestedTree

/-- The stored tree after it was asked for something. -/
def stampOne (t : NestedTree) : Stamping → NestedTree
  | .allocate => t.allocate.2
  | .observe v => t.observe v
  | .change ch => t.changeAll [ch]

/-- The stored tree after it was asked for the listed things, one after the other. -/
def stampAll (t : NestedTree) (steps : List Stamping) : NestedTree := steps.foldl stampOne t

theorem Flattens.stampOne {t : NestedTree} {f : CommittedTree} {step : Stamping}
    (h : t.Flattens f) (hf : f.Sound) (hstep : step.WellNamed) :
    (t.stampOne step).Flattens (f.stampOne step) ∧ (f.stampOne step).Sound := by
  cases step with
  | allocate =>
      refine ⟨⟨h.slots, h.retired, h.nextId, ?_, h.proper⟩, hf.allocate⟩
      exact congrArg Version.next h.version
  | observe v => exact ⟨h.observe v, hf.observe v⟩
  | change ch =>
      refine ⟨?_, hf.changeAll [ch]⟩
      exact (h.changeAll_replies hf [ch] fun c hc => List.mem_singleton.1 hc ▸ hstep).2

/-- **Asked for the same, the two trees stay the same.** -/
theorem Flattens.stampAll {t : NestedTree} {f : CommittedTree} {steps : List Stamping}
    (h : t.Flattens f) (hf : f.Sound) (hsteps : ∀ step ∈ steps, step.WellNamed) :
    (t.stampAll steps).Flattens (f.stampAll steps) := by
  induction steps generalizing t f with
  | nil => exact h
  | cons step steps ih =>
      obtain ⟨hnext, hsound⟩ := h.stampOne hf (hsteps step List.mem_cons_self)
      exact ih hnext hsound fun x hx => hsteps x (List.mem_cons_of_mem _ hx)

end NestedTree

namespace CommittedTree

variable {t t' : CommittedTree} {v : Version} {o : Origin} {steps : List Stamping}

/-- A change puts nodes only at the path that it is about. -/
theorem GoodPlaces.changeAll {ch : Change} (h : t.GoodPlaces) (hch : ch.WellNamed) :
    (t.changeAll [ch]).GoodPlaces := by
  have hbury : ∀ p v, (t.bury p v).GoodPlaces := by
    intro p v q n hn
    rw [get?_bury] at hn
    split at hn
    · obtain ⟨m, hm, -⟩ := Option.map_eq_some_iff.1 hn
      exact h q m hm
    · exact h q n hn
  have hinstall : ∀ p d v, p.WellFormed → (t.changeAll [.install p d v]).GoodPlaces := by
    intro p d v hp
    rcases changeAll_install t p d v with hsame | ⟨t', r, hi, hnew⟩
    · rw [hsame]
      exact h
    · rw [hnew]
      intro q n hn
      rw [get?_install hi] at hn
      split at hn
      · rename_i hq
        rw [hq]
        exact hp
      · split at hn
        · exact hbury p v q n hn
        · exact h q n hn
  have hwrite : ∀ p n d v, t.peek? p = some n → (t.overwrite p n d v).GoodPlaces := by
    intro p n d v hpeek q m hm
    rw [get?_overwrite] at hm
    split at hm
    · rename_i hq
      rw [hq]
      exact h p n (get?_of_peek? hpeek)
    · exact h q m hm
  cases ch with
  | createOrUpdate p d v =>
      cases hn : t.peek? p with
      | some n =>
          rw [changeAll_write_of_some hn (.inl rfl)]
          exact hwrite p n d v hn
      | none =>
          rw [changeAll_createOrUpdate_of_none hn]
          exact hinstall p d v hch
  | install p d v => exact hinstall p d v hch
  | update p d v =>
      cases hn : t.peek? p with
      | some n =>
          rw [changeAll_write_of_some hn (.inr rfl)]
          exact hwrite p n d v hn
      | none =>
          rw [changeAll_update_of_none hn]
          exact h
  | remove p v =>
      rcases changeAll_remove t p v with hsame | ⟨t', r, hr, hnew⟩
      · rw [hsame]
        exact h
      · rw [hnew]
        intro q n hn
        by_cases hq : q.isAtOrBelow p = true
        · rw [remove_eq] at hr
          split at hr
          · simp at hr
          split at hr
          · obtain ⟨rfl, -⟩ := by simpa using hr
            exact h q n hn
          · obtain ⟨rfl, -⟩ := by simpa using hr
            exact hbury p v q n hn
        · rw [get?_remove_of_not hr hq] at hn
          exact h q n hn
  | purge =>
      intro q n hn
      have hget : t.purge.1.slots.get? q = some n := hn
      rw [get?_purge] at hget
      exact h q n (Option.filter_eq_some_iff.1 hget).1

theorem GoodPlaces.stampAll (h : t.GoodPlaces) (hsteps : ∀ step ∈ steps, step.WellNamed) :
    (t.stampAll steps).GoodPlaces := by
  induction steps generalizing t with
  | nil => exact h
  | cons step steps ih =>
      refine ih ?_ fun x hx => hsteps x (List.mem_cons_of_mem _ hx)
      cases step with
      | allocate => exact h
      | observe v => exact h
      | change ch => exact h.changeAll (hsteps _ List.mem_cons_self)

theorem goodPlaces_empty : CommittedTree.empty.GoodPlaces := by
  intro p n hn
  rw [empty, SortedMap.get?_insert] at hn
  split at hn
  · rename_i hp
    rw [hp]
    exact fun name hname => absurd hname List.not_mem_nil
  · simp at hn

/-! ### What a run asks of the tree -/

/-- **The tree comes of changes at paths with good names**, and of versions given out and seen. -/
def WellMade (t : CommittedTree) : Prop :=
  ∃ steps : List Stamping, (∀ step ∈ steps, step.WellNamed) ∧ t = CommittedTree.empty.stampAll steps

theorem WellMade.goodPlaces (h : t.WellMade) : t.GoodPlaces := by
  obtain ⟨steps, hsteps, rfl⟩ := h
  exact goodPlaces_empty.stampAll hsteps

theorem WellMade.stampOne (h : t.WellMade) (step : Stamping) (hstep : step.WellNamed) :
    (t.stampOne step).WellMade := by
  obtain ⟨steps, hsteps, rfl⟩ := h
  refine ⟨steps ++ [step], fun x hx => ?_, by rw [stampAll, stampAll, List.foldl_append]; rfl⟩
  rcases List.mem_append.1 hx with hx | hx
  · exact hsteps x hx
  · exact List.mem_singleton.1 hx ▸ hstep

/-- A change that is done is one of those. -/
theorem WellMade.change {ch : Change} {r : CommittedTree × Reply NodeRef} (h : t.WellMade)
    (hr : t.change ch = .ok r) (hch : ch.WellNamed) : r.1.WellMade :=
  changeAll_of_ok hr ▸ h.stampOne (.change ch) hch

/-- An entry is merged by one change at its path, or by none. -/
theorem WellMade.entryMerge {e : Entry} (h : t.WellMade) (hp : p.WellFormed)
    (hm : EntryMerge t v p e t') : t'.WellMade := by
  have hupdate : ∀ {d : Data}, t.update p d v = .ok t' → t'.WellMade := by
    intro d hu
    have hdone : t.change (.update p d v) = .ok (t', .done) := by
      rw [CommittedTree.change, hu]
      rfl
    exact h.change hdone hp
  cases hm with
  | @removal _ ref _ _ hr =>
      have hdone : t.change (.remove p v) = .ok (t', .removed ref) := by
        rw [CommittedTree.change, hr]
        rfl
      exact h.change hdone hp
  | unseen _ _ => exact h
  | @installation _ ref _ _ _ hi =>
      have hdone : t.change (.install p e.data v) = .ok (t', .node ref) := by
        rw [CommittedTree.change, hi]
        rfl
      exact h.change hdone hp
  | joining _ _ _ _ _ hu => exact hupdate hu
  | keeping _ _ _ _ _ => exact h
  | update _ _ _ hu => exact hupdate hu
  | nothing _ _ _ => exact h

theorem WellMade.mergeAll {es : List (Path × Entry)} (h : t.WellMade)
    (hes : ∀ a ∈ es, a.1.WellFormed) : (TransactionalTree.mergeAll t v o es).tree.WellMade := by
  induction es generalizing t with
  | nil => exact h
  | cons a es ih =>
      rcases mergeAll_cons t v o a es with ⟨t₁, events, hm, htree, -⟩ | ⟨-, htree, -⟩
      · rw [htree]
        exact ih (h.entryMerge (hes a List.mem_cons_self) (entryMerge_of_ok hm))
          fun x hx => hes x (List.mem_cons_of_mem _ hx)
      · rw [htree]
        exact h

theorem WellMade.commit {s : Store} {c : Context} (h : s.tree.WellMade)
    (hc : c.workspace.GoodPlaces) : (s.commit c).store.tree.WellMade := by
  rcases Store.tree_commit s c with hsame | hmerge
  · rw [hsame]
    exact h
  · rw [hmerge, Store.merge_eq]
    refine WellMade.mergeAll ?_ fun a ha => ?_
    · rw [Store.stamp]
      split
      · exact h
      · exact h.stampOne .allocate trivial
    · obtain ⟨hget, hdirty⟩ := Workspace.mem_dirty.1 ha
      exact (hc a.1 a.2 hget (.inr hdirty)).1

end CommittedTree

/-! ### Runs -/

/-- The step makes nodes only at paths with good names. -/
def Step.WellNamed : Step → Prop
  | perform _ o => o.WellNamed
  | _ => True

namespace SharedTree

variable {s s' : SharedTree} {c : Context} {steps : List Step} {step : Step}

/-- **All places are good**, of the tree and of all units of work. -/
structure GoodPlaces (s : SharedTree) : Prop where
  /-- The tree comes of changes at good places. -/
  made : s.store.tree.WellMade
  /-- The entries are at good places. -/
  staged : ∀ {name c}, s.context? name = some c → c.workspace.GoodPlaces

theorem goodPlaces_ofConfig (config : Config) (hash : Path → UInt64) :
    (ofConfig config hash).GoodPlaces where
  made := ⟨[], by simp, rfl⟩
  staged h := by simp [context?, ofConfig] at h

/-- What each unit of work sees is at good places. -/
theorem GoodPlaces.view (h : s.GoodPlaces) (hc : s.context? name = some c) :
    (s.store.base.view c).GoodPlaces :=
  ⟨h.made.goodPlaces, h.staged hc⟩

theorem GoodPlaces.set (h : s.GoodPlaces) (hmade : s'.store.tree.WellMade)
    (hc : c.workspace.GoodPlaces) (hcs : s'.contexts = s.contexts.insert name c) :
    s'.GoodPlaces where
  made := hmade
  staged {other c'} h' := by
    rw [context?, hcs, SortedMap.get?_insert] at h'
    split at h'
    · obtain rfl := Option.some.inj h'
      exact hc
    · exact h.staged h'

/-- **Each step keeps all places good.** -/
theorem GoodPlaces.takeShared (h : s.GoodPlaces) (hs : s.Sane) (hstep : step.WellNamed) :
    (s.takeShared step).GoodPlaces := by
  cases step with
  | start name thread transaction =>
      simp only [SharedTree.takeShared]
      split
      · exact h
      · exact h.set h.made Workspace.goodPlaces_empty rfl
  | setOptions name options =>
      simp only [SharedTree.takeShared, take]
      cases hc : s.context? name with
      | none => exact h
      | some c =>
          have hstaged := h.staged hc
          exact h.set (c := { c with options }) h.made hstaged rfl
  | perform name o =>
      simp only [SharedTree.takeShared, take]
      cases hc : s.context? name with
      | none => exact h
      | some c =>
          have hview := (h.view hc).perform (u := ⟨s.store.locks, c⟩) hs.sound (hs.tidy hc) hstep
          exact h.set h.made hview.staged rfl
  | commit name =>
      simp only [SharedTree.takeShared, take]
      cases hc : s.context? name with
      | none => exact h
      | some c =>
          refine h.set (h.made.commit (h.staged hc)) ?_ rfl
          rcases Store.workspace_commit s.store c with hnil | hsame
          · rw [hnil]
            exact Workspace.goodPlaces_empty
          · rw [hsame]
            exact h.staged hc
  | rollback name =>
      simp only [SharedTree.takeShared, take]
      cases hc : s.context? name with
      | none => exact h
      | some c => exact h.set h.made Workspace.goodPlaces_empty rfl
  | purge =>
      have hdone : s.store.tree.change .purge = .ok (s.store.tree.purge.1, .done) := rfl
      exact ⟨h.made.change hdone trivial, h.staged⟩

theorem GoodPlaces.runShared (h : s.GoodPlaces) (hs : s.Sane)
    (hsteps : ∀ step ∈ steps, step.WellNamed) : (s.runShared steps).GoodPlaces := by
  induction steps generalizing s with
  | nil => exact h
  | cons step steps ih =>
      exact ih (h.takeShared hs (hsteps step List.mem_cons_self)) (hs.takeShared step)
        fun x hx => hsteps x (List.mem_cons_of_mem _ hx)

/-- **The tree of a run is the stored tree, laid flat.**  If the operations of a run make nodes only
at paths with good names, whoever takes its steps, then its tree comes of changes that nodes which
own their children undergo in the same way, and read off place by place the two are the same.  All
names of children that a unit of work is shown are good then, so a constructor that takes names
apart makes the path of the child. -/
theorem stored_tree_of_run (config : Config) (hash : Path → UInt64)
    (h : ∀ step ∈ steps, step.WellNamed) :
    let s := (ofConfig config hash).runShared steps
    (∃ asked : List Stamping, s.store.tree = CommittedTree.empty.stampAll asked ∧
      (NestedTree.empty.stampAll asked).Flattens s.store.tree) ∧
    ∀ other c p names name, s.context? other = some c →
      (s.store.base.view c).childNames p = some names → names.has name = true →
      p.child name = p.push name := by
  intro s
  have hgood : s.GoodPlaces :=
    (goodPlaces_ofConfig config hash).runShared (sane_ofConfig config hash) h
  refine ⟨?_, fun other c p names name hc hn hm => (hgood.view hc).child_eq_push hn hm⟩
  obtain ⟨asked, hasked, htree⟩ := hgood.made
  refine ⟨asked, htree, ?_⟩
  rw [htree]
  exact NestedTree.flattens_empty.stampAll CommittedTree.sound_empty hasked

end SharedTree

end TransactionalTree
