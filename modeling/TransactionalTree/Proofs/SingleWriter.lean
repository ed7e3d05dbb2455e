/-
**One writer for each node.**

Suppose that locking is never skipped and that subtrees are moved deeply.  Then a unit of work has
locked every node that it changes, makes or removes, and the entry of such a node says so; where
parents are locked with the nodes that are inserted and removed, it has locked the parent too.
Entries come along chains, anew, by copies and by removals, and operations that fail give back
locks, but never one that an entry relies on.  Since a lock has one owner, no two units of work have
an entry that changes the same node.

Main definitions:

* `Context.Covers`, `Context.Covered` — **what entries change is locked**;
* `Context.Reserves` — the locks for making or removing a node are held;
* `Work.Covered`, `SharedTree.Covered` — the same for a unit of work and for all of them.

Main results:

* `Work.Covered.perform` — **every operation that is deep keeps entries covered**;
* `SharedTree.Covered.run` — so does every strict run;
* `SharedTree.single_writer` — **no two units of work change the same node**.
-/

import TransactionalTree.Proofs.StrictLocking

set_option relaxedAutoImplicit false
set_option autoImplicit false

namespace TransactionalTree

variable {b : Base} {c c' : Context} {p q source : Path} {e e' : Entry} {parents : Bool}

/-! ### Entries -/

namespace Context

/-- **The locks for making or removing a node at `p` are held**: that of the node, and that of its
parent if parents are locked. -/
def Reserves (c : Context) (parents : Bool) (p : Path) : Prop :=
  c.holds p = true ∧ (parents = true → c.HoldsWithParent p)

/-- Staging takes and gives back no locks. -/
theorem Reserves.restaged (hp : c.Reserves parents p) (hc : c.Restaged c') :
    c'.Reserves parents p := by
  refine ⟨(hc.holds p).trans hp.1, fun hparents => ?_⟩
  obtain ⟨hheld, hparent⟩ := hp.2 hparents
  exact ⟨(hc.holds p).trans hheld, fun r name hr => (hc.holds r).trans (hparent r name hr)⟩

/-- **What the entry for `p` changes is locked**, and the entry says so. -/
structure Covers (c : Context) (parents : Bool) (p : Path) (e : Entry) : Prop where
  /-- An entry that changes the tree is marked as locked. -/
  marked : e.isDirty = true → e.locked = true
  /-- Where the entry is marked as locked, it is. -/
  held : e.locked = true → c.holds p = true
  /-- If parents are locked, that of a node that is made or removed is. -/
  parent : parents = true → e.created = true ∨ e.removed = true → c.HoldsWithParent p

/-- **What the entries change is locked**, and the entries say so. -/
def Covered (c : Context) (parents : Bool) : Prop :=
  ∀ p e, c.entry? p = some e → c.Covers parents p e

namespace Covers

/-- An entry that changes nothing and is not marked needs no lock. -/
theorem of_clean (hd : e.isDirty = false) (hl : e.locked = false) : c.Covers parents p e where
  marked h := by
    rw [hd] at h
    simp at h
  held h := by
    rw [hl] at h
    simp at h
  parent _ h := by
    rcases h with h | h
    · simp [Entry.isDirty, h] at hd
    · simp [Entry.isDirty, h] at hd

/-- A marked entry may change whatever it likes if the locks for that are held. -/
theorem of_reserves (hp : c.Reserves parents p) (hl : e.locked = true) : c.Covers parents p e :=
  ⟨fun _ => hl, fun _ => hp.1, fun hparents _ => hp.2 hparents⟩

/-- The data of a marked entry may be written. -/
theorem edited (h : c.Covers parents p e) (hl : e.locked = true) (he : e.Edited e') :
    c.Covers parents p e' where
  marked _ := by
    rw [he.same]
    exact hl
  held _ := h.held hl
  parent hparents hflag := by
    rw [he.created, he.removed] at hflag
    exact h.parent hparents hflag

/-- Taking more locks changes nothing. -/
theorem mono (h : c.Covers parents p e) (hkeeps : ∀ q, c.holds q = true → c'.holds q = true) :
    c'.Covers parents p e where
  marked := h.marked
  held hl := hkeeps p (h.held hl)
  parent hparents hflag :=
    ⟨hkeeps p (h.parent hparents hflag).1,
      fun r name hr => hkeeps r ((h.parent hparents hflag).2 r name hr)⟩

end Covers

namespace Covered

theorem of_empty (hw : c.workspace = .empty) : c.Covered parents := by
  intro p e he
  rw [Context.entry?, hw] at he
  simp at he

/-- The same entries are covered by more locks. -/
theorem mono (h : c.Covered parents) (hw : c'.workspace = c.workspace)
    (hkeeps : ∀ q, c.holds q = true → c'.holds q = true) : c'.Covered parents := by
  intro p e he
  rw [Context.entry?, hw] at he
  exact (h p e he).mono hkeeps

theorem setEntry (h : c.Covered parents) (he : c.Covers parents p e) :
    (c.setEntry p e).Covered parents := by
  intro q f hf
  rw [Context.entry?, Context.setEntry, SortedMap.get?_insert] at hf
  split at hf
  · rename_i hqp
    obtain rfl := Option.some.inj hf
    rw [hqp]
    exact he.mono fun _ hq => hq
  · exact (h q f hf).mono fun _ hq => hq

theorem modifyEntry {f : Entry → Entry} (h : c.Covered parents)
    (hf : ∀ e, c.entry? p = some e → c.Covers parents p (f e)) :
    (c.modifyEntry p f).Covered parents := by
  intro q g hg
  rw [Context.entry?, Context.modifyEntry, SortedMap.get?_modify] at hg
  split at hg
  · rename_i hqp
    obtain ⟨e, he, rfl⟩ := Option.map_eq_some_iff.1 hg
    rw [hqp] at he ⊢
    exact (hf e he).mono fun _ hq => hq
  · exact (h q g hg).mono fun _ hq => hq

/-- A mark is set only where the lock is held. -/
theorem noteLock (h : c.Covered parents) (p : Path) : (c.noteLock p).Covered parents := by
  simp only [Context.noteLock]
  split
  · rename_i hp
    exact h.modifyEntry fun e he => ⟨fun _ => rfl, fun _ => hp, (h p e he).parent⟩
  · exact h

end Covered

/-! ### Staging -/

/-- Where the lock is held, the mark is set. -/
theorem entry?_noteLock_self (hp : c.holds p = true) (he : c.entry? p = some e) :
    Context.entry? (c.noteLock p) p = some e.markLocked := by
  have hget : c.workspace.get? p = some e := he
  rw [noteLock, if_pos hp, modifyEntry, entry?, SortedMap.get?_modify, if_pos rfl, hget]
  rfl

/-- An entry that is set and noted is marked if the lock is held. -/
theorem setEntry_noteLock (hp : c.holds p = true) :
    (c.setEntry p e).noteLock p = c.setEntry p e.markLocked := by
  have hget : (c.setEntry p e).workspace.get? p = some e := SortedMap.get?_insert_self
  have hholds : (c.setEntry p e).holds p = true := hp
  rw [noteLock, if_pos hholds, modifyEntry, SortedMap.modify_of_some hget]
  exact congrArg (fun w => { c with workspace := w }) SortedMap.insert_insert

/-- Making sure of an entry marks it if the lock is held. -/
theorem marked_materialize (hp : c.holds p = true) (hfound : (b.materialize c p).2 = true) :
    ∃ e, Context.entry? (b.materialize c p).1 p = some e ∧ e.locked = true := by
  simp only [Base.materialize] at hfound ⊢
  split at hfound
  · rename_i e hl
    have he : c.entry? p = some e := (View.locate_eq_staged.1 hl).2.1
    exact ⟨e.markLocked, entry?_noteLock_self hp he, rfl⟩
  · rename_i n hl
    refine ⟨(b.copy p n).markLocked, ?_, rfl⟩
    simp only [setEntry_noteLock hp]
    exact SortedMap.get?_insert_self
  · simp at hfound
  · simp at hfound

theorem create_of_holds (hp : c.holds p = true) :
    c.create p = c.setEntry p ((c.entry? p).elim Entry.fresh Entry.recreate).markLocked :=
  setEntry_noteLock hp

namespace Covered

/-- A copy of a committed node changes nothing. -/
theorem materialize (h : c.Covered parents) (b : Base) (p : Path) :
    (b.materialize c p).1.Covered parents := by
  simp only [Base.materialize]
  cases (b.view c).locate p with
  | staged e => exact h.noteLock p
  | committed n => exact (h.setEntry (.of_clean rfl rfl)).noteLock p
  | missing => exact h
  | hidden => exact h

theorem create (h : c.Covered parents) (hp : c.Reserves parents p) :
    (c.create p).Covered parents := by
  rw [create_of_holds hp.1]
  exact h.setEntry (.of_reserves hp rfl)

/-- The nodes on the way to a node are made, all of them locked. -/
theorem createChain {ps : List Path} (h : c.Covered parents)
    (hps : ∀ p ∈ ps, c.Reserves parents p) : (ps.foldl Context.create c).Covered parents := by
  induction ps generalizing c with
  | nil => exact h
  | cons p ps ih =>
      exact ih (h.create (hps p List.mem_cons_self)) fun q hq =>
        (hps q (List.mem_cons_of_mem _ hq)).restaged (Base.restaged_create c p)

/-- A write makes what is missing, and ends with a marked entry. -/
theorem stageWrite {create ready : Bool} (h : c.Covered parents)
    (hroot : (b.view c).exists? Path.root = true) (hp : c.holds p = true)
    (hmade : ∀ q ∈ (b.view c).toMake p create, c.Reserves parents q)
    (hs : b.stageWrite c p create = .ok (c', ready)) :
    c'.Covered parents ∧ (ready = true → ∃ e, c'.entry? p = some e ∧ e.locked = true) := by
  simp only [Base.stageWrite, View.missingChain_eq hroot] at hs
  split at hs
  · simp at hs
  · have hchain : ((b.view c).toMake p create).foldl Context.create c |>.Covered parents :=
      h.createChain hmade
    have hheld := (Base.restaged_chain ((b.view c).toMake p create) c).holds p
    rw [View.toMake] at hchain hheld
    have hmarked := marked_materialize (b := b) (hheld.trans hp)
    have hcovered := hchain.materialize b p
    rw [Except.ok.inj hs] at hmarked hcovered
    exact ⟨hcovered, hmarked⟩

/-- A removal takes away entries below the node, and marks its own, which is locked. -/
theorem stageRemoval (h : c.Covered parents) (b : Base) (hp : c.Reserves parents p) :
    (b.stageRemoval c p).1.Covered parents := by
  have hcovered := h.materialize b p
  have hmarked := marked_materialize (b := b) hp.1
  have hreserves := hp.restaged (Base.restaged_materialize b c p)
  simp only [Base.stageRemoval]
  generalize b.materialize c p = r at hcovered hmarked hreserves
  obtain ⟨c', found⟩ := r
  cases found with
  | false => exact hcovered
  | true =>
      obtain ⟨e, he, hl⟩ := hmarked rfl
      intro q f hf
      obtain ⟨-, g, hg, ⟨rfl, rfl⟩ | ⟨-, rfl⟩⟩ := Workspace.of_get?_remove hf
      · obtain rfl := Option.some.inj (he.symm.trans hg)
        exact .of_reserves (hreserves.restaged rfl) hl
      · exact (hcovered q f hg).mono fun _ hq => hq

/-- The nodes of a moved subtree are made with their data, all of them locked. -/
theorem createAll {nodes : List (Path × Data)} (h : c.Covered parents)
    (hnodes : ∀ q ∈ nodes.map (·.1), c.Reserves parents q) :
    (c.createAll nodes).Covered parents := by
  induction nodes generalizing c with
  | nil => exact h
  | cons n nodes ih =>
      have hn : c.Reserves parents n.1 := hnodes n.1 (by simp)
      have hmade : (c.create n.1).Restaged
          ((c.create n.1).modifyEntry n.1 (·.replaceData n.2)) := rfl
      refine ih (c := (c.create n.1).modifyEntry n.1 (·.replaceData n.2))
        ((h.create hn).modifyEntry fun e he => ?_) fun q hq =>
          (hnodes q (by simp [List.mem_map.1 hq])).restaged
            ((Base.restaged_create c n.1).trans hmade)
      refine (h.create hn n.1 e he).edited ?_ (e.edited_replaceData n.2)
      rw [create_of_holds hn.1] at he
      rw [← Option.some.inj (SortedMap.get?_insert_self.symm.trans he)]
      rfl

/-- A move removes what is at the target, makes its nodes there and removes the source. -/
theorem stageMove {target : Path} (h : c.Covered parents) (hsource : c.Reserves parents source)
    (htarget : c.Reserves parents target)
    (hnodes : ∀ q ∈ ((b.view c).relocated source target).map (·.1), c.Reserves parents q)
    (hs : b.stageMove c source target = .ok c') : c'.Covered parents := by
  simp only [Base.stageMove] at hs
  split at hs
  · simp at hs
  · obtain rfl := Except.ok.inj hs
    obtain ⟨cleared, hcleared, hcovered, hrestaged⟩ : ∃ cleared,
        (if (b.view c).exists? target then (b.stageRemoval c target).1 else c) = cleared ∧
          cleared.Covered parents ∧ c.Restaged cleared := by
      split
      · exact ⟨_, rfl, h.stageRemoval b htarget, Base.restaged_stageRemoval b c target⟩
      · exact ⟨c, rfl, h, .refl c⟩
    rw [hcleared]
    have hall := hcovered.createAll fun q hq => (hnodes q hq).restaged hrestaged
    have hremoved := hall.stageRemoval b
      (hsource.restaged (hrestaged.trans (Base.restaged_createAll _ cleared)))
    exact hremoved.mono rfl fun _ hq => hq

end Covered

end Context

/-! ### Operations -/

/-- **What the entries change is locked**, and locking is not skipped. -/
structure Work.Covered (u : Work) : Prop where
  /-- Locking is not skipped. -/
  skipLocking : u.context.options.skipLocking = false
  /-- What the entries change is locked. -/
  covered : u.context.Covered u.locks.lockParent

namespace Work.Covered

variable {u u' : Work}

/-- Taking more locks changes nothing. -/
theorem relocked (h : u.Covered) (hrel : u.Relocked u')
    (hkeeps : ∀ q, u.context.holds q = true → u'.context.holds q = true) : u'.Covered where
  skipLocking := by
    rw [hrel.options]
    exact h.skipLocking
  covered := by
    rw [hrel.lockParent]
    exact h.covered.mono hrel.workspace hkeeps

/-- What is staged under locks is covered. -/
theorem withContext (h : u.Covered) (hc : u.context.Restaged c)
    (hcovered : c.Covered u.locks.lockParent) : (u.withContext c).Covered where
  skipLocking := by
    rw [Work.withContext, hc]
    exact h.skipLocking
  covered := hcovered

/-- Asking for locks keeps entries covered, and those that are granted are held. -/
theorem lockAll (h : u.Covered) (ps : List Path) : (u.lockAll [] ps).1.Covered ∧
    ∀ all, (u.lockAll [] ps).2 = .granted all →
      ∀ q ∈ ps, (u.lockAll [] ps).1.context.holds q = true :=
  ⟨h.relocked (Work.relocked_lockAll u [] ps) ((Work.Holding.refl u).lockAll ps).keeps,
    fun _ hall _ hq => Work.holds_of_granted h.skipLocking hall hq⟩

/-- What a read pins changes nothing. -/
theorem look (h : u.Covered) (b : Base) (p : Path) : (b.look u p).1.Covered := by
  simp only [Base.look]
  split
  · cases hl : (b.view u.context).locate p with
    | staged e => exact h
    | committed n => exact h.withContext rfl (h.covered.setEntry (.of_clean rfl rfl))
    | missing => exact h.withContext rfl (h.covered.setEntry (.of_clean rfl rfl))
    | hidden => exact h
  · exact h

theorem reading {α : Type} (h : u.Covered) (b : Base) (p : Path) (answer : View → Location → α) :
    (b.reading u p answer).1.Covered := by
  have hp : (b.prepareRead u p).1.Covered := by
    simp only [Base.prepareRead]
    split
    · obtain ⟨h₁, -⟩ := h.lockAll [p]
      generalize u.lockAll [] [p] = r at h₁
      obtain ⟨u₁, grant⟩ := r
      cases grant with
      | declined => exact h₁
      | refused e => exact h₁
      | granted taken =>
          exact (h₁.withContext (Base.restaged_materialize b u₁.context p)
            (h₁.covered.materialize b p)).look b p
    · exact h.look b p
  simp only [Base.reading]
  generalize b.prepareRead u p = r at hp
  obtain ⟨u₁, r⟩ := r
  cases r with
  | error e => exact hp
  | ok l => exact hp

/-- A write locks what it makes, with the parent of the first, and the node that it changes. -/
theorem writing {α : Type} (h : u.Covered) (hroot : (b.view u.context).exists? Path.root = true)
    (p : Path) (create : Bool) (idle : α) (change : Entry → Entry × α)
    (hed : ∀ e : Entry, e.Edited (change e).1) :
    (b.writing u p create idle change).1.Covered := by
  simp only [Base.writing, Base.prepareWrite]
  have hrel := Work.relocked_lockAll u [] ((b.view u.context).writeLocks u.locks p create)
  have hhold := (Work.Holding.refl u).lockAll ((b.view u.context).writeLocks u.locks p create)
  obtain ⟨h₁, hgranted⟩ := h.lockAll ((b.view u.context).writeLocks u.locks p create)
  generalize u.lockAll [] ((b.view u.context).writeLocks u.locks p create) = r
    at hrel hhold h₁ hgranted
  obtain ⟨u₁, grant⟩ := r
  cases grant with
  | declined => exact h₁
  | refused e => exact h₁
  | granted taken =>
      have hheld := hgranted taken rfl
      rw [← hrel.view b] at hheld hroot
      simp only
      cases hs : b.stageWrite u₁.context p create with
      | error e =>
          exact h.relocked (hrel.trans (Work.relocked_releasePartial _ _))
            hhold.releasePartial.keeps
      | ok r =>
          obtain ⟨c, ready⟩ := r
          have hplace : ∀ q ∈ (b.view u₁.context).toMake p create ++ [p],
              u₁.context.holds q = true := fun q hq =>
            hheld q (View.mem_writeLocks_of_mem hroot hq)
          obtain ⟨hcovered, hmarked⟩ := h₁.covered.stageWrite hroot (hplace p (by simp))
            (fun q hq => ⟨hplace q (by simp [hq]), fun hparents => View.isLocked_toMake hroot
              (hrel.lockParent.symm.trans hparents) hheld hq⟩) hs
          have hc := h₁.withContext (Base.restaged_stageWrite hs) hcovered
          cases ready with
          | false => exact hc
          | true =>
              obtain ⟨e, he, hl⟩ := hmarked rfl
              simp only [Work.withContext, he]
              exact hc.withContext rfl (hcovered.setEntry ((hcovered p e he).edited hl (hed e)))

/-- A removal locks the node, with its parent. -/
theorem removeBelowRoot (h : u.Covered) (b : Base) (p : Path) :
    (b.removeBelowRoot u p).1.Covered := by
  simp only [Base.removeBelowRoot]
  have hrel := Work.relocked_lockAll u [] ((b.view u.context).removalLocks u.locks p)
  obtain ⟨h₁, hgranted⟩ := h.lockAll ((b.view u.context).removalLocks u.locks p)
  generalize u.lockAll [] ((b.view u.context).removalLocks u.locks p) = r at hrel h₁ hgranted
  obtain ⟨u₁, grant⟩ := r
  cases grant with
  | declined => exact h₁
  | refused e => exact h₁
  | granted taken =>
      have hheld := hgranted taken rfl
      have hp : u₁.context.holds p = true := hheld p (by simp [View.removalLocks])
      refine h₁.withContext (Base.restaged_stageRemoval b u₁.context p)
        (h₁.covered.stageRemoval b ⟨hp, fun hparents => ⟨hp, fun r name hr => hheld r ?_⟩⟩)
      rw [hr]
      exact List.mem_append_left _ (View.mem_parentLock (hrel.lockParent.symm.trans hparents))

theorem removeEach (h : u.Covered) (b : Base) (ps : List Path) :
    (b.removeEach u ps).1.Covered := by
  induction ps generalizing u with
  | nil => exact h
  | cons p ps ih =>
      have hfirst := h.removeBelowRoot b p
      simp only [Base.removeEach]
      generalize b.removeBelowRoot u p = r at hfirst
      obtain ⟨u₁, r⟩ := r
      cases r with
      | error e => exact hfirst
      | ok _ => exact ih hfirst

theorem removeNode (h : u.Covered) (hb : b.tree.Sound) (hu : u.context.workspace.Tidy)
    (p : Path) : (b.removeNode u p).1.Covered := by
  simp only [Base.removeNode]
  split
  · have hchildren := h.removeEach b (b.view u.context).topLevel
    obtain ⟨qs, u₁, r, hr, -, hst, -⟩ := Base.removeEach_outcome (b := b) (w := u)
      (b.view u.context).topLevel fun _ => View.ne_root_of_mem_topLevel
    rw [hr] at hchildren
    cases r with
    | error e =>
        rw [Base.removeRoot_of_error hr]
        exact hchildren
    | ok _ =>
        rw [Base.removeRoot_of_ok hr]
        exact hchildren.writing ((hst.tidy hb hu).exists?_root hb) .root false () _
          fun e => e.edited_clearData
  · exact h.removeBelowRoot b p

/-- A deep move locks all that it makes and the two nodes that it may remove, with their parents.
-/
theorem moveNode (h : u.Covered) (b : Base) (source parent : Path) :
    (b.moveNode u source parent true).1.Covered := by
  simp only [Base.moveNode]
  split
  · exact h
  · exact h
  · rename_i target hplan
    obtain ⟨-, ⟨name, -, rfl⟩, -⟩ := Base.planMove_moveTo hplan
    obtain ⟨hrel, hcase⟩ := Base.lockMove_cases b u source parent (parent.push name) true
    have hhold := Base.holding_lockMove b u source parent (parent.push name) true
    have hgranted : ∀ all, (b.lockMove u source parent (parent.push name) true).2 =
        .granted all → _ := fun all => Base.lockMove_granted h.skipLocking
    generalize b.lockMove u source parent (parent.push name) true = r at hrel hcase hhold hgranted
    obtain ⟨u₁, grant⟩ := r
    have h₁ : u₁.Covered := h.relocked hrel hhold.keeps
    cases grant with
    | declined => exact h₁
    | refused e => exact h₁
    | granted taken =>
        have hheld := hgranted taken rfl
        rw [← hrel.view b] at hheld hcase
        simp only
        cases hm : b.stageMove u₁.context source (parent.push name) with
        | error e =>
            exact h.relocked (hrel.trans (Work.relocked_releasePartial _ _))
              hhold.releasePartial.keeps
        | ok c =>
            have hex : (b.view u₁.context).exists? source = true := by
              rcases hcase with ⟨_, -, -, hex, -⟩ | ⟨hgrant, -⟩ | ⟨-, ⟨hgrant, -⟩ | ⟨hgrant, -⟩⟩
              · exact hex
              · simp at hgrant
              · simp at hgrant
              · simp at hgrant
            have hsource : u₁.context.holds source = true := hheld source (by simp)
            have hparent : u₁.context.holds parent = true := hheld parent (by simp)
            have hmoved : ∀ q ∈ (b.view u₁.context).moveLocks source (parent.push name) true,
                u₁.context.holds q = true := fun q hq => hheld q (List.mem_append_right _ hq)
            have htarget : u₁.context.holds (parent.push name) = true :=
              hmoved _ (by simp [View.moveLocks])
            refine h₁.withContext (Base.restaged_stageMove hm) (h₁.covered.stageMove
              ⟨hsource, fun hparents => ⟨hsource, fun r n hr => hheld r ?_⟩⟩
              ⟨htarget, fun _ => ⟨htarget, fun r n hr => (Path.push_inj.1 hr).1 ▸ hparent⟩⟩
              (fun q hq => ⟨hmoved q (View.mem_moveLocks_of_mem hex hq),
                fun _ => View.isLocked_relocated hex hparent hmoved hq⟩) hm)
            subst hr
            simp [View.mem_parentLock (hrel.lockParent.symm.trans hparents)]

/-- **Every operation keeps entries covered**, unless it is a shallow move. -/
theorem perform {o : Operation} (h : u.Covered) (hb : b.tree.Sound)
    (hu : u.context.workspace.Tidy) (ho : o.isDeep = true) : (b.perform u o).1.Covered := by
  have hp := Base.perform_outcome b u o
  generalize b.perform u o = r at hp
  cases hp with
  | @reading _ _ p _ _ answer _ => exact h.reading b p answer
  | @writing _ _ p create _ _ idle change hed _ _ _ =>
      exact h.writing (hu.exists?_root hb) p create idle change hed
  | removal p => exact h.removeNode hb hu p
  | move source parent deep =>
      obtain rfl : deep = true := ho
      exact h.moveNode b source parent

end Work.Covered

/-! ### Runs -/

namespace SharedTree

variable {s : SharedTree} {name other : String} {d : Context} {step : Step} {steps : List Step}

/-- **What the entries of units of work change is locked.** -/
def Covered (s : SharedTree) : Prop :=
  ∀ name c, s.context? name = some c → Work.Covered ⟨s.store.locks, c⟩

theorem covered_ofConfig (config : Config) (hash : Path → UInt64) :
    (ofConfig config hash).Covered := by
  intro name c hc
  simp [context?, ofConfig] at hc

namespace Covered

/-- A commit leaves all entries or none. -/
theorem commit (h : Work.Covered ⟨s.store.locks, c⟩) :
    Work.Covered ⟨(s.store.commit c).store.locks, (s.store.commit c).context⟩ := by
  have hlock := (s.store.commit_traced c).lockParent
  have ho := Store.commit_outcome s.store c
  generalize s.store.commit c = e at ho hlock
  cases ho with
  | idle _ => exact ⟨h.skipLocking, .of_empty rfl⟩
  | refused _ _ => exact h
  | torn _ _ _ => exact h
  | merged _ _ _ => exact ⟨h.skipLocking, .of_empty rfl⟩

/-- What a unit of work does itself keeps its entries covered. -/
theorem actor (h : s.Covered) (hs : s.Sane) (hstep : step.isStrict = true)
    (hactor : step.actor? = some name) (hc : (s.take step).context? name = some c) :
    Work.Covered ⟨(s.take step).store.locks, c⟩ := by
  cases step with
  | start other thread transaction =>
      obtain rfl := Option.some.inj hactor
      simp only [SharedTree.take] at hc ⊢
      split at hc
      · rename_i howned
        rw [if_pos howned]
        exact h _ c hc
      · rename_i howned
        rw [if_neg howned]
        obtain rfl := Option.some.inj (SortedMap.get?_insert_self.symm.trans hc)
        exact ⟨rfl, .of_empty rfl⟩
  | setOptions other options =>
      obtain rfl := Option.some.inj hactor
      obtain ⟨d, hd, hd'⟩ := of_context?_elim hc
      obtain rfl := Option.some.inj (SortedMap.get?_insert_self.symm.trans hd')
      simp only [SharedTree.take, hd, Option.elim_some]
      exact ⟨by simpa [Step.isStrict] using hstep, (h _ d hd).covered.mono rfl fun _ hq => hq⟩
  | perform other o =>
      obtain rfl := Option.some.inj hactor
      obtain ⟨d, hd, hd'⟩ := of_context?_elim hc
      obtain rfl := Option.some.inj (context?_perform.symm.trans hd')
      simp only [SharedTree.take, hd, Option.elim_some]
      exact (h _ d hd).perform hs.sound (hs.tidy hd) hstep
  | commit other =>
      obtain rfl := Option.some.inj hactor
      obtain ⟨d, hd, hd'⟩ := of_context?_elim hc
      obtain rfl := Option.some.inj (SortedMap.get?_insert_self.symm.trans hd')
      simp only [SharedTree.take, hd, Option.elim_some]
      exact Covered.commit (h _ d hd)
  | rollback other =>
      obtain rfl := Option.some.inj hactor
      obtain ⟨d, hd, hd'⟩ := of_context?_elim hc
      obtain rfl := Option.some.inj (SortedMap.get?_insert_self.symm.trans hd')
      exact ⟨(h _ d hd).skipLocking, .of_empty rfl⟩
  | purge => simp [Step.actor?] at hactor

/-- **Strict steps keep entries covered.** -/
theorem take (h : s.Covered) (hs : s.Sane) (hstep : step.isStrict = true) :
    (s.take step).Covered := by
  intro name c hc
  by_cases hactor : step.actor? = some name
  · exact h.actor hs hstep hactor hc
  · rw [context?_take_of_ne hactor] at hc
    refine ⟨(h name c hc).skipLocking, ?_⟩
    rw [lockParent_take s step]
    exact (h name c hc).covered

theorem run (h : s.Covered) (hs : s.Sane) (hsteps : ∀ step ∈ steps, step.isStrict = true) :
    (s.run steps).Covered := by
  induction steps generalizing s with
  | nil => exact h
  | cons step steps ih =>
      exact ih (h.take hs (hsteps step List.mem_cons_self)) (hs.take step) fun other hother =>
        hsteps other (List.mem_cons_of_mem _ hother)

end Covered

/-- Whether parents are locked never changes. -/
theorem lockParent_run (s : SharedTree) (steps : List Step) :
    (s.run steps).store.locks.lockParent = s.store.locks.lockParent := by
  induction steps generalizing s with
  | nil => rfl
  | cons step steps ih => exact (ih _).trans (lockParent_take s step)

/-- A path that a unit of work has noted is locked for it. -/
theorem Settled.owns (h : s.Settled) (hc : s.context? name = some c) (hp : c.holds p = true) :
    s.store.locks.table.owns p c.owner = true :=
  Lock.isHeldBy_iff.2 ((h.accounted hc).heldBy_pos hp)

/-- **Each node has one writer.**  After any run in which no step skips locking or moves a subtree
shallowly, an entry that changes, makes or removes a node is marked as locked, and its path is noted
by the unit of work.  So is the path of every entry that is marked, and, where parents are locked,
the parent of every node that is made or removed.  The lock of a noted path is held by the unit of
work that has noted it, and no two units of work have an entry that changes the same node. -/
theorem single_writer {config : Config} {hash : Path → UInt64}
    (hsteps : ∀ step ∈ steps, step.isStrict = true)
    (hrun : (ofConfig config hash).run steps = s) (hc : s.context? name = some c) :
    (∀ p e, c.entry? p = some e →
      (e.isDirty = true → e.locked = true ∧ c.holds p = true) ∧
      (e.locked = true → c.holds p = true) ∧
      (config.locking.lockParent = true → e.created = true ∨ e.removed = true →
        ∀ parent, p.parent? = some parent → c.holds parent = true)) ∧
    (∀ p, c.holds p = true → s.store.locks.table.owns p c.owner = true) ∧
    ∀ other d, s.context? other = some d → other ≠ name →
      ∀ p e f, c.entry? p = some e → d.entry? p = some f →
        ¬(e.isDirty = true ∧ f.isDirty = true) := by
  subst hrun
  have hcovered := (covered_ofConfig config hash).run (sane_ofConfig config hash) hsteps
  have hsettled := (settled_ofConfig config hash).run steps
  have hparents := lockParent_run (ofConfig config hash) steps
  refine ⟨fun p e he => ?_, fun p hp => hsettled.owns hc hp,
    fun other d hd hne p e f he hf ⟨hdirty, hdirty'⟩ => ?_⟩
  · have hcov := (hcovered name c hc).covered p e he
    refine ⟨fun hdirty => ⟨hcov.marked hdirty, hcov.held (hcov.marked hdirty)⟩, hcov.held,
      fun hlock hflag parent hparent => ?_⟩
    obtain ⟨m, hm⟩ := Path.parent?_eq_some.1 hparent
    exact (hcov.parent (hparents.trans hlock) hflag).2 parent m hm
  -- both would hold the lock of the path
  · have hcov := (hcovered name c hc).covered p e he
    have hcov' := (hcovered other d hd).covered p f hf
    have hfree := hsettled.disjoint hc hd hne (hcov.held (hcov.marked hdirty))
    rw [hcov'.held (hcov'.marked hdirty')] at hfree
    simp at hfree

/-- Reads are pinned, and parents are locked. -/
def writerConfig : Config := { locking := { lockParent := true } }

/-- One transaction moves `/r/a` below `/r/b`; another one reads there, fails to remove `/r`, and
writes `/c/d`. -/
def writerSteps : List Step :=
  [.start "s" ⟨"main", 0⟩ (some (1 : Nat)), .start "t" ⟨"main", 0⟩ (some (2 : Nat)),
    .perform "s" (.put ⟨["r", "a", "x"]⟩ "k" (.int 1)),
    .perform "s" (.put ⟨["r", "b"]⟩ "k" (.int 2)), .commit "s",
    .perform "t" (.moveNode ⟨["r", "a"]⟩ ⟨["r", "b"]⟩ true),
    .perform "s" (.get ⟨["r", "b", "a", "x"]⟩ "k"), .perform "s" (.removeNode ⟨["r"]⟩),
    .perform "s" (.put ⟨["c", "d"]⟩ "k" (.int 3))]

/-- The state after these steps. -/
def writerState : SharedTree := (ofConfig writerConfig).run writerSteps

/-- The unit of work of a name in that state. -/
def writer (name : String) : Context := (writerState.context? name).getD default

/-- The entry of a unit of work for the place where `/r/a/x` is moved to. -/
def movedEntry (name : String) : Entry :=
  (Context.entry? (writer name) ⟨["r", "b", "a", "x"]⟩).getD default

/-- The first one holds the lock of a node that it has moved and that of its parent, and the other
one, which has an entry for that node too, does not change it. -/
theorem moved_by_one_writer :
    (movedEntry "t").isDirty = true ∧ (movedEntry "t").locked = true ∧
      (writer "t").holds ⟨["r", "b", "a"]⟩ = true ∧
      writerState.store.locks.table.owns ⟨["r", "b", "a"]⟩ (writer "t").owner = true ∧
      (movedEntry "s").isDirty = false := by
  have hsteps : ∀ step ∈ writerSteps, step.isStrict = true := by decide
  have hc : writerState.context? "t" = some (writer "t") := by decide +kernel
  have hd : writerState.context? "s" = some (writer "s") := by decide +kernel
  have he : Context.entry? (writer "t") ⟨["r", "b", "a", "x"]⟩ = some (movedEntry "t") := by
    decide +kernel
  have hf : Context.entry? (writer "s") ⟨["r", "b", "a", "x"]⟩ = some (movedEntry "s") := by
    decide +kernel
  have hcreated : (movedEntry "t").created = true := by decide +kernel
  have hdirty : (movedEntry "t").isDirty = true := by simp [Entry.isDirty, hcreated]
  obtain ⟨hentries, howns, hapart⟩ := single_writer hsteps (Eq.refl writerState) hc
  obtain ⟨hlocked, -, hparent⟩ := hentries _ _ he
  have habove := hparent rfl (.inl hcreated) ⟨["r", "b", "a"]⟩ rfl
  have hone := hapart "s" _ hd (by decide) _ _ _ he hf
  exact ⟨hdirty, (hlocked hdirty).1, habove, howns _ habove, by simpa [hdirty] using hone⟩

end SharedTree

end TransactionalTree
