/-
**What a unit of work has locked.**

Suppose that parents are locked with the nodes that are inserted and removed, that subtrees are
locked as a whole when they are moved, and that locking is never skipped.  Then a unit of work has
locked every node of which it has an entry, the parent of every node that it makes or removes, and
every committed node that it hides from its view.

Main definitions:

* `Context.Touches` — which entries may come to a unit of work;
* `Guarded` — **what is made, removed or hidden is locked**;
* `Act.IsLocked` — the locks of a step are held.

Main results:

* `Guarded.of_differs` — where the view differs from the committed tree, the place and its parent
  are locked;
* `Guarded.stages` — steps whose locks are held keep what is guarded;
* `View.isLocked_toMake`, `View.isLocked_movingActs` — writes and moves ask for the locks of their
  steps.
-/

import TransactionalTree.Proofs.Undisturbed

set_option relaxedAutoImplicit false
set_option autoImplicit false

namespace TransactionalTree

variable {b : Base} {c c' c'' : Context} {w w' : Workspace} {p q source : Path} {e : Entry}
variable {acts : List Act} {a : Act} {ps qs : List Path}

/-! ### Which entries come -/

namespace Context

/-- Only the listed paths can have come to have an entry. -/
def Touches (c c' : Context) (ps : List Path) : Prop :=
  ∀ q, q ∉ ps → c.entry? q = none → c'.entry? q = none

namespace Touches

theorem refl (c : Context) (ps : List Path) : c.Touches c ps := fun _ _ h => h

theorem trans (h : c.Touches c' ps) (h' : c'.Touches c'' qs) : c.Touches c'' (ps ++ qs) := by
  intro q hq hnone
  rw [List.mem_append, not_or] at hq
  exact h' q hq.2 (h q hq.1 hnone)

end Touches

theorem touches_modifyEntry (c : Context) (p : Path) (f : Entry → Entry) :
    c.Touches (c.modifyEntry p f) [] := by
  intro q _ hnone
  have hnone : c.workspace.get? q = none := hnone
  rw [ entry?, modifyEntry, SortedMap.get?_modify, hnone]
  split <;> rfl

theorem touches_materialize (b : Base) (c : Context) (p : Path) :
    c.Touches (b.materialize c p).1 [p] := by
  intro q hq hnone
  rw [entry?_materialize_of_ne fun hqp => hq (List.mem_singleton.2 hqp)]
  exact hnone

theorem touches_create (c : Context) (p : Path) : c.Touches (c.create p) [p] := by
  intro q hq hnone
  rw [entry?_create_of_ne fun hqp => hq (List.mem_singleton.2 hqp)]
  exact hnone

theorem touches_chain (ps : List Path) (c : Context) : c.Touches (ps.foldl create c) ps := by
  induction ps generalizing c with
  | nil => exact .refl c []
  | cons p ps ih => exact (touches_create c p).trans (ih _)

theorem touches_createAll (nodes : List (Path × Data)) (c : Context) :
    c.Touches (c.createAll nodes) (nodes.map (·.1)) := by
  induction nodes generalizing c with
  | nil => exact .refl c []
  | cons n nodes ih =>
      exact ((touches_create c n.1).trans (touches_modifyEntry _ n.1 _)).trans (ih _)

theorem touches_stageRemoval (b : Base) (c : Context) (p : Path) :
    c.Touches (b.stageRemoval c p).1 [p] := by
  have hm := touches_materialize b c p
  simp only [Base.stageRemoval]
  generalize b.materialize c p = r at hm
  obtain ⟨c', found⟩ := r
  cases found with
  | false => exact hm
  | true =>
      intro q hq hnone
      have hnone' : c'.workspace.get? q = none := hm q hq hnone
      refine (Workspace.get?_remove (w := c'.workspace)).trans ?_
      rw [hnone']
      simp

theorem touches_stageWrite {create ready : Bool}
    (hroot : (b.view c).exists? Path.root = true)
    (hs : b.stageWrite c p create = .ok (c', ready)) :
    c.Touches c' ((b.view c).toMake p create ++ [p]) := by
  simp only [Base.stageWrite, View.missingChain_eq hroot] at hs
  split at hs
  · simp at hs
  · obtain rfl := congrArg Prod.fst (Except.ok.inj hs)
    exact (touches_chain _ c).trans (touches_materialize b _ p)

theorem touches_stageMove {target : Path} (hs : b.stageMove c source target = .ok c') :
    c.Touches c' ([target] ++ ((b.view c).relocated source target).map (·.1) ++ [source]) := by
  simp only [Base.stageMove] at hs
  split at hs
  · simp at hs
  · obtain rfl := Except.ok.inj hs
    have hfirst : c.Touches
        (if (b.view c).exists? target then (b.stageRemoval c target).1 else c) [target] := by
      split
      · exact touches_stageRemoval b c target
      · exact .refl c _
    exact (hfirst.trans (touches_createAll _ _)).trans (touches_stageRemoval b _ source)

/-- The path is locked, and its parent if it has one. -/
def HoldsWithParent (c : Context) (p : Path) : Prop :=
  c.holds p = true ∧ ∀ r name, p = r.push name → c.holds r = true

end Context

/-! ### What is guarded -/

/-- **What the workspace makes, removes or hides is locked** by the unit of work. -/
structure Guarded (b : Base) (c : Context) (w : Workspace) : Prop where
  /-- The place of a node that is made or removed is locked, with its parent. -/
  changed : ∀ {p : Path} {e : Entry}, w.get? p = some e → e.created = true ∨ e.removed = true →
    c.HoldsWithParent p
  /-- A node that has to go is locked, with all committed nodes below it. -/
  cleared : ∀ {p q : Path} {e : Entry}, w.get? p = some e → e.replacesBase = true →
    q.isAtOrBelow p = true → b.tree.exists? q = true → c.holds q = true

namespace Guarded

theorem empty : Guarded b c .empty where
  changed he := by simp at he
  cleared he := by simp at he

/-- What is guarded stays so when locks come. -/
theorem mono (h : Guarded b c w) (hc : ∀ q, c.holds q = true → c'.holds q = true) :
    Guarded b c' w where
  changed he hflag :=
    ⟨hc _ (h.changed he hflag).1, fun r name hr => hc r ((h.changed he hflag).2 r name hr)⟩
  cleared he hb hq hex := hc _ (h.cleared he hb hq hex)

/-- What is below a node that is replaced is locked, with its parent, if it is committed. -/
theorem of_replacedAbove (h : Guarded b c w) (hs : b.tree.Sound) {g : Entry}
    (hg : w.get? p = some g) (hb : g.replacesBase = true) (hpq : p.isAbove q = true)
    (hex : b.tree.exists? q = true) : c.HoldsWithParent q := by
  refine ⟨h.cleared hg hb (Path.isAtOrBelow_of_isAbove hpq) hex, fun r name hr => ?_⟩
  subst hr
  exact h.cleared hg hb (Path.isAbove_push.1 hpq)
    (hs.exists?_iff.2 (hs.parent (hs.exists?_iff.1 hex)))

/-- **What is committed but hidden is locked**, with its parent. -/
theorem of_hidden (h : Guarded b c w) (hf : Faithful b w) (hex : b.tree.exists? q = true)
    (hnot : (View.mk b w).exists? q = false) : c.HoldsWithParent q := by
  obtain ⟨n, hn⟩ := CommittedTree.exists?_iff_peek?.1 hex
  -- where nothing was observed, what is committed lies below a node that is replaced
  have hunseen : ∀ {r : Path} {g : Entry}, q.isAtOrBelow r = true → w.get? r = some g →
      g.readVersion = none → c.HoldsWithParent q := by
    intro r g hr hg hv
    rcases hf.unseen hg hv with hnone | ⟨t, f, ht, hf', -, hb⟩
    · rw [hf.sound.peek?_none_of_isAtOrBelow hr hnone] at hn
      simp at hn
    · exact h.of_replacedAbove hf.sound hf' hb (Path.isAbove_trans_isAtOrBelow ht hr) hex
  -- an entry above that is made or not there hides the node
  have habove : ∀ {r : Path} {g : Entry}, r.isAbove q = true → w.get? r = some g →
      g.created = true ∨ g.isPresent = false → c.HoldsWithParent q := by
    intro r g hr hg hflag
    by_cases hb : g.replacesBase = true
    · exact h.of_replacedAbove hf.sound hg hb hr hex
    · refine hunseen (Path.isAtOrBelow_of_isAbove hr) hg ?_
      cases hv : g.readVersion with
      | none => rfl
      | some v =>
          refine absurd ((hf.tidy.consistent hg).replacesBase_iff.2 ⟨by simp [hv], ?_⟩) hb
          refine hflag.imp_right fun hp => ?_
          simpa [Entry.isPresent, hv] using hp
  by_cases hcut : (View.mk b w).isCutOff q = true
  · obtain ⟨r, g, hr, hg, hp⟩ := View.isCutOff_iff.1 hcut
    exact habove hr hg (.inr hp)
  · cases he : w.get? q with
    | some e =>
        have hp : e.isPresent = false := by
          rw [← Bool.not_eq_true]
          intro hp
          rw [hf.exists?_of_present he hp] at hnot
          simp at hnot
        by_cases hr : e.removed = true
        · exact h.changed he (.inr hr)
        · refine hunseen (Path.isAtOrBelow_self q) he ?_
          cases hv : e.readVersion with
          | none => rfl
          | some v => simp [Entry.isPresent, hr, hv] at hp
    | none =>
        by_cases hsh : (View.mk b w).isShadowed q = true
        · obtain ⟨r, g, hr, hg, hc⟩ := View.isShadowed_iff.1 hsh
          exact habove hr hg (.inl hc)
        · have hl : (View.mk b w).locate q = .committed n :=
            View.locate_eq_committed.2 ⟨hcut, he, hsh, hn⟩
          rw [View.exists?, hl] at hnot
          simp [Location.isPresent] at hnot

/-- What is there but not committed is locked, with its parent. -/
theorem of_made (h : Guarded b c w) (hf : Faithful b w) (hex : (View.mk b w).exists? q = true)
    (hnot : b.tree.exists? q = false) : c.HoldsWithParent q := by
  rcases View.exists?_iff.1 hex with ⟨e, hl⟩ | ⟨n, hl⟩
  · obtain ⟨-, he, hp⟩ := View.locate_eq_staged.1 hl
    refine h.changed he (.inl ?_)
    by_contra hc
    obtain ⟨n, hn, -⟩ := hf.copied he hp (by simpa using hc)
    rw [CommittedTree.exists?_iff_peek?.2 ⟨n, hn⟩] at hnot
    simp at hnot
  · have hn := (View.locate_eq_committed.1 hl).2.2.2
    rw [CommittedTree.exists?_iff_peek?.2 ⟨n, hn⟩] at hnot
    simp at hnot

/-- **Where the view differs from the committed tree**, the place and its parent are locked. -/
theorem of_differs (h : Guarded b c w) (hf : Faithful b w)
    (hne : (View.mk b w).exists? q ≠ b.tree.exists? q) : c.HoldsWithParent q := by
  cases hex : b.tree.exists? q with
  | true => exact h.of_hidden hf hex (by simpa [hex] using hne)
  | false => exact h.of_made hf (by simpa [hex] using hne) hex

/-! ### Steps whose locks are held -/

/-- An entry that is set is guarded if its place is, when it makes or removes a node, and all that
is committed below, when it takes one away. -/
theorem insert (h : Guarded b c w)
    (hchanged : e.created = true ∨ e.removed = true → c.HoldsWithParent p)
    (hcleared : e.replacesBase = true → ∀ q, q.isAtOrBelow p = true →
      b.tree.exists? q = true → c.holds q = true) : Guarded b c (w.insert p e) where
  changed {q f} hf hflag := by
    rw [SortedMap.get?_insert] at hf
    split at hf
    · rename_i hqp
      obtain rfl := Option.some.inj hf
      rw [hqp]
      exact hchanged hflag
    · exact h.changed hf hflag
  cleared {q r f} hf hb hr hex := by
    rw [SortedMap.get?_insert] at hf
    split at hf
    · rename_i hqp
      obtain rfl := Option.some.inj hf
      exact hcleared hb r (hqp ▸ hr) hex
    · exact h.cleared hf hb hr hex

/-- An entry with the same flags is guarded. -/
theorem insert_same {f : Entry} (h : Guarded b c w) (he : w.get? p = some e)
    (hc : f.created = e.created) (hr : f.removed = e.removed)
    (hb : f.replacesBase = e.replacesBase) : Guarded b c (w.insert p f) := by
  refine h.insert (fun hflag => ?_) fun hrep q hq hex => ?_
  · rw [hc, hr] at hflag
    exact h.changed he hflag
  · rw [hb] at hrep
    exact h.cleared he hrep hq hex

/-- A note needs no locks. -/
theorem note (h : Guarded b c w) (hs : Note b w w') : Guarded b c w' := by
  cases hs with
  | copy hl =>
      exact h.insert (fun hflag => by simp [Base.copy, Entry.ofSnapshot] at hflag)
        fun hb => by simp [Base.copy, Entry.ofSnapshot] at hb
  | mark hl =>
      exact h.insert (fun hflag => by simp [Entry.absent] at hflag)
        fun hb => by simp [Entry.absent] at hb
  | lock p =>
      cases he : w.get? p with
      | none =>
          rw [SortedMap.modify_of_none he]
          exact h
      | some e =>
          rw [SortedMap.modify_of_some he]
          exact h.insert_same he rfl rfl rfl

/-- Making a node where there was none, with its lock and that of its parent. -/
theorem create {name : String} (h : Guarded b c w) (hf : Faithful b w)
    (hex : (View.mk b w).exists? p = true) (hnew : (View.mk b w).exists? (p.push name) = false)
    (hlock : c.HoldsWithParent (p.push name)) : Guarded b c
      (w.insert (p.push name) ((w.get? (p.push name)).elim .fresh .recreate)) := by
  refine h.insert (fun _ => hlock) fun hb q hq hcom => ?_
  cases he : w.get? (p.push name) with
  | none =>
      rw [he] at hb
      simp [Entry.fresh, Entry.recreate, Entry.absent] at hb
  | some e =>
      rw [he] at hb
      -- a node that was observed and is not there is removed, and what is below it is guarded
      obtain ⟨hread, hremoved⟩ := hf.tidy.removed_of_recreate he hex hnew hb
      exact h.cleared he ((hf.tidy.consistent he).replacesBase_iff.2 ⟨hread, .inr hremoved⟩) hq hcom

/-- Removing a node, with the lock of its parent and those of all that is seen below it. -/
theorem remove (h : Guarded b c w) (hf : Faithful b w) (hl : (View.mk b w).locate p = .staged e)
    (hparent : ∀ r name, p = r.push name → c.holds r = true)
    (hseen : ∀ q, q.isAtOrBelow p = true → (View.mk b w).exists? q = true → c.holds q = true) :
    Guarded b c ((w.dropBelow p).modify p .markRemoved) := by
  have hself : c.holds p = true :=
    hseen p (Path.isAtOrBelow_self p) (View.exists?_iff.2 (.inl ⟨e, hl⟩))
  constructor
  · intro q f hq hflag
    obtain ⟨-, g, hg, ⟨rfl, -⟩ | ⟨-, rfl⟩⟩ := Workspace.of_get?_remove hq
    · exact ⟨hself, hparent⟩
    · exact h.changed hg hflag
  · intro q r f hq hb hr hex
    obtain ⟨-, g, hg, ⟨rfl, -⟩ | ⟨-, rfl⟩⟩ := Workspace.of_get?_remove hq
    · cases hsee : (View.mk b w).exists? r with
      | true => exact hseen r hr hsee
      | false => exact (h.of_hidden hf hex hsee).1
    · exact h.cleared hg hb hr hex

end Guarded

/-- **The locks of the step are held**, for a unit of work with this view. -/
def Act.IsLocked (v : View) (c : Context) : Act → Prop
  | create p => c.HoldsWithParent p
  | write _ _ => True
  | remove p => (∀ r name, p = r.push name → c.holds r = true) ∧
      ∀ q, q.isAtOrBelow p = true → v.exists? q = true → c.holds q = true

namespace Guarded

/-- What is seen beyond what was seen at first is locked. -/
def Within (b : Base) (c : Context) (w w' : Workspace) : Prop :=
  ∀ q, (View.mk b w').exists? q = true → (View.mk b w).exists? q = true ∨ c.holds q = true

/-- A step whose locks are held keeps what is guarded. -/
theorem stage {w₀ : Workspace} (h : Guarded b c w) (hf : Faithful b w) (hin : Within b c w₀ w)
    (hs : Stage b a w w') (hlock : a.IsLocked (View.mk b w₀) c)
    (hnew : ∀ p, a = .create p → (View.mk b w).exists? p = false) :
    Guarded b c w' ∧ Within b c w₀ w' := by
  cases hs with
  | @create _ p name hex =>
      refine ⟨h.create hf hex (hnew _ rfl) hlock, fun q hq => ?_⟩
      rw [View.exists?_iff_data?, hf.data?_create hex (hnew _ rfl)] at hq
      split at hq
      · rename_i hqp
        rw [hqp]
        exact .inr hlock.1
      · exact hin q (View.exists?_iff_data?.2 hq)
  | @write _ p e e' hl he =>
      refine ⟨h.insert_same (View.locate_eq_staged.1 hl).2.1 he.created he.removed he.replacesBase,
        fun q hq => hin q ?_⟩
      rw [View.exists?_iff_data?, View.data?_write hl he] at hq
      split at hq
      · rename_i hqp
        rw [hqp]
        exact View.exists?_iff.2 (.inl ⟨e, hl⟩)
      · exact View.exists?_iff_data?.2 hq
  | @remove _ p e hp hl =>
      refine ⟨h.remove hf hl hlock.1 fun q hq hex => ?_, fun q hq => hin q ?_⟩
      · exact (hin q hex).elim (hlock.2 q hq) id
      · rw [View.exists?_iff_data?, View.data?_remove hl] at hq
        split at hq
        · simp at hq
        · exact View.exists?_iff_data?.2 hq

/-- **Steps whose locks are held keep what is guarded**, if they make nodes only where there are
none. -/
theorem stages (h : Guarded b c w) (hf : Faithful b w) (hs : Stages b w acts w')
    (hfits : (View.mk b w).plain.Fits acts)
    (hlocks : ∀ a ∈ acts, a.IsLocked (View.mk b w) c) : Guarded b c w' := by
  refine (hf.shows.stages_keep (P := fun u => Guarded b c u ∧ Within b c w u) hs hfits
    ⟨h, fun _ hq => .inl hq⟩ (fun hf ⟨h, hin⟩ hn => ⟨h.note hn, fun q hq => hin q ?_⟩)
    fun ha hf ⟨h, hin⟩ hs hnew => h.stage hf hin hs (hlocks _ ha) hnew).1
  rw [View.exists?_iff_data?] at hq ⊢
  rwa [← hf.data?_note hn q]

end Guarded

/-! ### The locks that operations ask for -/

namespace View

variable {v : View} {m : LockManager} {name : String} {r target : Path}

theorem mem_parentLock (hm : m.lockParent = true) : r ∈ m.parentLock (r.push name) := by
  rw [LockManager.parentLock, if_pos hm]
  simp [Path.parent?_eq_some.2 ⟨name, rfl⟩]

/-- Of the nodes that a write makes, each but the first has its parent among them. -/
theorem parent_mem_dropWhile_steps (hq : r.push name ∈ p.steps.dropWhile v.exists?) :
    r ∈ p.steps.dropWhile v.exists? ∨
      (p.steps.dropWhile v.exists?).head? = some (r.push name) := by
  induction p using Path.rootOrPush with
  | root => simp [Path.steps_root] at hq
  | push p n ih =>
      rw [dropWhile_steps_push] at hq ⊢
      split at hq
      · rename_i hnil
        rw [if_pos hnil]
        split at hq
        · simp at hq
        · rename_i hex
          rw [if_neg hex, List.mem_singleton.1 hq]
          exact .inr rfl
      · rename_i hne
        rw [if_neg hne]
        rcases List.mem_append.1 hq with hq | hq
        · refine (ih hq).imp (fun hr => List.mem_append_left _ hr) fun hhead => ?_
          rw [List.head?_append_of_ne_nil _ hne]
          exact hhead
        -- the last one is made below the one before it
        · obtain ⟨rfl, -⟩ := Path.push_inj.1 (List.mem_singleton.1 hq)
          obtain ⟨t, ht⟩ := List.exists_mem_of_ne_nil _ hne
          obtain ⟨hrt, x, hx, htx, hmiss⟩ := mem_dropWhile_steps.1 ht
          exact .inl (List.mem_append_left _ (mem_dropWhile_steps.2
            ⟨Path.isAtOrBelow_self _, x, hx, Path.isAtOrBelow_trans hrt htx, hmiss⟩))

variable (hroot : v.exists? Path.root = true)
include hroot

/-- **A write asks for the locks of the nodes that it makes**, and of their parents. -/
theorem isLocked_toMake {create : Bool} (hm : m.lockParent = true)
    (hheld : ∀ q ∈ v.writeLocks m p create, c.holds q = true) (hq : q ∈ v.toMake p create) :
    c.HoldsWithParent q := by
  have hmade : ∀ t ∈ v.toMake p create, c.holds t = true := fun t ht =>
    hheld t (mem_writeLocks_of_mem hroot (List.mem_append_left _ ht))
  refine ⟨hmade q hq, fun r name hr => ?_⟩
  subst hr
  cases create with
  | false => simp [toMake] at hq
  | true =>
      rcases parent_mem_dropWhile_steps hq with hr | hhead
      · exact hmade r hr
      · obtain ⟨rest, hrest⟩ := List.head?_eq_some_iff.1 hhead
        refine hheld r ?_
        rw [writeLocks, if_pos rfl, missingChain_eq hroot, hrest]
        exact List.mem_append_left _ (mem_parentLock hm)

end View

/-- **A removal asks for the locks of its step.** -/
theorem View.isLocked_remove (hf : Faithful b w) {m : LockManager} (hm : m.lockParent = true)
    (hheld : ∀ q ∈ (View.mk b w).removalLocks m p, c.holds q = true) :
    (Act.remove p).IsLocked (View.mk b w) c := by
  refine ⟨fun r name hr => hheld r (List.mem_append_left _ (hr ▸ mem_parentLock hm)),
    fun q hq hex => hheld q (List.mem_append_right _ ?_)⟩
  rcases Path.isAtOrBelow_iff.1 hq with rfl | hpq
  · exact List.mem_cons_self
  · exact List.mem_cons_of_mem _ (hf.mem_descendants.2 ⟨hpq, hex⟩)

/-- Of paths that come each after its parent, each has its parent among them or known before. -/
theorem Path.Rooted.exists_parent {known : List Path} (h : Path.Rooted known ps) (hp : p ∈ ps) :
    ∃ r name, p = r.push name ∧ (r ∈ known ∨ r ∈ ps) := by
  obtain ⟨before, after, rfl⟩ := List.append_of_mem hp
  obtain ⟨r, name, hr, hmem⟩ := h.parent_before
  exact ⟨r, name, hr, hmem.imp_right (List.mem_append_left _)⟩

namespace View

variable {parent : Path} {name : String}

/-- A deep move locks the places of all that it makes. -/
theorem mem_moveLocks_of_mem {v : View} {target : Path} (hs : v.exists? source = true)
    (hq : q ∈ (v.relocated source target).map (·.1)) : q ∈ v.moveLocks source target true := by
  rw [map_relocated hs] at hq
  simp only [moveLocks, if_pos]
  rcases List.mem_cons.1 hq with rfl | hq
  · simp
  · simp [List.mem_filterMap.1 hq]

/-- A deep move asks for the locks of the nodes that it makes, and of their parents. -/
theorem isLocked_relocated {v : View} (hs : v.exists? source = true)
    (hparent : c.holds parent = true)
    (hheld : ∀ q ∈ v.moveLocks source (parent.push name) true, c.holds q = true)
    (hq : q ∈ (v.relocated source (parent.push name)).map (·.1)) : c.HoldsWithParent q := by
  refine ⟨hheld q (mem_moveLocks_of_mem hs hq), fun r m hr => ?_⟩
  obtain ⟨r', m', hr', hknown⟩ := (rooted_relocated parent name hs).exists_parent hq
  obtain ⟨rfl, -⟩ := Path.push_inj.1 (hr.symm.trans hr')
  rcases hknown with hknown | hknown
  · rw [List.mem_singleton.1 hknown]
    exact hparent
  · exact hheld _ (mem_moveLocks_of_mem hs hknown)

/-- **A deep move asks for the locks of its steps.** -/
theorem isLocked_movingActs (hf : Faithful b w) (hs : (View.mk b w).exists? source = true)
    (habove : ∀ r n, source = r.push n → c.holds r = true) (hsource : c.holds source = true)
    (hparent : c.holds parent = true)
    (hheld : ∀ q ∈ (View.mk b w).moveLocks source (parent.push name) true, c.holds q = true) :
    ∀ a ∈ Context.movingActs (View.mk b w) source (parent.push name),
      a.IsLocked (View.mk b w) c := by
  intro a ha
  simp only [Context.movingActs, List.mem_append, List.mem_singleton] at ha
  rcases ha with ha | ha | rfl
  -- what is at the target is removed below the new parent
  · split at ha
    · rename_i hex
      obtain rfl := List.mem_singleton.1 ha
      refine ⟨fun r n hr => (Path.push_inj.1 hr).1 ▸ hparent, fun q hq hseen => hheld q ?_⟩
      simp only [moveLocks, if_pos hex, if_pos]
      rcases Path.isAtOrBelow_iff.1 hq with rfl | hpq
      · simp
      · simp [hf.mem_descendants.2 ⟨hpq, hseen⟩]
    · simp at ha
  -- each node is made below the new parent or below one that is made before
  · obtain ⟨n, hn, ha⟩ := List.mem_flatMap.1 ha
    simp only [List.mem_cons, List.not_mem_nil, or_false] at ha
    rcases ha with rfl | rfl
    · exact isLocked_relocated hs hparent hheld (List.mem_map_of_mem hn)
    · trivial
  · refine ⟨habove, fun q hq hseen => ?_⟩
    rcases Path.isAtOrBelow_iff.1 hq with rfl | hpq
    · exact hsource
    · refine hheld q ?_
      simp [moveLocks, hf.mem_descendants.2 ⟨hpq, hseen⟩]

end View

end TransactionalTree
