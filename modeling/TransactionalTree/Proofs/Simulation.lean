/-
**Workspaces that show a plain tree.**

While nobody else commits, a unit of work sees a plain tree, and each of its operations makes of the
plain tree what the operation means.  An operation is a sequence of steps of the workspace, and each
step that changes what is seen changes the plain tree directly.

Main definitions:

* `Act.onTree`, `PlainTree.apply` — what steps make of a plain tree;
* `PlainTree.Fits` — steps that make nodes only where there are none;
* `Shows` — **a workspace that shows a plain tree**.

Main results:

* `Shows.stages` — steps that fit make of the workspace what they make of the plain tree;
* `Shows.perform` — **an operation does, and answers, what it means**.
-/

import TransactionalTree.Proofs.Faithful
import TransactionalTree.Proofs.PlainTree

set_option relaxedAutoImplicit false
set_option autoImplicit false

namespace TransactionalTree

/-! ### Steps of a plain tree -/

/-- What a step makes of a plain tree. -/
def Act.onTree (m : PlainTree) : Act → PlainTree
  | create p => m.insert p .empty
  | write p d => m.insert p d
  | remove p => m.without p

namespace PlainTree

/-- What steps make of a plain tree, one after the other. -/
def apply (m : PlainTree) (acts : List Act) : PlainTree := acts.foldl Act.onTree m

/-- Nodes are made only where there are none. -/
def Fits (m : PlainTree) : List Act → Prop
  | [] => True
  | a :: acts => (∀ p, a = .create p → m.get? p = none) ∧ Fits (Act.onTree m a) acts

variable {m : PlainTree} {p q source target : Path} {acts acts' : List Act} {a : Act}

@[simp] theorem apply_nil (m : PlainTree) : m.apply [] = m := rfl

@[simp] theorem apply_cons (m : PlainTree) (a : Act) (acts : List Act) :
    m.apply (a :: acts) = (Act.onTree m a).apply acts := rfl

theorem apply_append (m : PlainTree) (acts acts' : List Act) :
    m.apply (acts ++ acts') = (m.apply acts).apply acts' :=
  List.foldl_append

theorem fits_append : m.Fits (acts ++ acts') ↔ m.Fits acts ∧ (m.apply acts).Fits acts' := by
  induction acts generalizing m with
  | nil => simp [Fits]
  | cons a acts ih =>
      rw [List.cons_append, Fits, Fits, ih, apply_cons, and_assoc]

/-- Steps that make no nodes fit. -/
theorem fits_of_no_create (h : ∀ p, Act.create p ∉ acts) : m.Fits acts := by
  induction acts generalizing m with
  | nil => trivial
  | cons a acts ih =>
      refine ⟨fun p hp => absurd List.mem_cons_self (hp ▸ h p), ih fun p hp => ?_⟩
      exact h p (List.mem_cons_of_mem _ hp)

/-- Making nodes at the listed places. -/
theorem get?_apply_create (ps : List Path) :
    (m.apply (ps.map .create)).get? q = if q ∈ ps then some .empty else m.get? q := by
  induction ps generalizing m with
  | nil => simp
  | cons p ps ih =>
      rw [List.map_cons, apply_cons, ih, Act.onTree, SortedMap.get?_insert]
      by_cases hq : q ∈ ps
      · simp [hq]
      · by_cases hp : q = p
        · simp [hp]
        · simp [hq, hp]

theorem fits_create {ps : List Path} (hps : ps.Nodup) (hnew : ∀ p ∈ ps, m.get? p = none) :
    m.Fits (ps.map .create) := by
  induction ps generalizing m with
  | nil => trivial
  | cons p ps ih =>
      obtain ⟨hp, hps⟩ := List.nodup_cons.1 hps
      refine ⟨fun q hq => ?_, ih hps fun q hq => ?_⟩
      · obtain rfl := Act.create.inj hq
        exact hnew _ List.mem_cons_self
      · rw [Act.onTree, SortedMap.get?_insert_of_ne]
        · exact hnew q (List.mem_cons_of_mem _ hq)
        · rintro rfl
          exact hp hq

/-- Making nodes with their data. -/
theorem apply_actsOf (nodes : List (Path × Data)) :
    m.apply (Context.actsOf nodes) = m.insertAll nodes := by
  induction nodes generalizing m with
  | nil => rfl
  | cons n nodes ih =>
      have hstep : m.apply (Context.actsOf (n :: nodes)) =
          PlainTree.apply ((m.insert n.1 .empty).insert n.1 n.2) (Context.actsOf nodes) := rfl
      rw [hstep, ih, SortedMap.insert_insert]
      rfl

theorem fits_actsOf {nodes : List (Path × Data)} (hnd : (nodes.map (·.1)).Nodup)
    (hnew : ∀ n ∈ nodes, m.get? n.1 = none) : m.Fits (Context.actsOf nodes) := by
  induction nodes generalizing m with
  | nil => trivial
  | cons n nodes ih =>
      obtain ⟨hn, hnd⟩ := List.nodup_cons.1 hnd
      have hrest : Fits ((m.insert n.1 .empty).insert n.1 n.2) (Context.actsOf nodes) := by
        rw [SortedMap.insert_insert]
        refine ih hnd fun n' hn' => ?_
        rw [SortedMap.get?_insert_of_ne]
        · exact hnew n' (List.mem_cons_of_mem _ hn')
        · intro he
          exact hn (List.mem_map.2 ⟨n', hn', he⟩)
      refine ⟨fun q hq => ?_, fun q hq => by simp at hq, hrest⟩
      obtain rfl := Act.create.inj hq
      exact hnew n List.mem_cons_self

end PlainTree

/-! ### Workspaces that show a plain tree -/

/-- **The workspace shows the plain tree**, over a committed tree that does not change. -/
structure Shows (b : Base) (w : Workspace) (m : PlainTree) : Prop where
  /-- The tree has not changed. -/
  faithful : Faithful b w
  /-- The data that are seen are those of the plain tree. -/
  data : ∀ p, (View.mk b w).data? p = m.get? p

namespace Shows

variable {b : Base} {w w' : Workspace} {m : PlainTree} {p q : Path} {acts : List Act}

/-- A unit of work that has done nothing sees the committed tree. -/
theorem empty (hb : b.tree.Sound) : Shows b .empty (.ofTree b.tree) where
  faithful := .empty hb
  data p := by
    have hc : (View.mk b .empty).isCutOff p = false := by
      rw [← Bool.not_eq_true, View.isCutOff_iff]
      rintro ⟨q, e, -, he, -⟩
      simp at he
    have hs : (View.mk b .empty).isShadowed p = false := by
      rw [← Bool.not_eq_true, View.isShadowed_iff]
      rintro ⟨q, e, -, he, -⟩
      simp at he
    rw [PlainTree.get?_ofTree hb, CommittedTree.data?, View.data?, View.locate, hc, hs]
    simp only [Bool.false_eq_true, if_false, SortedMap.get?_empty]
    cases b.tree.peek? p <;> rfl

section Seen

variable (h : Shows b w m)
include h

theorem exists?_eq (p : Path) : (View.mk b w).exists? p = m.contains p := by
  rw [← View.isSome_data?, h.data]
  rfl

theorem exists?_eq_false : (View.mk b w).exists? p = false ↔ m.get? p = none := by
  rw [← View.data?_eq_none, h.data]

/-- The root is there, and above a node there are nodes. -/
theorem closed : m.Closed where
  root := (h.exists?_eq _).symm.trans (h.faithful.tidy.exists?_root h.faithful.sound)
  parent {p name} hex := by
    rw [← h.exists?_eq] at hex ⊢
    exact h.faithful.exists?_parent hex

/-- The names of children are those of the plain tree. -/
theorem childNames (p : Path) :
    (View.mk b w).childNames p = (m.get? p).map fun _ => m.childNames p := by
  by_cases hex : (View.mk b w).exists? p = true
  · obtain ⟨names, hnames, hhas⟩ := h.faithful.has_childNames hex
    obtain ⟨d, hd⟩ := View.exists?_iff_data?.1 hex
    rw [hnames, ← h.data, hd]
    refine congrArg some (SortedSet.ext_has fun name => ?_)
    rw [hhas, PlainTree.has_childNames, h.exists?_eq]
  · have hnone : (View.mk b w).childNames p = none := by
      rw [← Option.not_isSome_iff_eq_none, View.childNames_isSome]
      exact hex
    rw [hnone, h.exists?_eq_false.1 (by simpa using hex)]
    rfl

end Seen

/-- **Steps that fit make of the workspace what they make of the plain tree.** -/
theorem stages (h : Shows b w m) (hs : Stages b w acts w') (hf : m.Fits acts) :
    Shows b w' (m.apply acts) := by
  -- only what the workspace shows is compared, so a read that is noted changes nothing
  induction hs with
  | refl => exact h
  | note _ hs ih =>
      have hbefore := ih hf
      exact ⟨hbefore.faithful.note hs, fun p =>
        (hbefore.faithful.data?_note hs p).trans (hbefore.data p)⟩
  | @act acts a u u' _ hs ih =>
      obtain ⟨hfits, hlast⟩ := PlainTree.fits_append.1 hf
      have hbefore := ih hfits
      have hnew : ∀ p, a = .create p → (View.mk b u).exists? p = false := fun p hp =>
        hbefore.exists?_eq_false.2 (hlast.1 p hp)
      refine ⟨hbefore.faithful.stage hs hnew, fun q => ?_⟩
      rw [PlainTree.apply_append, PlainTree.apply_cons, PlainTree.apply_nil]
      cases hs with
      | create name hp =>
          rw [hbefore.faithful.data?_create hp (hnew _ rfl), Act.onTree, SortedMap.get?_insert,
            hbefore.data]
      | write hl he =>
          rw [View.data?_write hl he, Act.onTree, SortedMap.get?_insert, hbefore.data]
      | remove hp hl =>
          rw [View.data?_remove hl, Act.onTree, PlainTree.get?_without, hbefore.data]

/-- Dropping tombstones changes nothing of what is seen. -/
theorem purge (h : Shows b w m) : Shows { b with tree := b.tree.purge.1 } w m where
  faithful := h.faithful.purge
  data p := by
    rw [View.data?, h.faithful.locate_purge]
    exact h.data p

/-! ### Operations -/

/-- The unit of work shows what the plain tree is afterwards, and answers the same. -/
def Follows (b : Base) (r : Work × Except TreeError Answer)
    (r' : PlainTree × Except TreeError Answer) : Prop :=
  Shows b r.1.context.workspace r'.1 ∧ r.2 = r'.2

variable {u u' : Work} {o : Operation} {source parent target : Path}

theorem relocked (h : Shows b u.context.workspace m) (hrel : u.Relocked u') :
    Shows b u'.context.workspace m := by
  rw [hrel.workspace]
  exact h

theorem staged (h : Shows b u.context.workspace m) (hst : Work.Staged b u acts u')
    (hf : m.Fits acts) : Shows b u'.context.workspace (m.apply acts) :=
  h.stages hst.stages hf

/-- **A read answers from the plain tree**, and leaves it. -/
theorem reading {α : Type} {make : α → Answer} {answer : View → Location → α}
    (h : Shows b u.context.workspace m) (ho : o.readPath? = some p)
    (hread : ∀ v : View, make (answer v (v.locate p)) = o.read (v.data? p) (v.childNames p))
    (ht : u.Untroubled (b.reading u p answer).1) :
    Follows b (answering make (b.reading u p answer)) (m.perform o) := by
  have hr := Base.reading_outcome b u p
  rw [PlainTree.perform_read ho]
  simp only [Base.reading] at ht ⊢
  generalize b.prepareRead u p = r at hr ht ⊢
  cases hr with
  | timedOut _ hlt hcase =>
      rcases hcase with rfl | ⟨e, rfl⟩
      · exact absurd ht (Nat.ne_of_gt hlt)
      · exact absurd ht (Nat.ne_of_gt hlt)
  | @found u' hst _ _ =>
      have h' : Shows b u'.context.workspace m := h.staged hst trivial
      refine ⟨h', ?_⟩
      have hdata : (b.view u'.context).data? p = m.get? p := h'.data p
      have hnames : (b.view u'.context).childNames p = (m.get? p).map fun _ => m.childNames p :=
        h'.childNames p
      simp only [answering, Except.map, hread, hdata, hnames]

/-- What a write makes are the missing nodes on the way. -/
theorem mem_toMake (h : Shows b w m) :
    q ∈ (View.mk b w).toMake p true ↔ q ∈ p.steps ∧ m.get? q = none := by
  rw [View.toMake, if_pos rfl, View.mem_dropWhile_steps, Path.mem_steps, ← h.exists?_eq_false]
  constructor
  · rintro ⟨hpq, r, hr, hqr, hex⟩
    refine ⟨⟨hpq, ?_⟩, ?_⟩
    · rintro rfl
      rcases Path.isAtOrBelow_iff.1 hqr with rfl | habove
      · exact hr rfl
      · exact Path.isAbove_root habove
    · rw [← Bool.not_eq_true] at hex ⊢
      exact fun hq => hex (h.faithful.exists?_of_isAtOrBelow hqr hq)
  · rintro ⟨⟨hpq, hq⟩, hex⟩
    exact ⟨hpq, q, hq, Path.isAtOrBelow_self q, hex⟩

/-- What a write makes are the nodes that the plain tree makes sure of. -/
theorem apply_toMake (h : Shows b w m) (create : Bool) :
    m.apply (((View.mk b w).toMake p create).map .create) = if create then m.ensure p else m := by
  cases create with
  | false => rfl
  | true =>
      refine SortedMap.ext_get? fun q => ?_
      rw [PlainTree.get?_apply_create, if_pos rfl, PlainTree.get?_ensure]
      simp only [h.mem_toMake]

/-- The node that is written is there by now, with the data that its entry has. -/
theorem get?_apply_toMake (h : Shows b w m) {create : Bool} {d : Data}
    (hd : if (View.mk b w).toMake p create = [] then (View.mk b w).data? p = some d
      else d = .empty) :
    (m.apply (((View.mk b w).toMake p create).map .create)).get? p = some d := by
  by_cases hnil : (View.mk b w).toMake p create = []
  · rw [if_pos hnil, h.data] at hd
    rw [hnil]
    exact hd
  · rw [if_neg hnil] at hd
    cases create with
    | false => exact absurd rfl hnil
    | true =>
        obtain ⟨q, hq⟩ := List.exists_mem_of_ne_nil _ hnil
        obtain ⟨hsteps, hnone⟩ := h.mem_toMake.1 hq
        obtain ⟨hpq, hroot⟩ := Path.mem_steps.1 hsteps
        have hp : p ∈ p.steps := by
          refine Path.mem_steps.2 ⟨Path.isAtOrBelow_self p, ?_⟩
          rintro rfl
          rcases Path.isAtOrBelow_iff.1 hpq with rfl | habove
          · exact hroot rfl
          · exact Path.isAbove_root habove
        rw [PlainTree.get?_apply_create,
          if_pos (h.mem_toMake.2 ⟨hp, h.closed.get?_eq_none hpq hnone⟩), hd]

theorem nodup_toMake (v : View) (p : Path) (create : Bool) : (v.toMake p create).Nodup := by
  cases create with
  | false => exact List.nodup_nil
  | true => exact (Path.nodup_steps p).sublist (List.dropWhile_sublist _)

theorem fits_toMake (h : Shows b w m) (create : Bool) :
    m.Fits (((View.mk b w).toMake p create).map .create) := by
  cases create with
  | false => trivial
  | true => exact PlainTree.fits_create (nodup_toMake _ p true) fun q hq => (h.mem_toMake.1 hq).2

/-- **A write does and answers what it means.** -/
theorem writing {α : Type} {make : α → Answer} {create : Bool} {idle : α}
    {change : Entry → Entry × α} (h : Shows b u.context.workspace m)
    (hv : u.context.options.version = none) (ho : o.writePath? = some (p, create))
    (hed : ∀ e : Entry, e.Edited (change e).1)
    (hdata : ∀ e : Entry, (change e).1.data = o.edit e.data) (hidle : make idle = o.wrote .empty)
    (hwrote : ∀ e : Entry, make (change e).2 = o.wrote e.data)
    (ht : u.Untroubled (b.writing u p create idle change).1) :
    Follows b (answering make (b.writing u p create idle change)) (m.perform o) := by
  have hr := Base.writing_outcome p create idle change
    (h.faithful.tidy.exists?_root h.faithful.sound) hed
  rw [PlainTree.perform_write ho]
  generalize b.writing u p create idle change = r at hr ht ⊢
  cases hr with
  | timedOut _ hlt _ => exact absurd ht (Nat.ne_of_gt hlt)
  | outdated _ hver =>
      rw [hv] at hver
      simp at hver
  | absent hrel _ hc hex =>
      have hnone : m.get? p = none := h.exists?_eq_false.1 hex
      simp only [PlainTree.writing, hc, Bool.false_eq_true, if_false, hnone]
      exact ⟨h.relocked hrel, congrArg Except.ok hidle⟩
  | @written u' e _ _ _ hst he =>
      have hmade := h.apply_toMake (p := p) create
      have hfits : m.Fits (((b.view u.context).toMake p create).map .create ++
          [.write p (change e).1.data]) :=
        PlainTree.fits_append.2 ⟨h.fits_toMake create, fun q hq => by simp at hq, trivial⟩
      have hafter := h.staged hst hfits
      -- the first steps make sure of the node, the last one writes it
      rw [PlainTree.apply_append, Base.view, hmade, PlainTree.apply_cons, PlainTree.apply_nil,
        Act.onTree, hdata] at hafter
      have hget : SortedMap.get? (if create then m.ensure p else m) p = some e.data := by
        rw [← hmade]
        exact h.get?_apply_toMake he
      simp only [PlainTree.writing, hget]
      exact ⟨hafter, congrArg Except.ok (hwrote e)⟩

/-- What is left when all that is below the root has gone. -/
theorem eq_of_only_root (h : Shows b w m) (hroot : m.get? Path.root = some .empty)
    (hnone : ∀ name, (View.mk b w).exists? (Path.root.push name) = false) :
    m = SortedMap.empty.insert .root .empty := by
  refine SortedMap.ext_get? fun q => ?_
  rw [SortedMap.get?_insert]
  split
  · rename_i hq
    rw [hq, hroot]
  · rename_i hq
    obtain ⟨name, hname⟩ := Path.exists_child_of_isAbove (Path.root_isAbove.2 hq)
    exact h.closed.get?_eq_none hname (h.exists?_eq_false.1 (hnone name))

/-- **Removing the root** leaves it without data, and nothing below it. -/
theorem removeRoot (h : Shows b u.context.workspace m) (hv : u.context.options.version = none)
    (ht : u.Untroubled (b.removeRoot u).1) :
    Shows b (b.removeRoot u).1.context.workspace (SortedMap.empty.insert .root .empty) ∧
      (b.removeRoot u).2 = .ok true := by
  obtain ⟨qs, acts, u', r, hr, -, -, hst, hcase⟩ :=
    Base.removeRoot_outcome (w := u) h.faithful.sound h.faithful.tidy
  rw [hr] at ht ⊢
  rcases hcase with hlt | hver | ⟨rfl, -, rfl, hgone⟩
  · exact absurd ht (Nat.ne_of_gt hlt)
  · rw [hv] at hver
    simp at hver
  · have hmade : ∀ p, Act.create p ∉ qs.map .remove ++ [.write Path.root .empty] := by simp
    have hafter := h.staged hst (PlainTree.fits_of_no_create hmade)
    rw [PlainTree.apply_append, PlainTree.apply_cons, PlainTree.apply_nil, Act.onTree] at hafter
    rw [hafter.eq_of_only_root SortedMap.get?_insert_self] at hafter
    · exact ⟨hafter, rfl⟩
    · intro name
      rw [← Bool.not_eq_true]
      intro hex
      -- it would have been there before, so that its name would have been found
      have hbefore := (Base.exists?_of_no_create hst.stages hmade hex).1
      have hroot := h.faithful.tidy.exists?_root h.faithful.sound
      obtain ⟨names, hnames, hhas⟩ := h.faithful.has_childNames hroot
      have hnot := hgone names name hnames ((hhas name).2 hbefore)
      rw [Base.view, hex] at hnot
      simp at hnot

/-- **A removal does and answers what it means.** -/
theorem removal (h : Shows b u.context.workspace m) (hv : u.context.options.version = none)
    (ht : u.Untroubled (b.removeNode u p).1) :
    Follows b (answering .flag (b.removeNode u p)) (m.removing p) := by
  simp only [Base.removeNode, PlainTree.removing] at ht ⊢
  by_cases hp : p.isRoot = true
  · rw [if_pos hp] at ht ⊢
    obtain ⟨hafter, hok⟩ := h.removeRoot hv ht
    rw [if_pos hp]
    exact ⟨hafter, by rw [answering, hok]; rfl⟩
  · rw [if_neg hp] at ht ⊢
    rw [if_neg hp]
    have hr := Base.removeBelowRoot_outcome (b := b) (w := u) fun he => hp (Path.isRoot_iff.2 he)
    generalize b.removeBelowRoot u p = r at hr ht ⊢
    cases hr with
    | timedOut _ hlt _ => exact absurd ht (Nat.ne_of_gt hlt)
    | absent hrel _ hex =>
        rw [h.closed.without_eq_self (h.exists?_eq_false.1 hex)]
        have hgone : false = m.contains p := hex.symm.trans (h.exists?_eq p)
        exact ⟨h.relocked hrel, congrArg (Except.ok ∘ Answer.flag) hgone⟩
    | removed _ hex hst =>
        have hafter := h.staged hst (PlainTree.fits_of_no_create fun q hq => by simp at hq)
        have hthere : true = m.contains p := hex.symm.trans (h.exists?_eq p)
        exact ⟨hafter, congrArg (Except.ok ∘ Answer.flag) hthere⟩

/-! ### Moves -/

/-- What is put at and below the target are the nodes at and below the source. -/
theorem mem_relocated (h : Shows b w m) {d : Data} :
    (q, d) ∈ (View.mk b w).relocated source target ↔
      ∃ p, m.get? p = some d ∧ p.rebase? source target = some q := by
  simp only [View.relocated, List.mem_filterMap, h.data]
  constructor
  · rintro ⟨p, -, hp⟩
    split at hp
    · rename_i d' q' hd hq
      obtain ⟨rfl, rfl⟩ := Prod.mk.inj (Option.some.inj hp)
      exact ⟨p, hd, hq⟩
    · simp at hp
  · rintro ⟨p, hd, hq⟩
    refine ⟨p, ?_, by rw [hd, hq]⟩
    rcases Path.isAtOrBelow_iff.1 (Path.rebase?_isAtOrBelow hq).1 with rfl | habove
    · exact List.mem_cons_self
    · refine List.mem_cons_of_mem _ (h.faithful.mem_descendants.2 ⟨habove, ?_⟩)
      rw [h.exists?_eq]
      exact SortedMap.contains_iff.2 ⟨d, hd⟩

theorem nodup_relocated {v : View} (hs : v.exists? source = true) :
    ((v.relocated source target).map (·.1)).Nodup := by
  have hall : (source :: v.descendants source).Nodup :=
    List.nodup_cons.2 ⟨fun hmem => Path.not_isAbove_self _ (View.of_mem_descend hmem).1,
      Faithful.nodup_descend v _ source⟩
  have hnodup : ((source :: v.descendants source).filterMap
      (·.rebase? source target)).Nodup := PlainTree.nodup_rebase hall
  rw [List.filterMap_cons, Path.rebase?_self] at hnodup
  rw [View.map_relocated hs]
  exact hnodup

section Moving

variable (h : Shows b w m) (hs : (View.mk b w).exists? source = true)
variable (hst : ¬source.isAtOrBelow target = true) (hts : ¬target.isAtOrBelow source = true)
include h

theorem apply_clearing :
    m.apply (if (View.mk b w).exists? target then [.remove target] else []) =
      m.without target := by
  split
  · rfl
  · rename_i hex
    exact (h.closed.without_eq_self (h.exists?_eq_false.1 (by simpa using hex))).symm

include hs

/-- The steps of a move make nodes only where there are none. -/
theorem fits_movingActs : m.Fits (Context.movingActs (View.mk b w) source target) := by
  refine PlainTree.fits_append.2 ⟨PlainTree.fits_of_no_create fun p => ?_,
    PlainTree.fits_append.2 ⟨?_, PlainTree.fits_of_no_create fun p => by simp⟩⟩
  · split <;> simp
  · rw [h.apply_clearing]
    refine PlainTree.fits_actsOf (nodup_relocated hs) fun n hn => ?_
    rw [PlainTree.get?_without, if_pos (View.isAtOrBelow_of_mem_relocated hn)]

include hst hts

/-- **The steps of a move move the subtree.** -/
theorem apply_movingActs :
    m.apply (Context.movingActs (View.mk b w) source target) = m.move source target := by
  -- place by place: below the target what is moved there, elsewhere what the removals leave
  refine SortedMap.ext_get? fun q => ?_
  rw [Context.movingActs, PlainTree.apply_append, PlainTree.apply_append, h.apply_clearing,
    PlainTree.apply_actsOf, PlainTree.apply_cons, PlainTree.apply_nil, Act.onTree,
    PlainTree.get?_without, PlainTree.get?_move hst hts]
  cases hq : q.rebase? target source with
  | some p =>
      have hp := Path.rebase?_symm hq
      have hqt := (Path.rebase?_isAtOrBelow hq).1
      rw [if_neg (PlainTree.not_isAtOrBelow_both hts hst hqt)]
      simp only
      cases hd : m.get? p with
      | some d =>
          exact SortedMap.get?_insertAll_of_mem (nodup_relocated hs)
            (h.mem_relocated.2 ⟨p, hd, hp⟩)
      | none =>
          rw [SortedMap.get?_insertAll_of_notMem, PlainTree.get?_without, if_pos hqt]
          intro d hmem
          obtain ⟨p', hd', hp'⟩ := h.mem_relocated.1 hmem
          obtain rfl : p = p' := Path.rebase?_injective hp hp'
          rw [hd] at hd'
          simp at hd'
  | none =>
      have hqt := Path.rebase?_eq_none.1 hq
      rw [SortedMap.get?_insertAll_of_notMem, PlainTree.get?_without, if_neg hqt]
      intro d hmem
      exact hqt (View.isAtOrBelow_of_mem_relocated hmem)

end Moving

/-- **A move does and answers what it means.** -/
theorem moving {deep : Bool} (h : Shows b u.context.workspace m)
    (hv : u.context.options.version = none)
    (ht : u.Untroubled (b.moveNode u source parent deep).1) :
    Follows b (answering .place (b.moveNode u source parent deep)) (m.moving source parent) := by
  rw [PlainTree.moving_eq]
  cases hplan : planMove source parent with
  | error e =>
      simp only [Base.moveNode, hplan]
      exact ⟨h, rfl⟩
  | ok plan =>
      cases plan with
      | stay =>
          simp only [Base.moveNode, hplan]
          exact ⟨h, rfl⟩
      | moveTo target =>
          have hr := Base.moveNode_outcome (b := b) (w := u) deep hplan
          generalize b.moveNode u source parent deep = r at hr ht ⊢
          -- what the move finds of source and parent is what the plain tree has
          have hmissing : ∀ {p : Path}, (b.view u.context).exists? p = false →
              m.contains p = false := fun hp => (h.exists?_eq _).symm.trans hp
          have hthere : ∀ {p : Path}, (b.view u.context).exists? p = true →
              m.contains p = true := fun hp => (h.exists?_eq _).symm.trans hp
          cases hr with
          | timedOut _ hlt _ => exact absurd ht (Nat.ne_of_gt hlt)
          | sourceMissing hrel _ hs =>
              simp only [hmissing hs]
              exact ⟨h.relocked hrel, rfl⟩
          | parentMissing hrel _ hs hp =>
              simp only [hthere hs, hmissing hp]
              exact ⟨h.relocked hrel, rfl⟩
          | outdated _ hver =>
              rw [hv] at hver
              simp at hver
          | moved _ hs hp hst =>
              obtain ⟨hst', hts⟩ := Base.not_isAtOrBelow_of_planMove hplan
              have hafter := h.staged hst (h.fits_movingActs hs)
              rw [Base.view, h.apply_movingActs hs hst' hts] at hafter
              simp only [hthere hs, hthere hp]
              exact ⟨hafter, rfl⟩

/-- **An operation does, and answers, what it means.** -/
theorem perform (h : Shows b u.context.workspace m) (hv : u.context.options.version = none)
    (ht : u.Untroubled (b.perform u o).1) : Follows b (b.perform u o) (m.perform o) := by
  have hp := Base.perform_outcome b u o
  generalize b.perform u o = r at hp ht ⊢
  cases hp with
  | reading ho make answer hread => exact h.reading ho hread ht
  | writing ho make idle change hed hdata hidle hwrote =>
      exact h.writing hv ho hed hdata hidle hwrote ht
  | removal p => exact h.removal hv ht
  | move source parent deep => exact h.moving hv ht

end Shows

end TransactionalTree
