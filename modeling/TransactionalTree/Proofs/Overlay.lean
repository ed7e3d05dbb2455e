/-
**A merge lays the workspace over the committed tree.**

A merge walks the dirty entries one after the other, and on the way it takes nodes away that it puts
back later, at other times with everything below them.  What comes of it does not depend on the way:
at a path with an entry there is what the entry says; below a place that is replaced or removed
there is nothing but what entries say; and everywhere else there is what was there, the same node
with the same data under the same version.

Main definitions:

* `Layer` — which entries are laid, and where;
* `Layer.Clears` — a path is replaced or removed, or something above it is;
* `Workspace.layer` — the entries of a workspace that change the committed tree;
* `Overlaid` — **what is at a path after the merge**, said without the order of the entries.

Main results:

* `Overlaid.cons` — laying one entry and then the others is laying them all;
* `mergeAll_overlaid` — a merge that went through is an overlay;
* `SharedTree.commit_overlays_workspace` — **so is every commit** that passes its check and merges
  all of its entries.
-/

import TransactionalTree.Proofs.Accounts

set_option relaxedAutoImplicit false
set_option autoImplicit false

namespace TransactionalTree

variable {t t₁ t' : CommittedTree} {v : Version} {o : Origin} {p q : Path} {e : Entry}
variable {es : List (Path × Entry)} {events : List Event}

/-- Which entries are laid, and where. -/
abbrev Layer := Path → Entry → Prop

namespace Layer

/-- The entries of a list. -/
def ofList (es : List (Path × Entry)) : Layer := fun p e => (p, e) ∈ es

/-- Something above the path is replaced or removed. -/
def ClearsAbove (l : Layer) (q : Path) : Prop :=
  ∃ p e, l p e ∧ e.replacesBase = true ∧ p.isAbove q = true

/-- The path, or something above it, is replaced or removed. -/
def Clears (l : Layer) (q : Path) : Prop :=
  ∃ p e, l p e ∧ e.replacesBase = true ∧ q.isAtOrBelow p = true

end Layer

/-- The entries that change the committed tree. -/
def Workspace.layer (w : Workspace) : Layer := fun p e => w.get? p = some e ∧ e.isDirty = true

/-- **What is at a path after a layer of entries was laid over a tree** under a version. -/
structure Overlaid (t : CommittedTree) (v : Version) (l : Layer) (t' : CommittedTree)
    (p : Path) : Prop where
  /-- A node that was there, and is made once more without being replaced, stays the same node; it
  gets the data that were written in addition to its own, if any were. -/
  joined : ∀ e n, l p e → e.removed = false → e.created = true → e.replacesBase = false →
    ¬l.ClearsAbove p → t.peek? p = some n →
    t'.peek? p =
      some (if e.changed then { n with data := n.data.union e.data, version := v } else n)
  /-- All other entries of nodes that are not removed are there with their data, under the version
  of the merge. -/
  written : ∀ e, l p e → e.removed = false →
    ¬(e.created = true ∧ e.replacesBase = false ∧ ¬l.ClearsAbove p ∧ ∃ n, t.peek? p = some n) →
    ∃ n, t'.peek? p = some n ∧ n.data = e.data ∧ n.version = v
  /-- Without such an entry there is nothing where something is replaced or removed, and below. -/
  gone : (∀ e, l p e → e.removed = true) → l.Clears p → t'.peek? p = none
  /-- Everywhere else all is as it was: the same node, or none, and the same tombstone. -/
  untouched : (∀ e, l p e → e.removed = true) → ¬l.Clears p →
    t'.slots.get? p = t.slots.get? p ∧ t'.peek? p = t.peek? p

/-! ### Which places are cleared -/

theorem clears_cons : (Layer.ofList ((p, e) :: es)).Clears q ↔
    (e.replacesBase = true ∧ q.isAtOrBelow p = true) ∨ (Layer.ofList es).Clears q := by
  simp only [Layer.Clears, Layer.ofList, List.mem_cons, Prod.mk.injEq, or_and_right, exists_or,
    and_assoc, exists_and_left, exists_eq_left]

theorem clearsAbove_cons : (Layer.ofList ((p, e) :: es)).ClearsAbove q ↔
    (e.replacesBase = true ∧ p.isAbove q = true) ∨ (Layer.ofList es).ClearsAbove q := by
  simp only [Layer.ClearsAbove, Layer.ofList, List.mem_cons, Prod.mk.injEq, or_and_right,
    exists_or, and_assoc, exists_and_left, exists_eq_left]

theorem not_clears_nil : ¬(Layer.ofList []).Clears q := by
  simp [Layer.Clears, Layer.ofList]

theorem not_clearsAbove_nil : ¬(Layer.ofList []).ClearsAbove q := by
  simp [Layer.ClearsAbove, Layer.ofList]

/-- What comes after an entry clears nothing at its path. -/
theorem Mergeable.not_clears_tail (h : Mergeable ((p, e) :: es)) : ¬(Layer.ofList es).Clears p := by
  rintro ⟨r, g, hmem, -, hpr⟩
  exact h.not_isAtOrBelow hmem hpr

/-- What clears something above a path clears the path. -/
theorem Layer.ClearsAbove.clears {l : Layer} (h : l.ClearsAbove q) : l.Clears q := by
  obtain ⟨p, e, hl, hrep, hpq⟩ := h
  exact ⟨p, e, hl, hrep, Path.isAtOrBelow_of_isAbove hpq⟩

/-! ### Two layers -/

/-- Nothing was laid. -/
theorem Overlaid.nil (hslots : t'.slots = t.slots) (p : Path) :
    Overlaid t v (Layer.ofList []) t' p where
  joined _ _ hmem := absurd hmem List.not_mem_nil
  written _ hmem := absurd hmem List.not_mem_nil
  gone _ hcl := absurd hcl not_clears_nil
  untouched _ _ := ⟨by rw [hslots], CommittedTree.peek?_of_slots hslots p⟩

/-- The version counter of the tree below is of no matter. -/
theorem Overlaid.of_slots {l : Layer} (h : Overlaid t₁ v l t' p) (hslots : t₁.slots = t.slots) :
    Overlaid t v l t' p := by
  have hpeek : t₁.peek? p = t.peek? p := CommittedTree.peek?_of_slots hslots p
  refine ⟨?_, ?_, h.gone, ?_⟩
  · rw [← hpeek]
    exact h.joined
  · rw [← hpeek]
    exact h.written
  · rw [← hpeek, ← hslots]
    exact h.untouched

/-- At the path of the first entry only that entry is laid. -/
theorem Overlaid.cons_self (hes : Mergeable ((p, e) :: es))
    (hfirst : Overlaid t v (.ofList [(p, e)]) t₁ p) (hrest : Overlaid t₁ v (.ofList es) t' p) :
    Overlaid t v (.ofList ((p, e) :: es)) t' p := by
  have hnone : ∀ g, (p, g) ∉ es := fun g hg =>
    hes.not_isAtOrBelow hg (Path.isAtOrBelow_self p)
  have hmem : ∀ g, Layer.ofList ((p, e) :: es) p g ↔ Layer.ofList [(p, e)] p g := by
    intro g
    rw [Layer.ofList, List.mem_cons, or_iff_left (hnone g), Layer.ofList, List.mem_singleton]
  have hrest' : ¬(Layer.ofList es).Clears p := hes.not_clears_tail
  have habove : (Layer.ofList ((p, e) :: es)).ClearsAbove p ↔
      (Layer.ofList [(p, e)]).ClearsAbove p := by
    rw [clearsAbove_cons, clearsAbove_cons, or_iff_left fun h => hrest' h.clears,
      or_iff_left not_clearsAbove_nil]
  have hat : (Layer.ofList ((p, e) :: es)).Clears p ↔ (Layer.ofList [(p, e)]).Clears p := by
    rw [clears_cons, clears_cons, or_iff_left hrest', or_iff_left not_clears_nil]
  obtain ⟨hslots, hpeek⟩ := hrest.untouched (fun g hg => absurd hg (hnone g)) hrest'
  constructor
  · simp only [hmem, habove, hpeek]
    exact hfirst.joined
  · simp only [hmem, habove, hpeek]
    exact hfirst.written
  · simp only [hmem, hat, hpeek]
    exact hfirst.gone
  · simp only [hmem, hat, hslots, hpeek]
    exact hfirst.untouched

theorem ofList_cons_of_ne {g : Entry} (hq : q ≠ p) :
    Layer.ofList ((p, e) :: es) q g ↔ Layer.ofList es q g := by
  rw [Layer.ofList, List.mem_cons, or_iff_right, Layer.ofList]
  exact fun heq => hq (Prod.mk.inj heq).1

/-- Where the first entry takes away what was there, the others are laid over nothing. -/
theorem Overlaid.cons_cleared (hq : q ≠ p) (hrep : e.replacesBase = true) (hp : p.isAbove q = true)
    (hpeek : t₁.peek? q = none) (hrest : Overlaid t₁ v (.ofList es) t' q) :
    Overlaid t v (.ofList ((p, e) :: es)) t' q := by
  have habove : (Layer.ofList ((p, e) :: es)).ClearsAbove q := clearsAbove_cons.2 (.inl ⟨hrep, hp⟩)
  refine ⟨fun g n _ _ _ _ hno => absurd habove hno, fun g hg hr _ => ?_, fun hr _ => ?_,
    fun _ hno => absurd habove.clears hno⟩
  · refine hrest.written g ((ofList_cons_of_ne hq).1 hg) hr fun hcon => ?_
    obtain ⟨-, -, -, n, hn⟩ := hcon
    rw [hpeek] at hn
    simp at hn
  · have hr : ∀ g, Layer.ofList es q g → g.removed = true :=
      fun g hg => hr g ((ofList_cons_of_ne hq).2 hg)
    by_cases hrest' : (Layer.ofList es).Clears q
    · exact hrest.gone hr hrest'
    · rw [(hrest.untouched hr hrest').2, hpeek]

/-- Where the first entry changes nothing, only the others are laid. -/
theorem Overlaid.cons_other (hq : q ≠ p) (hcl : ¬(e.replacesBase = true ∧ p.isAbove q = true))
    (hsame : t₁.slots.get? q = t.slots.get? q ∧ t₁.peek? q = t.peek? q)
    (hrest : Overlaid t₁ v (.ofList es) t' q) : Overlaid t v (.ofList ((p, e) :: es)) t' q := by
  obtain ⟨hslots, hpeek⟩ := hsame
  have habove : (Layer.ofList ((p, e) :: es)).ClearsAbove q ↔ (Layer.ofList es).ClearsAbove q := by
    rw [clearsAbove_cons, or_iff_right hcl]
  have hat : (Layer.ofList ((p, e) :: es)).Clears q ↔ (Layer.ofList es).Clears q := by
    rw [clears_cons, Path.isAtOrBelow_of_ne hq, or_iff_right hcl]
  constructor
  · simp only [ofList_cons_of_ne hq, habove, ← hpeek]
    exact hrest.joined
  · simp only [ofList_cons_of_ne hq, habove, ← hpeek]
    exact hrest.written
  · simp only [ofList_cons_of_ne hq, hat]
    exact hrest.gone
  · simp only [ofList_cons_of_ne hq, hat, ← hslots, ← hpeek]
    exact hrest.untouched

/-- **Laying the first entry and then the others is laying them all.** -/
theorem Overlaid.cons (hes : Mergeable ((p, e) :: es))
    (hfirst : Overlaid t v (.ofList [(p, e)]) t₁ q) (hrest : Overlaid t₁ v (.ofList es) t' q) :
    Overlaid t v (.ofList ((p, e) :: es)) t' q := by
  by_cases hq : q = p
  · subst hq
    exact .cons_self hes hfirst hrest
  · have hnot : ∀ g, Layer.ofList [(p, e)] q g → g.removed = true := by
      intro g hg
      exact absurd (Prod.mk.inj (List.mem_singleton.1 hg)).1 hq
    have hat : (Layer.ofList [(p, e)]).Clears q ↔ e.replacesBase = true ∧ p.isAbove q = true := by
      rw [clears_cons, Path.isAtOrBelow_of_ne hq, or_iff_left not_clears_nil]
    by_cases hcl : e.replacesBase = true ∧ p.isAbove q = true
    · have hpeek : t₁.peek? q = none := hfirst.gone hnot (hat.2 hcl)
      exact .cons_cleared hq hcl.1 hcl.2 hpeek hrest
    · exact .cons_other hq hcl (hfirst.untouched hnot (mt hat.1 hcl)) hrest

/-! ### One entry -/

/-- One entry is laid over a tree if at its path there is what it says, if what it takes away is
gone, and if all else is as before. -/
theorem overlaid_one (h : t.Sound) (h' : t'.Sound)
    (hjoined : ∀ n, e.removed = false → e.created = true → e.replacesBase = false →
      t.peek? p = some n → t'.peek? p =
        some (if e.changed then { n with data := n.data.union e.data, version := v } else n))
    (hwritten : e.removed = false →
      ¬(e.created = true ∧ e.replacesBase = false ∧ ∃ n, t.peek? p = some n) →
      ∃ n, t'.peek? p = some n ∧ n.data = e.data ∧ n.version = v)
    (hgone : ∀ q, q ≠ p ∨ e.removed = true → q.isAtOrBelow p = true → e.replacesBase = true →
      t'.peek? q = none)
    (hother : ∀ q, q ≠ p ∨ e.removed = true → ¬(q.isAtOrBelow p = true ∧ e.replacesBase = true) →
      t'.slots.get? q = t.slots.get? q) (q : Path) :
    Overlaid t v (.ofList [(p, e)]) t' q := by
  have hself : ¬(Layer.ofList [(p, e)]).ClearsAbove p := by
    rw [clearsAbove_cons, or_iff_left not_clearsAbove_nil]
    exact fun hcon => by simp at hcon
  have hat : (Layer.ofList [(p, e)]).Clears q ↔ e.replacesBase = true ∧ q.isAtOrBelow p = true := by
    rw [clears_cons, or_iff_left not_clears_nil]
  have hcase : (∀ g, Layer.ofList [(p, e)] q g → g.removed = true) → q ≠ p ∨ e.removed = true := by
    intro hall
    by_cases hq : q = p
    · exact .inr (hall e (by rw [hq]; exact List.mem_cons_self))
    · exact .inl hq
  constructor
  · intro g n hmem hr hc hrep _ hn
    obtain ⟨rfl, rfl⟩ := Prod.mk.inj (List.mem_singleton.1 hmem)
    exact hjoined n hr hc hrep hn
  · intro g hmem hr hnot
    obtain ⟨rfl, rfl⟩ := Prod.mk.inj (List.mem_singleton.1 hmem)
    exact hwritten hr fun hcon => hnot ⟨hcon.1, hcon.2.1, hself, hcon.2.2⟩
  · intro hall hcl
    rw [hat] at hcl
    exact hgone q (hcase hall) hcl.2 hcl.1
  · intro hall hcl
    have hslot := hother q (hcase hall) fun hyes => hcl (hat.2 hyes.symm)
    exact ⟨hslot, by rw [h'.peek?_eq, h.peek?_eq, hslot]⟩

/-- A removal is laid over a tree. -/
theorem overlaid_removal {ref : Option NodeRef} (h : t.Sound) (hr : e.removed = true)
    (hrep : e.replacesBase = true) (hrem : t.remove p v = .ok (t', ref)) (q : Path) :
    Overlaid t v (.ofList [(p, e)]) t' q := by
  refine overlaid_one h (h.remove hrem) (by simp [hr]) (by simp [hr]) (fun q _ hq _ => ?_)
    (fun q _ hq => ?_) q
  · rw [h.peek?_remove hrem, if_pos hq]
  · exact CommittedTree.get?_remove_of_not hrem fun hqp => hq ⟨hqp, hrep⟩

/-- A new node is laid over a tree. -/
theorem overlaid_installation {ref : NodeRef} (h : t.Sound) (hr : e.removed = false)
    (hnew : e.replacesBase = true ∨ t.peek? p = none)
    (hi : t.install p e.data v = .ok (t', ref)) (q : Path) :
    Overlaid t v (.ofList [(p, e)]) t' q := by
  have hpeek := h.peek?_install hi
  have hne : ∀ {q : Path}, q ≠ p ∨ e.removed = true → q ≠ p := fun hor =>
    hor.resolve_right (by simp [hr])
  refine overlaid_one h (h.install hi) (fun n _ _ hrep hn => ?_) (fun _ _ => ?_)
    (fun q hq hqp _ => ?_) (fun q hq hnot => ?_) q
  · rw [hnew.resolve_left (by simp [hrep])] at hn
    simp at hn
  · exact ⟨_, by rw [hpeek, if_pos rfl], rfl, rfl⟩
  · have hpq := (Path.isAtOrBelow_iff.1 hqp).resolve_left (hne hq)
    rw [hpeek, if_neg (hne hq), if_pos hpq]
  · rw [CommittedTree.get?_install hi, if_neg (hne hq)]
    split
    -- a valid node at the path is replaced, and buried with what is below it
    · rename_i hvalid
      have hrep : e.replacesBase = true := by
        refine hnew.resolve_right fun hnone => ?_
        exact h.peek?_eq_none.1 hnone hvalid
      rw [CommittedTree.get?_bury, if_neg fun hqp => hnot ⟨hqp, hrep⟩]
    · rfl

/-- New data of a node are laid over a tree. -/
theorem overlaid_update {d : Data} (h : t.Sound) (hr : e.removed = false)
    (hrep : e.replacesBase = false) (hu : t.update p d v = .ok t')
    (hd : if e.created then ∃ n, t.peek? p = some n ∧ e.changed = true ∧ d = n.data.union e.data
      else d = e.data) (q : Path) : Overlaid t v (.ofList [(p, e)]) t' q := by
  obtain ⟨m, hm, ht⟩ := CommittedTree.update_ok.1 hu
  have hself : t'.peek? p = some { m with data := d, version := v } := by
    rw [h.peek?_update hu, if_pos rfl, hm]
    rfl
  refine overlaid_one h (h.update hu) (fun n _ hc _ hn => ?_) (fun _ hnot => ?_)
    (fun q _ _ hyes => ?_) (fun q hq _ => ?_) q
  · rw [if_pos hc] at hd
    obtain ⟨n', hn', hch, rfl⟩ := hd
    obtain rfl := Option.some.inj (hn'.symm.trans hn)
    obtain rfl := Option.some.inj (hm.symm.trans hn)
    rw [hself, if_pos hch]
  · have hc : ¬e.created = true := fun hc => hnot ⟨hc, hrep, m, hm⟩
    rw [if_neg hc] at hd
    exact ⟨_, hself, hd, rfl⟩
  · rw [hrep] at hyes
    simp at hyes
  · rw [ht, CommittedTree.get?_overwrite, if_neg (hq.resolve_right (by simp [hr]))]

/-- **One entry that is merged is laid over the tree.** -/
theorem overlaid_of_mergeEntry (h : t.Sound) (hdirty : e.isDirty = true)
    (hrep : e.replacesBase = true → e.removed = true ∨ e.created = true)
    (hm : mergeEntry t v o p e = .ok (t', events)) (q : Path) :
    Overlaid t v (.ofList [(p, e)]) t' q := by
  cases entryMerge_of_ok hm with
  | removal hr hyes hrem => exact overlaid_removal h hr hyes hrem q
  | unseen hr hno =>
      exact overlaid_one h h (by simp [hr]) (by simp [hr]) (by simp [hno]) (fun _ _ _ => rfl) q
  | installation hr hc hnew hi => exact overlaid_installation h hr hnew hi q
  | @joining t' n hr hc hno hch hn hu =>
      exact overlaid_update h hr hno hu (by rw [if_pos hc]; exact ⟨n, hn, hch, rfl⟩) q
  | @keeping n hr hc hno hch hn =>
      refine overlaid_one h h (fun n _ _ _ hn => ?_) (fun _ hnot => ?_) (by simp [hno])
        (fun _ _ _ => rfl) q
      · rw [hn, if_neg (by simp [hch])]
      · exact absurd ⟨hc, hno, n, hn⟩ hnot
  | update hr hc _ hu =>
      have hno : e.replacesBase = false := by
        rw [Bool.eq_false_iff]
        exact fun hyes => (hrep hyes).elim (by simp [hr]) (by simp [hc])
      exact overlaid_update h hr hno hu (by simp [hc]) q
  | nothing hr hc hch =>
      rw [Entry.isDirty, hr, hc, hch] at hdirty
      simp at hdirty

/-! ### All entries -/

/-- **A merge that went through has laid its entries over the tree.** -/
theorem mergeAll_overlaid (h : t.Sound) (hes : Mergeable es)
    (hdirty : ∀ a ∈ es, a.2.isDirty = true) (hok : ∃ x, (mergeAll t v o es).events = .ok x)
    (q : Path) : Overlaid t v (.ofList es) (mergeAll t v o es).tree q := by
  induction es generalizing t with
  | nil => exact .nil rfl q
  | cons a es ih =>
      obtain ⟨p, e⟩ := a
      rcases mergeAll_cons t v o (p, e) es with ⟨t₁, events, hm, htree, hiff⟩ | ⟨-, -, hnot⟩
      · have hstep := merged_of_mergeEntry h hm
        have hfirst := overlaid_of_mergeEntry h (hdirty _ List.mem_cons_self)
          (hes.replaces p e List.mem_cons_self) hm q
        have hrest := ih hstep.sound hes.tail (fun a ha => hdirty a (List.mem_cons_of_mem _ ha))
          (hiff.1 hok)
        rw [htree]
        exact .cons hes hfirst hrest
      · exact absurd hok hnot

/-- The dirty entries are those that change the committed tree. -/
theorem Workspace.ofList_dirty (w : Workspace) : Layer.ofList w.dirty = w.layer := by
  funext p e
  exact propext mem_dirty

namespace Store

variable {s : Store} {c : Context}

/-- A merge that went through has laid the dirty entries over the committed tree. -/
theorem overlaid_merge (h : s.tree.Sound) (hc : c.workspace.Tidy)
    (hm : (s.merge c).events = .ok events) (p : Path) :
    Overlaid s.tree (s.stamp c).1 c.workspace.layer (s.merge c).tree p := by
  obtain ⟨hslots, hnext⟩ := stamp_tree s c
  rw [← c.workspace.ofList_dirty]
  rw [merge_eq] at hm ⊢
  have hall := mergeAll_overlaid (h.of_slots hslots hnext) hc.mergeable
    (fun a ha => (Workspace.mem_dirty.1 ha).2) ⟨events, hm⟩ p
  exact hall.of_slots hslots

end Store

/-! ### Commits -/

namespace SharedTree

/-- **A commit that passes its check and merges all its entries lays them over the committed tree**,
under one version, in any state that units of work have brought about, whoever shares an owner. -/
theorem commit_overlays_workspace (config : Config) (hash : Path → UInt64)
    (steps : List Step) (name : String)
    (c : Context) (p : Path) :
    let s := (ofConfig config hash).runShared steps
    s.context? name = some c →
    s.store.base.conflicts c s.store.config.writeSkewCheckActive = [] →
    (s.store.merge c).events.isOk = true →
    Overlaid s.store.tree (s.store.stamp c).1 c.workspace.layer
      (s.commit name c).1.store.tree p := by
  intro s hc hcheck hok
  have hsane : s.Sane := (sane_ofConfig config hash).runShared steps
  have ho := Store.commit_outcome s.store c
  simp only [commit, finish]
  generalize s.store.commit c = e at ho
  cases ho with
  | idle h =>
      have hnil : c.workspace.dirty = [] := Workspace.dirty_eq_nil_iff.2 h
      rw [← c.workspace.ofList_dirty, hnil]
      exact .nil rfl p
  | refused _ hx =>
      rw [hcheck] at hx
      simp at hx
  | torn _ _ hm =>
      rw [hm] at hok
      simp [Except.isOk, Except.toBool] at hok
  | merged _ _ hm => exact Store.overlaid_merge hsane.sound (hsane.tidy hc) hm p

/-- The first transaction makes `/a/b` and `/u`.  The second removes `/a`, makes `/a/c`, writes to
`/u`, and looks for `/d`, which the first makes now; then the second makes it too, and will leave
the node of the first in its place. -/
def rebuiltRun : List Step :=
  let a : Path := ⟨["a"]⟩
  let b : Path := ⟨["a", "b"]⟩
  let c : Path := ⟨["a", "c"]⟩
  let d : Path := ⟨["d"]⟩
  let u : Path := ⟨["u"]⟩
  [.start "s" ⟨"main", 0⟩ (some (1 : Nat)), .start "t" ⟨"main", 0⟩ (some (2 : Nat)),
    .perform "s" (.put b "k" (.int 1)), .perform "s" (.put u "k" (.int 2)), .commit "s",
    .perform "t" (.removeNode a), .perform "t" (.put c "k" (.int 3)),
    .perform "t" (.put u "k" (.int 4)), .perform "t" (.nodeExists d),
    .perform "s" (.put d "j" (.int 5)), .commit "s", .perform "t" (.put d "k" (.int 6))]

/-- The state in which the second transaction is to be committed. -/
def rebuiltState : SharedTree := (ofConfig {}).runShared rebuiltRun

/-- The second transaction in that state. -/
def rebuiltContext : Context := (rebuiltState.context? "t").getD default

/-- The commit of the second transaction replaces `/a`, so that `/a/b` is gone afterwards. -/
theorem rebuilt_without_child :
    (rebuiltState.commit "t" rebuiltContext).1.store.tree.peek? ⟨["a", "b"]⟩ = none := by
  have hover := commit_overlays_workspace {} Stripe.hash rebuiltRun "t" rebuiltContext ⟨["a", "b"]⟩
    (by decide +kernel) (by decide +kernel) (by decide +kernel)
  refine hover.gone (fun e he => ?_) ?_
  · have hnone : rebuiltContext.workspace.get? ⟨["a", "b"]⟩ = none := by decide +kernel
    exact absurd (he.1.symm.trans hnone) (Option.some_ne_none e)
  · have hsome : (rebuiltContext.workspace.get? ⟨["a"]⟩).isSome = true := by decide +kernel
    obtain ⟨e, he⟩ := Option.isSome_iff_exists.1 hsome
    have hflags : (rebuiltContext.workspace.get? ⟨["a"]⟩).all
        (fun e => e.isDirty && e.replacesBase) = true := by
      decide +kernel
    rw [he, Option.all_some, Bool.and_eq_true] at hflags
    exact ⟨_, e, ⟨he, hflags.1⟩, hflags.2, by decide⟩

end SharedTree

end TransactionalTree
