/-
**Removals and the locks of others.**

A node goes when a unit of work commits that has removed, replaced or moved it, or a node above it.
Where parents are locked and locking is strict, no other unit of work has the node locked then, as
long as reads are not pinned.  When they are, a removal locks the nodes that its view reaches from
the node that goes; the names of children may have been pinned before the node came, and then it
goes without having been locked.

Main definitions:

* `View.Reaches` — a node is found below another one, from names of children to names of children;
* `Operation.takesAway` — the nodes that an operation takes away, with all below them;
* `SharedTree.SawGo` — the unit of work has taken the node away, and had it in its view.

Main results:

* `View.Reaches.mem_descendants` — a removal goes through all that its view reaches;
* `Work.holds_of_takesAway` — **an operation locks what it sees below what it takes away**;
* `SharedTree.removal_spares_locked_unless_unseen` — **a commit changes no node that another unit of
  work has locked**, unless reads are pinned and the node was not in view;
* `SharedTree.not_removal_spares_locked` — it may then.
-/

import TransactionalTree.Proofs.SingleWriter

set_option relaxedAutoImplicit false
set_option autoImplicit false

namespace TransactionalTree

variable {b : Base} {w w' : Workspace} {p q r n source : Path} {u u' : Work}

/-! ### What a view reaches -/

namespace View

/-- **The view reaches `q` below `p`**: from names of children to names of children. -/
inductive Reaches (v : View) : Path → Path → Prop
  /-- A child is reached. -/
  | child {p : Path} {name : String} {names : NameSet} (hn : v.childNames p = some names)
      (hm : names.has name = true) (hex : v.exists? (p.push name) = true) :
      Reaches v p (p.push name)
  /-- What a child reaches is reached. -/
  | deeper {p q : Path} {name : String} {names : NameSet} (hn : v.childNames p = some names)
      (hm : names.has name = true) (hex : v.exists? (p.push name) = true)
      (h : Reaches v (p.push name) q) : Reaches v p q

/-- The entries of the children alone decide how names are overlaid. -/
theorem overlay_congr {names : NameSet}
    (hget : ∀ name, w'.get? (p.push name) = w.get? (p.push name)) :
    (w'.childrenOf p).foldl overlayChild names = (w.childrenOf p).foldl overlayChild names := by
  refine SortedSet.ext_has fun name => ?_
  have hover : ∀ u : Workspace, ((u.childrenOf p).foldl overlayChild names).has name = true ↔ _ :=
    fun u => has_overlay (v := View.mk default u)
  rw [hover w', hover w, hget]

/-- The names of the children depend on the entries of the children and on where the path leads. -/
theorem childNames_congr (hl : (View.mk b w').locate p = (View.mk b w).locate p)
    (hget : ∀ name, w'.get? (p.push name) = w.get? (p.push name)) :
    (View.mk b w').childNames p = (View.mk b w).childNames p := by
  have hbase : ∀ l, (View.mk b w').baseChildNames p l = (View.mk b w).baseChildNames p l := by
    intro l
    cases l <;> rfl
  rw [childNames, childNames, hl, childNamesAt, childNamesAt, hbase]
  exact congrArg (Option.map · _) (funext fun names => overlay_congr hget)

namespace Reaches

variable {v : View}

theorem isAbove (h : v.Reaches p q) : p.isAbove q = true := by
  induction h with
  | @child p name _ _ _ _ => exact Path.isAbove_push_self p name
  | @deeper p _ name _ _ _ _ _ ih => exact Path.isAbove_trans (Path.isAbove_push_self p name) ih

/-- Only where there is a node something is reached. -/
theorem exists?_above (h : v.Reaches p q) : v.exists? p = true := by
  rw [← childNames_isSome]
  cases h with
  | child hn _ _ => rw [hn]; rfl
  | deeper hn _ _ _ => rw [hn]; rfl

theorem exists?_below (h : v.Reaches p q) : v.exists? q = true := by
  induction h with
  | child _ _ hex => exact hex
  | deeper _ _ _ _ ih => exact ih

/-- Whether a node is reached depends on the entries at, above and below the place. -/
theorem congr (h : (View.mk b w).Reaches p q)
    (hsame : ∀ r, r.isAtOrBelow p = true ∨ p.isAtOrBelow r = true → w'.get? r = w.get? r) :
    (View.mk b w').Reaches p q := by
  have hl : ∀ {r : Path}, r.isAtOrBelow p = true →
      (View.mk b w').locate r = (View.mk b w).locate r :=
    fun hr => View.locate_congr fun x hx => hsame x (Path.isAtOrBelow_total hx hr)
  have hchild : ∀ {r : Path} {name : String}, r.isAtOrBelow p = true →
      (r.push name).isAtOrBelow p = true :=
    fun hr => Path.push_isAtOrBelow.2 (.inr hr)
  have hnames : ∀ {r : Path}, r.isAtOrBelow p = true →
      (View.mk b w').childNames r = (View.mk b w).childNames r := fun hr =>
    childNames_congr (hl hr) fun _ => hsame _ (.inl (hchild hr))
  have hex : ∀ {r : Path}, r.isAtOrBelow p = true →
      (View.mk b w').exists? r = (View.mk b w).exists? r :=
    fun hr => congrArg Location.isPresent (hl hr)
  -- every place that is passed on the way is at or below the first one
  have hall : ∀ {r t : Path}, (View.mk b w).Reaches r t → r.isAtOrBelow p = true →
      (View.mk b w').Reaches r t := by
    intro r t hr
    induction hr with
    | child hn hm he =>
        intro hp
        exact .child ((hnames hp).trans hn) hm ((hex (hchild hp)).trans he)
    | deeper hn hm he _ ih =>
        intro hp
        exact .deeper ((hnames hp).trans hn) hm ((hex (hchild hp)).trans he) (ih (hchild hp))
  exact hall h (Path.isAtOrBelow_self p)

/-- With enough fuel all that is reached is found. -/
theorem mem_descend (h : v.Reaches p q) {fuel : Nat} (hd : q.depth ≤ p.depth + fuel) :
    q ∈ v.descend fuel p := by
  induction h generalizing fuel with
  | @child p name names hn hm hex =>
      rw [Path.depth_push] at hd
      obtain ⟨fuel, rfl⟩ := Nat.exists_eq_add_one.2 (show 0 < fuel by omega)
      exact mem_descend_succ.2 ⟨names, name, hn, hm, hex, .inl rfl⟩
  | @deeper p q name names hn hm hex h ih =>
      have hdeeper := Path.depth_lt_of_isAbove h.isAbove
      rw [Path.depth_push] at hdeeper
      obtain ⟨fuel, rfl⟩ := Nat.exists_eq_add_one.2 (show 0 < fuel by omega)
      exact mem_descend_succ.2
        ⟨names, name, hn, hm, hex, .inr (ih (by rw [Path.depth_push]; omega))⟩

/-- Nothing else is found. -/
theorem of_mem_descend {fuel : Nat} (h : q ∈ v.descend fuel p) : v.Reaches p q := by
  induction fuel generalizing p with
  | zero => simp [descend] at h
  | succ fuel ih =>
      obtain ⟨names, name, hn, hm, hex, rfl | hq⟩ := mem_descend_succ.1 h
      · exact .child hn hm hex
      · exact .deeper hn hm hex (ih hq)

/-- **A removal goes through all that its view reaches.** -/
theorem mem_descendants (h : v.Reaches p q) : q ∈ v.descendants p := by
  have hd := depth_le_depthBound h.exists?_below
  exact h.mem_descend (by omega)

end Reaches

end View

/-! ### What operations take away -/

/-- **The paths that the operation takes away** from this view, if it is carried out: a node that is
removed, the children of the root if that is the root, and source and target of a move. -/
def Operation.takesAway (v : View) : Operation → List Path
  | removeNode p => if p.isRoot then v.topLevel else [p]
  | moveNode source parent _ =>
      match planMove source parent with
      | .ok (.moveTo target) => [source, target]
      | _ => []
  | _ => []

namespace Base

/-- Removing a node changes no entry elsewhere. -/
theorem entry?_removeBelowRoot_of_not (h : ¬q.isAtOrBelow p = true) :
    (b.removeBelowRoot u p).1.context.entry? q = u.context.entry? q := by
  simp only [removeBelowRoot]
  have hrel := Work.relocked_lockAll u [] ((b.view u.context).removalLocks u.locks p)
  generalize u.lockAll [] ((b.view u.context).removalLocks u.locks p) = r at hrel
  obtain ⟨u₁, grant⟩ := r
  have hentry : u₁.context.entry? q = u.context.entry? q :=
    congrArg (SortedMap.get? · q) hrel.workspace
  cases grant with
  | declined => exact hentry
  | refused e => exact hentry
  | granted taken => exact (Context.entry?_stageRemoval_of_not h).trans hentry

section Seen

variable (hskip : u.context.options.skipLocking = false)
include hskip

/-- A removal that is not refused a lock locks what is seen below the node. -/
theorem holds_of_removeBelowRoot (hseen : (b.view u.context).Reaches p n)
    (ht : u.Untroubled (b.removeBelowRoot u p).1) :
    (b.removeBelowRoot u p).1.context.holds n = true := by
  simp only [removeBelowRoot] at ht ⊢
  have hcase := (Work.lockAll_cases u [] ((b.view u.context).removalLocks u.locks p)).2
  have hgranted : ∀ all, (u.lockAll [] ((b.view u.context).removalLocks u.locks p)).2 =
      .granted all → _ := fun all h => Work.holds_of_granted (p := n) hskip h
  generalize u.lockAll [] ((b.view u.context).removalLocks u.locks p) = r at hcase hgranted ht
  obtain ⟨u₁, grant⟩ := r
  rcases hcase with ⟨all, rfl, -⟩ | ⟨rfl | ⟨e, rfl⟩, hlt⟩
  · have hlocked := hgranted all rfl (List.mem_append_right _
      (List.mem_cons_of_mem _ hseen.mem_descendants))
    exact ((restaged_stageRemoval b u₁.context p).holds n).trans hlocked
  · exact absurd ht (Nat.ne_of_gt hlt)
  · exact absurd ht (Nat.ne_of_gt hlt)

/-- Of several children of the root that are removed one after the other, each is seen as it was at
first when it is removed. -/
theorem holds_of_removeEach {ps : List Path} {m : String}
    (hps : ∀ q ∈ ps, ∃ name, q = Path.root.push name) (hp : Path.root.push m ∈ ps)
    (hseen : (b.view u.context).Reaches (Path.root.push m) n)
    (ht : u.Untroubled (b.removeEach u ps).1) (hok : (b.removeEach u ps).2 = .ok ()) :
    (b.removeEach u ps).1.context.holds n = true := by
  induction ps generalizing u with
  | nil => simp at hp
  | cons q ps ih =>
      obtain ⟨m', rfl⟩ := hps q List.mem_cons_self
      have hfirst := holding_removeBelowRoot b u (Path.root.push m')
      have hhere := holds_of_removeBelowRoot (b := b) (p := Path.root.push m') (n := n) hskip
      have helse := fun r => entry?_removeBelowRoot_of_not (b := b) (u := u)
        (p := Path.root.push m') (q := r)
      have hopts : (b.removeBelowRoot u (Path.root.push m')).1.context.options =
          u.context.options := by
        have hout := removeBelowRoot_outcome (b := b) (w := u) (p := Path.root.push m')
          Path.push_ne_root
        generalize b.removeBelowRoot u (Path.root.push m') = r at hout
        cases hout with
        | timedOut hrel _ _ => exact hrel.options
        | absent hrel _ _ => exact hrel.options
        | removed _ _ hst => exact hst.options
      simp only [removeEach] at ht hok ⊢
      generalize b.removeBelowRoot u (Path.root.push m') = r
        at hfirst hhere helse hopts ht hok
      obtain ⟨u₁, r⟩ := r
      cases r with
      | error e => simp at hok
      | ok found =>
          have hrest := holding_removeEach b u₁ ps
          have ht₁ : u.Untroubled u₁ :=
            Nat.le_antisymm (Nat.le_trans hrest.traced.timedOut (Nat.le_of_eq ht))
              hfirst.traced.timedOut
          by_cases hm : m' = m
          · rw [hm] at hhere
            exact hrest.keeps n (hhere hseen ht₁)
          · have hmem : Path.root.push m ∈ ps := by
              rcases List.mem_cons.1 hp with heq | hmem
              · exact absurd (Path.push_inj.1 heq).2.symm hm
              · exact hmem
            refine ih (hopts ▸ hskip) (fun q hq => hps q (List.mem_cons_of_mem _ hq)) hmem
              (hseen.congr fun r hr => helse r fun hr' => ?_) (ht.trans ht₁.symm) hok
            -- what lies at, above or below one child of the root is not at or below another
            rcases hr with hr | hr
            · exact hm (Path.push_eq_of_isAtOrBelow hr' hr)
            · exact hm (Path.push_eq_of_isAtOrBelow (Path.isAtOrBelow_trans hr hr')
                (Path.isAtOrBelow_self _))

/-- A removal that is carried out locks what is seen below what it takes away. -/
theorem holds_of_removeNode (hp : q ∈ (Operation.removeNode p).takesAway (b.view u.context))
    (hseen : (b.view u.context).Reaches q n) (ht : u.Untroubled (b.removeNode u p).1)
    (hok : (b.removeNode u p).2.isOk = true) : (b.removeNode u p).1.context.holds n = true := by
  simp only [Operation.takesAway] at hp
  simp only [removeNode] at ht hok ⊢
  by_cases hroot : p.isRoot = true
  · rw [if_pos hroot] at hp ht hok ⊢
    obtain ⟨m, rfl⟩ := View.mem_topLevel hp
    have hchildren := holds_of_removeEach (b := b) (n := n) hskip
      (fun q hq => View.mem_topLevel hq) hp hseen
    have hfirst := holding_removeEach b u (b.view u.context).topLevel
    have hall := removeRoot_cases b u
    generalize b.removeRoot u = r at hall ht hok
    cases hall with
    | stopped _ => simp [Except.isOk, Except.toBool] at hok
    | @emptied u₁ hall =>
        rw [hall] at hchildren hfirst
        have hclear := holding_writing b u₁ .root false () fun e => (e.clearData, ())
        -- no lock was refused before the data of the root were cleared
        exact hclear.keeps n (hchildren (Nat.le_antisymm
          (Nat.le_trans hclear.traced.timedOut (Nat.le_of_eq ht)) hfirst.traced.timedOut) rfl)
  · rw [if_neg hroot] at hp ht hok ⊢
    obtain rfl := List.mem_singleton.1 hp
    exact holds_of_removeBelowRoot hskip hseen ht

/-- A deep move that is carried out locks what is seen below its source and its target. -/
theorem holds_of_moveNode {parent : Path}
    (hp : q ∈ (Operation.moveNode source parent true).takesAway (b.view u.context))
    (hseen : (b.view u.context).Reaches q n) (ht : u.Untroubled (b.moveNode u source parent true).1)
    (hok : (b.moveNode u source parent true).2.isOk = true) :
    (b.moveNode u source parent true).1.context.holds n = true := by
  simp only [Operation.takesAway] at hp
  split at hp
  · rename_i target hplan
    simp only [moveNode, hplan] at ht hok ⊢
    have hcase := (lockMove_cases b u source parent target true).2
    have hgranted : ∀ all, (b.lockMove u source parent target true).2 = .granted all → _ :=
      fun all h => lockMove_granted hskip h
    have hbelow : n ∈ (b.view u.context).descendants q := hseen.mem_descendants
    have hmem : n ∈ (b.view u.context).moveLocks source target true := by
      rcases List.mem_cons.1 hp with rfl | hp
      · simp [View.moveLocks, hbelow]
      · obtain rfl := List.mem_singleton.1 hp
        simp [View.moveLocks, hseen.exists?_above, hbelow]
    generalize b.lockMove u source parent target true = r at hcase hgranted ht hok
    obtain ⟨u₁, grant⟩ := r
    cases grant with
    | declined =>
        rcases hcase with ⟨_, hgrant, -⟩ | ⟨-, hlt⟩ | ⟨-, ⟨hgrant, -⟩ | ⟨hgrant, -⟩⟩
        · simp at hgrant
        · exact absurd ht (Nat.ne_of_gt hlt)
        · simp at hgrant
        · simp at hgrant
    | refused e => simp [Except.isOk, Except.toBool] at hok
    | granted taken =>
        have hlocked := hgranted taken rfl n (List.mem_append_right _ hmem)
        simp only at ht hok ⊢
        cases hm : b.stageMove u₁.context source target with
        | error e =>
            rw [hm] at hok
            simp [Except.isOk, Except.toBool] at hok
        | ok c => exact ((restaged_stageMove hm).holds n).trans hlocked
  · simp at hp

end Seen

end Base

/-- The answer of an operation is a failure if its function fails. -/
theorem isOk_answering {α : Type} (make : α → Answer) (r : Work × Except TreeError α) :
    (answering make r).2.isOk = r.2.isOk := by
  obtain ⟨_, e | a⟩ := r
  · rfl
  · rfl

/-- **An operation that is carried out locks what it sees below what it takes away.** -/
theorem Work.holds_of_takesAway {o : Operation}
    (hskip : u.context.options.skipLocking = false) (ho : o.isDeep = true)
    (hp : p ∈ o.takesAway (b.view u.context)) (hseen : (b.view u.context).Reaches p n)
    (ht : u.Untroubled (b.perform u o).1) (hok : (b.perform u o).2.isOk = true) :
    (b.perform u o).1.context.holds n = true := by
  cases o with
  | removeNode q =>
      exact Base.holds_of_removeNode hskip hp hseen ht ((isOk_answering _ _).symm.trans hok)
  | moveNode source parent deep =>
      obtain rfl : deep = true := ho
      exact Base.holds_of_moveNode hskip hp hseen ht ((isOk_answering _ _).symm.trans hok)
  | _ => simp [Operation.takesAway] at hp

/-! ### Runs -/

namespace SharedTree

variable {s s₀ : SharedTree} {name other : String} {c d : Context} {steps : List Step}

/-- What a unit of work has locked stays locked for as long as it goes on. -/
theorem holds_run (h : s.Settled) (hgo : s.goesOnThroughout name steps = true)
    (hp : ∀ c, s.context? name = some c → c.holds p = true)
    (hc : (s.run steps).context? name = some c) : c.holds p = true := by
  induction steps generalizing s with
  | nil => exact hp c hc
  | cons step steps ih =>
      rw [goesOnThroughout, Bool.and_eq_true] at hgo
      refine ih (h.take step) hgo.2 (fun c' hc' => ?_) hc
      cases leaving_take h hc' with
      | kept hold _ hl =>
          rw [Context.holds, hl]
          exact hp _ hold
      | performed hold _ => exact (Base.holding_perform _ _ _).keeps p (hp _ hold)
      | fresh _ _ hnot =>
          rw [goesOn, Bool.and_eq_true, Bool.not_eq_true', Bool.not_eq_true'] at hgo
          rcases hnot with hbegins | hends
          · rw [hbegins] at hgo
            simp at hgo
          · rw [hends] at hgo
            simp at hgo

/-- The operation is carried out: no lock is refused, and it does not fail. -/
def CarriesOut (s : SharedTree) (name : String) (c : Context) (o : Operation) : Prop :=
  (s.perform name c o).2.isOk = true ∧
    (s.perform name c o).1.store.locks.counts.timedOut = s.store.locks.counts.timedOut

/-- **The unit of work of this name saw `n` go**: since it began it has carried out an operation
that took away a node from which its view reached `n`. -/
def SawGo (s₀ : SharedTree) (steps : List Step) (name : String) (n : Path) : Prop :=
  ∃ (before after : List Step) (o : Operation) (c : Context) (p : Path),
    steps = before ++ .perform name o :: after ∧
    (s₀.run before).context? name = some c ∧ (s₀.run before).CarriesOut name c o ∧
    p ∈ o.takesAway ((s₀.run before).store.base.view c) ∧
    ((s₀.run before).store.base.view c).Reaches p n ∧
    ((s₀.run before).take (.perform name o)).goesOnThroughout name after = true

/-- What a unit of work saw go it has locked. -/
theorem SawGo.holds (h : s₀.SawGo steps name n) (hs : s₀.Sane) (hset : s₀.Settled)
    (hcovered : s₀.Covered) (hsteps : ∀ step ∈ steps, step.isStrict = true)
    (hc : (s₀.run steps).context? name = some c) : c.holds n = true := by
  obtain ⟨before, after, o, c₀, p, rfl, hc₀, hout, hp, hseen, hgo⟩ := h
  rw [run_append, run_cons] at hc
  have hstrict : ∀ step ∈ before, step.isStrict = true := fun step hstep =>
    hsteps step (List.mem_append_left _ hstep)
  have hdeep : o.isDeep = true := hsteps (.perform name o) (by simp)
  have hskip := (hcovered.run hs hstrict name c₀ hc₀).skipLocking
  refine holds_run ((hset.run before).take _) hgo (fun c' hc' => ?_) hc
  rw [take_perform hc₀] at hc'
  obtain rfl := Option.some.inj (context?_perform.symm.trans hc')
  exact Work.holds_of_takesAway hskip hdeep hp hseen hout.2 hout.1

/-- **A commit changes no node that another unit of work has locked**, unless reads are pinned and
the unit of work takes the node away with one above it, which it has never done with the node in its
view.  Parents are locked with the nodes that are inserted and removed, no step skips locking and
subtrees are moved deeply. -/
theorem removal_spares_locked_unless_unseen {config : Config} {hash : Path → UInt64}
    (hparent : config.locking.lockParent = true) (hsteps : ∀ step ∈ steps, step.isStrict = true)
    (hrun : (ofConfig config hash).run steps = s) (hc : s.context? name = some c)
    (hd : s.context? other = some d) (hne : other ≠ name) (hlocked : d.holds n = true)
    (hchanged : (s.commit name c).1.store.tree.peek? n ≠ s.store.tree.peek? n) :
    config.isolation = .repeatableRead ∧
      (∃ p e, p.isAbove n = true ∧ c.entry? p = some e ∧ e.replacesBase = true) ∧
      ¬(ofConfig config hash).SawGo steps name n := by
  subst hrun
  have hsane := sane_ofConfig config hash
  have hset := settled_ofConfig config hash
  have hcovered := covered_ofConfig config hash
  have hconfig := config_run (ofConfig config hash) steps
  have hfree : c.holds n = false := (hset.run steps).disjoint hd hc hne.symm hlocked
  refine ⟨?_, ?_, fun hsaw => ?_⟩
  -- where reads are not pinned a commit changes only what is locked
  · cases hiso : config.isolation with
    | repeatableRead => rfl
    | readCommitted =>
        have hstrict := (strict_ofConfig hiso hparent).run hsane hset hsteps
        have hheld := (hstrict.secured hc).holds_of_commit ((hset.run steps).accounted hc)
          hstrict.isolation hchanged
        rw [hfree] at hheld
        simp at hheld
  -- the node has no dirty entry, since that would be locked
  · by_contra hnone
    refine hchanged (Store.peek?_commit (hsane.run steps).sound (fun e he => ?_) ?_)
    · have hcov := (hcovered.run hsane hsteps name c hc).covered n e he
      rw [← Bool.not_eq_true]
      intro hdirty
      rw [hcov.held (hcov.marked hdirty)] at hfree
      simp at hfree
    · rw [← Bool.not_eq_true]
      intro hcleared
      obtain ⟨p, e, hmem, hp, hb⟩ := clearedAbove_iff.1 hcleared
      exact hnone ⟨p, e, hp, (Workspace.mem_dirty.1 hmem).1, hb⟩
  · rw [hsaw.holds hsane hset hcovered hsteps hc] at hfree
    simp at hfree

/-- Reads are pinned, and parents are locked. -/
def unseenConfig : Config := { locking := { lockParent := true } }

/-- One transaction reads `/a`, which has no children then.  Another one makes `/a/b`, and has it
locked to change it; meanwhile the first one removes `/a`. -/
def unseenSteps : List Step :=
  [.start "s" ⟨"main", 0⟩ (some (1 : Nat)), .start "t" ⟨"main", 0⟩ (some (2 : Nat)),
    .perform "s" (.put ⟨["a"]⟩ "k" (.int 1)), .commit "s",
    .perform "t" (.get ⟨["a"]⟩ "k"),
    .perform "s" (.put ⟨["a", "b"]⟩ "k" (.int 1)), .commit "s",
    .perform "s" (.put ⟨["a", "b"]⟩ "k" (.int 2)),
    .perform "t" (.removeNode ⟨["a"]⟩)]

/-- The state in which the first one is to be committed. -/
def unseenState : SharedTree := (ofConfig unseenConfig).run unseenSteps

/-- A transaction in that state. -/
def unseenContext (name : String) : Context := (unseenState.context? name).getD default

/-- The node goes with `/a`, from which it was never reached. -/
theorem unseen_node_goes :
    (∃ p e, p.isAbove ⟨["a", "b"]⟩ = true ∧ Context.entry? (unseenContext "t") p = some e ∧
      e.replacesBase = true) ∧
    ¬(ofConfig unseenConfig).SawGo unseenSteps "t" ⟨["a", "b"]⟩ := by
  have hsteps : ∀ step ∈ unseenSteps, step.isStrict = true := by decide
  have hc : unseenState.context? "t" = some (unseenContext "t") := by decide +kernel
  have hd : unseenState.context? "s" = some (unseenContext "s") := by decide +kernel
  exact (removal_spares_locked_unless_unseen (n := ⟨["a", "b"]⟩) rfl hsteps
    (Eq.refl unseenState) hc hd (by decide) (by decide +kernel) (by decide +kernel)).2

/-- With pinned reads a commit may take away a node that another unit of work has locked. -/
theorem not_removal_spares_locked :
    ¬∀ (config : Config) (steps : List Step) (name other : String) (c d : Context) (n : Path),
      config.locking.lockParent = true → (∀ step ∈ steps, step.isStrict = true) →
      ((ofConfig config).run steps).context? name = some c →
      ((ofConfig config).run steps).context? other = some d → other ≠ name →
      ((ofConfig config).run steps).store.tree.exists? n = true →
      (((ofConfig config).run steps).commit name c).1.store.tree.exists? n = false →
      d.holds n = false := by
  intro h
  have hfree := h unseenConfig unseenSteps "t" "s" (unseenContext "t") (unseenContext "s")
    ⟨["a", "b"]⟩ rfl (by decide) (by decide +kernel) (by decide +kernel) (by decide)
    (by decide +kernel) (by decide +kernel)
  have hlocked : (unseenContext "s").holds ⟨["a", "b"]⟩ = true := by decide +kernel
  rw [hlocked] at hfree
  simp at hfree

end SharedTree

end TransactionalTree
