/-
**How far listings of children are repeatable.**

When reads are pinned, the first listing of a node keeps the names of its children along with its
data.  But a later listing corrects these names by what the unit of work has found at the children
themselves, and that may be newer: who lists `/a`, then looks for `/a/b`, which others have made or
removed in between, and lists `/a` again, is told something else.

Main definitions:

* `NameSet.settle`, `relist` — the names, corrected by what a look elsewhere finds;
* `Listed` — what is listed is pinned, and it is these names;
* `SharedTree.relisted` — **the names, corrected by all the looks of a run**;
* `SharedTree.contradicted` — some look of a run says otherwise than the names.

Main results:

* `Listed.of_look`, `Listed.look` — what the first listing pins, and what each look does to it;
* `SharedTree.listing_follows_looks` — a later listing is the first one, corrected by the looks in
  between, and is the same **exactly if none of them contradicts it**.
-/

import TransactionalTree.Proofs.Removals
import TransactionalTree.Proofs.RepeatableRead

set_option relaxedAutoImplicit false
set_option autoImplicit false

namespace TransactionalTree

/-! ### Names that are corrected -/

/-- The names, with this one or without it. -/
def NameSet.settle (names : NameSet) (name : String) (found : Bool) : NameSet :=
  if found then names.add name else names.erase name

theorem NameSet.has_settle {names : NameSet} {name other : String} {found : Bool} :
    (names.settle name found).has other = true ↔
      if other = name then found = true else names.has other = true := by
  cases found with
  | true =>
      rw [settle, if_pos rfl, SortedSet.has_add]
      split <;> simp_all
  | false =>
      rw [settle, if_neg (by simp), SortedSet.has_erase]
      split <;> simp_all

/-- What a look at `q` makes of the names listed at `p`: nothing is left when something above is
not found, and a child is listed if it is found. -/
def relist (p : Path) (ns : Option NameSet) (q : Path) (found : Bool) : Option NameSet :=
  if q.isAbove p && !found then none
  else if q.isChildOf p then ns.map (·.settle (q.name?.getD "") found)
  else ns

section Relist

variable {p q : Path} {ns : Option NameSet} {name : String} {found : Bool}

theorem relist_push : relist p ns (p.push name) found = ns.map (·.settle name found) := by
  have hchild : (p.push name).isChildOf p = true := Path.isChildOf_iff.2 ⟨name, rfl⟩
  have hnot : ¬(p.push name).isAbove p = true := fun h =>
    Path.not_isAbove_self p (Path.isAbove_trans (Path.isAbove_push_self p name) h)
  simp [relist, hchild, hnot]

theorem relist_lost (h : q.isAbove p = true) : relist p ns q false = none := by
  simp [relist, h]

/-- A look elsewhere leaves the names. -/
theorem relist_of_not (hlost : ¬(q.isAbove p = true ∧ found = false))
    (hchild : ∀ name, q ≠ p.push name) : relist p ns q found = ns := by
  have hnot : ¬q.isChildOf p = true := fun h => by
    obtain ⟨name, rfl⟩ := Path.isChildOf_iff.1 h
    exact hchild name rfl
  rw [relist, if_neg (by simpa using hlost), if_neg hnot]

theorem relist_self : relist p ns p found = ns :=
  relist_of_not (fun h => Path.not_isAbove_self p h.1) fun name h =>
    Path.not_isAbove_self p (by
      nth_rewrite 2 [h]
      exact Path.isAbove_push_self p name)

theorem relist_none : relist p none q found = none := by
  simp [relist]

end Relist

/-! ### What a workspace lists -/

section Views

variable {b : Base} {w : Workspace} {p q : Path} {e : Entry} {name : String} {n : Node}

namespace View

/-- **A new entry for a child** decides about its name, and about nothing else. -/
theorem childNames_insert_push : (View.mk b (w.insert (p.push name) e)).childNames p =
    ((View.mk b w).childNames p).map (·.settle name e.isPresent) := by
  have hnot : ¬p.isAtOrBelow (p.push name) = true := by
    rw [Path.isAtOrBelow_iff]
    rintro (h | h)
    · exact Path.ne_of_isAbove (Path.isAbove_push_self p name) h
    · exact Path.not_isAbove_self p (Path.isAbove_trans (Path.isAbove_push_self p name) h)
  have hbase : ∀ l, (View.mk b (w.insert (p.push name) e)).baseChildNames p l =
      (View.mk b w).baseChildNames p l := by
    intro l
    cases l <;> rfl
  rw [childNames, childNames, locate_insert_of_not hnot, childNamesAt, childNamesAt, hbase,
    Option.map_map]
  refine congrArg (Option.map · _) (funext fun names => SortedSet.ext_has fun other => ?_)
  rw [Function.comp, NameSet.has_settle]
  have hover : ∀ u : Workspace, ((u.childrenOf p).foldl overlayChild names).has other = true ↔ _ :=
    fun u => has_overlay (v := View.mk b u)
  rw [hover, hover, SortedMap.get?_insert]
  by_cases hother : other = name
  · simp [hother]
  · simp [hother, Path.push_inj]

/-- The entry that a child has agrees with the names. -/
theorem childNames_settle (he : w.get? (p.push name) = some e) :
    ((View.mk b w).childNames p).map (·.settle name e.isPresent) = (View.mk b w).childNames p := by
  rw [← childNames_insert_push, SortedMap.insert_eq_self he]

theorem childNames_of_isCutOff (h : (View.mk b w).isCutOff p = true) :
    (View.mk b w).childNames p = none := by
  rw [childNames, locate, if_pos h]
  rfl

theorem childNames_of_absent (he : w.get? p = some e) (hp : e.isPresent = false) :
    (View.mk b w).childNames p = none := by
  by_cases hc : (View.mk b w).isCutOff p = true
  · exact childNames_of_isCutOff hc
  · rw [childNames, locate_of_entry hc he, if_neg (by simp [hp])]
    rfl

/-- What has a present entry and is not cut off lists what the entry and the entries of its children
say, if reads are pinned. -/
theorem childNames_of_staged (hl : (View.mk b w).locate p = .staged e) (hc : e.created = false)
    (hr : b.isRepeatable = true) :
    (View.mk b w).childNames p = some ((w.childrenOf p).foldl overlayChild e.children) := by
  rw [childNames, hl, childNamesAt, baseChildNames, if_neg (by simp [hc]), if_pos hr]
  rfl

end View

end Views

/-- Without the option to lock, a listing answers what is listed after the look. -/
theorem answer_getChildNames {b : Base} {u : Work} {p : Path}
    (hforce : u.context.options.forceWriteLock = false) :
    (b.perform u (.getChildNames p)).2 =
      .ok (.names ((b.view (b.look u p).1.context).childNames p)) := by
  obtain ⟨-, -, hl, -⟩ := b.look_found u p
  simp only [Base.perform, answering, Base.getChildNames, reading_eq hforce, Except.map, hl]
  rfl

/-! ### Listings that are pinned -/

/-- What the workspace says of `p` is pinned, and these names are listed there, whatever the
committed tree is. -/
structure Listed (w : Workspace) (p : Path) (ns : Option NameSet) : Prop where
  /-- What is said of `p` is pinned. -/
  pinned : ∃ d, Pinned w p d
  /-- These names are listed. -/
  names : ∀ b : Base, b.isRepeatable = true → (View.mk b w).childNames p = ns

namespace Listed

variable {b : Base} {w : Workspace} {p q : Path} {ns : Option NameSet} {m : LockManager}
variable {c : Context} {name : String} {n : Node} {e : Entry}

theorem childNames_of_hidden (h : w.hasChanges = false) (hl : (View.mk b w).locate p = .hidden)
    (b' : Base) : (View.mk b' w).childNames p = none := by
  rcases Pinned.of_hidden h hl with hcut | ⟨e, he, hp⟩
  · exact View.childNames_of_isCutOff hcut
  · exact View.childNames_of_absent he hp

/-- **The first pinned look** pins the names that are listed. -/
theorem of_look (h : c.workspace.hasChanges = false) (hr : b.isRepeatable = true) (p : Path) :
    Listed (b.look ⟨m, c⟩ p).1.context.workspace p ((b.view c).childNames p) := by
  refine ⟨⟨_, Pinned.of_look h hr p⟩, fun b' hr' => ?_⟩
  rcases (look_cases hr ⟨m, c⟩ p).2 with ⟨hw, ⟨e, hl⟩ | hl⟩ | ⟨n, hl, hw⟩ | ⟨hl, hw⟩
  · rw [hw]
    have hc : e.created = false := Pinned.not_created h (View.locate_eq_staged.1 hl).2.1
    obtain ⟨hcut, he, hp⟩ := View.locate_eq_staged.1 hl
    have hl' : (View.mk b' c.workspace).locate p = .staged e :=
      View.locate_eq_staged.2 ⟨hcut, he, hp⟩
    rw [View.childNames_of_staged hl' hc hr']
    exact (View.childNames_of_staged hl hc hr).symm
  · rw [hw, childNames_of_hidden h hl b']
    exact (childNames_of_hidden h hl b).symm
  · rw [hw]
    have hl' : (View.mk b' (c.workspace.insert p (b.copy p n))).locate p = .staged (b.copy p n) :=
      View.locate_insert_present (View.locate_eq_committed.1 hl).1 rfl
    rw [View.childNames_of_staged hl' rfl hr', View.childNames, hl]
    -- the copy lists what the committed node does, and the children have the same entries
    exact congrArg some (View.overlay_congr fun name =>
      SortedMap.get?_insert_of_ne (Path.ne_of_isAbove (Path.isAbove_push_self p name)).symm)
  · rw [hw, View.childNames_of_absent SortedMap.get?_insert_self rfl, View.childNames, hl]
    rfl

/-- A copy or a mark that is added does to the names what a look does that finds it. -/
theorem insert (h : Listed w p ns) (hq : w.get? q = none) (hqp : q ≠ p) (hc : e.created = false)
    (hr : b.isRepeatable = true) :
    (View.mk b (w.insert q e)).childNames p = relist p ns q e.isPresent := by
  rw [← h.names b hr]
  by_cases hchild : ∃ name, q = p.push name
  · obtain ⟨name, rfl⟩ := hchild
    rw [relist_push, View.childNames_insert_push]
  · have hchild : ∀ name, q ≠ p.push name := fun name he => hchild ⟨name, he⟩
    by_cases hlost : q.isAbove p = true ∧ e.isPresent = false
    · rw [hlost.2, relist_lost hlost.1]
      exact View.childNames_of_isCutOff
        (View.isCutOff_iff.2 ⟨q, e, hlost.1, SortedMap.get?_insert_self, hlost.2⟩)
    · rw [relist_of_not hlost hchild]
      have hq' : w.get? q = none := hq
      refine View.childNames_congr ?_ fun name =>
        SortedMap.get?_insert_of_ne fun he => hchild name he.symm
      by_cases habove : q.isAbove p = true
      -- a copy above hides nothing
      · have hp : e.isPresent = true := by simpa [habove] using hlost
        exact View.locate_insert_of_ne hqp.symm (by rw [hq', hp]; rfl) (by rw [hq', hc]; rfl)
      · refine View.locate_insert_of_not fun hat => ?_
        rcases Path.isAtOrBelow_iff.1 hat with he | ha
        · exact hqp he.symm
        · exact habove ha

/-- A node that has an entry is found, and listed where it is a child. -/
theorem relist_of_staged (h : Listed w p ns) (hr : b.isRepeatable = true)
    (hl : (View.mk b w).locate q = .staged e) : relist p ns q true = ns := by
  obtain ⟨-, he, hp⟩ := View.locate_eq_staged.1 hl
  by_cases hchild : ∃ name, q = p.push name
  · obtain ⟨name, rfl⟩ := hchild
    have hsettle := View.childNames_settle (b := b) he
    rwa [h.names b hr, hp, ← relist_push] at hsettle
  · exact relist_of_not (by simp) fun name he => hchild ⟨name, he⟩

/-- What is hidden is not found, and not listed where it would be a child. -/
theorem relist_of_hidden (h : Listed w p ns) (hr : b.isRepeatable = true)
    (hl : (View.mk b w).locate q = .hidden) : relist p ns q false = ns := by
  obtain ⟨d, hpin⟩ := h.pinned
  have hns := h.names b hr
  have hhidden := Pinned.of_hidden hpin.clean hl
  by_cases hchild : ∃ name, q = p.push name
  · obtain ⟨name, rfl⟩ := hchild
    rcases hhidden with hcut | ⟨e, he, hp⟩
    -- what cuts the child off is at the place itself or above it
    · obtain ⟨r, e, hr', he, hp⟩ := View.isCutOff_iff.1 hcut
      have hnone : (View.mk b w).childNames p = none := by
        rcases Path.isAtOrBelow_iff.1 (Path.isAbove_push.1 hr') with rfl | habove
        · exact View.childNames_of_absent he hp
        · exact View.childNames_of_isCutOff (View.isCutOff_iff.2 ⟨r, e, habove, he, hp⟩)
      rw [← hns, hnone, relist_none]
    · have hsettle := View.childNames_settle (b := b) he
      rwa [hns, hp, ← relist_push] at hsettle
  · have hchild : ∀ name, q ≠ p.push name := fun name he => hchild ⟨name, he⟩
    by_cases habove : q.isAbove p = true
    · have hcut : (View.mk b w).isCutOff p = true := by
        rcases hhidden with hcut | ⟨e, he, hp⟩
        · exact View.isCutOff_of_isAbove habove hcut
        · exact View.isCutOff_iff.2 ⟨q, e, habove, he, hp⟩
      rw [relist_lost habove, ← hns, View.childNames_of_isCutOff hcut]
    · exact relist_of_not (fun hlost => habove hlost.1) hchild

/-- **A pinned look** corrects the names by what it finds. -/
theorem look (h : Listed c.workspace p ns) (hr : b.isRepeatable = true) (q : Path) :
    Listed (b.look ⟨m, c⟩ q).1.context.workspace p (relist p ns q ((b.view c).exists? q)) := by
  obtain ⟨d, hp⟩ := h.pinned
  refine ⟨⟨_, hp.look hr q⟩, fun b' hr' => ?_⟩
  rcases (look_cases hr ⟨m, c⟩ q).2 with ⟨hw, ⟨e, hl⟩ | hl⟩ | ⟨n, hl, hw⟩ | ⟨hl, hw⟩
  · rw [hw, View.exists?, hl, h.names b' hr']
    exact (h.relist_of_staged hr hl).symm
  · rw [hw, View.exists?, hl, h.names b' hr']
    exact (h.relist_of_hidden hr hl).symm
  · obtain ⟨hc, hget, -, -⟩ := View.locate_eq_committed.1 hl
    rw [hw, View.exists?, hl]
    exact h.insert hget (hp.settled_insert (e := b.copy q n) hget hc b).1 rfl hr'
  · obtain ⟨hc, hget, -, -⟩ := View.locate_eq_missing.1 hl
    rw [hw, View.exists?, hl]
    exact h.insert hget (hp.settled_insert (e := .absent) hget hc b).1 rfl hr'

/-- An entry stays where it is when something is looked for. -/
theorem get?_look (hr : b.isRepeatable = true) (he : c.workspace.get? p = some e) (q : Path) :
    (b.look ⟨m, c⟩ q).1.context.workspace.get? p = some e := by
  have hinsert : ∀ f : Entry, c.workspace.get? q = none →
      SortedMap.get? (c.workspace.insert q f) p = some e := by
    intro f hq
    refine (SortedMap.get?_insert_of_ne ?_).trans he
    rintro rfl
    rw [hq] at he
    simp at he
  rcases (look_cases hr ⟨m, c⟩ q).2 with ⟨hw, -⟩ | ⟨n, hl, hw⟩ | ⟨hl, hw⟩
  · rw [hw]
    exact he
  · rw [hw]
    exact hinsert _ (View.locate_eq_committed.1 hl).2.1
  · rw [hw]
    exact hinsert _ (View.locate_eq_missing.1 hl).2.1

end Listed

/-- **What is pinned says otherwise** than these names, and stays so: there is no node any more, or
the entry of a child does not agree. -/
inductive Denied (w : Workspace) (p : Path) (ns : Option NameSet) : Prop where
  /-- Names were listed, and now there is no node. -/
  | lost (hsome : ns ≠ none) (h : Listed w p none)
  /-- The entry of a child does not agree. -/
  | child (name : String) (e : Entry) (he : w.get? (p.push name) = some e)
      (hne : ns.map (·.settle name e.isPresent) ≠ ns)

namespace Denied

variable {b : Base} {w : Workspace} {p q : Path} {ns ns' : Option NameSet} {m : LockManager}
variable {c : Context}

/-- Other names are listed than those that are denied. -/
theorem ne (h : Denied w p ns) (hl : Listed w p ns') : ns' ≠ ns := by
  have hnames := hl.names ⟨.repeatableRead, default⟩ rfl
  cases h with
  | lost hsome hnone =>
      rw [← hnames, hnone.names _ rfl]
      exact hsome.symm
  | child name e he hne =>
      rintro rfl
      refine hne ?_
      rw [← hnames, View.childNames_settle he]

/-- No look takes back what is denied. -/
theorem look (h : Denied c.workspace p ns) (hr : b.isRepeatable = true) (q : Path) :
    Denied (b.look ⟨m, c⟩ q).1.context.workspace p ns := by
  cases h with
  | lost hsome hnone =>
      have hlook := hnone.look (m := m) hr q
      rw [relist_none] at hlook
      exact .lost hsome hlook
  | child name e he hne => exact .child name e (Listed.get?_look hr he q) hne

/-- **A look that corrects the names** denies them. -/
theorem of_look (h : Listed c.workspace p ns) (hr : b.isRepeatable = true)
    (hne : relist p ns q ((b.view c).exists? q) ≠ ns) :
    Denied (b.look ⟨m, c⟩ q).1.context.workspace p ns := by
  have hlisted := h.look (m := m) hr q
  rw [View.exists?] at hne hlisted
  -- a copy or a mark that is new is for a child or above, or the names would be the same
  have hnew : ∀ e : Entry, (b.look ⟨m, c⟩ q).1.context.workspace = c.workspace.insert q e →
      ((b.view c).locate q).isPresent = e.isPresent →
      Denied (b.look ⟨m, c⟩ q).1.context.workspace p ns := by
    intro e hw hp
    rw [hp] at hne hlisted
    by_cases hchild : ∃ name, q = p.push name
    · obtain ⟨name, rfl⟩ := hchild
      refine .child name e ?_ (by rwa [relist_push] at hne)
      rw [hw]
      exact SortedMap.get?_insert_self
    · by_cases hlost : q.isAbove p = true ∧ e.isPresent = false
      · rw [hlost.2, relist_lost hlost.1] at hne hlisted
        exact .lost hne.symm hlisted
      · exact absurd (relist_of_not hlost fun name he => hchild ⟨name, he⟩) hne
  rcases (look_cases hr ⟨m, c⟩ q).2 with ⟨-, ⟨e, hl⟩ | hl⟩ | ⟨n, hl, hw⟩ | ⟨hl, hw⟩
  · rw [hl] at hne
    exact absurd (h.relist_of_staged hr hl) hne
  · rw [hl] at hne
    exact absurd (h.relist_of_hidden hr hl) hne
  · exact hnew _ hw (by rw [hl]; rfl)
  · exact hnew _ hw (by rw [hl]; rfl)

end Denied

/-! ### Runs of a unit of work that only reads -/

namespace SharedTree

variable {s : SharedTree} {name : String} {c : Context} {p : Path} {ns ns' : Option NameSet}
variable {step : Step} {steps : List Step}

/-- The names, corrected by what the unit of work finds in this step. -/
def relistedBy (s : SharedTree) (name : String) (p : Path) (ns : Option NameSet) (step : Step) :
    Option NameSet :=
  (step.lookPath? name).elim ns fun q =>
    relist p ns q ((s.context? name).any fun c => (s.store.base.view c).exists? q)

/-- **The names, corrected by all that the unit of work finds in this run.** -/
def relisted (s : SharedTree) (name : String) (p : Path) (ns : Option NameSet) :
    List Step → Option NameSet
  | [] => ns
  | step :: steps => (s.take step).relisted name p (s.relistedBy name p ns step) steps

/-- In this run the unit of work finds something that says otherwise than the names. -/
def contradicted (s : SharedTree) (name : String) (p : Path) (ns : Option NameSet) :
    List Step → Bool
  | [] => false
  | step :: steps => s.relistedBy name p ns step ≠ ns || (s.take step).contradicted name p ns steps

/-- The unit of work reads without locking, and has pinned this listing. -/
structure HasListed (s : SharedTree) (name : String) (p : Path) (ns : Option NameSet) : Prop where
  /-- Reads are pinned. -/
  repeatable : s.store.base.isRepeatable = true
  /-- The unit of work has pinned this listing. -/
  listed : ∃ c, s.context? name = some c ∧ c.options.forceWriteLock = false ∧
    Listed c.workspace p ns

/-- A quiet step corrects the names by what it finds. -/
theorem HasListed.take (h : s.HasListed name p ns) (hq : step.isQuietFor name = true) :
    (s.take step).HasListed name p (s.relistedBy name p ns step) := by
  obtain ⟨hr, c, hc, hforce, hl⟩ := h
  obtain ⟨c', hc', hforce', hw⟩ := take_quiet hc hforce hr hq
  refine ⟨isRepeatable_take hr step, c', hc', hforce', ?_⟩
  rw [hw, relistedBy, hc]
  cases step.lookPath? name with
  | none => exact hl
  | some q => exact hl.look hr q

/-- A quiet run corrects the names by all that it finds. -/
theorem HasListed.run (h : s.HasListed name p ns)
    (hq : ∀ step ∈ steps, step.isQuietFor name = true) :
    (s.run steps).HasListed name p (s.relisted name p ns steps) := by
  induction steps generalizing s ns with
  | nil => exact h
  | cons step steps ih =>
      rw [run_cons, relisted]
      exact ih (h.take (hq step List.mem_cons_self))
        fun step' hmem => hq step' (List.mem_cons_of_mem _ hmem)

/-- A listing answers what has been pinned. -/
theorem HasListed.ask (h : s.HasListed name p ns) :
    s.ask name (.getChildNames p) = some (.ok (.names ns)) := by
  obtain ⟨hr, c, hc, hforce, hl⟩ := h
  have hnames : (s.store.base.view
      (s.store.base.look ⟨s.store.locks, c⟩ p).1.context).childNames p = ns :=
    ((hl.look hr p).names s.store.base hr).trans relist_self
  rw [SharedTree.ask, hc, ← hnames]
  exact congrArg some (answer_getChildNames hforce)

/-- In this state the unit of work has pinned something that says otherwise than these names. -/
def HasDenied (s : SharedTree) (name : String) (p : Path) (ns : Option NameSet) : Prop :=
  ∃ c, s.context? name = some c ∧ Denied c.workspace p ns

/-- What is denied stays denied in a quiet step. -/
theorem HasDenied.take (h : s.HasDenied name p ns) (hl : s.HasListed name p ns')
    (hq : step.isQuietFor name = true) : (s.take step).HasDenied name p ns := by
  obtain ⟨hr, c, hc, hforce, -⟩ := hl
  obtain ⟨c₁, hc₁, hdenied⟩ := h
  obtain rfl := Option.some.inj (hc.symm.trans hc₁)
  obtain ⟨c', hc', -, hw⟩ := take_quiet hc hforce hr hq
  refine ⟨c', hc', ?_⟩
  rw [hw]
  cases step.lookPath? name with
  | none => exact hdenied
  | some q => exact hdenied.look hr q

/-- A quiet step that corrects the names denies them. -/
theorem HasListed.denied (h : s.HasListed name p ns) (hq : step.isQuietFor name = true)
    (hne : s.relistedBy name p ns step ≠ ns) : (s.take step).HasDenied name p ns := by
  obtain ⟨hr, c, hc, hforce, hl⟩ := h
  obtain ⟨c', hc', -, hw⟩ := take_quiet hc hforce hr hq
  refine ⟨c', hc', ?_⟩
  rw [relistedBy, hc] at hne
  rw [hw]
  cases hlook : step.lookPath? name with
  | none =>
      rw [hlook] at hne
      exact absurd rfl hne
  | some q =>
      rw [hlook] at hne
      exact .of_look hl hr hne

/-- In a quiet run the names never become those that are denied. -/
theorem HasDenied.relisted_ne (h : s.HasDenied name p ns) (hl : s.HasListed name p ns')
    (hq : ∀ step ∈ steps, step.isQuietFor name = true) :
    s.relisted name p ns' steps ≠ ns := by
  induction steps generalizing s ns' with
  | nil =>
      obtain ⟨-, c, hc, -, hlisted⟩ := hl
      obtain ⟨c₁, hc₁, hdenied⟩ := h
      obtain rfl := Option.some.inj (hc.symm.trans hc₁)
      exact hdenied.ne hlisted
  | cons step steps ih =>
      have hstep := hq step List.mem_cons_self
      exact ih (h.take hl hstep) (hl.take hstep)
        fun step' hmem => hq step' (List.mem_cons_of_mem _ hmem)

/-- **A quiet run changes the names exactly if some look contradicts them.** -/
theorem HasListed.relisted_eq_iff (h : s.HasListed name p ns)
    (hq : ∀ step ∈ steps, step.isQuietFor name = true) :
    s.relisted name p ns steps = ns ↔ s.contradicted name p ns steps = false := by
  induction steps generalizing s with
  | nil => simp [relisted, contradicted]
  | cons step steps ih =>
      have hstep := hq step List.mem_cons_self
      have hrest := fun step' hmem => hq step' (List.mem_cons_of_mem step hmem)
      rw [relisted, contradicted]
      by_cases hsame : s.relistedBy name p ns step = ns
      · have hnext := h.take hstep
        rw [hsame] at hnext
        rw [hsame, ih hnext hrest]
        simp
      · have hne := (h.denied hstep hsame).relisted_ne (h.take hstep) hrest
        simp [hsame, hne]

/-- The first listing pins the names that it answers. -/
theorem HasListed.of_listing (hr : s.store.base.isRepeatable = true)
    (hc : s.context? name = some c) (hclean : c.hasChanges = false)
    (hforce : c.options.forceWriteLock = false) :
    (s.take (.perform name (.getChildNames p))).HasListed name p
        ((s.store.base.view c).childNames p) ∧
      s.ask name (.getChildNames p) =
        some (.ok (.names ((s.store.base.view c).childNames p))) := by
  have hread := perform_read (b := s.store.base) (w := ⟨s.store.locks, c⟩)
    (show (Operation.getChildNames p).readPath? = some p from rfl) hforce
  have hlisted : Listed (s.store.base.look ⟨s.store.locks, c⟩ p).1.context.workspace p
      ((s.store.base.view c).childNames p) := .of_look hclean hr p
  constructor
  · refine ⟨isRepeatable_take hr _, _, by rw [take_perform hc]; exact context?_perform, ?_, ?_⟩
    · rw [hread, (look_cases hr ⟨s.store.locks, c⟩ p).1]
      exact hforce
    · rw [hread]
      exact hlisted
  · rw [SharedTree.ask, hc, ← hlisted.names s.store.base hr]
    exact congrArg some (answer_getChildNames hforce)

/-- **A later listing follows the looks in between.**  A unit of work that has changed nothing lists
the children of a node, and then only reads while others do what they like.  A later listing
answers the names of the first one, corrected by what was found in between; it is the same listing
exactly if nothing that was found says otherwise. -/
theorem listing_follows_looks (s : SharedTree) (name : String) (p : Path) (steps : List Step)
    (hiso : s.store.config.isolation = .repeatableRead) (hc : s.context? name = some c)
    (hclean : c.hasChanges = false) (hforce : c.options.forceWriteLock = false)
    (hq : ∀ step ∈ steps, step.isQuietFor name = true) :
    let listing := Operation.getChildNames p
    let first := s.take (.perform name listing)
    ∃ ns, s.ask name listing = some (.ok (.names ns)) ∧
      (first.run steps).ask name listing =
        some (.ok (.names (first.relisted name p ns steps))) ∧
      ((first.run steps).ask name listing = s.ask name listing ↔
        first.contradicted name p ns steps = false) := by
  intro listing first
  have hr : s.store.base.isRepeatable = true := by
    simp [Base.isRepeatable, Store.base, hiso]
  obtain ⟨hfirst, hanswer⟩ := HasListed.of_listing (p := p) hr hc hclean hforce
  have hlater := (hfirst.run hq).ask
  refine ⟨_, hanswer, hlater, ?_⟩
  rw [hanswer, hlater, ← hfirst.relisted_eq_iff hq]
  simp

/-- One transaction makes `/a`; another one is under way. -/
def listedState : SharedTree :=
  (ofConfig {}).run
    [.start "s" ⟨"main", 0⟩ (some (1 : Nat)), .start "t" ⟨"main", 0⟩ (some (2 : Nat)),
      .perform "s" (.put ⟨["a"]⟩ "k" (.int 1)), .commit "s"]

/-- The first transaction makes `/a/b`, and the other one looks there. -/
def addingSteps : List Step :=
  [.perform "s" (.put ⟨["a", "b"]⟩ "k" (.int 2)), .commit "s",
    .perform "t" (.nodeExists ⟨["a", "b"]⟩)]

/-- The second listing does not answer what the first one does. -/
theorem listing_corrected :
    ((listedState.take (.perform "t" (.getChildNames ⟨["a"]⟩))).run addingSteps).ask "t"
      (.getChildNames ⟨["a"]⟩) ≠ listedState.ask "t" (.getChildNames ⟨["a"]⟩) := by
  obtain ⟨ns, hfirst, -, hiff⟩ := listing_follows_looks listedState "t" ⟨["a"]⟩ addingSteps
    (c := (listedState.context? "t").getD default) (by decide +kernel) (by decide +kernel)
    (by decide +kernel) (by decide +kernel) (by decide +kernel)
  have hempty : listedState.ask "t" (.getChildNames ⟨["a"]⟩) =
      some (.ok (.names (some .empty))) := by
    decide +kernel
  rw [hempty] at hfirst
  obtain rfl : some SortedMap.empty = ns := by simpa using hfirst
  intro hsame
  have hnot := hiff.1 hsame
  revert hnot
  decide +kernel

/-- Not all listings are repeatable: the first listing of `/a` answers no name, and the second one
answers `b`. -/
theorem not_repeatable_listing :
    ¬∀ (s : SharedTree) (name : String) (c : Context) (p : Path) (steps : List Step),
      s.Reachable → s.store.config.isolation = .repeatableRead →
      s.context? name = some c → c.hasChanges = false → c.options.forceWriteLock = false →
      (∀ step ∈ steps, step.isQuietFor name = true) →
      ((s.take (.perform name (.getChildNames p))).run steps).ask name (.getChildNames p) =
        s.ask name (.getChildNames p) := by
  intro h
  have hsame := h listedState "t" ((listedState.context? "t").getD default) ⟨["a"]⟩ addingSteps
    ⟨{}, _, _, rfl⟩ (by decide +kernel) (by decide +kernel) (by decide +kernel) (by decide +kernel)
    (by decide +kernel)
  have hfirst : listedState.ask "t" (.getChildNames ⟨["a"]⟩) =
      some (.ok (.names (some .empty))) := by
    decide +kernel
  have hsecond : ((listedState.take (.perform "t" (.getChildNames ⟨["a"]⟩))).run addingSteps).ask
      "t" (.getChildNames ⟨["a"]⟩) = some (.ok (.names (some (SortedSet.ofElements ["b"])))) := by
    decide +kernel
  rw [hfirst, hsecond] at hsame
  revert hsame
  decide +kernel

end SharedTree

end TransactionalTree
