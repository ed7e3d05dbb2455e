/-
**The search for what is below a node.**

What is below a node is searched for with a list of places to look at.  The place in front is looked
at, and if there is a node, then it is found, and the places of its children are put in front of the
others.  As long as all names in view are good, the search ends, with the nodes that the view lists:
each once, after its parent, and exactly those to which names of children lead.  An empty name among
the children of a node stands for the node itself, and then there is no end.

Main definitions:

* `Search`, `View.searchStep` — a search under way, and a look at the place in front;
* `View.WellNamed` — all names in view are good;
* `View.Leads` — a search comes to a state after some looks.

Main results:

* `View.WellNamed.leads_visit` — the search goes through a place and all below it, and goes on;
* `View.search_endless` — with an empty name it never ends;
* `View.mem_descendants_iff` — what is found is what names of children lead to;
* `SharedTree.Undisturbed.run_own` — nobody else commits, so the committed nodes stay;
* `View.search_exact` — **the search ends and is exact**.
-/

import Mathlib.Logic.Function.Iterate
import TransactionalTree.Proofs.GoodNames
import TransactionalTree.Proofs.PathTexts
import TransactionalTree.Proofs.Removals
import TransactionalTree.Proofs.SpuriousSkew

set_option relaxedAutoImplicit false
set_option autoImplicit false

namespace TransactionalTree

/-- A search under way. -/
structure Search where
  /-- The places that are to be looked at, the next one first. -/
  pending : List Path
  /-- The nodes that were found, the first one first. -/
  found : List Path
deriving DecidableEq, Repr, Inhabited

namespace View

variable {v : View} {p q r : Path} {name : String} {names : NameSet} {s s' s'' : Search}
  {rest found : List Path} {fuel : Nat}

/-! ### Looking at the place in front -/

/-- **Look at the place in front**, in a search for what is below `p`, which is not found itself. -/
def searchStep (v : View) (p : Path) (s : Search) : Search :=
  match s.pending with
  | [] => s
  | q :: rest =>
      match v.childNames q with
      | none => { s with pending := rest }
      | some names =>
          { pending := names.keys.map q.child ++ rest
            found := if q = p then s.found else s.found ++ [q] }

theorem searchStep_of_none (hn : v.childNames q = none) :
    v.searchStep p ⟨q :: rest, found⟩ = ⟨rest, found⟩ := by
  simp only [searchStep, hn]

/-- The search comes to the state after some looks. -/
def Leads (v : View) (p : Path) (s s' : Search) : Prop := ∃ n, (v.searchStep p)^[n] s = s'

namespace Leads

theorem refl (s : Search) : v.Leads p s s := ⟨0, rfl⟩

theorem step (h : v.Leads p (v.searchStep p s) s') : v.Leads p s s' := by
  obtain ⟨n, hn⟩ := h
  exact ⟨n + 1, by rw [Function.iterate_succ_apply, hn]⟩

theorem trans (h : v.Leads p s s') (h' : v.Leads p s' s'') : v.Leads p s s'' := by
  obtain ⟨n, rfl⟩ := h
  obtain ⟨m, rfl⟩ := h'
  exact ⟨m + n, Function.iterate_add_apply _ m n s⟩

/-- Places that are gone through one by one are gone through. -/
theorem flatMap {α : Type} {as : List α} {place : α → Path} {below : α → List Path}
    (h : ∀ a ∈ as, ∀ rest found,
      v.Leads p ⟨place a :: rest, found⟩ ⟨rest, found ++ below a⟩) (rest found : List Path) :
    v.Leads p ⟨as.map place ++ rest, found⟩ ⟨rest, found ++ as.flatMap below⟩ := by
  induction as generalizing found with
  | nil =>
      rw [List.flatMap_nil, List.append_nil]
      exact refl _
  | cons a as ih =>
      rw [List.flatMap_cons, ← List.append_assoc]
      exact (h a List.mem_cons_self _ _).trans
        (ih (fun a' ha => h a' (List.mem_cons_of_mem _ ha)) _)

end Leads

/-- A search at its end stays there. -/
theorem iterate_searchStep_of_nil (n : Nat) :
    (v.searchStep p)^[n] ⟨[], found⟩ = ⟨[], found⟩ :=
  Function.iterate_fixed rfl n

/-! ### Good names -/

/-- **All names in view are good**: those of the places of entries, those that entries have pinned,
and those of the places of committed nodes. -/
def WellNamed (v : View) : Prop :=
  (∀ a ∈ v.workspace.toList, a.1.WellFormed ∧ ∀ name ∈ a.2.children.keys, Path.GoodName name) ∧
    ∀ a ∈ v.base.tree.slots.toList, a.1.WellFormed

instance (v : View) : Decidable v.WellNamed := inferInstanceAs (Decidable (_ ∧ _))

namespace WellNamed

theorem goodPlaces (h : v.WellNamed) : v.GoodPlaces where
  committed p n hn := h.2 (p, n) (SortedMap.get?_eq_some_iff.1 hn)
  staged p e he _ := by
    obtain ⟨hp, hnames⟩ := h.1 (p, e) (SortedMap.get?_eq_some_iff.1 he)
    exact ⟨hp, fun name hm => hnames name (SortedSet.mem_keys.2 hm)⟩

/-- The names of the children are good. -/
theorem goodName (h : v.WellNamed) (hn : v.childNames q = some names)
    (hm : names.has name = true) : Path.GoodName name :=
  h.goodPlaces.goodName hn hm

/-- So a look puts the places of the children in front. -/
theorem searchStep_of_some (h : v.WellNamed) (hn : v.childNames q = some names) :
    v.searchStep p ⟨q :: rest, found⟩ =
      ⟨names.keys.map q.push ++ rest, if q = p then found else found ++ [q]⟩ := by
  have hpush : names.keys.map q.child = names.keys.map q.push :=
    List.map_congr_left fun name hname =>
      Path.child_eq_push (h.goodName hn (SortedSet.mem_keys.1 hname))
  simp only [searchStep, hn, hpush]

end WellNamed

/-! ### The end of the search -/

/-- The node at a place, if there is one, and what is found below it. -/
def visit (v : View) (fuel : Nat) (q : Path) : List Path :=
  if v.exists? q then q :: v.descend fuel q else []

theorem descend_succ (hn : v.childNames q = some names) :
    v.descend (fuel + 1) q = names.keys.flatMap fun name => v.visit fuel (q.push name) := by
  simp only [descend, hn, visit]

theorem leads_visit_of_none (hn : v.childNames q = none) (rest found : List Path) :
    v.Leads p ⟨q :: rest, found⟩ ⟨rest, found ++ v.visit fuel q⟩ := by
  have hno : ¬v.exists? q = true := by simp [← childNames_isSome, hn]
  rw [visit, if_neg hno, List.append_nil]
  exact .step (by rw [searchStep_of_none hn]; exact .refl _)

theorem WellNamed.leads_children (h : v.WellNamed) (hn : v.childNames q = some names)
    (hvisit : ∀ name rest found, v.Leads p ⟨q.push name :: rest, found⟩
      ⟨rest, found ++ v.visit fuel (q.push name)⟩) (rest found : List Path) :
    v.Leads p ⟨q :: rest, found⟩
      ⟨rest, (if q = p then found else found ++ [q]) ++ v.descend (fuel + 1) q⟩ := by
  refine .step ?_
  rw [h.searchStep_of_some hn, descend_succ hn]
  exact Leads.flatMap (fun name _ => hvisit name) _ _

/-- **The search goes through a place and all below it**, and goes on with the places behind.  The
induction is on the levels that there may be below the place. -/
theorem WellNamed.leads_visit (h : v.WellNamed) (hpq : p.isAbove q = true)
    (hd : v.depthBound < q.depth + fuel) (rest found : List Path) :
    v.Leads p ⟨q :: rest, found⟩ ⟨rest, found ++ v.visit fuel q⟩ := by
  induction fuel generalizing q rest found with
  | zero =>
      have hno : ¬v.exists? q = true := fun hex => Nat.not_le.2 hd (depth_le_depthBound hex)
      rw [← childNames_isSome, Option.not_isSome_iff_eq_none] at hno
      exact leads_visit_of_none hno rest found
  | succ fuel ih =>
      cases hn : v.childNames q with
      | none => exact leads_visit_of_none hn rest found
      | some names =>
          have hex : v.exists? q = true := by simp [← childNames_isSome, hn]
          have hchildren := h.leads_children (p := p) hn (fun name => ih (q := q.push name)
            (Path.isAbove_trans hpq (Path.isAbove_push_self q name))
            (by rw [Path.depth_push]; omega)) rest found
          rw [if_neg (Path.ne_of_isAbove hpq).symm, List.append_assoc] at hchildren
          rw [visit, if_pos hex]
          exact hchildren

/-- **The search ends with the nodes that the view lists.** -/
theorem WellNamed.leads_descendants (h : v.WellNamed) (p : Path) :
    v.Leads p ⟨[p], []⟩ ⟨[], v.descendants p⟩ := by
  cases hn : v.childNames p with
  | none =>
      have hnil : v.descendants p = [] := by simp only [descendants, descend, hn]
      rw [hnil]
      exact .step (by rw [searchStep_of_none hn]; exact .refl _)
  | some names =>
      have hvisit : ∀ name rest found, v.Leads p ⟨p.push name :: rest, found⟩
          ⟨rest, found ++ v.visit v.depthBound (p.push name)⟩ := fun name =>
        h.leads_visit (Path.isAbove_push_self p name) (by rw [Path.depth_push]; omega)
      have hchildren := h.leads_children hn hvisit [] []
      rwa [if_pos rfl] at hchildren

/-- A place with an empty name among those of its children is put in front of itself again and
again. -/
theorem mem_pending_searchStep (hn : v.childNames q = some names) (hempty : names.has "" = true)
    (hq : q ∈ s.pending) : q ∈ (v.searchStep p s).pending := by
  have hself : q.child "" = q := Path.ext_names (by simp [Path.child, Path.splitNames, Path.pieces])
  obtain ⟨pending, found⟩ := s
  cases pending with
  | nil => simp at hq
  | cons r rest =>
      rcases List.mem_cons.1 hq with rfl | hq
      · simp only [searchStep, hn]
        exact List.mem_append_left _ (List.mem_map.2 ⟨"", SortedSet.mem_keys.2 hempty, hself⟩)
      · simp only [searchStep]
        split
        · exact hq
        · exact List.mem_append_right _ hq

/-- **With an empty name among the children of a place, the search never ends.** -/
theorem search_endless (hn : v.childNames q = some names) (hempty : names.has "" = true)
    (hq : q ∈ s.pending) (n : Nat) : ((v.searchStep p)^[n] s).pending ≠ [] := by
  have hmem : q ∈ ((v.searchStep p)^[n] s).pending := by
    induction n generalizing s with
    | zero => exact hq
    | succ n ih =>
        rw [Function.iterate_succ_apply]
        exact ih (mem_pending_searchStep hn hempty hq)
  exact List.ne_nil_of_mem hmem

/-! ### What names of children lead to -/

namespace Reaches

/-- On the way to what is reached, each next place is that of a child. -/
theorem on_way (h : v.Reaches p q) (hr : r.isAtOrBelow p = true)
    (hq : q.isAtOrBelow (r.push name) = true) : v.exists? (r.push name) = true ∧
      ∃ names, v.childNames r = some names ∧ names.has name = true := by
  induction h with
  | @child p m names hn hm hex =>
      rcases Path.push_isAtOrBelow.1 hq with hpush | hp
      · obtain ⟨rfl, rfl⟩ := Path.push_inj.1 hpush
        exact ⟨hex, names, hn, hm⟩
      -- above the child there is only its parent
      · have habove := Path.isAbove_of_isAtOrBelow hr (Path.isAbove_push_self r name)
        exact absurd hp (Path.not_isAtOrBelow_of_isAbove habove)
  | @deeper p q m names hn hm hex h ih =>
      have hqm := Path.isAtOrBelow_of_isAbove h.isAbove
      rcases Path.isAtOrBelow_iff.1 hr with rfl | hbelow
      · obtain rfl := Path.push_eq_of_isAtOrBelow hq hqm
        exact ⟨hex, names, hn, hm⟩
      · have hqr : q.isAtOrBelow r = true :=
          Path.isAtOrBelow_trans hq (Path.isAtOrBelow_of_isAbove (Path.isAbove_push_self r name))
        rcases Path.isAtOrBelow_total hqr hqm with hr | hm
        · exact ih hr hq
        · rcases Path.push_isAtOrBelow.1 hm with rfl | hp
          · exact ih (Path.isAtOrBelow_self _) hq
          · exact absurd hp (Path.not_isAtOrBelow_of_isAbove hbelow)

/-- What names of children lead to is reached.  The induction is on the names by which the way goes
on. -/
theorem of_way (hpq : p.isAbove q = true)
    (hway : ∀ r name, r.isAtOrBelow p = true → q.isAtOrBelow (r.push name) = true →
      v.exists? (r.push name) = true ∧ ∃ names, v.childNames r = some names ∧
        names.has name = true) : v.Reaches p q := by
  obtain ⟨first, further, hq⟩ := Path.isAbove_iff.1 hpq
  induction further generalizing p first with
  | nil =>
      obtain rfl : q = p.push first := Path.ext_names (by rw [hq, Path.names_push])
      obtain ⟨hex, names, hn, hm⟩ := hway p first (Path.isAtOrBelow_self p)
        (Path.isAtOrBelow_self _)
      exact .child hn hm hex
  | cons second further ih =>
      have hnames : q.names = (p.push first).names ++ second :: further := by
        rw [hq, Path.names_push, List.append_assoc]
        rfl
      have hbelow : (p.push first).isAbove q = true := Path.isAbove_iff.2 ⟨_, _, hnames⟩
      obtain ⟨hex, names, hn, hm⟩ := hway p first (Path.isAtOrBelow_self p)
        (Path.isAtOrBelow_of_isAbove hbelow)
      refine .deeper hn hm hex (ih hbelow (fun r name hr => hway r name ?_) second hnames)
      exact Path.isAtOrBelow_trans hr (Path.isAtOrBelow_of_isAbove (Path.isAbove_push_self p first))

end Reaches

/-- **What is found**: the places below to which names of children lead, through nodes that are
there. -/
theorem mem_descendants_iff : q ∈ v.descendants p ↔ p.isAbove q = true ∧
    (∀ r, r.isAtOrBelow p = true → q.isAtOrBelow r = true → v.exists? r = true) ∧
    ∀ r name, r.isAtOrBelow p = true → q.isAtOrBelow (r.push name) = true →
      ∃ names, v.childNames r = some names ∧ names.has name = true := by
  constructor
  · intro h
    have hreach := Reaches.of_mem_descend h
    refine ⟨hreach.isAbove, fun r hr hq => ?_, fun r name hr hq => (hreach.on_way hr hq).2⟩
    rcases Path.isAtOrBelow_iff.1 hr with rfl | habove
    · exact hreach.exists?_above
    · induction r using Path.rootOrPush with
      | root => exact absurd habove Path.isAbove_root
      | push r name _ => exact (hreach.on_way (Path.isAbove_push.1 habove) hq).1
  · rintro ⟨hpq, hex, hlisted⟩
    have hreach : v.Reaches p q := Reaches.of_way hpq fun r name hr hq =>
      ⟨hex _ (Path.push_isAtOrBelow.2 (.inr hr)) hq, hlisted r name hr hq⟩
    exact hreach.mem_descendants

end View

/-! ### Nobody else commits -/

namespace SharedTree

variable {s : SharedTree} {name : String} {steps : List Step}

/-- A unit of work is undisturbed while no other one commits. -/
theorem Undisturbed.run_own (h : s.Undisturbed name) (hs : s.Sane) (hset : s.Settled)
    (hown : ∀ other, Step.commit other ∈ steps → other = name) :
    (s.run steps).Undisturbed name := by
  induction steps generalizing s with
  | nil => exact h
  | cons step steps ih =>
      have hstep : (s.take step).Undisturbed name := by
        by_cases hcommit : ∃ other, step = .commit other
        · obtain ⟨other, rfl⟩ := hcommit
          obtain rfl := hown other List.mem_cons_self
          exact h.take_commit hs
        · exact h.take_leaving hs hset (peek?_take hs fun other he => hcommit ⟨other, he⟩)
      exact ih hstep (hs.take step) (hset.take step) fun other hmem =>
        hown other (List.mem_cons_of_mem step hmem)

end SharedTree

namespace View

/-- **The search ends and is exact.**  Where all names in view are good, the search for what is
below a place comes to its end, and stays there.  What it has found has no duplicates, comes each
after its parent, unless that is the place itself, and is what names of children lead to, through
nodes that are there.  If no other unit of work has committed since this one had no entries, then
its view finds all that is there below a place. -/
theorem search_exact :
    (∀ (v : View) (p : Path), v.WellNamed →
      (∃ n, ∀ m ≥ n, (v.searchStep p)^[m] ⟨[p], []⟩ = ⟨[], v.descendants p⟩) ∧
      (v.descendants p).Nodup ∧
      (∀ before q after, v.descendants p = before ++ q :: after →
        ∃ r name, q = r.push name ∧ (r = p ∨ r ∈ before)) ∧
      ∀ q, q ∈ v.descendants p ↔ p.isAbove q = true ∧
        (∀ r, r.isAtOrBelow p = true → q.isAtOrBelow r = true → v.exists? r = true) ∧
        ∀ r name, r.isAtOrBelow p = true → q.isAtOrBelow (r.push name) = true →
          ∃ names, v.childNames r = some names ∧ names.has name = true) ∧
    ∀ (s : SharedTree) (name : String) (steps : List Step) (c : Context), s.Reachable →
      (∀ c, s.context? name = some c → c.workspace = .empty) →
      (∀ other, Step.commit other ∈ steps → other = name) →
      (s.run steps).context? name = some c →
      ∀ p q, q ∈ ((s.run steps).store.base.view c).descendants p ↔
        p.isAbove q = true ∧ ((s.run steps).store.base.view c).exists? q = true := by
  refine ⟨fun v p h => ⟨?_, Faithful.nodup_descend v _ p, fun before q after heq => ?_,
    fun q => mem_descendants_iff⟩, fun s name steps c hs hnew hown hc p q => ?_⟩
  · obtain ⟨n, hn⟩ := h.leads_descendants p
    refine ⟨n, fun m hm => ?_⟩
    obtain ⟨k, rfl⟩ := Nat.exists_eq_add_of_le' hm
    rw [Function.iterate_add_apply, hn, iterate_searchStep_of_nil]
  · have hrooted : Path.Rooted [p] (before ++ q :: after) := heq ▸ v.rooted_descend _ p
    obtain ⟨r, name, hq, hr⟩ := hrooted.parent_before
    exact ⟨r, name, hq, hr.imp_left List.mem_singleton.1⟩
  · have hfirst : s.Undisturbed name := by
      intro c hc
      rw [hnew c hc]
      exact ⟨.empty hs.sane.sound, .empty⟩
    exact (hfirst.run_own hs.sane hs.settled hown c hc).1.mem_descendants

/-- A unit of work that has made nothing yet. -/
def nestingStart : SharedTree :=
  (SharedTree.ofConfig {}).run [.start "t" ⟨"main", 0⟩ (some (1 : Nat))]

/-- It makes two nodes, commits them, makes two more, and removes one of the first two. -/
def nestingSteps : List Step :=
  [.perform "t" (.put ⟨["a", "x"]⟩ "k" (.int 1)), .commit "t",
    .perform "t" (.put ⟨["a", "y", "z"]⟩ "k" (.int 2)), .perform "t" (.removeNode ⟨["a", "x"]⟩)]

/-- The unit of work after that. -/
def nestingContext : Context := ((nestingStart.run nestingSteps).context? "t").getD default

/-- What it sees. -/
def nesting : View := (nestingStart.run nestingSteps).store.base.view nestingContext

/-- The search below the root finds the nodes that are left, and they are all that are there. -/
theorem search_nesting :
    (∃ n, ∀ m ≥ n, (nesting.searchStep Path.root)^[m] ⟨[Path.root], []⟩ =
      ⟨[], [⟨["a"]⟩, ⟨["a", "y"]⟩, ⟨["a", "y", "z"]⟩]⟩) ∧
    nesting.exists? ⟨["a", "x"]⟩ = false := by
  have hlist : nesting.descendants Path.root =
      [⟨["a"]⟩, ⟨["a", "y"]⟩, ⟨["a", "y", "z"]⟩] := by decide +kernel
  have hnew : ∀ c, nestingStart.context? "t" = some c → c.workspace = .empty := by
    intro c hc
    have hget : nestingStart.context? "t" =
        some ((nestingStart.context? "t").getD default) := by decide +kernel
    obtain rfl := Option.some.inj (hget.symm.trans hc)
    decide +kernel
  have hown : ∀ other, Step.commit other ∈ nestingSteps → other = "t" := by
    simp [nestingSteps]
  have hc : (nestingStart.run nestingSteps).context? "t" =
      some nestingContext := by decide +kernel
  have hnot := search_exact.2 nestingStart "t" nestingSteps _ ⟨{}, _, _, rfl⟩ hnew
    hown hc Path.root ⟨["a", "x"]⟩
  refine ⟨hlist ▸ (search_exact.1 nesting Path.root (by decide +kernel)).1, ?_⟩
  by_contra hex
  have hmem := hnot.2 ⟨by decide, by simpa [nesting] using hex⟩
  exact absurd (hlist ▸ hmem) (by decide)

end View

end TransactionalTree
