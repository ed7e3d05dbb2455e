/-
**Moves and what is committed meanwhile.**

A move copies what it reaches of the subtree when it is made, and takes the source away when it is
committed.  So what is found at and below the target after the commit is what the move reached then,
laid over what is left there.  What others have committed below the source since then is not looked
at again: a node that came later, or that the view did not reach, goes with the source, and one
that was written later gets its old data back.  Where reads are not pinned, parents are locked and
locking is strict, nobody can do that, and no data are lost.

Main definitions:

* `View.reached?` — what a move takes along;
* `Landed`, `Replaced` — what the entries say of the place where a node goes, and of the source;
* `Lasting` — what notes do not change in an entry;
* `SharedTree.avoidsThroughout` — a run in which a unit of work does not touch a place;
* `laidOver` — the data that were moved, over those that are left.

Main results:

* `Stages.landed_of_move`, `Stages.replaced_of_move` — what the steps of a move leave;
* `Lasting.stages`, `SharedTree.lasting_run` — it stays if the place is not touched;
* `Landed.outcome_eq` — what a merge makes of it;
* `SharedTree.move_lands_what_it_reached` — **a move commits what it reached when it was made**;
* `SharedTree.not_move_keeps_data` — what was committed meanwhile may be lost;
* `SharedTree.move_keeps_data_of_strict` — **where locking is strict it is not**.
-/

import TransactionalTree.Proofs.Overlay
import TransactionalTree.Proofs.OwnWrites
import TransactionalTree.Proofs.StrictLocking
import TransactionalTree.Proofs.WriteSkew

set_option relaxedAutoImplicit false
set_option autoImplicit false

namespace TransactionalTree

variable {b : Base} {v : View} {w w' w'' : Workspace} {acts acts' : List Act} {a : Act}
variable {p q source parent target : Path} {d : Data} {moved : Option Data}

/-! ### What a move takes along -/

namespace View

/-- **What the view reaches of the subtree at `source`**: the data of the node at `p`, if that is
the source or is found below it. -/
def reached? (v : View) (source p : Path) : Option Data :=
  if p ∈ source :: v.descendants source then v.data? p else none

/-- What is moved to a place is what was reached at the place where it comes from. -/
theorem mem_relocated (h : p.rebase? source target = some q) :
    (q, d) ∈ v.relocated source target ↔ v.reached? source p = some d := by
  simp only [relocated, List.mem_filterMap, reached?]
  constructor
  · rintro ⟨r, hr, hrq⟩
    split at hrq
    · rename_i d' q' hd hq'
      obtain ⟨rfl, rfl⟩ := Prod.mk.inj (Option.some.inj hrq)
      obtain rfl : r = p := Path.rebase?_injective hq' h
      rw [if_pos hr, hd]
    · simp at hrq
  · intro hd
    split at hd
    · rename_i hp
      exact ⟨p, hp, by rw [hd, h]⟩
    · simp at hd

end View

/-! ### What entries say -/

/-- **What a move has put at a place**, as the entry for the place says it: a node that was made
with these data, and if it has put none there, nothing that is to be changed. -/
def Landed (moved : Option Data) (entry : Option Entry) : Prop :=
  moved.elim (∀ e, entry = some e → e.isDirty = false) fun d =>
    ∃ e, entry = some e ∧ e.removed = false ∧ e.created = true ∧ e.data = d ∧
      (e.changed = true ∨ d = .empty)

/-- The entry says that a committed node has to go. -/
def Replaced (entry : Option Entry) : Prop := ∃ e, entry = some e ∧ e.replacesBase = true

/-- **What a note does not change**: it marks an entry as locked, or makes a clean one where there
was none. -/
structure Lasting (P : Option Entry → Prop) : Prop where
  /-- It stays when the entry is marked as locked. -/
  locked : ∀ e, P (some e) → P (some e.markLocked)
  /-- It stays when there comes a clean entry. -/
  noted : ∀ e, e.isDirty = false → P none → P (some e)

theorem lasting_landed (moved : Option Data) : Lasting (Landed moved) where
  locked e h := by
    cases moved with
    | none =>
        rintro g ⟨⟩
        exact h e rfl
    | some d =>
        obtain ⟨g, ⟨⟩, hrest⟩ := h
        exact ⟨_, rfl, hrest⟩
  noted e hclean h := by
    cases moved with
    | none =>
        rintro g ⟨⟩
        exact hclean
    | some d =>
        obtain ⟨g, hg, -⟩ := h
        simp at hg

theorem lasting_replaced : Lasting Replaced where
  locked := by
    rintro e ⟨g, ⟨⟩, hrep⟩
    exact ⟨_, rfl, hrep⟩
  noted := by
    rintro e - ⟨g, hg, -⟩
    simp at hg

/-! ### Steps elsewhere -/

section Lasting

variable {P : Option Entry → Prop} (hP : Lasting P)
include hP

/-- A note leaves what lasts. -/
theorem Lasting.note (hs : Note b w w') (h : P (w.get? q)) : P (w'.get? q) := by
  have hnew : ∀ {p : Path} {e : Entry}, w.get? p = none → e.isDirty = false →
      P ((w.insert p e).get? q) := by
    intro p e hnone hclean
    rw [SortedMap.get?_insert]
    split
    · rename_i hq
      rw [hq, hnone] at h
      exact hP.noted e hclean h
    · exact h
  cases hs with
  | copy hl => exact hnew (View.locate_eq_committed.1 hl).2.1 rfl
  | mark hl => exact hnew (View.locate_eq_missing.1 hl).2.1 rfl
  | lock p =>
      rw [SortedMap.get?_modify]
      split
      · cases he : w.get? q with
        | none =>
            rw [he] at h
            exact h
        | some e =>
            rw [he] at h
            exact hP.locked e h
      · exact h

/-- **Steps that miss a place leave what lasts there.** -/
theorem Lasting.stages (hs : Stages b w acts w') (ha : ∀ a ∈ acts, a.Misses q)
    (h : P (w.get? q)) : P (w'.get? q) := by
  induction hs with
  | refl => exact h
  | note _ hs ih => exact hP.note hs (ih ha)
  | @act acts a _ _ _ hs ih =>
      rw [hs.get?_of_misses (ha a (by simp))]
      exact ih fun a' ha' => ha a' (List.mem_append_left _ ha')

end Lasting

/-! ### The steps of a move -/

/-- A sequence of steps is one sequence after another. -/
theorem Stages.of_append (h : Stages b w (acts ++ acts') w'') :
    ∃ w', Stages b w acts w' ∧ Stages b w' acts' w'' := by
  generalize hall : acts ++ acts' = all at h
  induction h generalizing acts' with
  | refl =>
      obtain ⟨rfl, rfl⟩ := List.append_eq_nil_iff.1 hall
      exact ⟨w, .refl, .refl⟩
  | note _ hs ih =>
      obtain ⟨w', h, h'⟩ := ih hall
      exact ⟨w', h, h'.note hs⟩
  | @act before a _ _ hbefore hs ih =>
      induction acts' using List.reverseRecOn with
      | nil =>
          rw [List.append_nil] at hall
          rw [hall]
          exact ⟨_, hbefore.act hs, .refl⟩
      | append_singleton acts' a' _ =>
          rw [← List.append_assoc] at hall
          obtain ⟨hinit, hlast⟩ := List.append_inj' hall rfl
          obtain ⟨w', h, h'⟩ := ih hinit
          obtain rfl := List.singleton_inj.1 hlast
          exact ⟨w', h, h'.act hs⟩

/-- Before the first of several steps there are at most notes. -/
theorem Stages.of_cons (h : Stages b w (a :: acts) w'') :
    ∃ x y, Stages b w [] x ∧ Stage b a x y ∧ Stages b y acts w'' := by
  obtain ⟨w', hfirst, hrest⟩ := Stages.of_append (show Stages b w ([a] ++ acts) w'' from h)
  generalize hone : [a] = one at hfirst
  induction hfirst with
  | refl => simp at hone
  | note _ hs ih => exact ih ((Stages.of_note hs).trans hrest) hone
  | @act before a' _ _ hbefore hs _ =>
      obtain ⟨hinit, hlast⟩ := List.append_inj' (show [] ++ [a] = before ++ [a'] from hone) rfl
      obtain rfl := hinit
      obtain rfl := List.singleton_inj.1 hlast
      exact ⟨_, _, hbefore, hs, hrest⟩

/-- A removal elsewhere leaves a clean entry, or drops it. -/
theorem Stages.landed_of_remove (h : Stages b w [.remove p] w') (hq : q ≠ p)
    (hclean : Landed none (w.get? q)) : Landed none (w'.get? q) := by
  obtain ⟨x, y, hbefore, hstage, hafter⟩ := h.of_cons
  have hx : Landed none (x.get? q) := (lasting_landed none).stages hbefore (by simp) hclean
  refine (lasting_landed none).stages hafter (by simp) ?_
  cases hstage with
  | remove _ _ =>
      intro e he
      obtain ⟨-, g, hg, ⟨hqp, -⟩ | ⟨-, rfl⟩⟩ := Workspace.of_get?_remove he
      · exact absurd hqp hq
      · exact hx _ hg

/-- **A node that is made and written has landed**, whatever was there before. -/
theorem Stages.landed_of_made (h : Stages b w (acts ++ (.create q :: .write q d :: acts')) w')
    (ha : ∀ a ∈ acts', a.Misses q) : Landed (some d) (w'.get? q) := by
  obtain ⟨w₁, -, h₁⟩ := h.of_append
  obtain ⟨x, y, -, hmade, h₂⟩ := h₁.of_cons
  obtain ⟨x', y', hbetween, hwritten, h₃⟩ := h₂.of_cons
  refine (lasting_landed _).stages h₃ ha ?_
  -- the node comes without data
  have hempty : Landed (some .empty) (y.get? q) := by
    cases hmade with
    | create name _ =>
        refine ⟨_, SortedMap.get?_insert_self, ?_⟩
        cases SortedMap.get? x _ with
        | none => exact ⟨rfl, rfl, rfl, .inr rfl⟩
        | some e => exact ⟨rfl, rfl, rfl, .inr rfl⟩
  obtain ⟨e, he, hr, hc, hd, -⟩ := (lasting_landed _).stages hbetween (by simp) hempty
  cases hwritten with
  | @write _ _ g e' hl hed =>
      obtain rfl := Option.some.inj ((View.locate_eq_staged.1 hl).2.1.symm.trans he)
      refine ⟨e', SortedMap.get?_insert_self, hed.removed.trans hr, hed.created.trans hc, rfl, ?_⟩
      -- without a note that it was written, the node is as it was made
      cases hch : e'.changed with
      | true => exact .inl rfl
      | false => exact .inr ((hed.unchanged hch).2.trans hd)

/-- Nodes that are made and written elsewhere miss a place. -/
theorem Context.misses_of_mem_actsOf {nodes : List (Path × Data)} (hq : q ∉ nodes.map (·.1))
    (ha : a ∈ actsOf nodes) : a.Misses q := by
  obtain ⟨n, hn, ha⟩ := List.mem_flatMap.1 ha
  have hne : n.1 ≠ q := fun he => hq (he ▸ List.mem_map_of_mem hn)
  rcases List.mem_cons.1 ha with rfl | ha
  · exact hne
  · obtain rfl := List.mem_singleton.1 ha
    exact hne

/-- The steps of a move miss a place at or below the target where they make no node, once what was
there has gone. -/
theorem Context.misses_of_mem_moving {nodes : List (Path × Data)}
    (hqs : ¬q.isAtOrBelow source = true) (hq : q ∉ nodes.map (·.1)) :
    ∀ a ∈ actsOf nodes ++ [.remove source], a.Misses q := by
  intro a ha
  rcases List.mem_append.1 ha with ha | ha
  · exact misses_of_mem_actsOf hq ha
  · obtain rfl := List.mem_singleton.1 ha
    exact hqs

section Moving

variable (hst : ¬source.isAtOrBelow target = true)
variable (h : Stages b w (Context.movingActs (View.mk b w) source target) w')
include hst h

section Landing

variable (hts : ¬target.isAtOrBelow source = true) (hex : (View.mk b w).exists? source = true)
variable (hq : p.rebase? source target = some q)
include hts hex hq

/-- **What a move reaches has landed** at the place where it goes, whatever was there before. -/
theorem Stages.landed_of_reached (hd : (View.mk b w).reached? source p = some d) :
    Landed (some d) (w'.get? q) := by
  have hqs : ¬q.isAtOrBelow source = true :=
    PlainTree.not_isAtOrBelow_both hts hst (Path.rebase?_isAtOrBelow hq).2
  -- the place is one of those that are made, and is made once
  obtain ⟨before, after, hnodes⟩ := List.append_of_mem ((View.mem_relocated hq).2 hd)
  have hnodup : (((View.mk b w).relocated source target).map (·.1)).Nodup :=
    Shows.nodup_relocated hex
  rw [hnodes, List.map_append, List.map_cons, List.nodup_append, List.nodup_cons] at hnodup
  rw [Context.movingActs, hnodes, Context.actsOf, List.flatMap_append, List.flatMap_cons,
    List.append_assoc, ← List.append_assoc] at h
  exact h.landed_of_made (Context.misses_of_mem_moving hqs hnodup.2.1.1)

/-- **What the steps of a move have put at a place** at or below the target: what it reached at the
place where that comes from, and if it reached nothing there, nothing. -/
theorem Stages.landed_of_move (hclean : Landed none (w.get? q)) :
    Landed ((View.mk b w).reached? source p) (w'.get? q) := by
  cases hd : (View.mk b w).reached? source p with
  | some d => exact h.landed_of_reached hst hts hex hq hd
  | none =>
      have hnot : q ∉ ((View.mk b w).relocated source target).map (·.1) := by
        intro hmem
        obtain ⟨⟨q', d⟩, hn, rfl⟩ := List.mem_map.1 hmem
        rw [(View.mem_relocated hq).1 hn] at hd
        simp at hd
      -- the source itself is reached, so this is not the place where it goes
      have hne : q ≠ target := by
        rintro rfl
        obtain ⟨d, hself⟩ := View.exists?_iff_data?.1 hex
        have hreached : (View.mk b w).reached? source source = some d := by
          rw [View.reached?, if_pos List.mem_cons_self]
          exact hself
        exact hnot (List.mem_map_of_mem ((View.mem_relocated (Path.rebase?_self _ _)).2 hreached))
      have hqs : ¬q.isAtOrBelow source = true :=
        PlainTree.not_isAtOrBelow_both hts hst (Path.rebase?_isAtOrBelow hq).2
      obtain ⟨w₁, hcleared, hrest⟩ := h.of_append
      refine (lasting_landed _).stages hrest (Context.misses_of_mem_moving hqs hnot) ?_
      split at hcleared
      · exact hcleared.landed_of_remove hne hclean
      · exact (lasting_landed _).stages hcleared (by simp) hclean

end Landing

/-- **A move takes the source away** if nothing was changed there before. -/
theorem Stages.replaced_of_move (hclean : Landed none (w.get? source)) :
    Replaced (w'.get? source) := by
  rw [Context.movingActs, ← List.append_assoc] at h
  obtain ⟨w₁, hbefore, hlast⟩ := h.of_append
  obtain ⟨x, y, hnotes, hstage, hafter⟩ := hlast.of_cons
  refine lasting_replaced.stages hafter (by simp) ?_
  -- all that is done before is done at or below the target
  have hsource : Landed none (w₁.get? source) := by
    refine (lasting_landed none).stages hbefore (fun a ha => ?_) hclean
    rcases List.mem_append.1 ha with ha | ha
    · split at ha
      · obtain rfl := List.mem_singleton.1 ha
        exact hst
      · simp at ha
    · refine Context.misses_of_mem_actsOf (fun hmem => ?_) ha
      obtain ⟨n, hn, hns⟩ := List.mem_map.1 hmem
      exact hst (hns ▸ View.isAtOrBelow_of_mem_relocated hn)
  have hx : Landed none (x.get? source) := (lasting_landed none).stages hnotes (by simp) hsource
  cases hstage with
  | @remove _ _ e _ hl =>
      obtain ⟨-, he, hp⟩ := View.locate_eq_staged.1 hl
      refine ⟨e.markRemoved, ?_, ?_⟩
      · rw [Workspace.get?_remove, if_neg (Path.not_isAbove_self source), if_pos rfl]
        exact congrArg (Option.map Entry.markRemoved) he
      · -- an entry that is present and clean is that of a node that was observed
        have hc : e.created = false := by
          have hdirty := hx e he
          simp only [Entry.isDirty, Bool.or_eq_false_iff] at hdirty
          exact hdirty.1.2
        have hobserved := (Entry.isPresent_iff.1 hp).2.resolve_left (by simp [hc])
        simp [Entry.markRemoved, hobserved]

end Moving

/-! ### The merge -/

/-- **The data that were moved, over those that are left** at the place, if there are any. -/
def laidOver (moved left : Option Data) : Option Data :=
  moved.elim left fun d => some (left.elim d (·.union d))

theorem laidOver_empty (left : Option Data) :
    laidOver (some .empty) left = some (left.getD .empty) := by
  cases left with
  | none => rfl
  | some d =>
      refine congrArg some (SortedMap.ext_get? fun k => ?_)
      rw [Option.elim_some, Option.getD_some, SortedMap.get?_union, SortedMap.get?_empty,
        Option.none_or]

/-- The path, or something above it, is replaced or removed. -/
def clearedAt (es : List (Path × Entry)) (q : Path) : Bool :=
  es.any fun a => q.isAtOrBelow a.1 && a.2.replacesBase

/-- A place is cleared if something above it is, or if its own entry clears it. -/
theorem Workspace.clearedAt_dirty : clearedAt w.dirty q =
    ((w.get? q).any (fun e => e.isDirty && e.replacesBase) || clearedAbove w.dirty q) := by
  rw [Bool.eq_iff_iff, Bool.or_eq_true, clearedAbove_iff, Option.any_eq_true]
  simp only [clearedAt, List.any_eq_true, Bool.and_eq_true, Prod.exists, mem_dirty]
  constructor
  · rintro ⟨r, e, ⟨he, hd⟩, hqr, hrep⟩
    rcases Path.isAtOrBelow_iff.1 hqr with rfl | hr
    · exact .inl ⟨e, he, hd, hrep⟩
    · exact .inr ⟨r, e, ⟨he, hd⟩, hr, hrep⟩
  · rintro (⟨e, he, hd, hrep⟩ | ⟨r, e, hmem, hr, hrep⟩)
    · exact ⟨q, e, ⟨he, hd⟩, Path.isAtOrBelow_self q, hrep⟩
    · exact ⟨r, e, hmem, Path.isAtOrBelow_of_isAbove hr, hrep⟩

namespace Landed

/-- **A merge lays what has landed over what is left** at the place. -/
theorem outcome_eq {data? : Path → Option Data} (h : Landed moved (w.get? q)) :
    outcome data? w.dirty q = laidOver moved (if clearedAt w.dirty q then none else data? q) := by
  rw [Workspace.clearedAt_dirty]
  simp only [outcome, Workspace.lookup_dirty]
  cases moved with
  | none =>
      have hlookup : (w.get? q).filter (·.isDirty) = none := by
        rw [Option.filter_eq_none_iff]
        exact fun e he => by simp [h e he]
      have hany : (w.get? q).any (fun e => e.isDirty && e.replacesBase) = false := by
        rw [Option.any_eq_false]
        intro e he
        rw [h e he, Bool.false_and]
      rw [hlookup, hany, Bool.false_or]
      rfl
  | some d =>
      obtain ⟨e, he, hr, hc, rfl, hch⟩ := h
      have hd : e.isDirty = true := Entry.isDirty_iff.2 (.inr (.inl hc))
      rw [he, Option.filter_some, if_pos hd, Option.any_some, hd, Bool.true_and]
      simp only [mergedData, hr, hc, if_true, Bool.false_eq_true, if_false]
      by_cases hrep : e.replacesBase = true
      · simp only [hrep, if_true, Bool.true_or]
        rfl
      · simp only [hrep, Bool.false_or, if_false, Bool.false_eq_true]
        generalize (if clearedAbove w.dirty q = true then none else data? q) = left
        cases left with
        | none => rfl
        | some y =>
            by_cases hchanged : e.changed = true
            · simp [laidOver, hchanged]
            · -- a node that was not written has no data
              rw [hch.resolve_left hchanged, laidOver_empty]
              simp [hchanged]

/-- **A commit that succeeds lays what has landed over what is left.** -/
theorem data?_commit {s : Store} {c : Context} (h : Landed moved (c.entry? q))
    (hs : s.tree.Sound) (hc : c.workspace.Tidy) (hok : (s.commit c).result = .ok ()) :
    (s.commit c).store.tree.data? q =
      laidOver moved (if clearedAt c.workspace.dirty q then none else s.tree.data? q) := by
  have hmerge : outcome s.tree.data? c.workspace.dirty q = _ := outcome_eq h
  have hout := s.commit_outcome c
  generalize s.commit c = e at hout hok ⊢
  cases hout with
  | idle hnone =>
      rw [← hmerge, Workspace.dirty_eq_nil_iff.2 hnone, Store.conclude_tree]
      rfl
  | refused _ _ => simp at hok
  | torn _ _ _ => simp at hok
  | merged _ _ hm =>
      rw [Store.conclude_tree]
      exact (Store.data?_merge hs hc hm q).trans hmerge

end Landed

/-! ### Trees that do not change -/

/-- **Where the tree has not changed, all that is committed is reached** below a node where nothing
is changed. -/
theorem Faithful.reached?_of_clean {n : Node} (h : Faithful b w)
    (hex : (View.mk b w).exists? source = true)
    (hclean : ∀ r, r.isAtOrBelow source = true → w.isDirtyAt r = false)
    (hp : p.isAtOrBelow source = true) (hn : b.tree.peek? p = some n) :
    (View.mk b w).reached? source p = some n.data := by
  have hdata : ∀ {r : Path}, r.isAtOrBelow source = true →
      (View.mk b w).data? r = if clearedAt w.dirty r then none else b.tree.data? r := by
    intro r hr
    have hnone : Landed none (w.get? r) := (Option.any_eq_false _ _).1 (hclean r hr)
    rw [← h.outcome_dirty r, hnone.outcome_eq]
    rfl
  -- what would clear the place would be below the source, or clear the source
  have hkept : clearedAt w.dirty p = false := by
    rw [← Bool.not_eq_true]
    intro hcl
    obtain ⟨⟨r, e⟩, hmem, hre⟩ := List.any_eq_true.1 hcl
    obtain ⟨hpr, hrep⟩ := Bool.and_eq_true_iff.1 hre
    rcases Path.isAtOrBelow_total hp hpr with hsr | hrs
    · have hself : clearedAt w.dirty source = true :=
        List.any_eq_true.2 ⟨(r, e), hmem, Bool.and_eq_true_iff.2 ⟨hsr, hrep⟩⟩
      obtain ⟨d, hd⟩ := View.exists?_iff_data?.1 hex
      rw [hdata (Path.isAtOrBelow_self source), if_pos hself] at hd
      simp at hd
    · obtain ⟨he, hdirty⟩ := Workspace.mem_dirty.1 hmem
      have hnot := hclean r hrs
      rw [Workspace.isDirtyAt, he, Option.any_some, hdirty] at hnot
      simp at hnot
  have hseen : (View.mk b w).data? p = some n.data := by
    rw [hdata hp, hkept, CommittedTree.data?, hn]
    rfl
  rw [View.reached?, if_pos, hseen]
  rcases Path.isAtOrBelow_iff.1 hp with rfl | habove
  · exact List.mem_cons_self
  · exact List.mem_cons_of_mem _ (h.mem_descendants.2 ⟨habove, View.exists?_iff_data?.2 ⟨_, hseen⟩⟩)

/-- What has landed is seen. -/
theorem Landed.data?_of_faithful (h : Landed (some d) (w.get? q)) (hf : Faithful b w) :
    (View.mk b w).data? q = some d := by
  obtain ⟨e, he, hr, hc, rfl, -⟩ := h
  rw [View.data?, hf.locate_of_present he (Entry.isPresent_iff.2 ⟨hr, .inl hc⟩)]
  rfl

/-! ### Runs -/

/-- The step is no operation of the unit of work, or one that avoids the place. -/
def Step.avoids (name : String) (q : Path) : Step → Bool
  | perform other o => other ≠ name || o.avoids q
  | _ => true

namespace SharedTree

variable {s s₁ s₂ : SharedTree} {name : String} {c c₂ : Context} {step : Step} {steps : List Step}

/-- **The unit of work goes on over the step, and does not touch the place**: no operation of its
own does anything there, or at least the entry for it is left. -/
def avoids (s : SharedTree) (name : String) (q : Path) (step : Step) : Bool :=
  s.goesOn name step && (step.avoids name q || s.leavesEntry name q step)

/-- The unit of work goes on over all the listed steps, and does not touch the place. -/
def avoidsThroughout (s : SharedTree) (name : String) (q : Path) : List Step → Bool
  | [] => true
  | step :: steps =>
      s.avoids name q step && (s.take step).avoidsThroughout name q steps

section Lasting

variable {P : Option Entry → Prop} (hP : Lasting P) (hs : s.Sane) (h : s.Settled)
include hP hs h

/-- What lasts stays over a step that does not touch the place. -/
theorem lasting_take (havoids : s.avoids name q step = true)
    (hentry : ∀ c, s.context? name = some c → P (c.entry? q))
    (hc : (s.take step).context? name = some c) : P (c.entry? q) := by
  rw [avoids, Bool.and_eq_true, Bool.or_eq_true] at havoids
  refine following_take (P := fun w => P (w.get? q)) h havoids.1
    (fun c o hold hstep hbefore => ?_) hentry hc
  subst hstep
  rcases havoids.2 with ho | hsame
  · have ho : o.avoids q = true := by simpa [Step.avoids] using ho
    obtain ⟨acts, htaking⟩ := Base.taking_perform (b := s.store.base) (w := ⟨s.store.locks, c⟩)
      hs.sound (hs.tidy hold) o
    exact hP.stages htaking.staged.stages (htaking.misses ho) hbefore
  · -- the entry is as it was
    rw [leavesEntry, decide_eq_true_eq, stagedAt, stagedAt, take_perform hold, context?_perform,
      hold] at hsame
    exact (congrArg P hsame).mpr hbefore

/-- **What lasts stays** for as long as the unit of work goes on and does not touch the place. -/
theorem lasting_run (havoids : s.avoidsThroughout name q steps = true)
    (hentry : ∀ c, s.context? name = some c → P (c.entry? q))
    (hc : (s.run steps).context? name = some c) : P (c.entry? q) := by
  induction steps generalizing s with
  | nil => exact hentry c hc
  | cons step steps ih =>
      rw [avoidsThroughout, Bool.and_eq_true] at havoids
      exact ih (hs.take step) (h.take step) havoids.2
        (fun _ hc => lasting_take hP hs h havoids.1 hentry hc) hc

end Lasting

/-- **A move that says that the node is at another place now** has taken the steps of a move. -/
theorem moved_of_ask {deep : Bool} (hc : s.context? name = some c)
    (hmove : s.ask name (.moveNode source parent deep) = some (.ok (.place (some target))))
    (hne : target ≠ source) : planMove source parent = .ok (.moveTo target) ∧
      (s.store.base.view c).exists? source = true ∧
      Work.Staged s.store.base ⟨s.store.locks, c⟩
        (Context.movingActs (s.store.base.view c) source target)
        (s.store.base.perform ⟨s.store.locks, c⟩ (.moveNode source parent deep)).1 := by
  rw [ask, hc] at hmove
  have hanswer : (s.store.base.moveNode ⟨s.store.locks, c⟩ source parent deep).2.map Answer.place =
      .ok (.place (some target)) := Option.some.inj hmove
  have hdone : (s.store.base.moveNode ⟨s.store.locks, c⟩ source parent deep).2 =
      .ok (some target) := by
    generalize (s.store.base.moveNode ⟨s.store.locks, c⟩ source parent deep).2 = r at hanswer
    cases r with
    | error e => simp [Except.map] at hanswer
    | ok place => simpa [Except.map] using hanswer
  simp only [Base.perform, answering]
  cases hplan : planMove source parent with
  | error e => simp [Base.moveNode, hplan] at hdone
  | ok plan =>
      cases plan with
      | stay =>
          simp only [Base.moveNode, hplan, Except.ok.injEq, Option.some.injEq] at hdone
          exact absurd hdone.symm hne
      | moveTo t =>
          have hout := s.store.base.moveNode_outcome (w := ⟨s.store.locks, c⟩) deep hplan
          generalize s.store.base.moveNode ⟨s.store.locks, c⟩ source parent deep = r at hout hdone
          cases hout with
          | timedOut _ _ hr =>
              rcases hr with rfl | ⟨e, rfl⟩
              · simp at hdone
              · simp at hdone
          | sourceMissing _ _ _ => simp at hdone
          | parentMissing _ _ _ _ => simp at hdone
          | outdated _ _ => simp at hdone
          | moved _ hex _ hst =>
              obtain rfl : t = target := by simpa using hdone
              exact ⟨rfl, hex, hst⟩

/-- **A move commits what it reached when it was made.**  A unit of work has moved `source` to
`target`, and `p` at or below the source is to come to `q`, where nothing was changed before and
nothing is touched afterwards, while others do what they like.  If its commit succeeds, the data at
`q` are those that the move reached at `p`, over what is left at `q`.  So a node that is committed
at `p` by then is kept exactly if these are its data. -/
theorem move_lands_what_it_reached {deep : Bool} (hs : s.Reachable) (hc : s.context? name = some c)
    (hmove : s.ask name (.moveNode source parent deep) = some (.ok (.place (some target))))
    (hne : target ≠ source) (hq : p.rebase? source target = some q)
    (hclean : c.workspace.isDirtyAt q = false)
    (h₁ : s.take (.perform name (.moveNode source parent deep)) = s₁)
    (havoids : s₁.avoidsThroughout name q steps = true) (h₂ : s₁.run steps = s₂)
    (hc₂ : s₂.context? name = some c₂) (hok : (s₂.commit name c₂).2 = .ok ()) :
    (s₂.commit name c₂).1.store.tree.data? q =
      laidOver ((s.store.base.view c).reached? source p)
        (if clearedAt c₂.workspace.dirty q then none else s₂.store.tree.data? q) := by
  obtain ⟨hplan, hex, hst⟩ := moved_of_ask hc hmove hne
  obtain ⟨hbelow, habove⟩ := Base.not_isAtOrBelow_of_planMove hplan
  have hlanded := hst.stages.landed_of_move hbelow habove hex hq
    ((Option.any_eq_false _ _).1 hclean)
  have hsane₁ : s₁.Sane := h₁ ▸ hs.sane.take _
  have hset₁ : s₁.Settled := h₁ ▸ hs.settled.take _
  have hsane₂ : s₂.Sane := h₂ ▸ hsane₁.run steps
  have hlast : Landed ((s.store.base.view c).reached? source p) (Context.entry? c₂ q) := by
    refine lasting_run (lasting_landed _) hsane₁ hset₁ havoids (fun c₁ hc₁ => ?_) (h₂ ▸ hc₂)
    rw [← h₁, take_perform hc, context?_perform] at hc₁
    obtain rfl := Option.some.inj hc₁
    exact hlanded
  exact hlast.data?_commit hsane₂.sound (hsane₂.tidy hc₂) hok

/-- There are `/a` and `/b`, and two transactions are under way. -/
def siblingState : SharedTree :=
  (ofConfig {}).run
    [.start "s" ⟨"main", 0⟩ (some (1 : Nat)), .start "t" ⟨"main", 0⟩ (some (2 : Nat)),
      .perform "s" (.put ⟨["a"]⟩ "k" (.int 1)), .perform "s" (.put ⟨["b"]⟩ "k" (.int 1)),
      .commit "s"]

/-- One of them has moved `/a` below `/b`, with all that is below it. -/
def movedState : SharedTree := siblingState.take (.perform "t" (.moveNode ⟨["a"]⟩ ⟨["b"]⟩ true))

/-- The other one commits a new node below `/a`. -/
def insertingSteps : List Step := [.perform "s" (.put ⟨["a", "n"]⟩ "k" (.int 2)), .commit "s"]

/-- The state in which the move is to be committed. -/
def insertedState : SharedTree := movedState.run insertingSteps

/-- The transaction that has moved `/a`, in that state. -/
def movingContext : Context := (insertedState.context? "t").getD default

/-- The new node has gone with `/a`, and is not found below `/b`. -/
theorem inserted_node_goes :
    insertedState.store.tree.exists? ⟨["a", "n"]⟩ = true ∧
      (insertedState.commit "t" movingContext).1.store.tree.data? ⟨["b", "a", "n"]⟩ = none := by
  have hc : siblingState.context? "t" = some ((siblingState.context? "t").getD default) := by
    decide +kernel
  have hmove : siblingState.ask "t" (.moveNode ⟨["a"]⟩ ⟨["b"]⟩ true) =
      some (.ok (.place (some ⟨["b", "a"]⟩))) := by
    decide +kernel
  have havoids : movedState.avoidsThroughout "t" ⟨["b", "a", "n"]⟩ insertingSteps = true := by
    decide +kernel
  have hc₂ : insertedState.context? "t" = some movingContext := by decide +kernel
  have hq : Path.rebase? ⟨["a", "n"]⟩ ⟨["a"]⟩ ⟨["b", "a"]⟩ = some ⟨["b", "a", "n"]⟩ := by decide
  have hs : siblingState.Reachable := ⟨_, _, _, rfl⟩
  refine ⟨by decide +kernel, ?_⟩
  rw [move_lands_what_it_reached hs hc hmove (by decide) hq (by decide +kernel) (Eq.refl movedState)
    havoids (Eq.refl insertedState) hc₂ (by decide +kernel)]
  decide +kernel

/-- A move may lose what others commit below its source: a node that is committed there before the
move is committed is found nowhere afterwards, even if the unit of work does nothing else, locks are
never skipped and the subtree is moved deeply. -/
theorem not_move_keeps_data :
    ¬∀ (config : Config) (before steps : List Step) (name : String) (s s₁ s₂ : SharedTree)
      (c₂ : Context) (source parent target p q : Path) (n : Node),
      (∀ step ∈ before ++ steps, step.isStrict = true ∧ isOperationOf name step = false) →
      (ofConfig config).run before = s →
      s.ask name (.moveNode source parent true) = some (.ok (.place (some target))) →
      target ≠ source → s.take (.perform name (.moveNode source parent true)) = s₁ →
      s₁.goesOnThroughout name steps = true → s₁.run steps = s₂ →
      s₂.context? name = some c₂ → (s₂.commit name c₂).2 = .ok () →
      s₂.store.tree.peek? p = some n → p.rebase? source target = some q →
      (s₂.commit name c₂).1.store.tree.data? q = some n.data := by
  intro h
  obtain ⟨n, hn⟩ : ∃ n, insertedState.store.tree.peek? ⟨["a", "n"]⟩ = some n :=
    ⟨_, Option.eq_some_of_isSome (by decide +kernel)⟩
  have hfound := h {} _ insertingSteps "t" siblingState movedState insertedState movingContext
    ⟨["a"]⟩ ⟨["b"]⟩ ⟨["b", "a"]⟩ ⟨["a", "n"]⟩ ⟨["b", "a", "n"]⟩ n (by decide) rfl
    (by decide +kernel)
    (by decide) rfl (by decide +kernel) rfl (by decide +kernel) (by decide +kernel) hn (by decide)
  have hlost : (insertedState.commit "t" movingContext).1.store.tree.data? ⟨["b", "a", "n"]⟩ =
      none := by
    decide +kernel
  rw [hlost] at hfound
  simp at hfound

/-! ### Where locking is strict -/

/-- A unit of work is there after a step if it was there before. -/
theorem exists_context?_take (hc : s.context? name = some c) (step : Step) :
    ∃ c', (s.take step).context? name = some c' := by
  by_cases hactor : step.actor? = some name
  · cases step with
    | start other thread transaction =>
        obtain rfl := Option.some.inj hactor
        simp only [take]
        split
        · exact ⟨c, hc⟩
        · exact ⟨_, SortedMap.get?_insert_self⟩
    | setOptions other options =>
        obtain rfl := Option.some.inj hactor
        simp only [take, hc, Option.elim_some]
        exact ⟨_, SortedMap.get?_insert_self⟩
    | perform other o =>
        obtain rfl := Option.some.inj hactor
        rw [take_perform hc]
        exact ⟨_, context?_perform⟩
    | commit other =>
        obtain rfl := Option.some.inj hactor
        simp only [take, hc, Option.elim_some]
        exact ⟨_, SortedMap.get?_insert_self⟩
    | rollback other =>
        obtain rfl := Option.some.inj hactor
        simp only [take, hc, Option.elim_some]
        exact ⟨_, SortedMap.get?_insert_self⟩
    | purge => simp [Step.actor?] at hactor
  · exact ⟨c, (context?_take_of_ne hactor).trans hc⟩

section Strict

variable {n : Node} (h : s.Strict) (hs : s.Sane) (hset : s.Settled)
include h hs hset

/-- Below what a unit of work takes away nothing comes, and nothing is changed, as long as it goes
on. -/
theorem Strict.peek?_of_take (hgo : s.goesOn name step = true) (hc : s.context? name = some c)
    (hrep : Replaced (c.entry? source)) (hp : p.isAtOrBelow source = true)
    (hn : (s.take step).store.tree.peek? p = some n) : s.store.tree.peek? p = some n := by
  by_cases hcommit : ∃ other, step = .commit other
  · obtain ⟨other, rfl⟩ := hcommit
    cases hd : s.context? other with
    | none =>
        simp only [SharedTree.take, hd, Option.elim_none] at hn
        exact hn
    | some d =>
        by_cases hother : other = name
        · -- its own commit would succeed, and so end it
          subst hother
          have hok := (h.commit hset hd).1
          simp [goesOn, ends, hd, SharedTree.commit, finish, hok, Except.isOk, Except.toBool] at hgo
        · simp only [SharedTree.take, hd, Option.elim_some] at hn
          have hn : (s.store.commit d).store.tree.peek? p = some n := hn
          obtain ⟨e, he, hb⟩ := hrep
          have hdisjoint : ∀ r, d.holds r = true → c.holds r = false := fun r hr =>
            hset.disjoint hd hc (Ne.symm hother) hr
          have hbefore : s.store.tree.exists? p = true :=
            (h.secured hd).exists?_of_cleared (hset.accounted hd) h.isolation hdisjoint
              (h.secured hc) he hb hp (CommittedTree.exists?_iff_peek?.2 ⟨n, hn⟩)
          have hheld := (h.secured hc).guarded.cleared he hb hp hbefore
          rw [← hn]
          exact ((h.secured hd).peek?_commit_of_holds (hset.accounted hd) h.isolation hdisjoint
            hheld).symm
  · rw [← hn]
    exact (peek?_take hs (fun other hstep => hcommit ⟨other, hstep⟩) p).symm

/-- **What is committed below a node that a unit of work takes away was so before**, as long as it
goes on and does not touch the node. -/
theorem Strict.peek?_of_run (hsteps : ∀ step ∈ steps, step.isStrict = true)
    (havoids : s.avoidsThroughout name source steps = true) (hc : s.context? name = some c)
    (hrep : Replaced (c.entry? source)) (hp : p.isAtOrBelow source = true)
    (hn : (s.run steps).store.tree.peek? p = some n) : s.store.tree.peek? p = some n := by
  induction steps generalizing s c with
  | nil => exact hn
  | cons step steps ih =>
      rw [avoidsThroughout, Bool.and_eq_true] at havoids
      obtain ⟨c', hc'⟩ := exists_context?_take hc step
      have hrep' : Replaced (c'.entry? source) := by
        refine lasting_take lasting_replaced hs hset havoids.1 (fun d hd => ?_) hc'
        obtain rfl := Option.some.inj (hc.symm.trans hd)
        exact hrep
      have hgo : s.goesOn name step = true := (Bool.and_eq_true_iff.1 havoids.1).1
      refine h.peek?_of_take hs hset hgo hc hrep hp ?_
      exact ih (h.take hs hset (hsteps step List.mem_cons_self)) (hs.take step) (hset.take step)
        (fun step' hstep' => hsteps step' (List.mem_cons_of_mem _ hstep')) havoids.2 hc' hrep' hn

end Strict

/-- **Where locking is strict a move keeps all data.**  Reads are not pinned, parents are locked
with the nodes that are inserted and removed, no step skips locking and subtrees are moved deeply.
A unit of work has moved `source`, where it had changed nothing, to `target`, and does not touch the
source, nor `q`, afterwards, while others do what they like.  Then its commit succeeds, and every
node that is committed at `p` by then is found with its data at `q`, where `p` goes. -/
theorem move_keeps_data_of_strict {config : Config} {hash : Path → UInt64}
    {before : List Step} {n : Node}
    (hiso : config.isolation = .readCommitted) (hparent : config.locking.lockParent = true)
    (hbefore : ∀ step ∈ before, step.isStrict = true)
    (hsteps : ∀ step ∈ steps, step.isStrict = true) (h₀ : (ofConfig config hash).run before = s)
    (hc : s.context? name = some c)
    (hmove : s.ask name (.moveNode source parent true) = some (.ok (.place (some target))))
    (hne : target ≠ source)
    (hclean : ∀ r, r.isAtOrBelow source = true → c.workspace.isDirtyAt r = false)
    (h₁ : s.take (.perform name (.moveNode source parent true)) = s₁)
    (havoids : s₁.avoidsThroughout name source steps = true)
    (havoids' : s₁.avoidsThroughout name q steps = true) (h₂ : s₁.run steps = s₂)
    (hc₂ : s₂.context? name = some c₂) (hq : p.rebase? source target = some q)
    (hn : s₂.store.tree.peek? p = some n) :
    (s₂.commit name c₂).2 = .ok () ∧
      (s₂.commit name c₂).1.store.tree.data? q = some n.data := by
  obtain ⟨hplan, hex, hst⟩ := moved_of_ask hc hmove hne
  obtain ⟨hbelow, habove⟩ := Base.not_isAtOrBelow_of_planMove hplan
  have hsource := (Path.rebase?_isAtOrBelow hq).1
  have hsane : s.Sane := h₀ ▸ (sane_ofConfig config hash).run before
  have hset : s.Settled := h₀ ▸ (settled_ofConfig config hash).run before
  have hstrict : s.Strict := h₀ ▸
    (strict_ofConfig hiso hparent).run (sane_ofConfig config hash)
      (settled_ofConfig config hash) hbefore
  have hsane₁ : s₁.Sane := h₁ ▸ hsane.take _
  have hset₁ : s₁.Settled := h₁ ▸ hset.take _
  have hstrict₁ : s₁.Strict := h₁ ▸ hstrict.take hsane hset rfl
  have hset₂ : s₂.Settled := h₂ ▸ hset₁.run steps
  have hstrict₂ : s₂.Strict := h₂ ▸ hstrict₁.run hsane₁ hset₁ hsteps
  have htree : s₁.store.tree = s.store.tree := by
    rw [← h₁, take_perform hc]
    rfl
  have hc₁ : s₁.context? name = some (s.store.base.perform ⟨s.store.locks, c⟩
      (.moveNode source parent true)).1.context := by
    rw [← h₁, take_perform hc]
    exact context?_perform
  have hsourceClean := (Option.any_eq_false _ _).1 (hclean source (Path.isAtOrBelow_self source))
  have hrep := hst.stages.replaced_of_move hbelow hsourceClean
  -- the node was there when the move was made, and was reached
  have hfirst : s.store.base.tree.peek? p = some n := by
    rw [← h₂] at hn
    have hn₁ := hstrict₁.peek?_of_run hsane₁ hset₁ hsteps havoids hc₁ hrep hsource hn
    rwa [htree] at hn₁
  have hreached : (s.store.base.view c).reached? source p = some n.data :=
    (hstrict.secured hc).faithful.reached?_of_clean hex hclean hsource hfirst
  have hlanded : Landed (some n.data) (Context.entry? c₂ q) := by
    refine lasting_run (lasting_landed _) hsane₁ hset₁ havoids' (fun c₁ hc₁' => ?_) (h₂ ▸ hc₂)
    obtain rfl := Option.some.inj (hc₁.symm.trans hc₁')
    exact hst.stages.landed_of_reached hbelow habove hex hq hreached
  obtain ⟨hok, hdata⟩ := hstrict₂.commit hset₂ hc₂
  exact ⟨hok, (hdata q).trans (hlanded.data?_of_faithful (hstrict₂.secured hc₂).faithful)⟩

end SharedTree

end TransactionalTree
