/-
**What staging does to a unit of work.**

Each of the functions that stage a change is a sequence of steps of the workspace, and nothing else
of the unit of work changes but the record of moves.  The nodes that a write makes are those from
the first missing one on down; the nodes that a move makes are listed so that each comes after the
one above it.

Main definitions:

* `Context.Staged` — a unit of work, before and after a sequence of steps;
* `Path.Rooted` — a list in which each path comes after its parent.

Main results:

* `Context.staged_createChain` — **a write finds or makes the node that it needs**;
* `Context.staged_stageWrite`, `Context.stageRemoval_cases`, `Context.staged_stageMove` — the steps
  that each function stages.
-/

import Mathlib.Data.List.Basic
import Mathlib.Data.List.TakeWhile
import Mathlib.Tactic.ByContra
import TransactionalTree.Proofs.Effects

set_option relaxedAutoImplicit false
set_option autoImplicit false

namespace TransactionalTree

variable {b : Base} {w w' : Workspace} {c c' c'' : Context} {acts acts' : List Act}
variable {p q : Path} {e : Entry}

/-! ### Single entries -/

namespace Context

/-- The unit of work has taken these steps, and has changed nothing else but its record of moves. -/
structure Staged (b : Base) (c : Context) (acts : List Act) (c' : Context) : Prop where
  /-- The steps of the workspace. -/
  stages : Stages b c.workspace acts c'.workspace
  /-- All else is as before. -/
  same : c' = { c with workspace := c'.workspace, moves := c'.moves }

namespace Staged

theorem refl (c : Context) : Staged b c [] c := ⟨.refl, rfl⟩

theorem trans (h : Staged b c acts c') (h' : Staged b c' acts' c'') :
    Staged b c (acts ++ acts') c'' where
  stages := h.stages.trans h'.stages
  same := by
    rw [h'.same, h.same]

theorem setEntry (h : Stages b c.workspace acts (c.workspace.insert p e)) :
    Staged b c acts (c.setEntry p e) := ⟨h, rfl⟩

theorem tidy (h : Staged b c acts c') (hb : b.tree.Sound) (hc : c.workspace.Tidy) :
    c'.workspace.Tidy :=
  hc.stages hb h.stages

end Staged

theorem noteLock_cases (c : Context) (p : Path) :
    c.noteLock p = c ∨
      c.noteLock p = { c with workspace := c.workspace.modify p .markLocked } := by
  simp only [noteLock]
  split
  · exact .inr rfl
  · exact .inl rfl

theorem staged_noteLock (c : Context) (p : Path) : Staged b c [] (c.noteLock p) := by
  rcases noteLock_cases c p with h | h
  · rw [h]
    exact .refl c
  · rw [h]
    exact ⟨.of_note (.lock _ _), rfl⟩

/-- A node that has an entry still has one, the same but for the note. -/
theorem locate_noteLock (h : (b.view c).locate q = .staged e) :
    ∃ e', (b.view (c.noteLock p)).locate q = .staged e' ∧ (e' = e ∨ q = p ∧ e' = e.markLocked) := by
  rcases noteLock_cases c p with hn | hn
  · rw [hn]
    exact ⟨e, h, .inl rfl⟩
  · rw [hn]
    refine ⟨_, View.locate_lock_staged h, ?_⟩
    split
    · rename_i hqp
      exact .inr ⟨hqp, rfl⟩
    · exact .inl rfl

theorem entry?_noteLock_of_ne (h : q ≠ p) : Context.entry? (c.noteLock p) q = c.entry? q := by
  rcases noteLock_cases c p with hn | hn
  · rw [hn]
  · rw [hn, entry?, SortedMap.get?_modify, if_neg h]
    rfl

/-- **Making sure of an entry**: there is a node and now it has an entry, or there is none. -/
theorem materialize_cases (b : Base) (c : Context) (p : Path) :
    ((b.view c).exists? p = true ∧ (b.materialize c p).2 = true ∧
        Staged b c [] (b.materialize c p).1 ∧
        ∃ e, (b.view (b.materialize c p).1).locate p = .staged e ∧
          (b.view c).data? p = some e.data) ∨
      ((b.view c).exists? p = false ∧ b.materialize c p = (c, false)) := by
  simp only [Base.materialize, View.exists?, View.data?]
  cases hl : (b.view c).locate p with
  | staged e =>
      obtain ⟨e', he', heq⟩ := locate_noteLock (p := p) hl
      refine .inl ⟨rfl, rfl, staged_noteLock c p, e', he', ?_⟩
      rcases heq with rfl | ⟨-, rfl⟩
      · rfl
      · rfl
  | committed n =>
      have hcopy : Staged b c [] (c.setEntry p (b.copy p n)) := .setEntry (.of_note (.copy hl))
      have hself : (b.view (c.setEntry p (b.copy p n))).locate p = .staged (b.copy p n) :=
        View.locate_insert_present (View.locate_eq_committed.1 hl).1 rfl
      obtain ⟨e', he', heq⟩ := locate_noteLock (p := p) hself
      refine .inl ⟨rfl, rfl, hcopy.trans (staged_noteLock _ p), e', he', ?_⟩
      rcases heq with rfl | ⟨-, rfl⟩
      · rfl
      · rfl
  | missing => exact .inr ⟨rfl, rfl⟩
  | hidden => exact .inr ⟨rfl, rfl⟩

theorem entry?_materialize_of_ne (h : q ≠ p) :
    Context.entry? (b.materialize c p).1 q = c.entry? q := by
  simp only [Base.materialize]
  cases (b.view c).locate p with
  | staged e => exact entry?_noteLock_of_ne h
  | committed n => exact (entry?_noteLock_of_ne h).trans (SortedMap.get?_insert_of_ne h)
  | missing => rfl
  | hidden => rfl

/-- Making a node is a step if the node above it is there. -/
theorem staged_create {name : String} (h : (b.view c).exists? p = true) :
    Staged b c [.create (p.push name)] (c.create (p.push name)) := by
  have hset : Staged b c [.create (p.push name)] (c.setEntry (p.push name)
      ((c.entry? (p.push name)).elim Entry.fresh Entry.recreate)) :=
    .setEntry (.of_stage (.create name h))
  exact hset.trans (staged_noteLock _ _)

/-- A node that is made is there afterwards, without data. -/
theorem locate_create {name : String} (h : (b.view c).exists? p = true) :
    ∃ e, (b.view (c.create (p.push name))).locate (p.push name) = .staged e ∧
      e.created = true ∧ e.data = .empty := by
  obtain ⟨hp, hcr, hd⟩ := Entry.isPresent_made (c.entry? (p.push name))
  have hself : (b.view (c.setEntry (p.push name)
      ((c.entry? (p.push name)).elim Entry.fresh Entry.recreate))).locate (p.push name) = _ :=
    View.locate_insert_present (View.not_isCutOff_push h) hp
  obtain ⟨e', he', heq⟩ := locate_noteLock (p := p.push name) hself
  refine ⟨e', he', ?_⟩
  rcases heq with rfl | ⟨-, rfl⟩
  · exact ⟨hcr, hd⟩
  · exact ⟨hcr, hd⟩

/-- Other nodes that have an entry keep it when a node is made. -/
theorem locate_create_staged (h : (b.view c).locate q = .staged e) (hqp : q ≠ p) :
    (b.view (c.create p)).locate q = .staged e := by
  have hset : (b.view (c.setEntry p ((c.entry? p).elim Entry.fresh Entry.recreate))).locate q =
      .staged e :=
    View.locate_insert_staged h hqp (Entry.isPresent_made (c.entry? p)).1
  obtain ⟨e', he', heq⟩ := locate_noteLock (p := p) hset
  rcases heq with rfl | ⟨hq, -⟩
  · exact he'
  · exact absurd hq hqp

theorem entry?_create_of_ne (h : q ≠ p) : Context.entry? (c.create p) q = c.entry? q := by
  rw [create, entry?_noteLock_of_ne h]
  exact SortedMap.get?_insert_of_ne h

/-- What is not at or below the place is seen as before when a node is made. -/
theorem locate_create_of_not (h : ¬q.isAtOrBelow p = true) :
    (b.view (c.create p)).locate q = (b.view c).locate q := by
  refine View.locate_congr fun r hr => entry?_create_of_ne ?_
  rintro rfl
  exact h hr

/-! ### Making what is missing -/

end Context

namespace View

variable {v : View}

/-- Since the root is there, what a write makes are the steps from the first missing one on. -/
theorem missingChain_eq (h : v.exists? Path.root = true) (p : Path) :
    v.missingChain p = p.steps.dropWhile v.exists? := by
  rw [missingChain, chain]
  split
  · rename_i hp
    rw [Path.isRoot_iff.1 hp, Path.steps_root, List.dropWhile_cons_of_pos h]
  · rfl

/-- The nodes that a write makes, with or without leave to make nodes. -/
def toMake (v : View) (p : Path) (create : Bool) : List Path :=
  if create then p.steps.dropWhile v.exists? else []

theorem dropWhile_steps_push (v : View) (p : Path) (name : String) :
    (p.push name).steps.dropWhile v.exists? =
      if p.steps.dropWhile v.exists? = [] then
        if v.exists? (p.push name) = true then [] else [p.push name]
      else p.steps.dropWhile v.exists? ++ [p.push name] := by
  rw [Path.steps_push, List.dropWhile_append]
  by_cases h : p.steps.dropWhile v.exists? = []
  · rw [if_pos (List.isEmpty_iff.2 h), if_pos h, List.dropWhile_cons]
    rfl
  · rw [if_neg (fun he => h (List.isEmpty_iff.1 he)), if_neg h]

/-- A write makes nothing exactly if there are all the nodes on the way. -/
theorem dropWhile_steps_eq_nil_iff : p.steps.dropWhile v.exists? = [] ↔
    ∀ r, r ≠ Path.root → p.isAtOrBelow r = true → v.exists? r = true := by
  rw [List.dropWhile_eq_nil_iff]
  simp only [Path.mem_steps]
  exact ⟨fun h r hr hpr => h r ⟨hpr, hr⟩, fun h r hr => h r hr.2 hr.1⟩

/-- The nodes that a write makes are the steps at or below one that is missing. -/
theorem mem_dropWhile_steps : q ∈ p.steps.dropWhile v.exists? ↔
    p.isAtOrBelow q = true ∧
      ∃ r, r ≠ Path.root ∧ q.isAtOrBelow r = true ∧ v.exists? r = false := by
  induction p using Path.rootOrPush with
  | root =>
      simp only [Path.steps_root, List.dropWhile_nil, List.not_mem_nil, false_iff, not_and]
      rintro hq ⟨r, hr, hqr, -⟩
      rcases Path.isAtOrBelow_iff.1 (Path.isAtOrBelow_trans hq hqr) with rfl | h
      · exact hr rfl
      · exact Path.isAbove_root h
  | push p name ih =>
      rw [dropWhile_steps_push, Path.push_isAtOrBelow]
      by_cases h : p.steps.dropWhile v.exists? = []
      -- everything above is there, so the last step decides
      · rw [if_pos h]
        have hnot : ∀ {r : Path}, p.isAtOrBelow r = true → r ≠ Path.root → v.exists? r ≠ false := by
          intro r hpr hr hex
          rw [dropWhile_steps_eq_nil_iff.1 h r hr hpr] at hex
          simp at hex
        split
        · rename_i hp
          simp only [List.not_mem_nil, false_iff, not_and]
          rintro hq ⟨r, hr, hqr, hex⟩
          have hpr : (p.push name).isAtOrBelow r = true :=
            Path.isAtOrBelow_trans (Path.push_isAtOrBelow.2 hq) hqr
          rcases Path.push_isAtOrBelow.1 hpr with rfl | hpr
          · rw [hp] at hex
            simp at hex
          · exact hnot hpr hr hex
        · rename_i hp
          rw [List.mem_singleton]
          constructor
          · rintro rfl
            exact ⟨.inl rfl, _, Path.push_ne_root, Path.isAtOrBelow_self _, by simpa using hp⟩
          · rintro ⟨rfl | hq, r, hr, hqr, hex⟩
            · rfl
            · exact absurd hex (hnot (Path.isAtOrBelow_trans hq hqr) hr)
      · rw [if_neg h, List.mem_append, ih, List.mem_singleton]
        constructor
        · rintro (⟨hq, hr⟩ | rfl)
          · exact ⟨.inr hq, hr⟩
          · refine ⟨.inl rfl, ?_⟩
            by_contra hcon
            refine h (dropWhile_steps_eq_nil_iff.2 fun r hr hpr => ?_)
            by_contra hex
            exact hcon ⟨r, hr, Path.push_isAtOrBelow.2 (.inr hpr), by simpa using hex⟩
        · rintro ⟨rfl | hq, hr⟩
          · exact .inr rfl
          · exact .inl ⟨hq, hr⟩

/-- What a write makes is on the way to the node that it is for. -/
theorem isAtOrBelow_of_mem_toMake {create : Bool} (h : q ∈ v.toMake p create) :
    p.isAtOrBelow q = true := by
  cases create with
  | false => simp [toMake] at h
  | true => exact (mem_dropWhile_steps.1 h).1

/-- If a write makes anything, it makes the node that it is for. -/
theorem mem_toMake_of_ne_nil {create : Bool} (h : v.toMake p create ≠ []) :
    p ∈ v.toMake p create := by
  cases create with
  | false => exact absurd rfl h
  | true =>
      obtain ⟨q, hq⟩ := List.exists_mem_of_ne_nil _ h
      obtain ⟨hpq, r, hr, hqr, hmiss⟩ := mem_dropWhile_steps.1 hq
      exact mem_dropWhile_steps.2
        ⟨Path.isAtOrBelow_self p, r, hr, Path.isAtOrBelow_trans hpq hqr, hmiss⟩

end View

namespace Context

/-- **A write finds or makes the node that it needs.**  What it makes is there afterwards, and the
node itself is without data if anything had to be made. -/
theorem staged_createChain (h : (b.view c).exists? Path.root = true) (p : Path) :
    let made := p.steps.dropWhile (b.view c).exists?
    Staged b c (made.map .create) (made.foldl Context.create c) ∧
      (b.view (made.foldl Context.create c)).exists? p = true ∧
      (made ≠ [] → ∃ e, (b.view (made.foldl Context.create c)).locate p = .staged e ∧
        e.created = true ∧ e.data = .empty) := by
  induction p using Path.rootOrPush with
  | root =>
      simp only [Path.steps_root, List.dropWhile_nil]
      exact ⟨.refl c, h, fun hn => absurd rfl hn⟩
  | push p name ih =>
      obtain ⟨hst, hex, -⟩ := ih
      -- if the last node is made, it is made below one that is there by then
      have hlast : ∀ {made : List Path}, made = p.steps.dropWhile (b.view c).exists? →
          Staged b c ((made ++ [p.push name]).map .create)
              ((made ++ [p.push name]).foldl Context.create c) ∧
            ∃ e, (b.view ((made ++ [p.push name]).foldl Context.create c)).locate (p.push name) =
              .staged e ∧ e.created = true ∧ e.data = .empty := by
        rintro made rfl
        rw [List.map_append, List.foldl_append]
        exact ⟨hst.trans (staged_create hex), locate_create hex⟩
      have hthere : ∀ {c' : Context} {e : Entry}, (b.view c').locate (p.push name) = .staged e →
          (b.view c').exists? (p.push name) = true := by
        intro c' e he
        exact View.exists?_iff.2 (.inl ⟨e, he⟩)
      simp only [View.dropWhile_steps_push]
      by_cases hmade : p.steps.dropWhile (b.view c).exists? = []
      · rw [if_pos hmade]
        split
        · rename_i hp
          exact ⟨.refl c, hp, fun hn => absurd rfl hn⟩
        · obtain ⟨hst', e, he, hcr⟩ := hlast hmade.symm
          exact ⟨hst', hthere he, fun _ => ⟨e, he, hcr⟩⟩
      · rw [if_neg hmade]
        obtain ⟨hst', e, he, hcr⟩ := hlast rfl
        exact ⟨hst', hthere he, fun _ => ⟨e, he, hcr⟩⟩

/-- What a write stages before it changes the entry: it makes the missing nodes, and ends with an
entry for the node.  Without leave to make nodes there may be none. -/
theorem staged_stageWrite {create ready : Bool} (h : (b.view c).exists? Path.root = true)
    (hs : b.stageWrite c p create = .ok (c', ready)) :
    Staged b c (((b.view c).toMake p create).map .create) c' ∧
      ((ready = false ∧ create = false ∧ (b.view c).exists? p = false ∧ c' = c) ∨
        (ready = true ∧ ∃ e, (b.view c').locate p = .staged e ∧
          if (b.view c).toMake p create = [] then (b.view c).data? p = some e.data
          else e.data = .empty)) := by
  simp only [Base.stageWrite, View.missingChain_eq h] at hs
  simp only [View.toMake]
  split at hs
  · simp at hs
  obtain hs := Except.ok.inj hs
  cases create with
  | false =>
      simp only [Bool.false_eq_true, if_false, List.foldl_nil, List.map_nil] at hs ⊢
      rcases materialize_cases b c p with ⟨-, hready, hst, he⟩ | ⟨hex, hm⟩
      · rw [hs] at hready hst he
        exact ⟨hst, .inr ⟨hready, by simpa using he⟩⟩
      · rw [hm] at hs
        obtain ⟨rfl, rfl⟩ := Prod.mk.inj hs
        exact ⟨.refl c, .inl ⟨rfl, trivial, hex, rfl⟩⟩
  | true =>
      simp only [if_true] at hs ⊢
      obtain ⟨hst, hex, hlast⟩ := staged_createChain h p
      rcases materialize_cases b _ p with ⟨-, hready, hst', e, he, hd⟩ | ⟨hex', -⟩
      · rw [hs] at hready hst' he
        refine ⟨by simpa using hst.trans hst', .inr ⟨hready, e, he, ?_⟩⟩
        split
        · rename_i hmade
          rw [hmade] at hd
          exact hd
        · rename_i hmade
          obtain ⟨f, hf, -, hfd⟩ := hlast hmade
          rw [View.data?, hf] at hd
          rw [← hfd]
          exact (Option.some.inj hd).symm
      · rw [hex] at hex'
        simp at hex'

/-! ### Removing -/

/-- Removing takes the node away if it was there, and does nothing else. -/
theorem stageRemoval_cases (c : Context) (hp : p ≠ Path.root) :
    ((b.view c).exists? p = true ∧ (b.stageRemoval c p).2 = true ∧
        Staged b c [.remove p] (b.stageRemoval c p).1) ∨
      ((b.view c).exists? p = false ∧ b.stageRemoval c p = (c, false)) := by
  simp only [Base.stageRemoval]
  rcases materialize_cases b c p with ⟨hex, hready, hst, e, he, -⟩ | ⟨hex, hm⟩
  · generalize b.materialize c p = r at hready hst he
    obtain ⟨c', found⟩ := r
    obtain rfl := hready
    refine .inl ⟨hex, rfl, ?_⟩
    have hrem : Staged b c' [.remove p]
        ({ c' with workspace := c'.workspace.dropBelow p }.modifyEntry p Entry.markRemoved) :=
      ⟨.of_stage (.remove hp he), rfl⟩
    exact hst.trans hrem
  · rw [hm]
    exact .inr ⟨hex, rfl⟩

/-- Removing changes no entry that is not at or below the place. -/
theorem entry?_stageRemoval_of_not (h : ¬q.isAtOrBelow p = true) :
    Context.entry? (b.stageRemoval c p).1 q = c.entry? q := by
  have hqp : q ≠ p := fun he => h (Path.isAtOrBelow_iff.2 (.inl he))
  have hm := entry?_materialize_of_ne (b := b) (c := c) hqp
  simp only [Base.stageRemoval]
  generalize b.materialize c p = r at hm
  obtain ⟨c', found⟩ := r
  cases found with
  | false => exact hm
  | true =>
      rw [← hm]
      exact Workspace.get?_remove_of_not h

theorem locate_stageRemoval_of_not (h : ¬q.isAtOrBelow p = true) :
    (b.view (b.stageRemoval c p).1).locate q = (b.view c).locate q :=
  View.locate_congr fun _ hr => entry?_stageRemoval_of_not fun hrp =>
    h (Path.isAtOrBelow_trans hr hrp)

end Context

/-! ### Nodes after the ones above them -/

namespace Path

/-- Each of the paths comes after its parent, or its parent is known from the start. -/
def Rooted (known : List Path) : List Path → Prop
  | [] => True
  | p :: ps => (∃ r ∈ known, ∃ name, p = r.push name) ∧ Rooted (p :: known) ps

variable {known known' ps qs : List Path}

theorem Rooted.mono (h : Rooted known ps) (hk : ∀ r ∈ known, r ∈ known') : Rooted known' ps := by
  induction ps generalizing known known' with
  | nil => trivial
  | cons p ps ih =>
      obtain ⟨⟨r, hr, hp⟩, hps⟩ := h
      refine ⟨⟨r, hk r hr, hp⟩, ih hps fun q hq => ?_⟩
      rcases List.mem_cons.1 hq with rfl | hq
      · exact List.mem_cons_self
      · exact List.mem_cons_of_mem _ (hk q hq)

theorem Rooted.append (h : Rooted known ps) (h' : Rooted known qs) : Rooted known (ps ++ qs) := by
  induction ps generalizing known with
  | nil => exact h'
  | cons p ps ih => exact ⟨h.1, ih h.2 (h'.mono fun r hr => List.mem_cons_of_mem _ hr)⟩

/-- Each has its parent in front of it, or known from the start. -/
theorem Rooted.parent_before (h : Rooted known (ps ++ q :: qs)) :
    ∃ r name, q = r.push name ∧ (r ∈ known ∨ r ∈ ps) := by
  induction ps generalizing known with
  | nil =>
      obtain ⟨⟨r, hr, name, hq⟩, -⟩ := h
      exact ⟨r, name, hq, .inl hr⟩
  | cons p ps ih =>
      obtain ⟨r, name, hq, hr⟩ := ih h.2
      refine ⟨r, name, hq, ?_⟩
      rcases hr with hr | hr
      · exact (List.mem_cons.1 hr).elim (fun hr => .inr (hr ▸ List.mem_cons_self)) .inl
      · exact .inr (List.mem_cons_of_mem p hr)

theorem Rooted.flatMap {α : Type} {f : α → List Path} {as : List α}
    (h : ∀ a ∈ as, Rooted known (f a)) : Rooted known (as.flatMap f) := by
  induction as with
  | nil => trivial
  | cons a as ih =>
      rw [List.flatMap_cons]
      exact (h a List.mem_cons_self).append (ih fun a' ha => h a' (List.mem_cons_of_mem _ ha))

end Path

namespace View

variable {v : View}

/-- What is found below a node is listed with each node after the one above it. -/
theorem rooted_descend (v : View) (fuel : Nat) (p : Path) :
    Path.Rooted [p] (v.descend fuel p) := by
  induction fuel generalizing p with
  | zero => trivial
  | succ fuel ih =>
      rw [descend]
      split
      · trivial
      · refine Path.Rooted.flatMap fun name _ => ?_
        simp only
        split
        · refine ⟨⟨p, List.mem_singleton_self p, name, rfl⟩, (ih _).mono fun r hr => ?_⟩
          rw [List.mem_singleton.1 hr]
          exact List.mem_cons_self
        · trivial

/-- What is found below a node is there, and is below it. -/
theorem of_mem_descend {fuel : Nat} (h : q ∈ v.descend fuel p) :
    p.isAbove q = true ∧ v.exists? q = true := by
  induction fuel generalizing p with
  | zero => simp [descend] at h
  | succ fuel ih =>
      obtain ⟨_, name, -, -, hex, rfl | hq⟩ := mem_descend_succ.1 h
      · exact ⟨Path.isAbove_push_self p name, hex⟩
      · obtain ⟨habove, hq⟩ := ih hq
        exact ⟨Path.isAbove_trans (Path.isAbove_push_self p name) habove, hq⟩

end View

/-! ### Moving -/

namespace Path

/-- Putting a subtree elsewhere keeps each node after the one above it. -/
theorem Rooted.rebase {known known' ps : List Path} {old new : Path} (h : Rooted known ps)
    (hk : ∀ r ∈ known, ∃ r' ∈ known', r.rebase? old new = some r') :
    Rooted known' (ps.filterMap (·.rebase? old new)) := by
  induction ps generalizing known known' with
  | nil => trivial
  | cons p ps ih =>
      obtain ⟨⟨r, hr, name, rfl⟩, hps⟩ := h
      obtain ⟨r', hr', hrr'⟩ := hk r hr
      have hp : (r.push name).rebase? old new = some (r'.push name) := rebase?_push hrr'
      simp only [List.filterMap_cons, hp]
      refine ⟨⟨r', hr', name, rfl⟩, ih hps fun q hq => ?_⟩
      rcases List.mem_cons.1 hq with rfl | hq
      · exact ⟨_, List.mem_cons_self, hp⟩
      · obtain ⟨q', hq', hqq'⟩ := hk q hq
        exact ⟨q', List.mem_cons_of_mem _ hq', hqq'⟩

end Path

namespace View

variable {v : View} {source target : Path}

/-- The places that a subtree will have. -/
theorem map_relocated (h : v.exists? source = true) :
    (v.relocated source target).map (·.1) =
      target :: (v.descendants source).filterMap (·.rebase? source target) := by
  have hall : ∀ p ∈ source :: v.descendants source, ∃ d, v.data? p = some d := by
    intro p hp
    rcases List.mem_cons.1 hp with rfl | hp
    · exact exists?_iff_data?.1 h
    · exact exists?_iff_data?.1 (of_mem_descend hp).2
  have hself : target :: (v.descendants source).filterMap (·.rebase? source target) =
      (source :: v.descendants source).filterMap (·.rebase? source target) := by
    simp only [List.filterMap_cons, Path.rebase?_self]
  rw [hself, relocated, List.map_filterMap]
  refine List.filterMap_congr fun p hp => ?_
  obtain ⟨d, hd⟩ := hall p hp
  rw [hd]
  cases p.rebase? source target <;> rfl

/-- A subtree is moved to places at and below the target. -/
theorem isAtOrBelow_of_mem_relocated {n : Path × Data} (h : n ∈ v.relocated source target) :
    n.1.isAtOrBelow target = true := by
  obtain ⟨p, -, hp⟩ := List.mem_filterMap.1 h
  split at hp
  · rename_i d q hd hq
    obtain rfl := Option.some.inj hp
    exact (Path.rebase?_isAtOrBelow hq).2
  · simp at hp

theorem rooted_relocated (parent : Path) (name : String) (h : v.exists? source = true) :
    Path.Rooted [parent] ((v.relocated source (parent.push name)).map (·.1)) := by
  rw [map_relocated h]
  refine ⟨⟨parent, List.mem_singleton_self _, name, rfl⟩, ?_⟩
  refine (v.rooted_descend _ source).rebase fun r hr => ?_
  rw [List.mem_singleton.1 hr]
  exact ⟨_, List.mem_cons_self, Path.rebase?_self _ _⟩

end View

namespace Context

/-- The steps by which nodes are made with their data. -/
def actsOf (nodes : List (Path × Data)) : List Act :=
  nodes.flatMap fun n => [.create n.1, .write n.1 n.2]

/-- Making a node with data. -/
theorem staged_createWith (name : String) (d : Data) (h : (b.view c).exists? p = true) :
    let c' := (c.create (p.push name)).modifyEntry (p.push name) (·.replaceData d)
    Staged b c [.create (p.push name), .write (p.push name) d] c' ∧
      (∃ e, (b.view c').locate (p.push name) = .staged e) ∧
      (∀ q e, (b.view c).locate q = .staged e → q ≠ p.push name →
        (b.view c').locate q = .staged e) ∧
      ∀ q, ¬q.isAtOrBelow (p.push name) = true → (b.view c').locate q = (b.view c).locate q := by
  obtain ⟨e, he, -⟩ := locate_create h
  obtain ⟨hc, hget, hp⟩ := View.locate_eq_staged.1 he
  have hmod : SortedMap.modify (c.create (p.push name)).workspace (p.push name)
      (Entry.replaceData · d) =
      SortedMap.insert (c.create (p.push name)).workspace (p.push name) (e.replaceData d) :=
    SortedMap.modify_of_some hget
  have hset : (c.create (p.push name)).modifyEntry (p.push name) (·.replaceData d) =
      (c.create (p.push name)).setEntry (p.push name) (e.replaceData d) := by
    simp only [modifyEntry, setEntry, hmod]
  have hwrite : Staged b (c.create (p.push name)) [.write (p.push name) d]
      ((c.create (p.push name)).setEntry (p.push name) (e.replaceData d)) :=
    .setEntry (.of_stage (.write he (e.edited_replaceData d)))
  intro c'
  simp only [c', hset]
  refine ⟨(staged_create h).trans hwrite, ⟨_, View.locate_insert_present hc hp⟩, ?_, ?_⟩
  · intro q f hf hq
    exact View.locate_insert_staged (locate_create_staged hf hq) hq hp
  · intro q hq
    exact (View.locate_insert_of_not hq).trans (locate_create_of_not hq)

/-- **Making nodes with their data**, each after the one above it. -/
theorem staged_createAll {known : List Path} {nodes : List (Path × Data)}
    (h : Path.Rooted known (nodes.map (·.1)))
    (hk : ∀ r ∈ known, (∃ e, (b.view c).locate r = .staged e) ∨
      ((b.view c).exists? r = true ∧ ∀ n ∈ nodes, ¬r.isAtOrBelow n.1 = true)) :
    Staged b c (actsOf nodes) (c.createAll nodes) ∧
      ∀ q, (∀ n ∈ nodes, ¬q.isAtOrBelow n.1 = true) →
        (b.view (c.createAll nodes)).locate q = (b.view c).locate q := by
  induction nodes generalizing c known with
  | nil => exact ⟨.refl c, fun _ _ => rfl⟩
  | cons n nodes ih =>
      obtain ⟨⟨r, hr, name, hn⟩, hrest⟩ := h
      have hex : (b.view c).exists? r = true := by
        rcases hk r hr with ⟨e, he⟩ | ⟨hex, -⟩
        · exact View.exists?_iff.2 (.inl ⟨e, he⟩)
        · exact hex
      obtain ⟨hst, hself, hstaged, hnot⟩ := staged_createWith name n.2 hex
      rw [← hn] at hst hself hstaged hnot
      -- a parent that is there is staged already, or no node to come is at or above it
      obtain ⟨hst', hnot'⟩ := ih hrest fun q hq => by
        rcases List.mem_cons.1 hq with rfl | hq
        · exact .inl hself
        · by_cases hqn : q = n.1
          · rw [hqn]
            exact .inl hself
          · rcases hk q hq with ⟨e, he⟩ | ⟨hqex, hall⟩
            · exact .inl ⟨e, hstaged q e he hqn⟩
            · refine .inr ⟨?_, fun m hm => hall m (List.mem_cons_of_mem _ hm)⟩
              rw [View.exists?, hnot q (hall n List.mem_cons_self)]
              exact hqex
      refine ⟨hst.trans hst', fun q hq => ?_⟩
      rw [← hnot q (hq n List.mem_cons_self)]
      exact hnot' q fun m hm => hq m (List.mem_cons_of_mem _ hm)

/-- The steps of a move: what is at the target goes, the nodes are made there with their data, and
the source goes. -/
def movingActs (v : View) (source target : Path) : List Act :=
  (if v.exists? target then [.remove target] else []) ++
    (actsOf (v.relocated source target) ++ [.remove source])

/-- The steps of a move are at or below its source and its target. -/
theorem of_mem_movingActs {v : View} {source target : Path} {a : Act}
    (h : a ∈ movingActs v source target) :
    a = .remove source ∨ a = .remove target ∨
      ∃ p, p.isAtOrBelow target = true ∧ (a = .create p ∨ ∃ d, a = .write p d) := by
  rcases List.mem_append.1 h with h | h
  · split at h
    · exact .inr (.inl (List.mem_singleton.1 h))
    · simp at h
  · rcases List.mem_append.1 h with h | h
    · obtain ⟨n, hn, hmem⟩ := List.mem_flatMap.1 h
      refine .inr (.inr ⟨n.1, View.isAtOrBelow_of_mem_relocated hn, ?_⟩)
      rcases List.mem_cons.1 hmem with rfl | hmem
      · exact .inl rfl
      · exact .inr ⟨n.2, List.mem_singleton.1 hmem⟩
    · exact .inl (List.mem_singleton.1 h)

/-- **A move stages its steps** if source and new parent are there and it makes sense. -/
theorem staged_stageMove {source parent : Path} {name : String} (hsource : source ≠ Path.root)
    (hs : (b.view c).exists? source = true) (hp : (b.view c).exists? parent = true)
    (hbelow : ¬source.isAtOrBelow (parent.push name) = true)
    (hm : b.stageMove c source (parent.push name) = .ok c') :
    Staged b c (movingActs (b.view c) source (parent.push name)) c' := by
  simp only [Base.stageMove] at hm
  split at hm
  · simp at hm
  obtain rfl := Except.ok.inj hm
  have hparent : ¬parent.isAtOrBelow (parent.push name) = true :=
    Path.not_isAtOrBelow_of_isAbove (Path.isAbove_push_self parent name)
  -- what is at the target goes, and neither the new parent nor the source is there
  obtain ⟨cleared, hcleared, hst, hkeep⟩ : ∃ cleared,
      (if (b.view c).exists? (parent.push name) then (b.stageRemoval c (parent.push name)).1
        else c) = cleared ∧
      Staged b c (if (b.view c).exists? (parent.push name) then [.remove (parent.push name)]
        else []) cleared ∧
      ∀ q, ¬q.isAtOrBelow (parent.push name) = true →
        (b.view cleared).locate q = (b.view c).locate q := by
    by_cases hex : (b.view c).exists? (parent.push name) = true
    · simp only [if_pos hex]
      have hne : parent.push name ≠ Path.root := Path.push_ne_root
      rcases stageRemoval_cases (b := b) c hne with ⟨-, -, hst⟩ | ⟨hex', -⟩
      · exact ⟨_, rfl, hst, fun q hq => locate_stageRemoval_of_not hq⟩
      · rw [hex] at hex'
        simp at hex'
    · simp only [if_neg hex]
      exact ⟨c, rfl, .refl c, fun q _ => rfl⟩
  rw [hcleared]
  -- the nodes are made at and below the target
  have hplaces : ∀ n ∈ (b.view c).relocated source (parent.push name),
      n.1.isAtOrBelow (parent.push name) = true := fun n hn => View.isAtOrBelow_of_mem_relocated hn
  obtain ⟨hall, hkeep'⟩ := staged_createAll (b := b) (c := cleared)
    (View.rooted_relocated parent name hs) fun r hr => by
      obtain rfl := List.mem_singleton.1 hr
      refine .inr ⟨?_, fun n hn hrn => hparent (Path.isAtOrBelow_trans hrn (hplaces n hn))⟩
      rw [View.exists?, hkeep _ hparent]
      exact hp
  -- the source is still there, and goes
  have hex : (b.view (cleared.createAll ((b.view c).relocated source (parent.push name)))).exists?
      source = true := by
    rw [View.exists?, hkeep' source fun n hn hsn =>
      hbelow (Path.isAtOrBelow_trans hsn (hplaces n hn)), hkeep source hbelow]
    exact hs
  rcases stageRemoval_cases (b := b) (cleared.createAll _) hsource with ⟨-, -, hrem⟩ | ⟨hex', -⟩
  · have hmoved := (hst.trans (hall.trans hrem))
    exact ⟨hmoved.stages, by rw [recordMove, hmoved.same]⟩
  · rw [hex] at hex'
    simp at hex'

end Context

end TransactionalTree
