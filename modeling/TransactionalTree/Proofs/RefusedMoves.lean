/-
**Which moves are refused.**

A move that makes no sense is refused at once: of the root, to or below the node itself, or in place
of a node above it.  Otherwise, if all the locks that it needs are free, it is refused for its
source, if that is not there, and else for its new parent, if that is not there; if both are there
it is made, and the node is at its new place.  There is one exception.  A move to the parent that
the node has by its path is answered before anything is looked up, so it succeeds whether there is a
node or not.

Main definitions:

* `Senseless` — a move that makes no sense;
* `View.moveNeeds` — the locks that a move needs;
* `Work.Free` — locks that can be taken;
* `Work.Further` — a unit of work that has taken locks and done nothing else.

Main results:

* `planMove_eq` — what is planned for a move that makes sense;
* `Work.lockAll_of_free` — locks that are free are granted;
* `Base.exists?_stageMove` — **after a move the node is at its new place**;
* `Base.moveNode_of_free` — how a move goes whose locks are free;
* `SharedTree.move_refused_unless_staying` — **which moves are refused**, and for what.
-/

import TransactionalTree.Proofs.LockLists
import TransactionalTree.Proofs.Relocations

set_option relaxedAutoImplicit false
set_option autoImplicit false

namespace TransactionalTree

variable {b : Base} {w w' : Work} {c c' : Context} {n : String}
variable {p q source parent target : Path} {ps taken : List Path} {deep : Bool}

/-! ### Moves that make no sense -/

/-- **A move that makes no sense**: of the root, to the node itself or below it, or in place of a
node above it. -/
def Senseless (source parent : Path) : Prop :=
  source = Path.root ∨ parent.isAtOrBelow source = true ∨
    ∃ n, source.name? = some n ∧ (parent.push n).isAbove source = true

instance : Decidable (Senseless source parent) :=
  decidable_of_iff (source = Path.root ∨ parent.isAtOrBelow source = true ∨
    (source.name?.any fun n => (parent.push n).isAbove source) = true)
    (by simp only [Senseless, Option.any_eq_true])

/-- **What is planned for a move that makes sense**: the node stays, or goes to the place of its
name under the new parent. -/
theorem planMove_eq (hn : source.name? = some n) (h : ¬Senseless source parent) :
    planMove source parent =
      .ok (if parent.push n = source then .stay else .moveTo (parent.push n)) := by
  simp only [Senseless, not_or, not_exists, not_and] at h
  obtain ⟨-, hunder, hancestor⟩ := h
  have honto : ¬source.isBelow (parent.push n) = true := hancestor n hn
  simp only [planMove, hn, if_neg hunder, if_neg honto]
  split <;> rfl

theorem planMove_of_senseless (h : Senseless source parent) :
    ∃ e, planMove source parent = .error e := by
  cases hn : source.name? with
  | none => exact ⟨.moveRoot, by simp only [planMove, hn]⟩
  | some n =>
      by_cases hunder : parent.isAtOrBelow source = true
      · exact ⟨.moveUnderItself source parent, by simp only [planMove, hn, if_pos hunder]⟩
      · obtain hroot | habove | ⟨m, hm, honto⟩ := h
        · rw [hroot] at hn
          simp [Path.name?] at hn
        · exact absurd habove hunder
        · obtain rfl := Option.some.inj (hn.symm.trans hm)
          have hne : ¬parent.push n = source := Path.ne_of_isAbove honto
          have hbelow : source.isBelow (parent.push n) = true := honto
          exact ⟨.moveOntoAncestor source (parent.push n), by
            simp only [planMove, hn, if_neg hunder, if_neg hne, if_pos hbelow]⟩

theorem exists_name_of_not_senseless (h : ¬Senseless source parent) :
    ∃ n, source.name? = some n := by
  cases source using Path.rootOrPush with
  | root => exact absurd (.inl rfl) h
  | push p n => exact ⟨n, Path.name?_push p n⟩

/-! ### Locks that are free -/

namespace Work

/-- **The listed paths can be locked**: nothing is locked anyway, or none of them is barred. -/
def Free (w : Work) (ps : List Path) : Prop :=
  w.context.options.skipLocking = true ∨ ∀ p ∈ ps, ¬w.Barred p

/-- The second unit of work has taken locks and has done nothing else, and what bars it is what
barred the first. -/
structure Further (w w' : Work) : Prop where
  /-- All but the locked paths is as before. -/
  others : w'.context = { w.context with locked := w'.context.locked }
  /-- The same paths are barred. -/
  barred : ∀ q, w'.Barred q ↔ w.Barred q

theorem Further.view (h : w.Further w') (b : Base) : b.view w'.context = b.view w.context := by
  rw [h.others]
  rfl

theorem Further.options (h : w.Further w') : w'.context.options = w.context.options := by
  rw [h.others]

theorem Further.trans {w'' : Work} (h : w.Further w') (h' : w'.Further w'') : w.Further w'' where
  others := by rw [h'.others, h.others]
  barred q := (h'.barred q).trans (h.barred q)

theorem Further.free (h : w.Further w') (hfree : w.Free ps) : w'.Free ps := by
  rw [Free, h.options]
  exact hfree.imp_right fun hall p hp hbar => hall p hp ((h.barred p).1 hbar)

theorem Free.mono {qs : List Path} (h : w.Free ps) (hqs : ∀ q ∈ qs, q ∈ ps) : w.Free qs :=
  h.imp_right fun hall q hq => hall q (hqs q hq)

/-- A path that could be locked right now is not barred. -/
theorem not_barred_of_acquire? (h : (w.locks.table.acquire? p w.context.owner).isSome = true) :
    ¬w.Barred p := by
  intro hbar
  rw [LockTable.acquire?_eq_none_iff.2 hbar.2] at h
  simp at h

/-- **Locks that are free are granted.** -/
theorem lockAll_of_free (hfree : w.Free ps) (taken : List Path) :
    ∃ w' all, w.lockAll taken ps = (w', .granted all) ∧ w.Further w' := by
  rw [lockAll]
  by_cases hskip : w.context.options.skipLocking = true
  · rw [if_pos hskip]
    exact ⟨w, taken, rfl, rfl, fun _ => Iff.rfl⟩
  · rw [if_neg hskip]
    have hps := hfree.resolve_left hskip
    rcases acquireFrom_outcome w [] ps with
      ⟨w', hall, htook, -⟩ | ⟨before, p, after, -, rfl, -, hbar, -⟩
    · rw [acquireAll, hall]
      exact ⟨w', _, rfl, htook.others, fun q =>
        htook.barred_iff fun p hp => hps p (Context.mem_unheld.1 hp).1⟩
    · exact absurd hbar (hps p (by simp))

end Work

/-- **The locks that a move needs**: those of its source, of its new parent if the source is there,
and of all that is moved and replaced if both are there. -/
def View.moveNeeds (v : View) (m : LockManager) (source parent : Path) (deep : Bool) : List Path :=
  match planMove source parent with
  | .ok (.moveTo target) =>
      (m.parentLock source ++ [source]) ++
        if v.exists? source then
          parent :: if v.exists? parent then v.moveLocks source target deep else []
        else []
  | _ => []

namespace Base

/-- Where the locks are free, it is said whether the node is there. -/
theorem lockAndFind_of_free (hfree : w.Free ps) (taken : List Path) :
    ((b.view w.context).exists? p = true →
      ∃ w' all, b.lockAndFind w taken ps p = (w', .granted all) ∧ w.Further w') ∧
    ((b.view w.context).exists? p = false →
      ∃ w', b.lockAndFind w taken ps p = (w', .refused (.nodeMissing p))) := by
  obtain ⟨w', all, hlock, hfurther⟩ := Work.lockAll_of_free hfree taken
  simp only [lockAndFind, hlock, hfurther.view b]
  constructor
  · intro hp
    rw [if_pos hp]
    exact ⟨w', all, rfl, hfurther⟩
  · intro hp
    rw [if_neg (Bool.eq_false_iff.1 hp)]
    exact ⟨_, rfl⟩

end Base

/-! ### The new place -/

namespace Context

/-- Making nodes changes no entry elsewhere. -/
theorem entry?_createAll_of_notMem {nodes : List (Path × Data)} (hq : q ∉ nodes.map (·.1)) :
    Context.entry? (c.createAll nodes) q = c.entry? q := by
  induction nodes generalizing c with
  | nil => rfl
  | cons n nodes ih =>
      rw [List.map_cons, List.mem_cons, not_or] at hq
      have hstep : c.createAll (n :: nodes) =
          ((c.create n.1).modifyEntry n.1 (·.replaceData n.2)).createAll nodes := rfl
      have hmodify : Context.entry? ((c.create n.1).modifyEntry n.1 (·.replaceData n.2)) q =
          Context.entry? (c.create n.1) q := by
        rw [Context.entry?, Context.modifyEntry, SortedMap.get?_modify, if_neg hq.1]
        rfl
      rw [hstep, ih hq.2, hmodify, entry?_create_of_ne hq.1]

end Context

namespace Base

/-- A move changes no entry that is neither at or below the source nor at or below the target. -/
theorem entry?_stageMove_of_not (hm : b.stageMove c source target = .ok c')
    (hqs : ¬q.isAtOrBelow source = true) (hqt : ¬q.isAtOrBelow target = true) :
    c'.entry? q = c.entry? q := by
  simp only [stageMove] at hm
  split at hm
  · simp at hm
  obtain rfl := Except.ok.inj hm
  have hmade : q ∉ ((b.view c).relocated source target).map (·.1) := by
    intro hq
    obtain ⟨node, hnode, rfl⟩ := List.mem_map.1 hq
    exact hqt (View.isAtOrBelow_of_mem_relocated hnode)
  have hcleared : Context.entry? (if (b.view c).exists? target then (b.stageRemoval c target).1
      else c) q = c.entry? q := by
    split
    · exact Context.entry?_stageRemoval_of_not hqt
    · rfl
  calc Context.entry? _ q = Context.entry? (Context.createAll _ _) q :=
        Context.entry?_stageRemoval_of_not hqs
    _ = Context.entry? _ q := Context.entry?_createAll_of_notMem hmade
    _ = c.entry? q := hcleared

/-- **After a move the node is at its new place.** -/
theorem exists?_stageMove (hplan : planMove source parent = .ok (.moveTo target))
    (hs : (b.view c).exists? source = true) (hp : (b.view c).exists? parent = true)
    (hm : b.stageMove c source target = .ok c') : (b.view c').exists? target = true := by
  obtain ⟨hst, hts⟩ := not_isAtOrBelow_of_planMove hplan
  obtain ⟨hsource, ⟨n, -, rfl⟩, -, hunder⟩ := planMove_moveTo hplan
  -- the node has been made, and is not removed again
  obtain ⟨d, hd⟩ := View.exists?_iff_data?.1 hs
  have hreached : (b.view c).reached? source source = some d := by
    rw [View.reached?, if_pos List.mem_cons_self]
    exact hd
  obtain ⟨e, he, hremoved, hcreated, -, -⟩ := (Context.staged_stageMove hsource hs hp hst hm).stages
    |>.landed_of_reached hst hts hs (Path.rebase?_self source (parent.push n)) hreached
  have hpresent : e.isPresent = true := Entry.isPresent_iff.2 ⟨hremoved, .inl hcreated⟩
  -- the new parent is where it was, so the node is not cut off
  have hparent : (b.view c').exists? parent = true := by
    have hself : ¬parent.isAtOrBelow (parent.push n) = true :=
      Path.not_isAtOrBelow_of_isAbove (Path.isAbove_push_self parent n)
    have hlocate : (b.view c').locate parent = (b.view c).locate parent :=
      View.locate_congr fun r hr => entry?_stageMove_of_not hm
        (fun hrs => hunder (Path.isAtOrBelow_trans hr hrs))
        (fun hrt => hself (Path.isAtOrBelow_trans hr hrt))
    rw [View.exists?, hlocate]
    exact hp
  exact View.exists?_iff.2 (.inl ⟨e, View.locate_eq_staged.2
    ⟨View.not_isCutOff_push hparent, he, hpresent⟩⟩)

/-! ### Moves whose locks are free -/

variable (hplan : planMove source parent = .ok (.moveTo target))
variable (hfree : w.Free ((b.view w.context).moveNeeds w.locks source parent deep))
include hplan hfree

/-- **Where the locks of a move are free**, it is said which node is missing, or all are taken. -/
theorem lockMove_of_free :
    ((b.view w.context).exists? source = false →
      ∃ w', b.lockMove w source parent target deep = (w', .refused (.nodeMissing source))) ∧
    ((b.view w.context).exists? source = true → (b.view w.context).exists? parent = false →
      ∃ w', b.lockMove w source parent target deep = (w', .refused (.nodeMissing parent))) ∧
    ((b.view w.context).exists? source = true → (b.view w.context).exists? parent = true →
      ∃ w' all, b.lockMove w source parent target deep = (w', .granted all) ∧ w.Further w') := by
  simp only [View.moveNeeds, hplan] at hfree
  have hfirst : w.Free (w.locks.parentLock source ++ [source]) :=
    hfree.mono fun q hq => List.mem_append_left _ hq
  obtain ⟨hfound, hmissing⟩ := lockAndFind_of_free (b := b) (p := source) hfirst []
  -- the new parent is locked by a unit of work that sees the same
  have hsecond : (b.view w.context).exists? source = true →
      ∃ w₁ all, b.lockAndFind w [] (w.locks.parentLock source ++ [source]) source =
        (w₁, .granted all) ∧ w.Further w₁ ∧ w₁.Free [parent] := by
    intro hs
    obtain ⟨w₁, all, hlock, hfurther⟩ := hfound hs
    rw [if_pos hs] at hfree
    refine ⟨w₁, all, hlock, hfurther, hfurther.free (hfree.mono fun q hq => ?_)⟩
    rw [List.mem_singleton.1 hq]
    exact List.mem_append_right _ List.mem_cons_self
  refine ⟨fun hs => ?_, fun hs hp => ?_, fun hs hp => ?_⟩
  · obtain ⟨w₁, hlock⟩ := hmissing hs
    simp only [lockMove, hlock]
    exact ⟨w₁, rfl⟩
  · obtain ⟨w₁, all, hlock, hfurther, hfree₁⟩ := hsecond hs
    rw [← hfurther.view b] at hp
    obtain ⟨w₂, hlock₂⟩ := (lockAndFind_of_free (b := b) (p := parent) hfree₁ all).2 hp
    simp only [lockMove, hlock, hlock₂]
    exact ⟨w₂, rfl⟩
  · obtain ⟨w₁, all, hlock, hfurther, hfree₁⟩ := hsecond hs
    rw [if_pos hs, if_pos hp] at hfree
    rw [← hfurther.view b] at hp
    obtain ⟨w₂, all₂, hlock₂, hfurther₂⟩ :=
      (lockAndFind_of_free (b := b) (p := parent) hfree₁ all).1 hp
    have hboth := hfurther.trans hfurther₂
    have hrest : w₂.Free ((b.view w₂.context).moveLocks source target deep) := by
      rw [hboth.view b]
      refine hboth.free (hfree.mono fun q hq => ?_)
      exact List.mem_append_right _ (List.mem_cons_of_mem _ hq)
    obtain ⟨w₃, all₃, hlock₃, hfurther₃⟩ := Work.lockAll_of_free hrest all₂
    simp only [lockMove, hlock, hlock₂, hlock₃]
    exact ⟨w₃, all₃, rfl, hboth.trans hfurther₃⟩

/-- **How a move goes whose locks are free**, if it has no version of its own. -/
theorem moveNode_of_free (hversion : w.context.options.version = none) :
    ((b.view w.context).exists? source = false →
      (b.moveNode w source parent deep).2 = .error (.nodeMissing source)) ∧
    ((b.view w.context).exists? source = true → (b.view w.context).exists? parent = false →
      (b.moveNode w source parent deep).2 = .error (.nodeMissing parent)) ∧
    ((b.view w.context).exists? source = true → (b.view w.context).exists? parent = true →
      (b.moveNode w source parent deep).2 = .ok (some target) ∧
      (b.view (b.moveNode w source parent deep).1.context).exists? target = true) := by
  obtain ⟨hsource, hparent, hboth⟩ := lockMove_of_free hplan hfree
  refine ⟨fun hs => ?_, fun hs hp => ?_, fun hs hp => ?_⟩
  · obtain ⟨w', hlock⟩ := hsource hs
    simp only [moveNode, hplan, hlock]
  · obtain ⟨w', hlock⟩ := hparent hs hp
    simp only [moveNode, hplan, hlock]
  · obtain ⟨w', all, hlock, hfurther⟩ := hboth hs hp
    simp only [moveNode, hplan, hlock]
    cases hm : b.stageMove w'.context source target with
    | error e =>
        -- without a version there is none that could be outdated
        simp only [stageMove] at hm
        split at hm
        · rename_i hrevivals
          have hsome := checkRevivals_error hrevivals
          rw [hfurther.options, hversion] at hsome
          simp at hsome
        · simp at hm
    | ok c =>
        rw [← hfurther.view b] at hs hp
        exact ⟨rfl, exists?_stageMove hplan hs hp hm⟩

omit hplan hfree

/-- A move to the parent that the node has is done before anything is looked up. -/
theorem moveNode_of_stay (b : Base) (w : Work) (deep : Bool)
    (hplan : planMove source parent = .ok .stay) :
    b.moveNode w source parent deep = (w, .ok (some source)) := by
  simp only [moveNode, hplan]

/-- **A move is invalid exactly if it makes no sense.** -/
theorem moveNode_invalid_iff
    (hfree : w.Free ((b.view w.context).moveNeeds w.locks source parent deep))
    (hversion : w.context.options.version = none) :
    (∃ reason, (b.moveNode w source parent deep).2 = .error (.invalidOperation reason)) ↔
      Senseless source parent := by
  constructor
  · rintro ⟨reason, hinvalid⟩
    by_contra hsense
    obtain ⟨n, hn⟩ := exists_name_of_not_senseless hsense
    have hplan := planMove_eq hn hsense
    split at hplan
    · rw [moveNode_of_stay b w deep hplan] at hinvalid
      simp at hinvalid
    · obtain ⟨hsource, hparent, hboth⟩ := moveNode_of_free hplan hfree hversion
      cases hs : (b.view w.context).exists? source with
      | false =>
          rw [hsource hs] at hinvalid
          simp at hinvalid
      | true =>
          cases hp : (b.view w.context).exists? parent with
          | false =>
              rw [hparent hs hp] at hinvalid
              simp at hinvalid
          | true =>
              rw [(hboth hs hp).1] at hinvalid
              simp at hinvalid
  · intro h
    obtain ⟨e, hplan⟩ := planMove_of_senseless h
    exact ⟨.because e, by simp only [moveNode, hplan]; rfl⟩

end Base

namespace SharedTree

variable {s : SharedTree}

/-- **Which moves are refused.**  A unit of work moves `source` to become a child of `parent`,
without a version of its own, and all the locks that it needs are free.  The operation is invalid
exactly if it makes no sense.  Otherwise, if the node has to go to another place, the move is
refused for the source, if that is not there, and else for the new parent, if that is not there; and
if both are there it answers with the new place, where the node is then.  If the node is to stay at
its place, the move does nothing and answers with that place, whether there is a node or not. -/
theorem move_refused_unless_staying (name : String) (hversion : c.options.version = none)
    (hfree : Work.Free ⟨s.store.locks, c⟩
      ((s.store.base.view c).moveNeeds s.store.locks source parent deep)) :
    let v := s.store.base.view c
    let r := s.perform name c (.moveNode source parent deep)
    ((∃ reason, r.2 = .error (.invalidOperation reason)) ↔ Senseless source parent) ∧
    ∀ n, source.name? = some n → ¬Senseless source parent →
      (parent.push n ≠ source →
        (v.exists? source = false → r.2 = .error (.nodeMissing source)) ∧
        (v.exists? source = true → v.exists? parent = false → r.2 = .error (.nodeMissing parent)) ∧
        (v.exists? source = true → v.exists? parent = true →
          r.2 = .ok (.place (some (parent.push n))) ∧
          ∃ c', r.1.context? name = some c' ∧
            (r.1.store.base.view c').exists? (parent.push n) = true)) ∧
      (parent.push n = source →
        r.2 = .ok (.place (some source)) ∧ r.1.store = s.store ∧ r.1.context? name = some c) := by
  intro v r
  have hanswer : r.2 =
      (s.store.base.moveNode ⟨s.store.locks, c⟩ source parent deep).2.map .place := rfl
  have hstore : r.1.store = { s.store with
      locks := (s.store.base.moveNode ⟨s.store.locks, c⟩ source parent deep).1.locks } := rfl
  have hcontext : r.1.context? name =
      some (s.store.base.moveNode ⟨s.store.locks, c⟩ source parent deep).1.context :=
    SortedMap.get?_insert_self
  refine ⟨?_, fun n hn hsense => ⟨fun hne => ?_, fun heq => ?_⟩⟩
  · rw [← Base.moveNode_invalid_iff hfree hversion, hanswer]
    refine exists_congr fun reason => ?_
    cases (s.store.base.moveNode ⟨s.store.locks, c⟩ source parent deep).2 <;> simp [Except.map]
  · have hplan := planMove_eq hn hsense
    rw [if_neg hne] at hplan
    obtain ⟨hsource, hparent, hboth⟩ := Base.moveNode_of_free hplan hfree hversion
    rw [hanswer, hcontext]
    refine ⟨fun hs => ?_, fun hs hp => ?_, fun hs hp => ?_⟩
    · rw [hsource hs]
      rfl
    · rw [hparent hs hp]
      rfl
    · obtain ⟨hplace, hexists⟩ := hboth hs hp
      rw [hplace]
      exact ⟨rfl, _, rfl, hexists⟩
  · have hplan := planMove_eq hn hsense
    rw [if_pos heq] at hplan
    rw [hanswer, hstore, hcontext, Base.moveNode_of_stay _ _ deep hplan]
    exact ⟨rfl, rfl, rfl⟩

/-- There are `/a/x` and `/b`, and another transaction has locked `/c`. -/
def furnishedState : SharedTree :=
  (ofConfig {}).run
    [.start "s" ⟨"main", 0⟩ (some (1 : Nat)), .start "t" ⟨"main", 0⟩ (some (2 : Nat)),
      .perform "s" (.put ⟨["c"]⟩ "k" (.int 1)), .perform "t" (.put ⟨["a", "x"]⟩ "k" (.int 1)),
      .perform "t" (.put ⟨["b"]⟩ "k" (.int 1))]

/-- The transaction that has made `/a/x` and `/b`. -/
def furnishedContext : Context := (furnishedState.context? "t").getD default

/-- It moves `/a` below `/b`, where it is then. -/
theorem furnished_move_done :
    (furnishedState.perform "t" furnishedContext (.moveNode ⟨["a"]⟩ ⟨["b"]⟩ true)).2 =
      .ok (.place (some ⟨["b", "a"]⟩)) ∧
    ∃ c', (furnishedState.perform "t" furnishedContext
        (.moveNode ⟨["a"]⟩ ⟨["b"]⟩ true)).1.context? "t" = some c' ∧
      ((furnishedState.perform "t" furnishedContext
        (.moveNode ⟨["a"]⟩ ⟨["b"]⟩ true)).1.store.base.view c').exists? ⟨["b", "a"]⟩ = true := by
  have hversion : furnishedContext.options.version = none := by decide +kernel
  have hopen : ∀ p ∈ (furnishedState.store.base.view furnishedContext).moveNeeds
      furnishedState.store.locks ⟨["a"]⟩ ⟨["b"]⟩ true,
      (furnishedState.store.locks.table.acquire? p furnishedContext.owner).isSome = true := by
    decide +kernel
  have hfree : Work.Free ⟨furnishedState.store.locks, furnishedContext⟩
      ((furnishedState.store.base.view furnishedContext).moveNeeds furnishedState.store.locks
        ⟨["a"]⟩ ⟨["b"]⟩ true) :=
    .inr fun p hp => Work.not_barred_of_acquire? (hopen p hp)
  obtain ⟨-, hmove⟩ := move_refused_unless_staying "t" hversion hfree
  exact ((hmove "a" (by decide) (by decide)).1 (by decide)).2.2 (by decide +kernel)
    (by decide +kernel)

/-- A transaction is under way on a tree with nothing but a root. -/
def bareState : SharedTree := (ofConfig {}).run [.start "t" ⟨"main", 0⟩ (some (1 : Nat))]

/-- The transaction. -/
def bareContext : Context := (bareState.context? "t").getD default

/-- A move of a node that is not there is not always refused: `/a` is to become a child of the root,
and the answer is that it is at `/a`. -/
theorem not_missing_source_refused :
    ¬∀ (s : SharedTree) (name : String) (c : Context) (source parent : Path) (deep : Bool),
      s.Reachable → s.context? name = some c → c.options.version = none →
      Work.Free ⟨s.store.locks, c⟩
        ((s.store.base.view c).moveNeeds s.store.locks source parent deep) →
      ¬Senseless source parent → (s.store.base.view c).exists? source = false →
      (s.perform name c (.moveNode source parent deep)).2 = .error (.nodeMissing source) := by
  intro h
  have hmissing := h bareState "t" bareContext ⟨["a"]⟩ .root true ⟨{}, _, _, rfl⟩
    (by decide +kernel)
    (by decide +kernel) (.inr fun p hp => absurd hp List.not_mem_nil) (by decide)
    (by decide +kernel)
  have hdone : (bareState.perform "t" bareContext (.moveNode ⟨["a"]⟩ .root true)).2 =
      .ok (.place (some ⟨["a"]⟩)) := by
    decide +kernel
  rw [hdone] at hmissing
  simp at hmissing

end SharedTree

end TransactionalTree
