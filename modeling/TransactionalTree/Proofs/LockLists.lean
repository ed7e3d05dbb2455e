/-
**Locking a list of paths is one unit.**

A list of paths that is to be locked may name a path twice, or one that is locked already, and
several of its paths may share a lock.  The unit of work then takes exactly the paths that it has
not locked yet, each once, or it takes nothing: the list fails with the first of its paths whose
lock someone else holds, and whatever was taken for the paths before that one is given back.

Main definitions:

* `Context.unheld` — the listed paths that are not locked yet, each once, in the order of the list;
* `Work.Barred` — a path that is not locked yet, and whose lock someone else holds;
* `Work.Took` — **a work that differs from another one by the listed paths**, each locked once.

Main results:

* `Work.acquire_outcome` — one path is locked already, is taken, or is barred;
* `Work.acquireFrom_outcome` — a list is taken up to the first path that is barred;
* `Work.acquireAll_is_one_unit` — **locking a list takes what it names as new, or changes nothing**.
-/

import TransactionalTree.Proofs.Undoing

set_option relaxedAutoImplicit false
set_option autoImplicit false

namespace TransactionalTree

/-! ### The paths that are new -/

namespace Context

variable {c : Context} {p : Path} {ps : List Path}

/-- The listed paths that the unit of work has not locked yet, each once, in the order in which the
list names them first. -/
def unheld (c : Context) (ps : List Path) : List Path := (ps.filter fun p => !c.holds p).eraseDups

theorem mem_unheld : p ∈ c.unheld ps ↔ p ∈ ps ∧ c.holds p = false := by
  rw [unheld, List.mem_eraseDups, List.mem_filter, Bool.not_eq_true']

theorem unheld_cons_of_holds (h : c.holds p = true) : c.unheld (p :: ps) = c.unheld ps := by
  rw [unheld, unheld, List.filter_cons_of_neg (by simp [h])]

/-- Once a path is locked, its further mentions are not new. -/
theorem unheld_cons_of_not_holds (h : c.holds p = false) :
    c.unheld (p :: ps) = p :: (c.record p).unheld ps := by
  have hnew : ∀ q, (!(c.record p).holds q) = (!q == p && !c.holds q) := by
    intro q
    rw [Bool.eq_iff_iff]
    simp only [Bool.not_eq_true', ← Bool.not_eq_true, holds_record, Bool.and_eq_true, not_or,
      beq_iff_eq]
  rw [unheld, unheld, List.filter_cons_of_pos (by simp [h]), List.eraseDups_cons,
    List.filter_filter]
  exact congrArg (fun l => p :: List.eraseDups l) (List.filter_congr fun q _ => (hnew q).symm)

theorem nodup_unheld (c : Context) (ps : List Path) : (c.unheld ps).Nodup := by
  induction ps generalizing c with
  | nil => exact List.nodup_nil
  | cons p ps ih =>
      cases h : c.holds p with
      | true =>
          rw [unheld_cons_of_holds h]
          exact ih c
      | false =>
          have hp : p ∉ (c.record p).unheld ps := by
            intro hmem
            have hheld : (c.record p).holds p = true := holds_record.2 (.inl rfl)
            rw [(mem_unheld.1 hmem).2] at hheld
            exact Bool.false_ne_true hheld
          rw [unheld_cons_of_not_holds h]
          exact List.nodup_cons.2 ⟨hp, ih _⟩

/-- The paths that are locked after the listed ones have been noted. -/
theorem holds_foldl_record :
    (ps.foldl record c).holds p = true ↔ c.holds p = true ∨ p ∈ ps := by
  induction ps generalizing c with
  | nil => simp
  | cons q ps ih =>
      rw [List.foldl_cons, ih, holds_record, List.mem_cons]
      tauto

theorem foldl_record (c : Context) (ps : List Path) :
    ps.foldl record c = { c with locked := (ps.foldl record c).locked } := by
  induction ps generalizing c with
  | nil => rfl
  | cons p ps ih =>
      rw [List.foldl_cons, ih]
      rfl

end Context

namespace Work

variable {w w' w'' : Work} {p q : Path} {ps qs taken : List Path}

/-! ### What is taken -/

/-- The unit of work has not locked the path, and someone else holds its lock. -/
def Barred (w : Work) (p : Path) : Prop :=
  w.context.holds p = false ∧
    ∃ o, o ≠ w.context.owner ∧ 0 < w.locks.table.heldBy (w.locks.table.keyOf p) o

/-- The second work differs from the first by the listed paths: they are noted, and for each of them
its lock is taken once more. -/
structure Took (w w' : Work) (ps : List Path) : Prop where
  /-- The paths are noted. -/
  context : w'.context = ps.foldl Context.record w.context
  /-- The paths have the same locks. -/
  striping : w'.locks.table.striping = w.locks.table.striping
  /-- The owner holds a lock once more for each path that has it, and nobody else's locks change. -/
  heldBy : ∀ k o, w'.locks.table.heldBy k o = w.locks.table.heldBy k o +
    if o = w.context.owner then ps.countP fun p => w.locks.table.keyOf p = k else 0
  /-- Waiting for a lock takes as long. -/
  timeout : w'.locks.timeout = w.locks.timeout

namespace Took

theorem refl (w : Work) : w.Took w [] := ⟨rfl, rfl, by simp, rfl⟩

/-- Everything but the locked paths is as before. -/
theorem others (h : w.Took w' ps) :
    w'.context = { w.context with locked := w'.context.locked } := by
  rw [h.context]
  exact Context.foldl_record _ _

theorem owner (h : w.Took w' ps) : w'.context.owner = w.context.owner := by
  rw [h.others]
  rfl

theorem holds (h : w.Took w' ps) :
    w'.context.holds p = true ↔ w.context.holds p = true ∨ p ∈ ps := by
  rw [h.context]
  exact Context.holds_foldl_record

theorem timeoutFor (h : w.Took w' ps) :
    w'.locks.timeoutFor w'.context = w.locks.timeoutFor w.context := by
  rw [LockManager.timeoutFor, LockManager.timeoutFor, h.others, h.timeout]

theorem trans (h : w.Took w' ps) (h' : w'.Took w'' qs) : w.Took w'' (ps ++ qs) where
  context := by rw [h'.context, h.context, List.foldl_append]
  striping := h'.striping.trans h.striping
  heldBy k o := by
    rw [h'.heldBy, h.heldBy, h.owner, LockTable.keyOf_congr h.striping, List.countP_append]
    split
    · exact Nat.add_assoc _ _ _
    · rfl
  timeout := h'.timeout.trans h.timeout

/-- What is taken bars no path from the one who takes it, and no longer than it was barred. -/
theorem barred_iff (h : w.Took w' ps) (hps : ∀ p ∈ ps, ¬w.Barred p) :
    w'.Barred q ↔ w.Barred q := by
  have hothers : ∀ o, o ≠ w.context.owner →
      w'.locks.table.heldBy (w'.locks.table.keyOf q) o =
        w.locks.table.heldBy (w.locks.table.keyOf q) o := by
    intro o ho
    rw [LockTable.keyOf_congr h.striping, h.heldBy, if_neg ho, Nat.add_zero]
  have hlock : (∃ o, o ≠ w'.context.owner ∧ 0 < w'.locks.table.heldBy (w'.locks.table.keyOf q) o) ↔
      ∃ o, o ≠ w.context.owner ∧ 0 < w.locks.table.heldBy (w.locks.table.keyOf q) o := by
    rw [h.owner]
    exact exists_congr fun o => and_congr_right fun ho => by rw [hothers o ho]
  rw [Barred, Barred, hlock]
  refine and_congr_left fun hother => ?_
  rw [← Bool.not_eq_true, ← Bool.not_eq_true, not_iff_not, h.holds]
  constructor
  · rintro (hheld | hnew)
    · exact hheld
    · by_contra hno
      exact hps q hnew ⟨Bool.eq_false_iff.2 hno, hother⟩
  · exact .inl

end Took

/-! ### One path, and a list of them -/

/-- **Locking one path**: it is locked already, it is taken, or it is barred. -/
theorem acquire_outcome (w : Work) (p : Path) :
    (w.context.holds p = true ∧ w.acquire p = (w, .ok false)) ∨
    (w.context.holds p = false ∧ ¬w.Barred p ∧
      ∃ w', w.acquire p = (w', .ok true) ∧ w.Took w' [p]) ∨
    (w.Barred p ∧ ∃ w', w.acquire p =
      (w', .error (.timeout p w.context.owner (w.locks.timeoutFor w.context)))) := by
  cases hp : w.context.holds p with
  | true =>
      refine .inl ⟨rfl, ?_⟩
      rw [acquire, if_pos hp]
  | false =>
      have hask := LockTable.acquire?_eq_none_iff (t := w.locks.table) (p := p)
        (o := w.context.owner)
      simp only [acquire, hp, Bool.false_eq_true, if_false]
      cases ht : w.locks.table.acquire? p w.context.owner with
      | some t =>
          obtain ⟨hstriping, hheld⟩ := LockTable.heldBy_acquire? ht
          refine .inr (.inl ⟨trivial, ?_, _, rfl, rfl, hstriping, fun k o => ?_, rfl⟩)
          · intro hbar
            rw [hask.2 hbar.2] at ht
            exact Option.some_ne_none t ht.symm
          · rw [hheld, List.countP_singleton]
            by_cases ho : o = w.context.owner
            · simp [ho, eq_comm (a := k)]
            · simp [ho]
      | none => exact .inr (.inr ⟨⟨hp, hask.1 ht⟩, _, rfl⟩)

/-- **Locking a list**: the paths that are new are taken, or they are as far as the first path that
is barred, and given back. -/
theorem acquireFrom_outcome (w : Work) (taken ps : List Path) :
    (∃ w', w.acquireFrom taken ps = (w', .ok (taken ++ w.context.unheld ps)) ∧
      w.Took w' (w.context.unheld ps) ∧ ∀ q ∈ ps, ¬w.Barred q) ∨
    (∃ before p after w', ps = before ++ p :: after ∧ (∀ q ∈ before, ¬w.Barred q) ∧ w.Barred p ∧
      w.acquireFrom taken ps =
        (w', .error (.timeout p w.context.owner (w.locks.timeoutFor w.context)))) := by
  induction ps generalizing w taken with
  | nil =>
      refine .inl ⟨w, ?_, .refl w, by simp⟩
      rw [acquireFrom]
      simp [Context.unheld]
  | cons p ps ih =>
      rcases acquire_outcome w p with ⟨hp, hask⟩ | ⟨hp, hfree, w₁, hask, htook⟩ | ⟨hbar, w₁, hask⟩
      -- locked already
      · have hfree : ¬w.Barred p := by
          intro hbar
          rw [hbar.1] at hp
          exact Bool.false_ne_true hp
        simp only [acquireFrom, hask, Context.unheld_cons_of_holds hp]
        rcases ih w taken with ⟨w', hall, htook, hps⟩ | ⟨before, r, after, w', rfl, hbefore, hrest⟩
        · exact .inl ⟨w', hall, htook, List.forall_mem_cons.2 ⟨hfree, hps⟩⟩
        · exact .inr
            ⟨p :: before, r, after, w', rfl, List.forall_mem_cons.2 ⟨hfree, hbefore⟩, hrest⟩
      -- taken just now: the rest of the list is asked for by `w₁`, which is barred as `w` is
      · have hbarred : ∀ q, w₁.Barred q ↔ w.Barred q := fun q =>
          htook.barred_iff (List.forall_mem_singleton.2 hfree)
        have hnew : w₁.context.unheld ps = (w.context.record p).unheld ps := by
          rw [htook.context]
          rfl
        simp only [acquireFrom, hask, Context.unheld_cons_of_not_holds hp, ← hnew]
        rcases ih w₁ (taken ++ [p]) with
          ⟨w', hall, hrest, hps⟩ | ⟨before, r, after, w', rfl, hbefore, hr, hall⟩
        · refine .inl ⟨w', ?_, htook.trans hrest, ?_⟩
          · rw [hall, List.append_assoc]
            rfl
          · exact List.forall_mem_cons.2 ⟨hfree, fun q hq hbar => hps q hq ((hbarred q).2 hbar)⟩
        · refine .inr ⟨p :: before, r, after, w', rfl, ?_, (hbarred r).1 hr, ?_⟩
          · exact List.forall_mem_cons.2
              ⟨hfree, fun q hq hbar => hbefore q hq ((hbarred q).2 hbar)⟩
          · rw [hall, htook.owner, htook.timeoutFor]
      -- barred: it is the first such path
      · simp only [acquireFrom, hask]
        exact .inr ⟨[], p, ps, _, rfl, by simp, hbar, rfl⟩

/-- **Locking a list is one unit.**  The list may be any, and so may be the locks that the unit of
work and others hold.  If it fails, then with the first listed path that is barred, and the unit of
work and the table of locks are as before.  If it succeeds, no listed path was barred; the unit of
work has locked, besides what it had locked, exactly the paths it answers with, which are the listed
ones that it had not locked, each once and in the order of the list; its owner holds each lock once
more for each of these paths that has it; and giving back these paths leads back to the state
before. -/
theorem acquireAll_is_one_unit (w : Work) (ps : List Path) :
    let o := w.context.owner
    let t := w.locks.table
    let w' := (w.acquireAll ps).1
    match (w.acquireAll ps).2 with
    | .error e =>
        w'.context = w.context ∧ w'.locks.table = t ∧
          ∃ before p after, ps = before ++ p :: after ∧ (∀ q ∈ before, ¬w.Barred q) ∧ w.Barred p ∧
            e = .timeout p o (w.locks.timeoutFor w.context)
    | .ok taken =>
        (∀ q ∈ ps, ¬w.Barred q) ∧
          taken = (ps.filter fun p => !w.context.holds p).eraseDups ∧ taken.Nodup ∧
          (∀ p, w'.context.holds p = true ↔ w.context.holds p = true ∨ p ∈ taken) ∧
          w'.context = { w.context with locked := w'.context.locked } ∧
          (∀ k, w'.locks.table.heldBy k o = t.heldBy k o + taken.countP fun p => t.keyOf p = k) ∧
          (∀ k o', o' ≠ o → w'.locks.table.heldBy k o' = t.heldBy k o') ∧
          (w'.releasePartial taken).context = w.context ∧
          (w'.releasePartial taken).locks.table = t := by
  intro o t w'
  rcases acquireFrom_outcome w [] ps with
    ⟨w₁, hall, htook, hfree⟩ | ⟨before, p, after, w₁, hps, hbefore, hbar, hall⟩
  · rw [List.nil_append] at hall
    have hw' : w' = w₁ := congrArg Prod.fst hall
    have hback : w.Same (w₁.releasePartial (w.context.unheld ps)) := by
      rcases (Undoable.refl w).acquireFrom ps with ⟨w₂, all, hok, hundo⟩ | ⟨w₂, e, herr, -⟩
      · obtain ⟨rfl, hall'⟩ := Prod.mk.inj (hall.symm.trans hok)
        exact Except.ok.inj hall' ▸ hundo.back
      · rw [hall] at herr
        simp at herr
    simp only [acquireAll, hall, hw']
    refine ⟨hfree, rfl, Context.nodup_unheld _ _, fun p => htook.holds, htook.others, fun k => ?_,
      fun k o' ho' => ?_, hback.context, ?_⟩
    · rw [htook.heldBy, if_pos rfl]
    · rw [htook.heldBy, if_neg ho', Nat.add_zero]
    · rw [hback.locks]
  · have hw' : w' = w₁ := congrArg Prod.fst hall
    have hsame : w.Same w₁ := by
      rcases (Undoable.refl w).acquireFrom ps with ⟨w₂, all, hok, -⟩ | ⟨w₂, e', herr, hsame⟩
      · rw [hall] at hok
        simp at hok
      · exact (Prod.mk.inj (hall.symm.trans herr)).1 ▸ hsame
    simp only [acquireAll, hall, hw']
    exact ⟨hsame.context, by rw [hsame.locks], before, p, after, hps, hbefore, hbar, rfl⟩

/-- `/a` is locked already, and all paths share one lock: of `/b`, `/a` and `/b`, only `/b` is new,
and the lock is then held twice. -/
example :
    let w := (Work.acquire ⟨.ofConfig { striped := true, stripes := 1 }, .ofThread ⟨"main", 0⟩⟩
      ⟨["a"]⟩).1
    let w' := (w.acquireAll [⟨["b"]⟩, ⟨["a"]⟩, ⟨["b"]⟩]).1
    (w.acquireAll [⟨["b"]⟩, ⟨["a"]⟩, ⟨["b"]⟩]).2 = .ok [⟨["b"]⟩] ∧
      (w'.locks.table.lockOf ⟨["c"]⟩).count = 2 := by
  decide +kernel

end Work

end TransactionalTree
