/-
**How units of work account for their locks.**

A unit of work takes note of each path that it locks.  Paths that share a stripe share a lock, which
is then taken once for each of them.  An operation gives back only what it has taken itself, and a
unit of work never has more paths noted than it holds locks for.  So what is given back in the end
was held.

Main definitions:

* `LockTable.heldBy` — how often an owner holds a lock;
* `Work.Accounted` — **no path is noted whose lock is not held for it**;
* `Work.Balanced` — a work that leaves the locks of others alone, and stays accounted;
* `Work.Traced` — a work that another one becomes by taking locks and giving back noted ones;
* `Work.Holding` — a work that still holds all that another one held, and how it came to more.

Main results:

* `Work.Holding.lockAll`, `Base.holding_perform` — an operation gives back only what it has taken;
* `Work.Accounted.releaseAll` — **giving back all locks succeeds**;
* `SharedTree.Reachable.settled` — every unit of work is accounted at any time.
-/

import TransactionalTree.Proofs.Runs

set_option relaxedAutoImplicit false
set_option autoImplicit false

namespace TransactionalTree

/-! ### How often a lock is held -/

namespace Lock

variable {l l' : Lock} {h : Hold} {o o' : Owner}

/-- How often `o` has to release the lock until it is free. -/
def countFor (l : Lock) (o : Owner) : Nat :=
  match l with
  | none => 0
  | some h => if h.owner = o then h.count else 0

theorem countFor_take? (ht : l.take? o = some h) :
    countFor (some h) o' = l.countFor o' + if o' = o then 1 else 0 := by
  cases l with
  | none =>
      obtain rfl := by simpa [take?] using ht
      simp only [countFor, Hold.count, eq_comm (a := o)]
      split <;> rfl
  | some g =>
      simp only [take?] at ht
      split at ht
      · rename_i hg
        obtain rfl := by simpa using ht
        subst hg
        simp only [countFor, Hold.count, eq_comm (a := o')]
        split <;> rfl
      · simp at ht

theorem countFor_release? (ht : l.release? o = some l') :
    l.countFor o' = l'.countFor o' + if o' = o then 1 else 0 := by
  cases l with
  | none => simp [release?] at ht
  | some g =>
      obtain ⟨owner, again⟩ := g
      simp only [release?] at ht
      split at ht
      · rename_i hg
        subst hg
        cases again with
        | zero =>
            obtain rfl := by simpa using ht
            simp only [countFor, Hold.count, eq_comm (a := o')]
            split <;> rfl
        | succ n =>
            obtain rfl := by simpa using ht
            simp only [countFor, Hold.count, eq_comm (a := o')]
            split <;> rfl
      · simp at ht

/-- Who holds a lock holds it alone. -/
theorem eq_of_countFor (h : 0 < l.countFor o) (h' : 0 < l.countFor o') : o' = o := by
  cases l with
  | none => simp [countFor] at h
  | some g =>
      simp only [countFor] at h h'
      split at h
      · split at h'
        · simp_all
        · simp at h'
      · simp at h

/-- Who holds a lock can release it. -/
theorem exists_release? (h : 0 < l.countFor o) : ∃ l', l.release? o = some l' := by
  cases l with
  | none => simp [countFor] at h
  | some g =>
      obtain ⟨owner, again⟩ := g
      simp only [countFor] at h
      split at h
      · rename_i hg
        cases again with
        | zero => exact ⟨none, by simp [release?, hg]⟩
        | succ n => exact ⟨some ⟨owner, n⟩, by simp [release?, hg]⟩
      · simp at h

/-- Who has a lock holds it at least once. -/
theorem isHeldBy_iff : l.isHeldBy o = true ↔ 0 < l.countFor o := by
  cases l with
  | none => simp [isHeldBy, owner?, countFor]
  | some h =>
      by_cases ho : h.owner = o
      · simp [isHeldBy, owner?, countFor, Hold.count, ho]
      · simp [isHeldBy, owner?, countFor, ho]

/-- A lock cannot be taken exactly if someone else holds it. -/
theorem take?_eq_none_iff : l.take? o = none ↔ ∃ o', o' ≠ o ∧ 0 < l.countFor o' := by
  cases l with
  | none => simp [take?, countFor]
  | some h =>
      simp only [take?, countFor, Hold.count]
      constructor
      · intro hn
        by_cases ho : h.owner = o
        · simp [ho] at hn
        · exact ⟨h.owner, ho, by simp⟩
      · rintro ⟨o', hne, hpos⟩
        have ho : h.owner = o' := by
          by_contra hno
          simp [hno] at hpos
        simp [ho, hne]

/-- A lock cannot be released exactly by those who do not hold it. -/
theorem release?_eq_none_iff : l.release? o = none ↔ l.countFor o = 0 := by
  constructor
  · intro hn
    by_contra hpos
    obtain ⟨l', hl'⟩ := exists_release? (Nat.pos_of_ne_zero hpos)
    rw [hl'] at hn
    simp at hn
  · intro hz
    cases l with
    | none => rfl
    | some h =>
        have ho : h.owner ≠ o := by
          rintro rfl
          simp [countFor, Hold.count] at hz
        simp [release?, ho]

/-- A lock that nobody holds is free. -/
theorem eq_none_of_countFor (h : ∀ o, l.countFor o = 0) : l = none := by
  cases l with
  | none => rfl
  | some g =>
      have hg := h g.owner
      simp [countFor, Hold.count] at hg

/-- Who holds a lock, and how often, is all there is to know of it. -/
theorem ext_countFor (h : ∀ o, l.countFor o = l'.countFor o) : l = l' := by
  cases l with
  | none => exact (eq_none_of_countFor fun o => (h o).symm).symm
  | some g =>
      have hg := h g.owner
      cases l' with
      | none => simp [countFor, Hold.count] at hg
      | some g' =>
          obtain ⟨owner, again⟩ := g
          obtain ⟨owner', again'⟩ := g'
          simp only [countFor, Hold.count, if_true] at hg
          split at hg
          · rename_i ho
            obtain rfl : owner' = owner := ho
            obtain rfl : again = again' := Nat.succ_inj.1 hg
            rfl
          · simp at hg

end Lock

namespace LockTable

variable {t t' : LockTable} {p : Path} {o : Owner}

/-- How often `o` holds the lock. -/
def heldBy (t : LockTable) (k : LockKey) (o : Owner) : Nat := Lock.countFor (t.holds.get? k) o

theorem keyOf_congr (h : t'.striping = t.striping) : t'.keyOf = t.keyOf := by
  funext p
  rw [keyOf, keyOf, stripeOf, stripeOf, h]

theorem heldBy_acquire? (h : t.acquire? p o = some t') : t'.striping = t.striping ∧
    ∀ k o', t'.heldBy k o' = t.heldBy k o' + if k = t.keyOf p ∧ o' = o then 1 else 0 := by
  obtain ⟨hold, ht, rfl⟩ := Option.map_eq_some_iff.1 h
  refine ⟨rfl, fun k o' => ?_⟩
  simp only [heldBy, SortedMap.get?_insert]
  by_cases hk : k = t.keyOf p
  · simp only [hk, if_true, true_and]
    exact Lock.countFor_take? ht
  · simp [hk]

theorem heldBy_release? (h : t.release? p o = some t') : t'.striping = t.striping ∧
    ∀ k o', t.heldBy k o' = t'.heldBy k o' + if k = t.keyOf p ∧ o' = o then 1 else 0 := by
  obtain ⟨l, hl, rfl⟩ := Option.map_eq_some_iff.1 h
  have hcount : ∀ o', (t.lockOf p).countFor o' = l.countFor o' + if o' = o then 1 else 0 :=
    fun _ => Lock.countFor_release? hl
  cases l with
  | none =>
      refine ⟨rfl, fun k o' => ?_⟩
      simp only [heldBy, SortedMap.get?_erase]
      by_cases hk : k = t.keyOf p
      · simp only [hk, if_true, true_and]
        exact hcount o'
      · simp [hk]
  | some hold =>
      refine ⟨rfl, fun k o' => ?_⟩
      simp only [heldBy, SortedMap.get?_insert]
      by_cases hk : k = t.keyOf p
      · simp only [hk, if_true, true_and]
        exact hcount o'
      · simp [hk]

theorem exists_release? (h : 0 < t.heldBy (t.keyOf p) o) : ∃ t', t.release? p o = some t' := by
  obtain ⟨l, hl⟩ := Lock.exists_release? h
  exact ⟨_, Option.map_eq_some_iff.2 ⟨l, hl, rfl⟩⟩

theorem owns_iff : t.owns p o = true ↔ 0 < t.heldBy (t.keyOf p) o := Lock.isHeldBy_iff

theorem owns_eq_false_iff : t.owns p o = false ↔ t.heldBy (t.keyOf p) o = 0 := by
  rw [← Bool.not_eq_true, owns_iff, Nat.not_lt, Nat.le_zero]

theorem acquire?_eq_none_iff :
    t.acquire? p o = none ↔ ∃ o', o' ≠ o ∧ 0 < t.heldBy (t.keyOf p) o' :=
  Option.map_eq_none_iff.trans Lock.take?_eq_none_iff

theorem release?_eq_none_iff : t.release? p o = none ↔ t.heldBy (t.keyOf p) o = 0 :=
  Option.map_eq_none_iff.trans Lock.release?_eq_none_iff

/-- Tables with the same locks, held by the same owners equally often, are the same. -/
theorem ext_heldBy (hstriping : t'.striping = t.striping)
    (hheld : ∀ k o, t'.heldBy k o = t.heldBy k o) : t' = t := by
  obtain ⟨striping, holds⟩ := t
  obtain ⟨striping', holds'⟩ := t'
  obtain rfl : striping' = striping := hstriping
  exact congrArg (LockTable.mk striping')
    (SortedMap.ext_get? fun k => Lock.ext_countFor fun o => hheld k o)

end LockTable

/-! ### What staging leaves alone -/

/-- Nothing but the workspace and the moves has changed. -/
def Context.Restaged (c c' : Context) : Prop :=
  c' = { c with workspace := c'.workspace, moves := c'.moves }

namespace Context.Restaged

variable {c c' c'' : Context}

theorem refl (c : Context) : c.Restaged c := rfl

theorem trans (h : c.Restaged c') (h' : c'.Restaged c'') : c.Restaged c'' := by
  rw [Restaged] at h h' ⊢
  rw [h', h]

theorem locked (h : c.Restaged c') : c'.locked = c.locked := by
  rw [h]

theorem owner (h : c.Restaged c') : c'.owner = c.owner := by
  rw [h]
  rfl

theorem holds (h : c.Restaged c') (p : Path) : c'.holds p = c.holds p := by
  rw [Context.holds, Context.holds, h.locked]

end Context.Restaged

/-- What an operation may give back after it has asked for locks. -/
def Grant.taken : Grant → List Path
  | granted all => all
  | declined => []
  | refused _ => []

namespace Work

variable {w w' w'' : Work} {p : Path} {ps taken : List Path} {c : Context}

/-! ### Paths noted and locks held -/

/-- How many of the paths that the unit of work has noted have this lock. -/
def noted (w : Work) (k : LockKey) : Nat :=
  w.context.locked.keys.countP fun p => w.locks.table.keyOf p = k

/-- **No path is noted whose lock is not held for it.** -/
def Accounted (w : Work) : Prop := ∀ k, w.noted k ≤ w.locks.table.heldBy k w.context.owner

/-- The second work leaves the locks of others as they are in the first, and is accounted if the
first is. -/
structure Balanced (w w' : Work) : Prop where
  /-- The paths have the same locks. -/
  striping : w'.locks.table.striping = w.locks.table.striping
  /-- The locks are taken for the same owner. -/
  owner : w'.context.owner = w.context.owner
  /-- The locks of others are as before. -/
  others : ∀ k o, o ≠ w.context.owner → w'.locks.table.heldBy k o = w.locks.table.heldBy k o
  /-- No path is noted without its lock. -/
  accounted : w.Accounted → w'.Accounted

namespace Balanced

theorem refl (w : Work) : w.Balanced w := ⟨rfl, rfl, fun _ _ _ => rfl, id⟩

theorem trans (h : w.Balanced w') (h' : w'.Balanced w'') : w.Balanced w'' where
  striping := h'.striping.trans h.striping
  owner := h'.owner.trans h.owner
  others k o ho := (h'.others k o (by rw [h.owner]; exact ho)).trans (h.others k o ho)
  accounted ha := h'.accounted (h.accounted ha)

end Balanced

/-- A path that was not noted is noted once more, under its lock. -/
theorem noted_record {m n : LockManager} (hm : n.table.striping = m.table.striping)
    (hp : c.holds p = false) (k : LockKey) :
    noted ⟨n, c.record p⟩ k = noted ⟨m, c⟩ k + if k = m.table.keyOf p then 1 else 0 := by
  have hnew := SortedMap.contains_eq_false.1 hp
  have hcount := (SortedMap.keys_insert_perm (a := ()) hnew).countP_eq
    fun q => decide (m.table.keyOf q = k)
  simp only [noted, Context.record, SortedSet.add, LockTable.keyOf_congr hm, hcount,
    List.countP_cons, decide_eq_true_eq, eq_comm (a := k)]

/-- A path that was noted is noted no longer. -/
theorem noted_forget {m n : LockManager} (hm : n.table.striping = m.table.striping)
    (hp : c.holds p = true) (k : LockKey) :
    noted ⟨m, c⟩ k = noted ⟨n, c.forget p⟩ k + if k = m.table.keyOf p then 1 else 0 := by
  obtain ⟨u, hu⟩ := SortedMap.contains_iff.1 hp
  have hcount := (SortedMap.keys_erase_perm hu).countP_eq
    fun q => decide (m.table.keyOf q = k)
  simp only [noted, Context.forget, LockTable.keyOf_congr hm, hcount, List.countP_cons,
    decide_eq_true_eq, eq_comm (a := k)]

/-- The lock of a path that is noted is held. -/
theorem Accounted.heldBy_pos (h : w.Accounted) (hp : w.context.holds p = true) :
    0 < w.locks.table.heldBy (w.locks.table.keyOf p) w.context.owner := by
  have hle := h (w.locks.table.keyOf p)
  rw [noted_forget (n := w.locks) rfl hp, if_pos rfl] at hle
  exact Nat.lt_of_lt_of_le (Nat.succ_pos _) hle

/-- Locking a path notes it and takes its lock once. -/
theorem balanced_acquire (w : Work) (p : Path) : w.Balanced (w.acquire p).1 := by
  simp only [acquire]
  split
  · exact .refl w
  · rename_i hp
    split
    · rename_i t ht
      obtain ⟨hstriping, hheld⟩ := LockTable.heldBy_acquire? ht
      refine ⟨hstriping, rfl, fun k o ho => ?_, fun ha k => ?_⟩
      · simp [hheld, ho]
      · have hk := ha k
        rw [noted_record hstriping (Bool.eq_false_iff.2 hp)]
        simp only [hheld, Context.owner, Context.record, and_true]
        exact Nat.add_le_add_right hk _
    · exact ⟨rfl, rfl, fun _ _ _ => rfl, id⟩

/-- Giving back a path that is noted gives back its lock once. -/
theorem balanced_release (hp : w.context.holds p = true) : w.Balanced (w.release p).1 := by
  simp only [release, LockManager.releaseFor]
  split
  · rename_i t ht
    obtain ⟨hstriping, hheld⟩ := LockTable.heldBy_release? ht
    refine ⟨hstriping, rfl, fun k o ho => ?_, fun ha k => ?_⟩
    · have hk := hheld k o
      simpa [ho] using hk.symm
    · have hk := ha k
      rw [noted_forget (n := { w.locks with table := t }) hstriping hp, hheld] at hk
      simp only [and_true] at hk
      exact Nat.le_of_add_le_add_right hk
  · refine ⟨rfl, rfl, fun _ _ _ => rfl, fun ha k => ?_⟩
    have hk := ha k
    rw [noted_forget (n := w.locks) rfl hp] at hk
    exact Nat.le_trans (Nat.le_add_right _ _) hk

/-! ### One lock after the other -/

/-- The second work comes from the first one step after the other: a path is locked, a path that is
noted is given back, or the workspace changes. -/
inductive Traced (w : Work) : Work → Prop
  /-- Nothing has happened. -/
  | refl : Traced w w
  /-- A path is locked, or its lock is not free. -/
  | acquire {w' : Work} (h : Traced w w') (p : Path) : Traced w (w'.acquire p).1
  /-- A path that is noted is given back. -/
  | release {w' : Work} {p : Path} (h : Traced w w') (hp : w'.context.holds p = true) :
      Traced w (w'.release p).1
  /-- The workspace changes. -/
  | restage {w' : Work} {c : Context} (h : Traced w w') (hc : w'.context.Restaged c) :
      Traced w (w'.withContext c)

namespace Traced

theorem trans (h : w.Traced w') (h' : w'.Traced w'') : w.Traced w'' := by
  induction h' with
  | refl => exact h
  | acquire _ p ih => exact ih.acquire p
  | release _ hp ih => exact ih.release hp
  | restage _ hc ih => exact ih.restage hc

/-- The locks of others stay, and what is noted is held. -/
theorem balanced (h : w.Traced w') : w.Balanced w' := by
  induction h with
  | refl => exact .refl w
  | acquire _ p ih => exact ih.trans (balanced_acquire _ p)
  | release _ hp ih => exact ih.trans (balanced_release hp)
  | restage _ hc ih =>
      refine ih.trans ⟨rfl, hc.owner, fun _ _ _ => rfl, fun ha k => ?_⟩
      have hk := ha k
      rw [noted, ← hc.locked, ← hc.owner] at hk
      exact hk

/-- The settings stay. -/
theorem lockParent (h : w.Traced w') : w'.locks.lockParent = w.locks.lockParent := by
  induction h with
  | refl => rfl
  | acquire _ p ih => exact (relocked_acquire _ p).lockParent.trans ih
  | release _ _ ih => exact (relocked_release _ _).lockParent.trans ih
  | restage _ _ ih => exact ih

/-- Time-outs are counted and never taken back. -/
theorem timedOut (h : w.Traced w') :
    w.locks.counts.timedOut ≤ w'.locks.counts.timedOut := by
  induction h with
  | refl => exact Nat.le_refl _
  | acquire _ p ih => exact Nat.le_trans ih (relocked_acquire _ p).timedOut
  | release _ _ ih => exact Nat.le_trans ih (relocked_release _ _).timedOut
  | restage _ _ ih => exact ih

end Traced

/-! ### What stays locked -/

/-- All that the first work held the second still holds, and the listed paths are those that the
second has come to hold and may give back. -/
structure Holding (w w' : Work) (taken : List Path) : Prop where
  /-- Nothing that was held is given back. -/
  keeps : ∀ p, w.context.holds p = true → w'.context.holds p = true
  /-- The paths that may be given back were not held. -/
  new : ∀ p ∈ taken, w.context.holds p = false
  /-- They are held now. -/
  held : ∀ p ∈ taken, w'.context.holds p = true
  /-- No path is given back twice. -/
  nodup : taken.Nodup
  /-- Only noted paths were given back. -/
  traced : w.Traced w'

namespace Holding

/-- The locks of others stay, and what is noted is held. -/
theorem balanced (h : w.Holding w' taken) : w.Balanced w' := h.traced.balanced

theorem refl (w : Work) : w.Holding w [] :=
  ⟨fun _ h => h, fun _ h => by simp at h, fun _ h => by simp at h, List.nodup_nil, .refl⟩

theorem trans (h : w.Holding w' []) (h' : w'.Holding w'' []) : w.Holding w'' [] where
  keeps p hp := h'.keeps p (h.keeps p hp)
  new _ hp := by simp at hp
  held _ hp := by simp at hp
  nodup := List.nodup_nil
  traced := h.traced.trans h'.traced

theorem not_held (h : w.Holding w' taken) (hp : w'.context.holds p = false) :
    w.context.holds p = false := by
  refine Bool.eq_false_iff.2 fun hc => ?_
  rw [h.keeps p hc] at hp
  simp at hp

/-- All that may be given back is given back. -/
theorem releasePartial (h : w.Holding w' taken) : w.Holding (w'.releasePartial taken) [] := by
  -- the paths are given back from the last to the first, and those before are still held
  have hall : ∀ ps : List Path, ps.Nodup → (∀ p ∈ ps, w'.context.holds p = true) →
      w'.Traced (w'.releasePartial ps) ∧
        ∀ q, q ∉ ps → w'.context.holds q = true →
          (w'.releasePartial ps).context.holds q = true := by
    intro ps hps hheld
    induction ps with
    | nil => exact ⟨.refl, fun _ _ hq => hq⟩
    | cons p ps ih =>
        obtain ⟨hp, hps⟩ := List.nodup_cons.1 hps
        obtain ⟨htr, hrest⟩ := ih hps fun q hq => hheld q (List.mem_cons_of_mem _ hq)
        have hstep : w'.releasePartial (p :: ps) = ((w'.releasePartial ps).release p).1 := rfl
        rw [hstep]
        refine ⟨htr.release (hrest p hp (hheld p List.mem_cons_self)), fun q hq hq' => ?_⟩
        simp only [List.mem_cons, not_or] at hq
        exact Context.holds_forget.2 ⟨hq.1, hrest q hq.2 hq'⟩
  obtain ⟨htr, hrest⟩ := hall taken h.nodup h.held
  refine ⟨fun q hq => hrest q (fun hmem => ?_) (h.keeps q hq), fun _ hp => by simp at hp,
    fun _ hp => by simp at hp, List.nodup_nil, h.traced.trans htr⟩
  rw [h.new q hmem] at hq
  simp at hq

/-- A lock that was not held may be given back. -/
theorem record {m : LockManager} (h : w.Holding w' taken) (hp : w'.context.holds p = false)
    (htr : w'.Traced ⟨m, w'.context.record p⟩) :
    w.Holding ⟨m, w'.context.record p⟩ (taken ++ [p]) where
  keeps q hq := Context.holds_record.2 (.inr (h.keeps q hq))
  new q hq := by
    rcases List.mem_append.1 hq with hq | hq
    · exact h.new q hq
    · obtain rfl := List.mem_singleton.1 hq
      exact h.not_held hp
  held q hq := by
    rcases List.mem_append.1 hq with hq | hq
    · exact Context.holds_record.2 (.inr (h.held q hq))
    · exact Context.holds_record.2 (.inl (List.mem_singleton.1 hq))
  nodup := by
    refine List.nodup_append.2 ⟨h.nodup, List.pairwise_singleton _ p, fun q hq r hr => ?_⟩
    rw [List.mem_singleton.1 hr]
    rintro rfl
    rw [h.held _ hq] at hp
    simp at hp
  traced := h.traced.trans htr

/-- Locking a list keeps what was held, and what it takes was not held. -/
theorem acquireFrom (h : w.Holding w' taken) (ps : List Path) :
    (∀ all, (w'.acquireFrom taken ps).2 = .ok all →
        w.Holding (w'.acquireFrom taken ps).1 all ∧
        (∀ p, w'.context.holds p = true → (w'.acquireFrom taken ps).1.context.holds p = true) ∧
        ∀ p ∈ ps, (w'.acquireFrom taken ps).1.context.holds p = true) ∧
      (∀ e, (w'.acquireFrom taken ps).2 = .error e →
        w.Holding (w'.acquireFrom taken ps).1 []) := by
  induction ps generalizing w' taken with
  | nil =>
      refine ⟨fun all hall => ?_, fun e he => by simp [Work.acquireFrom] at he⟩
      obtain rfl := Except.ok.inj hall
      exact ⟨h, fun _ hp => hp, fun _ hp => by simp at hp⟩
  | cons p ps ih =>
      have htr := (Traced.refl (w := w')).acquire p
      simp only [Work.acquireFrom]
      rcases acquire_cases w' p with ⟨hp, ha⟩ | ⟨hp, m, ha, -, -⟩ | ⟨m, e, ha, -⟩
      · rw [ha]
        refine ⟨fun all hall => ?_, (ih h).2⟩
        obtain ⟨h₁, h₂, h₃⟩ := (ih h).1 all hall
        refine ⟨h₁, h₂, fun q hq => ?_⟩
        rcases List.mem_cons.1 hq with rfl | hq
        · exact h₂ q hp
        · exact h₃ q hq
      · rw [ha] at htr ⊢
        have h' := h.record hp htr
        refine ⟨fun all hall => ?_, (ih h').2⟩
        obtain ⟨h₁, h₂, h₃⟩ := (ih h').1 all hall
        refine ⟨h₁, fun q hq => h₂ q (Context.holds_record.2 (.inr hq)), fun q hq => ?_⟩
        rcases List.mem_cons.1 hq with rfl | hq
        · exact h₂ q (Context.holds_record.2 (.inl rfl))
        · exact h₃ q hq
      -- refused: everything that this call has taken so far is given back
      · rw [ha] at htr ⊢
        refine ⟨fun all hall => by simp at hall, fun e' _ => ?_⟩
        have h' : w.Holding ⟨m, w'.context⟩ taken :=
          ⟨h.keeps, h.new, h.held, h.nodup, h.traced.trans htr⟩
        exact h'.releasePartial

/-- **An operation gives back only what it has taken**: what was held before it is held after it
has asked for locks, and what it may give back later was not held. -/
theorem lockAll (h : w.Holding w' taken) (ps : List Path) :
    w.Holding (w'.lockAll taken ps).1 (w'.lockAll taken ps).2.taken := by
  by_cases hskip : w'.context.options.skipLocking = true
  · rw [Work.lockAll, if_pos hskip]
    exact h
  · rw [Work.lockAll, if_neg hskip]
    obtain ⟨hok, herr⟩ := (Holding.refl w').acquireFrom ps
    rw [acquireAll]
    generalize w'.acquireFrom [] ps = r at hok herr
    obtain ⟨w₁, r⟩ := r
    cases r with
    | ok new =>
        obtain ⟨h₁, -, -⟩ := hok new rfl
        refine ⟨fun p hp => h₁.keeps p (h.keeps p hp), fun p hp => ?_, fun p hp => ?_, ?_,
          h.traced.trans h₁.traced⟩
        · rcases List.mem_append.1 hp with hp | hp
          · exact h.new p hp
          · exact h.not_held (h₁.new p hp)
        · rcases List.mem_append.1 hp with hp | hp
          · exact h₁.keeps p (h.held p hp)
          · exact h₁.held p hp
        · refine List.nodup_append.2 ⟨h.nodup, h₁.nodup, fun p hp q hq => ?_⟩
          rintro rfl
          have hnot := h₁.new p hq
          rw [h.held p hp] at hnot
          simp at hnot
    | error e =>
        have h₁ := herr e rfl
        have h₂ : w.Holding w₁ taken :=
          ⟨fun p hp => h₁.keeps p (h.keeps p hp), h.new, fun p hp => h₁.keeps p (h.held p hp),
            h.nodup, h.traced.trans h₁.traced⟩
        have h₃ := h₂.releasePartial
        simp only
        split
        · exact h₃
        · exact h₃

end Holding

/-- Granted locks are held, unless the options say that nothing is locked. -/
theorem holds_of_granted {all : List Path} (hskip : w.context.options.skipLocking = false)
    (h : (w.lockAll taken ps).2 = .granted all) (hp : p ∈ ps) :
    (w.lockAll taken ps).1.context.holds p = true := by
  simp only [lockAll, hskip] at h ⊢
  have hok := ((Holding.refl w).acquireFrom ps).1
  rw [acquireAll] at h ⊢
  generalize w.acquireFrom [] ps = r at hok h
  obtain ⟨w', r⟩ := r
  cases r with
  | ok new => exact (hok new rfl).2.2 p hp
  | error e =>
      simp only [Bool.false_eq_true, if_false] at h
      split at h <;> simp at h

end Work

/-! ### Operations -/

variable {b : Base} {w w' : Work} {p source : Path}

theorem Work.Holding.withContext {taken : List Path} {c : Context} (h : w.Holding w' taken)
    (hc : w'.context.Restaged c) : w.Holding (w'.withContext c) [] where
  keeps p hp := (hc.holds p).trans (h.keeps p hp)
  new _ hp := by simp at hp
  held _ hp := by simp at hp
  nodup := List.nodup_nil
  traced := h.traced.restage hc

namespace Base

theorem restaged_noteLock (c : Context) (p : Path) : c.Restaged (c.noteLock p) :=
  (Context.staged_noteLock (b := default) c p).same

theorem restaged_materialize (b : Base) (c : Context) (p : Path) :
    c.Restaged (b.materialize c p).1 := by
  rcases Context.materialize_cases b c p with ⟨-, -, hst, -⟩ | ⟨-, hm⟩
  · exact hst.same
  · rw [hm]
    exact .refl c

theorem restaged_create (c : Context) (p : Path) : c.Restaged (c.create p) :=
  (show c.Restaged (c.setEntry p _) from rfl).trans (restaged_noteLock _ _)

theorem restaged_createAll (nodes : List (Path × Data)) (c : Context) :
    c.Restaged (c.createAll nodes) := by
  induction nodes generalizing c with
  | nil => exact .refl c
  | cons n nodes ih =>
      have hstep : c.createAll (n :: nodes) =
          ((c.create n.1).modifyEntry n.1 (·.replaceData n.2)).createAll nodes := rfl
      rw [hstep]
      have hdata : (c.create n.1).Restaged ((c.create n.1).modifyEntry n.1 (·.replaceData n.2)) :=
        rfl
      exact ((restaged_create c n.1).trans hdata).trans (ih _)

theorem restaged_chain (ps : List Path) (c : Context) :
    c.Restaged (ps.foldl Context.create c) := by
  induction ps generalizing c with
  | nil => exact .refl c
  | cons p ps ih => exact (restaged_create c p).trans (ih _)

theorem restaged_stageRemoval (b : Base) (c : Context) (p : Path) :
    c.Restaged (b.stageRemoval c p).1 := by
  have hm := restaged_materialize b c p
  simp only [stageRemoval]
  generalize b.materialize c p = r at hm
  obtain ⟨c', found⟩ := r
  cases found with
  | false => exact hm
  | true => exact hm.trans rfl

theorem restaged_stageWrite {c c' : Context} {create ready : Bool}
    (h : b.stageWrite c p create = .ok (c', ready)) : c.Restaged c' := by
  simp only [stageWrite] at h
  split at h
  · simp at h
  · have hc := congrArg Prod.fst (Except.ok.inj h)
    simp only at hc
    rw [← hc]
    exact (restaged_chain _ c).trans (restaged_materialize b _ p)

theorem restaged_stageMove {c c' : Context} {target : Path}
    (h : b.stageMove c source target = .ok c') : c.Restaged c' := by
  simp only [stageMove] at h
  split at h
  · simp at h
  · rw [← Except.ok.inj h]
    have hfirst : c.Restaged
        (if (b.view c).exists? target then (b.stageRemoval c target).1 else c) := by
      split
      · exact restaged_stageRemoval b c target
      · exact .refl c
    have hcopied := hfirst.trans (restaged_createAll ((b.view c).relocated source target) _)
    exact (hcopied.trans (restaged_stageRemoval b _ source)).trans rfl

theorem restaged_look (b : Base) (w : Work) (p : Path) :
    w.context.Restaged (b.look w p).1.context := by
  simp only [look]
  split
  · cases (b.view w.context).locate p <;> rfl
  · rfl

theorem holding_look (b : Base) (w : Work) (p : Path) : w.Holding (b.look w p).1 [] := by
  have h := (Work.Holding.refl w).withContext (restaged_look b w p)
  rw [look] at h ⊢
  split
  · rename_i hr
    rw [if_pos hr] at h
    exact h
  · exact .refl w

theorem holding_prepareRead (b : Base) (w : Work) (p : Path) :
    w.Holding (b.prepareRead w p).1 [] := by
  simp only [prepareRead]
  split
  · have h := (Work.Holding.refl w).lockAll [p]
    generalize w.lockAll [] [p] = r at h
    obtain ⟨w₁, grant⟩ := r
    cases grant with
    | granted taken =>
        have hm := h.withContext (restaged_materialize b w₁.context p)
        exact hm.trans (holding_look b _ p)
    | declined => exact h
    | refused e => exact h
  · exact holding_look b w p

theorem holding_reading {α : Type} (b : Base) (w : Work) (p : Path)
    (answer : View → Location → α) : w.Holding (b.reading w p answer).1 [] := by
  have h := holding_prepareRead b w p
  simp only [reading]
  generalize b.prepareRead w p = r at h
  obtain ⟨w₁, r⟩ := r
  cases r with
  | error e => exact h
  | ok l => exact h

theorem holding_writing {α : Type} (b : Base) (w : Work) (p : Path) (create : Bool) (idle : α)
    (change : Entry → Entry × α) : w.Holding (b.writing w p create idle change).1 [] := by
  simp only [writing, prepareWrite]
  have h := (Work.Holding.refl w).lockAll ((b.view w.context).writeLocks w.locks p create)
  generalize w.lockAll [] ((b.view w.context).writeLocks w.locks p create) = r at h
  obtain ⟨w₁, grant⟩ := r
  cases grant with
  | declined => exact h
  | refused e => exact h
  | granted taken =>
      simp only
      cases hs : b.stageWrite w₁.context p create with
      | error e => exact h.releasePartial
      | ok r =>
          obtain ⟨c, ready⟩ := r
          have hc := h.withContext (restaged_stageWrite hs)
          cases ready with
          | false => exact hc
          | true =>
              simp only [Work.withContext]
              cases c.entry? p with
              | none => exact hc
              | some e => exact hc.withContext (c := c.setEntry p (change e).1) rfl

theorem holding_removeBelowRoot (b : Base) (w : Work) (p : Path) :
    w.Holding (b.removeBelowRoot w p).1 [] := by
  simp only [removeBelowRoot]
  have h := (Work.Holding.refl w).lockAll ((b.view w.context).removalLocks w.locks p)
  generalize w.lockAll [] ((b.view w.context).removalLocks w.locks p) = r at h
  obtain ⟨w₁, grant⟩ := r
  cases grant with
  | declined => exact h
  | refused e => exact h
  | granted taken => exact h.withContext (restaged_stageRemoval b w₁.context p)

theorem holding_removeEach (b : Base) (w : Work) (ps : List Path) :
    w.Holding (b.removeEach w ps).1 [] := by
  induction ps generalizing w with
  | nil => exact .refl w
  | cons p ps ih =>
      have h := holding_removeBelowRoot b w p
      simp only [removeEach]
      generalize b.removeBelowRoot w p = r at h
      obtain ⟨w₁, r⟩ := r
      cases r with
      | error e => exact h
      | ok found => exact h.trans (ih w₁)

theorem holding_removeNode (b : Base) (w : Work) (p : Path) :
    w.Holding (b.removeNode w p).1 [] := by
  simp only [removeNode]
  split
  · have heach := holding_removeEach b w (b.view w.context).topLevel
    have h := removeRoot_cases b w
    generalize b.removeRoot w = r at h
    cases h with
    | stopped h =>
        rw [h] at heach
        exact heach
    | emptied h =>
        rw [h] at heach
        exact heach.trans (holding_writing b _ .root false () _)
  · exact holding_removeBelowRoot b w p

theorem holding_lockAndFind {taken : List Path} (h : w.Holding w' taken) (ps : List Path)
    (p : Path) :
    w.Holding (b.lockAndFind w' taken ps p).1 (b.lockAndFind w' taken ps p).2.taken := by
  have hl := h.lockAll ps
  simp only [lockAndFind]
  generalize w'.lockAll taken ps = r at hl
  obtain ⟨w₁, grant⟩ := r
  cases grant with
  | declined => exact hl
  | refused e => exact hl
  | granted all =>
      simp only
      split
      · exact hl
      · exact hl.releasePartial

/-- What a move has taken when it has locked everything may be given back. -/
theorem holding_lockMove (b : Base) (w : Work) (source parent target : Path) (deep : Bool) :
    w.Holding (b.lockMove w source parent target deep).1
      (b.lockMove w source parent target deep).2.taken := by
  have h₁ := holding_lockAndFind (b := b) (Work.Holding.refl w)
    (w.locks.parentLock source ++ [source]) source
  simp only [lockMove]
  generalize b.lockAndFind w [] (w.locks.parentLock source ++ [source]) source = r₁ at h₁
  obtain ⟨w₁, grant₁⟩ := r₁
  cases grant₁ with
  | declined => exact h₁
  | refused e => exact h₁
  | granted taken₁ =>
      have h₂ := holding_lockAndFind (b := b) h₁ [parent] parent
      simp only [Grant.taken] at h₂ ⊢
      generalize b.lockAndFind w₁ taken₁ [parent] parent = r₂ at h₂
      obtain ⟨w₂, grant₂⟩ := r₂
      cases grant₂ with
      | declined => exact h₂
      | refused e => exact h₂
      | granted taken₂ => exact Work.Holding.lockAll h₂ _

theorem holding_moveNode (b : Base) (w : Work) (source parent : Path) (deep : Bool) :
    w.Holding (b.moveNode w source parent deep).1 [] := by
  simp only [moveNode]
  split
  · exact .refl w
  · exact .refl w
  · rename_i target _
    have hl := holding_lockMove b w source parent target deep
    generalize b.lockMove w source parent target deep = r at hl
    obtain ⟨w₁, grant⟩ := r
    cases grant with
    | declined => exact hl
    | refused e => exact hl
    | granted taken =>
        simp only
        cases hs : b.stageMove w₁.context source target with
        | error e => exact hl.releasePartial
        | ok c => exact hl.withContext (restaged_stageMove hs)

/-- **No operation gives back a lock that was held before it.** -/
theorem holding_perform (b : Base) (w : Work) (o : Operation) : w.Holding (b.perform w o).1 [] := by
  have h := perform_outcome b w o
  generalize b.perform w o = r at h
  cases h with
  | @reading _ _ p _ _ answer _ => exact holding_reading b w p answer
  | @writing _ _ p create _ _ idle change _ _ _ _ =>
      exact holding_writing b w p create idle change
  | removal p => exact holding_removeNode b w p
  | move source parent deep => exact holding_moveNode b w source parent deep

end Base

/-! ### Giving back all locks -/

namespace Work

/-- Paths are given back one after the other, and that succeeds if each of their locks is held for
all of them. -/
theorem releaseEach_ok {m : LockManager} {o : Owner} {ps : List Path}
    (h : ∀ k, ps.countP (fun p => m.table.keyOf p = k) ≤ m.table.heldBy k o) :
    (releaseEach m o ps).2 = .ok () := by
  induction ps generalizing m with
  | nil => rfl
  | cons p ps ih =>
      simp only [List.countP_cons, decide_eq_true_eq] at h
      have hpos : 0 < m.table.heldBy (m.table.keyOf p) o := by
        have hp := h (m.table.keyOf p)
        rw [if_pos rfl] at hp
        omega
      obtain ⟨t, ht⟩ := LockTable.exists_release? hpos
      obtain ⟨hstriping, hheld⟩ := LockTable.heldBy_release? ht
      simp only [releaseEach, LockManager.releaseFor, ht]
      -- one lock less is held, and one path less is to be given back
      refine ih fun k => ?_
      have hk := h k
      rw [hheld] at hk
      simp only [eq_comm (a := k), and_true] at hk
      simp only [LockTable.keyOf_congr hstriping]
      exact Nat.le_of_add_le_add_right hk

/-- Giving back noted paths is giving back one after the other. -/
theorem traced_releaseEach {ps : List Path} (hps : ps.Nodup)
    (hheld : ∀ p ∈ ps, w.context.holds p = true) :
    w.Traced ⟨(releaseEach w.locks w.context.owner ps).1,
      { w.context with locked := w.context.locked.eraseAll ps }⟩ := by
  induction ps generalizing w with
  | nil => exact .refl
  | cons p ps ih =>
      obtain ⟨hp, hps⟩ := List.nodup_cons.1 hps
      have hfirst : w.Traced (w.release p).1 := Traced.refl.release (hheld p List.mem_cons_self)
      have hrest := ih (w := (w.release p).1) hps fun q hq => Context.holds_forget.2
        ⟨fun hqp => hp (hqp ▸ hq), hheld q (List.mem_cons_of_mem _ hq)⟩
      refine hfirst.trans ?_
      simp only [releaseEach]
      simp only [release] at hrest ⊢
      generalize w.locks.releaseFor p w.context.owner = r at hrest ⊢
      obtain ⟨m, r⟩ := r
      cases r with
      | ok _ => exact hrest
      | error _ => exact hrest

theorem traced_releaseAll (w : Work) : w.Traced w.releaseAll.1 := by
  have h := traced_releaseEach (w := w) (SortedMap.keys_nodup w.context.locked)
    fun p hp => SortedSet.mem_keys.1 hp
  have hempty : w.context.locked.eraseAll w.context.locked.keys = .empty := by
    refine SortedMap.ext_get? fun p => ?_
    rw [SortedMap.get?_eraseAll, SortedMap.get?_empty]
    split
    · rfl
    · rename_i hp
      cases hg : w.context.locked.get? p with
      | none => rfl
      | some u => exact absurd (SortedMap.mem_keys.2 ⟨u, hg⟩) hp
  rw [hempty] at h
  exact h

/-- **Giving back all locks succeeds.** -/
theorem Accounted.releaseAll (h : w.Accounted) : w.releaseAll.2 = .ok () := releaseEach_ok h

end Work

namespace Store

variable {s : Store} {c : Context}

/-- The end of a unit of work gives back its locks one after the other. -/
theorem conclude_traced (s : Store) (c : Context) (committed : Bool) (sent : List Delivery) :
    Work.Traced ⟨s.locks, c⟩
      ⟨(s.conclude c committed sent).store.locks, (s.conclude c committed sent).context⟩ := by
  have hclear : Work.Traced ⟨s.locks, c⟩ (Work.withContext ⟨s.locks, c⟩ c.clearWorkspace) :=
    .restage .refl rfl
  exact hclear.trans (Work.traced_releaseAll _)

/-- The end of a unit of work that is accounted succeeds, and leaves the locks of others alone. -/
theorem conclude_settled (h : Work.Accounted ⟨s.locks, c⟩) (committed : Bool)
    (sent : List Delivery) : (s.conclude c committed sent).result = .ok () ∧
      Work.Balanced ⟨s.locks, c⟩
        ⟨(s.conclude c committed sent).store.locks, (s.conclude c committed sent).context⟩ :=
  ⟨Work.Accounted.releaseAll (w := ⟨s.locks, c.clearWorkspace⟩) h,
    (conclude_traced s c committed sent).balanced⟩

/-- A commit gives back all locks one after the other, or none. -/
theorem commit_traced (s : Store) (c : Context) :
    Work.Traced ⟨s.locks, c⟩ ⟨(s.commit c).store.locks, (s.commit c).context⟩ := by
  have ho := commit_outcome s c
  generalize s.commit c = e at ho
  cases ho with
  | idle _ => exact conclude_traced s c _ _
  | refused _ _ => exact .refl
  | torn _ _ _ => exact .refl
  | merged _ _ _ => exact conclude_traced { s with tree := (s.merge c).tree } c _ _

end Store

namespace SharedTree

/-- No two units of work have the same owner, and all are accounted. -/
structure Settled (s : SharedTree) : Prop where
  /-- Different units of work have different owners. -/
  owners : ∀ {name other : String} {c c' : Context}, s.context? name = some c →
    s.context? other = some c' → other ≠ name → c'.owner ≠ c.owner
  /-- No unit of work has noted a path without its lock. -/
  accounted : ∀ {name : String} {c : Context}, s.context? name = some c →
    Work.Accounted ⟨s.store.locks, c⟩

variable {s s' : SharedTree} {name : String} {c c' : Context}

theorem settled_ofConfig (config : Config) (hash : Path → UInt64) :
    (ofConfig config hash).Settled where
  owners h := by simp [context?, ofConfig] at h
  accounted h := by simp [context?, ofConfig] at h

/-- A unit of work may change its own locks, and its owner to one that no other has. -/
theorem Settled.set (h : s.Settled) (hcs : s'.contexts = s.contexts.insert name c')
    (howner : ∀ other c'', s.context? other = some c'' → other ≠ name → c''.owner ≠ c'.owner)
    (hstriping : s'.store.locks.table.striping = s.store.locks.table.striping)
    (hothers : ∀ k o, o ≠ c'.owner →
      s'.store.locks.table.heldBy k o = s.store.locks.table.heldBy k o)
    (hacc : Work.Accounted ⟨s'.store.locks, c'⟩) : s'.Settled := by
  have hget : ∀ other, s'.context? other = if other = name then some c' else s.context? other := by
    intro other
    rw [context?, hcs, SortedMap.get?_insert]
    rfl
  constructor
  · intro n m d d' hd hd' hne
    rw [hget] at hd hd'
    by_cases hn : n = name
    · rw [if_pos hn] at hd
      rw [if_neg (hn ▸ hne)] at hd'
      obtain rfl := Option.some.inj hd
      exact howner m d' hd' (hn ▸ hne)
    · rw [if_neg hn] at hd
      by_cases hm : m = name
      · rw [if_pos hm] at hd'
        obtain rfl := Option.some.inj hd'
        exact (howner n d hd hn).symm
      · rw [if_neg hm] at hd'
        exact h.owners hd hd' hne
  · intro n d hd k
    rw [hget] at hd
    by_cases hn : n = name
    · rw [if_pos hn] at hd
      obtain rfl := Option.some.inj hd
      exact hacc k
    · rw [if_neg hn] at hd
      have hk := h.accounted hd k
      rw [Work.noted] at hk ⊢
      simp only [LockTable.keyOf_congr hstriping, hothers k d.owner (howner n d hd hn)]
      exact hk

theorem Settled.setBalanced (h : s.Settled) (hc : s.context? name = some c)
    (hcs : s'.contexts = s.contexts.insert name c')
    (hbal : Work.Balanced ⟨s.store.locks, c⟩ ⟨s'.store.locks, c'⟩) : s'.Settled := by
  refine h.set hcs (fun other c'' hother hne => ?_) hbal.striping (fun k o ho => ?_)
    (hbal.accounted (h.accounted hc))
  · rw [hbal.owner]
    exact h.owners hc hother hne
  · rw [hbal.owner] at ho
    exact hbal.others k o ho

/-- **Each step keeps the accounts.** -/
theorem Settled.take (h : s.Settled) (step : Step) : (s.take step).Settled := by
  cases step with
  | start name thread transaction =>
      simp only [SharedTree.take]
      split
      · exact h
      -- a new one has no lock yet, and its owner is one that no other has
      · rename_i hfree
        refine h.set rfl (fun other c hother hne howner => hfree ?_) rfl (fun _ _ _ => rfl)
          fun _ => Nat.zero_le _
        refine List.any_eq_true.2 ⟨(other, c), SortedMap.get?_eq_some_iff.1 hother, ?_⟩
        simp [hne, howner]
  | setOptions name options =>
      simp only [SharedTree.take]
      cases hc : s.context? name with
      | none => exact h
      | some c => exact h.setBalanced hc rfl ⟨rfl, rfl, fun _ _ _ => rfl, id⟩
  | perform name o =>
      simp only [SharedTree.take]
      cases hc : s.context? name with
      | none => exact h
      | some c =>
          exact h.setBalanced hc rfl (s.store.base.holding_perform ⟨s.store.locks, c⟩ o).balanced
  | commit name =>
      simp only [SharedTree.take]
      cases hc : s.context? name with
      | none => exact h
      | some c => exact h.setBalanced hc rfl (Store.commit_traced s.store c).balanced
  | rollback name =>
      simp only [SharedTree.take]
      cases hc : s.context? name with
      | none => exact h
      | some c => exact h.setBalanced hc rfl (Store.conclude_traced s.store c _ _).balanced
  | purge => exact ⟨h.owners, h.accounted⟩

theorem Settled.run (h : s.Settled) (steps : List Step) : (s.run steps).Settled := by
  induction steps generalizing s with
  | nil => exact h
  | cons step steps ih => exact ih (h.take step)

/-- **What one unit of work has locked no other one has.** -/
theorem Settled.disjoint {other : String} {p : Path} (h : s.Settled) (hc : s.context? name = some c)
    (hc' : s.context? other = some c') (hne : other ≠ name) (hp : c.holds p = true) :
    c'.holds p = false := by
  rw [← Bool.not_eq_true]
  intro hp'
  exact h.owners hc hc' hne
    (Lock.eq_of_countFor ((h.accounted hc).heldBy_pos hp) ((h.accounted hc').heldBy_pos hp'))

/-- Whether parents are locked never changes. -/
theorem lockParent_take (s : SharedTree) (step : Step) :
    (s.take step).store.locks.lockParent = s.store.locks.lockParent := by
  cases step with
  | start name thread transaction =>
      simp only [take]
      split <;> rfl
  | setOptions name options =>
      simp only [take]
      cases s.context? name <;> rfl
  | perform name o =>
      simp only [take]
      cases s.context? name with
      | none => rfl
      | some c => exact (s.store.base.holding_perform ⟨s.store.locks, c⟩ o).traced.lockParent
  | commit name =>
      simp only [take]
      cases s.context? name with
      | none => rfl
      | some c => exact (s.store.commit_traced c).lockParent
  | rollback name =>
      simp only [take]
      cases s.context? name with
      | none => rfl
      | some c => exact (s.store.conclude_traced c false []).lockParent
  | purge => rfl

/-- **Every unit of work is accounted at any time.** -/
theorem Reachable.settled (h : s.Reachable) : s.Settled := by
  obtain ⟨config, hash, steps, rfl⟩ := h
  exact (settled_ofConfig config hash).run steps

end SharedTree

end TransactionalTree
