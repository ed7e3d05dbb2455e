/-
**The locks of all units of work add up.**

A lock knows how often it is held, each unit of work knows the paths that it has locked, and the
lock manager counts what was taken and given back.  These three records never disagree, also when
several units of work lock for the same owner, when several paths share a stripe, and when a request
fails half way.  So nothing is left locked when every unit of work has ended.

Main definitions:

* `SharedTree.takeShared`, `SharedTree.runShared` — runs in which units of work may have the same
  owner;
* `SharedTree.notes` — who has noted which path as locked;
* `SharedTree.hasEnded` — a unit of work was committed or rolled back and has done nothing since;
* `SharedTree.Booked` — **each lock is held once for each path that is noted under it**.

Main results:

* `Work.Traced.conserves` — what is locked is noted, and what is given back was noted;
* `SharedTree.booked_runShared` — the accounts are in order at any time;
* `SharedTree.lock_records_agree` — **the three records agree**, no end of a unit of work fails for
  a lock, and when all have ended all locks are free.
-/

import TransactionalTree.Proofs.Atomicity
import TransactionalTree.Proofs.Holding

set_option relaxedAutoImplicit false
set_option autoImplicit false

namespace TransactionalTree

/-! ### Locks, notes and counts of one unit of work -/

namespace Work

variable {w w' w'' : Work} {p : Path} {c : Context}

/-- Between the two works as many locks have come to be held as paths have come to be noted, and as
many were counted. -/
structure Conserves (w w' : Work) : Prop where
  /-- Each lock is taken once for each path that is noted, and given back once for each that is
  noted no longer. -/
  held : ∀ k, w'.locks.table.heldBy k w.context.owner + w.noted k =
    w.locks.table.heldBy k w.context.owner + w'.noted k
  /-- What is taken and what is given back is counted. -/
  counts : w'.locks.counts.acquired + w.locks.counts.released + w.context.locked.keys.length =
    w.locks.counts.acquired + w'.locks.counts.released + w'.context.locked.keys.length

namespace Conserves

theorem refl (w : Work) : w.Conserves w := ⟨fun _ => rfl, rfl⟩

theorem trans (h : w.Conserves w') (h' : w'.Conserves w'')
    (howner : w'.context.owner = w.context.owner) : w.Conserves w'' where
  held k := by
    have h₁ := h.held k
    have h₂ := h'.held k
    rw [howner] at h₂
    omega
  counts := by
    have h₁ := h.counts
    have h₂ := h'.counts
    omega

end Conserves

theorem length_keys_record (hp : c.holds p = false) :
    (c.record p).locked.keys.length = c.locked.keys.length + 1 :=
  (SortedMap.keys_insert_perm (SortedMap.contains_eq_false.1 hp)).length_eq

theorem length_keys_forget (hp : c.holds p = true) :
    c.locked.keys.length = (c.forget p).locked.keys.length + 1 := by
  obtain ⟨u, hu⟩ := SortedMap.contains_iff.1 hp
  exact (SortedMap.keys_erase_perm hu).length_eq

theorem conserves_acquire (w : Work) (p : Path) : w.Conserves (w.acquire p).1 := by
  obtain ⟨m, c⟩ := w
  simp only [acquire]
  split
  · exact .refl _
  · rename_i hp
    have hp := Bool.eq_false_iff.2 hp
    split
    · rename_i t ht
      obtain ⟨hstriping, hheld⟩ := LockTable.heldBy_acquire? ht
      refine ⟨fun k => ?_, ?_⟩
      · rw [noted_record hstriping hp]
        simp only [hheld, and_true]
        omega
      · simp only [length_keys_record hp]
        omega
    · exact ⟨fun _ => rfl, rfl⟩

/-- A noted path is given back, since its lock is held. -/
theorem conserves_release (ha : w.Accounted) (hp : w.context.holds p = true) :
    w.Conserves (w.release p).1 := by
  obtain ⟨m, c⟩ := w
  obtain ⟨t, ht⟩ := LockTable.exists_release? (ha.heldBy_pos hp)
  obtain ⟨hstriping, hheld⟩ := LockTable.heldBy_release? ht
  simp only [release, LockManager.releaseFor, ht]
  refine ⟨fun k => ?_, ?_⟩
  · rw [noted_forget (n := { m with
      table := t, counts := { m.counts with released := m.counts.released + 1 } }) hstriping hp k]
    simp only [hheld k c.owner, and_true]
    omega
  · simp only [length_keys_forget hp]
    omega

/-- **What is locked is noted, and what is given back was noted.** -/
theorem Traced.conserves (h : w.Traced w') (ha : w.Accounted) : w.Conserves w' := by
  induction h with
  | refl => exact .refl w
  | acquire h p ih => exact ih.trans (conserves_acquire _ p) h.balanced.owner
  | release h hp ih =>
      exact ih.trans (conserves_release (h.balanced.accounted ha) hp) h.balanced.owner
  | restage h hc ih =>
      refine ih.trans ⟨fun k => ?_, ?_⟩ h.balanced.owner
      · rw [noted, noted, withContext, hc.locked]
      · rw [withContext, hc.locked]

end Work

/-! ### Runs with shared owners -/

namespace SharedTree

variable {s s' : SharedTree} {name other : String} {c c' : Context} {step : Step}

/-- Take a step.  A unit of work that begins may have the same owner as others, and its name must
not be in use. -/
def takeShared (s : SharedTree) : Step → SharedTree
  | .start name thread transaction =>
      if s.contexts.contains name then s else s.start name { thread, transaction }
  | step => s.take step

/-- Take the listed steps, one after the other. -/
def runShared (s : SharedTree) (steps : List Step) : SharedTree := steps.foldl takeShared s

/-- Who begins for whom is of no matter to the tree and to the workspaces. -/
theorem Sane.takeShared (h : s.Sane) (step : Step) : (s.takeShared step).Sane := by
  cases step with
  | start name thread transaction =>
      simp only [SharedTree.takeShared]
      split
      · exact h
      · exact h.set h.sound Workspace.tidy_empty rfl
  | setOptions name options => exact h.take (.setOptions name options)
  | perform name o => exact h.take (.perform name o)
  | commit name => exact h.take (.commit name)
  | rollback name => exact h.take (.rollback name)
  | purge => exact h.take .purge

theorem Sane.runShared (h : s.Sane) (steps : List Step) : (s.runShared steps).Sane := by
  induction steps generalizing s with
  | nil => exact h
  | cons step steps ih => exact ih (h.takeShared step)

/-- Who has noted which path as locked. -/
def notes (s : SharedTree) : List (Context × Path) :=
  s.contexts.values.flatMap fun c => c.locked.keys.map fun p => (c, p)

/-- **Each lock is held once for each path that is noted under it**, and as often as locks were
taken beyond those given back a path is noted. -/
structure Booked (s : SharedTree) : Prop where
  /-- An owner holds a lock once for each path under it that was locked for the owner. -/
  held : ∀ k o, s.store.locks.table.heldBy k o =
    s.notes.countP fun n => n.1.owner = o ∧ s.store.locks.table.keyOf n.2 = k
  /-- What was taken was given back or is noted. -/
  counts : s.store.locks.counts.acquired = s.store.locks.counts.released + s.notes.length

theorem mem_notes {n : Context × Path} :
    n ∈ s.notes ↔ (∃ name, s.context? name = some n.1) ∧ n.1.holds n.2 = true := by
  obtain ⟨c, p⟩ := n
  have hvalues : c ∈ s.contexts.values ↔ ∃ name, s.context? name = some c := by
    simp only [SortedMap.values, List.mem_map, context?, SortedMap.get?_eq_some_iff]
    constructor
    · rintro ⟨e, he, rfl⟩
      exact ⟨e.1, he⟩
    · rintro ⟨name, h⟩
      exact ⟨(name, c), h, rfl⟩
  simp only [notes, List.mem_flatMap, List.mem_map, Prod.mk.injEq, SortedSet.mem_keys]
  constructor
  · rintro ⟨d, hd, q, hq, rfl, rfl⟩
    exact ⟨hvalues.1 hd, hq⟩
  · rintro ⟨hc, hp⟩
    exact ⟨c, hvalues.2 hc, p, hp, rfl, rfl⟩

/-- What one unit of work has noted. -/
theorem countP_noted (m : LockManager) (c : Context) (k : LockKey) (o : Owner) :
    (c.locked.keys.map fun p => (c, p)).countP
        (fun n => decide (n.1.owner = o ∧ m.table.keyOf n.2 = k)) =
      if c.owner = o then Work.noted ⟨m, c⟩ k else 0 := by
  rw [List.countP_map, Work.noted]
  by_cases ho : c.owner = o
  · simp [ho, Function.comp_def]
  · simp [ho, Function.comp_def]

/-- The notes of one unit of work take the place of those that it had. -/
theorem notes_perm (hc : s.context? name = some c)
    (hcs : s'.contexts = s.contexts.insert name c') :
    ((c.locked.keys.map fun p => (c, p)) ++ s'.notes).Perm
      ((c'.locked.keys.map fun p => (c', p)) ++ s.notes) := by
  have hperm := (SortedMap.values_insert_perm (a := c') hc).flatMap_right
    fun c => c.locked.keys.map fun p => (c, p)
  rw [← hcs] at hperm
  exact hperm

/-- In booked accounts every unit of work is accounted. -/
theorem Booked.accounted (h : s.Booked) (hc : s.context? name = some c) :
    Work.Accounted ⟨s.store.locks, c⟩ := by
  intro k
  have hsub : (c.locked.keys.map fun p => (c, p)).Sublist s.notes := by
    have hmem : c ∈ s.contexts.values :=
      List.mem_map.2 ⟨(name, c), SortedMap.get?_eq_some_iff.1 hc, rfl⟩
    exact List.sublist_flatten_of_mem (List.mem_map_of_mem hmem)
  have hle := hsub.countP_le (p := fun n : Context × Path =>
    decide (n.1.owner = c.owner ∧ s.store.locks.table.keyOf n.2 = k))
  rw [countP_noted, if_pos rfl] at hle
  rw [h.held]
  exact hle

/-- A unit of work takes and gives back locks, and notes it. -/
theorem Booked.set (h : s.Booked) (hc : s.context? name = some c)
    (hcs : s'.contexts = s.contexts.insert name c')
    (hbal : Work.Balanced ⟨s.store.locks, c⟩ ⟨s'.store.locks, c'⟩)
    (hcon : Work.Conserves ⟨s.store.locks, c⟩ ⟨s'.store.locks, c'⟩) : s'.Booked := by
  have hperm := notes_perm hc hcs
  have hkey := LockTable.keyOf_congr hbal.striping
  have howner : c'.owner = c.owner := hbal.owner
  constructor
  · intro k o
    have hcount := hperm.countP_eq fun n =>
      decide (n.1.owner = o ∧ s.store.locks.table.keyOf n.2 = k)
    rw [List.countP_append, List.countP_append, countP_noted, countP_noted, howner] at hcount
    have hold := h.held k o
    simp only [hkey]
    by_cases ho : c.owner = o
    · subst ho
      have hk := hcon.held k
      simp only [Work.noted, hkey] at hk hcount
      simp only [if_true] at hcount
      omega
    · have hk := hbal.others k o (Ne.symm ho)
      simp only [if_neg ho] at hcount
      simp only at hk
      omega
  · have hlen := hperm.length_eq
    have hcounts := hcon.counts
    have hold := h.counts
    simp only [List.length_append, List.length_map] at hlen hcounts
    omega

theorem booked_ofConfig (config : Config) (hash : Path → UInt64) :
    (ofConfig config hash).Booked where
  held _ _ := rfl
  counts := rfl

/-- **Each step keeps the accounts in order.** -/
theorem Booked.takeShared (h : s.Booked) (step : Step) : (s.takeShared step).Booked := by
  have hset : ∀ {name : String} {c c' : Context} {s' : SharedTree}, s.context? name = some c →
      s'.contexts = s.contexts.insert name c' →
      Work.Traced ⟨s.store.locks, c⟩ ⟨s'.store.locks, c'⟩ → s'.Booked :=
    fun hc hcs htr => h.set hc hcs htr.balanced (htr.conserves (h.accounted hc))
  cases step with
  | start name thread transaction =>
      simp only [SharedTree.takeShared]
      split
      · exact h
      -- a new unit of work has noted nothing
      · rename_i hfree
        have hnew := SortedMap.contains_eq_false.1 (Bool.eq_false_iff.2 hfree)
        have hperm : (s.start name { thread, transaction }).notes.Perm s.notes :=
          (SortedMap.values_insert_perm_of_new hnew).flatMap_right _
        exact ⟨fun k o => (h.held k o).trans (hperm.countP_eq _).symm,
          h.counts.trans (congrArg _ hperm.length_eq.symm)⟩
  | setOptions name options =>
      simp only [SharedTree.takeShared, SharedTree.take]
      cases hc : s.context? name with
      | none => exact h
      | some c => exact h.set hc rfl ⟨rfl, rfl, fun _ _ _ => rfl, id⟩ ⟨fun _ => rfl, rfl⟩
  | perform name o =>
      simp only [SharedTree.takeShared, SharedTree.take]
      cases hc : s.context? name with
      | none => exact h
      | some c => exact hset hc rfl (s.store.base.holding_perform ⟨s.store.locks, c⟩ o).traced
  | commit name =>
      simp only [SharedTree.takeShared, SharedTree.take]
      cases hc : s.context? name with
      | none => exact h
      | some c => exact hset hc rfl (s.store.commit_traced c)
  | rollback name =>
      simp only [SharedTree.takeShared, SharedTree.take]
      cases hc : s.context? name with
      | none => exact h
      | some c => exact hset hc rfl (s.store.conclude_traced c _ _)
  | purge => exact ⟨h.held, h.counts⟩

/-- **The accounts are in order at any time.** -/
theorem Booked.runShared (h : s.Booked) (steps : List Step) : (s.runShared steps).Booked := by
  induction steps generalizing s with
  | nil => exact h
  | cons step steps ih => exact ih (h.takeShared step)

/-! ### When a unit of work has ended -/

/-- Whether the step is an operation of the unit of work. -/
def isOperationOf (name : String) : Step → Bool
  | .perform other _ => other = name
  | _ => false

/-- Whether the step ends the unit of work: a rollback, or a commit that succeeds. -/
def ends (s : SharedTree) (name : String) : Step → Bool
  | .commit other => other = name && (s.context? name).any fun c => (s.commit name c).2.isOk
  | .rollback other => other = name && (s.context? name).isSome
  | _ => false

/-- Whether after the listed steps the unit of work was committed successfully or rolled back and
has carried out no operation since; `ended` says whether that is so before them. -/
def hasEnded (s : SharedTree) (name : String) (ended : Bool) : List Step → Bool
  | [] => ended
  | step :: steps =>
      (s.takeShared step).hasEnded name
        (!isOperationOf name step && (ended || s.ends name step)) steps

/-- A step leaves the units of work of all other names alone. -/
theorem context?_takeShared_of_ne (h : step.actor? ≠ some name) :
    (s.takeShared step).context? name = s.context? name := by
  cases step with
  | start other thread transaction =>
      simp only [takeShared]
      split
      · rfl
      · refine SortedMap.get?_insert_of_ne ?_
        rintro rfl
        exact h rfl
  | setOptions _ _ => exact context?_take_of_ne h
  | perform _ _ => exact context?_take_of_ne h
  | commit _ => exact context?_take_of_ne h
  | rollback _ => exact context?_take_of_ne h
  | purge => rfl

/-- A commit that succeeds gives back all locks, and one that fails keeps them. -/
theorem locked_commit (s : Store) (c : Context) :
    (s.commit c).context.locked = .empty ∨
      (s.commit c).context.locked = c.locked ∧ (s.commit c).result.isOk = false := by
  have ho := Store.commit_outcome s c
  generalize s.commit c = e at ho
  cases ho with
  | idle _ => exact .inl rfl
  | refused _ _ => exact .inr ⟨rfl, rfl⟩
  | torn _ _ _ => exact .inr ⟨rfl, rfl⟩
  | merged _ _ _ => exact .inl rfl

/-- What a step makes of a unit of work that there is. -/
theorem of_context?_elim {f : Context → SharedTree}
    (hc : ((s.context? name).elim s f).context? name = some c) :
    ∃ d, s.context? name = some d ∧ (f d).context? name = some c := by
  cases hold : s.context? name with
  | none =>
      rw [hold, Option.elim_none, hold] at hc
      simp at hc
  | some d =>
      rw [hold, Option.elim_some] at hc
      exact ⟨d, rfl, hc⟩

/-- The end of a unit of work leaves it without locks, and only an operation takes some again. -/
theorem locked_takeShared
    (h : isOperationOf name step = false) (hended : s.ends name step = true ∨
      ∀ c, s.context? name = some c → c.locked = .empty)
    (hc : (s.takeShared step).context? name = some c) : c.locked = .empty := by
  by_cases hactor : step.actor? = some name
  · cases step with
    | start other thread transaction =>
        obtain rfl := Option.some.inj hactor
        simp only [ends, Bool.false_eq_true, false_or] at hended
        simp only [takeShared] at hc
        split at hc
        · exact hended c hc
        · rw [← Option.some.inj (SortedMap.get?_insert_self.symm.trans hc)]
    | setOptions other options =>
        obtain rfl := Option.some.inj hactor
        simp only [ends, Bool.false_eq_true, false_or] at hended
        obtain ⟨d, hold, hd⟩ := of_context?_elim hc
        rw [← Option.some.inj (SortedMap.get?_insert_self.symm.trans hd)]
        exact hended d hold
    | perform other o => simp [isOperationOf, Option.some.inj hactor] at h
    | commit other =>
        obtain rfl := Option.some.inj hactor
        obtain ⟨d, hold, hd⟩ := of_context?_elim hc
        rw [← Option.some.inj (SortedMap.get?_insert_self.symm.trans hd)]
        rcases locked_commit s.store d with hempty | ⟨hsame, hfail⟩
        · exact hempty
        -- a failed commit does not end the unit of work, so it had no locks before
        · rcases hended with hends | hended
          · simp [ends, hold, commit, finish, hfail] at hends
          · exact hsame.trans (hended d hold)
    | rollback other =>
        obtain rfl := Option.some.inj hactor
        obtain ⟨d, -, hd⟩ := of_context?_elim hc
        rw [← Option.some.inj (SortedMap.get?_insert_self.symm.trans hd)]
        rfl
    | purge => simp [Step.actor?] at hactor
  -- a step of another unit of work is not its end either
  · rw [context?_takeShared_of_ne hactor] at hc
    rcases hended with hends | hended
    · cases step <;> simp_all [ends, Step.actor?]
    · exact hended c hc

/-- A unit of work that has ended has no locks. -/
theorem locked_of_hasEnded {ended : Bool} {steps : List Step}
    (h : ended = true → ∀ c, s.context? name = some c → c.locked = .empty)
    (hended : s.hasEnded name ended steps = true)
    (hc : (s.runShared steps).context? name = some c) : c.locked = .empty := by
  induction steps generalizing s ended with
  | nil => exact h hended c hc
  | cons step steps ih =>
      refine ih (fun hyes d hd => ?_) hended hc
      simp only [Bool.and_eq_true, Bool.not_eq_true', Bool.or_eq_true] at hyes
      exact locked_takeShared hyes.1 (hyes.2.symm.imp_right fun he => h he) hd

/-! ### The three records -/

/-- Whether locks are striped never changes. -/
theorem striping_takeShared (s : SharedTree) (step : Step) :
    (s.takeShared step).store.locks.table.striping = s.store.locks.table.striping := by
  cases step with
  | start name thread transaction =>
      simp only [takeShared]
      split <;> rfl
  | setOptions name options =>
      simp only [takeShared, take]
      cases s.context? name <;> rfl
  | perform name o =>
      simp only [takeShared, take]
      cases s.context? name with
      | none => rfl
      | some c => exact (s.store.base.holding_perform ⟨s.store.locks, c⟩ o).balanced.striping
  | commit name =>
      simp only [takeShared, take]
      cases s.context? name with
      | none => rfl
      | some c => exact (s.store.commit_traced c).balanced.striping
  | rollback name =>
      simp only [takeShared, take]
      cases s.context? name with
      | none => rfl
      | some c => exact (s.store.conclude_traced c false []).balanced.striping
  | purge => rfl

theorem striping_runShared (s : SharedTree) (steps : List Step) :
    (s.runShared steps).store.locks.table.striping = s.store.locks.table.striping := by
  induction steps generalizing s with
  | nil => rfl
  | cons step steps ih => exact (ih _).trans (striping_takeShared s step)

/-- As often as a lock is held, a path under it is noted by a unit of work of its owner. -/
theorem Booked.count_eq (h : s.Booked) (k : LockKey) :
    Lock.count (s.store.locks.table.holds.get? k) = s.notes.countP fun n =>
      Lock.isHeldBy (s.store.locks.table.holds.get? k) n.1.owner ∧
        s.store.locks.table.keyOf n.2 = k := by
  cases hl : s.store.locks.table.holds.get? k with
  | none =>
      symm
      simp [Lock.isHeldBy, Lock.owner?, Lock.count]
  | some g =>
      have hheld := h.held k g.owner
      rw [LockTable.heldBy, hl] at hheld
      simp only [Lock.countFor, if_true] at hheld
      simp [Lock.isHeldBy, Lock.owner?, Lock.count, hheld, eq_comm]

/-- A noted path is locked for the owner of the unit of work that has noted it. -/
theorem Booked.owns (h : s.Booked) {n : Context × Path} (hn : n ∈ s.notes) :
    s.store.locks.table.owns n.2 n.1.owner = true := by
  rw [LockTable.owns, Lock.isHeldBy_iff]
  have hheld := h.held (s.store.locks.table.keyOf n.2) n.1.owner
  rw [LockTable.heldBy] at hheld
  rw [LockTable.lockOf, hheld]
  exact List.countP_pos_iff.2 ⟨n, hn, by simp⟩

/-- When nothing is noted, all locks are free. -/
theorem Booked.holds_eq_empty (h : s.Booked) (hn : s.notes = []) :
    s.store.locks.table.holds = .empty := by
  refine SortedMap.ext_get? fun k => Lock.eq_none_of_countFor fun o => ?_
  have hheld := h.held k o
  rw [hn] at hheld
  exact hheld

/-- A commit of accounted work does not fail for a lock. -/
theorem commit_error {err : TreeError} (h : Work.Accounted ⟨s.store.locks, c⟩)
    (herr : (s.commit name c).2 = .error err) : err.isIllegalRelease = false := by
  have ho := Store.commit_outcome s.store c
  simp only [commit, finish] at herr
  generalize s.store.commit c = e at ho herr
  cases ho with
  | idle _ =>
      rw [(Store.conclude_settled h _ _).1] at herr
      simp at herr
  | @refused x _ _ _ =>
      rw [← Except.error.inj herr]
      cases x <;> rfl
  | torn _ _ hm =>
      rw [← Except.error.inj herr]
      rw [Store.merge_eq] at hm
      exact mergeAll_error hm
  | merged _ _ _ =>
      rw [(Store.conclude_settled (s := { s.store with tree := (s.store.merge c).tree }) h _ _).1]
        at herr
      simp at herr

/-- **The locks, the units of work and the counts agree** at any time, whoever shares an owner: each
lock is held once for each path under it that is noted for its owner, each noted path is locked for
the owner of the unit of work that noted it, and what was taken and not given back is what is noted.
No commit or rollback fails for a lock.  When all units of work have ended, no path is noted and all
locks are free. -/
theorem lock_records_agree (config : Config) (hash : Path → UInt64) (steps : List Step) :
    let s := (ofConfig config hash).runShared steps
    let locks := s.store.locks
    (∀ k, Lock.count (locks.table.holds.get? k) = s.notes.countP fun n =>
      Lock.isHeldBy (locks.table.holds.get? k) n.1.owner ∧ locks.table.keyOf n.2 = k) ∧
    (∀ n ∈ s.notes, locks.table.owns n.2 n.1.owner = true) ∧
    locks.counts.acquired = locks.counts.released + s.notes.length ∧
    (∀ name c, s.context? name = some c →
      (∀ err, (s.commit name c).2 = .error err → err.isIllegalRelease = false) ∧
      (s.rollback name c).2 = .ok ()) ∧
    ((∀ name c, s.context? name = some c →
        (ofConfig config hash).hasEnded name false steps = true) →
      (∀ name c, s.context? name = some c → c.locked = .empty) ∧
      locks.table.held = 0 ∧ (config.locking.striped = false → locks.table.size = 0)) := by
  intro s locks
  have hbooked : s.Booked := (booked_ofConfig config hash).runShared steps
  refine ⟨hbooked.count_eq, fun n hn => hbooked.owns hn, hbooked.counts, fun name c hc => ?_,
    fun hall => ?_⟩
  · have hacc := hbooked.accounted hc
    exact ⟨fun err herr => commit_error hacc herr, (Store.conclude_settled hacc false []).1⟩
  · have hlocked : ∀ name c, s.context? name = some c → c.locked = .empty := fun name c hc =>
      locked_of_hasEnded (fun h => by simp at h) (hall name c hc) hc
    have hnotes : s.notes = [] := by
      refine List.eq_nil_iff_forall_not_mem.2 fun n hn => ?_
      obtain ⟨⟨name, hc⟩, hp⟩ := mem_notes.1 hn
      rw [Context.holds, hlocked name n.1 hc] at hp
      simp at hp
    have hholds : locks.table.holds = .empty := hbooked.holds_eq_empty hnotes
    refine ⟨hlocked, by rw [LockTable.held, hholds]; rfl, fun hstriped => ?_⟩
    have hstriping : locks.table.striping = none := by
      rw [striping_runShared]
      simp [ofConfig, Store.ofConfig, LockManager.ofConfig, LockTable.empty, hstriped]
    rw [LockTable.size, hstriping, hholds]
    rfl

/-- Two units of work of one thread lock the same path, which one of them has then locked twice
over; the first is committed, the second rolled back. -/
def sharedOwnerRun : List Step :=
  let thread : ThreadId := ⟨"main", 0⟩
  [.start "s" thread none, .start "t" thread none,
    .perform "s" (.put ⟨["r"]⟩ "k" (.int 1)), .perform "t" (.put ⟨["r"]⟩ "k" (.int 2)),
    .perform "t" (.put ⟨["r", "q"]⟩ "k" (.int 3)), .commit "s", .rollback "t"]

/-- All locks of that run are given back. -/
theorem shared_owner_released :
    ((ofConfig {}).runShared sharedOwnerRun).store.locks.table.size = 0 := by
  refine ((lock_records_agree {} Stripe.hash sharedOwnerRun).2.2.2.2 fun name c hc => ?_).2.2 rfl
  have hended : ∀ e ∈ ((ofConfig {}).runShared sharedOwnerRun).contexts.toList,
      (ofConfig {}).hasEnded e.1 false sharedOwnerRun = true := by
    decide +kernel
  exact hended (name, c) (SortedMap.get?_eq_some_iff.1 hc)

end SharedTree

end TransactionalTree
