/-
**Locks that are in nobody's way.**

When an operation asks for a lock that is not free, it asks for nothing more in that round, and what
it answers depends on that.  A lock that someone else holds and that is never refused makes no
difference: an operation does and answers the same when all locks of one other owner are taken out
of the table, unless it is refused one of them.

Main definitions:

* `LockTable.Without` — a table, and the same one without the locks of one owner;
* `Work.Without`, `Work.Alike` — two works, and two results, that differ in nothing but these locks;
* `Base.refusals` — **the paths whose locks an operation is refused**;
* `Work.Unhindered` — the owner holds none of these locks.

Main results:

* `Base.timedOut_perform` — what is refused is what is counted as timed out;
* `Work.Without.perform` — **an operation does not notice locks that it is not refused**.
-/

import TransactionalTree.Proofs.Holding

set_option relaxedAutoImplicit false
set_option autoImplicit false

namespace TransactionalTree

namespace LockTable

variable {t t' : LockTable} {p : Path} {o o' : Owner}

/-! ### Without the locks of one owner -/

/-- The second table has the same locks as the first, except that `o` holds none. -/
structure Without (o : Owner) (t t' : LockTable) : Prop where
  /-- The paths have the same locks. -/
  striping : t'.striping = t.striping
  /-- All others hold the same locks. -/
  others : ∀ k o', o' ≠ o → t'.heldBy k o' = t.heldBy k o'
  /-- The one owner holds none. -/
  none : ∀ k, t'.heldBy k o = 0

namespace Without

variable {t₁ t₁' : LockTable}

/-- Another owner has taken or released the same lock in both tables. -/
theorem of_change (h : Without o t t') (hstriping : t₁.striping = t.striping)
    (hstriping' : t₁'.striping = t'.striping)
    (hother : ∀ k o'', o'' ≠ o → t'.heldBy k o'' = t.heldBy k o'' →
      t₁'.heldBy k o'' = t₁.heldBy k o'')
    (hnone : ∀ k, t₁'.heldBy k o = t'.heldBy k o) : Without o t₁ t₁' where
  striping := hstriping'.trans (h.striping.trans hstriping.symm)
  others k o'' hne := hother k o'' hne (h.others k o'' hne)
  none k := (hnone k).trans (h.none k)

/-- **Another owner takes the same locks in both tables**, unless the one owner is in the way. -/
theorem acquire? (h : Without o t t') (hne : o' ≠ o)
    (hfree : t.acquire? p o' = .none → t.owns p o = false) :
    Option.Rel (Without o) (t.acquire? p o') (t'.acquire? p o') := by
  have hkey := LockTable.keyOf_congr h.striping
  cases ha : t.acquire? p o' with
  | none =>
      obtain ⟨o'', hne'', hpos⟩ := acquire?_eq_none_iff.1 ha
      -- it is held by a third owner, in both tables
      have hthird : o'' ≠ o := by
        rintro rfl
        rw [owns_eq_false_iff.1 (hfree ha)] at hpos
        exact Nat.lt_irrefl _ hpos
      rw [acquire?_eq_none_iff.2 ⟨o'', hne'', by rw [hkey, h.others _ _ hthird]; exact hpos⟩]
      exact .none
  | some t₁ =>
      cases ha' : t'.acquire? p o' with
      | none =>
          obtain ⟨o'', hne'', hpos⟩ := acquire?_eq_none_iff.1 ha'
          have hthird : o'' ≠ o := by
            rintro rfl
            rw [h.none] at hpos
            exact Nat.lt_irrefl _ hpos
          rw [hkey, h.others _ _ hthird] at hpos
          rw [acquire?_eq_none_iff.2 ⟨o'', hne'', hpos⟩] at ha
          simp at ha
      | some t₁' =>
          obtain ⟨hs, hheld⟩ := heldBy_acquire? ha
          obtain ⟨hs', hheld'⟩ := heldBy_acquire? ha'
          refine .some (h.of_change hs hs' (fun k o'' _ heq => ?_) fun k => ?_)
          · rw [hheld, hheld', heq, hkey]
          · simp [hheld', hne.symm]

/-- **Another owner releases the same locks in both tables.** -/
theorem release? (h : Without o t t') (hne : o' ≠ o) :
    Option.Rel (Without o) (t.release? p o') (t'.release? p o') := by
  have hkey := LockTable.keyOf_congr h.striping
  have hsame := h.others (t.keyOf p) o' hne
  cases hr : t.release? p o' with
  | none =>
      rw [release?_eq_none_iff] at hr
      rw [release?_eq_none_iff.2 (by rw [hkey, hsame, hr])]
      exact .none
  | some t₁ =>
      cases hr' : t'.release? p o' with
      | none =>
          rw [release?_eq_none_iff, hkey, hsame, ← release?_eq_none_iff, hr] at hr'
          simp at hr'
      | some t₁' =>
          obtain ⟨hs, hheld⟩ := heldBy_release? hr
          obtain ⟨hs', hheld'⟩ := heldBy_release? hr'
          refine .some (h.of_change hs hs' (fun k o'' _ heq => ?_) fun k => ?_)
          · rw [hheld, hheld', hkey] at heq
            exact Nat.add_right_cancel heq
          · simp [hheld', hne.symm]

end Without

end LockTable

/-- The second lock manager has the settings of the first, and the same locks, except that `o` holds
none. -/
structure LockManager.Without (o : Owner) (m m' : LockManager) : Prop where
  /-- The locks. -/
  table : m.table.Without o m'.table
  /-- The time to wait. -/
  timeout : m'.timeout = m.timeout
  /-- Whether parents are locked. -/
  lockParent : m'.lockParent = m.lockParent

/-- Releasing a path fails for another owner with both lock managers or with none. -/
theorem LockManager.Without.releaseFor {m m' : LockManager} {o o' : Owner}
    (h : m.Without o m') (hne : o' ≠ o) (p : Path) :
    (m.releaseFor p o').1.Without o (m'.releaseFor p o').1 ∧
      (m'.releaseFor p o').2 = (m.releaseFor p o').2 := by
  have hrel := h.table.release? (p := p) hne
  simp only [LockManager.releaseFor]
  generalize m.table.release? p o' = r at hrel
  generalize m'.table.release? p o' = r' at hrel
  cases hrel with
  | none => exact ⟨⟨h.table, h.timeout, h.lockParent⟩, rfl⟩
  | some ht => exact ⟨⟨ht, h.timeout, h.lockParent⟩, rfl⟩

namespace Work

variable {w w' : Work} {o : Owner} {p : Path} {ps taken : List Path}

/-! ### Works that differ in the locks of another owner -/

/-- The same unit of work, which does not lock for `o`, with the locks of `o` and without. -/
structure Without (o : Owner) (w w' : Work) : Prop where
  /-- The unit of work is the same. -/
  context : w'.context = w.context
  /-- It is another owner's. -/
  owner : w.context.owner ≠ o
  /-- The locks are the same but for those of `o`. -/
  locks : w.locks.Without o w'.locks

/-- The same result, with the locks of `o` and without. -/
inductive Alike {α : Type} (o : Owner) : Work × α → Work × α → Prop
  /-- The same is answered, and the works that are left differ in the locks of `o` only. -/
  | intro {w w' : Work} (h : w.Without o w') (a : α) : Alike o (w, a) (w', a)

namespace Without

theorem withContext {c : Context} (h : w.Without o w') (hc : c.owner = w.context.owner) :
    (w.withContext c).Without o (w'.withContext c) where
  context := rfl
  owner := by
    rw [Work.withContext, hc]
    exact h.owner
  locks := h.locks

theorem acquire (h : w.Without o w')
    (hfree : ∀ e, (w.acquire p).2 = .error e → w.locks.table.owns p o = false) :
    Alike o (w.acquire p) (w'.acquire p) := by
  obtain ⟨m, c⟩ := w
  obtain ⟨m', c'⟩ := w'
  obtain rfl : c' = c := h.context
  simp only [Work.acquire] at hfree ⊢
  split
  · exact .intro h _
  · rename_i hp
    have hrel := h.locks.table.acquire? (p := p) h.owner fun hn => by
      simp only [if_neg hp, hn] at hfree
      exact hfree _ rfl
    generalize m.table.acquire? p c'.owner = r at hrel
    generalize m'.table.acquire? p c'.owner = r' at hrel
    cases hrel with
    | none =>
        have htimeout : m'.timeoutFor c' = m.timeoutFor c' :=
          congrArg c'.options.timeout.getD h.locks.timeout
        rw [htimeout]
        refine .intro ?_ _
        exact ⟨rfl, h.owner, ⟨h.locks.table, h.locks.timeout, h.locks.lockParent⟩⟩
    | some ht =>
        refine .intro ?_ _
        exact ⟨rfl, h.owner, ⟨ht, h.locks.timeout, h.locks.lockParent⟩⟩

theorem release (h : w.Without o w') (p : Path) :
    (w.release p).1.Without o (w'.release p).1 := by
  obtain ⟨m, c⟩ := w
  obtain ⟨m', c'⟩ := w'
  obtain rfl : c' = c := h.context
  exact ⟨rfl, h.owner, (h.locks.releaseFor h.owner p).1⟩

theorem releasePartial (h : w.Without o w') (ps : List Path) :
    (w.releasePartial ps).Without o (w'.releasePartial ps) := by
  induction ps with
  | nil => exact h
  | cons p ps ih => exact ih.release p

end Without

/-! ### What is refused -/

/-- The first of the listed paths whose lock is not free when they are locked in order. -/
def firstRefused (w : Work) : List Path → Option Path
  | [] => none
  | p :: ps =>
      match w.acquire p with
      | (w, .ok _) => w.firstRefused ps
      | (_, .error _) => some p

/-- The path whose lock is refused when an operation asks for those of the listed paths; at most
one, since it asks for no further ones then. -/
def refusals (w : Work) (ps : List Path) : List Path :=
  if w.context.options.skipLocking then [] else (w.firstRefused ps).toList

/-- **The owner is not in the way**: it holds the lock of none of these paths, which the unit of
work is refused. -/
def Unhindered (o : Owner) (w : Work) (ps : List Path) : Prop :=
  ∀ p ∈ ps, w.locks.table.owns p o = false

/-- What the unit of work does does not change what others hold. -/
theorem Unhindered.of_balanced {w₁ : Work} (h : w.Unhindered o ps) (hne : w.context.owner ≠ o)
    (hb : w.Balanced w₁) : w₁.Unhindered o ps := by
  intro p hp
  have hfree := h p hp
  rw [LockTable.owns_eq_false_iff] at hfree ⊢
  rw [LockTable.keyOf_congr hb.striping, hb.others _ _ hne.symm, hfree]

theorem Unhindered.left {qs : List Path} (h : w.Unhindered o (ps ++ qs)) : w.Unhindered o ps :=
  fun p hp => h p (List.mem_append_left _ hp)

theorem Unhindered.right {qs : List Path} (h : w.Unhindered o (ps ++ qs)) : w.Unhindered o qs :=
  fun p hp => h p (List.mem_append_right _ hp)

/-- What is refused is counted. -/
theorem timedOut_acquireFrom (w : Work) (taken ps : List Path) :
    (w.acquireFrom taken ps).1.locks.counts.timedOut =
      w.locks.counts.timedOut + (w.firstRefused ps).toList.length := by
  induction ps generalizing w taken with
  | nil => rfl
  | cons p ps ih =>
      simp only [acquireFrom, firstRefused]
      rcases acquire_cases w p with ⟨-, h⟩ | ⟨-, m, h, -, ht⟩ | ⟨m, e, h, -, -, ht⟩
      · rw [h]
        exact ih w taken
      · rw [h, ← ht]
        exact ih ⟨m, w.context.record p⟩ (taken ++ [p])
      · rw [h]
        simp only [timedOut_releasePartial, ht]
        rfl

theorem timedOut_lockAll (w : Work) (taken ps : List Path) :
    (w.lockAll taken ps).1.locks.counts.timedOut =
      w.locks.counts.timedOut + (w.refusals ps).length := by
  have h := timedOut_acquireFrom w [] ps
  simp only [lockAll, refusals, acquireAll]
  split
  · rfl
  · generalize w.acquireFrom [] ps = r at h
    obtain ⟨w', r⟩ := r
    cases r with
    | ok new => exact h
    | error e =>
        simp only [timedOut_releasePartial]
        exact h

namespace Without

/-- Locking a list goes the same way if the owner is not in the way of its first refusal. -/
theorem acquireFrom (h : w.Without o w') (hfree : w.Unhindered o (w.firstRefused ps).toList)
    (taken : List Path) : Alike o (w.acquireFrom taken ps) (w'.acquireFrom taken ps) := by
  induction ps generalizing w w' taken with
  | nil => exact .intro h _
  | cons p ps ih =>
      have hone : ∀ e, (w.acquire p).2 = .error e → w.locks.table.owns p o = false := by
        intro e he
        refine hfree p ?_
        rw [firstRefused]
        generalize w.acquire p = r at he
        obtain ⟨w₁, r⟩ := r
        cases r with
        | ok _ => simp at he
        | error _ => simp
      have hrest : ∀ {b : Bool}, (w.acquire p).2 = .ok b →
          (w.acquire p).1.Unhindered o ((w.acquire p).1.firstRefused ps).toList := by
        intro b hb
        refine Unhindered.of_balanced (fun q hq => hfree q ?_) h.owner (balanced_acquire w p)
        rw [firstRefused]
        generalize w.acquire p = r at hb hq
        obtain ⟨w₁, r⟩ := r
        cases r with
        | ok _ => exact hq
        | error _ => simp at hb
      have hfirst := h.acquire hone
      simp only [Work.acquireFrom]
      generalize w.acquire p = r at hfirst hrest
      generalize w'.acquire p = r' at hfirst
      obtain ⟨hfirst, r⟩ := hfirst
      cases r with
      | error e => exact .intro (hfirst.releasePartial taken) _
      | ok b =>
          cases b with
          | true => exact ih hfirst (hrest rfl) _
          | false => exact ih hfirst (hrest rfl) _

/-- **Asking for locks goes the same way** if the owner is not in the way. -/
theorem lockAll (h : w.Without o w') (hfree : w.Unhindered o (w.refusals ps)) (taken : List Path) :
    Alike o (w.lockAll taken ps) (w'.lockAll taken ps) := by
  simp only [Work.lockAll, acquireAll, h.context]
  simp only [refusals] at hfree
  split
  · exact .intro h _
  · rename_i hskip
    rw [if_neg hskip] at hfree
    have hall := h.acquireFrom hfree []
    generalize w.acquireFrom [] ps = r at hall
    generalize w'.acquireFrom [] ps = r' at hall
    obtain ⟨hall, r⟩ := hall
    cases r with
    | ok new => exact .intro hall _
    | error e =>
        simp only [hall.context]
        exact .intro (hall.releasePartial taken) _

/-- Giving back all locks goes the same way. -/
theorem releaseAll (h : w.Without o w') :
    w.releaseAll.1.Without o w'.releaseAll.1 ∧ w'.releaseAll.2 = w.releaseAll.2 := by
  have heach : ∀ {m m' : LockManager} (ps : List Path), m.Without o m' →
      (releaseEach m w.context.owner ps).1.Without o (releaseEach m' w.context.owner ps).1 ∧
        (releaseEach m' w.context.owner ps).2 = (releaseEach m w.context.owner ps).2 := by
    intro m m' ps hm
    induction ps generalizing m m' with
    | nil => exact ⟨hm, rfl⟩
    | cons p ps ih =>
        obtain ⟨hfirst, hresult⟩ := hm.releaseFor h.owner p
        simp only [releaseEach]
        generalize m.releaseFor p w.context.owner = r at hfirst hresult
        generalize m'.releaseFor p w.context.owner = r' at hfirst hresult
        obtain ⟨m₁, r⟩ := r
        obtain ⟨m₁', r'⟩ := r'
        obtain rfl : r' = r := hresult
        cases r' with
        | ok _ => exact ih hfirst
        | error e => exact ⟨(ih hfirst).1, rfl⟩
  obtain ⟨hlocks, hresult⟩ := heach w.context.locked.keys h.locks
  simp only [Work.releaseAll, h.context]
  exact ⟨⟨rfl, h.owner, hlocks⟩, hresult⟩

end Without

end Work

/-! ### What an operation is refused -/

namespace Base

/-- What a read of `p` is refused. -/
def readRefusals (w : Work) (p : Path) : List Path :=
  if w.context.options.forceWriteLock then w.refusals [p] else []

/-- What a write to `p` is refused. -/
def writeRefusals (b : Base) (w : Work) (p : Path) (create : Bool) : List Path :=
  w.refusals ((b.view w.context).writeLocks w.locks p create)

/-- What removing `p`, which is not the root, is refused. -/
def removalRefusals (b : Base) (w : Work) (p : Path) : List Path :=
  w.refusals ((b.view w.context).removalLocks w.locks p)

/-- What removing the listed nodes, up to the first removal that fails, is refused. -/
def eachRefusals (b : Base) (w : Work) : List Path → List Path
  | [] => []
  | p :: ps =>
      b.removalRefusals w p ++
        match b.removeBelowRoot w p with
        | (_, .error _) => []
        | (w, .ok _) => b.eachRefusals w ps

/-- What removing all that is below the root is refused. -/
def rootRefusals (b : Base) (w : Work) : List Path :=
  b.eachRefusals w (b.view w.context).topLevel ++
    match b.removeEach w (b.view w.context).topLevel with
    | (_, .error _) => []
    | (w, .ok ()) => b.writeRefusals w .root false

/-- What a move to `target` is refused, in one of its three rounds. -/
def moveRefusals (b : Base) (w : Work) (source parent target : Path) (deep : Bool) : List Path :=
  w.refusals (w.locks.parentLock source ++ [source]) ++
    match b.lockAndFind w [] (w.locks.parentLock source ++ [source]) source with
    | (w, .granted taken) =>
        w.refusals [parent] ++
          match b.lockAndFind w taken [parent] parent with
          | (w, .granted _) => w.refusals ((b.view w.context).moveLocks source target deep)
          | (_, _) => []
    | (_, _) => []

/-- **The paths whose locks an operation is refused**, in order. -/
def refusals (b : Base) (w : Work) : Operation → List Path
  | .removeNode p => if p.isRoot then b.rootRefusals w else b.removalRefusals w p
  | .moveNode source parent deep =>
      match planMove source parent with
      | .ok (.moveTo target) => b.moveRefusals w source parent target deep
      | _ => []
  | o =>
      match o.readPath?, o.writePath? with
      | some p, _ => readRefusals w p
      | none, some (p, create) => b.writeRefusals w p create
      | none, none => []

/-! ### What is refused is counted -/

variable {b : Base} {w w' : Work} {p source : Path} {o : Owner} {taken : List Path}

theorem timedOut_reading {α : Type} (b : Base) (w : Work) (p : Path)
    (answer : View → Location → α) :
    (b.reading w p answer).1.locks.counts.timedOut =
      w.locks.counts.timedOut + (readRefusals w p).length := by
  -- looking asks for no lock
  have hlook : ∀ w₁, (b.look w₁ p).1.locks.counts.timedOut = w₁.locks.counts.timedOut := fun w₁ =>
    (look_found b w₁ p).2.1
  have hcount := Work.timedOut_lockAll w [] [p]
  simp only [reading, prepareRead, readRefusals]
  by_cases hforce : w.context.options.forceWriteLock = true
  · simp only [if_pos hforce]
    generalize w.lockAll [] [p] = r at hcount
    obtain ⟨w₁, grant⟩ := r
    cases grant with
    | granted taken => exact (hlook _).trans hcount
    | declined => exact hcount
    | refused e => exact hcount
  · simp only [if_neg hforce]
    exact hlook w

theorem timedOut_writing {α : Type} (b : Base) (w : Work) (p : Path) (create : Bool) (idle : α)
    (change : Entry → Entry × α) :
    (b.writing w p create idle change).1.locks.counts.timedOut =
      w.locks.counts.timedOut + (b.writeRefusals w p create).length := by
  have hcount := Work.timedOut_lockAll w [] ((b.view w.context).writeLocks w.locks p create)
  simp only [writing, prepareWrite, writeRefusals]
  generalize w.lockAll [] ((b.view w.context).writeLocks w.locks p create) = r at hcount
  obtain ⟨w₁, grant⟩ := r
  cases grant with
  | declined => exact hcount
  | refused e => exact hcount
  | granted taken =>
      simp only
      cases b.stageWrite w₁.context p create with
      | error e => exact (Work.timedOut_releasePartial _ _).trans hcount
      | ok r =>
          obtain ⟨c, ready⟩ := r
          cases ready with
          | false => exact hcount
          | true =>
              simp only [Work.withContext]
              cases c.entry? p <;> exact hcount

theorem timedOut_removeBelowRoot (b : Base) (w : Work) (p : Path) :
    (b.removeBelowRoot w p).1.locks.counts.timedOut =
      w.locks.counts.timedOut + (b.removalRefusals w p).length := by
  have hcount := Work.timedOut_lockAll w [] ((b.view w.context).removalLocks w.locks p)
  simp only [removeBelowRoot, removalRefusals]
  generalize w.lockAll [] ((b.view w.context).removalLocks w.locks p) = r at hcount
  obtain ⟨w₁, grant⟩ := r
  cases grant <;> exact hcount

theorem timedOut_removeEach (b : Base) (w : Work) (ps : List Path) :
    (b.removeEach w ps).1.locks.counts.timedOut =
      w.locks.counts.timedOut + (b.eachRefusals w ps).length := by
  induction ps generalizing w with
  | nil => rfl
  | cons p ps ih =>
      have hfirst := timedOut_removeBelowRoot b w p
      simp only [removeEach, eachRefusals, List.length_append]
      generalize b.removeBelowRoot w p = r at hfirst
      obtain ⟨w₁, r⟩ := r
      cases r with
      | error e => exact hfirst
      | ok found =>
          have hrest := ih w₁
          simp only at hfirst hrest ⊢
          omega

theorem timedOut_removeRoot (b : Base) (w : Work) :
    (b.removeRoot w).1.locks.counts.timedOut =
      w.locks.counts.timedOut + (b.rootRefusals w).length := by
  have heach := timedOut_removeEach b w (b.view w.context).topLevel
  have hall := removeRoot_cases b w
  rw [rootRefusals, List.length_append]
  generalize b.removeRoot w = r at hall
  cases hall with
  | stopped hall =>
      rw [hall] at heach ⊢
      exact heach
  | @emptied w₁ hall =>
      have hclear : (b.clearData w₁ .root).1.locks.counts.timedOut =
          w₁.locks.counts.timedOut + (b.writeRefusals w₁ .root false).length :=
        timedOut_writing b w₁ .root false () _
      rw [hall] at heach ⊢
      simp only at heach ⊢
      omega

theorem timedOut_lockAndFind (b : Base) (w : Work) (taken ps : List Path) (p : Path) :
    (b.lockAndFind w taken ps p).1.locks.counts.timedOut =
      w.locks.counts.timedOut + (w.refusals ps).length := by
  have hcount := Work.timedOut_lockAll w taken ps
  simp only [lockAndFind]
  generalize w.lockAll taken ps = r at hcount
  obtain ⟨w₁, grant⟩ := r
  cases grant with
  | declined => exact hcount
  | refused e => exact hcount
  | granted all =>
      simp only
      split
      · exact hcount
      · exact (Work.timedOut_releasePartial _ _).trans hcount

theorem timedOut_lockMove (b : Base) (w : Work) (source parent target : Path) (deep : Bool) :
    (b.lockMove w source parent target deep).1.locks.counts.timedOut =
      w.locks.counts.timedOut + (b.moveRefusals w source parent target deep).length := by
  have h₁ := timedOut_lockAndFind b w [] (w.locks.parentLock source ++ [source]) source
  simp only [lockMove, moveRefusals, List.length_append]
  generalize b.lockAndFind w [] (w.locks.parentLock source ++ [source]) source = r₁ at h₁
  obtain ⟨w₁, grant₁⟩ := r₁
  cases grant₁ with
  | declined => exact h₁
  | refused e => exact h₁
  | granted taken₁ =>
      have h₂ := timedOut_lockAndFind b w₁ taken₁ [parent] parent
      simp only at h₁ ⊢
      generalize b.lockAndFind w₁ taken₁ [parent] parent = r₂ at h₂
      obtain ⟨w₂, grant₂⟩ := r₂
      cases grant₂ with
      | declined => simp only [List.length_append, List.length_nil] at h₂ ⊢; omega
      | refused e => simp only [List.length_append, List.length_nil] at h₂ ⊢; omega
      | granted taken₂ =>
          have h₃ :=
            Work.timedOut_lockAll w₂ taken₂ ((b.view w₂.context).moveLocks source target deep)
          simp only [List.length_append] at h₂ h₃ ⊢
          omega

theorem timedOut_moveNode {target : Path} {parent : Path} (deep : Bool)
    (hplan : planMove source parent = .ok (.moveTo target)) :
    (b.moveNode w source parent deep).1.locks.counts.timedOut =
      w.locks.counts.timedOut + (b.moveRefusals w source parent target deep).length := by
  have hlock := timedOut_lockMove b w source parent target deep
  simp only [moveNode, hplan]
  generalize b.lockMove w source parent target deep = r at hlock
  obtain ⟨w₁, grant⟩ := r
  cases grant with
  | declined => exact hlock
  | refused e => exact hlock
  | granted taken =>
      simp only
      cases b.stageMove w₁.context source target with
      | error e => exact (Work.timedOut_releasePartial _ _).trans hlock
      | ok c => exact hlock

/-- **What an operation is refused is what is counted as timed out.** -/
theorem timedOut_perform (b : Base) (w : Work) (o : Operation) :
    (b.perform w o).1.locks.counts.timedOut =
      w.locks.counts.timedOut + (b.refusals w o).length := by
  cases o with
  | get p key => exact timedOut_reading b w p _
  | getData p => exact timedOut_reading b w p _
  | getKeys p => exact timedOut_reading b w p _
  | getChildNames p => exact timedOut_reading b w p _
  | nodeExists p => exact timedOut_reading b w p _
  | put p key v => exact timedOut_writing b w p true none _
  | putAll p d => exact timedOut_writing b w p true () _
  | replaceAll p d => exact timedOut_writing b w p true () _
  | removeKey p key => exact timedOut_writing b w p false none _
  | clearData p => exact timedOut_writing b w p false () _
  | removeNode p =>
      simp only [perform, removeNode, refusals, answering]
      split
      · exact timedOut_removeRoot b w
      · exact timedOut_removeBelowRoot b w p
  | moveNode source parent deep =>
      simp only [perform, refusals, answering]
      split
      · rename_i hplan
        exact timedOut_moveNode deep hplan
      · rename_i hplan
        simp only [moveNode]
        split
        · rfl
        · rfl
        · rename_i target htarget
          exact absurd htarget (hplan target)

end Base

/-! ### Operations do not notice -/

namespace Work

variable {b : Base} {w w' : Work} {p source parent target : Path} {o : Owner}
variable {ps taken : List Path}

namespace Without

theorem view (h : w.Without o w') (b : Base) : b.view w'.context = b.view w.context := by
  rw [h.context]

theorem parentLock (h : w.Without o w') (p : Path) :
    w'.locks.parentLock p = w.locks.parentLock p := by
  rw [LockManager.parentLock, LockManager.parentLock, h.locks.lockParent]

theorem look (h : w.Without o w') (b : Base) (p : Path) : Alike o (b.look w p) (b.look w' p) := by
  have howner := (Base.look_found b w p).1.owner
  simp only [Base.look, h.context] at howner ⊢
  split
  · rename_i hr
    rw [if_pos hr] at howner
    exact .intro (h.withContext howner) _
  · exact .intro h _

theorem reading {α : Type} (h : w.Without o w') (hfree : w.Unhindered o (Base.readRefusals w p))
    (answer : View → Location → α) : Alike o (b.reading w p answer) (b.reading w' p answer) := by
  -- what is answered depends on the unit of work only
  have hlook : ∀ {w₁ w₁' : Work}, w₁.Without o w₁' →
      Alike o ((b.look w₁ p).1, (.ok (answer (b.view (b.look w₁ p).1.context) (b.look w₁ p).2) :
          Except TreeError α))
        ((b.look w₁' p).1, .ok (answer (b.view (b.look w₁' p).1.context) (b.look w₁' p).2)) := by
    intro w₁ w₁' h₁
    have h₂ := h₁.look b p
    generalize b.look w₁ p = r at h₂
    generalize b.look w₁' p = r' at h₂
    obtain ⟨h₂, l⟩ := h₂
    simp only [h₂.view]
    exact .intro h₂ _
  simp only [Base.reading, Base.prepareRead, Base.readRefusals, h.context] at hfree ⊢
  by_cases hforce : w.context.options.forceWriteLock = true
  · simp only [if_pos hforce] at hfree ⊢
    have hlock := h.lockAll hfree []
    generalize w.lockAll [] [p] = r at hlock
    generalize w'.lockAll [] [p] = r' at hlock
    obtain ⟨hlock, grant⟩ := hlock
    cases grant with
    | refused e => exact .intro hlock _
    | declined =>
        simp only [hlock.view]
        exact .intro hlock _
    | granted taken =>
        simp only [hlock.context]
        exact hlook (hlock.withContext (Base.restaged_materialize b _ p).owner)
  · simp only [if_neg hforce]
    exact hlook h

theorem writing {α : Type} {create : Bool} (h : w.Without o w')
    (hfree : w.Unhindered o (b.writeRefusals w p create)) (idle : α) (change : Entry → Entry × α) :
    Alike o (b.writing w p create idle change) (b.writing w' p create idle change) := by
  have hlocks : (b.view w.context).writeLocks w'.locks p create =
      (b.view w.context).writeLocks w.locks p create := by
    simp only [View.writeLocks, h.parentLock]
  simp only [Base.writing, Base.prepareWrite, h.view, hlocks]
  have hlock := h.lockAll hfree []
  generalize w.lockAll [] ((b.view w.context).writeLocks w.locks p create) = r at hlock
  generalize w'.lockAll [] ((b.view w.context).writeLocks w.locks p create) = r' at hlock
  obtain ⟨hlock, grant⟩ := hlock
  rename_i w₁ w₁'
  cases grant with
  | refused e => exact .intro hlock _
  | declined => exact .intro hlock _
  | granted taken =>
      simp only [hlock.context]
      cases hs : b.stageWrite w₁.context p create with
      | error e => exact .intro (hlock.releasePartial taken) _
      | ok r =>
          obtain ⟨c, ready⟩ := r
          have hready := hlock.withContext (Base.restaged_stageWrite hs).owner
          cases ready with
          | false => exact .intro hready _
          | true =>
              simp only [Work.withContext] at hready ⊢
              cases c.entry? p with
              | none => exact .intro hready _
              | some e => exact .intro (hready.withContext (c := c.setEntry p (change e).1) rfl) _

theorem removeBelowRoot (h : w.Without o w') (hfree : w.Unhindered o (b.removalRefusals w p)) :
    Alike o (b.removeBelowRoot w p) (b.removeBelowRoot w' p) := by
  have hlocks : (b.view w.context).removalLocks w'.locks p =
      (b.view w.context).removalLocks w.locks p := by
    simp only [View.removalLocks, h.parentLock]
  simp only [Base.removeBelowRoot, h.view, hlocks]
  have hlock := h.lockAll hfree []
  generalize w.lockAll [] ((b.view w.context).removalLocks w.locks p) = r at hlock
  generalize w'.lockAll [] ((b.view w.context).removalLocks w.locks p) = r' at hlock
  obtain ⟨hlock, grant⟩ := hlock
  cases grant with
  | refused e => exact .intro hlock _
  | declined => exact .intro hlock _
  | granted taken =>
      simp only [hlock.context]
      exact .intro (hlock.withContext (Base.restaged_stageRemoval b _ p).owner) _

theorem removeEach (h : w.Without o w') (hfree : w.Unhindered o (b.eachRefusals w ps)) :
    Alike o (b.removeEach w ps) (b.removeEach w' ps) := by
  induction ps generalizing w w' with
  | nil => exact .intro h _
  | cons p ps ih =>
      have hfirst := h.removeBelowRoot hfree.left
      have hrest := hfree.right.of_balanced h.owner (Base.holding_removeBelowRoot b w p).balanced
      simp only [Base.removeEach]
      generalize b.removeBelowRoot w p = r at hfirst hrest
      generalize b.removeBelowRoot w' p = r' at hfirst
      obtain ⟨hfirst, r⟩ := hfirst
      cases r with
      | error e => exact .intro hfirst _
      | ok found => exact ih hfirst hrest

theorem removeRoot (h : w.Without o w') (hfree : w.Unhindered o (b.rootRefusals w)) :
    Alike o (b.removeRoot w) (b.removeRoot w') := by
  have heach := h.removeEach hfree.left
  have hrest := hfree.right.of_balanced h.owner
    (Base.holding_removeEach b w (b.view w.context).topLevel).balanced
  generalize hr : b.removeEach w (b.view w.context).topLevel = r at heach hrest
  generalize hr' : b.removeEach w' (b.view w.context).topLevel = r' at heach
  rw [← h.view] at hr'
  obtain ⟨heach, r⟩ := heach
  rename_i w₁ w₁'
  cases r with
  | error e =>
      rw [Base.removeRoot_of_error hr, Base.removeRoot_of_error hr']
      exact .intro heach _
  | ok _ =>
      have hclear : Alike o (b.clearData w₁ .root) (b.clearData w₁' .root) :=
        heach.writing hrest () _
      rw [Base.removeRoot_of_ok hr, Base.removeRoot_of_ok hr']
      generalize b.clearData w₁ .root = r at hclear
      generalize b.clearData w₁' .root = r' at hclear
      obtain ⟨hclear, r⟩ := hclear
      exact .intro hclear _

theorem lockAndFind (h : w.Without o w') (hfree : w.Unhindered o (w.refusals ps))
    (taken : List Path) (p : Path) :
    Alike o (b.lockAndFind w taken ps p) (b.lockAndFind w' taken ps p) := by
  have hlock := h.lockAll hfree taken
  simp only [Base.lockAndFind]
  generalize w.lockAll taken ps = r at hlock
  generalize w'.lockAll taken ps = r' at hlock
  obtain ⟨hlock, grant⟩ := hlock
  cases grant with
  | refused e => exact .intro hlock _
  | declined => exact .intro hlock _
  | granted all =>
      simp only [hlock.view]
      split
      · exact .intro hlock _
      · exact .intro (hlock.releasePartial all) _

theorem lockMove {deep : Bool} (h : w.Without o w')
    (hfree : w.Unhindered o (b.moveRefusals w source parent target deep)) :
    Alike o (b.lockMove w source parent target deep) (b.lockMove w' source parent target deep) := by
  have h₁ := h.lockAndFind (b := b) hfree.left [] source
  have hold₁ := Base.holding_lockAndFind (b := b) (.refl w)
    (w.locks.parentLock source ++ [source]) source
  have hfree := hfree.right
  simp only [Base.lockMove, h.parentLock]
  generalize b.lockAndFind w [] (w.locks.parentLock source ++ [source]) source = r₁
    at h₁ hold₁ hfree
  generalize b.lockAndFind w' [] (w.locks.parentLock source ++ [source]) source = r₁' at h₁
  obtain ⟨h₁, grant₁⟩ := h₁
  rename_i w₁ w₁'
  cases grant₁ with
  | refused e => exact .intro h₁ _
  | declined => exact .intro h₁ _
  | granted taken₁ =>
      simp only [Grant.taken] at hfree hold₁ ⊢
      have h₂ := h₁.lockAndFind (b := b) (hfree.left.of_balanced h.owner hold₁.balanced) taken₁
        parent
      have hold₂ := Base.holding_lockAndFind (b := b) hold₁ [parent] parent
      have hfree := hfree.right
      generalize b.lockAndFind w₁ taken₁ [parent] parent = r₂ at h₂ hold₂ hfree
      generalize b.lockAndFind w₁' taken₁ [parent] parent = r₂' at h₂
      obtain ⟨h₂, grant₂⟩ := h₂
      cases grant₂ with
      | refused e => exact .intro h₂ _
      | declined => exact .intro h₂ _
      | granted taken₂ =>
          simp only [h₂.view]
          exact h₂.lockAll (hfree.of_balanced h.owner hold₂.balanced) taken₂

theorem moveNode {deep : Bool} (h : w.Without o w')
    (hplan : planMove source parent = .ok (.moveTo target))
    (hfree : w.Unhindered o (b.moveRefusals w source parent target deep)) :
    Alike o (b.moveNode w source parent deep) (b.moveNode w' source parent deep) := by
  have hlock := h.lockMove hfree
  simp only [Base.moveNode, hplan]
  generalize b.lockMove w source parent target deep = r at hlock
  generalize b.lockMove w' source parent target deep = r' at hlock
  obtain ⟨hlock, grant⟩ := hlock
  rename_i w₁ w₁'
  cases grant with
  | refused e => exact .intro hlock _
  | declined => exact .intro hlock _
  | granted taken =>
      simp only [hlock.context]
      cases hs : b.stageMove w₁.context source target with
      | error e => exact .intro (hlock.releasePartial taken) _
      | ok c => exact .intro (hlock.withContext (Base.restaged_stageMove hs).owner) _

end Without

theorem Alike.answering {α : Type} {r r' : Work × Except TreeError α} (h : Alike o r r')
    (make : α → Answer) : Alike o (answering make r) (answering make r') := by
  obtain ⟨h, r⟩ := h
  exact .intro h _

/-- **An operation does not notice locks of another owner that it is not refused.** -/
theorem Without.perform (h : w.Without o w') (op : Operation)
    (hfree : w.Unhindered o (b.refusals w op)) : Alike o (b.perform w op) (b.perform w' op) := by
  cases op with
  | get p key => exact (h.reading hfree _).answering _
  | getData p => exact (h.reading hfree _).answering _
  | getKeys p => exact (h.reading hfree _).answering _
  | getChildNames p => exact (h.reading hfree _).answering _
  | nodeExists p => exact (h.reading hfree _).answering _
  | put p key v => exact (h.writing hfree none _).answering _
  | putAll p d => exact (h.writing hfree () _).answering _
  | replaceAll p d => exact (h.writing hfree () _).answering _
  | removeKey p key => exact (h.writing hfree none _).answering _
  | clearData p => exact (h.writing hfree () _).answering _
  | removeNode p =>
      simp only [Base.refusals] at hfree
      simp only [Base.perform, Base.removeNode]
      split
      · rename_i hp
        rw [if_pos hp] at hfree
        exact (h.removeRoot hfree).answering _
      · rename_i hp
        rw [if_neg hp] at hfree
        exact (h.removeBelowRoot hfree).answering _
  | moveNode source parent deep =>
      simp only [Base.refusals] at hfree
      simp only [Base.perform]
      refine Alike.answering ?_ _
      split at hfree
      · rename_i hplan
        exact h.moveNode hplan hfree
      · rename_i hplan
        simp only [Base.moveNode]
        split
        · exact .intro h _
        · exact .intro h _
        · rename_i target htarget
          exact absurd htarget (hplan target)

end Work

end TransactionalTree
