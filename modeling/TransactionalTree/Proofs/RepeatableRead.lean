/-
**How far reads are repeatable.**

When reads are pinned, the first read of a node keeps a copy of it, or the mark that there is none.
A unit of work that only reads finds the copy again, whatever others commit in between — as long as
it has not looked at a place above and found nothing there: the mark above hides the copy.

Main definitions:

* `Operation.answer?` — what a read answers from the data seen;
* `Step.isQuietFor` — a step of others, or a step of a unit of work that only reads;
* `SharedTree.losesAbove` — **in a run, a unit of work looks above a path and finds nothing**.

Main results:

* `SharedTree.repeatable_read_unless_lost` — a later read of a node answers as the first would have,
  or that there is no node, if something above was found to be missing in between.
-/

import TransactionalTree.Proofs.Runs

set_option relaxedAutoImplicit false
set_option autoImplicit false

namespace TransactionalTree

/-! ### Reads and their answers -/

namespace Operation

/-- What a read of data answers when it sees these data; none for all other operations. -/
def answer? (o : Operation) (d : Option Data) : Option Answer :=
  match o with
  | get _ key => some (.value (d.bind (·.get? key)))
  | getData _ => some (.data d)
  | getKeys _ => some (.names (d.map (·.keySet)))
  | nodeExists _ => some (.flag d.isSome)
  | _ => none

end Operation

section Reads

variable {b : Base} {w : Work} {o : Operation} {p q : Path} {e : Entry}

/-- Without the option to lock, a read looks and answers from what it finds. -/
theorem reading_eq {α : Type} {answer : View → Location → α}
    (hforce : w.context.options.forceWriteLock = false) :
    b.reading w p answer =
      ((b.look w p).1, .ok (answer (b.view (b.look w p).1.context) (b.look w p).2)) := by
  simp [Base.reading, Base.prepareRead, hforce]

/-- Without the option to lock, a read does to the unit of work what looking does. -/
theorem perform_read (ho : o.readPath? = some p)
    (hforce : w.context.options.forceWriteLock = false) :
    (b.perform w o).1 = (b.look w p).1 := by
  have h := b.perform_outcome w o
  generalize b.perform w o = r at h
  cases h with
  | reading hq make answer =>
      obtain rfl := Option.some.inj (hq.symm.trans ho)
      simp only [answering, reading_eq hforce]
  | writing hq _ _ _ _ _ _ _ =>
      cases o <;> simp [Operation.readPath?, Operation.writePath?] at ho hq
  | removal q => simp [Operation.readPath?] at ho
  | move source parent deep => simp [Operation.readPath?] at ho

/-- Without the option to lock, a read of data answers from the data that are seen. -/
theorem answer_read {a : Answer} (ho : o.readPath? = some p)
    (ha : o.answer? ((b.view w.context).data? p) = some a)
    (hforce : w.context.options.forceWriteLock = false) : (b.perform w o).2 = .ok a := by
  obtain ⟨-, -, hl, hd⟩ := b.look_found w p
  have hdata : View.dataAt (b.look w p).2 = (b.view w.context).data? p := by
    rw [hl]
    exact hd
  have hpresent : (b.look w p).2.isPresent = ((b.view w.context).data? p).isSome := by
    rw [← hdata]
    cases (b.look w p).2 <;> rfl
  cases o with
  | get q key =>
      obtain rfl := Option.some.inj ho
      simp only [Base.perform, answering, Base.get, reading_eq hforce, Except.map, hdata]
      exact congrArg Except.ok (Option.some.inj ha)
  | getData q =>
      obtain rfl := Option.some.inj ho
      simp only [Base.perform, answering, Base.getData, reading_eq hforce, Except.map, hdata]
      exact congrArg Except.ok (Option.some.inj ha)
  | getKeys q =>
      obtain rfl := Option.some.inj ho
      simp only [Base.perform, answering, Base.getKeys, reading_eq hforce, Except.map, hdata]
      exact congrArg Except.ok (Option.some.inj ha)
  | nodeExists q =>
      obtain rfl := Option.some.inj ho
      simp only [Base.perform, answering, Base.nodeExists, reading_eq hforce, Except.map, hpresent]
      exact congrArg Except.ok (Option.some.inj ha)
  | _ => simp [Operation.answer?] at ha

/-- Pinned looking leaves the workspace alone where there is an entry or nothing can be seen, and
else adds a copy or a mark. -/
theorem look_cases (hr : b.isRepeatable = true) (w : Work) (q : Path) :
    (b.look w q).1.context =
      { w.context with workspace := (b.look w q).1.context.workspace } ∧
    (((b.look w q).1.context.workspace = w.context.workspace ∧
        ((∃ e, (b.view w.context).locate q = .staged e) ∨
          (b.view w.context).locate q = .hidden)) ∨
      (∃ n, (b.view w.context).locate q = .committed n ∧
        (b.look w q).1.context.workspace = w.context.workspace.insert q (b.copy q n)) ∨
      ((b.view w.context).locate q = .missing ∧
        (b.look w q).1.context.workspace = w.context.workspace.insert q .absent)) := by
  simp only [Base.look, if_pos hr]
  cases hl : (b.view w.context).locate q with
  | staged e => exact ⟨rfl, .inl ⟨rfl, .inl ⟨e, rfl⟩⟩⟩
  | committed n => exact ⟨rfl, .inr (.inl ⟨n, rfl, rfl⟩)⟩
  | missing => exact ⟨rfl, .inr (.inr ⟨rfl, rfl⟩)⟩
  | hidden => exact ⟨rfl, .inl ⟨rfl, .inr rfl⟩⟩

end Reads

/-! ### What is pinned -/

/-- The workspace has changed nothing, and what it says of `p` does not depend on the committed
tree: these data, or that there is no node. -/
structure Pinned (w : Workspace) (p : Path) (d : Option Data) : Prop where
  /-- Nothing is changed. -/
  clean : w.hasChanges = false
  /-- There is an entry, or `p` is cut off. -/
  settled : ∀ b : Base, (View.mk b w).isCutOff p = true ∨ ∃ e, w.get? p = some e
  /-- These data are seen. -/
  data : ∀ b : Base, (View.mk b w).data? p = d

namespace Pinned

variable {b : Base} {w : Workspace} {p q : Path} {d : Option Data} {e : Entry} {n : Node}

theorem clean_insert (h : w.hasChanges = false) (he : e.isDirty = false) :
    Workspace.hasChanges (w.insert q e) = false := by
  rw [← Bool.not_eq_true, Workspace.hasChanges_iff] at h ⊢
  rintro ⟨r, g, hg, hd⟩
  rw [SortedMap.get?_insert] at hg
  split at hg
  · obtain rfl := Option.some.inj hg
    rw [he] at hd
    simp at hd
  · exact h ⟨r, g, hg, hd⟩

theorem not_created (h : w.hasChanges = false) (he : w.get? q = some e) : e.created = false := by
  rw [← Bool.not_eq_true, Workspace.hasChanges_iff] at h
  rw [← Bool.not_eq_true]
  exact fun hc => h ⟨q, e, he, Entry.isDirty_iff.2 (.inr (.inl hc))⟩

/-- Without changes nothing is shadowed. -/
theorem not_isShadowed (h : w.hasChanges = false) : ¬(View.mk b w).isShadowed p = true := by
  rw [View.isShadowed_iff]
  rintro ⟨q, e, -, he, hc⟩
  rw [not_created h he] at hc
  simp at hc

/-- What is hidden without changes is cut off or marked as not there. -/
theorem of_hidden (h : w.hasChanges = false) (hl : (View.mk b w).locate q = .hidden) :
    (View.mk b w).isCutOff q = true ∨ ∃ e, w.get? q = some e ∧ e.isPresent = false := by
  by_cases hc : (View.mk b w).isCutOff q = true
  · exact .inl hc
  · right
    simp only [View.locate, if_neg hc] at hl
    cases he : w.get? q with
    | none =>
        simp only [he, if_neg (not_isShadowed h)] at hl
        split at hl <;> simp at hl
    | some e =>
        simp only [he] at hl
        refine ⟨e, rfl, ?_⟩
        by_contra hp
        rw [if_pos (by simpa using hp)] at hl
        simp at hl

theorem data?_of_isCutOff (h : (View.mk b w).isCutOff p = true) : (View.mk b w).data? p = none := by
  rw [View.data?, View.locate, if_pos h]
  rfl

/-- What is marked as not there has no data. -/
theorem data?_of_absent (he : w.get? p = some e) (hp : e.isPresent = false) :
    (View.mk b w).data? p = none := by
  by_cases hc : (View.mk b w).isCutOff p = true
  · exact data?_of_isCutOff hc
  · rw [View.data?, View.locate_of_entry hc he, if_neg (by simp [hp])]
    rfl

/-- A new entry uncovers nothing. -/
theorem isCutOff_insert (hq : w.get? q = none) (h : (View.mk b w).isCutOff p = true) :
    (View.mk b (w.insert q e)).isCutOff p = true := by
  obtain ⟨r, g, hr, hg, hp⟩ := View.isCutOff_iff.1 h
  have hrq : r ≠ q := by
    rintro rfl
    rw [hq] at hg
    simp at hg
  exact View.isCutOff_iff.2 ⟨r, g, hr, (SortedMap.get?_insert_of_ne hrq).trans hg, hp⟩

/-- A new entry elsewhere leaves what is settled. -/
theorem settled_insert (h : Pinned w p d) (hq : w.get? q = none)
    (hc : ¬(View.mk b w).isCutOff q = true) (b' : Base) :
    q ≠ p ∧ ((View.mk b' (w.insert q e)).isCutOff p = true ∨
      ∃ f, SortedMap.get? (w.insert q e) p = some f) := by
  have hqp : q ≠ p := by
    rintro rfl
    rcases h.settled b with hcut | ⟨f, hf⟩
    · exact hc hcut
    · rw [hq] at hf
      simp at hf
  refine ⟨hqp, ?_⟩
  rcases h.settled b' with hcut | ⟨f, hf⟩
  · exact .inl (isCutOff_insert hq hcut)
  · exact .inr ⟨f, (SortedMap.get?_insert_of_ne hqp.symm).trans hf⟩

/-- A copy that is added changes nothing of what is pinned. -/
theorem insert_copy (h : Pinned w p d) (hl : (View.mk b w).locate q = .committed n) :
    Pinned (w.insert q (b.copy q n)) p d := by
  obtain ⟨hc, hq, -, -⟩ := View.locate_eq_committed.1 hl
  have hsettled := h.settled_insert (e := b.copy q n) hq hc
  refine ⟨clean_insert h.clean rfl, fun b' => (hsettled b').2, fun b' => ?_⟩
  have hq' : w.get? q = none := hq
  rw [View.data?, View.locate_insert_of_ne (hsettled b').1.symm (by rw [hq']; rfl)
    (by rw [hq']; rfl)]
  exact h.data b'

/-- A mark that is added hides what is pinned below it, and changes nothing else. -/
theorem insert_absent (h : Pinned w p d) (hl : (View.mk b w).locate q = .missing) :
    Pinned (w.insert q .absent) p (if q.isAbove p then none else d) := by
  obtain ⟨hc, hq, -, -⟩ := View.locate_eq_missing.1 hl
  have hsettled := h.settled_insert (e := .absent) hq hc
  refine ⟨clean_insert h.clean rfl, fun b' => (hsettled b').2, fun b' => ?_⟩
  split
  · rename_i habove
    exact data?_of_isCutOff
      (View.isCutOff_iff.2 ⟨q, .absent, habove, SortedMap.get?_insert_self, rfl⟩)
  · rename_i habove
    have hnot : ¬p.isAtOrBelow q = true := by
      rw [Path.isAtOrBelow_iff]
      rintro (hpq | hpq)
      · exact (hsettled b').1 hpq.symm
      · exact habove hpq
    rw [View.data?, View.locate_insert_of_not hnot]
    exact h.data b'

/-- **A pinned look elsewhere** hides what is pinned if it looks above and finds nothing, and
changes nothing of it otherwise. -/
theorem look {m : LockManager} {c : Context} (h : Pinned c.workspace p d)
    (hr : b.isRepeatable = true) (q : Path) :
    Pinned (b.look ⟨m, c⟩ q).1.context.workspace p
      (if q.isAbove p && !(b.view c).exists? q then none else d) := by
  rcases (look_cases hr ⟨m, c⟩ q).2 with ⟨hw, ⟨e, hl⟩ | hl⟩ | ⟨n, hl, hw⟩ | ⟨hl, hw⟩
  · rw [hw, View.exists?, hl]
    simpa [Location.isPresent] using h
  · rw [hw, View.exists?, hl]
    simp only [Location.isPresent, Bool.not_false, Bool.and_true]
    split
    · rename_i habove
      -- what hides the place above hides `p` as well
      have hcut : ∀ b' : Base, (View.mk b' c.workspace).isCutOff p = true := by
        intro b'
        rcases of_hidden h.clean hl with hcut | ⟨e, he, hp⟩
        · exact View.isCutOff_of_isAbove habove hcut
        · exact View.isCutOff_iff.2 ⟨q, e, habove, he, hp⟩
      exact ⟨h.clean, h.settled, fun b' => data?_of_isCutOff (hcut b')⟩
    · exact h
  · rw [hw, View.exists?, hl]
    simpa [Location.isPresent] using h.insert_copy hl
  · rw [hw, View.exists?, hl]
    simpa [Location.isPresent] using h.insert_absent hl

/-- **The first pinned look** pins what is seen. -/
theorem of_look {m : LockManager} {c : Context} (h : c.workspace.hasChanges = false)
    (hr : b.isRepeatable = true) (p : Path) :
    Pinned (b.look ⟨m, c⟩ p).1.context.workspace p ((b.view c).data? p) := by
  -- what the look finds is an entry, a cut, a committed node that it copies, or an absence it marks
  rcases (look_cases hr ⟨m, c⟩ p).2 with ⟨hw, ⟨e, hl⟩ | hl⟩ | ⟨n, hl, hw⟩ | ⟨hl, hw⟩
  · obtain ⟨hc, he, hp⟩ := View.locate_eq_staged.1 hl
    rw [hw]
    refine ⟨h, fun _ => .inr ⟨e, he⟩, fun b' => ?_⟩
    have hl' : (View.mk b' c.workspace).locate p = .staged e :=
      View.locate_eq_staged.2 ⟨hc, he, hp⟩
    rw [View.data?, View.data?, hl', hl]
  · rw [hw]
    have hnone : (b.view c).data? p = none := by
      rw [View.data?, hl]
      rfl
    rw [hnone]
    rcases of_hidden h hl with hcut | ⟨e, he, hp⟩
    · exact ⟨h, fun _ => .inl hcut, fun _ => data?_of_isCutOff hcut⟩
    · exact ⟨h, fun _ => .inr ⟨e, he⟩, fun _ => data?_of_absent he hp⟩
  · obtain ⟨hc, -, -, -⟩ := View.locate_eq_committed.1 hl
    rw [hw]
    refine ⟨clean_insert h rfl, fun _ => .inr ⟨_, SortedMap.get?_insert_self⟩, fun b' => ?_⟩
    have hl' : (View.mk b' (c.workspace.insert p (b.copy p n))).locate p = .staged (b.copy p n) :=
      View.locate_insert_present hc rfl
    rw [View.data?, View.data?, hl', hl]
    rfl
  · rw [hw]
    refine ⟨clean_insert h rfl, fun _ => .inr ⟨_, SortedMap.get?_insert_self⟩, fun b' => ?_⟩
    rw [data?_of_absent SortedMap.get?_insert_self rfl, View.data?, hl]
    rfl

end Pinned

/-! ### Runs of a unit of work that only reads -/

/-- The step is not taken by this unit of work, or it is a read, or it sets options other than that
to lock what is read. -/
def Step.isQuietFor (step : Step) (name : String) : Bool :=
  match step with
  | .perform other o => other ≠ name || o.readPath?.isSome
  | .setOptions other options => other ≠ name || !options.forceWriteLock
  | .start other _ _ => other ≠ name
  | .commit other => other ≠ name
  | .rollback other => other ≠ name
  | .purge => true

/-- Where the unit of work looks in this step, if it is a read of its own. -/
def Step.lookPath? (name : String) : Step → Option Path
  | .perform other o => if other = name then o.readPath? else none
  | _ => none

namespace SharedTree

/-- In this step the unit of work looks at a place strictly above `p` and finds nothing there. -/
def findsNothingAbove (s : SharedTree) (name : String) (p : Path) : Step → Bool
  | .perform other o =>
      other = name && o.readPath?.any fun q =>
        q.isAbove p && (s.context? name).any fun c => !(s.store.base.view c).exists? q
  | _ => false

/-- **In this run the unit of work looks at a place strictly above `p` and finds nothing there.** -/
def losesAbove (s : SharedTree) (name : String) (p : Path) : List Step → Bool
  | [] => false
  | step :: steps => s.findsNothingAbove name p step || (s.take step).losesAbove name p steps

variable {s : SharedTree} {name : String} {c : Context} {p : Path} {d : Option Data}
variable {o o' : Operation} {step : Step} {steps : List Step}

theorem findsNothingAbove_eq (hc : s.context? name = some c) :
    s.findsNothingAbove name p step = (step.lookPath? name).any fun q =>
      q.isAbove p && !(s.store.base.view c).exists? q := by
  cases step with
  | perform other o =>
      by_cases hother : other = name
      · simp [findsNothingAbove, Step.lookPath?, hother, hc]
      · simp [findsNothingAbove, Step.lookPath?, hother]
  | _ => rfl

/-- The unit of work reads without locking, and has pinned these data. -/
structure HasPinned (s : SharedTree) (name : String) (p : Path) (d : Option Data) : Prop where
  /-- Reads are pinned. -/
  repeatable : s.store.base.isRepeatable = true
  /-- The unit of work has pinned these data. -/
  pinned : ∃ c, s.context? name = some c ∧ c.options.forceWriteLock = false ∧
    Pinned c.workspace p d

theorem isRepeatable_take (h : s.store.base.isRepeatable = true) (step : Step) :
    (s.take step).store.base.isRepeatable = true := by
  rw [Base.isRepeatable, Store.base, config_take]
  exact h

/-- **A quiet step** leaves the workspace of a unit of work that reads without locking, or looks
somewhere and does no more. -/
theorem take_quiet (hc : s.context? name = some c) (hforce : c.options.forceWriteLock = false)
    (hr : s.store.base.isRepeatable = true) (hq : step.isQuietFor name = true) :
    ∃ c', (s.take step).context? name = some c' ∧ c'.options.forceWriteLock = false ∧
      c'.workspace = (step.lookPath? name).elim c.workspace fun q =>
        (s.store.base.look ⟨s.store.locks, c⟩ q).1.context.workspace := by
  by_cases hactor : step.actor? = some name
  · cases step with
    | perform other o =>
        obtain rfl := Option.some.inj hactor
        obtain ⟨q, ho⟩ := Option.isSome_iff_exists.1
          (show o.readPath?.isSome = true by simpa [Step.isQuietFor] using hq)
        have hlook := perform_read (b := s.store.base) (w := ⟨s.store.locks, c⟩) ho hforce
        rw [take_perform hc]
        refine ⟨_, context?_perform, ?_, ?_⟩
        · rw [hlook, (look_cases hr ⟨s.store.locks, c⟩ q).1]
          exact hforce
        · rw [hlook]
          simp [Step.lookPath?, ho]
    | setOptions other options =>
        obtain rfl := Option.some.inj hactor
        refine ⟨{ c with options }, ?_, by simpa [Step.isQuietFor] using hq, rfl⟩
        simp only [SharedTree.take, hc]
        exact SortedMap.get?_insert_self
    | start other thread transaction =>
        obtain rfl := Option.some.inj hactor
        simp [Step.isQuietFor] at hq
    | commit other =>
        obtain rfl := Option.some.inj hactor
        simp [Step.isQuietFor] at hq
    | rollback other =>
        obtain rfl := Option.some.inj hactor
        simp [Step.isQuietFor] at hq
    | purge => simp [Step.actor?] at hactor
  · have hnone : step.lookPath? name = none := by
      cases step with
      | perform other o => exact if_neg fun he => hactor (congrArg some he)
      | _ => rfl
    refine ⟨c, (context?_take_of_ne hactor).trans hc, hforce, ?_⟩
    rw [hnone]
    rfl

/-- A quiet step keeps what is pinned, unless it finds nothing above. -/
theorem HasPinned.take (h : s.HasPinned name p d) (hq : step.isQuietFor name = true) :
    (s.take step).HasPinned name p (if s.findsNothingAbove name p step then none else d) := by
  obtain ⟨hr, c, hc, hforce, hp⟩ := h
  obtain ⟨c', hc', hforce', hw⟩ := take_quiet hc hforce hr hq
  refine ⟨isRepeatable_take hr step, c', hc', hforce', ?_⟩
  rw [hw, findsNothingAbove_eq hc]
  cases step.lookPath? name with
  | none => exact hp
  | some q => exact hp.look hr q

/-- A quiet run keeps what is pinned, unless it finds nothing above. -/
theorem HasPinned.run (h : s.HasPinned name p d)
    (hq : ∀ step ∈ steps, step.isQuietFor name = true) :
    (s.run steps).HasPinned name p (if s.losesAbove name p steps then none else d) := by
  induction steps generalizing s d with
  | nil => exact h
  | cons step steps ih =>
      have hstep := h.take (hq step List.mem_cons_self)
      have hrest := ih hstep fun step' hmem => hq step' (List.mem_cons_of_mem _ hmem)
      rw [run_cons, losesAbove]
      cases hf : s.findsNothingAbove name p step with
      | false => simpa [hf] using hrest
      | true => simpa [hf] using hrest

/-- A read answers from what is pinned. -/
theorem HasPinned.ask {a : Answer} (h : s.HasPinned name p d) (ho : o.readPath? = some p)
    (ha : o.answer? d = some a) : s.ask name o = some (.ok a) := by
  obtain ⟨-, c, hc, hforce, hp⟩ := h
  rw [SharedTree.ask, hc]
  refine congrArg some (answer_read ho ?_ hforce)
  rw [show (s.store.base.view c).data? p = d from hp.data s.store.base]
  exact ha

/-- **Reads are repeatable unless something above is lost.**  A unit of work that has changed
nothing reads a node, and then only reads while others do what they like.  If it finds a place above
the node missing in between, a later read says that there is no node; otherwise the later read
answers as it would have done at first. -/
theorem repeatable_read_unless_lost {a : Answer}
    (hiso : s.store.config.isolation = .repeatableRead) (hc : s.context? name = some c)
    (hclean : c.hasChanges = false) (hforce : c.options.forceWriteLock = false)
    (ho : o.readPath? = some p) (ho' : o'.readPath? = some p) (ha : o'.answer? none = some a)
    (hq : ∀ step ∈ steps, step.isQuietFor name = true) :
    ((s.take (.perform name o)).run steps).ask name o' =
      if (s.take (.perform name o)).losesAbove name p steps then some (.ok a)
      else s.ask name o' := by
  have hr : s.store.base.isRepeatable = true := by
    simp [Base.isRepeatable, Store.base, hiso]
  have hread := perform_read (b := s.store.base) (w := ⟨s.store.locks, c⟩) ho hforce
  have hfirst : (s.take (.perform name o)).HasPinned name p ((s.store.base.view c).data? p) := by
    refine ⟨isRepeatable_take hr _, _, by rw [take_perform hc]; exact context?_perform, ?_, ?_⟩
    · rw [hread, (look_cases hr ⟨s.store.locks, c⟩ p).1]
      exact hforce
    · rw [hread]
      exact .of_look hclean hr p
  have hlast := hfirst.run hq
  split
  · rename_i hlost
    rw [if_pos hlost] at hlast
    exact hlast.ask ho' ha
  · rename_i hlost
    rw [if_neg hlost] at hlast
    -- the first answer is made from the same data
    obtain ⟨a', ha'⟩ : ∃ a', o'.answer? ((s.store.base.view c).data? p) = some a' := by
      cases o' with
      | get q key => exact ⟨_, rfl⟩
      | getData q => exact ⟨_, rfl⟩
      | getKeys q => exact ⟨_, rfl⟩
      | nodeExists q => exact ⟨_, rfl⟩
      | _ => simp [Operation.answer?] at ha
    rw [hlast.ask ho' ha', ask, hc]
    exact (congrArg some (answer_read (w := ⟨s.store.locks, c⟩) ho' ha' hforce)).symm

/-- One transaction makes `/r/q`; another one has read it, and so holds a copy. -/
def pinnedState : SharedTree :=
  (ofConfig {}).run
    [.start "s" ⟨"main", 0⟩ (some (1 : Nat)), .start "t" ⟨"main", 0⟩ (some (2 : Nat)),
      .perform "s" (.put ⟨["r", "q"]⟩ "k" (.int 1)), .commit "s"]

/-- The first transaction removes `/r`, and the other one looks there. -/
def losingSteps : List Step :=
  [.perform "s" (.removeNode ⟨["r"]⟩), .commit "s", .perform "t" (.nodeExists ⟨["r"]⟩)]

/-- The second read no longer finds the node that the first one has found. -/
theorem read_lost :
    ((pinnedState.take (.perform "t" (.get ⟨["r", "q"]⟩ "k"))).run losingSteps).ask "t"
      (.get ⟨["r", "q"]⟩ "k") = some (.ok (.value none)) :=
  (repeatable_read_unless_lost (s := pinnedState) (c := (pinnedState.context? "t").getD default)
    (by decide +kernel) (by decide +kernel) (by decide +kernel) (by decide +kernel) rfl rfl rfl
    (by decide +kernel)).trans (if_pos (by decide +kernel))

/-- Not all reads are repeatable: the first read of `/r/q` answers the value, and the second that
there is none. -/
theorem not_repeatable_read :
    ¬∀ (s : SharedTree) (name : String) (c : Context) (o : Operation) (p : Path)
      (steps : List Step), s.Reachable → s.store.config.isolation = .repeatableRead →
      s.context? name = some c → c.hasChanges = false → c.options.forceWriteLock = false →
      o.readPath? = some p → (o.answer? none).isSome = true →
      (∀ step ∈ steps, step.isQuietFor name = true) →
      ((s.take (.perform name o)).run steps).ask name o = s.ask name o := by
  intro h
  have hsame := h pinnedState "t" ((pinnedState.context? "t").getD default)
    (.get ⟨["r", "q"]⟩ "k") ⟨["r", "q"]⟩ losingSteps ⟨{}, _, _, rfl⟩ (by decide +kernel)
    (by decide +kernel) (by decide +kernel) (by decide +kernel) rfl rfl (by decide +kernel)
  have hfirst : pinnedState.ask "t" (.get ⟨["r", "q"]⟩ "k") =
      some (.ok (.value (some (.int 1)))) := by
    decide +kernel
  have hsecond : ((pinnedState.take (.perform "t" (.get ⟨["r", "q"]⟩ "k"))).run losingSteps).ask "t"
      (.get ⟨["r", "q"]⟩ "k") = some (.ok (.value none)) := by
    decide +kernel
  rw [hfirst, hsecond] at hsame
  simp at hsame

end SharedTree

end TransactionalTree
