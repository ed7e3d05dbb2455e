/-
**Following one unit of work through a run.**

A step leaves a unit of work with the workspace that it had, unless it is an operation of its own,
or the unit of work begins or ends with it.

Main definitions:

* `SharedTree.Leaving` — how a step leaves the unit of work of a name;
* `SharedTree.goesOn` — the unit of work neither begins nor ends with a step.

Main results:

* `SharedTree.leaving_take`, `SharedTree.leaving_takeShared` — **there is no other way**;
* `SharedTree.following_take`, `SharedTree.following_run` — what its own operations keep is kept for
  as long as it goes on.
-/

import TransactionalTree.Proofs.Accounts

set_option relaxedAutoImplicit false
set_option autoImplicit false

namespace TransactionalTree

/-- Whether a unit of work of this name begins with the step. -/
def Step.begins (name : String) : Step → Bool
  | start other _ _ => other = name
  | _ => false

namespace SharedTree

/-- How a step leaves the unit of work of a name. -/
inductive Leaving (s : SharedTree) (name : String) (step : Step) : Context → Prop
  /-- With the workspace and the locks that it had. -/
  | kept {c c' : Context} (hc : s.context? name = some c) (hw : c'.workspace = c.workspace)
      (hl : c'.locked = c.locked) : Leaving s name step c'
  /-- As an operation of its own has made it. -/
  | performed {c : Context} {o : Operation} (hc : s.context? name = some c)
      (hstep : step = .perform name o) :
      Leaving s name step (s.store.base.perform ⟨s.store.locks, c⟩ o).1.context
  /-- Without entries and locks, since it begins or has ended. -/
  | fresh {c' : Context} (hw : c'.workspace = .empty) (hl : c'.locked = .empty)
      (h : step.begins name = true ∨ s.ends name step = true) : Leaving s name step c'

variable {s : SharedTree} {name : String} {c c' : Context} {step : Step} {steps : List Step}

/-- A commit that succeeds leaves nothing of the unit of work, and one that fails leaves all. -/
theorem leaving_commit (hacc : Work.Accounted ⟨s.store.locks, c⟩)
    (hc : s.context? name = some c) :
    Leaving s name (.commit name) (s.store.commit c).context := by
  have hends : (s.store.commit c).result = .ok () → s.ends name (.commit name) = true := by
    intro hok
    simp [ends, hc, commit, finish, hok, Except.isOk, Except.toBool]
  have ho := Store.commit_outcome s.store c
  generalize s.store.commit c = e at ho hends
  cases ho with
  | idle _ => exact .fresh rfl rfl (.inr (hends (Store.conclude_settled hacc _ _).1))
  | refused _ _ => exact .kept hc rfl rfl
  | torn _ _ _ => exact .kept hc rfl rfl
  | merged _ _ _ =>
      exact .fresh rfl rfl (.inr (hends (Store.conclude_settled
        (s := { s.store with tree := (s.store.merge c).tree }) hacc _ _).1))

/-- **How a step leaves a unit of work** whose locks are all accounted for. -/
theorem leaving_of_accounted
    (hacc : ∀ c, s.context? name = some c → Work.Accounted ⟨s.store.locks, c⟩)
    (hc' : (s.take step).context? name = some c') : Leaving s name step c' := by
  by_cases hactor : step.actor? = some name
  · cases step with
    | start other thread transaction =>
        obtain rfl := Option.some.inj hactor
        simp only [take] at hc'
        split at hc'
        · exact .kept hc' rfl rfl
        · obtain rfl := Option.some.inj (SortedMap.get?_insert_self.symm.trans hc')
          exact .fresh rfl rfl (.inl (by simp [Step.begins]))
    | setOptions other options =>
        obtain rfl := Option.some.inj hactor
        obtain ⟨d, hd, hd'⟩ := of_context?_elim hc'
        obtain rfl := Option.some.inj (SortedMap.get?_insert_self.symm.trans hd')
        exact .kept hd rfl rfl
    | perform other o =>
        obtain rfl := Option.some.inj hactor
        obtain ⟨d, hd, hd'⟩ := of_context?_elim hc'
        obtain rfl := Option.some.inj (context?_perform.symm.trans hd')
        exact .performed hd rfl
    | commit other =>
        obtain rfl := Option.some.inj hactor
        obtain ⟨d, hd, hd'⟩ := of_context?_elim hc'
        obtain rfl := Option.some.inj (SortedMap.get?_insert_self.symm.trans hd')
        exact leaving_commit (hacc d hd) hd
    | rollback other =>
        obtain rfl := Option.some.inj hactor
        obtain ⟨d, hd, hd'⟩ := of_context?_elim hc'
        obtain rfl := Option.some.inj (SortedMap.get?_insert_self.symm.trans hd')
        exact .fresh rfl rfl (.inr (by simp [ends, hd]))
    | purge => simp [Step.actor?] at hactor
  · rw [context?_take_of_ne hactor] at hc'
    exact .kept hc' rfl rfl

/-- **How a step leaves a unit of work.** -/
theorem leaving_take (h : s.Settled) (hc' : (s.take step).context? name = some c') :
    Leaving s name step c' :=
  leaving_of_accounted (fun _ hc => h.accounted hc) hc'

/-- How a step leaves a unit of work that may have its owner in common with others. -/
theorem leaving_takeShared (h : s.Booked) (hc' : (s.takeShared step).context? name = some c') :
    Leaving s name step c' := by
  have htake : ∀ {step : Step}, (s.take step).context? name = some c' → Leaving s name step c' :=
    leaving_of_accounted fun _ hc => h.accounted hc
  cases step with
  | start other thread transaction =>
      simp only [takeShared] at hc'
      split at hc'
      · exact .kept hc' rfl rfl
      · rw [context?, start, SortedMap.get?_insert] at hc'
        split at hc'
        · rename_i hname
          obtain rfl := Option.some.inj hc'
          exact .fresh rfl rfl (.inl (by simp [Step.begins, hname]))
        · exact .kept hc' rfl rfl
  | setOptions _ _ => exact htake hc'
  | perform _ _ => exact htake hc'
  | commit _ => exact htake hc'
  | rollback _ => exact htake hc'
  | purge => exact htake hc'

/-! ### As long as it goes on -/

/-- **The unit of work goes on** over the step: it neither begins nor ends with it. -/
def goesOn (s : SharedTree) (name : String) (step : Step) : Bool :=
  !step.begins name && !s.ends name step

/-- The unit of work goes on over all the listed steps. -/
def goesOnThroughout (s : SharedTree) (name : String) : List Step → Bool
  | [] => true
  | step :: steps => s.goesOn name step && (s.take step).goesOnThroughout name steps

/-- **What a step leaves of the workspace** as long as the unit of work goes on: all of it, or what
an operation of its own makes of it. -/
theorem following_take {P : Workspace → Prop} (h : s.Settled) (hgo : s.goesOn name step = true)
    (hkeep : ∀ c o, s.context? name = some c → step = .perform name o → P c.workspace →
      P (s.store.base.perform ⟨s.store.locks, c⟩ o).1.context.workspace)
    (hP : ∀ c, s.context? name = some c → P c.workspace)
    (hc' : (s.take step).context? name = some c') : P c'.workspace := by
  cases leaving_take h hc' with
  | kept hold hw _ =>
      rw [hw]
      exact hP _ hold
  | performed hold hstep => exact hkeep _ _ hold hstep (hP _ hold)
  | fresh _ _ hnot =>
      -- it goes on, so it is not left empty
      rw [goesOn, Bool.and_eq_true, Bool.not_eq_true', Bool.not_eq_true'] at hgo
      rcases hnot with hbegins | hends
      · rw [hbegins] at hgo
        simp at hgo
      · rw [hends] at hgo
        simp at hgo

/-- **What its own operations keep of the workspace is kept** for as long as the unit of work goes
on. -/
theorem following_run {P : Workspace → Prop} (hs : s.Sane) (h : s.Settled)
    (hkeep : ∀ (b : Base) (u : Work) (o : Operation), b.tree.Sound → u.context.workspace.Tidy →
      P u.context.workspace → P (b.perform u o).1.context.workspace)
    (hgo : s.goesOnThroughout name steps = true)
    (hP : ∀ c, s.context? name = some c → P c.workspace)
    (hc' : (s.run steps).context? name = some c') : P c'.workspace := by
  induction steps generalizing s with
  | nil => exact hP c' hc'
  | cons step steps ih =>
      rw [goesOnThroughout, Bool.and_eq_true] at hgo
      exact ih (hs.take step) (h.take step) hgo.2 (fun _ hc => following_take h hgo.1
        (fun c o hold _ => hkeep _ ⟨s.store.locks, c⟩ o hs.sound (hs.tidy hold)) hP hc) hc'

end SharedTree

end TransactionalTree
