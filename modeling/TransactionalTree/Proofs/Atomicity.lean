/-
**When a commit is all or nothing.**

The check that precedes a merge looks at each entry by itself: a node that is made needs a node
above it, a node that is written has to be there.  The merge walks the entries in order and, where a
node was replaced, takes everything below it away.  An entry that counts on a committed node below
such a place passes the check and finds nothing when its turn comes.  These entries are the only way
in which a commit can leave a part of its changes behind.

Main definitions:

* `Workspace.isStranded`, `Workspace.hasStranded` — entries whose support the merge takes away;
* `Store.Torn` — the check passes although there is such an entry.

Main results:

* `Store.merge_isOk_iff` — after the check a merge fails exactly if an entry is stranded;
* `SharedTree.commit_all_or_nothing_unless_torn` — **a commit that fails has changed nothing, unless
  it is torn; a torn one fails and has changed the tree**.
-/

import TransactionalTree.Proofs.Runs

set_option relaxedAutoImplicit false
set_option autoImplicit false

namespace TransactionalTree

/-! ### Stranded entries -/

/-- Where the entry for `p` needs a node when it is merged: above it if the node is made, else at
its path. -/
def Entry.support? (e : Entry) (p : Path) : Option Path := if e.created then p.parent? else some p

namespace Workspace

/-- Some node strictly above `p` is replaced. -/
def isReplacedAbove (w : Workspace) (p : Path) : Bool :=
  p.ancestors.any fun q => (w.get? q).any fun e => e.created && e.replacesBase

/-- **The entry for `p` is stranded**: the node that it needs is a committed one, and the merge
takes it away because some node above is replaced. -/
def isStranded (w : Workspace) (p : Path) (e : Entry) : Bool :=
  !e.removed && (e.support? p).any fun r => !(w.get? r).any (·.created) && w.isReplacedAbove r

/-- Some entry is stranded. -/
def hasStranded (w : Workspace) : Bool := w.dirty.any fun a => w.isStranded a.1 a.2

variable {w : Workspace} {p q r : Path} {e g : Entry} {name : String}

theorem isReplacedAbove_iff : w.isReplacedAbove p = true ↔
    ∃ q e, q.isAbove p = true ∧ w.get? q = some e ∧ e.created = true ∧ e.replacesBase = true := by
  simp only [isReplacedAbove, List.any_eq_true, Path.mem_ancestors, Option.any_eq_true,
    Bool.and_eq_true]
  constructor
  · rintro ⟨q, hq, e, he, h⟩
    exact ⟨q, e, hq, he, h⟩
  · rintro ⟨q, e, hq, he, h⟩
    exact ⟨q, hq, e, he, h⟩

namespace Tidy

/-- Above a place that has an entry at or below it, what is cleared is what is replaced: nothing
there is removed. -/
theorem clearedAbove_eq (h : w.Tidy) (he : w.get? p = some e) (hp : p.isAtOrBelow r = true) :
    clearedAbove w.dirty r = w.isReplacedAbove r := by
  rw [Bool.eq_iff_iff, clearedAbove_iff, isReplacedAbove_iff]
  constructor
  · rintro ⟨q, g, hmem, hq, hrep⟩
    have hg := (mem_dirty.1 hmem).1
    rcases h.mergeable.replaces q g hmem hrep with hrem | hc
    · have hnone := h.below_removed hg hrem (Path.isAbove_trans_isAtOrBelow hq hp)
      rw [he] at hnone
      simp at hnone
    · exact ⟨q, g, hq, hg, hc, hrep⟩
  · rintro ⟨q, g, hq, hg, hc, hrep⟩
    exact ⟨q, g, mem_dirty.2 ⟨hg, Entry.isDirty_iff.2 (.inr (.inl hc))⟩, hq, hrep⟩

/-- What the entry of a node that is made is merged to. -/
theorem outcome_created {f : Path → Option Data} (hg : w.get? r = some g) (hc : g.created = true)
    (hr : g.removed = false) : (outcome f w.dirty r).isSome = true := by
  have hd : g.isDirty = true := Entry.isDirty_iff.2 (.inr (.inl hc))
  have hlookup : w.dirty.lookup r = some g := by
    rw [Workspace.lookup_dirty, hg]
    simp [Option.filter, hd]
  simp only [outcome, hlookup, mergedData, hr, hc, Bool.false_eq_true, if_false, if_true]
  by_cases hrep : g.replacesBase = true
  · rw [if_pos hrep]
    rfl
  · rw [if_neg hrep]
    rfl

/-- Where nothing is made or removed, there is a node after the merge exactly if there was one and
nothing above it is cleared. -/
theorem outcome_kept {f : Path → Option Data}
    (h : ∀ g, w.get? r = some g → g.created = false ∧ g.removed = false) :
    (outcome f w.dirty r).isSome = (!clearedAbove w.dirty r && (f r).isSome) := by
  have hkept : (if clearedAbove w.dirty r = true then none else f r).isSome =
      (!clearedAbove w.dirty r && (f r).isSome) := by
    cases clearedAbove w.dirty r <;> simp
  simp only [outcome]
  cases hl : w.dirty.lookup r with
  | none => exact hkept
  | some g =>
      rw [Workspace.lookup_dirty] at hl
      obtain ⟨hc, hr⟩ := h g (Option.filter_eq_some_iff.1 hl).1
      rw [← hkept]
      simp only [mergedData, hc, hr, Bool.false_eq_true, if_false, if_true]
      by_cases hch : g.changed = true
      · rw [if_pos hch, Option.isSome_map]
      · rw [if_neg hch]

end Tidy

end Workspace

/-! ### When a merge goes through after the check -/

namespace Store

variable {s : Store} {c : Context} {p q : Path} {e : Entry}

/-- The check has passed, although an entry is stranded. -/
def Torn (s : Store) (c : Context) : Prop :=
  s.base.conflicts c s.config.writeSkewCheckActive = [] ∧ c.workspace.hasStranded = true

instance (s : Store) (c : Context) : Decidable (s.Torn c) := by
  unfold Torn
  infer_instance

/-- A place above an entry that the check has found present has a node after the merge if the node
is made, or no node above it is replaced. -/
theorem outcome_of_parentPresent (hc : c.workspace.Tidy) (hget : c.workspace.get? p = some e)
    (hp : p.isAtOrBelow q = true) (hpar : s.base.parentPresent c q = true) :
    (outcome s.tree.data? c.workspace.dirty q).isSome = true ↔
      (c.workspace.get? q).any (·.created) = true ∨ c.workspace.isReplacedAbove q = false := by
  simp only [Base.parentPresent, Context.entry?] at hpar
  by_cases hany : (c.workspace.get? q).any (·.created) = true
  · obtain ⟨g, hg, hgc⟩ := (Option.any_eq_true _ _).1 hany
    have hgr := (hc.consistent hg).exclusive hgc
    simp [hany, Workspace.Tidy.outcome_created hg hgc hgr]
  · have hnot : ∀ g, c.workspace.get? q = some g → g.created = false ∧ g.removed = false := by
      intro g hg
      have hgc : g.created = false := by simpa [hg] using hany
      refine ⟨hgc, ?_⟩
      simp only [hg, hgc, Bool.false_eq_true, if_false, Bool.and_eq_true] at hpar
      exact (Entry.isPresent_iff.1 hpar.1).1
    have hex : s.tree.exists? q = true := by
      cases hg : c.workspace.get? q with
      | none =>
          rw [hg] at hpar
          exact hpar
      | some g =>
          simp only [hg, (hnot g hg).1, Bool.false_eq_true, if_false, Bool.and_eq_true] at hpar
          exact hpar.2
    rw [Workspace.Tidy.outcome_kept hnot, hc.clearedAbove_eq hget hp,
      CommittedTree.isSome_data?, hex]
    simp [hany]

/-- **An entry that passed the check has something to land on exactly if it is not stranded.** -/
theorem supported_iff (hc : c.workspace.Tidy)
    (hno : s.base.structureConflicts c = []) (hmem : (p, e) ∈ c.workspace.dirty) :
    Supported s.tree.data? c.workspace.dirty p e ↔ c.workspace.isStranded p e = false := by
  obtain ⟨hget, hdirty⟩ := Workspace.mem_dirty.1 hmem
  simp only [Supported, Workspace.isStranded]
  cases hr : e.removed with
  | true => simp
  | false =>
      have hcheck : s.base.structureConflict c p e = none := by
        have := List.filterMap_eq_nil_iff.1 hno (p, e) hmem
        simpa [hr] using this
      simp only [Base.structureConflict] at hcheck
      simp only [Bool.false_eq_true, false_or, Entry.support?, Bool.not_false, Bool.true_and]
      by_cases hcr : e.created = true
      · -- a node that is made: look at the place above it
        simp only [if_pos hcr] at hcheck ⊢
        cases p using Path.rootOrPush with
        | root =>
            have := (hc.root hget).1
            rw [hcr] at this
            simp at this
        | push r name =>
            simp only [Path.parent?_push, Option.bind_some, ite_eq_left_iff, reduceCtorEq,
              imp_false, not_not] at hcheck
            have hiff : (∃ r' name', r.push name = r'.push name' ∧
                (outcome s.tree.data? c.workspace.dirty r').isSome = true) ↔
                (outcome s.tree.data? c.workspace.dirty r).isSome = true := by
              constructor
              · rintro ⟨r', name', hp, h⟩
                rwa [(Path.push_inj.1 hp).1]
              · exact fun h => ⟨r, name, rfl, h⟩
            have hbelow : (r.push name).isAtOrBelow r = true :=
              Path.isAtOrBelow_of_isAbove (Path.isAbove_push_self r name)
            rw [hiff, Path.parent?_push, Option.any_some,
              outcome_of_parentPresent hc hget hbelow hcheck]
            cases (c.workspace.get? r).any (·.created) <;> simp
      · -- a node that is written: it has to be there still
        have hch : e.changed = true := by
          rcases Entry.isDirty_iff.1 hdirty with h | h | h
          · exact h
          · exact absurd h hcr
          · rw [hr] at h
            simp at h
        simp only [if_neg hcr, ite_eq_left_iff, reduceCtorEq, imp_false, not_not] at hcheck ⊢
        have hex : s.tree.exists? p = true := hcheck
        rw [hc.clearedAbove_eq hget (Path.isAtOrBelow_self p), CommittedTree.isSome_data?, hex]
        simp [hch, hget, hcr]

/-- The check for write skew can only add to what is in the way. -/
theorem structureConflicts_eq_nil {skewCheck : Bool} (h : s.base.conflicts c skewCheck = []) :
    s.base.structureConflicts c = [] := (List.append_eq_nil_iff.1 h).2

/-- **After the check a merge fails exactly if an entry is stranded.** -/
theorem merge_isOk_iff (hs : s.tree.Sound) (hc : c.workspace.Tidy)
    (hno : s.base.structureConflicts c = []) :
    (∃ events, (s.merge c).events = .ok events) ↔ c.workspace.hasStranded = false := by
  rw [merge_isOk_iff_supported hs hc, Workspace.hasStranded, List.any_eq_false]
  constructor
  · intro h a ha
    rw [Bool.not_eq_true]
    exact (supported_iff hc hno ha).1 (h a.1 a.2 ha)
  · intro h p e hmem
    refine (supported_iff hc hno hmem).2 ?_
    have hnot := h (p, e) hmem
    simpa using hnot

/-- A merge that fails after the check has replaced a node before. -/
theorem merge_changes_tree (hs : s.tree.Sound) (hc : c.workspace.Tidy)
    (hno : s.base.structureConflicts c = [])
    (hnot : ¬∃ events, (s.merge c).events = .ok events) :
    ∃ p, (s.merge c).tree.peek? p ≠ s.tree.peek? p := by
  obtain ⟨hslots, hnext⟩ := stamp_tree s c
  have hstart := hs.of_slots hslots hnext
  rw [merge_eq] at hnot ⊢
  obtain ⟨before, p, e, after, heq, htree, hok, hsup⟩ :=
    mergeAll_failed hstart hc.mergeable hnot
  have hmem : (p, e) ∈ c.workspace.dirty := by
    rw [heq]
    exact List.mem_append_right _ List.mem_cons_self
  -- the entry that failed is stranded: a node above it is replaced
  have hstr : c.workspace.isStranded p e = true := by
    rw [data?_stamp, supported_iff hc hno hmem] at hsup
    simpa using hsup
  simp only [Workspace.isStranded, Bool.and_eq_true] at hstr
  obtain ⟨r, hr, hany⟩ := (Option.any_eq_true _ _).1 hstr.2
  rw [Bool.and_eq_true] at hany
  obtain ⟨q, g, hqr, hg, hgc, hgrep⟩ := Workspace.isReplacedAbove_iff.1 hany.2
  have hgr := (hc.consistent hg).exclusive hgc
  have hrp : p.isAtOrBelow r = true := by
    simp only [Entry.support?] at hr
    split at hr
    · obtain ⟨name, rfl⟩ := Path.parent?_eq_some.1 hr
      exact Path.isAtOrBelow_of_isAbove (Path.isAbove_push_self r name)
    · obtain rfl := Option.some.inj hr
      exact Path.isAtOrBelow_self p
  -- that node comes before the entry, so it has been merged
  have hgmem : (q, g) ∈ c.workspace.dirty :=
    Workspace.mem_dirty.2 ⟨hg, Entry.isDirty_iff.2 (.inr (.inl hgc))⟩
  have hmergeable := hc.mergeable
  rw [heq] at hgmem hmergeable
  have hbefore := hmergeable.mem_before (Path.isAbove_trans_isAtOrBelow hqr hrp) hgmem
  obtain ⟨n, hn, hle⟩ := mergeAll_replaced hstart hmergeable.of_append hok hbefore hgr hgc hgrep
  refine ⟨q, fun hsame => ?_⟩
  rw [htree, hn] at hsame
  have hlt := hs.id_lt_of_peek? hsame.symm
  rw [hnext] at hle
  omega

end Store

/-! ### Failures of a merge -/

/-- The failure is that of releasing a lock that was not held. -/
def TreeError.isIllegalRelease : TreeError → Bool
  | illegalRelease _ _ => true
  | _ => false

section Failures

variable {t : CommittedTree} {v : Version} {o : Origin} {p : Path} {d : Data} {e : Entry}
variable {err : TreeError}

theorem remove_error (h : t.remove p v = .error err) : err.isIllegalRelease = false := by
  simp only [CommittedTree.remove] at h
  split at h
  · obtain rfl := by simpa using h
    rfl
  · split at h <;> simp at h

theorem install_error (h : t.install p d v = .error err) : err.isIllegalRelease = false := by
  simp only [CommittedTree.install] at h
  split at h
  · obtain rfl := by simpa using h
    rfl
  · split at h
    · simp at h
    · obtain rfl := by simpa using h
      rfl

theorem update_error (h : t.update p d v = .error err) : err.isIllegalRelease = false := by
  simp only [CommittedTree.update] at h
  split at h
  · obtain rfl := by simpa using h
    rfl
  · simp at h

theorem mergeRemoval_error (h : mergeRemoval t v o p e = .error err) :
    err.isIllegalRelease = false := by
  simp only [mergeRemoval] at h
  split at h
  · split at h
    · rename_i hr
      obtain rfl := by simpa using h
      exact remove_error hr
    · simp at h
    · simp at h
  · simp at h

theorem mergeReplacement_error (h : mergeReplacement t v o p e = .error err) :
    err.isIllegalRelease = false := by
  simp only [mergeReplacement] at h
  split at h
  · rename_i hi
    obtain rfl := by simpa using h
    exact install_error hi
  · simp at h

theorem mergeCreation_error (h : mergeCreation t v o p e = .error err) :
    err.isIllegalRelease = false := by
  simp only [mergeCreation] at h
  split at h
  · split at h
    · split at h
      · rename_i hu
        obtain rfl := by simpa using h
        exact update_error hu
      · simp at h
    · simp at h
  · split at h
    · rename_i hi
      obtain rfl := by simpa using h
      exact install_error hi
    · simp at h

theorem mergeUpdate_error (h : mergeUpdate t v o p e = .error err) :
    err.isIllegalRelease = false := by
  simp only [mergeUpdate] at h
  split at h
  · rename_i hu
    obtain rfl := by simpa using h
    exact update_error hu
  · simp at h

/-- A merge never fails for a lock. -/
theorem mergeEntry_error (h : mergeEntry t v o p e = .error err) :
    err.isIllegalRelease = false := by
  simp only [mergeEntry] at h
  split at h
  · exact mergeRemoval_error h
  · split at h
    · split at h
      · exact mergeReplacement_error h
      · exact mergeCreation_error h
    · split at h
      · exact mergeUpdate_error h
      · simp at h

theorem mergeAll_error {es : List (Path × Entry)} (h : (mergeAll t v o es).events = .error err) :
    err.isIllegalRelease = false := by
  induction es generalizing t with
  | nil => simp [mergeAll] at h
  | cons a es ih =>
      simp only [mergeAll] at h
      split at h
      · rename_i hm
        obtain rfl := by simpa using h
        exact mergeEntry_error hm
      · rename_i t₁ events hm
        cases hrest : (mergeAll t₁ v o es).events with
        | error err' =>
            simp only [hrest, Except.map, Except.error.injEq] at h
            obtain rfl := h
            exact ih hrest
        | ok _ => simp [hrest, Except.map] at h

end Failures

/-- Releasing fails only for a lock that was not held. -/
theorem releaseEach_error {m : LockManager} {o : Owner} {ps : List Path} {err : TreeError}
    (h : (Work.releaseEach m o ps).2 = .error err) : err.isIllegalRelease = true := by
  induction ps generalizing m with
  | nil => simp [Work.releaseEach] at h
  | cons p ps ih =>
      simp only [Work.releaseEach] at h
      split at h
      · exact ih h
      · rename_i hr
        obtain rfl := by simpa using h
        simp only [LockManager.releaseFor] at hr
        split at hr
        · simp at hr
        · obtain ⟨-, rfl⟩ := by simpa using hr
          rfl

/-- When a unit of work is concluded, only the release of its locks can fail. -/
theorem Store.conclude_error {s : Store} {c : Context} {committed : Bool} {sent : List Delivery}
    {err : TreeError} (h : (s.conclude c committed sent).result = .error err) :
    err.isIllegalRelease = true :=
  releaseEach_error h

/-! ### All or nothing -/

namespace SharedTree

variable {s : SharedTree} {name : String} {c : Context}

/-- **A commit that fails has changed nothing, unless it is torn.**  A commit is torn when the check
passes although an entry counts on a committed node below one that the same merge replaces; it then
fails after it has replaced that node. -/
theorem commit_all_or_nothing_unless_torn (hs : s.Reachable) (hc : s.context? name = some c) :
    (¬s.store.Torn c → ∀ err, (s.commit name c).2 = .error err → err.isIllegalRelease = false →
      (s.commit name c).1.store.tree = s.store.tree) ∧
    (s.store.Torn c → (∃ err, (s.commit name c).2 = .error err ∧ err.isIllegalRelease = false) ∧
      ∃ p, (s.commit name c).1.store.tree.peek? p ≠ s.store.tree.peek? p) := by
  have hsound := hs.sane.sound
  have htidy := hs.sane.tidy hc
  have ho := Store.commit_outcome s.store c
  simp only [commit, finish]
  generalize s.store.commit c = e at ho
  cases ho with
  | idle h =>
      refine ⟨fun _ err herr hrel => ?_, fun htorn => ?_⟩
      · rw [Store.conclude_error herr] at hrel
        simp at hrel
      · obtain ⟨a, ha, -⟩ := List.any_eq_true.1 htorn.2
        have hget := Workspace.mem_dirty.1 ha
        have hyes : c.hasChanges = true := Workspace.hasChanges_iff.2 ⟨a.1, a.2, hget.1, hget.2⟩
        rw [h] at hyes
        simp at hyes
  | refused h hx =>
      refine ⟨fun _ err _ _ => rfl, fun htorn => ?_⟩
      have hno := htorn.1
      rw [hx] at hno
      simp at hno
  | @torn err h hx hm =>
      have hno := Store.structureConflicts_eq_nil hx
      have hnot : ¬∃ events, (s.store.merge c).events = .ok events := by
        rintro ⟨events, hok⟩
        rw [hm] at hok
        simp at hok
      have hstr : c.workspace.hasStranded = true := by
        rw [Store.merge_isOk_iff hsound htidy hno] at hnot
        simpa using hnot
      refine ⟨fun hn => absurd ⟨hx, hstr⟩ hn, fun _ => ⟨⟨err, rfl, ?_⟩, ?_⟩⟩
      · rw [Store.merge_eq] at hm
        exact mergeAll_error hm
      · exact Store.merge_changes_tree hsound htidy hno hnot
  | merged h hx hm =>
      have hno := Store.structureConflicts_eq_nil hx
      refine ⟨fun _ err herr hrel => ?_, fun htorn => ?_⟩
      · rw [Store.conclude_error herr] at hrel
        simp at hrel
      · have hfalse := (Store.merge_isOk_iff hsound htidy hno).1 ⟨_, hm⟩
        rw [htorn.2] at hfalse
        simp at hfalse

/-- The first transaction makes `/r/q/x`, removes `/r`, and makes `/r/q/x` again.  The second has
looked at `/r/q` and `/r/q/x` at first and at `/r` when it was gone; now it writes below `/r/q`,
which makes `/r` and `/r/q` anew, and then to `/r/q/x`, of which it holds a copy. -/
def tornRun : List Step :=
  let r : Path := ⟨["r"]⟩
  let q : Path := ⟨["r", "q"]⟩
  let x : Path := ⟨["r", "q", "x"]⟩
  let y : Path := ⟨["r", "q", "y"]⟩
  [.start "s" ⟨"main", 0⟩ (some (1 : Nat)), .start "t" ⟨"main", 0⟩ (some (2 : Nat)),
    .perform "s" (.put x "k" (.int 1)), .commit "s",
    .perform "t" (.nodeExists q), .perform "t" (.nodeExists x),
    .perform "s" (.removeNode r), .commit "s",
    .perform "t" (.nodeExists r),
    .perform "s" (.put x "k" (.int 2)), .commit "s",
    .perform "t" (.put y "k" (.int 3)), .perform "t" (.put x "k" (.int 4))]

/-- The state in which the second transaction is to be committed. -/
def tornState : SharedTree := (ofConfig {}).run tornRun

/-- The second transaction in that state. -/
def tornContext : Context := (tornState.context? "t").getD default

theorem context?_tornState : tornState.context? "t" = some tornContext := by decide +kernel

/-- The commit of the second transaction is torn. -/
theorem commit_torn : (∃ err, (tornState.commit "t" tornContext).2 = .error err ∧
      err.isIllegalRelease = false) ∧
    ∃ p, (tornState.commit "t" tornContext).1.store.tree.peek? p ≠ tornState.store.tree.peek? p :=
  (commit_all_or_nothing_unless_torn ⟨{}, _, tornRun, rfl⟩ context?_tornState).2 (by decide +kernel)

/-- Not every commit that fails has changed nothing: this one fails because `/r/q/x` is not there,
and leaves the version counter advanced and `/r/q` without data and children. -/
theorem not_commit_all_or_nothing :
    ¬∀ (config : Config) (steps : List Step) (name : String) (c : Context) (err : TreeError),
      ((ofConfig config).run steps).context? name = some c →
      (((ofConfig config).run steps).commit name c).2 = .error err →
      err.isIllegalRelease = false →
      (((ofConfig config).run steps).commit name c).1.store.tree =
        ((ofConfig config).run steps).store.tree := by
  intro h
  have hfail : (tornState.commit "t" tornContext).2 = .error (.nodeMissing ⟨["r", "q", "x"]⟩) := by
    decide +kernel
  have hsame := h {} tornRun "t" tornContext _ context?_tornState hfail rfl
  have hversion : (tornState.commit "t" tornContext).1.store.tree.version ≠
      tornState.store.tree.version := by
    decide +kernel
  exact hversion (congrArg CommittedTree.version hsame)

end SharedTree

end TransactionalTree
