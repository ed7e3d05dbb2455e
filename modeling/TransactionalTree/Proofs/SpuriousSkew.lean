/-
**When the check for write skew stops a unit of work by mistake.**

While nobody else changes the committed tree, every version that a unit of work has observed is the
committed one.  But when it removes a node and makes it anew, it has forgotten what it had observed
below, and makes the nodes there as if none had been committed.  If one was, the check takes it for
a node that somebody else has made in between.

Main definitions:

* `Current` — **what was observed is what is committed**, and below a node that is replaced nothing
  was observed;
* `Base.reclaims` — an entry for a committed node below one that is replaced;
* `SharedTree.isUndisturbed` — a step in which nobody else changes a committed node;
* `SharedTree.reclaimingState` — a state in which a commit is stopped by mistake.

Main results:

* `Current.stage` — no step observes what is not committed;
* `Base.skewConflicts_ne_nil` — the check finds a conflict exactly if a node is reclaimed;
* `SharedTree.no_write_skew_unless_reclaimed` — **a commit that nobody has disturbed succeeds**,
  unless it reclaims a committed node; then it is stopped because of write skew.
-/

import TransactionalTree.Proofs.Undisturbed
import TransactionalTree.Proofs.WriteSkew

set_option relaxedAutoImplicit false
set_option autoImplicit false

namespace TransactionalTree

/-! ### What was observed is what is committed -/

/-- **What was observed is what is committed.** -/
structure Current (b : Base) (w : Workspace) : Prop where
  /-- A version that was observed is the committed one. -/
  version : ∀ {p : Path} {e : Entry} {v : Version}, w.get? p = some e → e.readVersion = some v →
    b.committedVersion p = some v
  /-- Below a node that is replaced nothing was observed, and all entries make or remove a node. -/
  replaced : ∀ {p r : Path} {e g : Entry}, w.get? p = some e → w.get? r = some g →
    r.isAbove p = true → g.created = true → g.replacesBase = true →
    e.readVersion = none ∧ (e.created = true ∨ e.removed = true)

namespace Current

variable {b b' : Base} {w w' : Workspace} {p : Path} {e : Entry} {a : Act}

theorem empty : Current b .empty where
  version he := by simp at he
  replaced he := by simp at he

/-- It is the same over every tree with the same nodes. -/
theorem congr (h : Current b w) (hsame : ∀ p, b'.tree.peek? p = b.tree.peek? p) :
    Current b' w where
  version he hv := by
    rw [Base.committedVersion, hsame]
    exact h.version he hv
  replaced := h.replaced

/-- An entry that is set observes what is committed, and neither comes below a node that is replaced
nor replaces one above others, unless the entry before did so as well. -/
theorem insert (h : Current b w) (hv : ∀ v, e.readVersion = some v →
      b.committedVersion p = some v)
    (hbelow : ∀ r g, r.isAbove p = true → w.get? r = some g → g.created = true →
      g.replacesBase = true → e.readVersion = none ∧ (e.created = true ∨ e.removed = true))
    (habove : e.created = true → e.replacesBase = true → ∀ q f, p.isAbove q = true →
      w.get? q = some f → f.readVersion = none ∧ (f.created = true ∨ f.removed = true)) :
    Current b (w.insert p e) where
  version {q f v} hf hfv := by
    rw [SortedMap.get?_insert] at hf
    split at hf
    · rename_i hqp
      obtain rfl := Option.some.inj hf
      rw [hqp]
      exact hv v hfv
    · exact h.version hf hfv
  replaced {q r f g} hf hg hr hc hb := by
    rw [SortedMap.get?_insert] at hf hg
    by_cases hqp : q = p
    · have hrp : r ≠ p := fun hrp => Path.ne_of_isAbove hr (hrp.trans hqp.symm)
      rw [if_pos hqp] at hf
      rw [if_neg hrp] at hg
      obtain rfl := Option.some.inj hf
      exact hbelow r g (hqp ▸ hr) hg hc hb
    · rw [if_neg hqp] at hf
      split at hg
      · rename_i hrp
        obtain rfl := Option.some.inj hg
        exact habove hc hb q f (hrp ▸ hr) hf
      · exact h.replaced hf hg hr hc hb

/-- **A note observes what is committed.** -/
theorem note (h : Current b w) (hs : Note b w w') : Current b w' := by
  cases hs with
  | @copy p n hl =>
      obtain ⟨-, -, hnot, hn⟩ := View.locate_eq_committed.1 hl
      refine h.insert (fun v hv => ?_) (fun r g hr hg hc _ => ?_) fun hc => ?_
      · rw [Base.committedVersion, hn]
        exact hv
      · exact absurd (View.isShadowed_iff.2 ⟨r, g, hr, hg, hc⟩) hnot
      · simp [Base.copy, Entry.ofSnapshot] at hc
  | @mark p hl =>
      obtain ⟨-, -, hnot, -⟩ := View.locate_eq_missing.1 hl
      refine h.insert (fun v hv => ?_) (fun r g hr hg hc _ => ?_) fun hc => ?_
      · simp [Entry.absent] at hv
      · exact absurd (View.isShadowed_iff.2 ⟨r, g, hr, hg, hc⟩) hnot
      · simp [Entry.absent] at hc
  | lock p =>
      cases hget : w.get? p with
      | none =>
          rw [SortedMap.modify_of_none hget]
          exact h
      | some e =>
          rw [SortedMap.modify_of_some hget]
          refine h.insert (fun v hv => h.version hget hv) (fun r g hr hg hc hb => ?_)
            fun hc hb q f hq hf => h.replaced hf hget hq hc hb
          have hold := h.replaced hget hg hr hc hb
          exact hold

/-- **No step observes what is not committed**, if it makes nodes only where there are none. -/
theorem stage (h : Current b w) (hw : w.Tidy) (hs : Stage b a w w')
    (hnew : ∀ p, a = .create p → (View.mk b w).exists? p = false) : Current b w' := by
  cases hs with
  | @create _ p name hex =>
      cases hget : w.get? (p.push name) with
      | none =>
          exact h.insert (fun v hv => by simp [Entry.fresh, Entry.recreate, Entry.absent] at hv)
            (fun _ _ _ _ _ _ => ⟨rfl, .inl rfl⟩)
            fun _ hb => by simp [Entry.fresh, Entry.recreate, Entry.absent] at hb
      | some e =>
          refine h.insert (fun v hv => h.version hget hv) (fun r g hr hg hc hb => ?_)
            fun _ hb q f hq hf => ?_
          · exact ⟨(h.replaced hget hg hr hc hb).1, .inl rfl⟩
          -- an observed node that is not there is removed, and below it there are no entries
          · have hremoved := (hw.removed_of_recreate hget hex (hnew _ rfl) hb).2
            rw [hw.below_removed hget hremoved hq] at hf
            simp at hf
  | @write _ p e e' hl he =>
      obtain ⟨-, hget, -⟩ := View.locate_eq_staged.1 hl
      refine h.insert (fun v hv => ?_) (fun r g hr hg hc hb => ?_) fun hc hb q f hq hf => ?_
      · rw [he.readVersion] at hv
        exact h.version hget hv
      · rw [he.readVersion, he.created, he.removed]
        exact h.replaced hget hg hr hc hb
      · rw [he.created] at hc
        rw [he.replacesBase] at hb
        exact h.replaced hf hget hq hc hb
  | @remove _ p e hp hl =>
      constructor
      · intro q f v hf hv
        obtain ⟨-, g, hg, ⟨-, rfl⟩ | ⟨-, rfl⟩⟩ := Workspace.of_get?_remove hf
        · exact h.version hg hv
        · exact h.version hg hv
      · intro q r f g hf hg hr hc hb
        obtain ⟨-, g', hg', ⟨-, rfl⟩ | ⟨-, rfl⟩⟩ := Workspace.of_get?_remove hg
        · simp [Entry.markRemoved] at hc
        · obtain ⟨-, f', hf', ⟨-, rfl⟩ | ⟨-, rfl⟩⟩ := Workspace.of_get?_remove hf
          · exact ⟨(h.replaced hf' hg' hr hc hb).1, .inr rfl⟩
          · exact h.replaced hf' hg' hr hc hb

/-- Every operation observes what is committed. -/
theorem perform {u : Work} (h : Current b u.context.workspace)
    (hf : Faithful b u.context.workspace) (o : Operation) :
    Current b (b.perform u o).1.context.workspace :=
  hf.perform_keeps h (fun _ h hs => h.note hs) (fun hf h hs hnew => h.stage hf.tidy hs hnew) o

end Current

/-! ### What the check finds -/

/-- **The workspace reclaims a committed node**: it has an entry for one below a node that it
replaces. -/
def Base.reclaims (b : Base) (w : Workspace) : Bool :=
  w.toList.any fun a => w.isReplacedAbove a.1 && b.tree.exists? a.1

namespace Base

variable {b : Base} {c : Context}

theorem reclaims_iff {w : Workspace} : b.reclaims w = true ↔
    ∃ p e, w.get? p = some e ∧ w.isReplacedAbove p = true ∧ b.tree.exists? p = true := by
  rw [reclaims, List.any_eq_true]
  constructor
  · rintro ⟨⟨p, e⟩, hmem, h⟩
    rw [Bool.and_eq_true] at h
    exact ⟨p, e, SortedMap.get?_eq_some_iff.2 hmem, h.1, h.2⟩
  · rintro ⟨p, e, he, h, hex⟩
    exact ⟨(p, e), SortedMap.get?_eq_some_iff.1 he, by simp [h, hex]⟩

/-- **The check finds a conflict exactly if a node is reclaimed**, as long as nobody else changes
one. -/
theorem skewConflicts_ne_nil (hf : Faithful b c.workspace) (hcur : Current b c.workspace) :
    b.skewConflicts c ≠ [] ↔ b.reclaims c.workspace = true := by
  rw [reclaims_iff]
  constructor
  · intro hne
    obtain ⟨x, hx⟩ := List.exists_mem_of_ne_nil _ hne
    obtain ⟨p, e, he, -, hdiff, -⟩ := mem_skewConflicts.1 hx
    have hnone : e.readVersion = none := by
      cases hv : e.readVersion with
      | none => rfl
      | some v => exact absurd ((hcur.version he hv).trans hv.symm) hdiff
    rw [hnone, committedVersion] at hdiff
    obtain ⟨n, hn⟩ : ∃ n, b.tree.peek? p = some n :=
      Option.ne_none_iff_exists'.1 fun h => hdiff (by rw [h]; rfl)
    -- nothing was observed where there is a node: one above it is replaced
    rcases hf.unseen he hnone with habsent | ⟨r, g, hr, hg, hc, hb⟩
    · rw [hn] at habsent
      simp at habsent
    · exact ⟨p, e, he, Workspace.isReplacedAbove_iff.2 ⟨r, g, hr, hg, hc, hb⟩,
        CommittedTree.exists?_iff_peek?.2 ⟨n, hn⟩⟩
  · rintro ⟨p, e, he, hreplaced, hex⟩ hnil
    obtain ⟨r, g, hr, hg, hc, hb⟩ := Workspace.isReplacedAbove_iff.1 hreplaced
    obtain ⟨hnone, hflag⟩ := hcur.replaced he hg hr hc hb
    obtain ⟨n, hn⟩ := CommittedTree.exists?_iff_peek?.1 hex
    have hsame := skewConflicts_eq_nil.1 hnil p e he (Entry.isDirty_iff.2 (.inr hflag))
    rw [hnone, committedVersion, hn] at hsame
    simp at hsame

end Base

/-- **How the commit of an undisturbed unit of work goes**: it succeeds, unless a node is reclaimed
and the check is on. -/
theorem Store.commit_undisturbed {s : Store} {c : Context}
    (hskew : s.config.writeSkewCheckActive = true) (hf : Faithful s.base c.workspace)
    (hcur : Current s.base c.workspace) (ha : Work.Accounted ⟨s.locks, c⟩) :
    if s.base.reclaims c.workspace then
      ∃ err, (s.commit c).result = .error err ∧ err.isWriteSkew = true
    else (s.commit c).result = .ok () := by
  have hconf : s.base.conflicts c s.config.writeSkewCheckActive = s.base.skewConflicts c := by
    rw [conflicts_of_faithful hf, if_pos hskew]
  split
  · rename_i hre
    obtain ⟨x, xs, hx⟩ := List.exists_cons_of_ne_nil ((Base.skewConflicts_ne_nil hf hcur).2 hre)
    obtain ⟨p, e, he, hd, -, rfl⟩ := Base.mem_skewConflicts.1 (hx ▸ List.mem_cons_self)
    have hchanges : c.hasChanges = true := Workspace.hasChanges_iff.2 ⟨p, e, he, hd⟩
    refine ⟨(Conflict.writeSkew p e.readVersion (s.base.committedVersion p)).error, ?_, rfl⟩
    rw [commit, if_pos hchanges, hconf, hx]
  · rename_i hre
    refine (commit_of_faithful hf ha ?_).1
    rw [hconf]
    by_contra hne
    exact hre ((Base.skewConflicts_ne_nil hf hcur).1 hne)

/-! ### Runs in which nobody else changes a node -/

namespace SharedTree

variable {s s' : SharedTree} {name : String} {c c' : Context} {step : Step} {steps : List Step}

/-- The step leaves all committed nodes as they are. -/
def leavesNodes (s : SharedTree) (step : Step) : Bool :=
  (s.take step).store.tree.validNodes = s.store.tree.validNodes

/-- **In this step nobody else changes a committed node.** -/
def isUndisturbed (s : SharedTree) (name : String) (step : Step) : Bool :=
  step.actor? = some name || s.leavesNodes step

/-- Nobody else changes a committed node in any of the listed steps. -/
def isUndisturbedThroughout (s : SharedTree) (name : String) : List Step → Bool
  | [] => true
  | step :: steps =>
      s.isUndisturbed name step && (s.take step).isUndisturbedThroughout name steps

/-- The unit of work of this name, if there is one, sees a tree that does not change, and has
observed what is committed. -/
def Undisturbed (s : SharedTree) (name : String) : Prop :=
  ∀ c, s.context? name = some c →
    Faithful s.store.base c.workspace ∧ Current s.store.base c.workspace

theorem peek?_of_leavesNodes (hs : s.Sane) (h : s.leavesNodes step = true) (p : Path) :
    (s.take step).store.tree.peek? p = s.store.tree.peek? p := by
  have hnodes : (s.take step).store.tree.validNodes = s.store.tree.validNodes := by
    simpa [leavesNodes] using h
  refine Option.ext fun n => ?_
  rw [← (hs.take step).sound.mem_validNodes, hnodes, hs.sound.mem_validNodes]

/-- A step that leaves the nodes leaves the unit of work undisturbed. -/
theorem Undisturbed.take_leaving (h : s.Undisturbed name) (hs : s.Sane) (hset : s.Settled)
    (hsame : ∀ p, (s.take step).store.tree.peek? p = s.store.tree.peek? p) :
    (s.take step).Undisturbed name := by
  intro c' hc'
  have hsound := (hs.take step).sound
  cases leaving_take hset hc' with
  | @kept c _ hc hw _ =>
      obtain ⟨hf, hcur⟩ := h c hc
      rw [hw]
      exact ⟨hf.congr hsound hsame, hcur.congr hsame⟩
  | @performed c o hc _ =>
      obtain ⟨hf, hcur⟩ := h c hc
      exact ⟨(hf.perform (u := ⟨s.store.locks, c⟩) o).congr hsound hsame,
        (hcur.perform (u := ⟨s.store.locks, c⟩) hf o).congr hsame⟩
  | fresh hw _ _ =>
      rw [hw]
      exact ⟨.empty hsound, .empty⟩

/-- Its own commit leaves nothing of a unit of work, or is stopped before it has changed a node. -/
theorem Undisturbed.take_commit (h : s.Undisturbed name) (hs : s.Sane) :
    (s.take (.commit name)).Undisturbed name := by
  intro c' hc'
  have hsound := (hs.take (.commit name)).sound
  obtain ⟨c, hc, hend⟩ := of_context?_elim hc'
  obtain ⟨hf, hcur⟩ := h c hc
  have hstore : (s.take (.commit name)).store = (s.store.commit c).store := by
    simp only [take, hc]
    rfl
  rw [hstore] at hsound ⊢
  rw [← Option.some.inj (SortedMap.get?_insert_self.symm.trans hend)]
  have ho := Store.commit_outcome s.store c
  generalize s.store.commit c = e at ho hsound
  cases ho with
  | idle _ => exact ⟨.empty hsound, .empty⟩
  | refused _ _ => exact ⟨hf, hcur⟩
  | torn _ _ hm =>
      obtain ⟨events, hok⟩ := Store.merge_of_faithful hf
      rw [hm] at hok
      simp at hok
  | merged _ _ _ => exact ⟨.empty hsound, .empty⟩

theorem Undisturbed.take (h : s.Undisturbed name) (hs : s.Sane) (hset : s.Settled)
    (hquiet : s.isUndisturbed name step = true) : (s.take step).Undisturbed name := by
  rw [isUndisturbed, Bool.or_eq_true, decide_eq_true_iff] at hquiet
  rcases hquiet with hown | hleaves
  · cases step with
    | commit other =>
        obtain rfl := Option.some.inj hown
        exact h.take_commit hs
    | _ => exact h.take_leaving hs hset (peek?_take hs fun _ => by simp)
  · exact h.take_leaving hs hset (peek?_of_leavesNodes hs hleaves)

theorem Undisturbed.run (h : s.Undisturbed name) (hs : s.Sane) (hset : s.Settled)
    (hquiet : s.isUndisturbedThroughout name steps = true) : (s.run steps).Undisturbed name := by
  induction steps generalizing s with
  | nil => exact h
  | cons step steps ih =>
      rw [isUndisturbedThroughout, Bool.and_eq_true] at hquiet
      exact ih (h.take hs hset hquiet.1) (hs.take step) (hset.take step) hquiet.2

/-- **There is no write skew unless a committed node is reclaimed.**  A unit of work, of which there
are no entries at first, does what it likes while nobody else changes a committed node.  Then its
commit succeeds, unless it has an entry for a committed node below one that it replaces; then it is
stopped because of write skew. -/
theorem no_write_skew_unless_reclaimed (hs : s.Reachable)
    (hskew : s.store.config.writeSkewCheckActive = true)
    (hnew : ∀ c, s.context? name = some c → c.workspace = .empty)
    (hquiet : s.isUndisturbedThroughout name steps = true) (hrun : s.run steps = s')
    (hc' : s'.context? name = some c') :
    if s'.store.base.reclaims c'.workspace then
      ∃ err, (s'.commit name c').2 = .error err ∧ err.isWriteSkew = true
    else (s'.commit name c').2 = .ok () := by
  subst hrun
  have hfirst : s.Undisturbed name := by
    intro c hc
    rw [hnew c hc]
    exact ⟨.empty hs.sane.sound, .empty⟩
  obtain ⟨hf, hcur⟩ := hfirst.run hs.sane hs.settled hquiet c' hc'
  have hskew' : (s.run steps).store.config.writeSkewCheckActive = true := by
    rw [config_run]
    exact hskew
  exact Store.commit_undisturbed hskew' hf hcur ((hs.run steps).settled.accounted hc')

/-- A transaction makes `/a/x`, removes `/a`, and makes `/a/x` again. -/
def reclaimingSteps : List Step :=
  [.perform "t" (.put ⟨["a", "x"]⟩ "k" (.int 1)), .commit "t", .perform "t" (.removeNode ⟨["a"]⟩),
    .perform "t" (.put ⟨["a", "x"]⟩ "k" (.int 2))]

/-- The state in which nothing has happened. -/
def freshState : SharedTree :=
  (ofConfig checkingConfig).run [.start "t" ⟨"main", 0⟩ (some (1 : Nat))]

/-- The state in which the transaction is to be committed. -/
def reclaimingState : SharedTree := freshState.run reclaimingSteps

/-- The transaction in that state. -/
def reclaimingContext : Context := (reclaimingState.context? "t").getD default

/-- The commit is stopped because of write skew, although there is no other transaction. -/
theorem commit_reclaiming : ∃ err,
    (reclaimingState.commit "t" reclaimingContext).2 = .error err ∧ err.isWriteSkew = true := by
  have hquiet : freshState.isUndisturbedThroughout "t" reclaimingSteps = true := by decide +kernel
  have hrun : freshState.run reclaimingSteps = reclaimingState := rfl
  have hc' : reclaimingState.context? "t" = some reclaimingContext := by decide +kernel
  have hnew : ∀ c, freshState.context? "t" = some c → c.workspace = .empty := by
    intro c hc
    have hget : freshState.context? "t" = some ((freshState.context? "t").getD default) := by
      decide +kernel
    obtain rfl := Option.some.inj (hget.symm.trans hc)
    decide +kernel
  have h := no_write_skew_unless_reclaimed ⟨checkingConfig, _, _, rfl⟩ (by decide +kernel) hnew
    hquiet hrun hc'
  rwa [if_pos (by decide +kernel)] at h

/-- Not every undisturbed commit passes the check: this one is stopped because of write skew. -/
theorem not_no_write_skew :
    ¬∀ (config : Config) (before steps : List Step) (name : String) (c : Context) (err : TreeError),
      config.writeSkewCheckActive = true →
      (∀ c, ((ofConfig config).run before).context? name = some c → c.workspace = .empty) →
      ((ofConfig config).run before).isUndisturbedThroughout name steps = true →
      (((ofConfig config).run before).run steps).context? name = some c →
      ((((ofConfig config).run before).run steps).commit name c).2 = .error err →
      err.isWriteSkew = false := by
  intro h
  have herr : (reclaimingState.commit "t" reclaimingContext).2 =
      .error (.writeSkew ⟨["a", "x"]⟩ none (some 1)) := by
    decide +kernel
  have hsame := h checkingConfig [] (.start "t" ⟨"main", 0⟩ (some (1 : Nat)) :: reclaimingSteps)
    "t" reclaimingContext _ rfl (fun c hc => by simp [context?, ofConfig] at hc) (by decide +kernel)
    (by decide +kernel) herr
  simp [TreeError.isWriteSkew] at hsame

end SharedTree

end TransactionalTree
