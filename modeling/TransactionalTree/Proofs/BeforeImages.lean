/-
**What an event says was there before.**

An event of a node that was modified or removed carries the data from before.  They are not read
when the node is merged: the entry remembers what it has observed, when the node was copied into the
workspace, maybe long before the commit and without a lock.  Only where a node was made, and another
one has been committed there since, are the data of that one told.  So what is told was true once,
and is out of date if another commit has changed the node in the meantime.

Main definitions:

* `Event.image?` — the data from before that an event carries;
* `Imaged` — **where they come from**: the entry, or the tree that is merged into;
* `Workspace.sighting?` — the version and the data that the entry for a path has observed;
* `SharedTree.Unspent` — the counter of versions stays below the last one in a run;
* `SharedTree.Unmatched` — no other node has come under the version of a given one.

Main results:

* `imaged_mergeAll` — all events of a merge get their data from there;
* `SharedTree.exists_sighting` — **what an entry has observed was committed** when an operation of
  the unit of work has copied the node, and it has been remembered since;
* `SharedTree.exists_departure` — **what is no longer committed went with a commit**, and has not
  come back;
* `SharedTree.unspent_of_length` — a run that names no versions stays below the last one if it has
  fewer turns than there are versions;
* `SharedTree.before_image_true_unless_overtaken` — **the data from before are the committed ones**,
  unless a commit has changed them since they were observed;
* `SharedTree.not_before_images_true` — and then they are not.
-/

import TransactionalTree.Proofs.Replay
import TransactionalTree.Proofs.Stamps
import TransactionalTree.Proofs.WriteSkew

set_option relaxedAutoImplicit false
set_option autoImplicit false

namespace TransactionalTree

variable {t t' : CommittedTree} {v : Version} {o : Origin} {p q : Path} {e : Entry} {d : Data}
variable {es : List (Path × Entry)} {ev : Event} {events : List Event} {image : Option Data}

/-! ### What an event carries -/

/-- **What an event says was there before**, and where.  Nothing was there before a creation, and a
move does not say what it moves. -/
def Event.image? : Event → Option (Path × Option Data)
  | created _ _ _ => none
  | modified p before _ _ => some (p, before)
  | removed p before _ => some (p, before)
  | moved _ _ _ => none

/-- **Where the data from before come from**: from an entry that has observed a node, or from the
node in the tree. -/
def Imaged (t : CommittedTree) (p : Path) (e : Entry) (image : Option Data) : Prop :=
  (e.readVersion.isSome = true ∧ image = e.observed) ∨ (image.isSome = true ∧ image = t.data? p)

theorem imaged_mergeRemoval (he : e.Consistent)
    (hm : mergeRemoval t v o p e = .ok (t', events)) (hev : ev ∈ events)
    (himage : ev.image? = some (q, image)) : q = p ∧ Imaged t p e image := by
  simp only [mergeRemoval] at hm
  split at hm
  · rename_i hrep
    split at hm
    · simp at hm
    · obtain ⟨-, rfl⟩ := by simpa using hm
      obtain rfl := List.mem_singleton.1 hev
      obtain ⟨rfl, rfl⟩ := by simpa [Event.image?] using himage
      exact ⟨rfl, .inl ⟨(he.replacesBase_iff.1 hrep).1, rfl⟩⟩
    · obtain ⟨-, rfl⟩ := by simpa using hm
      simp at hev
  · obtain ⟨-, rfl⟩ := by simpa using hm
    simp at hev

theorem imaged_mergeReplacement (he : e.Consistent) (hrep : e.replacesBase = true)
    (hm : mergeReplacement t v o p e = .ok (t', events)) (hev : ev ∈ events)
    (himage : ev.image? = some (q, image)) : q = p ∧ Imaged t p e image := by
  simp only [mergeReplacement] at hm
  split at hm
  · simp at hm
  · obtain ⟨-, rfl⟩ := by simpa using hm
    rcases List.mem_append.1 hev with hev | hev
    · obtain ⟨before, hbefore, rfl⟩ := List.mem_map.1 hev
      obtain ⟨rfl, rfl⟩ := by simpa [Event.image?] using himage
      exact ⟨rfl, .inl ⟨(he.replacesBase_iff.1 hrep).1, (Option.mem_toList.1 hbefore).symm⟩⟩
    · obtain rfl := List.mem_singleton.1 hev
      simp [Event.image?] at himage

/-- The data of a node that was committed in the meantime are read from the tree. -/
theorem imaged_mergeCreation (hm : mergeCreation t v o p e = .ok (t', events)) (hev : ev ∈ events)
    (himage : ev.image? = some (q, image)) : q = p ∧ Imaged t p e image := by
  simp only [mergeCreation] at hm
  split at hm
  · rename_i n hn
    split at hm
    · split at hm
      · simp at hm
      · obtain ⟨-, rfl⟩ := by simpa using hm
        obtain rfl := List.mem_singleton.1 hev
        obtain ⟨rfl, rfl⟩ := by simpa [Event.image?] using himage
        exact ⟨rfl, .inr ⟨rfl, by simp [CommittedTree.data?, hn]⟩⟩
    · obtain ⟨-, rfl⟩ := by simpa using hm
      simp at hev
  · split at hm
    · simp at hm
    · obtain ⟨-, rfl⟩ := by simpa using hm
      obtain rfl := List.mem_singleton.1 hev
      simp [Event.image?] at himage

theorem imaged_mergeUpdate (hread : e.readVersion.isSome = true)
    (hm : mergeUpdate t v o p e = .ok (t', events)) (hev : ev ∈ events)
    (himage : ev.image? = some (q, image)) : q = p ∧ Imaged t p e image := by
  simp only [mergeUpdate] at hm
  split at hm
  · simp at hm
  · obtain ⟨-, rfl⟩ := by simpa using hm
    obtain rfl := List.mem_singleton.1 hev
    obtain ⟨rfl, rfl⟩ := by simpa [Event.image?] using himage
    exact ⟨rfl, .inl ⟨hread, rfl⟩⟩

/-- **The events of one entry** are about its path, and get their data from there. -/
theorem imaged_mergeEntry (he : e.Consistent) (hm : mergeEntry t v o p e = .ok (t', events))
    (hev : ev ∈ events) (himage : ev.image? = some (q, image)) : q = p ∧ Imaged t p e image := by
  simp only [mergeEntry] at hm
  split at hm
  · exact imaged_mergeRemoval he hm hev himage
  · split at hm
    · split at hm
      · rename_i hrep
        exact imaged_mergeReplacement he hrep hm hev himage
      · exact imaged_mergeCreation hm hev himage
    · rename_i hcreated
      split at hm
      -- what is written and was not made has been observed
      · rename_i hchanged
        have hpresent := (Entry.isPresent_iff.1 (he.isPresent_of_changed hchanged)).2
        exact imaged_mergeUpdate (hpresent.resolve_left hcreated) hm hev himage
      · obtain ⟨-, rfl⟩ := by simpa using hm
        simp at hev

/-- What is read from the tree after one entry, at a path that comes later, was there before. -/
theorem Imaged.of_merged {g : Entry} (h : Imaged t' p e image) (hm : Merged t q g t')
    (hrep : g.replacesBase = true → g.removed = true ∨ g.created = true) (hne : p ≠ q) :
    Imaged t p e image := by
  refine h.imp_right fun ⟨hsome, heq⟩ => ⟨hsome, ?_⟩
  rw [heq, hm.data, mergedData_of_ne hne hrep] at hsome ⊢
  split at hsome
  · simp at hsome
  · rename_i hkept
    rw [if_neg hkept]

/-- **All events of a merge get their data from there.** -/
theorem imaged_mergeAll (h : t.Sound) (hes : Mergeable es) (hall : ∀ a ∈ es, a.2.Consistent)
    (hm : (mergeAll t v o es).events = .ok events) (hev : ev ∈ events)
    (himage : ev.image? = some (p, image)) : ∃ e, (p, e) ∈ es ∧ Imaged t p e image := by
  induction es generalizing t events with
  | nil =>
      obtain rfl := Except.ok.inj hm
      simp at hev
  | cons a es ih =>
      obtain ⟨q, g⟩ := a
      simp only [mergeAll] at hm
      cases hfirst : mergeEntry t v o q g with
      | error err =>
          rw [hfirst] at hm
          simp at hm
      | ok r =>
          obtain ⟨t₁, first⟩ := r
          rw [hfirst] at hm
          have hstep := merged_of_mergeEntry h hfirst
          obtain ⟨later, hlater, rfl⟩ : ∃ later, (mergeAll t₁ v o es).events = .ok later ∧
              first ++ later = events := by
            cases hrest : (mergeAll t₁ v o es).events with
            | error err => simp [hrest, Except.map] at hm
            | ok later => exact ⟨later, rfl, by simpa [hrest, Except.map] using hm⟩
          rcases List.mem_append.1 hev with hev | hev
          · obtain ⟨rfl, himaged⟩ :=
              imaged_mergeEntry (hall _ List.mem_cons_self) hfirst hev himage
            exact ⟨g, List.mem_cons_self, himaged⟩
          · obtain ⟨e, hmem, himaged⟩ := ih hstep.sound hes.tail
              (fun a ha => hall a (List.mem_cons_of_mem _ ha)) hlater hev
            refine ⟨e, List.mem_cons_of_mem _ hmem, himaged.of_merged hstep
              (hes.replaces q g List.mem_cons_self) ?_⟩
            rintro rfl
            exact hes.not_isAtOrBelow hmem (Path.isAtOrBelow_self _)

namespace Store

variable {s : Store} {c : Context} {l : String}

/-- An event that a listener is told of a commit, other than a move, is one of the merge. -/
theorem mem_merge_of_heard (hev : ev ∈ heard l (s.commit c).sent)
    (himage : ev.image? = some (p, image)) :
    s.base.conflicts c s.config.writeSkewCheckActive = [] ∧
      ∃ events, (s.merge c).events = .ok events ∧ ev ∈ events := by
  have ho := commit_outcome s c
  generalize s.commit c = ending at ho hev
  cases ho with
  | idle _ =>
      have hnone : heard l (s.conclude c true []).sent = [] :=
        heard_deliver_completion l s.listeners c.transaction true
      rw [hnone] at hev
      simp at hev
  | refused _ _ => simp [heard] at hev
  | torn _ _ _ => simp [heard] at hev
  | @merged events _ hx hm =>
      refine ⟨hx, events, hm, ?_⟩
      rw [heard_conclude (s := { s with tree := (s.merge c).tree })] at hev
      obtain ⟨ev', hev', hsame⟩ := List.mem_flatMap.1 hev
      obtain rfl := List.eq_of_mem_replicate hsame
      refine (List.mem_append.1 hev').resolve_right fun hmove => ?_
      obtain ⟨m, -, rfl⟩ := List.mem_map.1 hmove
      simp [Event.image?] at himage

/-- **The data from before that a commit tells** come from a dirty entry, or from the tree. -/
theorem imaged_of_heard (h : s.tree.Sound) (hc : c.workspace.Tidy)
    (hev : ev ∈ heard l (s.commit c).sent) (himage : ev.image? = some (p, image)) :
    ∃ e, c.entry? p = some e ∧ e.isDirty = true ∧ Imaged s.tree p e image := by
  obtain ⟨-, events, hm, hev⟩ := mem_merge_of_heard hev himage
  obtain ⟨hslots, hnext⟩ := stamp_tree s c
  rw [merge_eq] at hm
  obtain ⟨e, hmem, himaged⟩ := imaged_mergeAll (h.of_slots hslots hnext) hc.mergeable
    (fun a ha => hc.consistent (Workspace.mem_dirty.1 ha).1) hm hev himage
  obtain ⟨hget, hdirty⟩ := Workspace.mem_dirty.1 hmem
  rw [Imaged, data?_stamp] at himaged
  exact ⟨e, hget, hdirty, himaged⟩

end Store

/-! ### What an entry has observed -/

/-- **The version and the data that the entry for `p` has observed.** -/
def Workspace.sighting? (w : Workspace) (p : Path) : Option (Version × Data) :=
  (w.get? p).bind fun e => e.readVersion.bind fun v => e.observed.map (v, ·)

section Sightings

variable {b : Base} {w w' : Workspace} {a : Act} {acts : List Act} {x : Version × Data}

theorem Workspace.sighting?_eq_some : w.sighting? p = some x ↔
    ∃ e, w.get? p = some e ∧ e.readVersion = some x.1 ∧ e.observed = some x.2 := by
  obtain ⟨v, d⟩ := x
  simp only [sighting?, Option.bind_eq_some_iff, Option.map_eq_some_iff, Prod.mk.injEq]
  constructor
  · rintro ⟨e, he, _, hv, _, hd, rfl, rfl⟩
    exact ⟨e, he, hv, hd⟩
  · rintro ⟨e, he, hv, hd⟩
    exact ⟨e, he, v, hv, d, hd, rfl, rfl⟩

/-- A note observes what is committed, and nothing else. -/
theorem Note.sighting (h : Note b w w') (hq : w'.sighting? q = some x) :
    w.sighting? q = some x ∨ ∃ n, b.tree.peek? q = some n ∧ x = (n.version, n.data) := by
  obtain ⟨e, he, hv, hd⟩ := Workspace.sighting?_eq_some.1 hq
  cases h with
  | @copy p n hl =>
      rw [SortedMap.get?_insert] at he
      split at he
      · rename_i hqp
        obtain rfl := Option.some.inj he
        refine .inr ⟨n, hqp ▸ (View.locate_eq_committed.1 hl).2.2.2, ?_⟩
        exact Prod.ext (Option.some.inj hv).symm (Option.some.inj hd).symm
      · exact .inl (Workspace.sighting?_eq_some.2 ⟨e, he, hv, hd⟩)
  | mark _ =>
      rw [SortedMap.get?_insert] at he
      split at he
      · obtain rfl := Option.some.inj he
        simp [Entry.absent] at hv
      · exact .inl (Workspace.sighting?_eq_some.2 ⟨e, he, hv, hd⟩)
  | lock p =>
      rw [SortedMap.get?_modify] at he
      split at he
      · obtain ⟨f, hf, rfl⟩ := Option.map_eq_some_iff.1 he
        exact .inl (Workspace.sighting?_eq_some.2 ⟨f, hf, hv, hd⟩)
      · exact .inl (Workspace.sighting?_eq_some.2 ⟨e, he, hv, hd⟩)

/-- What is changed keeps what was observed, or forgets it. -/
theorem Stage.sighting (h : Stage b a w w') (hq : w'.sighting? q = some x) :
    w.sighting? q = some x := by
  obtain ⟨e, he, hv, hd⟩ := Workspace.sighting?_eq_some.1 hq
  refine Workspace.sighting?_eq_some.2 ?_
  cases h with
  | @create _ p name _ =>
      rw [SortedMap.get?_insert] at he
      split at he
      · rename_i hqp
        obtain rfl := Option.some.inj he
        rw [hqp]
        cases hold : w.get? (p.push name) with
        | none =>
            rw [hold] at hv
            simp [Entry.fresh, Entry.recreate, Entry.absent] at hv
        | some f =>
            rw [hold] at hv hd
            exact ⟨f, rfl, hv, hd⟩
      · exact ⟨e, he, hv, hd⟩
  | write hl hed =>
      rw [SortedMap.get?_insert] at he
      split at he
      · rename_i hqp
        obtain rfl := Option.some.inj he
        rw [hqp]
        rw [hed.readVersion] at hv
        rw [hed.observed] at hd
        exact ⟨_, (View.locate_eq_staged.1 hl).2.1, hv, hd⟩
      · exact ⟨e, he, hv, hd⟩
  | remove _ _ =>
      obtain ⟨-, f, hf, ⟨-, rfl⟩ | ⟨-, rfl⟩⟩ := Workspace.of_get?_remove he
      · exact ⟨f, hf, hv, hd⟩
      · exact ⟨_, hf, hv, hd⟩

/-- **What comes to be observed is committed.** -/
theorem Stages.sighting (h : Stages b w acts w') (hq : w'.sighting? q = some x) :
    w.sighting? q = some x ∨ ∃ n, b.tree.peek? q = some n ∧ x = (n.version, n.data) := by
  induction h with
  | refl => exact .inl hq
  | note _ hs ih => exact (hs.sighting hq).elim ih .inr
  | act _ hs ih => exact ih (hs.sighting hq)

end Sightings

/-! ### Turns -/

/-- The turn sets a version for what is written. -/
def Turn.setsVersion : Turn → Bool
  | .step taken => taken.setsVersion
  | _ => false

namespace SharedTree

variable {s s₁ : SharedTree} {name other l : String} {c : Context} {n : Node} {x : Version × Data}
variable {turn : Turn} {turns : List Turn}

/-- The settings never change. -/
theorem config_runTurns (s : SharedTree) (turns : List Turn) :
    (s.runTurns turns).store.config = s.store.config := by
  induction turns generalizing s with
  | nil => rfl
  | cons turn turns ih =>
      refine (ih _).trans ?_
      cases turn with
      | step step => exact config_take s step
      | join name thread transaction => rfl
      | listen l => rfl
      | unlisten l => rfl

/-! ### Since when -/

/-- What the unit of work of this name has observed at the path. -/
def sighting? (s : SharedTree) (name : String) (p : Path) : Option (Version × Data) :=
  (s.context? name).bind (·.workspace.sighting? p)

/-- When one unit of work has changed, what is observed was observed before, or is by that one. -/
theorem sighting_of_insert (hcs : s₁.contexts = s.contexts.insert other c)
    (hx : s₁.sighting? name p = some x) :
    s.sighting? name p = some x ∨ name = other ∧ c.workspace.sighting? p = some x := by
  rw [sighting?, context?_insert hcs] at hx
  split at hx
  · rename_i hname
    exact .inr ⟨hname, hx⟩
  · exact .inl hx

/-- **What comes to be observed with a turn is committed**, and an operation copies it. -/
theorem sighting_takeTurn (h : s.Attentive)
    (hx : (s.takeTurn turn).sighting? name p = some x) :
    s.sighting? name p = some x ∨ ∃ o n, turn = .step (.perform name o) ∧
      s.store.tree.peek? p = some n ∧ x = (n.version, n.data) := by
  have hsame : (s.takeTurn turn).contexts = s.contexts → s.sighting? name p = some x := by
    intro hcs
    rw [sighting?, context?, hcs] at hx
    exact hx
  -- a unit of work without entries has observed nothing
  have hempty : ∀ {c : Context}, c.workspace = .empty → ¬c.workspace.sighting? p = some x := by
    intro c hw
    simp [hw, Workspace.sighting?]
  cases passage_takeTurn s turn with
  | idle hcs _ => exact .inl (hsame hcs)
  | purged hcs _ => exact .inl (hsame hcs)
  | begun hcs _ =>
      exact .inl ((sighting_of_insert hcs hx).resolve_right fun hnew => hempty rfl hnew.2)
  | set _ hc hcs _ =>
      rcases sighting_of_insert hcs hx with hold | ⟨rfl, hnew⟩
      · exact .inl hold
      · rw [sighting?, hc]
        exact .inl hnew
  | @performed _ c o hturn hc hcs _ =>
      rcases sighting_of_insert hcs hx with hold | ⟨rfl, hnew⟩
      · exact .inl hold
      · obtain ⟨acts, hst⟩ := Base.staged_perform (b := s.store.base) (w := ⟨s.store.locks, c⟩)
          h.sane.sound (h.sane.tidy hc) o
        rcases hst.stages.sighting hnew with hold | ⟨n, hn, hxn⟩
        · rw [sighting?, hc]
          exact .inl hold
        · exact .inr ⟨o, n, hturn, hn, hxn⟩
  | @committed _ c _ hc hcs _ =>
      rcases sighting_of_insert hcs hx with hold | ⟨rfl, hnew⟩
      · exact .inl hold
      · rcases Store.workspace_commit s.store c with hw | hw
        · exact absurd hnew (hempty hw)
        · rw [hw] at hnew
          rw [sighting?, hc]
          exact .inl hnew
  | rolledBack _ hcs _ =>
      exact .inl ((sighting_of_insert hcs hx).resolve_right fun hnew => hempty rfl hnew.2)

/-- **What an entry has observed was committed** when an operation of the unit of work has copied
the node, and the entry has remembered it since. -/
theorem exists_sighting (h : s.Attentive) (hfirst : s.sighting? name p = none)
    (hlast : (s.runTurns turns).sighting? name p = some x) :
    ∃ before o after n, turns = before ++ .step (.perform name o) :: after ∧
      (s.runTurns before).store.tree.peek? p = some n ∧ x = (n.version, n.data) ∧
      ∀ k, (s.runTurns (before ++ .step (.perform name o) :: after.take k)).sighting? name p =
        some x := by
  obtain ⟨before, turn, after, rfl, hno, hsince⟩ :=
    foldl_since (P := fun s : SharedTree => s.sighting? name p = some x) (by simp [hfirst]) hlast
  have hstep := hsince 0
  rw [List.take_zero, ← runTurns, runTurns_append] at hstep
  obtain ⟨o, n, rfl, hn, hx⟩ := (sighting_takeTurn (h.runTurns before) hstep).resolve_left hno
  exact ⟨before, o, after, n, rfl, hn, hx, hsince⟩

/-- Only a commit changes what is committed. -/
theorem data?_takeTurn (h : s.Attentive) (turn : Turn)
    (hno : ∀ other, turn ≠ .step (.commit other)) :
    (s.takeTurn turn).store.tree.data? p = s.store.tree.data? p := by
  cases passage_takeTurn s turn with
  | idle _ ht => rw [ht]
  | purged _ ht => rw [ht, CommittedTree.data?, h.sane.sound.peek?_purge, CommittedTree.data?]
  | begun _ ht => rw [ht]
  | set _ _ _ ht => rw [ht]
  | performed _ _ _ ht => rw [ht]
  | committed hturn _ _ _ => exact absurd hturn (hno _)
  | rolledBack _ _ ht => rw [ht]

/-- **What is no longer committed went with a commit**, and has not come back since. -/
theorem exists_departure (h : s.Attentive) (hfirst : s.store.tree.data? p = image)
    (hlast : (s.runTurns turns).store.tree.data? p ≠ image) :
    ∃ before other after, turns = before ++ .step (.commit other) :: after ∧
      (s.runTurns before).store.tree.data? p = image ∧
      ∀ k, (s.runTurns (before ++ .step (.commit other) :: after.take k)).store.tree.data? p ≠
        image := by
  obtain ⟨before, turn, after, rfl, hsame, hsince⟩ :=
    foldl_since (P := fun s : SharedTree => s.store.tree.data? p ≠ image)
      (fun hne => hne hfirst) hlast
  have hsame : (s.runTurns before).store.tree.data? p = image := not_not.1 hsame
  have hstep := hsince 0
  rw [List.take_zero, ← runTurns, runTurns_append] at hstep
  obtain ⟨other, rfl⟩ : ∃ other, turn = .step (.commit other) := by
    by_contra hno
    exact hstep ((data?_takeTurn (h.runTurns before) turn (not_exists.1 hno)).trans hsame)
  exact ⟨before, other, after, rfl, hsame, hsince⟩

/-! ### Versions that are not used twice -/

/-- No options name a version. -/
def Versionless (s : SharedTree) : Prop :=
  ∀ name c, s.context? name = some c → c.options.version = none

theorem versionless_ofConfig (config : Config) (hash : Path → UInt64) :
    (ofConfig config hash).Versionless := by
  intro name c hc
  simp [context?, ofConfig] at hc

theorem Versionless.takeTurn (h : s.Versionless) (hs : s.Attentive)
    (hturn : turn.setsVersion = false) : (s.takeTurn turn).Versionless := by
  have hnew : ∀ {other : String} {c' : Context},
      (s.takeTurn turn).contexts = s.contexts.insert other c' → c'.options.version = none →
      (s.takeTurn turn).Versionless := by
    intro other c' hcs hnone name d hd
    rw [context?_insert hcs] at hd
    split at hd
    · obtain rfl := Option.some.inj hd
      exact hnone
    · exact h name d hd
  have hsame : (s.takeTurn turn).contexts = s.contexts → (s.takeTurn turn).Versionless := by
    intro hcs name d hd
    rw [context?, hcs] at hd
    exact h name d hd
  cases passage_takeTurn s turn with
  | idle hcs _ => exact hsame hcs
  | purged hcs _ => exact hsame hcs
  | begun hcs _ => exact hnew hcs rfl
  | set hset hc hcs _ =>
      subst hset
      exact hnew hcs (by simpa [Turn.setsVersion, Step.setsVersion] using hturn)
  | @performed _ c o _ hc hcs _ =>
      obtain ⟨acts, hst⟩ := Base.staged_perform (b := s.store.base) (w := ⟨s.store.locks, c⟩)
        hs.sane.sound (hs.sane.tidy hc) o
      exact hnew hcs ((congrArg Options.version hst.options).trans (h _ _ hc))
  | committed _ hc hcs _ =>
      exact hnew hcs ((congrArg Options.version (Store.options_commit _ _)).trans (h _ _ hc))
  | @rolledBack _ c hc hcs _ => exact hnew hcs (h _ c hc)

/-- No options name a version as long as no turn sets one. -/
theorem Versionless.runTurns (h : s.Versionless) (hs : s.Attentive)
    (hturns : ∀ turn ∈ turns, turn.setsVersion = false) : (s.runTurns turns).Versionless := by
  induction turns generalizing s with
  | nil => exact h
  | cons turn turns ih =>
      rw [List.forall_mem_cons] at hturns
      exact ih (h.takeTurn hs hturns.1) (hs.takeTurn turn) hturns.2

/-- **The counter of versions stays below the last one** before, during and after the run. -/
def Unspent (s : SharedTree) (turns : List Turn) : Prop :=
  ∀ k, ¬(s.runTurns (turns.take k)).store.tree.Spent

namespace Unspent

theorem first (h : s.Unspent turns) : ¬s.store.tree.Spent := h 0

theorem rest (h : s.Unspent (turn :: turns)) : (s.takeTurn turn).Unspent turns := fun k => h (k + 1)

/-- It does so in the first and in the second part of the run. -/
theorem of_append {turns' : List Turn} (h : s.Unspent (turns ++ turns')) :
    s.Unspent turns ∧ (s.runTurns turns).Unspent turns' := by
  induction turns generalizing s with
  | nil => exact ⟨fun k => by rw [List.take_nil]; exact h.first, h⟩
  | cons turn turns ih =>
      obtain ⟨hfirst, hsecond⟩ := ih h.rest
      refine ⟨fun k => ?_, hsecond⟩
      cases k with
      | zero => exact h.first
      | succ k => exact hfirst k

end Unspent

/-- A turn sets the counter forward by one at most, if no options name a version. -/
theorem toNat_version_takeTurn (hv : s.Versionless) (hlast : ¬s.store.tree.Spent) (turn : Turn) :
    (s.takeTurn turn).store.tree.version.toNat ≤ s.store.tree.version.toNat + 1 := by
  have hsame : (s.takeTurn turn).store.tree = s.store.tree →
      (s.takeTurn turn).store.tree.version.toNat ≤ s.store.tree.version.toNat + 1 :=
    fun ht => by rw [ht]; exact Nat.le_succ _
  cases passage_takeTurn s turn with
  | idle _ ht => exact hsame ht
  | purged _ ht =>
      rw [ht]
      exact Nat.le_succ _
  | begun _ ht => exact hsame ht
  | set _ _ _ ht => exact hsame ht
  | performed _ _ _ ht => exact hsame ht
  | @committed _ c _ hc _ ht =>
      rw [ht]
      rcases Store.tree_commit s.store c with hkept | hmerge
      · rw [hkept]
        exact Nat.le_succ _
      · have hnext : s.store.tree.version.next.toNat = s.store.tree.version.toNat + 1 :=
          Version.toNat_next hlast
        have hstamp : s.store.stamp c =
            (s.store.tree.version.next, s.store.tree.allocate.2) := by
          rw [Store.stamp, hv _ _ hc]
          rfl
        rw [hmerge, Store.merge_eq, hstamp, ← hnext]
        -- the counter is the version of the commit already
        rcases version_mergeAll (t := s.store.tree.allocate.2) (v := s.store.tree.version.next)
          (o := ⟨c.transaction, c.options.localOnly⟩) with hkept | hnoted
        · rw [hkept]
          exact Nat.le_refl _
        · rw [hnoted, show s.store.tree.allocate.2.version = s.store.tree.version.next from rfl,
            Std.max_self]
  | rolledBack _ _ ht => exact hsame ht

/-- **A run that names no versions stays below the last one** if it has fewer turns than there are
versions left. -/
theorem unspent_of_length (hs : s.Attentive) (hv : s.Versionless)
    (hturns : ∀ turn ∈ turns, turn.setsVersion = false)
    (hlength : s.store.tree.version.toNat + turns.length < Version.last.toNat) :
    s.Unspent turns := by
  have hfirst : ¬s.store.tree.Spent := fun hspent => by
    rw [show s.store.tree.version = Version.last from hspent] at hlength
    omega
  induction turns generalizing s with
  | nil => exact fun k => by rw [List.take_nil]; exact hfirst
  | cons turn turns ih =>
      rw [List.forall_mem_cons] at hturns
      have hstep := toNat_version_takeTurn hv hfirst turn
      rw [List.length_cons] at hlength
      have hrest : (s.takeTurn turn).store.tree.version.toNat + turns.length <
          Version.last.toNat := by
        omega
      intro k
      cases k with
      | zero => exact hfirst
      | succ k =>
          refine ih (hs.takeTurn turn) (hv.takeTurn hs hturns.1) hturns.2 hrest (fun hspent => ?_) k
          rw [show (s.takeTurn turn).store.tree.version = Version.last from hspent] at hrest
          omega

/-- **No other node has come to the path under the version of this one**, and none will: the counter
is not behind it. -/
structure Unmatched (s : SharedTree) (p : Path) (n : Node) : Prop where
  /-- The version was given out or seen. -/
  le : n.version ≤ s.store.tree.version
  /-- A node under the version is this one. -/
  eq : ∀ {m : Node}, s.store.tree.peek? p = some m → m.version = n.version → m = n

/-- **Each turn leaves it so** as long as no options name a version, and the counter is not at the
last one. -/
theorem Unmatched.takeTurn (h : s.Unmatched p n) (hs : s.Attentive) (hv : s.Versionless)
    (hlast : ¬s.store.tree.Spent) (turn : Turn) : (s.takeTurn turn).Unmatched p n := by
  have hsame : (s.takeTurn turn).store.tree = s.store.tree → (s.takeTurn turn).Unmatched p n := by
    intro ht
    exact ⟨by rw [ht]; exact h.le, fun hm => h.eq (by rw [← ht]; exact hm)⟩
  cases passage_takeTurn s turn with
  | idle _ ht => exact hsame ht
  | purged _ ht =>
      refine ⟨by rw [ht]; exact h.le, fun hm => h.eq ?_⟩
      rw [ht, hs.sane.sound.peek?_purge] at hm
      exact hm
  | begun _ ht => exact hsame ht
  | set _ _ _ ht => exact hsame ht
  | performed _ _ _ ht => exact hsame ht
  | @committed _ c _ hc _ ht =>
      refine ⟨by rw [ht]; exact UInt64.le_trans h.le (Store.version_le_commit hlast _), ?_⟩
      intro m hm heq
      rw [ht] at hm
      rcases Store.version_of_commit hs.sane.sound (hs.sane.tidy hc) hm with hold | hnew
      · exact h.eq hold heq
      -- what the commit writes has a version that the counter had not reached
      · rw [hv _ _ hc, heq] at hnew
        have hlt : n.version < s.store.tree.version.next :=
          UInt64.lt_of_le_of_lt h.le (CommittedTree.lt_allocate hlast)
        exact absurd hnew (UInt64.ne_of_lt hlt)
  | rolledBack _ _ ht => exact hsame ht

theorem Unmatched.runTurns (h : s.Unmatched p n) (hs : s.Attentive) (hv : s.Versionless)
    (hturns : ∀ turn ∈ turns, turn.setsVersion = false) (hlast : s.Unspent turns) :
    (s.runTurns turns).Unmatched p n := by
  induction turns generalizing s with
  | nil => exact h
  | cons turn turns ih =>
      rw [List.forall_mem_cons] at hturns
      exact ih (h.takeTurn hs hv hlast.first turn) (hs.takeTurn turn) (hv.takeTurn hs hturns.1)
        hturns.2 hlast.rest

/-- The counter is not behind a stamp. -/
theorem stamped_runTurns (h : s.store.tree.Stamped) (hlast : s.Unspent turns) :
    (s.runTurns turns).store.tree.Stamped := by
  induction turns generalizing s with
  | nil => exact h
  | cons turn turns ih =>
      refine ih ?_ hlast.rest
      cases passage_takeTurn s turn with
      | idle _ ht => exact ht ▸ h
      | purged _ ht => exact ht ▸ h.purge
      | begun _ ht => exact ht ▸ h
      | set _ _ _ ht => exact ht ▸ h
      | performed _ _ _ ht => exact ht ▸ h
      | @committed _ c _ _ _ ht => exact ht ▸ Store.stamped_commit h hlast.first c
      | rolledBack _ _ ht => exact ht ▸ h

/-! ### What was there before -/

variable {config : Config} {hash : Path → UInt64}

/-- **What a unit of work has observed at the path was overtaken**: one of its operations has copied
the data `d`, which were committed then, and the unit of work remembers them; but a commit that came
later has changed them, and they have not been committed again. -/
def Overtaken (config : Config) (hash : Path → UInt64) (turns : List Turn) (name : String)
    (p : Path) (d : Data) : Prop :=
  let after := (ofConfig config hash).runTurns
  ∃ before o between other later n,
    turns = before ++ .step (.perform name o) :: (between ++ .step (.commit other) :: later) ∧
    (after before).store.tree.peek? p = some n ∧ n.data = d ∧
    (∀ k, (after (before ++ .step (.perform name o) ::
      (between ++ .step (.commit other) :: later).take k)).sighting? name p =
        some (n.version, d)) ∧
    (after (before ++ .step (.perform name o) :: between)).store.tree.data? p = some d ∧
    ∀ k, (after (before ++ .step (.perform name o) ::
      (between ++ .step (.commit other) :: later.take k))).store.tree.data? p ≠ some d

theorem runTurns_split (s : SharedTree) (before : List Turn) (turn : Turn) (turns : List Turn) :
    s.runTurns (before ++ turn :: turns) = (s.runTurns (before ++ [turn])).runTurns turns := by
  rw [← runTurns_append, List.append_assoc, List.singleton_append]

/-- What was overtaken is not committed. -/
theorem Overtaken.data?_ne (h : Overtaken config hash turns name p d) :
    ((ofConfig config hash).runTurns turns).store.tree.data? p ≠ some d := by
  obtain ⟨before, o, between, other, later, n, rfl, -, -, -, -, hgone⟩ := h
  have hlast := hgone later.length
  rwa [List.take_length] at hlast

/-- What has been observed and is not committed was overtaken. -/
theorem overtaken_of_sighting
    (hx : ((ofConfig config hash).runTurns turns).sighting? name p = some (v, d))
    (hne : ((ofConfig config hash).runTurns turns).store.tree.data? p ≠ some d) :
    Overtaken config hash turns name p d := by
  have h := attentive_ofConfig config hash
  obtain ⟨before, o, rest, n, rfl, hn, hxn, hsince⟩ := exists_sighting h rfl hx
  obtain ⟨rfl, rfl⟩ := Prod.mk.inj hxn
  -- the operation has left the tree as it was
  have hfirst : ((ofConfig config hash).runTurns
      (before ++ [.step (.perform name o)])).store.tree.data? p = some n.data := by
    have hkept := data?_takeTurn (p := p) (h.runTurns before) (.step (.perform name o)) (by simp)
    rw [CommittedTree.data?, CommittedTree.data?, hn] at hkept
    rw [runTurns_append]
    exact hkept
  rw [runTurns_split] at hne
  obtain ⟨between, other, later, rfl, hsame, hgone⟩ :=
    exists_departure (h.runTurns _) hfirst hne
  rw [← runTurns_split] at hsame
  refine ⟨before, o, between, other, later, n, rfl, hn, rfl, hsince, hsame, fun k => ?_⟩
  rw [runTurns_split]
  exact hgone k

/-- **The check for write skew keeps what was observed**: if it is on, and no options name a
version, the data that a dirty entry has observed are committed when it passes. -/
theorem data?_of_checked (hturns : ∀ turn ∈ turns, turn.setsVersion = false)
    (hlast : (ofConfig config hash).Unspent turns)
    (hx : ((ofConfig config hash).runTurns turns).sighting? name p = some (v, d))
    (hpass : ((ofConfig config hash).runTurns turns).store.base.committedVersion p = some v) :
    ((ofConfig config hash).runTurns turns).store.tree.data? p = some d := by
  have h := attentive_ofConfig config hash
  obtain ⟨before, o, rest, n, rfl, hn, hxn, -⟩ := exists_sighting h rfl hx
  obtain ⟨rfl, rfl⟩ := Prod.mk.inj hxn
  rw [List.forall_mem_append] at hturns
  obtain ⟨hlast₁, hlast₂⟩ := hlast.of_append
  have hslot := ((h.runTurns before).sane.sound.peek?_eq_some.1 hn).1
  have hfirst : ((ofConfig config hash).runTurns before).Unmatched p n :=
    ⟨stamped_runTurns CommittedTree.stamped_empty hlast₁ p n hslot, fun hm _ =>
      Option.some.inj (hm.symm.trans hn)⟩
  have hlast := hfirst.runTurns (h.runTurns before)
    ((versionless_ofConfig config hash).runTurns h hturns.1) hturns.2 hlast₂
  rw [← runTurns_append] at hlast
  obtain ⟨m, hm, hmv⟩ := Option.map_eq_some_iff.1 hpass
  obtain rfl := hlast.eq hm hmv
  exact congrArg (Option.map Node.data) hm

/-- **The data from before are the committed ones, unless they were overtaken.**  Whatever units of
work have done, and whoever listens: if a listener is told of a commit that a node was modified or
removed, it is told data from before.  They are those of the node in the tree that the commit is
merged into, unless an operation of the unit of work has observed them and a commit that came later
has changed them.  That does not happen if the check for write skew is on, no options name a version
and the counter of versions stays below the last one. -/
theorem before_image_true_unless_overtaken (hrun : (ofConfig config hash).runTurns turns = s)
    (hc : s.context? name = some c) (hev : ev ∈ heard l (s.store.commit c).sent)
    (himage : ev.image? = some (p, image)) :
    ∃ d, image = some d ∧
      (s.store.tree.data? p ≠ some d ↔ Overtaken config hash turns name p d) ∧
      (config.writeSkewCheckActive = true → (∀ turn ∈ turns, turn.setsVersion = false) →
        (ofConfig config hash).Unspent turns → s.store.tree.data? p = some d) := by
  subst hrun
  have h := (attentive_ofConfig config hash).runTurns turns
  have hpass := (Store.mem_merge_of_heard hev himage).1
  obtain ⟨e, he, hdirty, ⟨hread, himaged⟩ | ⟨hsome, himaged⟩⟩ :=
    Store.imaged_of_heard h.sane.sound (h.sane.tidy hc) hev himage
  · obtain ⟨v, hv⟩ := Option.isSome_iff_exists.1 hread
    obtain ⟨d, hd⟩ := Option.isSome_iff_exists.1 (h.observed hc p e he hread)
    have hx : ((ofConfig config hash).runTurns turns).sighting? name p = some (v, d) := by
      rw [sighting?, hc]
      exact Workspace.sighting?_eq_some.2 ⟨e, he, hv, hd⟩
    refine ⟨d, himaged.trans hd, ⟨overtaken_of_sighting hx, Overtaken.data?_ne⟩, ?_⟩
    intro hskew hturns hlast
    rw [config_runTurns, show (ofConfig config hash).store.config = config from rfl, hskew,
      Base.conflicts, if_pos rfl, List.append_eq_nil_iff] at hpass
    exact data?_of_checked hturns hlast hx
      ((Base.skewConflicts_eq_nil.1 hpass.1 p e he hdirty).trans hv)
  · obtain ⟨d, hd⟩ := Option.isSome_iff_exists.1 hsome
    have hdata := himaged.symm.trans hd
    exact ⟨d, hd, ⟨fun hne => absurd hdata hne, fun ho => absurd hdata ho.data?_ne⟩,
      fun _ _ _ => hdata⟩

/-- The transaction `t` reads `/a`, and then `s` changes it.  What `t` writes is to be committed. -/
def staleTurns : List Turn :=
  let a : Path := ⟨["a"]⟩
  [.listen "x", .join "s" ⟨"main", 0⟩ (some (1 : Nat)), .join "t" ⟨"main", 0⟩ (some (2 : Nat)),
    .step (.perform "s" (.put a "k" (.int 1))), .step (.commit "s"),
    .step (.perform "t" (.get a "k")),
    .step (.perform "s" (.put a "k" (.int 2))), .step (.commit "s"),
    .step (.perform "t" (.put a "k" (.int 3)))]

/-- The state in which `t` is to be committed. -/
def staleState : SharedTree := (ofConfig {}).runTurns staleTurns

/-- The transaction `t` in that state. -/
def staleContext : Context := (staleState.context? "t").getD default

/-- The data of `/a` with this value. -/
def staleData (k : Int64) : Data := SortedMap.empty.insert "k" (.int k)

/-- What the listener is told of the commit of `t`. -/
def staleEvent : Event :=
  .modified ⟨["a"]⟩ (some (staleData 1)) (staleData 3) ⟨some (2 : Nat), false⟩

/-- What was there before has been overtaken. -/
theorem stale_image_overtaken : Overtaken {} Stripe.hash staleTurns "t" ⟨["a"]⟩ (staleData 1) := by
  have hc : staleState.context? "t" = some staleContext := by decide +kernel
  have hev : staleEvent ∈ heard "x" (staleState.store.commit staleContext).sent := by
    decide +kernel
  obtain ⟨d, hd, hiff, -⟩ := before_image_true_unless_overtaken (Eq.refl staleState) hc hev
    (Eq.refl staleEvent.image?)
  obtain rfl := Option.some.inj hd
  exact hiff.1 (by decide +kernel)

/-- **The data from before need not be the committed ones.** -/
theorem not_before_images_true :
    ¬∀ (config : Config) (turns : List Turn) (name l : String) (c : Context) (ev : Event)
      (p : Path) (image : Option Data),
      ((ofConfig config).runTurns turns).context? name = some c →
      ((ofConfig config).runTurns turns).store.Completes c →
      ev ∈ heard l (((ofConfig config).runTurns turns).store.commit c).sent →
      ev.image? = some (p, image) →
      image = ((ofConfig config).runTurns turns).store.tree.data? p := by
  intro h
  have hsame := h {} staleTurns "t" "x" staleContext staleEvent ⟨["a"]⟩ (some (staleData 1))
    (by decide +kernel) ⟨by decide +kernel, by decide +kernel⟩ (by decide +kernel) rfl
  revert hsame
  decide +kernel

end SharedTree

end TransactionalTree
