/-
**Workspaces over a tree that does not change.**

While nobody else commits, all entries of a workspace are about the same tree.  Then what is seen is
closed under parents, a copy is that of the committed node, and where an entry has observed nothing
there is nothing, or a node above is replaced.  From this it follows that no note changes what is
seen, that a node that is made comes without anything below it, that the names of children are
those of the nodes that are there, and that a merge leaves exactly what is seen.

Main definitions:

* `Faithful` — **the invariant of a workspace over a tree that does not change**.

Main results:

* `Faithful.note`, `Faithful.stage` — the steps keep the invariant;
* `Faithful.data?_note`, `Faithful.data?_create` — what is seen after a step;
* `Faithful.has_childNames`, `Faithful.mem_descendants` — the names and nodes below a node;
* `Faithful.outcome_dirty` — **a merge leaves what is seen**.
-/

import Mathlib.Data.List.Nodup
import TransactionalTree.Proofs.Runs

set_option relaxedAutoImplicit false
set_option autoImplicit false

namespace TransactionalTree

/-- **The invariant of a workspace over a tree that does not change.** -/
structure Faithful (b : Base) (w : Workspace) : Prop where
  /-- The tree is sound. -/
  sound : b.tree.Sound
  /-- The workspace is tidy. -/
  tidy : w.Tidy
  /-- Above a node that has an entry there are nodes. -/
  parent : ∀ {p : Path} {name : String} {e : Entry}, w.get? (p.push name) = some e →
    e.isPresent = true → (View.mk b w).exists? p = true
  /-- A copy is that of the committed node, but for the data that were written, and no node above it
  is made anew. -/
  copied : ∀ {p : Path} {e : Entry}, w.get? p = some e → e.isPresent = true → e.created = false →
    ∃ n, b.tree.peek? p = some n ∧ e.children = b.tree.childNames p ∧
      (e.changed = false → e.data = n.data) ∧ ¬(View.mk b w).isShadowed p = true
  /-- Where no node was observed there is none, or a node above is replaced. -/
  unseen : ∀ {p : Path} {e : Entry}, w.get? p = some e → e.readVersion = none →
    b.tree.peek? p = none ∨ ∃ r g, r.isAbove p = true ∧ w.get? r = some g ∧ g.created = true ∧
      g.replacesBase = true

namespace Faithful

variable {b : Base} {w w' : Workspace} {p q r : Path} {name : String} {e : Entry} {a : Act}

theorem empty (hb : b.tree.Sound) : Faithful b .empty where
  sound := hb
  tidy := Workspace.tidy_empty
  parent h := by simp at h
  copied h := by simp at h
  unseen h := by simp at h

section Seen

variable (h : Faithful b w)
include h

/-! ### What is seen is closed under parents -/

/-- A node has a parent. -/
theorem exists?_parent (hex : (View.mk b w).exists? (p.push name) = true) :
    (View.mk b w).exists? p = true := by
  rcases View.exists?_iff.1 hex with ⟨e, hl⟩ | ⟨n, hl⟩
  · obtain ⟨-, he, hp⟩ := View.locate_eq_staged.1 hl
    exact h.parent he hp
  · obtain ⟨hc, -, hs, hn⟩ := View.locate_eq_committed.1 hl
    have habove := Path.isAbove_push_self p name
    have hc' : ¬(View.mk b w).isCutOff p = true := fun hc' =>
      hc (View.isCutOff_of_isAbove habove hc')
    rw [View.exists?_iff]
    cases he : w.get? p with
    | some e =>
        have hp : e.isPresent = true := by
          by_contra hp
          exact hc (View.isCutOff_iff.2 ⟨p, e, habove, he, by simpa using hp⟩)
        exact .inl ⟨e, View.locate_eq_staged.2 ⟨hc', he, hp⟩⟩
    | none =>
        have hvalid := h.sound.parent (h.sound.exists?_iff.1 (CommittedTree.exists?_iff_peek?.2
          ⟨n, hn⟩))
        obtain ⟨n', hn'⟩ := CommittedTree.exists?_iff_peek?.1 (h.sound.exists?_iff.2 hvalid)
        exact .inr ⟨n', View.locate_eq_committed.2
          ⟨hc', he, fun hs' => hs (View.isShadowed_of_isAbove habove hs'), hn'⟩⟩

/-- Above a node there are nodes. -/
theorem exists?_of_isAtOrBelow (hqp : q.isAtOrBelow p = true)
    (hex : (View.mk b w).exists? q = true) : (View.mk b w).exists? p = true :=
  Path.climb (motive := fun p => (View.mk b w).exists? p = true) h.exists?_parent hqp hex

/-- A node whose entry is present is seen. -/
theorem locate_of_present (he : w.get? p = some e) (hp : e.isPresent = true) :
    (View.mk b w).locate p = .staged e := by
  refine View.locate_eq_staged.2 ⟨?_, he, hp⟩
  cases p using Path.rootOrPush with
  | root =>
      rw [View.isCutOff_iff]
      rintro ⟨q, -, hq, -⟩
      exact Path.isAbove_root hq
  | push p name => exact View.not_isCutOff_push (h.parent he hp)

theorem exists?_of_present (he : w.get? p = some e) (hp : e.isPresent = true) :
    (View.mk b w).exists? p = true :=
  View.exists?_iff.2 (.inl ⟨e, h.locate_of_present he hp⟩)

/-- Above a node nothing is made where there is nothing yet. -/
theorem not_isAtOrBelow_of_exists? (hex : (View.mk b w).exists? q = true)
    (hp : (View.mk b w).exists? p = false) : ¬q.isAtOrBelow p = true := by
  intro hqp
  rw [h.exists?_of_isAtOrBelow hqp hex] at hp
  simp at hp

/-! ### What is seen after a step -/

/-- A note changes nothing of what is seen. -/
theorem data?_note (hs : Note b w w') (q : Path) :
    (View.mk b w').data? q = (View.mk b w).data? q := by
  rcases View.data?_note hs q with heq | ⟨hnone, p, hp, hdata⟩
  · exact heq
  · rw [hnone, eq_comm, View.data?_eq_none, ← Bool.not_eq_true]
    exact fun hex => h.not_isAtOrBelow_of_exists? hex (View.data?_eq_none.1 hdata)
      (Path.isAtOrBelow_of_isAbove hp)

/-- A node that is made where there was none has no data, and nothing comes with it. -/
theorem data?_create (hp : (View.mk b w).exists? p = true)
    (hnew : (View.mk b w).exists? (p.push name) = false) (q : Path) :
    (View.mk b (w.insert (p.push name)
      ((w.get? (p.push name)).elim .fresh .recreate))).data? q =
        if q = p.push name then some .empty else (View.mk b w).data? q := by
  obtain ⟨hpres, hcr, hdata⟩ := Entry.isPresent_made (w.get? (p.push name))
  generalize (w.get? (p.push name)).elim Entry.fresh Entry.recreate = made at hpres hcr hdata
  by_cases hq : q = p.push name
  · subst hq
    rw [if_pos rfl, View.data?, View.locate_insert_present (View.not_isCutOff_push hp) hpres]
    exact congrArg some hdata
  · rw [if_neg hq]
    by_cases hbelow : (p.push name).isAbove q = true
    · -- below it there was nothing, and all that is committed there is hidden
      have hnone : (View.mk b w).exists? q = false := by
        rw [← Bool.not_eq_true]
        exact fun hex => h.not_isAtOrBelow_of_exists? hex hnew (Path.isAtOrBelow_of_isAbove hbelow)
      rw [View.data?_eq_none.2 hnone, View.data?_eq_none, ← Bool.not_eq_true]
      intro hex
      rcases View.exists?_iff.1 hex with ⟨e, hl⟩ | ⟨n, hl⟩
      · obtain ⟨-, he, hep⟩ := View.locate_eq_staged.1 hl
        rw [SortedMap.get?_insert_of_ne hq] at he
        rw [h.exists?_of_present he hep] at hnone
        simp at hnone
      · exact (View.locate_eq_committed.1 hl).2.2.1
          (View.isShadowed_iff.2 ⟨_, _, hbelow, SortedMap.get?_insert_self, hcr⟩)
    · have hnot : ¬q.isAtOrBelow (p.push name) = true := by
        rw [Path.isAtOrBelow_iff]
        rintro (heq | habove)
        · exact hq heq
        · exact hbelow habove
      rw [View.data?, View.data?, View.locate_insert_of_not hnot]

end Seen

/-! ### The steps keep the invariant -/

/-- What is above an entry that is there, but not made anew, is not made anew. -/
theorem not_created_above (h : Faithful b w) (he : w.get? q = some e) (hp : e.isPresent = true)
    (hc : e.created = false) {g : Entry} (hr : r.isAbove q = true) (hg : w.get? r = some g) :
    g.created = false := by
  obtain ⟨n, -, -, -, hs⟩ := h.copied he hp hc
  rw [← Bool.not_eq_true]
  exact fun hgc => hs (View.isShadowed_iff.2 ⟨r, g, hr, hg, hgc⟩)

/-- **An entry that is set keeps the invariant** if it satisfies its clauses, takes no node away,
and does not hide what was copied. -/
theorem insert (h : Faithful b w) (htidy : Workspace.Tidy (w.insert p e))
    (hkeep : ∀ q, (View.mk b w).exists? q = true → (View.mk b (w.insert p e)).exists? q = true)
    (hparent : e.isPresent = true → ∀ r name, p = r.push name → (View.mk b w).exists? r = true)
    (hcopied : e.isPresent = true → e.created = false →
      ∃ n, b.tree.peek? p = some n ∧ e.children = b.tree.childNames p ∧
        (e.changed = false → e.data = n.data) ∧ ¬(View.mk b w).isShadowed p = true)
    (hhide : e.created = true → ∀ q g, w.get? q = some g → g.isPresent = true →
      g.created = false → ¬p.isAbove q = true)
    (hunseen : e.readVersion = none → b.tree.peek? p = none ∨ ∃ r g, r.isAbove p = true ∧
      w.get? r = some g ∧ g.created = true ∧ g.replacesBase = true)
    (hreplaced : ∀ g, w.get? p = some g → g.created = true → g.replacesBase = true →
      e.created = true ∧ e.replacesBase = true) : Faithful b (w.insert p e) where
  sound := h.sound
  tidy := htidy
  parent {q name g} hg hgp := by
    rw [SortedMap.get?_insert] at hg
    split at hg
    · rename_i hq
      obtain rfl := Option.some.inj hg
      exact hkeep _ (hparent hgp _ _ hq.symm)
    · exact hkeep _ (h.parent hg hgp)
  copied {q g} hg hgp hgc := by
    rw [SortedMap.get?_insert] at hg
    split at hg
    · rename_i hq
      obtain rfl := Option.some.inj hg
      subst hq
      obtain ⟨n, hn, hch, hd, hs⟩ := hcopied hgp hgc
      refine ⟨n, hn, hch, hd, ?_⟩
      rwa [View.isShadowed_congr fun r hr => SortedMap.get?_insert_of_ne (Path.ne_of_isAbove hr)]
    · obtain ⟨n, hn, hch, hd, hs⟩ := h.copied hg hgp hgc
      refine ⟨n, hn, hch, hd, fun hs' => ?_⟩
      obtain ⟨r, f, hr, hf, hfc⟩ := View.isShadowed_iff.1 hs'
      simp only [SortedMap.get?_insert] at hf
      split at hf
      · rename_i hrp
        obtain rfl := Option.some.inj hf
        exact hhide hfc q g hg hgp hgc (by rw [← hrp]; exact hr)
      · exact hs (View.isShadowed_iff.2 ⟨r, f, hr, hf, hfc⟩)
  unseen {q g} hg hgv := by
    -- a node that is replaced stays replaced
    have hstays : ∀ {q : Path}, (∃ r g, r.isAbove q = true ∧ w.get? r = some g ∧
        g.created = true ∧ g.replacesBase = true) →
        ∃ r g, r.isAbove q = true ∧ SortedMap.get? (w.insert p e) r = some g ∧
          g.created = true ∧ g.replacesBase = true := by
      rintro q ⟨r, f, hr, hf, hfc, hfb⟩
      by_cases hrp : r = p
      · subst hrp
        obtain ⟨hc, hb⟩ := hreplaced f hf hfc hfb
        exact ⟨r, e, hr, SortedMap.get?_insert_self, hc, hb⟩
      · exact ⟨r, f, hr, (SortedMap.get?_insert_of_ne hrp).trans hf, hfc, hfb⟩
    rw [SortedMap.get?_insert] at hg
    split at hg
    · rename_i hq
      obtain rfl := Option.some.inj hg
      rw [hq]
      exact (hunseen hgv).imp_right hstays
    · exact (h.unseen hg hgv).imp_right hstays

/-- An entry that differs from the one before only in its data and its notes keeps the invariant. -/
theorem insert_same (h : Faithful b w) {e' : Entry} (he : w.get? p = some e)
    (htidy : Workspace.Tidy (w.insert p e'))
    (hkeep : ∀ q, (View.mk b w).exists? q = true → (View.mk b (w.insert p e')).exists? q = true)
    (hsame : e' = { e with data := e'.data, changed := e'.changed, locked := e'.locked })
    (hdata : e'.changed = false → e.changed = false ∧ e'.data = e.data) :
    Faithful b (w.insert p e') := by
  have hpres : e'.isPresent = e.isPresent := by rw [hsame]; rfl
  have hcr : e'.created = e.created := by rw [hsame]
  have hrv : e'.readVersion = e.readVersion := by rw [hsame]
  have hrb : e'.replacesBase = e.replacesBase := by rw [hsame]
  have hch : e'.children = e.children := by rw [hsame]
  refine h.insert htidy hkeep ?_ ?_ ?_ ?_ ?_
  · rintro hp r name rfl
    exact h.parent he (hpres ▸ hp)
  · intro hp hc
    obtain ⟨n, hn, hchild, hd, hs⟩ := h.copied he (hpres ▸ hp) (hcr ▸ hc)
    refine ⟨n, hn, hch.trans hchild, fun hnot => ?_, hs⟩
    obtain ⟨hnot', hd'⟩ := hdata hnot
    rw [hd', hd hnot']
  · intro hc q g hg hgp hgc hpq
    have hcon := h.not_created_above hg hgp hgc hpq he
    rw [← hcr, hc] at hcon
    simp at hcon
  · exact fun hv => h.unseen he (hrv ▸ hv)
  · intro g hg hgc hgb
    obtain rfl := Option.some.inj (he.symm.trans hg)
    exact ⟨hcr.trans hgc, hrb.trans hgb⟩

/-- **A note keeps the invariant.** -/
theorem note (h : Faithful b w) (hs : Note b w w') : Faithful b w' := by
  have hkeep : ∀ q, (View.mk b w).exists? q = true → (View.mk b w').exists? q = true := by
    intro q hq
    rw [View.exists?_iff_data?] at hq ⊢
    rwa [h.data?_note hs q]
  have htidy := h.tidy.note h.sound hs
  cases hs with
  | @copy p n hl =>
      obtain ⟨-, hnone, hsh, hn⟩ := View.locate_eq_committed.1 hl
      have hnone : w.get? p = none := hnone
      refine h.insert htidy hkeep ?_ ?_ ?_ ?_ ?_
      · rintro - r name rfl
        exact h.exists?_parent (View.exists?_iff.2 (.inr ⟨n, hl⟩))
      · exact fun _ _ => ⟨n, hn, rfl, fun _ => rfl, hsh⟩
      · intro hc
        simp [Base.copy, Entry.ofSnapshot] at hc
      · intro hv
        simp [Base.copy, Entry.ofSnapshot] at hv
      · intro g hg
        rw [hnone] at hg
        simp at hg
  | @mark p hl =>
      obtain ⟨-, hnone, -, hn⟩ := View.locate_eq_missing.1 hl
      have hnone : w.get? p = none := hnone
      refine h.insert htidy hkeep ?_ ?_ ?_ ?_ ?_
      · intro hp
        simp [Entry.absent, Entry.isPresent] at hp
      · intro hp
        simp [Entry.absent, Entry.isPresent] at hp
      · intro hc
        simp [Entry.absent] at hc
      · exact fun _ => .inl hn
      · intro g hg
        rw [hnone] at hg
        simp at hg
  | lock p =>
      cases he : w.get? p with
      | none =>
          rw [SortedMap.modify_of_none he]
          exact h
      | some e =>
          rw [SortedMap.modify_of_some he] at htidy hkeep ⊢
          exact h.insert_same he htidy hkeep rfl fun hc => ⟨hc, rfl⟩

/-- Where nothing was observed when a node is made there is nothing, or a node above is replaced. -/
theorem unseen_of_new (h : Faithful b w) (hp : (View.mk b w).exists? p = true)
    (hnew : (View.mk b w).exists? (p.push name) = false) (hnone : w.get? (p.push name) = none) :
    b.tree.peek? (p.push name) = none ∨ ∃ r g, r.isAbove (p.push name) = true ∧
      w.get? r = some g ∧ g.created = true ∧ g.replacesBase = true := by
  have hc : ¬(View.mk b w).isCutOff (p.push name) = true := View.not_isCutOff_push hp
  by_cases hs : (View.mk b w).isShadowed (p.push name) = true
  · obtain ⟨r, g, hr, hg, hgc⟩ := View.isShadowed_iff.1 hs
    by_cases hgb : g.replacesBase = true
    · exact .inr ⟨r, g, hr, hg, hgc, hgb⟩
    · -- the node above was made where none was observed
      have hv := (h.tidy.consistent hg).readVersion_eq_none (.inl hgc) hgb
      rcases h.unseen hg hv with hnone | ⟨r', g', hr', hg'⟩
      · exact .inl (h.sound.peek?_none_of_isAbove hr hnone)
      · exact .inr ⟨r', g', Path.isAbove_trans hr' hr, hg'⟩
  · left
    by_contra hsome
    obtain ⟨n, hn⟩ := Option.ne_none_iff_exists'.1 hsome
    have hl : (View.mk b w).locate (p.push name) = .committed n :=
      View.locate_eq_committed.2 ⟨hc, hnone, hs, hn⟩
    rw [View.exists?, hl] at hnew
    simp [Location.isPresent] at hnew

/-- Making a node where there was none keeps the invariant. -/
theorem create (h : Faithful b w) (hp : (View.mk b w).exists? p = true)
    (hnew : (View.mk b w).exists? (p.push name) = false) :
    Faithful b (w.insert (p.push name) ((w.get? (p.push name)).elim .fresh .recreate)) := by
  have hs : Stage b (.create (p.push name)) w _ := .create name hp
  obtain ⟨hpres, hcr, -⟩ := Entry.isPresent_made (w.get? (p.push name))
  refine h.insert (h.tidy.stage hs) (fun q hq => ?_) ?_ ?_ ?_ ?_ ?_
  · rw [View.exists?_iff_data?] at hq ⊢
    rw [h.data?_create hp hnew]
    split
    · exact ⟨_, rfl⟩
    · exact hq
  · intro _ r name' hr
    obtain ⟨rfl, -⟩ := Path.push_inj.1 hr
    exact hp
  · intro _ hc
    rw [hcr] at hc
    simp at hc
  · intro _ q g hg hgp _ hpq
    exact h.not_isAtOrBelow_of_exists? (h.exists?_of_present hg hgp) hnew
      (Path.isAtOrBelow_of_isAbove hpq)
  · intro hv
    cases he : w.get? (p.push name) with
    | none => exact h.unseen_of_new hp hnew he
    | some e =>
        rw [he] at hv
        exact h.unseen he hv
  · intro g hg _ hgb
    rw [hg]
    refine ⟨rfl, ?_⟩
    simp [Entry.recreate, hgb]

/-- Removing a node keeps the invariant. -/
theorem remove (h : Faithful b w) (hp : p ≠ Path.root)
    (hl : (View.mk b w).locate p = .staged e) :
    Faithful b ((w.dropBelow p).modify p .markRemoved) := by
  have hs : Stage b (.remove p) w _ := .remove hp hl
  have habove : ∀ {q r : Path}, ¬p.isAbove q = true → r.isAbove q = true →
      SortedMap.get? ((w.dropBelow p).modify p .markRemoved) r = w.get? r := by
    intro q r hpq hr
    exact Workspace.get?_remove_of_not fun hrp =>
      hpq (Path.isAbove_of_isAtOrBelow hrp hr)
  constructor
  · exact h.sound
  · exact h.tidy.stage hs
  · intro q name g hg hgp
    obtain ⟨hpq, f, hf, ⟨-, rfl⟩ | ⟨-, rfl⟩⟩ := Workspace.of_get?_remove hg
    · simp [Entry.markRemoved, Entry.isPresent] at hgp
    · have hex := h.parent hf hgp
      rw [View.exists?_iff_data?, View.data?_remove hl, if_neg]
      · exact View.exists?_iff_data?.1 hex
      · exact fun hqp => hpq (Path.isAbove_push.2 hqp)
  · intro q g hg hgp hgc
    obtain ⟨hpq, f, hf, ⟨-, rfl⟩ | ⟨-, rfl⟩⟩ := Workspace.of_get?_remove hg
    · simp [Entry.markRemoved, Entry.isPresent] at hgp
    · rw [View.isShadowed_congr fun r hr => habove hpq hr]
      exact h.copied hf hgp hgc
  · intro q g hg hgv
    obtain ⟨hpq, f, hf, hcase⟩ := Workspace.of_get?_remove hg
    have hfv : f.readVersion = none := by
      rcases hcase with ⟨-, rfl⟩ | ⟨-, rfl⟩
      · exact hgv
      · exact hgv
    refine (h.unseen hf hfv).imp_right ?_
    rintro ⟨r, g', hr, hg', hrest⟩
    exact ⟨r, g', hr, (habove hpq hr).trans hg', hrest⟩

/-- **A step that makes no node where there is one keeps the invariant.** -/
theorem stage (h : Faithful b w) (hs : Stage b a w w')
    (hnew : ∀ p, a = .create p → (View.mk b w).exists? p = false) : Faithful b w' := by
  cases hs with
  | create name hp => exact h.create hp (hnew _ rfl)
  | @write _ p e e' hl hed =>
      have hs : Stage b (.write p e'.data) w _ := .write hl hed
      obtain ⟨-, he, -⟩ := View.locate_eq_staged.1 hl
      refine h.insert_same he (h.tidy.stage hs) (fun q hq => ?_) ?_ hed.unchanged
      · rw [View.exists?_iff_data?] at hq ⊢
        rw [View.data?_write hl hed]
        split
        · exact ⟨_, rfl⟩
        · exact hq
      · rw [hed.same]
  | remove hp hl => exact h.remove hp hl

/-- Dropping tombstones changes nothing of what is seen. -/
theorem locate_purge (h : Faithful b w) (q : Path) :
    (View.mk { b with tree := b.tree.purge.1 } w).locate q = (View.mk b w).locate q := by
  have hc : (View.mk { b with tree := b.tree.purge.1 } w).isCutOff q = (View.mk b w).isCutOff q :=
    rfl
  have hs : (View.mk { b with tree := b.tree.purge.1 } w).isShadowed q =
      (View.mk b w).isShadowed q := rfl
  simp only [View.locate, hc, hs, h.sound.peek?_purge]

/-- **The invariant holds over another tree** that has the same nodes where there are entries, the
same children below the copies, and has not lost a node above one that is seen. -/
theorem transfer {b' : Base} (h : Faithful b w) (hs : b'.tree.Sound)
    (hentry : ∀ {p : Path} {e : Entry}, w.get? p = some e → b'.tree.peek? p = b.tree.peek? p)
    (hchildren : ∀ {p : Path} {e : Entry}, w.get? p = some e → e.isPresent = true →
      e.created = false → b'.tree.childNames p = b.tree.childNames p)
    (hparent : ∀ {p : Path} {name : String} {e : Entry}, w.get? (p.push name) = some e →
      e.isPresent = true → b.tree.exists? p = true → b'.tree.exists? p = true) :
    Faithful b' w where
  sound := hs
  tidy := h.tidy
  parent {p name e} he hp := by
    -- what hides a node are entries, and these are the same
    rcases View.exists?_iff.1 (h.parent he hp) with ⟨g, hl⟩ | ⟨n, hl⟩
    · obtain ⟨hc, hg, hgp⟩ := View.locate_eq_staged.1 hl
      exact View.exists?_iff.2 (.inl ⟨g, View.locate_eq_staged.2 ⟨hc, hg, hgp⟩⟩)
    · obtain ⟨hc, hnone, hsh, hn⟩ := View.locate_eq_committed.1 hl
      obtain ⟨n', hn'⟩ := CommittedTree.exists?_iff_peek?.1
        (hparent he hp (CommittedTree.exists?_iff_peek?.2 ⟨n, hn⟩))
      exact View.exists?_iff.2 (.inr ⟨n', View.locate_eq_committed.2 ⟨hc, hnone, hsh, hn'⟩⟩)
  copied he hp hc := by
    obtain ⟨n, hn, hch, hd, hsh⟩ := h.copied he hp hc
    exact ⟨n, (hentry he).trans hn, hch.trans (hchildren he hp hc).symm, hd, hsh⟩
  unseen he hv := by
    rw [hentry he]
    exact h.unseen he hv

/-- Dropping tombstones keeps the invariant. -/
theorem purge (h : Faithful b w) : Faithful { b with tree := b.tree.purge.1 } w :=
  h.transfer h.sound.purge (fun _ => h.sound.peek?_purge)
    (fun _ _ _ => CommittedTree.childNames_purge) fun _ _ hex => by
      rwa [CommittedTree.exists?, h.sound.peek?_purge]

/-! ### Below a node -/

/-- Below a node there is one for each entry that is present, and for each committed node that has
no entry and is not hidden. -/
theorem exists?_push_iff (hex : (View.mk b w).exists? p = true) :
    (View.mk b w).exists? (p.push name) = true ↔
      (∃ e, w.get? (p.push name) = some e ∧ e.isPresent = true) ∨
        (w.get? (p.push name) = none ∧ ¬(View.mk b w).isShadowed (p.push name) = true ∧
          b.tree.exists? (p.push name) = true) := by
  have hc : ¬(View.mk b w).isCutOff (p.push name) = true := View.not_isCutOff_push hex
  rw [View.exists?_iff]
  simp only [View.locate_eq_staged, View.locate_eq_committed, CommittedTree.exists?_iff_peek?, hc,
    Bool.false_eq_true, not_false_eq_true, true_and, exists_and_left]

theorem isShadowed_push : (View.mk b w).isShadowed (p.push name) = true ↔
    (View.mk b w).isShadowed p = true ∨ ∃ e, w.get? p = some e ∧ e.created = true := by
  simp only [View.isShadowed_iff, Path.isAbove_push, Path.isAtOrBelow_iff]
  constructor
  · rintro ⟨q, e, rfl | hq, he, hc⟩
    · exact .inr ⟨e, he, hc⟩
    · exact .inl ⟨q, e, hq, he, hc⟩
  · rintro (⟨q, e, hq, he, hc⟩ | ⟨e, he, hc⟩)
    · exact ⟨q, e, .inr hq, he, hc⟩
    · exact ⟨p, e, .inl rfl, he, hc⟩

/-- The names of the children, before the entries of the children are taken into account, are those
of the committed children that are not hidden. -/
theorem has_baseChildNames (h : Faithful b w) (hex : (View.mk b w).exists? p = true) :
    ∃ names, (View.mk b w).baseChildNames p ((View.mk b w).locate p) = some names ∧
      ∀ name, names.has name = true ↔ ¬(View.mk b w).isShadowed (p.push name) = true ∧
        b.tree.exists? (p.push name) = true := by
  have hcommitted : ∀ name, (b.tree.childNames p).has name = true ↔
      b.tree.exists? (p.push name) = true := fun name =>
    CommittedTree.mem_childNames.trans h.sound.exists?_iff.symm
  rcases View.exists?_iff.1 hex with ⟨e, hl⟩ | ⟨n, hl⟩
  -- below a node that was made everything that is committed is hidden, below a copy nothing is
  · obtain ⟨-, he, hp⟩ := View.locate_eq_staged.1 hl
    have he : w.get? p = some e := he
    rw [hl]
    by_cases hc : e.created = true
    · refine ⟨.empty, by simp [View.baseChildNames, hc], fun name => ?_⟩
      have hs : (View.mk b w).isShadowed (p.push name) = true :=
        isShadowed_push.2 (.inr ⟨e, he, hc⟩)
      simp [hs]
    · obtain ⟨n, hn, hch, -, hs⟩ := h.copied he hp (by simpa using hc)
      have htree : b.tree.exists? p = true := CommittedTree.exists?_iff_peek?.2 ⟨n, hn⟩
      refine ⟨b.tree.childNames p, by simp [View.baseChildNames, hc, hch, htree], fun name => ?_⟩
      have hs' : ¬(View.mk b w).isShadowed (p.push name) = true := by
        rw [isShadowed_push]
        rintro (hs' | ⟨e', he', hc'⟩)
        · exact hs hs'
        · obtain rfl := Option.some.inj (he.symm.trans he')
          exact hc hc'
      rw [hcommitted]
      exact ⟨fun hx => ⟨hs', hx⟩, And.right⟩
  · obtain ⟨-, hnone, hs, -⟩ := View.locate_eq_committed.1 hl
    have hnone : w.get? p = none := hnone
    rw [hl]
    refine ⟨b.tree.childNames p, rfl, fun name => ?_⟩
    have hs' : ¬(View.mk b w).isShadowed (p.push name) = true := by
      rw [isShadowed_push]
      rintro (hs' | ⟨e', he', -⟩)
      · exact hs hs'
      · rw [hnone] at he'
        simp at he'
    rw [hcommitted]
    exact ⟨fun hx => ⟨hs', hx⟩, And.right⟩

/-- **The names of the children are those of the nodes that are there.** -/
theorem has_childNames (h : Faithful b w) (hex : (View.mk b w).exists? p = true) :
    ∃ names, (View.mk b w).childNames p = some names ∧
      ∀ name, names.has name = true ↔ (View.mk b w).exists? (p.push name) = true := by
  obtain ⟨names, hnames, hhas⟩ := h.has_baseChildNames hex
  refine ⟨_, by rw [View.childNames, View.childNamesAt, hnames]; rfl, fun name => ?_⟩
  rw [View.has_overlay, exists?_push_iff hex, hhas]

/-- The nodes that are found below a node, so many levels down. -/
theorem mem_descend (h : Faithful b w) {fuel : Nat} : q ∈ (View.mk b w).descend fuel p ↔
    p.isAbove q = true ∧ (View.mk b w).exists? q = true ∧ q.depth ≤ p.depth + fuel := by
  induction fuel generalizing p with
  | zero =>
      simp only [View.descend, List.not_mem_nil, Nat.add_zero, false_iff]
      rintro ⟨hpq, -, hd⟩
      exact Nat.not_lt.2 hd (Path.depth_lt_of_isAbove hpq)
  | succ fuel ih =>
      constructor
      · intro hmem
        obtain ⟨hpq, hex⟩ := View.of_mem_descend hmem
        refine ⟨hpq, hex, ?_⟩
        obtain ⟨_, name, -, -, -, rfl | hmem⟩ := View.mem_descend_succ.1 hmem
        · rw [Path.depth_push]
          omega
        · have hd := (ih.1 hmem).2.2
          rw [Path.depth_push] at hd
          omega
      -- the child on the way is there, so that the search goes on below it
      · rintro ⟨hpq, hex, hd⟩
        have hp := h.exists?_of_isAtOrBelow (Path.isAtOrBelow_of_isAbove hpq) hex
        obtain ⟨name, hq⟩ := Path.exists_child_of_isAbove hpq
        have hchild := h.exists?_of_isAtOrBelow hq hex
        obtain ⟨names, hnames, hhas⟩ := h.has_childNames hp
        refine View.mem_descend_succ.2 ⟨names, name, hnames, (hhas name).2 hchild, hchild, ?_⟩
        rcases Path.isAtOrBelow_iff.1 hq with rfl | hbelow
        · exact .inl rfl
        · exact .inr (ih.2 ⟨hbelow, hex, by rw [Path.depth_push]; omega⟩)

/-- **The nodes below a node.** -/
theorem mem_descendants (h : Faithful b w) : q ∈ (View.mk b w).descendants p ↔
    p.isAbove q = true ∧ (View.mk b w).exists? q = true := by
  rw [View.descendants, h.mem_descend]
  constructor
  · rintro ⟨hpq, hex, -⟩
    exact ⟨hpq, hex⟩
  · rintro ⟨hpq, hex⟩
    have hd := View.depth_le_depthBound hex
    exact ⟨hpq, hex, by omega⟩

/-- No node is found twice. -/
theorem nodup_descend (v : View) (fuel : Nat) (p : Path) : (v.descend fuel p).Nodup := by
  induction fuel generalizing p with
  | zero => exact List.nodup_nil
  | succ fuel ih =>
      rw [View.descend]
      split
      · exact List.nodup_nil
      · rename_i names _
        have hbelow : ∀ {name : String} {q : Path},
            q ∈ (if v.exists? (p.push name) then p.push name :: v.descend fuel (p.push name)
              else []) → q.isAtOrBelow (p.push name) = true := by
          intro name q hq
          split at hq
          · rcases List.mem_cons.1 hq with rfl | hq
            · exact Path.isAtOrBelow_self _
            · exact Path.isAtOrBelow_of_isAbove (View.of_mem_descend hq).1
          · simp at hq
        refine List.nodup_flatMap.2 ⟨fun name _ => ?_, ?_⟩
        · simp only
          split
          · refine List.nodup_cons.2 ⟨fun hmem => ?_, ih _⟩
            exact Path.not_isAbove_self _ (View.of_mem_descend hmem).1
          · exact List.nodup_nil
        · refine (SortedMap.keys_nodup names).imp fun hne q hq hq' => hne ?_
          exact Path.push_eq_of_isAtOrBelow (hbelow hq) (hbelow hq')

/-! ### What a merge leaves -/

/-- What is committed at a path, unless the merge clears it away. -/
def keptData (b : Base) (w : Workspace) (q : Path) : Option Data :=
  if clearedAbove w.dirty q then none else b.tree.data? q

/-- An entry that replaces a node clears what is below it. -/
theorem keptData_of_replaced (h : Faithful b w) (he : w.get? p = some e)
    (hb : e.replacesBase = true) (hpq : p.isAbove q = true) : keptData b w q = none := by
  have hd : e.isDirty = true :=
    Entry.isDirty_iff.2 (.inr ((h.tidy.consistent he).replacesBase_iff.1 hb).2)
  have hcl : clearedAbove w.dirty q = true :=
    clearedAbove_iff.2 ⟨p, e, Workspace.mem_dirty.2 ⟨he, hd⟩, hpq, hb⟩
  rw [keptData, if_pos hcl]

/-- At and below an entry that has observed nothing, nothing committed is left. -/
theorem keptData_of_unseen (h : Faithful b w) (he : w.get? p = some e)
    (hv : e.readVersion = none) (hqp : q.isAtOrBelow p = true) : keptData b w q = none := by
  rcases h.unseen he hv with hnone | ⟨r, g, hr, hg, -, hgb⟩
  · rw [keptData, CommittedTree.data?, h.sound.peek?_none_of_isAtOrBelow hqp hnone]
    split <;> rfl
  · exact h.keptData_of_replaced hg hgb (Path.isAbove_trans_isAtOrBelow hr hqp)

/-- Below a removed node, or where there is none, nothing committed is left. -/
theorem keptData_of_isCutOff (h : Faithful b w) (hc : (View.mk b w).isCutOff q = true) :
    keptData b w q = none := by
  obtain ⟨p, e, hpq, he, hp⟩ := View.isCutOff_iff.1 hc
  cases hv : e.readVersion with
  | none => exact h.keptData_of_unseen he hv (Path.isAtOrBelow_of_isAbove hpq)
  | some v =>
      have hr : e.removed = true := by
        simpa [Entry.isPresent, hv] using hp
      have hrep := (h.tidy.consistent he).replacesBase_iff.2 ⟨by simp [hv], .inr hr⟩
      exact h.keptData_of_replaced he hrep hpq

/-- Below a node that is made anew nothing committed is left. -/
theorem keptData_of_isShadowed (h : Faithful b w) (hs : (View.mk b w).isShadowed q = true) :
    keptData b w q = none := by
  obtain ⟨p, e, hpq, he, hc⟩ := View.isShadowed_iff.1 hs
  cases hv : e.readVersion with
  | none => exact h.keptData_of_unseen he hv (Path.isAtOrBelow_of_isAbove hpq)
  | some v =>
      have hrep := (h.tidy.consistent he).replacesBase_iff.2 ⟨by simp [hv], .inl hc⟩
      exact h.keptData_of_replaced he hrep hpq

/-- What is not hidden is not cleared away. -/
theorem clearedAbove_eq_false (h : Faithful b w) (hc : ¬(View.mk b w).isCutOff q = true)
    (hs : ¬(View.mk b w).isShadowed q = true) : clearedAbove w.dirty q = false := by
  rw [← Bool.not_eq_true, clearedAbove_iff]
  rintro ⟨p, e, hmem, hpq, hb⟩
  obtain ⟨he, -⟩ := Workspace.mem_dirty.1 hmem
  rcases h.tidy.mergeable.replaces p e hmem hb with hr | hcr
  · have hp : e.isPresent = false := by simp [Entry.isPresent, hr]
    exact hc (View.isCutOff_iff.2 ⟨p, e, hpq, he, hp⟩)
  · exact hs (View.isShadowed_iff.2 ⟨p, e, hpq, he, hcr⟩)

/-- Where there is no entry, what is seen is what is left. -/
theorem data?_of_no_entry (h : Faithful b w) (hnone : w.get? q = none) :
    (View.mk b w).data? q = keptData b w q := by
  by_cases hc : (View.mk b w).isCutOff q = true
  · rw [h.keptData_of_isCutOff hc, View.data?, View.locate, if_pos hc]
    rfl
  · by_cases hs : (View.mk b w).isShadowed q = true
    · rw [h.keptData_of_isShadowed hs, View.data?]
      simp only [View.locate, if_neg hc, hnone, if_pos hs]
      rfl
    · rw [keptData, h.clearedAbove_eq_false hc hs, View.data?, CommittedTree.data?]
      simp only [View.locate, if_neg hc, hnone, if_neg hs]
      cases b.tree.peek? q <;> rfl

/-- A copy is of a committed node that the merge does not clear away. -/
theorem keptData_of_copied (h : Faithful b w) (he : w.get? p = some e) (hp : e.isPresent = true)
    (hc : e.created = false) : clearedAbove w.dirty p = false ∧
      ∃ d, b.tree.data? p = some d ∧ (e.changed = false → e.data = d) := by
  obtain ⟨n, hn, -, hd, hs⟩ := h.copied he hp hc
  have hcut := (View.locate_eq_staged.1 (h.locate_of_present he hp)).1
  refine ⟨h.clearedAbove_eq_false hcut hs, n.data, ?_, hd⟩
  rw [CommittedTree.data?, hn]
  rfl

/-- What is left at an entry is what the entry is merged to, or what is committed there. -/
theorem outcome_of_entry (he : w.get? q = some e) : outcome b.tree.data? w.dirty q =
    if e.isDirty then mergedData q e (fun _ => keptData b w q) q else keptData b w q := by
  have hlookup : w.dirty.lookup q = if e.isDirty then some e else none := by
    rw [Workspace.lookup_dirty, he, Option.filter_some]
  rw [outcome, hlookup]
  cases e.isDirty <;> rfl

/-- A node that is made is left with its data. -/
theorem outcome_of_created (h : Faithful b w) (he : w.get? q = some e) (hc : e.created = true) :
    outcome b.tree.data? w.dirty q = some e.data := by
  have hr := (h.tidy.consistent he).exclusive hc
  have hd : e.isDirty = true := Entry.isDirty_iff.2 (.inr (.inl hc))
  simp only [outcome_of_entry he, hd, if_true, mergedData, hr, hc, Bool.false_eq_true, if_false]
  split
  · rfl
  · rename_i hb
    -- nothing was observed: nothing committed is left to be kept
    have hv := (h.tidy.consistent he).readVersion_eq_none (.inl hc) hb
    rw [h.keptData_of_unseen he hv (Path.isAtOrBelow_self q)]
    rfl

/-- A copy is left with its data, which are the committed ones unless they were written. -/
theorem outcome_of_copied (h : Faithful b w) (he : w.get? q = some e) (hp : e.isPresent = true)
    (hc : e.created = false) : outcome b.tree.data? w.dirty q = some e.data := by
  have hr := (Entry.isPresent_iff.1 hp).1
  obtain ⟨hcl, d, hd, hsame⟩ := h.keptData_of_copied he hp hc
  have hkept : keptData b w q = some d := by
    rw [keptData, hcl, hd]
    rfl
  rw [outcome_of_entry he]
  cases hch : e.changed with
  | true => simp [Entry.isDirty, mergedData, hr, hc, hch, hkept]
  | false => simp [Entry.isDirty, hr, hc, hch, hkept, hsame hch]

/-- Where the entry says that there is no node none is left. -/
theorem outcome_of_not_present (h : Faithful b w) (he : w.get? q = some e)
    (hp : ¬e.isPresent = true) : outcome b.tree.data? w.dirty q = none := by
  have hcons := h.tidy.consistent he
  have hc : e.created = false := by
    rw [← Bool.not_eq_true]
    exact fun hc => hp (hcons.isPresent_of_created hc)
  have hch : e.changed = false := by
    rw [← Bool.not_eq_true]
    exact fun hch => hp (hcons.isPresent_of_changed hch)
  rw [outcome_of_entry he]
  cases hr : e.removed with
  | true =>
      have hd : e.isDirty = true := Entry.isDirty_iff.2 (.inr (.inr hr))
      simp only [hd, if_true, mergedData, hr, Path.isAtOrBelow_self, Bool.and_true]
      split
      · rfl
      · rename_i hb
        have hv := hcons.readVersion_eq_none (.inr hr) hb
        exact h.keptData_of_unseen he hv (Path.isAtOrBelow_self q)
  | false =>
      have hd : e.isDirty = false := by simp [Entry.isDirty, hr, hc, hch]
      have hv : e.readVersion = none := by
        rw [Entry.isPresent_iff] at hp
        exact Option.not_isSome_iff_eq_none.1 fun hv => hp ⟨hr, .inr hv⟩
      simp only [hd, Bool.false_eq_true, if_false]
      exact h.keptData_of_unseen he hv (Path.isAtOrBelow_self q)

/-- **A merge leaves what is seen.** -/
theorem outcome_dirty (h : Faithful b w) (q : Path) :
    outcome b.tree.data? w.dirty q = (View.mk b w).data? q := by
  cases he : w.get? q with
  | none =>
      have hkept : outcome b.tree.data? w.dirty q = keptData b w q := by
        rw [outcome, Workspace.lookup_dirty, he]
        rfl
      rw [hkept, h.data?_of_no_entry he]
  | some e =>
      by_cases hp : e.isPresent = true
      · rw [View.data?, h.locate_of_present he hp]
        cases hc : e.created with
        | true => exact h.outcome_of_created he hc
        | false => exact h.outcome_of_copied he hp hc
      · rw [h.outcome_of_not_present he hp, eq_comm, View.data?_eq_none, ← Bool.not_eq_true]
        exact fun hex => hp (View.isPresent_of_exists? hex he)

/-- What is merged, but for removals, is there. -/
theorem isPresent_of_dirty (h : Faithful b w) (hmem : (p, e) ∈ w.dirty)
    (hr : e.removed = false) : e.isPresent = true := by
  obtain ⟨he, hd⟩ := Workspace.mem_dirty.1 hmem
  have hcons := h.tidy.consistent he
  rcases Entry.isDirty_iff.1 hd with hch | hc | hrem
  · exact hcons.isPresent_of_changed hch
  · exact hcons.isPresent_of_created hc
  · rw [hr] at hrem
    simp at hrem

/-- A node that is made has a parent. -/
theorem exists_parent_of_created (h : Faithful b w) (he : w.get? p = some e)
    (hc : e.created = true) : ∃ r name, p = r.push name ∧ (View.mk b w).exists? r = true := by
  cases p using Path.rootOrPush with
  | root =>
      rw [(h.tidy.root he).1] at hc
      simp at hc
  | push r name =>
      exact ⟨r, name, rfl, h.parent he ((h.tidy.consistent he).isPresent_of_created hc)⟩

/-- **Every entry has something to land on.** -/
theorem supported (h : Faithful b w) (hmem : (p, e) ∈ w.dirty) :
    Supported b.tree.data? w.dirty p e := by
  obtain ⟨he, -⟩ := Workspace.mem_dirty.1 hmem
  cases hr : e.removed with
  | true => exact .inl hr
  | false =>
      right
      have hp := h.isPresent_of_dirty hmem hr
      cases hc : e.created with
      | true =>
          obtain ⟨r, name, rfl, hex⟩ := h.exists_parent_of_created he hc
          refine ⟨r, name, rfl, ?_⟩
          obtain ⟨d, hd⟩ := View.exists?_iff_data?.1 hex
          rw [h.outcome_dirty, hd]
          rfl
      | false =>
          obtain ⟨hcl, d, hd, -⟩ := h.keptData_of_copied he hp hc
          refine fun _ => ⟨hcl, ?_⟩
          rw [hd]
          rfl

/-- **Nothing is in the way of a commit.** -/
theorem structureConflicts_eq_nil {c : Context} (h : Faithful b c.workspace) :
    b.structureConflicts c = [] := by
  have hcommitted : ∀ {p : Path} {e : Entry}, c.workspace.get? p = some e → e.isPresent = true →
      e.created = false → b.tree.exists? p = true := by
    intro p e he hp hc
    obtain ⟨n, hn, -⟩ := h.copied he hp hc
    exact CommittedTree.exists?_iff_peek?.2 ⟨n, hn⟩
  refine List.filterMap_eq_nil_iff.2 ?_
  rintro ⟨p, e⟩ hmem
  obtain ⟨he, -⟩ := Workspace.mem_dirty.1 hmem
  split
  · rfl
  · rename_i hr
    have hp := h.isPresent_of_dirty hmem (by simpa using hr)
    cases hc : e.created with
    | false => simp [Base.structureConflict, hc, hcommitted he hp hc]
    | true =>
        obtain ⟨r, name, rfl, hex⟩ := h.exists_parent_of_created he hc
        have hparent : b.parentPresent c r = true := by
          simp only [Base.parentPresent, Context.entry?]
          cases hg : c.workspace.get? r with
          | none =>
              rcases View.exists?_iff.1 hex with ⟨g, hl⟩ | ⟨n, hl⟩
              · have hg' := (View.locate_eq_staged.1 hl).2.1
                rw [hg] at hg'
                simp at hg'
              · exact CommittedTree.exists?_iff_peek?.2
                  ⟨n, (View.locate_eq_committed.1 hl).2.2.2⟩
          | some g =>
              have hgp := View.isPresent_of_exists? hex hg
              cases hgc : g.created with
              | true => simp [hgp, hgc]
              | false => simp [hgp, hcommitted hg hgp hgc]
        simp [Base.structureConflict, hc, hparent]

end Faithful

end TransactionalTree
