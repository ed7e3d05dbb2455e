/-
**The steps by which a workspace changes.**

Whatever a unit of work does, its workspace changes by six kinds of steps.  Three only note
something: a committed node is copied, there is no node, a node is locked.  Three change what is
seen: a node is made below one that is there, its data are written, it is removed with all that is
below it.  What holds of all workspaces is what these steps keep.

Main definitions:

* `Entry.Consistent` — the flags of an entry fit together;
* `Note`, `Stage`, `Stages` — **one step of a workspace**, and a sequence of steps;
* `Act.Misses` — a step that does not touch a place;
* `Workspace.Tidy` — the invariant: consistent entries, the root in place, and nothing below a
  removed node.

Main results:

* `Workspace.Tidy.stage`, `Workspace.Tidy.stages` — the steps keep a workspace tidy;
* `Workspace.Tidy.exists?_root` — the root is always there.
-/

import TransactionalTree.Proofs.Views
import TransactionalTree.Staging

set_option relaxedAutoImplicit false
set_option autoImplicit false

namespace TransactionalTree

/-! ### Entries -/

namespace Entry

variable {e e' : Entry}

/-- The flags of an entry fit together. -/
structure Consistent (e : Entry) : Prop where
  /-- A node is not made and removed at once. -/
  exclusive : e.created = true → e.removed = false
  /-- An observed node has to go exactly if it is made anew or removed. -/
  replacesBase_eq : e.replacesBase = (e.readVersion.isSome && (e.created || e.removed))
  /-- What is written is there. -/
  isPresent_of_changed : e.changed = true → e.isPresent = true

/-- Only the data of the entry have been written, and that is noted. -/
structure Edited (e e' : Entry) : Prop where
  /-- All but the data is as before. -/
  same : e' = { e with data := e'.data, changed := e'.changed }
  /-- Without a note, nothing was written. -/
  unchanged : e'.changed = false → e.changed = false ∧ e'.data = e.data

theorem isPresent_iff :
    e.isPresent = true ↔ e.removed = false ∧ (e.created = true ∨ e.readVersion.isSome = true) := by
  simp [isPresent]

theorem isDirty_iff :
    e.isDirty = true ↔ e.changed = true ∨ e.created = true ∨ e.removed = true := by
  simp [isDirty, or_assoc]

theorem Consistent.isPresent_of_created (h : e.Consistent) (hc : e.created = true) :
    e.isPresent = true :=
  isPresent_iff.2 ⟨h.exclusive hc, .inl hc⟩

/-- What was observed has to go exactly if it is made anew or removed. -/
theorem Consistent.replacesBase_iff (h : e.Consistent) : e.replacesBase = true ↔
    e.readVersion.isSome = true ∧ (e.created = true ∨ e.removed = true) := by
  rw [h.replacesBase_eq, Bool.and_eq_true, Bool.or_eq_true]

/-- What is made or removed without anything having to go was not observed. -/
theorem Consistent.readVersion_eq_none (h : e.Consistent)
    (hc : e.created = true ∨ e.removed = true) (hb : ¬e.replacesBase = true) :
    e.readVersion = none := by
  rw [h.replacesBase_iff] at hb
  exact Option.not_isSome_iff_eq_none.1 fun hv => hb ⟨hv, hc⟩

theorem consistent_ofSnapshot (s : NodeSnapshot) (r : NodeRef) : (ofSnapshot s r).Consistent where
  exclusive h := by simp [ofSnapshot] at h
  replacesBase_eq := by simp [ofSnapshot]
  isPresent_of_changed h := by simp [ofSnapshot] at h

theorem consistent_absent : absent.Consistent where
  exclusive h := by simp [absent] at h
  replacesBase_eq := by simp [absent]
  isPresent_of_changed h := by simp [absent] at h

theorem Consistent.recreate (h : e.Consistent) : e.recreate.Consistent where
  exclusive _ := rfl
  replacesBase_eq := by
    have := h.replacesBase_eq
    simp only [Entry.recreate, this]
    cases e.readVersion.isSome <;> simp
  isPresent_of_changed h := by simp [Entry.recreate] at h

theorem consistent_fresh : fresh.Consistent := consistent_absent.recreate

/-- A node that is made anew, or for the first time, is there and has no data. -/
theorem isPresent_made (e : Option Entry) : (e.elim fresh recreate).isPresent = true ∧
    (e.elim fresh recreate).created = true ∧ (e.elim fresh recreate).data = .empty := by
  cases e with
  | none => exact ⟨rfl, rfl, rfl⟩
  | some e => exact ⟨rfl, rfl, rfl⟩

theorem Consistent.markRemoved (h : e.Consistent) : e.markRemoved.Consistent where
  exclusive h := by simp [Entry.markRemoved] at h
  replacesBase_eq := by
    have := h.replacesBase_eq
    simp only [Entry.markRemoved, this]
    cases e.readVersion.isSome <;> simp
  isPresent_of_changed h := by simp [Entry.markRemoved] at h

theorem Consistent.markLocked (h : e.Consistent) : e.markLocked.Consistent :=
  ⟨h.exclusive, h.replacesBase_eq, h.isPresent_of_changed⟩

namespace Edited

variable (h : e.Edited e')
include h

theorem created : e'.created = e.created := by rw [h.same]

theorem removed : e'.removed = e.removed := by rw [h.same]

theorem readVersion : e'.readVersion = e.readVersion := by rw [h.same]

theorem replacesBase : e'.replacesBase = e.replacesBase := by rw [h.same]

theorem children : e'.children = e.children := by rw [h.same]

theorem observed : e'.observed = e.observed := by rw [h.same]

theorem isPresent : e'.isPresent = e.isPresent := by
  rw [Entry.isPresent, Entry.isPresent, h.removed, h.created, h.readVersion]

theorem consistent (hc : e.Consistent) (hp : e.isPresent = true) : e'.Consistent where
  exclusive h' := by
    rw [h.removed]
    rw [h.created] at h'
    exact hc.exclusive h'
  replacesBase_eq := by
    rw [h.replacesBase, h.readVersion, h.created, h.removed]
    exact hc.replacesBase_eq
  isPresent_of_changed _ := by rw [h.isPresent, hp]

end Edited

theorem edited_put (e : Entry) (key : String) (v : Value) : e.Edited (e.put key v).1 :=
  ⟨rfl, fun h => by simp [put] at h⟩

theorem edited_putAll (e : Entry) (d : Data) : e.Edited (e.putAll d) :=
  ⟨rfl, fun h => by simp [putAll] at h⟩

theorem edited_replaceData (e : Entry) (d : Data) : e.Edited (e.replaceData d) :=
  ⟨rfl, fun h => by simp [replaceData] at h⟩

theorem edited_removeKey (e : Entry) (key : String) : e.Edited (e.removeKey key).1 := by
  refine ⟨rfl, fun h => ?_⟩
  simp only [removeKey, Bool.or_eq_false_iff] at h
  refine ⟨h.1, SortedMap.erase_eq_self ?_⟩
  have hc := h.2
  simpa [SortedMap.contains] using hc

theorem edited_clearData (e : Entry) : e.Edited e.clearData := by
  refine ⟨rfl, fun h => ?_⟩
  simp only [clearData, Bool.or_eq_false_iff, Bool.not_eq_false'] at h
  refine ⟨h.1, SortedMap.ext_get? fun k => ?_⟩
  rw [SortedMap.isEmpty_iff.1 h.2 k]
  rfl

end Entry

/-! ### Steps -/

/-- A step that changes what a unit of work sees. -/
inductive Act where
  /-- A node is made. -/
  | create (p : Path)
  /-- The data of a node become these. -/
  | write (p : Path) (d : Data)
  /-- A node is removed, with all that is below it. -/
  | remove (p : Path)

/-- **A step of a workspace that only notes something**, with what has to be the case before it. -/
inductive Note (b : Base) : Workspace → Workspace → Prop
  /-- A committed node is copied. -/
  | copy {w : Workspace} {p : Path} {n : Node} (h : (View.mk b w).locate p = .committed n) :
      Note b w (w.insert p (b.copy p n))
  /-- It is noted that there is no node. -/
  | mark {w : Workspace} {p : Path} (h : (View.mk b w).locate p = .missing) :
      Note b w (w.insert p .absent)
  /-- It is noted that a node is locked. -/
  | lock (w : Workspace) (p : Path) : Note b w (w.modify p Entry.markLocked)

/-- **A step of a workspace that changes something**, with what has to be the case before it. -/
inductive Stage (b : Base) : Act → Workspace → Workspace → Prop
  /-- A node is made below one that is there. -/
  | create {w : Workspace} {p : Path} (name : String) (h : (View.mk b w).exists? p = true) :
      Stage b (.create (p.push name)) w
        (w.insert (p.push name) ((w.get? (p.push name)).elim .fresh .recreate))
  /-- The data of a node that is there are written. -/
  | write {w : Workspace} {p : Path} {e e' : Entry} (h : (View.mk b w).locate p = .staged e)
      (he : e.Edited e') : Stage b (.write p e'.data) w (w.insert p e')
  /-- A node that is there is removed, with the entries below it. -/
  | remove {w : Workspace} {p : Path} {e : Entry} (hp : p ≠ Path.root)
      (h : (View.mk b w).locate p = .staged e) :
      Stage b (.remove p) w ((w.dropBelow p).modify p .markRemoved)

/-- A sequence of steps, with those that change something listed in order. -/
inductive Stages (b : Base) (w : Workspace) : List Act → Workspace → Prop
  /-- No step. -/
  | refl : Stages b w [] w
  /-- One more step that only notes something. -/
  | note {acts : List Act} {w' w'' : Workspace} (h : Stages b w acts w') (hs : Note b w' w'') :
      Stages b w acts w''
  /-- One more step that changes something. -/
  | act {acts : List Act} {a : Act} {w' w'' : Workspace} (h : Stages b w acts w')
      (hs : Stage b a w' w'') : Stages b w (acts ++ [a]) w''

namespace Stages

variable {b : Base} {w w' w'' : Workspace} {acts acts' : List Act} {a : Act}

theorem of_note (h : Note b w w') : Stages b w [] w' := .note .refl h

theorem of_stage (h : Stage b a w w') : Stages b w [a] w' := .act .refl h

theorem trans (h : Stages b w acts w') (h' : Stages b w' acts' w'') :
    Stages b w (acts ++ acts') w'' := by
  induction h' with
  | refl => rwa [List.append_nil]
  | note _ hs ih => exact ih.note hs
  | act _ hs ih =>
      rw [← List.append_assoc]
      exact ih.act hs

end Stages

/-- **The step does not touch the node at `q`**: it neither makes nor writes it, and takes away
neither that node nor one above it. -/
def Act.Misses (q : Path) : Act → Prop
  | create p => p ≠ q
  | write p _ => p ≠ q
  | remove p => ¬q.isAtOrBelow p = true

/-- A step that misses a place leaves the entry for it. -/
theorem Stage.get?_of_misses {b : Base} {w w' : Workspace} {a : Act} {q : Path}
    (h : Stage b a w w') (ha : a.Misses q) : w'.get? q = w.get? q := by
  cases h with
  | create name _ => exact SortedMap.get?_insert_of_ne (Ne.symm ha)
  | write _ _ => exact SortedMap.get?_insert_of_ne (Ne.symm ha)
  | remove _ _ => exact Workspace.get?_remove_of_not ha

namespace Workspace

variable {b : Base} {w w' : Workspace} {p q : Path} {e f : Entry}

/-- **The invariant of all workspaces.** -/
structure Tidy (w : Workspace) : Prop where
  /-- The flags of every entry fit together. -/
  consistent : ∀ {p : Path} {e : Entry}, w.get? p = some e → e.Consistent
  /-- The root is neither made nor removed. -/
  root : ∀ {e : Entry}, w.get? Path.root = some e → e.created = false ∧ e.isPresent = true
  /-- Below a removed node there is nothing. -/
  below_removed : ∀ {p q : Path} {e : Entry}, w.get? q = some e → e.removed = true →
    q.isAbove p = true → w.get? p = none

theorem tidy_empty : Workspace.Tidy .empty :=
  ⟨fun h => by simp at h, fun h => by simp at h, fun h => by simp at h⟩

namespace Tidy

/-- The root is always there. -/
theorem exists?_root (h : w.Tidy) (hb : b.tree.Sound) :
    (View.mk b w).exists? Path.root = true := by
  have hc : ¬(View.mk b w).isCutOff Path.root = true := by
    rw [View.isCutOff_iff]
    rintro ⟨q, e, hq, -⟩
    exact Path.isAbove_root hq
  have hs : ¬(View.mk b w).isShadowed Path.root = true := by
    rw [View.isShadowed_iff]
    rintro ⟨q, e, hq, -⟩
    exact Path.isAbove_root hq
  rw [View.exists?_iff]
  cases he : w.get? Path.root with
  | some e => exact .inl ⟨e, View.locate_eq_staged.2 ⟨hc, he, (h.root he).2⟩⟩
  | none =>
      obtain ⟨n, hn⟩ := CommittedTree.exists?_iff_peek?.1 hb.exists?_root
      exact .inr ⟨n, View.locate_eq_committed.2 ⟨hc, he, hs, hn⟩⟩

/-- Where nothing is cut off, nothing above is removed. -/
theorem insert_of_not_isCutOff (h : w.Tidy) (hc : ¬(View.mk b w).isCutOff p = true)
    (he : e.Consistent) (hr : e.removed = false)
    (hroot : p = Path.root → e.created = false ∧ e.isPresent = true) :
    Workspace.Tidy (w.insert p e) := by
  constructor
  · intro q f hf
    rw [SortedMap.get?_insert] at hf
    split at hf
    · obtain rfl := Option.some.inj hf
      exact he
    · exact h.consistent hf
  · intro f hf
    rw [SortedMap.get?_insert] at hf
    split at hf
    · rename_i hp
      obtain rfl := Option.some.inj hf
      exact hroot hp.symm
    · exact h.root hf
  · intro r q f hf hfr hqr
    rw [SortedMap.get?_insert] at hf ⊢
    split at hf
    · obtain rfl := Option.some.inj hf
      rw [hr] at hfr
      simp at hfr
    · rw [if_neg]
      · exact h.below_removed hf hfr hqr
      · rintro rfl
        have hp : f.isPresent = false := by simp [Entry.isPresent, hfr]
        exact hc (View.isCutOff_iff.2 ⟨q, f, hqr, hf, hp⟩)

theorem modify_markLocked (h : w.Tidy) (p : Path) :
    Workspace.Tidy (w.modify p Entry.markLocked) := by
  have hget : ∀ {q : Path} {f : Entry}, (w.modify p Entry.markLocked).get? q = some f →
      ∃ e, w.get? q = some e ∧ (f = e ∨ f = e.markLocked) := by
    intro q f hf
    rw [SortedMap.get?_modify] at hf
    split at hf
    · obtain ⟨e, he, rfl⟩ := Option.map_eq_some_iff.1 hf
      exact ⟨e, he, .inr rfl⟩
    · exact ⟨f, hf, .inl rfl⟩
  constructor
  · intro q f hf
    obtain ⟨e, he, rfl | rfl⟩ := hget hf
    · exact h.consistent he
    · exact (h.consistent he).markLocked
  · intro f hf
    obtain ⟨e, he, rfl | rfl⟩ := hget hf
    · exact h.root he
    · have hroot := h.root he
      exact hroot
  · intro r q f hf hfr hqr
    have hr : w.get? r = none := by
      obtain ⟨e, he, rfl | rfl⟩ := hget hf
      · exact h.below_removed he hfr hqr
      · exact h.below_removed he hfr hqr
    rw [SortedMap.get?_modify, hr]
    simp

theorem remove (h : w.Tidy) (hp : p ≠ Path.root) :
    Workspace.Tidy ((w.dropBelow p).modify p .markRemoved) := by
  constructor
  · intro q f hf
    obtain ⟨-, e, he, ⟨-, rfl⟩ | ⟨-, rfl⟩⟩ := of_get?_remove hf
    · exact (h.consistent he).markRemoved
    · exact h.consistent he
  · intro f hf
    obtain ⟨-, e, he, ⟨hq, -⟩ | ⟨-, rfl⟩⟩ := of_get?_remove hf
    · exact absurd hq.symm hp
    · exact h.root he
  · intro r q f hf hfr hqr
    -- below the removed node the entries are dropped, below others there were none
    rw [get?_remove]
    obtain ⟨-, e, he, ⟨rfl, -⟩ | ⟨-, rfl⟩⟩ := of_get?_remove hf
    · rw [if_pos hqr]
    · rw [h.below_removed he hfr hqr]
      simp

/-- A step that only notes something keeps a workspace tidy. -/
theorem note (h : w.Tidy) (hb : b.tree.Sound) (hs : Note b w w') : w'.Tidy := by
  cases hs with
  | @copy p n hl =>
      refine h.insert_of_not_isCutOff (View.locate_eq_committed.1 hl).1
        (Entry.consistent_ofSnapshot _ _) rfl fun _ => ⟨rfl, rfl⟩
  | @mark p hl =>
      refine h.insert_of_not_isCutOff (View.locate_eq_missing.1 hl).1 Entry.consistent_absent rfl ?_
      rintro rfl
      have hroot := View.exists?_iff.1 (h.exists?_root hb)
      rw [hl] at hroot
      simp at hroot
  | lock p => exact h.modify_markLocked p

/-- **Each step that changes something keeps a workspace tidy.** -/
theorem stage {a : Act} (h : w.Tidy) (hs : Stage b a w w') : w'.Tidy := by
  cases hs with
  | @create _ p name hl =>
      refine h.insert_of_not_isCutOff (View.not_isCutOff_push hl) ?_ ?_ fun hr =>
        absurd hr Path.push_ne_root
      · cases he : w.get? (p.push name) with
        | none => exact Entry.consistent_fresh
        | some e => exact (h.consistent he).recreate
      · cases w.get? (p.push name) <;> rfl
  -- an edit makes no node and removes none, so only the consistency of the entry is at stake
  | @write _ p e e' hl hed =>
      obtain ⟨-, he, hp⟩ := View.locate_eq_staged.1 hl
      constructor
      · intro q f hf
        rw [SortedMap.get?_insert] at hf
        split at hf
        · obtain rfl := Option.some.inj hf
          exact hed.consistent (h.consistent he) hp
        · exact h.consistent hf
      · intro f hf
        rw [SortedMap.get?_insert] at hf
        split at hf
        · rename_i hq
          obtain rfl := Option.some.inj hf
          subst hq
          rw [hed.created, hed.isPresent]
          exact h.root he
        · exact h.root hf
      · intro r q f hf hfr hqr
        have hr : w.get? r = none := by
          rw [SortedMap.get?_insert] at hf
          split at hf
          · rename_i hq
            obtain rfl := Option.some.inj hf
            rw [hed.removed] at hfr
            subst hq
            exact h.below_removed he hfr hqr
          · exact h.below_removed hf hfr hqr
        rw [SortedMap.get?_insert_of_ne, hr]
        rintro rfl
        rw [he] at hr
        simp at hr
  | remove hp _ => exact h.remove hp

/-- A node that was observed, and that is made anew where there is none, is removed. -/
theorem removed_of_recreate {name : String} {e : Entry} (h : w.Tidy)
    (he : w.get? (p.push name) = some e) (hex : (View.mk b w).exists? p = true)
    (hnew : (View.mk b w).exists? (p.push name) = false)
    (hb : e.recreate.replacesBase = true) : e.readVersion.isSome = true ∧ e.removed = true := by
  have hread : e.readVersion.isSome = true := ((h.consistent he).recreate.replacesBase_iff.1 hb).1
  refine ⟨hread, ?_⟩
  by_contra hnot
  have hp : e.isPresent = true := Entry.isPresent_iff.2 ⟨by simpa using hnot, .inr hread⟩
  have hl := View.locate_eq_staged.2 ⟨View.not_isCutOff_push hex, he, hp⟩
  rw [View.exists?, hl] at hnew
  simp [Location.isPresent] at hnew

/-- Sequences of steps keep a workspace tidy. -/
theorem stages {acts : List Act} (h : w.Tidy) (hb : b.tree.Sound) (hs : Stages b w acts w') :
    w'.Tidy := by
  induction hs with
  | refl => exact h
  | note _ hs ih => exact ih.note hb hs
  | act _ hs ih => exact ih.stage hs

end Tidy

end Workspace

end TransactionalTree
