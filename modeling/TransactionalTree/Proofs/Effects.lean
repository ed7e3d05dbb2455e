/-
**What is seen after a step.**

Where a path leads depends only on the entries at it and above it, and of those above only on
whether they are present and whether they are made anew.  So it is known after each step of a
workspace: a note hides at most what has nothing above it, a write changes the data of one node, and
a removal takes away a node and all below it.

Main results:

* `View.locate_congr`, `View.locate_insert_of_ne` — what a changed entry does not touch;
* `View.data?_note`, `View.data?_write`, `View.data?_remove` — **the data seen after a step**.
-/

import TransactionalTree.Proofs.Tidy

set_option relaxedAutoImplicit false
set_option autoImplicit false

namespace TransactionalTree

variable {b : Base} {w w' : Workspace} {p q : Path} {e : Entry}

/-! ### Where a path leads after a change -/

namespace View

theorem isCutOff_congr (h : ∀ r, r.isAbove q = true → w'.get? r = w.get? r) :
    (View.mk b w').isCutOff q = (View.mk b w).isCutOff q := by
  rw [Bool.eq_iff_iff, isCutOff_iff, isCutOff_iff]
  constructor
  · rintro ⟨r, e, hr, he, hp⟩
    exact ⟨r, e, hr, (h r hr).symm.trans he, hp⟩
  · rintro ⟨r, e, hr, he, hp⟩
    exact ⟨r, e, hr, (h r hr).trans he, hp⟩

theorem isShadowed_congr (h : ∀ r, r.isAbove q = true → w'.get? r = w.get? r) :
    (View.mk b w').isShadowed q = (View.mk b w).isShadowed q := by
  rw [Bool.eq_iff_iff, isShadowed_iff, isShadowed_iff]
  constructor
  · rintro ⟨r, e, hr, he, hp⟩
    exact ⟨r, e, hr, (h r hr).symm.trans he, hp⟩
  · rintro ⟨r, e, hr, he, hp⟩
    exact ⟨r, e, hr, (h r hr).trans he, hp⟩

/-- Where a path leads depends only on the entries at it and above it. -/
theorem locate_congr (h : ∀ r, q.isAtOrBelow r = true → w'.get? r = w.get? r) :
    (View.mk b w').locate q = (View.mk b w).locate q := by
  have habove : ∀ r, r.isAbove q = true → w'.get? r = w.get? r := fun r hr =>
    h r (Path.isAtOrBelow_of_isAbove hr)
  have hq := h q (Path.isAtOrBelow_self q)
  simp only [locate, isCutOff_congr habove, isShadowed_congr habove, hq]

theorem locate_insert_of_not (h : ¬q.isAtOrBelow p = true) :
    (View.mk b (w.insert p e)).locate q = (View.mk b w).locate q := by
  refine locate_congr fun r hr => SortedMap.get?_insert_of_ne ?_
  rintro rfl
  exact h hr

theorem isCutOff_insert_self :
    (View.mk b (w.insert p e)).isCutOff p = (View.mk b w).isCutOff p :=
  isCutOff_congr fun _ hr => SortedMap.get?_insert_of_ne (Path.ne_of_isAbove hr)

/-- A new entry decides where its place leads, unless the place is cut off. -/
theorem locate_insert_self (hc : ¬(View.mk b w).isCutOff p = true) :
    (View.mk b (w.insert p e)).locate p = if e.isPresent then .staged e else .hidden := by
  refine locate_of_entry ?_ SortedMap.get?_insert_self
  rw [isCutOff_insert_self]
  exact hc

theorem locate_insert_present (hc : ¬(View.mk b w).isCutOff p = true) (hp : e.isPresent = true) :
    (View.mk b (w.insert p e)).locate p = .staged e := by
  rw [locate_insert_self hc, if_pos hp]

/-- A node that has an entry stays where it is when an entry that is present is set elsewhere. -/
theorem locate_insert_staged {f : Entry} (h : (View.mk b w).locate q = .staged f) (hqp : q ≠ p)
    (hp : e.isPresent = true) : (View.mk b (w.insert p e)).locate q = .staged f := by
  obtain ⟨hc, hf, hfp⟩ := locate_eq_staged.1 h
  refine locate_eq_staged.2 ⟨?_, (SortedMap.get?_insert_of_ne hqp).trans hf, hfp⟩
  rw [isCutOff_iff] at hc ⊢
  rintro ⟨r, g, hr, hg, hgp⟩
  rw [SortedMap.get?_insert] at hg
  split at hg
  · obtain rfl := Option.some.inj hg
    rw [hp] at hgp
    simp at hgp
  · exact hc ⟨r, g, hr, hg, hgp⟩

/-- What is cut off depends only on which entries above are not present. -/
theorem isCutOff_of_any (h : ∀ r, (w'.get? r).any (!·.isPresent) = (w.get? r).any (!·.isPresent)) :
    (View.mk b w').isCutOff q = (View.mk b w).isCutOff q :=
  congrArg (List.any q.ancestors) (funext h)

/-- What is shadowed depends only on which entries above were made. -/
theorem isShadowed_of_any (h : ∀ r, (w'.get? r).any (·.created) = (w.get? r).any (·.created)) :
    (View.mk b w').isShadowed q = (View.mk b w).isShadowed q :=
  congrArg (List.any q.ancestors) (funext h)

/-- Marking an entry as locked changes nothing of what is seen. -/
theorem locate_lock : (View.mk b (w.modify p .markLocked)).locate q =
    match (View.mk b w).locate q with
    | .staged e => .staged (if q = p then e.markLocked else e)
    | .committed n => .committed n
    | .missing => .missing
    | .hidden => .hidden := by
  have hget : ∀ r, SortedMap.get? (w.modify p .markLocked) r =
      (w.get? r).map fun e => if r = p then e.markLocked else e := by
    intro r
    rw [SortedMap.get?_modify]
    split <;> simp
  have hc : (View.mk b (w.modify p .markLocked)).isCutOff q = (View.mk b w).isCutOff q := by
    refine isCutOff_of_any fun r => ?_
    rw [hget, Option.any_map]
    refine congrArg (Option.any · (w.get? r)) (funext fun e => ?_)
    split <;> rfl
  have hs : (View.mk b (w.modify p .markLocked)).isShadowed q = (View.mk b w).isShadowed q := by
    refine isShadowed_of_any fun r => ?_
    rw [hget, Option.any_map]
    refine congrArg (Option.any · (w.get? r)) (funext fun e => ?_)
    split <;> rfl
  simp only [locate, hc, hs, hget]
  by_cases hcut : (View.mk b w).isCutOff q = true
  · simp only [if_pos hcut]
  · simp only [if_neg hcut]
    cases w.get? q with
    | none =>
        simp only [Option.map_none]
        by_cases hsh : (View.mk b w).isShadowed q = true
        · simp only [if_pos hsh]
        · simp only [if_neg hsh]
          cases b.tree.peek? q <;> rfl
    | some e =>
        have hp : (if q = p then e.markLocked else e).isPresent = e.isPresent := by
          split <;> rfl
        simp only [Option.map_some, hp]
        by_cases hpres : e.isPresent = true
        · simp only [if_pos hpres]
        · simp only [if_neg hpres]

theorem locate_lock_staged (h : (View.mk b w).locate q = .staged e) :
    (View.mk b (w.modify p .markLocked)).locate q =
      .staged (if q = p then e.markLocked else e) := by
  rw [locate_lock, h]

/-- An entry that is as present and as new as what was there before changes nothing elsewhere. -/
theorem locate_insert_of_ne (hq : q ≠ p)
    (hp : (!e.isPresent) = (w.get? p).any (!·.isPresent))
    (hc : e.created = (w.get? p).any (·.created)) :
    (View.mk b (w.insert p e)).locate q = (View.mk b w).locate q := by
  have hcut : (View.mk b (w.insert p e)).isCutOff q = (View.mk b w).isCutOff q := by
    refine isCutOff_of_any fun r => ?_
    rw [SortedMap.get?_insert]
    split
    · rename_i hr
      rw [hr, ← hp]
      rfl
    · rfl
  have hshadow : (View.mk b (w.insert p e)).isShadowed q = (View.mk b w).isShadowed q := by
    refine isShadowed_of_any fun r => ?_
    rw [SortedMap.get?_insert]
    split
    · rename_i hr
      rw [hr, ← hc]
      rfl
    · rfl
  have hget : SortedMap.get? (w.insert p e) q = w.get? q := SortedMap.get?_insert_of_ne hq
  simp only [locate, hcut, hshadow, hget]

/-! ### The data seen after a step -/

theorem data?_eq_none : (View.mk b w).data? q = none ↔ (View.mk b w).exists? q = false := by
  rw [← Bool.not_eq_true, exists?_iff_data?]
  cases (View.mk b w).data? q <;> simp

/-- A note changes nothing of what is seen, but it may hide what has nothing above it. -/
theorem data?_note (h : Note b w w') (q : Path) :
    (View.mk b w').data? q = (View.mk b w).data? q ∨
      ((View.mk b w').data? q = none ∧ ∃ p, p.isAbove q = true ∧ (View.mk b w).data? p = none) := by
  cases h with
  | @copy p n hl =>
      left
      obtain ⟨hc, hget, -, -⟩ := locate_eq_committed.1 hl
      by_cases hq : q = p
      · subst hq
        rw [data?, data?, locate_insert_present hc rfl, hl]
        rfl
      · have hget' : w.get? p = none := hget
        rw [data?, data?, locate_insert_of_ne hq (by rw [hget']; rfl) (by rw [hget']; rfl)]
  | @mark p hl =>
      have hc := (locate_eq_missing.1 hl).1
      have hself : (View.mk b (w.insert p .absent)).locate p = .hidden := locate_insert_self hc
      by_cases hq : q = p
      · subst hq
        left
        rw [data?, data?, hself, hl]
        rfl
      · by_cases hpq : p.isAbove q = true
        · right
          have hcut : (View.mk b (w.insert p .absent)).isCutOff q = true :=
            isCutOff_iff.2 ⟨p, .absent, hpq, SortedMap.get?_insert_self, rfl⟩
          have hq' : (View.mk b (w.insert p .absent)).locate q = .hidden := by
            rw [locate, if_pos hcut]
          refine ⟨by rw [data?, hq']; rfl, p, hpq, ?_⟩
          rw [data?, hl]
          rfl
        · left
          have hnot : ¬q.isAtOrBelow p = true := by
            rw [Path.isAtOrBelow_iff]
            rintro (h | h)
            · exact hq h
            · exact hpq h
          rw [data?, data?, locate_insert_of_not hnot]
  | lock p =>
      left
      rw [data?, data?, locate_lock]
      cases (View.mk b w).locate q with
      | staged e =>
          simp only [dataAt]
          split <;> rfl
      | committed n => rfl
      | missing => rfl
      | hidden => rfl

/-- A write changes the data of one node. -/
theorem data?_write {e' : Entry} (hl : (View.mk b w).locate p = .staged e) (he : e.Edited e')
    (q : Path) : (View.mk b (w.insert p e')).data? q =
      if q = p then some e'.data else (View.mk b w).data? q := by
  obtain ⟨hc, hget, hp⟩ := locate_eq_staged.1 hl
  have hget' : w.get? p = some e := hget
  split
  · rename_i hq
    rw [hq, data?, locate_insert_present hc (by rw [he.isPresent, hp])]
    rfl
  · rename_i hq
    rw [data?, data?, locate_insert_of_ne hq]
    · rw [hget', he.isPresent]
      rfl
    · rw [hget', he.created]
      rfl

/-- A removal takes away a node and all below it. -/
theorem data?_remove (hl : (View.mk b w).locate p = .staged e) (q : Path) :
    (View.mk b ((w.dropBelow p).modify p .markRemoved)).data? q =
      if q.isAtOrBelow p then none else (View.mk b w).data? q := by
  obtain ⟨hc, hget, -⟩ := locate_eq_staged.1 hl
  have hself : SortedMap.get? ((w.dropBelow p).modify p .markRemoved) p = some e.markRemoved := by
    rw [Workspace.get?_remove, if_neg (Path.not_isAbove_self p), if_pos rfl]
    exact congrArg (Option.map Entry.markRemoved) hget
  have habsent : e.markRemoved.isPresent = false := rfl
  split
  · rename_i hqp
    rw [data?_eq_none, ← Bool.not_eq_true]
    intro hex
    rcases Path.isAtOrBelow_iff.1 hqp with rfl | hpq
    · rw [isPresent_of_exists? hex hself] at habsent
      simp at habsent
    · exact not_isCutOff_of_exists? hex (isCutOff_iff.2 ⟨p, _, hpq, hself, habsent⟩)
  · rename_i hqp
    rw [data?, data?]
    exact congrArg dataAt (locate_congr fun r hr =>
      Workspace.get?_remove_of_not fun hrp => hqp (Path.isAtOrBelow_trans hr hrp))

end View

end TransactionalTree
