/-
**What a merge does to the committed tree.**

Entries are merged in the order of their paths, so all entries above a path have been merged before
it.  A node that was replaced or removed takes all that was committed below it away; what the merge
itself has put there is put there afterwards.  So what is found at a path after a merge that went
through depends on the entry at the path, on whether something above it was replaced or removed, and
on what was committed there; and a merge goes through exactly if every entry has something to land
on.

Main definitions:

* `EntryMerge` — the ways in which an entry is merged;
* `mergedData` — the data of all nodes after one entry has been merged;
* `clearedAbove`, `outcome` — **the data of a node after all entries have been merged**;
* `Supported` — an entry has something to land on.

Main results:

* `mergeAll_sound` — a merge, whole or partial, keeps the tree sound;
* `mergeAll_data` — the data after a merge that went through;
* `mergeAll_isOk_iff` — **when a merge goes through**;
* `mergeAll_failed` — a merge that does not go through stops at an entry without support.
-/

import TransactionalTree.Commit.Merge
import TransactionalTree.Proofs.Committed

set_option relaxedAutoImplicit false
set_option autoImplicit false

namespace TransactionalTree

/-- The data of the valid node at a path. -/
def CommittedTree.data? (t : CommittedTree) (p : Path) : Option Data := (t.peek? p).map (·.data)

theorem CommittedTree.isSome_data? (t : CommittedTree) (p : Path) :
    (t.data? p).isSome = t.exists? p := by
  rw [data?, Option.isSome_map, exists?]

variable {t t' : CommittedTree} {v : Version} {o : Origin} {p q r : Path} {e : Entry}
variable {es : List (Path × Entry)} {f : Path → Option Data} {events : List Event}

/-! ### One entry -/

/-- The data of all nodes after one entry has been merged, `f` being the data before. -/
def mergedData (p : Path) (e : Entry) (f : Path → Option Data) (q : Path) : Option Data :=
  if e.removed then if e.replacesBase && q.isAtOrBelow p then none else f q
  else if e.created then
    if e.replacesBase then if q = p then some e.data else if p.isAbove q then none else f q
    else if q = p then
      some ((f p).elim e.data fun d => if e.changed then d.union e.data else d)
    else f q
  else if e.changed then if q = p then (f p).map fun _ => e.data else f q
  else f q

/-- What has become of a tree in which one entry was merged. -/
structure Merged (t : CommittedTree) (p : Path) (e : Entry) (t' : CommittedTree) : Prop where
  /-- The tree is sound. -/
  sound : t'.Sound
  /-- Identities are only given out, never taken back. -/
  nextId : t.nextId ≤ t'.nextId
  /-- The data of all nodes are known. -/
  data : ∀ q, t'.data? q = mergedData p e t.data? q
  /-- What is not at or below the path is as before. -/
  elsewhere : ∀ q, ¬q.isAtOrBelow p = true → t'.peek? q = t.peek? q
  /-- A replaced node has a new identity. -/
  replaced : e.removed = false → e.created = true → e.replacesBase = true →
    ∃ n, t'.peek? p = some n ∧ t.nextId ≤ n.id

/-- An entry that says nothing changes nothing. -/
theorem Merged.refl (h : t.Sound) (hd : ∀ q, t.data? q = mergedData p e t.data? q)
    (hr : ¬(e.removed = false ∧ e.created = true ∧ e.replacesBase = true)) : Merged t p e t :=
  ⟨h, Nat.le_refl _, hd, fun _ _ => rfl, fun h₁ h₂ h₃ => absurd ⟨h₁, h₂, h₃⟩ hr⟩

/-- The ways in which an entry is merged. -/
inductive EntryMerge (t : CommittedTree) (v : Version) (p : Path) (e : Entry) :
    CommittedTree → Prop
  /-- The node is removed. -/
  | removal {t' : CommittedTree} {ref : Option NodeRef} (hr : e.removed = true)
      (hrep : e.replacesBase = true) (h : t.remove p v = .ok (t', ref)) : EntryMerge t v p e t'
  /-- A removal where no node was observed removes nothing. -/
  | unseen (hr : e.removed = true) (hrep : e.replacesBase = false) : EntryMerge t v p e t
  /-- A new node is put in. -/
  | installation {t' : CommittedTree} {ref : NodeRef} (hr : e.removed = false)
      (hc : e.created = true) (hnew : e.replacesBase = true ∨ t.peek? p = none)
      (h : t.install p e.data v = .ok (t', ref)) : EntryMerge t v p e t'
  /-- A node that is there already is given the data that were written. -/
  | joining {t' : CommittedTree} {n : Node} (hr : e.removed = false) (hc : e.created = true)
      (hrep : e.replacesBase = false) (hch : e.changed = true) (hn : t.peek? p = some n)
      (h : t.update p (n.data.union e.data) v = .ok t') : EntryMerge t v p e t'
  /-- A node that is there already stays if no data were written. -/
  | keeping {n : Node} (hr : e.removed = false) (hc : e.created = true)
      (hrep : e.replacesBase = false) (hch : e.changed = false) (hn : t.peek? p = some n) :
      EntryMerge t v p e t
  /-- The data of a node are replaced. -/
  | update {t' : CommittedTree} (hr : e.removed = false) (hc : e.created = false)
      (hch : e.changed = true) (h : t.update p e.data v = .ok t') : EntryMerge t v p e t'
  /-- The entry says nothing. -/
  | nothing (hr : e.removed = false) (hc : e.created = false) (hch : e.changed = false) :
      EntryMerge t v p e t

theorem entryMerge_removal (hr : e.removed = true)
    (hm : mergeRemoval t v o p e = .ok (t', events)) : EntryMerge t v p e t' := by
  simp only [mergeRemoval] at hm
  split at hm
  · rename_i hrep
    split at hm
    · simp at hm
    · rename_i h
      obtain ⟨rfl, -⟩ := by simpa using hm
      exact .removal hr hrep h
    · rename_i h
      obtain ⟨rfl, -⟩ := by simpa using hm
      exact .removal hr hrep h
  · rename_i hrep
    obtain ⟨rfl, -⟩ := by simpa using hm
    exact .unseen hr (by simpa using hrep)

theorem entryMerge_replacement (hr : e.removed = false) (hc : e.created = true)
    (hrep : e.replacesBase = true) (hm : mergeReplacement t v o p e = .ok (t', events)) :
    EntryMerge t v p e t' := by
  simp only [mergeReplacement] at hm
  split at hm
  · simp at hm
  · rename_i h
    obtain ⟨rfl, -⟩ := by simpa using hm
    exact .installation hr hc (.inl hrep) h

theorem entryMerge_creation (hr : e.removed = false) (hc : e.created = true)
    (hrep : e.replacesBase = false) (hm : mergeCreation t v o p e = .ok (t', events)) :
    EntryMerge t v p e t' := by
  simp only [mergeCreation] at hm
  split at hm
  · rename_i hn
    split at hm
    · rename_i hch
      split at hm
      · simp at hm
      · rename_i h
        obtain ⟨rfl, -⟩ := by simpa using hm
        exact .joining hr hc hrep hch hn h
    · rename_i hch
      obtain ⟨rfl, -⟩ := by simpa using hm
      exact .keeping hr hc hrep (by simpa using hch) hn
  · rename_i hn
    split at hm
    · simp at hm
    · rename_i h
      obtain ⟨rfl, -⟩ := by simpa using hm
      exact .installation hr hc (.inr hn) h

/-- **How an entry is merged.** -/
theorem entryMerge_of_ok (hm : mergeEntry t v o p e = .ok (t', events)) :
    EntryMerge t v p e t' := by
  simp only [mergeEntry] at hm
  split at hm
  · rename_i hr
    exact entryMerge_removal hr hm
  · rename_i hr
    have hr : e.removed = false := by simpa using hr
    split at hm
    · rename_i hc
      split at hm
      · rename_i hrep
        exact entryMerge_replacement hr hc hrep hm
      · rename_i hrep
        exact entryMerge_creation hr hc (by simpa using hrep) hm
    · rename_i hc
      have hc : e.created = false := by simpa using hc
      split at hm
      · rename_i hch
        simp only [mergeUpdate] at hm
        split at hm
        · simp at hm
        · rename_i h
          obtain ⟨rfl, -⟩ := by simpa using hm
          exact .update hr hc hch h
      · rename_i hch
        obtain ⟨rfl, -⟩ := by simpa using hm
        exact .nothing hr hc (by simpa using hch)

theorem merged_removal {ref : Option NodeRef} (h : t.Sound) (hr : e.removed = true)
    (hrep : e.replacesBase = true) (hrem : t.remove p v = .ok (t', ref)) : Merged t p e t' := by
  have hpeek := h.peek?_remove hrem
  refine ⟨h.remove hrem, Nat.le_of_eq (CommittedTree.remove_nextId hrem).symm, fun q => ?_,
    fun q hq => by rw [hpeek, if_neg hq], fun h₁ => by rw [hr] at h₁; simp at h₁⟩
  simp only [mergedData, hr, hrep, CommittedTree.data?, hpeek, if_true, Bool.true_and]
  split <;> rfl

/-- A node that is put in afresh has a new identity, and nothing below it. -/
theorem merged_install {d : Data} {ref : NodeRef} (h : t.Sound)
    (hi : t.install p d v = .ok (t', ref))
    (hd : ∀ q, mergedData p e t.data? q =
      if q = p then some d else if p.isAbove q then none else t.data? q) : Merged t p e t' := by
  have hpeek := h.peek?_install hi
  refine ⟨h.install hi, ?_, fun q => ?_, fun q hq => ?_,
    fun _ _ _ => ⟨⟨t.nextId, true, v, d⟩, ?_, Nat.le_refl _⟩⟩
  · rw [CommittedTree.install_nextId hi]
    exact Nat.le_succ _
  · rw [hd, CommittedTree.data?, CommittedTree.data?, hpeek]
    split
    · rfl
    · split <;> rfl
  · rw [Path.isAtOrBelow_iff, not_or] at hq
    rw [hpeek, if_neg hq.1, if_neg hq.2]
  · rw [hpeek, if_pos rfl]

theorem merged_update {d : Data} (h : t.Sound) (hu : t.update p d v = .ok t')
    (hd : ∀ q, mergedData p e t.data? q = if q = p then some d else t.data? q)
    (hr : ¬(e.removed = false ∧ e.created = true ∧ e.replacesBase = true)) : Merged t p e t' := by
  have hpeek := h.peek?_update hu
  obtain ⟨n, hn, -⟩ := CommittedTree.update_ok.1 hu
  refine ⟨h.update hu, Nat.le_of_eq (CommittedTree.update_nextId hu).symm, fun q => ?_,
    fun q hq => ?_, fun h₁ h₂ h₃ => absurd ⟨h₁, h₂, h₃⟩ hr⟩
  · rw [hd, CommittedTree.data?, hpeek, hn]
    split <;> rfl
  · rw [hpeek, if_neg]
    rintro rfl
    exact hq (Path.isAtOrBelow_self q)

/-- **What merging one entry does.** -/
theorem merged_of_mergeEntry (h : t.Sound) (hm : mergeEntry t v o p e = .ok (t', events)) :
    Merged t p e t' := by
  cases entryMerge_of_ok hm with
  | removal hr hrep hrem => exact merged_removal h hr hrep hrem
  | unseen hr hrep => exact .refl h (fun q => by simp [mergedData, hr, hrep]) (by simp [hr])
  | installation hr hc hnew hi =>
      refine merged_install h hi fun q => ?_
      by_cases hrep : e.replacesBase = true
      · simp [mergedData, hr, hc, hrep]
      -- there was nothing at the path, hence nothing below it
      · have hnone := hnew.resolve_left hrep
        have hdata : t.data? p = none := by rw [CommittedTree.data?, hnone]; rfl
        simp only [mergedData, hr, hc, hrep, hdata, if_true, Option.elim_none, Bool.false_eq_true,
          if_false]
        split
        · rfl
        · split
          · rename_i hbelow
            rw [CommittedTree.data?, h.peek?_none_of_isAbove hbelow hnone]
            rfl
          · rfl
  | joining hr hc hrep hch hn hu =>
      refine merged_update h hu (fun q => ?_) (by simp [hrep])
      simp [mergedData, hr, hc, hrep, hch, CommittedTree.data?, hn]
  | @keeping n hr hc hrep hch hn =>
      refine .refl h (fun q => ?_) (by simp [hrep])
      have hdata : t.data? p = some n.data := by rw [CommittedTree.data?, hn]; rfl
      simp only [mergedData, hr, hc, hrep, hdata, hch, if_true, Option.elim_some,
        Bool.false_eq_true, if_false]
      split
      · rename_i hq
        rw [hq, hdata]
      · rfl
  | update hr hc hch hu =>
      obtain ⟨n, hn, -⟩ := CommittedTree.update_ok.1 hu
      refine merged_update h hu (fun q => ?_) (by simp [hc])
      simp [mergedData, hr, hc, hch, CommittedTree.data?, hn]
  | nothing hr hc hch => exact .refl h (fun q => by simp [mergedData, hr, hc, hch]) (by simp [hc])

/-! ### All entries -/

/-- Something above the path is replaced or removed. -/
def clearedAbove (es : List (Path × Entry)) (q : Path) : Bool :=
  es.any fun a => a.1.isAbove q && a.2.replacesBase

/-- **The data of a node after all entries have been merged**, `f` being the data before. -/
def outcome (f : Path → Option Data) (es : List (Path × Entry)) (q : Path) : Option Data :=
  let kept := if clearedAbove es q then none else f q
  match es.lookup q with
  | none => kept
  | some e => mergedData q e (fun _ => kept) q

/-- The entry has something to land on: a node that is made has a node above it, and a node that is
written is there. -/
def Supported (f : Path → Option Data) (es : List (Path × Entry)) (p : Path) (e : Entry) : Prop :=
  e.removed = true ∨
    if e.created then ∃ r name, p = r.push name ∧ (outcome f es r).isSome = true
    else e.changed = true → clearedAbove es p = false ∧ (f p).isSome = true

/-- What is known of the entries that are merged. -/
structure Mergeable (es : List (Path × Entry)) : Prop where
  /-- They are in the order of their paths. -/
  sorted : es.Pairwise fun a b => compare a.1 b.1 = .lt
  /-- A node is replaced only if it is removed or made anew. -/
  replaces : ∀ p e, (p, e) ∈ es → e.replacesBase = true → e.removed = true ∨ e.created = true
  /-- The root is neither removed nor made. -/
  root : ∀ e, (Path.root, e) ∈ es → e.removed = false ∧ e.created = false

namespace Mergeable

theorem tail (h : Mergeable ((p, e) :: es)) : Mergeable es where
  sorted := (List.pairwise_cons.1 h.sorted).2
  replaces q g hg := h.replaces q g (List.mem_cons_of_mem _ hg)
  root g hg := h.root g (List.mem_cons_of_mem _ hg)

/-- The first entries can be merged without the others. -/
theorem of_append {before after : List (Path × Entry)} (h : Mergeable (before ++ after)) :
    Mergeable before where
  sorted := (List.pairwise_append.1 h.sorted).1
  replaces q g hg := h.replaces q g (List.mem_append_left _ hg)
  root g hg := h.root g (List.mem_append_left _ hg)

/-- What is above an entry comes before it. -/
theorem mem_before {before after : List (Path × Entry)} {g : Entry}
    (h : Mergeable (before ++ (p, e) :: after)) (hq : q.isAbove p = true)
    (hmem : (q, g) ∈ before ++ (p, e) :: after) : (q, g) ∈ before := by
  have hlt := Path.lt_of_isAbove hq
  rcases List.mem_append.1 hmem with hmem | hmem
  · exact hmem
  · exfalso
    rcases List.mem_cons.1 hmem with heq | hmem
    · rw [(Prod.mk.inj heq).1] at hlt
      simp at hlt
    · have hgt := (List.pairwise_cons.1 (List.pairwise_append.1 h.sorted).2.1).1 _ hmem
      rw [Std.OrientedCmp.gt_of_lt hlt] at hgt
      simp at hgt

/-- What comes after an entry is not above its path, and not at it. -/
theorem not_isAtOrBelow (h : Mergeable ((p, e) :: es)) {a : Path × Entry} (ha : a ∈ es) :
    ¬p.isAtOrBelow a.1 = true := by
  have hlt := (List.pairwise_cons.1 h.sorted).1 a ha
  rw [Path.isAtOrBelow_iff]
  rintro (heq | habove)
  · rw [← heq] at hlt
    simp at hlt
  · exact Path.isAbove_asymm_of_lt hlt habove

theorem clearedAbove_tail (h : Mergeable ((p, e) :: es)) (hq : p.isAtOrBelow q = true) :
    clearedAbove es q = false := by
  rw [clearedAbove, List.any_eq_false]
  intro a ha hcon
  rw [Bool.and_eq_true] at hcon
  refine h.not_isAtOrBelow ha (Path.isAtOrBelow_iff.2 (.inr ?_))
  exact Path.isAbove_trans_isAtOrBelow hcon.1 hq

theorem lookup_tail (h : Mergeable ((p, e) :: es)) (hq : p.isAtOrBelow q = true) :
    es.lookup q = none := by
  rw [List.lookup_eq_none_iff]
  intro a ha
  have hne : q ≠ a.1 := by
    rintro rfl
    exact h.not_isAtOrBelow ha hq
  simpa using hne

end Mergeable

theorem clearedAbove_iff :
    clearedAbove es q = true ↔ ∃ r g, (r, g) ∈ es ∧ r.isAbove q = true ∧ g.replacesBase = true := by
  simp [clearedAbove]

theorem lookup_eq_some (h : es.Pairwise fun a b => compare a.1 b.1 = .lt) :
    es.lookup q = some e ↔ (q, e) ∈ es := by
  induction es with
  | nil => simp
  | cons a es ih =>
      obtain ⟨r, g⟩ := a
      obtain ⟨ha, hes⟩ := List.pairwise_cons.1 h
      rw [List.lookup_cons, List.mem_cons]
      by_cases hq : q = r
      · subst hq
        have hnot : (q, e) ∉ es := fun hmem => by
          have hlt := ha _ hmem
          simp at hlt
        simp [hnot, eq_comm]
      · have hb : (q == r) = false := by simpa using hq
        simp [hb, hq, ih hes]

/-- Elsewhere an entry clears what is below it, if it replaces or removes a node. -/
theorem mergedData_of_ne (hq : q ≠ p)
    (hrep : e.replacesBase = true → e.removed = true ∨ e.created = true) :
    mergedData p e f q = if p.isAbove q && e.replacesBase then none else f q := by
  simp only [mergedData, Path.isAtOrBelow_of_ne hq, if_neg hq]
  cases hr : e.removed
  · cases hc : e.created
    · cases hb : e.replacesBase
      · simp
      · simp [hr, hc, hb] at hrep
    · cases hb : e.replacesBase <;> simp
  · cases hb : e.replacesBase <;> simp

/-- At its own path an entry depends on the data there only. -/
theorem mergedData_self : mergedData p e f p = mergedData p e (fun _ => f p) p := rfl

/-- **Merging the first entry does not change the outcome.** -/
theorem outcome_mergedData (h : Mergeable ((p, e) :: es)) :
    outcome (mergedData p e f) es q = outcome f ((p, e) :: es) q := by
  have hrep := h.replaces p e List.mem_cons_self
  by_cases hq : q = p
  · subst hq
    have hself := Path.isAtOrBelow_self q
    have hcl : clearedAbove ((q, e) :: es) q = false := by
      rw [clearedAbove, List.any_cons, ← clearedAbove, h.clearedAbove_tail hself]
      simp
    simp only [outcome, h.lookup_tail hself, h.clearedAbove_tail hself, hcl, List.lookup_cons_self,
      Bool.false_eq_true, if_false]
    exact mergedData_self
  · have hlookup : ((p, e) :: es).lookup q = es.lookup q := by
      have hb : (q == p) = false := by simpa using hq
      rw [List.lookup_cons, hb]
    have hkept : (if clearedAbove es q then none else mergedData p e f q) =
        if clearedAbove ((p, e) :: es) q then none else f q := by
      rw [mergedData_of_ne hq hrep, clearedAbove, clearedAbove, List.any_cons]
      cases p.isAbove q && e.replacesBase
      · rfl
      · simp
    simp only [outcome, hlookup, hkept]

/-! ### When an entry can be merged -/

/-- The first entry lands exactly if it would land alone. -/
theorem supported_head (h : Mergeable ((p, e) :: es)) :
    Supported f ((p, e) :: es) p e ↔ Supported f [] p e := by
  -- the other entries are neither above the first one nor at a place above it
  have hcl : ∀ r, p.isAtOrBelow r = true → clearedAbove ((p, e) :: es) r = false := by
    intro r hr
    have hpr : p.isAbove r = false := by
      rw [Bool.eq_false_iff]
      exact fun hpr => Path.not_isAtOrBelow_of_isAbove hpr hr
    have htail := h.clearedAbove_tail hr
    rw [clearedAbove] at htail ⊢
    rw [List.any_cons, htail]
    simp [hpr]
  have hout : ∀ r name, p = r.push name → outcome f ((p, e) :: es) r = f r := by
    intro r name hp
    have hr : p.isAtOrBelow r = true := by
      rw [hp]
      exact Path.isAtOrBelow_of_isAbove (Path.isAbove_push_self r name)
    have hb : (r == p) = false := by
      have habove := Path.isAbove_push_self r name
      rw [← hp] at habove
      simpa using Path.ne_of_isAbove habove
    simp only [outcome, hcl r hr, List.lookup_cons, hb, h.lookup_tail hr, Bool.false_eq_true,
      if_false]
  have hnil : ∀ r, outcome f [] r = f r := fun r => rfl
  have hnil' : clearedAbove [] p = false := rfl
  simp only [Supported, hcl p (Path.isAtOrBelow_self p), hnil, hnil']
  refine or_congr_right ?_
  split
  · constructor
    · rintro ⟨r, name, hp, hr⟩
      rw [hout r name hp] at hr
      exact ⟨r, name, hp, hr⟩
    · rintro ⟨r, name, hp, hr⟩
      refine ⟨r, name, hp, ?_⟩
      rw [hout r name hp]
      exact hr
  · rfl

/-- A later entry lands after the first has been merged exactly if it lands now. -/
theorem supported_tail {g : Entry} (h : Mergeable ((p, e) :: es)) (hg : (q, g) ∈ es) :
    Supported (mergedData p e f) es q g ↔ Supported f ((p, e) :: es) q g := by
  have hqp : q ≠ p := by
    rintro rfl
    exact h.not_isAtOrBelow hg (Path.isAtOrBelow_self q)
  have hcl : clearedAbove ((p, e) :: es) q =
      (p.isAbove q && e.replacesBase || clearedAbove es q) := rfl
  simp only [Supported, outcome_mergedData h, hcl,
    mergedData_of_ne hqp (h.replaces p e List.mem_cons_self)]
  cases p.isAbove q && e.replacesBase <;> simp

/-- An installation needs a node above the path. -/
theorem install_isOk_iff {d : Data} :
    (∃ t' ref, t.install p d v = .ok (t', ref)) ↔
      ∃ r name, p = r.push name ∧ (t.data? r).isSome = true := by
  simp only [CommittedTree.install_isOk, CommittedTree.data?, Option.isSome_map]
  rfl

/-- A removal can always be merged. -/
theorem mergeRemoval_isOk (hp : p ≠ Path.root) :
    ∃ t' events, mergeRemoval t v o p e = .ok (t', events) := by
  simp only [mergeRemoval]
  split
  · obtain ⟨t', ref, hrem⟩ := CommittedTree.remove_isOk (t := t) (v := v) hp
    rw [hrem]
    cases ref with
    | none => exact ⟨_, _, rfl⟩
    | some ref => exact ⟨_, _, rfl⟩
  · exact ⟨_, _, rfl⟩

/-- A node can replace another one if there is a node above it. -/
theorem mergeReplacement_isOk_iff :
    (∃ t' events, mergeReplacement t v o p e = .ok (t', events)) ↔
      ∃ r name, p = r.push name ∧ (t.data? r).isSome = true := by
  rw [← install_isOk_iff (d := e.data) (v := v)]
  simp only [mergeReplacement]
  constructor
  · rintro ⟨t', events, hm⟩
    split at hm
    · simp at hm
    · rename_i hi
      exact ⟨_, _, hi⟩
  · rintro ⟨t', ref, hi⟩
    rw [hi]
    exact ⟨_, _, rfl⟩

/-- A node can be made if there is a node above it. -/
theorem mergeCreation_isOk_iff (h : t.Sound) (hp : p ≠ Path.root) :
    (∃ t' events, mergeCreation t v o p e = .ok (t', events)) ↔
      ∃ r name, p = r.push name ∧ (t.data? r).isSome = true := by
  rw [← install_isOk_iff (d := e.data) (v := v)]
  simp only [mergeCreation]
  cases hn : t.peek? p with
  | none =>
      constructor
      · rintro ⟨t', events, hm⟩
        simp only at hm
        split at hm
        · simp at hm
        · rename_i hi
          exact ⟨_, _, hi⟩
      · rintro ⟨t', ref, hi⟩
        simp only [hi]
        exact ⟨_, _, rfl⟩
  | some n =>
      -- the node is there, and so is the one above it
      refine ⟨fun _ => ?_, fun _ => ?_⟩
      · cases p using Path.rootOrPush with
        | root => exact absurd rfl hp
        | push r name =>
            refine CommittedTree.install_isOk.2 ⟨r, name, rfl, ?_⟩
            have hvalid : t.isValidAt (r.push name) = true :=
              h.exists?_iff.1 (CommittedTree.exists?_iff_peek?.2 ⟨n, hn⟩)
            exact h.exists?_iff.2 (h.parent hvalid)
      · simp only
        split
        · simp only [CommittedTree.update, hn]
          exact ⟨_, _, rfl⟩
        · exact ⟨_, _, rfl⟩

/-- Data can be written if the node is there. -/
theorem mergeUpdate_isOk_iff :
    (∃ t' events, mergeUpdate t v o p e = .ok (t', events)) ↔ (t.data? p).isSome = true := by
  simp only [mergeUpdate, CommittedTree.update]
  cases hn : t.peek? p with
  | none => simp [CommittedTree.data?, hn]
  | some n => simp [CommittedTree.data?, hn]

/-- **When one entry can be merged**: a removal always, else if there is something to land on. -/
theorem mergeEntry_isOk_iff (h : t.Sound)
    (hroot : p = Path.root → e.removed = false ∧ e.created = false) :
    (∃ t' events, mergeEntry t v o p e = .ok (t', events)) ↔ Supported t.data? [] p e := by
  have hout : ∀ r, outcome t.data? [] r = t.data? r := fun r => rfl
  simp only [Supported, hout, mergeEntry]
  by_cases hr : e.removed = true
  · have hp : p ≠ Path.root := by
      intro hp
      rw [(hroot hp).1] at hr
      simp at hr
    rw [if_pos hr]
    exact ⟨fun _ => .inl hr, fun _ => mergeRemoval_isOk hp⟩
  · simp only [hr, Bool.false_eq_true, if_false, false_or]
    by_cases hc : e.created = true
    · have hp : p ≠ Path.root := by
        intro hp
        rw [(hroot hp).2] at hc
        simp at hc
      simp only [if_pos hc]
      by_cases hrep : e.replacesBase = true
      · rw [if_pos hrep]
        exact mergeReplacement_isOk_iff
      · rw [if_neg hrep]
        exact mergeCreation_isOk_iff h hp
    · simp only [if_neg hc]
      by_cases hch : e.changed = true
      · have hnil : clearedAbove [] p = false := rfl
        rw [if_pos hch, mergeUpdate_isOk_iff]
        simp [hch, hnil]
      · simp [hch]

/-! ### The whole merge -/

theorem mergeAll_cons (t : CommittedTree) (v : Version) (o : Origin) (a : Path × Entry)
    (es : List (Path × Entry)) :
    (∃ t₁ events, mergeEntry t v o a.1 a.2 = .ok (t₁, events) ∧
        (mergeAll t v o (a :: es)).tree = (mergeAll t₁ v o es).tree ∧
        ((∃ x, (mergeAll t v o (a :: es)).events = .ok x) ↔
          ∃ x, (mergeAll t₁ v o es).events = .ok x)) ∨
      ((∀ t₁ events, mergeEntry t v o a.1 a.2 ≠ .ok (t₁, events)) ∧
        (mergeAll t v o (a :: es)).tree = t ∧
        ¬∃ x, (mergeAll t v o (a :: es)).events = .ok x) := by
  simp only [mergeAll]
  cases hm : mergeEntry t v o a.1 a.2 with
  | error err => exact .inr ⟨by simp, rfl, by simp⟩
  | ok r =>
      obtain ⟨t₁, events⟩ := r
      refine .inl ⟨t₁, events, rfl, rfl, ?_⟩
      simp only
      generalize (mergeAll t₁ v o es).events = rest
      cases rest <;> simp [Except.map]

/-- **A merge, whole or partial, keeps the tree sound**, and takes no identity back. -/
theorem mergeAll_sound (h : t.Sound) :
    (mergeAll t v o es).tree.Sound ∧ t.nextId ≤ (mergeAll t v o es).tree.nextId := by
  induction es generalizing t with
  | nil => exact ⟨h, Nat.le_refl _⟩
  | cons a es ih =>
      rcases mergeAll_cons t v o a es with ⟨t₁, events, hm, htree, -⟩ | ⟨-, htree, -⟩
      · have hstep := merged_of_mergeEntry h hm
        obtain ⟨hs, hn⟩ := ih hstep.sound
        rw [htree]
        exact ⟨hs, Nat.le_trans hstep.nextId hn⟩
      · rw [htree]
        exact ⟨h, Nat.le_refl _⟩

/-- An entry that takes no node away changes no node but the one at its path. -/
theorem mergeEntry_other (h : t.Sound) (hm : mergeEntry t v o p e = .ok (t', events))
    (hrep : e.replacesBase = false) (hq : q ≠ p) : t'.peek? q = t.peek? q := by
  cases entryMerge_of_ok hm with
  | removal _ hyes _ =>
      rw [hrep] at hyes
      simp at hyes
  | unseen _ _ => rfl
  | installation _ _ hnew hi =>
      have hnone : t.peek? p = none := hnew.resolve_left (by simp [hrep])
      rw [h.peek?_install hi, if_neg hq]
      split
      -- there was nothing at the path, hence nothing below it
      · rename_i hbelow
        rw [h.peek?_none_of_isAbove hbelow hnone]
      · rfl
  | joining _ _ _ _ _ hu => rw [h.peek?_update hu, if_neg hq]
  | keeping _ _ _ _ _ => rfl
  | update _ _ _ hu => rw [h.peek?_update hu, if_neg hq]
  | nothing _ _ _ => rfl

/-- **A node changes only if it has an entry or if one above it is taken away.** -/
theorem mergeAll_elsewhere (h : t.Sound) (hq : ∀ a ∈ es, q ≠ a.1)
    (hcl : clearedAbove es q = false) : (mergeAll t v o es).tree.peek? q = t.peek? q := by
  induction es generalizing t with
  | nil => rfl
  | cons a es ih =>
      rw [clearedAbove, List.any_cons, Bool.or_eq_false_iff, Bool.and_eq_false_iff] at hcl
      rcases mergeAll_cons t v o a es with ⟨t₁, events, hm, htree, -⟩ | ⟨-, htree, -⟩
      · have hstep := merged_of_mergeEntry h hm
        rw [htree, ih hstep.sound (fun a' ha' => hq a' (List.mem_cons_of_mem _ ha')) hcl.2]
        rcases hcl.1 with habove | hrep
        · refine hstep.elsewhere q fun hqa => ?_
          rcases Path.isAtOrBelow_iff.1 hqa with heq | hbelow
          · exact hq a List.mem_cons_self heq
          · rw [habove] at hbelow
            simp at hbelow
        · exact mergeEntry_other h hm hrep (hq a List.mem_cons_self)
      · rw [htree]

/-- **The data after a merge that went through.** -/
theorem mergeAll_data (h : t.Sound) (hes : Mergeable es)
    (hok : ∃ x, (mergeAll t v o es).events = .ok x) (q : Path) :
    (mergeAll t v o es).tree.data? q = outcome t.data? es q := by
  induction es generalizing t with
  | nil => rfl
  | cons a es ih =>
      rcases mergeAll_cons t v o a es with ⟨t₁, events, hm, htree, hiff⟩ | ⟨-, -, hnot⟩
      · have hstep := merged_of_mergeEntry h hm
        rw [htree, ih hstep.sound hes.tail (hiff.1 hok), funext hstep.data,
          outcome_mergedData hes]
      · exact absurd hok hnot

/-- **A merge goes through exactly if every entry has something to land on.** -/
theorem mergeAll_isOk_iff (h : t.Sound) (hes : Mergeable es) :
    (∃ x, (mergeAll t v o es).events = .ok x) ↔
      ∀ p e, (p, e) ∈ es → Supported t.data? es p e := by
  induction es generalizing t with
  | nil => simp [mergeAll]
  | cons a es ih =>
      obtain ⟨p, e⟩ := a
      have hfirst := mergeEntry_isOk_iff (v := v) (o := o) (e := e) h fun hp =>
        hes.root e (by rw [← hp]; exact List.mem_cons_self)
      rw [← supported_head hes] at hfirst
      rcases mergeAll_cons t v o (p, e) es with ⟨t₁, events, hm, -, hiff⟩ | ⟨hno, -, hnot⟩
      · have hstep := merged_of_mergeEntry h hm
        rw [hiff, ih hstep.sound hes.tail, funext hstep.data]
        constructor
        · intro hall q g hg
          rcases List.mem_cons.1 hg with heq | hg
          · obtain ⟨rfl, rfl⟩ := Prod.mk.inj heq
            exact hfirst.1 ⟨t₁, events, hm⟩
          · exact (supported_tail hes hg).1 (hall q g hg)
        · intro hall q g hg
          exact (supported_tail hes hg).2 (hall q g (List.mem_cons_of_mem _ hg))
      · refine ⟨fun hok => absurd hok hnot, fun hall => ?_⟩
        obtain ⟨t₁, events, hm⟩ := hfirst.2 (hall p e List.mem_cons_self)
        exact absurd hm (hno t₁ events)

/-- A merge that does not go through has merged the entries up to one that has nothing to land on.
-/
theorem mergeAll_failed (h : t.Sound) (hes : Mergeable es)
    (hnot : ¬∃ x, (mergeAll t v o es).events = .ok x) :
    ∃ before p e after, es = before ++ (p, e) :: after ∧
      (mergeAll t v o es).tree = (mergeAll t v o before).tree ∧
      (∃ x, (mergeAll t v o before).events = .ok x) ∧ ¬Supported t.data? es p e := by
  induction es generalizing t with
  | nil => exact absurd ⟨_, rfl⟩ hnot
  | cons a es ih =>
      obtain ⟨p, e⟩ := a
      have hfirst := mergeEntry_isOk_iff (v := v) (o := o) (e := e) h fun hp =>
        hes.root e (by rw [← hp]; exact List.mem_cons_self)
      rw [← supported_head hes] at hfirst
      rcases mergeAll_cons t v o (p, e) es with ⟨t₁, events, hm, htree, hiff⟩ | ⟨hno, htree, -⟩
      · have hstep := merged_of_mergeEntry h hm
        obtain ⟨before, q, g, after, heq, htree', hok, hsup⟩ :=
          ih hstep.sound hes.tail fun hok => hnot (hiff.2 hok)
        refine ⟨(p, e) :: before, q, g, after, by rw [heq]; rfl, ?_, ?_, ?_⟩
        · rw [htree, htree']
          simp only [mergeAll, hm]
        · obtain ⟨x, hx⟩ := hok
          exact ⟨events ++ x, by simp only [mergeAll, hm, hx, Except.map]⟩
        · rw [funext hstep.data] at hsup
          refine fun hcon => hsup ((supported_tail hes ?_).2 hcon)
          rw [heq]
          exact List.mem_append_right _ List.mem_cons_self
      · refine ⟨[], p, e, es, rfl, htree, ⟨[], rfl⟩, fun hcon => ?_⟩
        obtain ⟨t₁, events, hm⟩ := hfirst.2 hcon
        exact hno t₁ events hm

/-- A node that a merge has replaced has a new identity afterwards. -/
theorem mergeAll_replaced (h : t.Sound) (hes : Mergeable es)
    (hok : ∃ x, (mergeAll t v o es).events = .ok x) (hmem : (p, e) ∈ es)
    (hr : e.removed = false) (hc : e.created = true) (hrep : e.replacesBase = true) :
    ∃ n, (mergeAll t v o es).tree.peek? p = some n ∧ t.nextId ≤ n.id := by
  induction es generalizing t with
  | nil => simp at hmem
  | cons a es ih =>
      rcases mergeAll_cons t v o a es with ⟨t₁, events, hm, htree, hiff⟩ | ⟨-, -, hnot⟩
      · have hstep := merged_of_mergeEntry h hm
        rw [htree]
        rcases List.mem_cons.1 hmem with rfl | hmem
        · rw [mergeAll_elsewhere hstep.sound (fun a' ha' hp => hes.not_isAtOrBelow ha'
            (Path.isAtOrBelow_iff.2 (.inl hp))) (hes.clearedAbove_tail (Path.isAtOrBelow_self p))]
          exact hstep.replaced hr hc hrep
        · obtain ⟨n, hn, hle⟩ := ih hstep.sound hes.tail (hiff.1 hok) hmem
          exact ⟨n, hn, Nat.le_trans hstep.nextId hle⟩
      · exact absurd hok hnot

end TransactionalTree
