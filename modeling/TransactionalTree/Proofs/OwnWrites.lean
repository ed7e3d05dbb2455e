/-
**How far a unit of work keeps its own writes.**

What a unit of work has written stays in its entry, whatever others commit, until it changes the
entry itself.  It may do so without meaning to: a write below the node, while something above has
gone, makes all nodes from there down anew, the written one included.  And reads that have found a
place above to be gone hide the entry.  These are the only ways in which a write is lost.

Main definitions:

* `Operation.spares` — an operation that by itself leaves the value under a key of a node;
* `SharedTree.sparesKey`, `SharedTree.sparesKeyThroughout` — **a run in which a unit of work does
  not touch a key of a node**;
* `Base.remakes`, `SharedTree.hasRebuilt` — a write that makes a node anew because something above
  it is missing.

Main results:

* `Stages.keepsEntry` — what a sequence of steps does to the value under a key;
* `KeepsEntry.perform` — what an operation does to it;
* `SharedTree.own_write_kept_unless_rebuilt` — the write is read and committed, unless the node was
  rebuilt or is hidden.
-/

import TransactionalTree.Proofs.Holding

set_option relaxedAutoImplicit false
set_option autoImplicit false

namespace TransactionalTree

/-! ### The entry that was written -/

/-- The entry for `f` is present, has this value under `k`, and knows that it was written if there
is a value. -/
def KeepsEntry (w : Workspace) (f : Path) (k : String) (value : Option Value) : Prop :=
  ∃ e, w.get? f = some e ∧ e.isPresent = true ∧ e.data.get? k = value ∧
    (e.changed = true ∨ value = none)

/-- What a step makes of the value under `k` at `f`, if it does not remove the node. -/
def Act.onKey (f : Path) (k : String) (value : Option Value) : Act → Option Value
  | create p => if p = f then none else value
  | write p d => if p = f then d.get? k else value
  | remove _ => value

section Entries

variable {b : Base} {w w' : Workspace} {f p : Path} {k : String} {value : Option Value}
variable {a : Act} {acts : List Act} {e : Entry}

theorem KeepsEntry.insert_of_ne (h : KeepsEntry w f k value) (hp : f ≠ p) :
    KeepsEntry (w.insert p e) f k value := by
  obtain ⟨g, hg, hrest⟩ := h
  exact ⟨g, (SortedMap.get?_insert_of_ne hp).trans hg, hrest⟩

/-- A note leaves the value. -/
theorem KeepsEntry.note (h : KeepsEntry w f k value) (hs : Note b w w') :
    KeepsEntry w' f k value := by
  have hne : ∀ {p : Path}, w.get? p = none → f ≠ p := by
    rintro p hp rfl
    obtain ⟨g, hg, -⟩ := h
    rw [hp] at hg
    simp at hg
  cases hs with
  | copy hl => exact h.insert_of_ne (hne (View.locate_eq_committed.1 hl).2.1)
  | mark hl => exact h.insert_of_ne (hne (View.locate_eq_missing.1 hl).2.1)
  | lock p =>
      obtain ⟨g, hg, hp, hv, hc⟩ := h
      by_cases hfp : f = p
      · refine ⟨g.markLocked, ?_, hp, hv, hc⟩
        rw [SortedMap.get?_modify, if_pos hfp, hg]
        rfl
      · refine ⟨g, ?_, hp, hv, hc⟩
        rw [SortedMap.get?_modify, if_neg hfp, hg]

/-- A step that does not remove the node does to the value what it says. -/
theorem KeepsEntry.stage (h : KeepsEntry w f k value) (hs : Stage b a w w')
    (ha : ∀ r, a = .remove r → ¬f.isAtOrBelow r = true) :
    KeepsEntry w' f k (a.onKey f k value) := by
  cases hs with
  | @create _ q name hl =>
      by_cases hf : q.push name = f
      · subst hf
        simp only [Act.onKey, if_pos]
        refine ⟨_, SortedMap.get?_insert_self, ?_⟩
        cases w.get? (q.push name) with
        | none => exact ⟨rfl, rfl, .inr rfl⟩
        | some e => exact ⟨rfl, rfl, .inr rfl⟩
      · simp only [Act.onKey, if_neg hf]
        exact h.insert_of_ne fun he => hf he.symm
  | @write _ q e e' hl hed =>
      obtain ⟨-, he, hp⟩ := View.locate_eq_staged.1 hl
      by_cases hf : q = f
      · subst hf
        obtain ⟨g, hg, -, hv, hc⟩ := h
        obtain rfl := Option.some.inj (he.symm.trans hg)
        simp only [Act.onKey, if_pos]
        refine ⟨e', SortedMap.get?_insert_self, by rw [hed.isPresent, hp], rfl, ?_⟩
        -- without a note that it was written, the entry is as it was, and so without a value
        cases hch : e'.changed with
        | true => exact .inl rfl
        | false =>
            obtain ⟨hch', hd⟩ := hed.unchanged hch
            rw [hch'] at hc
            rw [hd, hv]
            exact .inr (hc.resolve_left (by simp))
      · simp only [Act.onKey, if_neg hf]
        exact h.insert_of_ne fun he => hf he.symm
  | @remove _ q e hq hl =>
      have hf := ha q rfl
      obtain ⟨g, hg, hrest⟩ := h
      exact ⟨g, (Workspace.get?_remove_of_not hf).trans hg, hrest⟩

/-- **Steps that do not remove the node do to the value what they say**, one after the other. -/
theorem Stages.keepsEntry (hs : Stages b w acts w') (h : KeepsEntry w f k value)
    (ha : ∀ r, Act.remove r ∈ acts → ¬f.isAtOrBelow r = true) :
    KeepsEntry w' f k (acts.foldl (Act.onKey f k) value) := by
  induction hs with
  | refl => exact h
  | note _ hs ih => exact (ih ha).note hs
  | @act acts a _ _ _ hs ih =>
      rw [List.foldl_append]
      refine (ih fun r hr => ha r (List.mem_append_left _ hr)).stage hs fun r hr => ?_
      exact ha r (List.mem_append_right _ (by simp [hr]))

/-- Making nodes takes the value away if the node is among them. -/
theorem foldl_onKey_create (ps : List Path) :
    (ps.map Act.create).foldl (Act.onKey f k) value = if f ∈ ps then none else value := by
  induction ps generalizing value with
  | nil => rfl
  | cons p ps ih =>
      rw [List.map_cons, List.foldl_cons, ih]
      by_cases hf : f ∈ ps
      · simp [hf]
      · by_cases hp : p = f
        · simp [Act.onKey, hp]
        · have hp' : ¬f = p := fun he => hp he.symm
          simp [Act.onKey, hf, hp, hp']

/-- Steps that miss the node leave the value. -/
theorem foldl_onKey_of_misses (ha : ∀ a ∈ acts, a.Misses f) :
    acts.foldl (Act.onKey f k) value = value := by
  induction acts with
  | nil => rfl
  | cons a acts ih =>
      have hstep : a.onKey f k value = value := by
        have hmiss := ha a List.mem_cons_self
        cases a with
        | create p => exact if_neg hmiss
        | write p d => exact if_neg hmiss
        | remove p => rfl
      rw [List.foldl_cons, hstep]
      exact ih fun a' ha' => ha a' (List.mem_cons_of_mem _ ha')

/-- So the entry is kept with its value. -/
theorem KeepsEntry.missed (h : KeepsEntry w f k value) (hs : Stages b w acts w')
    (ha : ∀ a ∈ acts, a.Misses f) : KeepsEntry w' f k value := by
  have hkept := hs.keepsEntry h fun r hr => ha _ hr
  rwa [foldl_onKey_of_misses ha] at hkept

/-! ### Operations that spare a key -/

/-- By itself the operation does not touch the value under `k` at `f`: it neither writes the key nor
takes the node away. -/
def Operation.spares (o : Operation) (f : Path) (k : String) : Bool :=
  match o with
  | put p key _ => p ≠ f || key ≠ k
  | putAll p d => p ≠ f || !d.contains k
  | replaceAll p _ => p ≠ f
  | removeKey p key => p ≠ f || key ≠ k
  | clearData p => p ≠ f
  | removeNode p => !f.isAtOrBelow p
  | moveNode source parent _ =>
      !f.isAtOrBelow source && !source.name?.any fun name => f.isAtOrBelow (parent.push name)
  | _ => true

variable {o : Operation} {create : Bool} {d : Data}

/-- A write that spares a key of the node it is for leaves the value under it. -/
theorem get?_edit_of_spares (ho : o.writePath? = some (f, create)) (hs : o.spares f k = true) :
    (o.edit d).get? k = d.get? k := by
  cases o with
  | put p key v =>
      obtain ⟨rfl, -⟩ := Prod.mk.inj (Option.some.inj ho)
      have hk : key ≠ k := by simpa [Operation.spares] using hs
      exact SortedMap.get?_insert_of_ne hk.symm
  | putAll p d' =>
      obtain ⟨rfl, -⟩ := Prod.mk.inj (Option.some.inj ho)
      have hk : d'.get? k = none := by
        simpa [Operation.spares, SortedMap.contains] using hs
      simp only [Operation.edit, SortedMap.get?_union, hk, Option.none_or]
  | replaceAll p d' =>
      obtain ⟨rfl, -⟩ := Prod.mk.inj (Option.some.inj ho)
      simp [Operation.spares] at hs
  | removeKey p key =>
      obtain ⟨rfl, -⟩ := Prod.mk.inj (Option.some.inj ho)
      have hk : key ≠ k := by simpa [Operation.spares] using hs
      simp only [Operation.edit, SortedMap.get?_erase, if_neg hk.symm]
  | clearData p =>
      obtain ⟨rfl, -⟩ := Prod.mk.inj (Option.some.inj ho)
      simp [Operation.spares] at hs
  | _ => simp [Operation.writePath?] at ho

/-- What is written is seen, unless the entry is hidden. -/
theorem KeepsEntry.data? (h : KeepsEntry w f k value) :
    ∃ d : Data, d.get? k = value ∧
      (View.mk b w).data? f = if (View.mk b w).isCutOff f then none else some d := by
  obtain ⟨e, he, hp, hv, -⟩ := h
  refine ⟨e.data, hv, ?_⟩
  by_cases hc : (View.mk b w).isCutOff f = true
  · rw [if_pos hc, View.data?, View.locate, if_pos hc]
    rfl
  · rw [if_neg hc, View.data?, View.locate_of_entry hc he, if_pos hp]
    rfl

/-- The entry that was written is made anew by a write below it exactly if something above it is
missing. -/
theorem KeepsEntry.mem_toMake (h : KeepsEntry w f k value) (hw : w.Tidy) (hb : b.tree.Sound)
    (hp : p.isAtOrBelow f = true) : f ∈ (View.mk b w).toMake p true ↔
      ∃ r, r.isAbove f = true ∧ (View.mk b w).exists? r = false := by
  obtain ⟨e, he, hpres, -⟩ := h
  have hroot := hw.exists?_root hb
  simp only [View.toMake, if_true, View.mem_dropWhile_steps]
  constructor
  · rintro ⟨-, r, hr, hfr, hex⟩
    rcases Path.isAtOrBelow_iff.1 hfr with rfl | hrf
    · -- the entry is there but is not seen: it is cut off
      have hc : (View.mk b w).isCutOff f = true := by
        by_contra hc
        have hl : (View.mk b w).locate f = .staged e := View.locate_eq_staged.2 ⟨hc, he, hpres⟩
        rw [View.exists?, hl] at hex
        simp [Location.isPresent] at hex
      obtain ⟨q, g, hq, hg, hgp⟩ := View.isCutOff_iff.1 hc
      refine ⟨q, hq, ?_⟩
      rw [← Bool.not_eq_true]
      intro hqex
      rw [View.isPresent_of_exists? hqex hg] at hgp
      simp at hgp
    · exact ⟨r, hrf, hex⟩
  · rintro ⟨r, hrf, hex⟩
    refine ⟨hp, r, ?_, Path.isAtOrBelow_of_isAbove hrf, hex⟩
    rintro rfl
    rw [hroot] at hex
    simp at hex

/-- **If it is carried out, the operation makes the node at `f` anew**: it makes missing nodes for a
path at or below `f`, and something above `f` is missing. -/
def Base.remakes (b : Base) (c : Context) (o : Operation) (f : Path) : Bool :=
  o.writePath?.any fun z =>
    z.2 && z.1.isAtOrBelow f && f.ancestors.any fun r => !(b.view c).exists? r

end Entries

section Performing

variable {b : Base} {u : Work} {o : Operation} {f p : Path} {k : String} {value : Option Value}

theorem remakes_of_writePath? {create : Bool} (ho : o.writePath? = some (p, create)) :
    b.remakes u.context o f = true ↔ create = true ∧ p.isAtOrBelow f = true ∧
      ∃ r, r.isAbove f = true ∧ (b.view u.context).exists? r = false := by
  simp [Base.remakes, ho, Path.mem_ancestors, and_assoc]

/-- What the steps of a write leave of a value that the write spares. -/
theorem KeepsEntry.written {create : Bool} {d : Data}
    (h : KeepsEntry u.context.workspace f k value) (hw : u.context.workspace.Tidy)
    (hb : b.tree.Sound) (ho : o.writePath? = some (p, create)) (hs : o.spares f k = true)
    (hd : if (b.view u.context).toMake p create = [] then
        (b.view u.context).data? p = some d
      else d = .empty) :
    ((((b.view u.context).toMake p create).map Act.create ++ [Act.write p (o.edit d)]).foldl
      (Act.onKey f k) value) = if b.remakes u.context o f then none else value := by
  -- the write makes the node anew exactly if it is among those that are made
  have hmade : b.remakes u.context o f = true ↔ f ∈ (b.view u.context).toMake p create := by
    rw [remakes_of_writePath? ho]
    cases create with
    | false => simp [View.toMake]
    | true =>
        constructor
        · rintro ⟨-, hp, hr⟩
          exact (h.mem_toMake hw hb hp).2 hr
        · intro hf
          have hp : p.isAtOrBelow f = true := View.isAtOrBelow_of_mem_toMake hf
          exact ⟨rfl, hp, (h.mem_toMake hw hb hp).1 hf⟩
  rw [List.foldl_append, foldl_onKey_create]
  simp only [List.foldl_cons, List.foldl_nil, Act.onKey]
  by_cases hpf : p = f
  · subst hpf
    rw [if_pos rfl, get?_edit_of_spares ho hs]
    by_cases hnil : (b.view u.context).toMake p create = []
    · -- nothing is made: the entry had its data
      rw [if_pos hnil] at hd
      have hnot : ¬b.remakes u.context o p = true := by
        rw [hmade, hnil]
        exact List.not_mem_nil
      rw [if_neg hnot]
      obtain ⟨d', hd', hdata?⟩ := h.data? (b := b)
      rw [show (b.view u.context).data? p = _ from hdata?] at hd
      split at hd
      · simp at hd
      · obtain rfl := Option.some.inj hd
        exact hd'
    · -- the nodes that are made end with this one
      rw [if_neg hnil] at hd
      have hmem := View.mem_toMake_of_ne_nil hnil
      rw [if_pos (hmade.2 hmem), hd]
      rfl
  · rw [if_neg hpf]
    simp only [hmade]

theorem entry?_of_relocked {u' : Work} (hrel : u.Relocked u') :
    u'.context.entry? f = u.context.entry? f := by
  rw [Context.entry?, hrel.workspace]
  rfl

/-- **An operation that spares the key** leaves the entry, or the value in it, unless it makes the
node anew. -/
theorem KeepsEntry.perform (h : KeepsEntry u.context.workspace f k value)
    (hw : u.context.workspace.Tidy) (hb : b.tree.Sound) (hs : o.spares f k = true) :
    (b.perform u o).1.context.entry? f = u.context.entry? f ∨
      KeepsEntry (b.perform u o).1.context.workspace f k
        (if b.remakes u.context o f then none else value) := by
  obtain ⟨acts, htaking⟩ := Base.taking_perform hb hw o
  generalize b.perform u o = r at htaking ⊢
  -- a removal or a move that spares a key of the node avoids the node
  have hmisses : o.avoids f = true → ∀ a ∈ acts, a.Misses f := fun ho => htaking.misses ho
  cases htaking with
  | idle hrel => exact .inl (entry?_of_relocked hrel)
  | read hread hst =>
      have hnot : b.remakes u.context o f = false := by
        cases o <;> simp [Operation.readPath?, Base.remakes, Operation.writePath?] at hread ⊢
      rw [hnot]
      exact .inr (h.missed hst.stages (by simp))
  | written hpath _ hst hd =>
      have hkept := hst.stages.keepsEntry h (by simp)
      rw [h.written hw hb hpath hs hd] at hkept
      exact .inr hkept
  | removed _ hst => exact .inr (h.missed hst.stages (hmisses hs))
  | emptied _ hst => exact .inr (h.missed hst.stages (hmisses hs))
  | moved _ _ _ hst => exact .inr (h.missed hst.stages (hmisses hs))

/-! ### The write and the read -/

/-- A write that was carried out holds the lock of the node. -/
theorem holds_writing {α : Type} (idle : α) (change : Entry → Entry × α) {a : α}
    (hroot : (b.view u.context).exists? Path.root = true)
    (hskip : u.context.options.skipLocking = false)
    (ht : u.Untroubled (b.writing u p true idle change).1)
    (hok : (b.writing u p true idle change).2 = .ok a) :
    (b.writing u p true idle change).1.context.holds p = true := by
  have hmem : p ∈ (b.view u.context).writeLocks u.locks p true :=
    View.mem_writeLocks_of_mem hroot (List.mem_append_right _ (List.mem_singleton_self p))
  simp only [Base.writing, Base.prepareWrite] at ht hok ⊢
  have hgranted : ∀ all, (u.lockAll [] ((b.view u.context).writeLocks u.locks p true)).2 =
      .granted all → (u.lockAll [] ((b.view u.context).writeLocks u.locks p true)).1.context.holds
        p = true := fun _ h => Work.holds_of_granted hskip h hmem
  have hcase := (Work.lockAll_cases u [] ((b.view u.context).writeLocks u.locks p true)).2
  generalize u.lockAll [] ((b.view u.context).writeLocks u.locks p true) = r
    at ht hok hgranted hcase ⊢
  obtain ⟨u₁, grant⟩ := r
  rcases hcase with ⟨all, rfl, -⟩ | ⟨rfl | ⟨e, rfl⟩, hlt⟩
  · have hheld := hgranted all rfl
    simp only at hheld ⊢ hok
    cases hs : b.stageWrite u₁.context p true with
    | error e =>
        rw [hs] at hok
        simp at hok
    | ok r =>
        obtain ⟨c, ready⟩ := r
        have hc : c.holds p = true := by
          rw [(Base.restaged_stageWrite hs).holds]
          exact hheld
        cases ready with
        | false => exact hc
        | true =>
            simp only [Work.withContext]
            cases c.entry? p with
            | none => exact hc
            | some e => exact hc
  · exact absurd ht (Nat.ne_of_gt hlt)
  · exact absurd ht (Nat.ne_of_gt hlt)

/-- **What was put is kept**, and its lock is held. -/
theorem keepsEntry_put {v : Value} {a : Answer} (hw : u.context.workspace.Tidy)
    (hb : b.tree.Sound) (hskip : u.context.options.skipLocking = false)
    (ht : u.Untroubled (b.perform u (.put f k v)).1)
    (hok : (b.perform u (.put f k v)).2 = .ok a) :
    KeepsEntry (b.perform u (.put f k v)).1.context.workspace f k (some v) ∧
      (b.perform u (.put f k v)).1.context.holds f = true := by
  have hroot := hw.exists?_root hb
  have hheld := fun a' => holds_writing (b := b) (u := u) (p := f) (a := a') none (·.put k v)
    hroot hskip
  have hwrite := b.writing_outcome (w := u) f true none (·.put k v) hroot fun e => e.edited_put k v
  simp only [Base.perform, answering, Base.put] at ht hok ⊢
  generalize b.writing u f true none (·.put k v) = r at ht hok hheld hwrite ⊢
  cases hwrite with
  | timedOut _ hlt _ => exact absurd ht (Nat.ne_of_gt hlt)
  | outdated _ _ => simp [Except.map] at hok
  | absent _ _ hc _ => simp at hc
  | @written u' e _ hp hentry _ _ =>
      refine ⟨⟨_, hentry, ?_, SortedMap.get?_insert_self, .inl rfl⟩, hheld _ ht rfl⟩
      rw [(e.edited_put k v).isPresent, hp]

/-- Reading a node whose lock is held counts no time-out. -/
theorem untroubled_prepareRead (h : u.context.holds f = true) :
    u.Untroubled (b.prepareRead u f).1 := by
  simp only [Base.prepareRead, Work.lockAll_of_holds h]
  split
  · exact (b.look_found _ f).2.1
  · exact (b.look_found u f).2.1

/-- **A read of a node whose lock is held** answers what is seen. -/
theorem perform_get (h : u.context.holds f = true) (k : String) :
    (b.perform u (.get f k)).2 =
      .ok (.value (((b.view u.context).data? f).bind (·.get? k))) := by
  have ht := untroubled_prepareRead (b := b) h
  have hread := b.reading_outcome u f
  simp only [Base.perform, answering, Base.get, Base.reading]
  generalize b.prepareRead u f = r at ht hread
  cases hread with
  | timedOut _ hlt _ => exact absurd ht (Nat.ne_of_gt hlt)
  | @found u' _ _ hd =>
      rw [← hd]
      rfl

end Performing

/-! ### The merge of the entry -/

namespace KeepsEntry

variable {w : Workspace} {f : Path} {k : String} {v : Value} {data? : Path → Option Data}

/-- A value that was written is there after the merge. -/
theorem outcome_of_some (h : KeepsEntry w f k (some v))
    (hsup : ∀ p e, (p, e) ∈ w.dirty → Supported data? w.dirty p e) :
    (outcome data? w.dirty f).bind (·.get? k) = some v := by
  obtain ⟨e, he, hp, hv, hch⟩ := h
  have hch : e.changed = true := hch.resolve_right (by simp)
  have hd : e.isDirty = true := Entry.isDirty_iff.2 (.inl hch)
  have hr := (Entry.isPresent_iff.1 hp).1
  have hlookup : w.dirty.lookup f = some e := by
    rw [Workspace.lookup_dirty, he]
    simp [Option.filter, hd]
  have hland := hsup f e (Workspace.mem_dirty.2 ⟨he, hd⟩)
  simp only [outcome, hlookup, mergedData, hr, Bool.false_eq_true, if_false, if_true]
  -- a node that was made brings its data along; one that is written needs a node to write to
  by_cases hc : e.created = true
  · rw [if_pos hc]
    split
    · exact hv
    · rw [Option.bind_some]
      generalize (if clearedAbove w.dirty f = true then none else data? f) = kept
      cases kept with
      | none => exact hv
      | some d =>
          rw [Option.elim_some, SortedMap.get?_union, hv]
          rfl
  · simp only [Supported, hr, Bool.false_eq_true, false_or, if_neg hc] at hland
    obtain ⟨hcl, hsome⟩ := hland hch
    obtain ⟨d, hd⟩ := Option.isSome_iff_exists.1 hsome
    rw [if_neg hc, if_pos hch, hcl, hd]
    exact hv

/-- Where the value is gone, the merge leaves none, or that of others. -/
theorem outcome_of_none (h : KeepsEntry w f k none) :
    (outcome data? w.dirty f).bind (·.get? k) = none ∨
      (outcome data? w.dirty f).bind (·.get? k) = (data? f).bind (·.get? k) := by
  obtain ⟨e, he, hp, hv, -⟩ := h
  have hr := (Entry.isPresent_iff.1 hp).1
  have hkept : (if clearedAbove w.dirty f = true then none else data? f) = none ∨
      (if clearedAbove w.dirty f = true then none else data? f) = data? f := by
    split
    · exact .inl rfl
    · exact .inr rfl
  simp only [outcome]
  generalize (if clearedAbove w.dirty f = true then none else data? f) = kept at hkept
  have hgone : kept.bind (·.get? k) = none ∨ kept.bind (·.get? k) = (data? f).bind (·.get? k) :=
    hkept.imp (fun h => by rw [h]; rfl) fun h => by rw [h]
  have hedited : (kept.map fun _ => e.data).bind (·.get? k) = none := by
    cases kept with
    | none => rfl
    | some d => exact hv
  -- the data of a node that was made are added to what is kept, those of a copy replace it
  rw [Workspace.lookup_dirty, he]
  cases hd : e.isDirty with
  | false => simpa [Option.filter, hd] using hgone
  | true =>
      simp only [Option.filter, hd, if_true, mergedData, hr, Bool.false_eq_true, if_false]
      split
      · split
        · exact .inl hv
        · cases kept with
          | none => exact .inl hv
          | some d =>
              simp only [Option.elim_some, Option.bind_some] at hgone ⊢
              split
              · rw [SortedMap.get?_union, hv, Option.none_or]
                exact hgone
              · exact hgone
      · split
        · exact .inl hedited
        · exact hgone

end KeepsEntry

/-! ### Runs that spare a key -/

namespace SharedTree

/-- The entry that the unit of work has for `f`. -/
def stagedAt (s : SharedTree) (name : String) (f : Path) : Option Entry :=
  (s.context? name).bind fun c => c.entry? f

/-- The step leaves the entry of the unit of work for `f`. -/
def leavesEntry (s : SharedTree) (name : String) (f : Path) (step : Step) : Bool :=
  (s.take step).stagedAt name f = s.stagedAt name f

/-- **In this step the unit of work does not touch the value under `k` at `f`**: the step is not its
own, or it spares the key, or it leaves the entry.  The unit of work may set its options, but it
does not end. -/
def sparesKey (s : SharedTree) (name : String) (f : Path) (k : String) : Step → Bool
  | .start other _ _ => other ≠ name
  | .setOptions _ _ => true
  | .perform other o => other ≠ name || o.spares f k || s.leavesEntry name f (.perform other o)
  | .commit other => other ≠ name
  | .rollback other => other ≠ name
  | .purge => true

/-- In no step of this run does the unit of work touch the value under `k` at `f`. -/
def sparesKeyThroughout (s : SharedTree) (name : String) (f : Path) (k : String) :
    List Step → Bool
  | [] => true
  | step :: steps => s.sparesKey name f k step && (s.take step).sparesKeyThroughout name f k steps

/-- In this step the unit of work makes the node at `f` anew. -/
def rebuilds (s : SharedTree) (name : String) (f : Path) : Step → Bool
  | .perform other o =>
      other = name && (s.context? name).any (fun c => s.store.base.remakes c o f) &&
        !s.leavesEntry name f (.perform other o)
  | _ => false

/-- **In this run the unit of work makes the node at `f` anew.** -/
def hasRebuilt (s : SharedTree) (name : String) (f : Path) : List Step → Bool
  | [] => false
  | step :: steps => s.rebuilds name f step || (s.take step).hasRebuilt name f steps

/-- The value that is committed under a key. -/
def committed? (s : SharedTree) (f : Path) (k : String) : Option Value :=
  (s.store.tree.data? f).bind (·.get? k)

variable {s s₁ s₂ : SharedTree} {name : String} {c : Context} {f : Path} {k : String}
variable {value : Option Value} {step : Step} {steps : List Step}

/-- The unit of work has an entry for `f` with this value, and the lock. -/
def HasWritten (s : SharedTree) (name : String) (f : Path) (k : String)
    (value : Option Value) : Prop :=
  ∃ c, s.context? name = some c ∧ c.holds f = true ∧ KeepsEntry c.workspace f k value

/-- An operation of its own that spares the key keeps the value, unless it makes the node anew. -/
theorem HasWritten.perform {o : Operation} (h : s.HasWritten name f k value) (hs : s.Sane)
    (hspare : s.sparesKey name f k (.perform name o) = true) :
    (s.take (.perform name o)).HasWritten name f k
      (if s.rebuilds name f (.perform name o) then none else value) := by
  obtain ⟨c, hc, hheld, hkept⟩ := h
  have hhold := s.store.base.holding_perform ⟨s.store.locks, c⟩ o
  have hstep : (s.take (.perform name o)).context? name =
      some (s.store.base.perform ⟨s.store.locks, c⟩ o).1.context := by
    rw [take_perform hc]
    exact context?_perform
  refine ⟨_, hstep, hhold.keeps f hheld, ?_⟩
  by_cases hleave : s.leavesEntry name f (.perform name o) = true
  · -- the entry is as it was
    have hnot : s.rebuilds name f (.perform name o) = false := by
      simp [rebuilds, hleave]
    simp only [leavesEntry, stagedAt, hstep, hc, Option.bind_some, decide_eq_true_eq] at hleave
    obtain ⟨e, he, hrest⟩ := hkept
    rw [hnot]
    exact ⟨e, hleave.trans he, hrest⟩
  · have hsp : o.spares f k = true := by simpa [sparesKey, hleave] using hspare
    have hre : s.rebuilds name f (.perform name o) = s.store.base.remakes c o f := by
      simp [rebuilds, hc, hleave]
    rw [hre]
    refine (hkept.perform (hs.tidy hc) hs.sound hsp).resolve_left fun hsame => hleave ?_
    simp only [leavesEntry, stagedAt, hstep, hc, Option.bind_some, decide_eq_true_eq]
    exact hsame

/-- A step that spares the key keeps the value, unless it makes the node anew. -/
theorem HasWritten.take (h : s.HasWritten name f k value) (hs : s.Sane)
    (hspare : s.sparesKey name f k step = true) :
    (s.take step).HasWritten name f k (if s.rebuilds name f step then none else value) := by
  by_cases hactor : step.actor? = some name
  · cases step with
    | perform other o =>
        obtain rfl := Option.some.inj hactor
        exact h.perform hs hspare
    | setOptions other options =>
        obtain rfl := Option.some.inj hactor
        obtain ⟨c, hc, hheld, hkept⟩ := h
        refine ⟨{ c with options }, ?_, hheld, hkept⟩
        simp only [SharedTree.take, hc]
        exact SortedMap.get?_insert_self
    | start other thread transaction =>
        obtain rfl := Option.some.inj hactor
        simp [sparesKey] at hspare
    | commit other =>
        obtain rfl := Option.some.inj hactor
        simp [sparesKey] at hspare
    | rollback other =>
        obtain rfl := Option.some.inj hactor
        simp [sparesKey] at hspare
    | purge => simp [Step.actor?] at hactor
  · have hnot : s.rebuilds name f step = false := by
      cases step with
      | perform other o =>
          have hne : other ≠ name := fun he => hactor (congrArg some he)
          simp [rebuilds, hne]
      | _ => rfl
    obtain ⟨c, hc, hheld, hkept⟩ := h
    rw [hnot]
    exact ⟨c, (context?_take_of_ne hactor).trans hc, hheld, hkept⟩

/-- A run that spares the key keeps the value, unless it makes the node anew. -/
theorem HasWritten.run (h : s.HasWritten name f k value) (hs : s.Sane)
    (hspare : s.sparesKeyThroughout name f k steps = true) :
    (s.run steps).HasWritten name f k (if s.hasRebuilt name f steps then none else value) := by
  induction steps generalizing s value with
  | nil => exact h
  | cons step steps ih =>
      rw [sparesKeyThroughout, Bool.and_eq_true] at hspare
      have hrest := ih (h.take hs hspare.1) (hs.take step) hspare.2
      rw [run_cons, hasRebuilt]
      cases hr : s.rebuilds name f step with
      | false => simpa [hr] using hrest
      | true => simpa [hr] using hrest

/-- What is committed when the unit of work has kept its value, and when it has lost it. -/
theorem committed?_commit (hs : s.Sane) (hc : s.context? name = some c)
    (hkept : KeepsEntry c.workspace f k value) (hok : (s.commit name c).2 = .ok ()) :
    (∀ v, value = some v → (s.commit name c).1.committed? f k = some v) ∧
      (value = none → (s.commit name c).1.committed? f k = none ∨
        (s.commit name c).1.committed? f k = s.committed? f k) := by
  have htidy := hs.tidy hc
  have ho := Store.commit_outcome s.store c
  simp only [committed?, commit, finish] at hok ⊢
  generalize s.store.commit c = e at ho hok ⊢
  cases ho with
  | idle h =>
      refine ⟨?_, fun _ => .inr rfl⟩
      -- a value that was written is a change
      rintro v rfl
      obtain ⟨e, he, -, -, hch⟩ := hkept
      have hd : e.isDirty = true := Entry.isDirty_iff.2 (.inl (hch.resolve_right (by simp)))
      have hyes : c.hasChanges = true := Workspace.hasChanges_iff.2 ⟨f, e, he, hd⟩
      rw [h] at hyes
      simp at hyes
  | refused _ _ => simp at hok
  | torn _ _ _ => simp at hok
  | merged _ _ hm =>
      rw [Store.conclude_tree]
      simp only [Store.data?_merge hs.sound htidy hm]
      refine ⟨?_, ?_⟩
      · rintro v rfl
        exact hkept.outcome_of_some ((Store.merge_isOk_iff_supported hs.sound htidy).1 ⟨_, hm⟩)
      · rintro rfl
        exact hkept.outcome_of_none

/-- **A write is kept unless its node is rebuilt or hidden.**  A unit of work has put a value, and
then does not touch it, while others do what they like.  It reads the value, unless it has made the
node anew in between or an entry above hides it, when it reads none.  If its commit succeeds the
value is committed, unless it has made the node anew; then it commits none. -/
theorem own_write_kept_unless_rebuilt {v : Value} {a : Answer} (hs : s.Reachable)
    (hc : s.context? name = some c) (hskip : c.options.skipLocking = false)
    (hput : s.ask name (.put f k v) = some (.ok a)) (h₁ : s.take (.perform name (.put f k v)) = s₁)
    (ht : s₁.store.locks.counts.timedOut = s.store.locks.counts.timedOut)
    (hspare : s₁.sparesKeyThroughout name f k steps = true) (h₂ : s₁.run steps = s₂) :
    ∃ c₂, s₂.context? name = some c₂ ∧
      s₂.ask name (.get f k) = some (.ok (.value
        (if s₁.hasRebuilt name f steps || (s₂.store.base.view c₂).isCutOff f then none
          else some v))) ∧
      ((s₂.commit name c₂).2 = .ok () →
        if s₁.hasRebuilt name f steps then
          (s₂.commit name c₂).1.committed? f k = none ∨
            (s₂.commit name c₂).1.committed? f k = s₂.committed? f k
        else (s₂.commit name c₂).1.committed? f k = some v) := by
  have hsane := hs.sane
  have hfirst : s₁.HasWritten name f k (some v) := by
    rw [take_perform hc] at h₁
    rw [ask, hc] at hput
    rw [← h₁] at ht ⊢
    obtain ⟨hkept, hheld⟩ := keepsEntry_put (b := s.store.base) (u := ⟨s.store.locks, c⟩)
      (hsane.tidy hc) hsane.sound hskip ht (Option.some.inj hput)
    exact ⟨_, context?_perform, hheld, hkept⟩
  have hsane₁ : s₁.Sane := by
    rw [← h₁]
    exact hsane.take _
  have hsane₂ : s₂.Sane := by
    rw [← h₂]
    exact hsane₁.run steps
  have hlast := hfirst.run hsane₁ hspare
  rw [h₂] at hlast
  obtain ⟨c₂, hc₂, hheld, hkept⟩ := hlast
  refine ⟨c₂, hc₂, ?_, fun hok => ?_⟩
  · obtain ⟨d, hd, hdata⟩ := hkept.data? (b := s₂.store.base)
    have hdata : (s₂.store.base.view c₂).data? f =
        if (s₂.store.base.view c₂).isCutOff f then none else some d := hdata
    rw [ask, hc₂, Option.map_some]
    refine congrArg some ((perform_get hheld k).trans ?_)
    rw [hdata]
    cases (s₂.store.base.view c₂).isCutOff f with
    | true => simp
    | false => simp [hd]
  · obtain ⟨hsome, hnone⟩ := committed?_commit hsane₂ hc₂ hkept hok
    split
    · rename_i hre
      exact hnone (by rw [if_pos hre])
    · rename_i hre
      exact hsome v (by rw [if_neg hre])

/-- One transaction has made `/r`, and another one is under way. -/
def sharedState : SharedTree :=
  (ofConfig { isolation := .readCommitted }).run
    [.start "s" ⟨"main", 0⟩ (some (1 : Nat)), .start "t" ⟨"main", 0⟩ (some (2 : Nat)),
      .perform "s" (.put ⟨["r"]⟩ "k" (.int 1)), .commit "s"]

/-- The other one has put a value at `/r/q`. -/
def writtenState : SharedTree :=
  sharedState.take (.perform "t" (.put ⟨["r", "q"]⟩ "k" (.int 2)))

/-- The first transaction removes `/r`, and the other one writes below `/r/q`. -/
def rebuildingSteps : List Step :=
  [.perform "s" (.removeNode ⟨["r"]⟩), .commit "s",
    .perform "t" (.put ⟨["r", "q", "z"]⟩ "k" (.int 3))]

/-- The unit of work no longer reads what it has put: a write below the node has made it anew. -/
theorem own_write_lost :
    (writtenState.run rebuildingSteps).ask "t" (.get ⟨["r", "q"]⟩ "k") =
      some (.ok (.value none)) := by
  have hc : sharedState.context? "t" = some ((sharedState.context? "t").getD default) := by
    decide +kernel
  have hput : sharedState.ask "t" (.put ⟨["r", "q"]⟩ "k" (.int 2)) =
      some (.ok (.value none)) := by
    decide +kernel
  have hspare : writtenState.sparesKeyThroughout "t" ⟨["r", "q"]⟩ "k" rebuildingSteps = true := by
    decide +kernel
  have hs : sharedState.Reachable := ⟨_, _, _, rfl⟩
  have hwritten : sharedState.take (.perform "t" (.put ⟨["r", "q"]⟩ "k" (.int 2))) =
      writtenState := rfl
  obtain ⟨c₂, -, hget, -⟩ := own_write_kept_unless_rebuilt hs hc (by decide +kernel) hput hwritten
    (by decide +kernel) hspare rfl
  have hre : writtenState.hasRebuilt "t" ⟨["r", "q"]⟩ rebuildingSteps = true := by
    decide +kernel
  rw [hre] at hget
  exact hget

/-- Not every write is kept: the value that was put is `2`, and a later read finds none. -/
theorem not_own_write_kept :
    ¬∀ (s : SharedTree) (name : String) (c : Context) (f : Path) (k : String) (v : Value)
      (a : Answer) (steps : List Step), s.Reachable → s.context? name = some c →
      c.options.skipLocking = false → s.ask name (.put f k v) = some (.ok a) →
      (s.take (.perform name (.put f k v))).store.locks.counts.timedOut =
        s.store.locks.counts.timedOut →
      (s.take (.perform name (.put f k v))).sparesKeyThroughout name f k steps = true →
      ((s.take (.perform name (.put f k v))).run steps).ask name (.get f k) =
        some (.ok (.value (some v))) := by
  intro h
  have hkept := h sharedState "t" ((sharedState.context? "t").getD default) ⟨["r", "q"]⟩ "k"
    (.int 2) (.value none) rebuildingSteps ⟨_, _, _, rfl⟩ (by decide +kernel) (by decide +kernel)
    (by decide +kernel) (by decide +kernel) (by decide +kernel)
  have hlost : (writtenState.run rebuildingSteps).ask "t" (.get ⟨["r", "q"]⟩ "k") =
      some (.ok (.value none)) := by
    decide +kernel
  rw [writtenState] at hlost
  rw [hlost] at hkept
  simp at hkept

end SharedTree

end TransactionalTree
