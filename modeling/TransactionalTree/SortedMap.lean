/-
**Finite maps kept in key order.**

A sorted map is the list of its entries, strictly increasing in the key.  The order is part of the
type, so two maps that look up alike are equal, and walking a map visits its keys in order.

Main definitions:

* `SortedMap` — a finite map from `κ` to `α`;
* `SortedMap.get?`, `SortedMap.insert`, `SortedMap.erase`, `SortedMap.filter` — look up and change;
* `SortedMap.above` — the entries whose key is greater than a given one, in order;
* `SortedSet` — a finite set, as a map to the one-element type.

Main results:

* `SortedMap.get?_insert`, `SortedMap.get?_erase`, `SortedMap.get?_filter` — look-up after a change;
* `SortedMap.ext_get?` — **a map is determined by its look-ups**.
-/



set_option relaxedAutoImplicit false
set_option autoImplicit false
set_option linter.unusedSectionVars false

namespace TransactionalTree

/-- A finite map from `κ` to `α`, held as its entries in strictly increasing order of the key. -/
structure SortedMap (κ α : Type) [Ord κ] where
  /-- The entries, in key order. -/
  toList : List (κ × α)
  /-- Keys increase strictly from one entry to the next. -/
  ordered : toList.Pairwise fun a b => compare a.1 b.1 = .lt
deriving DecidableEq, Repr

namespace SortedMap

variable {κ α β : Type} [Ord κ]

/-! ### Looking up -/

/-- The map without entries. -/
def empty : SortedMap κ α := ⟨[], .nil⟩

instance : Inhabited (SortedMap κ α) := ⟨empty⟩

instance : EmptyCollection (SortedMap κ α) := ⟨empty⟩

/-- The value stored under `k`, if there is one. -/
def get? (m : SortedMap κ α) (k : κ) : Option α :=
  (m.toList.find? fun e => compare e.1 k == .eq).map (·.2)

/-- Whether `k` has a value. -/
def contains (m : SortedMap κ α) (k : κ) : Bool := (m.get? k).isSome

/-- The number of entries. -/
def size (m : SortedMap κ α) : Nat := m.toList.length

/-- Whether the map has no entry. -/
def isEmpty (m : SortedMap κ α) : Bool := m.toList.isEmpty

/-- The keys, in increasing order. -/
def keys (m : SortedMap κ α) : List κ := m.toList.map (·.1)

/-- The values, in the order of their keys. -/
def values (m : SortedMap κ α) : List α := m.toList.map (·.2)

/-- The entries whose key is greater than `k`, in key order. -/
def above (m : SortedMap κ α) (k : κ) : List (κ × α) :=
  m.toList.dropWhile fun e => (compare e.1 k).isLE

/-! ### Changing -/

/-- Keep the entries that satisfy `p`. -/
def filter (m : SortedMap κ α) (p : κ → α → Bool) : SortedMap κ α :=
  ⟨m.toList.filter fun e => p e.1 e.2, m.ordered.filter _⟩

/-- Drop the entry of `k`, if there is one. -/
def erase (m : SortedMap κ α) (k : κ) : SortedMap κ α :=
  m.filter fun j _ => compare j k != .eq

/-- Drop the entries of all the given keys. -/
def eraseAll (m : SortedMap κ α) (ks : List κ) : SortedMap κ α :=
  ks.foldl erase m

/-- Replace each value by its image; the keys stay. -/
def mapValues (m : SortedMap κ α) (f : κ → α → β) : SortedMap κ β where
  toList := m.toList.map fun e => (e.1, f e.1 e.2)
  ordered := List.pairwise_map.2 m.ordered

/-- The entries `es` with the entry of `k` set to `a`, at the place that the order gives to `k`. -/
def insertEntry (k : κ) (a : α) : List (κ × α) → List (κ × α)
  | [] => [(k, a)]
  | e :: es =>
      match compare k e.1 with
      | .lt => (k, a) :: e :: es
      | .eq => (k, a) :: es
      | .gt => e :: insertEntry k a es

theorem mem_insertEntry {k : κ} {a : α} {es : List (κ × α)} {x : κ × α}
    (h : x ∈ insertEntry k a es) : x = (k, a) ∨ x ∈ es := by
  induction es with
  | nil => simpa [insertEntry] using h
  | cons e es ih =>
      simp only [insertEntry] at h
      split at h
      · simpa using h
      · rcases List.mem_cons.1 h with rfl | h
        · exact .inl rfl
        · exact .inr (List.mem_cons_of_mem _ h)
      · rcases List.mem_cons.1 h with rfl | h
        · exact .inr List.mem_cons_self
        · exact (ih h).imp_right (List.mem_cons_of_mem _)

theorem pairwise_insertEntry [Std.TransOrd κ] {k : κ} {a : α} {es : List (κ × α)}
    (h : es.Pairwise fun x y => compare x.1 y.1 = .lt) :
    (insertEntry k a es).Pairwise fun x y => compare x.1 y.1 = .lt := by
  induction es with
  | nil => simp [insertEntry]
  | cons e es ih =>
      obtain ⟨he, hes⟩ := List.pairwise_cons.1 h
      simp only [insertEntry]
      split
      · rename_i hlt
        refine List.pairwise_cons.2 ⟨fun y hy => ?_, h⟩
        rcases List.mem_cons.1 hy with rfl | hy
        · exact hlt
        · exact Std.TransCmp.lt_trans hlt (he y hy)
      · rename_i heq
        exact List.pairwise_cons.2 ⟨fun y hy => Std.TransCmp.lt_of_eq_of_lt heq (he y hy), hes⟩
      · rename_i hgt
        refine List.pairwise_cons.2 ⟨fun y hy => ?_, ih hes⟩
        rcases mem_insertEntry hy with rfl | hy
        · exact Std.OrientedCmp.lt_of_gt hgt
        · exact he y hy

/-- Set the value of `k` to `a`. -/
def insert [Std.TransOrd κ] (m : SortedMap κ α) (k : κ) (a : α) : SortedMap κ α :=
  ⟨insertEntry k a m.toList, pairwise_insertEntry m.ordered⟩

/-- Set the value of each listed key, later entries winning. -/
def insertAll [Std.TransOrd κ] (m : SortedMap κ α) (es : List (κ × α)) : SortedMap κ α :=
  es.foldl (fun m e => m.insert e.1 e.2) m

/-- The map with the listed entries, later ones winning. -/
def ofList [Std.TransOrd κ] (es : List (κ × α)) : SortedMap κ α :=
  (empty : SortedMap κ α).insertAll es

/-- This map extended by `other`, whose entries win. -/
def union [Std.TransOrd κ] (m other : SortedMap κ α) : SortedMap κ α :=
  m.insertAll other.toList

/-- Change the value of `k`, if it has one. -/
def modify (m : SortedMap κ α) (k : κ) (f : α → α) : SortedMap κ α :=
  m.mapValues fun j a => if compare j k == .eq then f a else a

end SortedMap

/-- A finite set, held in increasing order. -/
abbrev SortedSet (κ : Type) [Ord κ] := SortedMap κ Unit

namespace SortedSet

variable {κ : Type} [Ord κ]

/-- Whether `k` is in the set. -/
def has (s : SortedSet κ) (k : κ) : Bool := s.contains k

/-- The set with `k` added. -/
def add [Std.TransOrd κ] (s : SortedSet κ) (k : κ) : SortedSet κ := s.insert k ()

/-- The set of the listed elements. -/
def ofElements [Std.TransOrd κ] (ks : List κ) : SortedSet κ :=
  SortedMap.ofList (ks.map fun k => (k, ()))

end SortedSet

namespace SortedMap

variable {κ α β : Type} [Ord κ]

/-- The set of keys. -/
def keySet (m : SortedMap κ α) : SortedSet κ := m.mapValues fun _ _ => ()

/-! ### Look-up after a change -/

section Lemmas

variable [Std.TransOrd κ] [Std.LawfulEqOrd κ]

theorem get?_eq_some_iff {m : SortedMap κ α} {k : κ} {a : α} :
    m.get? k = some a ↔ (k, a) ∈ m.toList := by
  obtain ⟨es, h⟩ := m
  simp only [get?]
  induction es with
  | nil => simp
  | cons e es ih =>
      obtain ⟨he, hes⟩ := List.pairwise_cons.1 h
      by_cases hk : compare e.1 k = .eq
      · have hek : e.1 = k := Std.LawfulEqOrd.eq_of_compare hk
        subst hek
        simp only [List.find?_cons, hk, BEq.rfl, Option.map_some, Option.some.injEq, List.mem_cons]
        constructor
        · rintro rfl; exact .inl rfl
        · rintro (h | h)
          · rw [← h]
          · have := he _ h
            simp at this
      · have hne : (k, a) ≠ e := by rintro rfl; simp at hk
        have hb : (compare e.1 k == Ordering.eq) = false := by simpa using hk
        simp only [List.find?_cons, hb, List.mem_cons, hne, false_or]
        exact ih hes

theorem get?_eq_none_iff {m : SortedMap κ α} {k : κ} :
    m.get? k = none ↔ ∀ a, (k, a) ∉ m.toList := by
  constructor
  · intro h a ha
    rw [← get?_eq_some_iff, h] at ha
    simp at ha
  · intro h
    cases hk : m.get? k with
    | none => rfl
    | some a => exact absurd (get?_eq_some_iff.1 hk) (h a)

@[simp] theorem get?_empty {k : κ} : (empty : SortedMap κ α).get? k = none := rfl

theorem get?_filter {m : SortedMap κ α} {p : κ → α → Bool} {k : κ} :
    (m.filter p).get? k = (m.get? k).filter (p k) := by
  apply Option.ext
  intro a
  rw [get?_eq_some_iff, Option.filter_eq_some_iff, get?_eq_some_iff]
  simp [filter]

theorem get?_erase {m : SortedMap κ α} {k j : κ} [DecidableEq κ] :
    (m.erase k).get? j = if j = k then none else m.get? j := by
  simp only [erase, get?_filter]
  by_cases h : j = k
  · subst h
    cases m.get? j <;> simp
  · have : compare j k ≠ .eq := fun hc => h (Std.LawfulEqOrd.eq_of_compare hc)
    cases m.get? j <;> simp [h, this]

theorem get?_mapValues {m : SortedMap κ α} {f : κ → α → β} {k : κ} :
    (m.mapValues f).get? k = (m.get? k).map (f k) := by
  apply Option.ext
  intro b
  rw [get?_eq_some_iff]
  simp only [mapValues, List.mem_map, Prod.mk.injEq, Option.map_eq_some_iff, get?_eq_some_iff]
  constructor
  · rintro ⟨⟨j, a⟩, h, rfl, rfl⟩
    exact ⟨a, h, rfl⟩
  · rintro ⟨a, h, rfl⟩
    exact ⟨(k, a), h, rfl, rfl⟩

theorem mem_toList_insert {m : SortedMap κ α} {k j : κ} {a b : α} :
    (j, b) ∈ (m.insert k a).toList ↔ (j = k ∧ b = a) ∨ (j ≠ k ∧ (j, b) ∈ m.toList) := by
  obtain ⟨es, h⟩ := m
  simp only [insert]
  induction es with
  | nil => simp [insertEntry]
  | cons e es ih =>
      obtain ⟨he, hes⟩ := List.pairwise_cons.1 h
      have hself : ∀ (x : κ) (c d : α), compare (x, c).1 (x, d).1 ≠ .lt := by simp
      simp only [insertEntry]
      split
      · rename_i hlt
        have hne : ∀ x ∈ e :: es, x.1 ≠ k := by
          intro x hx hxk
          rcases List.mem_cons.1 hx with rfl | hx
          · rw [hxk] at hlt; simp at hlt
          · have := Std.TransCmp.lt_trans hlt (he x hx)
            rw [hxk] at this; simp at this
        simp only [List.mem_cons, Prod.mk.injEq]
        constructor
        · rintro (h | h)
          · exact .inl h
          · exact .inr ⟨hne (j, b) (List.mem_cons.2 h), h⟩
        · rintro (h | ⟨_, h⟩)
          · exact .inl h
          · exact .inr h
      · rename_i heq
        have hek : e.1 = k := (Std.LawfulEqOrd.eq_of_compare heq).symm
        have hne : ∀ x ∈ es, x.1 ≠ k := by
          intro x hx hxk
          have := he x hx
          rw [hek, hxk] at this; simp at this
        simp only [List.mem_cons, Prod.mk.injEq]
        constructor
        · rintro (h | h)
          · exact .inl h
          · exact .inr ⟨hne (j, b) h, .inr h⟩
        · rintro (h | ⟨hj, h | h⟩)
          · exact .inl h
          · exact absurd (by rw [← hek, ← h]) hj
          · exact .inr h
      · rename_i hgt
        have hek : e.1 ≠ k := by rintro rfl; simp at hgt
        rw [List.mem_cons, ih hes, List.mem_cons]
        constructor
        · rintro (h | h | ⟨hj, h⟩)
          · refine .inr ⟨?_, .inl h⟩
            rw [← h] at hek; exact hek
          · exact .inl h
          · exact .inr ⟨hj, .inr h⟩
        · rintro (h | ⟨hj, h | h⟩)
          · exact .inr (.inl h)
          · exact .inl h
          · exact .inr (.inr ⟨hj, h⟩)

theorem get?_insert {m : SortedMap κ α} {k j : κ} {a : α} [DecidableEq κ] :
    (m.insert k a).get? j = if j = k then some a else m.get? j := by
  apply Option.ext
  intro b
  rw [get?_eq_some_iff, mem_toList_insert]
  by_cases h : j = k
  · simp [h, eq_comm]
  · simp [h, get?_eq_some_iff]

/-- **A map is determined by its look-ups.** -/
theorem ext_get? {m n : SortedMap κ α} (h : ∀ k, m.get? k = n.get? k) : m = n := by
  have hmem : ∀ x, x ∈ m.toList ↔ x ∈ n.toList := by
    rintro ⟨k, a⟩
    rw [← get?_eq_some_iff, ← get?_eq_some_iff, h]
  obtain ⟨es, hes⟩ := m
  obtain ⟨fs, hfs⟩ := n
  suffices es = fs by subst this; rfl
  clear h
  simp only at hmem
  induction es generalizing fs with
  | nil =>
      cases fs with
      | nil => rfl
      | cons f fs => exact absurd ((hmem f).2 List.mem_cons_self) (List.not_mem_nil)
  | cons e es ih =>
      cases fs with
      | nil => exact absurd ((hmem e).1 List.mem_cons_self) (List.not_mem_nil)
      | cons f fs =>
          obtain ⟨he, hes'⟩ := List.pairwise_cons.1 hes
          obtain ⟨hf, hfs'⟩ := List.pairwise_cons.1 hfs
          have hef : e = f := by
            rcases List.mem_cons.1 ((hmem e).1 List.mem_cons_self) with h | h
            · exact h
            · rcases List.mem_cons.1 ((hmem f).2 List.mem_cons_self) with h' | h'
              · exact h'.symm
              · have := Std.TransCmp.lt_trans (hf e h) (he f h')
                simp at this
          subst hef
          congr 1
          refine ih hes' fs hfs' fun x => ?_
          have hself : ∀ y ∈ es, y ≠ e := by
            rintro y hy rfl
            have := he y hy
            simp at this
          have hself' : ∀ y ∈ fs, y ≠ e := by
            rintro y hy rfl
            have := hf y hy
            simp at this
          have := hmem x
          simp only [List.mem_cons] at this
          constructor
          · intro hx
            exact (this.1 (.inr hx)).resolve_left (hself x hx)
          · intro hx
            exact (this.2 (.inr hx)).resolve_left (hself' x hx)

end Lemmas

end SortedMap

end TransactionalTree
