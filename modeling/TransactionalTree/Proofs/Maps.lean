/-
**More about finite maps.**

Look-ups after the changes that go through several entries, the entries that follow a key, and sets.

Main results:

* `SortedMap.get?_modify`, `SortedMap.get?_eraseAll`, `SortedMap.get?_union` — look-up after a
  change;
* `SortedMap.keys_insert_perm`, `SortedMap.keys_erase_perm` — the keys after a change;
* `SortedMap.mem_above` — the entries above a key are those with a greater key;
* `SortedSet.has_ofElements`, `SortedSet.ext_has` — membership.
-/

import TransactionalTree.SortedMap

set_option relaxedAutoImplicit false
set_option autoImplicit false
set_option linter.unusedSectionVars false

namespace TransactionalTree

namespace SortedMap

variable {κ α : Type} [Ord κ] [Std.TransOrd κ] [Std.LawfulEqOrd κ]
variable {m : SortedMap κ α} {k j : κ} {a : α}

/-! ### Entries and keys -/

theorem contains_iff : m.contains k = true ↔ ∃ a, m.get? k = some a := by
  simp [contains, Option.isSome_iff_exists]

theorem contains_eq_false : m.contains k = false ↔ m.get? k = none := by
  rw [contains, Option.isSome_eq_false_iff, Option.isNone_iff_eq_none]

theorem contains_filter_keys {f : κ → Bool} :
    (m.filter fun j _ => f j).contains k = true ↔ f k = true ∧ m.contains k = true := by
  rw [contains_iff, contains_iff]
  simp only [get?_filter, Option.filter_eq_some_iff]
  exact ⟨fun ⟨a, ha, hk⟩ => ⟨hk, a, ha⟩, fun ⟨hk, a, ha⟩ => ⟨a, ha, hk⟩⟩

theorem mem_keys : k ∈ m.keys ↔ ∃ a, m.get? k = some a := by
  simp only [keys, List.mem_map, get?_eq_some_iff]
  constructor
  · rintro ⟨⟨j, a⟩, h, rfl⟩
    exact ⟨a, h⟩
  · rintro ⟨a, h⟩
    exact ⟨(k, a), h, rfl⟩

theorem keys_pairwise (m : SortedMap κ α) : m.keys.Pairwise fun a b => compare a b = .lt :=
  List.pairwise_map.2 m.ordered

/-- Entries in the order of their keys have different keys. -/
theorem nodup_fst {es : List (κ × α)} (h : es.Pairwise fun a b => compare a.1 b.1 = .lt) :
    (es.map (·.1)).Nodup := by
  refine List.pairwise_map.2 (h.imp fun hlt heq => ?_)
  rw [heq] at hlt
  simp at hlt

theorem keys_nodup (m : SortedMap κ α) : m.keys.Nodup := nodup_fst m.ordered

theorem toList_nodup (m : SortedMap κ α) : m.toList.Nodup :=
  (List.pairwise_map.1 (keys_nodup m)).imp fun h he => h (congrArg Prod.fst he)

/-- Two lists that are in the order of their keys are the same if they have the same entries. -/
theorem eq_of_mem_iff {es fs : List (κ × α)} (hes : es.Pairwise fun a b => compare a.1 b.1 = .lt)
    (hfs : fs.Pairwise fun a b => compare a.1 b.1 = .lt)
    (h : ∀ k a, (k, a) ∈ es ↔ (k, a) ∈ fs) : es = fs := by
  have hmaps : (⟨es, hes⟩ : SortedMap κ α) = ⟨fs, hfs⟩ := by
    refine ext_get? fun k => Option.ext fun a => ?_
    rw [get?_eq_some_iff, get?_eq_some_iff]
    exact h k a
  exact congrArg toList hmaps

theorem isEmpty_iff : m.isEmpty = true ↔ ∀ k, m.get? k = none := by
  obtain ⟨es, h⟩ := m
  cases es with
  | nil => exact ⟨fun _ _ => rfl, fun _ => rfl⟩
  | cons e es =>
      constructor
      · intro h
        simp [isEmpty] at h
      · intro h'
        have := get?_eq_none_iff.1 (h' e.1) e.2
        simp at this

/-- The entries above a key are those with a greater key. -/
theorem mem_above : (j, a) ∈ m.above k ↔ m.get? j = some a ∧ compare k j = .lt := by
  rw [get?_eq_some_iff]
  obtain ⟨es, h⟩ := m
  simp only [above]
  induction es with
  | nil => simp
  | cons e es ih =>
      obtain ⟨he, hes⟩ := List.pairwise_cons.1 h
      rw [List.dropWhile_cons]
      split
      · rename_i hle
        rw [ih hes, List.mem_cons]
        refine and_congr_left fun hlt => ⟨.inr, fun hor => hor.resolve_left ?_⟩
        rintro rfl
        have := Std.OrientedCmp.gt_of_lt hlt
        simp [this] at hle
      · rename_i hgt
        have hke : compare k e.1 = .lt := by
          cases hc : compare e.1 k with
          | gt => exact Std.OrientedCmp.lt_of_gt hc
          | lt => simp [hc] at hgt
          | eq => simp [hc] at hgt
        refine ⟨fun hmem => ⟨hmem, ?_⟩, And.left⟩
        rcases List.mem_cons.1 hmem with rfl | hmem
        · exact hke
        · exact Std.TransCmp.lt_trans hke (he _ hmem)

theorem above_pairwise (m : SortedMap κ α) (k : κ) :
    (m.above k).Pairwise fun a b => compare a.1 b.1 = .lt :=
  m.ordered.sublist (List.dropWhile_sublist _)

/-! ### Look-up after a change -/

variable [DecidableEq κ]

@[simp] theorem get?_insert_self : (m.insert k a).get? k = some a := by
  rw [get?_insert, if_pos rfl]

theorem get?_insert_of_ne (h : j ≠ k) : (m.insert k a).get? j = m.get? j := by
  rw [get?_insert, if_neg h]

theorem contains_insert : (m.insert k a).contains j = true ↔ j = k ∨ m.contains j = true := by
  rw [contains, contains, get?_insert]
  by_cases hj : j = k
  · simp [hj]
  · simp [hj]

theorem insert_insert {b : α} : (m.insert k a).insert k b = m.insert k b := by
  refine ext_get? fun j => ?_
  simp only [get?_insert]
  split <;> rfl

theorem get?_modify {f : α → α} :
    (m.modify k f).get? j = if j = k then (m.get? j).map f else m.get? j := by
  rw [modify, get?_mapValues]
  by_cases h : j = k
  · subst h
    cases m.get? j <;> simp
  · have hc : (compare j k == .eq) = false := by
      simpa using fun hc => h (Std.LawfulEqOrd.eq_of_compare hc)
    cases m.get? j <;> simp [h, hc]

/-- Changing the value of a key is setting it, if there is one. -/
theorem modify_of_some {f : α → α} (h : m.get? k = some a) : m.modify k f = m.insert k (f a) := by
  refine ext_get? fun j => ?_
  rw [get?_modify, get?_insert]
  split
  · rename_i hj
    rw [hj, h]
    rfl
  · rfl

theorem modify_of_none {f : α → α} (h : m.get? k = none) : m.modify k f = m := by
  refine ext_get? fun j => ?_
  rw [get?_modify]
  split
  · rename_i hj
    rw [hj, h]
    rfl
  · rfl

theorem get?_eraseAll {ks : List κ} :
    (m.eraseAll ks).get? j = if j ∈ ks then none else m.get? j := by
  induction ks generalizing m with
  | nil => simp [eraseAll]
  | cons k ks ih =>
      have hstep : m.eraseAll (k :: ks) = (m.erase k).eraseAll ks := rfl
      rw [hstep, ih, get?_erase]
      by_cases h : j ∈ ks
      · simp [h]
      · by_cases hjk : j = k
        · simp [hjk]
        · simp [h, hjk]

theorem get?_insertAll_of_notMem {es : List (κ × α)} (h : ∀ a, (j, a) ∉ es) :
    (m.insertAll es).get? j = m.get? j := by
  induction es generalizing m with
  | nil => rfl
  | cons e es ih =>
      have hstep : m.insertAll (e :: es) = (m.insert e.1 e.2).insertAll es := rfl
      rw [hstep, ih fun a ha => h a (List.mem_cons_of_mem _ ha), get?_insert_of_ne]
      rintro rfl
      exact h e.2 List.mem_cons_self

/-- With each key at most once, what is inserted is found. -/
theorem get?_insertAll_of_mem {es : List (κ × α)} (hes : (es.map (·.1)).Nodup) (h : (j, a) ∈ es) :
    (m.insertAll es).get? j = some a := by
  induction es generalizing m with
  | nil => simp at h
  | cons e es ih =>
      have hstep : m.insertAll (e :: es) = (m.insert e.1 e.2).insertAll es := rfl
      rw [List.map_cons, List.nodup_cons] at hes
      rw [hstep]
      rcases List.mem_cons.1 h with rfl | h
      · rw [get?_insertAll_of_notMem, get?_insert_self]
        intro b hb
        exact hes.1 (List.mem_map.2 ⟨_, hb, rfl⟩)
      · exact ih hes.2 h

/-- In a union the entries of the second map win. -/
theorem get?_union {n : SortedMap κ α} :
    (m.union n).get? j = (n.get? j).or (m.get? j) := by
  rw [union]
  cases h : n.get? j with
  | none => rw [get?_insertAll_of_notMem (get?_eq_none_iff.1 h), Option.none_or]
  | some a => rw [get?_insertAll_of_mem (keys_nodup n) (get?_eq_some_iff.1 h), Option.some_or]

theorem erase_eq_self (h : m.get? k = none) : m.erase k = m := by
  refine ext_get? fun j => ?_
  rw [get?_erase]
  split
  · rename_i hj
    rw [hj, h]
  · rfl

/-- A key that is set has the one new entry; all others stay. -/
theorem toList_insert_perm (m : SortedMap κ α) (k : κ) (a : α) :
    (m.insert k a).toList.Perm ((k, a) :: (m.erase k).toList) := by
  have hgone : (k, a) ∉ (m.erase k).toList := by
    rw [← get?_eq_some_iff, get?_erase]
    simp
  refine (List.perm_ext_iff_of_nodup (toList_nodup _)
    (List.nodup_cons.2 ⟨hgone, toList_nodup _⟩)).2 fun e => ?_
  rw [← get?_eq_some_iff, List.mem_cons, ← get?_eq_some_iff, get?_insert, get?_erase, Prod.ext_iff]
  by_cases he : e.1 = k
  · simp [he, eq_comm]
  · simp [he]

/-- Setting a key to the value that it has changes nothing. -/
theorem insert_eq_self (h : m.get? k = some a) : m.insert k a = m := by
  refine ext_get? fun j => ?_
  rw [get?_insert]
  split
  · rename_i hj
    rw [hj, h]
  · rfl

/-- Erasing a new key undoes setting it. -/
theorem erase_insert (h : m.get? k = none) : (m.insert k a).erase k = m := by
  refine ext_get? fun j => ?_
  rw [get?_erase, get?_insert]
  split
  · rename_i hj
    rw [hj, h]
  · rfl

/-- Erasing a key does not depend on its value. -/
theorem erase_insert_self (m : SortedMap κ α) (k : κ) (a : α) :
    (m.insert k a).erase k = m.erase k := by
  refine ext_get? fun j => ?_
  rw [get?_erase, get?_erase, get?_insert]
  split <;> rfl

/-- A key that is erased had one entry; all others stay. -/
theorem toList_erase_perm (h : m.get? k = some a) :
    m.toList.Perm ((k, a) :: (m.erase k).toList) := by
  have hperm := toList_insert_perm m k a
  rwa [insert_eq_self h] at hperm

/-- A new key comes to the keys. -/
theorem keys_insert_perm (h : m.get? k = none) : (m.insert k a).keys.Perm (k :: m.keys) := by
  have hperm := (toList_insert_perm m k a).map Prod.fst
  rwa [erase_eq_self h] at hperm

/-- A key that is erased goes from the keys. -/
theorem keys_erase_perm (h : m.get? k = some a) : m.keys.Perm (k :: (m.erase k).keys) :=
  (toList_erase_perm h).map Prod.fst

/-- The value of a new key comes to the values. -/
theorem values_insert_perm_of_new (h : m.get? k = none) :
    (m.insert k a).values.Perm (a :: m.values) := by
  have hperm := (toList_insert_perm m k a).map Prod.snd
  rwa [erase_eq_self h] at hperm

/-- The value of a key that is set again takes the place of the old one. -/
theorem values_insert_perm {b : α} (h : m.get? k = some b) :
    (b :: (m.insert k a).values).Perm (a :: m.values) :=
  calc b :: (m.insert k a).values
    List.Perm _ (b :: a :: (m.erase k).values) :=
      ((toList_insert_perm m k a).map Prod.snd).cons b
    List.Perm _ (a :: b :: (m.erase k).values) := .swap a b _
    List.Perm _ (a :: m.values) := ((toList_erase_perm h).map Prod.snd).symm.cons a

end SortedMap

namespace SortedSet

variable {κ : Type} [Ord κ] [Std.TransOrd κ] [Std.LawfulEqOrd κ] [DecidableEq κ]
variable {s t : SortedSet κ} {k j : κ}

@[simp] theorem has_empty : has (SortedMap.empty : SortedSet κ) k = false := rfl

theorem has_iff : s.has k = true ↔ SortedMap.get? s k = some () := by
  rw [has, SortedMap.contains_iff]
  exact ⟨fun ⟨_, h⟩ => h, fun h => ⟨(), h⟩⟩

@[simp] theorem has_add : (s.add k).has j = true ↔ j = k ∨ s.has j = true := by
  simp only [has_iff, add, SortedMap.get?_insert]
  split <;> simp_all

theorem has_erase : has (SortedMap.erase s k) j = true ↔ j ≠ k ∧ s.has j = true := by
  simp only [has_iff, SortedMap.get?_erase]
  split <;> simp_all

theorem mem_keys : j ∈ SortedMap.keys s ↔ s.has j = true := by
  rw [SortedMap.mem_keys, has, SortedMap.contains_iff]

theorem has_ofElements {ks : List κ} : (ofElements ks).has j = true ↔ j ∈ ks := by
  have hfold : ∀ (ks : List κ) (s : SortedSet κ),
      has (SortedMap.insertAll s (ks.map fun k => (k, ()))) j = true ↔ j ∈ ks ∨ s.has j = true := by
    intro ks
    induction ks with
    | nil => intro s; simp [SortedMap.insertAll]
    | cons k ks ih =>
        intro s
        have hstep : SortedMap.insertAll s ((k :: ks).map fun k => (k, ())) =
            SortedMap.insertAll (s.add k) (ks.map fun k => (k, ())) := rfl
        rw [hstep, ih, has_add, List.mem_cons, or_left_comm, or_assoc]
  refine (hfold ks SortedMap.empty).trans ⟨fun h => h.resolve_right ?_, .inl⟩
  simp

/-- A set is determined by its elements. -/
theorem ext_has (h : ∀ k, s.has k = true ↔ t.has k = true) : s = t := by
  refine SortedMap.ext_get? fun k => ?_
  have := h k
  rw [has_iff, has_iff] at this
  cases hs : SortedMap.get? s k <;> cases ht : SortedMap.get? t k <;> simp_all

end SortedSet

end TransactionalTree
