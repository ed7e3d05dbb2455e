/-
**Walking down and listing.**

What is found by walking down the maps of children, and what is met when all of them are gone
through, each node before what is below it.  The maps are in the order of their names and the nodes
have the paths of their places, so what is gone through is in the order of the paths.

Main definitions:

* `ChildMap.Proper`, `Subtree.Proper` — the names are in order and the paths are right;
* `Subtree.reach?`, `ChildMap.listing` — the node that is reached through nodes of some kind, and
  all that are;
* `Subtree.at?`, `Subtree.slot?` — the node at a place, whatever is above it.

Main results:

* `Subtree.slot?_replaceAt` — **what is found after a change of one node**;
* `Subtree.entryAt?_eq`, `Subtree.newestRemoval_eq` — the walks in terms of the places on the way;
* `ChildMap.mem_listing`, `ChildMap.listing_pairwise` — **what is gone through is what is reached,
  in order**;
* `Subtree.slot?_invalidate`, `Subtree.slot?_purge` — what the recursions leave at each place.
-/

import TransactionalTree.Proofs.Maps
import TransactionalTree.Proofs.Paths
import TransactionalTree.Tree.Nested

set_option relaxedAutoImplicit false
set_option autoImplicit false

namespace TransactionalTree

variable {m : ChildMap} {s c d next : Subtree} {p q : Path} {n : Node} {v : Version}
variable {name key : String} {names ns : List String} {enter : Node → Bool}

namespace ChildMap

/-! ### Children by name -/

/-- The names of all children. -/
def keys : ChildMap → List String
  | empty => []
  | entry name _ _ _ others => name :: others.keys

theorem get?_entry {path : Path} {below others : ChildMap} :
    (entry key path n below others).get? name =
      if name = key then some ⟨path, n, below⟩ else others.get? name := rfl

theorem mem_keys : name ∈ m.keys ↔ ∃ c, m.get? name = some c := by
  induction m with
  | empty => simp [keys, get?]
  | entry key path n below others _ ih =>
      rw [keys, List.mem_cons, get?_entry, ih]
      by_cases hname : name = key
      · simp [hname]
      · simp [hname]

theorem get?_insert :
    (m.insert name c).get? key = if key = name then some c else m.get? key := by
  induction m with
  | empty => rfl
  | entry first path n below others _ ih =>
      rw [insert]
      cases hc : compare name first with
      | lt => rfl
      | eq =>
          obtain rfl := Std.LawfulEqOrd.eq_of_compare hc
          simp only [get?_entry]
          split <;> rfl
      | gt =>
          have hne : name ≠ first := by
            rintro rfl
            simp at hc
          simp only [get?_entry, ih]
          by_cases hkey : key = first
          · rw [if_pos hkey, if_pos hkey, if_neg (hkey ▸ hne.symm)]
          · rw [if_neg hkey, if_neg hkey]

theorem mem_keys_insert : key ∈ (m.insert name c).keys ↔ key = name ∨ key ∈ m.keys := by
  simp only [mem_keys, get?_insert]
  by_cases hkey : key = name
  · simp [hkey]
  · simp [hkey]

/-- **The children of `p` are in the order of their names, and have the paths of their places**, and
so it is below them. -/
def Proper (p : Path) : ChildMap → Prop
  | empty => True
  | entry name path _ below others =>
      path = p.push name ∧ (∀ key ∈ others.keys, compare name key = .lt) ∧
        below.Proper path ∧ others.Proper p

end ChildMap

/-- The node is that of `p`, and all below it is proper. -/
def Subtree.Proper (s : Subtree) (p : Path) : Prop := s.path = p ∧ s.below.Proper p

namespace ChildMap

theorem Proper.get? (h : m.Proper p) (hc : m.get? name = some c) : c.Proper (p.push name) := by
  induction m with
  | empty => simp [ChildMap.get?] at hc
  | entry key path n below others _ ih =>
      obtain ⟨rfl, -, hbelow, hothers⟩ := h
      rw [get?_entry] at hc
      split at hc
      · rename_i hname
        obtain rfl := Option.some.inj hc
        exact ⟨by rw [hname], by rw [hname]; exact hbelow⟩
      · exact ih hothers hc

/-- The names that follow are other names. -/
theorem Proper.get?_self {path : Path} {below others : ChildMap}
    (h : (entry key path n below others).Proper p) : others.get? key = none := by
  rw [Option.eq_none_iff_forall_ne_some]
  intro c hc
  have hlt := h.2.1 key (mem_keys.2 ⟨c, hc⟩)
  simp at hlt

theorem Proper.get?_others {path : Path} {below others : ChildMap}
    (h : (entry key path n below others).Proper p) (hc : others.get? name = some c) :
    (entry key path n below others).get? name = some c := by
  rw [get?_entry, if_neg, hc]
  rintro rfl
  rw [h.get?_self] at hc
  simp at hc

theorem Proper.insert (h : m.Proper p) (hc : c.Proper (p.push name)) :
    (m.insert name c).Proper p := by
  induction m with
  | empty => exact ⟨hc.1, by simp [keys], by rw [hc.1]; exact hc.2, trivial⟩
  | entry key path n below others _ ih =>
      obtain ⟨hpath, hkeys, hbelow, hothers⟩ := h
      rw [ChildMap.insert]
      have hcbelow : c.below.Proper c.path := by rw [hc.1]; exact hc.2
      cases hcmp : compare name key with
      | lt =>
          refine ⟨hc.1, fun k hk => ?_, hcbelow, hpath, hkeys, hbelow, hothers⟩
          rcases List.mem_cons.1 hk with rfl | hk
          · exact hcmp
          · exact Std.TransCmp.lt_trans hcmp (hkeys k hk)
      | eq =>
          obtain rfl := Std.LawfulEqOrd.eq_of_compare hcmp
          exact ⟨hc.1, hkeys, hcbelow, hothers⟩
      | gt =>
          refine ⟨hpath, fun k hk => ?_, hbelow, ih hothers⟩
          rcases mem_keys_insert.1 hk with rfl | hk
          · exact Std.OrientedCmp.lt_of_gt hcmp
          · exact hkeys k hk

end ChildMap

namespace Subtree

/-! ### Places -/

/-- The node that the names lead to, if all the nodes on the way are ones to enter. -/
def reach? (enter : Node → Bool) (s : Subtree) : List String → Option Subtree
  | [] => some s
  | name :: names =>
      if enter s.node then (s.below.get? name).bind (·.reach? enter names) else none

/-- The node that the names lead to, whatever is on the way. -/
abbrev at? (s : Subtree) (names : List String) : Option Subtree := s.reach? (fun _ => true) names

/-- What is at the place that the names lead to. -/
def slot? (s : Subtree) (names : List String) : Option Node := (s.at? names).map (·.node)

@[simp] theorem slot?_nil (s : Subtree) : s.slot? [] = some s.node := rfl

theorem at?_cons : s.at? (name :: names) = (s.below.get? name).bind (·.at? names) := rfl

theorem slot?_cons : s.slot? (name :: names) = (s.below.get? name).bind (·.slot? names) := by
  rw [slot?, at?_cons]
  cases s.below.get? name <;> rfl

theorem reach?_append :
    s.reach? enter (names ++ ns) = (s.reach? enter names).bind (·.reach? enter ns) := by
  induction names generalizing s with
  | nil => rfl
  | cons name names ih =>
      rw [List.cons_append, reach?, reach?]
      split
      · cases s.below.get? name with
        | none => rfl
        | some next => exact ih
      · rfl

theorem at?_append (h : s.at? names = some c) : s.at? (names ++ ns) = c.at? ns :=
  reach?_append.trans (congrArg (·.bind (·.at? ns)) h)

theorem slot?_append (h : s.at? names = some c) : s.slot? (names ++ ns) = c.slot? ns := by
  rw [slot?, at?_append h, slot?]

theorem Proper.at? (h : s.Proper p) (hc : s.at? names = some c) : c.Proper ⟨p.names ++ names⟩ := by
  induction names generalizing s p with
  | nil =>
      obtain rfl := Option.some.inj hc
      rw [List.append_nil]
      exact h
  | cons name names ih =>
      obtain ⟨next, hnext, hc⟩ := Option.bind_eq_some_iff.1 (at?_cons.symm.trans hc)
      have hall := ih (h.2.get? hnext) hc
      rwa [Path.names_push, List.append_assoc] at hall

/-- **After the node at a place was changed**, what the change made is found there and below, and
all else is as before. -/
theorem slot?_replaceAt (h : s.at? names = some c) :
    (s.replaceAt d names).slot? ns =
      if names <+: ns then d.slot? (ns.drop names.length) else s.slot? ns := by
  induction names generalizing s ns with
  | nil => rw [if_pos List.nil_prefix]; rfl
  | cons name names ih =>
      obtain ⟨next, hnext, hc⟩ := Option.bind_eq_some_iff.1 (at?_cons.symm.trans h)
      rw [replaceAt, hnext]
      cases ns with
      | nil => rw [if_neg (by simp)]; rfl
      | cons key ns =>
          rw [slot?_cons, slot?_cons, ChildMap.get?_insert, List.length_cons, List.drop_succ_cons]
          by_cases hkey : key = name
          · rw [hkey, if_pos rfl, hnext, Option.bind_some, Option.bind_some, ih hc]
            simp only [List.prefix_cons_inj]
          · rw [if_neg hkey, if_neg fun hcon => hkey (List.cons_prefix_cons.1 hcon).1.symm]

/-- Changing a node in what is below another is changing it at its place. -/
theorem replaceAt_append (h : s.at? names = some c) :
    s.replaceAt d (names ++ ns) = s.replaceAt (c.replaceAt d ns) names := by
  induction names generalizing s with
  | nil =>
      obtain rfl := Option.some.inj h
      rfl
  | cons name names ih =>
      obtain ⟨next, hnext, hc⟩ := Option.bind_eq_some_iff.1 (at?_cons.symm.trans h)
      rw [List.cons_append, replaceAt, replaceAt, hnext]
      simp only [ih hc]

theorem at?_replaceAt (h : s.at? names = some c) : (s.replaceAt d names).at? names = some d := by
  induction names generalizing s with
  | nil => rfl
  | cons name names ih =>
      obtain ⟨next, hnext, hc⟩ := Option.bind_eq_some_iff.1 (at?_cons.symm.trans h)
      rw [replaceAt, hnext, at?_cons, ChildMap.get?_insert, if_pos rfl]
      exact ih hc

theorem Proper.replaceAt (h : s.Proper p) (hc : s.at? names = some c)
    (hd : d.Proper ⟨p.names ++ names⟩) : (s.replaceAt d names).Proper p := by
  induction names generalizing s p with
  | nil =>
      rw [List.append_nil] at hd
      exact hd
  | cons name names ih =>
      obtain ⟨next, hnext, hc⟩ := Option.bind_eq_some_iff.1 (at?_cons.symm.trans hc)
      rw [Subtree.replaceAt, hnext]
      refine ⟨h.1, h.2.insert (ih (h.2.get? hnext) hc ?_)⟩
      rwa [Path.names_push, List.append_assoc]

/-! ### Walks -/

/-- **A node is found by walking down if all the nodes above its place are valid.** -/
theorem entryAt?_eq_reach? : s.entryAt? names = s.reach? (·.valid) names := by
  induction names generalizing s with
  | nil => rfl
  | cons name names ih =>
      rw [entryAt?, reach?]
      cases s.below.get? name with
      | none => rfl
      | some next =>
          simp only [Option.bind_some, ← ih]
          cases names with
          | nil => rfl
          | cons key names =>
              -- below a tombstone nothing is found
              cases hvalid : next.node.valid with
              | true => rfl
              | false => simp [entryAt?, hvalid]

theorem entryAt?_eq : s.entryAt? names =
    if (List.range names.length).all (fun k => (s.slot? (names.take k)).any (·.valid)) then
      s.at? names else none := by
  rw [entryAt?_eq_reach?]
  induction names generalizing s with
  | nil => rfl
  | cons name names ih =>
      rw [reach?, List.length_cons, List.range_succ_eq_map, List.all_cons, List.all_map,
        List.take_zero, slot?_nil, Option.any_some, at?_cons]
      simp only [Function.comp_def, List.take_succ_cons, slot?_cons]
      cases hvalid : s.node.valid with
      | false => simp
      | true =>
          cases s.below.get? name with
          | none => simp
          | some next => simpa using ih

/-- **The newest removal that a walk meets** is the newest among the tombstones at the places on the
way. -/
theorem newestRemoval_eq {newest : Option Version} : s.newestRemoval newest names =
    (((List.range names.length).filterMap fun k => s.slot? (names.take (k + 1))).filter
      (!·.valid)).foldl (fun newest n => some (newest.elim n.version (max n.version))) newest := by
  induction names generalizing s newest with
  | nil => rfl
  | cons name names ih =>
      rw [newestRemoval, List.length_cons, List.range_succ_eq_map, List.filterMap_cons,
        List.filterMap_map]
      simp only [Function.comp_def, List.take_succ_cons, List.take_zero, slot?_cons]
      cases s.below.get? name with
      | none =>
          have hnone : ∀ ks : List Nat, ks.filterMap (fun _ => (none : Option Node)) = [] := by
            simp
          simp [hnone]
      | some next =>
          simp only [Option.bind_some, slot?_nil, List.filter_cons, ih]
          cases next.node.valid <;> rfl

end Subtree

namespace ChildMap

/-! ### Going through all that is below -/

/-- The children and what is below those to enter, each before what is below it. -/
def listing (enter : Node → Bool) : ChildMap → List (Path × Node)
  | empty => []
  | entry _ path node below others =>
      (path, node) :: ((if enter node then below.listing enter else []) ++ others.listing enter)

/-- **What is gone through is what is reached.** -/
theorem mem_listing (h : m.Proper p) : (q, n) ∈ m.listing enter ↔
    ∃ name names c d, q.names = p.names ++ name :: names ∧ m.get? name = some c ∧
      c.reach? enter names = some d ∧ d.node = n := by
  induction m generalizing p with
  | empty => simp [listing, ChildMap.get?]
  | entry key path node below others ihbelow ihothers =>
      obtain ⟨rfl, hkeys, hbelow, hothers⟩ := id h
      rw [listing, List.mem_cons, List.mem_append, ihothers hothers]
      constructor
      · rintro (heq | hmem | ⟨name, names, c, d, hq, hc, hd, hn⟩)
        · obtain ⟨rfl, rfl⟩ := Prod.mk.inj heq
          exact ⟨key, [], _, _, rfl, by rw [get?_entry, if_pos rfl], rfl, rfl⟩
        · by_cases henter : enter node = true
          · rw [if_pos henter] at hmem
            obtain ⟨name, names, c, d, hq, hc, hd, hn⟩ := (ihbelow hbelow).1 hmem
            refine ⟨key, name :: names, _, d, ?_, by rw [get?_entry, if_pos rfl], ?_, hn⟩
            · rw [hq, Path.names_push, List.append_assoc]
              rfl
            · rw [Subtree.reach?, if_pos henter, hc]
              exact hd
          · rw [if_neg henter] at hmem
            exact absurd hmem List.not_mem_nil
        · exact ⟨name, names, c, d, hq, h.get?_others hc, hd, hn⟩
      · rintro ⟨name, names, c, d, hq, hc, hd, hn⟩
        rw [get?_entry] at hc
        split at hc
        · rename_i hname
          obtain rfl := Option.some.inj hc
          cases names with
          | nil =>
              obtain rfl := Option.some.inj hd
              refine .inl (Prod.ext (Path.ext_names ?_) hn.symm)
              rw [hq, hname]
              rfl
          | cons next names =>
              rw [Subtree.reach?] at hd
              split at hd
              · rename_i henter
                obtain ⟨c, hc, hd⟩ := Option.bind_eq_some_iff.1 hd
                refine .inr (.inl ?_)
                rw [if_pos henter]
                refine (ihbelow hbelow).2 ⟨next, names, c, d, ?_, hc, hd, hn⟩
                rw [hq, hname, Path.names_push, List.append_assoc]
                rfl
              · simp at hd
        · exact .inr (.inr ⟨name, names, c, d, hq, hc, hd, hn⟩)

/-- What is below one child comes before what is below a later one. -/
theorem compare_of_names {r : Path} (hq : q.names = p.names ++ name :: names)
    (hr : r.names = p.names ++ key :: ns) (h : compare name key = .lt) : compare q r = .lt := by
  rw [Path.compare_eq, hq, hr, Path.compare_append_left, List.compare_eq_compareLex,
    List.compareLex_cons_cons, h]
  rfl

/-- **What is gone through is in the order of the paths.** -/
theorem listing_pairwise (h : m.Proper p) :
    (m.listing enter).Pairwise fun a b => compare a.1 b.1 = .lt := by
  induction m generalizing p with
  | empty => exact .nil
  | entry key path node below others ihbelow ihothers =>
      obtain ⟨rfl, hkeys, hbelow, hothers⟩ := h
      have hdown : ∀ a ∈ (if enter node then below.listing enter else []),
          ∃ name names, a.1.names = (p.push key).names ++ name :: names := by
        intro a ha
        split at ha
        · obtain ⟨name, names, -, -, hq, -⟩ := (mem_listing (n := a.2) hbelow).1 ha
          exact ⟨name, names, hq⟩
        · exact absurd ha List.not_mem_nil
      have hlater : ∀ b ∈ others.listing enter,
          ∃ name names, b.1.names = p.names ++ name :: names ∧ compare key name = .lt := by
        intro b hb
        obtain ⟨name, names, c, -, hq, hc, -⟩ := (mem_listing (n := b.2) hothers).1 hb
        exact ⟨name, names, hq, hkeys name (mem_keys.2 ⟨c, hc⟩)⟩
      refine List.pairwise_cons.2
        ⟨fun a ha => ?_, List.pairwise_append.2 ⟨?_, ihothers hothers, ?_⟩⟩
      · rcases List.mem_append.1 ha with ha | ha
        · obtain ⟨name, names, hq⟩ := hdown a ha
          exact Path.lt_of_isAbove (Path.isAbove_iff.2 ⟨name, names, hq⟩)
        · obtain ⟨name, names, hq, hlt⟩ := hlater a ha
          exact compare_of_names rfl hq hlt
      · split
        · exact ihbelow hbelow
        · exact .nil
      · intro a ha b hb
        obtain ⟨name, names, hq⟩ := hdown a ha
        obtain ⟨name', names', hq', hlt⟩ := hlater b hb
        have hbelow : a.1.names = p.names ++ key :: name :: names := by
          rw [hq, Path.names_push, List.append_assoc]
          rfl
        exact compare_of_names hbelow hq' hlt

/-- The valid nodes are listed as they are gone through. -/
theorem descendants_eq :
    m.descendants = ((m.listing (·.valid)).filter (·.2.valid)).map (·.1) := by
  induction m with
  | empty => rfl
  | entry key path node below others ihbelow ihothers =>
      rw [descendants, listing, List.filter_cons, List.filter_append, ihothers]
      cases hvalid : node.valid with
      | false => rfl
      | true =>
          simp only [if_true, ihbelow]
          rw [List.map_cons, List.map_append]

/-- The names of the valid children, by the children. -/
theorem mem_validNames (h : m.Proper p) :
    name ∈ m.validNames ↔ ∃ c, m.get? name = some c ∧ c.node.valid = true := by
  induction m with
  | empty => simp [validNames, ChildMap.get?]
  | entry key path node below others _ ih =>
      rw [validNames, get?_entry]
      by_cases hname : name = key
      · subst hname
        have hnot : name ∉ others.validNames := by
          rw [ih h.2.2.2]
          rintro ⟨c, hc, -⟩
          rw [h.get?_self] at hc
          simp at hc
        cases hvalid : node.valid <;> simp [hvalid, hnot]
      · rw [if_neg hname, ← ih h.2.2.2]
        cases node.valid <;> simp [hname]

theorem mem_entries (h : m.Proper p) {id : Nat} :
    (name, id) ∈ m.entries ↔ ∃ c, m.get? name = some c ∧ c.node.id = id := by
  induction m with
  | empty => simp [entries, ChildMap.get?]
  | entry key path node below others _ ih =>
      rw [entries, List.mem_cons, ih h.2.2.2]
      constructor
      · rintro (heq | ⟨c, hc, hid⟩)
        · obtain ⟨rfl, rfl⟩ := Prod.mk.inj heq
          exact ⟨_, by rw [get?_entry, if_pos rfl], rfl⟩
        · exact ⟨c, h.get?_others hc, hid⟩
      · rintro ⟨c, hc, hid⟩
        rw [get?_entry] at hc
        split at hc
        · rename_i hname
          obtain rfl := Option.some.inj hc
          exact .inl (Prod.ext hname hid.symm)
        · exact .inr ⟨c, hc, hid⟩

theorem fst_mem_entries {a : String × Nat} (h : a ∈ m.entries) : a.1 ∈ m.keys := by
  induction m with
  | empty => exact absurd h List.not_mem_nil
  | entry key path node below others _ ih =>
      rcases List.mem_cons.1 h with rfl | h
      · exact List.mem_cons_self
      · exact List.mem_cons_of_mem _ (ih h)

theorem entries_pairwise (h : m.Proper p) :
    m.entries.Pairwise fun a b => compare a.1 b.1 = .lt := by
  induction m with
  | empty => exact .nil
  | entry key path node below others _ ih =>
      exact List.pairwise_cons.2 ⟨fun a ha => h.2.1 _ (fst_mem_entries ha), ih h.2.2.2⟩

/-! ### Removing -/

theorem get?_invalidate :
    (m.invalidate v).get? name = (m.get? name).map (·.invalidate v) := by
  induction m with
  | empty => rfl
  | entry key path node below others _ ih =>
      rw [invalidate, get?_entry, get?_entry, ih]
      split <;> rfl

theorem keys_invalidate : (m.invalidate v).keys = m.keys := by
  induction m with
  | empty => rfl
  | entry key path node below others _ ih => rw [invalidate, keys, keys, ih]

theorem Proper.invalidate (h : m.Proper p) : (m.invalidate v).Proper p := by
  induction m generalizing p with
  | empty => exact trivial
  | entry key path node below others ihbelow ihothers =>
      obtain ⟨hpath, hkeys, hbelow, hothers⟩ := h
      exact ⟨hpath, by rwa [keys_invalidate], ihbelow hbelow, ihothers hothers⟩

/-- **All that is below a removed node is adopted**: it has been removed too. -/
theorem tombstones_eq_self (h : m.Proper p)
    (hdead : ∀ name c, m.get? name = some c → c.node.valid = false) : m.tombstones = m := by
  induction m with
  | empty => rfl
  | entry key path node below others _ ih =>
      have hnode : node.valid = false := hdead key _ (by rw [get?_entry, if_pos rfl])
      rw [tombstones, hnode, ih h.2.2.2 fun name c hc => hdead name c (h.get?_others hc)]
      rfl

theorem Proper.tombstones (h : m.Proper p) : m.tombstones.Proper p := by
  have hkeys : ∀ {m : ChildMap}, ∀ key ∈ m.tombstones.keys, key ∈ m.keys := by
    intro m
    induction m with
    | empty => exact fun _ hk => hk
    | entry key path node below others _ ih =>
        intro k hk
        rw [ChildMap.tombstones] at hk
        split at hk
        · exact List.mem_cons_of_mem _ (ih k hk)
        · rcases List.mem_cons.1 hk with rfl | hk
          · exact List.mem_cons_self
          · exact List.mem_cons_of_mem _ (ih k hk)
  induction m with
  | empty => exact trivial
  | entry key path node below others _ ih =>
      obtain ⟨hpath, hlater, hbelow, hothers⟩ := h
      rw [ChildMap.tombstones]
      split
      · exact ih hothers
      · exact ⟨hpath, fun k hk => hlater k (hkeys k hk), hbelow, ih hothers⟩

/-! ### Dropping tombstones -/

theorem get?_purge (h : m.Proper p) : m.purge.1.get? name =
    ((m.get? name).filter (·.node.valid)).map fun c => { c with below := c.below.purge.1 } := by
  induction m with
  | empty => rfl
  | entry key path node below others _ ih =>
      have hothers := ih h.2.2.2
      rw [purge, get?_entry]
      by_cases hname : name = key
      · subst hname
        rw [if_pos rfl, Option.filter_some]
        cases node.valid with
        | true => simp only [if_true, get?_entry, Option.map_some]
        | false =>
            -- the name does not come a second time
            rw [h.get?_self] at hothers
            simpa using hothers
      · rw [if_neg hname, ← hothers]
        cases node.valid with
        | true => simp only [if_true, get?_entry, if_neg hname]
        | false => rfl

theorem Proper.purge (h : m.Proper p) : m.purge.1.Proper p := by
  induction m generalizing p with
  | empty => exact trivial
  | entry key path node below others ihbelow ihothers =>
      obtain ⟨hpath, hkeys, hbelow, hothers⟩ := h
      rw [ChildMap.purge]
      cases node.valid with
      | false => exact ihothers hothers
      | true =>
          refine ⟨hpath, fun k hk => ?_, ihbelow hbelow, ihothers hothers⟩
          obtain ⟨c, hc⟩ := mem_keys.1 hk
          rw [get?_purge hothers] at hc
          obtain ⟨c', hc', -⟩ := Option.map_eq_some_iff.1 hc
          exact hkeys k (mem_keys.2 ⟨c', (Option.filter_eq_some_iff.1 hc').1⟩)

/-- **The tombstones that are dropped from the maps are those that are met going through valid nodes
only**; what is below them goes with them. -/
theorem purge_count : m.purge.2 = ((m.listing (·.valid)).filter (!·.2.valid)).length := by
  induction m with
  | empty => rfl
  | entry key path node below others ihbelow ihothers =>
      rw [purge, listing, List.filter_cons, List.filter_append]
      cases node.valid with
      | true => simp [ihbelow, ihothers, Nat.add_comm]
      | false => simp [ihothers]

/-- What leaves the tree are the tombstones, gone through as they stand. -/
theorem dead_eq {children : Path → List (String × Nat)} (h : m.Proper p)
    (hchildren : ∀ name names c d, m.get? name = some c → c.at? names = some d →
      d.below.entries = children d.path) :
    m.dead = ((m.listing fun _ => true).filter (!·.2.valid)).map
      fun e => ⟨e.1, e.2, children e.1⟩ := by
  induction m generalizing p with
  | empty => rfl
  | entry key path node below others ihbelow ihothers =>
      have hself : (entry key path node below others).get? key = some ⟨path, node, below⟩ := by
        rw [get?_entry, if_pos rfl]
      have hentries : below.entries = children path := hchildren key [] _ _ hself rfl
      have hbelow := ihbelow h.2.2.1 fun name names c d hc hd =>
        hchildren key (name :: names) _ d hself (by rw [Subtree.at?_cons, hc]; exact hd)
      have hothers := ihothers h.2.2.2 fun name names c d hc hd =>
        hchildren name names c d (h.get?_others hc) hd
      rw [dead, listing, if_pos rfl, List.filter_cons, List.filter_append, hbelow, hothers]
      cases node.valid with
      | true => simp
      | false => simp [hentries]

end ChildMap

namespace Subtree

/-- What is gone through below a node that is entered is what is reached from it. -/
theorem Proper.mem_listing (h : s.Proper p) (henter : enter s.node = true) :
    (q, n) ∈ s.below.listing enter ↔ ∃ name names d, q.names = p.names ++ name :: names ∧
      s.reach? enter (name :: names) = some d ∧ d.node = n := by
  rw [ChildMap.mem_listing h.2]
  simp only [reach?, if_pos henter, Option.bind_eq_some_iff]
  constructor
  · rintro ⟨name, names, c, d, hq, hc, hd, hn⟩
    exact ⟨name, names, d, hq, ⟨c, hc, hd⟩, hn⟩
  · rintro ⟨name, names, d, hq, ⟨c, hc, hd⟩, hn⟩
    exact ⟨name, names, c, d, hq, hc, hd, hn⟩

/-- **Removing a node leaves a tombstone at every place below it.** -/
theorem slot?_invalidate :
    (s.invalidate v).slot? names = (s.slot? names).map (·.invalidated v) := by
  induction names generalizing s with
  | nil => rfl
  | cons name names ih =>
      rw [slot?_cons, slot?_cons, invalidate, ChildMap.get?_invalidate]
      cases s.below.get? name with
      | none => rfl
      | some next => exact ih

/-- **Dropping the tombstones leaves what is found.** -/
theorem slot?_purge (h : s.Proper p) (hvalid : s.node.valid = true) :
    slot? { s with below := s.below.purge.1 } names =
      ((s.entryAt? names).filter (·.node.valid)).map (·.node) := by
  rw [entryAt?_eq_reach?]
  induction names generalizing s p with
  | nil => rw [reach?, Option.filter_some, if_pos hvalid]; rfl
  | cons name names ih =>
      rw [slot?_cons, reach?, if_pos hvalid, ChildMap.get?_purge h.2]
      cases hnext : s.below.get? name with
      | none => rfl
      | some next =>
          cases hv : next.node.valid with
          | true =>
              rw [Option.filter_some, if_pos hv]
              exact ih (h.2.get? hnext) hv
          | false =>
              rw [Option.filter_some, if_neg (by simp [hv])]
              cases names with
              | nil => simp [reach?, Option.filter, hv]
              | cons key names => simp [reach?, hv]

end Subtree

end TransactionalTree
