/-
**Merging a workspace into the committed tree.**

The entries that change the tree are merged in the order of their paths, so that a node comes before
what is below it, and all under one version.

Main definitions:

* `mergeEntry` — merging one entry;
* `mergeAll` — merging entries one after the other, up to the first that cannot be merged;
* `Merge` — the tree and the events that come of it.
-/

import TransactionalTree.Commit.Event
import TransactionalTree.Context

set_option relaxedAutoImplicit false
set_option autoImplicit false

namespace TransactionalTree

/-- A step of a merge: the tree after it, and the events to report, or why it cannot be done. -/
abbrev MergeStep := Except TreeError (CommittedTree × List Event)

/-- Merge a removal.  Only a node that was observed is removed. -/
def mergeRemoval (t : CommittedTree) (v : Version) (origin : Origin) (p : Path) (e : Entry) :
    MergeStep :=
  if e.replacesBase then
    match t.remove p v with
    | .error err => .error err
    | .ok (t, some _) => .ok (t, [.removed p e.observed origin])
    | .ok (t, none) => .ok (t, [])
  else .ok (t, [])

/-- Merge a node that is made in place of one that was observed. -/
def mergeReplacement (t : CommittedTree) (v : Version) (origin : Origin) (p : Path) (e : Entry) :
    MergeStep :=
  match t.install p e.data v with
  | .error err => .error err
  | .ok (t, _) =>
      .ok (t, e.observed.toList.map (fun before => .removed p (some before) origin) ++
        [.created p e.data origin])

/-- Merge a node that is made where none was observed.  If one has been committed since, that one
stays and is given the data that were written. -/
def mergeCreation (t : CommittedTree) (v : Version) (origin : Origin) (p : Path) (e : Entry) :
    MergeStep :=
  match t.peek? p with
  | some n =>
      if e.changed then
        match t.update p (n.data.union e.data) v with
        | .error err => .error err
        | .ok t => .ok (t, [.modified p (some n.data) (n.data.union e.data) origin])
      else .ok (t, [])
  | none =>
      match t.install p e.data v with
      | .error err => .error err
      | .ok (t, _) => .ok (t, [.created p e.data origin])

/-- Merge written data. -/
def mergeUpdate (t : CommittedTree) (v : Version) (origin : Origin) (p : Path) (e : Entry) :
    MergeStep :=
  match t.update p e.data v with
  | .error err => .error err
  | .ok t => .ok (t, [.modified p e.observed e.data origin])

/-- **Merge one entry.** -/
def mergeEntry (t : CommittedTree) (v : Version) (origin : Origin) (p : Path) (e : Entry) :
    MergeStep :=
  if e.removed then mergeRemoval t v origin p e
  else if e.created then
    if e.replacesBase then mergeReplacement t v origin p e else mergeCreation t v origin p e
  else if e.changed then mergeUpdate t v origin p e
  else .ok (t, [])

/-- What comes of a merge. -/
structure Merge where
  /-- The tree after the entries that could be merged. -/
  tree : CommittedTree
  /-- The events to report, or why an entry could not be merged. -/
  events : Except TreeError (List Event)

/-- **Merge the listed entries** in order, up to the first that cannot be merged. -/
def mergeAll (t : CommittedTree) (v : Version) (origin : Origin) : List (Path × Entry) → Merge
  | [] => ⟨t, .ok []⟩
  | e :: es =>
      match mergeEntry t v origin e.1 e.2 with
      | .error err => ⟨t, .error err⟩
      | .ok (t, events) =>
          let rest := mergeAll t v origin es
          ⟨rest.tree, rest.events.map (events ++ ·)⟩

end TransactionalTree
