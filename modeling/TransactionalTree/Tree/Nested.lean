/-
**Nodes that own their children.**

The committed tree as it is stored.  Every node has a map of its children by name, tombstones
included, and whoever looks for a node walks down these maps from the root.  Removing a node turns
all that is below it into tombstones, one map after the other, and leaves them where they are; a new
node that takes the place of a tombstone adopts the tombstones below it.

Main definitions:

* `ChildMap`, `Subtree` — the children of a node, and a node with all that is below it;
* `Subtree.entryAt?`, `Subtree.newestRemoval` — **walking down**;
* `Subtree.replaceData`, `Subtree.installChild`, `Subtree.invalidate`, `ChildMap.purge` — the
  changes of a node and of what is below it;
* `NestedTree` — the tree with its root and its version counter;
* `NestedTree.createOrUpdate`, `NestedTree.install`, `NestedTree.update`, `NestedTree.remove`,
  `NestedTree.purge` — the changes of the tree.
-/

import TransactionalTree.Path.Text
import TransactionalTree.Tree.Basic

set_option relaxedAutoImplicit false
set_option autoImplicit false

namespace TransactionalTree

/-- The nodes directly below a node, in the order of their names, each with its children. -/
inductive ChildMap where
  /-- There is none. -/
  | empty
  /-- A node under its name, with its path and its children, and the nodes whose names follow. -/
  | entry (name : String) (path : Path) (node : Node) (below others : ChildMap)
deriving DecidableEq, Repr, Inhabited

/-- A node with all that is below it. -/
structure Subtree where
  /-- The path that the node was made with. -/
  path : Path
  /-- The node. -/
  node : Node
  /-- Its children. -/
  below : ChildMap
deriving DecidableEq, Repr, Inhabited

/-- The node as a tombstone: stamped with `v`, or with its own version if that is newer. -/
def Node.invalidated (n : Node) (v : Version) : Node :=
  { n with valid := false, version := max n.version v }

namespace ChildMap

/-! ### Children -/

/-- The child with the given name, which may be a tombstone. -/
def get? : ChildMap → String → Option Subtree
  | empty, _ => none
  | entry key path node below others, name =>
      if name = key then some ⟨path, node, below⟩ else others.get? name

/-- The children with `child` under the given name, in place of the one that is there. -/
def insert (name : String) (child : Subtree) : ChildMap → ChildMap
  | empty => entry name child.path child.node child.below empty
  | entry key path node below others =>
      match compare name key with
      | .lt => entry name child.path child.node child.below (entry key path node below others)
      | .eq => entry name child.path child.node child.below others
      | .gt => entry key path node below (others.insert name child)

/-- The names and identities of all children. -/
def entries : ChildMap → List (String × Nat)
  | empty => []
  | entry name _ node _ others => (name, node.id) :: others.entries

/-- The names of the valid children. -/
def validNames : ChildMap → List String
  | empty => []
  | entry name _ node _ others =>
      if node.valid then name :: others.validNames else others.validNames

/-- The children that are tombstones. -/
def tombstones : ChildMap → ChildMap
  | empty => empty
  | entry name path node below others =>
      if node.valid then others.tombstones else entry name path node below others.tombstones

/-! ### All that is below -/

/-- The paths of the valid children and of all that is reached from them, each before what is below
it. -/
def descendants : ChildMap → List Path
  | empty => []
  | entry _ path node below others =>
      if node.valid then path :: (below.descendants ++ others.descendants) else others.descendants

/-- Turn the children, and all that is below them, into tombstones. -/
def invalidate (v : Version) : ChildMap → ChildMap
  | empty => empty
  | entry name path node below others =>
      entry name path (node.invalidated v) (below.invalidate v) (others.invalidate v)

/-- Drop the tombstones among the children, and below those that are left; says how many were
dropped from the maps. -/
def purge : ChildMap → ChildMap × Nat
  | empty => (empty, 0)
  | entry name path node below others =>
      let (others, dropped) := others.purge
      if node.valid then
        let (below, more) := below.purge
        (entry name path node below others, dropped + more)
      else (others, dropped + 1)

/-- The tombstones as nodes that are out of the tree, with the children that they keep. -/
def dead : ChildMap → List RetiredNode
  | empty => []
  | entry _ path node below others =>
      (if node.valid then [] else [⟨path, node, below.entries⟩]) ++ (below.dead ++ others.dead)

end ChildMap

namespace Subtree

/-- The reference to the node. -/
def ref (s : Subtree) : NodeRef := ⟨s.path, s.node.id⟩

/-- The node as one that is out of the tree. -/
def retiree (s : Subtree) : RetiredNode := ⟨s.path, s.node, s.below.entries⟩

/-! ### Walking down -/

/-- **The node that the names lead to**, which may be a tombstone; all the nodes on the way have to
be valid. -/
def entryAt? (s : Subtree) : List String → Option Subtree
  | [] => some s
  | name :: names =>
      if s.node.valid then
        match s.below.get? name with
        | none => none
        | some next => if !names.isEmpty && !next.node.valid then none else next.entryAt? names
      else none

/-- **The newest removal on the way**, if `newest` is that which was met so far; the walk goes
through tombstones and ends where there is no node. -/
def newestRemoval (s : Subtree) (newest : Option Version) : List String → Option Version
  | [] => newest
  | name :: names =>
      match s.below.get? name with
      | none => newest
      | some next =>
          next.newestRemoval
            (if next.node.valid then newest
              else some (newest.elim next.node.version (max next.node.version))) names

/-- The subtree in which the node that the names lead to has been changed to `changed`. -/
def replaceAt (s : Subtree) (changed : Subtree) : List String → Subtree
  | [] => changed
  | name :: names =>
      match s.below.get? name with
      | none => s
      | some next => { s with below := s.below.insert name (next.replaceAt changed names) }

/-! ### Changes of a node -/

/-- Replace the data of a node, which must be valid. -/
def replaceData (s : Subtree) (d : Data) (v : Version) : Except TreeError Subtree :=
  if s.node.valid then .ok { s with node := { s.node with data := d, version := v } }
  else .error (.nodeInvalid s.path)

/-- Turn the node and all that is below it into tombstones. -/
def invalidate (s : Subtree) (v : Version) : Subtree :=
  { s with node := s.node.invalidated v, below := s.below.invalidate v }

/-- Turn the child with the given name into a tombstone, with all that is below it, if it is valid.
-/
def clearChild (s : Subtree) (name : String) (v : Version) : Subtree :=
  match s.below.get? name with
  | some previous =>
      if previous.node.valid then { s with below := s.below.insert name (previous.invalidate v) }
      else s
  | none => s

/-- The tombstones that a new child with the given name adopts: those that are directly below a
tombstone with this name. -/
def adopted (s : Subtree) (name : String) : ChildMap :=
  match s.below.get? name with
  | some previous => if previous.node.valid then .empty else previous.below.tombstones
  | none => .empty

/-- **Put a new child** under the given name into a node, which must be valid. -/
def installChild (s : Subtree) (id : Nat) (name : String) (d : Data) (v : Version) :
    Except TreeError (Subtree × Subtree) :=
  if s.node.valid then
    let child : Subtree := ⟨s.path.child name, ⟨id, true, v, d⟩, s.adopted name⟩
    .ok ({ s with below := s.below.insert name child }, child)
  else .error (.nodeInvalid s.path)

end Subtree

/-! ### The tree -/

/-- The tree with its root and its version counter, and the nodes that are out of it. -/
structure NestedTree where
  /-- The root, with all that is below it. -/
  root : Subtree
  /-- The nodes that are out of the tree. -/
  retired : List RetiredNode
  /-- The identity of the next node. -/
  nextId : Nat
  /-- The newest version that was given out or seen. -/
  version : Version
deriving DecidableEq, Repr, Inhabited

namespace NestedTree

/-- The tree with only a root, which was never written. -/
def empty : NestedTree where
  root := ⟨Path.root, ⟨0, true, Version.initial, .empty⟩, .empty⟩
  retired := []
  nextId := 1
  version := Version.initial

/-- The next version, and the tree that has given it out. -/
def allocate (t : NestedTree) : Version × NestedTree :=
  (t.version.next, { t with version := t.version.next })

/-- The tree that will only give out versions newer than `v`. -/
def observe (t : NestedTree) (v : Version) : NestedTree := { t with version := max t.version v }

/-- The node at `p`, which may be a tombstone; all the nodes above it have to be valid. -/
def entry? (t : NestedTree) (p : Path) : Option Subtree := t.root.entryAt? p.names

/-- The valid node at `p`. -/
def peek? (t : NestedTree) (p : Path) : Option Subtree := (t.entry? p).filter (·.node.valid)

/-- The version of the newest removal on the way to `p`. -/
def tombstoneVersion (t : NestedTree) (p : Path) : Option Version :=
  t.root.newestRemoval none p.names

/-- The paths of the valid nodes below `p`, each before what is below it. -/
def descendants (t : NestedTree) (p : Path) : List Path :=
  (t.peek? p).elim [] (·.below.descendants)

/-- The number of valid nodes. -/
def size (t : NestedTree) : Nat := 1 + (t.descendants Path.root).length

/-- The tree in which the node at `p` has been changed to `s`. -/
def setAt (t : NestedTree) (p : Path) (s : Subtree) : NestedTree :=
  { t with root := t.root.replaceAt s p.names }

/-- **Install a new node** at `p`, whose parent must be valid, in place of whatever is there. -/
def install (t : NestedTree) (p : Path) (d : Data) (v : Version) :
    Except TreeError (NestedTree × NodeRef) :=
  match p.parent?, p.name? with
  | some place, some name =>
      match t.peek? place with
      | none => .error (.nodeMissing place)
      | some parent =>
          let cleared := parent.clearChild name v
          let t := (t.setAt place cleared).observe v
          match cleared.installChild t.nextId name d v with
          | .error e => .error e
          | .ok (parent, child) =>
              let gone := (cleared.below.get? name).toList.map (·.retiree)
              .ok ({ t.setAt place parent with
                      retired := gone ++ t.retired
                      nextId := t.nextId + 1 }, child.ref)
  | _, _ => .error (.refused .createRoot)

/-- **Replace the data** of the node at `p`, which must be valid. -/
def update (t : NestedTree) (p : Path) (d : Data) (v : Version) : Except TreeError NestedTree :=
  match t.peek? p with
  | none => .error (.nodeMissing p)
  | some s => (s.replaceData d v).map ((t.observe v).setAt p)

/-- Write the data of the node at `p`, or install a new node if there is none. -/
def createOrUpdate (t : NestedTree) (p : Path) (d : Data) (v : Version) :
    Except TreeError (NestedTree × NodeRef) :=
  match t.peek? p with
  | some s => (s.replaceData d v).map fun s => ((t.observe v).setAt p s, s.ref)
  | none => t.install p d v

/-- **Remove the node** at `p` and everything below it; says which node it was, if there was one. -/
def remove (t : NestedTree) (p : Path) (v : Version) :
    Except TreeError (NestedTree × Option NodeRef) :=
  if p.isRoot then .error (.refused .removeRoot)
  else match t.peek? p with
    | none => .ok (t, none)
    | some s => .ok ((t.setAt p (s.invalidate v)).observe v, some s.ref)

/-- **Drop all tombstones**; says how many were dropped from the maps. -/
def purge (t : NestedTree) : NestedTree × Nat :=
  let (below, dropped) := t.root.below.purge
  ({ t with root := { t.root with below }, retired := t.root.below.dead ++ t.retired }, dropped)

end NestedTree

end TransactionalTree
