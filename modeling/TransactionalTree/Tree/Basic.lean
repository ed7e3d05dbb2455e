/-
**The committed tree.**

The tree that everybody shares holds one node per path.  A node that is removed stays at its path as
a tombstone, together with everything below it, and is stamped with the version of the removal; a
later node at the path is a new node with an identity of its own.  A node is found by going down
from the root through valid nodes only.

Nodes that have been replaced or purged are out of the tree, but whoever kept a reference to one can
still ask for it; such nodes are retired, along with the references to what was below them.

Main definitions:

* `Node`, `NodeRef` — a node, and a reference to one;
* `CommittedTree` — the nodes by path, the retired nodes, and the version counter;
* `CommittedTree.entry?`, `CommittedTree.peek?` — the node at a path, tombstone or valid;
* `CommittedTree.tombstoneVersion` — the newest removal on the way to a path;
* `CommittedTree.childNames`, `CommittedTree.descendants` — what is below a path;
* `CommittedTree.createOrUpdate`, `CommittedTree.install`, `CommittedTree.update`,
  `CommittedTree.remove`, `CommittedTree.purge` — the changes.
-/

import TransactionalTree.TreeError
import TransactionalTree.Value

set_option relaxedAutoImplicit false
set_option autoImplicit false

namespace TransactionalTree

/-- A node of the committed tree. -/
structure Node where
  /-- The identity: no two nodes share it. -/
  id : Nat
  /-- Whether the node is in use; a node that is not is a tombstone. -/
  valid : Bool
  /-- The version of the last write, or of the removal. -/
  version : Version
  /-- The data. -/
  data : Data
deriving DecidableEq, Repr, Inhabited

/-- A reference to a node: where it was put, and which one it is. -/
structure NodeRef where
  /-- The path of the node. -/
  path : Path
  /-- The identity of the node. -/
  id : Nat
deriving DecidableEq, Repr, Inhabited

/-- A node that is out of the tree. -/
structure RetiredNode where
  /-- Where the node was. -/
  path : Path
  /-- The node. -/
  node : Node
  /-- The nodes that were directly below it, by name. -/
  children : List (String × Nat)
deriving DecidableEq, Repr, Inhabited

/-- The tree that everybody shares. -/
structure CommittedTree where
  /-- The node at each path. -/
  slots : SortedMap Path Node
  /-- The nodes that are out of the tree. -/
  retired : List RetiredNode
  /-- The identity of the next node. -/
  nextId : Nat
  /-- The newest version that was given out or seen. -/
  version : Version
deriving DecidableEq, Repr

namespace CommittedTree

/-- The tree with only a root, which was never written. -/
def empty : CommittedTree where
  slots := SortedMap.empty.insert Path.root ⟨0, true, Version.initial, .empty⟩
  retired := []
  nextId := 1
  version := Version.initial

instance : Inhabited CommittedTree := ⟨empty⟩

/-! ### Versions -/

/-- The next version, and the tree that has given it out. -/
def allocate (t : CommittedTree) : Version × CommittedTree :=
  (t.version.next, { t with version := t.version.next })

/-- The tree that will only give out versions newer than `v`. -/
def observe (t : CommittedTree) (v : Version) : CommittedTree :=
  { t with version := max t.version v }

/-! ### Finding nodes -/

/-- Whether the node at `p` is valid. -/
def isValidAt (t : CommittedTree) (p : Path) : Bool := (t.slots.get? p).any (·.valid)

/-- The node at `p`, which may be a tombstone; all the nodes above it have to be valid. -/
def entry? (t : CommittedTree) (p : Path) : Option Node :=
  if p.ancestors.all t.isValidAt then t.slots.get? p else none

/-- **The valid node at `p`.** -/
def peek? (t : CommittedTree) (p : Path) : Option Node := (t.entry? p).filter (·.valid)

/-- Whether there is a valid node at `p`. -/
def exists? (t : CommittedTree) (p : Path) : Bool := (t.peek? p).isSome

/-- The reference to the valid node at `p`. -/
def peekRef? (t : CommittedTree) (p : Path) : Option NodeRef := (t.peek? p).map fun n => ⟨p, n.id⟩

/-- The version of the newest removal on the way to `p`, at `p` itself included; nothing if nothing
on the way was removed. -/
def tombstoneVersion (t : CommittedTree) (p : Path) : Option Version :=
  ((p.steps.filterMap t.slots.get?).filter (!·.valid)).foldl
    (fun newest n => some (newest.elim n.version (max n.version))) none

/-! ### Below a path -/

/-- The names of the valid nodes directly below `p`. -/
def childNames (t : CommittedTree) (p : Path) : NameSet :=
  .ofElements <| t.slots.toList.filterMap fun e =>
    if e.1.isChildOf p && e.2.valid then e.1.name? else none

/-- The nodes directly below `p`, tombstones included, by name. -/
def childEntries (t : CommittedTree) (p : Path) : List (String × Nat) :=
  t.slots.toList.filterMap fun e =>
    if e.1.isChildOf p then e.1.name?.map fun name => (name, e.2.id) else none

/-- The paths of the valid nodes below `p`, each before what is below it; none if `p` itself has no
valid node. -/
def descendants (t : CommittedTree) (p : Path) : List Path :=
  if t.exists? p then (t.slots.filter fun q n => q.isBelow p && n.valid).keys else []

/-- The number of valid nodes. -/
def size (t : CommittedTree) : Nat := 1 + (t.descendants Path.root).length

/-- The valid nodes with their paths, each before what is below it. -/
def validNodes (t : CommittedTree) : List (Path × Node) :=
  (t.slots.filter fun _ n => n.valid).toList

/-! ### Changing the tree -/

/-- Turn every node at or below `p` into a tombstone stamped with `v`, or with its own version if
that is newer. -/
def bury (t : CommittedTree) (p : Path) (v : Version) : CommittedTree :=
  { t with slots := t.slots.mapValues fun q n =>
      if q.isAtOrBelow p then { n with valid := false, version := max n.version v } else n }

/-- Take note of a node at `p` that leaves the tree. -/
def retire (t : CommittedTree) (p : Path) (n : Node) : CommittedTree :=
  { t with retired := ⟨p, n, t.childEntries p⟩ :: t.retired }

/-- Put a new node at `p`, in place of whatever is there.  Tombstones below `p` stay. -/
def place (t : CommittedTree) (p : Path) (d : Data) (v : Version) : CommittedTree :=
  let t := match t.slots.get? p with
    | none => t
    | some n => t.retire p n
  { t with
    slots := t.slots.insert p ⟨t.nextId, true, v, d⟩
    nextId := t.nextId + 1 }

/-- **Install a new node** at `p`, whose parent must be valid.  A valid node that is there goes,
with everything below it. -/
def install (t : CommittedTree) (p : Path) (d : Data) (v : Version) :
    Except TreeError (CommittedTree × NodeRef) :=
  match p.parent? with
  | none => .error (.refused .createRoot)
  | some parent =>
      if t.exists? parent then
        let cleared := if t.isValidAt p then t.bury p v else t
        .ok ((cleared.observe v).place p d v, ⟨p, t.nextId⟩)
      else .error (.nodeMissing parent)

/-- Write the data of the valid node `n` at `p`. -/
def overwrite (t : CommittedTree) (p : Path) (n : Node) (d : Data) (v : Version) : CommittedTree :=
  { t.observe v with slots := t.slots.insert p { n with data := d, version := v } }

/-- **Replace the data** of the node at `p`, which must be valid. -/
def update (t : CommittedTree) (p : Path) (d : Data) (v : Version) :
    Except TreeError CommittedTree :=
  match t.peek? p with
  | none => .error (.nodeMissing p)
  | some n => .ok (t.overwrite p n d v)

/-- Write the data of the node at `p`, or install a new node if there is none. -/
def createOrUpdate (t : CommittedTree) (p : Path) (d : Data) (v : Version) :
    Except TreeError (CommittedTree × NodeRef) :=
  match t.peek? p with
  | some n => .ok (t.overwrite p n d v, ⟨p, n.id⟩)
  | none => t.install p d v

/-- **Remove the node** at `p` and everything below it; says which node it was, if there was one. -/
def remove (t : CommittedTree) (p : Path) (v : Version) :
    Except TreeError (CommittedTree × Option NodeRef) :=
  if p.isRoot then .error (.refused .removeRoot)
  else match t.peek? p with
    | none => .ok (t, none)
    | some n => .ok ((t.bury p v).observe v, some ⟨p, n.id⟩)

/-- **Drop all tombstones**; says how many of them were directly below a valid node. -/
def purge (t : CommittedTree) : CommittedTree × Nat :=
  let dead := t.slots.filter fun _ n => !n.valid
  let tops := dead.filter fun p _ => p.parent?.any t.isValidAt
  ({ t with
      slots := t.slots.filter fun _ n => n.valid
      retired := dead.toList.map (fun e => ⟨e.1, e.2, t.childEntries e.1⟩) ++ t.retired },
    tops.size)

/-! ### Printing -/

/-- One line for a node: its name behind two blanks for each level, its version and its keys. -/
def nodeLine (p : Path) (n : Node) : String :=
  String.join (List.replicate p.depth "  ") ++ p.name?.getD "/" ++ " (" ++ n.version.toText ++
    ") \x7b" ++ Text.quoteList n.data.keys ++ "\x7d\n"

/-- The valid nodes, one line each. -/
def print (t : CommittedTree) : String :=
  String.join (t.validNodes.map fun e => nodeLine e.1 e.2)

end CommittedTree

end TransactionalTree
