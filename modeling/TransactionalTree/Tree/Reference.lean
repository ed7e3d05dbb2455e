/-
**Nodes by reference.**

A reference keeps meaning the node it was made for, also when the node has been removed or replaced.
Of a node that is no longer valid hardly anything can be asked any more.

Main definitions:

* `CommittedTree.node?` — the node that a reference means;
* `CommittedTree.childrenOf` — the nodes directly below it, tombstones included;
* `CommittedTree.read` — ask a valid node for something;
* `NodeSnapshot` — what a node looked like at one moment;
* `CommittedTree.toRecord` — how a node is written.
-/

import TransactionalTree.Tree.Basic

set_option relaxedAutoImplicit false
set_option autoImplicit false

namespace TransactionalTree

/-- What a node looked like at one moment. -/
structure NodeSnapshot where
  /-- The data. -/
  data : Data
  /-- The version. -/
  version : Version
  /-- The names of the valid nodes directly below. -/
  children : NameSet
deriving DecidableEq, Repr

namespace CommittedTree

/-! ### Finding nodes -/

/-- The node at its own path, if it is still in the tree. -/
def standing? (t : CommittedTree) (r : NodeRef) : Option Node :=
  (t.slots.get? r.path).filter (·.id = r.id)

/-- The record of a node that is out of the tree. -/
def retired? (t : CommittedTree) (r : NodeRef) : Option RetiredNode :=
  t.retired.find? fun n => n.path = r.path && n.node.id = r.id

/-- **The node that a reference means.** -/
def node? (t : CommittedTree) (r : NodeRef) : Option Node :=
  match t.standing? r with
  | some n => some n
  | none => (t.retired? r).map (·.node)

/-- Whether the reference means a valid node. -/
def isValid (t : CommittedTree) (r : NodeRef) : Bool := (t.node? r).any (·.valid)

/-- The version of the node, valid or not. -/
def lastVersion (t : CommittedTree) (r : NodeRef) : Version :=
  (t.node? r).elim Version.initial (·.version)

/-- The nodes directly below a node, tombstones included, by name. -/
def childrenOf (t : CommittedTree) (r : NodeRef) : List (String × NodeRef) :=
  let entries := match t.standing? r with
    | some _ => t.childEntries r.path
    | none => (t.retired? r).elim [] (·.children)
  entries.map fun e => (e.1, ⟨r.path.push e.1, e.2⟩)

/-- The node directly below with this name, which may be a tombstone. -/
def childEntry? (t : CommittedTree) (r : NodeRef) (name : String) : Option NodeRef :=
  ((t.childrenOf r).find? (·.1 = name)).map (·.2)

/-! ### Asking a valid node -/

/-- Ask the node for something; fails if it is not valid. -/
def read {α : Type} (t : CommittedTree) (r : NodeRef) (ask : Node → α) : Except TreeError α :=
  match (t.node? r).filter (·.valid) with
  | some n => .ok (ask n)
  | none => .error (.nodeInvalid r.path)

/-- The version. -/
def versionOf (t : CommittedTree) (r : NodeRef) : Except TreeError Version := t.read r (·.version)

/-- The data. -/
def dataOf (t : CommittedTree) (r : NodeRef) : Except TreeError Data := t.read r (·.data)

/-- The value under a key. -/
def valueOf (t : CommittedTree) (r : NodeRef) (key : String) : Except TreeError (Option Value) :=
  t.read r (·.data.get? key)

/-- The keys of the data. -/
def keysOf (t : CommittedTree) (r : NodeRef) : Except TreeError NameSet :=
  t.read r (·.data.keySet)

/-- The names of the valid nodes directly below. -/
def childNamesOf (t : CommittedTree) (r : NodeRef) : Except TreeError NameSet :=
  t.read r fun _ => .ofElements (((t.childrenOf r).filter fun e => t.isValid e.2).map (·.1))

/-- The valid nodes directly below. -/
def childrenRefsOf (t : CommittedTree) (r : NodeRef) : Except TreeError (List NodeRef) :=
  t.read r fun _ => ((t.childrenOf r).map (·.2)).filter t.isValid

/-- The valid node directly below with this name. -/
def childOf (t : CommittedTree) (r : NodeRef) (name : String) :
    Except TreeError (Option NodeRef) :=
  t.read r fun _ => (t.childEntry? r name).filter t.isValid

/-- What the node looks like now. -/
def snapshotOf (t : CommittedTree) (r : NodeRef) : Except TreeError NodeSnapshot :=
  match t.childNamesOf r with
  | .error e => .error e
  | .ok children => t.read r fun n => ⟨n.data, n.version, children⟩

/-- The node above; the root has none. -/
def parentOf (t : CommittedTree) (r : NodeRef) : Except TreeError (Option NodeRef) :=
  t.read r fun _ => r.path.parent?.bind fun p => (t.slots.get? p).map fun n => ⟨p, n.id⟩

/-! ### As records -/

/-- The node as a record with the number of its keys and of the nodes below it. -/
def toRecord (t : CommittedTree) (r : NodeRef) : String :=
  let n := (t.node? r).getD default
  "VersionedNode \x7b fqn: " ++ r.path.toRecord ++ ", valid: " ++ toString n.valid ++
    s!", version: DataVersion({n.version}), keys: {n.data.size}, " ++
    s!"children: {(t.childrenOf r).length} \x7d"

/-- The node as a record with only its path and whether it is valid. -/
def toBriefRecord (t : CommittedTree) (r : NodeRef) : String :=
  "Node \x7b fqn: " ++ r.path.toRecord ++ ", valid: " ++ toString (t.isValid r) ++ " \x7d"

end CommittedTree

end TransactionalTree
