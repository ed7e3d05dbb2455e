/-
**What a unit of work sees.**

A unit of work sees the committed tree through its workspace.  An entry hides the committed node at
its path; an entry for a node that is not there, or that the unit of work makes anew, also hides all
committed nodes below it.

Main definitions:

* `Base` — what all units of work see: the committed tree, and how far reads are isolated;
* `View` — a base seen through a workspace;
* `Location`, `View.locate` — **where a path leads**;
* `View.childNames`, `View.data?`, `View.descendants` — what is there;
* `View.missingChain` — the nodes that a write has to make.
-/

import TransactionalTree.Config.Basic
import TransactionalTree.Context

set_option relaxedAutoImplicit false
set_option autoImplicit false

namespace TransactionalTree

/-- What all units of work see. -/
structure Base where
  /-- What reads see of the commits of others. -/
  isolation : IsolationLevel
  /-- The committed tree. -/
  tree : CommittedTree
deriving DecidableEq, Repr, Inhabited

/-- Whether reads are pinned to what was seen first. -/
def Base.isRepeatable (b : Base) : Bool := b.isolation = .repeatableRead

/-- A base seen through a workspace. -/
structure View where
  /-- What all units of work see. -/
  base : Base
  /-- The entries of the unit of work. -/
  workspace : Workspace
deriving DecidableEq, Repr, Inhabited

/-- What a unit of work sees. -/
def Base.view (b : Base) (c : Context) : View := ⟨b, c.workspace⟩

/-- Where a path leads. -/
inductive Location where
  /-- To an entry of the workspace. -/
  | staged (e : Entry)
  /-- To a committed node that has no entry. -/
  | committed (n : Node)
  /-- To nothing, neither in the tree nor in the workspace. -/
  | missing
  /-- To nothing, because the workspace removes or hides what may be there. -/
  | hidden
deriving DecidableEq, Repr, Inhabited

/-- Whether the path leads to a node. -/
def Location.isPresent : Location → Bool
  | staged _ => true
  | committed _ => true
  | missing => false
  | hidden => false

namespace View

/-! ### Finding a node -/

/-- Some entry above `p` says that there is no node. -/
def isCutOff (v : View) (p : Path) : Bool :=
  p.ancestors.any fun q => (v.workspace.get? q).any (!·.isPresent)

/-- Some entry above `p` is for a node that is made anew. -/
def isShadowed (v : View) (p : Path) : Bool :=
  p.ancestors.any fun q => (v.workspace.get? q).any (·.created)

/-- **Where `p` leads.** -/
def locate (v : View) (p : Path) : Location :=
  if v.isCutOff p then .hidden
  else match v.workspace.get? p with
    | some e => if e.isPresent then .staged e else .hidden
    | none =>
        if v.isShadowed p then .hidden
        else match v.base.tree.peek? p with
          | some n => .committed n
          | none => .missing

/-- Whether there is a node at `p`. -/
def exists? (v : View) (p : Path) : Bool := (v.locate p).isPresent

/-! ### Children and data -/

/-- The names of the children of an entry or committed node at `p`, before the entries of the
children themselves are taken into account; nothing if `p` leads nowhere. -/
def baseChildNames (v : View) (p : Path) : Location → Option NameSet
  | .staged e =>
      some (if e.created then .empty
        else if v.base.isRepeatable then e.children
        else if v.base.tree.exists? p then v.base.tree.childNames p else .empty)
  | .committed _ => some (v.base.tree.childNames p)
  | .missing => none
  | .hidden => none

/-- The names, changed by the entry for a child. -/
def overlayChild (names : NameSet) (child : Path × Entry) : NameSet :=
  match child.1.name? with
  | none => names
  | some name => if child.2.isPresent then names.add name else names.erase name

/-- The names of the children of what `p` leads to. -/
def childNamesAt (v : View) (p : Path) (l : Location) : Option NameSet :=
  (v.baseChildNames p l).map ((v.workspace.childrenOf p).foldl overlayChild)

/-- **The names of the children** of the node at `p`. -/
def childNames (v : View) (p : Path) : Option NameSet := v.childNamesAt p (v.locate p)

/-- **The data** of what a path leads to. -/
def dataAt : Location → Option Data
  | .staged e => some e.data
  | .committed n => some n.data
  | .missing => none
  | .hidden => none

/-- The data of the node at `p`. -/
def data? (v : View) (p : Path) : Option Data := dataAt (v.locate p)

/-! ### Everything below a path -/

/-- The greatest depth of a path that has an entry or a committed node: nothing is seen deeper. -/
def depthBound (v : View) : Nat :=
  (v.workspace.keys ++ v.base.tree.slots.keys).foldl (fun d p => max d p.depth) 0

/-- The nodes below `p` that are reached from it by names of children, at most `fuel` levels down,
each before what is below it. -/
def descend (v : View) (fuel : Nat) (p : Path) : List Path :=
  match fuel with
  | 0 => []
  | fuel + 1 =>
      match v.childNames p with
      | none => []
      | some names =>
          names.keys.flatMap fun name =>
            let q := p.push name
            if v.exists? q then q :: v.descend fuel q else []

/-- **The nodes below `p`**, each before what is below it. -/
def descendants (v : View) (p : Path) : List Path := v.descend (v.depthBound + 1) p

/-! ### Missing nodes -/

/-- The places that must have a node before there can be one at `p`, the first one first, and `p`
itself. -/
def chain (p : Path) : List Path := if p.isRoot then [p] else p.steps

/-- The nodes that a write to `p` has to make, the first one first; none if there is a node. -/
def missingChain (v : View) (p : Path) : List Path := (chain p).dropWhile v.exists?

end View

end TransactionalTree
