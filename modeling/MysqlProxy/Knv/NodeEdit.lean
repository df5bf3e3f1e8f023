/-
  Edits of any node of a tree.

  A caller holds pointers to nodes deep in a tree and edits them there.  `NodeEdit` is such a call, and
  `editIn` carries it out on the node at a `NodePlace`: the metas and children on the way to it.  Behind it,
  the sizes and the marks of all nodes above are patched (`parentRounds`).

  `SetTag`, a new key and `SetValue` of a node with a key also take the node out of its parent's index
  and put it back under its new name (`reindex`).
-/
import MysqlProxy.Knv.Tree

namespace MysqlProxy

namespace KnvNode

/-- `SetTag`, apart from the parent's index. -/
def setTag (n : KnvNode) (t : UInt32) : Except KnvError (KnvNode × List Int) :=
  if t = 0 then .error ⟨-1, "Bad tag argument"⟩
  else if n.tag = 0 then .error ⟨-2, "Knv tree is not initialized"⟩
  else if 0 ≤ n.eval_sz then
    let sz : Int :=
      if n.isString then pbEvalStringLength t n.eval_val_sz.toNat else pbEvalFieldLength t n.val
    .ok ({ n with tag := t, eval_sz := sz, subnode_dirty := true }, [sz - n.eval_sz])
  else .ok ({ n with tag := t, subnode_dirty := true }, [0])

/-- `SetValue` of a string. -/
def setValueStr (n : KnvNode) (s : List UInt8) : Except KnvError (KnvNode × List Int) :=
  if n.tag = 0 then .error ⟨-1, "invalid data node"⟩
  else if !n.isString then .error ⟨-2, "node type mismatch"⟩
  else once (.ok ((n.checkKey s).setStrValue s))

/-- `SetValue` of an integer. -/
def setValueInt (n : KnvNode) (i64 : UInt64) : Except KnvError (KnvNode × List Int) :=
  if n.tag = 0 then .error ⟨-1, "invalid data node"⟩
  else if n.isString then .error ⟨-2, "node type mismatch"⟩
  else once (.ok (n.setIntValue i64))

end KnvNode

open KnvNode

/-- A call that edits a node. -/
inductive NodeEdit where
  | setTag (tag : UInt32)
  | setValueStr (s : List UInt8)
  | setValueInt (i64 : UInt64)
  | insertIntLeaf (tag : UInt32) (val : UInt64)
  | insertStrLeaf (tag : UInt32) (val : List UInt8)
  | setMetaInt (tag : UInt32) (val : UInt64)
  | removeChildrenByTag (tag : UInt32)
  deriving DecidableEq, Repr

namespace NodeEdit

/-- The call expands the node first. -/
def expands : NodeEdit → Bool
  | setTag _ | setValueStr _ | setValueInt _ => false
  | _ => true

/-- The call on a node that is expanded, if it has to be. -/
def call : NodeEdit → KnvNode → Except KnvError (KnvNode × List Int)
  | setTag tag, n => n.setTag tag
  | setValueStr s, n => n.setValueStr s
  | setValueInt i64, n => n.setValueInt i64
  | insertIntLeaf tag val, n => n.insertIntLeaf tag val
  | insertStrLeaf tag val, n => n.insertStrLeaf tag val
  | setMetaInt tag val, n => n.setMetaInt tag val
  | removeChildrenByTag tag, n => n.removeChildrenByTag tag

/-- The call on a node; `parent_has_key` says whether it has a parent with a key. -/
def exec (e : NodeEdit) (parent_has_key : Bool) (n : KnvNode) :
    Except KnvError (KnvNode × List Int) :=
  e.call (if e.expands then n.innerExpand parent_has_key false else n)

/-- The node as the parent's index is asked to forget it, if the call does so. -/
def forgets : NodeEdit → KnvNode → Option KnvNode
  | setTag _, n => some n
  | setValueStr s, n => if (n.checkKey s).writesKey then some (n.checkKey s) else none
  | setMetaInt tag _, n => if !n.no_key && tag = 1 then some n else none
  | _, _ => none

end NodeEdit

namespace KnvNode

/-- The tag and the key behind a pointer in the index of `n`, where `c` is one of the nodes. -/
def viewWith (n c : KnvNode) (r : Nat) : UInt32 × List UInt8 :=
  if r = c.ref then (c.tag, c.key.val)
  else match findRef (n.childlist ++ n.metalist) r with
    | some m => (m.tag, m.key.val)
    | none => (0, [])

/-- The parent `n` after a call on the node `c`, which has become `c'`. -/
def reindex (n : KnvNode) (forgets : Option KnvNode) (c' : KnvNode) : KnvNode :=
  match forgets with
  | none => n
  | some c => { n with
      ht := ((n.ht.remove (n.viewWith c) c.ref).getD n.ht).put (n.viewWith c') c'.ref }

end KnvNode

/-- A step down in a tree. -/
inductive Down where
  | toMeta (i : Nat)
  | toChild (i : Nat)
  deriving DecidableEq, Repr

namespace Down

/-- The node it leads to. -/
def below : Down → KnvNode → Option KnvNode
  | toMeta i, n => n.metalist[i]?
  | toChild i, n => n.childlist[i]?

/-- The tree with another node there. -/
def put : Down → KnvNode → KnvNode → KnvNode
  | toMeta i, n, c => { n with metalist := n.metalist.set i c }
  | toChild i, n, c => { n with childlist := n.childlist.set i c }

end Down

/-- Where a node is in a tree. -/
abbrev NodePlace := List Down

/-- A call on the node at a place.  Returns the tree and what is left to hand on to the parents. -/
def editPlace (exec : Bool → KnvNode → Except KnvError (KnvNode × List Int))
    (forgets : KnvNode → Option KnvNode) : Bool → NodePlace → KnvNode →
    Except KnvError (KnvNode × List (Int × Bool))
  | parent_has_key, [], n =>
    (exec parent_has_key n).map fun p => (p.1, p.2.map fun offset => (offset, true))
  | _, d :: place, n =>
    match d.below n with
    | none => .error ⟨0, "no such node"⟩
    | some c => (editPlace exec forgets (n.key.val ≠ []) place c).map fun p =>
      -- only the parent of the edited node has it in its index
      let n := n.reindex (if place = [] then forgets c else none) p.1
      parentRounds (d.put n p.1) p.2

def NodeEdit.editIn (e : NodeEdit) : Bool → NodePlace → KnvNode →
    Except KnvError (KnvNode × List (Int × Bool)) := editPlace e.exec e.forgets

end MysqlProxy
