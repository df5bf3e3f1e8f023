/-
  Requests for a part of a tree (`GetSubTree`, `MakeRequestTree`).

  A REQUEST is a tree of its own.  It is laid over the data tree from the root:

  * a request without children takes the WHOLE node (an integer 0 takes nothing),
  * otherwise each child of the request is matched with children of the data: with a key, the one child
    with this tag and this key; without a key, ALL children with this tag,
  * metas are taken by integers that are not 0.

  `out` is what is there, `empty` what was asked for in vain.

  The data is expanded on the way, and HOW depends on the request: if no child of the request has a key
  then the children of the data do not get theirs (`force_no_key`).  A node that is expanded stays so.

  Modelling choices.
  * A request is expanded; the source expands it on the way, always with the keys.
  * A call returns the data tree it leaves.
  * A pointer in `metas` that leads to no meta of the node leads to a released one, which has no value.
-/
import MysqlProxy.Knv.Index

namespace MysqlProxy

/-- The rest of the chain from the first match on, as `ht_next` leads through it. -/
def KnvHt.chain {α : Type} (view : α → UInt32 × List UInt8) (h : KnvHt α) (tag : UInt32)
    (k : List UInt8) : List α :=
  let i := getKeyhash tag k h.sz
  if h.bm i then (h.ht i).dropWhile fun c => view c ≠ (tag, k) else []

namespace KnvNode

/-! ## Small pieces -/

def findChild (n : KnvNode) (t : UInt32) (k : List UInt8) : Option KnvNode :=
  if n.tag = 0 then none
  else
    let n := n.innerExpand false false
    if n.child_num.getD 0 = 0 then none else (n.ht.get n.childView t k).bind (findRef n.childlist)

/-- `SetMeta` without `update_parent`: the size of the value changes, and nothing is marked. -/
def setMetaQuiet (n : KnvNode) (tag : UInt32) (val : FieldVal) : Except KnvError KnvNode :=
  if n.tag = 0 then .error ⟨-1, "Node is not initialized"⟩
  else if !n.isString then .error ⟨-2, "Meta not supported for non-message"⟩
  else if UC_MAX_META_NUM < tag.toNat then .error ⟨-3, "Tag is out of range"⟩
  else
    let n := n.innerExpand false false
    match n.getMeta tag with
    | none =>
      let m := initNode tag val true 0 true
      .ok { n.hangMeta m (tag = 1) with eval_val_sz := n.eval_val_sz + m.eval_sz }
    | some m =>
      let old_sz := (evaluateSize m).1
      let m := { m with
        val := val
        eval_val_sz := val.str.length
        eval_sz := pbEvalFieldLength tag val }
      let m := if m.child_num = none then m
        else m.initChildList (if !n.no_key && tag = 1 then some 0 else none)
      .ok { n with
        metalist := replaceRef m n.metalist
        eval_val_sz := n.eval_val_sz + (m.eval_sz - old_sz) }

/-- `DupEmptyNode`: the tag and the key. -/
def dupEmptyNode (n : KnvNode) : KnvNode :=
  { initNode n.tag (FieldVal.zero n.val.type) false 0 false with
    key := n.key
    eval_val_sz := if n.key.val ≠ [] then pbEvalFieldLength 1 n.key.getValue else 0 }

/-- `InnerInsertChild` without `update_parent`. -/
def insertQuiet (n c : KnvNode) : KnvNode :=
  { n.hangChild c with eval_val_sz := n.eval_val_sz + (evaluateSize c).1 }

/-- A copy that keeps the key without handling it. -/
def copyWithKey (n : KnvNode) : Option KnvNode :=
  (n.innerDuplicate true).map fun c =>
    if n.key.val ≠ [] then { c with key := ⟨c.key.type, n.key.val⟩ } else c

/-- The size of a tree that was built without `update_parent`. -/
def closed (n : KnvNode) : KnvNode :=
  { n with eval_sz := pbEvalStringLength n.tag n.eval_val_sz.toNat }

/-- The children that a sub-request is matched with, in the order of the loops. -/
def matchRefs (n sub_req : KnvNode) : List Nat :=
  if sub_req.key.val ≠ [] then (n.ht.get n.childView sub_req.tag sub_req.key.val).toList
  else if !n.child_has_key then
    (n.ht.chain n.childView sub_req.tag []).filter fun r => (n.childView r).1 = sub_req.tag
  else (n.childlist.filter fun c => c.tag = sub_req.tag).map fun c => c.ref

/-! ## `GetSubTree` -/

/-- The data and the two trees in the making. -/
structure Found where
  data : KnvNode
  out : Option KnvNode
  empty : Option KnvNode

/-- What a call returns: the data it leaves, and `out` and `empty` or its failure. -/
abbrev SubTrees : Type := KnvNode × Except Int (Option KnvNode × Option KnvNode)

/-- A meta `m` of the request. -/
def requestMeta (data : KnvNode) (out : Option KnvNode) (m : KnvNode) : Except Int (Option KnvNode) :=
  if m.tag ≠ 1 ∧ m.val.type = .varint ∧ m.getIntVal ≠ 0 then
    match data.metas m.tag.toNat with
    | none => .ok out
    | some r =>
      let out := out.getD data.dupEmptyNode
      match (findRef data.metalist r).map fold with
      | some (.ok l) => .ok (some ((out.setMetaQuiet l.tag l.val).toOption.getD out))
      | _ => .error (-4)
  else .ok out

/-- A tree that was found goes into `out` or `empty`, which is made from `from_` if there is none. -/
def collected (from_ : KnvNode) (tree o : Option KnvNode) : Option KnvNode :=
  match o with
  | none => tree
  | some o => some ((tree.getD from_.dupEmptyNode).insertQuiet o)

/-- `GET_SUBDATA_SUB_TREE` for the child with a `ref`. -/
def visit (no_empty : Bool) (req_tree : KnvNode) (get : KnvNode → SubTrees) (st : Found) (r : Nat) :
    Except (Int × KnvNode) Found :=
  match findRef st.data.childlist r with
  | none => .ok st
  | some sub_data =>
    let (sub_data, res) := get sub_data
    let data := { st.data with childlist := replaceRef sub_data st.data.childlist }
    match res with
    | .error _ => .error (-2, data)
    | .ok (o, e) => .ok {
        data := data
        out := collected st.data st.out o
        empty := if no_empty then st.empty else collected req_tree st.empty e }

/-- A sub-request that nothing was matched with. -/
def missed (no_empty : Bool) (req_tree sub_req : KnvNode) (st : Found) : Except (Int × KnvNode) Found :=
  if no_empty then .ok st
  else match sub_req.innerDuplicate true with
    | none => .error (-1, st.data)
    | some c => .ok { st with empty := some ((st.empty.getD req_tree.dupEmptyNode).insertQuiet c) }

mutual
/-- `InnerGetSubTree`; `p` says whether the data has a parent with a key. -/
def innerGetSubTree (no_empty : Bool) : KnvNode → Bool → KnvNode → SubTrees
  | ⟨d, metalist, childlist⟩, p, data =>
    let req_tree : KnvNode := ⟨d, metalist, childlist⟩
    if !req_tree.isString && req_tree.getIntVal = 0 then (data, .ok (none, none))
    else if d.child_num.getD 0 = 0 then
      match data.copyWithKey with
      | none => (data, .error (-2))
      | some out => (data, .ok (some out, none))
    else
      let data := data.innerExpand p (!d.child_has_key)
      if data.child_num.getD 0 = 0 then
        if no_empty then (data, .ok (none, none))
        else match req_tree.copyWithKey with
          | none => (data, .error (-3))
          | some empty => (data, .ok (none, some empty))
      else
        match metalist.foldlM (requestMeta data) none with
        | .error code => (data, .error code)
        | .ok out =>
          match subRequests no_empty req_tree childlist ⟨data, out, none⟩ with
          | .error (code, data) => (data, .error code)
          | .ok st => (st.data, .ok (st.out.map closed, st.empty.map closed))

/-- The loop over the children of the request. -/
def subRequests (no_empty : Bool) (req_tree : KnvNode) : List KnvNode → Found →
    Except (Int × KnvNode) Found
  | [], st => .ok st
  | sub_req :: l, st =>
    let refs := st.data.matchRefs sub_req
    let p : Bool := st.data.key.val ≠ []
    match (if refs = [] then missed no_empty req_tree sub_req st
      else refs.foldlM (visit no_empty req_tree (innerGetSubTree no_empty sub_req p)) st) with
    | .error e => .error e
    | .ok st => subRequests no_empty req_tree l st
end

/-- `GetSubTree` of a root. -/
def getSubTree (data req_tree : KnvNode) (no_empty : Bool) : SubTrees :=
  if req_tree.tag = 0 then (data, .error (-1))
  else if data.tag ≠ req_tree.tag ∨ (req_tree.key.val ≠ [] ∧ data.key ≠ req_tree.key) then
    (data, .ok (none, none))
  else innerGetSubTree no_empty req_tree false data

end KnvNode

end MysqlProxy
