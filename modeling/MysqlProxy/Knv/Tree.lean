/-
  Trees under construction.

  A builder hangs nodes into nodes and edits any of them.  Sizes are not computed anew: each edit
  PATCHES the sizes of the node and of all the nodes above it (`UpdateParentEvalueAndSetDirty`), where
  every length prefix on the way may itself grow or shrink.

  * `Tree` is what a builder means: leaves, and nodes with a key, metas and children.
    `Tree.field` is the field it is on the wire.
  * `Means n t`: the node `n` is the tree `t` in memory, with all the sizes up to date.
  * `editAt` is an edit of the node at a path, with the patches above it.
  * A node that means a tree is written as the tree's field (`Means.writes`).

  A pointer to a node of the tree is the path to it: the positions of the children on the way.
-/
import MysqlProxy.Knv.Parse

namespace MysqlProxy

namespace KnvNode

/-! ## More edits of a node

Each returns the edited node and the offsets it hands on to the parents, one for each call of
`UpdateParentEvalueAndSetDirty`. -/

/-- `InsertChild` of a node that was made before, at the tail. -/
def insertNode (n c : KnvNode) : Except KnvError (KnvNode × List Int) :=
  if n.tag = 0 then .error ⟨-2, "invalid node"⟩
  else if !n.isString then .error ⟨-3, "leaf cannot have child"⟩
  else
    let (n, offset) := edited ((n.innerExpand false false).hangChild c) (evaluateSize c).1
    .ok (n, [offset])

def insertSubNode (n : KnvNode) (tag : UInt32) (key : Option FieldVal) :
    Except KnvError (KnvNode × List Int) := do
  n.insertNode (← newTree tag key)

def insertIntLeaf (n : KnvNode) (tag : UInt32) (val : UInt64) :
    Except KnvError (KnvNode × List Int) := do
  n.insertNode (← newNode tag none (.varint val))

def insertStrLeaf (n : KnvNode) (tag : UInt32) (val : List UInt8) :
    Except KnvError (KnvNode × List Int) := do
  n.insertNode (← newNode tag none (.string val))

/-- The one call of `UpdateParentEvalueAndSetDirty` at the end. -/
def once (r : Except KnvError (KnvNode × Int)) : Except KnvError (KnvNode × List Int) :=
  r.map fun p => (p.1, [p.2])

def setMetaInt (n : KnvNode) (tag : UInt32) (val : UInt64) : Except KnvError (KnvNode × List Int) :=
  once (n.setMetaOrKey tag (.varint val))

def setMetaStr (n : KnvNode) (tag : UInt32) (val : List UInt8) :
    Except KnvError (KnvNode × List Int) :=
  once (n.setMetaOrKey tag (.string val))

/-- `AddMeta`: the first meta with a tag is set, any other is put behind the metas, and `metas` does
    not know it. -/
def addMeta (n : KnvNode) (tag : UInt32) (val : FieldVal) : Except KnvError (KnvNode × List Int) :=
  match n.getMeta tag with
  | none => once (n.setMetaOrKey tag val)
  | some _ =>
    let n := n.innerExpand false false
    let m := { initNode tag val true 0 true with ref := n.next_ref }
    once (.ok (edited { n with metalist := n.metalist ++ [m], next_ref := n.next_ref + 1 }
      (pbEvalFieldLength tag val)))

def addMetaInt (n : KnvNode) (tag : UInt32) (val : UInt64) : Except KnvError (KnvNode × List Int) :=
  n.addMeta tag (.varint val)

def addMetaStr (n : KnvNode) (tag : UInt32) (val : List UInt8) :
    Except KnvError (KnvNode × List Int) :=
  n.addMeta tag (.string val)

/-- `SetKey` of a root to `NULL`. -/
def clearKey (n : KnvNode) : Except KnvError (KnvNode × Int) := do
  let n := { n with key := KnvKey.none n.key.type }
  let (n, offset) ← (n.innerRemoveMeta 1).mapError ({ · with code := -3 })
  return ({ n with no_key := false }, offset)

/-- `RemoveMetaByTag`: all metas with the tag.  The key (of a root) is removed first. -/
def removeMetaByTag (n : KnvNode) (tag : UInt32) : Except KnvError (KnvNode × List Int) :=
  if n.tag = 0 then .error ⟨-1, "Node is not initialized"⟩
  else if UC_MAX_META_NUM < tag.toNat then .error ⟨-2, "Tag is out of range"⟩
  else do
    let n := n.innerExpand false false
    if n.metalist = [] ∨ n.metas tag.toNat = none then return (n, [])
    let (n, offsets) ← if !n.no_key && tag = 1 then once n.clearKey else .ok (n, [])
    let gone := n.metalist.filter fun m => m.tag = tag
    let (n, offset) := edited { n with
      metalist := n.metalist.filter fun m => m.tag ≠ tag
      metas := fun t => if t = tag.toNat then none else n.metas t } (-(evaluateSizes gone false))
    return (n, offsets ++ [offset])

/-- `RemoveChildrenByTag`: each child with the tag leaves the index and the list. -/
def removeChildrenByTag (n : KnvNode) (tag : UInt32) : Except KnvError (KnvNode × List Int) :=
  if n.tag = 0 then .error ⟨-1, "Tree is invalid"⟩
  else
    let n := n.innerExpand false false
    if n.child_num.getD 0 = 0 then .ok (n, [])
    else
      let gone := n.childlist.filter fun c => c.tag = tag
      if gone = [] then .ok (n, [])
      else
        let ht := gone.foldl (fun ht c => (ht.remove n.childView c.ref).getD ht) n.ht
        let (n, offset) := edited { n with
          ht := ht
          childlist := n.childlist.filter fun c => c.tag ≠ tag
          child_num := n.child_num.map (· - gone.length) } (-(evaluateSizes gone false))
        .ok (n, [offset])

def removeField (n : KnvNode) (tag : UInt32) : Except KnvError (KnvNode × List Int) :=
  if tag.toNat ≤ UC_MAX_META_NUM then n.removeMetaByTag tag else n.removeChildrenByTag tag

/-! ## Edits inside a tree -/

/-- A round of `UpdateParentEvalueAndSetDirty`: the parent `p` gets the offset, if it has been
    evaluated, and is out of date.  A parent that is out of date already ends the marking. -/
def parentRound (p : KnvNode) (offset : Int) (updatedirty : Bool) : KnvNode × Int × Bool :=
  let (p, offset) := if 0 ≤ p.eval_sz then p.updateEvalSz offset else (p, 0)
  if updatedirty then
    if p.subnode_dirty then (p, offset, false) else (p.setValueDirty, offset, true)
  else (p, offset, false)

/-- The rounds for one parent, one for each offset that comes from below. -/
def parentRounds : KnvNode → List (Int × Bool) → KnvNode × List (Int × Bool)
  | p, [] => (p, [])
  | p, (offset, dirty) :: l =>
    let (p, s) := p.parentRound offset dirty
    let (p, l) := parentRounds p l
    (p, s :: l)

/-- Edit the node at a path.  Returns the tree and what is left to hand on to the parents. -/
def editAt (f : KnvNode → Except KnvError (KnvNode × List Int)) :
    List Nat → KnvNode → Except KnvError (KnvNode × List (Int × Bool))
  | [], n => (f n).map fun p => (p.1, p.2.map fun offset => (offset, true))
  | i :: path, n =>
    match n.childlist[i]? with
    | none => .error ⟨0, "no such node"⟩
    | some c => (editAt f path c).map fun p =>
      parentRounds { n with childlist := n.childlist.set i p.1 } p.2

/-- `Serialize` to a string. -/
def serializeString (n : KnvNode) : Except KnvError (List UInt8) :=
  let eval_len := (evaluateSize n).1
  match serialize n eval_len.toNat true with
  | .error e => .error ⟨-2, e.errmsg⟩
  | .ok bytes =>
    if eval_len ≠ bytes.length then .error ⟨-3, "bug: eval size differ from pack size"⟩ else .ok bytes

/-- `KnvNode::New` from bytes: the first field is the node, and its size is what it takes. -/
def newFromData (data : List UInt8) : Except KnvError KnvNode :=
  match pbBegin data with
  | .error _ => .error ⟨-1, "Invalid bin format"⟩
  | .ok (f, rest) => .ok (initNode f.tag f.val true (data.length - rest.length) false)

/-- `InnerDuplicate`.  A node whose value is out of date is written to a new buffer. -/
def innerDuplicate (n : KnvNode) (force_no_key : Bool) : Option KnvNode :=
  if n.isString ∧ n.str = [] ∧ n.child_num ≠ none then
    let (evalsize, eval_val_sz) := evaluateSize n
    match serialize n (allocSize evalsize.toNat) false with
    | .error _ => none
    | .ok bytes =>
      if eval_val_sz ≠ bytes.length then none
      else some (initNode n.tag (.string bytes) true evalsize.toNat force_no_key)
  else some (initNode n.tag n.val true n.eval_sz.toNat force_no_key)

def duplicate (n : KnvNode) : Option KnvNode := if n.tag = 0 then none else n.innerDuplicate false

end KnvNode

/-- `RemoveChildByPos` on a root, for the child with a `ref`. -/
def removeChild (n : KnvNode) (r : Nat) : KnvNode :=
  match KnvNode.findRef n.childlist r with
  | none => n
  | some c =>
    (KnvNode.edited { n with
      ht := (n.ht.remove n.childView r).getD n.ht
      childlist := n.childlist.filter fun x => x.ref ≠ r
      child_num := n.child_num.map (· - 1) } (-(KnvNode.evaluateSize c).1)).1

/-! ## What a builder means -/

/-- A tree: leaves, and nodes with a key, metas and children. -/
inductive Tree where
  | leaf (f : PbField)
  | node (tag : UInt32) (key : Option FieldVal) (metas : List PbField) (children : List Tree)

namespace Tree

/-- The key is the first field. -/
def keyFields : Option FieldVal → List PbField
  | none => []
  | some k => [⟨1, k⟩]

mutual
/-- The field a tree is on the wire. -/
def field : Tree → PbField
  | leaf f => f
  | node tag key metas children =>
    ⟨tag, .string (messageBytes (keyFields key ++ metas ++ fieldList children))⟩

def fieldList : List Tree → List PbField
  | [] => []
  | t :: ts => t.field :: fieldList ts
end

theorem fieldList_eq (ts : List Tree) : fieldList ts = ts.map field := by
  induction ts with
  | nil => rfl
  | cons t ts ih => rw [fieldList, ih, List.map_cons]

def tag : Tree → UInt32
  | leaf f => f.tag
  | node tag _ _ _ => tag

theorem field_tag (t : Tree) : t.field.tag = t.tag := by
  cases t with
  | leaf f => rw [field, tag]
  | node tag key ms ts => rw [field, Tree.tag]

/-- Edit the node at a path.  A leaf has no nodes below it. -/
def editAt (edit : Tree → Option Tree) : List Nat → Tree → Option Tree
  | [], t => edit t
  | _ :: _, leaf _ => none
  | i :: path, node tag key ms ts =>
    ts[i]?.bind fun t => (editAt edit path t).map fun t' => node tag key ms (ts.set i t')

/-- A tree as the last child. -/
def insert (c : Tree) : Tree → Option Tree
  | leaf _ => none
  | node tag key ms ts => some (node tag key ms (ts ++ [c]))

/-- A field as the last meta. -/
def addMeta (f : PbField) : Tree → Option Tree
  | leaf _ => none
  | node tag key ms ts => some (node tag key (ms ++ [f]) ts)

/-- No metas with this tag, or no children with it. -/
def removeField (t : UInt32) : Tree → Option Tree
  | leaf _ => none
  | node tag key ms ts => some (
      if t.toNat ≤ UC_MAX_META_NUM then node tag key (ms.filter fun f => f.tag ≠ t) ts
      else node tag key ms (ts.filter fun c => c.tag ≠ t))

end Tree

namespace KnvNode

/-! ## Nodes that mean a tree -/

/-- A key that is not empty and fits its 16-bit length. -/
def KeyOk : FieldVal → Prop
  | .string s => s ≠ [] ∧ s.length < 2 ^ 16
  | _ => True

theorem leNat_take_leBytes {n v : Nat} (hn : n ≤ 8) (h : v < 256 ^ n) :
    leNat ((leBytes n v).take 8) = v := by
  rw [List.take_of_length_le (by rw [length_leBytes]; exact hn), leNat_leBytes, Nat.mod_eq_of_lt h]

theorem leBytes_succ_ne_nil (n v : Nat) : leBytes (n + 1) v ≠ [] := by
  rw [← List.length_pos_iff, length_leBytes]
  exact Nat.succ_pos n

/-- Such a key is kept as it is. -/
theorem KeyOk.init {k : FieldVal} (h : KeyOk k) :
    (KnvKey.init k).val ≠ [] ∧ (KnvKey.init k).getValue = k := by
  cases k with
  | string s =>
    have hs : KnvKey.init (.string s) = ⟨.string, s⟩ := by
      rw [KnvKey.init, Nat.mod_eq_of_lt h.2, List.take_length]
    rw [hs]
    exact ⟨h.1, rfl⟩
  | varint i =>
    refine ⟨leBytes_succ_ne_nil 7 _, ?_⟩
    show FieldVal.varint (UInt64.ofNat (leNat ((leBytes 8 i.toNat).take 8))) = _
    rw [leNat_take_leBytes (Nat.le_refl 8) i.toNat_lt, UInt64.ofNat_toNat]
  | fixed64 i =>
    refine ⟨leBytes_succ_ne_nil 7 _, ?_⟩
    show FieldVal.fixed64 (UInt64.ofNat (leNat ((leBytes 8 i.toNat).take 8))) = _
    rw [leNat_take_leBytes (Nat.le_refl 8) i.toNat_lt, UInt64.ofNat_toNat]
  | fixed32 i =>
    refine ⟨leBytes_succ_ne_nil 3 _, ?_⟩
    show FieldVal.fixed32 (UInt32.ofNat (leNat ((leBytes 4 i.toNat).take 8))) = _
    rw [leNat_take_leBytes (by decide) i.toNat_lt, UInt32.ofNat_toNat]

/-- The member `key`. -/
def keyOf : Option FieldVal → KnvKey
  | none => KnvKey.none .string
  | some k => KnvKey.init k

/-- A flat node without lists. -/
structure Leaf (n : KnvNode) (f : PbField) : Prop extends Stands n f where
  tag_ne : f.tag ≠ 0
  metalist : n.metalist = []
  childlist : n.childlist = []

/-- `metas` knows a meta with each tag that there is, and nothing else. -/
structure MetasOk (n : KnvNode) : Prop where
  known : n.metalist ≠ [] → ∀ t r, n.metas t = some r →
    ∃ m ∈ n.metalist, m.ref = r ∧ m.tag.toNat = t
  complete : n.metalist ≠ [] → ∀ t, n.metas t = none → ∀ m ∈ n.metalist, m.tag.toNat ≠ t

/-- A node that is expanded to the key, the metas `ms`, and as many children as `cs`. -/
structure Branch (n : KnvNode) (t : UInt32) (k : Option FieldVal) (ms cs : List PbField) : Prop where
  tag : n.tag = t
  tag_ne : t ≠ 0
  no_key : n.no_key = false
  child_num : n.child_num = some cs.length
  key : n.key = keyOf k
  key_ok : ∀ v, k = some v → KeyOk v
  metalist : List.Forall₂ Leaf n.metalist (Tree.keyFields k ++ ms)
  metas : MetasOk n

/-- Its sizes are right, if the children are written as `cs`. -/
structure Trunk (n : KnvNode) (t : UInt32) (k : Option FieldVal) (ms cs : List PbField) : Prop
    extends Branch n t k ms cs where
  val : n.val = .string []
  val_sz : n.eval_val_sz = (messageBytes (Tree.keyFields k ++ ms ++ cs)).length
  sz : n.eval_sz = pbEvalStringLength t (messageBytes (Tree.keyFields k ++ ms ++ cs)).length

/-- The node `n` is the tree `t` in memory. -/
inductive Means : KnvNode → Tree → Prop
  | leaf {n : KnvNode} {f : PbField} : Leaf n f → Means n (.leaf f)
  | node {n : KnvNode} {tag : UInt32} {key : Option FieldVal} {ms : List PbField} {ts : List Tree} :
    Trunk n tag key ms (ts.map Tree.field) → n.childlist.length = ts.length →
    (∀ i (h : i < n.childlist.length) (h' : i < ts.length),
      Means (n.childlist.get ⟨i, h⟩) (ts.get ⟨i, h'⟩)) →
    Means n (.node tag key ms ts)

theorem means_node {n : KnvNode} {tag : UInt32} {key : Option FieldVal} {ms : List PbField}
    {ts : List Tree} : Means n (.node tag key ms ts) ↔
      Trunk n tag key ms (ts.map Tree.field) ∧ List.Forall₂ Means n.childlist ts := by
  constructor
  · intro h
    cases h with
    | node ht hlen hall => exact ⟨ht, List.forall₂_iff_get.mpr ⟨hlen, hall⟩⟩
  · rintro ⟨ht, hall⟩
    obtain ⟨hlen, hall⟩ := List.forall₂_iff_get.mp hall
    exact .node ht hlen hall

section Trunk

variable {n : KnvNode} {tag : UInt32} {key : Option FieldVal} {ms cs : List PbField}

theorem Trunk.isString (h : Trunk n tag key ms cs) : n.isString = true := by
  unfold KnvNode.isString
  rw [h.val]
  rfl

theorem Trunk.innerExpand (h : Trunk n tag key ms cs) (p k : Bool) : n.innerExpand p k = n :=
  innerExpand_expanded (by rw [h.child_num]; exact fun he => nomatch he) p k

theorem Trunk.evaluateSize (h : Trunk n tag key ms cs) :
    evaluateSize n = (n.eval_sz, n.eval_val_sz) :=
  evaluateSize_cached (by rw [h.sz]; omega)

/-- The key is written from the member, and it is the first meta. -/
theorem Trunk.keyFirst (h : Trunk n tag key ms cs) : KeyFirst n (Tree.keyFields key ++ ms) := by
  intro hw
  rw [writesKey, Bool.and_eq_true] at hw
  have hne : n.key.val ≠ [] := of_decide_eq_true hw.2
  rw [h.key] at hne ⊢
  cases key with
  | none => exact absurd rfl hne
  | some k => exact ⟨⟨1, k⟩, ms, rfl, rfl, (h.key_ok k rfl).init.2.symm⟩

theorem Trunk.metalist_writes (h : Trunk n tag key ms cs) :
    List.Forall₂ Writes n.metalist (Tree.keyFields key ++ ms) :=
  h.metalist.imp fun _ _ hl => hl.toStands.writes hl.tag_ne

/-- Without any field the node is flat, and otherwise it is not folded. -/
theorem Trunk.isFolded (h : Trunk n tag key ms cs) :
    n.isFolded = decide (Tree.keyFields key ++ ms ++ cs = []) := by
  have hstr : n.str = [] := by
    unfold KnvNode.str
    rw [h.val]
    rfl
  have hflat : n.isFlat = decide (Tree.keyFields key ++ ms ++ cs = []) := by
    unfold isFlat
    rw [h.isString, h.child_num]
    have hempty : n.metalist.isEmpty = decide (Tree.keyFields key ++ ms = []) := by
      rw [Bool.eq_iff_iff, decide_eq_true_iff, List.isEmpty_iff, ← List.length_eq_zero_iff,
        ← List.length_eq_zero_iff, h.metalist.length_eq]
    rw [hempty]
    cases cs with
    | nil => simp
    | cons c cs => simp
  unfold KnvNode.isFolded
  rw [hflat, hstr]
  simp

/-- **A node whose children are written as `cs` is written as its field.** -/
theorem Trunk.writes (h : Trunk n tag key ms cs) (hc : List.Forall₂ Writes n.childlist cs) :
    Writes n ⟨tag, .string (messageBytes (Tree.keyFields key ++ ms ++ cs))⟩ := by
  have hn0 : n.tag ≠ 0 := by rw [h.tag]; exact h.tag_ne
  have hsz : KnvNode.evaluateSize n =
      (((⟨n.tag, .string (messageBytes (Tree.keyFields key ++ ms ++ cs))⟩ : PbField).size : Int),
        ((messageBytes (Tree.keyFields key ++ ms ++ cs)).length : Int)) := by
    rw [h.evaluateSize, h.sz, h.val_sz, h.tag]
    rfl
  by_cases hempty : Tree.keyFields key ++ ms ++ cs = []
  · have hfold : n.isFolded = true := by rw [h.isFolded]; exact decide_eq_true hempty
    refine ⟨⟨h.tag, ?_⟩, by rw [hsz, h.tag]⟩
    intro len hlen
    have hroom : (fieldBytes tag (.string [])).length ≤ (PbBuff.mk [] len).left := by
      rw [length_fieldBytes]
      rw [hempty] at hlen
      exact hlen
    have hv := h.val
    have ht := h.tag
    obtain ⟨d, ms', cs'⟩ := n
    have hv' : d.val = .string [] := hv
    have ht' : d.tag = tag := ht
    rw [KnvNode.serialize, hempty]
    simp only [hfold, ht', hv', h.tag_ne, if_true, if_false, pure_bind]
    rw [pbAddFieldVal_eq hroom]
    rfl
  · have hfold : n.isFolded = false := by rw [h.isFolded]; exact decide_eq_false hempty
    have hw := (serialize_node hn0 hfold (puts_of_writes h.metalist_writes) (puts_of_writes hc)
      h.keyFirst hsz).2
    rw [h.tag] at hw
    exact ⟨⟨h.tag, hw⟩, by rw [hsz, h.tag]⟩

end Trunk

/-- **What means a tree is written as the tree's field.** -/
theorem Means.writes {n : KnvNode} {t : Tree} (h : Means n t) : Writes n t.field := by
  induction h with
  | leaf hl =>
    rw [Tree.field]
    exact hl.toStands.writes hl.tag_ne
  | @node n tag key ms ts ht hlen _ ih =>
    have hc : List.Forall₂ Writes n.childlist (ts.map Tree.field) := by
      rw [List.forall₂_map_right_iff]
      exact List.forall₂_iff_get.mpr ⟨hlen, ih⟩
    rw [Tree.field, Tree.fieldList_eq]
    exact ht.writes hc

theorem Means.tag {n : KnvNode} {t : Tree} (h : Means n t) : n.tag = t.tag := by
  rw [h.writes.tag, Tree.field_tag]

end KnvNode

end MysqlProxy
