/-
  KNV nodes and trees (`knv/knv_node.h`, `knv/knv_node.cc`).

  A node is a field of a message.  If it is a string, it may hold a message itself: EXPANDED, its
  fields are nodes in two lists, the metas (tags 1 to 10) and the children (tags from 11 on).  The
  first field is the node's KEY if its tag is 1.

  * `initNode`, `newNode`, `newTree`, `newFromMessage` make nodes; `innerExpand` parses a value.
  * `setMeta`, `setKey`, `insertChild` edit a node.  Each returns the edited node together with the
    OFFSET by which its evaluated size has changed, which is what the source hands on to the parents.
  * `serialize` writes a node, `evaluateSize` says how long that will be.

  Modelling choices.
  * A pointer to a meta or a child is its `ref`, a number no other node of the same parent has had.
    `metas` and the hash index hold such pointers.
  * The reads expand a node on the way.  The source keeps the expanded lists; here a read computes
    them each time, which is the same because an expanded node is not expanded again.
  * A value is its bytes: which of the nodes owns the buffer they are in is not modelled.
  * Memory never runs out, and a node from the object pool is a newly constructed one.
-/
import MysqlProxy.Knv.Pb
import MysqlProxy.Knv.KnvHt

namespace MysqlProxy

def UC_MAX_META_NUM : Nat := 10

/-- A failed call: what it returns, and the text in `errmsg`. -/
structure KnvError where
  code : Int
  errmsg : String
  deriving DecidableEq, Repr

/-- A key: its type, its length and its bytes. -/
structure KnvKey where
  type : WireType
  val : List UInt8
  deriving DecidableEq, Repr

namespace KnvKey

/-- `knv_key_t::init` without a value. -/
def none (ktype : WireType) : KnvKey := ⟨ktype, []⟩

/-- `knv_key_t::init` with a value.  `len` is 16 bits wide. -/
def init : FieldVal → KnvKey
  | .string str => ⟨.string, str.take (str.length % 2 ^ 16)⟩
  | .fixed32 i32 => ⟨.fixed32, leBytes 4 i32.toNat⟩
  | .varint i64 => ⟨.varint, leBytes 8 i64.toNat⟩
  | .fixed64 i64 => ⟨.fixed64, leBytes 8 i64.toNat⟩

/-- `knv_key_t::GetValue`. -/
def getValue (k : KnvKey) : FieldVal :=
  match k.type with
  | .string => .string k.val
  | .fixed32 => .fixed32 (UInt32.ofNat (leNat (k.val.take 8)))
  | .varint => .varint (UInt64.ofNat (leNat (k.val.take 8)))
  | .fixed64 => .fixed64 (UInt64.ofNat (leNat (k.val.take 8)))

end KnvKey

/-- The members of a node apart from its lists. -/
structure NodeData where
  /-- What a pointer to this node holds. -/
  ref : Nat
  tag : UInt32
  val : FieldVal
  key : KnvKey
  /-- `none` is `-1`: not expanded. -/
  child_num : Option Nat
  ht : KnvHt Nat
  metas : Nat → Option Nat
  subnode_dirty : Bool
  child_has_key : Bool
  no_key : Bool
  eval_sz : Int
  eval_val_sz : Int
  /-- The `ref` of the next node that is hung into this one. -/
  next_ref : Nat

/-- A node with its metas and its children. -/
structure KnvNode extends NodeData where
  metalist : List KnvNode
  childlist : List KnvNode

namespace KnvNode

def isString (n : KnvNode) : Bool := n.val.type = .string

/-- `val.str`, for a string. -/
def str (n : KnvNode) : List UInt8 := n.val.str

/-! ## Making nodes -/

/-- What `InitNode` finds at the start of a string value: the key, and whether there is a field. -/
def keyOfValue (s : List UInt8) : KnvKey × Bool :=
  match pbBegin s with
  | .ok (f, _) => (if f.tag = 1 then KnvKey.init f.val else KnvKey.none .string, true)
  | .error _ => (KnvKey.none .string, false)

/-- `InitNode` on a new object.  A `NULL` value is the zero value of the type. -/
def initNode (tag : UInt32) (val : FieldVal) (update_eval : Bool) (field_sz : Nat)
    (force_no_key : Bool) : KnvNode :=
  let s := val.str
  let (key, ch_nr) : KnvKey × Option Nat :=
    if update_eval then
      if s ≠ [] then
        if force_no_key then (KnvKey.none .string, none)
        else ((keyOfValue s).1, if (keyOfValue s).2 then none else some 0)
      else (KnvKey.none .string, some 0)
    else (KnvKey.none .string, some 0)
  { ref := 0
    tag := tag
    val := val
    key := key
    child_num := ch_nr
    ht := KnvHt.clear
    metas := fun _ => none
    subnode_dirty := false
    child_has_key := false
    no_key := force_no_key || val.type ≠ .string
    eval_sz := if update_eval then
        (if 0 < field_sz then field_sz else pbEvalFieldLength tag val) else 0
    eval_val_sz := if update_eval then s.length else 0
    next_ref := 0
    metalist := []
    childlist := [] }

/-! ## Expanding -/

/-- The tag and the key behind a pointer into the child list. -/
def childView (n : KnvNode) (r : Nat) : UInt32 × List UInt8 :=
  match n.childlist.find? fun c => c.ref = r with
  | some c => (c.tag, c.key.val)
  | none => (0, [])

/-- Hang a new meta into the list, at the front or at the end, and into `metas`. -/
def hangMeta (n m : KnvNode) (front : Bool) : KnvNode :=
  let m := { m with ref := n.next_ref }
  { n with
    metalist := if front then m :: n.metalist else n.metalist ++ [m]
    metas := fun t => if t = m.tag.toNat then some m.ref
      -- `metas` is cleared when the first meta comes
      else if n.metalist = [] then none else n.metas t
    next_ref := n.next_ref + 1 }

/-- Hang a new child into the list, at the end, and into the index. -/
def hangChild (n c : KnvNode) : KnvNode :=
  let c := { c with ref := n.next_ref }
  let n := { n with
    childlist := n.childlist ++ [c]
    child_has_key := n.child_has_key || c.key.val ≠ []
    child_num := n.child_num.map (· + 1)
    next_ref := n.next_ref + 1 }
  { n with ht := n.ht.put n.childView c.ref }

/-- A round of `InnerExpand`: a field becomes a meta or a child.  Metas always have no key. -/
def expandField (force_no_key : Bool) (n : KnvNode) (f : PbField × Nat) : KnvNode :=
  if f.1.tag.toNat ≤ UC_MAX_META_NUM then n.hangMeta (initNode f.1.tag f.1.val true f.2 true) false
  else n.hangChild (initNode f.1.tag f.1.val true f.2 force_no_key)

/-- `InitChildList`. -/
def initChildList (n : KnvNode) (childnum : Option Nat) : KnvNode :=
  { n with child_num := childnum, childlist := [], metalist := [] }

/-- `InnerExpand` of a node; `parent_has_key` says whether it has a parent with a key. -/
def innerExpand (n : KnvNode) (parent_has_key force_no_key : Bool) : KnvNode :=
  if n.child_num ≠ none then n
  else
    let n := { n.initChildList (some 0) with child_has_key := false }
    if !n.isString then n
    -- the key of the parent is not expanded
    else if n.tag = 1 ∧ parent_has_key then n
    else
      match pbFields n.str with
      | none => n
      | some (fields, eom) =>
        let n := { fields.foldl (expandField force_no_key) n with subnode_dirty := false }
        if eom then n else n.initChildList (some 0)

/-- `Expand` of a root. -/
def expand (n : KnvNode) : Except KnvError KnvNode :=
  if n.tag = 0 then .error ⟨-1, "node data is invalid"⟩ else .ok (n.innerExpand false false)

/-- The node with a given `ref`. -/
def findRef (l : List KnvNode) (r : Nat) : Option KnvNode := l.find? fun m => m.ref = r

def getMeta (n : KnvNode) (tag : UInt32) : Option KnvNode :=
  if n.tag = 0 ∨ UC_MAX_META_NUM < tag.toNat then none
  else
    let n := n.innerExpand false false
    if n.metalist = [] then none else (n.metas tag.toNat).bind (findRef n.metalist)

def findChildByTag (n : KnvNode) (tag : UInt32) : Option KnvNode :=
  if n.tag = 0 then none
  else
    let n := n.innerExpand false false
    if n.child_num.getD 0 = 0 then none
    else if n.child_has_key then n.childlist.find? fun c => c.tag = tag
    else (n.ht.get n.childView tag []).bind (findRef n.childlist)

/-! ## Sizes and serialization -/

/-- Nothing below this node: it is no string, not expanded, or expanded to nothing. -/
def isFlat (n : KnvNode) : Bool :=
  !n.isString || n.child_num = none || (n.child_num = some 0 && n.metalist.isEmpty)

/-- The value is up to date: the node is flat, or has been folded and not written to since. -/
def isFolded (n : KnvNode) : Bool := n.isFlat || (n.str ≠ [] && !n.subnode_dirty)

/-- The key is written from the member `key`. -/
def writesKey (n : KnvNode) : Bool := !n.no_key && n.key.val ≠ []

/-- The first meta is the key. -/
def firstIsKey : List KnvNode → Bool
  | [] => false
  | m :: _ => m.tag = 1

/-- The key is written from the member, so that the meta is left out. -/
def skipsFirst (n : KnvNode) : Bool := n.writesKey && firstIsKey n.metalist

mutual
/-- `EvaluateSize`: the value it returns, which is `eval_sz`, and `eval_val_sz`. -/
def evaluateSize : KnvNode → Int × Int
  | ⟨d, metalist, childlist⟩ =>
    let n : KnvNode := ⟨d, metalist, childlist⟩
    if 0 ≤ d.eval_sz then (d.eval_sz, d.eval_val_sz)
    else if n.isFolded then (pbEvalFieldLength d.tag d.val, n.str.length)
    else
      let key := if n.writesKey then (pbEvalFieldLength 1 d.key.getValue : Int) else 0
      let val_sz := key + evaluateSizes metalist n.skipsFirst + evaluateSizes childlist false
      (pbEvalStringLength d.tag val_sz.toNat, val_sz)

/-- The sum over a list.  `skip` leaves the first node out. -/
def evaluateSizes : List KnvNode → Bool → Int
  | [], _ => 0
  | n :: l, skip => if skip then evaluateSizes l false else (evaluateSize n).1 + evaluateSizes l false
end

/-- A write into the buffer `b`, with the failure code of the calling function. -/
def written (r : Except Int PbBuff) (code : Int) : Except KnvError PbBuff :=
  r.mapError fun _ => ⟨code, "buf overflow"⟩

/-- The key is placed first. -/
def writeKey (n : KnvNode) (b : PbBuff) : Except KnvError PbBuff :=
  if n.writesKey then written (pbAddFieldVal b 1 n.key.getValue) (-7) else .ok b

mutual
/-- `Serialize` into a buffer of `len` bytes: the bytes it writes, or its failure. -/
def serialize : KnvNode → Nat → Bool → Except KnvError (List UInt8)
  | ⟨d, metalist, childlist⟩, len, with_header => do
    let n : KnvNode := ⟨d, metalist, childlist⟩
    if d.tag = 0 then throw ⟨-1, "node is invalid"⟩
    let b : PbBuff := ⟨[], len⟩
    if n.isFolded then
      if with_header then return (← written (pbAddFieldVal b d.tag d.val) (-3)).out
      else match d.val with
        | .string s =>
          -- a buffer that is just large enough is refused
          if s.length < len then return s
          else throw ⟨-4, "not enoug space for value"⟩
        | _ => throw ⟨-5, "not support serializing value for non-message"⟩
    else
      let (evalsize, eval_val_sz) := evaluateSize n
      let b ← if with_header then written (pbAddStringHead b d.tag eval_val_sz.toNat) (-6) else pure b
      let b ← n.writeKey b
      let out ← serializeList metalist n.skipsFirst b.out len (-8)
      let out ← serializeList childlist false out len (-9)
      if (out.length : Int) ≠ (if with_header then evalsize else eval_val_sz) then
        throw ⟨-10, "Bug: eval size incorrect"⟩
      return out

/-- The loops over the metas and over the children: append each node, with its header, to what is
    already in the buffer.  `skip` leaves the first one out. -/
def serializeList : List KnvNode → Bool → List UInt8 → Nat → Int → Except KnvError (List UInt8)
  | [], _, out, _, _ => pure out
  | n :: l, skip, out, len, code =>
    if skip then serializeList l false out len code
    else match serialize n (len - out.length) true with
      | .error e => .error ⟨code, e.errmsg⟩
      | .ok bytes => serializeList l false (out ++ bytes) len code
end

/-- The size `UcMemManager::Alloc` hands out: the smallest pool that is large enough, found by
    bisection, or exactly what was asked for beyond the largest one. -/
def allocSize (sz : Nat) : Nat :=
  ([64, 256, 1024, 4096, 16384, 65536, 262144, 1048576, 4194304].find? (sz ≤ ·)).getD sz

theorem le_allocSize (sz : Nat) : sz ≤ allocSize sz := by
  unfold allocSize
  cases h : [64, 256, 1024, 4096, 16384, 65536, 262144, 1048576, 4194304].find? (sz ≤ ·) with
  | none => exact Nat.le_refl sz
  | some k => exact of_decide_eq_true (List.find?_some (p := fun x => decide (sz ≤ x)) h)

/-- `Fold`: the fields are written to a new buffer, which becomes the value. -/
def fold (n : KnvNode) : Except KnvError KnvNode :=
  if n.tag = 0 then .error ⟨-1, "node is invalid"⟩
  else if n.isFolded then .ok n
  else
    let (evalsize, eval_val_sz) := evaluateSize n
    match serialize n (allocSize evalsize.toNat) false with
    | .error e => .error ⟨-e.code - 100, e.errmsg⟩
    | .ok bytes =>
      if eval_val_sz ≠ bytes.length then .error ⟨-4, "bug: eval size differ from pack size"⟩
      else .ok { n.initChildList none with val := .string bytes, subnode_dirty := false }

/-- `GetIntVal`: 0 for a string. -/
def getIntVal (n : KnvNode) : UInt64 :=
  match n.val with
  | .varint i64 => i64
  | .fixed64 i64 => i64
  | .fixed32 i32 => i32.toUInt64
  | .string _ => 0

/-- `GetStrVal`: empty for an integer, or when the node cannot be folded. -/
def getStrVal (n : KnvNode) : List UInt8 :=
  match n.fold with
  | .error _ => []
  | .ok n => n.str

def getFieldInt (n : KnvNode) (tag : UInt32) : UInt64 :=
  let field := if tag.toNat ≤ UC_MAX_META_NUM then n.getMeta tag else n.findChildByTag tag
  (field.map getIntVal).getD 0

def getFieldStr (n : KnvNode) (tag : UInt32) : List UInt8 :=
  let field := if tag.toNat ≤ UC_MAX_META_NUM then n.getMeta tag else n.findChildByTag tag
  (field.map getStrVal).getD []

/-! ## Editing -/

/-- `UPDATE_EVAL_SZ`: the value grows by `offset`; returns by how much the whole field grows. -/
def updateEvalSz (n : KnvNode) (offset : Int) : KnvNode × Int :=
  if offset = 0 then (n, 0)
  else
    let val_sz := n.eval_val_sz + offset
    let sz : Int := pbEvalStringLength n.tag val_sz.toNat
    ({ n with eval_val_sz := val_sz, eval_sz := sz }, sz - n.eval_sz)

/-- `SET_VALUE_DIRTY`. -/
def setValueDirty (n : KnvNode) : KnvNode := { n with val := .string [], subnode_dirty := true }

/-- The end of every edit: the evaluated size changes by `offset`, if there is one, and the value is
    out of date. -/
def edited (n : KnvNode) (offset : Int) : KnvNode × Int :=
  let (n, offset) := if 0 ≤ n.eval_sz then n.updateEvalSz offset else (n, 0)
  (n.setValueDirty, offset)

/-- The list with the node `m` in place of the one with its `ref`. -/
def replaceRef (m : KnvNode) (l : List KnvNode) : List KnvNode :=
  l.map fun x => if x.ref = m.ref then m else x

/-- `SetMeta` with `update_parent`. -/
def setMeta (n : KnvNode) (tag : UInt32) (val : FieldVal) : Except KnvError (KnvNode × Int) :=
  if n.tag = 0 then .error ⟨-1, "Node is not initialized"⟩
  else if !n.isString then .error ⟨-2, "Meta not supported for non-message"⟩
  else if UC_MAX_META_NUM < tag.toNat then .error ⟨-3, "Tag is out of range"⟩
  else
    let n := n.innerExpand false false
    match n.getMeta tag with
    | none =>
      let m := initNode tag val true 0 true
      -- a key goes to the first position
      .ok (edited (n.hangMeta m (tag = 1)) m.eval_sz)
    | some m =>
      let old_sz := (evaluateSize m).1
      let m := { m with
        val := val
        eval_val_sz := val.str.length
        eval_sz := pbEvalFieldLength tag val }
      let m := if m.child_num = none then m
        else m.initChildList (if !n.no_key && tag = 1 then some 0 else none)
      .ok (edited { n with metalist := replaceRef m n.metalist } (m.eval_sz - old_sz))

def innerRemoveMeta (n : KnvNode) (tag : UInt32) : Except KnvError (KnvNode × Int) :=
  if n.tag = 0 then .error ⟨-1, "Node is not initialized"⟩
  else if UC_MAX_META_NUM < tag.toNat then .error ⟨-2, "Tag is out of range"⟩
  else
    let n := n.innerExpand false false
    match if n.metalist = [] then none else n.getMeta tag with
    | none => .ok (n, 0)
    | some m =>
      .ok (edited { n with
        metalist := n.metalist.filter fun x => x.ref ≠ m.ref
        metas := fun t => if t = tag.toNat then none else n.metas t } (-(evaluateSize m).1))

/-- `SetKey` of a root. -/
def setKey (n : KnvNode) (key : FieldVal) : Except KnvError (KnvNode × Int) := do
  let n := { n with key := KnvKey.init key }
  let (n, offset) ← if n.key.val ≠ [] then (n.setMeta 1 n.key.getValue).mapError ({ · with code := -2 })
    else (n.innerRemoveMeta 1).mapError ({ · with code := -3 })
  return ({ n with no_key := false }, offset)

/-- `SetMeta(tag, type, data)`: the key is special. -/
def setMetaOrKey (n : KnvNode) (tag : UInt32) (val : FieldVal) : Except KnvError (KnvNode × Int) :=
  if !n.no_key && tag = 1 then n.setKey val else n.setMeta tag val

/-- `KnvNode::New` from tag, key and value. -/
def newNode (tag : UInt32) (key : Option FieldVal) (val : FieldVal) : Except KnvError KnvNode := do
  if tag = 0 then throw ⟨-1, "Invalid tag argument"⟩
  let n := initNode tag val true 0 false
  match key with
  | none => return n
  | some key =>
    let n := { n with key := KnvKey.init key }
    if n.key.val = [] then return n
    else return (← n.setMeta 1 n.key.getValue).1

def newTree (tag : UInt32) (key : Option FieldVal) : Except KnvError KnvNode :=
  newNode tag key (FieldVal.zero .string)

/-- `NewFromMessage`; `str.len` is 32 bits wide. -/
def newFromMessage (msg : List UInt8) (tag : UInt32) : Except KnvError KnvNode :=
  newNode tag none (.string (msg.take (msg.length % 2 ^ 32)))

/-- `InsertChild` of a new node, at the tail. -/
def insertChild (n : KnvNode) (tag : UInt32) (val : FieldVal) : Except KnvError (KnvNode × Int) := do
  let c ← newNode tag none val
  if n.tag = 0 then throw ⟨-2, "invalid node"⟩
  if !n.isString then throw ⟨-3, "leaf cannot have child"⟩
  return edited ((n.innerExpand false false).hangChild c) (evaluateSize c).1

/-- The check in `SetValue` that is meant to keep the key: it overwrites it. -/
def checkKey (n : KnvNode) (s : List UInt8) : KnvNode :=
  if 0 < n.child_num.getD 0 ∨ (n.child_num = some 0 ∧ n.metalist = []) then
    if n.writesKey then
      { n with
        key := match pbBegin s with
          | .ok (f, _) => if f.tag ≠ 1 then KnvKey.init f.val else KnvKey.none .string
          | .error _ => KnvKey.none .string }
    else n
  else n

/-- `SetValue` of a string, behind the check of the key. -/
def setStrValue (n : KnvNode) (s : List UInt8) : KnvNode × Int :=
  let n := { n with
    val := .string s
    key := if n.writesKey then (keyOfValue s).1 else n.key
    subnode_dirty := true }
  let n := if n.child_num = none then n else n.initChildList none
  if 0 ≤ n.eval_sz then n.updateEvalSz (s.length - n.eval_val_sz) else (n, 0)

/-- `SetValue` of an integer, for a node that is no string. -/
def setIntValue (n : KnvNode) (i64 : UInt64) : KnvNode × Int :=
  let val := match n.val.type with
    | .varint => FieldVal.varint i64
    | .fixed64 => .fixed64 i64
    | .fixed32 => .fixed32 i64.toUInt32
    | .string => n.val
  let sz : Int := pbEvalFieldLength n.tag val
  ({ n with val := val, eval_sz := sz, eval_val_sz := 0, subnode_dirty := true }, sz - n.eval_sz)

/-- A round of `UpdateParentEvalueAndSetDirty`, for the parent of the node that was edited. -/
def childEdited (n : KnvNode) (offset : Int) : KnvNode × Int :=
  let (n, offset) := if 0 ≤ n.eval_sz then n.updateEvalSz offset else (n, 0)
  (if n.subnode_dirty then n else n.setValueDirty, offset)

/-- `SetChild`: the first child with the tag gets the value, or a new child is inserted. -/
def setChild (n : KnvNode) (tag : UInt32) (val : FieldVal) : Except KnvError (KnvNode × Int) :=
  match n.findChildByTag tag with
  | none => (n.insertChild tag val).mapError ({ · with code := -3 })
  | some c =>
    let n := n.innerExpand false false
    match val with
    | .string s =>
      if !c.isString then .error ⟨-2, "Tag already exists with different type"⟩
      else
        let c := c.checkKey s
        let n := { n with childlist := replaceRef c n.childlist }
        -- the index is asked to forget the node under the key the check has left
        let ht := if c.writesKey then (n.ht.remove n.childView c.ref).getD n.ht else n.ht
        let (c', offset) := c.setStrValue s
        let n := { n with childlist := replaceRef c' n.childlist }
        .ok (childEdited
          { n with ht := if c.writesKey then ht.put n.childView c.ref else ht } offset)
    | .varint i64 | .fixed64 i64 =>
      if c.isString then .error ⟨-2, "Tag already exists with different type"⟩
      else
        let (c, offset) := c.setIntValue i64
        .ok (childEdited { n with childlist := replaceRef c n.childlist } offset)
    | .fixed32 i32 =>
      if c.isString then .error ⟨-2, "Tag already exists with different type"⟩
      else
        let (c, offset) := c.setIntValue i32.toUInt64
        .ok (childEdited { n with childlist := replaceRef c n.childlist } offset)

/-- `SetFieldInt` and `SetFieldStr` of a root. -/
def setField (n : KnvNode) (tag : UInt32) (val : FieldVal) : Except KnvError KnvNode :=
  (if tag.toNat ≤ UC_MAX_META_NUM then n.setMetaOrKey tag val else n.setChild tag val).map Prod.fst

def setFieldInt (n : KnvNode) (tag : UInt32) (val : UInt64) : Except KnvError KnvNode :=
  n.setField tag (.varint val)

def setFieldStr (n : KnvNode) (tag : UInt32) (val : List UInt8) : Except KnvError KnvNode :=
  n.setField tag (.string val)

end KnvNode

end MysqlProxy
