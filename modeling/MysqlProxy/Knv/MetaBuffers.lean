/-
  Whose buffer the value of a meta is in (`knv_dynamic_data_t`, `InitNode`, `InnerExpand` and
  `SetMeta` in `knv/knv_node.cc`).

  Elsewhere a value is its bytes.  Here it is what the source has: a pointer and a length.  A node
  has a buffer of its own, `dyn_data`, which is its `small_buf` or is obtained from the memory
  manager.  The fields that are parsed out of a value point into the buffer of THAT value.

  * A new meta has its bytes in its own buffer.  A meta that is there already gets them in the
    buffer of its PARENT, where the fields of a parsed message are, and the meta that was updated
    before it.
  `DynBuffers` says what the buffer of a node does to what others point to, `MetaFrame` what a run of
  calls leaves alone.

  Modelling choices.
  * A buffer is a block of a heap, and no two of them have ever had the same name: what is read
    through a pointer into a buffer that was freed is not known (`none`).
  * Memory never runs out.  What is in a new buffer is never read.
  * A node that others are hung into is a message (`Node` has the sizes, the texts and the index).
    Metas are not expanded.  Of a child only the values are kept, with those of the fields below it.
-/
import MysqlProxy.Lib.Heap
import MysqlProxy.Knv.Node

namespace MysqlProxy

/-! ## Values that are pointers -/

/-- A buffer: of a node, of the memory manager, or of somebody else (a key, a caller, a node below a
    child). -/
inductive Buf where
  | small_buf (node : Nat)
  | ucMem (m : Nat)
  | other (k : Nat)
  deriving DecidableEq

/-- `knv_value_t` with its type. -/
inductive KnvValue where
  | varint (i64 : UInt64)
  | fixed64 (i64 : UInt64)
  | string (data : Option (Buf × Nat)) (len : Nat)
  | fixed32 (i32 : UInt32)

namespace KnvValue

/-- What the value is, if it is known. -/
def read (h : Heap Buf) : KnvValue → Option FieldVal
  | .varint i64 => some (.varint i64)
  | .fixed64 i64 => some (.fixed64 i64)
  | .string data len =>
    if len = 0 then some (.string [])
    else data.bind fun p => (h.read p.1 p.2 len).map .string
  | .fixed32 i32 => some (.fixed32 i32)

def isString : KnvValue → Bool
  | .string .. => true
  | _ => false

end KnvValue

/-- A node as the root of its fields, with what stands for its value. -/
inductive FieldTree (α : Type) where
  | mk (tag : UInt32) (val : α) (fields : List (FieldTree α))

namespace FieldTree

variable {α β : Type}

mutual

def map (f : α → β) : FieldTree α → FieldTree β
  | .mk tag val fields => .mk tag (f val) (mapList f fields)

def mapList (f : α → β) : List (FieldTree α) → List (FieldTree β)
  | [] => []
  | t :: l => map f t :: mapList f l

end

mutual

/-- All values in the tree. -/
def vals : FieldTree α → List α
  | .mk _ val fields => val :: valsList fields

def valsList : List (FieldTree α) → List α
  | [] => []
  | t :: l => vals t ++ valsList l

end

mutual

theorem map_congr {f g : α → β} : ∀ (t : FieldTree α), (∀ a ∈ t.vals, f a = g a) →
    t.map f = t.map g
  | .mk tag val fields, h => by
    have hfields := mapList_congr fields fun a ha => h a (List.mem_cons_of_mem _ ha)
    rw [map, map, h val List.mem_cons_self, hfields]

theorem mapList_congr {f g : α → β} : ∀ (l : List (FieldTree α)),
    (∀ a ∈ valsList l, f a = g a) → mapList f l = mapList g l
  | [], _ => rfl
  | t :: l, h => by
    have ht := map_congr t fun a ha => h a (List.mem_append_left _ ha)
    have hl := mapList_congr l fun a ha => h a (List.mem_append_right _ ha)
    rw [mapList, mapList, ht, hl]

end

theorem valsList_append (l l' : List (FieldTree α)) :
    valsList (l ++ l') = valsList l ++ valsList l' := by
  induction l with
  | nil => rfl
  | cons t l ih => rw [List.cons_append, valsList, valsList, ih, List.append_assoc]

end FieldTree

/-! ## Buffers -/

/-- All buffers, and the next names. -/
structure Buffers where
  heap : Heap Buf
  nextNode : Nat
  nextMem : Nat

namespace Buffers

/-- `nodepool->New`: a node with its `small_buf`. -/
def newNode (b : Buffers) : Nat × Buffers :=
  (b.nextNode, { b with
    heap := b.heap.put (.small_buf b.nextNode) (List.replicate 64 0)
    nextNode := b.nextNode + 1 })

/-- `UcMemManager::Alloc`. -/
def allocMem (b : Buffers) (sz : Nat) : Nat × Buffers :=
  (b.nextMem, { b with
    heap := b.heap.put (.ucMem b.nextMem) (List.replicate (KnvNode.allocSize sz) 0)
    nextMem := b.nextMem + 1 })

/-- `UcMemManager::Free`, unless it is `NULL`. -/
def freeMem (b : Buffers) : Option Nat → Buffers
  | none => b
  | some m => { b with heap := b.heap.free (.ucMem m) }

def memcpy (b : Buffers) (data : Buf) (bytes : List UInt8) : Buffers :=
  { b with heap := b.heap.store data bytes }

end Buffers

/-- `knv_dynamic_data_t`, without its `small_buf`. -/
structure DynData where
  sz : Nat
  data : Option Buf
  mem : Option Nat

namespace DynData

/-- As `knv_dynamic_data_t()` and `free` leave it. -/
def empty : DynData := ⟨0, none, none⟩

/-- The size asked for differs too much from what is there. -/
def differs (d : DynData) (req_sz : Nat) : Bool := d.sz < req_sz || req_sz * 2 ^ 10 % 2 ^ 32 < d.sz

/-- `knv_dynamic_data_t::alloc`, for the `dyn_data` of `node`. -/
def alloc (d : DynData) (node req_sz : Nat) (b : Buffers) : Buf × DynData × Buffers :=
  if req_sz ≤ 64 then
    (.small_buf node, ⟨64, some (.small_buf node), none⟩, b.freeMem d.mem)
  else
    match d.data, d.differs req_sz with
    | some data, false => (data, d, b)
    | _, _ =>
      let (m, b) := b.allocMem req_sz
      let sz := KnvNode.allocSize req_sz % 2 ^ 32
      (.ucMem m, ⟨if sz = 0 then req_sz else sz, some (.ucMem m), some m⟩, b.freeMem d.mem)

/-- `alloc`, and `memcpy` to where it points. -/
def assignStr (d : DynData) (node : Nat) (str : List UInt8) (b : Buffers) :
    Buf × DynData × Buffers :=
  let (data, d, b) := d.alloc node str.length b
  (data, d, b.memcpy data str)

/-- A new buffer is needed, if more than 64 bytes are asked for. -/
def Moves (d : DynData) (req_sz : Nat) : Prop := d.data = none ∨ d.differs req_sz

instance (d : DynData) (req_sz : Nat) : Decidable (d.Moves req_sz) :=
  inferInstanceAs (Decidable (_ ∨ _))

end DynData

/-! ## Nodes -/

/-- A meta. -/
structure MetaNode where
  node : Nat
  tag : UInt32
  val : KnvValue
  dyn_data : DynData

/-- A message, with the buffers of all. -/
structure BufNode extends Buffers where
  node : Nat
  tag : UInt32
  val : KnvValue
  dyn_data : DynData
  /-- `0 <= child_num` -/
  expanded : Bool
  metalist : List MetaNode
  metas : Nat → Option Nat
  childlist : List (FieldTree KnvValue)

/-- The value of `InitNode` with `own_buf`. -/
def initOwn (node : Nat) (val : FieldVal) (b : Buffers) : KnvValue × DynData × Buffers :=
  match val with
  | .varint i64 => (.varint i64, .empty, b)
  | .fixed64 i64 => (.fixed64 i64, .empty, b)
  | .fixed32 i32 => (.fixed32 i32, .empty, b)
  | .string str =>
    if str = [] then (.string none 0, .empty, b)
    else
      let (data, d, b) := DynData.empty.assignStr node str b
      (.string (some (data, 0)) str.length, d, b)

/-- The value of `InitNode` without: a field that ends `fin` bytes behind the start of `buf`. -/
def fieldValue (buf : Buf) (fin : Nat) : FieldVal → KnvValue
  | .varint i64 => .varint i64
  | .fixed64 i64 => .fixed64 i64
  | .fixed32 i32 => .fixed32 i32
  | .string str => .string (some (buf, fin - str.length)) str.length

namespace BufNode

/-- Hang a new meta into the list and into `metas`. -/
def hangMeta (s : BufNode) (m : MetaNode) (front : Bool) : BufNode :=
  { s with
    metalist := if front then m :: s.metalist else s.metalist ++ [m]
    metas := fun t => if t = m.tag.toNat then some m.node
      -- `metas` is cleared when the first meta comes
      else if s.metalist = [] then none else s.metas t }

/-- A round of `InnerExpand`; `pos` is where the field begins in `buf`. -/
def expandField (buf : Buf) (s : Nat × BufNode) (f : PbField × Nat) : Nat × BufNode :=
  let (pos, s) := s
  let val := fieldValue buf (pos + f.2) f.1.val
  (pos + f.2,
    if f.1.tag.toNat ≤ UC_MAX_META_NUM then
      let (node, b) := s.newNode
      { s with toBuffers := b }.hangMeta ⟨node, f.1.tag, val, .empty⟩ false
    else { s with childlist := s.childlist ++ [.mk f.1.tag val []] })

/-- `Expand`. -/
def expand (s : BufNode) : BufNode :=
  if s.expanded then s
  else
    let s := { s with expanded := true, metalist := [], childlist := [] }
    match s.val with
    | .string (some (buf, off)) len =>
      match (s.heap.read buf off len).bind pbFields with
      | none => s
      | some (fields, eom) =>
        let s := (fields.foldl (expandField buf) (off, s)).2
        if eom then s else { s with metalist := [], childlist := [] }
    | _ => s

def findMeta (s : BufNode) (node : Nat) : Option MetaNode := s.metalist.find? fun m => m.node = node

/-- What `GetMeta` finds in a node that is expanded. -/
def lookup (s : BufNode) (tag : UInt32) : Option MetaNode :=
  if s.metalist = [] then none else (s.metas tag.toNat).bind s.findMeta

def getMeta (s : BufNode) (tag : UInt32) : Option MetaNode :=
  if s.tag = 0 ∨ UC_MAX_META_NUM < tag.toNat then none else s.expand.lookup tag

/-- `GetMetaStr`, if it is known. -/
def getMetaStr (s : BufNode) (tag : UInt32) : Option (List UInt8) :=
  match s.getMeta tag with
  | none => some []
  | some m => (m.val.read s.expand.heap).map FieldVal.str

/-- The values of the children. -/
def childVals (s : BufNode) : List (FieldTree (Option FieldVal)) :=
  FieldTree.mapList (KnvValue.read s.expand.heap) s.expand.childlist

/-- The meta gets a value. -/
def replaceVal (s : BufNode) (node : Nat) (val : KnvValue) : BufNode :=
  { s with metalist := s.metalist.map fun m => if m.node = node then { m with val := val } else m }

/-- `SetMeta` for a meta that is there. -/
def updateMeta (s : BufNode) (m : MetaNode) : FieldVal → BufNode
  | .varint i64 => s.replaceVal m.node (.varint i64)
  | .fixed64 i64 => s.replaceVal m.node (.fixed64 i64)
  | .fixed32 i32 => s.replaceVal m.node (.fixed32 i32)
  | .string str =>
    -- `dyn_data` of this node, not of `m`
    let (data, d, b) := s.dyn_data.assignStr s.node str s.toBuffers
    { s with toBuffers := b, dyn_data := d }.replaceVal m.node (.string (some (data, 0)) str.length)

/-- `SetMeta` for a new one. -/
def addMeta (s : BufNode) (tag : UInt32) (val : FieldVal) : BufNode :=
  let (node, b) := s.newNode
  let (val, d, b) := initOwn node val b
  { s with toBuffers := b }.hangMeta ⟨node, tag, val, d⟩ (tag = 1)

/-- `SET_VALUE_DIRTY`. -/
def setValueDirty (s : BufNode) : BufNode :=
  { s with val := match s.val with
    | .string data _ => .string data 0
    | val => val }

/-- `SetMeta` with `own_buf`. -/
def setMeta (s : BufNode) (tag : UInt32) (val : FieldVal) : Except KnvError BufNode :=
  if s.tag = 0 then .error ⟨-1, "Node is not initialized"⟩
  else if !s.val.isString then .error ⟨-2, "Meta not supported for non-message"⟩
  else if UC_MAX_META_NUM < tag.toNat then .error ⟨-3, "Tag is out of range"⟩
  else
    match s.getMeta tag with
    | none => .ok (s.expand.addMeta tag val).setValueDirty
    | some m => .ok (s.expand.updateMeta m val).setValueDirty

/-! ## Making nodes -/

/-- The buffers of the others, and none yet of these nodes. -/
def outside (others : Nat → Option (List UInt8)) : Buffers where
  heap := fun
    | .other k => others k
    | _ => none
  nextNode := 0
  nextMem := 0

/-- `KnvNode::New` from bytes, with `own_buf`. -/
def newFromData (others : Nat → Option (List UInt8)) (data : List UInt8) : Option BufNode :=
  match pbBegin data with
  | .error _ => none
  | .ok (f, _) =>
    let (node, b) := (outside others).newNode
    let (val, d, b) := initOwn node f.val b
    some { b with
      node := node
      tag := f.tag
      val := val
      dyn_data := d
      -- what does not begin with a field is expanded
      expanded := f.val.str = [] || (pbBegin f.val.str matches .error _)
      metalist := []
      metas := fun _ => none
      childlist := [] }

/-- `NewTree`; the bytes of the key are in the buffer of the key. -/
def newTree (others : Nat → Option (List UInt8)) (tag : UInt32) (key : Option KnvValue) : BufNode :=
  let (node, b) := (outside others).newNode
  let s : BufNode := { b with
    node := node
    tag := tag
    val := .string none 0
    dyn_data := .empty
    expanded := true
    metalist := []
    metas := fun _ => none
    childlist := [] }
  match key with
  | none => s
  | some val =>
    let (m, b) := s.newNode
    { s with toBuffers := b }.hangMeta ⟨m, 1, val, .empty⟩ true

/-- `InsertChild` of a node that was made elsewhere. -/
def insertChild (s : BufNode) (c : FieldTree KnvValue) : Except KnvError BufNode :=
  if s.tag = 0 then .error ⟨-2, "invalid node"⟩
  else if !s.val.isString then .error ⟨-3, "leaf cannot have child"⟩
  else
    let s := s.expand
    .ok { s with childlist := s.childlist ++ [c] }.setValueDirty

/-! ## Runs -/

/-- A call of `SetMetaStr` or `SetMetaInt`. -/
inductive Call where
  | setMetaStr (tag : UInt32) (val : List UInt8)
  | setMetaInt (tag : UInt32) (val : UInt64)

def Call.tag : Call → UInt32
  | .setMetaStr tag _ => tag
  | .setMetaInt tag _ => tag

def Call.val : Call → FieldVal
  | .setMetaStr _ val => .string val
  | .setMetaInt _ val => .varint val

/-- A call that fails changes nothing. -/
def exec (s : BufNode) (c : Call) : BufNode :=
  match s.setMeta c.tag c.val with
  | .ok s' => s'
  | .error _ => s

/-- `P` holds of each call of a run and of the node before it. -/
def EachCall (P : BufNode → Call → Prop) : BufNode → List Call → Prop
  | _, [] => True
  | s, c :: calls => P s c ∧ EachCall P (s.exec c) calls

/-- The value is in a buffer of somebody else. -/
def Outside : KnvValue → Prop
  | .string (some (.other _, _)) _ => True
  | .string (some _) _ => False
  | _ => True

/-- A node that was parsed, or built. -/
inductive Made (others : Nat → Option (List UInt8)) : BufNode → Prop where
  | newFromData {data : List UInt8} {s : BufNode} (h : newFromData others data = some s) :
      Made others s
  | newTree (tag : UInt32) {key : Option KnvValue} (h : ∀ val ∈ key, Outside val) :
      Made others (newTree others tag key)
  | insertChild {s s' : BufNode} {c : FieldTree KnvValue} (hs : Made others s)
      (hc : ∀ val ∈ c.vals, Outside val) (h : s.insertChild c = .ok s') : Made others s'
  | setMeta {s s' : BufNode} {tag : UInt32} {val : FieldVal} (hs : Made others s)
      (h : s.setMeta tag val = .ok s') : Made others s'

end BufNode

end MysqlProxy
