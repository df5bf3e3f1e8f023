/-
  Sending a packet in parts (`Split`, `EncodePart`).

  `Split` encodes the object, and if that is longer than the peer takes, cuts the encoding into
  SLICES and hangs them into the tree as children with the tags `KNV_PKG_PART_TAG_BASE + i`.
  `EncodePart` then makes a packet of the header, which now says how many parts there are and which
  one this is, and of one slice.

  The size of a slice is what the limit leaves beside the header and an ALLOWANCE of 16 bytes for
  all that is added later.

  Modelling choices.
  * `Split` also returns the number of slices if it has cut the encoding.
  * `mem` is what the allocated memory holds: what is written shorter than it was evaluated leaves a
    part of it in the packet.
  * A call that fails returns no object.
  * The index of a part is not negative, and sizes stay below `2 ^ 31`.
-/
import MysqlProxy.Knv.Oidb
import MysqlProxy.Knv.Partial
import MysqlProxy.Knv.NodeEdit

namespace MysqlProxy

open KnvNode

def KNV_DEFUALT_MAX_PKG_SIZE : Nat := 64000

namespace KnvProtocol

def getMaxPkgSize (P : KnvProtocol) : Nat :=
  if P.info.max_pkg_sz.toNat < 128 ∨ KNV_DEFUALT_MAX_PKG_SIZE < P.info.max_pkg_sz.toNat then
    KNV_DEFUALT_MAX_PKG_SIZE
  else P.info.max_pkg_sz.toNat

def getTotalPartNum (P : KnvProtocol) : Nat := P.info.total_split_count.toNat

/-! ## Edits of the header -/

/-- `header->RemoveChildrenByTag`; nobody looks at what it returns. -/
def removeHeaderChildren (P : KnvProtocol) (tag : UInt32) : KnvProtocol :=
  match editChild (removeChildrenByTag · tag) P.header P.tree with
  | .error _ => P
  | .ok tree => { P with tree := tree }

/-- `header->SetChildInt`. -/
def setHeaderChildInt (P : KnvProtocol) (tag : UInt32) (val : UInt64) :
    Except KnvError KnvProtocol :=
  (editChild (fun h => once (h.setChild tag (.varint val))) P.header P.tree).map fun tree =>
    { P with tree := tree }

/-- `header->EvaluateSize()`. -/
def headerSize (P : KnvProtocol) : Nat := (P.getHeader.elim 0 fun h => (evaluateSize h).1).toNat

/-! ## Encoding -/

/-- The end of `Encode`: a packet of the header and, if there is one, a body. -/
def encodePacket (P : KnvProtocol) (mem : Nat → UInt8) (body_tree : Option KnvNode) :
    Except KnvError (List UInt8) :=
  match P.getHeader with
  | none => .error ⟨0, "no header"⟩
  | some header =>
    let bdy_sz := (body_tree.elim 0 fun b => (evaluateSize b).1).toNat
    let total_val_sz := P.headerSize + bdy_sz
    let total_sz := pbEvalStringLength KNV_PKG_TAG total_val_sz
    match pbAddStringHead ⟨[], total_sz⟩ KNV_PKG_TAG total_val_sz with
    | .error _ => .error ⟨-8, "knv_add_string_head failed: "⟩
    | .ok b =>
      match serialize header (total_sz - b.out.length) true with
      | .error e => .error ⟨-9, "serializing header failed: " ++ e.errmsg⟩
      | .ok hdr =>
        let out := b.out ++ hdr
        match body_tree with
        | none => .ok (placed mem total_sz out)
        | some body =>
          if 0 < bdy_sz then
            match serialize body (total_sz - out.length) true with
            | .error e => .error ⟨-10, "serializing body failed: " ++ e.errmsg⟩
            | .ok bdy => .ok (placed mem total_sz (out ++ bdy))
          else .ok (placed mem total_sz out)

/-- `EncodeWithBody`: the header loses its return code and its message. -/
def encodeWithBody (P : KnvProtocol) (mem : Nat → UInt8) (b : KnvNode) :
    Except KnvError (KnvProtocol × List UInt8) :=
  if !P.isValid then .error ⟨-1, ""⟩
  else do
    let P ← if P.info.retcode ≠ 0 then P.clearRetCode else pure P
    let P ← if P.info.retmsg ≠ none then P.clearRetErrorMsg else pure P
    let s ← P.encodePacket mem (some b)
    return (P, s)

/-- `EncodeAll`. -/
def encodeAll (P : KnvProtocol) (mem : Nat → UInt8) : Except KnvError (List UInt8) :=
  if !P.isValid then .error ⟨-1, "Protocol is not initialized"⟩
  else
    let sz := (evaluateSize P.tree).1.toNat
    match serialize P.tree sz true with
    | .error e => .error ⟨-3, "Serializing tree failed: " ++ e.errmsg⟩
    | .ok bytes => .ok (placed mem sz bytes)

/-- `Encode` of the object: with a return code there are no bodies. -/
def encode (P : KnvProtocol) (mem : Nat → UInt8) : Except KnvError (List UInt8) :=
  if P.info.retcode ≠ 0 then P.encodePacket mem none else P.encodeAll mem

/-! ## `Split` -/

/-- The split fields should not be in the packet yet. -/
def clearSplit (P : KnvProtocol) : KnvProtocol :=
  (({ P with info := { P.info with total_split_count := 1 } } : KnvProtocol).removeHeaderChildren
    KNV_PKG_HDR_TOTAL_SPLIT_COUNT).removeHeaderChildren KNV_PKG_HDR_CURR_SPLIT_INDEX

/-- `no_need_split`: a given body is the only part. -/
def keepWhole (P : KnvProtocol) (b : Option KnvNode) : Except KnvError KnvProtocol :=
  match b with
  | none => .ok P
  | some b =>
    match b.duplicate with
    | none => .error ⟨-2, "Duplicate body failed: "⟩
    | some p =>
      match p.setTag (partTag 0) with
      | .error e => .error ⟨-3, "Change tag failed: " ++ e.errmsg⟩
      | .ok (p, _) =>
        match P.tree.insertNode p with
        | .error e => .error ⟨-4, "Insert part body failed: " ++ e.errmsg⟩
        | .ok (tree, _) => .ok { P with tree := tree }

/-- Slice `i` of `nr_pkgs`: the last one is what is left. -/
def sliceOf (m : List UInt8) (sz_part nr_pkgs i : Nat) : List UInt8 :=
  (m.drop (i * sz_part)).take (if i = nr_pkgs - 1 then m.length - (nr_pkgs - 1) * sz_part
    else sz_part)

/-- The loop that hangs the slices into the tree. -/
def hangSlices (slice : Nat → List UInt8) : List Nat → KnvNode → Except KnvError KnvNode
  | [], tree => .ok tree
  | i :: is, tree =>
    match newNode (partTag i) none (.string (slice i)) with
    | .error e => .error ⟨-8, "construct part body failed: " ++ e.errmsg⟩
    | .ok part =>
      let tree := match tree.removeChildrenByTag (partTag i) with
        | .error _ => tree
        | .ok (tree, _) => tree
      match tree.insertNode part with
      | .error e => .error ⟨-9, "Insert part body failed: " ++ e.errmsg⟩
      | .ok (tree, _) => hangSlices slice is tree

/-- The encoding `m` is cut.  `total_split_count` has 8 bits. -/
def cut (P : KnvProtocol) (m : List UInt8) (sz_part nr_pkgs : Nat) : Except KnvError KnvProtocol :=
  let P := { P with info := { P.info with total_split_count := UInt8.ofNat nr_pkgs } }
  match P.setHeaderChildInt KNV_PKG_HDR_TOTAL_SPLIT_COUNT (UInt64.ofNat nr_pkgs) with
  | .error e => .error ⟨-7, "Set total_split_count failed: " ++ e.errmsg⟩
  | .ok P =>
    (hangSlices (sliceOf m sz_part nr_pkgs) (List.range nr_pkgs) P.tree).map fun tree =>
      { P with tree := tree }

/-- `Split`: the object, and the number of slices if it was cut. -/
def split (P : KnvProtocol) (mem : Nat → UInt8) (b : Option KnvNode) :
    Except KnvError (KnvProtocol × Option Nat) :=
  if !P.isValid then .error ⟨-1, "Bad protocol tree"⟩
  else
    let P := P.clearSplit
    let cur_sz := match b with
      | some b => P.headerSize + (evaluateSize b).1.toNat + 32
      | none => (evaluateSize P.tree).1.toNat + 32
    let max_sz := P.getMaxPkgSize
    if !P.info.allow_split ∨ (b.isNone ∧ P.body.isNone) ∨ cur_sz ≤ max_sz then
      (P.keepWhole b).map (·, none)
    else
      match (match b with
        | some b => P.encodeWithBody mem b
        | none => (P.encode mem).map (P, ·)) with
      | .error e => .error ⟨-5, "Encode failed: " ++ e.errmsg⟩
      | .ok (P, m) =>
        if m.length ≤ max_sz then (P.keepWhole b).map (·, none)
        else
          let hdr_sz := P.headerSize + 16
          if max_sz ≤ hdr_sz then
            .error ⟨-6, "Header size(" ++ toString hdr_sz ++ ") is larger than max_pkg_size(" ++
              toString max_sz ++ ")"⟩
          else
            let sz_part := max_sz - hdr_sz
            let nr_pkgs := (m.length + sz_part - 1) / sz_part
            if nr_pkgs ≤ 1 then (P.keepWhole b).map (·, none)
            else (P.cut m sz_part nr_pkgs).map (·, some nr_pkgs)

/-! ## `EncodePart` -/

/-- `SetTag` of a child of the tree. -/
def setTreeTag (P : KnvProtocol) (b : KnvNode) (t : UInt32) : KnvProtocol :=
  let i := P.tree.childlist.findIdx fun c => c.ref = b.ref
  match (NodeEdit.setTag t).editIn false [.toChild i] P.tree with
  | .error _ => P
  | .ok (tree, _) => { P with tree := tree }

/-- `EncodePart`: the object it leaves, and the packet. -/
def encodePart (P : KnvProtocol) (mem : Nat → UInt8) (index : Nat) :
    Except KnvError (KnvProtocol × List UInt8) :=
  if !P.isValid then .error ⟨-1, "Protocol not initialized"⟩
  else if P.getTotalPartNum ≤ index then .error ⟨-1, "Bad part index"⟩
  else if P.info.total_split_count = 1 then
    match P.tree.findChildByTag (partTag 0) with
    | some b =>
      -- the part is sent as a body, under another tag
      let P := P.setTreeTag b KNV_PKG_BDY_TAG
      match findRef P.tree.childlist b.ref with
      | none => .error ⟨0, "no such node"⟩
      | some b => (P.encodeWithBody mem b).map fun p => (p.1.setTreeTag b (partTag 0), p.2)
    | none => (P.encode mem).map (P, ·)
  else
    match P.tree.findChildByTag (partTag index) with
    | none => .error ⟨-2, "No such part"⟩
    | some b =>
      match P.setHeaderChildInt KNV_PKG_HDR_CURR_SPLIT_INDEX (UInt64.ofNat index) with
      | .error e => .error ⟨-3, "set header part index failed: " ++ e.errmsg⟩
      | .ok P => P.encodeWithBody mem b

end KnvProtocol

end MysqlProxy
