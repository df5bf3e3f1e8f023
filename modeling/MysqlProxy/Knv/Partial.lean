/-
  Packets in parts (`AddPartial`).

  A packet that is too large for one datagram is cut into SLICES of its encoding.  Part `i` is a packet
  of its own: a header, and a child with the tag `KNV_PKG_PART_TAG_BASE + i` whose value is the slice.
  The receiver has one object.  The first part BECOMES the object, and the slices of the others are
  inserted into its tree, until all of them are there:

  * a part is put to the others if the object is not complete and both say the same NUMBER OF PARTS,
  * a part that is there already is refused with `-4`,
  * in any other case the part replaces what is there,
  * when no part is missing the slices are joined, and the object is decoded anew.

  Nobody compares the SEQUENCE NUMBERS.  Parts of two packets that are cut into as many parts are put
  together, and the object that comes of it is neither packet (`parts_are_mixed`).

  `Held A P` is the invariant: the object `P` has some parts of the packet `A`, and no others.
  `run_unmixed` says that it holds as long as every part finds an object that it may be put to.

  Modelling choices.
  * `none` is an object without a tree.
  * `own_buf` is set, so that everything is copied.
  * A value is read by folding the node; the node in the tree stays as it is.
-/
import Mathlib.Data.List.Nodup
import Mathlib.Data.Set.Insert
import MysqlProxy.Knv.Index
import MysqlProxy.Knv.Protocol
import MysqlProxy.Lib.Run

namespace MysqlProxy

open KnvNode

namespace KnvNode

/-- `val.str.len`, which for an integer are its low 32 bits. -/
def valLen32 (n : KnvNode) : Nat :=
  match n.val with
  | .string s => s.length % 2 ^ 32
  | .varint i64 | .fixed64 i64 => i64.toNat % 2 ^ 32
  | .fixed32 i32 => i32.toNat

end KnvNode

def partTag (i : Nat) : UInt32 := UInt32.ofNat (KNV_PKG_PART_TAG_BASE + i)

namespace KnvProtocol

def isComplete (P : KnvProtocol) : Bool :=
  P.isValid && (P.info.retcode ≠ 0 || P.info.total_split_count = 0 || P.getBody.isSome)

/-- `assign` of another object. -/
def assignFrom (prot : KnvProtocol) : Int × Option KnvProtocol :=
  match prot.tree.duplicate with
  | none => (-1, none)
  | some tree =>
    let tree := tree.innerExpand false false
    match tree.findChildByTag KNV_PKG_HDR_TAG with
    | none => (-2, none)
    | some header => (0, some {
        tree := tree
        header := header.ref
        body := (tree.findChildByTag KNV_PKG_BDY_TAG).map fun b => b.ref
        info := { prot.info with retmsg := string? (header.getMeta KNV_PKG_HDR_ERR_TAG) } })

/-- The first loop: the length of all the parts, or `none` if one is missing. -/
def partsLen (tree : KnvNode) : List Nat → Except Int (Option Nat)
  | [] => .ok (some 0)
  | i :: is =>
    match tree.findChildByTag (partTag i) with
    | none => .ok none
    | some p =>
      match p.fold with
      | .error _ => .error (-6)
      | .ok l =>
        if l.valLen32 = 0 then .error (-6)
        else if !l.isString then .error (-7)
        else (partsLen tree is).map fun len => len.map (l.valLen32 + ·)

/-- The second loop: each part is copied and removed.  A failure leaves the parts that come later. -/
def joinParts (total_len : Nat) : KnvNode → List Nat → List UInt8 →
    Except (Int × KnvNode) (List UInt8 × KnvNode)
  | tree, [], m => .ok (m, tree)
  | tree, i :: is, m =>
    match tree.findChildByTag (partTag i) with
    | none => .error (-10, tree)
    | some p =>
      match p.fold with
      | .error _ => .error (-11, tree)
      | .ok l =>
        if total_len < (m.length + l.valLen32) % 2 ^ 32 then .error (-12, tree)
        else joinParts total_len (removeChild tree p.ref) is (m ++ l.str)

/-- All parts have arrived: the object is decoded from the joined slices. -/
def merge (P : KnvProtocol) (total_len : Nat) (is : List Nat) : Int × Option KnvProtocol :=
  match joinParts total_len P.tree is [] with
  | .error (code, tree) => (code, some { P with tree := tree })
  | .ok (m, tree) =>
    match newFromData m with
    | .error _ => (-13, some { P with tree := tree })
    | .ok tree' => (0, initProtocol tree')

/-- `AddPartial` to an object that the part may be put to.  `total_len` is an `int`. -/
def addPart (P part : KnvProtocol) : Int × Option KnvProtocol :=
  let tag := partTag part.info.curr_split_index.toNat
  match part.tree.findChildByTag tag with
  | none => (-2, some P)
  | some p =>
    if !p.isString then (-3, some P)
    else if (P.tree.findChildByTag tag).isSome then (-4, some P)
    else
      match p.innerDuplicate false with
      | none => (-5, some P)
      | some c =>
        match P.tree.insertNode c with
        | .error _ => (-5, some P)
        | .ok (tree, _) =>
          let P := { P with tree := tree }
          let is := List.range P.info.total_split_count.toNat
          match partsLen tree is with
          | .error code => (code, some P)
          | .ok none => (0, some P)
          | .ok (some len) =>
            if int32 len ≤ 0 then (-8, some P) else P.merge len is

end KnvProtocol

/-- `AddPartial`: what it returns, and the object. -/
def addPartial (P : Option KnvProtocol) (part : KnvProtocol) : Int × Option KnvProtocol :=
  if !part.isValid then (-1, P)
  else
    match P with
    | none => part.assignFrom
    | some P =>
      if P.isComplete || part.isComplete ||
          P.info.total_split_count ≠ part.info.total_split_count ||
          P.info.total_split_count ≤ part.info.curr_split_index then part.assignFrom
      else P.addPart part

/-! ## Packets in parts -/

/-- A packet in parts.  Each part is the value of its header and a slice. -/
structure SplitPacket where
  seq : UInt64
  parts : List (List UInt8 × List UInt8)

/-- The fields of part `i`. -/
def partFields (i : Nat) (part : List UInt8 × List UInt8) : List PbField :=
  [⟨KNV_PKG_HDR_TAG, .string part.1⟩, ⟨partTag i, .string part.2⟩]

/-- The bytes of part `i`. -/
def partBytes (i : Nat) (part : List UInt8 × List UInt8) : List UInt8 :=
  fieldBytes KNV_PKG_TAG (.string (messageBytes (partFields i part)))

namespace SplitPacket

/-- The encoding that was cut. -/
def encoding (A : SplitPacket) : List UInt8 := (A.parts.map Prod.snd).flatten

/-- What splitting makes: the headers say which part of which packet it is, and the slices together
    are the encoding of a complete object. -/
structure Ok (A : SplitPacket) : Prop where
  two_le : 2 ≤ A.parts.length
  le : A.parts.length ≤ 255
  slices : ∀ part ∈ A.parts, part.2 ≠ []
  small : ∀ i part, A.parts[i]? = some part → (partBytes i part).length < 2 ^ 31
  info : ∀ i part P, A.parts[i]? = some part → KnvProtocol.decode (partBytes i part) = some P →
    P.info.retcode = 0 ∧ P.info.seq = A.seq ∧
      P.info.total_split_count = UInt8.ofNat A.parts.length ∧ P.info.curr_split_index = UInt8.ofNat i
  encoding : ∃ tree P, newFromData A.encoding = .ok tree ∧ initProtocol tree = some P ∧
    P.isComplete = true ∧ P.tree.serializeString = .ok A.encoding

end SplitPacket

theorem toNat_partTag {i : Nat} (h : i < 256) : (partTag i).toNat = 494 + i := by
  rw [partTag, UInt32.toNat_ofNat_of_lt' (by rw [KNV_PKG_PART_TAG_BASE]; show _ < 2 ^ 32; omega)]
  rfl

theorem partTag_inj {i j : Nat} (hi : i < 256) (hj : j < 256) (h : partTag i = partTag j) : i = j := by
  have := congrArg UInt32.toNat h
  rw [toNat_partTag hi, toNat_partTag hj] at this
  omega

theorem partTag_ne {i : Nat} (h : i < 256) {t : UInt32} (ht : 750 ≤ t.toNat) : partTag i ≠ t := by
  intro he
  have := congrArg UInt32.toNat he
  rw [toNat_partTag h] at this
  omega

/-- A tree that is one field is decoded as it is. -/
theorem newFromData_pkg {v : List UInt8}
    (h : (fieldBytes KNV_PKG_TAG (.string v)).length < 2 ^ 31) :
    newFromData (fieldBytes KNV_PKG_TAG (.string v)) = .ok (initNode KNV_PKG_TAG (.string v) true
      (fieldBytes KNV_PKG_TAG (.string v)).length false) := by
  obtain ⟨f, hf⟩ : ∃ f : PbField, f = ⟨KNV_PKG_TAG, .string v⟩ := ⟨_, rfl⟩
  have htag : f.tag = KNV_PKG_TAG := by rw [hf]
  have hval : f.val = .string v := by rw [hf]
  rw [← htag, ← hval, length_fieldBytes] at h ⊢
  exact newFromData_fieldBytes h (by rw [htag]; decide) (by rw [htag]; decide)

theorem decode_pkg {v : List UInt8} (h : (fieldBytes KNV_PKG_TAG (.string v)).length < 2 ^ 31) :
    KnvProtocol.decode (fieldBytes KNV_PKG_TAG (.string v)) = initProtocol (initNode KNV_PKG_TAG
      (.string v) true (fieldBytes KNV_PKG_TAG (.string v)).length false) := by
  have hstx : (fieldBytes KNV_PKG_TAG (.string v)).head? ≠ some STX_IPV6_PB := by
    have hhead : vintBytes (tagWord .string KNV_PKG_TAG) = [0x9a, 0xdb, 0x01] := by decide
    rw [fieldBytes, FieldVal.type, hhead, List.cons_append, List.head?_cons]
    decide
  rw [KnvProtocol.decode, if_neg hstx, newFromData_pkg h]
  rfl

theorem initProtocol_eq {n tree header : KnvNode} (hexp : n.innerExpand false false = tree)
    (hheader : tree.findChildByTag KNV_PKG_HDR_TAG = some header) :
    initProtocol n = some ⟨tree, header.ref, (findFirstBody tree.childlist).map fun b => b.ref,
      initHeaderInfo header⟩ := by
  rw [initProtocol, hexp, hheader]
  rfl

/-- The tree of part `i`. -/
def partTree (i : Nat) (part : List UInt8 × List UInt8) : KnvNode :=
  (initNode KNV_PKG_TAG (.string (messageBytes (partFields i part))) true (partBytes i part).length
    false).innerExpand false false

section Part

variable {i : Nat} {part : List UInt8 × List UInt8} (hi : i < 256)
  (hsmall : (partBytes i part).length < 2 ^ 31)
include hi hsmall

/-- The tree of a part has two children: the header and the slice. -/
theorem partTree_spec : (partTree i part).tag = KNV_PKG_TAG ∧
    (partTree i part).val = .string (messageBytes (partFields i part)) ∧
    (partTree i part).eval_sz = (partBytes i part).length ∧ Indexed (partTree i part) ∧
    ∃ h p, (partTree i part).childlist = [h, p] ∧
      OfField false h (sized ⟨KNV_PKG_HDR_TAG, .string part.1⟩) ∧
      Stands p ⟨partTag i, .string part.2⟩ := by
  have htag := toNat_partTag hi
  obtain ⟨f, hf⟩ : ∃ f : PbField, f = ⟨KNV_PKG_HDR_TAG, .string part.1⟩ := ⟨_, rfl⟩
  obtain ⟨g, hg⟩ : ∃ g : PbField, g = ⟨partTag i, .string part.2⟩ := ⟨_, rfl⟩
  have hfs : partFields i part = [f, g] := by rw [hf, hg, partFields]
  have hft : f.tag.toNat = 2989 := by rw [hf]; rfl
  have hgt : g.tag.toNat = 494 + i := by rw [hg]; exact htag
  have hlen : (messageBytes [f, g]).length < 2 ^ 31 := by
    rw [← hfs]
    refine Nat.lt_of_le_of_lt ?_ hsmall
    rw [partBytes, length_fieldBytes]
    exact str_le_size
  have htags : ∀ x ∈ [f, g], 100 < x.tag.toNat ∧ x.tag.toNat < 2 ^ 29 := by
    intro x hx
    rcases List.mem_cons.mp hx with rfl | hx
    · omega
    · rw [List.mem_singleton.mp hx]
      omega
  have hok : ∀ x ∈ [f, g], FieldOk x.tag x.val := fun x hx =>
    fieldOk_of_mem hlen hx (Nat.lt_of_le_of_lt (Nat.zero_le _) (htags x hx).1) (htags x hx).2
  have hpos : 0 < (partBytes i part).length := by
    rw [partBytes, length_fieldBytes]
    exact PbField.size_pos ⟨_, _⟩
  generalize hsz : (partBytes i part).length = sz at hpos
  rw [partTree, hfs, hsz]
  have hgrown := innerExpand_message (p := false)
    (n := initNode KNV_PKG_TAG (.string (messageBytes [f, g])) true sz false)
    (initNode_num (pbFields_messageBytes hok hlen)) rfl rfl hok hlen
    (fun h => absurd h.2 Bool.false_ne_true) false
  have hhead := hgrown.head
  have hchild : childFields [f, g] = [f, g] := by
    rw [childFields, List.filter_eq_self]
    intro x hx
    have := (htags x hx).1
    rw [Bool.not_eq_true', decide_eq_false_iff_not, UC_MAX_META_NUM]
    omega
  have hch := hgrown.ofField_childlist
  rw [hchild] at hch
  obtain ⟨h, l, hh, hl, hlist⟩ := List.forall₂_cons_right_iff.mp hch
  obtain ⟨p, l', hp, hl', hlist'⟩ := List.forall₂_cons_right_iff.mp hl
  cases hl'
  refine ⟨congrArg (fun x => x.2.1) hhead, congrArg (fun x => x.2.2.1) hhead, ?_, hgrown.indexed, h,
    p, by rw [hlist, hlist'], ?_, ?_⟩
  · refine (congrArg (fun x => x.2.2.2.2.2.1) hhead).trans ?_
    show (if 0 < sz then (sz : Int) else _) = _
    rw [if_pos hpos]
  · rw [← hf]
    exact hh
  · rw [← hg]
    exact hp.stands

/-- **What is decoded from a part.** -/
theorem decode_partBytes : ∃ h p, (partTree i part).childlist = [h, p] ∧
    OfField false h (sized ⟨KNV_PKG_HDR_TAG, .string part.1⟩) ∧
    Stands p ⟨partTag i, .string part.2⟩ ∧ KnvProtocol.decode (partBytes i part) =
      some ⟨partTree i part, h.ref, none, initHeaderInfo h⟩ := by
  obtain ⟨htag, hval, hsz, hindexed, h, p, hlist, hof, hp⟩ := partTree_spec hi hsmall
  have hh : h.tag = KNV_PKG_HDR_TAG := hof.stands.tag
  refine ⟨h, p, hlist, hof, hp, ?_⟩
  have hheader : (partTree i part).findChildByTag KNV_PKG_HDR_TAG = some h := by
    rw [findChildByTag_eq (by rw [htag]; decide),
      innerExpand_expanded (by rw [hindexed.child_num]; exact Option.some_ne_none _), ← hh]
    apply hindexed.lookupChild_unique (by rw [hlist]; exact List.mem_cons_self)
    intro c hc he
    rw [hlist] at hc
    rcases List.mem_cons.mp hc with rfl | hc
    · rfl
    · rw [List.mem_singleton.mp hc, hp.tag, hh] at he
      exact absurd he (partTag_ne hi (by decide))
  have hbody : findFirstBody (partTree i part).childlist = none := by
    rw [findFirstBody, hlist, List.find?_eq_none]
    intro c hc
    rw [decide_eq_true_iff]
    rcases List.mem_cons.mp hc with rfl | hc
    · rw [hh]
      decide
    · rw [List.mem_singleton.mp hc, hp.tag]
      exact partTag_ne hi (by decide)
  rw [partBytes] at hsmall ⊢
  rw [decode_pkg hsmall, initProtocol_eq (by rw [← partBytes, ← partTree]) hheader, hbody]
  rfl

/-- A copy of the tree is the same tree. -/
theorem duplicate_partTree : ∃ n, (partTree i part).duplicate = some n ∧
    n.innerExpand false false = partTree i part := by
  obtain ⟨htag, hval, hsz, _⟩ := partTree_spec hi hsmall
  have hne : (partTree i part).str ≠ [] := by
    rw [str, hval, FieldVal.str, partFields]
    exact messageBytes_ne_nil _ _
  refine ⟨initNode KNV_PKG_TAG (.string (messageBytes (partFields i part))) true
    (partBytes i part).length false, ?_, by rw [partTree]⟩
  rw [duplicate, if_neg (by rw [htag]; decide), innerDuplicate, if_neg (fun h => hne h.2.1), htag,
    hval, hsz, Int.toNat_natCast]

end Part

/-! ## The slices in a tree -/

/-- The slice `i`. -/
def SplitPacket.slice (A : SplitPacket) (i : Nat) : List UInt8 := ((A.parts[i]?).map Prod.snd).getD []

theorem SplitPacket.slice_eq {A : SplitPacket} {i : Nat} {part : List UInt8 × List UInt8}
    (h : A.parts[i]? = some part) : A.slice i = part.2 := by
  rw [slice, h]
  rfl

theorem SplitPacket.encoding_eq (A : SplitPacket) :
    A.encoding = (List.range A.parts.length).flatMap A.slice := by
  rw [encoding, List.flatMap_def]
  congr 1
  apply List.ext_getElem
  · rw [List.length_map, List.length_map, List.length_range]
  · intro i h _
    rw [List.length_map] at h
    rw [List.getElem_map, List.getElem_map, List.getElem_range,
      slice_eq (List.getElem?_eq_getElem h)]

/-- The children of the tree are the header and slices of the packet `A`. -/
structure Slices (A : SplitPacket) (tree : KnvNode) : Prop where
  tag : tree.tag = KNV_PKG_TAG
  indexed : Indexed tree
  children : ∀ c ∈ tree.childlist, c.tag = KNV_PKG_HDR_TAG ∨
    ∃ i < A.parts.length, Stands c ⟨partTag i, .string (A.slice i)⟩
  nodup : (tree.childlist.map fun c => c.tag).Nodup

/-- The tree has the part `i`. -/
def Has (tree : KnvNode) (i : Nat) : Prop := ∃ c ∈ tree.childlist, c.tag = partTag i

section Slices

variable {A : SplitPacket} {tree : KnvNode}

theorem Slices.find_none (h : Slices A tree) {i : Nat} (hi : ¬ Has tree i) :
    tree.findChildByTag (partTag i) = none := by
  rw [findChildByTag_eq (by rw [h.tag]; decide),
    innerExpand_expanded (by rw [h.indexed.child_num]; exact Option.some_ne_none _)]
  exact h.indexed.lookupChild_none fun c hc he => hi ⟨c, hc, he⟩

theorem Slices.find_some (hA : A.Ok) (h : Slices A tree) {i : Nat} (hlt : i < A.parts.length) (hi : Has tree i) :
    ∃ c ∈ tree.childlist, tree.findChildByTag (partTag i) = some c ∧
      Stands c ⟨partTag i, .string (A.slice i)⟩ := by
  obtain ⟨c, hc, htag⟩ := hi
  have hle := hA.le
  refine ⟨c, hc, ?_, ?_⟩
  · rw [findChildByTag_eq (by rw [h.tag]; decide),
      innerExpand_expanded (by rw [h.indexed.child_num]; exact Option.some_ne_none _), ← htag]
    apply h.indexed.lookupChild_unique hc
    intro c' hc' he
    exact List.inj_on_of_nodup_map h.nodup hc' hc he
  · rcases h.children c hc with hhdr | ⟨j, hj, hst⟩
    · rw [htag] at hhdr
      exact absurd hhdr (partTag_ne (by omega) (by decide))
    · have hij : i = j := partTag_inj (by omega) (by omega) (htag.symm.trans hst.tag)
      rw [hij]
      exact hst

/-- A slice is not empty, and its length fits. -/
theorem SplitPacket.Ok.slice (hA : A.Ok) {i : Nat} (hlt : i < A.parts.length) :
    0 < (A.slice i).length ∧ (A.slice i).length < 2 ^ 31 := by
  have hpart := List.getElem?_eq_getElem hlt
  generalize A.parts[i] = part at hpart
  rw [slice_eq hpart]
  constructor
  · exact List.length_pos_iff.mpr (hA.slices part (List.mem_of_getElem? hpart))
  · refine Nat.lt_of_le_of_lt ?_ (hA.small i part hpart)
    obtain ⟨g, hg⟩ : ∃ g : PbField, g = ⟨partTag i, .string part.2⟩ := ⟨_, rfl⟩
    have hmem : g ∈ partFields i part := by
      rw [partFields, ← hg]
      exact List.mem_cons_of_mem _ List.mem_cons_self
    have hle := size_le_of_mem hmem
    have hval : part.2.length ≤ g.size := by rw [hg]; exact str_le_size
    rw [partBytes, length_fieldBytes]
    exact Nat.le_trans hval (Nat.le_trans hle str_le_size)

/-- A slice is read as it is. -/
theorem read_slice (hA : A.Ok) {i : Nat} (hlt : i < A.parts.length) {c : KnvNode}
    (hc : Stands c ⟨partTag i, .string (A.slice i)⟩) :
    c.fold = .ok c ∧ c.isString = true ∧ c.str = A.slice i ∧
      c.valLen32 = (A.slice i).length := by
  have hle := hA.le
  have htag : c.tag ≠ 0 := by
    rw [hc.tag]
    intro he
    have := congrArg UInt32.toNat he
    rw [toNat_partTag (by omega), UInt32.toNat_zero] at this
    omega
  refine ⟨?_, ?_, ?_, ?_⟩
  · rw [fold, if_neg htag, if_pos (by rw [isFolded, hc.flat, Bool.true_or])]
  · rw [isString, hc.val]
    rfl
  · rw [str, hc.val]
    rfl
  · rw [valLen32, hc.val]
    exact Nat.mod_eq_of_lt (by have := (hA.slice hlt).2; omega)

/-- **The first loop**, when no part is missing, -/
theorem Slices.partsLen_all (hA : A.Ok) (h : Slices A tree) {is : List Nat}
    (his : ∀ i ∈ is, i < A.parts.length) (hall : ∀ i ∈ is, Has tree i) :
    KnvProtocol.partsLen tree is = .ok (some (is.flatMap A.slice).length) := by
  induction is with
  | nil => rfl
  | cons i is ih =>
    have hi := his i List.mem_cons_self
    obtain ⟨c, _, hfind, hst⟩ := h.find_some hA hi (hall i List.mem_cons_self)
    obtain ⟨hfold, hstr, _, hlen⟩ := read_slice hA hi hst
    have hne : c.valLen32 ≠ 0 := by
      rw [hlen]
      exact Nat.pos_iff_ne_zero.mp (hA.slice hi).1
    rw [KnvProtocol.partsLen, hfind]
    simp only [hfold, if_neg hne, hstr, Bool.not_true, Bool.false_eq_true, if_false]
    rw [ih (fun j hj => his j (List.mem_cons_of_mem _ hj))
      (fun j hj => hall j (List.mem_cons_of_mem _ hj)), hlen, List.flatMap_cons, List.length_append]
    rfl

/-- and when one is. -/
theorem Slices.partsLen_missing (hA : A.Ok) (h : Slices A tree) {is : List Nat}
    (his : ∀ i ∈ is, i < A.parts.length) {j : Nat} (hj : j ∈ is) (hno : ¬ Has tree j) :
    KnvProtocol.partsLen tree is = .ok none := by
  induction is with
  | nil => exact absurd hj List.not_mem_nil
  | cons i is ih =>
    have hi := his i List.mem_cons_self
    by_cases hhas : Has tree i
    · obtain ⟨c, _, hfind, hst⟩ := h.find_some hA hi hhas
      obtain ⟨hfold, hstr, _, hlen⟩ := read_slice hA hi hst
      have hne : c.valLen32 ≠ 0 := by
        rw [hlen]
        exact Nat.pos_iff_ne_zero.mp (hA.slice hi).1
      have hmem : j ∈ is := by
        rcases List.mem_cons.mp hj with rfl | hmem
        · exact absurd hhas hno
        · exact hmem
      rw [KnvProtocol.partsLen, hfind]
      simp only [hfold, if_neg hne, hstr, Bool.not_true, Bool.false_eq_true, if_false]
      rw [ih (fun k hk => his k (List.mem_cons_of_mem _ hk)) hmem]
      rfl
    · rw [KnvProtocol.partsLen, h.find_none hhas]

/-- A part less. -/
theorem Slices.removeChild (h : Slices A tree) {c : KnvNode} (hc : c ∈ tree.childlist) :
    Slices A (removeChild tree c.ref) ∧
      ∀ i, c.tag ≠ partTag i → Has tree i → Has (MysqlProxy.removeChild tree c.ref) i := by
  obtain ⟨hix, htag, hlist⟩ := h.indexed.removeChild hc
  constructor
  · refine ⟨by rw [htag, h.tag], hix, ?_, ?_⟩
    · intro x hx
      rw [hlist] at hx
      exact h.children x (List.mem_of_mem_filter hx)
    · rw [hlist]
      exact h.nodup.sublist (List.filter_sublist.map _)
  · rintro i hne ⟨x, hx, hxt⟩
    refine ⟨x, ?_, hxt⟩
    rw [hlist, List.mem_filter]
    refine ⟨hx, decide_eq_true fun href => hne ?_⟩
    rw [← hxt, List.inj_on_of_nodup_map h.indexed.nodup hx hc href]

/-- **The second loop** joins the slices. -/
theorem Slices.joinParts (hA : A.Ok) {total : Nat} (htotal : total < 2 ^ 31) {is : List Nat}
    (his : ∀ i ∈ is, i < A.parts.length) (hnd : is.Nodup) : ∀ {tree : KnvNode} {m : List UInt8},
      Slices A tree → (∀ i ∈ is, Has tree i) → m.length + (is.flatMap A.slice).length ≤ total →
      ∃ tree', KnvProtocol.joinParts total tree is m = .ok (m ++ is.flatMap A.slice, tree') := by
  induction is with
  | nil =>
    intro tree m _ _ _
    exact ⟨tree, by rw [KnvProtocol.joinParts, List.flatMap_nil, List.append_nil]⟩
  | cons i is ih =>
    intro tree m h hall hle
    have hi := his i List.mem_cons_self
    obtain ⟨hnot, hnd'⟩ := List.nodup_cons.mp hnd
    obtain ⟨c, hc, hfind, hst⟩ := h.find_some hA hi (hall i List.mem_cons_self)
    obtain ⟨hfold, _, hstr, hlen⟩ := read_slice hA hi hst
    obtain ⟨h', hkeep⟩ := h.removeChild hc
    rw [List.flatMap_cons, List.length_append] at hle
    have hroom : ¬ total < (m.length + c.valLen32) % 2 ^ 32 := by
      rw [hlen, Nat.mod_eq_of_lt (by omega)]
      omega
    obtain ⟨tree', hjoin⟩ := ih (fun j hj => his j (List.mem_cons_of_mem _ hj)) hnd'
      (m := m ++ A.slice i) h' (fun j hj => by
        refine hkeep j ?_ (hall j (List.mem_cons_of_mem _ hj))
        rw [hst.tag]
        intro he
        have hle' := hA.le
        have hj' := his j (List.mem_cons_of_mem _ hj)
        have hij : i = j := partTag_inj (by omega) (by omega) he
        exact hnot (hij ▸ hj)) (by rw [List.length_append]; omega)
    refine ⟨tree', ?_⟩
    rw [KnvProtocol.joinParts, hfind]
    simp only [hfold, if_neg hroom, hstr]
    rw [hjoin, List.flatMap_cons, List.append_assoc]

end Slices

/-! ## One part more -/

/-- **The object has parts of the packet `A`, and no others.** -/
structure Held (A : SplitPacket) (P : KnvProtocol) : Prop where
  slices : Slices A P.tree
  isString : P.tree.isString = true
  body : P.body = none
  retcode : P.info.retcode = 0
  seq : P.info.seq = A.seq
  total : P.info.total_split_count = UInt8.ofNat A.parts.length

theorem toNat_count {A : SplitPacket} (hA : A.Ok) :
    (UInt8.ofNat A.parts.length).toNat = A.parts.length := by
  have := hA.le
  exact UInt8.toNat_ofNat_of_lt' (by show _ < 2 ^ 8; omega)

theorem count_ne_zero {A : SplitPacket} (hA : A.Ok) : UInt8.ofNat A.parts.length ≠ 0 := by
  intro he
  have := congrArg UInt8.toNat he
  rw [toNat_count hA] at this
  have := hA.two_le
  simp_all

/-- Such an object is not complete. -/
theorem Held.isComplete {A : SplitPacket} (hA : A.Ok) {P : KnvProtocol} (h : Held A P) :
    P.isComplete = false := by
  have hret : (decide (P.info.retcode ≠ 0)) = false := decide_eq_false (not_not_intro h.retcode)
  have htotal : decide (P.info.total_split_count = 0) = false := by
    rw [h.total]
    exact decide_eq_false (count_ne_zero hA)
  rw [KnvProtocol.isComplete, hret, htotal, KnvProtocol.getBody, h.body, Option.bind_none]
  exact Bool.and_false _

/-- A slice more. -/
theorem Slices.insertNode {A : SplitPacket} (hA : A.Ok) {tree : KnvNode} (h : Slices A tree)
    (hstr : tree.isString = true) {i : Nat} (hlt : i < A.parts.length) (hno : ¬ Has tree i)
    {c : KnvNode} (hc : Stands c ⟨partTag i, .string (A.slice i)⟩) :
    ∃ tree' offsets, tree.insertNode c = .ok (tree', offsets) ∧ Slices A tree' ∧
      tree'.isString = true ∧ ∀ j < A.parts.length, Has tree' j ↔ Has tree j ∨ j = i := by
  have hle := hA.le
  obtain ⟨c', hc'⟩ : ∃ c', c' = ({ c with ref := tree.next_ref } : KnvNode) := ⟨_, rfl⟩
  have hst : Stands c' ⟨partTag i, .string (A.slice i)⟩ := by
    rw [hc']
    exact hc.with_ref _
  have hexp : tree.innerExpand false false = tree :=
    innerExpand_expanded (by rw [h.indexed.child_num]; exact Option.some_ne_none _) _ _
  obtain ⟨sz, val_sz, he⟩ := edited_eq (tree.hangChild c) (evaluateSize c).1
  have hlist : (edited (tree.hangChild c) (evaluateSize c).1).1.childlist = tree.childlist ++ [c'] := by
    rw [he, hc']
    rfl
  have hins : tree.insertNode c = .ok ((edited (tree.hangChild c) (evaluateSize c).1).1,
      [(edited (tree.hangChild c) (evaluateSize c).1).2]) := by
    rw [KnvNode.insertNode, if_neg (by rw [h.tag]; decide), hstr, if_neg (by decide), hexp]
  refine ⟨_, _, hins, ⟨?_, (h.indexed.hangChild c).edited _, ?_, ?_⟩, ?_, ?_⟩
  · rw [he]
    exact h.tag
  · rw [hlist]
    intro x hx
    rcases List.mem_append.mp hx with hx | hx
    · exact h.children x hx
    · rw [List.mem_singleton.mp hx]
      exact .inr ⟨i, hlt, hst⟩
  · rw [hlist, List.map_append, List.map_singleton, List.nodup_append]
    refine ⟨h.nodup, List.nodup_singleton _, ?_⟩
    intro t ht t' ht' heq
    obtain ⟨x, hx, rfl⟩ := List.mem_map.mp ht
    rw [List.mem_singleton.mp ht', hst.tag] at heq
    exact hno ⟨x, hx, heq⟩
  · rw [he]
    rfl
  · intro j hj
    rw [Has, hlist]
    constructor
    · rintro ⟨x, hx, hxt⟩
      rcases List.mem_append.mp hx with hx | hx
      · exact .inl ⟨x, hx, hxt⟩
      · rw [List.mem_singleton.mp hx, hst.tag] at hxt
        exact .inr (partTag_inj (by omega) (by omega) hxt.symm)
    · rintro (⟨x, hx, hxt⟩ | rfl)
      · exact ⟨x, List.mem_append_left _ hx, hxt⟩
      · exact ⟨c', List.mem_append_right _ List.mem_cons_self, hst.tag⟩

/-- A copy of a slice. -/
theorem innerDuplicate_slice {A : SplitPacket} (hA : A.Ok) {i : Nat} (hlt : i < A.parts.length)
    {p : KnvNode} (hp : Stands p ⟨partTag i, .string (A.slice i)⟩) :
    ∃ c, p.innerDuplicate false = some c ∧ Stands c ⟨partTag i, .string (A.slice i)⟩ := by
  have hne : p.str ≠ [] := by
    rw [(read_slice hA hlt hp).2.2.1]
    exact List.length_pos_iff.mp (hA.slice hlt).1
  refine ⟨_, by rw [innerDuplicate, if_neg (fun h => hne h.2.1)], ?_⟩
  rw [hp.tag, hp.val, hp.size, Int.toNat_natCast]
  exact initNode_stands _ (.inr rfl) false

section Part

variable {A : SplitPacket} (hA : A.Ok) {i : Nat} {part : List UInt8 × List UInt8}
  (hpart : A.parts[i]? = some part) {Q : KnvProtocol}
  (hQ : KnvProtocol.decode (partBytes i part) = some Q)
include hA hpart hQ

/-- What is decoded from a part is an object with this part, -/
theorem held_part : Held A Q ∧ Q.tree = partTree i part ∧
    Q.info.curr_split_index = UInt8.ofNat i ∧
    (∃ h ∈ Q.tree.childlist, h.tag = KNV_PKG_HDR_TAG) ∧
    ∀ j < A.parts.length, Has Q.tree j ↔ j = i := by
  obtain ⟨hlt, _⟩ := List.getElem?_eq_some_iff.mp hpart
  have hle := hA.le
  have hsmall := hA.small i part hpart
  obtain ⟨hret, hseq, htotal, hcurr⟩ := hA.info i part Q hpart hQ
  obtain ⟨htag, hval, _, hix, _⟩ := partTree_spec (i := i) (by omega) hsmall
  obtain ⟨h, p, hlist, hof, hp, hdec⟩ := decode_partBytes (i := i) (by omega) hsmall
  have hh : h.tag = KNV_PKG_HDR_TAG := hof.stands.tag
  rw [hQ, Option.some_inj] at hdec
  have htree : Q.tree = partTree i part := by rw [hdec]
  have hchildren : Q.tree.childlist = [h, p] := by rw [htree, hlist]
  have hbody : Q.body = none := by rw [hdec]
  have hslices : Slices A Q.tree := by
    refine ⟨by rw [htree, htag], by rw [htree]; exact hix, ?_, ?_⟩
    · intro c hc
      rw [hchildren] at hc
      rcases List.mem_cons.mp hc with rfl | hc
      · exact .inl hh
      · rw [List.mem_singleton.mp hc]
        refine .inr ⟨i, hlt, ?_⟩
        rw [SplitPacket.slice_eq hpart]
        exact hp
    · rw [hchildren, List.map_cons, List.map_singleton, List.nodup_cons, List.mem_singleton, hh, hp.tag]
      exact ⟨(partTag_ne (by omega) (by decide)).symm, List.nodup_singleton _⟩
  refine ⟨⟨hslices, ?_, hbody, hret, hseq, htotal⟩, htree, hcurr, ⟨h, ?_, hh⟩, ?_⟩
  · rw [htree, isString, hval]
    rfl
  · rw [hchildren]
    exact List.mem_cons_self
  · intro j hj
    constructor
    · rintro ⟨c, hc, hct⟩
      rw [hchildren] at hc
      rcases List.mem_cons.mp hc with rfl | hc
      · rw [hh] at hct
        exact absurd hct.symm (partTag_ne (by omega) (by decide))
      · rw [List.mem_singleton.mp hc, hp.tag] at hct
        exact partTag_inj (by omega) (by omega) hct.symm
    · rintro rfl
      exact ⟨p, by rw [hchildren]; exact List.mem_cons_of_mem _ List.mem_cons_self, hp.tag⟩

/-- and an object that it is assigned to is the same. -/
theorem assignFrom_part : ∃ P, Q.assignFrom = (0, some P) ∧ Held A P ∧ P.tree = Q.tree := by
  obtain ⟨hheld, htree, _, ⟨h, hh, hht⟩, _⟩ := held_part hA hpart hQ
  obtain ⟨hlt, _⟩ := List.getElem?_eq_some_iff.mp hpart
  have hle := hA.le
  obtain ⟨n, hdup, hexp⟩ := duplicate_partTree (i := i) (by omega) (hA.small i part hpart)
  rw [← htree] at hdup hexp
  have hs := hheld.slices
  have hfind : ∀ t, Q.tree.findChildByTag t = Q.tree.lookupChild t := by
    intro t
    rw [findChildByTag_eq (by rw [hs.tag]; decide),
      innerExpand_expanded (by rw [hs.indexed.child_num]; exact Option.some_ne_none _)]
  have hheader : Q.tree.findChildByTag KNV_PKG_HDR_TAG = some h := by
    rw [hfind, ← hht]
    exact hs.indexed.lookupChild_unique hh fun c hc he => List.inj_on_of_nodup_map hs.nodup hc hh he
  have hbody : Q.tree.findChildByTag KNV_PKG_BDY_TAG = none := by
    rw [hfind]
    apply hs.indexed.lookupChild_none
    intro c hc
    rcases hs.children c hc with hct | ⟨j, hj, hst⟩
    · rw [hct]
      decide
    · rw [hst.tag]
      exact partTag_ne (by omega) (by decide)
  refine ⟨⟨Q.tree, h.ref, none, { Q.info with
    retmsg := string? (h.getMeta KNV_PKG_HDR_ERR_TAG) }⟩, ?_, ?_, rfl⟩
  · rw [KnvProtocol.assignFrom, hdup]
    simp only [hexp, hheader, hbody]
    rfl
  · exact ⟨hs, hheld.isString, rfl, hheld.retcode, hheld.seq, hheld.total⟩

/-- **A part to the others of its packet.**  A part that is there is refused.  Any other is put to them,
    and the last one gives the packet. -/
theorem Held.addPartial {P : KnvProtocol} (h : Held A P) :
    (Has P.tree i ∧ addPartial (some P) Q = (-4, some P)) ∨
    (¬ Has P.tree i ∧ ∃ P', Held A P' ∧
      (∀ j < A.parts.length, Has P'.tree j ↔ Has P.tree j ∨ j = i) ∧
      ((∃ j < A.parts.length, ¬ Has P'.tree j) ∧ MysqlProxy.addPartial (some P) Q = (0, some P') ∨
        (∀ j < A.parts.length, Has P'.tree j) ∧ ∃ tree, newFromData A.encoding = .ok tree ∧
          MysqlProxy.addPartial (some P) Q = (0, initProtocol tree))) := by
  obtain ⟨hlt, _⟩ := List.getElem?_eq_some_iff.mp hpart
  have hle := hA.le
  obtain ⟨hheld, _, hcurr, _, hhas⟩ := held_part hA hpart hQ
  have hicurr : Q.info.curr_split_index.toNat = i := by
    rw [hcurr]
    exact UInt8.toNat_ofNat_of_lt' (by show _ < 2 ^ 8; omega)
  have hvalid : Q.isValid = true := decide_eq_true hheld.slices.tag
  have hput : MysqlProxy.addPartial (some P) Q = P.addPart Q := by
    have hlt' : ¬ P.info.total_split_count ≤ Q.info.curr_split_index := by
      rw [UInt8.le_iff_toNat_le, hicurr, h.total, toNat_count hA]
      omega
    rw [MysqlProxy.addPartial, hvalid, if_neg (by decide)]
    simp only [h.isComplete hA, hheld.isComplete hA, h.total, hheld.total]
    rw [h.total] at hlt'
    simp only [hlt', decide_false, ne_eq, not_true, Bool.or_self, Bool.false_eq_true, if_false]
  obtain ⟨p, _, hfindp, hp⟩ := hheld.slices.find_some hA hlt ((hhas i hlt).mpr rfl)
  have hpstr : p.isString = true := (read_slice hA hlt hp).2.1
  rw [hput, KnvProtocol.addPart, hicurr, hfindp]
  simp only [hpstr, Bool.not_true, Bool.false_eq_true, if_false]
  by_cases hi : Has P.tree i
  · obtain ⟨c, _, hfind, _⟩ := h.slices.find_some hA hlt hi
    left
    refine ⟨hi, ?_⟩
    rw [hfind, Option.isSome_some, if_pos rfl]
  · right
    refine ⟨hi, ?_⟩
    obtain ⟨c, hdup, hc⟩ := innerDuplicate_slice hA hlt hp
    obtain ⟨tree', offsets, hins, hs', hstr', hhas'⟩ :=
      h.slices.insertNode hA h.isString hlt hi hc
    have hP' : Held A { P with tree := tree' } :=
      ⟨hs', hstr', h.body, h.retcode, h.seq, h.total⟩
    refine ⟨{ P with tree := tree' }, hP', hhas', ?_⟩
    rw [h.slices.find_none hi, hdup]
    simp only [hins, h.total, toNat_count hA, Option.isSome_none, Bool.false_eq_true, if_false]
    by_cases hall : ∀ j < A.parts.length, Has tree' j
    · -- all parts are there
      right
      obtain ⟨tree, _, hnew, _⟩ := hA.encoding
      refine ⟨hall, tree, hnew, ?_⟩
      have hrange : ∀ j ∈ List.range A.parts.length, j < A.parts.length :=
        fun j hj => List.mem_range.mp hj
      have hallr : ∀ j ∈ List.range A.parts.length, Has tree' j := fun j hj => hall j (hrange j hj)
      have hlen : A.encoding.length < 2 ^ 31 := by
        by_contra hge
        rw [newFromData, pbBegin, if_pos (Nat.not_lt.mp hge)] at hnew
        cases hnew
      have hpos : 0 < A.encoding.length := by
        by_contra hz
        rw [List.eq_nil_of_length_eq_zero (Nat.eq_zero_of_not_pos hz),
          show newFromData [] = .error ⟨-1, "Invalid bin format"⟩ from rfl] at hnew
        cases hnew
      rw [SplitPacket.encoding_eq] at hlen hpos hnew
      obtain ⟨tree'', hjoin⟩ := Slices.joinParts hA hlen hrange List.nodup_range hs' hallr
        (m := []) (by rw [List.length_nil, Nat.zero_add])
      rw [hs'.partsLen_all hA hrange hallr]
      simp only
      rw [int32_of_lt (by omega) (by omega), if_neg (by omega), KnvProtocol.merge]
      simp only [hjoin, List.nil_append, hnew]
    · left
      obtain ⟨j, hj⟩ := not_forall.mp hall
      obtain ⟨hj, hno⟩ := Classical.not_imp.mp hj
      refine ⟨⟨j, hj, hno⟩, ?_⟩
      rw [hs'.partsLen_missing hA (fun k hk => List.mem_range.mp hk) (List.mem_range.mpr hj) hno]

end Part

/-! ## Runs -/

/-- The part may be put to the parts that the object has: they are of the same packet, or the numbers of
    parts keep them apart. -/
def MayJoin (P : Option KnvProtocol) (part : KnvProtocol) : Prop :=
  ∀ P', P = some P' → P'.isComplete = false →
    P'.info.total_split_count = part.info.total_split_count → P'.info.seq = part.info.seq

/-- A part of one of the packets arrives. -/
def Arrives (packets : Set SplitPacket) (allowed : Option KnvProtocol → KnvProtocol → Prop)
    (P P' : Option KnvProtocol) : Prop :=
  ∃ A ∈ packets, ∃ i part Q, A.parts[i]? = some part ∧
    KnvProtocol.decode (partBytes i part) = some Q ∧ allowed P Q ∧ P' = (addPartial P Q).2

/-- The object has parts of one packet only, or is one. -/
inductive Unmixed (packets : Set SplitPacket) : Option KnvProtocol → Prop
  | empty : Unmixed packets none
  | held {A : SplitPacket} {P : KnvProtocol} : A ∈ packets → Held A P → Unmixed packets (some P)
  | whole {A : SplitPacket} {tree : KnvNode} {P : KnvProtocol} : A ∈ packets →
    newFromData A.encoding = .ok tree → initProtocol tree = some P → Unmixed packets (some P)

section Runs

variable {packets : Set SplitPacket} (hok : ∀ A ∈ packets, A.Ok)
  (hseq : ∀ A ∈ packets, ∀ B ∈ packets, A.seq = B.seq → A = B)
include hok

/-- A complete object is one of the packets. -/
theorem Unmixed.serialization {P : KnvProtocol} (h : Unmixed packets (some P))
    (hcomplete : P.isComplete = true) :
    ∃ A ∈ packets, P.tree.serializeString = .ok A.encoding := by
  cases h with
  | held hA hheld =>
    rw [hheld.isComplete (hok _ hA)] at hcomplete
    exact absurd hcomplete Bool.false_ne_true
  | @whole A tree _ hA hnew hinit =>
    refine ⟨A, hA, ?_⟩
    obtain ⟨tree', P', hnew', hinit', _, hser⟩ := (hok A hA).encoding
    rw [hnew, Except.ok.injEq] at hnew'
    rw [← hnew', hinit, Option.some_inj] at hinit'
    rw [hinit']
    exact hser

include hseq in
/-- **A step.** -/
theorem Unmixed.arrives {P P' : Option KnvProtocol} (h : Unmixed packets P)
    (hstep : Arrives packets MayJoin P P') : Unmixed packets P' := by
  obtain ⟨B, hB, i, part, Q, hpart, hQ, hmay, rfl⟩ := hstep
  have hBok := hok B hB
  obtain ⟨hheldQ, _⟩ := held_part hBok hpart hQ
  obtain ⟨R, hassign, hR, _⟩ := assignFrom_part hBok hpart hQ
  have hvalid : Q.isValid = true := decide_eq_true hheldQ.slices.tag
  -- a part that replaces the object
  have hreplace : ∀ {P₀ : Option KnvProtocol}, addPartial P₀ Q = Q.assignFrom →
      Unmixed packets (addPartial P₀ Q).2 := by
    intro P₀ he
    rw [he, hassign]
    exact .held hB hR
  cases h with
  | empty =>
    refine hreplace ?_
    rw [addPartial, hvalid, if_neg (by decide)]
  | @whole A tree P hA hnew hinit =>
    refine hreplace ?_
    obtain ⟨tree', P', hnew', hinit', hcomplete, _⟩ := (hok A hA).encoding
    rw [hnew, Except.ok.injEq] at hnew'
    rw [← hnew', hinit, Option.some_inj] at hinit'
    rw [addPartial, hvalid, if_neg (by decide), hinit']
    simp only [hcomplete, Bool.true_or, if_true]
  | @held A P hA hheld =>
    have hAok := hok A hA
    by_cases hcount : A.parts.length = B.parts.length
    · -- the numbers of parts do not keep them apart, so it is the same packet
      have hsame := hmay P rfl (hheld.isComplete hAok) (by rw [hheld.total, hheldQ.total, hcount])
      rw [hheld.seq, hheldQ.seq] at hsame
      cases hseq A hA B hB hsame
      rcases hheld.addPartial hBok hpart hQ with
        ⟨_, he⟩ | ⟨_, P', hP', _, ⟨_, he⟩ | ⟨_, tree, hnew, he⟩⟩
      · rw [he]
        exact .held hB hheld
      · rw [he]
        exact .held hB hP'
      · rw [he]
        obtain ⟨tree', P'', hnew', hinit', _⟩ := hBok.encoding
        rw [hnew, Except.ok.injEq] at hnew'
        show Unmixed packets (initProtocol tree)
        rw [hnew', hinit']
        exact .whole hB (hnew' ▸ hnew) hinit'
    · refine hreplace ?_
      have hne : P.info.total_split_count ≠ Q.info.total_split_count := by
        intro he
        rw [hheld.total, hheldQ.total] at he
        have := congrArg UInt8.toNat he
        rw [toNat_count hAok, toNat_count hBok] at this
        exact hcount this
      rw [addPartial, hvalid, if_neg (by decide)]
      simp only [ne_eq, hne, not_false_eq_true, decide_true, Bool.or_true, Bool.true_or, if_true]

end Runs

/-- **Parts of different packets are not merged**, as long as every part that meets an incomplete object
    of as many parts is of the same packet. -/
theorem run_unmixed {A B : SplitPacket} (hA : A.Ok) (hB : B.Ok) (hseq : A.seq ≠ B.seq)
    {P : Option KnvProtocol}
    (hrun : Relation.ReflTransGen (Arrives {A, B} MayJoin) none P) :
    ∀ Q, P = some Q → Q.isComplete = true →
      Q.tree.serializeString = .ok A.encoding ∨ Q.tree.serializeString = .ok B.encoding := by
  have hok : ∀ X ∈ ({A, B} : Set SplitPacket), X.Ok := by
    rintro X (rfl | rfl)
    · exact hA
    · exact hB
  have hinj : ∀ X ∈ ({A, B} : Set SplitPacket), ∀ Y ∈ ({A, B} : Set SplitPacket),
      X.seq = Y.seq → X = Y := by
    rintro X (rfl | rfl) Y (rfl | rfl) he
    · rfl
    · exact absurd he hseq
    · exact absurd he.symm hseq
    · rfl
  have hinv : Unmixed {A, B} P :=
    run_invariant hrun .empty fun h hs => h.arrives hok hinj hs
  rintro Q rfl hcomplete
  obtain ⟨X, hX, hser⟩ := hinv.serialization hok hcomplete
  rcases hX with rfl | rfl
  · exact .inl hser
  · exact .inr hser

/-! ## Two packets in two parts -/

/-- A test of `Ok`. -/
def SplitPacket.checks (A : SplitPacket) : Bool :=
  2 ≤ A.parts.length && A.parts.length ≤ 255 && (A.parts.zipIdx.all fun p =>
    p.1.2 ≠ [] && (partBytes p.2 p.1).length < 2 ^ 31 &&
      (KnvProtocol.decode (partBytes p.2 p.1)).all fun P => P.info.retcode = 0 && P.info.seq = A.seq &&
        P.info.total_split_count = UInt8.ofNat A.parts.length &&
        P.info.curr_split_index = UInt8.ofNat p.2) &&
  ((newFromData A.encoding).toOption.bind initProtocol).any fun P =>
    P.isComplete && P.tree.serializeString.toOption = some A.encoding

theorem toOption_eq_some {ε α : Type*} {e : Except ε α} {a : α} (h : e.toOption = some a) :
    e = .ok a := by
  cases e with
  | error e => cases h
  | ok b =>
    cases h
    rfl

theorem SplitPacket.ok_of_checks {A : SplitPacket} (h : A.checks = true) : A.Ok := by
  rw [checks, Bool.and_eq_true, Bool.and_eq_true, Bool.and_eq_true, List.all_eq_true] at h
  obtain ⟨⟨⟨h2, h255⟩, hparts⟩, henc⟩ := h
  have hpart : ∀ i part, A.parts[i]? = some part → part.2 ≠ [] ∧
      (partBytes i part).length < 2 ^ 31 ∧ ∀ P, KnvProtocol.decode (partBytes i part) = some P →
        P.info.retcode = 0 ∧ P.info.seq = A.seq ∧
        P.info.total_split_count = UInt8.ofNat A.parts.length ∧
        P.info.curr_split_index = UInt8.ofNat i := by
    intro i part hi
    have := hparts (part, i) (List.mem_zipIdx_iff_getElem?.mpr hi)
    simp only [Bool.and_eq_true, decide_eq_true_eq, Option.all_eq_true] at this
    exact ⟨this.1.1, this.1.2, fun P hP => by
      obtain ⟨⟨⟨ha, hb⟩, hc⟩, hd⟩ := this.2 P hP
      exact ⟨ha, hb, hc, hd⟩⟩
  obtain ⟨P, hP, hprop⟩ := (Option.any_eq_true _ _).mp henc
  rw [Bool.and_eq_true, decide_eq_true_iff] at hprop
  obtain ⟨tree, hnew, hinit⟩ := Option.bind_eq_some_iff.mp hP
  exact {
    two_le := of_decide_eq_true h2
    le := of_decide_eq_true h255
    slices := fun part hmem => by
      obtain ⟨i, hi⟩ := List.mem_iff_getElem?.mp hmem
      exact (hpart i part hi).1
    small := fun i part hi => (hpart i part hi).2.1
    info := fun i part P hi => (hpart i part hi).2.2 P
    encoding := ⟨tree, P, toOption_eq_some hnew, hinit, hprop.1, toOption_eq_some hprop.2⟩ }

/-- The encoding of a packet whose body are 116 bytes `b`. -/
def smallEncoding (seq b : UInt8) : List UInt8 :=
  fieldBytes KNV_PKG_TAG (.string (messageBytes [⟨KNV_PKG_HDR_TAG, .string [0x20, seq]⟩,
    ⟨KNV_PKG_BDY_TAG, .string (List.replicate 116 b)⟩]))

/-- The same packet as it is cut into datagrams of 128 bytes: a header takes 22 of them. -/
def twoParts (seq b : UInt8) : SplitPacket :=
  ⟨seq.toUInt64, [([0x20, seq, 0xA0, 0x7D, 2, 0xA8, 0x7D, 0], (smallEncoding seq b).take 106),
    ([0x20, seq, 0xA0, 0x7D, 2, 0xA8, 0x7D, 1], (smallEncoding seq b).drop 106)]⟩

/-- The object after a part. -/
def afterPart (A : SplitPacket) (i : Nat) (P : Option KnvProtocol) : Option KnvProtocol :=
  (A.parts[i]?.bind fun part => KnvProtocol.decode (partBytes i part)).elim P
    fun Q => (addPartial P Q).2

theorem arrives_afterPart {packets : Set SplitPacket}
    {allowed : Option KnvProtocol → KnvProtocol → Prop} {A : SplitPacket} (hA : A ∈ packets) {i : Nat}
    {P : Option KnvProtocol} {Q : KnvProtocol}
    (hQ : (A.parts[i]?.bind fun part => KnvProtocol.decode (partBytes i part)) = some Q)
    (hal : allowed P Q) : Arrives packets allowed P (afterPart A i P) := by
  obtain ⟨part, hpart, hdec⟩ := Option.bind_eq_some_iff.mp hQ
  refine ⟨A, hA, i, part, Q, hpart, hdec, hal, ?_⟩
  rw [afterPart, hQ]
  rfl

/-- The second part after the first one, whatever packets they are of, as long as both have a part. -/
theorem run_two {packets : Set SplitPacket} {allowed : Option KnvProtocol → KnvProtocol → Prop}
    {A B : SplitPacket} (hA : A ∈ packets) (hB : B ∈ packets)
    (h₀ : (A.parts[0]?.bind fun part => KnvProtocol.decode (partBytes 0 part)).isSome = true)
    (h₁ : (B.parts[1]?.bind fun part => KnvProtocol.decode (partBytes 1 part)).isSome = true)
    (hal : ∀ Q, allowed none Q)
    (hal' : ∀ part Q, B.parts[1]? = some part → KnvProtocol.decode (partBytes 1 part) = some Q →
      allowed (afterPart A 0 none) Q) :
    Relation.ReflTransGen (Arrives packets allowed) none (afterPart B 1 (afterPart A 0 none)) := by
  obtain ⟨Q₀, hQ₀⟩ := Option.isSome_iff_exists.mp h₀
  obtain ⟨Q₁, hQ₁⟩ := Option.isSome_iff_exists.mp h₁
  obtain ⟨part, hpart, hdec⟩ := Option.bind_eq_some_iff.mp hQ₁
  exact .tail (.single (arrives_afterPart hA hQ₀ (hal Q₀)))
    (arrives_afterPart hB hQ₁ (hal' part Q₁ hpart hdec))

/-- Both parts of a packet arrive. -/
theorem run_unmixed_two : (twoParts 1 97).Ok ∧ (twoParts 2 98).Ok ∧
    ∃ Q, Relation.ReflTransGen (Arrives {twoParts 1 97, twoParts 2 98} MayJoin) none (some Q) ∧
      Q.isComplete = true ∧
      (Q.tree.serializeString = .ok (twoParts 1 97).encoding ∨
        Q.tree.serializeString = .ok (twoParts 2 98).encoding) := by
  have hA : (twoParts 1 97).Ok := SplitPacket.ok_of_checks (by decide +kernel)
  have hB : (twoParts 2 98).Ok := SplitPacket.ok_of_checks (by decide +kernel)
  have hjoin : ∀ part Q, (twoParts 1 97).parts[1]? = some part →
      KnvProtocol.decode (partBytes 1 part) = some Q →
      MayJoin (afterPart (twoParts 1 97) 0 none) Q := by
    intro part Q hpart hQ P hP _ _
    have hseq : (afterPart (twoParts 1 97) 0 none).all
        (fun P => P.info.seq = (twoParts 1 97).seq) = true := by decide +kernel
    rw [hP] at hseq
    rw [(hA.info 1 part Q hpart hQ).2.1]
    exact of_decide_eq_true hseq
  have hrun : Relation.ReflTransGen (Arrives {twoParts 1 97, twoParts 2 98} MayJoin) none
      (afterPart (twoParts 1 97) 1 (afterPart (twoParts 1 97) 0 none)) :=
    run_two (Set.mem_insert _ _) (Set.mem_insert _ _) (by decide +kernel) (by decide +kernel)
      (fun _ _ hP => nomatch hP) hjoin
  have hdone : (afterPart (twoParts 1 97) 1 (afterPart (twoParts 1 97) 0 none)).any
      (fun Q => Q.isComplete) = true := by decide +kernel
  obtain ⟨Q, hQ, hcomplete⟩ := (Option.any_eq_true _ _).mp hdone
  refine ⟨hA, hB, Q, hQ ▸ hrun, hcomplete, ?_⟩
  exact run_unmixed hA hB (by decide +kernel) hrun Q hQ hcomplete

/-- **The first part of one packet and the second part of another** make an object that is complete and
    is neither of them. -/
theorem parts_are_mixed : ¬ ∀ A B : SplitPacket, A.Ok → B.Ok → A.seq ≠ B.seq → ∀ P,
    Relation.ReflTransGen (Arrives {A, B} fun _ _ => True) none P → ∀ Q, P = some Q →
      Q.isComplete = true → Q.tree.serializeString = .ok A.encoding ∨
        Q.tree.serializeString = .ok B.encoding := by
  intro h
  have hA : (twoParts 1 97).Ok := SplitPacket.ok_of_checks (by decide +kernel)
  have hB : (twoParts 2 98).Ok := SplitPacket.ok_of_checks (by decide +kernel)
  have hrun : Relation.ReflTransGen (Arrives {twoParts 1 97, twoParts 2 98} fun _ _ => True) none
      (afterPart (twoParts 2 98) 1 (afterPart (twoParts 1 97) 0 none)) :=
    run_two (Set.mem_insert _ _) (Set.mem_insert_of_mem _ rfl) (by decide +kernel) (by decide +kernel)
      (fun _ => trivial) (fun _ _ _ _ => trivial)
  have hbad : (afterPart (twoParts 2 98) 1 (afterPart (twoParts 1 97) 0 none)).any (fun Q =>
      Q.isComplete && Q.tree.serializeString.toOption ≠ some (twoParts 1 97).encoding &&
        Q.tree.serializeString.toOption ≠ some (twoParts 2 98).encoding) = true := by decide +kernel
  obtain ⟨Q, hQ, hprop⟩ := (Option.any_eq_true _ _).mp hbad
  rw [Bool.and_eq_true, Bool.and_eq_true, decide_eq_true_iff, decide_eq_true_iff] at hprop
  rcases h _ _ hA hB (by decide +kernel) _ hrun Q hQ hprop.1.1 with hser | hser
  · exact hprop.1.2 (by rw [hser]; rfl)
  · exact hprop.2 (by rw [hser]; rfl)

end MysqlProxy
