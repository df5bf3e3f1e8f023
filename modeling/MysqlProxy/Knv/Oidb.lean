/-
  OIDB packets (`EncodeOidb`, `EncodeOidbWithBody`, `EncodeCompatOidb`).

  Three encoders lay out the same packet, each by itself, for one decoder.  All of them take the value
  of the header and

  * `EncodeOidb`         — all the bodies with their tags.  It returns ONE BYTE LESS than it has
    written, so that `ETX` is missing and nothing is decoded;
  * `EncodeOidbWithBody` — a given body with its tag, after the return message is gone;
  * `EncodeCompatOidb`   — the VALUE of the current body, which the decoder takes for a collection of
    bodies if it begins like one.

  `Content` is what is asked of the nodes: a node has a value, which it is folded to and written with.
  Nodes that were built have it, and nodes that were read from their shortest encoding.
  `oidb_roundTrip_iff` says which calls come back.

  Modelling choices.
  * `mem` is what the allocated memory holds: a body that is written shorter than its evaluated size
    leaves a part of it in the packet.
  * A header that cannot be folded is a null pointer that the source reads; here the call fails.
-/
import MysqlProxy.Knv.Protocol
import MysqlProxy.Knv.PbRaw

namespace MysqlProxy

open KnvNode

/-! ## The encoders -/

/-- Bytes in a place of `sz` bytes. -/
def placed (mem : Nat → UInt8) (sz : Nat) (bytes : List UInt8) : List UInt8 :=
  bytes ++ (List.range (sz - bytes.length)).map mem

/-- The loop over the bodies: the header is skipped. -/
def bodyLoop (max_bdy_sz : Nat) : List KnvNode → List UInt8 → Except KnvError (List UInt8)
  | [], bdy => .ok bdy
  | n :: l, bdy =>
    if n.tag = KNV_PKG_HDR_TAG then bodyLoop max_bdy_sz l bdy
    else match serialize n (max_bdy_sz - bdy.length) true with
      | .error e => .error ⟨-5, "Serialize body failed: " ++ e.errmsg⟩
      | .ok bytes => bodyLoop max_bdy_sz l (bdy ++ bytes)

/-- A packet of a header's value and a body with its tag. -/
def encodeBody (mem : Nat → UInt8) (hdr : List UInt8) (body_tree : KnvNode) :
    Except KnvError (List UInt8) :=
  let bdy_sz := (evaluateSize body_tree).1.toNat
  match serialize body_tree bdy_sz true with
  | .error e => .error ⟨-5, "Serialize body failed: " ++ e.errmsg⟩
  | .ok bdy =>
    .ok ([STX_IPV6_PB] ++ be32 hdr.length ++ be32 bdy_sz ++ hdr ++ placed mem bdy_sz bdy ++
      [ETX_IPV6_PB])

namespace KnvProtocol

/-- `header->GetValue()`. -/
def headerValue (P : KnvProtocol) : Except KnvError (List UInt8) :=
  match P.getHeader with
  | none => .error ⟨0, "no header"⟩
  | some h => h.fold.map str

/-- `SetRetCode(0)`. -/
def clearRetCode (P : KnvProtocol) : Except KnvError KnvProtocol :=
  match editChild (setMetaInt · KNV_PKG_HDR_RET_TAG 0) P.header P.tree with
  | .error e => .error ⟨-2, "Set retcode failed: Set header meta failed: " ++ e.errmsg⟩
  | .ok tree => .ok { P with tree := tree, info := { P.info with retcode := 0 } }

/-- `SetRetErrorMsg(NULL, 0)`. -/
def clearRetErrorMsg (P : KnvProtocol) : Except KnvError KnvProtocol :=
  match editChild (removeField · KNV_PKG_HDR_ERR_TAG) P.header P.tree with
  | .error e => .error ⟨-3, "Set ret msg failed: Set header meta failed: " ++ e.errmsg⟩
  | .ok tree => .ok { P with tree := tree, info := { P.info with retmsg := none } }

/-- `EncodeOidb` with a given tree. -/
def encodeOidbTree (P : KnvProtocol) (mem : Nat → UInt8) (body_tree : KnvNode) :
    Except KnvError (List UInt8) := do
  encodeBody mem (← P.headerValue) body_tree

/-- `EncodeAllOidb`. -/
def encodeAllOidb (P : KnvProtocol) : Except KnvError (List UInt8) := do
  let hdr ← P.headerValue
  let bdy ← bodyLoop (evaluateSize P.tree).1.toNat (P.tree.innerExpand false false).childlist []
  return ([STX_IPV6_PB] ++ be32 hdr.length ++ be32 bdy.length ++ hdr ++ bdy ++
    [ETX_IPV6_PB]).take (hdr.length + bdy.length + 9)

/-- `EncodeCompatOidb` of the current body. -/
def encodeCompatOidbTree (P : KnvProtocol) : Except KnvError (List UInt8) := do
  let hdr ← P.headerValue
  let bdy ← match P.getBody with
    | none => pure []
    | some b => b.fold.map str
  return [STX_IPV6_PB] ++ be32 hdr.length ++ be32 bdy.length ++ hdr ++ bdy ++ [ETX_IPV6_PB]

/-- `EncodeOidb` and `EncodeCompatOidb` without a body. -/
def encodeNoBody (P : KnvProtocol) : Except KnvError (List UInt8) := do
  let hdr ← P.headerValue
  return [STX_IPV6_PB] ++ be32 hdr.length ++ be32 0 ++ hdr ++ [ETX_IPV6_PB]

/-- The calls. -/
inductive OidbCall where
  | encodeOidb
  | encodeOidbWithBody (b : KnvNode)
  | encodeCompatOidb

/-- A call.  An object with a return code has no bodies to encode, unless one is given. -/
def encodeWith (P : KnvProtocol) (mem : Nat → UInt8) (call : OidbCall) : Except KnvError (List UInt8) :=
  if !P.isValid then .error ⟨-1, "Protocol is not initialized"⟩
  else match call with
    | .encodeOidb => if P.info.retcode ≠ 0 then P.encodeNoBody else P.encodeAllOidb
    | .encodeOidbWithBody b => do
      let P ← if P.info.retcode ≠ 0 then P.clearRetCode else pure P
      let P ← if P.info.retmsg ≠ none then P.clearRetErrorMsg else pure P
      P.encodeOidbTree mem b
    | .encodeCompatOidb => if P.info.retcode ≠ 0 then P.encodeNoBody else P.encodeCompatOidbTree

/-- The bodies that a call encodes. -/
def encoded (P : KnvProtocol) : OidbCall → List KnvNode
  | .encodeOidb => P.bodies
  | .encodeOidbWithBody b => [b]
  | .encodeCompatOidb => P.getBody.toList

/-- **The round trip of a call**: an object is made from the string, it is valid, and its header and
    its bodies have the same fields. -/
def RoundTrip (P : KnvProtocol) (mem : Nat → UInt8) (call : OidbCall) : Prop :=
  ∃ s Q, P.encodeWith mem call = .ok s ∧ decode s = some Q ∧ Q.isValid = true ∧
    Q.getHeader.map getStrVal = P.getHeader.map getStrVal ∧
    Q.bodies.map getStrVal = (P.encoded call).map getStrVal

end KnvProtocol

/-! ## Nodes with a value -/

/-- The node `n` has the value `v`: it is folded to it, written with it, and its size says so. -/
structure Content (n : KnvNode) (tag : UInt32) (v : List UInt8) : Prop where
  writes : Writes n ⟨tag, .string v⟩
  tag_ne : tag ≠ 0
  fold : ∃ n', n.fold = .ok n' ∧ n'.str = v
  eval_sz : 0 ≤ n.eval_sz
  eval_val_sz : n.eval_val_sz = v.length
  metas : ∀ t, (n.innerExpand false false).lookupMeta t ≠ none →
    ∃ m ∈ (n.innerExpand false false).metalist, m.tag.toNat = t ∧ 0 < (evaluateSize m).1 ∧
      (evaluateSize m).1 ≤ v.length

theorem Content.getStrVal {n : KnvNode} {tag : UInt32} {v : List UInt8} (h : Content n tag v) :
    n.getStrVal = v := by
  obtain ⟨n', hfold, hstr⟩ := h.fold
  rw [KnvNode.getStrVal, hfold]
  exact hstr

theorem lookupMeta_ne_none {n : KnvNode} {t : Nat} (h : n.lookupMeta t ≠ none) :
    n.metalist ≠ [] ∧ ∃ r, n.metas t = some r := by
  rw [lookupMeta] at h
  split at h
  · exact absurd rfl h
  · rename_i hne
    refine ⟨hne, ?_⟩
    cases hr : n.metas t with
    | none => rw [hr] at h; exact absurd rfl h
    | some r => exact ⟨r, rfl⟩

theorem getMeta_ref (n : KnvNode) (r : Nat) (t : UInt32) :
    ({ n with ref := r } : KnvNode).getMeta t = n.getMeta t := by
  rw [getMeta, getMeta, innerExpand_ref]

/-- A node that was built. -/
theorem Content.of_means {n : KnvNode} {tag : UInt32} {key : Option FieldVal} {ms : List PbField}
    {ts : List Tree} (h : Means n (.node tag key ms ts)) :
    Content n tag (messageBytes (nodeFields key ms ts)) := by
  obtain ⟨htr, _⟩ := means_node.mp h
  have hfield : (Tree.node tag key ms ts).field = ⟨tag, .string (messageBytes (nodeFields key ms ts))⟩ := by
    rw [Tree.field, Tree.fieldList_eq]
    rfl
  refine ⟨hfield ▸ h.writes, htr.tag_ne, ?_, by rw [htr.sz]; omega, htr.val_sz, ?_⟩
  · by_cases hne : nodeFields key ms ts = []
    · refine ⟨n, ?_, ?_⟩
      · rw [KnvNode.fold, if_neg (by rw [htr.tag]; exact htr.tag_ne),
          if_pos (by rw [htr.isFolded]; exact decide_eq_true hne)]
      · rw [hne, str, htr.val]
        rfl
    · obtain ⟨n', hfold, hstr, _⟩ := fold_means h hne
      exact ⟨n', hfold, hstr⟩
  · rw [htr.innerExpand]
    intro t hlook
    obtain ⟨hne, r, hr⟩ := lookupMeta_ne_none hlook
    obtain ⟨m, hm, _, ht⟩ := htr.metas.known hne t r hr
    obtain ⟨f, hf, hl⟩ := forall₂_mem htr.metalist hm
    have hsz : (evaluateSize m).1 = f.size := hl.toStands.evaluateSize
    refine ⟨m, hm, ht, by rw [hsz]; exact_mod_cast f.size_pos, ?_⟩
    rw [hsz]
    have hmem : f ∈ nodeFields key ms ts := List.mem_append_left _ hf
    exact_mod_cast size_le_of_mem hmem

/-- A node that was read, or made from a value. -/
theorem Content.of_read {n : KnvNode} {tag : UInt32} {v : List UInt8} {sz : Nat} (htag : tag ≠ 0)
    (hn : OfField false n (⟨tag, .string v⟩, sz))
    (hsz : sz = 0 ∨ sz = (⟨tag, .string v⟩ : PbField).size) : Content n tag v := by
  obtain ⟨r, hr⟩ := hn
  have hst : Stands n ⟨tag, .string v⟩ := by
    have h := initNode_stands ⟨tag, .string v⟩ hsz false
    rw [hr]
    exact ⟨h.tag, h.val, h.flat, h.size⟩
  have hnum := initNode_child_num tag (.string v) sz false
  refine ⟨hst.writes htag, htag, ?_, by rw [hst.size]; omega, by rw [hr]; rfl, ?_⟩
  · refine ⟨n, ?_, by rw [str, hst.val]; rfl⟩
    rw [KnvNode.fold, if_neg (by rw [hst.tag]; exact htag), if_pos (by rw [isFolded, hst.flat]; rfl)]
  · intro t hlook
    obtain ⟨hne, _⟩ := lookupMeta_ne_none hlook
    rcases hnum with hnum | hnum
    · have hnum' : n.child_num = none := by rw [hr]; exact hnum
      by_cases hbad : ∀ fs, pbFields v ≠ some (fs, true)
      · exact absurd (innerExpand_malformed hnum' hst.val hbad false false).2.1 hne
      · obtain ⟨fs, hfs⟩ := not_forall.mp hbad
        have hp := not_not.mp hfs
        have hg := (innerExpand_grown hnum' hst.val (by rw [hr]; rfl) hp (p := false)
          (fun h => absurd h.2 Bool.false_ne_true) false).1
        rw [hg.metas t] at hlook
        obtain ⟨m, hm⟩ := Option.ne_none_iff_exists'.mp hlook
        have hmem := List.mem_reverse.mp (List.mem_of_find?_eq_some hm)
        have hsize : ∀ p ∈ fs, 0 < p.2 ∧ p.2 ≤ v.length := by
          intro p hp'
          obtain ⟨h1, h2⟩ := (pbFields_taken hp).2.2.2 p hp'
          exact ⟨Nat.lt_of_lt_of_le p.1.size_pos h1, h2⟩
        obtain ⟨p, hpmem, r', hmeta⟩ := forall₂_mem hg.metalist hmem
        have hpos := hsize p (List.mem_of_mem_filter hpmem)
        have hsz' : (evaluateSize m).1 = p.2 := by
          have heval : m.eval_sz = p.2 := by
            rw [hmeta]
            show (if true = true then (if 0 < p.2 then (p.2 : Int) else _) else 0) = _
            rw [if_pos rfl, if_pos hpos.1]
          rw [evaluateSize_cached (by rw [heval]; omega), heval]
        have htag' := List.find?_some (p := fun m : KnvNode => decide (m.tag.toNat = t)) hm
        refine ⟨m, hmem, of_decide_eq_true htag', ?_, ?_⟩
        · rw [hsz']
          exact_mod_cast hpos.1
        · rw [hsz']
          exact_mod_cast hpos.2
    · have hnum' : n.child_num = some 0 := by rw [hr]; exact hnum
      rw [innerExpand_expanded (by rw [hnum']; exact fun h => nomatch h)] at hne
      exact absurd (by rw [hr]; rfl) hne

theorem getStrVal_init {tag : UInt32} (htag : tag ≠ 0) (v : List UInt8) (r : Nat) :
    ({ initNode tag (.string v) true 0 false with ref := r } : KnvNode).getStrVal = v :=
  Content.getStrVal (@Content.of_read _ tag v 0 htag ⟨r, rfl⟩ (.inl rfl))

/-- The value of a field that was read. -/
theorem getStrVal_ofField {c : KnvNode} {p : PbField × Nat} (h : OfField false c p) :
    c.getStrVal.length ≤ p.1.val.str.length := by
  obtain ⟨r, hr⟩ := h
  have hflat : c.isFlat = true := by
    rw [hr]
    exact isFlat_of_nothing (initNode_child_num p.1.tag p.1.val p.2 false) rfl
  rw [KnvNode.getStrVal, KnvNode.fold]
  split
  · exact Nat.zero_le _
  · rename_i n hn
    split at hn
    · cases hn
    · rw [if_pos (by rw [isFolded, hflat]; rfl)] at hn
      rw [← Except.ok.inj hn, hr]
      exact Nat.le_refl _

theorem evaluateSize_nonneg (n : KnvNode) : 0 ≤ (evaluateSize n).1 := by
  obtain ⟨d, ms, cs⟩ := n
  rw [evaluateSize]
  simp only
  split
  · assumption
  · split
    · exact Int.natCast_nonneg _
    · exact Int.natCast_nonneg _

theorem evaluateSize_le_of_mem {m : KnvNode} {l : List KnvNode} (h : m ∈ l) :
    (evaluateSize m).1 ≤ evaluateSizes l false := by
  have hnonneg : ∀ l, 0 ≤ evaluateSizes l false := by
    intro l
    induction l with
    | nil => exact Int.le_refl 0
    | cons n l ih =>
      have := evaluateSize_nonneg n
      rw [evaluateSizes, if_neg Bool.false_ne_true]
      omega
  induction l with
  | nil => exact absurd h List.not_mem_nil
  | cons n l ih =>
    have h0 := evaluateSize_nonneg n
    have h1 := hnonneg l
    rw [evaluateSizes, if_neg Bool.false_ne_true]
    rcases List.mem_cons.mp h with rfl | h
    · omega
    · have := ih h
      omega

/-- What a node that was edited is folded to. -/
theorem fold_edited {n n' : KnvNode} {offset : Int} (hsz : 0 ≤ n.eval_sz) (hoff : offset ≠ 0)
    (h : (edited n offset).1.fold = .ok n') :
    n'.str = [] ∨ (n'.str.length : Int) = n.eval_val_sz + offset := by
  have hed : (edited n offset).1 = { n with
      val := .string [], subnode_dirty := true
      eval_sz := (pbEvalStringLength n.tag (n.eval_val_sz + offset).toNat : Int)
      eval_val_sz := n.eval_val_sz + offset } := by
    rw [edited, if_pos hsz, updateEvalSz, if_neg hoff]
    rfl
  rw [hed, KnvNode.fold] at h
  split at h
  · cases h
  · split at h
    · rw [← Except.ok.inj h]
      exact .inl rfl
    · rw [evaluateSize_cached (Int.natCast_nonneg _)] at h
      simp only at h
      split at h
      · cases h
      · split at h
        · cases h
        · rename_i hne
          rw [← Except.ok.inj h]
          exact .inr (not_not.mp hne).symm

/-! ## Packets and their decoding -/

/-- A packet. -/
def packet (hdr bdy : List UInt8) : List UInt8 :=
  [STX_IPV6_PB] ++ be32 hdr.length ++ be32 bdy.length ++ hdr ++ bdy ++ [ETX_IPV6_PB]

theorem length_be32 (n : Nat) : (be32 n).length = 4 := by
  rw [be32, List.length_reverse, length_leBytes]

/-- A length that was written is read. -/
theorem readBe32_append {n : Nat} (hn : n < 2 ^ 32) {l r : List UInt8} {i : Nat}
    (hi : l.length = i) : readBe32 (l ++ be32 n ++ r) i = n := by
  have htake : ((l ++ be32 n ++ r).drop i).take 4 = be32 n := by
    rw [← hi, List.append_assoc, List.drop_left, List.take_left' (length_be32 n)]
  rw [readBe32, htake, be32, List.reverse_reverse, leNat_leBytes, Nat.mod_eq_of_lt (by omega)]

section Packet

variable {hdr bdy : List UInt8}

theorem length_packet (hdr bdy : List UInt8) :
    (packet hdr bdy).length = hdr.length + bdy.length + 10 := by
  simp only [packet, List.length_append, length_be32, List.length_singleton]
  omega

/-- The parts of a packet, or of the beginning of one. -/
theorem packet_parts (tail : List UInt8) (hh : hdr.length < 2 ^ 32) (hb : bdy.length < 2 ^ 32) :
    let s := [STX_IPV6_PB] ++ be32 hdr.length ++ be32 bdy.length ++ hdr ++ bdy ++ tail
    readBe32 s 1 = hdr.length ∧ readBe32 s 5 = bdy.length ∧ (s.drop 9).take hdr.length = hdr ∧
      s.drop (9 + hdr.length) = bdy ++ tail := by
  have hs : ∀ n m : Nat, ([STX_IPV6_PB] ++ be32 n ++ be32 m).length = 9 := by
    intro n m
    simp only [List.length_append, length_be32, List.length_singleton]
  refine ⟨?_, ?_, ?_, ?_⟩
  · have h := readBe32_append hh (l := [STX_IPV6_PB])
      (r := be32 bdy.length ++ hdr ++ bdy ++ tail) (i := 1) rfl
    simpa only [List.append_assoc] using h
  · have h := readBe32_append hb (l := [STX_IPV6_PB] ++ be32 hdr.length)
      (r := hdr ++ bdy ++ tail) (i := 5) (by rw [List.length_append, length_be32]; rfl)
    simpa only [List.append_assoc] using h
  · rw [List.append_assoc, List.append_assoc, List.drop_left' (hs _ _), List.take_left]
  · rw [List.append_assoc, List.append_assoc, ← List.drop_drop, List.drop_left' (hs _ _),
      List.drop_left]

/-- The decoder looks at the first two bytes behind the header. -/
theorem take_two_append (bdy : List UInt8) :
    (bdy ++ [ETX_IPV6_PB]).take 2 = STX_KNV_BDY ↔ STX_KNV_BDY <+: bdy := by
  rw [List.prefix_iff_eq_take]
  match bdy with
  | [] => exact ⟨fun h => absurd h (by decide), fun h => absurd h (by decide)⟩
  | [a] =>
    constructor
    · intro h
      injection h with _ h
      injection h with h
      exact absurd h (by decide)
    · intro h
      injection h with _ h
      cases h
  | a :: b :: l => exact ⟨fun h => h.symm, fun h => h.symm⟩

/-- The checks of the decoder are passed. -/
theorem decode_packet (hlen : hdr.length + bdy.length + 10 < 2 ^ 31) :
    KnvProtocol.decode (packet hdr bdy) =
      let header := initNode KNV_PKG_HDR_TAG (.string hdr) true 0 false
      (if STX_KNV_BDY <+: bdy then initCollection header bdy else initCompat header bdy).toOption := by
  obtain ⟨h1, h2, h3, h4⟩ := @packet_parts hdr bdy [ETX_IPV6_PB] (by omega) (by omega)
  have hl := length_packet hdr bdy
  have hetx : (packet hdr bdy)[hdr.length + bdy.length + 9]? = some ETX_IPV6_PB := by
    rw [packet, List.getElem?_append_right]
    all_goals simp only [List.length_append, length_be32, List.length_singleton]
    · rw [show hdr.length + bdy.length + 9 - (1 + 4 + 4 + hdr.length + bdy.length) = 0 by omega]
      rfl
    · omega
  have htotal : int32 ((hdr.length + bdy.length + 10 : Nat) : Int) =
      (hdr.length + bdy.length + 10 : Nat) := int32_of_lt (by omega) (by omega)
  have hlast : (((hdr.length + bdy.length + 10 : Nat) : Int) - 1).toNat =
      hdr.length + bdy.length + 9 := by omega
  change readBe32 (packet hdr bdy) 1 = _ at h1
  change readBe32 (packet hdr bdy) 5 = _ at h2
  change ((packet hdr bdy).drop 9).take _ = _ at h3
  change (packet hdr bdy).drop _ = _ at h4
  rw [KnvProtocol.decode, if_pos (show (packet hdr bdy).head? = some STX_IPV6_PB from rfl),
    initFromOidbPkg, if_neg (by omega)]
  simp only [h1, h2, h3, h4, htotal, hl, hlast, hetx, take_two_append, List.take_left]
  rw [if_neg (by omega), if_neg (not_or.mpr ⟨by omega, not_not_intro rfl⟩)]

end Packet

/-- An insertion leaves the tag, and the node is expanded then. -/
structure Inserted (n n' : KnvNode) : Prop where
  tag : n'.tag = n.tag
  isString : n'.isString = true
  child_num : n'.child_num ≠ none
  next_ref : n'.next_ref = (n.innerExpand false false).next_ref + 1

section Insert

variable {n : KnvNode} (htag : n.tag ≠ 0) (hstr : n.isString = true) (c : KnvNode)
include htag hstr

theorem insertFront_ok : ∃ n' offsets, n.insertFront c = .ok (n', offsets) ∧ Inserted n n' ∧
    n'.childlist = { c with ref := (n.innerExpand false false).next_ref } ::
      (n.innerExpand false false).childlist := by
  have hhead := innerExpand_head n false false
  have hnum := innerExpand_num n false false
  rw [insertFront, if_neg htag, hstr, if_neg (by decide)]
  generalize he : n.innerExpand false false = e at hhead hnum ⊢
  obtain ⟨sz, val_sz, hed⟩ := edited_eq (e.hangChildFront c) (evaluateSize c).1
  refine ⟨(edited (e.hangChildFront c) (evaluateSize c).1).1, _, rfl, ?_, by rw [hed]; rfl⟩
  rw [hed]
  exact ⟨congrArg (fun h => h.2.1) hhead, rfl, fun h => hnum (Option.map_eq_none_iff.mp h),
    by rw [he]; rfl⟩

theorem insertNode_ok : ∃ n' offsets, n.insertNode c = .ok (n', offsets) ∧ Inserted n n' ∧
    n'.childlist = (n.innerExpand false false).childlist ++
      [{ c with ref := (n.innerExpand false false).next_ref }] := by
  have hhead := innerExpand_head n false false
  have hnum := innerExpand_num n false false
  rw [insertNode, if_neg htag, hstr, if_neg (by decide)]
  generalize he : n.innerExpand false false = e at hhead hnum ⊢
  obtain ⟨sz, val_sz, hed⟩ := edited_eq (e.hangChild c) (evaluateSize c).1
  refine ⟨(edited (e.hangChild c) (evaluateSize c).1).1, _, rfl, ?_, by rw [hed]; rfl⟩
  rw [hed]
  exact ⟨congrArg (fun h => h.2.1) hhead, rfl, fun h => hnum (Option.map_eq_none_iff.mp h),
    by rw [he]; rfl⟩

end Insert

/-- What is decoded from a collection of bodies. -/
theorem initCollection_ok {header : KnvNode} (htag : header.tag = KNV_PKG_HDR_TAG)
    (content : List UInt8) : ∃ Q r, initCollection header content = .ok Q ∧ Q.isValid = true ∧
      Q.getHeader = some { header with ref := r } ∧
      Q.bodies = ((initNode KNV_PKG_TAG (.string content) true 0 false).innerExpand
        false false).childlist.filter fun b => b.tag = KNV_PKG_BDY_TAG := by
  obtain ⟨tree', offsets, hins, hi, hlist⟩ := insertFront_ok
    (n := initNode KNV_PKG_TAG (.string content) true 0 false) (show KNV_PKG_TAG ≠ 0 by decide) rfl header
  obtain ⟨r, hr⟩ : ∃ r, r = ((initNode KNV_PKG_TAG (.string content) true 0 false).innerExpand
    false false).next_ref := ⟨_, rfl⟩
  rw [← hr] at hlist
  refine ⟨⟨tree', r, none, initHeaderInfo header⟩, r, ?_, ?_, ?_, ?_⟩
  · rw [initCollection]
    simp only [hins, hr]
  · exact decide_eq_true hi.tag
  · rw [KnvProtocol.getHeader, hlist]
    exact List.find?_cons_of_pos (decide_eq_true rfl)
  · rw [KnvProtocol.bodies, innerExpand_expanded hi.child_num, hlist]
    refine List.filter_cons_of_neg ?_
    rw [decide_eq_true_iff]
    show header.tag ≠ _
    rw [htag]
    decide

/-- What is decoded from the value of one body. -/
theorem initCompat_ok {header : KnvNode} (htag : header.tag = KNV_PKG_HDR_TAG)
    (content : List UInt8) : ∃ Q r r', initCompat header content = .ok Q ∧ Q.isValid = true ∧
      Q.getHeader = some { header with ref := r } ∧ Q.bodies =
        [{ initNode KNV_PKG_BDY_TAG (.string content) true 0 false with ref := r' }] ∧
      Q.getBody.toList = Q.bodies ∧ Q.info = initHeaderInfo header := by
  obtain ⟨tree₁, _, hins₁, h₁, hlist₁⟩ := insertNode_ok
    (n := initNode KNV_PKG_TAG (.string []) true 0 false) (show KNV_PKG_TAG ≠ 0 by decide) rfl header
  obtain ⟨tree₂, _, hins₂, h₂, hlist₂⟩ := insertNode_ok (n := tree₁)
    (by rw [h₁.tag]; exact (by decide : KNV_PKG_TAG ≠ 0)) h₁.isString
    (initNode KNV_PKG_BDY_TAG (.string content) true 0 false)
  rw [innerExpand_expanded h₁.child_num] at hlist₂
  have hempty : (initNode KNV_PKG_TAG (.string []) true 0 false).innerExpand false false =
      initNode KNV_PKG_TAG (.string []) true 0 false := innerExpand_expanded (by decide) false false
  rw [hempty] at hlist₁
  have hlist : tree₂.childlist = [{ header with ref := 0 },
      { initNode KNV_PKG_BDY_TAG (.string content) true 0 false with ref := tree₁.next_ref }] := by
    rw [hlist₂, hlist₁]
    rfl
  have href : tree₁.next_ref = 1 := by
    rw [h₁.next_ref, hempty]
    rfl
  have hbodies : KnvProtocol.bodies ⟨tree₂, 0, some tree₁.next_ref, initHeaderInfo header⟩ =
      [{ initNode KNV_PKG_BDY_TAG (.string content) true 0 false with ref := tree₁.next_ref }] := by
    rw [KnvProtocol.bodies, innerExpand_expanded h₂.child_num, hlist, List.filter_cons_of_neg]
    · exact List.filter_cons_of_pos (decide_eq_true rfl)
    · rw [decide_eq_true_iff]
      show header.tag ≠ _
      rw [htag]
      decide
  refine ⟨_, 0, tree₁.next_ref, ?_, ?_, ?_, hbodies, ?_, rfl⟩
  · rw [initCompat]
    simp only [hins₁, hins₂]
    rfl
  · exact decide_eq_true (h₂.tag.trans h₁.tag)
  · rw [KnvProtocol.getHeader, hlist]
    exact List.find?_cons_of_pos (decide_eq_true rfl)
  · rw [hbodies, KnvProtocol.getBody, hlist, href]
    rfl

/-! ## Which calls come back -/

namespace KnvProtocol

/-- An object whose header and bodies have a value.  A return message was found in the header. -/
structure Sound (P : KnvProtocol) : Prop where
  valid : P.isValid = true
  header : ∃ h v, P.getHeader = some h ∧ Content h KNV_PKG_HDR_TAG v
  retmsg : P.info.retmsg ≠ none → ∃ h, P.getHeader = some h ∧ h.getMeta KNV_PKG_HDR_ERR_TAG ≠ none
  body : ∀ b, P.getBody = some b → ∃ v, Content b KNV_PKG_BDY_TAG v

/-- The condition for a call. -/
def Comes (P : KnvProtocol) : OidbCall → Prop
  | .encodeOidb => False
  | .encodeOidbWithBody _ => P.info.retmsg = none
  | .encodeCompatOidb => ∃ b, P.getBody = some b ∧ ¬ STX_KNV_BDY <+: b.getStrVal

section Calls

variable {P : KnvProtocol} {mem : Nat → UInt8} {h : KnvNode} {v : List UInt8}

theorem headerValue_eq (hh : P.getHeader = some h) (hv : Content h KNV_PKG_HDR_TAG v) :
    P.headerValue = .ok v := by
  obtain ⟨h', hfold, hstr⟩ := hv.fold
  rw [headerValue, hh]
  show h.fold.map str = _
  rw [hfold, ← hstr]
  rfl

/-- `EncodeOidb` forgets the last byte, so that nothing is decoded. -/
theorem not_roundTrip_all (hret : P.info.retcode = 0)
    (hfits : ∀ s, P.encodeWith mem .encodeOidb = .ok s → s.length + 1 < 2 ^ 31) :
    ¬ P.RoundTrip mem .encodeOidb := by
  rintro ⟨s, Q, hs, hdec, _⟩
  have hlen := hfits s hs
  rw [encodeWith] at hs
  split at hs
  · cases hs
  · simp only [if_neg (not_not_intro hret)] at hs
    rw [encodeAllOidb] at hs
    cases hhdr : P.headerValue with
    | error e => rw [hhdr] at hs; cases hs
    | ok hdr =>
      rw [hhdr] at hs
      cases hbdy : bodyLoop (evaluateSize P.tree).1.toNat (P.tree.innerExpand false false).childlist [] with
      | error e => simp only [hbdy] at hs; cases hs
      | ok bdy =>
        simp only [hbdy] at hs
        have hs := Except.ok.inj hs
        have htake : ([STX_IPV6_PB] ++ be32 hdr.length ++ be32 bdy.length ++ hdr ++ bdy ++
            [ETX_IPV6_PB]).take (hdr.length + bdy.length + 9) =
            [STX_IPV6_PB] ++ be32 hdr.length ++ be32 bdy.length ++ hdr ++ bdy ++ [] := by
          rw [List.append_nil, List.take_left']
          simp only [List.length_append, length_be32, List.length_singleton]
          omega
        rw [htake] at hs
        have hl : s.length = hdr.length + bdy.length + 9 := by
          rw [← hs]
          simp only [List.length_append, length_be32, List.length_singleton, List.length_nil]
          omega
        obtain ⟨h1, h2, _⟩ := @packet_parts hdr bdy [] (by omega) (by omega)
        simp only [hs] at h1 h2
        have htotal : int32 ((hdr.length + bdy.length + 10 : Nat) : Int) =
            (hdr.length + bdy.length + 10 : Nat) := int32_of_lt (by omega) (by omega)
        rw [decode, if_pos (by rw [← hs]; rfl), initFromOidbPkg] at hdec
        split at hdec
        · cases hdec
        · simp only [h1, h2, htotal, hl] at hdec
          rw [if_pos (by omega)] at hdec
          cases hdec

/-- A body that has a value is written as it is. -/
theorem encodeBody_eq {b : KnvNode} {w : List UInt8} (hb : Content b KNV_PKG_BDY_TAG w)
    (mem : Nat → UInt8) (hdr : List UInt8) :
    encodeBody mem hdr b = .ok (packet hdr (fieldBytes KNV_PKG_BDY_TAG (.string w))) := by
  have hsz : (evaluateSize b).1.toNat = (fieldBytes KNV_PKG_BDY_TAG (.string w)).length := by
    rw [hb.writes.size, length_fieldBytes]
    rfl
  have hser := hb.writes.bytes (evaluateSize b).1.toNat (by rw [hb.writes.size]; exact Nat.le_refl _)
  rw [hsz] at hser
  rw [encodeBody]
  simp only [hsz, hser, placed, Nat.sub_self, List.range_zero, List.map_nil, List.append_nil]
  rfl

/-- One body with its tag. -/
theorem collection_body {w : List UInt8}
    (hlen : (fieldBytes KNV_PKG_BDY_TAG (.string w)).length < 2 ^ 31) :
    (((initNode KNV_PKG_TAG (.string (fieldBytes KNV_PKG_BDY_TAG (.string w))) true 0 false).innerExpand
      false false).childlist.filter fun b => b.tag = KNV_PKG_BDY_TAG).map getStrVal = [w] := by
  obtain ⟨f, hf⟩ : ∃ f : PbField, f = ⟨KNV_PKG_BDY_TAG, .string w⟩ := ⟨_, rfl⟩
  have hmsg : fieldBytes KNV_PKG_BDY_TAG (.string w) = messageBytes [f] := by
    rw [hf, messageBytes, List.flatMap_singleton]
  rw [hmsg] at hlen ⊢
  have hok : ∀ g ∈ [f], FieldOk g.tag g.val := by
    intro g hg
    have htag : g.tag = KNV_PKG_BDY_TAG := by rw [List.mem_singleton.mp hg, hf]
    exact fieldOk_of_mem hlen hg (by rw [htag]; decide) (by rw [htag]; decide)
  have hg := innerExpand_message (n := initNode KNV_PKG_TAG (.string (messageBytes [f])) true 0 false)
    (p := false) (initNode_num (pbFields_messageBytes hok hlen)) rfl rfl hok hlen
    (fun h => absurd h.2 Bool.false_ne_true) false
  have hch := hg.ofField_childlist
  have hchild : childFields [f] = [f] := by
    rw [childFields, hf]
    rfl
  rw [hchild] at hch
  obtain ⟨c, l, hc, hl, hlist⟩ := List.forall₂_cons_right_iff.mp hch
  cases hl
  have hcontent : Content c KNV_PKG_BDY_TAG w := by
    rw [hf] at hc
    exact Content.of_read (by decide) hc (.inr rfl)
  have htag : c.tag = KNV_PKG_BDY_TAG := hcontent.writes.tag
  rw [hlist, List.filter_cons_of_pos (by exact decide_eq_true htag), List.filter_nil,
    List.map_singleton, hcontent.getStrVal]

/-- A packet with one body that has its tag. -/
theorem decode_withBody {w : List UInt8}
    (hlen : v.length + (fieldBytes KNV_PKG_BDY_TAG (.string w)).length + 10 < 2 ^ 31) :
    ∃ Q, decode (packet v (fieldBytes KNV_PKG_BDY_TAG (.string w))) = some Q ∧ Q.isValid = true ∧
      Q.getHeader.map getStrVal = some v ∧ Q.bodies.map getStrVal = [w] := by
  have hpre : STX_KNV_BDY <+: fieldBytes KNV_PKG_BDY_TAG (.string w) := by
    have hhead : vintBytes (tagWord .string KNV_PKG_BDY_TAG) = STX_KNV_BDY ++ [1] := by decide
    refine ⟨[1] ++ valBytes (.string w), ?_⟩
    rw [fieldBytes, show (FieldVal.string w).type = .string from rfl, hhead, List.append_assoc]
  obtain ⟨Q, r, hQ, hvalid, hheader, hbodies⟩ := @initCollection_ok
    (initNode KNV_PKG_HDR_TAG (.string v) true 0 false) rfl
    (fieldBytes KNV_PKG_BDY_TAG (.string w))
  refine ⟨Q, ?_, hvalid, ?_, ?_⟩
  · rw [decode_packet hlen]
    simp only [if_pos hpre, hQ]
    rfl
  · rw [hheader, Option.map_some, getStrVal_init (by decide) v r]
  · rw [hbodies, collection_body (by omega)]

/-- What `EncodeOidbWithBody` makes of an object without a return message. -/
theorem encodeWith_withBody (hvalid : P.isValid = true) (hh : P.getHeader = some h)
    (hv : Content h KNV_PKG_HDR_TAG v) (hret : P.info.retcode = 0) (hmsg : P.info.retmsg = none)
    {b : KnvNode} {w : List UInt8} (hb : Content b KNV_PKG_BDY_TAG w) :
    P.encodeWith mem (.encodeOidbWithBody b) =
      .ok (packet v (fieldBytes KNV_PKG_BDY_TAG (.string w))) := by
  rw [encodeWith, hvalid, if_neg (by decide)]
  simp only [if_neg (not_not_intro hret), if_neg (not_not_intro hmsg), pure_bind]
  rw [encodeOidbTree, headerValue_eq hh hv]
  exact encodeBody_eq hb mem v

/-- `EncodeOidbWithBody` on an object without a return message. -/
theorem roundTrip_withBody (hvalid : P.isValid = true) (hh : P.getHeader = some h)
    (hv : Content h KNV_PKG_HDR_TAG v) (hret : P.info.retcode = 0) (hmsg : P.info.retmsg = none)
    {b : KnvNode} {w : List UInt8}
    (hb : Content b KNV_PKG_BDY_TAG w)
    (hfits : ∀ s, P.encodeWith mem (.encodeOidbWithBody b) = .ok s → s.length + 1 < 2 ^ 31) :
    P.RoundTrip mem (.encodeOidbWithBody b) := by
  have hs := @encodeWith_withBody P mem h v hvalid hh hv hret hmsg b w hb
  have hlen := hfits _ hs
  rw [length_packet] at hlen
  obtain ⟨Q, hdec, hvalid', hheader, hbodies⟩ := decode_withBody (v := v) (w := w) (by omega)
  refine ⟨_, Q, hs, hdec, hvalid', ?_, ?_⟩
  · rw [hheader, hh, Option.map_some, hv.getStrVal]
  · rw [hbodies, encoded, List.map_singleton, hb.getStrVal]

/-- The bodies of a collection are shorter than it. -/
theorem collection_shorter (content : List UInt8) :
    ∀ c ∈ ((initNode KNV_PKG_TAG (.string content) true 0 false).innerExpand false false).childlist,
      c.getStrVal.length < content.length := by
  intro c hc
  rcases initNode_child_num KNV_PKG_TAG (.string content) 0 false with hnum | hnum
  · by_cases hbad : ∀ fs, pbFields content ≠ some (fs, true)
    · rw [(innerExpand_malformed hnum rfl hbad false false).2.2] at hc
      exact absurd hc List.not_mem_nil
    · obtain ⟨fs, hfs⟩ := not_forall.mp hbad
      have hp := not_not.mp hfs
      have hg := (innerExpand_grown hnum rfl rfl hp (p := false)
        (fun h => absurd h.2 Bool.false_ne_true) false).1
      obtain ⟨p, hpmem, hof⟩ := forall₂_mem hg.childlist hc
      obtain ⟨h1, h2⟩ := (pbFields_taken hp).2.2.2 p (List.mem_of_mem_filter hpmem)
      have hval := getStrVal_ofField hof
      have hlt : p.1.val.str.length < p.1.size := str_lt_size p.1
      omega
  · rw [innerExpand_expanded (by rw [hnum]; exact fun h => nomatch h)] at hc
    exact absurd hc List.not_mem_nil

/-- What `EncodeCompatOidb` makes of the current body. -/
theorem encodeWith_compat (hvalid : P.isValid = true) (hh : P.getHeader = some h)
    (hv : Content h KNV_PKG_HDR_TAG v) (hret : P.info.retcode = 0) {b : KnvNode} {w : List UInt8}
    (hb : P.getBody = some b) (hw : Content b KNV_PKG_BDY_TAG w) :
    P.encodeWith mem .encodeCompatOidb = .ok (packet v w) := by
  obtain ⟨b', hfold, hstr⟩ := hw.fold
  rw [encodeWith, hvalid, if_neg (by decide)]
  simp only [if_neg (not_not_intro hret)]
  rw [encodeCompatOidbTree, headerValue_eq hh hv]
  simp only [hb, hfold, ← hstr]
  rfl

/-- `EncodeCompatOidb` comes back if there is a current body whose value does not begin like a
    collection. -/
theorem roundTrip_compat_iff (hvalid : P.isValid = true) (hh : P.getHeader = some h)
    (hv : Content h KNV_PKG_HDR_TAG v) (hret : P.info.retcode = 0)
    (hbody : ∀ b, P.getBody = some b → ∃ w, Content b KNV_PKG_BDY_TAG w)
    (hfits : ∀ s, P.encodeWith mem .encodeCompatOidb = .ok s → s.length + 1 < 2 ^ 31) :
    P.RoundTrip mem .encodeCompatOidb ↔ P.Comes .encodeCompatOidb := by
  obtain ⟨w, hs, hw⟩ : ∃ w, P.encodeWith mem .encodeCompatOidb = .ok (packet v w) ∧
      (P.getBody = none ∧ w = [] ∨ ∃ b, P.getBody = some b ∧ b.getStrVal = w) := by
    cases hb : P.getBody with
    | none =>
      refine ⟨[], ?_, .inl ⟨rfl, rfl⟩⟩
      rw [encodeWith, hvalid, if_neg (by decide)]
      simp only [if_neg (not_not_intro hret)]
      rw [encodeCompatOidbTree, headerValue_eq hh hv, hb]
      rfl
    | some b =>
      obtain ⟨w, hcb⟩ := hbody b hb
      exact ⟨w, encodeWith_compat hvalid hh hv hret hb hcb, .inr ⟨b, rfl, hcb.getStrVal⟩⟩
  have hlen := hfits _ hs
  rw [length_packet] at hlen
  have hdec := @decode_packet v w (by omega)
  by_cases hp : STX_KNV_BDY <+: w
  · -- it is taken for a collection
    obtain ⟨Q, r, hQ, _, _, hbodies⟩ := @initCollection_ok
      (initNode KNV_PKG_HDR_TAG (.string v) true 0 false) rfl w
    simp only [if_pos hp, hQ] at hdec
    constructor
    · rintro ⟨s, Q', hs', hdec', _, _, hsame⟩
      obtain rfl := Except.ok.inj (hs.symm.trans hs')
      obtain rfl : Q = Q' := Option.some.inj (hdec.symm.trans hdec')
      rcases hw with ⟨_, rfl⟩ | ⟨b, hb, hval⟩
      · exact absurd hp (by decide)
      · rw [encoded, hb, Option.toList_some, List.map_singleton, hval] at hsame
        obtain ⟨c, hc, hcval⟩ := List.mem_map.mp (hsame ▸ List.mem_singleton_self w)
        rw [hbodies] at hc
        have hlt := collection_shorter w c (List.mem_of_mem_filter hc)
        rw [hcval] at hlt
        exact absurd hlt (Nat.lt_irrefl _)
    · rintro ⟨b, hb, hnp⟩
      rcases hw with ⟨hnone, _⟩ | ⟨b', hb', hval⟩
      · rw [hnone] at hb
        cases hb
      · obtain rfl := Option.some.inj (hb.symm.trans hb')
        rw [hval] at hnp
        exact absurd hp hnp
  · obtain ⟨Q, r, r', hQ, hvalid', hheader, hbodies, _⟩ := @initCompat_ok
      (initNode KNV_PKG_HDR_TAG (.string v) true 0 false) rfl w
    simp only [if_neg hp, hQ] at hdec
    have hone : Q.bodies.map getStrVal = [w] := by
      rw [hbodies, List.map_singleton]
      exact congrArg (fun x => [x]) (getStrVal_init (by decide) w r')
    constructor
    · rintro ⟨s, Q', hs', hdec', _, _, hsame⟩
      obtain rfl := Except.ok.inj (hs.symm.trans hs')
      obtain rfl : Q = Q' := Option.some.inj (hdec.symm.trans hdec')
      rw [hone] at hsame
      rcases hw with ⟨hnone, _⟩ | ⟨b, hb, hval⟩
      · rw [encoded, hnone] at hsame
        cases hsame
      · exact ⟨b, hb, by rw [hval]; exact hp⟩
    · rintro ⟨b, hb, _⟩
      refine ⟨_, Q, hs, hdec, hvalid', ?_, ?_⟩
      · rw [hheader, hh, Option.map_some, Option.map_some, hv.getStrVal,
          getStrVal_init (by decide) v r]
      · rcases hw with ⟨hnone, _⟩ | ⟨b', hb', hval⟩
        · rw [hnone] at hb
          cases hb
        · rw [hone, encoded, hb', Option.toList_some, List.map_singleton, hval]

/-- Without its return message the header is shorter. -/
theorem header_shrinks (hv : Content h KNV_PKG_HDR_TAG v)
    (hmsg : h.getMeta KNV_PKG_HDR_ERR_TAG ≠ none) : ∃ h' offsets,
      h.removeField KNV_PKG_HDR_ERR_TAG = .ok (h', offsets) ∧ h'.ref = h.ref ∧
        ∀ h'', h'.fold = .ok h'' → h''.str.length < v.length := by
  have htag : h.tag ≠ 0 := by rw [hv.writes.tag]; exact hv.tag_ne
  rw [getMeta_eq htag (by decide)] at hmsg
  obtain ⟨hne, r, hr⟩ := lookupMeta_ne_none hmsg
  obtain ⟨m, hm, hmtag, hpos, hle⟩ := hv.metas _ hmsg
  have hhead := innerExpand_head h false false
  have heval := hv.eval_sz
  have hval := hv.eval_val_sz
  rw [removeField, if_pos (by decide), removeMetaByTag, if_neg htag, if_neg (by decide)]
  generalize h.innerExpand false false = e at hhead hne hr hm ⊢
  rw [show h.eval_sz = e.eval_sz from (congrArg (fun x => x.2.2.2.2.2.1) hhead).symm] at heval
  rw [show h.eval_val_sz = e.eval_val_sz from (congrArg (fun x => x.2.2.2.2.2.2) hhead).symm] at hval
  have hgone : 0 < evaluateSizes (e.metalist.filter fun m => m.tag = KNV_PKG_HDR_ERR_TAG) false := by
    refine Int.lt_of_lt_of_le hpos (evaluateSize_le_of_mem (List.mem_filter.mpr ⟨hm, ?_⟩))
    exact decide_eq_true (UInt32.toNat_inj.mp hmtag)
  have hnot : ¬ (e.metalist = [] ∨ e.metas KNV_PKG_HDR_ERR_TAG.toNat = none) := by
    rw [hr]
    exact not_or.mpr ⟨hne, fun h => nomatch h⟩
  have hplain : (!e.no_key && decide (KNV_PKG_HDR_ERR_TAG = 1)) = false := by
    rw [show decide (KNV_PKG_HDR_ERR_TAG = 1) = false by decide, Bool.and_false]
  simp only [if_neg hnot, hplain, Bool.false_eq_true, if_false]
  obtain ⟨gone, hg⟩ : ∃ gone, gone =
    evaluateSizes (e.metalist.filter fun m => m.tag = KNV_PKG_HDR_ERR_TAG) false := ⟨_, rfl⟩
  rw [← hg] at hgone
  generalize he' : ({ e with
    metalist := e.metalist.filter fun m => m.tag ≠ KNV_PKG_HDR_ERR_TAG
    metas := fun t => if t = KNV_PKG_HDR_ERR_TAG.toNat then none else e.metas t } : KnvNode) = e'
  have heval' : 0 ≤ e'.eval_sz := by rw [← he']; exact heval
  have hval' : e'.eval_val_sz = v.length := by rw [← he']; exact hval
  refine ⟨(edited e' (-gone)).1, [(edited e' (-gone)).2], by rw [← he', hg]; rfl, ?_, ?_⟩
  · obtain ⟨sz, val_sz, hed⟩ := edited_eq e' (-gone)
    rw [hed, ← he']
    exact congrArg (fun x => x.1) hhead
  · intro h'' hfold
    rcases fold_edited heval' (by omega) hfold with hnil | hlen
    · rw [hnil]
      show 0 < v.length
      omega
    · omega

theorem parentRound_childlist (n : KnvNode) (offset : Int) (dirty : Bool) :
    (n.parentRound offset dirty).1.childlist = n.childlist := by
  have hsz : (if 0 ≤ n.eval_sz then n.updateEvalSz offset else (n, 0)).1.childlist = n.childlist := by
    split
    · rw [updateEvalSz]
      split
      · rfl
      · rfl
    · rfl
  rw [parentRound]
  generalize (if 0 ≤ n.eval_sz then n.updateEvalSz offset else (n, 0)) = p at hsz ⊢
  simp only
  split
  · split
    · exact hsz
    · exact hsz
  · exact hsz

theorem findRef_replaceRef {l : List KnvNode} {m m' : KnvNode} {r : Nat} (h : findRef l r = some m)
    (href : m'.ref = m.ref) : findRef (replaceRef m' l) r = some m' := by
  have hr : m.ref = r := of_decide_eq_true (List.find?_some (p := fun x : KnvNode => decide (x.ref = r)) h)
  induction l with
  | nil => cases h
  | cons x l ih =>
    by_cases hx : x.ref = r
    · rw [replaceRef, List.map_cons, if_pos (by rw [hx, href, hr])]
      exact List.find?_cons_of_pos (decide_eq_true (by rw [href, hr]))
    · rw [replaceRef, List.map_cons, if_neg (by rw [href, hr]; exact hx), findRef,
        List.find?_cons_of_neg (by simpa using hx)]
      rw [findRef, List.find?_cons_of_neg (by simpa using hx)] at h
      exact ih h

/-- An edit of the header. -/
theorem getHeader_editChild {f : KnvNode → Except KnvError (KnvNode × List Int)} {h' : KnvNode}
    {offsets : List Int} (hh : P.getHeader = some h) (hf : f h = .ok (h', offsets))
    (href : h'.ref = h.ref) : ∃ tree, editChild f P.header P.tree = .ok tree ∧
      findRef tree.childlist P.header = some h' := by
  have hrounds : ∀ (l : List (Int × Bool)) (n : KnvNode),
      (parentRounds n l).1.childlist = n.childlist := by
    intro l
    induction l with
    | nil => exact fun n => rfl
    | cons p l ih =>
      intro n
      rw [parentRounds]
      exact (ih _).trans (parentRound_childlist n p.1 p.2)
  rw [KnvProtocol.getHeader] at hh
  rw [editChild, hh]
  simp only [hf, Except.map]
  refine ⟨_, rfl, ?_⟩
  rw [hrounds]
  exact findRef_replaceRef hh href

/-- `EncodeOidbWithBody` on an object with a return message. -/
theorem not_roundTrip_withBody (hvalid : P.isValid = true) (hh : P.getHeader = some h)
    (hv : Content h KNV_PKG_HDR_TAG v) (hret : P.info.retcode = 0) (hmsg : P.info.retmsg ≠ none)
    (hmeta : h.getMeta KNV_PKG_HDR_ERR_TAG ≠ none) {b : KnvNode} {w : List UInt8}
    (hb : Content b KNV_PKG_BDY_TAG w)
    (hfits : ∀ s, P.encodeWith mem (.encodeOidbWithBody b) = .ok s → s.length + 1 < 2 ^ 31) :
    ¬ P.RoundTrip mem (.encodeOidbWithBody b) := by
  rintro ⟨s, Q, hs, hdec, _, hheader, _⟩
  have hlen := hfits s hs
  obtain ⟨h', offsets, hrem, href, hshort⟩ := header_shrinks hv hmeta
  obtain ⟨tree, hed, hfind⟩ := getHeader_editChild
    (f := fun n => n.removeField KNV_PKG_HDR_ERR_TAG) hh hrem href
  rw [encodeWith, hvalid, if_neg (by decide)] at hs
  simp only [if_neg (not_not_intro hret), if_pos hmsg, pure_bind, clearRetErrorMsg, hed] at hs
  have hs : encodeOidbTree ⟨tree, P.header, P.body, { P.info with retmsg := none }⟩ mem b = .ok s := hs
  have hvalue : headerValue ⟨tree, P.header, P.body, { P.info with retmsg := none }⟩ = h'.fold.map str := by
    rw [headerValue, getHeader, hfind]
  rw [encodeOidbTree, hvalue] at hs
  cases hfold : h'.fold with
  | error e => rw [hfold] at hs; cases hs
  | ok h'' =>
    rw [hfold] at hs
    have hs : encodeBody mem h''.str b = .ok s := hs
    rw [encodeBody_eq hb] at hs
    obtain rfl := Except.ok.inj hs
    rw [length_packet] at hlen
    obtain ⟨Q', hdec', _, hheader', _⟩ := decode_withBody (v := h''.str) (w := w) (by omega)
    obtain rfl : Q = Q' := Option.some.inj (hdec.symm.trans hdec')
    rw [hheader', hh, Option.map_some, hv.getStrVal, Option.some.injEq] at hheader
    have hlt := hshort h'' hfold
    rw [hheader] at hlt
    exact absurd hlt (Nat.lt_irrefl _)

end Calls

/-- **OIDB packets come back** exactly when they are made by `EncodeOidbWithBody` from an object
    without a return message, or by `EncodeCompatOidb` from a current body whose value does not begin
    like a collection of bodies. -/
theorem oidb_roundTrip_iff {P : KnvProtocol} (h : P.Sound) (hret : P.info.retcode = 0)
    (mem : Nat → UInt8) (call : OidbCall)
    (hbody : ∀ b, call = .encodeOidbWithBody b → ∃ w, Content b KNV_PKG_BDY_TAG w)
    (hfits : ∀ s, P.encodeWith mem call = .ok s → s.length + 1 < 2 ^ 31) :
    P.RoundTrip mem call ↔ P.Comes call := by
  obtain ⟨hdr, v, hh, hv⟩ := h.header
  cases call with
  | encodeOidb => exact iff_of_false (not_roundTrip_all hret hfits) id
  | encodeOidbWithBody b =>
    obtain ⟨w, hw⟩ := hbody b rfl
    constructor
    · intro hrt
      by_contra hmsg
      obtain ⟨hdr', hh', hmeta⟩ := h.retmsg hmsg
      obtain rfl : hdr = hdr' := Option.some.inj (hh.symm.trans hh')
      exact not_roundTrip_withBody h.valid hh hv hret hmsg hmeta hw hfits hrt
    · intro hmsg
      exact roundTrip_withBody h.valid hh hv hret hmsg hw hfits
  | encodeCompatOidb => exact roundTrip_compat_iff h.valid hh hv hret h.body hfits

/-- An object whose header and bodies were built. -/
theorem sound_of_means {P : KnvProtocol} {h : KnvNode} {key : Option FieldVal} {ms : List PbField}
    {ts : List Tree} (hvalid : P.isValid = true) (hh : P.getHeader = some h)
    (hm : Means h (.node KNV_PKG_HDR_TAG key ms ts)) (hmsg : P.info.retmsg = none)
    (hb : ∀ b, P.getBody = some b → ∃ key ms ts, Means b (.node KNV_PKG_BDY_TAG key ms ts)) :
    P.Sound where
  valid := hvalid
  header := ⟨h, _, hh, Content.of_means hm⟩
  retmsg := fun h => absurd hmsg h
  body := by
    intro b hbody
    obtain ⟨key, ms, ts, hm⟩ := hb b hbody
    exact ⟨_, Content.of_means hm⟩

/-- An object that was decoded from the value of one body. -/
theorem sound_decode {v w : List UInt8} (hlen : v.length + w.length + 10 < 2 ^ 31)
    (hw : ¬ STX_KNV_BDY <+: w) : ∃ P b, decode (packet v w) = some P ∧ P.Sound ∧
      P.getBody = some b ∧ Content b KNV_PKG_BDY_TAG w ∧
      P.info = initHeaderInfo (initNode KNV_PKG_HDR_TAG (.string v) true 0 false) := by
  obtain ⟨P, r, r', hP, hvalid, hheader, hbodies, hbody, hinfo⟩ := @initCompat_ok
    (initNode KNV_PKG_HDR_TAG (.string v) true 0 false) rfl w
  rw [hbodies] at hbody
  have hb : P.getBody = some { initNode KNV_PKG_BDY_TAG (.string w) true 0 false with ref := r' } :=
    Option.toList_eq_singleton_iff.mp hbody
  have hcontent : Content { initNode KNV_PKG_BDY_TAG (.string w) true 0 false with ref := r' }
    KNV_PKG_BDY_TAG w := @Content.of_read _ _ w 0 (by decide) ⟨r', rfl⟩ (.inl rfl)
  refine ⟨P, _, ?_, ⟨hvalid, ?_, ?_, ?_⟩, hb, hcontent, hinfo⟩
  · rw [decode_packet hlen]
    simp only [if_neg hw, hP]
    rfl
  · exact ⟨_, v, hheader, @Content.of_read _ _ v 0 (by decide) ⟨r, rfl⟩ (.inl rfl)⟩
  · intro hmsg
    refine ⟨_, hheader, fun hnone => hmsg ?_⟩
    rw [getMeta_ref] at hnone
    rw [hinfo, initHeaderInfo, hnone]
    rfl
  · intro b hb'
    rw [hb] at hb'
    exact ⟨w, Option.some.inj hb' ▸ hcontent⟩

/-- An object with the command 5 and one body, decoded: the calls that come back. -/
theorem oidb_roundTrip_small : ∃ P b, decode (packet [16, 5] [88, 1]) = some P ∧ P.Sound ∧
    P.RoundTrip (fun _ => 0) (.encodeOidbWithBody b) ∧ P.RoundTrip (fun _ => 0) .encodeCompatOidb := by
  obtain ⟨P, b, hdec, hsound, hb, hcontent, hinfo⟩ := @sound_decode [16, 5] [88, 1] (by decide)
    (by decide)
  have hret : P.info.retcode = 0 := by rw [hinfo]; decide +kernel
  have hmsg : P.info.retmsg = none := by rw [hinfo]; decide +kernel
  obtain ⟨h, v, hh, hv⟩ := hsound.header
  have hval : v = [16, 5] := by
    have hall : ((decode (packet [16, 5] [88, 1])).bind getHeader).map getStrVal = some [16, 5] := by
      decide +kernel
    rw [hdec, Option.bind_some, hh, Option.map_some, hv.getStrVal] at hall
    exact Option.some.inj hall
  subst hval
  refine ⟨P, b, hdec, hsound, ?_, ?_⟩
  · refine (oidb_roundTrip_iff hsound hret _ _ ?_ ?_).mpr hmsg
    · rintro b' ⟨⟩
      exact ⟨_, hcontent⟩
    · intro s hs
      rw [encodeWith_withBody hsound.valid hh hv hret hmsg hcontent] at hs
      rw [← Except.ok.inj hs, length_packet]
      decide
  · refine (oidb_roundTrip_iff hsound hret _ _ ?_ ?_).mpr ⟨b, hb, ?_⟩
    · rintro b' ⟨⟩
    · intro s hs
      rw [encodeWith_compat hsound.valid hh hv hret hb hcontent] at hs
      rw [← Except.ok.inj hs, length_packet]
      decide
    · rw [hcontent.getStrVal]
      decide

/-- **`EncodeOidb` loses the last byte**: what it makes of such an object is not decoded. -/
theorem encodeOidb_not_decoded : ¬ ∀ (P : KnvProtocol) (mem : Nat → UInt8), P.Sound →
    P.info.retcode = 0 → P.bodies ≠ [] → P.RoundTrip mem .encodeOidb := by
  intro hall
  obtain ⟨P, b, hdec, hsound, _, _, hinfo⟩ := @sound_decode [16, 5] [88, 1] (by decide) (by decide)
  have hret : P.info.retcode = 0 := by rw [hinfo]; decide +kernel
  have hne : P.bodies ≠ [] := by
    have hlen : (decode (packet [16, 5] [88, 1])).map (fun P => P.bodies.length) = some 1 := by
      decide +kernel
    rw [hdec] at hlen
    intro hnil
    rw [Option.map_some, hnil] at hlen
    cases hlen
  obtain ⟨s, Q, hs, hQ, _⟩ := hall P (fun _ => 0) hsound hret hne
  have hnone : ((decode (packet [16, 5] [88, 1])).map fun P =>
      ((P.encodeWith (fun _ => 0) .encodeOidb).toOption.map fun s => (decode s).isSome)) =
        some (some false) := by decide +kernel
  rw [hdec, Option.map_some, hs] at hnone
  have hnone : some (some (decode s).isSome) = some (some false) := hnone
  rw [hQ] at hnone
  cases hnone

end KnvProtocol

end MysqlProxy
