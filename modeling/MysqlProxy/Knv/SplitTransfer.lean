/-
  A packet that is sent in parts over a network, and put together again.

  The sender cuts an object that it has received (`Split`) and encodes its parts (`EncodePart`).  The
  network loses, repeats and reorders them.  The receiver decodes what arrives and hands it to
  `AddPartial`, until its object is complete.

  `Transfer.run_joins`: the object is complete as soon as every part has arrived, and then it is the
  one that the encoding in one piece is decoded to.

  Modelling choices.
  * `sent` is all that was ever sent, so that what is on the way may arrive again.
  * A call of `EncodePart` that fails sends nothing.
-/
import Mathlib.Logic.Relation
import MysqlProxy.Knv.Received

namespace MysqlProxy

open KnvNode

/-! ## The parts of an object that was cut -/

section Parts

variable {P P' Q : KnvProtocol} {ms cs : List (PbField × Nat)} {m : List UInt8} {d nr i : Nat}

/-- The slices together. -/
theorem CutInto.slices (hc : CutInto P m P' ms cs d nr) :
    (List.range nr).flatMap (KnvProtocol.sliceOf m P.sliceSize nr) = m := by
  have htwo := hc.two_le
  have hle := hc.le_count
  have hlt := hc.count_le
  have hfirst : ∀ k < nr, (List.range k).flatMap (KnvProtocol.sliceOf m P.sliceSize nr) =
      m.take (k * P.sliceSize) := by
    intro k hk
    induction k with
    | zero => rw [List.range_zero, List.flatMap_nil, Nat.zero_mul, List.take_zero]
    | succ k ih =>
      rw [List.range_succ, List.flatMap_append, ih (by omega), List.flatMap_singleton,
        KnvProtocol.sliceOf, if_neg (by omega), ← List.take_add, Nat.succ_mul]
  obtain ⟨k, rfl⟩ : ∃ k, nr = k + 1 := ⟨nr - 1, by omega⟩
  rw [List.range_succ, List.flatMap_append, hfirst k (by omega), List.flatMap_singleton,
    KnvProtocol.sliceOf, if_pos (by omega), Nat.add_sub_cancel, ← List.take_add,
    List.take_of_length_le (by omega)]

theorem indexField_unique (hms : ∀ p ∈ ms, p.1.tag.toNat ≤ UC_MAX_META_NUM)
    (hcs : ∀ p ∈ cs, p.1.tag ≠ KNV_PKG_HDR_CURR_SPLIT_INDEX) :
    ∀ f ∈ headerFields ms cs nr i, f.tag = KNV_PKG_HDR_CURR_SPLIT_INDEX → f = indexField i := by
  intro f hf htag
  obtain ⟨p, hp, rfl⟩ := List.mem_map.mp hf
  rcases List.mem_append.mp hp with hp | hp
  · have hle := hms p hp
    rw [htag] at hle
    exact absurd hle (by decide)
  · rcases List.mem_append.mp hp with hp | hp
    · exact absurd htag (hcs p hp)
    · obtain ⟨g, hg, rfl⟩ := List.mem_map.mp hp
      rcases List.mem_cons.mp hg with rfl | hg
      · replace htag : KNV_PKG_HDR_TOTAL_SPLIT_COUNT = KNV_PKG_HDR_CURR_SPLIT_INDEX := htag
        exact absurd htag (by decide)
      · rw [List.mem_singleton.mp hg]
        rfl

/-- What a part says about itself. -/
structure PartInfo (ms : List (PbField × Nat)) (nr i : Nat) (info : HeaderInfo) : Prop where
  total : info.total_split_count = UInt8.ofNat nr
  index : info.curr_split_index = UInt8.ofNat i
  metas : ∃ h, info = initHeaderInfo h ∧ ∀ t : UInt32, t.toNat ≤ UC_MAX_META_NUM →
    (h.getMeta t).map (fun m => m.val) = (lastField (ms.map Prod.fst) t.toNat).map fun f => f.val

theorem CutInto.partInfo (hc : CutInto P m P' ms cs d nr) (hnr : nr ≤ 255) (ht : Tight (ms ++ cs) d)
    (hms : ∀ p ∈ ms, p.1.tag.toNat ≤ UC_MAX_META_NUM)
    (hcs : ∀ p ∈ cs, UC_MAX_META_NUM < p.1.tag.toNat ∧ p.1.tag ≠ KNV_PKG_HDR_TOTAL_SPLIT_COUNT ∧
      p.1.tag ≠ KNV_PKG_HDR_CURR_SPLIT_INDEX)
    (htags : ∀ p ∈ ms ++ cs, p.1.tag.toNat < 2 ^ 29) (hi : i < nr)
    (hQ : KnvProtocol.decode (partBytes i (messageBytes (headerFields ms cs nr i),
      KnvProtocol.sliceOf m P.sliceSize nr i)) = some Q) : PartInfo ms nr i Q.info := by
  obtain ⟨hlen, hsmall⟩ := hc.small ht hi
  obtain ⟨hd, p, -, hof, -, hdec⟩ := decode_partBytes (by omega : i < 256) hsmall
  have hok : ∀ f ∈ headerFields ms cs nr i, FieldOk f.tag f.val :=
    fieldOk_headerFields ht htags (by omega)
  have hsplit : headerFields ms cs nr i =
      ms.map Prod.fst ++ (cs.map Prod.fst ++ [totalField nr, indexField i]) := by
    rw [headerFields, List.map_append, List.map_append]
    rfl
  have hmetas : metaFields (headerFields ms cs nr i) = ms.map Prod.fst := by
    rw [hsplit]
    refine metaFields_append (fun f hf => ?_) fun f hf => ?_
    · obtain ⟨p, hp, rfl⟩ := List.mem_map.mp hf
      exact hms p hp
    · rcases List.mem_append.mp hf with hf | hf
      · obtain ⟨p, hp, rfl⟩ := List.mem_map.mp hf
        exact (hcs p hp).1
      · rcases List.mem_cons.mp hf with rfl | hf
        · show UC_MAX_META_NUM < KNV_PKG_HDR_TOTAL_SPLIT_COUNT.toNat
          decide
        · rw [List.mem_singleton.mp hf]
          show UC_MAX_META_NUM < KNV_PKG_HDR_CURR_SPLIT_INDEX.toNat
          decide
  have hindex : indexField i ∈ headerFields ms cs nr i := by
    rw [hsplit]
    simp
  have htotal : totalField nr ∈ headerFields ms cs nr i := by
    rw [hsplit]
    simp
  rw [hQ, Option.some_inj] at hdec
  rw [hdec]
  refine ⟨?_, ?_, hd, rfl, fun t hle => ?_⟩
  · rw [← UInt64.toUInt8_ofNat']
    exact received_total hof hok (by omega) htotal (totalField_unique hms fun p hp => (hcs p hp).2.1)
  · obtain ⟨c, hc, hval⟩ := received_child hof hok (by omega) hindex
      (show UC_MAX_META_NUM < KNV_PKG_HDR_CURR_SPLIT_INDEX.toNat by decide)
      (indexField_unique hms fun p hp => (hcs p hp).2.2)
    have hfind : hd.findChildByTag KNV_PKG_HDR_CURR_SPLIT_INDEX = some c := hc
    have hint : varint? (some c) = some (UInt64.ofNat i) := by
      rw [varint?, Option.bind_some, hval]
      rfl
    show ((varint? (hd.findChildByTag KNV_PKG_HDR_CURR_SPLIT_INDEX)).getD 0).toUInt8 = _
    rw [hfind, hint, ← UInt64.toUInt8_ofNat']
    rfl
  · have hne : headerFields ms cs nr i ≠ [] := List.ne_nil_of_mem hindex
    rw [received_meta hof hne hok (by omega) hle, hmetas]

end Parts

/-- The parts as they are sent. -/
def partsOf (seq : UInt64) (ms cs : List (PbField × Nat)) (nr : Nat) (slice : Nat → List UInt8) :
    SplitPacket :=
  ⟨seq, (List.range nr).map fun i => (messageBytes (headerFields ms cs nr i), slice i)⟩

theorem partsOf_getElem? {seq : UInt64} {ms cs : List (PbField × Nat)} {nr : Nat}
    {slice : Nat → List UInt8} {i : Nat} {part : List UInt8 × List UInt8} :
    (partsOf seq ms cs nr slice).parts[i]? = some part ↔
      i < nr ∧ part = (messageBytes (headerFields ms cs nr i), slice i) := by
  rw [partsOf, List.getElem?_map]
  constructor
  · intro h
    obtain ⟨j, hj, rfl⟩ := Option.map_eq_some_iff.mp h
    obtain ⟨hlt, hjv⟩ := List.getElem?_eq_some_iff.mp hj
    rw [List.length_range] at hlt
    rw [List.getElem_range] at hjv
    exact ⟨hlt, by rw [hjv]⟩
  · rintro ⟨hlt, rfl⟩
    rw [List.getElem?_range hlt]
    rfl

/-- **The parts of an object that was cut are those of a packet.** -/
theorem CutInto.partsOf_ok {P P' : KnvProtocol} {ms cs : List (PbField × Nat)} {m : List UInt8}
    {d nr : Nat} {seq : UInt64} (hc : CutInto P m P' ms cs d nr) (hle : nr ≤ 255)
    (ht : Tight (ms ++ cs) d) (hms : ∀ p ∈ ms, p.1.tag.toNat ≤ UC_MAX_META_NUM)
    (hcs : ∀ p ∈ cs, UC_MAX_META_NUM < p.1.tag.toNat ∧ p.1.tag ≠ KNV_PKG_HDR_TOTAL_SPLIT_COUNT ∧
      p.1.tag ≠ KNV_PKG_HDR_CURR_SPLIT_INDEX)
    (htags : ∀ p ∈ ms ++ cs, p.1.tag.toNat < 2 ^ 29)
    (hinfo : ∀ i info, PartInfo ms nr i info → info.retcode = 0 ∧ info.seq = seq)
    (hm : ∃ tree Q, newFromData m = .ok tree ∧ initProtocol tree = some Q ∧ Q.isComplete = true ∧
      Q.tree.serializeString = .ok m) :
    (partsOf seq ms cs nr (KnvProtocol.sliceOf m P.sliceSize nr)).Ok ∧
      (partsOf seq ms cs nr (KnvProtocol.sliceOf m P.sliceSize nr)).encoding = m := by
  have henc : (partsOf seq ms cs nr (KnvProtocol.sliceOf m P.sliceSize nr)).encoding = m := by
    rw [SplitPacket.encoding, partsOf, List.map_map]
    exact hc.slices
  have hlength : (partsOf seq ms cs nr (KnvProtocol.sliceOf m P.sliceSize nr)).parts.length = nr := by
    rw [partsOf, List.length_map, List.length_range]
  have hlast := hc.count_le
  refine ⟨{
    two_le := by
      rw [hlength]
      exact hc.two_le
    le := by
      rw [hlength]
      exact hle
    slices := ?_
    small := ?_
    info := ?_
    encoding := by
      rw [henc]
      exact hm }, henc⟩
  · intro part hpart
    obtain ⟨i, hi, rfl⟩ := List.mem_map.mp hpart
    have hlen := hc.length_slice (List.mem_range.mp hi)
    rw [← List.length_pos_iff, hlen]
    split
    · omega
    · exact hc.sliceSize_pos
  · intro i part hpart
    obtain ⟨hi, rfl⟩ := partsOf_getElem?.mp hpart
    exact (hc.small ht hi).2
  · intro i part Q hpart hQ
    obtain ⟨hi, rfl⟩ := partsOf_getElem?.mp hpart
    have hp := hc.partInfo hle ht hms hcs htags hi hQ
    obtain ⟨hret, hseq⟩ := hinfo i Q.info hp
    rw [hlength]
    exact ⟨hret, hseq, hp.total, hp.index⟩

section Split

variable {hs : List PbField} {ws : List (List UInt8)} {P P' : KnvProtocol} {mem : Nat → UInt8}
  {nr : Nat}

/-- An object without a body is not cut. -/
theorem body_of_split (hs : P.split mem none = .ok (P', some nr)) : P.clearSplit.body.isSome = true := by
  by_contra hb
  rw [Bool.not_eq_true, Option.isSome_eq_false_iff] at hb
  rw [KnvProtocol.split] at hs
  split at hs
  · cases hs
  · dsimp only at hs
    rw [if_pos (.inr (.inl ⟨rfl, hb⟩))] at hs
    exact keepWhole_none hs

theorem map_stayingMetas (P : KnvProtocol) (ms : List PbField) :
    (P.stayingMetas (ms.map sized)).map Prod.fst =
      if P.info.retmsg = none then ms else ms.filter fun f => f.tag ≠ KNV_PKG_HDR_ERR_TAG := by
  rw [KnvProtocol.stayingMetas]
  split
  · exact map_sized_fst ms
  · rw [filter_ne_sized, map_sized_fst]

/-- **A received object that was cut.** -/
theorem split_received (hok : HeaderOk hs) (hsmall : (bodiesPacket hs ws).length < 2 ^ 31)
    (hP : KnvProtocol.decode (bodiesPacket hs ws) = some P)
    (hsplit : P.split mem none = .ok (P', some nr)) (hle : nr ≤ 255) :
    ∃ ms cs d slice, Sends P' ms cs d nr slice ∧ 2 ≤ nr ∧ Tight (ms ++ cs) d ∧
      (partsOf P.info.seq ms cs nr slice).Ok ∧
      (partsOf P.info.seq ms cs nr slice).encoding = bodiesPacket (unsplit hs) ws ∧
      (bodiesPacket (unsplit hs) ws).length < 2 ^ 31 ∧ ws ≠ [] := by
  obtain ⟨T, h, l, hdec, hT, hlist, htree, hof, hl⟩ := decode_bodiesPacket hsmall
  rw [hP, Option.some_inj] at hdec
  have hh0 : ∀ f ∈ hs, f.tag ≠ 0 := fun f hf he => by
    have := (hok.fields f hf).tag_pos
    rw [he] at this
    exact absurd this (by decide)
  have hshort : (messageBytes hs).length < 2 ^ 31 := by
    refine Nat.lt_of_le_of_lt ?_ hsmall
    have hmem : ⟨KNV_PKG_HDR_TAG, .string (messageBytes hs)⟩ ∈ bodiesFields hs ws :=
      List.mem_cons_self
    have hsize := size_le_of_mem hmem
    have h1 : (messageBytes hs).length ≤
      (⟨KNV_PKG_HDR_TAG, .string (messageBytes hs)⟩ : PbField).size := str_le_size
    have h2 : (messageBytes (bodiesFields hs ws)).length ≤ (bodiesPacket hs ws).length := by
      rw [bodiesPacket, length_fieldBytes]
      exact str_le_size
    omega
  have hpf : pbFields (messageBytes hs) = some (hs.map sized, true) := by
    have hne := hok.ne
    have hf := hok.fields
    cases hs with
    | nil => exact absurd rfl hne
    | cons f hs => exact pbFields_messageBytes hf hshort
  have hheader : Carries (h.innerExpand false false) hs :=
    carries_fresh (OfField.fresh hof hpf (by decide) (Nat.le_refl _)) (by rw [hT.tag]; rfl) hok.ne hok.fields
      hshort hok.key
  have hpacks : Packs P hs (ws.map fun w => ⟨KNV_PKG_BDY_TAG, .string w⟩) := by
    rw [hdec]
    refine ⟨fun f hf => ?_, hh0, h, l, hT, hlist, hheader, htree⟩
    exact (@bodiesFields_tag hs ws f (List.mem_cons_of_mem _ hf)).1
  have hwhole : Whole P h ((metaFields hs).map sized) ((childFields hs).map sized)
      (messageBytes hs).length (pbEvalStringLength (h.innerExpand false false).tag
        (messageBytes hs).length) := by
    refine ⟨by rw [hdec]; exact hT, hheader.kept, fun p hp => ?_, fun p hp => ?_⟩
    · obtain ⟨f, hf, rfl⟩ := List.mem_map.mp hp
      exact metaFields_le hs f hf
    · rw [← List.map_append] at hp
      obtain ⟨f, hf, rfl⟩ := List.mem_map.mp hp
      refine (hok.fields f ?_).tag_lt
      rcases List.mem_append.mp hf with hf | hf
      · exact List.mem_of_mem_filter hf
      · exact List.mem_of_mem_filter hf
  obtain ⟨T', hclear, hpacks'⟩ := hpacks.clearSplit
  obtain ⟨P₁, m, henc, -⟩ := split_inv hsplit
  have hP₁ : P₁ = P.clearSplit ∧ P.clearSplit.encode mem = .ok m := by
    rw [KnvProtocol.encodeFor] at henc
    cases he : P.clearSplit.encode mem with
    | error e =>
      rw [he] at henc
      cases henc
    | ok m' =>
      rw [he] at henc
      cases henc
      exact ⟨rfl, rfl⟩
  have hret : P.clearSplit.info.retcode = 0 := by
    have := (hwhole.encoded (.inl rfl) hsplit henc).2.1
    rw [hP₁.1] at this
    exact this
  have hm : m = bodiesPacket (unsplit hs) ws := by
    have := hpacks'.encode hret mem
    rw [hP₁.2] at this
    exact Except.ok.inj this
  have hcut := hwhole.split (.inl rfl) hsplit henc hle
  have htight := tight_sized hh0 P
  have hslices := hcut.slices
  have hinfo : P.info = initHeaderInfo h := by rw [hdec]
  have hws : ws ≠ [] := by
    rintro rfl
    have hbody := body_of_split hsplit
    rw [hclear, hdec, List.forall₂_nil_right_iff.mp hl] at hbody
    cases hbody
  rw [hP₁.1] at hcut
  have hmetas : ∀ p ∈ P.stayingMetas ((metaFields hs).map sized), p.1.tag.toNat ≤ UC_MAX_META_NUM :=
    fun p hp => hwhole.metas p (mem_stayingMetas hp)
  have hkids : ∀ p ∈ stayingKids ((childFields hs).map sized), UC_MAX_META_NUM < p.1.tag.toNat ∧
      p.1.tag ≠ KNV_PKG_HDR_TOTAL_SPLIT_COUNT ∧ p.1.tag ≠ KNV_PKG_HDR_CURR_SPLIT_INDEX := by
    intro p hp
    obtain ⟨hmem, htotal⟩ := mem_stayingKids hp
    obtain ⟨f, hf, rfl⟩ := List.mem_map.mp hmem
    exact ⟨childFields_gt hs f hf, htotal, of_decide_eq_true (List.mem_filter.mp hp).2⟩
  have htags : ∀ p ∈ P.stayingMetas ((metaFields hs).map sized) ++
      stayingKids ((childFields hs).map sized), p.1.tag.toNat < 2 ^ 29 := by
    intro p hp
    refine hwhole.tags p ?_
    rcases List.mem_append.mp hp with hp | hp
    · exact List.mem_append_left _ (mem_stayingMetas hp)
    · exact List.mem_append_right _ (mem_stayingKids hp).1
  -- the return code and the sequence number are read as the object's were
  have hsame : ∀ i info, PartInfo (P.stayingMetas ((metaFields hs).map sized)) nr i info →
      info.retcode = 0 ∧ info.seq = P.info.seq := by
    intro i info hi
    obtain ⟨h', rfl, hread⟩ := hi.metas
    have hmeta : ∀ t : UInt32, t.toNat ≤ UC_MAX_META_NUM → t ≠ KNV_PKG_HDR_ERR_TAG →
        varint? (h'.getMeta t) = varint? (h.getMeta t) := by
      intro t ht hne
      refine varint?_congr ?_
      rw [hread t ht, received_meta hof hok.ne hok.fields hshort ht, map_stayingMetas]
      split
      · rfl
      · rw [lastField_filter hne]
    have hret' : (initHeaderInfo h).retcode = 0 := by
      rw [← hinfo]
      rw [hclear] at hret
      exact hret
    rw [hinfo]
    constructor
    · rw [← hret']
      show ((varint? (h'.getMeta KNV_PKG_HDR_RET_TAG)).getD 0).toUInt32 =
        ((varint? (h.getMeta KNV_PKG_HDR_RET_TAG)).getD 0).toUInt32
      rw [hmeta _ (by decide) (by decide)]
    · show (varint? (h'.getMeta KNV_PKG_HDR_SEQ_TAG)).getD 0 =
        (varint? (h.getMeta KNV_PKG_HDR_SEQ_TAG)).getD 0
      rw [hmeta _ (by decide) (by decide)]
  have hlt : (bodiesPacket (unsplit hs) ws).length < 2 ^ 31 := by
    have hsize := hcut.le_count
    have hmax := getMaxPkgSize_le P.clearSplit
    have hslice : P.clearSplit.sliceSize ≤ P.clearSplit.getMaxPkgSize := Nat.sub_le _ _
    have hmul : nr * P.clearSplit.sliceSize ≤ 255 * 64000 := Nat.mul_le_mul hle (by omega)
    rw [← hm]
    omega
  have hwritten : ∃ tree Q, newFromData m = .ok tree ∧ initProtocol tree = some Q ∧
      Q.isComplete = true ∧ Q.tree.serializeString = .ok m := by
    obtain ⟨n, Q, hnew, hinit, -, hQ, hser⟩ := complete_bodiesPacket hlt hws
    rw [hm]
    exact ⟨n, Q, hnew, hinit, hQ, hser⟩
  obtain ⟨hparts, hjoined⟩ := hcut.partsOf_ok hle htight hmetas hkids htags hsame hwritten
  exact ⟨_, _, _, _, hcut.sends, hcut.two_le, htight, hparts, hjoined.trans hm, hlt, hws⟩

end Split

/-! ## The way of the parts -/

/-- A sender, a network and a receiver.  What was sent may arrive any number of times, in any order, or
    never. -/
structure Transfer where
  sender : KnvProtocol
  sent : List (List UInt8)
  arrived : List (List UInt8)
  receiver : Option KnvProtocol
  /-- What `AddPartial` has returned. -/
  codes : List Int

inductive TransferEvent
  | send (mem : Nat → UInt8) (index : Nat)
  | arrive (k : Nat)

namespace Transfer

/-- The receiver has an object that is complete. -/
def isComplete (t : Transfer) : Bool := t.receiver.elim false KnvProtocol.isComplete

/-- A part with this index has arrived. -/
def Got (t : Transfer) (i : Nat) : Prop :=
  ∃ s ∈ t.arrived, ∃ part, KnvProtocol.decode s = some part ∧
    part.info.curr_split_index = UInt8.ofNat i

/-- What happens next, if it can.  The receiver takes parts until its object is complete. -/
def exec (t : Transfer) : TransferEvent → Option Transfer
  | .send mem index =>
    match t.sender.encodePart mem index with
    | .error _ => none
    | .ok (P, s) => some { t with sender := P, sent := t.sent ++ [s] }
  | .arrive k =>
    match t.sent[k]? with
    | none => none
    | some s =>
      if t.isComplete then none
      else
        match KnvProtocol.decode s with
        | none => some { t with arrived := s :: t.arrived, codes := -1 :: t.codes }
        | some part =>
          let r := addPartial t.receiver part
          some { t with arrived := s :: t.arrived, receiver := r.2, codes := r.1 :: t.codes }

def Step (t t' : Transfer) : Prop := ∃ e, t.exec e = some t'

/-- The object is about to be sent. -/
def start (P : KnvProtocol) : Transfer := ⟨P, [], [], none, []⟩

end Transfer

/-- What the receiver has: nothing, some of the parts, or the object. -/
inductive Receives (A : SplitPacket) (Q : KnvProtocol) (got : Nat → Prop) : Option KnvProtocol → Prop
  | nothing : (∀ i < A.parts.length, ¬ got i) → Receives A Q got none
  | parts {P : KnvProtocol} : Held A P → (∀ i < A.parts.length, Has P.tree i ↔ got i) →
      (∃ i < A.parts.length, ¬ got i) → Receives A Q got (some P)
  | whole : (∀ i < A.parts.length, got i) → Receives A Q got (some Q)

/-- The invariant. -/
structure Transfer.Inv (A : SplitPacket) (Q : KnvProtocol) (ms cs : List (PbField × Nat)) (d : Nat)
    (slice : Nat → List UInt8) (t : Transfer) : Prop where
  sender : Sends t.sender ms cs d A.parts.length slice
  sent : ∀ s ∈ t.sent, ∃ i part, A.parts[i]? = some part ∧ s = partBytes i part
  arrived : ∀ s ∈ t.arrived, s ∈ t.sent
  receiver : Receives A Q t.Got t.receiver
  codes : ∀ code ∈ t.codes, code = 0 ∨ code = -4

section Transfer

variable {A : SplitPacket} {P Q R : KnvProtocol} {got got' : Nat → Prop} {i : Nat}
  {part : List UInt8 × List UInt8}

theorem Receives.congr {o : Option KnvProtocol} (h : Receives A Q got o)
    (hgot : ∀ i < A.parts.length, got i ↔ got' i) : Receives A Q got' o := by
  cases h with
  | nothing hno => exact .nothing fun i hi hg => hno i hi ((hgot i hi).mpr hg)
  | parts hheld hhas hmiss =>
    obtain ⟨j, hj, hno⟩ := hmiss
    exact .parts hheld (fun i hi => (hhas i hi).trans (hgot i hi)) ⟨j, hj, fun hg => hno ((hgot j hj).mpr hg)⟩
  | whole hall => exact .whole fun i hi => (hgot i hi).mp (hall i hi)

/-- **A part arrives** at a receiver that is waiting for parts. -/
theorem Receives.addPartial (hA : A.Ok) {tree : KnvNode} (hnew : newFromData A.encoding = .ok tree)
    (hinit : initProtocol tree = some Q) {o : Option KnvProtocol} (h : Receives A Q got o)
    (hwait : o.elim false KnvProtocol.isComplete = false) (hQ : Q.isComplete = true)
    (hpart : A.parts[i]? = some part) (hR : KnvProtocol.decode (partBytes i part) = some R)
    (hgot : ∀ j < A.parts.length, got' j ↔ got j ∨ j = i) :
    Receives A Q got' (MysqlProxy.addPartial o R).2 ∧
      ((MysqlProxy.addPartial o R).1 = 0 ∨ (MysqlProxy.addPartial o R).1 = -4) := by
  obtain ⟨hlt, -⟩ := List.getElem?_eq_some_iff.mp hpart
  have htwo := hA.two_le
  cases h with
  | nothing hno =>
    obtain ⟨hheld, -, -, -, hhas⟩ := held_part hA hpart hR
    have hvalid : R.isValid = true := decide_eq_true hheld.slices.tag
    obtain ⟨P', hassign, hheld', htree⟩ := assignFrom_part hA hpart hR
    have hadd : MysqlProxy.addPartial none R = (0, some P') := by
      rw [MysqlProxy.addPartial, hvalid, if_neg (by decide)]
      exact hassign
    rw [hadd]
    have hiff : ∀ j < A.parts.length, got' j ↔ j = i := fun j hj =>
      (hgot j hj).trans ⟨fun h => h.resolve_left (hno j hj), .inr⟩
    refine ⟨.parts hheld' (fun j hj => ?_) ?_, .inl rfl⟩
    · rw [htree, hiff j hj]
      exact hhas j hj
    · by_cases h0 : i = 0
      · exact ⟨1, by omega, fun h1 => by
          have := (hiff 1 (by omega)).mp h1
          omega⟩
      · exact ⟨0, by omega, fun h1 => h0 ((hiff 0 (by omega)).mp h1).symm⟩
  | @parts P hheld hhas hmiss =>
    rcases hheld.addPartial hA hpart hR with ⟨hi, hadd⟩ | ⟨hi, P', hheld', hhas', hend⟩
    · -- it is there already
      rw [hadd]
      have hsame : ∀ j < A.parts.length, got j ↔ got' j := by
        intro j hj
        rw [hgot j hj]
        refine ⟨.inl, fun h => h.elim id ?_⟩
        rintro rfl
        exact (hhas j hj).mp hi
      exact ⟨(Receives.parts hheld hhas hmiss).congr hsame, .inr rfl⟩
    · have hnow : ∀ j < A.parts.length, Has P'.tree j ↔ got' j := fun j hj => by
        rw [hhas' j hj, hgot j hj, hhas j hj]
      rcases hend with ⟨⟨j, hj, hno⟩, hadd⟩ | ⟨hall, tree', hnew', hadd⟩
      · rw [hadd]
        exact ⟨.parts hheld' hnow ⟨j, hj, fun hg => hno ((hnow j hj).mpr hg)⟩, .inl rfl⟩
      · have ht : tree' = tree := Except.ok.inj (hnew'.symm.trans hnew)
        rw [hadd, ht, hinit]
        exact ⟨.whole fun j hj => (hnow j hj).mp (hall j hj), .inl rfl⟩
  | whole hall =>
    rw [Option.elim_some, hQ] at hwait
    cases hwait

end Transfer

section Run

variable {A : SplitPacket} {P P' Q : KnvProtocol} {ms cs : List (PbField × Nat)} {d nr : Nat}
  {slice : Nat → List UInt8} {t t' : Transfer}

/-- A part that arrives is a part more. -/
theorem got_arrived (hA : A.Ok) {i : Nat} {part : List UInt8 × List UInt8} {R : KnvProtocol}
    (hpart : A.parts[i]? = some part) (hR : KnvProtocol.decode (partBytes i part) = some R)
    (harr : t'.arrived = partBytes i part :: t.arrived) :
    ∀ j < A.parts.length, t'.Got j ↔ t.Got j ∨ j = i := by
  intro j hj
  rw [Transfer.Got, harr]
  obtain ⟨hlt, -⟩ := List.getElem?_eq_some_iff.mp hpart
  have hle := hA.le
  obtain ⟨-, -, -, hcurr⟩ := hA.info i part R hpart hR
  constructor
  · rintro ⟨s, hs, R', hR', hj'⟩
    rcases List.mem_cons.mp hs with hs | hs
    · right
      rw [hs, hR, Option.some_inj] at hR'
      rw [← hR', hcurr] at hj'
      have := congrArg UInt8.toNat hj'
      rw [UInt8.toNat_ofNat_of_lt' (by show i < 2 ^ 8; omega),
        UInt8.toNat_ofNat_of_lt' (by show j < 2 ^ 8; omega)] at this
      exact this.symm
    · exact .inl ⟨s, hs, R', hR', hj'⟩
  · rintro (⟨s, hs, h⟩ | rfl)
    · exact ⟨s, List.mem_cons_of_mem _ hs, h⟩
    · exact ⟨_, List.mem_cons_self, R, hR, hcurr⟩

/-- Every part can be sent. -/
theorem Transfer.Inv.send (h : t.Inv (partsOf seq ms cs nr slice) Q ms cs d slice)
    (hA : (partsOf seq ms cs nr slice).Ok) (ht : Tight (ms ++ cs) d) {i : Nat} (hi : i < nr)
    (mem : Nat → UInt8) : ∃ P', t.sender.encodePart mem i =
      .ok (P', partBytes i (messageBytes (headerFields ms cs nr i), slice i)) ∧
      Sends P' ms cs d nr slice := by
  have hlen : (partsOf seq ms cs nr slice).parts.length = nr := by
    rw [partsOf, List.length_map, List.length_range]
  have htwo := hA.two_le
  have hle := hA.le
  have hs := h.sender
  rw [hlen] at hs htwo hle
  exact hs.encodePart_ok htwo hle ht hi mem

/-- **What one step preserves.** -/
theorem Transfer.Inv.step (h : t.Inv (partsOf seq ms cs nr slice) Q ms cs d slice)
    (hA : (partsOf seq ms cs nr slice).Ok) (ht : Tight (ms ++ cs) d) {tree : KnvNode}
    (hnew : newFromData (partsOf seq ms cs nr slice).encoding = .ok tree)
    (hinit : initProtocol tree = some Q) (hQ : Q.isComplete = true) (hstep : t.Step t') :
    t'.Inv (partsOf seq ms cs nr slice) Q ms cs d slice := by
  have hlen : (partsOf seq ms cs nr slice).parts.length = nr := by
    rw [partsOf, List.length_map, List.length_range]
  obtain ⟨e, he⟩ := hstep
  cases e with
  | send mem index =>
    simp only [Transfer.exec] at he
    split at he
    · cases he
    · rename_i P' s hsend
      obtain rfl := Option.some.inj he
      have hle := hA.le
      rw [hlen] at hle
      have hs := h.sender
      rw [hlen] at hs
      have hi : index < nr := hs.index_lt hle hsend
      obtain ⟨P'', hsend', hs'⟩ := h.send hA ht hi mem
      obtain ⟨hP', hbytes⟩ := Prod.mk.inj (Except.ok.inj (hsend.symm.trans hsend'))
      refine ⟨by rw [hlen, hP']; exact hs', fun s hmem => ?_, fun s hmem =>
        List.mem_append_left _ (h.arrived s hmem), h.receiver, h.codes⟩
      rcases List.mem_append.mp hmem with hmem | hmem
      · exact h.sent s hmem
      · exact ⟨index, _, partsOf_getElem?.mpr ⟨hi, rfl⟩, (List.mem_singleton.mp hmem).trans hbytes⟩
  | arrive k =>
    simp only [Transfer.exec] at he
    split at he
    · cases he
    rename_i s hk
    have hmem := List.mem_of_getElem? hk
    split at he
    · cases he
    · rename_i hwait
      rw [Bool.not_eq_true] at hwait
      obtain ⟨i, part, hpart, hs⟩ := h.sent s hmem
      obtain ⟨hlt, -⟩ := List.getElem?_eq_some_iff.mp hpart
      have hle := hA.le
      obtain ⟨R, hdec⟩ : ∃ R, KnvProtocol.decode (partBytes i part) = some R := by
        obtain ⟨hd, p, -, -, -, hdec⟩ := decode_partBytes (by omega) (hA.small i part hpart)
        exact ⟨_, hdec⟩
      rw [hs, hdec] at he
      have ht' := Option.some.inj he
      have harr : t'.arrived = partBytes i part :: t.arrived := by rw [← ht']
      obtain ⟨hrec, hcode⟩ := h.receiver.addPartial hA hnew hinit hwait hQ hpart hdec
        (got_arrived hA hpart hdec harr)
      refine ⟨by rw [← ht']; exact h.sender, by rw [← ht']; exact h.sent, fun s' hs' => ?_, ?_,
        fun code hc => ?_⟩
      · rw [← ht']
        rw [harr] at hs'
        rcases List.mem_cons.mp hs' with hs' | hs'
        · rw [hs', ← hs]
          exact hmem
        · exact h.arrived s' hs'
      · have hobj : t'.receiver = (addPartial t.receiver R).2 := by rw [← ht']
        rw [hobj]
        exact hrec
      · rw [← ht'] at hc
        rcases List.mem_cons.mp hc with hc | hc
        · rw [hc]
          exact hcode
        · exact h.codes code hc

/-- **What a run preserves.** -/
theorem Transfer.Inv.run (h : t.Inv (partsOf seq ms cs nr slice) Q ms cs d slice)
    (hA : (partsOf seq ms cs nr slice).Ok) (ht : Tight (ms ++ cs) d) {tree : KnvNode}
    (hnew : newFromData (partsOf seq ms cs nr slice).encoding = .ok tree)
    (hinit : initProtocol tree = some Q) (hQ : Q.isComplete = true)
    (hrun : Relation.ReflTransGen Transfer.Step t t') :
    t'.Inv (partsOf seq ms cs nr slice) Q ms cs d slice :=
  run_invariant hrun h fun h hstep => h.step hA ht hnew hinit hQ hstep

/-- **A packet that is cut, sent in parts and put together again.**  Whatever the network does to the
    parts, each of them can be sent at any time, none is refused unless it is there already, the object
    is complete as soon as all of them have arrived, and then it is the one that the encoding in one
    piece is decoded to: the object itself, if it came without split fields. -/
theorem Transfer.run_joins {hs : List PbField} {ws : List (List UInt8)} {mem : Nat → UInt8}
    (hok : HeaderOk hs) (hsmall : (bodiesPacket hs ws).length < 2 ^ 31)
    (hP : KnvProtocol.decode (bodiesPacket hs ws) = some P)
    (hsplit : P.split mem none = .ok (P', some nr)) (hle : nr ≤ 255)
    (hrun : Relation.ReflTransGen Transfer.Step (Transfer.start P') t) :
    (∀ i < nr, ∀ mem, ∃ P'' s, t.sender.encodePart mem i = .ok (P'', s)) ∧
    (∀ code ∈ t.codes, code = 0 ∨ code = -4) ∧
    (t.isComplete = true ↔ ∀ i < nr, t.Got i) ∧
    ∃ Q, KnvProtocol.decode (bodiesPacket (unsplit hs) ws) = some Q ∧
      (t.isComplete = true → t.receiver = some Q) ∧
      ((∀ f ∈ childFields hs, f.tag ≠ KNV_PKG_HDR_TOTAL_SPLIT_COUNT ∧
        f.tag ≠ KNV_PKG_HDR_CURR_SPLIT_INDEX) → Q = P) := by
  obtain ⟨ms, cs, d, slice, hsends, htwo, htight, hA, henc, hlt, hws⟩ :=
    split_received hok hsmall hP hsplit hle
  obtain ⟨tree, Q, hnew, hinit, hdec, hQ, -⟩ := complete_bodiesPacket hlt hws
  have hlen : (partsOf P.info.seq ms cs nr slice).parts.length = nr := by
    rw [partsOf, List.length_map, List.length_range]
  rw [← henc] at hnew
  have hstart : (Transfer.start P').Inv (partsOf P.info.seq ms cs nr slice) Q ms cs d slice :=
    ⟨by rw [hlen]; exact hsends, nofun, nofun, .nothing fun i _ ⟨s, hs, _⟩ => (by cases hs), nofun⟩
  have h := hstart.run hA htight hnew hinit hQ hrun
  refine ⟨fun i hi mem => ?_, h.codes, ?_, Q, hdec, ?_, ?_⟩
  · obtain ⟨P'', hsend, -⟩ := h.send hA htight hi mem
    exact ⟨P'', _, hsend⟩
  · have hrec := h.receiver
    rw [hlen.symm]
    constructor
    · intro hc
      rw [Transfer.isComplete] at hc
      generalize t.receiver = o at hrec hc
      cases hrec with
      | nothing => cases hc
      | parts hheld =>
        rw [Option.elim_some, hheld.isComplete hA] at hc
        cases hc
      | whole hall => exact hall
    · intro hall
      rw [Transfer.isComplete]
      generalize t.receiver = o at hrec
      cases hrec with
      | nothing hno => exact absurd (hall 0 (by omega)) (hno 0 (by omega))
      | parts _ _ hmiss =>
        obtain ⟨j, hj, hno⟩ := hmiss
        exact absurd (hall j hj) hno
      | whole => exact hQ
  · intro hc
    have hrec := h.receiver
    rw [Transfer.isComplete] at hc
    generalize t.receiver = o at hrec hc ⊢
    cases hrec with
    | nothing => cases hc
    | parts hheld =>
      rw [Option.elim_some, hheld.isComplete hA] at hc
      cases hc
    | whole => rfl
  · intro hno
    have h1 : dropChildren KNV_PKG_HDR_TOTAL_SPLIT_COUNT hs = hs :=
      if_neg fun ⟨f, hf, he⟩ => (hno f hf).1 he
    have h2 : unsplit hs = hs := by
      rw [unsplit, h1]
      exact if_neg fun ⟨f, hf, he⟩ => (hno f hf).2 he
    rw [h2, hP] at hdec
    exact (Option.some.inj hdec).symm

/-- Two parts, the second of which comes first, and twice. -/
theorem Transfer.run_joins_padded : ∃ (P : KnvProtocol) (t : Transfer),
    KnvProtocol.decode (paddedPacket 4 110 128) = some P ∧ t.isComplete = true ∧ t.receiver = some P := by
  have heval : ((splitPadded 4 110 128).bind fun q =>
      (execs Transfer.exec (fun _ _ => True) [.send (fun _ => 0) 1, .send (fun _ => 0) 0, .arrive 0,
        .arrive 0, .arrive 1] (Transfer.start q.2.1)).map fun t => (q.2.2, t.isComplete)) =
      some (some 2, true) := by decide +kernel
  obtain ⟨⟨P, P', o⟩, hq, ht⟩ := Option.bind_eq_some_iff.mp heval
  obtain ⟨t, hrun, he⟩ := Option.map_eq_some_iff.mp ht
  obtain ⟨ho, hc⟩ := Prod.mk.inj he
  replace ho : o = some 2 := ho
  subst ho
  obtain ⟨P₀, hdec, hs⟩ := Option.bind_eq_some_iff.mp hq
  obtain ⟨q, hsplit, he⟩ := Option.map_eq_some_iff.mp hs
  obtain ⟨rfl, rfl⟩ := Prod.mk.inj he
  have hok : HeaderOk (paddedHeader 4 128) :=
    ⟨List.cons_ne_nil _ _, fun f hf => fieldOk_of_mem (by decide +kernel) hf (paddedHeader_tag hf).1
      (paddedHeader_tag hf).2, by decide +kernel⟩
  have hdec' : KnvProtocol.decode (bodiesPacket (paddedHeader 4 128) [List.replicate 110 0]) =
      some P₀ := hdec
  obtain ⟨-, -, -, Q, -, hrec, hsame⟩ := Transfer.run_joins hok (by decide +kernel) hdec'
    (toOption_eq_some hsplit) (by decide) ((execs_run hrun).lift id fun _ _ ⟨e, _, h⟩ => ⟨e, h⟩)
  exact ⟨P₀, t, hdec, hc, (hrec hc).trans (congrArg some (hsame (by decide +kernel)))⟩

end Run

end MysqlProxy
