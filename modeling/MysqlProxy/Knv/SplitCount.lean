/-
  Split announces the parts it made, if it makes at most 255.

  The number of slices is counted in 32 bits, kept in `total_split_count`, which has 8, and sent as
  a varint.  From 256 slices on `GetTotalPartNum` and `EncodePart` know only the number modulo 256.

  `Whole.announces_iff`: the parts are announced, encoded and read back as they were made just if
  there are at most 255, and the header can be written anew (`Tight`): a received header is written
  with the shortest varints, and `EncodePart` fails if it came with longer ones.
-/
import MysqlProxy.Knv.SplitCut

namespace MysqlProxy

open KnvNode

/-! ## What the receiver reads -/

section Received

variable {h : KnvNode} {fs : List PbField} {nr i : Nat}

/-- A message that was read is not expanded yet. -/
theorem OfField.unread {tag : UInt32} {s : List UInt8} {sz : Nat} {gs : List (PbField × Nat)}
    {eom : Bool} (hof : OfField false h (⟨tag, .string s⟩, sz)) (hp : pbFields s = some (gs, eom)) :
    h.tag = tag ∧ h.val = .string s ∧ h.ht = KnvHt.clear ∧ h.child_num = none := by
  obtain ⟨r, rfl⟩ := hof
  exact ⟨rfl, rfl, rfl, @initNode_num tag _ sz _ _ hp⟩

/-- The only child with its tag of a header that was received. -/
theorem received_child (hof : OfField false h (sized ⟨KNV_PKG_HDR_TAG, .string (messageBytes fs)⟩))
    (hok : ∀ f ∈ fs, FieldOk f.tag f.val) (hlen : (messageBytes fs).length < 2 ^ 31) {g : PbField}
    (hg : g ∈ fs) (hchild : UC_MAX_META_NUM < g.tag.toNat) (huniq : ∀ f ∈ fs, f.tag = g.tag →
      f = g) :
    ∃ c, h.findChildByTag g.tag = some c ∧ c.val = g.val := by
  cases fs with
  | nil => exact absurd hg List.not_mem_nil
  | cons f fs =>
    obtain ⟨htag, hval, hht, hnum⟩ := OfField.unread hof (pbFields_messageBytes hok hlen)
    have hgrown := innerExpand_message (p := false) hnum hval hht hok hlen
      (fun h => absurd h.2 Bool.false_ne_true) false
    have hold := hgrown.hold_childlist
    have hmem : g ∈ childFields (f :: fs) := by
      rw [childFields]
      refine List.mem_filter.mpr ⟨hg, ?_⟩
      rw [Bool.not_eq_true', decide_eq_false_iff_not]
      omega
    obtain ⟨c, hc, hcg⟩ := forall₂_mem hold.flip hmem
    obtain ⟨c', hc'⟩ := hgrown.indexed.lookupChild_of_mem hc
    obtain ⟨hmem', htag'⟩ := hgrown.indexed.lookupChild_some hc'
    obtain ⟨f', hf', hst⟩ := forall₂_mem hold hmem'
    have hct : c.tag = g.tag := hcg.tag
    have hfg : f' = g := by
      refine huniq f' (List.mem_of_mem_filter hf') ?_
      rw [← hst.tag, htag', hct]
    refine ⟨c', ?_, by rw [hst.val, hfg]⟩
    rw [findChildByTag_eq (by rw [htag]; decide), ← hct]
    exact hc'

/-- **The number of parts that the receiver reads.** -/
theorem received_total (hof : OfField false h (sized ⟨KNV_PKG_HDR_TAG, .string (messageBytes fs)⟩))
    (hok : ∀ f ∈ fs, FieldOk f.tag f.val) (hlen : (messageBytes fs).length < 2 ^ 31)
    (hmem : totalField nr ∈ fs)
    (huniq : ∀ f ∈ fs, f.tag = KNV_PKG_HDR_TOTAL_SPLIT_COUNT → f = totalField nr) :
    (initHeaderInfo h).total_split_count = (UInt64.ofNat nr).toUInt8 := by
  obtain ⟨c, hc, hval⟩ := received_child hof hok hlen hmem
    (show UC_MAX_META_NUM < KNV_PKG_HDR_TOTAL_SPLIT_COUNT.toNat by decide) huniq
  have hfind : h.findChildByTag KNV_PKG_HDR_TOTAL_SPLIT_COUNT = some c := hc
  have hint : varint? (some c) = some (UInt64.ofNat nr) := by
    rw [varint?, Option.bind_some, hval]
    rfl
  show ((varint? (h.findChildByTag KNV_PKG_HDR_TOTAL_SPLIT_COUNT)).getD 0).toUInt8 = _
  rw [hfind, hint]
  rfl

end Received

/-! ## What is announced -/

/-- **`GetTotalPartNum` is the number of slices**; whatever has been encoded, every part is encoded,
    and whoever decodes it reads this number.  The tag of a part is no other reserved tag. -/
def Announces (P : KnvProtocol) (nr : Nat) : Prop :=
  P.getTotalPartNum = nr ∧
  (∀ i < nr, partTag i ≠ KNV_PKG_HDR_TAG ∧ partTag i ≠ KNV_PKG_BDY_TAG ∧ partTag i ≠ 0x2ee) ∧
  ∀ Q mem, Relation.ReflTransGen Encodes P Q → ∀ i < nr, ∃ Q' s R, Q.encodePart mem i =
    .ok (Q', s) ∧
    KnvProtocol.decode s = some R ∧ R.getTotalPartNum = nr

section Count

variable {P P₁ P' : KnvProtocol} {mem : Nat → UInt8} {b : Option KnvNode} {h : KnvNode}
  {ms cs : List (PbField × Nat)} {v e d nr i : Nat} {m : List UInt8}

theorem size_varint_le (tag : UInt32) (i : UInt64) : (⟨tag, .varint i⟩ : PbField).size ≤ 20 := by
  have h1 := pbEvalVintLength_le (tagWord .varint tag)
  have h2 := pbEvalVintLength_le i
  show pbEvalVintLength (tagWord .varint tag) + pbEvalVintLength i ≤ 20
  omega

theorem getMaxPkgSize_le (P : KnvProtocol) : P.getMaxPkgSize ≤ 64000 := by
  rw [KnvProtocol.getMaxPkgSize, KNV_DEFUALT_MAX_PKG_SIZE]
  split
  · exact Nat.le_refl _
  · omega

/-- The fields of the header of a part can be read back. -/
theorem fieldOk_headerFields (ht : Tight (ms ++ cs) d)
    (htags : ∀ p ∈ ms ++ cs, p.1.tag.toNat < 2 ^ 29)
    (hlen : (messageBytes (headerFields ms cs nr i)).length < 2 ^ 31) :
    ∀ f ∈ headerFields ms cs nr i, FieldOk f.tag f.val := by
  intro f hf
  obtain ⟨p, hp, rfl⟩ := List.mem_map.mp hf
  have h0 := ((ht.announced nr (some i)).2 p hp).1
  refine fieldOk_of_mem hlen hf (Nat.pos_of_ne_zero fun hz => h0 (UInt32.toNat_inj.mp hz)) ?_
  rw [← List.append_assoc] at hp
  rcases List.mem_append.mp hp with hp | hp
  · exact htags p hp
  · obtain ⟨g, hg, rfl⟩ := List.mem_map.mp hp
    rcases List.mem_cons.mp hg with rfl | hg
    · show KNV_PKG_HDR_TOTAL_SPLIT_COUNT.toNat < 2 ^ 29
      decide
    · obtain ⟨j, -, rfl⟩ := List.mem_map.mp hg
      show KNV_PKG_HDR_CURR_SPLIT_INDEX.toNat < 2 ^ 29
      decide

/-- No other field has the tag of the number of parts. -/
theorem totalField_unique (hms : ∀ p ∈ ms, p.1.tag.toNat ≤ UC_MAX_META_NUM)
    (hcs : ∀ p ∈ cs, p.1.tag ≠ KNV_PKG_HDR_TOTAL_SPLIT_COUNT) :
    ∀ f ∈ headerFields ms cs nr i, f.tag = KNV_PKG_HDR_TOTAL_SPLIT_COUNT → f = totalField nr := by
  intro f hf htag
  obtain ⟨p, hp, rfl⟩ := List.mem_map.mp hf
  rcases List.mem_append.mp hp with hp | hp
  · have hle := hms p hp
    rw [htag] at hle
    exact absurd hle (by decide)
  · rcases List.mem_append.mp hp with hp | hp
    · exact absurd htag (hcs p hp)
    · obtain ⟨g, hg, rfl⟩ := List.mem_map.mp hp
      rcases List.mem_cons.mp hg with rfl | hg
      · rfl
      · obtain ⟨j, -, rfl⟩ := List.mem_map.mp hg
        replace htag : KNV_PKG_HDR_CURR_SPLIT_INDEX = KNV_PKG_HDR_TOTAL_SPLIT_COUNT := htag
        exact absurd htag (by decide)

/-- A packet is far from the limit of what is decoded. -/
theorem CutInto.small (hc : CutInto P m P' ms cs d nr) (ht : Tight (ms ++ cs) d) (hi : i < nr) :
    (messageBytes (headerFields ms cs nr i)).length ≤ 64100 ∧
      (partBytes i (messageBytes (headerFields ms cs nr i),
        KnvProtocol.sliceOf m P.sliceSize nr i)).length < 2 ^ 31 := by
  have hheader := length_headerFields ht nr i
  have htotal := size_varint_le KNV_PKG_HDR_TOTAL_SPLIT_COUNT (UInt64.ofNat nr)
  have hindex := size_varint_le KNV_PKG_HDR_CURR_SPLIT_INDEX (UInt64.ofNat i)
  rw [← totalField] at htotal
  rw [← indexField] at hindex
  have hroom := hc.room
  have hle := hc.header
  have hmax := getMaxPkgSize_le P
  have hslice := hc.length_slice_le hi
  rw [KnvProtocol.sliceSize] at hslice
  have hsize : ∀ (tag : UInt32) (s : List UInt8), (fieldBytes tag (.string s)).length ≤
    20 + s.length := by
    intro tag s
    have h1 := pbEvalVintLength_le (tagWord .string tag)
    have h2 := pbEvalVintLength_le (UInt64.ofNat s.length)
    rw [length_fieldBytes]
    show pbEvalVintLength (tagWord .string tag) + pbEvalVintLength (UInt64.ofNat s.length) +
      s.length ≤ _
    omega
  refine ⟨by omega, ?_⟩
  have h1 := hsize KNV_PKG_HDR_TAG (messageBytes (headerFields ms cs nr i))
  have h2 := hsize (partTag i) (KnvProtocol.sliceOf m P.sliceSize nr i)
  have h3 := hsize KNV_PKG_TAG (messageBytes (partFields i (messageBytes (headerFields ms cs nr i),
    KnvProtocol.sliceOf m P.sliceSize nr i)))
  rw [partFields, messageBytes_cons, messageBytes_cons, List.length_append,
    List.length_append] at h3
  replace h3 : (partBytes i _).length ≤ 20 + ((fieldBytes KNV_PKG_HDR_TAG
    (.string (messageBytes (headerFields ms cs nr i)))).length +
      ((fieldBytes (partTag i) (.string (KnvProtocol.sliceOf m P.sliceSize nr i))).length + 0)) :=
        h3
  rw [KnvProtocol.sliceSize] at h2 h3 ⊢
  omega

/-- **Whoever decodes a part reads how many there are.** -/
theorem CutInto.decode (hc : CutInto P m P' ms cs d nr) (hnr : nr ≤ 255) (ht : Tight (ms ++ cs) d)
    (hms : ∀ p ∈ ms, p.1.tag.toNat ≤ UC_MAX_META_NUM)
    (hcs : ∀ p ∈ cs, p.1.tag ≠ KNV_PKG_HDR_TOTAL_SPLIT_COUNT)
    (htags : ∀ p ∈ ms ++ cs, p.1.tag.toNat < 2 ^ 29) (hi : i < nr) : ∃ R,
      KnvProtocol.decode (partBytes i (messageBytes (headerFields ms cs nr i),
        KnvProtocol.sliceOf m P.sliceSize nr i)) = some R ∧ R.getTotalPartNum = nr := by
  obtain ⟨hlen, hsmall⟩ := hc.small ht hi
  obtain ⟨hd, p, -, hof, -, hdec⟩ := decode_partBytes (by omega : i < 256) hsmall
  refine ⟨_, hdec, ?_⟩
  have hmem : totalField nr ∈ headerFields ms cs nr i := by
    rw [headerFields, List.map_append, List.map_append]
    exact List.mem_append_right _ (List.mem_append_right _ List.mem_cons_self)
  have htotal := received_total hof (fieldOk_headerFields ht htags (by omega)) (by omega) hmem
    (totalField_unique hms hcs)
  show (initHeaderInfo hd).total_split_count.toNat = nr
  rw [htotal, UInt64.toNat_toUInt8, UInt64.toNat_ofNat_of_lt' (by show nr < 2 ^ 64; omega)]
  exact Nat.mod_eq_of_lt (by omega)

end Count

/-! ## A packet that is cut -/

/-- A header that allows for splitting, with `k` bytes of padding. -/
def paddedHeader (k : Nat) (limit : UInt64) : List PbField :=
  [⟨9, .string (List.replicate k 0)⟩, ⟨KNV_PKG_HDR_ALLOW_SPLIT, .varint 1⟩,
    ⟨KNV_PKG_HDR_MAX_PKG_SIZE, .varint limit⟩]

def paddedPacket (k w : Nat) (limit : UInt64) : List UInt8 :=
  packetOf (paddedHeader k limit) (List.replicate w 0)

theorem paddedHeader_tag {k : Nat} {limit : UInt64} {f : PbField} (hf : f ∈ paddedHeader k limit) :
    0 < f.tag.toNat ∧ f.tag.toNat < 2 ^ 29 := by
  rcases List.mem_cons.mp hf with rfl | hf
  · show 0 < (9 : UInt32).toNat ∧ (9 : UInt32).toNat < 2 ^ 29
    decide
  · rcases List.mem_cons.mp hf with rfl | hf
    · show 0 < KNV_PKG_HDR_ALLOW_SPLIT.toNat ∧ KNV_PKG_HDR_ALLOW_SPLIT.toNat < 2 ^ 29
      decide
    · rw [List.mem_singleton.mp hf]
      show 0 < KNV_PKG_HDR_MAX_PKG_SIZE.toNat ∧ KNV_PKG_HDR_MAX_PKG_SIZE.toNat < 2 ^ 29
      decide

/-- What `Split` makes of it. -/
def splitPadded (k w : Nat) (limit : UInt64) : Option (KnvProtocol × KnvProtocol × Option Nat) :=
  (KnvProtocol.decode (paddedPacket k w limit)).bind fun P =>
    (P.split (fun _ => 0) none).toOption.map fun q => (P, q)

theorem whole_padded {k w nr : Nat} {limit : UInt64} {P P' : KnvProtocol}
    (hs : splitPadded k w limit = some (P, P', some nr))
    (hshort : (messageBytes (paddedHeader k limit)).length < 2 ^ 16)
    (hsmall : (paddedPacket k w limit).length < 2 ^ 31) :
    P.split (fun _ => 0) none = .ok (P', some nr) ∧ ∃ h e,
      Whole P h ((metaFields (paddedHeader k limit)).map sized)
        ((childFields (paddedHeader k limit)).map sized)
          (messageBytes (paddedHeader k limit)).length e := by
  obtain ⟨P₀, h, e, hdec, hP⟩ := @whole_decode (paddedHeader k limit) _ (List.cons_ne_nil _ _)
    (fun f hf => fieldOk_of_mem (by omega) hf (paddedHeader_tag hf).1 (paddedHeader_tag hf).2)
      hshort
    hsmall
  rw [splitPadded, paddedPacket, hdec] at hs
  obtain ⟨q, hq, he⟩ := Option.map_eq_some_iff.mp hs
  obtain ⟨rfl, rfl⟩ := Prod.mk.inj he
  exact ⟨toOption_eq_some hq, h, e, hP⟩

end MysqlProxy
