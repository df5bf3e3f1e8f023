/-
  The packets of an object that was cut.

  * `Heads h ms cs d nr x`: the header `h` keeps the fields `ms` and `cs`, says that there are `nr`
    parts and, if `x` is one, which part this is; `d` is the number of bytes that it keeps for
    nothing.
  * `Sends P ms cs d nr slice`: the object `P` was cut into `nr` slices.  `EncodePart` keeps this,
    for any index and any number of times.
  * `Sends.encodePart_ok`: if the header keeps exactly the bytes its fields need, part `i` is
    encoded as `partBytes i`.  `Sends.encodePart_inv`: otherwise nothing is encoded.
-/
import MysqlProxy.Knv.SplitSend

namespace MysqlProxy

open KnvNode

/-- The field that says how many parts there are, -/
def totalField (nr : Nat) : PbField := ⟨KNV_PKG_HDR_TOTAL_SPLIT_COUNT, .varint (UInt64.ofNat nr)⟩

/-- and the one that says which part this is. -/
def indexField (i : Nat) : PbField := ⟨KNV_PKG_HDR_CURR_SPLIT_INDEX, .varint (UInt64.ofNat i)⟩

def splitFields (nr : Nat) (x : Option Nat) : List (PbField × Nat) :=
  (totalField nr :: x.toList.map indexField).map sized

theorem append_splitFields (cs : List (PbField × Nat)) (nr i : Nat) :
    cs ++ splitFields nr (some i) =
    (cs ++ splitFields nr none) ++ [sized (indexField i)] := by
  have hsome : splitFields nr (some i) = splitFields nr none ++ [sized (indexField i)] := rfl
  rw [hsome, List.append_assoc]

theorem taken_splitFields (ms cs : List (PbField × Nat)) (nr i : Nat) :
    taken (ms ++ (cs ++ splitFields nr (some i))) =
      taken (ms ++ (cs ++ splitFields nr none)) + (indexField i).size := by
  rw [append_splitFields, ← List.append_assoc ms, taken_append _ [sized (indexField i)]]
  exact congrArg _ List.sum_singleton

theorem totalField_ne_index (nr : Nat) : (totalField nr).tag ≠ KNV_PKG_HDR_CURR_SPLIT_INDEX := by
  show KNV_PKG_HDR_TOTAL_SPLIT_COUNT ≠ KNV_PKG_HDR_CURR_SPLIT_INDEX
  decide

/-- The header of an object that was cut. -/
structure Heads (h : KnvNode) (ms cs : List (PbField × Nat)) (d nr : Nat) (x : Option Nat) :
    Prop where
  tag : h.tag = KNV_PKG_HDR_TAG
  val : h.val = .string []
  kept : ∃ v, v = taken (ms ++ (cs ++ splitFields nr x)) + d ∧
    KeepsAll h ms (cs ++ splitFields nr x) v (pbEvalStringLength KNV_PKG_HDR_TAG v)
  other : ∀ p ∈ cs, p.1.tag ≠ KNV_PKG_HDR_CURR_SPLIT_INDEX
  last : ∀ i, x = some i → ∃ l c, h.childlist = l ++ [c] ∧ Stands c (indexField i)

section Heads

variable {h : KnvNode} {ms cs : List (PbField × Nat)} {d nr i : Nat} {x : Option Nat}

theorem Heads.isFolded (hh : Heads h ms cs d nr x) : h.isFolded = false := by
  obtain ⟨v, -, hk⟩ := hh.kept
  have hne : h.childlist ≠ [] := by
    intro hnil
    have hlen := hk.childlist.length_eq
    rw [hnil, List.length_append, splitFields, List.map_cons, List.length_cons] at hlen
    exact absurd hlen (by rw [List.length_nil]; omega)
  have hnum : h.child_num ≠ some 0 := by
    rw [hk.indexed.child_num]
    intro he
    exact hne (List.length_eq_zero_iff.mp (Option.some.inj he))
  have hstr : h.str = [] := by
    show h.val.str = []
    rw [hh.val]
    rfl
  rw [KnvNode.isFolded, isFlat, hk.isString, hstr]
  simp [hk.expanded, hnum]

/-- What is kept for the header says what its value needs. -/
theorem Heads.evaluateSize (hh : Heads h ms cs d nr x) : (evaluateSize h).1 =
    (pbEvalStringLength KNV_PKG_HDR_TAG (taken (ms ++ (cs ++ splitFields nr x)) + d) : Nat) := by
  obtain ⟨v, rfl, hk⟩ := hh.kept
  rw [hk.evaluateSize]

/-- The children of an object that has no index yet. -/
theorem Heads.no_index (hh : Heads h ms cs d nr none) :
    ∀ c ∈ h.childlist, c.tag ≠ KNV_PKG_HDR_CURR_SPLIT_INDEX := by
  obtain ⟨v, -, hk⟩ := hh.kept
  intro c hc
  obtain ⟨p, hp, hcp⟩ := forall₂_mem hk.childlist hc
  rw [hcp.tag]
  rcases List.mem_append.mp hp with hp | hp
  · exact hh.other p hp
  · rw [List.mem_singleton.mp hp]
    exact totalField_ne_index nr

/-- **The index is set**, for the first time or again. -/
theorem Heads.setIndex (hh : Heads h ms cs d nr x) (i : Nat) : ∃ h' offs,
    once (h.setChild KNV_PKG_HDR_CURR_SPLIT_INDEX (.varint (UInt64.ofNat i))) = .ok (h', offs) ∧
      Heads h' ms cs d nr (some i) ∧ Patched h h' := by
  obtain ⟨v, hv, hk⟩ := hh.kept
  have htag : KNV_PKG_HDR_CURR_SPLIT_INDEX ≠ 0 := by decide
  have hwrites :
    Writes (initNode KNV_PKG_HDR_CURR_SPLIT_INDEX (.varint (UInt64.ofNat i)) true 0 false)
      (indexField i) := (initNode_stands (indexField i) (.inl rfl) false).writes htag
  cases x with
  | none =>
    obtain ⟨h', offs, hset, hk', hp, hval, hlist⟩ := hk.insertNode hwrites
    rw [hh.tag, ← append_splitFields] at hk'
    refine ⟨h', offs, ?_, ⟨?_, hval, ⟨_, ?_, hk'⟩, hh.other, ?_⟩, hp⟩
    · rw [hk.setChild_new htag hh.no_index]
      exact hset
    · exact (congrArg (fun i => i.2.1) hp.ident).trans hh.tag
    · rw [taken_splitFields]
      omega
    · intro j hj
      cases hj
      exact ⟨_, _, hlist, (initNode_stands (indexField i) (.inl rfl) false).with_ref _⟩
  | some j =>
    obtain ⟨l, c, hlist, hc⟩ := hh.last j rfl
    rw [append_splitFields] at hk
    have hold := hk.childlist
    rw [hlist] at hold
    obtain ⟨hl, -⟩ := forall₂_concat hold
    have hnew : ∀ x ∈ l, x.tag ≠ KNV_PKG_HDR_CURR_SPLIT_INDEX := by
      intro x hx
      obtain ⟨p, hp, hxp⟩ := forall₂_mem hl hx
      rw [hxp.tag]
      rcases List.mem_append.mp hp with hp | hp
      · exact hh.other p hp
      · rw [List.mem_singleton.mp hp]
        exact totalField_ne_index nr
    obtain ⟨h', offs, e', c', hset, hk', hp, hval, hlist', hc', hsnug⟩ :=
      hk.setChild_last htag hh.val hlist hc hnew (UInt64.ofNat i)
    rw [hsnug (by rw [hh.tag]), hh.tag] at hk'
    have hv' : v - (indexField j).size + (indexField i).size =
        taken (ms ++ (cs ++ splitFields nr (some i))) + d := by
      rw [taken_splitFields] at hv ⊢
      omega
    refine ⟨h', offs, hset, ⟨(congrArg (fun i => i.2.1) hp.ident).trans hh.tag, hval, ⟨_, hv', ?_⟩,
      hh.other, ?_⟩, hp⟩
    · rw [append_splitFields]
      exact hk'
    · intro k hk
      cases hk
      exact ⟨l, c', hlist', hc'⟩

/-- **The message is removed.** -/
theorem Heads.clearMsg (hh : Heads h ms cs d nr x) : ∃ h' offs,
    h.removeField KNV_PKG_HDR_ERR_TAG = .ok (h', offs) ∧
      Heads h' (ms.filter fun p => p.1.tag ≠ KNV_PKG_HDR_ERR_TAG) cs d nr x ∧ Patched h h' := by
  obtain ⟨v, hv, hk⟩ := hh.kept
  have herr : KNV_PKG_HDR_ERR_TAG.toNat ≤ UC_MAX_META_NUM := by decide
  obtain ⟨h', offs, v', e', hrem, hk', hsum, hp, hlist, hsnug⟩ := hk.removeMetas herr (by decide)
  have htag : h'.tag = KNV_PKG_HDR_TAG := (congrArg (fun i => i.2.1) hp.ident).trans hh.tag
  rw [hsnug (by rw [hh.tag]), hh.tag] at hk'
  refine ⟨h', offs, hrem, ⟨htag, ?_, ⟨v', ?_, hk'⟩, hh.other, fun i hi => ?_⟩, hp⟩
  · rcases hp.val with he | he
    · rw [he]
      exact hh.val
    · exact he
  · rw [taken_append] at hv ⊢
    omega
  · rw [hlist]
    exact hh.last i hi

end Heads

/-! ## A packet of the header and a part -/

/-- Each field has a tag and keeps the bytes it needs, and no others are kept. -/
def Tight (ps : List (PbField × Nat)) (d : Nat) : Prop :=
  d = 0 ∧ ∀ p ∈ ps, p.1.tag ≠ 0 ∧ p.2 = p.1.size

/-- The fields of the header of part `i`. -/
def headerFields (ms cs : List (PbField × Nat)) (nr i : Nat) : List PbField :=
  (ms ++ (cs ++ splitFields nr (some i))).map Prod.fst

section Packet

variable {P : KnvProtocol} {mem : Nat → UInt8} {h b : KnvNode} {ms cs : List (PbField × Nat)}
  {d nr i : Nat} {s : List UInt8}

theorem placed_full (mem : Nat → UInt8) (bytes : List UInt8) :
    placed mem bytes.length bytes = bytes := by
  rw [placed, Nat.sub_self, List.range_zero, List.map_nil, List.append_nil]

theorem partTag_ne_zero (hi : i < 256) : partTag i ≠ 0 := by
  intro h0
  have hn := toNat_partTag hi
  have hz : (0 : UInt32).toNat = 0 := rfl
  rw [h0] at hn
  omega

/-- Header and part are written one behind the other, or the packet is not made. -/
theorem encodePacket_eq (hT : Holder P.tree P.header h) (hh : Heads h ms cs d nr (some i))
    (hi : i < 256) (hb : Stands b ⟨partTag i, .string s⟩) : ∃ e,
      e = pbEvalStringLength KNV_PKG_HDR_TAG (taken (ms ++ (cs ++ splitFields nr (some i))) + d) ∧
      (∀ hdr, serialize h (e + (⟨partTag i, .string s⟩ : PbField).size) true = .ok hdr →
        hdr.length = e → P.encodePacket mem (some b) =
          .ok (fieldBytes KNV_PKG_TAG (.string (hdr ++ fieldBytes (partTag i) (.string s))))) ∧
      ∀ out, P.encodePacket mem (some b) = .ok out →
        ∃ hdr, serialize h (e + (⟨partTag i, .string s⟩ : PbField).size) true = .ok hdr := by
  obtain ⟨f, hf⟩ : ∃ f : PbField, f = ⟨partTag i, .string s⟩ := ⟨_, rfl⟩
  obtain ⟨e, he⟩ : ∃ e, e = pbEvalStringLength KNV_PKG_HDR_TAG
      (taken (ms ++ (cs ++ splitFields nr (some i))) + d) := ⟨_, rfl⟩
  have hheader : P.getHeader = some h := hT.header
  have hsize : P.headerSize = e := by
    rw [KnvProtocol.headerSize, hheader]
    show (evaluateSize h).1.toNat = e
    rw [hh.evaluateSize, he]
    rfl
  have hbody : (evaluateSize b).1 = f.size := by
    rw [hf]
    exact hb.evaluateSize
  have hpos := f.size_pos
  obtain ⟨total, htotal⟩ : ∃ total, total = pbEvalStringLength KNV_PKG_TAG (e + f.size) := ⟨_, rfl⟩
  obtain ⟨head, hhd⟩ : ∃ head, head = strHead KNV_PKG_TAG (e + f.size) := ⟨_, rfl⟩
  have hhead : head.length + (e + f.size) = total := by
    rw [hhd, htotal]
    exact length_strHead KNV_PKG_TAG (e + f.size)
  have hput : pbAddStringHead ⟨[], total⟩ KNV_PKG_TAG (e + f.size) =
    .ok (PbBuff.push ⟨[], total⟩ head) :=
    pbAddStringHead_eq hhd (by show head.length ≤ total; omega)
  have hout : (PbBuff.push ⟨[], total⟩ head).out = head := List.nil_append head
  have hleft : total - head.length = e + f.size := by omega
  rw [← hf]
  refine ⟨e, he, ?_⟩
  rw [KnvProtocol.encodePacket, hheader]
  simp only [Option.elim, hbody, hsize, Int.toNat_natCast, ← htotal, hput, hout, hleft]
  constructor
  · intro hdr hs hlen
    have hroom : total - (head ++ hdr).length = f.size := by
      rw [List.length_append]
      omega
    have hwrite : serialize b f.size true = .ok (fieldBytes (partTag i) (.string s)) := by
      rw [hf]
      exact hb.serialize (partTag_ne_zero hi) (Nat.le_refl _)
    have hfield : (fieldBytes (partTag i) (.string s)).length = f.size := by
      rw [hf]
      exact length_fieldBytes _ _
    have hlast : (head ++ hdr ++ fieldBytes (partTag i) (.string s)).length = total := by
      rw [List.length_append, List.length_append]
      omega
    have hval : (hdr ++ fieldBytes (partTag i) (.string s)).length = e + f.size := by
      rw [List.length_append, hlen, hfield]
    simp only [hs, if_pos hpos, hroom, hwrite]
    rw [← hlast, placed_full, fieldBytes_string KNV_PKG_TAG, hval, ← hhd, List.append_assoc]
  · intro out hout
    cases hs : serialize h (e + f.size) true with
    | error err =>
      rw [hs] at hout
      cases hout
    | ok hdr => exact ⟨hdr, rfl⟩

theorem tight_splitFields (nr : Nat) (x : Option Nat) :
    ∀ p ∈ splitFields nr x, p.1.tag ≠ 0 ∧ p.2 = p.1.size := by
  intro p hp
  obtain ⟨f, hf, rfl⟩ := List.mem_map.mp hp
  refine ⟨?_, rfl⟩
  rcases List.mem_cons.mp hf with rfl | hf
  · show KNV_PKG_HDR_TOTAL_SPLIT_COUNT ≠ 0
    decide
  · obtain ⟨i, -, rfl⟩ := List.mem_map.mp hf
    show KNV_PKG_HDR_CURR_SPLIT_INDEX ≠ 0
    decide

theorem needed_tight {ps : List (PbField × Nat)} (h : Tight ps d) : needed ps = taken ps := by
  rw [needed, taken, List.map_congr_left fun p hp => ((h.2 p hp).2).symm]

theorem Tight.announced (h : Tight (ms ++ cs) d) (nr : Nat) (x : Option Nat) :
    Tight (ms ++ (cs ++ splitFields nr x)) d := by
  refine ⟨h.1, fun p hp => ?_⟩
  rw [← List.append_assoc] at hp
  rcases List.mem_append.mp hp with hp | hp
  · exact h.2 p hp
  · exact tight_splitFields nr x p hp

theorem length_headerFields (h : Tight (ms ++ cs) d) (nr i : Nat) :
    (messageBytes (headerFields ms cs nr i)).length =
      taken (ms ++ cs) + ((totalField nr).size + (indexField i).size) := by
  have hone : taken (splitFields nr none) = (totalField nr).size := List.sum_singleton
  rw [headerFields, length_messageBytes_needed, needed_tight (h.announced nr (some i)),
    taken_splitFields, ← List.append_assoc, taken_append (ms ++ cs), hone, Nat.add_assoc]

/-- **The packet of part `i`**, if the header keeps exactly what its fields need. -/
theorem encodePacket_part (hT : Holder P.tree P.header h) (hh : Heads h ms cs d nr (some i))
    (hi : i < 256) (hb : Stands b ⟨partTag i, .string s⟩) (ht : Tight (ms ++ cs) d) :
    P.encodePacket mem (some b) = .ok (partBytes i (messageBytes (headerFields ms cs nr i), s))
      := by
  obtain ⟨e, he, hok, -⟩ := @encodePacket_eq P mem _ _ _ _ _ _ _ _ hT hh hi hb
  obtain ⟨v, hv, hk⟩ := hh.kept
  have hall := ht.announced nr (some i)
  have hneed : needed (ms ++ (cs ++ splitFields nr (some i))) = v := by
    rw [hv, ht.1, Nat.add_zero, needed_tight hall]
  have hlen : pbEvalStringLength KNV_PKG_HDR_TAG v ≤ e + (⟨partTag i, .string s⟩ : PbField).size :=
    by rw [he, ← hv]; omega
  have hhdr := hk.serialize hh.isFolded (fun p hp => (hall.2 p hp).1) hneed (by rw [hh.tag]) hlen
  rw [hh.tag] at hhdr
  rw [hok _ hhdr, partBytes, partFields, messageBytes_cons, messageBytes_cons]
  · show _ = Except.ok (fieldBytes KNV_PKG_TAG (.string (_ ++ (_ ++ []))))
    rw [List.append_nil]
    rfl
  · rw [length_fieldBytes, he, ← hv, ← hneed, ← length_messageBytes_needed]
    rfl

/-- Otherwise there is no packet. -/
theorem encodePacket_tight (hT : Holder P.tree P.header h) (hh : Heads h ms cs d nr (some i))
    (hi : i < 256) (hb : Stands b ⟨partTag i, .string s⟩) {out : List UInt8}
    (hout : P.encodePacket mem (some b) = .ok out) : Tight (ms ++ cs) d := by
  obtain ⟨e, he, -, hinv⟩ := @encodePacket_eq P mem _ _ _ _ _ _ _ _ hT hh hi hb
  obtain ⟨hdr, hs⟩ := hinv out hout
  obtain ⟨v, hv, hk⟩ := hh.kept
  have htags := hk.tags_inv hh.isFolded hs
  obtain ⟨-, hneed, -⟩ := hk.serialize_inv hh.isFolded (by rw [he, ← hv]; omega) hs
  have hle : ∀ p ∈ ms ++ (cs ++ splitFields nr (some i)), p.1.size ≤ p.2 := by
    intro p hp
    obtain ⟨m, -, hm⟩ := forall₂_mem (List.rel_append hk.metalist hk.childlist).flip hp
    exact hm.le
  obtain ⟨hsz, htaken⟩ := (needed_eq_iff hle (by omega)).mp hneed
  refine ⟨by omega, fun p hp => ?_⟩
  have hmem : p ∈ ms ++ (cs ++ splitFields nr (some i)) := by
    rw [← List.append_assoc]
    exact List.mem_append_left _ hp
  exact ⟨htags p hmem, hsz p hmem⟩

end Packet

/-! ## `EncodePart` -/

/-- The metas that the parts have: a message is removed before a part is encoded. -/
def KnvProtocol.stayingMetas (P : KnvProtocol) (ms : List (PbField × Nat)) : List (PbField × Nat) :=
  if P.info.retmsg = none then ms else ms.filter fun p => p.1.tag ≠ KNV_PKG_HDR_ERR_TAG

/-- **An object that was cut into `nr` slices.** -/
structure Sends (P : KnvProtocol) (ms cs : List (PbField × Nat)) (d nr : Nat)
    (slice : Nat → List UInt8) : Prop where
  header : ∃ h ms' x, Holder P.tree P.header h ∧ Heads h ms' cs d nr x ∧
    P.stayingMetas ms' = ms
  parts : ∀ i < nr, HasPart P.tree i (slice i)
  total : P.info.total_split_count = UInt8.ofNat nr
  retcode : P.info.retcode = 0

section EncodePart

variable {P P' : KnvProtocol} {mem : Nat → UInt8} {ms cs : List (PbField × Nat)} {d nr i : Nat}
  {slice : Nat → List UInt8} {s : List UInt8}

theorem Holder.isValid {h : KnvNode} (hT : Holder P.tree P.header h) : P.isValid = true :=
  decide_eq_true hT.tree.tag

/-- `EncodeWithBody` without a return code: a message goes first. -/
theorem encodeWithBody_eq {b : KnvNode} (hvalid : P.isValid = true) (h0 : P.info.retcode = 0)
    (hclear : (if P.info.retmsg ≠ none then P.clearRetErrorMsg else .ok P) = .ok P') :
    P.encodeWithBody mem b = (P'.encodePacket mem (some b)).map (P', ·) := by
  have hskip : ¬ P.info.retcode ≠ 0 := not_not_intro h0
  rw [KnvProtocol.encodeWithBody, hvalid, if_neg (by decide), if_neg hskip]
  by_cases hmsg : P.info.retmsg ≠ none
  · rw [if_pos hmsg] at hclear
    simp only [bind, Except.bind, pure, Except.pure, if_pos hmsg, hclear]
    cases P'.encodePacket mem (some b) with
    | error e => rfl
    | ok s => rfl
  · rw [if_neg hmsg] at hclear
    obtain rfl := Except.ok.inj hclear
    simp only [bind, Except.bind, pure, Except.pure, if_neg hmsg]
    cases P.encodePacket mem (some b) with
    | error e => rfl
    | ok s => rfl

theorem Sends.totalPartNum (hP : Sends P ms cs d nr slice) (hnr : nr ≤ 255) :
    P.getTotalPartNum = nr := by
  rw [KnvProtocol.getTotalPartNum, hP.total, UInt8.toNat_ofNat_of_lt' (by show nr < 256; omega)]

/-- **Part `i` is made of a header that says so and of its slice**, in an object that can go on. -/
theorem Sends.encodePart_eq (hP : Sends P ms cs d nr slice) (hnr : 2 ≤ nr) (hle : nr ≤ 255)
    (hi : i < nr) (mem : Nat → UInt8) : ∃ P' h b,
      P.encodePart mem i = (P'.encodePacket mem (some b)).map (P', ·) ∧
      Sends P' ms cs d nr slice ∧ Holder P'.tree P'.header h ∧ Heads h ms cs d nr (some i) ∧
      Stands b ⟨partTag i, .string (slice i)⟩ := by
  obtain ⟨h, ms', x, hT, hh, hstay⟩ := hP.header
  obtain ⟨b, hb, hst, huniq⟩ := hP.parts i hi
  have hfind : P.tree.findChildByTag (partTag i) = some b := by
    have hbt : b.tag = partTag i := hst.tag
    rw [← hbt]
    exact hT.tree.find hb fun x hx hxt => huniq x hx (hxt.trans hbt)
  have hcount : P.info.total_split_count ≠ 1 := by
    intro h1
    have hn := hP.totalPartNum hle
    rw [KnvProtocol.getTotalPartNum, h1] at hn
    have h1 : (1 : UInt8).toNat = 1 := rfl
    omega
  -- the header says which part this is
  obtain ⟨h₁, offs₁, hset, hh₁, hp₁⟩ := hh.setIndex i
  obtain ⟨T₁, hT₁, hold₁, hlist₁⟩ := hT.edit (f := fun h => once (h.setChild
    KNV_PKG_HDR_CURR_SPLIT_INDEX (.varint (UInt64.ofNat i)))) hset hp₁
  have hindex : P.setHeaderChildInt KNV_PKG_HDR_CURR_SPLIT_INDEX (UInt64.ofNat i) =
      .ok { P with tree := T₁ } := by
    rw [KnvProtocol.setHeaderChildInt, hT₁]
    rfl
  have hparts₁ : ∀ j < nr, HasPart T₁ j (slice j) := fun j hj =>
    hT.edit_part hp₁ hlist₁ (by omega) (hP.parts j hj)
  have hbody : P.encodePart mem i = ({ P with tree := T₁ } : KnvProtocol).encodeWithBody mem b := by
    rw [KnvProtocol.encodePart, hT.isValid, hP.totalPartNum hle, if_neg (by decide),
      if_neg (by omega),
      if_neg hcount, hfind]
    simp only [hindex]
  rw [hbody]
  have hvalid : ({ P with tree := T₁ } : KnvProtocol).isValid = true := Holder.isValid hold₁
  by_cases hmsg : P.info.retmsg = none
  · rw [KnvProtocol.stayingMetas, if_pos hmsg] at hstay
    subst hstay
    refine ⟨{ P with tree := T₁ }, h₁, b, ?_, ⟨⟨h₁, ms', some i, hold₁, hh₁, ?_⟩, hparts₁, hP.total,
      hP.retcode⟩, hold₁, hh₁, hst⟩
    · exact encodeWithBody_eq hvalid hP.retcode (if_neg (not_not_intro hmsg))
    · rw [KnvProtocol.stayingMetas, if_pos hmsg]
  · -- the message is removed
    rw [KnvProtocol.stayingMetas, if_neg hmsg] at hstay
    obtain ⟨h₂, offs₂, hrem, hh₂, hp₂⟩ := hh₁.clearMsg
    obtain ⟨T₂, hT₂, hold₂, hlist₂⟩ :=
      hold₁.edit (f := (removeField · KNV_PKG_HDR_ERR_TAG)) hrem hp₂
    have hclear : ({ P with tree := T₁ } : KnvProtocol).clearRetErrorMsg =
        .ok { P with tree := T₂, info := { P.info with retmsg := none } } := by
      rw [KnvProtocol.clearRetErrorMsg, hT₂]
    rw [hstay] at hh₂
    refine ⟨{ P with tree := T₂, info := { P.info with retmsg := none } }, h₂, b, ?_,
      ⟨⟨h₂, ms, some i, hold₂, hh₂, rfl⟩, fun j hj => ?_, hP.total, hP.retcode⟩, hold₂, hh₂, hst⟩
    · exact encodeWithBody_eq hvalid hP.retcode ((if_pos hmsg).trans hclear)
    · exact hold₁.edit_part hp₂ hlist₂ (by omega) (hparts₁ j hj)

/-- **Part `i` is encoded**, if the header keeps exactly what its fields need. -/
theorem Sends.encodePart_ok (hP : Sends P ms cs d nr slice) (hnr : 2 ≤ nr) (hle : nr ≤ 255)
    (ht : Tight (ms ++ cs) d) (hi : i < nr) (mem : Nat → UInt8) :
    ∃ P', P.encodePart mem i =
        .ok (P', partBytes i (messageBytes (headerFields ms cs nr i), slice i)) ∧
      Sends P' ms cs d nr slice := by
  obtain ⟨P', h, b, he, hP', hT, hh, hb⟩ := hP.encodePart_eq hnr hle hi mem
  rw [he, encodePacket_part hT hh (by omega) hb ht]
  exact ⟨P', rfl, hP'⟩

/-- Otherwise no part is. -/
theorem Sends.encodePart_inv (hP : Sends P ms cs d nr slice) (hnr : 2 ≤ nr) (hle : nr ≤ 255)
    (hi : i < nr) (hs : P.encodePart mem i = .ok (P', s)) : Tight (ms ++ cs) d := by
  obtain ⟨P₁, h, b, he, -, hT, hh, hb⟩ := hP.encodePart_eq hnr hle hi mem
  rw [he] at hs
  cases hp : P₁.encodePacket mem (some b) with
  | error err =>
    rw [hp] at hs
    cases hs
  | ok out => exact encodePacket_tight hT hh (by omega) hb hp

/-- There are no other parts. -/
theorem Sends.index_lt (hP : Sends P ms cs d nr slice) (hle : nr ≤ 255)
    (hs : P.encodePart mem i = .ok (P', s)) : i < nr := by
  by_contra hi
  obtain ⟨h, ms', x, hT, -, -⟩ := hP.header
  rw [KnvProtocol.encodePart, hT.isValid, hP.totalPartNum hle, if_neg (by decide),
    if_pos (by omega)] at hs
  cases hs

/-- A call of `EncodePart` that makes a packet. -/
def Encodes (P P' : KnvProtocol) : Prop := ∃ mem i s, P.encodePart mem i = .ok (P', s)

/-- **It stays so, whatever is encoded, in whatever order.** -/
theorem Sends.run (hP : Sends P ms cs d nr slice) (hnr : 2 ≤ nr) (hle : nr ≤ 255)
    (hrun : Relation.ReflTransGen Encodes P P') : Sends P' ms cs d nr slice := by
  induction hrun with
  | refl => exact hP
  | @tail Q Q' _ hstep ih =>
    obtain ⟨mem, i, s, hs⟩ := hstep
    obtain ⟨Q₁, h, b, he, hQ₁, -⟩ := ih.encodePart_eq hnr hle (ih.index_lt hle hs) mem
    rw [he] at hs
    cases hp : Q₁.encodePacket mem (some b) with
    | error err =>
      rw [hp] at hs
      cases hs
    | ok out =>
      rw [hp] at hs
      cases hs
      exact hQ₁

end EncodePart

end MysqlProxy
