/-
  What `Split` leaves behind when it cuts.

  * `Whole P h ms cs v e`: an object whose header keeps the fields `ms` and `cs`, `v` bytes for its
    value and `e` for itself.
  * `split_inv`: what must have happened if the encoding was cut.
  * `Whole.split`: then the object is one that sends its slices (`Sends`).  Of the header's fields
    stay those that no part has: neither the split fields nor a message.
-/
import MysqlProxy.Knv.SplitParts
import MysqlProxy.Knv.Encoded

namespace MysqlProxy

open KnvNode

/-- An object with its header: a message whose fields have tags that can be sent. -/
structure Whole (P : KnvProtocol) (h : KnvNode) (ms cs : List (PbField × Nat)) (v e : Nat) :
    Prop where
  holder : Holder P.tree P.header h
  kept : KeepsAll (h.innerExpand false false) ms cs v e
  metas : ∀ p ∈ ms, p.1.tag.toNat ≤ UC_MAX_META_NUM
  tags : ∀ p ∈ ms ++ cs, p.1.tag.toNat < 2 ^ 29

/-- The children that the parts have. -/
def stayingKids (cs : List (PbField × Nat)) : List (PbField × Nat) :=
  (cs.filter fun p => p.1.tag ≠ KNV_PKG_HDR_TOTAL_SPLIT_COUNT).filter fun p =>
    p.1.tag ≠ KNV_PKG_HDR_CURR_SPLIT_INDEX

section Cut

variable {P P' : KnvProtocol} {mem : Nat → UInt8} {b : Option KnvNode} {h : KnvNode}
  {ms cs : List (PbField × Nat)} {v e nr : Nat}

theorem mem_stayingMetas {p : PbField × Nat} (hp : p ∈ P.stayingMetas ms) : p ∈ ms := by
  rw [KnvProtocol.stayingMetas] at hp
  split at hp
  · exact hp
  · exact List.mem_of_mem_filter hp

theorem mem_stayingKids {p : PbField × Nat} (hp : p ∈ stayingKids cs) : p ∈ cs ∧
    p.1.tag ≠ KNV_PKG_HDR_TOTAL_SPLIT_COUNT := by
  obtain ⟨hp, -⟩ := List.mem_filter.mp hp
  obtain ⟨hp, htag⟩ := List.mem_filter.mp hp
  exact ⟨hp, of_decide_eq_true htag⟩

/-! ## The split fields go -/

theorem removeChildrenByTag_innerExpand (n : KnvNode) (tag : UInt32) :
    (n.innerExpand false false).removeChildrenByTag tag = n.removeChildrenByTag tag := by
  have htag : (n.innerExpand false false).tag = n.tag :=
    congrArg (fun x => x.2.1) (innerExpand_head n false false)
  rw [removeChildrenByTag, removeChildrenByTag, htag,
    innerExpand_expanded (innerExpand_num n false false)]

theorem Holder.removeChildren (hT : Holder P.tree P.header h)
    (hk : KeepsAll (h.innerExpand false false) ms cs v e) (tag : UInt32) : ∃ T' h' v' e',
      P.removeHeaderChildren tag = { P with tree := T' } ∧ Holder T' P.header h' ∧
      KeepsAll h' ms (cs.filter fun p => p.1.tag ≠ tag) v' e' ∧
      v' + taken cs = v + taken (cs.filter fun p => p.1.tag ≠ tag) := by
  obtain ⟨h', offs, v', e', hrem, hk', hsum, hp, -⟩ := hk.removeChildrenByTag tag
  rw [removeChildrenByTag_innerExpand] at hrem
  obtain ⟨T', hT', hold, -⟩ := hT.edit (f := (removeChildrenByTag · tag)) hrem
    ((patched_innerExpand h false false).trans hp)
  refine ⟨T', h', v', e', ?_, hold, hk', hsum⟩
  rw [KnvProtocol.removeHeaderChildren, hT']

/-- **The object without split fields.** -/
theorem Whole.clearSplit (hP : Whole P h ms cs v e) : ∃ h' e',
    P.clearSplit.info = { P.info with total_split_count := 1 } ∧
    Holder P.clearSplit.tree P.clearSplit.header h' ∧
    KeepsAll h' ms (stayingKids cs) (taken (ms ++ stayingKids cs) + (v - taken (ms ++ cs))) e' := by
  have hroom := hP.kept.taken_le
  obtain ⟨T₁, h₁, v₁, e₁, hT₁, hold₁, hk₁, hsum₁⟩ := Holder.removeChildren
    (P := { P with info := { P.info with total_split_count := 1 } }) hP.holder hP.kept
    KNV_PKG_HDR_TOTAL_SPLIT_COUNT
  have hk₁' := hk₁
  rw [← hk₁.innerExpand false false] at hk₁
  obtain ⟨T₂, h₂, v₂, e₂, hT₂, hold₂, hk₂, hsum₂⟩ := Holder.removeChildren
    (P := { P with tree := T₁, info := { P.info with total_split_count := 1 } }) hold₁ hk₁
    KNV_PKG_HDR_CURR_SPLIT_INDEX
  have hclear : P.clearSplit = { P with tree := T₂, info :=
    { P.info with total_split_count := 1 } } := by
    rw [KnvProtocol.clearSplit, hT₁, hT₂]
  rw [hclear]
  refine ⟨h₂, e₂, rfl, hold₂, ?_⟩
  · have hv : v₂ = taken (ms ++ stayingKids cs) + (v - taken (ms ++ cs)) := by
      rw [taken_append] at hroom ⊢
      rw [taken_append, stayingKids]
      omega
    rw [← hv]
    exact hk₂

/-! ## The encoding -/

/-- What `Split` cuts: the encoding of a given body, or of the object. -/
def KnvProtocol.encodeFor (P : KnvProtocol) (mem : Nat → UInt8) (b : Option KnvNode) :
    Except KnvError (KnvProtocol × List UInt8) :=
  match b with
  | some b => P.encodeWithBody mem b
  | none => (P.encode mem).map (P, ·)

theorem keepWhole_none {Q : KnvProtocol} {n : Nat}
    (hs : (Q.keepWhole b).map (·, none) = .ok (P', some n)) :
    False := by
  cases hk : Q.keepWhole b with
  | error e =>
    rw [hk] at hs
    cases hs
  | ok Q' =>
    rw [hk] at hs
    cases hs

/-- The end of `Split`, behind the test whether the object is short. -/
theorem split_end {Q : KnvProtocol} {short : Prop} [Decidable short]
    (hs : (if short then (Q.keepWhole b).map (·, none)
      else
        match Q.encodeFor mem b with
        | .error e => .error ⟨-5, "Encode failed: " ++ e.errmsg⟩
        | .ok (P, m) =>
          if m.length ≤ Q.getMaxPkgSize then (P.keepWhole b).map (·, none)
          else
            let hdr_sz := P.headerSize + 16
            if Q.getMaxPkgSize ≤ hdr_sz then
              .error ⟨-6, "Header size(" ++ toString hdr_sz ++ ") is larger than max_pkg_size(" ++
                toString Q.getMaxPkgSize ++ ")"⟩
            else
              let sz_part := Q.getMaxPkgSize - hdr_sz
              let nr_pkgs := (m.length + sz_part - 1) / sz_part
              if nr_pkgs ≤ 1 then (P.keepWhole b).map (·, none)
              else (P.cut m sz_part nr_pkgs).map (·, some nr_pkgs)) = .ok (P', some nr)) :
    ∃ P₁ m, Q.encodeFor mem b = .ok (P₁, m) ∧ Q.getMaxPkgSize < m.length ∧
      P₁.headerSize + 16 < Q.getMaxPkgSize ∧
      nr = (m.length + (Q.getMaxPkgSize - (P₁.headerSize + 16)) - 1) /
        (Q.getMaxPkgSize - (P₁.headerSize + 16)) ∧ 1 < nr ∧
      P₁.cut m (Q.getMaxPkgSize - (P₁.headerSize + 16)) nr = .ok P' := by
  split at hs
  · exact (keepWhole_none hs).elim
  · cases henc : Q.encodeFor mem b with
    | error e =>
      rw [henc] at hs
      cases hs
    | ok q =>
      obtain ⟨P₁, m⟩ := q
      simp only [henc] at hs
      split at hs
      · exact (keepWhole_none hs).elim
      · rename_i hlong
        split at hs
        · cases hs
        · rename_i hroom
          split at hs
          · exact (keepWhole_none hs).elim
          · rename_i hnr
            cases hcut : P₁.cut m (Q.getMaxPkgSize - (P₁.headerSize + 16))
              ((m.length + (Q.getMaxPkgSize - (P₁.headerSize + 16)) - 1) /
                (Q.getMaxPkgSize - (P₁.headerSize + 16))) with
            | error e =>
              rw [hcut] at hs
              cases hs
            | ok P₂ =>
              rw [hcut] at hs
              cases hs
              exact ⟨P₁, m, rfl, by omega, by omega, rfl, by omega, hcut⟩

/-- **The encoding was cut**: it is longer than the limit, and the limit leaves room for slices. -/
theorem split_inv (hs : P.split mem b = .ok (P', some nr)) : ∃ P₁ m,
    P.clearSplit.encodeFor mem b = .ok (P₁, m) ∧ P.clearSplit.getMaxPkgSize < m.length ∧
    P₁.headerSize + 16 < P.clearSplit.getMaxPkgSize ∧
    nr = (m.length + (P.clearSplit.getMaxPkgSize - (P₁.headerSize + 16)) - 1) /
      (P.clearSplit.getMaxPkgSize - (P₁.headerSize + 16)) ∧ 1 < nr ∧
    P₁.cut m (P.clearSplit.getMaxPkgSize - (P₁.headerSize + 16)) nr = .ok P' := by
  rw [KnvProtocol.split] at hs
  split at hs
  · cases hs
  · cases b with
    | none => exact split_end (b := none) hs
    | some body => exact split_end (b := some body) hs

/-- A packet of the header alone is hardly longer than the header. -/
theorem encodePacket_none {m : List UInt8} (hs : P.encodePacket mem none = .ok m) :
    m.length ≤ P.headerSize + 16 := by
  rw [KnvProtocol.encodePacket] at hs
  cases hh : P.getHeader with
  | none =>
    rw [hh] at hs
    cases hs
  | some h =>
    rw [hh] at hs
    simp only [Option.elim, Int.toNat_zero, Nat.add_zero] at hs
    obtain ⟨total, htotal⟩ : ∃ total, total = pbEvalStringLength KNV_PKG_TAG P.headerSize :=
      ⟨_, rfl⟩
    obtain ⟨head, hhd⟩ : ∃ head, head = strHead KNV_PKG_TAG P.headerSize := ⟨_, rfl⟩
    have hhead : head.length + P.headerSize = total := by
      rw [hhd, htotal]
      exact length_strHead KNV_PKG_TAG P.headerSize
    have hput : pbAddStringHead ⟨[], total⟩ KNV_PKG_TAG P.headerSize =
        .ok (PbBuff.push ⟨[], total⟩ head) :=
      pbAddStringHead_eq hhd (by show head.length ≤ total; omega)
    have hout : (PbBuff.push ⟨[], total⟩ head).out = head := List.nil_append head
    have hshort : head.length ≤ 13 := by
      have htag : pbEvalVintLength (tagWord .string KNV_PKG_TAG) = 3 := by decide
      have hlen := pbEvalVintLength_le (UInt64.ofNat P.headerSize)
      rw [hhd, strHead, List.length_append, length_vintBytes, length_vintBytes, htag]
      omega
    simp only [← htotal, hput, hout] at hs
    cases hser : serialize h (total - head.length) true with
    | error e =>
      rw [hser] at hs
      cases hs
    | ok hdr =>
      rw [hser] at hs
      obtain rfl := Except.ok.inj hs
      have hle := ((serialize_eq_ok h).mp hser).2
      rw [placed, List.length_append, List.length_append, List.length_map, List.length_range]
      omega

/-- **The object whose encoding is cut** has no return code; its header may have lost a message. -/
theorem Holder.encodeFor {P₁ : KnvProtocol} {m : List UInt8} {d : Nat}
    (hT : Holder P.tree P.header h)
    (hk : KeepsAll h ms cs (taken (ms ++ cs) + d) e) (hret : b = none ∨ P.info.retcode = 0)
    (henc : P.encodeFor mem b = .ok (P₁, m)) (hlong : P₁.headerSize + 16 < m.length) :
    ∃ h₁ ms₁ e₁, Holder P₁.tree P₁.header h₁ ∧ KeepsAll h₁ ms₁ cs (taken (ms₁ ++ cs) + d) e₁ ∧
      P₁.stayingMetas ms₁ = P.stayingMetas ms ∧ P₁.info.retcode = 0 ∧
      P₁.info.max_pkg_sz = P.info.max_pkg_sz ∧ (P.info.retmsg = none → P₁ = P) := by
  cases b with
  | none =>
    cases he : P.encode mem with
    | error err =>
      rw [KnvProtocol.encodeFor, he] at henc
      cases henc
    | ok m' =>
      rw [KnvProtocol.encodeFor, he] at henc
      obtain ⟨rfl, rfl⟩ := Prod.mk.inj (Except.ok.inj henc)
      refine ⟨h, ms, e, hT, hk, rfl, ?_, rfl, fun _ => rfl⟩
      by_contra h0
      rw [KnvProtocol.encode, if_pos h0] at he
      have := encodePacket_none he
      omega
  | some body =>
    have h0 : P.info.retcode = 0 := hret.resolve_left (fun hn => nomatch hn)
    rw [KnvProtocol.encodeFor] at henc
    by_cases hmsg : P.info.retmsg = none
    · rw [encodeWithBody_eq hT.isValid h0 (if_neg (not_not_intro hmsg))] at henc
      cases hp : P.encodePacket mem (some body) with
      | error err =>
        rw [hp] at henc
        cases henc
      | ok s =>
        rw [hp] at henc
        obtain ⟨rfl, rfl⟩ := Prod.mk.inj (Except.ok.inj henc)
        exact ⟨h, ms, e, hT, hk, rfl, h0, rfl, fun _ => rfl⟩
    · have herr : KNV_PKG_HDR_ERR_TAG.toNat ≤ UC_MAX_META_NUM := by decide
      obtain ⟨h₁, offs, v₁, e₁, hrem, hk₁, hsum, hp₁, -⟩ := hk.removeMetas herr (by decide)
      obtain ⟨T₁, hT₁, hold₁, -⟩ := hT.edit (f := (removeField · KNV_PKG_HDR_ERR_TAG)) hrem hp₁
      have hclear : P.clearRetErrorMsg =
          .ok { P with tree := T₁, info := { P.info with retmsg := none } } := by
        rw [KnvProtocol.clearRetErrorMsg, hT₁]
      rw [encodeWithBody_eq hT.isValid h0 ((if_pos hmsg).trans hclear)] at henc
      cases hp : ({ P with tree := T₁, info := { P.info with retmsg := none } } :
          KnvProtocol).encodePacket mem (some body) with
      | error err =>
        rw [hp] at henc
        cases henc
      | ok s =>
        rw [hp] at henc
        obtain ⟨rfl, rfl⟩ := Prod.mk.inj (Except.ok.inj henc)
        have hv : v₁ = taken ((ms.filter fun p => p.1.tag ≠ KNV_PKG_HDR_ERR_TAG) ++ cs) + d := by
          rw [taken_append] at hsum ⊢
          omega
        rw [hv] at hk₁
        refine ⟨h₁, _, e₁, hold₁, hk₁, ?_, h0, rfl, fun hn => absurd hn hmsg⟩
        rw [KnvProtocol.stayingMetas, KnvProtocol.stayingMetas, if_pos rfl, if_neg hmsg]

/-- **The encoding is cut.** -/
theorem Holder.cut {m : List UInt8} {sz d : Nat} (hT : Holder P.tree P.header h)
    (hk : KeepsAll h ms (stayingKids cs) (taken (ms ++ stayingKids cs) + d) e)
    (hret : P.info.retcode = 0) (hle : nr ≤ 255) : ∃ P', P.cut m sz nr = .ok P' ∧
      Sends P' (P.stayingMetas ms) (stayingKids cs) d nr (KnvProtocol.sliceOf m sz nr) ∧
      P'.info = { P.info with total_split_count := UInt8.ofNat nr } := by
  have htag : KNV_PKG_HDR_TOTAL_SPLIT_COUNT ≠ 0 := by decide
  have hnone : ∀ p ∈ stayingKids cs, p.1.tag ≠ KNV_PKG_HDR_TOTAL_SPLIT_COUNT ∧
      p.1.tag ≠ KNV_PKG_HDR_CURR_SPLIT_INDEX := by
    intro p hp
    obtain ⟨hp, hindex⟩ := List.mem_filter.mp hp
    exact ⟨of_decide_eq_true (List.mem_filter.mp hp).2, of_decide_eq_true hindex⟩
  have hnew : ∀ c ∈ h.childlist, c.tag ≠ KNV_PKG_HDR_TOTAL_SPLIT_COUNT := by
    intro c hc
    obtain ⟨p, hp, hcp⟩ := forall₂_mem hk.childlist hc
    rw [hcp.tag]
    exact (hnone p hp).1
  have hwrites :
    Writes (initNode KNV_PKG_HDR_TOTAL_SPLIT_COUNT (.varint (UInt64.ofNat nr)) true 0 false)
      (totalField nr) := (initNode_stands (totalField nr) (.inl rfl) false).writes htag
  obtain ⟨h₁, offs, hset, hk₁, hp₁, hval, -⟩ := hk.insertNode hwrites
  rw [← hk.setChild_new htag hnew] at hset
  obtain ⟨T₁, hT₁, hold₁, -⟩ := hT.edit (f := fun h => once (h.setChild
    KNV_PKG_HDR_TOTAL_SPLIT_COUNT (.varint (UInt64.ofNat nr)))) hset hp₁
  have hidx : ∀ i ∈ List.range nr, i < 256 := fun i hi => by
    have := List.mem_range.mp hi
    omega
  obtain ⟨T₂, hT₂, hold₂, hparts, -⟩ :=
    @Holder.hangSlices _ _ _ (KnvProtocol.sliceOf m sz nr) _ hidx List.nodup_range hold₁
  have hv : taken (ms ++ stayingKids cs) + d + (totalField nr).size =
      taken (ms ++ (stayingKids cs ++ splitFields nr none)) + d := by
    have hone : taken (splitFields nr none) = (totalField nr).size := List.sum_singleton
    rw [← List.append_assoc, taken_append _ (splitFields nr none), hone]
    omega
  rw [hT.tag, hv] at hk₁
  refine ⟨{ P with tree := T₂, info := { P.info with total_split_count := UInt8.ofNat nr } }, ?_,
    ⟨⟨h₁, ms, none, hold₂, ⟨hold₁.tag, hval, ⟨_, rfl, hk₁⟩, fun p hp => (hnone p hp).2,
      fun i hi => nomatch hi⟩, rfl⟩, fun i hi => hparts i (List.mem_range.mpr hi), rfl, hret⟩, rfl⟩
  rw [KnvProtocol.cut, KnvProtocol.setHeaderChildInt]
  simp only [hT₁, Except.map, hT₂]

theorem taken_stayingMetas (P : KnvProtocol) (ms : List (PbField × Nat)) :
    taken (P.stayingMetas ms) ≤ taken ms := by
  rw [KnvProtocol.stayingMetas]
  split
  · exact Nat.le_refl _
  · have := taken_filter_tag ms KNV_PKG_HDR_ERR_TAG
    omega

/-- The size of the slices. -/
def KnvProtocol.sliceSize (P : KnvProtocol) : Nat := P.getMaxPkgSize - (P.headerSize + 16)

/-- The encoding `m` of the object `P` was cut into `nr` slices, which `P'` sends. -/
structure CutInto (P : KnvProtocol) (m : List UInt8) (P' : KnvProtocol)
    (ms cs : List (PbField × Nat))
    (d nr : Nat) : Prop where
  sends : Sends P' ms cs d nr (KnvProtocol.sliceOf m P.sliceSize nr)
  long : P.getMaxPkgSize < m.length
  room : P.headerSize + 16 < P.getMaxPkgSize
  two_le : 2 ≤ nr
  count : nr = (m.length + P.sliceSize - 1) / P.sliceSize
  header : taken (ms ++ cs) + d ≤ P.headerSize
  limit : P'.getMaxPkgSize = P.getMaxPkgSize

/-- **The object when its encoding is cut.** -/
theorem Whole.encoded {P₁ : KnvProtocol} {m : List UInt8} (hP : Whole P h ms cs v e)
    (hret : b = none ∨ P.info.retcode = 0) (hs : P.split mem b = .ok (P', some nr))
    (henc : P.clearSplit.encodeFor mem b = .ok (P₁, m)) :
      (∃ h₁ ms₁ e₁, Holder P₁.tree P₁.header h₁ ∧
      KeepsAll h₁ ms₁ (stayingKids cs)
        (taken (ms₁ ++ stayingKids cs) + (v - taken (ms ++ cs))) e₁ ∧
      P₁.stayingMetas ms₁ = P.stayingMetas ms ∧ (P.info.retmsg = none → P₁ = P.clearSplit)) ∧
    P₁.info.retcode = 0 ∧
    P₁.getMaxPkgSize < m.length ∧ P₁.headerSize + 16 < P₁.getMaxPkgSize ∧ 1 < nr ∧
    nr = (m.length + P₁.sliceSize - 1) / P₁.sliceSize ∧ P₁.cut m P₁.sliceSize nr = .ok P' := by
  obtain ⟨P₂, m₂, henc₂, hlong, hroom, hnr, htwo, hcut⟩ := split_inv hs
  rw [henc] at henc₂
  obtain ⟨rfl, rfl⟩ := Prod.mk.inj (Except.ok.inj henc₂)
  obtain ⟨h₀, e₀, hinfo₀, hold₀, hk₀⟩ := hP.clearSplit
  have hret₀ : b = none ∨ P.clearSplit.info.retcode = 0 := by
    rw [hinfo₀]
    exact hret
  obtain ⟨h₁, ms₁, e₁, hold₁, hk₁, hstay, h0, hmax, hsame⟩ :=
    Holder.encodeFor hold₀ hk₀ hret₀ henc (by omega)
  have hmax₁ : P.clearSplit.getMaxPkgSize = P₁.getMaxPkgSize := by
    rw [KnvProtocol.getMaxPkgSize, KnvProtocol.getMaxPkgSize, hmax]
  have hstay₀ : P.clearSplit.stayingMetas ms = P.stayingMetas ms := by
    rw [KnvProtocol.stayingMetas, KnvProtocol.stayingMetas, hinfo₀]
  rw [hmax₁] at hlong hroom hnr hcut
  exact ⟨⟨h₁, ms₁, e₁, hold₁, hk₁, hstay.trans hstay₀, fun hmsg =>
    hsame (by rw [hinfo₀]; exact hmsg)⟩,
    h0, hlong, hroom, htwo, hnr, hcut⟩

/-- **What `Split` leaves if it has cut the encoding.** -/
theorem Whole.split {P₁ : KnvProtocol} {m : List UInt8} (hP : Whole P h ms cs v e)
    (hret : b = none ∨ P.info.retcode = 0) (hs : P.split mem b = .ok (P', some nr))
    (henc : P.clearSplit.encodeFor mem b = .ok (P₁, m)) (hle : nr ≤ 255) :
    CutInto P₁ m P' (P.stayingMetas ms) (stayingKids cs) (v - taken (ms ++ cs)) nr := by
  obtain ⟨⟨h₁, ms₁, e₁, hold₁, hk₁, hstay, -⟩, h0, hlong, hroom, htwo, hnr, hcut⟩ :=
    hP.encoded hret hs henc
  obtain ⟨P₂, hP₂, hsends, hinfo⟩ := hold₁.cut hk₁ h0 hle
  rw [hP₂] at hcut
  obtain rfl := Except.ok.inj hcut
  rw [hstay] at hsends
  refine ⟨hsends, hlong, hroom, htwo, hnr, ?_, ?_⟩
  · have hheader : P₁.getHeader = some h₁ := hold₁.header
    have hle₁ := hk₁.le
    have hhead := length_strHead h₁.tag (taken (ms₁ ++ stayingKids cs) + (v - taken (ms ++ cs)))
    have hmetas := taken_stayingMetas P₁ ms₁
    rw [hstay] at hmetas
    rw [KnvProtocol.headerSize, hheader]
    show _ ≤ (evaluateSize h₁).1.toNat
    rw [hk₁.evaluateSize, taken_append]
    rw [taken_append] at hle₁ hhead
    show _ ≤ e₁
    omega
  · rw [KnvProtocol.getMaxPkgSize, KnvProtocol.getMaxPkgSize, hinfo]

/-- There are few slices if the encoding is short enough. -/
theorem Whole.count_le_iff {P₁ : KnvProtocol} {m : List UInt8} (hP : Whole P h ms cs v e)
    (hret : b = none ∨ P.info.retcode = 0) (hs : P.split mem b = .ok (P', some nr))
    (henc : P.clearSplit.encodeFor mem b = .ok (P₁, m)) (k : Nat) :
    nr ≤ k ↔ m.length ≤ k * P₁.sliceSize := by
  obtain ⟨-, -, hlong, hroom, -, hnr, -⟩ := hP.encoded hret hs henc
  have hpos : 0 < P₁.sliceSize := by
    rw [KnvProtocol.sliceSize]
    omega
  rw [hnr, Nat.div_le_iff_le_mul_add_pred hpos, Nat.mul_comm]
  omega

/-! ## The slices -/

variable {P₁ : KnvProtocol} {m : List UInt8} {d : Nat}

theorem CutInto.sliceSize_pos (h : CutInto P m P' ms cs d nr) : 0 < P.sliceSize := by
  have := h.room
  rw [KnvProtocol.sliceSize]
  omega

/-- All slices but the last are full, -/
theorem CutInto.count_le (h : CutInto P m P' ms cs d nr) : (nr - 1) * P.sliceSize < m.length := by
  have hdiv := Nat.div_mul_le_self (m.length + P.sliceSize - 1) P.sliceSize
  have hpos := h.sliceSize_pos
  have hlong := h.long
  rw [← h.count] at hdiv
  rw [Nat.sub_mul, Nat.one_mul]
  omega

/-- and the last one is not longer. -/
theorem CutInto.le_count (h : CutInto P m P' ms cs d nr) : m.length ≤ nr * P.sliceSize := by
  have hdiv := Nat.div_add_mod (m.length + P.sliceSize - 1) P.sliceSize
  have hmod := Nat.mod_lt (m.length + P.sliceSize - 1) h.sliceSize_pos
  rw [← h.count, Nat.mul_comm] at hdiv
  omega

theorem CutInto.length_slice (h : CutInto P m P' ms cs d nr) {i : Nat} (hi : i < nr) :
    (KnvProtocol.sliceOf m P.sliceSize nr i).length =
      if i = nr - 1 then m.length - (nr - 1) * P.sliceSize else P.sliceSize := by
  have hfull := h.count_le
  rw [KnvProtocol.sliceOf, List.length_take, List.length_drop]
  split
  · rename_i hlast
    rw [hlast]
    omega
  · have hle : (i + 1) * P.sliceSize ≤ (nr - 1) * P.sliceSize :=
      Nat.mul_le_mul_right _ (by omega)
    rw [Nat.add_mul, Nat.one_mul] at hle
    omega

theorem CutInto.length_slice_le (h : CutInto P m P' ms cs d nr) {i : Nat} (hi : i < nr) :
    (KnvProtocol.sliceOf m P.sliceSize nr i).length ≤ P.sliceSize := by
  have hle := h.le_count
  rw [h.length_slice hi]
  split
  · have htwo := h.two_le
    rw [Nat.sub_mul, Nat.one_mul]
    omega
  · exact Nat.le_refl _

end Cut

/-! ## Where such objects come from -/

/-- The key of a message that was read is its first field, if it is short. -/
theorem keyFirst_of_key {n : KnvNode} {s : List UInt8} {sz : Nat} {fs : List (PbField × Nat)}
    (hn : Fresh n s (keyOfValue s).1 sz) (hfs : pbFields s = some (fs, true))
    (hshort : ∀ p ∈ fs.head?, p.1.tag = 1 → p.1.val.str.length < 2 ^ 16) :
    KeyFirst (n.innerExpand false false) ((fs.filter isMeta).map Prod.fst) := by
  obtain ⟨f, rest, hd, hlen, rfl⟩ := pbFields_first hfs
  intro hw
  have hb : pbBegin s = .ok (f, rest) := by
    rw [pbBegin, if_neg (Nat.not_le.mpr hlen)]
    exact hd
  have hkey : (n.innerExpand false false).key =
      if f.tag = 1 then KnvKey.init f.val else KnvKey.none .string := by
    rw [innerExpand_key, hn.key, keyOfValue, hb]
  have hne : (n.innerExpand false false).key.val ≠ [] := by
    rw [writesKey, Bool.and_eq_true] at hw
    exact of_decide_eq_true hw.2
  rw [hkey] at hne ⊢
  by_cases hf : f.tag = 1
  · rw [if_pos hf] at hne ⊢
    have hmeta : isMeta (f, s.length - rest.length) = true := by
      rw [isMeta, hf]
      decide
    refine ⟨f, _, by rw [List.filter_cons_of_pos hmeta, List.map_cons], hf, ?_⟩
    have hstr := hshort (f, s.length - rest.length) rfl hf
    have hok : KeyOk f.val := by
      obtain ⟨ftag, fval⟩ := f
      cases fval with
      | string str =>
        refine ⟨?_, hstr⟩
        rintro rfl
        exact hne rfl
      | varint i => trivial
      | fixed64 i => trivial
      | fixed32 i => trivial
    exact (KeyOk.init hok).2.symm
  · rw [if_neg hf] at hne
    exact absurd rfl hne

theorem keyFirst_received {n : KnvNode} {s : List UInt8} {sz : Nat} {fs : List (PbField × Nat)}
    (hn : Fresh n s (keyOfValue s).1 sz) (hfs : pbFields s = some (fs, true))
    (hshort : s.length < 2 ^ 16) :
    KeyFirst (n.innerExpand false false) ((fs.filter isMeta).map Prod.fst) := by
  refine keyFirst_of_key hn hfs fun p hp _ => ?_
  obtain ⟨-, -, -, hall⟩ := pbFields_taken hfs
  obtain ⟨hsize, hle⟩ := hall p (List.mem_of_mem_head? hp)
  obtain ⟨⟨tag, val⟩, psz⟩ := p
  cases val with
  | string str =>
    have hstr : str.length ≤ (⟨tag, .string str⟩ : PbField).size := str_le_size
    dsimp only at hsize hle
    show str.length < 2 ^ 16
    omega
  | varint i => exact (by decide : 0 < 2 ^ 16)
  | fixed64 i => exact (by decide : 0 < 2 ^ 16)
  | fixed32 i => exact (by decide : 0 < 2 ^ 16)

/-- **An object that was received**, with a header that is a message. -/
theorem whole_received {n : KnvNode} {s : List UInt8} {k : KnvKey} {sz : Nat}
    {fs : List (PbField × Nat)} (hn : Fresh n s k sz) (hfs : pbFields s = some (fs, true))
    (htag : n.tag = KNV_PKG_TAG) {P : KnvProtocol} (hP : initProtocol n = some P) {h : KnvNode}
    (hh : P.getHeader = some h) {hs : List UInt8} {gs : List (PbField × Nat)}
    (hval : h.val = .string hs) (hgs : pbFields hs = some (gs, true)) (hshort : hs.length < 2 ^ 16)
    (htags : ∀ p ∈ gs, p.1.tag.toNat < 2 ^ 29) :
    ∃ e, Whole P h (gs.filter isMeta) (gs.filter (!isMeta ·)) hs.length e := by
  obtain ⟨hg, -⟩ := hn.grown hfs
  obtain ⟨-, -, -, hall⟩ := pbFields_taken hfs
  have hhead := hg.head
  have htree : (n.innerExpand false false).tag = KNV_PKG_TAG :=
    (congrArg (fun x => x.2.1) hhead).trans htag
  rw [initProtocol] at hP
  obtain ⟨header, hfind, rfl⟩ := Option.map_eq_some_iff.mp hP
  rw [findChildByTag_eq (by rw [htree]; decide),
    innerExpand_expanded (innerExpand_num n false false)] at hfind
  obtain ⟨hmem, hht⟩ := hg.indexed.lookupChild_some hfind
  have hheader : header = h := by
    replace hh : findRef (n.innerExpand false false).childlist header.ref = some h := hh
    rw [findRef_of_mem hg.indexed.nodup hmem] at hh
    exact Option.some.inj hh
  subst hheader
  obtain ⟨p, hp, hof⟩ := forall₂_mem hg.childlist hmem
  have hle := (hall p (List.mem_of_mem_filter hp)).1
  obtain ⟨⟨ptag, pval⟩, psz⟩ := p
  have hpval : pval = .string hs := by
    obtain ⟨r, rfl⟩ := hof
    exact hval
  have hpos := (⟨ptag, pval⟩ : PbField).size_pos
  have hfresh : Fresh header hs (keyOfValue hs).1 psz := by
    subst hpval
    obtain ⟨r, rfl⟩ := hof
    have hne : hs ≠ [] := by
      rintro rfl
      cases hgs
    exact
      { tag := by
          rw [hht]
          decide
        val := rfl
        child_num := @initNode_num ptag _ psz _ _ hgs
        ht := rfl
        no_key := rfl
        key := initNode_key hne ptag psz
        eval_sz := initNode_eval_sz (Nat.lt_of_lt_of_le hpos hle) ptag _ false
        eval_val_sz := rfl
        le := hle }
  refine ⟨psz, ⟨⟨htree, ?_, hg.indexed⟩, hh, hht⟩,
    keepsAll_of_fresh hfresh hgs (keyFirst_received hfresh hgs hshort), fun p hp => ?_, fun p hp =>
      ?_⟩
  · have hv : (n.innerExpand false false).val = n.val := congrArg (fun x => x.2.2.1) hhead
    rw [isString, hv, hn.val]
    rfl
  · exact of_decide_eq_true (List.mem_filter.mp hp).2
  · rcases List.mem_append.mp hp with hp | hp
    · exact htags p (List.mem_of_mem_filter hp)
    · exact htags p (List.mem_of_mem_filter hp)

/-- The fields of a packet with one body. -/
def packetFields (hs : List PbField) (w : List UInt8) : List PbField :=
  [⟨KNV_PKG_HDR_TAG, .string (messageBytes hs)⟩, ⟨KNV_PKG_BDY_TAG, .string w⟩]

/-- A packet as it is written. -/
def packetOf (hs : List PbField) (w : List UInt8) : List UInt8 :=
  fieldBytes KNV_PKG_TAG (.string (messageBytes (packetFields hs w)))

theorem decode_fresh {v : List UInt8} {fs : List (PbField × Nat)}
    (hfs : pbFields v = some (fs, true))
    (hsmall : (fieldBytes KNV_PKG_TAG (.string v)).length < 2 ^ 31) : ∃ n k sz,
      n.tag = KNV_PKG_TAG ∧ Fresh n v k sz ∧
      KnvProtocol.decode (fieldBytes KNV_PKG_TAG (.string v)) = initProtocol n := by
  have hdec := decode_pkg hsmall
  have hnew := newFromData_pkg hsmall
  generalize (fieldBytes KNV_PKG_TAG (.string v)).length = len at hdec hnew
  obtain ⟨sz, -, hfresh⟩ := fresh_newFromData hnew (by show KNV_PKG_TAG ≠ 0; decide) rfl hfs
  exact ⟨_, _, sz, rfl, hfresh, hdec⟩

theorem filter_sized (hs : List PbField) : (hs.map sized).filter isMeta =
    (metaFields hs).map sized ∧
    (hs.map sized).filter (!isMeta ·) = (childFields hs).map sized := by
  rw [List.filter_map, List.filter_map]
  exact ⟨rfl, rfl⟩

/-- **The object that is decoded from it.** -/
theorem whole_decode {hs : List PbField} {w : List UInt8} (hne : hs ≠ [])
    (hok : ∀ f ∈ hs, FieldOk f.tag f.val) (hshort : (messageBytes hs).length < 2 ^ 16)
    (hsmall : (packetOf hs w).length < 2 ^ 31) : ∃ P h e, KnvProtocol.decode (packetOf hs w) =
      some P ∧
      Whole P h ((metaFields hs).map sized) ((childFields hs).map sized) (messageBytes hs).length e
        := by
  have hlen : (messageBytes (packetFields hs w)).length < 2 ^ 31 := by
    refine Nat.lt_of_le_of_lt ?_ hsmall
    rw [packetOf, length_fieldBytes]
    exact str_le_size
  have htags : ∀ f ∈ packetFields hs w, UC_MAX_META_NUM < f.tag.toNat ∧ f.tag.toNat < 2 ^ 29 := by
    intro f hf
    rcases List.mem_cons.mp hf with rfl | hf
    · show UC_MAX_META_NUM < KNV_PKG_HDR_TAG.toNat ∧ KNV_PKG_HDR_TAG.toNat < 2 ^ 29
      decide
    · rw [List.mem_singleton.mp hf]
      show UC_MAX_META_NUM < KNV_PKG_BDY_TAG.toNat ∧ KNV_PKG_BDY_TAG.toNat < 2 ^ 29
      decide
  have hfs : pbFields (messageBytes (packetFields hs w)) = some ((packetFields hs w).map sized,
    true) :=
    pbFields_messageBytes (fun f hf => fieldOk_of_mem hlen hf
      (Nat.lt_of_le_of_lt (Nat.zero_le _) (htags f hf).1) (htags f hf).2) hlen
  obtain ⟨n, k, sz, htag, hfresh, hdec⟩ := decode_fresh hfs hsmall
  obtain ⟨hg, -⟩ := hfresh.grown hfs
  have hchild : childFields (packetFields hs w) = packetFields hs w := by
    rw [childFields, List.filter_eq_self]
    intro f hf
    have := (htags f hf).1
    rw [Bool.not_eq_true', decide_eq_false_iff_not]
    omega
  have hold := hg.hold_childlist
  rw [hchild] at hold
  obtain ⟨hd, l, hh, hl, hlist⟩ := List.forall₂_cons_right_iff.mp hold
  obtain ⟨bd, l', hb, hl', hlist'⟩ := List.forall₂_cons_right_iff.mp hl
  cases hl'
  have htree : (n.innerExpand false false).tag = KNV_PKG_TAG :=
    (congrArg (fun x => x.2.1) hg.head).trans htag
  have hht : hd.tag = KNV_PKG_HDR_TAG := hh.tag
  have hfind : (n.innerExpand false false).findChildByTag KNV_PKG_HDR_TAG = some hd := by
    rw [findChildByTag_eq (by rw [htree]; decide),
      innerExpand_expanded (innerExpand_num n false false),
      ← hht]
    apply hg.indexed.lookupChild_unique (by rw [hlist]; exact List.mem_cons_self)
    intro c hc he
    rw [hlist, hlist'] at hc
    rcases List.mem_cons.mp hc with rfl | hc
    · rfl
    · rw [List.mem_singleton.mp hc, hb.tag, hht] at he
      exact absurd he (by show KNV_PKG_BDY_TAG ≠ KNV_PKG_HDR_TAG; decide)
  have hinit := initProtocol_eq rfl hfind
  have hgs : pbFields (messageBytes hs) = some (hs.map sized, true) := by
    cases hs with
    | nil => exact absurd rfl hne
    | cons f hs => exact pbFields_messageBytes hok (by omega)
  obtain ⟨e, hwhole⟩ := whole_received hfresh hfs htag hinit (h := hd)
    (findRef_of_mem hg.indexed.nodup (by rw [hlist]; exact List.mem_cons_self)) hh.val hgs hshort
    (fun p hp => by
      obtain ⟨f, hf, rfl⟩ := List.mem_map.mp hp
      exact (hok f hf).tag_lt)
  rw [(filter_sized hs).1, (filter_sized hs).2] at hwhole
  exact ⟨_, hd, e, hdec.trans hinit, hwhole⟩

/-- Its header can be written anew. -/
theorem tight_sized {hs : List PbField} (h0 : ∀ f ∈ hs, f.tag ≠ 0) (P : KnvProtocol) :
    Tight (P.stayingMetas ((metaFields hs).map sized) ++ stayingKids ((childFields hs).map sized))
      ((messageBytes hs).length - taken ((metaFields hs).map sized ++ (childFields hs).map sized))
        := by
  constructor
  · have hsum := taken_filter (hs.map sized) isMeta
    rw [(filter_sized hs).1, (filter_sized hs).2] at hsum
    rw [← taken_sized hs, ← hsum, taken_append, Nat.sub_self]
  · intro p hp
    have hmem : p ∈ hs.map sized := by
      rcases List.mem_append.mp hp with hp | hp
      · have hp' := mem_stayingMetas hp
        rw [← (filter_sized hs).1] at hp'
        exact List.mem_of_mem_filter hp'
      · have hp' := (mem_stayingKids hp).1
        rw [← (filter_sized hs).2] at hp'
        exact List.mem_of_mem_filter hp'
    obtain ⟨f, hf, rfl⟩ := List.mem_map.mp hmem
    exact ⟨h0 f hf, rfl⟩

end MysqlProxy
