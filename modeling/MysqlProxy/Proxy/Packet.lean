/-
  The packets between client and server (`mysql_proxy_api.cpp`, `mysql_proxy_server.cpp`).

      uint64_t start_token;   '@MyPROXY'
      uint64_t length;        of the whole packet
      pb_message { string appname = 1; uint64 sequence = 2; uint32 errorno = 3; string content = 11; }

  `SendRequest` and `SendResponse` build the same packet from a KNV tree: `packPacket`.  Both
  sides take it apart in the same way: `readPacket` of the message behind the header.
  `packPacket_eq` says what the bytes are, `readPacket_messageBytes` that they are read back,
  whatever bytes the content holds, a nested message with a key included.
-/
import MysqlProxy.Knv.Parse

namespace MysqlProxy

open KnvNode

def CR_OUT_OF_MEMORY : Int := 2008

/-- `PACKET_START_TOKEN`: "@MyPROXY". -/
def packetStartToken : List UInt8 := [64, 77, 121, 80, 82, 79, 88, 89]

def PACKET_HEADER_LENGTH : Nat := 16

/-- A packet's fields. -/
structure ProxyPacket where
  appname : List UInt8
  sequence : UInt64
  errnum : UInt32
  content : List UInt8
  deriving DecidableEq, Repr

/-- The edited tree.  No caller looks at what a setter returns, so a failed one leaves the tree. -/
def orSame (n : KnvNode) (r : Except KnvError KnvNode) : KnvNode :=
  match r with
  | .ok n' => n'
  | .error _ => n

/-- The tree that `SendRequest` and `SendResponse` fill. -/
def packetTree (tree : KnvNode) (p : ProxyPacket) : KnvNode :=
  let tree := orSame tree (tree.setFieldStr 1 p.appname)
  let tree := orSame tree (tree.setFieldInt 2 p.sequence)
  let tree := orSame tree (tree.setFieldInt 3 p.errnum.toUInt64)
  orSame tree (tree.setFieldStr 11 p.content)

/-- The header of a packet with `len` bytes behind it. -/
def packetHeader (len : Nat) : List UInt8 :=
  packetStartToken ++ leBytes 8 (PACKET_HEADER_LENGTH + len)

/-- The bytes that are sent for a packet. -/
def packPacket (p : ProxyPacket) : Except KnvError (List UInt8) := do
  let tree := packetTree (← newTree 1 none) p
  let len := (evaluateSize tree).1
  let msg ← serialize tree len.toNat false
  return packetHeader msg.length ++ msg

/-- The fields of the message behind a packet's header.  The server does not read `errnum`. -/
def readPacket (msg : List UInt8) : Except KnvError ProxyPacket := do
  let tree ← newFromMessage msg 1
  return {
    appname := tree.getFieldStr 1
    sequence := tree.getFieldInt 2
    errnum := (tree.getFieldInt 3).toUInt32
    content := tree.getFieldStr 11 }

/-! ## What is sent -/

/-- The metas of a packet: an empty name is not written. -/
def ProxyPacket.metas (p : ProxyPacket) : List PbField :=
  (if p.appname = [] then [] else [⟨1, .string p.appname⟩]) ++
    [⟨2, .varint p.sequence⟩, ⟨3, .varint p.errnum.toUInt64⟩]

/-- The fields of a packet. -/
def ProxyPacket.fields (p : ProxyPacket) : List PbField := p.metas ++ [⟨11, .string p.content⟩]

/-- The message of a packet. -/
def ProxyPacket.message (p : ProxyPacket) : List UInt8 := messageBytes p.fields

theorem ProxyPacket.metas_tag (p : ProxyPacket) {f : PbField} (hf : f ∈ p.metas) :
    f.tag = 1 ∨ f.tag = 2 ∨ f.tag = 3 := by
  unfold metas at hf
  by_cases h : p.appname = []
  · rw [if_pos h] at hf
    simp at hf
    rcases hf with rfl | rfl <;> simp
  · rw [if_neg h] at hf
    simp at hf
    rcases hf with rfl | rfl | rfl <;> simp

theorem ProxyPacket.fields_tag (p : ProxyPacket) {f : PbField} (hf : f ∈ p.fields) :
    f.tag = 1 ∨ f.tag = 2 ∨ f.tag = 3 ∨ f.tag = 11 := by
  unfold fields at hf
  rw [List.mem_append, List.mem_singleton] at hf
  rcases hf with hf | rfl
  · rcases p.metas_tag hf with h | h | h <;> simp [h]
  · simp

theorem ProxyPacket.message_ne_nil (p : ProxyPacket) : p.message ≠ [] := by
  intro h
  have hmem : (⟨11, .string p.content⟩ : PbField) ∈ p.fields :=
    List.mem_append_right _ (List.mem_singleton.mpr rfl)
  have hle := size_le_of_mem hmem
  have hpos := PbField.size_pos ⟨11, .string p.content⟩
  have hlen : p.message.length = 0 := by rw [h]; rfl
  unfold message at hlen
  omega

theorem orSame_ok {n n' : KnvNode} {r : Except KnvError KnvNode} (h : r = .ok n') :
    orSame n r = n' := by
  rw [h]
  rfl

theorem built_setFieldInt {n : KnvNode} {ms cs : List PbField} (h : Built n ms cs) (tag : UInt32)
    (hnew : ∀ g ∈ ms, g.tag ≠ tag) (hmeta : tag.toNat ≤ UC_MAX_META_NUM) (hkey : tag ≠ 1)
    (val : UInt64) : Built (orSame n (n.setFieldInt tag val)) (ms ++ [⟨tag, .varint val⟩]) cs := by
  obtain ⟨p, hset, -, hb⟩ := built_setMeta (f := ⟨tag, .varint val⟩) h hnew hmeta hkey
  have hsame : orSame n (n.setFieldInt tag val) = p.1 := by
    apply orSame_ok
    unfold setFieldInt setField setMetaOrKey
    rw [if_pos hmeta, decide_eq_false hkey, Bool.and_false, if_neg Bool.false_ne_true, hset]
    rfl
  rw [hsame]
  exact hb

theorem built_setFieldStr {n : KnvNode} {ms : List PbField} (h : Built n ms []) (tag : UInt32)
    (hchild : UC_MAX_META_NUM < tag.toNat) (val : List UInt8) :
    Built (orSame n (n.setFieldStr tag val)) ms [⟨tag, .string val⟩] := by
  have htag : tag ≠ 0 := by
    intro h0
    rw [h0] at hchild
    exact absurd hchild (by decide)
  obtain ⟨p, hset, -, hb⟩ := built_setChild (f := ⟨tag, .string val⟩) h htag
  have hsame : orSame n (n.setFieldStr tag val) = p.1 := by
    apply orSame_ok
    unfold setFieldStr setField
    rw [if_neg (Nat.not_le.mpr hchild), hset]
    rfl
  rw [hsame]
  exact hb

theorem built_setFieldStr_key {n : KnvNode} {cs : List PbField} (h : Built n [] cs)
    {val : List UInt8} (hval : val.length < 2 ^ 16) :
    Built (orSame n (n.setFieldStr 1 val)) (if val = [] then [] else [⟨1, .string val⟩]) cs := by
  obtain ⟨p, hset, -, hb⟩ := built_setKey h hval
  have hsame : orSame n (n.setFieldStr 1 val) = p.1 := by
    apply orSame_ok
    unfold setFieldStr setField setMetaOrKey
    rw [if_pos (by decide), h.no_key, if_pos (by decide), hset]
    rfl
  rw [hsame]
  exact hb

/-- The four setters fill the tree. -/
theorem built_packetTree {p : ProxyPacket} (h : p.appname.length < 2 ^ 16) {tree : KnvNode}
    (hb : Built tree [] []) :
    Built (packetTree tree p) p.metas [⟨11, .string p.content⟩] := by
  generalize hname : (if p.appname = [] then [] else [(⟨1, .string p.appname⟩ : PbField)]) = names
  have htag : ∀ g ∈ names, g.tag = 1 := by
    intro g hg
    rw [← hname] at hg
    split at hg
    · exact absurd hg List.not_mem_nil
    · rw [List.mem_singleton.mp hg]
  have b₁ := built_setFieldStr_key hb h
  rw [hname] at b₁
  have b₂ := built_setFieldInt b₁ 2 (fun g hg => by rw [htag g hg]; decide) (by decide)
    (by decide) p.sequence
  have b₃ := built_setFieldInt b₂ 3
    (fun g hg => by
      rcases List.mem_append.mp hg with hg | hg
      · rw [htag g hg]
        decide
      · rw [List.mem_singleton.mp hg]
        show (2 : UInt32) ≠ 3
        decide)
    (by decide) (by decide) p.errnum.toUInt64
  have b₄ := built_setFieldStr b₃ 11 (by decide) p.content
  rw [List.append_assoc] at b₄
  unfold ProxyPacket.metas
  rw [hname]
  exact b₄

/-- **The bytes of a packet**: the header and the message of its fields. -/
theorem packPacket_eq {p : ProxyPacket} (h : p.appname.length < 2 ^ 16) :
    packPacket p = .ok (packetHeader p.message.length ++ p.message) := by
  have h1 : (1 : UInt32) ≠ 0 := by decide
  obtain ⟨tree, hnew, -, hb⟩ := built_newTree h1
  have hbuilt := built_packetTree h hb
  have hne : p.metas ++ [⟨11, .string p.content⟩] ≠ [] :=
    List.append_ne_nil_of_right_ne_nil _ (List.cons_ne_nil _ _)
  have htag : ∀ f ∈ p.metas ++ [⟨11, .string p.content⟩], f.tag ≠ 0 := by
    intro f hf
    rcases p.fields_tag hf with h | h | h | h <;> rw [h] <;> decide
  -- the evaluated size includes the header of the tree itself, so the buffer is large enough
  have hroom : (messageBytes (p.metas ++ [⟨11, .string p.content⟩])).length ≤
      (evaluateSize (packetTree tree p)).1.toNat := by
    rw [hbuilt.evaluateSize, hbuilt.sz, length_messageBytes]
    unfold pbEvalStringLength
    omega
  have hser := serialize_built hbuilt hne htag hroom
  unfold packPacket
  rw [hnew]
  show (serialize (packetTree tree p) _ false >>= _) = _
  rw [hser]
  rfl

/-! ## What is read -/

theorem ProxyPacket.fields_ok (p : ProxyPacket) (h : p.message.length < 2 ^ 31) :
    ∀ f ∈ p.fields, FieldOk f.tag f.val := by
  intro f hf
  have htag := p.fields_tag hf
  have hle : f.size ≤ p.message.length := size_le_of_mem hf
  constructor
  · rcases htag with h | h | h | h <;> rw [h] <;> decide
  · rcases htag with h | h | h | h <;> rw [h] <;> decide
  · intro str hstr
    have : str.length ≤ f.size := by
      unfold PbField.size
      rw [hstr, pbEvalFieldLength, pbEvalStringLength]
      omega
    omega

/-- The metas of a packet, by tag. -/
theorem ProxyPacket.lastField_metas (p : ProxyPacket) :
    lastField p.metas 1 = (if p.appname = [] then none else some ⟨1, .string p.appname⟩) ∧
      lastField p.metas 2 = some ⟨2, .varint p.sequence⟩ ∧
      lastField p.metas 3 = some ⟨3, .varint p.errnum.toUInt64⟩ := by
  unfold metas
  by_cases h : p.appname = []
  · rw [if_pos h, if_pos h]
    exact ⟨rfl, rfl, rfl⟩
  · rw [if_neg h, if_neg h]
    exact ⟨rfl, rfl, rfl⟩

/-- The string in a meta. -/
theorem getFieldStr_meta {n : KnvNode} {t : UInt32} {o : Option PbField}
    (h : Option.Rel Stands (n.getMeta t) o) (ht : t.toNat ≤ UC_MAX_META_NUM)
    (htag : ∀ f ∈ o, f.tag ≠ 0) : n.getFieldStr t = (o.map (·.val.str)).getD [] := by
  unfold getFieldStr
  rw [if_pos ht]
  cases hg : n.getMeta t with
  | none => rw [hg] at h; cases h; rfl
  | some m =>
    rw [hg] at h
    cases h with
    | some hs => exact getStrVal_stands hs (htag _ rfl)

/-- The number in a meta. -/
theorem getFieldInt_meta {n : KnvNode} {t tag : UInt32} {i64 : UInt64}
    (h : Option.Rel Stands (n.getMeta t) (some ⟨tag, .varint i64⟩))
    (ht : t.toNat ≤ UC_MAX_META_NUM) : n.getFieldInt t = i64 := by
  unfold getFieldInt
  rw [if_pos ht]
  cases hg : n.getMeta t with
  | none => rw [hg] at h; cases h
  | some m =>
    rw [hg] at h
    cases h with
    | some hs =>
      show m.getIntVal = i64
      unfold getIntVal
      rw [hs.val]

/-- **A packet is read back** from its message. -/
theorem readPacket_message {p : ProxyPacket} (h : p.message.length < 2 ^ 31) :
    readPacket p.message = .ok p := by
  have h1 : (1 : UInt32) ≠ 0 := by decide
  obtain ⟨n, hn, hmetas, c, hc, hcs⟩ := read_message (p.fields_ok h) h
    (fun g hg => by rcases p.metas_tag hg with h | h | h <;> rw [h] <;> decide)
    (show 10 < (11 : UInt32).toNat by decide) h1
  obtain ⟨h₁, h₂, h₃⟩ := p.lastField_metas
  have hname : n.getFieldStr 1 = p.appname := by
    rw [getFieldStr_meta (hmetas 1 (by decide)) (by decide)]
    · show ((lastField p.metas 1).map (·.val.str)).getD [] = _
      rw [h₁]
      by_cases hempty : p.appname = []
      · rw [if_pos hempty, hempty]
        rfl
      · rw [if_neg hempty]
        rfl
    · intro f hf
      rcases p.metas_tag (List.mem_reverse.mp (List.mem_of_find?_eq_some hf)) with h | h | h <;>
        rw [h] <;> decide
  have hseq : n.getFieldInt 2 = p.sequence := by
    have hm := hmetas 2 (by decide)
    rw [show UInt32.toNat 2 = 2 from rfl, h₂] at hm
    exact getFieldInt_meta hm (by decide)
  have herr : n.getFieldInt 3 = p.errnum.toUInt64 := by
    have hm := hmetas 3 (by decide)
    rw [show UInt32.toNat 3 = 3 from rfl, h₃] at hm
    exact getFieldInt_meta hm (by decide)
  have hcontent : n.getFieldStr 11 = p.content := by
    unfold getFieldStr
    rw [if_neg (by decide), hc]
    exact getStrVal_stands hcs (show (11 : UInt32) ≠ 0 by decide)
  have hn' : newFromMessage p.message 1 = .ok n := hn
  unfold readPacket
  rw [hn']
  show Except.ok _ = _
  rw [hname, hseq, herr, hcontent]
  simp

end MysqlProxy
