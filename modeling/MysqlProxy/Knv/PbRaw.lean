/-
  Messages as they are received.

  The decoder tolerates more than the encoder writes: a varint may be padded, a tag may be larger than
  the wire format can write back, and a message may end with a zero byte, whatever follows.  This
  module says what is left of a field when it is written again.

  * A field never takes FEWER bytes than it needs (`size_le_taken`), and the fields of a value never
    take more than the value has (`pbFields_taken`).
  * A field that was read is read again when the message goes on (`pbDecodeTag_append`).
  * Whatever is written comes back with tags of 29 bits (`pbFields_messageBytes_tag_lt`).
-/
import MysqlProxy.Knv.Parse

namespace MysqlProxy

/-! ## A field takes at least the bytes it needs -/

theorem length_vintLoop_le_of_lt {n k value : Nat} (h : value < 2 ^ (7 * k)) :
    (vintLoop n value).length ≤ k := by
  induction n generalizing k value with
  | zero => exact Nat.zero_le k
  | succ n ih =>
    rw [vintLoop]
    split
    · exact Nat.zero_le k
    · rename_i h0
      cases k with
      | zero => simp at h; exact absurd h h0
      | succ k =>
        rw [List.length_cons]
        refine Nat.succ_le_succ (ih ?_)
        rw [Nat.mul_succ, Nat.pow_add] at h
        omega

theorem pbEvalVintLength_le_of_lt {k : Nat} {value : UInt64} (hk : 0 < k)
    (h : value.toNat < 2 ^ (7 * k)) : pbEvalVintLength value ≤ k := by
  unfold pbEvalVintLength
  split
  · exact hk
  · exact length_vintLoop_le_of_lt h

theorem length_vintLoop_mono {n a b : Nat} (h : a ≤ b) :
    (vintLoop n a).length ≤ (vintLoop n b).length := by
  induction n generalizing a b with
  | zero => exact Nat.le_refl 0
  | succ n ih =>
    rw [vintLoop, vintLoop]
    by_cases ha : a = 0
    · rw [if_pos ha]
      exact Nat.zero_le _
    · rw [if_neg ha, if_neg (by omega), List.length_cons, List.length_cons]
      exact Nat.succ_le_succ (ih (Nat.div_le_div_right h))

theorem pbEvalVintLength_mono {a b : UInt64} (h : a.toNat ≤ b.toNat) :
    pbEvalVintLength a ≤ pbEvalVintLength b := by
  by_cases ha : a = 0
  · rw [ha, show pbEvalVintLength 0 = 1 from rfl, ← length_vintBytes]
    exact vintBytes_pos b
  · have hb : b ≠ 0 := by
      rintro rfl
      exact ha (UInt64.toNat_inj.mp (Nat.le_zero.mp h))
    unfold pbEvalVintLength
    rw [if_neg ha, if_neg hb]
    exact length_vintLoop_mono h

/-- A varint is below the power of two its bytes can hold. -/
theorem pbDecodeVarintAt_lt {rest rest' : List UInt8} {bitpos result : Nat} {v : UInt64}
    (hr : result < 2 ^ bitpos) (h : pbDecodeVarintAt rest bitpos result = .ok (v, rest')) :
    rest'.length < rest.length ∧ v.toNat < 2 ^ (bitpos + 7 * (rest.length - rest'.length)) := by
  induction rest generalizing bitpos result with
  | nil => cases h
  | cons byte rest ih =>
    rw [pbDecodeVarintAt] at h
    split at h
    · cases h
    · have hor : result ||| ((byte.toNat % 128) <<< bitpos) % 2 ^ 64 < 2 ^ (bitpos + 7) := by
        apply Nat.or_lt_two_pow
        · exact Nat.lt_of_lt_of_le hr (Nat.pow_le_pow_right (by decide) (by omega))
        · refine Nat.lt_of_le_of_lt (Nat.mod_le _ _) ?_
          rw [Nat.shiftLeft_eq, Nat.pow_add, Nat.mul_comm]
          exact Nat.mul_lt_mul_of_pos_left (Nat.mod_lt _ (by decide)) (Nat.two_pow_pos bitpos)
      rw [List.length_cons]
      simp only at h
      split at h
      · obtain ⟨hlt, hv⟩ := ih hor h
        refine ⟨by omega, ?_⟩
        rw [show bitpos + 7 * (rest.length + 1 - rest'.length) =
          bitpos + 7 + 7 * (rest.length - rest'.length) by omega]
        exact hv
      · cases h
        refine ⟨by omega, ?_⟩
        rw [show bitpos + 7 * (rest'.length + 1 - rest'.length) = bitpos + 7 by omega]
        exact Nat.lt_of_le_of_lt (by rw [UInt64.toNat_ofNat']; exact Nat.mod_le _ _) hor

theorem pbDecodeVarint_taken {rest rest' : List UInt8} {v : UInt64}
    (h : pbDecodeVarint rest = .ok (v, rest')) :
    rest'.length + pbEvalVintLength v ≤ rest.length ∧ rest'.length < rest.length := by
  obtain ⟨hlt, hv⟩ := pbDecodeVarintAt_lt (Nat.two_pow_pos 0) h
  rw [Nat.zero_add] at hv
  have := pbEvalVintLength_le_of_lt (Nat.sub_pos_of_lt hlt) hv
  omega

/-- A value takes at least the bytes it needs. -/
theorem pbDecodeVal_taken {type : WireType} {rest rest' : List UInt8} {val : FieldVal}
    (h : pbDecodeVal type rest = some (val, rest')) :
    val.type = type ∧ rest'.length + (valBytes val).length ≤ rest.length := by
  cases type with
  | varint =>
    obtain ⟨⟨v, r⟩, hv, he⟩ := Option.map_eq_some_iff.mp h
    cases he
    cases hd : pbDecodeVarint rest with
    | error e => rw [hd] at hv; cases hv
    | ok p =>
      rw [hd] at hv
      cases hv
      refine ⟨rfl, ?_⟩
      rw [valBytes, length_vintBytes]
      exact (pbDecodeVarint_taken hd).1
  | fixed64 =>
    obtain ⟨⟨v, r⟩, hv, he⟩ := Option.map_eq_some_iff.mp h
    cases he
    unfold pbDecodeFixed at hv
    split at hv
    · cases hv
    · cases hv
      refine ⟨rfl, ?_⟩
      rw [valBytes, length_leBytes, List.length_drop]
      omega
  | string =>
    obtain ⟨⟨v, r⟩, hv, he⟩ := Option.map_eq_some_iff.mp h
    cases he
    unfold pbDecodeString at hv
    cases hd : pbDecodeVarint rest with
    | error e => rw [hd] at hv; cases hv
    | ok p =>
      obtain ⟨i64, r₁⟩ := p
      rw [hd] at hv
      simp only at hv
      split at hv
      · cases hv
      · rename_i hroom
        cases hv
        have htaken := (pbDecodeVarint_taken hd).1
        have hmod : i64.toNat % 2 ^ 32 ≤ i64.toNat := Nat.mod_le _ _
        have hlen : (r₁.take (i64.toNat % 2 ^ 32)).length = i64.toNat % 2 ^ 32 := by
          rw [List.length_take]
          omega
        have hmono : pbEvalVintLength (UInt64.ofNat (i64.toNat % 2 ^ 32)) ≤ pbEvalVintLength i64 := by
          apply pbEvalVintLength_mono
          rw [UInt64.toNat_ofNat']
          exact Nat.le_trans (Nat.mod_le _ _) hmod
        refine ⟨rfl, ?_⟩
        rw [valBytes, List.length_append, length_vintBytes, hlen, List.length_drop]
        omega
  | fixed32 =>
    obtain ⟨⟨v, r⟩, hv, he⟩ := Option.map_eq_some_iff.mp h
    cases he
    unfold pbDecodeFixed at hv
    split at hv
    · cases hv
    · cases hv
      refine ⟨rfl, ?_⟩
      rw [valBytes, length_leBytes, List.length_drop]
      omega

theorem code_of_ofCode {c : Nat} {type : WireType} (h : WireType.ofCode c = some type) :
    type.code = c := by
  unfold WireType.ofCode at h
  split at h <;> first | (cases h; rfl) | cases h

/-- The tag word that is written back is not larger than the one that came. -/
theorem tagWord_le {word : UInt64} {type : WireType}
    (h : WireType.ofCode (word.toNat % 8) = some type) :
    (tagWord type (UInt32.ofNat (word.toNat / 8))).toNat ≤ word.toNat := by
  have hc := code_of_ofCode h
  unfold tagWord
  rw [UInt64.toNat_ofNat', UInt32.toNat_ofNat', hc]
  omega

/-- **A field never takes fewer bytes than it needs.** -/
theorem size_le_taken {rest rest' : List UInt8} {f : PbField}
    (h : pbDecodeTag rest = .ok (f, rest')) : rest'.length + f.size ≤ rest.length := by
  unfold pbDecodeTag at h
  cases hd : pbDecodeVarint rest with
  | error e => rw [hd] at h; cases h
  | ok p =>
    obtain ⟨word, r₁⟩ := p
    rw [hd] at h
    simp only at h
    split at h
    · cases h
    · cases ht : WireType.ofCode (word.toNat % 8) with
      | none => rw [ht] at h; cases h
      | some type =>
        rw [ht] at h
        simp only at h
        cases hv : pbDecodeVal type r₁ with
        | none => rw [hv] at h; cases h
        | some q =>
          obtain ⟨val, r₂⟩ := q
          rw [hv] at h
          cases h
          obtain ⟨htype, hval⟩ := pbDecodeVal_taken hv
          have htag := (pbDecodeVarint_taken hd).1
          have hmono := pbEvalVintLength_mono (tagWord_le ht)
          show rest'.length + pbEvalFieldLength (UInt32.ofNat (word.toNat / 8)) val ≤ _
          rw [← length_fieldBytes, fieldBytes, List.length_append, length_vintBytes, htype]
          omega

theorem str_lt_size (f : PbField) : f.val.str.length < f.size := by
  obtain ⟨tag, val⟩ := f
  cases val with
  | string s =>
    have hpos := vintBytes_pos (UInt64.ofNat s.length)
    rw [length_vintBytes] at hpos
    show s.length < pbEvalTagLength .string tag + pbEvalVintLength _ + s.length
    omega
  | varint i64 => exact PbField.size_pos _
  | fixed64 i64 => exact PbField.size_pos _
  | fixed32 i32 => exact PbField.size_pos _

/-! ## The fields of a value -/

/-- The bytes that the fields of a message take. -/
def taken (fs : List (PbField × Nat)) : Nat := (fs.map Prod.snd).sum

theorem pbNextFields_taken (n : Nat) (rest : List UInt8) :
    taken (pbNextFields n rest).1 ≤ rest.length ∧
      ∀ p ∈ (pbNextFields n rest).1, p.1.size ≤ p.2 ∧ p.2 ≤ rest.length := by
  induction n generalizing rest with
  | zero => exact ⟨Nat.zero_le _, fun p hp => absurd hp List.not_mem_nil⟩
  | succ n ih =>
    rw [pbNextFields]
    cases hd : pbDecodeTag rest with
    | error e => exact ⟨Nat.zero_le _, fun p hp => absurd hp List.not_mem_nil⟩
    | ok q =>
      obtain ⟨f, rest'⟩ := q
      have hsize := size_le_taken hd
      obtain ⟨hsum, hall⟩ := ih rest'
      constructor
      · show (rest.length - rest'.length) + taken (pbNextFields n rest').1 ≤ _
        omega
      · intro p hp
        rcases List.mem_cons.mp hp with rfl | hp
        · show f.size ≤ rest.length - rest'.length ∧ rest.length - rest'.length ≤ _
          omega
        · obtain ⟨h1, h2⟩ := hall p hp
          omega

/-- The first field of a message is the one `pb_begin` has read. -/
theorem pbFields_first {data : List UInt8} {fs : List (PbField × Nat)} {eom : Bool}
    (h : pbFields data = some (fs, eom)) :
    ∃ f rest, pbDecodeTag data = .ok (f, rest) ∧ data.length < 2 ^ 31 ∧
      fs = (f, data.length - rest.length) :: (pbNextFields (rest.length + 1) rest).1 := by
  unfold pbFields pbBegin at h
  split at h
  · cases h
  · rename_i f rest hb
    split at hb
    · cases hb
    · rename_i hlen
      exact ⟨f, rest, hb, Nat.lt_of_not_le hlen, (congrArg Prod.fst (Option.some.inj h)).symm⟩

/-- **The fields of a value take no more bytes than it has**, and each at least those it needs. -/
theorem pbFields_taken {data : List UInt8} {fs : List (PbField × Nat)} {eom : Bool}
    (h : pbFields data = some (fs, eom)) : data.length < 2 ^ 31 ∧ fs ≠ [] ∧
      taken fs ≤ data.length ∧ ∀ p ∈ fs, p.1.size ≤ p.2 ∧ p.2 ≤ data.length := by
  obtain ⟨f, rest, hd, hlen, rfl⟩ := pbFields_first h
  have hsize := size_le_taken hd
  obtain ⟨hsum, hall⟩ := pbNextFields_taken (rest.length + 1) rest
  refine ⟨hlen, List.cons_ne_nil _ _, ?_, ?_⟩
  · show (data.length - rest.length) + taken (pbNextFields (rest.length + 1) rest).1 ≤ _
    omega
  · intro p hp
    rcases List.mem_cons.mp hp with rfl | hp
    · show f.size ≤ data.length - rest.length ∧ data.length - rest.length ≤ _
      omega
    · obtain ⟨h1, h2⟩ := hall p hp
      omega

/-! ## Longer messages -/

theorem pbDecodeVarintAt_append {rest rest' : List UInt8} {bitpos result : Nat} {v : UInt64}
    (h : pbDecodeVarintAt rest bitpos result = .ok (v, rest')) (x : List UInt8) :
    pbDecodeVarintAt (rest ++ x) bitpos result = .ok (v, rest' ++ x) := by
  induction rest generalizing bitpos result with
  | nil => cases h
  | cons byte rest ih =>
    rw [pbDecodeVarintAt] at h
    rw [List.cons_append, pbDecodeVarintAt]
    split at h
    · cases h
    · rename_i hpos
      rw [if_neg hpos]
      simp only at h ⊢
      split at h
      · rename_i htop
        rw [if_pos htop]
        exact ih h
      · rename_i htop
        rw [if_neg htop]
        cases h
        rfl

theorem pbDecodeVarint_append {rest rest' : List UInt8} {v : UInt64}
    (h : pbDecodeVarint rest = .ok (v, rest')) (x : List UInt8) :
    pbDecodeVarint (rest ++ x) = .ok (v, rest' ++ x) := pbDecodeVarintAt_append h x

theorem pbDecodeFixed_append {n v : Nat} {rest rest' : List UInt8}
    (h : pbDecodeFixed n rest = some (v, rest')) (x : List UInt8) :
    pbDecodeFixed n (rest ++ x) = some (v, rest' ++ x) := by
  rw [pbDecodeFixed] at h ⊢
  split at h
  · cases h
  · rename_i hlen
    cases h
    rw [if_neg (by rw [List.length_append]; omega), List.take_append_of_le_length (by omega),
      List.drop_append_of_le_length (by omega)]

theorem pbDecodeString_append {rest rest' s : List UInt8}
    (h : pbDecodeString rest = some (s, rest')) (x : List UInt8) :
    pbDecodeString (rest ++ x) = some (s, rest' ++ x) := by
  rw [pbDecodeString] at h ⊢
  cases hd : pbDecodeVarint rest with
  | error e => rw [hd] at h; cases h
  | ok p =>
    obtain ⟨i64, r⟩ := p
    rw [hd] at h
    rw [pbDecodeVarint_append hd]
    simp only at h ⊢
    split at h
    · cases h
    · rename_i hlen
      have hmod : i64.toNat % 2 ^ 32 ≤ i64.toNat := Nat.mod_le _ _
      cases h
      rw [if_neg (by rw [List.length_append]; omega), List.take_append_of_le_length (by omega),
        List.drop_append_of_le_length (by omega)]

theorem pbDecodeVal_append {type : WireType} {rest rest' : List UInt8} {val : FieldVal}
    (h : pbDecodeVal type rest = some (val, rest')) (x : List UInt8) :
    pbDecodeVal type (rest ++ x) = some (val, rest' ++ x) := by
  cases type with
  | varint =>
    obtain ⟨⟨v, r⟩, hv, he⟩ := Option.map_eq_some_iff.mp h
    cases he
    cases hd : pbDecodeVarint rest with
    | error e => rw [hd] at hv; cases hv
    | ok p =>
      rw [hd] at hv
      cases hv
      rw [pbDecodeVal, pbDecodeVarint_append hd]
      rfl
  | fixed64 =>
    obtain ⟨⟨v, r⟩, hv, he⟩ := Option.map_eq_some_iff.mp h
    cases he
    rw [pbDecodeVal, pbDecodeFixed_append hv]
    rfl
  | string =>
    obtain ⟨⟨v, r⟩, hv, he⟩ := Option.map_eq_some_iff.mp h
    cases he
    rw [pbDecodeVal, pbDecodeString_append hv]
    rfl
  | fixed32 =>
    obtain ⟨⟨v, r⟩, hv, he⟩ := Option.map_eq_some_iff.mp h
    cases he
    rw [pbDecodeVal, pbDecodeFixed_append hv]
    rfl

/-- **A field is read the same when the message goes on.** -/
theorem pbDecodeTag_append {rest rest' : List UInt8} {f : PbField}
    (h : pbDecodeTag rest = .ok (f, rest')) (x : List UInt8) :
    pbDecodeTag (rest ++ x) = .ok (f, rest' ++ x) := by
  rw [pbDecodeTag] at h ⊢
  cases hd : pbDecodeVarint rest with
  | error e => rw [hd] at h; cases h
  | ok p =>
    obtain ⟨word, r⟩ := p
    rw [hd] at h
    rw [pbDecodeVarint_append hd]
    simp only at h ⊢
    split at h
    · cases h
    · rename_i hne
      rw [if_neg hne]
      cases ht : WireType.ofCode (word.toNat % 8) with
      | none => rw [ht] at h; cases h
      | some type =>
        rw [ht] at h
        simp only at h ⊢
        cases hv : pbDecodeVal type r with
        | none => rw [hv] at h; cases h
        | some q =>
          rw [hv] at h
          rw [pbDecodeVal_append hv]
          cases h
          rfl

/-! ## Any tag, written and read -/

/-- A tag comes back with the 29 bits that were written; a word of zero ends the message. -/
theorem pbDecodeTag_fieldBytes_raw {tag : UInt32} {val : FieldVal}
    (h : ∀ str, val = .string str → str.length < 2 ^ 32) (rest : List UInt8) :
    pbDecodeTag (fieldBytes tag val ++ rest) =
      if tagWord val.type tag = 0 then .error true
      else .ok (⟨UInt32.ofNat (tag.toNat % 2 ^ 29), val⟩, rest) := by
  have hc := code_lt val.type
  have hword : (tagWord val.type tag).toNat = val.type.code + tag.toNat % 2 ^ 29 * 8 := by
    rw [tagWord, UInt64.toNat_ofNat']
    omega
  have hmod : (tagWord val.type tag).toNat % 8 = val.type.code := by rw [hword]; omega
  have hdiv : (tagWord val.type tag).toNat / 8 = tag.toNat % 2 ^ 29 := by rw [hword]; omega
  rw [pbDecodeTag, fieldBytes, List.append_assoc, pbDecodeVarint_vintBytes]
  show (if _ then _ else _) = _
  split
  · rfl
  · rw [hmod, ofCode_code]
    simp only [pbDecodeVal_valBytes h, hdiv]

theorem pbNextFields_messageBytes_tag_lt {fs : List PbField}
    (h : ∀ f ∈ fs, ∀ str, f.val = .string str → str.length < 2 ^ 32) (n : Nat) :
    ∀ p ∈ (pbNextFields n (messageBytes fs)).1, p.1.tag.toNat < 2 ^ 29 := by
  induction n generalizing fs with
  | zero => exact fun p hp => absurd hp List.not_mem_nil
  | succ n ih =>
    cases fs with
    | nil => exact fun p hp => absurd hp List.not_mem_nil
    | cons f fs =>
      intro p hp
      rw [pbNextFields, messageBytes_cons, pbDecodeTag_fieldBytes_raw (h f List.mem_cons_self)] at hp
      by_cases h0 : tagWord f.val.type f.tag = 0
      · rw [if_pos h0] at hp
        exact absurd hp List.not_mem_nil
      · rw [if_neg h0] at hp
        rcases List.mem_cons.mp hp with rfl | hp
        · show (UInt32.ofNat (f.tag.toNat % 2 ^ 29)).toNat < 2 ^ 29
          rw [UInt32.toNat_ofNat']
          omega
        · exact ih (fun g hg => h g (List.mem_cons_of_mem f hg)) p hp

/-- **No tag of more than 29 bits is ever read back.** -/
theorem pbFields_messageBytes_tag_lt {fs : List PbField} {gs : List (PbField × Nat)} {eom : Bool}
    (h : ∀ f ∈ fs, ∀ str, f.val = .string str → str.length < 2 ^ 32)
    (hfs : pbFields (messageBytes fs) = some (gs, eom)) : ∀ p ∈ gs, p.1.tag.toNat < 2 ^ 29 := by
  obtain ⟨g, rest, hd, -, rfl⟩ := pbFields_first hfs
  cases fs with
  | nil => cases hd
  | cons f fs =>
    rw [messageBytes_cons, pbDecodeTag_fieldBytes_raw (h f List.mem_cons_self)] at hd
    split at hd
    · cases hd
    · cases hd
      intro p hp
      rcases List.mem_cons.mp hp with rfl | hp
      · show (UInt32.ofNat (f.tag.toNat % 2 ^ 29)).toNat < 2 ^ 29
        rw [UInt32.toNat_ofNat']
        omega
      · exact pbNextFields_messageBytes_tag_lt (fun g hg => h g (List.mem_cons_of_mem f hg)) _ p hp

end MysqlProxy
