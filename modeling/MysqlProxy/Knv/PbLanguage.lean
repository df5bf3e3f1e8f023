/-
  The messages that the decoder reads to their end.

  `pbIterate` is what a caller does: `pb_begin`, and then `pb_next` until it returns `NULL`.  It
  returns what was written (`pb_roundTrip`).

  The language of the wire format is written down on its own, over bytes: `IsVarint`, `IsValue`,
  `IsField`, `IsMessage`.  The decoder accepts these fields and no others (`pbDecodeTag_ok_iff`).

  * At the end of a message `eom` is set, and also where the bytes break off inside a tag word
    (`IsTorn`): all that `pb_decode_tag` looks at is how much is left.
-/
import MysqlProxy.Knv.PbRaw
import MysqlProxy.Knv.Expand
import Mathlib.Data.UInt

namespace MysqlProxy

/-! ## Reading a message -/

/-- The fields that `pb_begin` and then `pb_next` return, and `eom` when they return `NULL`. -/
def pbIterate (data : List UInt8) : List PbField × Bool :=
  match pbBegin data with
  | .error eom => ([], eom)
  | .ok (f, rest) =>
    let (fs, eom) := pbNextFields (rest.length + 1) rest
    (f :: fs.map Prod.fst, eom)

theorem pbIterate_eq {data : List UInt8} (h : data.length < 2 ^ 31) :
    (pbIterate data).2 = match pbDecodeTag data with
      | .error eom => eom
      | .ok (_, rest) => (pbNextFields (rest.length + 1) rest).2 := by
  rw [pbIterate, pbBegin, if_neg (by omega)]
  cases pbDecodeTag data with
  | error eom => rfl
  | ok q => rfl

/-- Fields that are written one after the other. -/
def pbAddFields (b : PbBuff) (fs : List PbField) : Except Int PbBuff :=
  fs.foldlM (fun b f => pbAddFieldVal b f.tag f.val) b

theorem pbAddFields_eq (fs : List PbField) : ∀ b : PbBuff, (messageBytes fs).length ≤ b.left →
    pbAddFields b fs = .ok (b.push (messageBytes fs)) := by
  induction fs with
  | nil =>
    intro b _
    show Except.ok b = _
    rw [PbBuff.push, messageBytes, List.flatMap_nil, List.append_nil, List.length_nil, Nat.sub_zero]
  | cons f fs ih =>
    intro b h
    rw [messageBytes_cons, List.length_append] at h
    rw [pbAddFields, List.foldlM_cons, pbAddFieldVal_eq (by omega)]
    show pbAddFields (b.push (fieldBytes f.tag f.val)) fs = _
    rw [ih, PbBuff.push_push, messageBytes_cons]
    show (messageBytes fs).length ≤ b.left - (fieldBytes f.tag f.val).length
    omega

/-- **What is written is read back**, field by field, up to the end. -/
theorem pb_roundTrip {fs : List PbField} (htag : ∀ f ∈ fs, 0 < f.tag.toNat ∧ f.tag.toNat < 2 ^ 29)
    (hlen : (messageBytes fs).length < 2 ^ 31) {left : Nat} (h : (messageBytes fs).length ≤ left) :
    ∃ b, pbAddFields ⟨[], left⟩ fs = .ok b ∧ b.out = messageBytes fs ∧
      pbIterate b.out = (fs, true) := by
  have hok : ∀ f ∈ fs, FieldOk f.tag f.val := by
    intro f hf
    refine ⟨(htag f hf).1, (htag f hf).2, fun str hs => ?_⟩
    have hsize := size_le_of_mem hf
    have hstr := str_lt_size f
    rw [hs] at hstr
    replace hstr : str.length < f.size := hstr
    omega
  refine ⟨_, pbAddFields_eq fs ⟨[], left⟩ h, List.nil_append _, ?_⟩
  rw [show (PbBuff.push ⟨[], left⟩ (messageBytes fs)).out = messageBytes fs from List.nil_append _]
  cases fs with
  | nil => rfl
  | cons f fs =>
    have hrest : (messageBytes fs).length < (messageBytes (f :: fs)).length := by
      rw [messageBytes_cons, List.length_append, length_fieldBytes]
      exact Nat.lt_add_of_pos_left f.size_pos
    rw [pbIterate, pbBegin, if_neg (by omega), messageBytes_cons,
      pbDecodeTag_fieldBytes (hok f List.mem_cons_self)]
    simp only
    rw [pbNextFields_messageBytes (fun g hg => hok g (List.mem_cons_of_mem f hg)) _
      (Nat.lt_succ_self _)]
    simp only [List.map_map, Prod.mk.injEq, List.cons.injEq, true_and, and_true]
    exact List.map_id _

/-- One field of every wire type, and an empty string. -/
def sampleFields : List PbField :=
  [⟨1, .varint (2 ^ 64 - 1)⟩, ⟨2 ^ 29 - 1, .fixed64 300⟩, ⟨11, .string [104, 105]⟩,
    ⟨12, .string []⟩,
    ⟨13, .fixed32 7⟩]

theorem pb_roundTrip_sample : ∃ b, pbAddFields ⟨[], 64⟩ sampleFields = .ok b ∧
    b.out = messageBytes sampleFields ∧ pbIterate b.out = (sampleFields, true) :=
  pb_roundTrip (by decide) (by decide +kernel) (by decide +kernel)

/-! ## The language -/

/-- A varint of at most `n` bytes: only the last one has its top bit clear. -/
def IsVarint : Nat → List UInt8 → Prop
  | 0, _ => False
  | _ + 1, [] => False
  | n + 1, b :: l => if b.toNat < 128 then l = [] else IsVarint n l

/-- Its number, seven bits a byte; a 64-bit word holds it modulo `2 ^ 64`. -/
def varintNum : List UInt8 → Nat
  | [] => 0
  | b :: l => b.toNat % 128 + 128 * varintNum l

/-- The bytes of a value, behind the tag word. -/
def IsValue : WireType → List UInt8 → Prop
  | .varint, v => IsVarint 10 v
  | .fixed64, v => v.length = 8
  | .fixed32, v => v.length = 4
  | .string, v => ∃ n str, IsVarint 10 n ∧ v = n ++ str ∧ str.length = varintNum n % 2 ^ 64

/-- A complete field: a tag word that is not zero, with a known wire type, and a value of this
    type. -/
def IsField (f : List UInt8) : Prop :=
  ∃ w v type, IsVarint 10 w ∧ f = w ++ v ∧ varintNum w % 2 ^ 64 ≠ 0 ∧
    WireType.ofCode (varintNum w % 2 ^ 64 % 8) = some type ∧ IsValue type v

/-- Nothing, or a zero tag word and anything after it. -/
def IsEnd (tail : List UInt8) : Prop :=
  tail = [] ∨ ∃ w rest, IsVarint 10 w ∧ varintNum w % 2 ^ 64 = 0 ∧ tail = w ++ rest

/-- The bytes break off inside a tag word: all top bits are set, and a varint could go on or has
    just had its ten bytes. -/
def IsBroken (tail : List UInt8) : Prop :=
  tail ≠ [] ∧ tail.length ≤ 10 ∧ ∀ b ∈ tail, 128 ≤ b.toNat

/-- Complete fields, and then something with the property `P`. -/
def FieldsThen (P : List UInt8 → Prop) (data : List UInt8) : Prop :=
  ∃ fs tail, (∀ f ∈ fs, IsField f) ∧ data = List.flatten fs ++ tail ∧ P tail

def IsMessage : List UInt8 → Prop := FieldsThen IsEnd

def IsTorn : List UInt8 → Prop := FieldsThen IsBroken

/-! ### Varints -/

/-- Seven bits go above a result that is below `2 ^ bitpos`; what is beyond the word is lost. -/
theorem or_shift_mod {result bitpos x : Nat} (hb : bitpos ≤ 64) (hr : result < 2 ^ bitpos) :
    result ||| (x <<< bitpos) % 2 ^ 64 = (result + x * 2 ^ bitpos) % 2 ^ 64 := by
  have hpow : 2 ^ 64 = 2 ^ (64 - bitpos) * 2 ^ bitpos := by
    rw [← Nat.pow_add]
    congr 1
    omega
  have hshift : (x <<< bitpos) % 2 ^ 64 = (x % 2 ^ (64 - bitpos)) <<< bitpos := by
    rw [Nat.shiftLeft_eq, Nat.shiftLeft_eq, hpow, Nat.mul_mod_mul_right]
  have hlow : x % 2 ^ (64 - bitpos) < 2 ^ (64 - bitpos) := Nat.mod_lt _ (Nat.two_pow_pos _)
  have hsum : x % 2 ^ (64 - bitpos) * 2 ^ bitpos + result < 2 ^ 64 := by
    have hmul : (x % 2 ^ (64 - bitpos) + 1) * 2 ^ bitpos ≤ 2 ^ (64 - bitpos) * 2 ^ bitpos :=
      Nat.mul_le_mul_right _ hlow
    rw [Nat.succ_mul, ← hpow] at hmul
    omega
  have hmod : (result + x * 2 ^ bitpos) % 2 ^ 64 =
      x % 2 ^ (64 - bitpos) * 2 ^ bitpos + result := by
    conv_lhs => rw [← Nat.div_add_mod x (2 ^ (64 - bitpos))]
    rw [Nat.add_mul, Nat.mul_right_comm, ← hpow, ← Nat.add_assoc, Nat.add_right_comm,
      Nat.add_mul_mod_self_left, Nat.mod_eq_of_lt (by omega), Nat.add_comm]
  rw [hshift, Nat.or_comm, ← Nat.shiftLeft_add_eq_or_of_lt hr, Nat.shiftLeft_eq, hmod]

/-- A varint is read as its number. -/
theorem pbDecodeVarintAt_isVarint {n : Nat} : ∀ {w : List UInt8} {i result : Nat}, IsVarint n w →
    i + n = 10 → result < 2 ^ (7 * i) → result < 2 ^ 64 →
    pbDecodeVarintAt w (7 * i) result =
      .ok (UInt64.ofNat (result + varintNum w * 2 ^ (7 * i)), []) := by
  induction n with
  | zero => exact fun h => absurd h id
  | succ n ih =>
    intro w i result hw hi hr h64
    cases w with
    | nil => exact absurd hw id
    | cons b l =>
      have hor : result ||| ((b.toNat % 128) <<< (7 * i)) % 2 ^ 64 =
          (result + b.toNat % 128 * 2 ^ (7 * i)) % 2 ^ 64 := or_shift_mod (by omega) hr
      rw [pbDecodeVarintAt, if_neg (by omega), hor]
      rw [IsVarint] at hw
      by_cases hb : b.toNat < 128
      · rw [if_pos hb] at hw
        rw [if_neg (by omega), hw, varintNum, varintNum, Nat.mul_zero, Nat.add_zero]
        refine congrArg (fun v => Except.ok (v, [])) ?_
        rw [← UInt64.toNat_inj, UInt64.toNat_ofNat', UInt64.toNat_ofNat', Nat.mod_mod]
      · rw [if_neg hb] at hw
        have hstep : (result + b.toNat % 128 * 2 ^ (7 * i)) % 2 ^ 64 < 2 ^ (7 * (i + 1)) := by
          refine Nat.lt_of_le_of_lt (Nat.mod_le _ _) ?_
          have hm : (b.toNat % 128 + 1) * 2 ^ (7 * i) ≤ 128 * 2 ^ (7 * i) :=
            Nat.mul_le_mul_right _ (by omega)
          rw [Nat.succ_mul] at hm
          rw [Nat.mul_succ, Nat.pow_add, Nat.mul_comm (2 ^ (7 * i))]
          omega
        have hrec := ih hw (i := i + 1) (by omega) hstep (Nat.mod_lt _ (by decide))
        simp only
        rw [if_pos (by omega), show 7 * i + 7 = 7 * (i + 1) by omega, hrec, varintNum]
        refine congrArg (fun v => Except.ok (v, [])) ?_
        rw [← UInt64.toNat_inj, UInt64.toNat_ofNat', UInt64.toNat_ofNat', Nat.mod_add_mod]
        congr 1
        rw [Nat.mul_succ, Nat.pow_add]
        ring

/-- What the loop does without a varint in front of it: it stops behind the bytes that go on. -/
theorem pbDecodeVarintAt_cases {n : Nat} : ∀ {l : List UInt8} {i result : Nat}, i + n = 10 →
    (∃ w rest, IsVarint n w ∧ l = w ++ rest) ∨
      (∀ b ∈ l.take n, 128 ≤ b.toNat) ∧ pbDecodeVarintAt l (7 * i) result = .error (l.drop n) := by
  induction n with
  | zero =>
    intro l i result hi
    refine .inr ⟨fun b hb => by rw [List.take_zero] at hb; exact absurd hb List.not_mem_nil, ?_⟩
    cases l with
    | nil => rfl
    | cons b l => rw [pbDecodeVarintAt, if_pos (by omega), List.drop_zero]
  | succ n ih =>
    intro l i result hi
    cases l with
    | nil => exact .inr ⟨fun b hb => absurd hb List.not_mem_nil, rfl⟩
    | cons b l =>
      by_cases hb : b.toNat < 128
      · refine .inl ⟨[b], l, ?_, rfl⟩
        rw [IsVarint, if_pos hb]
      · rw [pbDecodeVarintAt, if_neg (by omega)]
        simp only
        rw [if_pos (by omega), show 7 * i + 7 = 7 * (i + 1) by omega]
        have hrec := @ih l (i + 1) (result ||| ((b.toNat % 128) <<< (7 * i)) % 2 ^ 64) (by omega)
        rcases hrec with ⟨w, rest, hw, rfl⟩ | ⟨hall, hdec⟩
        · refine .inl ⟨b :: w, rest, ?_, rfl⟩
          rw [IsVarint, if_neg hb]
          exact hw
        · refine .inr ⟨fun x hx => ?_, hdec⟩
          rw [List.take_succ_cons] at hx
          rcases List.mem_cons.mp hx with rfl | hx
          · omega
          · exact hall x hx

theorem pbDecodeVarint_isVarint {w : List UInt8} (h : IsVarint 10 w) (rest : List UInt8) :
    pbDecodeVarint (w ++ rest) = .ok (UInt64.ofNat (varintNum w), rest) := by
  have hw := pbDecodeVarintAt_isVarint (i := 0) h rfl Nat.one_pos (by decide)
  rw [Nat.mul_zero, Nat.zero_add, Nat.pow_zero, Nat.mul_one] at hw
  have happ := pbDecodeVarintAt_append hw rest
  rwa [List.nil_append] at happ

/-- **A varint is read, or all that is there goes on.** -/
theorem pbDecodeVarint_cases (l : List UInt8) :
    (∃ w rest, IsVarint 10 w ∧ l = w ++ rest ∧
      pbDecodeVarint l = .ok (UInt64.ofNat (varintNum w), rest)) ∨
    (∀ b ∈ l.take 10, 128 ≤ b.toNat) ∧ pbDecodeVarint l = .error (l.drop 10) := by
  rcases pbDecodeVarintAt_cases (l := l) (i := 0) (n := 10) rfl with ⟨w, rest, hw, rfl⟩ | h
  · exact .inl ⟨w, rest, hw, rfl, pbDecodeVarint_isVarint hw rest⟩
  · exact .inr h

/-- A varint does not go on for ever. -/
theorem not_isVarint_of_top {n : Nat} : ∀ {w rest : List UInt8}, IsVarint n w →
    ¬ ∀ b ∈ (w ++ rest).take n, 128 ≤ b.toNat := by
  induction n with
  | zero => exact fun h => absurd h id
  | succ n ih =>
    intro w rest hw hall
    cases w with
    | nil => exact hw
    | cons b l =>
      rw [List.cons_append, List.take_succ_cons] at hall
      have hb := hall b List.mem_cons_self
      rw [IsVarint, if_neg (by omega)] at hw
      exact ih hw fun x hx => hall x (List.mem_cons_of_mem _ hx)

theorem varintNum_toNat (w : List UInt8) :
    (UInt64.ofNat (varintNum w)).toNat = varintNum w % 2 ^ 64 :=
  UInt64.toNat_ofNat'

/-! ### Fields -/

/-- A value is read by the decoder of its type, and nothing else is. -/
theorem pbDecodeVal_isValue {type : WireType} {v : List UInt8} (h : IsValue type v)
    (hlen : v.length < 2 ^ 31) (rest : List UInt8) :
    ∃ val, pbDecodeVal type (v ++ rest) = some (val, rest) := by
  cases type with
  | varint =>
    refine ⟨.varint (UInt64.ofNat (varintNum v)), ?_⟩
    rw [pbDecodeVal, pbDecodeVarint_isVarint h]
    rfl
  | fixed64 =>
    refine ⟨.fixed64 (UInt64.ofNat (leNat v)), ?_⟩
    rw [pbDecodeVal, pbDecodeFixed, if_neg (by rw [List.length_append, h]; omega),
      List.take_left' h,
      List.drop_left' h]
    rfl
  | string =>
    obtain ⟨n, str, hn, rfl, hstr⟩ := h
    rw [List.length_append] at hlen
    refine ⟨.string str, ?_⟩
    rw [pbDecodeVal, pbDecodeString, List.append_assoc, pbDecodeVarint_isVarint hn]
    simp only [varintNum_toNat, ← hstr]
    rw [if_neg (by rw [List.length_append]; omega), Nat.mod_eq_of_lt (by omega), List.take_left,
      List.drop_left]
    rfl
  | fixed32 =>
    refine ⟨.fixed32 (UInt32.ofNat (leNat v)), ?_⟩
    rw [pbDecodeVal, pbDecodeFixed, if_neg (by rw [List.length_append, h]; omega),
      List.take_left' h,
      List.drop_left' h]
    rfl

theorem isValue_of_pbDecodeVal {type : WireType} {l rest : List UInt8} {val : FieldVal}
    (hlen : l.length < 2 ^ 31) (h : pbDecodeVal type l = some (val, rest)) :
    ∃ v, IsValue type v ∧ l = v ++ rest := by
  have hfixed : ∀ {n : Nat} {q : Nat × List UInt8}, pbDecodeFixed n l = some q → q.2 = rest →
      (l.take n).length = n ∧ l = l.take n ++ rest := by
    intro n q hq hrest
    rw [pbDecodeFixed] at hq
    split at hq
    · cases hq
    · cases hq
      rw [← hrest, List.length_take, List.take_append_drop]
      exact ⟨by omega, rfl⟩
  cases type with
  | varint =>
    rcases pbDecodeVarint_cases l with ⟨w, r, hw, hl, hdec⟩ | ⟨_, hdec⟩
    · rw [pbDecodeVal, hdec] at h
      cases h
      exact ⟨w, hw, hl⟩
    · rw [pbDecodeVal, hdec] at h
      cases h
  | fixed64 =>
    obtain ⟨q, hq, he⟩ := Option.map_eq_some_iff.mp h
    exact ⟨l.take 8, hfixed hq (congrArg Prod.snd he)⟩
  | string =>
    obtain ⟨q, hq, he⟩ := Option.map_eq_some_iff.mp h
    rw [pbDecodeString] at hq
    rcases pbDecodeVarint_cases l with ⟨w, r, hw, hl, hdec⟩ | ⟨_, hdec⟩
    · rw [hdec] at hq
      simp only at hq
      split at hq
      · cases hq
      · rename_i hle
        rw [varintNum_toNat] at hq hle
        have hr : r.length ≤ l.length := by
          rw [hl, List.length_append]
          omega
        rw [Nat.mod_eq_of_lt (a := varintNum w % 2 ^ 64) (by omega)] at hq
        cases hq
        have hrest : r.drop (varintNum w % 2 ^ 64) = rest := congrArg Prod.snd he
        refine ⟨w ++ r.take (varintNum w % 2 ^ 64), ⟨w, _, hw, rfl, ?_⟩, ?_⟩
        · rw [List.length_take]
          omega
        · rw [List.append_assoc, ← hrest, List.take_append_drop]
          exact hl
    · rw [hdec] at hq
      cases hq
  | fixed32 =>
    obtain ⟨q, hq, he⟩ := Option.map_eq_some_iff.mp h
    exact ⟨l.take 4, hfixed hq (congrArg Prod.snd he)⟩

/-- A field is read, whatever follows it. -/
theorem pbDecodeTag_isField {f : List UInt8} (h : IsField f) {rest : List UInt8}
    (hlen : (f ++ rest).length < 2 ^ 31) : ∃ g, pbDecodeTag (f ++ rest) = .ok (g, rest) := by
  obtain ⟨w, v, type, hw, rfl, hne, htype, hv⟩ := h
  have hvlen : v.length < 2 ^ 31 := by
    rw [List.length_append, List.length_append] at hlen
    omega
  obtain ⟨val, hval⟩ := pbDecodeVal_isValue hv hvlen rest
  rw [← varintNum_toNat] at hne htype
  have h0 : UInt64.ofNat (varintNum w) ≠ 0 := fun he => hne (by rw [he]; rfl)
  refine ⟨⟨UInt32.ofNat ((UInt64.ofNat (varintNum w)).toNat / 8), val⟩, ?_⟩
  rw [pbDecodeTag, List.append_assoc, pbDecodeVarint_isVarint hw]
  simp only
  rw [if_neg h0, htype]
  simp only [hval]

/-- **What `pb_decode_tag` finds**: a field, or no field, and then `eom` says whether it is the end
    or the bytes are broken off. -/
theorem pbDecodeTag_cases {l : List UInt8} (hlen : l.length < 2 ^ 31) :
    (∃ f g rest, IsField f ∧ l = f ++ rest ∧ pbDecodeTag l = .ok (g, rest)) ∨
    ∃ eom, pbDecodeTag l = .error eom ∧ (eom = true ↔ IsEnd l ∨ IsBroken l) := by
  rcases pbDecodeVarint_cases l with ⟨w, r, hw, hl, hdec⟩ | ⟨htop, hdec⟩
  · have hbroken : ¬ IsBroken l := by
      rintro ⟨_, _, hall⟩
      refine @not_isVarint_of_top 10 w r hw fun b hb => hall b ?_
      rw [hl]
      exact List.mem_of_mem_take hb
    have hne : l ≠ [] := by
      rintro rfl
      obtain ⟨rfl, _⟩ := List.append_eq_nil_iff.mp hl.symm
      exact hw
    -- an end with another varint would be read as this one
    have hend : IsEnd l ↔ varintNum w % 2 ^ 64 = 0 := by
      constructor
      · rintro (hnil | ⟨w', r', hw', h0, hl'⟩)
        · exact absurd hnil hne
        · have hdec' := pbDecodeVarint_isVarint hw' r'
          rw [← hl', hdec] at hdec'
          injection hdec' with hdec'
          injection hdec' with hnum _
          rw [← varintNum_toNat, hnum, varintNum_toNat]
          exact h0
      · exact fun h0 => .inr ⟨w, r, hw, h0, hl⟩
    rw [pbDecodeTag, hdec]
    simp only
    by_cases h0 : varintNum w % 2 ^ 64 = 0
    · refine .inr ⟨true, if_pos ?_, iff_of_true rfl (.inl (hend.mpr h0))⟩
      rw [← UInt64.toNat_inj, varintNum_toNat, h0]
      rfl
    · have hne0 : UInt64.ofNat (varintNum w) ≠ 0 := by
        intro he
        rw [← varintNum_toNat, he] at h0
        exact h0 rfl
      have hno : ¬ (IsEnd l ∨ IsBroken l) := not_or.mpr ⟨fun he => h0 (hend.mp he), hbroken⟩
      rw [if_neg hne0, varintNum_toNat]
      cases htype : WireType.ofCode (varintNum w % 2 ^ 64 % 8) with
      | none => exact .inr ⟨false, rfl, iff_of_false Bool.false_ne_true hno⟩
      | some type =>
        have hrlen : r.length < 2 ^ 31 := by
          rw [hl, List.length_append] at hlen
          omega
        simp only
        cases hval : pbDecodeVal type r with
        | none => exact .inr ⟨false, rfl, iff_of_false Bool.false_ne_true hno⟩
        | some q =>
          obtain ⟨val, rest⟩ := q
          obtain ⟨v, hv, hr⟩ := isValue_of_pbDecodeVal hrlen hval
          refine .inl ⟨w ++ v, _, rest, ⟨w, v, type, hw, rfl, h0, htype, hv⟩, ?_, rfl⟩
          rw [hl, hr, List.append_assoc]
  · -- no varint: the end is reported when nothing is left
    rw [pbDecodeTag, hdec]
    refine .inr ⟨_, rfl, ?_⟩
    have hnot : ∀ w r, IsVarint 10 w → l ≠ w ++ r := by
      rintro w r hw rfl
      exact not_isVarint_of_top hw htop
    rw [List.isEmpty_iff, List.drop_eq_nil_iff]
    constructor
    · intro h10
      rw [List.take_of_length_le h10] at htop
      by_cases hnil : l = []
      · exact .inl (.inl hnil)
      · exact .inr ⟨hnil, h10, htop⟩
    · rintro ((rfl | ⟨w, r, hw, _, he⟩) | ⟨_, h10, _⟩)
      · exact Nat.zero_le 10
      · exact absurd he (hnot w r hw)
      · exact h10

/-! ## The end of a message -/

/-- Behind a field the message goes on. -/
theorem fieldsThen_field {P : List UInt8 → Prop} (hP : ∀ {f rest : List UInt8}, IsField f →
    (f ++ rest).length < 2 ^ 31 → ¬ P (f ++ rest)) {f rest : List UInt8} (hf : IsField f)
    (hlen : (f ++ rest).length < 2 ^ 31) : FieldsThen P (f ++ rest) ↔ FieldsThen P rest := by
  constructor
  · rintro ⟨fs, tail, hfs, he, ht⟩
    cases fs with
    | nil =>
      rw [List.flatten_nil, List.nil_append] at he
      rw [← he] at ht
      exact absurd ht (hP hf hlen)
    | cons f' fs =>
      rw [List.flatten_cons, List.append_assoc] at he
      obtain ⟨g, hg⟩ := pbDecodeTag_isField hf hlen
      obtain ⟨g', hg'⟩ := pbDecodeTag_isField (hfs f' List.mem_cons_self) (by rw [← he]; exact hlen)
      rw [← he, hg] at hg'
      injection hg' with hg'
      injection hg' with _ hrest
      exact ⟨fs, tail, fun x hx => hfs x (List.mem_cons_of_mem _ hx), hrest, ht⟩
  · rintro ⟨fs, tail, hfs, rfl, ht⟩
    refine ⟨f :: fs, tail, ?_, ?_, ht⟩
    · rintro x hx
      rcases List.mem_cons.mp hx with rfl | hx
      · exact hf
      · exact hfs x hx
    · rw [List.flatten_cons, List.append_assoc]

/-- Where there is no field, the message is over. -/
theorem fieldsThen_none {P : List UInt8 → Prop} {l : List UInt8} (hlen : l.length < 2 ^ 31)
    {eom : Bool} (h : pbDecodeTag l = .error eom) : FieldsThen P l ↔ P l := by
  constructor
  · rintro ⟨fs, tail, hfs, he, ht⟩
    cases fs with
    | nil =>
      rw [List.flatten_nil, List.nil_append] at he
      rw [he]
      exact ht
    | cons f fs =>
      rw [List.flatten_cons, List.append_assoc] at he
      obtain ⟨g, hg⟩ := pbDecodeTag_isField (hfs f List.mem_cons_self) (by rw [← he]; exact hlen)
      rw [← he, h] at hg
      cases hg
  · exact fun ht => ⟨[], l, fun _ hf => absurd hf List.not_mem_nil, rfl, ht⟩

/-- A field is neither an end nor broken off. -/
theorem not_isEnd_field {f rest : List UInt8} (hf : IsField f)
    (hlen : (f ++ rest).length < 2 ^ 31) :
    ¬ (IsEnd (f ++ rest) ∨ IsBroken (f ++ rest)) := by
  obtain ⟨g, hg⟩ := pbDecodeTag_isField hf hlen
  intro h
  obtain ⟨w, v, type, hw, rfl, hne, _, _⟩ := hf
  rw [List.append_assoc] at h
  rcases h with (hnil | ⟨w', r', hw', h0, he⟩) | ⟨_, _, hall⟩
  · obtain ⟨rfl, _⟩ := List.append_eq_nil_iff.mp hnil
    exact hw
  · have hdec := pbDecodeVarint_isVarint hw (v ++ rest)
    rw [he, pbDecodeVarint_isVarint hw' r'] at hdec
    injection hdec with hdec
    injection hdec with hnum _
    rw [← varintNum_toNat, ← hnum, varintNum_toNat] at hne
    exact hne h0
  · exact @not_isVarint_of_top 10 w (v ++ rest) hw fun b hb => hall b (List.mem_of_mem_take hb)

theorem not_isEnd_isBroken {l : List UInt8} : ¬ (IsEnd l ∧ IsBroken l) := by
  rintro ⟨hnil | ⟨w, r, hw, _, rfl⟩, hne, _, hall⟩
  · exact hne hnil
  · exact @not_isVarint_of_top 10 w r hw fun b hb => hall b (List.mem_of_mem_take hb)

/-- One round: a field, with the rest to come, or the end. -/
theorem eom_round {l : List UInt8} (hlen : l.length < 2 ^ 31) {next : List UInt8 → Bool}
    (hnext : ∀ rest, rest.length < l.length →
      (next rest = true ↔ IsMessage rest ∨ IsTorn rest) ∧ ¬ (IsMessage rest ∧ IsTorn rest)) :
    ((match pbDecodeTag l with
      | .error eom => eom
      | .ok (_, rest) => next rest) = true ↔ IsMessage l ∨ IsTorn l) ∧
      ¬ (IsMessage l ∧ IsTorn l) := by
  rcases pbDecodeTag_cases hlen with ⟨f, g, rest, hf, rfl, hdec⟩ | ⟨eom, hdec, heom⟩
  · rw [hdec, IsMessage, IsTorn,
      fieldsThen_field (fun hf hlen he => not_isEnd_field hf hlen (.inl he)) hf hlen,
      fieldsThen_field (fun hf hlen he => not_isEnd_field hf hlen (.inr he)) hf hlen]
    refine hnext rest ?_
    have hsize := size_le_taken hdec
    have hpos := g.size_pos
    omega
  · rw [hdec, IsMessage, IsTorn, fieldsThen_none hlen hdec, fieldsThen_none hlen hdec]
    exact ⟨heom, not_isEnd_isBroken⟩

/-- The rounds of `pb_next`, by induction on what is left. -/
theorem pbNextFields_eom (n : Nat) : ∀ {l : List UInt8}, l.length < n → l.length < 2 ^ 31 →
    ((pbNextFields n l).2 = true ↔ IsMessage l ∨ IsTorn l) ∧ ¬ (IsMessage l ∧ IsTorn l) := by
  induction n with
  | zero => exact fun h => absurd h (Nat.not_lt_zero _)
  | succ n ih =>
    intro l hn hlen
    have hround := @eom_round l hlen (fun rest => (pbNextFields n rest).2)
      fun rest hlt => ih (by omega) (by omega)
    rw [pbNextFields]
    cases hdec : pbDecodeTag l with
    | error eom =>
      rw [hdec] at hround
      exact hround
    | ok q =>
      rw [hdec] at hround
      exact hround

/-- `eom` is set for the well-formed messages, and a value for which it is not set is a leaf. -/
def EomRight (data : List UInt8) : Prop :=
  ((pbIterate data).2 = true ↔ IsMessage data) ∧
  ((pbIterate data).2 = false → ∀ (n : KnvNode) (p k : Bool), n.child_num = none →
    n.val = .string data → (n.innerExpand p k).child_num = some 0 ∧
      (n.innerExpand p k).metalist = [] ∧ (n.innerExpand p k).childlist = [])

/-- The fields of a node are those of its value. -/
theorem pbFields_eom {data : List UInt8} {fs : List (PbField × Nat)} {eom : Bool}
    (h : pbFields data = some (fs, eom)) : (pbIterate data).2 = eom := by
  rw [pbFields] at h
  rw [pbIterate]
  cases hb : pbBegin data with
  | error e =>
    rw [hb] at h
    cases h
  | ok q =>
    rw [hb] at h
    cases h
    rfl

/-- **The end is reported for exactly the well-formed messages** unless the bytes break off inside a
    tag word. -/
theorem eomRight_iff {data : List UInt8} (hlen : data.length < 2 ^ 31) :
    EomRight data ↔ ¬ IsTorn data := by
  have hround := @eom_round data hlen (fun rest => (pbNextFields (rest.length + 1) rest).2)
    fun rest hlt => pbNextFields_eom _ (Nat.lt_succ_self _) (by omega)
  have hiter : (pbIterate data).2 = true ↔ IsMessage data ∨ IsTorn data := by
    rw [pbIterate_eq hlen]
    exact hround.1
  have hleaf : (pbIterate data).2 = false → ∀ (n : KnvNode) (p k : Bool), n.child_num = none →
      n.val = .string data → (n.innerExpand p k).child_num = some 0 ∧
        (n.innerExpand p k).metalist = [] ∧ (n.innerExpand p k).childlist = [] := by
    intro heom n p k hnum hval
    refine KnvNode.innerExpand_malformed hnum hval (fun fs hfs => ?_) p k
    rw [pbFields_eom hfs] at heom
    cases heom
  rw [EomRight, hiter]
  constructor
  · rintro ⟨h, _⟩ ht
    exact hround.2 ⟨h.mp (.inr ht), ht⟩
  · exact fun ht => ⟨or_iff_left ht, hleaf⟩

theorem isMessage_int : IsMessage [8, 1] := by
  refine ⟨[[8, 1]], [], ?_, rfl, .inl rfl⟩
  intro f hf
  rw [List.mem_singleton.mp hf]
  refine ⟨[8], [1], .varint, ?_, rfl, by decide, rfl, ?_⟩
  · exact Eq.refl []
  · exact Eq.refl []

/-- A message cannot be both. -/
theorem not_isTorn_of_isMessage {data : List UInt8} (hlen : data.length < 2 ^ 31)
    (h : IsMessage data) : ¬ IsTorn data :=
  fun ht => (pbNextFields_eom _ (Nat.lt_succ_self _) hlen).2 ⟨h, ht⟩

theorem eomRight_int : EomRight [8, 1] ∧ (pbIterate [8, 1]).2 = true := by
  have hright := (@eomRight_iff [8, 1] (by decide)).mpr
    (not_isTorn_of_isMessage (by decide) isMessage_int)
  exact ⟨hright, hright.1.mpr isMessage_int⟩

/-- One byte of a tag word that goes on. -/
theorem eom_torn : (pbIterate [128]).2 = true ∧ ¬ IsMessage [128] ∧ ¬ EomRight [128] := by
  have heom : (pbIterate [128]).2 = true := by decide
  have htorn : IsTorn [128] := by
    refine ⟨[], [128], fun _ hf => absurd hf List.not_mem_nil, rfl, List.cons_ne_nil _ _, by decide,
      ?_⟩
    intro b hb
    rw [List.mem_singleton.mp hb]
    decide
  have hno : ¬ IsMessage [128] := fun h => not_isTorn_of_isMessage (by decide) h htorn
  exact ⟨heom, hno, fun h => hno (h.1.mp heom)⟩

end MysqlProxy
