/-
  The wire format of KNV messages (`knv/pb.h`, `knv/pb.c`).

  A message is a sequence of fields.  A field is a tag word, which holds the field's number and its
  wire type, followed by a value; tag words, string lengths and `VARINT` values are base-128
  varints.

  * Writing: `pbAddFieldVal` appends one field to a `PbBuff`, which knows how much room it has left.
    What it appends is `fieldBytes`, and `pbEvalFieldLength` is the length of that
    (`pbAddFieldVal_eq`, `length_fieldBytes`).
  * Reading: `pbDecodeTag` reads one field at the cursor.  It fails with the value of `f->eom`, the
    only thing a caller looks at after a failure.  It gives back what was written
    (`pbDecodeTag_fieldBytes`).
  * `pbFields` is the loop over `pb_begin` and `pb_next`.

  Modelling choices.
  * The union `pb_field_val_t` and its wire type are one `FieldVal`: no modelled function reads a
    member of the union that does not belong to the type.
  * A cursor is the list of unread bytes.  `f->left` is an `int`, so `pbBegin` refuses messages of
    `2 ^ 31` bytes and more.
-/
import MysqlProxy.Lib.Mem
import Mathlib.Data.Nat.Bitwise

namespace MysqlProxy

/-- Wire types. -/
inductive WireType where
  | varint
  | fixed64
  | string
  | fixed32
  deriving DecidableEq, Repr

/-- The number of a wire type, as in `pb_wire_type_t`. -/
def WireType.code : WireType → Nat
  | .varint => 0
  | .fixed64 => 1
  | .string => 2
  | .fixed32 => 5

/-- The wire type of a tag word's low three bits. -/
def WireType.ofCode : Nat → Option WireType
  | 0 => some .varint
  | 1 => some .fixed64
  | 2 => some .string
  | 5 => some .fixed32
  | _ => none

/-- A value with its wire type. -/
inductive FieldVal where
  | varint (i64 : UInt64)
  | fixed64 (i64 : UInt64)
  | string (str : List UInt8)
  | fixed32 (i32 : UInt32)
  deriving DecidableEq, Repr

namespace FieldVal

def type : FieldVal → WireType
  | .varint _ => .varint
  | .fixed64 _ => .fixed64
  | .string _ => .string
  | .fixed32 _ => .fixed32

/-- `val.str`, for a string. -/
def str : FieldVal → List UInt8
  | .string s => s
  | _ => []

/-- The value a union full of zero bytes holds. -/
def zero : WireType → FieldVal
  | .varint => .varint 0
  | .fixed64 => .fixed64 0
  | .string => .string []
  | .fixed32 => .fixed32 0

end FieldVal

/-- A field as the decoder returns it. -/
structure PbField where
  tag : UInt32
  val : FieldVal
  deriving DecidableEq, Repr

/-! ## Varints -/

/-- The loop of `pb_add_vint`: seven bits a round, all with the top bit set.  A 64-bit value needs
    at most ten rounds, which is the size of `buffer`. -/
def vintLoop : Nat → Nat → List UInt8
  | 0, _ => []
  | n + 1, value =>
    if value = 0 then [] else UInt8.ofNat (value % 128 + 128) :: vintLoop n (value / 128)

/-- `buffer[i-1] &= 0x7F`. -/
def unsetTop : List UInt8 → List UInt8
  | [] => []
  | [b] => [UInt8.ofNat (b.toNat % 128)]
  | b :: l => b :: unsetTop l

/-- The bytes `pb_add_vint` adds. -/
def vintBytes (value : UInt64) : List UInt8 :=
  if value = 0 then [0] else unsetTop (vintLoop 10 value.toNat)

/-- `pb_eval_vint_length`. -/
def pbEvalVintLength (value : UInt64) : Nat :=
  if value = 0 then 1 else (vintLoop 10 value.toNat).length

/-- `pb_decode_varint` from bit position `bitpos` on.  A failure returns the cursor. -/
def pbDecodeVarintAt : List UInt8 → Nat → Nat → Except (List UInt8) (UInt64 × List UInt8)
  | [], _, _ => .error []
  | byte :: rest, bitpos, result =>
    if 64 ≤ bitpos then .error (byte :: rest)
    else
      let result := result ||| ((byte.toNat % 128) <<< bitpos) % 2 ^ 64
      if 128 ≤ byte.toNat then pbDecodeVarintAt rest (bitpos + 7) result
      else .ok (UInt64.ofNat result, rest)

def pbDecodeVarint (rest : List UInt8) : Except (List UInt8) (UInt64 × List UInt8) :=
  pbDecodeVarintAt rest 0 0

/-! ## Writing -/

/-- What has been written to a buffer, and the room that is left in it. -/
structure PbBuff where
  out : List UInt8
  left : Nat
  deriving DecidableEq, Repr

def pbAdd (b : PbBuff) (buf : List UInt8) : Except Int PbBuff :=
  if b.left < buf.length then .error (-1) else .ok ⟨b.out ++ buf, b.left - buf.length⟩

def pbAddVint (b : PbBuff) (value : UInt64) : Except Int PbBuff := pbAdd b (vintBytes value)

/-- `wiretype | (field_number << 3)`, shifted in 32 bits: the low three bits are free, so that `|` is
    `+`. -/
def tagWord (wiretype : WireType) (field_number : UInt32) : UInt64 :=
  UInt64.ofNat (wiretype.code + field_number.toNat * 8 % 2 ^ 32)

def pbAddTag (b : PbBuff) (wiretype : WireType) (field_number : UInt32) : Except Int PbBuff :=
  pbAddVint b (tagWord wiretype field_number)

def pbAddDword (b : PbBuff) (val : UInt32) : Except Int PbBuff := pbAdd b (leBytes 4 val.toNat)

def pbAddDdword (b : PbBuff) (val : UInt64) : Except Int PbBuff := pbAdd b (leBytes 8 val.toNat)

/-- `call`, with every failure reported as `code`. -/
def orFail (call : Except Int PbBuff) (code : Int) : Except Int PbBuff :=
  call.mapError fun _ => code

def pbAddFieldVal (b : PbBuff) (tag : UInt32) (val : FieldVal) : Except Int PbBuff := do
  let b ← orFail (pbAddTag b val.type tag) (-1)
  match val with
  | .varint i64 => pbAddVint b i64
  | .fixed64 i64 => pbAddDdword b i64
  | .string str =>
    let b ← orFail (pbAddVint b (UInt64.ofNat str.length)) (-2)
    pbAdd b str
  | .fixed32 i32 => pbAddDword b i32

/-- `pb_add_string_head`: only tag, type and length. -/
def pbAddStringHead (b : PbBuff) (tag : UInt32) (size : Nat) : Except Int PbBuff := do
  let b ← orFail (pbAddTag b .string tag) (-1)
  pbAddVint b (UInt64.ofNat size)

def pbEvalTagLength (wiretype : WireType) (field_number : UInt32) : Nat :=
  pbEvalVintLength (tagWord wiretype field_number)

/-- The length of a `STRING` field with `len` bytes of value. -/
def pbEvalStringLength (tag : UInt32) (len : Nat) : Nat :=
  pbEvalTagLength .string tag + pbEvalVintLength (UInt64.ofNat len) + len

def pbEvalFieldLength (tag : UInt32) : FieldVal → Nat
  | .varint i64 => pbEvalTagLength .varint tag + pbEvalVintLength i64
  | .fixed64 _ => pbEvalTagLength .fixed64 tag + 8
  | .fixed32 _ => pbEvalTagLength .fixed32 tag + 4
  | .string str => pbEvalStringLength tag str.length

/-! ## Reading -/

/-- `pb_decode_fixed32` and `pb_decode_fixed64`: an `n`-byte word. -/
def pbDecodeFixed (n : Nat) (rest : List UInt8) : Option (Nat × List UInt8) :=
  if rest.length < n then none else some (leNat (rest.take n), rest.drop n)

def pbDecodeString (rest : List UInt8) : Option (List UInt8 × List UInt8) :=
  match pbDecodeVarint rest with
  | .error _ => none
  | .ok (i64, rest) =>
    if rest.length < i64.toNat then none
    else
      -- `sz` and `str.len` are 32 bits wide
      let sz := i64.toNat % 2 ^ 32
      some (rest.take sz, rest.drop sz)

/-- The value that follows a tag word. -/
def pbDecodeVal (type : WireType) (rest : List UInt8) : Option (FieldVal × List UInt8) :=
  match type with
  | .varint => (pbDecodeVarint rest).toOption.map fun p => (.varint p.1, p.2)
  | .fixed64 => (pbDecodeFixed 8 rest).map fun p => (.fixed64 (UInt64.ofNat p.1), p.2)
  | .string => (pbDecodeString rest).map fun p => (.string p.1, p.2)
  | .fixed32 => (pbDecodeFixed 4 rest).map fun p => (.fixed32 (UInt32.ofNat p.1), p.2)

/-- `pb_decode_tag`: the next field and the cursor behind it, or the value of `f->eom`. -/
def pbDecodeTag (rest : List UInt8) : Except Bool (PbField × List UInt8) :=
  match pbDecodeVarint rest with
  | .error left => .error left.isEmpty
  | .ok (i64, rest) =>
    -- 0-terminated messages are allowed
    if i64 = 0 then .error true
    else
      match WireType.ofCode (i64.toNat % 8) with
      | none => .error false
      | some type =>
        match pbDecodeVal type rest with
        | none => .error false
        | some (val, rest) => .ok (⟨UInt32.ofNat (i64.toNat / 8), val⟩, rest)

def pbBegin (data : List UInt8) : Except Bool (PbField × List UInt8) :=
  -- a length of `2 ^ 31` and more is a negative `int`
  if 2 ^ 31 ≤ data.length then .error false else pbDecodeTag data

/-- The fields `pb_next` returns from the cursor on, each with the bytes it takes, and the `eom`
    flag at the end.  A field takes a byte at least, so `rest.length` rounds are enough. -/
def pbNextFields : Nat → List UInt8 → List (PbField × Nat) × Bool
  | 0, _ => ([], true)
  | n + 1, rest =>
    match pbDecodeTag rest with
    | .error eom => ([], eom)
    | .ok (f, rest') =>
      let (fs, eom) := pbNextFields n rest'
      ((f, rest.length - rest'.length) :: fs, eom)

/-- The loop over `pb_begin` and `pb_next`; `none` when `pb_begin` itself fails. -/
def pbFields (data : List UInt8) : Option (List (PbField × Nat) × Bool) :=
  match pbBegin data with
  | .error _ => none
  | .ok (f, rest) =>
    let (fs, eom) := pbNextFields (rest.length + 1) rest
    some ((f, data.length - rest.length) :: fs, eom)

/-! ## Varints round trip -/

theorem length_unsetTop (l : List UInt8) : (unsetTop l).length = l.length := by
  induction l with
  | nil => rfl
  | cons b l ih =>
    cases l with
    | nil => rfl
    | cons c l => rw [unsetTop, List.length_cons, List.length_cons, ih]; simp

theorem length_vintBytes (value : UInt64) : (vintBytes value).length = pbEvalVintLength value := by
  unfold vintBytes pbEvalVintLength
  split
  · rfl
  · exact length_unsetTop _

theorem length_vintLoop_le (n value : Nat) : (vintLoop n value).length ≤ n := by
  induction n generalizing value with
  | zero => exact Nat.le_refl 0
  | succ n ih =>
    rw [vintLoop]
    split
    · exact Nat.zero_le _
    · exact Nat.succ_le_succ (ih _)

theorem pbEvalVintLength_le (value : UInt64) : pbEvalVintLength value ≤ 10 := by
  unfold pbEvalVintLength
  split
  · decide
  · exact length_vintLoop_le 10 _

theorem vintLoop_ne_nil {n value : Nat} (h : value ≠ 0) : vintLoop (n + 1) value ≠ [] := by
  rw [vintLoop, if_neg h]
  exact List.cons_ne_nil _ _

theorem vintBytes_pos (value : UInt64) : 0 < (vintBytes value).length := by
  unfold vintBytes
  split
  · exact Nat.one_pos
  · rename_i h
    have hne : value.toNat ≠ 0 := fun h0 => h (UInt64.toNat_inj.mp h0)
    rw [length_unsetTop]
    exact List.length_pos_iff.mpr (vintLoop_ne_nil hne)

theorem toNat_ofNat_mod (v : Nat) : (UInt8.ofNat (v % 128)).toNat = v % 128 := by
  rw [UInt8.toNat_ofNat']
  omega

theorem toNat_ofNat_top (v : Nat) : (UInt8.ofNat (v % 128 + 128)).toNat = v % 128 + 128 := by
  rw [UInt8.toNat_ofNat']
  omega

/-- Putting seven bits above a result that is below `2 ^ bitpos` adds them. -/
theorem or_shift {result bitpos x : Nat} (hr : result < 2 ^ bitpos)
    (hx : result + x * 2 ^ bitpos < 2 ^ 64) :
    result ||| (x <<< bitpos) % 2 ^ 64 = result + x * 2 ^ bitpos := by
  have hs : x <<< bitpos = x * 2 ^ bitpos := Nat.shiftLeft_eq x bitpos
  have hlt : x <<< bitpos < 2 ^ 64 := by omega
  rw [Nat.mod_eq_of_lt hlt, Nat.or_comm, ← Nat.shiftLeft_add_eq_or_of_lt hr, hs, Nat.add_comm]

/-- Decoding the loop's bytes from bit position `bitpos` on adds the value at that position.  The
    number of rounds that are left bounds both the value and the position. -/
theorem pbDecodeVarintAt_vintLoop (rest : List UInt8) :
    ∀ (n value bitpos result : Nat), value ≠ 0 → value < 2 ^ (7 * n) → bitpos + 7 * n ≤ 70 →
      result < 2 ^ bitpos → result + value * 2 ^ bitpos < 2 ^ 64 →
      pbDecodeVarintAt (unsetTop (vintLoop n value) ++ rest) bitpos result =
        .ok (UInt64.ofNat (result + value * 2 ^ bitpos), rest) := by
  intro n
  induction n with
  | zero =>
    intro value bitpos result h0 hv
    simp at hv
    exact absurd hv h0
  | succ n ih =>
    intro value bitpos result h0 hv hb hr hsum
    have hsplit :
        value * 2 ^ bitpos = value % 128 * 2 ^ bitpos + value / 128 * 2 ^ (bitpos + 7) := by
      have hdm : value = value % 128 + value / 128 * 128 := by omega
      conv_lhs => rw [hdm]
      rw [Nat.pow_add]
      ring
    have hlow : result ||| (value % 128) <<< bitpos % 2 ^ 64 = result + value % 128 * 2 ^ bitpos :=
      or_shift hr (by omega)
    have hmod : (value % 128 + 128) % 128 = value % 128 := by omega
    -- the position is still inside the word, because the value has a bit there
    have hpos : bitpos < 64 := by
      by_contra hge
      have h1 : 2 ^ 64 ≤ 2 ^ bitpos := Nat.pow_le_pow_right (by omega) (by omega)
      have h2 : 1 * 2 ^ bitpos ≤ value * 2 ^ bitpos := Nat.mul_le_mul_right _ (by omega)
      omega
    rw [vintLoop, if_neg h0]
    by_cases hlast : value / 128 = 0
    · have hnil : vintLoop n (value / 128) = [] := by
        cases n with
        | zero => rfl
        | succ n => rw [vintLoop, if_pos hlast]
      have hsmall : ¬ 128 ≤ value % 128 := by omega
      rw [hnil, unsetTop, List.singleton_append, pbDecodeVarintAt, if_neg (by omega), toNat_ofNat_top,
        hmod, toNat_ofNat_mod, Nat.mod_mod, hlow, if_neg hsmall]
      rw [hsplit, hlast]
      simp
    · obtain ⟨c, l, hcl⟩ : ∃ c l, vintLoop n (value / 128) = c :: l := by
        cases n with
        | zero => exact absurd (Nat.div_eq_of_lt hv) hlast
        | succ n => exact List.exists_cons_of_ne_nil (vintLoop_ne_nil hlast)
      have hrec := ih (value / 128) (bitpos + 7) (result + value % 128 * 2 ^ bitpos) hlast
        (by rw [Nat.mul_succ, Nat.pow_add] at hv; omega) (by omega)
        (by
          have : value % 128 * 2 ^ bitpos ≤ 127 * 2 ^ bitpos := Nat.mul_le_mul_right _ (by omega)
          rw [Nat.pow_add]
          omega)
        (by omega)
      rw [hcl] at hrec ⊢
      rw [unsetTop, List.cons_append, pbDecodeVarintAt, if_neg (by omega), toNat_ofNat_top, hmod,
        hlow, if_pos (by omega), hrec]
      · rw [hsplit, Nat.add_assoc]
      · exact List.cons_ne_nil c l

/-- **A varint is read back**, whatever follows it. -/
theorem pbDecodeVarint_vintBytes (value : UInt64) (rest : List UInt8) :
    pbDecodeVarint (vintBytes value ++ rest) = .ok (value, rest) := by
  unfold vintBytes pbDecodeVarint
  split
  · rename_i h
    subst h
    rfl
  · rename_i h
    have hne : value.toNat ≠ 0 := fun h0 => h (UInt64.toNat_inj.mp h0)
    have hlt : value.toNat < 2 ^ 64 := value.toNat_lt
    rw [pbDecodeVarintAt_vintLoop rest 10 value.toNat 0 0 hne (by omega) (by omega) (by omega)
      (by omega)]
    simp

/-! ## Fields round trip -/

/-- The bytes of a value, behind its tag word. -/
def valBytes : FieldVal → List UInt8
  | .varint i64 => vintBytes i64
  | .fixed64 i64 => leBytes 8 i64.toNat
  | .string str => vintBytes (UInt64.ofNat str.length) ++ str
  | .fixed32 i32 => leBytes 4 i32.toNat

/-- The bytes of a field. -/
def fieldBytes (tag : UInt32) (val : FieldVal) : List UInt8 :=
  vintBytes (tagWord val.type tag) ++ valBytes val

theorem length_fieldBytes (tag : UInt32) (val : FieldVal) :
    (fieldBytes tag val).length = pbEvalFieldLength tag val := by
  unfold fieldBytes
  cases val with
  | varint i64 =>
    rw [List.length_append, length_vintBytes, valBytes, length_vintBytes, pbEvalFieldLength]
    rfl
  | fixed64 i64 =>
    rw [List.length_append, length_vintBytes, valBytes, length_leBytes, pbEvalFieldLength]
    rfl
  | string str =>
    rw [List.length_append, length_vintBytes, valBytes, List.length_append, length_vintBytes,
      pbEvalFieldLength, pbEvalStringLength, Nat.add_assoc]
    rfl
  | fixed32 i32 =>
    rw [List.length_append, length_vintBytes, valBytes, length_leBytes, pbEvalFieldLength]
    rfl

/-- The buffer after `buf` went in. -/
def PbBuff.push (b : PbBuff) (buf : List UInt8) : PbBuff := ⟨b.out ++ buf, b.left - buf.length⟩

theorem PbBuff.push_push (b : PbBuff) (l l' : List UInt8) :
    (b.push l).push l' = b.push (l ++ l') := by
  unfold push
  rw [List.append_assoc, List.length_append, Nat.sub_sub]

theorem pbAdd_ok {b : PbBuff} {buf : List UInt8} (h : buf.length ≤ b.left) :
    pbAdd b buf = .ok (b.push buf) := if_neg (by omega)

theorem orFail_ok (b : PbBuff) (code : Int) : orFail (.ok b) code = .ok b := rfl

/-- Two additions that both fit are one. -/
theorem pbAdd_push {b : PbBuff} {l l' : List UInt8} (h : l.length + l'.length ≤ b.left) :
    pbAdd (b.push l) l' = .ok (b.push (l ++ l')) := by
  rw [pbAdd_ok, PbBuff.push_push]
  show l'.length ≤ b.left - l.length
  omega

/-- **With enough room, `pb_add_field_val` appends the field.** -/
theorem pbAddFieldVal_eq {b : PbBuff} {tag : UInt32} {val : FieldVal}
    (h : (fieldBytes tag val).length ≤ b.left) :
    pbAddFieldVal b tag val = .ok (b.push (fieldBytes tag val)) := by
  unfold fieldBytes at h ⊢
  rw [List.length_append] at h
  unfold pbAddFieldVal pbAddTag pbAddVint
  rw [pbAdd_ok (by omega), orFail_ok]
  cases val with
  | varint i64 => exact pbAdd_push h
  | fixed64 i64 => exact pbAdd_push h
  | string str =>
    rw [valBytes, List.length_append] at h
    show (orFail (pbAdd _ _) _ >>= fun b => pbAdd b str) = _
    rw [pbAdd_push (by omega), orFail_ok]
    show pbAdd _ str = _
    rw [pbAdd_push (by rw [List.length_append]; omega), List.append_assoc]
    rfl
  | fixed32 i32 => exact pbAdd_push h

/-- The fields that survive the wire: the tag fits the 32-bit shift, the length its word. -/
structure FieldOk (tag : UInt32) (val : FieldVal) : Prop where
  tag_pos : 0 < tag.toNat
  tag_lt : tag.toNat < 2 ^ 29
  str_lt : ∀ str, val = .string str → str.length < 2 ^ 32

theorem code_lt (type : WireType) : type.code < 8 := by cases type <;> decide

theorem tagWord_toNat (type : WireType) {tag : UInt32} (h : tag.toNat < 2 ^ 29) :
    (tagWord type tag).toNat = type.code + tag.toNat * 8 := by
  have hc := code_lt type
  unfold tagWord
  rw [UInt64.toNat_ofNat', Nat.mod_eq_of_lt (a := tag.toNat * 8) (by omega)]
  exact Nat.mod_eq_of_lt (by omega)

theorem ofCode_code (type : WireType) : WireType.ofCode type.code = some type := by
  cases type <;> rfl

theorem pbDecodeFixed_leBytes {n v : Nat} (h : v < 256 ^ n) (rest : List UInt8) :
    pbDecodeFixed n (leBytes n v ++ rest) = some (v, rest) := by
  unfold pbDecodeFixed
  have hlen : ¬ (leBytes n v ++ rest).length < n := by
    rw [List.length_append, length_leBytes]
    omega
  rw [if_neg hlen, List.take_left' (length_leBytes n v), List.drop_left' (length_leBytes n v),
    leNat_leBytes, Nat.mod_eq_of_lt h]

theorem pbDecodeString_bytes {str : List UInt8} (h : str.length < 2 ^ 32) (rest : List UInt8) :
    pbDecodeString (vintBytes (UInt64.ofNat str.length) ++ (str ++ rest)) = some (str, rest) := by
  have hlen : (UInt64.ofNat str.length).toNat = str.length := by
    rw [UInt64.toNat_ofNat']
    omega
  unfold pbDecodeString
  rw [pbDecodeVarint_vintBytes]
  show (if _ then _ else _) = _
  rw [hlen, if_neg (by rw [List.length_append]; omega), Nat.mod_eq_of_lt h]
  show some (List.take str.length _, List.drop str.length _) = _
  rw [List.take_left, List.drop_left]

/-- A value is read back by the decoder of its type. -/
theorem pbDecodeVal_valBytes {val : FieldVal} (h : ∀ str, val = .string str → str.length < 2 ^ 32)
    (rest : List UInt8) : pbDecodeVal val.type (valBytes val ++ rest) = some (val, rest) := by
  cases val with
  | varint i64 =>
    show ((pbDecodeVarint (vintBytes i64 ++ rest)).toOption.map _) = _
    rw [pbDecodeVarint_vintBytes]
    rfl
  | fixed64 i64 =>
    show ((pbDecodeFixed 8 (leBytes 8 i64.toNat ++ rest)).map fun p =>
      (FieldVal.fixed64 (UInt64.ofNat p.1), p.2)) = _
    rw [pbDecodeFixed_leBytes i64.toNat_lt]
    simp
  | string str =>
    show ((pbDecodeString (_ ++ _ ++ rest)).map _) = _
    rw [List.append_assoc, pbDecodeString_bytes (h str rfl)]
    rfl
  | fixed32 i32 =>
    show ((pbDecodeFixed 4 (leBytes 4 i32.toNat ++ rest)).map fun p =>
      (FieldVal.fixed32 (UInt32.ofNat p.1), p.2)) = _
    rw [pbDecodeFixed_leBytes i32.toNat_lt]
    simp

/-- **A field is read back**, whatever follows it. -/
theorem pbDecodeTag_fieldBytes {tag : UInt32} {val : FieldVal} (h : FieldOk tag val)
    (rest : List UInt8) :
    pbDecodeTag (fieldBytes tag val ++ rest) = .ok (⟨tag, val⟩, rest) := by
  have hword := tagWord_toNat val.type h.tag_lt
  have hc := code_lt val.type
  have hpos := h.tag_pos
  have hne : tagWord val.type tag ≠ 0 := by
    intro h0
    rw [h0] at hword
    simp at hword
    omega
  have hmod : (tagWord val.type tag).toNat % 8 = val.type.code := by rw [hword]; omega
  have hdiv : (tagWord val.type tag).toNat / 8 = tag.toNat := by rw [hword]; omega
  unfold pbDecodeTag fieldBytes
  rw [List.append_assoc, pbDecodeVarint_vintBytes]
  show (if _ then _ else _) = _
  rw [if_neg hne, hmod, ofCode_code]
  show (match pbDecodeVal val.type _ with | none => _ | some (val, rest) => _) = _
  rw [pbDecodeVal_valBytes h.str_lt, hdiv, UInt32.ofNat_toNat]

/-! ## Messages round trip -/

/-- The bytes of a list of fields. -/
def messageBytes (fs : List PbField) : List UInt8 := fs.flatMap fun f => fieldBytes f.tag f.val

/-- The length the size evaluator gives a field. -/
def PbField.size (f : PbField) : Nat := pbEvalFieldLength f.tag f.val

theorem messageBytes_cons (f : PbField) (fs : List PbField) :
    messageBytes (f :: fs) = fieldBytes f.tag f.val ++ messageBytes fs := List.flatMap_cons

theorem PbField.size_pos (f : PbField) : 0 < f.size := by
  unfold PbField.size
  rw [← length_fieldBytes, fieldBytes, List.length_append]
  exact Nat.add_pos_left (vintBytes_pos _) _

theorem length_messageBytes (fs : List PbField) :
    (messageBytes fs).length = (fs.map PbField.size).sum := by
  induction fs with
  | nil => rfl
  | cons f fs ih =>
    rw [messageBytes_cons, List.length_append, ih, length_fieldBytes]
    rfl

theorem size_le_of_mem {f : PbField} {fs : List PbField} (h : f ∈ fs) :
    f.size ≤ (messageBytes fs).length := by
  obtain ⟨l, r, rfl⟩ := List.append_of_mem h
  rw [length_messageBytes, List.map_append, List.sum_append, List.map_cons, List.sum_cons]
  omega

/-- **A list of fields is read back field by field**, each with its evaluated size, and the end of
    the message is reported. -/
theorem pbNextFields_messageBytes {fs : List PbField} (h : ∀ f ∈ fs, FieldOk f.tag f.val) :
    ∀ n, (messageBytes fs).length < n →
      pbNextFields n (messageBytes fs) = (fs.map fun f => (f, f.size), true) := by
  induction fs with
  | nil =>
    intro n hn
    cases n with
    | zero => omega
    | succ n => rfl
  | cons f fs ih =>
    intro n hn
    cases n with
    | zero => omega
    | succ n =>
      have hpos := f.size_pos
      rw [messageBytes_cons, List.length_append, length_fieldBytes] at hn
      have hf : pbEvalFieldLength f.tag f.val = f.size := rfl
      have hrec := ih (fun g hg => h g (List.mem_cons_of_mem f hg)) n (by omega)
      rw [pbNextFields, messageBytes_cons, pbDecodeTag_fieldBytes (h f List.mem_cons_self)]
      show ((_, _ - _) :: (pbNextFields n (messageBytes fs)).1, _) = _
      rw [hrec, List.length_append, Nat.add_sub_cancel, length_fieldBytes]
      rfl

/-- The same for a whole message, from `pb_begin` on. -/
theorem pbFields_messageBytes {f : PbField} {fs : List PbField}
    (h : ∀ g ∈ f :: fs, FieldOk g.tag g.val) (hlen : (messageBytes (f :: fs)).length < 2 ^ 31) :
    pbFields (messageBytes (f :: fs)) = some ((f :: fs).map fun g => (g, g.size), true) := by
  have hf := h f List.mem_cons_self
  unfold pbFields pbBegin
  rw [if_neg (by omega), messageBytes_cons, pbDecodeTag_fieldBytes hf]
  show some ((_, _ - (messageBytes fs).length) ::
    (pbNextFields ((messageBytes fs).length + 1) (messageBytes fs)).1,
    (pbNextFields ((messageBytes fs).length + 1) (messageBytes fs)).2) = _
  rw [pbNextFields_messageBytes (fun g hg => h g (List.mem_cons_of_mem f hg)) _ (by omega),
    List.length_append, Nat.add_sub_cancel, length_fieldBytes]
  rfl

end MysqlProxy
