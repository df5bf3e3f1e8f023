/-
  The decoder on its cursor (`pb_field_t`, `pb_get_*`, `pb_decode_*`, `pb_begin` and `pb_next` of
  `knv/pb.c`).

  `Pb.lean` reads a message as the list of its unread bytes.  Here is the code under it: a pointer,
  a signed count of what is left, and one union in which a varint, a 32-bit word and the length of a
  string share their bytes.  Every read is checked against the input: a read outside it is a fault,
  and the call is `none`.

  1. **The reads** stay inside while `ptr - start + left` is the length of the input (`Inside`), and
     keep it so (`Reads`).
  2. **The decoders refine the list decoders**: `pbDecodeTag_refines` says that the call never
     faults, returns zero exactly when the list decoder returns a field, leaves the union holding the
     value of that field, and leaves the cursor in front of the bytes the list decoder leaves.
  3. **The iteration** over `pb_begin` and `pb_next` (`Iteration`) is a chain of cursors that are at
     least two bytes apart, and it ends (`iteration_safe`).
-/
import MysqlProxy.Knv.PbRaw
import MysqlProxy.Lib.Machine

namespace MysqlProxy

/-- `pb_field_t`.  `data` are the `size` bytes from `start` on; `ptr` is relative to `start`. -/
structure PbCursor where
  data : List UInt8
  ptr : Nat
  left : Int
  tag : UInt32
  type : Nat
  eom : Bool
  errmsg : Option String
  /-- The first eight bytes of the union: `val.i64`. -/
  i64 : UInt64
  /-- `val.str.data`, which lies behind them, relative to `start`. -/
  strData : Nat
  deriving DecidableEq, Repr

namespace PbCursor

/-- `val.i32`, which is also `val.str.len`: the low half of `val.i64`. -/
def i32 (f : PbCursor) : UInt32 := UInt32.ofNat f.i64.toNat

/-- The union after a store to `val.i32` or `val.str.len`. -/
def setI32 (f : PbCursor) (v : Nat) : PbCursor :=
  { f with i64 := UInt64.ofNat (f.i64.toNat / 2 ^ 32 * 2 ^ 32 + v % 2 ^ 32) }

/-- `val.str` refers to the next `sz` bytes. -/
def setStr (f : PbCursor) (sz : Nat) : PbCursor :=
  { f with i64 := (f.setI32 sz).i64, strData := f.ptr }

/-- `val.str`, the bytes a string field refers to. -/
def str (f : PbCursor) : List UInt8 := (f.data.drop f.strData).take f.i32.toNat

def fail (f : PbCursor) (msg : String) : PbCursor := { f with errmsg := some msg }

/-! ## Reading -/

/-- `f->ptr += n; f->left -= n;` with an `int` that is no larger than `n`'s range. -/
def advance (f : PbCursor) (n : Nat) : PbCursor :=
  { f with ptr := f.ptr + n, left := int32 (f.left - n) }

/-- The `n` bytes at `f->ptr`; a fault when they are not all inside the input. -/
def deref (f : PbCursor) (n : Nat) : Option (List UInt8) :=
  if f.ptr + n ≤ f.data.length then some ((f.data.drop f.ptr).take n) else none

/-- `pb_get_byte`, `pb_get_dword` and `pb_get_ddword`: an `n`-byte word, or a failure with its
    code.  `none` is a read outside the input. -/
def pbGet (n : Nat) (f : PbCursor) : Option (Int × Nat × PbCursor) :=
  if f.left < n then some (-1, 0, f.fail "end-of-buffer")
  else (f.deref n).map fun buf => (0, leNat buf, f.advance n)

def pbGetByte (f : PbCursor) : Option (Int × Nat × PbCursor) := pbGet 1 f

def pbGetDword (f : PbCursor) : Option (Int × Nat × PbCursor) := pbGet 4 f

def pbGetDdword (f : PbCursor) : Option (Int × Nat × PbCursor) := pbGet 8 f

/-- The `do` loop of `pb_decode_varint`. -/
def pbDecodeVarintLoop (f : PbCursor) (bitpos result : Nat) : Option (Int × PbCursor) :=
  if _hbit : 64 ≤ bitpos then some (-1, f.fail "varint overflow")
  else
    match f.pbGetByte with
    | none => none
    | some (ret, byte, f) =>
      if ret ≠ 0 then some (-2, f)
      else
        let result := result ||| ((byte % 128) <<< bitpos) % 2 ^ 64
        if 128 ≤ byte then f.pbDecodeVarintLoop ((bitpos + 7) % 256) result
        else some (0, { f with i64 := UInt64.ofNat result })
termination_by 64 - bitpos
decreasing_by omega

def pbDecodeVarint (f : PbCursor) : Option (Int × PbCursor) := f.pbDecodeVarintLoop 0 0

def pbDecodeFixed32 (f : PbCursor) : Option (Int × PbCursor) :=
  f.pbGetDword.map fun (ret, v, f) => if ret ≠ 0 then (ret, f) else (0, f.setI32 v)

def pbDecodeFixed64 (f : PbCursor) : Option (Int × PbCursor) :=
  f.pbGetDdword.map fun (ret, v, f) =>
    if ret ≠ 0 then (ret, f) else (0, { f with i64 := UInt64.ofNat v })

def pbDecodeString (f : PbCursor) : Option (Int × PbCursor) :=
  f.pbDecodeVarint.map fun (ret, f) =>
    if ret ≠ 0 then (-1, f)
    -- `f->left` is converted to 64 unsigned bits here
    else if f.left % 2 ^ 64 < f.i64.toNat then (-2, f.fail "string overflow")
    else
      let sz := f.i64.toNat % 2 ^ 32
      (0, (f.setStr sz).advance sz)

/-- The `switch` of `pb_decode_tag`. -/
def pbDecodeVal (f : PbCursor) : Option (Int × PbCursor) :=
  match WireType.ofCode f.type with
  | some .varint => f.pbDecodeVarint
  | some .fixed64 => f.pbDecodeFixed64
  | some .string => f.pbDecodeString
  | some .fixed32 => f.pbDecodeFixed32
  | none => some (-3, f.fail "invalid wire_type")

def pbDecodeTag (f : PbCursor) : Option (Int × PbCursor) :=
  f.pbDecodeVarint.bind fun (ret, f) =>
    if ret ≠ 0 then some (-1, if f.left = 0 then { f with eom := true } else f)
    else if f.i64 = 0 then some (-2, { f with eom := true }.fail "0-terminated msg")
    else
      { f with
        tag := UInt32.ofNat (f.i64.toNat / 8)
        type := f.i32.toNat % 8 }.pbDecodeVal

/-- `pb_next`: whether the call returned the field, and the cursor. -/
def pbNext (f : PbCursor) : Option (Bool × PbCursor) :=
  f.pbDecodeTag.map fun (ret, f) => (ret == 0, f)

/-- The cursor `pb_begin` sets up on a message and its length. -/
def start (f : PbCursor) (data : List UInt8) : PbCursor :=
  { f with
    data := data
    ptr := 0
    left := int32 data.length
    eom := false
    errmsg := none }

def pbBegin (f : PbCursor) (data : List UInt8) : Option (Bool × PbCursor) := (f.start data).pbNext

/-! ## The reads stay inside -/

/-- `ptr - start + left` is the length of the input, and nothing is owed. -/
structure Inside (f : PbCursor) : Prop where
  size : f.data.length < 2 ^ 31
  sum : (f.ptr : Int) + f.left = f.data.length
  left : 0 ≤ f.left

/-- The unread bytes. -/
def rest (f : PbCursor) : List UInt8 := f.data.drop f.ptr

theorem rest_store (f : PbCursor) (i64 : UInt64) (strData : Nat) :
    rest { f with i64 := i64, strData := strData } = f.rest := rfl

theorem rest_setI32 (f : PbCursor) (v : Nat) : (f.setI32 v).rest = f.rest :=
  rest_store f _ f.strData

theorem Inside.length_rest {f : PbCursor} (h : f.Inside) : (f.rest.length : Int) = f.left := by
  have := h.sum
  have := h.left
  rw [rest, List.length_drop]
  omega

/-- A call that leaves the tag word alone and the cursor inside. -/
structure Moves (f f' : PbCursor) : Prop where
  data : f'.data = f.data
  tag : f'.tag = f.tag
  type : f'.type = f.type
  eom : f'.eom = f.eom
  inside : f'.Inside

theorem Inside.moves {f : PbCursor} (h : f.Inside) : f.Moves f := ⟨rfl, rfl, rfl, rfl, h⟩

theorem Inside.fail {f : PbCursor} (h : f.Inside) (msg : String) : f.Moves (f.fail msg) :=
  ⟨rfl, rfl, rfl, rfl, h.size, h.sum, h.left⟩

/-- A store to the union moves nothing. -/
theorem Inside.store {f : PbCursor} (h : f.Inside) (i64 : UInt64) (strData : Nat) :
    f.Moves { f with i64 := i64, strData := strData } :=
  ⟨rfl, rfl, rfl, rfl, h.size, h.sum, h.left⟩

theorem Inside.setI32 {f : PbCursor} (h : f.Inside) (v : Nat) : f.Moves (f.setI32 v) :=
  h.store _ _

theorem Moves.trans {f g k : PbCursor} (h : f.Moves g) (h' : g.Moves k) : f.Moves k :=
  ⟨h'.data.trans h.data, h'.tag.trans h.tag, h'.type.trans h.type, h'.eom.trans h.eom, h'.inside⟩

theorem Inside.advance {f : PbCursor} (h : f.Inside) {n : Nat} (hn : n ≤ f.rest.length) :
    f.Moves (f.advance n) ∧ (f.advance n).rest = f.rest.drop n := by
  have hrest := h.length_rest
  have hsum := h.sum
  have hsize := h.size
  have hleft : (f.advance n).left = f.left - n := int32_of_lt (by omega) (by omega)
  have hptr : (f.advance n).ptr = f.ptr + n := rfl
  refine ⟨⟨rfl, rfl, rfl, rfl, h.size, ?_, by omega⟩, ?_⟩
  · show ((f.advance n).ptr : Int) + (f.advance n).left = f.data.length
    omega
  · show f.data.drop (f.ptr + n) = (f.data.drop f.ptr).drop n
    rw [List.drop_drop]

/-- **A read stays inside the input**: it fails when fewer than `n` bytes are left, and else takes
    the next `n` bytes. -/
theorem pbGet_eq {f : PbCursor} (h : f.Inside) (n : Nat) :
    pbGet n f = if f.rest.length < n then some (-1, 0, f.fail "end-of-buffer")
      else some (0, leNat (f.rest.take n), f.advance n) := by
  have hrest := h.length_rest
  have hsum := h.sum
  unfold pbGet
  by_cases hn : f.rest.length < n
  · rw [if_pos hn, if_pos (by omega)]
  · rw [if_neg hn, if_neg (by omega), deref, if_pos (by omega)]
    rfl

/-! ## The decoders refine the list decoders -/

/-- The call does what the list decoder does: no fault, zero exactly when there is a value, which is
    `Q` of the cursor afterwards, and the same bytes left. -/
def Refines {α : Type} (f : PbCursor) (call : Option (Int × PbCursor)) (spec : Option (α × List UInt8))
    (Q : α → PbCursor → Prop) : Prop :=
  ∃ ret f', call = some (ret, f') ∧ f.Moves f' ∧
    match spec with
    | none => ret ≠ 0
    | some (a, rest) => ret = 0 ∧ f'.rest = rest ∧ Q a f'

theorem Refines.fail {α : Type} {f f' : PbCursor} {call : Option (Int × PbCursor)}
    {spec : Option (α × List UInt8)} {Q : α → PbCursor → Prop} {ret : Int}
    (hcall : call = some (ret, f')) (hm : f.Moves f') (hret : ret ≠ 0) (hspec : spec = none) :
    Refines f call spec Q := by
  subst hspec
  exact ⟨ret, f', hcall, hm, hret⟩

theorem Refines.value {α : Type} {f f' : PbCursor} {call : Option (Int × PbCursor)}
    {spec : Option (α × List UInt8)} {Q : α → PbCursor → Prop} {a : α} {l : List UInt8}
    (hcall : call = some (0, f')) (hm : f.Moves f') (hspec : spec = some (a, l)) (hl : f'.rest = l)
    (hq : Q a f') : Refines f call spec Q := by
  subst hspec
  exact ⟨0, f', hcall, hm, rfl, hl, hq⟩

/-- The loop of `pb_decode_varint`, from any bit position on.  A failure leaves the bytes the list
    decoder reports. -/
theorem pbDecodeVarintLoop_refines {rest : List UInt8} {f : PbCursor} (h : f.Inside)
    (hr : f.rest = rest) (bitpos result : Nat) :
    ∃ ret f', f.pbDecodeVarintLoop bitpos result = some (ret, f') ∧ f.Moves f' ∧
      match pbDecodeVarintAt rest bitpos result with
      | .error l => ret ≠ 0 ∧ f'.rest = l
      | .ok (v, l) => ret = 0 ∧ f'.rest = l ∧ f'.i64 = v := by
  induction rest generalizing f bitpos result with
  | nil =>
    rw [pbDecodeVarintLoop]
    by_cases hbit : 64 ≤ bitpos
    · rw [dif_pos hbit]
      exact ⟨_, _, rfl, h.fail _, by decide, hr⟩
    · rw [dif_neg hbit, pbGetByte, pbGet_eq h, if_pos (by rw [hr]; decide)]
      exact ⟨_, _, rfl, h.fail _, by decide, hr⟩
  | cons byte rest ih =>
    rw [pbDecodeVarintLoop, pbDecodeVarintAt]
    by_cases hbit : 64 ≤ bitpos
    · rw [dif_pos hbit, if_pos hbit]
      exact ⟨_, _, rfl, h.fail _, by decide, hr⟩
    · have hroom : ¬ f.rest.length < 1 := by
        rw [hr, List.length_cons]
        omega
      have hbyte : leNat (f.rest.take 1) = byte.toNat := by
        rw [hr]
        simp [leNat]
      obtain ⟨hm, hr'⟩ := h.advance (Nat.le_of_not_lt hroom)
      have hdrop : (f.advance 1).rest = rest := by rw [hr', hr]; rfl
      rw [dif_neg hbit, if_neg hbit, pbGetByte, pbGet_eq h, if_neg hroom, hbyte]
      simp only [ne_eq, not_true_eq_false, if_false]
      by_cases hmore : 128 ≤ byte.toNat
      · rw [if_pos hmore, if_pos hmore, Nat.mod_eq_of_lt (show bitpos + 7 < 256 by omega)]
        obtain ⟨ret, f', hcall, hm', hres⟩ := ih hm.inside hdrop (bitpos + 7)
          (result ||| ((byte.toNat % 128) <<< bitpos) % 2 ^ 64)
        exact ⟨ret, f', hcall, hm.trans hm', hres⟩
      · rw [if_neg hmore, if_neg hmore]
        exact ⟨_, _, rfl, hm.trans (hm.inside.store _ _), rfl, hdrop, rfl⟩

/-- `pb_decode_varint` against the list decoder. -/
theorem pbDecodeVarint_refines {f : PbCursor} (h : f.Inside) :
    ∃ ret f', f.pbDecodeVarint = some (ret, f') ∧ f.Moves f' ∧
      match MysqlProxy.pbDecodeVarint f.rest with
      | .error l => ret ≠ 0 ∧ f'.rest = l
      | .ok (v, l) => ret = 0 ∧ f'.rest = l ∧ f'.i64 = v :=
  pbDecodeVarintLoop_refines h rfl 0 0

/-- What the union holds, read as the type says. -/
def val (f : PbCursor) : WireType → FieldVal
  | .varint => .varint f.i64
  | .fixed64 => .fixed64 f.i64
  | .string => .string f.str
  | .fixed32 => .fixed32 f.i32

/-- The union holds `v`, and a string ends at the cursor. -/
structure Holds (type : WireType) (v : FieldVal) (f : PbCursor) : Prop where
  val : f.val type = v
  ends : type = .string → f.strData + f.i32.toNat = f.ptr

theorem i32_setI32 (f : PbCursor) (v : Nat) : (f.setI32 v).i32 = UInt32.ofNat v := by
  unfold setI32 i32
  apply UInt32.toNat_inj.mp
  rw [UInt32.toNat_ofNat', UInt32.toNat_ofNat', UInt64.toNat_ofNat']
  omega

theorem i32_advance (f : PbCursor) (n : Nat) : (f.advance n).i32 = f.i32 := by
  have hi : (f.advance n).i64 = f.i64 := rfl
  unfold i32
  rw [hi]

theorem str_advance (f : PbCursor) (n : Nat) : (f.advance n).str = f.str := by
  unfold str
  rw [i32_advance]
  rfl

theorem setStr_moves {f : PbCursor} (h : f.Inside) (sz : Nat) :
    f.Moves (f.setStr sz) ∧ (f.setStr sz).rest = f.rest ∧ (f.setStr sz).i32.toNat = sz % 2 ^ 32 ∧
      (f.setStr sz).strData = (f.setStr sz).ptr := by
  refine ⟨h.store _ _, rest_store f _ _, ?_, rfl⟩
  have hi : (f.setStr sz).i32 = (f.setI32 sz).i32 := rfl
  rw [hi, i32_setI32, UInt32.toNat_ofNat']

theorem pbDecodeFixed32_refines {f : PbCursor} (h : f.Inside) :
    Refines f f.pbDecodeFixed32 (MysqlProxy.pbDecodeVal .fixed32 f.rest) (Holds .fixed32) := by
  unfold pbDecodeFixed32 pbGetDword MysqlProxy.pbDecodeVal pbDecodeFixed
  rw [pbGet_eq h]
  by_cases hn : f.rest.length < 4
  · rw [if_pos hn, if_pos hn]
    exact .fail rfl (h.fail _) (by decide) rfl
  · obtain ⟨hm, hr⟩ := h.advance (Nat.le_of_not_lt hn)
    rw [if_neg hn, if_neg hn]
    refine .value rfl (hm.trans (hm.inside.setI32 _)) rfl ((rest_setI32 _ _).trans hr) ⟨?_, ?_⟩
    · exact congrArg FieldVal.fixed32 (i32_setI32 _ _)
    · rintro ⟨⟩

theorem pbDecodeFixed64_refines {f : PbCursor} (h : f.Inside) :
    Refines f f.pbDecodeFixed64 (MysqlProxy.pbDecodeVal .fixed64 f.rest) (Holds .fixed64) := by
  unfold pbDecodeFixed64 pbGetDdword MysqlProxy.pbDecodeVal pbDecodeFixed
  rw [pbGet_eq h]
  by_cases hn : f.rest.length < 8
  · rw [if_pos hn, if_pos hn]
    exact .fail rfl (h.fail _) (by decide) rfl
  · obtain ⟨hm, hr⟩ := h.advance (Nat.le_of_not_lt hn)
    rw [if_neg hn, if_neg hn]
    refine .value rfl (hm.trans (hm.inside.store _ _)) rfl hr ⟨rfl, ?_⟩
    rintro ⟨⟩

theorem pbDecodeVarint_val_refines {f : PbCursor} (h : f.Inside) :
    Refines f f.pbDecodeVarint (MysqlProxy.pbDecodeVal .varint f.rest) (Holds .varint) := by
  obtain ⟨ret, f', hcall, hm, hres⟩ := pbDecodeVarint_refines h
  unfold MysqlProxy.pbDecodeVal
  cases hd : MysqlProxy.pbDecodeVarint f.rest with
  | error l =>
    rw [hd] at hres
    exact .fail hcall hm hres.1 rfl
  | ok p =>
    rw [hd] at hres
    obtain ⟨rfl, hrest, hval⟩ := hres
    refine .value hcall hm rfl hrest ⟨?_, ?_⟩
    · exact congrArg FieldVal.varint hval
    · rintro ⟨⟩

theorem pbDecodeString_refines {f : PbCursor} (h : f.Inside) :
    Refines f f.pbDecodeString (MysqlProxy.pbDecodeVal .string f.rest) (Holds .string) := by
  obtain ⟨ret, f', hcall, hm, hres⟩ := pbDecodeVarint_refines h
  unfold pbDecodeString MysqlProxy.pbDecodeVal MysqlProxy.pbDecodeString
  rw [hcall]
  cases hd : MysqlProxy.pbDecodeVarint f.rest with
  | error l =>
    rw [hd] at hres
    refine .fail ?_ hm (show (-1 : Int) ≠ 0 by decide) rfl
    exact congrArg some (if_pos hres.1)
  | ok p =>
    obtain ⟨v, l⟩ := p
    rw [hd] at hres
    obtain ⟨rfl, rfl, rfl⟩ := hres
    have hin := hm.inside
    have hleft := hin.length_rest
    have hsize := hin.size
    have hsum := hin.sum
    -- what is left is a small number, so that its conversion changes nothing
    have hconv : f'.left % 2 ^ 64 = f'.rest.length := by omega
    show Refines f (some (if f'.left % 2 ^ 64 < (f'.i64.toNat : Int) then _ else _))
      (Option.map _ (if _ then _ else _)) _
    by_cases hover : f'.rest.length < f'.i64.toNat
    · rw [if_pos hover, if_pos (by omega)]
      exact .fail rfl (hm.trans (hin.fail _)) (by decide) rfl
    · rw [if_neg hover, if_neg (by omega)]
      have hsz : f'.i64.toNat % 2 ^ 32 = f'.i64.toNat := Nat.mod_eq_of_lt (by omega)
      obtain ⟨hset, hrest, hlen, hptr⟩ := setStr_moves hin (f'.i64.toNat % 2 ^ 32)
      rw [Nat.mod_mod] at hlen
      show Refines f (some (0, (f'.setStr (f'.i64.toNat % 2 ^ 32)).advance (f'.i64.toNat % 2 ^ 32)))
        (some (FieldVal.string (f'.rest.take (f'.i64.toNat % 2 ^ 32)),
          f'.rest.drop (f'.i64.toNat % 2 ^ 32))) _
      -- only the four facts about the union matter from here on
      generalize f'.setStr (f'.i64.toNat % 2 ^ 32) = g at hset hrest hlen hptr ⊢
      generalize f'.i64.toNat % 2 ^ 32 = sz at hsz hlen ⊢
      obtain ⟨hadv, hdrop⟩ := hset.inside.advance (n := sz) (by
        rw [hrest, hsz]
        exact Nat.le_of_not_lt hover)
      rw [hrest] at hdrop
      refine .value rfl ((hm.trans hset).trans hadv) rfl hdrop ⟨?_, fun _ => ?_⟩
      · show FieldVal.string (g.advance sz).str = _
        rw [str_advance, str, hlen, hptr, show g.data.drop g.ptr = g.rest from rfl, hrest]
      · rw [i32_advance, hlen]
        exact congrArg (· + sz) hptr

/-- The `switch` of `pb_decode_tag`, for the types it knows. -/
theorem pbDecodeVal_refines {f : PbCursor} {type : WireType} (h : f.Inside)
    (ht : WireType.ofCode f.type = some type) :
    Refines f f.pbDecodeVal (MysqlProxy.pbDecodeVal type f.rest) (Holds type) := by
  unfold pbDecodeVal
  rw [ht]
  cases type with
  | varint => exact pbDecodeVarint_val_refines h
  | fixed64 => exact pbDecodeFixed64_refines h
  | string => exact pbDecodeString_refines h
  | fixed32 => exact pbDecodeFixed32_refines h

/-- **`pb_decode_tag` refines the list decoder**: it never reads outside the input, it returns zero
    exactly when there is a field, and then tag, type, union and cursor are those of the field; after
    a failure `eom` says what the list decoder says. -/
theorem pbDecodeTag_refines {f : PbCursor} (h : f.Inside) :
    ∃ ret f', f.pbDecodeTag = some (ret, f') ∧ f'.Inside ∧ f'.data = f.data ∧
      match MysqlProxy.pbDecodeTag f.rest with
      | .error eom => ret ≠ 0 ∧ f'.eom = (f.eom || eom)
      | .ok (field, rest) => ret = 0 ∧ f'.rest = rest ∧ f'.eom = f.eom ∧ f'.tag = field.tag ∧
        WireType.ofCode f'.type = some field.val.type ∧ Holds field.val.type field.val f' := by
  obtain ⟨ret, g, hcall, hm, hres⟩ := pbDecodeVarint_refines h
  have hin := hm.inside
  unfold pbDecodeTag MysqlProxy.pbDecodeTag
  rw [hcall, Option.bind_some]
  cases hd : MysqlProxy.pbDecodeVarint f.rest with
  | error l =>
    rw [hd] at hres
    obtain ⟨hret, rfl⟩ := hres
    have hleft := hin.length_rest
    simp only [ne_eq, hret, not_false_eq_true, if_true]
    refine ⟨-1, _, rfl, ?_, ?_, by decide, ?_⟩
    · split
      · exact ⟨hin.size, hin.sum, hin.left⟩
      · exact hin
    · split
      · exact hm.data
      · exact hm.data
    · rw [← hm.eom]
      cases hg : g.rest with
      | nil =>
        rw [hg] at hleft
        rw [if_pos (show g.left = 0 from hleft.symm), List.isEmpty_nil, Bool.or_true]
      | cons b l =>
        rw [hg, List.length_cons] at hleft
        rw [if_neg (by omega), List.isEmpty_cons, Bool.or_false]
  | ok p =>
    obtain ⟨v, l⟩ := p
    rw [hd] at hres
    obtain ⟨rfl, rfl, rfl⟩ := hres
    simp only [ne_eq, not_true_eq_false, if_false]
    by_cases hzero : g.i64 = 0
    · rw [if_pos hzero, if_pos hzero]
      exact ⟨-2, _, rfl, ⟨hin.size, hin.sum, hin.left⟩, hm.data, by decide, by simp [fail]⟩
    · rw [if_neg hzero, if_neg hzero]
      have hcode : g.i32.toNat % 8 = g.i64.toNat % 8 := by
        unfold i32
        rw [UInt32.toNat_ofNat']
        omega
      rw [hcode]
      have hin' : Inside { g with
          tag := UInt32.ofNat (g.i64.toNat / 8)
          type := g.i64.toNat % 8 } := ⟨hin.size, hin.sum, hin.left⟩
      have hrest : rest { g with
          tag := UInt32.ofNat (g.i64.toNat / 8)
          type := g.i64.toNat % 8 } = g.rest := rfl
      cases ht : WireType.ofCode (g.i64.toNat % 8) with
      | none =>
        refine ⟨-3, _, ?_, (hin'.fail "invalid wire_type").inside, hm.data, by decide, ?_⟩
        · unfold pbDecodeVal
          simp only [ht]
        · show g.eom = _
          rw [hm.eom, Bool.or_false]
      | some type =>
        obtain ⟨ret, f', hval, hm', hres'⟩ := pbDecodeVal_refines hin' ht
        rw [hrest] at hres'
        refine ⟨ret, f', hval, hm'.inside, hm'.data.trans hm.data, ?_⟩
        cases hv : MysqlProxy.pbDecodeVal type g.rest with
        | none =>
          rw [hv] at hres'
          simp only [hv, Bool.or_false]
          exact ⟨hres', hm'.eom.trans hm.eom⟩
        | some q =>
          obtain ⟨val, l⟩ := q
          rw [hv] at hres'
          obtain ⟨hret, hl, hq⟩ := hres'
          have htype := (pbDecodeVal_taken hv).1
          simp only [hv]
          refine ⟨hret, hl, hm'.eom.trans hm.eom, hm'.tag, ?_, ?_⟩
          · rw [hm'.type, htype]
            exact ht
          · rw [htype]
            exact hq

/-! ## The iteration -/

/-- `pb_next` called from `f` on until it returns `NULL`: `fs` are the cursors with which it returned
    a field, `g` is the one with which it returned `NULL`. -/
inductive Nexts : PbCursor → List PbCursor → PbCursor → Prop where
  | done {f g : PbCursor} : f.pbNext = some (false, g) → Nexts f [] g
  | field {f f' g : PbCursor} {fs : List PbCursor} :
    f.pbNext = some (true, f') → Nexts f' fs g → Nexts f (f' :: fs) g

/-- `for (f = pb_begin(&f0, data, n); f != NULL; f = pb_next(f))`. -/
inductive Iteration (f : PbCursor) (data : List UInt8) : List PbCursor → PbCursor → Prop where
  | done {g : PbCursor} : f.pbBegin data = some (false, g) → Iteration f data [] g
  | field {f' g : PbCursor} {fs : List PbCursor} :
    f.pbBegin data = some (true, f') → Nexts f' fs g → Iteration f data (f' :: fs) g

theorem start_inside (f : PbCursor) {data : List UInt8} (h : data.length < 2 ^ 31) :
    (f.start data).Inside := by
  have hleft : (f.start data).left = data.length := by
    simp only [start]
    exact int32_of_lt (by omega) (by omega)
  refine ⟨h, ?_, by omega⟩
  show ((0 : Nat) : Int) + (f.start data).left = data.length
  omega

/-- The loop is `pb_next` from the cursor that `pb_begin` sets up. -/
theorem iteration_iff_nexts {f g : PbCursor} {data : List UInt8} {fs : List PbCursor} :
    Iteration f data fs g ↔ Nexts (f.start data) fs g := by
  constructor
  · rintro (h | ⟨h, hn⟩)
    · exact .done h
    · exact .field h hn
  · rintro (h | ⟨h, hn⟩)
    · exact .done h
    · exact .field h hn

/-- A returned field: two bytes at least were taken, and a string ends at the cursor. -/
structure Returned (f f' : PbCursor) : Prop where
  inside : f'.Inside
  data : f'.data = f.data
  taken : f.ptr + 2 ≤ f'.ptr
  type : ∃ type, WireType.ofCode f'.type = some type
  ends : WireType.ofCode f'.type = some .string → f'.strData + f'.i32.toNat = f'.ptr
  start : WireType.ofCode f'.type = some .string → f.ptr ≤ f'.strData

theorem valBytes_pos (val : FieldVal) : 0 < (valBytes val).length := by
  cases val with
  | varint i64 => exact vintBytes_pos i64
  | fixed64 i64 => rw [valBytes, length_leBytes]; decide
  | string str =>
    rw [valBytes, List.length_append]
    exact Nat.add_pos_left (vintBytes_pos _) _
  | fixed32 i32 => rw [valBytes, length_leBytes]; decide

/-- A field has a tag word and a value. -/
theorem two_le_size (f : PbField) : 2 ≤ f.size := by
  have htag := vintBytes_pos (tagWord f.val.type f.tag)
  have hval := valBytes_pos f.val
  unfold PbField.size
  rw [← length_fieldBytes, fieldBytes, List.length_append]
  omega

/-- The string of a field is shorter than the field. -/
theorem str_length_le_size (f : PbField) : f.val.str.length ≤ f.size := by
  obtain ⟨tag, val⟩ := f
  unfold PbField.size
  cases val with
  | string str =>
    show str.length ≤ pbEvalStringLength tag str.length
    unfold pbEvalStringLength
    omega
  | _ => exact Nat.zero_le _

/-- **One call of `pb_next`**: it stays inside, whatever it returns, and says what it returned. -/
theorem pbNext_step {f : PbCursor} (h : f.Inside) :
    ∃ more f', f.pbNext = some (more, f') ∧ f'.Inside ∧ f'.data = f.data ∧
      (more = true → Returned f f') := by
  obtain ⟨ret, f', hcall, hin, hdata, hres⟩ := pbDecodeTag_refines h
  refine ⟨ret == 0, f', by rw [pbNext, hcall]; rfl, hin, hdata, fun hmore => ?_⟩
  have hret : ret = 0 := eq_of_beq hmore
  cases hd : MysqlProxy.pbDecodeTag f.rest with
  | error eom =>
    rw [hd] at hres
    exact absurd hret hres.1
  | ok p =>
    obtain ⟨field, l⟩ := p
    rw [hd] at hres
    obtain ⟨-, rfl, -, -, htype, hval, hends⟩ := hres
    have hsize := size_le_taken hd
    have htwo := two_le_size field
    have hstr := str_length_le_size field
    have hlen := h.length_rest
    have hlen' := hin.length_rest
    have hsum := h.sum
    have hsum' := hin.sum
    rw [hdata] at hsum'
    refine ⟨hin, hdata, by omega, ⟨_, htype⟩, fun hs => ?_, fun hs => ?_⟩
    · exact hends (Option.some_inj.mp (htype.symm.trans hs))
    · have ht : field.val.type = .string := Option.some_inj.mp (htype.symm.trans hs)
      have hend := hends ht
      rw [ht] at hval
      have hlenstr : field.val.str.length = f'.i32.toNat := by
        rw [← hval]
        show ((f'.data.drop f'.strData).take f'.i32.toNat).length = _
        rw [List.length_take, List.length_drop, hdata]
        omega
      omega

/-- The loop from a cursor inside its input: it ends, in one way, and every call keeps to the
    input.  The induction is on the bytes that are left. -/
theorem nexts_safe {f : PbCursor} (h : f.Inside) :
    ∃ fs g, Nexts f fs g ∧ (∀ fs' g', Nexts f fs' g' → fs' = fs ∧ g' = g) ∧
      f.ptr + 2 * fs.length ≤ f.data.length ∧ (∀ c ∈ fs ++ [g], c.Inside ∧ c.data = f.data) ∧
      List.IsChain Returned (f :: fs) := by
  generalize hn : f.rest.length = n
  induction n using Nat.strongRecOn generalizing f with
  | ind n ih =>
    have hsum := h.sum
    have hlen := h.length_rest
    obtain ⟨more, f', hcall, hin, hdata, hret⟩ := pbNext_step h
    cases more with
    | false =>
      refine ⟨[], f', .done hcall, ?_, by simp only [List.length_nil]; omega, ?_, .singleton f⟩
      · rintro fs' g' (h' | ⟨h', -⟩)
        · rw [hcall] at h'
          cases h'
          exact ⟨rfl, rfl⟩
        · rw [hcall] at h'
          cases h'
      · intro c hc
        rw [List.nil_append, List.mem_singleton] at hc
        subst hc
        exact ⟨hin, hdata⟩
    | true =>
      have hr := hret rfl
      have htaken := hr.taken
      have hsum' := hin.sum
      have hlen' := hin.length_rest
      rw [hdata] at hsum'
      obtain ⟨fs, g, hnexts, huniq, hcount, hall, hchain⟩ := ih f'.rest.length (by omega) hin rfl
      rw [hdata] at hcount
      refine ⟨f' :: fs, g, .field hcall hnexts, ?_, by rw [List.length_cons]; omega, ?_, ?_⟩
      · rintro fs' g' (h' | ⟨h', hn'⟩)
        · rw [hcall] at h'
          cases h'
        · rw [hcall] at h'
          cases h'
          obtain ⟨rfl, rfl⟩ := huniq _ _ hn'
          exact ⟨rfl, rfl⟩
      · intro c hc
        rcases List.mem_cons.mp hc with rfl | hc
        · exact ⟨hin, hdata⟩
        · exact ⟨(hall c hc).1, (hall c hc).2.trans hdata⟩
      · exact .cons_cons hr hchain

/-- **The decoder is safe on every input.**  For every message below `2 ^ 31` bytes, and whatever the
    cursor held before, the loop over `pb_begin` and `pb_next` ends, in one way, without a read
    outside the message, after at most `n / 2` fields; after every call `ptr - start + left` is the
    length of the message and `left` is not negative; each returned field is at least two bytes
    behind the one before it, and a returned string is a sub-range of those bytes that ends at the
    cursor. -/
theorem iteration_safe (f : PbCursor) (data : List UInt8) (h : data.length < 2 ^ 31) :
    ∃ fs g, Iteration f data fs g ∧ (∀ fs' g', Iteration f data fs' g' → fs' = fs ∧ g' = g) ∧
      fs.length ≤ data.length / 2 ∧
      (∀ c ∈ fs ++ [g], c.data = data ∧ (c.ptr : Int) + c.left = data.length ∧ 0 ≤ c.left) ∧
      List.IsChain Returned (f.start data :: fs) := by
  obtain ⟨fs, g, hnexts, huniq, hcount, hall, hchain⟩ := nexts_safe (start_inside f h)
  have hcount' : 0 + 2 * fs.length ≤ data.length := hcount
  refine ⟨fs, g, iteration_iff_nexts.mpr hnexts, fun fs' g' hi => huniq _ _ (iteration_iff_nexts.mp hi),
    by omega, fun c hc => ?_, hchain⟩
  obtain ⟨hin, hdata⟩ := hall c hc
  have hd : c.data = data := hdata
  exact ⟨hd, hd ▸ hin.sum, hin.left⟩

/-- A string that announces three bytes and has two. -/
theorem iteration_safe_truncated :
    ∃ fs g, Iteration ⟨[], 0, 0, 0, 0, false, none, 0, 0⟩ [8, 1, 10, 3, 5, 6] fs g ∧
      (∀ fs' g', Iteration ⟨[], 0, 0, 0, 0, false, none, 0, 0⟩ [8, 1, 10, 3, 5, 6] fs' g' →
        fs' = fs ∧ g' = g) ∧
      fs.length ≤ [8, 1, 10, 3, 5, 6].length / 2 ∧
      (∀ c ∈ fs ++ [g], c.data = [8, 1, 10, 3, 5, 6] ∧
        (c.ptr : Int) + c.left = [8, 1, 10, 3, 5, 6].length ∧ 0 ≤ c.left) ∧
      List.IsChain Returned
        (start ⟨[], 0, 0, 0, 0, false, none, 0, 0⟩ [8, 1, 10, 3, 5, 6] :: fs) :=
  iteration_safe ⟨[], 0, 0, 0, 0, false, none, 0, 0⟩ [8, 1, 10, 3, 5, 6] (by decide)

/-- The cursor holds the field. -/
def HoldsField (p : PbField × Nat) (c : PbCursor) : Prop :=
  c.tag = p.1.tag ∧ Holds p.1.val.type p.1.val c

/-- **The loop over `pb_next` returns the fields of the list decoder**, and `eom` tells how it
    ended. -/
theorem nexts_refines {f g : PbCursor} {fs : List PbCursor} (h : f.Inside) (heom : f.eom = false)
    (hn : Nexts f fs g) {n : Nat} (hlt : f.rest.length < n) :
    List.Forall₂ HoldsField (pbNextFields n f.rest).1 fs ∧ g.eom = (pbNextFields n f.rest).2 := by
  induction hn generalizing n with
  | @done f g hcall =>
    obtain ⟨ret, f', htag, -, -, hres⟩ := pbDecodeTag_refines h
    rw [pbNext, htag] at hcall
    obtain ⟨hret, rfl⟩ := Prod.mk.inj (Option.some_inj.mp hcall)
    obtain ⟨n, rfl⟩ : ∃ m, n = m + 1 := ⟨n - 1, by omega⟩
    rw [pbNextFields]
    cases hd : MysqlProxy.pbDecodeTag f.rest with
    | error eom =>
      rw [hd] at hres
      refine ⟨.nil, ?_⟩
      rw [hres.2, heom, Bool.false_or]
    | ok p =>
      rw [hd] at hres
      exact absurd (beq_iff_eq.mpr hres.1) (by rw [hret]; decide)
  | @field f f' g fs hcall hnexts ih =>
    obtain ⟨ret, k, htag, hin, -, hres⟩ := pbDecodeTag_refines h
    rw [pbNext, htag] at hcall
    obtain ⟨hret, rfl⟩ := Prod.mk.inj (Option.some_inj.mp hcall)
    obtain ⟨n, rfl⟩ : ∃ m, n = m + 1 := ⟨n - 1, by omega⟩
    rw [pbNextFields]
    cases hd : MysqlProxy.pbDecodeTag f.rest with
    | error eom =>
      rw [hd] at hres
      exact absurd (eq_of_beq hret) hres.1
    | ok p =>
      obtain ⟨field, l⟩ := p
      rw [hd] at hres
      obtain ⟨-, rfl, heom', htag', -, hval⟩ := hres
      have hsize := size_le_taken hd
      have htwo := two_le_size field
      have hrec := @ih hin (heom'.trans heom) n (by omega)
      exact ⟨.cons ⟨htag', hval⟩ hrec.1, hrec.2⟩

end PbCursor

end MysqlProxy
